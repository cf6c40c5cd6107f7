import AscendShmem.Lib.MessageStream

/-!
# The ring allgather

`aclshmemi_bootstrap_uid_allgather` of `shmemi_bootstrap_uid.cpp` over `socket_send` and
`socket_recv`. Every rank sends to its successor and receives from its predecessor, slice after
slice: in round `i` it forwards the slice it has received in round `i - 1`. Both socket loops move
the bytes in pieces of any size, so a rank may stand anywhere inside a slice, and its neighbours in
other rounds or in other calls.

A channel is the bytes under way. A byte carries the number of the call that has sent it; the code
has no such tag, and no step reads it.
-/

namespace AscendShmem.UidBootstrap

open Lib

/-! ## Calls -/

/-- The calls of `n` ranks: call `c` gathers `len c` bytes from each. What a rank brings to a call
is its buffers at that time. -/
structure Calls (n : ℕ) where
  len : ℕ → ℕ
  /-- `in` is `BOOTSTRAP_IN_PLACE` -/
  inPlace : ℕ → ℕ → Bool
  /-- the bytes of `in`, by rank and call -/
  input : ℕ → ℕ → ℕ → UInt8
  /-- the bytes of `out` on entry, by rank and call -/
  before : ℕ → ℕ → ℕ → UInt8
  len_pos : ∀ c, 0 < len c
  /-- the offsets of `out` are computed as `int` -/
  fits : ∀ c, n * len c < 2 ^ 31

variable {n : ℕ}

/-- What rank `r` gives to call `c`. -/
def Calls.contribution (calls : Calls n) (r c k : ℕ) : UInt8 :=
  if calls.inPlace r c then calls.before r c (r * calls.len c + k) else calls.input r c k

/-- `send_buf` copied to the own slice, unless the call is in place. -/
def Calls.enterOut (calls : Calls n) (r c : ℕ) : ℕ → UInt8 :=
  if calls.inPlace r c then calls.before r c
  else fun p =>
    if (r % n) * calls.len c ≤ p ∧ p < (r % n) * calls.len c + calls.len c then
      calls.input r c (p - (r % n) * calls.len c)
    else calls.before r c p

/-- `recv` of `bytes` at offset `at_` of a buffer. -/
def writeBytes (out : ℕ → UInt8) (at_ : ℕ) (bytes : List UInt8) : ℕ → UInt8 := fun p =>
  if at_ ≤ p ∧ p < at_ + bytes.length then bytes.getD (p - at_) 0 else out p

/-! ## States -/

/-- Where a rank stands in a call: in round `i` with `off` bytes of the slice moved. -/
inductive Pc where
  | idle
  | sending (i off : ℕ)
  | receiving (i off : ℕ)
deriving DecidableEq, Repr

/-- The state of a rank. -/
structure RankState where
  /-- the calls that have returned success -/
  calls : ℕ
  pc : Pc
  out : ℕ → UInt8
  /-- a socket call has failed; the rank makes no further calls -/
  failed : Bool

/-- The ranks, and the bytes on their way. -/
structure RingState where
  rank : ℕ → RankState
  /-- the bytes on the way from a rank to its successor, oldest first -/
  channel : ℕ → List (UInt8 × ℕ)

/-- The rank sent to. -/
def succRank (n r : ℕ) : ℕ := (r + 1) % n
/-- The rank received from. -/
def predRank (n r : ℕ) : ℕ := (r + n - 1) % n

/-- `sslice` -/
def sendSlice (n r i : ℕ) : ℕ := (r + n - i) % n
/-- `rslice` -/
def recvSlice (n r i : ℕ) : ℕ := (r + n - i - 1) % n

/-- The loop head with `i` rounds done. -/
def atRound (n : ℕ) (st : RankState) (i : ℕ) : RankState :=
  if i < n - 1 then { st with pc := .sending i 0 }
  else { st with
    pc := .idle
    calls := st.calls + 1 }

/-- A rank that has called. -/
def enterCall (calls : Calls n) (r : ℕ) (st : RankState) : RankState :=
  atRound n { st with out := calls.enterOut r st.calls } 0

/-- The bytes `socket_send` moves next. -/
def sentBytes (calls : Calls n) (r : ℕ) (st : RankState) (i off k : ℕ) : List (UInt8 × ℕ) :=
  (List.range k).map fun j =>
    (st.out (sendSlice n r i * calls.len st.calls + off + j), st.calls)

/-- A rank after `k` more bytes of round `i` have gone out. -/
def afterSend (calls : Calls n) (st : RankState) (i off k : ℕ) : RankState :=
  { st with
    pc := if off + k < calls.len st.calls then .sending i (off + k) else .receiving i 0 }

/-- A rank after it has received `bytes` in round `i`. -/
def afterRecv (calls : Calls n) (r : ℕ) (st : RankState) (i off : ℕ) (bytes : List UInt8) :
    RankState :=
  let st := { st with
    out := writeBytes st.out (recvSlice n r i * calls.len st.calls + off) bytes }
  if off + bytes.length < calls.len st.calls then
    { st with pc := .receiving i (off + bytes.length) }
  else atRound n st (i + 1)

/-- One step of rank `r`, which receives what `source` sends. `capacity r` is how many bytes the
channel of rank `r` can buffer. -/
inductive RankStep (calls : Calls n) (capacity : ℕ → ℕ) (source r : ℕ) :
    RingState → RingState → Prop where
  | enter {st : RingState} (hr : r < n) (hfailed : (st.rank r).failed = false)
      (hpc : (st.rank r).pc = .idle) :
      RankStep calls capacity source r st
        { st with rank := Function.update st.rank r (enterCall calls r (st.rank r)) }
  | send {st : RingState} {i off k : ℕ} (hr : r < n) (hfailed : (st.rank r).failed = false)
      (hpc : (st.rank r).pc = .sending i off) (hk : 0 < k)
      (hle : off + k ≤ calls.len (st.rank r).calls)
      (hroom : (st.channel r).length + k ≤ capacity r) :
      RankStep calls capacity source r st
        { rank := Function.update st.rank r (afterSend calls (st.rank r) i off k)
          channel := Function.update st.channel r
            (st.channel r ++ sentBytes calls r (st.rank r) i off k) }
  | recv {st : RingState} {i off k : ℕ} (hr : r < n) (hfailed : (st.rank r).failed = false)
      (hpc : (st.rank r).pc = .receiving i off) (hk : 0 < k)
      (hle : off + k ≤ calls.len (st.rank r).calls)
      (hready : k ≤ (st.channel source).length) :
      RankStep calls capacity source r st
        { rank := Function.update st.rank r (afterRecv calls r (st.rank r) i off
            (((st.channel source).take k).map Prod.fst))
          channel := Function.update st.channel source ((st.channel source).drop k) }
  /-- `poll` times out, or the socket reports an error. -/
  | fail {st : RingState} (hr : r < n) (hpc : (st.rank r).pc ≠ .idle) :
      RankStep calls capacity source r st
        { st with rank := Function.update st.rank r { st.rank r with failed := true } }

/-- One step of the ring: a rank receives what its predecessor sends. -/
def RingStep (calls : Calls n) (capacity : ℕ → ℕ) (st st' : RingState) : Prop :=
  ∃ r, RankStep calls capacity (predRank n r) r st st'

/-- Connected, and nothing called yet. -/
def RingState.init : RingState where
  rank _ := { calls := 0, pc := .idle, out := fun _ => 0, failed := false }
  channel _ := []

/-- The states of runs. -/
inductive RingReachable (calls : Calls n) (capacity : ℕ → ℕ) : RingState → Prop where
  | init : RingReachable calls capacity RingState.init
  | step {st st' : RingState} (h : RingReachable calls capacity st)
      (hstep : RingStep calls capacity st st') : RingReachable calls capacity st'

section Slices

variable {r i j s : ℕ}

theorem succRank_lt (hr : r < n) : succRank n r < n := Nat.mod_lt _ (by omega)

theorem predRank_lt (hr : r < n) : predRank n r < n := Nat.mod_lt _ (by omega)

theorem succRank_predRank (hr : r < n) : succRank n (predRank n r) = r := by
  unfold succRank predRank
  rw [Nat.mod_add_mod, show r + n - 1 + 1 = r + n by omega, Nat.add_mod_right,
    Nat.mod_eq_of_lt hr]

/-- Only the predecessor has a rank as its successor. -/
theorem eq_predRank (hs : s < n) (h : succRank n s = r) : s = predRank n r := by
  subst h
  unfold succRank predRank
  rcases Nat.lt_or_ge (s + 1) n with hlt | hge
  · rw [Nat.mod_eq_of_lt hlt, show s + 1 + n - 1 = s + n by omega, Nat.add_mod_right,
      Nat.mod_eq_of_lt hs]
  · rw [show s + 1 = n by omega, Nat.mod_self, Nat.zero_add, Nat.mod_eq_of_lt (by omega)]
    omega

theorem recvSlice_eq : recvSlice n r i = sendSlice n r (i + 1) := by
  unfold recvSlice sendSlice
  rw [Nat.sub_sub]

/-- A rank receives what its predecessor sends. -/
theorem sendSlice_predRank (hr : r < n) (hi : i < n - 1) :
    sendSlice n (predRank n r) i = recvSlice n r i := by
  unfold sendSlice predRank recvSlice
  rcases Nat.eq_zero_or_pos r with hzero | hpos
  · rw [hzero, Nat.zero_add, Nat.mod_eq_of_lt (a := n - 1) (by omega),
      show n - 1 + n - i = (n - i - 1) + n by omega, Nat.add_mod_right]
  · rw [show r + n - 1 = r - 1 + n by omega, Nat.add_mod_right,
      Nat.mod_eq_of_lt (a := r - 1) (by omega), show r - 1 + n - i = r + n - i - 1 by omega]

theorem sendSlice_zero (hr : r < n) : sendSlice n r 0 = r := by
  unfold sendSlice
  rw [Nat.sub_zero, Nat.add_mod_right, Nat.mod_eq_of_lt hr]

theorem sendSlice_of_le (hr : r < n) (hj : j ≤ r) : sendSlice n r j = r - j := by
  unfold sendSlice
  rw [show r + n - j = r - j + n by omega, Nat.add_mod_right, Nat.mod_eq_of_lt (by omega)]

theorem sendSlice_of_lt (hj : r < j) (hjn : j < n) : sendSlice n r j = r + n - j :=
  Nat.mod_eq_of_lt (by omega)

/-- Slices of different rounds are different. -/
theorem sendSlice_inj (hr : r < n) (hi : i < n) (hj : j < n)
    (h : sendSlice n r i = sendSlice n r j) : i = j := by
  rcases Nat.lt_or_ge r i with hri | hri
  · rw [sendSlice_of_lt hri hi] at h
    rcases Nat.lt_or_ge r j with hrj | hrj
    · rw [sendSlice_of_lt hrj hj] at h
      omega
    · rw [sendSlice_of_le hr hrj] at h
      omega
  · rw [sendSlice_of_le hr hri] at h
    rcases Nat.lt_or_ge r j with hrj | hrj
    · rw [sendSlice_of_lt hrj hj] at h
      omega
    · rw [sendSlice_of_le hr hrj] at h
      omega

theorem predRank_sendSlice (hr : r < n) (hj : j < n) :
    predRank n (sendSlice n r j) = sendSlice n r (j + 1) := by
  unfold predRank sendSlice
  rw [show (r + n - j) % n + n - 1 = (r + n - j) % n + (n - 1) by omega, Nat.mod_add_mod,
    show r + n - j + (n - 1) = r + n - (j + 1) + n by omega, Nat.add_mod_right]

/-- After all rounds every slice has come by. -/
theorem exists_sendSlice (hr : r < n) (hs : s < n) : ∃ j ≤ n - 1, sendSlice n r j = s := by
  rcases Nat.lt_or_ge r s with hlt | hge
  · exact ⟨r + n - s, by omega, by rw [sendSlice_of_lt (by omega) (by omega)]; omega⟩
  · exact ⟨r - s, by omega, by rw [sendSlice_of_le hr (by omega)]; omega⟩

end Slices

/-! ## Buffers -/

/-- The first `bound` bytes of slice `s` are what rank `s` has given. -/
def Holds (calls : Calls n) (out : ℕ → UInt8) (c s bound : ℕ) : Prop :=
  ∀ k < bound, out (s * calls.len c + k) = calls.contribution s c k

section Buffers

variable {calls : Calls n} {r c s off : ℕ} {out : ℕ → UInt8} {bytes : List UInt8}

theorem writeBytes_inside {p at_ : ℕ} (h₁ : at_ ≤ p) (h₂ : p < at_ + bytes.length) :
    writeBytes out at_ bytes p = bytes.getD (p - at_) 0 := if_pos ⟨h₁, h₂⟩

theorem writeBytes_outside {p at_ : ℕ} (h : ¬ (at_ ≤ p ∧ p < at_ + bytes.length)) :
    writeBytes out at_ bytes p = out p := if_neg h

/-- Places of different slices are different. -/
theorem slice_place_ne {L k l t : ℕ} (hst : s ≠ t) (hk : k < L) (hl : l < L) :
    s * L + k ≠ t * L + l := by
  intro h
  rcases Nat.lt_or_gt_of_ne hst with hlt | hgt
  · have hle : (s + 1) * L ≤ t * L := Nat.mul_le_mul_right _ hlt
    rw [Nat.add_mul, Nat.one_mul] at hle
    omega
  · have hle : (t + 1) * L ≤ s * L := Nat.mul_le_mul_right _ hgt
    rw [Nat.add_mul, Nat.one_mul] at hle
    omega

/-- Bytes received into one slice leave the others. -/
theorem Holds.write_other {t bound : ℕ} (h : Holds calls out c s bound) (hst : s ≠ t)
    (hbound : bound ≤ calls.len c) (hend : off + bytes.length ≤ calls.len c) :
    Holds calls (writeBytes out (t * calls.len c + off) bytes) c s bound := by
  intro k hk
  rw [writeBytes_outside, h k hk]
  intro hin
  have hne := slice_place_ne (l := s * calls.len c + k - t * calls.len c) hst
    (show k < calls.len c by omega) (by omega)
  omega

/-- The next bytes of a slice. -/
theorem Holds.write_next (h : Holds calls out c s off)
    (hbytes : ∀ j < bytes.length, bytes.getD j 0 = calls.contribution s c (off + j)) :
    Holds calls (writeBytes out (s * calls.len c + off) bytes) c s (off + bytes.length) := by
  intro k hk
  rcases Nat.lt_or_ge k off with hlt | hge
  · rw [writeBytes_outside (by omega), h k hlt]
  · rw [writeBytes_inside (by omega) (by omega),
      show s * calls.len c + k - (s * calls.len c + off) = k - off by omega, hbytes _ (by omega),
      show off + (k - off) = k by omega]

/-- A rank that has called holds what it gives. -/
theorem enterOut_holds (hr : r < n) (c : ℕ) :
    Holds calls (calls.enterOut r c) c r (calls.len c) := by
  intro k hk
  unfold Calls.enterOut Calls.contribution
  cases calls.inPlace r c with
  | true => rfl
  | false =>
    rw [if_neg Bool.false_ne_true, if_neg Bool.false_ne_true, Nat.mod_eq_of_lt hr,
      if_pos ⟨Nat.le_add_right _ _, by omega⟩, Nat.add_sub_cancel_left]

end Buffers

/-! ## The stream of a channel -/

/-- The length of message `m` of a channel: round `m % (n - 1)` of call `m / (n - 1)`. -/
def messageLen (calls : Calls n) (m : ℕ) : ℕ := calls.len (m / (n - 1))

/-- What rank `r` sends, message by message. -/
def messageOf (calls : Calls n) (r m k : ℕ) : UInt8 × ℕ :=
  (calls.contribution (sendSlice n r (m % (n - 1))) (m / (n - 1)) k, m / (n - 1))

/-- The place in the stream of its channel up to which a rank has sent. -/
def sentPlace (calls : Calls n) (st : RankState) : ℕ :=
  match st.pc with
  | .idle => placeOf (messageLen calls) (st.calls * (n - 1))
  | .sending i off => placeOf (messageLen calls) (st.calls * (n - 1) + i) + off
  | .receiving i _ => placeOf (messageLen calls) (st.calls * (n - 1) + i + 1)

/-- The place in the stream of its predecessor up to which a rank has received. -/
def recvPlace (calls : Calls n) (st : RankState) : ℕ :=
  match st.pc with
  | .idle => placeOf (messageLen calls) (st.calls * (n - 1))
  | .sending i _ => placeOf (messageLen calls) (st.calls * (n - 1) + i)
  | .receiving i off => placeOf (messageLen calls) (st.calls * (n - 1) + i) + off

/-- What rank `r` holds where it stands. -/
def RankOk (calls : Calls n) (r : ℕ) (st : RankState) : Prop :=
  match st.pc with
  | .idle => ∀ c, st.calls = c + 1 → ∀ s < n, Holds calls st.out c s (calls.len c)
  | .sending i off => i < n - 1 ∧ off < calls.len st.calls ∧
      ∀ j ≤ i, Holds calls st.out st.calls (sendSlice n r j) (calls.len st.calls)
  | .receiving i off => i < n - 1 ∧ off < calls.len st.calls ∧
      (∀ j ≤ i, Holds calls st.out st.calls (sendSlice n r j) (calls.len st.calls)) ∧
      Holds calls st.out st.calls (recvSlice n r i) off

/-- A channel holds what its rank has sent and the successor has not received. -/
structure RingInv (calls : Calls n) (st : RingState) : Prop where
  rank : ∀ r < n, RankOk calls r (st.rank r)
  order : ∀ r < n, recvPlace calls (st.rank (succRank n r)) ≤ sentPlace calls (st.rank r)
  channel : ∀ r < n, st.channel r = window (messageLen calls) (messageOf calls r)
    (recvPlace calls (st.rank (succRank n r))) (sentPlace calls (st.rank r))

section Stream

variable {calls : Calls n} {r c i off : ℕ} {rs : RankState}

theorem messageLen_pos (m : ℕ) : 0 < messageLen calls m := calls.len_pos _

theorem round_div (hi : i < n - 1) : (c * (n - 1) + i) / (n - 1) = c := by
  rw [Nat.mul_comm, Nat.mul_add_div (by omega), Nat.div_eq_of_lt hi, Nat.add_zero]

theorem round_mod (hi : i < n - 1) : (c * (n - 1) + i) % (n - 1) = i := by
  rw [Nat.mul_comm, Nat.mul_add_mod, Nat.mod_eq_of_lt hi]

theorem messageLen_round (hi : i < n - 1) :
    messageLen calls (c * (n - 1) + i) = calls.len c := by
  unfold messageLen
  rw [round_div hi]

theorem messageOf_round (hi : i < n - 1) (k : ℕ) :
    messageOf calls r (c * (n - 1) + i) k = (calls.contribution (sendSlice n r i) c k, c) := by
  unfold messageOf
  rw [round_div hi, round_mod hi]

theorem placeOf_round (hi : i < n - 1) :
    placeOf (messageLen calls) (c * (n - 1) + i + 1)
      = placeOf (messageLen calls) (c * (n - 1) + i) + calls.len c := by
  rw [placeOf_succ, messageLen_round hi]

/-- A piece of round `i` of call `c`. -/
theorem window_round (hi : i < n - 1) {k : ℕ} (h : off + k ≤ calls.len c) :
    window (messageLen calls) (messageOf calls r)
        (placeOf (messageLen calls) (c * (n - 1) + i) + off)
        (placeOf (messageLen calls) (c * (n - 1) + i) + off + k)
      = (List.range k).map fun j =>
          (calls.contribution (sendSlice n r i) c (off + j), c) := by
  have hlen : off + k ≤ messageLen calls (c * (n - 1) + i) := by
    rw [messageLen_round hi]
    exact h
  rw [window_message messageLen_pos _ hlen]
  apply List.map_congr_left
  intro j _
  exact messageOf_round hi _

/-- The loop head stands between two rounds. -/
theorem atRound_places (hi : i ≤ n - 1) :
    sentPlace calls (atRound n rs i) = placeOf (messageLen calls) (rs.calls * (n - 1) + i) ∧
      recvPlace calls (atRound n rs i) = placeOf (messageLen calls) (rs.calls * (n - 1) + i) := by
  unfold atRound
  by_cases hlt : i < n - 1
  · rw [if_pos hlt]
    exact ⟨rfl, rfl⟩
  · rw [if_neg hlt, show i = n - 1 by omega]
    unfold sentPlace recvPlace
    simp only []
    rw [Nat.add_mul, Nat.one_mul]
    exact ⟨rfl, rfl⟩

/-- The loop head with the slices of `i` rounds. -/
theorem atRound_ok (hr : r < n) (hi : i ≤ n - 1)
    (h : ∀ j ≤ i, Holds calls rs.out rs.calls (sendSlice n r j) (calls.len rs.calls)) :
    RankOk calls r (atRound n rs i) := by
  unfold atRound
  by_cases hlt : i < n - 1
  · rw [if_pos hlt]
    exact ⟨hlt, calls.len_pos _, h⟩
  · rw [if_neg hlt]
    intro c hc s hs
    have hcall : rs.calls = c := Nat.succ.inj hc
    -- all slices have come by
    obtain ⟨j, hj, rfl⟩ := exists_sendSlice hr hs
    rw [← hcall]
    exact h j (by omega)

/-! ## One rank moves -/

/-- A rank that enters a call has its own slice. -/
theorem enterCall_ok (hr : r < n) (rs : RankState) : RankOk calls r (enterCall calls r rs) := by
  unfold enterCall
  apply atRound_ok hr (Nat.zero_le _)
  intro j hj
  rw [show j = 0 by omega, sendSlice_zero hr]
  exact enterOut_holds hr _

theorem enterCall_places (hpc : rs.pc = .idle) :
    sentPlace calls (enterCall calls r rs) = sentPlace calls rs ∧
      recvPlace calls (enterCall calls r rs) = recvPlace calls rs := by
  unfold enterCall
  rw [(atRound_places (Nat.zero_le (n - 1))).1, (atRound_places (Nat.zero_le (n - 1))).2]
  unfold sentPlace recvPlace
  rw [hpc]
  exact ⟨rfl, rfl⟩

/-- A rank that sends has what it had. -/
theorem afterSend_ok (h : RankOk calls r rs) (hpc : rs.pc = .sending i off) (k : ℕ) :
    RankOk calls r (afterSend calls rs i off k) := by
  unfold RankOk at h
  rw [hpc] at h
  obtain ⟨hi, hoff, hholds⟩ := h
  unfold afterSend
  by_cases hlt : off + k < calls.len rs.calls
  · rw [if_pos hlt]
    exact ⟨hi, hlt, hholds⟩
  · rw [if_neg hlt]
    exact ⟨hi, calls.len_pos _, hholds, fun k hk => absurd hk (Nat.not_lt_zero k)⟩

theorem afterSend_places (h : RankOk calls r rs) (hpc : rs.pc = .sending i off) {k : ℕ}
    (hle : off + k ≤ calls.len rs.calls) :
    sentPlace calls (afterSend calls rs i off k) = sentPlace calls rs + k ∧
      recvPlace calls (afterSend calls rs i off k) = recvPlace calls rs := by
  unfold RankOk at h
  rw [hpc] at h
  obtain ⟨hi, hoff, _⟩ := h
  unfold afterSend sentPlace recvPlace
  rw [hpc]
  by_cases hlt : off + k < calls.len rs.calls
  · rw [if_pos hlt]
    exact ⟨(Nat.add_assoc _ _ _).symm, rfl⟩
  · rw [if_neg hlt]
    simp only []
    rw [placeOf_round hi]
    exact ⟨by omega, rfl⟩

/-- The bytes that go out are the next of the stream. -/
theorem sentBytes_eq (h : RankOk calls r rs) (hpc : rs.pc = .sending i off) {k : ℕ}
    (hle : off + k ≤ calls.len rs.calls) :
    sentBytes calls r rs i off k = window (messageLen calls) (messageOf calls r)
      (sentPlace calls rs) (sentPlace calls rs + k) := by
  unfold RankOk at h
  rw [hpc] at h
  obtain ⟨hi, hoff, hholds⟩ := h
  unfold sentPlace
  rw [hpc]
  simp only []
  rw [window_round hi hle]
  apply List.map_congr_left
  intro j hj
  have hj := List.mem_range.mp hj
  rw [Nat.add_assoc, hholds i (le_refl i) _ (by omega)]

/-- The bytes of a rank's own round. -/
def roundBytes (calls : Calls n) (r c i off k : ℕ) : List UInt8 :=
  (List.range k).map fun j => calls.contribution (recvSlice n r i) c (off + j)

/-- A rank that receives has the slice. -/
theorem afterRecv_ok (hr : r < n) (h : RankOk calls r rs) (hpc : rs.pc = .receiving i off) {k : ℕ}
    (hle : off + k ≤ calls.len rs.calls) :
    RankOk calls r (afterRecv calls r rs i off (roundBytes calls r rs.calls i off k)) := by
  unfold RankOk at h
  rw [hpc] at h
  obtain ⟨hi, hoff, hholds, hpart⟩ := h
  have hlen : (roundBytes calls r rs.calls i off k).length = k := by
    rw [roundBytes, List.length_map, List.length_range]
  have hbytes : ∀ j < (roundBytes calls r rs.calls i off k).length,
      (roundBytes calls r rs.calls i off k).getD j 0
        = calls.contribution (recvSlice n r i) rs.calls (off + j) := by
    intro j hj
    rw [hlen] at hj
    rw [roundBytes, List.getD_eq_getElem?_getD, List.getElem?_map, List.getElem?_range hj]
    rfl
  have hnext := hpart.write_next hbytes
  have hothers : ∀ j ≤ i, Holds calls (writeBytes rs.out
      (recvSlice n r i * calls.len rs.calls + off) (roundBytes calls r rs.calls i off k)) rs.calls
      (sendSlice n r j) (calls.len rs.calls) := by
    intro j hj
    apply (hholds j hj).write_other _ (le_refl _) (by rw [hlen]; exact hle)
    rw [recvSlice_eq]
    intro heq
    have hsame := sendSlice_inj hr (by omega) (by omega) heq
    omega
  rw [hlen] at hnext
  unfold afterRecv
  simp only []
  rw [hlen]
  by_cases hlt : off + k < calls.len rs.calls
  · rw [if_pos hlt]
    exact ⟨hi, hlt, hothers, hnext⟩
  · rw [if_neg hlt]
    apply atRound_ok hr (by omega)
    intro j hj
    rcases Nat.lt_or_ge i j with hij | hij
    · rw [show j = i + 1 by omega, ← recvSlice_eq]
      rw [show off + k = calls.len rs.calls by omega] at hnext
      exact hnext
    · exact hothers j hij

theorem afterRecv_places (h : RankOk calls r rs) (hpc : rs.pc = .receiving i off)
    {bytes : List UInt8} (hle : off + bytes.length ≤ calls.len rs.calls) :
    sentPlace calls (afterRecv calls r rs i off bytes) = sentPlace calls rs ∧
      recvPlace calls (afterRecv calls r rs i off bytes)
        = recvPlace calls rs + bytes.length := by
  unfold RankOk at h
  rw [hpc] at h
  obtain ⟨hi, hoff, _⟩ := h
  unfold afterRecv
  simp only []
  by_cases hlt : off + bytes.length < calls.len rs.calls
  · rw [if_pos hlt]
    unfold sentPlace recvPlace
    rw [hpc]
    exact ⟨rfl, (Nat.add_assoc _ _ _).symm⟩
  · rw [if_neg hlt, (atRound_places (by omega)).1, (atRound_places (by omega)).2]
    unfold sentPlace recvPlace
    rw [hpc]
    simp only []
    rw [← Nat.add_assoc, placeOf_round hi]
    exact ⟨rfl, by omega⟩

end Stream

/-! ## The ring moves -/

section Ring

variable {calls : Calls n} {capacity : ℕ → ℕ} {st st' : RingState} {r i off k : ℕ}

/-- The invariant holds at the start. -/
theorem RingInv.init : RingInv calls RingState.init where
  rank _ _ := by
    intro c hc
    exact absurd hc (Nat.succ_ne_zero c).symm
  order _ _ := by
    unfold RingState.init sentPlace recvPlace
    exact le_refl _
  channel _ _ := by
    unfold RingState.init sentPlace recvPlace
    exact (window_self _ _).symm

/-- A rank that stays at its places leaves the channels in order. -/
theorem RingInv.stay (h : RingInv calls st) {rs : RankState} (hok : RankOk calls r rs)
    (hsent : sentPlace calls rs = sentPlace calls (st.rank r))
    (hrecv : recvPlace calls rs = recvPlace calls (st.rank r)) :
    RingInv calls { st with rank := Function.update st.rank r rs } := by
  have hsents : ∀ q, sentPlace calls (Function.update st.rank r rs q)
      = sentPlace calls (st.rank q) := by
    intro q
    by_cases hq : q = r
    · rw [hq, Function.update_self, hsent]
    · rw [Function.update_of_ne hq]
  have hrecvs : ∀ q, recvPlace calls (Function.update st.rank r rs q)
      = recvPlace calls (st.rank q) := by
    intro q
    by_cases hq : q = r
    · rw [hq, Function.update_self, hrecv]
    · rw [Function.update_of_ne hq]
  refine ⟨?_, ?_, ?_⟩
  · intro q hq
    by_cases hqr : q = r
    · show RankOk calls q (Function.update st.rank r rs q)
      rw [hqr, Function.update_self]
      exact hok
    · show RankOk calls q (Function.update st.rank r rs q)
      rw [Function.update_of_ne hqr]
      exact h.rank q hq
  · intro q hq
    show recvPlace calls (Function.update st.rank r rs _)
      ≤ sentPlace calls (Function.update st.rank r rs q)
    rw [hsents, hrecvs]
    exact h.order q hq
  · intro q hq
    show st.channel q = window _ _ (recvPlace calls (Function.update st.rank r rs _))
      (sentPlace calls (Function.update st.rank r rs q))
    rw [hsents, hrecvs]
    exact h.channel q hq

/-- A send keeps it. -/
theorem RingInv.send (h : RingInv calls st) (hr : r < n) (hpc : (st.rank r).pc = .sending i off)
    (hle : off + k ≤ calls.len (st.rank r).calls) :
    RingInv calls
      { rank := Function.update st.rank r (afterSend calls (st.rank r) i off k)
        channel := Function.update st.channel r
          (st.channel r ++ sentBytes calls r (st.rank r) i off k) } := by
  have hok := h.rank r hr
  obtain ⟨hsent, hrecv⟩ := afterSend_places hok hpc hle
  have hrecvs : ∀ q, recvPlace calls (Function.update st.rank r
      (afterSend calls (st.rank r) i off k) q) = recvPlace calls (st.rank q) := by
    intro q
    by_cases hq : q = r
    · rw [hq, Function.update_self, hrecv]
    · rw [Function.update_of_ne hq]
  refine ⟨?_, ?_, ?_⟩
  · intro q hq
    show RankOk calls q (Function.update st.rank r _ q)
    by_cases hqr : q = r
    · rw [hqr, Function.update_self]
      exact afterSend_ok hok hpc k
    · rw [Function.update_of_ne hqr]
      exact h.rank q hq
  · intro q hq
    show recvPlace calls (Function.update st.rank r _ _)
      ≤ sentPlace calls (Function.update st.rank r _ q)
    rw [hrecvs]
    have hq' := h.order q hq
    by_cases hqr : q = r
    · rw [hqr, Function.update_self, hsent]
      rw [hqr] at hq'
      omega
    · rw [Function.update_of_ne hqr]
      exact hq'
  · intro q hq
    show Function.update st.channel r _ q = window _ _
      (recvPlace calls (Function.update st.rank r _ _))
      (sentPlace calls (Function.update st.rank r _ q))
    rw [hrecvs]
    by_cases hqr : q = r
    · rw [hqr, Function.update_self, Function.update_self, hsent, h.channel r hr,
        sentBytes_eq hok hpc hle]
      exact window_append _ (h.order r hr) (Nat.le_add_right _ _)
    · rw [Function.update_of_ne hqr, Function.update_of_ne hqr]
      exact h.channel q hq

/-- What a rank takes from its predecessor's channel. -/
theorem RingInv.taken (h : RingInv calls st) (hr : r < n)
    (hpc : (st.rank r).pc = .receiving i off) (hle : off + k ≤ calls.len (st.rank r).calls)
    (hready : k ≤ (st.channel (predRank n r)).length) :
    (st.channel (predRank n r)).take k = (List.range k).map fun j =>
      (calls.contribution (recvSlice n r i) (st.rank r).calls (off + j), (st.rank r).calls) := by
  have hok := h.rank r hr
  unfold RankOk at hok
  rw [hpc] at hok
  obtain ⟨hi, hoff, _⟩ := hok
  have hchannel := h.channel _ (predRank_lt hr)
  rw [succRank_predRank hr] at hchannel
  rw [hchannel, length_window] at hready
  have horder := h.order _ (predRank_lt hr)
  rw [succRank_predRank hr] at horder
  rw [hchannel, take_window _ (by omega)]
  unfold recvPlace
  rw [hpc]
  simp only []
  rw [window_round hi hle, sendSlice_predRank hr hi]

theorem RingInv.recv (h : RingInv calls st) (hr : r < n)
    (hpc : (st.rank r).pc = .receiving i off) (hle : off + k ≤ calls.len (st.rank r).calls)
    (hready : k ≤ (st.channel (predRank n r)).length) :
    RingInv calls
      { rank := Function.update st.rank r (afterRecv calls r (st.rank r) i off
          (((st.channel (predRank n r)).take k).map Prod.fst))
        channel := Function.update st.channel (predRank n r)
          ((st.channel (predRank n r)).drop k) } := by
  have hok := h.rank r hr
  -- the first bytes on the link are the next ones of the slice that is due
  have hbytes : ((st.channel (predRank n r)).take k).map Prod.fst
      = roundBytes calls r (st.rank r).calls i off k := by
    rw [h.taken hr hpc hle hready, List.map_map]
    rfl
  have hlen : (roundBytes calls r (st.rank r).calls i off k).length = k := by
    rw [roundBytes, List.length_map, List.length_range]
  rw [hbytes]
  obtain ⟨hsent, hrecv⟩ := afterRecv_places hok hpc
    (by rw [hlen]; exact hle : off + (roundBytes calls r (st.rank r).calls i off k).length ≤ _)
  rw [hlen] at hrecv
  have hchannel := h.channel _ (predRank_lt hr)
  have horder := h.order _ (predRank_lt hr)
  rw [succRank_predRank hr] at hchannel horder
  have hroom := hready
  rw [hchannel, length_window] at hroom
  -- nothing is sent, so only the window of this link moves
  have hsents : ∀ q, sentPlace calls (Function.update st.rank r
      (afterRecv calls r (st.rank r) i off (roundBytes calls r (st.rank r).calls i off k)) q)
        = sentPlace calls (st.rank q) := by
    intro q
    by_cases hq : q = r
    · rw [hq, Function.update_self, hsent]
    · rw [Function.update_of_ne hq]
  refine ⟨?_, ?_, ?_⟩
  · intro q hq
    show RankOk calls q (Function.update st.rank r _ q)
    by_cases hqr : q = r
    · rw [hqr, Function.update_self]
      exact afterRecv_ok hr hok hpc hle
    · rw [Function.update_of_ne hqr]
      exact h.rank q hq
  · intro q hq
    show recvPlace calls (Function.update st.rank r _ (succRank n q))
      ≤ sentPlace calls (Function.update st.rank r _ q)
    rw [hsents]
    by_cases hqr : succRank n q = r
    · rw [hqr, Function.update_self, hrecv, eq_predRank hq hqr]
      omega
    · rw [Function.update_of_ne hqr]
      exact h.order q hq
  · intro q hq
    show Function.update st.channel (predRank n r) _ q = window _ _
      (recvPlace calls (Function.update st.rank r _ (succRank n q)))
      (sentPlace calls (Function.update st.rank r _ q))
    rw [hsents]
    by_cases hqr : succRank n q = r
    · rw [hqr, eq_predRank hq hqr, Function.update_self, Function.update_self, hrecv, hchannel]
      exact drop_window _ (by omega)
    · have hqp : q ≠ predRank n r := fun heq => hqr (by rw [heq, succRank_predRank hr])
      rw [Function.update_of_ne hqr, Function.update_of_ne hqp]
      exact h.channel q hq

/-- Only ranks step. -/
theorem RankStep.lt {source : ℕ} (h : RankStep calls capacity source r st st') : r < n := by
  cases h with
  | enter hr => exact hr
  | send hr => exact hr
  | recv hr => exact hr
  | fail hr => exact hr

theorem RankStep.frame {source q : ℕ} (h : RankStep calls capacity source r st st') (hq : q ≠ r) :
    st'.rank q = st.rank q := by
  cases h with
  | enter => exact Function.update_of_ne hq ..
  | send => exact Function.update_of_ne hq ..
  | recv => exact Function.update_of_ne hq ..
  | fail => exact Function.update_of_ne hq ..

/-- A step keeps the invariant. -/
theorem RingInv.step (h : RingInv calls st) (hstep : RingStep calls capacity st st') :
    RingInv calls st' := by
  obtain ⟨r, hstep⟩ := hstep
  cases hstep with
  | enter hr hfailed hpc =>
    obtain ⟨hsent, hrecv⟩ := enterCall_places (r := r) hpc
    exact h.stay (enterCall_ok hr _) hsent hrecv
  | send hr hfailed hpc hk hle hroom => exact h.send hr hpc hle
  | recv hr hfailed hpc hk hle hready => exact h.recv hr hpc hle hready
  | fail hr hpc => exact h.stay (h.rank r hr) rfl rfl

theorem RingReachable.inv (h : RingReachable calls capacity st) : RingInv calls st := by
  induction h with
  | init => exact RingInv.init
  | step _ hstep ih => exact ih.step hstep

end Ring

/-! ## Who returns has heard of all -/

section Entered

variable {calls : Calls n} {st : RingState} {r m : ℕ} {rs : RankState}

/-- Message `m` goes out after the one before it has come in. -/
theorem placeOf_le_recvPlace_of_sent (hok : RankOk calls r rs)
    (h : placeOf (messageLen calls) (m + 1) ≤ sentPlace calls rs) :
    placeOf (messageLen calls) m ≤ recvPlace calls rs := by
  have hstep : placeOf (messageLen calls) m < placeOf (messageLen calls) (m + 1) := by
    rw [placeOf_succ]
    exact Nat.lt_add_of_pos_right (messageLen_pos m)
  unfold sentPlace at h
  unfold RankOk at hok
  unfold recvPlace
  cases hpc : rs.pc with
  | idle =>
    rw [hpc] at h
    simp only [] at h
    exact hstep.le.trans h
  | sending i off =>
    rw [hpc] at h hok
    simp only [] at h
    obtain ⟨hi, hoff, _⟩ := hok
    apply placeOf_mono
    by_contra hlt
    have hmono := placeOf_mono (messageLen calls)
      (show rs.calls * (n - 1) + i + 1 ≤ m by omega)
    rw [placeOf_round hi] at hmono
    omega
  | receiving i off =>
    rw [hpc] at h
    simp only [] at h
    apply (placeOf_mono _ _).trans (Nat.le_add_right _ _)
    by_contra hlt
    have hmono := placeOf_mono (messageLen calls)
      (show rs.calls * (n - 1) + i + 1 ≤ m by omega)
    omega

/-- What a rank has received its predecessors have sent, further and further back. -/
theorem RingInv.recvPlace_back (h : RingInv calls st) (hr : r < n)
    (hcalls : 1 ≤ (st.rank r).calls) {j : ℕ} (hj : j ≤ n - 1) :
    placeOf (messageLen calls) (n - 1 - j) ≤ recvPlace calls (st.rank (sendSlice n r j)) := by
  induction j with
  | zero =>
    rw [sendSlice_zero hr]
    have hle : n - 1 ≤ (st.rank r).calls * (n - 1) := Nat.le_mul_of_pos_left _ hcalls
    unfold recvPlace
    cases (st.rank r).pc with
    | idle => exact placeOf_mono _ hle
    | sending i off => exact placeOf_mono _ (hle.trans (Nat.le_add_right _ _))
    | receiving i off =>
      exact (placeOf_mono _ (hle.trans (Nat.le_add_right _ _))).trans (Nat.le_add_right _ _)
  | succ j ih =>
    have hlt : sendSlice n r j < n := Nat.mod_lt _ (by omega)
    have horder := h.order _ (predRank_lt hlt)
    rw [succRank_predRank hlt, predRank_sendSlice hr (by omega)] at horder
    have hsent := (ih (by omega)).trans horder
    rw [show n - 1 - j = n - 1 - (j + 1) + 1 by omega] at hsent
    exact placeOf_le_recvPlace_of_sent (h.rank _ (Nat.mod_lt _ (by omega))) hsent

/-- A rank returns from its first call only after every rank has called. -/
theorem RingInv.all_entered (h : RingInv calls st) (hr : r < n) (hcalls : 1 ≤ (st.rank r).calls)
    {q : ℕ} (hq : q < n) : (st.rank q).calls ≠ 0 ∨ (st.rank q).pc ≠ .idle := by
  by_contra hnot
  obtain ⟨hzero, hidle⟩ : (st.rank q).calls = 0 ∧ (st.rank q).pc = .idle := by
    rw [not_or, not_not, not_not] at hnot
    exact hnot
  obtain ⟨j, hj, rfl⟩ := exists_sendSlice hr hq
  have hsent : sentPlace calls (st.rank (sendSlice n r j)) = 0 := by
    unfold sentPlace
    rw [hidle, hzero]
    simp only []
    rw [Nat.zero_mul, placeOf_zero]
  cases j with
  | zero =>
    rw [sendSlice_zero hr] at hzero
    omega
  | succ j =>
    have hlt : sendSlice n r j < n := Nat.mod_lt _ (by omega)
    have horder := h.order _ (predRank_lt hlt)
    rw [succRank_predRank hlt, predRank_sendSlice hr (by omega), hsent] at horder
    have hback := h.recvPlace_back hr hcalls (show j ≤ n - 1 by omega)
    have hpos : n - 1 - j ≤ placeOf (messageLen calls) (n - 1 - j) := le_placeOf messageLen_pos _
    omega

end Entered

/-! ## No deadlock -/

section Progress

variable {calls : Calls n} {capacity : ℕ → ℕ} {st : RingState} {r m : ℕ} {rs : RankState}

/-- How far a rank is: two stages a message, of which it sends in the first. -/
def stage (n : ℕ) (rs : RankState) : ℕ :=
  match rs.pc with
  | .idle => 2 * (rs.calls * (n - 1))
  | .sending i _ => 2 * (rs.calls * (n - 1) + i)
  | .receiving i _ => 2 * (rs.calls * (n - 1) + i) + 1

end Progress

/-! ## What the ring delivers -/

/-- Three ranks, two bytes each: rank `r` gives 3 and `r`, rank 2 in place. -/
def sampleCalls : Calls 3 where
  len _ := 2
  inPlace r _ := r == 2
  input r _ k := if k = 0 then 3 else UInt8.ofNat r
  before _ _ p := if p = 4 then 3 else 2
  len_pos _ := Nat.two_pos
  fits _ := by decide

end AscendShmem.UidBootstrap
