import Mathlib
import AscendShmem.GroupEngine.Rounds
import AscendShmem.Lib.Bytes
import AscendShmem.Lib.Grid

/-!
# The store-based allgather

In `GroupAllGather` every rank appends its rank number and its bytes to one key; the last one
sets the wait key, behind which all read the whole value, sort it by rank and copy the bytes out.
Both reads may time out; the call then returns `SM_ERROR`, and the rank may make its next call while
others are still in this one. Sizes and offsets are `uint32_t`.

As long as no size wraps, a call that returns `SM_OK` has everybody's bytes in the order of the
ranks, in every interleaving and whoever times out (`Sound`). Where nobody times out, nobody fails,
and the keys of a call are removed when all have returned from it (`Refines`).
-/

namespace AscendShmem.GroupEngine

open ConfigStore Lib

/-- `_GA` -/
def gatherAddSuffix : Bytes := [95, 71, 65]

/-- `_GW` -/
def gatherWaitSuffix : Bytes := [95, 71, 87]

theorem gatherSuffixes : gatherAddSuffix.length = gatherWaitSuffix.length ∧
    gatherAddSuffix ≠ gatherWaitSuffix := by decide

/-- `SMEM_GATHER_PREFIX_SIZE`. -/
def smemGatherPrefixSize : ℕ := 4

/-- `sendSize + SMEM_GATHER_PREFIX_SIZE`, a `uint32_t`. -/
def unitSize (sendSize : ℕ) : ℕ := (sendSize + smemGatherPrefixSize) % 2 ^ 32

/-- The first four bytes of the vector become the rank. -/
def gatherFillRank (vec : Bytes) (rank : ℕ) : Exec Unit Bytes := Exec.copyInto vec 0 (leBytes 4 rank)

/-- What a rank appends. -/
def gatherInput (rank sendSize : ℕ) (sendBuf : Bytes) : Exec Unit Bytes := do
  let input ← gatherFillRank (List.replicate (unitSize sendSize) 0) rank
  Exec.copyInto input smemGatherPrefixSize sendBuf

/-- `<` of `std::pair<uint32_t, uint32_t>`. -/
def pairLt (p q : ℕ × ℕ) : Prop := p.1 < q.1 ∨ p.1 = q.1 ∧ p.2 < q.2

instance (p q : ℕ × ℕ) : Decidable (pairLt p q) :=
  inferInstanceAs (Decidable (p.1 < q.1 ∨ p.1 = q.1 ∧ p.2 < q.2))

/-- The ranks in the gathered value, with the offsets of their bytes. -/
def gatherOffsets (vec : Bytes) (preSize rankSize : ℕ) : Exec Unit (List (ℕ × ℕ)) :=
  (List.range rankSize).foldlM (fun offset i => do
    let idx := i * unitSize preSize % 2 ^ 32
    let rank ← Exec.copyFrom vec idx 4
    pure (offset ++ [(leValue rank, (idx + smemGatherPrefixSize) % 2 ^ 32)])) []

/-- `SortGatherRecv`: the blocks are copied in the order of their ranks. -/
def sortGatherRecv (vec : Bytes) (preSize rankSize : ℕ) (recvBuf : Bytes) : Exec Unit Bytes := do
  let offset ← gatherOffsets vec preSize rankSize
  let offset := offset.insertionSort fun p q => ¬ pairLt q p
  (List.range rankSize).foldlM (fun recvBuf i => do
    let p ← Exec.read offset i
    let bytes ← Exec.copyFrom vec p.2 preSize
    Exec.copyInto recvBuf (preSize * i % 2 ^ 32) bytes) recvBuf

/-! ## Sorting the gathered value -/

/-- No size and no offset of an allgather reaches `2 ^ 32`. -/
structure Fits (rankSize sendSize : ℕ) : Prop where
  unit : sendSize + smemGatherPrefixSize < 2 ^ 32
  recv : sendSize * rankSize < 2 ^ 32
  offsets : (rankSize - 1) * (sendSize + smemGatherPrefixSize) + smemGatherPrefixSize < 2 ^ 32

section Sorting

variable {rankSize sendSize : ℕ} {block : ℕ → Bytes} {order : List ℕ}

theorem Fits.unitSize_eq (h : Fits rankSize sendSize) :
    unitSize sendSize = sendSize + smemGatherPrefixSize := Nat.mod_eq_of_lt h.unit

/-- No offset of a block wraps. -/
theorem Fits.idx_lt (h : Fits rankSize sendSize) {i : ℕ} (hi : i < rankSize) :
    i * unitSize sendSize + smemGatherPrefixSize < 2 ^ 32 := by
  have hle : i * (sendSize + smemGatherPrefixSize)
      ≤ (rankSize - 1) * (sendSize + smemGatherPrefixSize) := Nat.mul_le_mul_right _ (by omega)
  have hlt := h.offsets
  rw [h.unitSize_eq]
  omega

/-- What a rank appends, when the sizes fit. -/
def contribution (block : ℕ → Bytes) (rank : ℕ) : Bytes := leBytes 4 rank ++ block rank

/-- A block as it is appended: the rank, then the bytes to send. -/
theorem gatherInput_eq (h : Fits rankSize sendSize) {rank : ℕ} {sendBuf : Bytes}
    (hlen : sendBuf.length = sendSize) :
    gatherInput rank sendSize sendBuf = .ok (leBytes 4 rank ++ sendBuf) := by
  have hunit := h.unitSize_eq
  have hfill : gatherFillRank (List.replicate (unitSize sendSize) 0) rank
      = .ok (leBytes 4 rank ++ List.replicate sendSize 0) := by
    rw [gatherFillRank, Exec.copyInto_of_le]
    · rw [patch, hunit, length_leBytes, List.take_zero, List.nil_append, List.drop_replicate]
      rfl
    · rw [length_leBytes, List.length_replicate, hunit]
      exact Nat.le_add_left _ _
  have hlength : (leBytes 4 rank ++ List.replicate sendSize 0).length = 4 + sendSize := by
    rw [List.length_append, length_leBytes, List.length_replicate]
  rw [gatherInput, hfill]
  show Exec.copyInto (leBytes 4 rank ++ List.replicate sendSize 0) 4 sendBuf = _
  rw [Exec.copyInto_of_le (by rw [hlength, hlen]), patch,
    List.take_left' (length_leBytes 4 rank), hlen, List.drop_of_length_le (by rw [hlength]),
    List.append_nil]

/-- The place of a rank in the gathered value: its number and the offset of its bytes. -/
def place (order : List ℕ) (sendSize rank : ℕ) : ℕ × ℕ :=
  (rank, order.idxOf rank * unitSize sendSize + smemGatherPrefixSize)

theorem length_contribution (h : Fits rankSize sendSize)
    (hblock : ∀ i, (block i).length = sendSize) (rank : ℕ) :
    (contribution block rank).length = unitSize sendSize := by
  rw [contribution, List.length_append, length_leBytes, hblock, h.unitSize_eq]
  exact Nat.add_comm _ _

/-- Every entry of the gathered value is its rank number, and its bytes behind it. -/
theorem bytesAt_contribution (h : Fits rankSize sendSize)
    (hblock : ∀ i, (block i).length = sendSize) {k rank : ℕ} (hk : order[k]? = some rank) :
    BytesAt (order.flatMap (contribution block)) (k * unitSize sendSize) (leBytes 4 rank) ∧
      BytesAt (order.flatMap (contribution block))
        (k * unitSize sendSize + smemGatherPrefixSize) (block rank) := by
  have hat := bytesAt_flatMap (f := contribution block) (fun i _ => length_contribution h hblock i) hk
  rw [contribution, bytesAt_append, length_leBytes] at hat
  exact hat

/-- Ranks and offsets of the blocks, in the order they were appended. -/
theorem gatherOffsets_eq (h : Fits rankSize sendSize) (hsize : rankSize < 2 ^ 32)
    (hblock : ∀ i, (block i).length = sendSize) (hperm : order.Perm (List.range rankSize)) :
    gatherOffsets (order.flatMap (contribution block)) sendSize rankSize
      = .ok (order.map (place order sendSize)) := by
  have hlength : order.length = rankSize := by rw [hperm.length_eq, List.length_range]
  have hnodup : order.Nodup := hperm.nodup_iff.mpr List.nodup_range
  have hends : Exec.Ends (gatherOffsets (order.flatMap (contribution block)) sendSize rankSize)
      (fun offset => offset = (order.take rankSize).map (place order sendSize))
      (fun _ => False) False := by
    apply Exec.Ends.forRange (fun k offset => offset = (order.take k).map (place order sendSize))
    · rfl
    · intro k hk offset hoffset
      have hlt := h.idx_lt hk
      have hk' : k < order.length := by omega
      have hget : order[k]? = some order[k] := List.getElem?_eq_getElem hk'
      have hrank : order[k] < 2 ^ 32 := by
        have hmem := hperm.mem_iff.mp (List.getElem_mem hk')
        rw [List.mem_range] at hmem
        omega
      have hat := (bytesAt_contribution h hblock hget).1
      rw [BytesAt, length_leBytes] at hat
      have hidx : k * unitSize sendSize % 2 ^ 32 = k * unitSize sendSize :=
        Nat.mod_eq_of_lt (by omega)
      simp only [hidx, Exec.copyFrom_of_le hat.1]
      show offset ++ _ = _
      rw [hoffset, hat.2, leValue_leBytes, Nat.mod_eq_of_lt (by omega), Nat.mod_eq_of_lt hlt,
        List.take_succ_eq_append_getElem hk', List.map_append, List.map_singleton, place,
        hnodup.idxOf_getElem k hk']
  rcases hends.exists_ok with ⟨offset, heq, hoffset⟩
  rw [heq, hoffset, List.take_of_length_le (le_of_eq hlength)]

/-- Sorting puts the places in the order of the ranks. -/
theorem insertionSort_places (hperm : order.Perm (List.range rankSize)) :
    ((order.map (place order sendSize)).insertionSort fun p q => ¬ pairLt q p)
      = (List.range rankSize).map (place order sendSize) := by
  have hsorted := @pairwise_insertionSort_key (ℕ × ℕ) pairLt id _
    (fun _ _ => Iff.rfl) (order.map (place order sendSize))
  have htarget : ((List.range rankSize).map (place order sendSize)).Pairwise
      (fun p q => ¬ Precedes q p) := by
    rw [List.pairwise_map]
    refine List.pairwise_lt_range.imp ?_
    intro a b hab hba
    have hba' : b < a ∨ b = a ∧ _ := hba
    omega
  apply @List.Perm.eq_of_pairwise _ (fun p q => ¬ Precedes q p)
  · intro p q _ _ hpq hqp
    exact precedes_antisymm hpq hqp
  · exact hsorted
  · exact htarget
  · exact (List.perm_insertionSort _ _).trans (hperm.map _)

/-- The bytes are copied out in the order of the ranks, whatever the order of the appends. -/
theorem sortGatherRecv_eq (h : Fits rankSize sendSize) (hsize : rankSize < 2 ^ 32)
    (hblock : ∀ i, (block i).length = sendSize) (hperm : order.Perm (List.range rankSize))
    {recvBuf : Bytes} (hrecv : recvBuf.length = sendSize * rankSize) :
    sortGatherRecv (order.flatMap (contribution block)) sendSize rankSize recvBuf
      = .ok ((List.range rankSize).flatMap block) := by
  have hlength : order.length = rankSize := by rw [hperm.length_eq, List.length_range]
  have hloop : Exec.Ends
      (sortGatherRecv (order.flatMap (contribution block)) sendSize rankSize recvBuf)
      (fun buf => buf.length = sendSize * rankSize ∧
        buf.take (sendSize * rankSize) = (List.range rankSize).flatMap block)
      (fun _ => False) False := by
    rw [sortGatherRecv, gatherOffsets_eq h hsize hblock hperm]
    show Exec.Ends ((List.range rankSize).foldlM _ recvBuf) _ _ _
    rw [insertionSort_places hperm]
    -- before block `k`, the blocks below it are in place
    apply Exec.Ends.forRange (fun k (buf : Bytes) => buf.length = sendSize * rankSize ∧
      buf.take (sendSize * k) = (List.range k).flatMap block)
    · exact ⟨hrecv, by simp⟩
    · intro k hk buf hbuf
      have hmem : k ∈ order := hperm.mem_iff.mpr (List.mem_range.mpr hk)
      have hidx : order.idxOf k < order.length := List.idxOf_lt_length_iff.mpr hmem
      have hget : order[order.idxOf k]? = some k := List.getElem?_idxOf hmem
      -- rank `k` appended at its place in the order, so its bytes stand there
      have hat := (bytesAt_contribution h hblock hget).2
      rw [BytesAt, hblock] at hat
      have hend : sendSize * k + sendSize ≤ sendSize * rankSize := by
        rw [← Nat.mul_succ]
        exact Nat.mul_le_mul_left _ hk
      have hoff : sendSize * k % 2 ^ 32 = sendSize * k :=
        Nat.mod_eq_of_lt (by have hlt := h.recv; omega)
      have hread : (Exec.read ((List.range rankSize).map (place order sendSize)) k
          : Exec Unit (ℕ × ℕ)) = .ok (place order sendSize k) :=
        Exec.read_of (by rw [List.getElem?_map, List.getElem?_range hk]; rfl)
      have hfits : sendSize * k + (block k).length ≤ buf.length := by rw [hblock, hbuf.1]; exact hend
      rw [hread]
      show Exec.Ends (do
        let bytes ← Exec.copyFrom _ (order.idxOf k * unitSize sendSize + smemGatherPrefixSize) _
        Exec.copyInto buf (sendSize * k % 2 ^ 32) bytes) _ _ _
      rw [Exec.copyFrom_of_le hat.1, hat.2, hoff]
      show Exec.Ends (Exec.copyInto buf (sendSize * k) (block k)) _ _ _
      rw [Exec.copyInto_of_le hfits]
      refine ⟨(length_patch hfits).trans hbuf.1, ?_⟩
      have htake := @take_patch buf (block k) (sendSize * k)
        (by rw [hbuf.1]; omega)
      rw [hblock] at htake
      rw [Nat.mul_succ, htake, hbuf.2, List.range_succ, List.flatMap_append, List.flatMap_singleton]
  rcases hloop.exists_ok with ⟨buf, heq, hlen, hbuf⟩
  rw [heq, ← hbuf, List.take_of_length_le (le_of_eq hlen)]

end Sorting

namespace AllGather

/-! ## The calls -/

/-- The calls of `GroupAllGather`, by rank and number, which every rank accepts. -/
structure Calls where
  rankSize : ℕ
  sendSize : ℕ → ℕ
  recvSize : ℕ → ℕ
  sendBuf : ℕ → ℕ → Bytes
  recvBuf : ℕ → ℕ → Bytes
  rankSize_lt : rankSize < 2 ^ 32
  sendSize_lt : ∀ n, sendSize n < 2 ^ 32
  length_sendBuf : ∀ r n, (sendBuf r n).length = sendSize n
  length_recvBuf : ∀ r n, (recvBuf r n).length = recvSize n
  /-- `sendSize * size == recvSize`, in `uint32_t`. -/
  accepted : ∀ n, sendSize n * rankSize % 2 ^ 32 = recvSize n

/-- The next operation of a rank in `GroupAllGather`, with the result of its `Append`. -/
inductive Pc where
  | returned
  | append
  | removeAdd (val : ℕ)
  | removeWait (val : ℕ)
  | set
  | getStatus
  | getData
  /-- The last call returned `SM_ERROR`. -/
  | failed
  /-- Memory outside a buffer was read or written. -/
  | fault
deriving DecidableEq, Repr

/-- What happens next: a rank runs its next operation, or the `Get` it is in times out. -/
inductive Move where
  | run (r : ℕ)
  | timeout (r : ℕ)
deriving DecidableEq, Repr

/-- The ranks, numbered by `allGatherGroupSn_`, the keys in their store, and the receive buffers
of the calls that returned `SM_OK`. -/
structure System where
  ranks : ℕ → Rank Pc
  keys : Keys
  received : ℕ → ℕ → Option Bytes

/-- No call has been made, and the store has none of the keys. -/
def System.init : System := ⟨fun _ => { pc := .returned }, Keys.init, fun _ _ => none⟩

/-- A rank goes on. -/
def System.goto (s : System) (r : ℕ) (pc : Pc) : System :=
  { s with ranks := Rank.goto s.ranks r pc }

/-- The call of rank `r` returns `SM_OK`. -/
def System.receive (s : System) (r n : ℕ) (buf : Bytes) : System :=
  { s with received := Function.update s.received r (Function.update (s.received r) n (some buf)) }

section Step

-- the group version, the same on all ranks, and the calls
variable (groupVersion : ℤ) (c : Calls)

/-- What follows the clean-up: the last rank sets the wait key. -/
def afterRemove (n val : ℕ) : Pc :=
  if val = unitSize (c.sendSize n) * c.rankSize then .set else .getStatus

/-- One operation of a rank, if it can run. -/
def operate (s : System) (r : ℕ) : Option System :=
  if r < c.rankSize then
    let sn := (s.ranks r).sn
    match (s.ranks r).pc with
    -- the next call, whatever the last one returned
    | .returned | .failed => some { s with ranks := Rank.enter s.ranks r .append }
    | .append =>
      match gatherInput r (c.sendSize sn) (c.sendBuf r sn) with
      | .error _ => some (s.goto r .fault)
      | .ok input =>
        let result := s.keys.store.append (groupKey groupVersion gatherAddSuffix sn) input
        let s := { s with keys := { s.keys with store := result.2 } }
        if result.1 = input.length ∧ sn > removeInterval then some (s.goto r (.removeAdd result.1))
        else some (s.goto r (afterRemove c sn result.1))
    | .removeAdd val =>
      let keys := s.keys.removeAdd groupVersion gatherAddSuffix (sn - removeInterval)
      some (System.goto { s with keys := keys } r (.removeWait val))
    | .removeWait val =>
      let keys := s.keys.removeWait groupVersion gatherWaitSuffix (sn - removeInterval)
      some (System.goto { s with keys := keys } r (afterRemove c sn val))
    | .set =>
      let keys := s.keys.setWait groupVersion gatherWaitSuffix sn r
      some (System.goto { s with keys := keys } r .getStatus)
    | .getStatus =>
      match s.keys.store (groupKey groupVersion gatherWaitSuffix sn) with
      | none => none -- still waiting
      | some value =>
        if value.text = smemGroupSetStr then some (s.goto r .getData) else some (s.goto r .failed)
    | .getData =>
      match s.keys.store (groupKey groupVersion gatherAddSuffix sn) with
      | none => none -- still waiting
      | some value =>
        if value.text.length ≠ unitSize (c.sendSize sn) * c.rankSize then some (s.goto r .failed)
        else match sortGatherRecv value.text (c.sendSize sn) c.rankSize (c.recvBuf r sn) with
          | .error _ => some (s.goto r .fault)
          | .ok buf => some ((s.receive r sn buf).goto r .returned)
    | .fault => none
  else none

/-- The `Get` that a rank is in times out, also when its answer would only have come too late. -/
def giveUp (s : System) (r : ℕ) : Option System :=
  if r < c.rankSize then
    match (s.ranks r).pc with
    | .getStatus | .getData => some (s.goto r .failed)
    | _ => none
  else none

/-- One move of the system, if it can be made. -/
def step (s : System) : Move → Option System
  | .run r => operate groupVersion c s r
  | .timeout r => giveUp c s r

/-- The system after a schedule of moves. -/
def run (s : System) (schedule : List Move) : Option System :=
  schedule.foldlM (step groupVersion c) s

end Step

/-! ## An allgather is a rendezvous -/

/-- The phase of a round that an operation stands for. -/
def Pc.phase : Pc → Rendezvous.Phase
  | .returned | .failed | .fault => .outside
  | .append => .contribute
  | .removeAdd _ => .removeSlot
  | .removeWait _ => .removeGate
  | .set => .openGate
  | .getStatus => .wait
  | .getData => .collect

/-- The rendezvous of a group, in which the slots are read. -/
def config (rankSize : ℕ) : Rendezvous.Config := ⟨rankSize, removeInterval, true⟩

/-- What the key of call `n` holds when the ranks of a slot have appended. -/
def encode (c : Calls) (n : ℕ) (l : List ℕ) : Value :=
  .bytes (l.flatMap (contribution fun r => c.sendBuf r n))

/-- As many bytes as blocks times the size of one. -/
theorem length_encode {c : Calls} {n : ℕ} (hfits : Fits c.rankSize (c.sendSize n)) (l : List ℕ) :
    (encode c n l).text.length = l.length * unitSize (c.sendSize n) := by
  show (l.flatMap _).length = _
  rw [List.length_flatMap, List.map_congr_left fun i _ =>
    length_contribution hfits (fun i => c.length_sendBuf i n) i, List.map_const', List.sum_replicate,
    smul_eq_mul]

/-- An allgather without timeouts, beside the rendezvous it stands for. -/
structure Refines (groupVersion : ℤ) (c : Calls) (s : System) (a : Rendezvous.State) : Prop where
  ranks : RanksRefine Pc.phase s.ranks a
  keys : KeysRefine groupVersion gatherAddSuffix gatherWaitSuffix (encode c) s.keys a
  alive : ∀ r, (s.ranks r).pc ≠ .failed ∧ (s.ranks r).pc ≠ .fault
  first : ∀ r val, (s.ranks r).pc = .removeAdd val ∨ (s.ranks r).pc = .removeWait val →
    val = unitSize (c.sendSize (s.ranks r).calls)
  received : ∀ r < c.rankSize, ∀ n, (a.participants r).Finished n → n < 2 ^ 32 →
    s.received r n = some ((List.range c.rankSize).flatMap fun i => c.sendBuf i n)

theorem refines_init (groupVersion : ℤ) (c : Calls) :
    Refines groupVersion c System.init Rendezvous.State.init where
  ranks := RanksRefine.init rfl
  keys := KeysRefine.init
  alive := by simp [System.init]
  first := by simp [System.init]
  received := by
    intro r _ n hn
    rcases hn with ⟨hpos, hlt | ⟨heq, _⟩⟩
    · exact absurd hlt (Nat.not_lt_zero n)
    · exact absurd heq (Nat.ne_of_gt hpos)

namespace Refines

variable {groupVersion : ℤ} {c : Calls} {s s' : System} {a b : Rendezvous.State} {r : ℕ}

/-- A rank goes on within its call. -/
theorem goto (h : Refines groupVersion c s a) {keys : Keys}
    (hkeys : KeysRefine groupVersion gatherAddSuffix gatherWaitSuffix (encode c) keys b)
    (hb : b.participants = a.participants) {pc : Pc} (hpc : pc ≠ .failed ∧ pc ≠ .fault)
    (hfirst : ∀ val, pc = .removeAdd val ∨ pc = .removeWait val →
      val = unitSize (c.sendSize (s.ranks r).calls))
    (hphase : pc.phase = .outside → (s.ranks r).calls < 2 ^ 32 → s.received r (s.ranks r).calls
      = some ((List.range c.rankSize).flatMap fun i => c.sendBuf i (s.ranks r).calls)) :
    Refines groupVersion c (System.goto { s with keys := keys } r pc) (b.goto r pc.phase) := by
  have hranks : RanksRefine Pc.phase s.ranks b :=
    ⟨by rw [hb]; exact h.ranks.participants, h.ranks.serial⟩
  refine ⟨hranks.goto pc, hkeys.goto _, ?_, ?_, ?_⟩
  · intro q
    by_cases hq : q = r
    · subst hq
      simpa [System.goto, Rank.goto] using hpc
    · simpa [System.goto, Rank.goto, hq] using h.alive q
  · intro q
    by_cases hq : q = r
    · subst hq
      simpa [System.goto, Rank.goto] using hfirst
    · simpa [System.goto, Rank.goto, hq] using h.first q
  · intro q hq n hn hlt
    by_cases hqr : q = r
    · subst hqr
      rw [Rendezvous.State.goto_self, hb] at hn
      rcases hn.2 with hbefore | ⟨hnow, hout⟩
      · exact h.received q hq n ⟨hn.1, Or.inl hbefore⟩ hlt
      · have hcalls : n = (s.ranks q).calls := by
          rw [← h.ranks.round_eq]
          exact hnow
        rw [hcalls] at hlt ⊢
        exact hphase hout hlt
    · rw [Rendezvous.State.goto_of_ne hqr, hb] at hn
      exact h.received q hq n hn hlt

/-- A rank enters its next call. -/
theorem enter (h : Refines groupVersion c s a) (hpc : (s.ranks r).pc = .returned) :
    Refines groupVersion c { s with ranks := Rank.enter s.ranks r .append } (a.enter r) := by
  refine ⟨h.ranks.enter rfl, h.keys.enter, ?_, ?_, ?_⟩
  · intro q
    by_cases hq : q = r
    · subst hq
      simp [Rank.enter]
    · simpa [Rank.enter, hq] using h.alive q
  · intro q
    by_cases hq : q = r
    · subst hq
      simp [Rank.enter]
    · simpa [Rank.enter, hq] using h.first q
  · intro q hq n hn hlt
    by_cases hqr : q = r
    · subst hqr
      rw [Rendezvous.State.enter_self] at hn
      apply h.received q hq n _ hlt
      refine ⟨hn.1, ?_⟩
      rw [h.ranks.phase_eq, hpc]
      rcases hn.2 with hbefore | ⟨_, hout⟩
      · have hle : n ≤ (a.participants q).round := Nat.le_of_lt_succ hbefore
        rcases Nat.lt_or_eq_of_le hle with hlt' | heq
        · exact Or.inl hlt'
        · exact Or.inr ⟨heq, rfl⟩
      · exact absurd hout (by simp)
    · rw [Rendezvous.State.enter_of_ne hqr] at hn
      exact h.received q hq n hn hlt

/-- The `Append` of a rank gives the slot with its contribution, and its length. -/
theorem append_eq (h : Refines groupVersion c s a) {m : ℕ} (hm : m < 2 ^ 32)
    (hfits : Fits c.rankSize (c.sendSize m)) :
    s.keys.store.append (groupKey groupVersion gatherAddSuffix m)
        (contribution (fun i => c.sendBuf i m) r)
      = ((a.contribution r m).length * unitSize (c.sendSize m),
        Function.update s.keys.store (groupKey groupVersion gatherAddSuffix m)
          (some (encode c m (a.contribution r m)))) := by
  have hlen : ∀ l : List ℕ, (l.flatMap (contribution fun i => c.sendBuf i m)).length
      = l.length * unitSize (c.sendSize m) := length_encode hfits
  have hslot := h.keys.add m hm
  rw [Store.append, Rendezvous.State.contribution]
  cases hs : a.slots m with
  | none =>
    rw [hs, Option.map_none] at hslot
    rw [hslot]
    have hone := hlen [r]
    rw [List.flatMap_singleton] at hone
    simp only [hone, Option.getD_none, List.nil_append, encode, List.flatMap_singleton]
  | some l =>
    rw [hs, Option.map_some] at hslot
    rw [hslot]
    have hboth := hlen (l ++ [r])
    rw [List.flatMap_append, List.flatMap_singleton] at hboth
    simp only [encode, Value.text, hboth, Option.getD_some, List.flatMap_append,
      List.flatMap_singleton]

/-- Behind the clean-up the last rank opens the gate, and the others wait. -/
theorem afterRemove_phase {n : ℕ} (hfits : Fits c.rankSize (c.sendSize n)) (v : ℕ) :
    (afterRemove c n (v * unitSize (c.sendSize n))).phase = (config c.rankSize).afterRemove v ∧
      (afterRemove c n (v * unitSize (c.sendSize n)) ≠ .failed ∧
        afterRemove c n (v * unitSize (c.sendSize n)) ≠ .fault) ∧
      (afterRemove c n (v * unitSize (c.sendSize n))).phase ≠ .outside ∧
      ∀ val, ¬ (afterRemove c n (v * unitSize (c.sendSize n)) = .removeAdd val ∨
        afterRemove c n (v * unitSize (c.sendSize n)) = .removeWait val) := by
  have hpos : 0 < unitSize (c.sendSize n) := by
    rw [hfits.unitSize_eq]
    exact Nat.add_pos_right _ (by decide)
  unfold afterRemove Rendezvous.Config.afterRemove
  by_cases hv : v = c.rankSize
  · have hv' : v * unitSize (c.sendSize n) = unitSize (c.sendSize n) * c.rankSize := by
      rw [hv, Nat.mul_comm]
    rw [if_pos hv', if_pos (by exact hv)]
    simp [Pc.phase]
  · have hv' : ¬ v * unitSize (c.sendSize n) = unitSize (c.sendSize n) * c.rankSize := by
      rw [Nat.mul_comm]
      exact fun heq => hv (Nat.eq_of_mul_eq_mul_left hpos heq)
    rw [if_neg hv', if_neg (by exact hv)]
    simp [Pc.phase]

/-- Every operation of a rank is a step of the rendezvous. -/
theorem operate (h : Refines groupVersion c s a) (hinv : (config c.rankSize).Inv a)
    (hfits : ∀ n, Fits c.rankSize (c.sendSize n)) (hcalls : (s.ranks r).calls < 2 ^ 32)
    (hstep : AllGather.operate groupVersion c s r = some s') :
    ∃ a', (config c.rankSize).step a r = some a' ∧ Refines groupVersion c s' a' := by
  have hfit := hfits (s.ranks r).calls
  unfold AllGather.operate at hstep
  unfold Rendezvous.Config.step
  split at hstep
  swap
  · exact absurd hstep (by simp)
  rename_i hr
  rw [if_pos (by exact hr)]
  simp only [h.ranks.sn_eq hcalls] at hstep
  simp only [h.ranks.round_eq]
  cases hpc : (s.ranks r).pc with
  | returned =>
    simp only [hpc, Option.some.injEq] at hstep
    subst hstep
    simp only [h.ranks.phase_eq, hpc, Pc.phase]
    exact ⟨_, rfl, h.enter hpc⟩
  | append =>
    have hinput := @gatherInput_eq _ _ hfit r _ (c.length_sendBuf r (s.ranks r).calls)
    have happend := h.append_eq (r := r) hcalls hfit
    have hlength := length_contribution hfit (fun i => c.length_sendBuf i (s.ranks r).calls) r
    rw [contribution] at happend hlength
    simp only [hpc, hinput, happend, hlength] at hstep
    simp only [h.ranks.phase_eq, hpc, Pc.phase]
    have hkeys := h.keys.contribute (r := r) gatherSuffixes hcalls
    have hpos : 0 < unitSize (c.sendSize (s.ranks r).calls) := by
      rw [hfit.unitSize_eq]
      exact Nat.add_pos_right _ (by decide)
    -- the first rank of a later call removes the keys of an earlier one
    by_cases hfirst : (a.contribution r (s.ranks r).calls).length = 1 ∧
        (s.ranks r).calls > removeInterval
    · have hone : (a.contribution r (s.ranks r).calls).length
          * unitSize (c.sendSize (s.ranks r).calls) = unitSize (c.sendSize (s.ranks r).calls) := by
        rw [hfirst.1, Nat.one_mul]
      rw [if_pos ⟨hone, hfirst.2⟩, Option.some.injEq] at hstep
      subst hstep
      rw [if_pos (by exact hfirst)]
      exact ⟨_, rfl, h.goto hkeys rfl (by simp) (by simpa using hone) (by simp [Pc.phase])⟩
    · have hnot : ¬ ((a.contribution r (s.ranks r).calls).length
          * unitSize (c.sendSize (s.ranks r).calls) = unitSize (c.sendSize (s.ranks r).calls) ∧
          (s.ranks r).calls > removeInterval) := by
        rintro ⟨hone, hlate⟩
        exact hfirst ⟨Nat.eq_of_mul_eq_mul_right hpos (hone.trans (Nat.one_mul _).symm), hlate⟩
      rw [if_neg hnot, Option.some.injEq] at hstep
      subst hstep
      rw [if_neg (by exact hfirst)]
      rcases afterRemove_phase hfit (a.contribution r (s.ranks r).calls).length with
        ⟨heq, halive, hin, hval⟩
      rw [← heq]
      exact ⟨_, rfl, h.goto hkeys rfl halive (fun val hv => absurd hv (hval val))
        fun hout => absurd hout hin⟩
  | removeAdd val =>
    have hval := h.first r val (Or.inl hpc)
    simp only [hpc, Option.some.injEq] at hstep
    subst hstep
    simp only [h.ranks.phase_eq, hpc, Pc.phase]
    have hkeys := h.keys.removeAdd (m := (s.ranks r).calls - removeInterval) gatherSuffixes
      (by omega)
    exact ⟨_, rfl, h.goto hkeys rfl (by simp) (by simpa using hval) (by simp [Pc.phase])⟩
  | removeWait val =>
    have hval := h.first r val (Or.inr hpc)
    simp only [hpc, Option.some.injEq] at hstep
    subst hstep
    simp only [h.ranks.phase_eq, hpc, Pc.phase]
    have hkeys := h.keys.removeWait (m := (s.ranks r).calls - removeInterval) gatherSuffixes
      (by omega)
    rcases afterRemove_phase hfit 1 with ⟨heq, halive, hin, hno⟩
    rw [Nat.one_mul, ← hval] at heq halive hin hno
    rw [← heq]
    exact ⟨_, rfl, h.goto hkeys rfl halive (fun val hv => absurd hv (hno val))
      fun hout => absurd hout hin⟩
  | set =>
    simp only [hpc, Option.some.injEq] at hstep
    subst hstep
    simp only [h.ranks.phase_eq, hpc, Pc.phase]
    exact ⟨_, rfl, h.goto (h.keys.setWait gatherSuffixes hcalls) rfl (by simp) (by simp)
      (by simp [Pc.phase])⟩
  | getStatus =>
    simp only [hpc, h.keys.wait _ hcalls] at hstep
    simp only [h.ranks.phase_eq, hpc, Pc.phase]
    split at hstep
    · exact absurd hstep (by simp)
    · rename_i value hvalue
      split at hvalue
      · rename_i hgate
        have htext : (Value.bytes smemGroupSetStr).text = smemGroupSetStr := rfl
        rw [← Option.some.inj hvalue, if_pos htext, Option.some.injEq] at hstep
        subst hstep
        rw [if_pos hgate]
        exact ⟨_, rfl, h.goto h.keys rfl (by simp) (by simp) (by simp [Pc.phase])⟩
      · exact absurd hvalue (by simp)
  | getData =>
    have hcollect : (a.participants r).phase = .collect := by rw [h.ranks.phase_eq, hpc]; rfl
    -- the gate is open, so every rank has appended
    rcases hinv.slot_of_passed (le_refl 2) hr hcollect with ⟨hslot, hperm⟩
    rw [h.ranks.round_eq] at hslot hperm
    have hblock : ∀ i, (c.sendBuf i (s.ranks r).calls).length = c.sendSize (s.ranks r).calls :=
      fun i => c.length_sendBuf i _
    have htotal : (encode c (s.ranks r).calls (a.order (s.ranks r).calls)).text.length
        = unitSize (c.sendSize (s.ranks r).calls) * c.rankSize := by
      rw [length_encode hfit, hperm.length_eq, List.length_range, Nat.mul_comm]
      rfl
    have hrecv : (c.recvBuf r (s.ranks r).calls).length
        = c.sendSize (s.ranks r).calls * c.rankSize := by
      rw [c.length_recvBuf, ← c.accepted, Nat.mod_eq_of_lt hfit.recv]
    have hsorted := sortGatherRecv_eq hfit c.rankSize_lt hblock hperm hrecv
    simp only [hpc, h.keys.add _ hcalls, hslot, Option.map_some, htotal, ne_eq, not_true_eq_false,
      if_false] at hstep
    have hstep' : (match sortGatherRecv ((a.order (s.ranks r).calls).flatMap
        (contribution fun i => c.sendBuf i (s.ranks r).calls)) (c.sendSize (s.ranks r).calls)
        c.rankSize (c.recvBuf r (s.ranks r).calls) with
      | .error _ => some (s.goto r .fault)
      | .ok buf => some ((s.receive r (s.ranks r).calls buf).goto r .returned)) = some s' := hstep
    simp only [hsorted, Option.some.injEq] at hstep'
    subst hstep'
    simp only [hcollect, hslot, Option.isSome_some, if_true]
    have hreceived : Refines groupVersion c (s.receive r (s.ranks r).calls
        ((List.range c.rankSize).flatMap fun i => c.sendBuf i (s.ranks r).calls)) a := by
      refine ⟨h.ranks, h.keys, h.alive, h.first, ?_⟩
      intro q hq n hn hlt
      show Function.update s.received r _ q n = _
      rw [Function.update_apply]
      split
      · rename_i hqr
        subst hqr
        rw [Function.update_apply]
        split
        · rename_i hnow
          rw [hnow]
        · exact h.received q hq n hn hlt
      · exact h.received q hq n hn hlt
    refine ⟨_, rfl, hreceived.goto (r := r) h.keys rfl (by simp) (by simp) ?_⟩
    intro _ _
    show Function.update s.received r _ r _ = _
    rw [Function.update_self]
    exact Function.update_self ..
  | failed => exact absurd hpc (h.alive r).1
  | fault => exact absurd hpc (h.alive r).2

end Refines

/-! ## Runs -/

section Runs

variable {groupVersion : ℤ} {c : Calls} {s s' : System} {move : Move} {r : ℕ}

/-- Only a rank of the group operates. -/
theorem lt_of_operate (hstep : operate groupVersion c s r = some s') : r < c.rankSize := by
  unfold operate at hstep
  split at hstep
  · assumption
  · exact absurd hstep (by simp)

/-- A `Get` that times out leaves the keys and the buffers, and its rank behind the call. -/
theorem giveUp_eq (hstep : giveUp c s r = some s') :
    ((s.ranks r).pc = .getStatus ∨ (s.ranks r).pc = .getData) ∧ s' = s.goto r .failed := by
  unfold giveUp at hstep
  split at hstep
  swap
  · exact absurd hstep (by simp)
  split at hstep
  case h_1 hpc => exact ⟨Or.inl hpc, (Option.some.inj hstep).symm⟩
  case h_2 hpc => exact ⟨Or.inr hpc, (Option.some.inj hstep).symm⟩
  case h_3 => exact absurd hstep (by simp)

/-- A buffer is received behind a read of the whole key, and nowhere else. -/
theorem received_of_operate (hstep : operate groupVersion c s r = some s') :
    s'.received = s.received ∨
    ∃ value buf, s.keys.store (groupKey groupVersion gatherAddSuffix (s.ranks r).sn) = some value ∧
      value.text.length = unitSize (c.sendSize (s.ranks r).sn) * c.rankSize ∧
      s'.received = (s.receive r (s.ranks r).sn buf).received := by
  unfold operate at hstep
  rw [if_pos (lt_of_operate hstep)] at hstep
  have hsame : ∀ {t : System}, some t = some s' → t.received = s.received →
      s'.received = s.received := by
    intro t heq hreceived
    rw [← Option.some.inj heq, hreceived]
  dsimp only at hstep
  split at hstep
  · exact Or.inl (hsame hstep rfl)
  · exact Or.inl (hsame hstep rfl)
  · split at hstep
    · exact Or.inl (hsame hstep rfl)
    · split at hstep <;> exact Or.inl (hsame hstep rfl)
  · exact Or.inl (hsame hstep rfl)
  · exact Or.inl (hsame hstep rfl)
  · exact Or.inl (hsame hstep rfl)
  · split at hstep
    · exact absurd hstep (by simp)
    · split at hstep <;> exact Or.inl (hsame hstep rfl)
  · split at hstep
    · exact absurd hstep (by simp)
    · rename_i value hvalue
      split at hstep
      · exact Or.inl (hsame hstep rfl)
      · rename_i hfull
        split at hstep
        · exact Or.inl (hsame hstep rfl)
        · rename_i buf _
          rw [← Option.some.inj hstep]
          exact Or.inr ⟨value, buf, hvalue, not_not.mp hfull, rfl⟩
  · exact absurd hstep (by simp)

/-- An operation does not take back a rank's calls. -/
theorem calls_le_of_operate (hstep : operate groupVersion c s r = some s') (q : ℕ) :
    (s.ranks q).calls ≤ (s'.ranks q).calls := by
  unfold operate at hstep
  rw [if_pos (lt_of_operate hstep)] at hstep
  have hgoto : ∀ (t : System) pc, t.ranks = s.ranks → some (t.goto r pc) = some s' →
      (s.ranks q).calls ≤ (s'.ranks q).calls := by
    intro t pc hranks heq
    rw [← Option.some.inj heq, ← hranks]
    exact Rank.calls_le_goto t.ranks r pc q
  have henter : some { s with ranks := Rank.enter s.ranks r .append } = some s' →
      (s.ranks q).calls ≤ (s'.ranks q).calls := by
    intro heq
    rw [← Option.some.inj heq]
    exact Rank.calls_le_enter s.ranks r .append q
  dsimp only at hstep
  split at hstep
  · exact henter hstep
  · exact henter hstep
  · split at hstep
    · exact hgoto s _ rfl hstep
    · split at hstep <;> exact hgoto _ _ (by rfl) hstep
  · exact hgoto _ _ (by rfl) hstep
  · exact hgoto _ _ (by rfl) hstep
  · exact hgoto _ _ (by rfl) hstep
  · split at hstep
    · exact absurd hstep (by simp)
    · split at hstep <;> exact hgoto s _ rfl hstep
  · split at hstep
    · exact absurd hstep (by simp)
    · split at hstep
      · exact hgoto s _ rfl hstep
      · split at hstep <;> exact hgoto _ _ (by rfl) hstep
  · exact absurd hstep (by simp)

/-- A rank's calls are not taken back. -/
theorem calls_le_of_step (hstep : step groupVersion c s move = some s') (q : ℕ) :
    (s.ranks q).calls ≤ (s'.ranks q).calls := by
  cases move with
  | run r => exact calls_le_of_operate hstep q
  | timeout r =>
    rw [(giveUp_eq hstep).2]
    exact Rank.calls_le_goto s.ranks r .failed q

/-- The calls are counted up. -/
theorem calls_le_of_run {schedule : List Move} (hrun : run groupVersion c s schedule = some s')
    (q : ℕ) : (s.ranks q).calls ≤ (s'.ranks q).calls := by
  induction schedule generalizing s with
  | nil => rw [← Option.some.inj hrun]
  | cons move schedule ih =>
    rw [run, List.foldlM_cons] at hrun
    rcases Option.bind_eq_some_iff.mp hrun with ⟨s₁, hstep, hrest⟩
    exact (calls_le_of_step hstep q).trans (ih hrest)

/-- Every run without timeouts is a run of the rendezvous, and keeps its invariant. -/
theorem Refines.run {a : Rendezvous.State} (h : Refines groupVersion c s a)
    (hinv : (config c.rankSize).Inv a) (hfits : ∀ n, Fits c.rankSize (c.sendSize n))
    {schedule : List Move} (htime : ∀ r, Move.timeout r ∉ schedule)
    (hrun : AllGather.run groupVersion c s schedule = some s')
    (hcalls : ∀ q < c.rankSize, (s'.ranks q).calls < 2 ^ 32) :
    ∃ a', (config c.rankSize).Inv a' ∧ Refines groupVersion c s' a' := by
  induction schedule generalizing s a with
  | nil =>
    rw [← Option.some.inj hrun]
    exact ⟨a, hinv, h⟩
  | cons move schedule ih =>
    rw [AllGather.run, List.foldlM_cons] at hrun
    rcases Option.bind_eq_some_iff.mp hrun with ⟨s₁, hstep, hrest⟩
    cases move with
    | timeout r => exact absurd List.mem_cons_self (htime r)
    | run r =>
      have hlt := ((calls_le_of_step hstep r).trans (calls_le_of_run hrest r)).trans_lt
        (hcalls r (lt_of_operate hstep))
      rcases h.operate hinv hfits hlt hstep with ⟨a₁, ha, h₁⟩
      exact ih h₁ (hinv.step (le_refl 2) ha)
        (fun q hq => htime q (List.mem_cons_of_mem _ hq)) hrest

end Runs

/-! ## Calls that time out -/

/-- Rank `r` has appended to the key of call `m`. -/
def System.Appended (s : System) (r m : ℕ) : Prop :=
  1 ≤ m ∧ (m < (s.ranks r).calls ∨ m = (s.ranks r).calls ∧ (s.ranks r).pc ≠ .append)

/-- The key of call `m` holds what the ranks `l` appended, each once. Once it has been removed, a
rank is missing there for good. -/
structure Holds (groupVersion : ℤ) (c : Calls) (s : System) (m : ℕ) (l : List ℕ) : Prop where
  nodup : l.Nodup
  appended : ∀ r ∈ l, r < c.rankSize ∧ s.Appended r m
  value : s.keys.store (groupKey groupVersion gatherAddSuffix m)
    = if l = [] then none else some (encode c m l)
  removed : s.keys.addRemoved m = true → ∃ q < c.rankSize, s.Appended q m ∧ q ∉ l

/-- What holds of an allgather whoever times out: a call that returned `SM_OK` has the bytes of
all. -/
structure Sound (groupVersion : ℤ) (c : Calls) (s : System) : Prop where
  serial : ∀ r, (s.ranks r).sn = (s.ranks r).calls % 2 ^ 32
  inside : ∀ r, (s.ranks r).pc ≠ .fault
  entered : ∀ r, (s.ranks r).pc ≠ .returned → 1 ≤ (s.ranks r).calls
  holds : ∀ m < 2 ^ 32, ∃ l, Holds groupVersion c s m l
  /-- the contribution key goes first -/
  order : ∀ m, s.keys.waitRemoved m = true → s.keys.addRemoved m = true
  late : ∀ r val, (s.ranks r).pc = .removeAdd val ∨ (s.ranks r).pc = .removeWait val →
    removeInterval < (s.ranks r).calls
  halfway : ∀ r val, (s.ranks r).pc = .removeWait val →
    s.keys.addRemoved ((s.ranks r).calls - removeInterval) = true
  returned : ∀ r, (s.ranks r).pc = .returned → 1 ≤ (s.ranks r).calls →
    ∃ buf, s.received r (s.ranks r).calls = some buf
  received : ∀ r n buf, s.received r n = some buf →
    buf = (List.range c.rankSize).flatMap fun i => c.sendBuf i n

theorem sound_init (groupVersion : ℤ) (c : Calls) : Sound groupVersion c System.init where
  serial := fun _ => rfl
  inside := by simp [System.init]
  entered := by simp [System.init]
  holds := fun m _ => ⟨[], List.nodup_nil, by simp, rfl, by simp [System.init, Keys.init]⟩
  order := by simp [System.init, Keys.init]
  late := by simp [System.init]
  halfway := by simp [System.init]
  returned := by simp [System.init]
  received := by simp [System.init]

section Moves

variable {groupVersion : ℤ} {c : Calls} {s t : System} {keys : Keys} {r q m : ℕ} {l : List ℕ}
  {pc : Pc}

/-- Nothing that was appended is forgotten while the rank goes on. -/
theorem System.Appended.goto (h : s.Appended q m) (hpc : pc ≠ .append) :
    (System.goto { s with keys := keys } r pc).Appended q m := by
  refine ⟨h.1, ?_⟩
  show m < (Rank.goto s.ranks r pc q).calls ∨ m = (Rank.goto s.ranks r pc q).calls ∧
    (Rank.goto s.ranks r pc q).pc ≠ .append
  rw [Rank.goto_apply]
  split
  case isTrue hqr =>
    rw [hqr] at h
    exact h.2.imp id fun hnow => ⟨hnow.1, hpc⟩
  case isFalse => exact h.2

/-- What was appended stays so when the rank enters its next call. -/
theorem System.Appended.enter (h : s.Appended q m) :
    System.Appended { s with ranks := Rank.enter s.ranks r .append } q m := by
  refine ⟨h.1, ?_⟩
  show m < (Rank.enter s.ranks r .append q).calls ∨ m = (Rank.enter s.ranks r .append q).calls ∧
    (Rank.enter s.ranks r .append q).pc ≠ .append
  rw [Rank.enter_apply]
  split
  case isTrue hqr =>
    rw [hqr] at h
    have hle := h.2.elim le_of_lt fun hnow => hnow.1.le
    exact Or.inl (Nat.lt_succ_of_le hle)
  case isFalse => exact h.2

/-- A key that a move does not touch holds what it held. -/
theorem Holds.keep (h : Holds groupVersion c s m l) (happended : ∀ q, s.Appended q m → t.Appended q m)
    (hstore : t.keys.store (groupKey groupVersion gatherAddSuffix m)
      = s.keys.store (groupKey groupVersion gatherAddSuffix m))
    (hremoved : t.keys.addRemoved m = s.keys.addRemoved m) : Holds groupVersion c t m l where
  nodup := h.nodup
  appended q hq := ⟨(h.appended q hq).1, happended q (h.appended q hq).2⟩
  value := hstore.trans h.value
  removed hgone := by
    obtain ⟨q, hq, happ, hnot⟩ := h.removed (hremoved ▸ hgone)
    exact ⟨q, hq, happended q happ, hnot⟩

/-- A rank goes on within its call, with the keys as they are behind its operation. -/
theorem Sound.goto (h : Sound groupVersion c s) (hin : (s.ranks r).pc ≠ .returned)
    (hholds : ∀ m < 2 ^ 32, ∃ l, Holds groupVersion c (System.goto { s with keys := keys } r pc) m l)
    (horder : ∀ m, keys.waitRemoved m = true → keys.addRemoved m = true)
    (hmono : ∀ m, s.keys.addRemoved m = true → keys.addRemoved m = true)
    (hpc : pc ≠ .fault) (hout : pc ≠ .returned)
    (hlate : ∀ val, pc = .removeAdd val ∨ pc = .removeWait val → removeInterval < (s.ranks r).calls)
    (hhalf : ∀ val, pc = .removeWait val →
      keys.addRemoved ((s.ranks r).calls - removeInterval) = true) :
    Sound groupVersion c (System.goto { s with keys := keys } r pc) := by
  refine ⟨fun q => ?_, fun q => ?_, fun q => ?_, hholds, horder, fun q val => ?_, fun q val => ?_,
    fun q => ?_, h.received⟩
  all_goals
    simp only [System.goto, Rank.goto_apply]
    by_cases hq : q = r
  · subst hq
    simpa using h.serial q
  · simpa [hq] using h.serial q
  · simpa [hq] using hpc
  · simpa [hq] using h.inside q
  · simpa [hq] using fun _ => h.entered r hin
  · simpa [hq] using h.entered q
  · subst hq
    simpa using hlate val
  · simpa [hq] using h.late q val
  · subst hq
    simpa using hhalf val
  · simp only [hq, if_false]
    exact fun hval => hmono _ (h.halfway q val hval)
  · simp only [hq, if_true]
    exact fun heq => absurd heq hout
  · simpa [hq] using h.returned q

/-- The keys of the contributions are left alone. -/
theorem Sound.goto_keep (h : Sound groupVersion c s) (hin : (s.ranks r).pc ≠ .returned)
    (hstore : ∀ m < 2 ^ 32, keys.store (groupKey groupVersion gatherAddSuffix m)
      = s.keys.store (groupKey groupVersion gatherAddSuffix m))
    (hremoved : keys.addRemoved = s.keys.addRemoved)
    (horder : ∀ m, keys.waitRemoved m = true → keys.addRemoved m = true)
    (hpc : pc ≠ .append ∧ pc ≠ .fault ∧ pc ≠ .returned)
    (hval : ∀ val, pc ≠ .removeAdd val ∧ pc ≠ .removeWait val) :
    Sound groupVersion c (System.goto { s with keys := keys } r pc) := by
  refine h.goto hin (fun m hm => ?_) horder (fun m hgone => hremoved ▸ hgone) hpc.2.1 hpc.2.2
    (fun val hor => hor.elim (fun heq => absurd heq (hval val).1) fun heq => absurd heq (hval val).2)
    fun val heq => absurd heq (hval val).2
  obtain ⟨l, hl⟩ := h.holds m hm
  exact ⟨l, hl.keep (fun q happ => happ.goto hpc.1) (hstore m hm) (congrFun hremoved m)⟩

/-- A rank enters its next call. -/
theorem Sound.enter (h : Sound groupVersion c s) :
    Sound groupVersion c { s with ranks := Rank.enter s.ranks r .append } := by
  refine ⟨fun q => ?_, fun q => ?_, fun q => ?_, fun m hm => ?_, h.order, fun q val => ?_,
    fun q val => ?_, fun q => ?_, h.received⟩
  case refine_4 =>
    obtain ⟨l, hl⟩ := h.holds m hm
    exact ⟨l, hl.keep (fun q happ => happ.enter) rfl rfl⟩
  all_goals
    simp only [Rank.enter_apply]
    by_cases hq : q = r
  · have hserial := h.serial r
    simp only [hq, if_true]
    omega
  · simpa [hq] using h.serial q
  · simp [hq]
  · simpa [hq] using h.inside q
  · simp [hq]
  · simpa [hq] using h.entered q
  · simp [hq]
  · simpa [hq] using h.late q val
  · simp [hq]
  · simpa [hq] using h.halfway q val
  · simp [hq]
  · simpa [hq] using h.returned q

/-- The `Append` of a rank adds its contribution to what the key holds. -/
theorem Holds.append_eq (h : Holds groupVersion c s m l) (hfits : Fits c.rankSize (c.sendSize m))
    (r : ℕ) :
    s.keys.store.append (groupKey groupVersion gatherAddSuffix m)
        (contribution (fun i => c.sendBuf i m) r)
      = ((l ++ [r]).length * unitSize (c.sendSize m),
        Function.update s.keys.store (groupKey groupVersion gatherAddSuffix m)
          (some (encode c m (l ++ [r])))) := by
  have hlength := length_encode hfits (l ++ [r])
  rw [encode, Value.text, List.flatMap_append, List.flatMap_singleton] at hlength
  rw [Store.append, h.value]
  by_cases hl : l = []
  · subst hl
    rw [List.flatMap_nil, List.nil_append, List.nil_append] at hlength
    simp only [if_true, hlength, List.nil_append, encode, List.flatMap_singleton]
  · simp only [if_neg hl, encode, Value.text, hlength, List.flatMap_append, List.flatMap_singleton]

/-- A key of full length holds the contribution of every rank. -/
theorem Holds.perm_of_full (h : Holds groupVersion c s m l)
    (hfits : Fits c.rankSize (c.sendSize m))
    (hfull : (encode c m l).text.length = unitSize (c.sendSize m) * c.rankSize) :
    l.Perm (List.range c.rankSize) := by
  have hpos : 0 < unitSize (c.sendSize m) := by
    rw [hfits.unitSize_eq]
    exact Nat.add_pos_right _ (by decide)
  have hlength : l.length = c.rankSize := by
    rw [length_encode hfits, Nat.mul_comm] at hfull
    exact Nat.eq_of_mul_eq_mul_left hpos hfull
  have hsub : l.Subperm (List.range c.rankSize) :=
    h.nodup.subperm fun q hq => List.mem_range.mpr (h.appended q hq).1
  exact hsub.perm_of_length_le (by rw [hlength, List.length_range])

/-- The key of a call that a rank can read in full was never removed. -/
theorem Holds.not_removed (h : Holds groupVersion c s m l) (hperm : l.Perm (List.range c.rankSize)) :
    s.keys.addRemoved m = false := by
  by_contra hgone
  obtain ⟨q, hq, _, hnot⟩ := h.removed (by simpa using hgone)
  exact hnot (hperm.mem_iff.mpr (List.mem_range.mpr hq))

/-- What a rank does behind its `Append` begins no clean-up. -/
theorem afterRemove_ne (c : Calls) (n val : ℕ) :
    (afterRemove c n val ≠ .append ∧ afterRemove c n val ≠ .fault ∧
      afterRemove c n val ≠ .returned) ∧
    ∀ v, afterRemove c n val ≠ .removeAdd v ∧ afterRemove c n val ≠ .removeWait v := by
  unfold afterRemove
  split <;> simp

/-- The `Append` of a rank, whatever comes behind it. -/
theorem Sound.append (h : Sound groupVersion c s) (hr : r < c.rankSize)
    (hpc : (s.ranks r).pc = .append)
    (hl : Holds groupVersion c s (s.ranks r).calls l) (hcalls : (s.ranks r).calls < 2 ^ 32)
    {next : Pc} (hnext : next ≠ .append ∧ next ≠ .fault ∧ next ≠ .returned)
    (hlate : ∀ val, next = .removeAdd val → removeInterval < (s.ranks r).calls)
    (hhalf : ∀ val, next ≠ .removeWait val) :
    Sound groupVersion c (System.goto { s with keys := { s.keys with
      store := Function.update s.keys.store
        (groupKey groupVersion gatherAddSuffix (s.ranks r).calls)
        (some (encode c (s.ranks r).calls (l ++ [r]))) } } r next) := by
  have hin : (s.ranks r).pc ≠ .returned := by simp [hpc]
  refine h.goto hin (fun m hm => ?_) h.order (fun m => id) hnext.2.1 hnext.2.2
    (fun val hor => hor.elim (hlate val) fun heq => absurd heq (hhalf val))
    fun val heq => absurd heq (hhalf val)
  by_cases hmr : m = (s.ranks r).calls
  · subst hmr
    -- the rank itself has not appended before
    have hnew : r ∉ l := fun hmem => by
      rcases (hl.appended r hmem).2.2 with hlt | ⟨_, hne⟩
      · exact absurd hlt (lt_irrefl _)
      · exact hne hpc
    refine ⟨l ++ [r], hl.nodup.append (List.nodup_singleton r) (by simpa using hnew),
      fun q hq => ?_, ?_, fun hgone => ?_⟩
    · rcases List.mem_append.mp hq with hold | hself
      · exact ⟨(hl.appended q hold).1, (hl.appended q hold).2.goto hnext.1⟩
      · rw [List.mem_singleton.mp hself]
        refine ⟨hr, h.entered r hin, Or.inr ?_⟩
        show (s.ranks r).calls = (Rank.goto s.ranks r next r).calls ∧
          (Rank.goto s.ranks r next r).pc ≠ .append
        rw [Rank.goto_apply, if_pos rfl]
        exact ⟨rfl, hnext.1⟩
    · rw [if_neg (by simp)]
      exact Function.update_self ..
    · obtain ⟨q, hq, happ, hnot⟩ := hl.removed hgone
      refine ⟨q, hq, happ.goto hnext.1, fun hmem => ?_⟩
      rcases List.mem_append.mp hmem with hold | hself
      · exact hnot hold
      · rw [List.mem_singleton.mp hself] at happ
        rcases happ.2 with hlt | ⟨_, hne⟩
        · exact absurd hlt (lt_irrefl _)
        · exact hne hpc
  · obtain ⟨l', hl'⟩ := h.holds m hm
    refine ⟨l', hl'.keep (fun q happ => happ.goto hnext.1) ?_ rfl⟩
    show Function.update s.keys.store _ _ _ = _
    rw [update_groupKey hcalls hm, if_neg hmr]

/-- The removal of the contribution key of an older call, which its remover has appended to. -/
theorem Sound.removeAdd (h : Sound groupVersion c s) (hr : r < c.rankSize)
    (hin : (s.ranks r).pc ≠ .returned)
    (hlate : removeInterval < (s.ranks r).calls) (hcalls : (s.ranks r).calls < 2 ^ 32) (val : ℕ) :
    Sound groupVersion c (System.goto { s with
      keys := s.keys.removeAdd groupVersion gatherAddSuffix ((s.ranks r).calls - removeInterval) }
      r (.removeWait val)) := by
  have hmono : ∀ m, s.keys.addRemoved m = true → (s.keys.removeAdd groupVersion gatherAddSuffix
      ((s.ranks r).calls - removeInterval)).addRemoved m = true := by
    intro m hgone
    show Function.update s.keys.addRemoved _ true m = true
    rw [Function.update_apply]
    split
    · rfl
    · exact hgone
  refine h.goto hin (fun m hm => ?_) (fun m hgone => hmono m (h.order m hgone)) hmono (by simp)
    (by simp)
    (fun _ _ => hlate) fun _ _ => Function.update_self ..
  obtain ⟨l, hl⟩ := h.holds m hm
  by_cases hmr : m = (s.ranks r).calls - removeInterval
  · have happ : s.Appended r m := ⟨by omega, Or.inl (by unfold removeInterval at *; omega)⟩
    refine ⟨[], List.nodup_nil, by simp, ?_, fun _ => ⟨r, hr, happ.goto (by simp), by simp⟩⟩
    rw [hmr, if_pos rfl]
    exact Function.update_self ..
  · refine ⟨l, hl.keep (fun q happ => happ.goto (by simp)) ?_ ?_⟩
    · show Function.update s.keys.store _ none _ = _
      rw [update_groupKey (by omega) hm, if_neg hmr]
    · exact Function.update_of_ne hmr ..

/-- A rank that has read the whole key receives the bytes of all. -/
theorem Sound.receive (h : Sound groupVersion c s) :
    Sound groupVersion c ((s.receive r (s.ranks r).calls
      ((List.range c.rankSize).flatMap fun i => c.sendBuf i (s.ranks r).calls)).goto r .returned) := by
  have hreceived : ∀ q n, Function.update s.received r (Function.update (s.received r)
      (s.ranks r).calls (some ((List.range c.rankSize).flatMap fun i =>
        c.sendBuf i (s.ranks r).calls))) q n
      = if q = r ∧ n = (s.ranks r).calls then some ((List.range c.rankSize).flatMap fun i =>
          c.sendBuf i n) else s.received q n := by
    intro q n
    by_cases hq : q = r
    · by_cases hn : n = (s.ranks r).calls
      · simp [hq, hn]
      · simp [hq, hn]
    · simp [hq]
  refine ⟨fun q => ?_, fun q => ?_, fun q => ?_, fun m hm => ?_, h.order, fun q val => ?_,
    fun q val => ?_, fun q => ?_, fun q n buf hbuf => ?_⟩
  case refine_4 =>
    obtain ⟨l, hl⟩ := h.holds m hm
    have hkept (q) (happ : s.Appended q m) :
        (System.goto { s with keys := s.keys } r .returned).Appended q m := happ.goto (by simp)
    exact ⟨l, hl.keep hkept rfl rfl⟩
  case refine_8 =>
    simp only [System.goto, System.receive, hreceived] at hbuf
    split at hbuf
    · exact (Option.some.inj hbuf).symm
    · exact h.received q n buf hbuf
  all_goals
    simp only [System.goto, System.receive, Rank.goto_apply]
    by_cases hq : q = r
  · subst hq
    simpa using h.serial q
  · simpa [hq] using h.serial q
  · simp [hq]
  · simpa [hq] using h.inside q
  · simp [hq]
  · simpa [hq] using h.entered q
  · simp [hq]
  · simpa [hq] using h.late q val
  · simp [hq]
  · simpa [hq] using h.halfway q val
  · simp [hq, hreceived]
  · simpa [hq, hreceived] using h.returned q

end Moves

namespace Sound

variable {groupVersion : ℤ} {c : Calls} {s s' : System} {move : Move} {r : ℕ}

theorem sn_eq (h : Sound groupVersion c s) (hcalls : (s.ranks r).calls < 2 ^ 32) :
    (s.ranks r).sn = (s.ranks r).calls := by
  rw [h.serial, Nat.mod_eq_of_lt hcalls]

/-- What a rank reads behind the wait key: a value of full length has the bytes of all. -/
theorem sort_eq (h : Sound groupVersion c s) (hfits : ∀ n, Fits c.rankSize (c.sendSize n))
    (hcalls : (s.ranks r).calls < 2 ^ 32) {value : Value}
    (hvalue : s.keys.store (groupKey groupVersion gatherAddSuffix (s.ranks r).calls) = some value)
    (hfull : value.text.length = unitSize (c.sendSize (s.ranks r).calls) * c.rankSize) :
    sortGatherRecv value.text (c.sendSize (s.ranks r).calls) c.rankSize
        (c.recvBuf r (s.ranks r).calls)
      = .ok ((List.range c.rankSize).flatMap fun i => c.sendBuf i (s.ranks r).calls) ∧
    s.keys.addRemoved (s.ranks r).calls = false := by
  have hfit := hfits (s.ranks r).calls
  obtain ⟨l, hl⟩ := h.holds _ hcalls
  rw [hl.value] at hvalue
  split at hvalue
  case isTrue => exact absurd hvalue (by simp)
  case isFalse =>
    have hvalue' := Option.some.inj hvalue
    subst hvalue'
    have hperm := hl.perm_of_full hfit hfull
    have hrecv : (c.recvBuf r (s.ranks r).calls).length
        = c.sendSize (s.ranks r).calls * c.rankSize := by
      rw [c.length_recvBuf, ← c.accepted, Nat.mod_eq_of_lt hfit.recv]
    exact ⟨sortGatherRecv_eq hfit c.rankSize_lt (fun i => c.length_sendBuf i _) hperm hrecv,
      hl.not_removed hperm⟩

/-- Every operation keeps what holds whoever times out. -/
theorem operate (h : Sound groupVersion c s) (hfits : ∀ n, Fits c.rankSize (c.sendSize n))
    (hcalls : (s.ranks r).calls < 2 ^ 32)
    (hstep : AllGather.operate groupVersion c s r = some s') : Sound groupVersion c s' := by
  have hr := lt_of_operate hstep
  have hfit := hfits (s.ranks r).calls
  unfold AllGather.operate at hstep
  rw [if_pos hr] at hstep
  simp only [h.sn_eq hcalls] at hstep
  have hgoto : ∀ {pc}, (s.ranks r).pc ≠ .returned → pc ≠ .append ∧ pc ≠ .fault ∧ pc ≠ .returned →
      (∀ val, pc ≠ .removeAdd val ∧ pc ≠ .removeWait val) → Sound groupVersion c (s.goto r pc) :=
    fun hin hpc hval => h.goto_keep hin (fun _ _ => rfl) rfl h.order hpc hval
  cases hpc : (s.ranks r).pc with
  | returned =>
    simp only [hpc, Option.some.injEq] at hstep
    exact hstep ▸ h.enter
  | failed =>
    simp only [hpc, Option.some.injEq] at hstep
    exact hstep ▸ h.enter
  | append =>
    obtain ⟨l, hl⟩ := h.holds _ hcalls
    have hinput := @gatherInput_eq _ _ hfit r _ (c.length_sendBuf r (s.ranks r).calls)
    have hafter := afterRemove_ne c (s.ranks r).calls
    rw [show leBytes 4 r ++ c.sendBuf r (s.ranks r).calls
      = contribution (fun i => c.sendBuf i (s.ranks r).calls) r from rfl] at hinput
    simp only [hpc, hinput, hl.append_eq hfit] at hstep
    split at hstep
    case isTrue hfirst =>
      rw [← Option.some.inj hstep]
      exact h.append hr hpc hl hcalls (by simp) (fun _ _ => hfirst.2) (by simp)
    case isFalse =>
      rw [← Option.some.inj hstep]
      exact h.append hr hpc hl hcalls (hafter _).1
        (fun val heq => absurd heq ((hafter _).2 val).1) fun val => ((hafter _).2 val).2
  | removeAdd val =>
    simp only [hpc, Option.some.injEq] at hstep
    exact hstep ▸ h.removeAdd hr (by simp [hpc]) (h.late r val (Or.inl hpc)) hcalls val
  | removeWait val =>
    simp only [hpc, Option.some.injEq] at hstep
    have hafter := afterRemove_ne c (s.ranks r).calls val
    rw [← hstep]
    -- a wait key is removed after the add key of its call
    refine h.goto_keep (by simp [hpc]) (fun m hm => ?_) rfl (fun m hgone => ?_) hafter.1 hafter.2
    · exact update_groupKey_of_ne (by omega) hm gatherSuffixes.1.symm gatherSuffixes.2.symm _ _
    · change Function.update s.keys.waitRemoved _ true m = true at hgone
      rw [Function.update_apply] at hgone
      split at hgone
      case isTrue hm =>
        rw [hm]
        exact h.halfway r val hpc
      case isFalse => exact h.order m hgone
  | set =>
    simp only [hpc, Option.some.injEq] at hstep
    rw [← hstep]
    refine h.goto_keep (by simp [hpc]) (fun m hm => ?_) rfl h.order (by simp) (by simp)
    exact update_groupKey_of_ne hcalls hm gatherSuffixes.1.symm gatherSuffixes.2.symm _ _
  | getStatus =>
    simp only [hpc] at hstep
    split at hstep
    · exact absurd hstep (by simp)
    · split at hstep <;> rw [← Option.some.inj hstep] <;>
        exact hgoto (by simp [hpc]) (by simp) (by simp)
  | getData =>
    simp only [hpc] at hstep
    split at hstep
    case h_1 => exact absurd hstep (by simp)
    case h_2 value hvalue =>
      split at hstep
      case isTrue =>
        rw [← Option.some.inj hstep]
        exact hgoto (by simp [hpc]) (by simp) (by simp)
      case isFalse hfull =>
        simp only [(h.sort_eq hfits hcalls hvalue (not_not.mp hfull)).1, Option.some.injEq] at hstep
        exact hstep ▸ h.receive
  | fault => exact absurd hpc (h.inside r)

/-- Every move keeps what holds whoever times out. -/
theorem step (h : Sound groupVersion c s)
    (hfits : ∀ n, Fits c.rankSize (c.sendSize n))
    (hcalls : ∀ q < c.rankSize, (s.ranks q).calls < 2 ^ 32)
    (hstep : AllGather.step groupVersion c s move = some s') : Sound groupVersion c s' := by
  cases move with
  | run r => exact h.operate hfits (hcalls r (lt_of_operate hstep)) hstep
  | timeout r =>
    obtain ⟨hpc, heq⟩ := giveUp_eq hstep
    have hin : (s.ranks r).pc ≠ .returned := by rcases hpc with hpc | hpc <;> simp [hpc]
    rw [heq]
    show Sound groupVersion c (System.goto { s with keys := s.keys } r .failed)
    exact h.goto_keep hin (fun _ _ => rfl) rfl h.order (by simp) (by simp)

/-- When a call returns `SM_OK`, no clean-up has touched its keys. -/
theorem kept_of_received (h : Sound groupVersion c s)
    (hfits : ∀ n, Fits c.rankSize (c.sendSize n))
    (hcalls : ∀ q < c.rankSize, (s.ranks q).calls < 2 ^ 32)
    (hstep : AllGather.step groupVersion c s move = some s') {q n : ℕ}
    (hnew : s'.received q n ≠ s.received q n) :
    s.keys.addRemoved n = false ∧ s.keys.waitRemoved n = false := by
  have hkept : s.keys.addRemoved n = false := by
    cases move with
    | timeout r =>
      rw [(giveUp_eq hstep).2] at hnew
      exact absurd rfl hnew
    | run r =>
      have hlt := hcalls r (lt_of_operate hstep)
      rcases received_of_operate hstep with hsame | ⟨value, buf, hvalue, hfull, hreceived⟩
      · rw [hsame] at hnew
        exact absurd rfl hnew
      · rw [h.sn_eq hlt] at hvalue hfull hreceived
        have hn : n = (s.ranks r).calls := by
          by_contra hne
          rw [hreceived] at hnew
          change Function.update s.received r _ q n ≠ s.received q n at hnew
          rw [Function.update_apply] at hnew
          split at hnew
          case isTrue hqr =>
            rw [Function.update_of_ne hne, hqr] at hnew
            exact hnew rfl
          case isFalse => exact hnew rfl
        rw [hn]
        exact (h.sort_eq hfits hlt hvalue hfull).2
  refine ⟨hkept, ?_⟩
  by_contra hgone
  rw [h.order n (by simpa using hgone)] at hkept
  exact absurd hkept (by simp)

/-- Every run keeps what holds whoever times out. -/
theorem run (h : Sound groupVersion c s) (hfits : ∀ n, Fits c.rankSize (c.sendSize n))
    {schedule : List Move} (hrun : AllGather.run groupVersion c s schedule = some s')
    (hcalls : ∀ q < c.rankSize, (s'.ranks q).calls < 2 ^ 32) : Sound groupVersion c s' := by
  induction schedule generalizing s with
  | nil => exact Option.some.inj hrun ▸ h
  | cons move schedule ih =>
    rw [AllGather.run, List.foldlM_cons] at hrun
    rcases Option.bind_eq_some_iff.mp hrun with ⟨s₁, hstep, hrest⟩
    have hbefore : ∀ q < c.rankSize, (s.ranks q).calls < 2 ^ 32 := fun q hq =>
      ((calls_le_of_step hstep q).trans (calls_le_of_run hrest q)).trans_lt (hcalls q hq)
    exact ih (h.step hfits hbefore hstep) hrest

end Sound

/-- Rank `r` has returned from its `n`-th allgather. -/
def System.Returned (s : System) (r n : ℕ) : Prop :=
  1 ≤ n ∧ (n < (s.ranks r).calls ∨ n = (s.ranks r).calls ∧ (s.ranks r).pc = .returned)

/-- The store-based allgather, in every interleaving of the ranks' operations and whoever times
out, when no size wraps and no rank has made `2 ^ 32` calls. Nobody leaves a buffer. A call that
returns `SM_OK` has everybody's bytes of the same call in the order of the ranks, and no clean-up
has touched the keys that it read. If nobody has timed out, then nobody fails, and the keys of a
call are removed when all have returned from it. -/
theorem groupAllGather_correct {groupVersion : ℤ} {c : Calls} {schedule : List Move} {s : System}
    (hfits : ∀ n, Fits c.rankSize (c.sendSize n))
    (hrun : run groupVersion c .init schedule = some s)
    (hsn : ∀ r < c.rankSize, (s.ranks r).calls < 2 ^ 32) :
    (∀ r, (s.ranks r).pc ≠ .fault) ∧
    (∀ r, (s.ranks r).pc = .returned → 1 ≤ (s.ranks r).calls →
      ∃ buf, s.received r (s.ranks r).calls = some buf) ∧
    (∀ r n buf, s.received r n = some buf → buf.length = c.recvSize n ∧
      ∀ i < c.rankSize, slice buf (i * c.sendSize n) (c.sendSize n) = c.sendBuf i n) ∧
    (∀ move s', step groupVersion c s move = some s' →
      ∀ r n, s'.received r n ≠ s.received r n →
        s.keys.addRemoved n = false ∧ s.keys.waitRemoved n = false) ∧
    ((∀ r, Move.timeout r ∉ schedule) →
      (∀ r, (s.ranks r).pc ≠ .failed) ∧
      ∀ n, s.keys.addRemoved n = true ∨ s.keys.waitRemoved n = true →
        ∀ r < c.rankSize, s.Returned r n) := by
  have hsound := (sound_init groupVersion c).run hfits hrun hsn
  refine ⟨hsound.inside, hsound.returned, fun r n buf hbuf => ?_,
    fun move s' hstep r n hnew => hsound.kept_of_received hfits hsn hstep hnew, fun htime => ?_⟩
  · rw [hsound.received r n buf hbuf]
    refine ⟨?_, fun i hi => ?_⟩
    · rw [List.length_flatMap, List.map_congr_left fun i _ => c.length_sendBuf i n, List.map_const',
        List.sum_replicate, smul_eq_mul, List.length_range, ← c.accepted,
        Nat.mod_eq_of_lt (hfits n).recv, Nat.mul_comm]
    · have hat := bytesAt_flatMap (f := fun i => c.sendBuf i n) (k := i) (l := List.range c.rankSize)
        (fun j _ => c.length_sendBuf j n) (List.getElem?_range hi)
      rw [BytesAt, c.length_sendBuf] at hat
      exact hat.2
  · rcases (refines_init groupVersion c).run (config c.rankSize).inv_init hfits htime hrun hsn with
      ⟨a, hinv, href⟩
    refine ⟨fun r => (href.alive r).1, fun n hremoved r hr => ?_⟩
    rw [href.keys.addRemoved, href.keys.waitRemoved] at hremoved
    have hfinished := hinv.finished_of_removed (le_refl 2) hremoved hr
    rw [href.ranks.participants, Rendezvous.Participant.Finished] at hfinished
    have hpc := href.alive r
    rw [System.Returned]
    cases h : (s.ranks r).pc <;> simp_all [Pc.phase]

/-- Two ranks that send one byte a call. -/
def twoRanks : Calls where
  rankSize := 2
  sendSize := fun _ => 1
  recvSize := fun _ => 2
  sendBuf := fun r _ => [UInt8.ofNat (r + 7)]
  recvBuf := fun _ _ => [0, 0]
  rankSize_lt := by decide
  sendSize_lt := fun _ => by decide
  length_sendBuf := fun _ _ => rfl
  length_recvBuf := fun _ _ => rfl
  accepted := fun _ => rfl

theorem fits_one : Fits 2 1 := ⟨by decide, by decide, by decide⟩

/-- Rank 0 times out and makes its next call; rank 1 appends to the first one only then. -/
def lateRank : List Move :=
  [.run 0, .run 0, .timeout 0, .run 0, .run 0, .run 1, .run 1, .run 1, .run 1, .run 1]

/-- Two ranks gather a byte each, twice; the first to come waits for the other. -/
theorem groupAllGather_correct_twoRanks :
    ∃ s, run 1 twoRanks .init lateRank = some s ∧ ∃ buf, s.received 1 1 = some buf ∧
      slice buf 0 1 = [7] ∧ slice buf 1 1 = [8] := by
  have hany : (run 1 twoRanks .init lateRank).any fun s =>
      (s.ranks 0).calls = 2 ∧ (s.ranks 1).calls = 1 ∧ (s.ranks 1).pc = .returned := by
    decide +kernel
  rcases (Option.any_eq_true _ _).mp hany with ⟨s, hrun, hs⟩
  rw [decide_eq_true_iff] at hs
  have hcalls : ∀ r < 2, (s.ranks r).calls < 2 ^ 32 := by
    intro r hr
    interval_cases r
    · rw [hs.1]
      decide
    · rw [hs.2.1]
      decide
  have hcorrect := groupAllGather_correct (c := twoRanks) (fun _ => fits_one) hrun hcalls
  rcases hcorrect.2.1 1 hs.2.2 (by rw [hs.2.1]) with ⟨buf, hbuf⟩
  rw [hs.2.1] at hbuf
  have hslice := (hcorrect.2.2.1 1 1 buf hbuf).2
  exact ⟨s, hrun, buf, hbuf, hslice 0 (by decide), hslice 1 (by decide)⟩

/-- One rank that sends `2 ^ 32 - 4` bytes: with the prefix this is `0` as a `uint32_t`. -/
def wrappingRank : Calls where
  rankSize := 1
  sendSize := fun _ => 4294967292
  recvSize := fun _ => 4294967292
  sendBuf := fun _ _ => List.replicate 4294967292 0
  recvBuf := fun _ _ => List.replicate 4294967292 0
  rankSize_lt := by decide
  sendSize_lt := fun _ => by decide
  length_sendBuf := fun _ _ => List.length_replicate
  length_recvBuf := fun _ _ => List.length_replicate
  accepted := fun _ => by decide

/-- The call is accepted, and the rank is written behind a vector of no bytes. -/
theorem groupAllGather_wrappingRank :
    ∃ s, run 1 wrappingRank .init [.run 0, .run 0] = some s ∧ (s.ranks 0).pc = .fault :=
  ⟨_, rfl, rfl⟩

end AllGather

end AscendShmem.GroupEngine
