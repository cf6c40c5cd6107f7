import Mathlib

/-!
# Dissemination barriers

`size` participants meet again and again. In round `r` participant `p` writes its barrier count to a
slot of participant `p + 2 ^ r` (modulo `size`) and waits until its own slot of that round holds the
count or the next one. The count is one more than a counter word, which is written back on the way
out, or on the way in. The participants move one step at a time in any order.

What holds in every reachable state is said with four numbers per participant that only grow: the
barriers it has entered (`entries`), the signals it has sent in a round (`sent`), the signals it has
waited for in a round (`got`) and its stores to the counter (`stores`). A slot holds the `sent` of
its writer, nobody has `got` more than was `sent`, and following this back through the rounds
reaches everybody.
-/

namespace Lib

/-- What one barrier function fixes. -/
structure Dissemination (α : Type) where
  size : ℕ
  /-- the loop goes on to round `r` -/
  more : ℕ → Bool
  /-- round `r` sends and waits -/
  acts : ℕ → Bool
  /-- the slot `p` writes in round `r` -/
  target : ℕ → ℕ → α
  /-- the slot `p` waits on in round `r` -/
  source : ℕ → ℕ → α
  /-- the counter word of `p` -/
  cell : ℕ → ℕ
  /-- the counter is stored before the rounds, and the signals copy it -/
  storeFirst : Bool

namespace Dissemination

/-- Where a participant is in its barrier; `c` is its count. -/
inductive Phase where
  | outside
  | entered (c : ℕ)
  | round (c r : ℕ)
  | waiting (c r : ℕ)
deriving DecidableEq, Repr

/-- A participant. -/
structure Participant where
  /-- completed barriers -/
  done : ℕ
  phase : Phase
deriving DecidableEq, Repr

/-- The participants, and the words that they share. -/
structure State (α : Type) where
  participants : ℕ → Participant
  flag : α → ℕ
  counter : ℕ → ℕ

/-- Nobody has entered, all words are zero. -/
def State.init (α : Type) : State α := ⟨fun _ => ⟨0, .outside⟩, fun _ => 0, fun _ => 0⟩

variable {α : Type} (b : Dissemination α)

section Run

variable [DecidableEq α]

/-- The next step of participant `p`, if it can make one. -/
def step (s : State α) (p : ℕ) : Option (State α) :=
  if p < b.size then
    let here := s.participants p
    let go := fun phase => Function.update s.participants p { here with phase := phase }
    match here.phase with
    | .outside => some { s with participants := go (.entered (s.counter (b.cell p) + 1)) }
    | .entered c =>
      some { s with
        participants := go (.round c 0)
        counter := if b.storeFirst then Function.update s.counter (b.cell p) c else s.counter }
    | .round c r =>
      if b.more r then
        if b.acts r then
          let value := if b.storeFirst then s.counter (b.cell p) else c
          some { s with
            participants := go (.waiting c r)
            flag := Function.update s.flag (b.target p r) value }
        else some { s with participants := go (.round c (r + 1)) }
      else
        some { s with
          participants := Function.update s.participants p ⟨here.done + 1, .outside⟩
          counter := if b.storeFirst then s.counter
            else Function.update s.counter (b.cell p) c }
    | .waiting c r =>
      if s.flag (b.source p r) = c ∨ s.flag (b.source p r) = c + 1 then
        some { s with participants := go (.round c (r + 1)) }
      else none
  else none

/-- The state after the participants of a schedule have made their steps. -/
def run (s : State α) (schedule : List ℕ) : Option (State α) := schedule.foldlM b.step s

end Run

/-! ## What a participant has done -/

/-- Barriers entered. -/
def Participant.entries (l : Participant) : ℕ :=
  l.done + match l.phase with
    | .outside => 0
    | _ => 1

/-- Signals sent in round `r`. -/
def Participant.sent (l : Participant) (r : ℕ) : ℕ :=
  l.done + match l.phase with
    | .round _ k => if r < k then 1 else 0
    | .waiting _ k => if r ≤ k then 1 else 0
    | _ => 0

/-- Signals waited for in round `r`. -/
def Participant.got (l : Participant) (r : ℕ) : ℕ :=
  l.done + match l.phase with
    | .round _ k => if r < k then 1 else 0
    | .waiting _ k => if r < k then 1 else 0
    | _ => 0

/-- Stores to the counter. -/
def Participant.stores (storeFirst : Bool) (l : Participant) : ℕ :=
  l.done + match storeFirst, l.phase with
    | true, .round _ _ => 1
    | true, .waiting _ _ => 1
    | _, _ => 0

/-- The count a participant carries. -/
def Phase.count : Phase → Option ℕ
  | .outside => none
  | .entered c => some c
  | .round c _ => some c
  | .waiting c _ => some c

/-- The barrier goes through the rounds with `2 ^ r < size`, and every slot has one writer and one
round. -/
structure Lawful : Prop where
  pos : 0 < b.size
  more_iff : ∀ r, b.more r = true ↔ 2 ^ r < b.size
  acts : ∀ r, 2 ^ r < b.size → b.acts r = true
  target_eq : ∀ p < b.size, ∀ r, 2 ^ r < b.size →
    b.target p r = b.source ((p + 2 ^ r) % b.size) r
  source_inj : ∀ p < b.size, ∀ q < b.size, ∀ r k, 2 ^ r < b.size → 2 ^ k < b.size →
    b.source p r = b.source q k → p = q ∧ r = k
  cell_inj : b.storeFirst = true → ∀ p < b.size, ∀ q < b.size, b.cell p = b.cell q → p = q

/-- What holds in every reachable state. -/
structure Inv (s : State α) : Prop where
  count : ∀ p < b.size, ∀ c, (s.participants p).phase.count = some c →
    c = (s.participants p).done + 1
  waiting : ∀ p < b.size, ∀ c r, (s.participants p).phase = .waiting c r → 2 ^ r < b.size
  flag : ∀ p < b.size, ∀ r, 2 ^ r < b.size → s.flag (b.target p r) = (s.participants p).sent r
  got_le : ∀ p < b.size, ∀ r, 2 ^ r < b.size →
    (s.participants ((p + 2 ^ r) % b.size)).got r ≤ (s.participants p).sent r
  stores_le : ∀ p < b.size, (s.participants p).stores b.storeFirst ≤ s.counter (b.cell p)
  stores_eq : ∀ p < b.size, ∃ q < b.size, b.cell q = b.cell p ∧
    (s.participants q).stores b.storeFirst = s.counter (b.cell p)

/-- What a barrier is for, and that its waits cannot miss their flag. -/
structure Safe (s : State α) : Prop where
  /-- nobody completes a barrier that somebody has not entered -/
  together : ∀ p < b.size, ∀ q < b.size,
    (s.participants p).done ≤ (s.participants q).entries
  /-- the count is the number of the barrier -/
  count : ∀ p < b.size, ∀ c, (s.participants p).phase.count = some c →
    c = (s.participants p).entries
  /-- a flag waited on is never more than one ahead -/
  flag_le : ∀ p < b.size, ∀ c r, (s.participants p).phase = .waiting c r →
    s.flag (b.source p r) ≤ c + 1

section Order

variable {l : Participant} {r : ℕ}

theorem done_le_got : l.done ≤ l.got r := Nat.le_add_right _ _

/-- A participant sends in a round before it waits in it. -/
theorem got_le_sent : l.got r ≤ l.sent r := by
  unfold Participant.got Participant.sent
  cases l.phase with
  | waiting c k =>
    dsimp only
    split <;> split <;> omega
  | _ => exact le_rfl

/-- A signal of the next round comes after the wait of this one. -/
theorem sent_succ_le_got : l.sent (r + 1) ≤ l.got r := by
  unfold Participant.got Participant.sent
  cases l.phase with
  | round c k =>
    dsimp only
    split <;> split <;> omega
  | waiting c k =>
    dsimp only
    split <;> split <;> omega
  | _ => exact le_rfl

theorem sent_le_entries : l.sent r ≤ l.entries := by
  unfold Participant.sent Participant.entries
  cases l.phase with
  | round c k =>
    dsimp only
    split <;> omega
  | waiting c k =>
    dsimp only
    split <;> omega
  | outside => exact le_rfl
  | entered c => exact Nat.le_succ _

theorem sent_antitone {k : ℕ} (h : k ≤ r) : l.sent r ≤ l.sent k := by
  induction h with
  | refl => exact le_rfl
  | step _ ih => exact (sent_succ_le_got.trans got_le_sent).trans ih

theorem done_le_sent : l.done ≤ l.sent r := Nat.le_add_right _ _

theorem entries_le_succ_done : l.entries ≤ l.done + 1 := by
  unfold Participant.entries
  cases l.phase with
  | outside => exact Nat.le_succ _
  | _ => exact le_rfl

end Order

/-! ## What spreads through the rounds -/

section Knowledge

variable {size : ℕ} {participants : ℕ → Participant}

/-- Nobody has waited for a signal of a round that has not been sent. -/
def SentFirst (size : ℕ) (participants : ℕ → Participant) : Prop :=
  ∀ p < size, ∀ r, 2 ^ r < size →
    (participants ((p + 2 ^ r) % size)).got r ≤ (participants p).sent r

/-- Who has waited `n` times in round `r` knows that the `2 ^ (r + 1)` participants up to itself
have entered barrier `n`. -/
theorem SentFirst.entries_of_got (h : SentFirst size participants) {n r : ℕ} (hr : 2 ^ r < size)
    {p : ℕ} (hp : p < size) (hn : n ≤ (participants p).got r) {q j : ℕ} (hq : q < size)
    (hj : j < 2 ^ (r + 1)) (hpq : (q + j) % size = p) : n ≤ (participants q).entries := by
  induction r generalizing p j with
  | zero =>
    have hcases : j = 0 ∨ j = 1 := by omega
    rcases hcases with rfl | rfl
    · have heq : q = p := by rwa [Nat.add_zero, Nat.mod_eq_of_lt hq] at hpq
      rw [heq]
      exact hn.trans (got_le_sent.trans sent_le_entries)
    · rw [← hpq] at hn
      exact hn.trans ((h q hq 0 hr).trans sent_le_entries)
  | succ r ih =>
    have hpow : 2 ^ (r + 1) = 2 ^ r + 2 ^ r := by ring
    have hpow' : 2 ^ (r + 2) = 2 ^ (r + 1) + 2 ^ (r + 1) := by ring
    have hlt : 2 ^ r < size := by omega
    by_cases hnear : j < 2 ^ (r + 1)
    · -- within reach of the round before
      exact ih hlt hp (hn.trans (got_le_sent.trans sent_succ_le_got)) hnear hpq
    · -- within reach of the sender of this round
      have hsender : ((q + (j - 2 ^ (r + 1))) % size + 2 ^ (r + 1)) % size = p := by
        rw [Nat.mod_add_mod, ← hpq]
        congr 1
        omega
      rw [← hsender] at hn
      have hlt' : (q + (j - 2 ^ (r + 1))) % size < size := Nat.mod_lt _ (by omega)
      have hsent := hn.trans (h _ hlt' (r + 1) hr)
      exact ih hlt hlt' (hsent.trans sent_succ_le_got) (by omega) rfl

/-- A participant a multiple of `2 ^ i` behind has sent in round `i`. -/
theorem SentFirst.sent_of_got (h : SentFirst size participants) {n r : ℕ} (hr : 2 ^ r < size)
    {p : ℕ} (hp : p < size) (hn : n ≤ (participants p).got r) {q i m : ℕ} (hq : q < size)
    (hi : i ≤ r) (hm : 0 < m) (hreach : m * 2 ^ i < 2 ^ (r + 1))
    (hpq : (q + m * 2 ^ i) % size = p) : n ≤ (participants q).sent i := by
  induction r generalizing p m with
  | zero =>
    have hzero : i = 0 := by omega
    subst hzero
    have hone : m = 1 := by omega
    rw [hone, Nat.one_mul] at hpq
    rw [← hpq] at hn
    exact hn.trans (h q hq 0 hr)
  | succ r ih =>
    have hpow : 2 ^ (r + 1) = 2 ^ r + 2 ^ r := by ring
    have hpow' : 2 ^ (r + 2) = 2 ^ (r + 1) + 2 ^ (r + 1) := by ring
    have hlt : 2 ^ r < size := by omega
    by_cases hnear : m * 2 ^ i < 2 ^ (r + 1)
    · have hle : i ≤ r := by
        apply Nat.lt_succ_iff.mp
        apply (Nat.pow_lt_pow_iff_right (by norm_num : 1 < 2)).mp
        exact (Nat.le_mul_of_pos_left _ hm).trans_lt hnear
      exact ih hlt hp (hn.trans (got_le_sent.trans sent_succ_le_got)) hle hm hnear hpq
    · -- the sender of this round is behind the rest of the way
      have hsplit : 2 ^ (r + 1) = 2 ^ (r + 1 - i) * 2 ^ i := by
        rw [← pow_add, Nat.sub_add_cancel hi]
      have hrest : (m - 2 ^ (r + 1 - i)) * 2 ^ i = m * 2 ^ i - 2 ^ (r + 1) := by
        rw [Nat.sub_mul, ← hsplit]
      have hsender : ((q + (m - 2 ^ (r + 1 - i)) * 2 ^ i) % size + 2 ^ (r + 1)) % size = p := by
        rw [Nat.mod_add_mod, hrest, ← hpq]
        congr 1
        omega
      rw [← hsender] at hn
      have hlt' : (q + (m - 2 ^ (r + 1 - i)) * 2 ^ i) % size < size := Nat.mod_lt _ (by omega)
      have hsent := hn.trans (h _ hlt' (r + 1) hr)
      rcases Nat.eq_zero_or_pos (m - 2 ^ (r + 1 - i)) with hzero | hpos
      · rw [hzero, Nat.zero_mul, Nat.add_zero, Nat.mod_eq_of_lt hq] at hsent
        exact hsent.trans (sent_antitone hi)
      · have hle : i ≤ r := by
          apply Nat.lt_succ_iff.mp
          apply (Nat.pow_lt_pow_iff_right (by norm_num : 1 < 2)).mp
          exact (Nat.le_mul_of_pos_left _ hpos).trans_lt (by omega)
        exact ih hlt hlt' (hsent.trans sent_succ_le_got) hle hpos (by omega) rfl

/-- The round that reaches everybody. -/
theorem last_round {size : ℕ} (hsize : 1 < size) :
    2 ^ Nat.log 2 (size - 1) < size ∧ size - 1 < 2 ^ (Nat.log 2 (size - 1) + 1) := by
  have hlog : 2 ^ Nat.log 2 (size - 1) ≤ size - 1 := Nat.pow_log_le_self 2 (by omega)
  exact ⟨by omega, Nat.lt_pow_succ_log_self (by norm_num) _⟩

/-- Nobody completes a barrier that somebody has not entered. -/
theorem SentFirst.done_le_entries (h : SentFirst size participants) {p q : ℕ} (hp : p < size)
    (hq : q < size) : (participants p).done ≤ (participants q).entries := by
  by_cases hone : size = 1
  · have heq : q = p := by omega
    rw [heq]
    exact Nat.le_add_right _ _
  obtain ⟨hround, hreach⟩ := last_round (show 1 < size by omega)
  have hmod : (q + (p + size - q) % size) % size = p := by
    rw [Nat.add_mod_mod]
    have hsum : q + (p + size - q) = p + size := by omega
    rw [hsum, Nat.add_mod_right, Nat.mod_eq_of_lt hp]
  have hlt : (p + size - q) % size < size := Nat.mod_lt _ (by omega)
  exact h.entries_of_got hround hp done_le_got hq (by omega) hmod

/-- Nobody sends in a round two barriers ahead of the participant that waits for it: it would have
completed the barrier between, for which the signal of that participant is needed. -/
theorem SentFirst.sent_le_succ (h : SentFirst size participants) {p r : ℕ} (hp : p < size)
    (hr : 2 ^ r < size) :
    (participants p).sent r ≤ (participants ((p + 2 ^ r) % size)).sent r + 1 := by
  have hpos : 0 < 2 ^ r := Nat.two_pow_pos r
  have hdst : (p + 2 ^ r) % size < size := Nat.mod_lt _ (by omega)
  -- the way from the receiver on to the sender, in steps of `2 ^ r` and a rest
  have hway := Nat.div_add_mod (size - 2 ^ r) (2 ^ r)
  rw [Nat.mul_comm] at hway
  have hrest : (size - 2 ^ r) % 2 ^ r < 2 ^ r := Nat.mod_lt _ hpos
  generalize hm : (size - 2 ^ r) / 2 ^ r = m at hway
  generalize ht : (size - 2 ^ r) % 2 ^ r = t at hway hrest
  -- the rounds before have told the sender of the participants up to the rest
  have hnear : ∀ q < size, (q + t) % size = p →
      (participants p).sent r ≤ (participants q).entries := by
    intro q hq hpq
    cases r with
    | zero =>
      have hzero : t = 0 := by omega
      rw [hzero, Nat.add_zero, Nat.mod_eq_of_lt hq] at hpq
      rw [hpq]
      exact sent_le_entries
    | succ r =>
      have hpow : 2 ^ (r + 1) = 2 ^ r + 2 ^ r := by ring
      exact h.entries_of_got (by omega) hp sent_succ_le_got hq hrest hpq
  rcases Nat.eq_zero_or_pos m with hzero | hmpos
  · rw [hzero, Nat.zero_mul] at hway
    have hback : ((p + 2 ^ r) % size + t) % size = p := by
      rw [Nat.mod_add_mod, show p + 2 ^ r + t = p + size by omega, Nat.add_mod_right,
        Nat.mod_eq_of_lt hp]
    have hentered := hnear _ hdst hback
    have hdone : (participants ((p + 2 ^ r) % size)).entries
        ≤ (participants ((p + 2 ^ r) % size)).sent r + 1 :=
      entries_le_succ_done.trans (Nat.succ_le_succ done_le_sent)
    exact hentered.trans hdone
  · -- a participant that has completed the barrier before
    have hx : ((p + size - t) % size + t) % size = p := by
      rw [Nat.mod_add_mod, show p + size - t + t = p + size by omega, Nat.add_mod_right,
        Nat.mod_eq_of_lt hp]
    have hxlt : (p + size - t) % size < size := Nat.mod_lt _ (by omega)
    have hentered := (hnear _ hxlt hx).trans entries_le_succ_done
    obtain ⟨hround, hreach⟩ := last_round (show 1 < size by omega)
    have hle : r ≤ Nat.log 2 (size - 1) := Nat.le_log_of_pow_le (by norm_num) (by omega)
    have hto : ((p + 2 ^ r) % size + m * 2 ^ r) % size = (p + size - t) % size := by
      rw [Nat.mod_add_mod, show p + 2 ^ r + m * 2 ^ r = p + size - t by omega]
    have hsent := h.sent_of_got hround hxlt done_le_got hdst hle hmpos (by omega) hto
    omega

end Knowledge

/-! ## What follows from the invariant -/

section Consequences

variable {b} {s : State α}

/-- Nobody completes a barrier that somebody has not entered. -/
theorem Inv.done_le_entries (h : b.Inv s) {p q : ℕ} (hp : p < b.size) (hq : q < b.size) :
    (s.participants p).done ≤ (s.participants q).entries :=
  SentFirst.done_le_entries h.got_le hp hq

/-- Who enters a barrier reads the number of barriers it has completed. -/
theorem Inv.counter_of_outside (hb : b.Lawful) (h : b.Inv s) {p : ℕ} (hp : p < b.size)
    (hout : (s.participants p).phase = .outside) :
    s.counter (b.cell p) = (s.participants p).done := by
  have hown : (s.participants p).stores b.storeFirst = (s.participants p).done := by
    unfold Participant.stores
    rw [hout]
    cases b.storeFirst <;> rfl
  rcases h.stores_eq p hp with ⟨q, hq, hcell, hstores⟩
  have hle := h.stores_le p hp
  rw [hown] at hle
  cases hfirst : b.storeFirst with
  | true =>
    have heq := hb.cell_inj hfirst q hq p hp hcell
    rw [heq, hown] at hstores
    exact hstores.symm
  | false =>
    have hcompleted : (s.participants q).done = s.counter (b.cell p) := by
      rw [← hstores, hfirst]
      rfl
    have hentered := h.done_le_entries hq hp
    have hentries : (s.participants p).entries = (s.participants p).done := by
      unfold Participant.entries
      rw [hout]
      rfl
    omega

/-- The invariant contains the safety of the barrier. -/
theorem Inv.safe (h : b.Inv s) (hb : b.Lawful) : b.Safe s := by
  have hcount : ∀ p < b.size, ∀ c, (s.participants p).phase.count = some c →
      c = (s.participants p).entries := by
    intro p hp c hc
    rw [h.count p hp c hc]
    unfold Participant.entries
    cases hphase : (s.participants p).phase with
    | outside =>
      rw [hphase] at hc
      cases hc
    | _ => rfl
  refine ⟨fun p hp q hq => h.done_le_entries hp hq, hcount, fun p hp c r hwait => ?_⟩
  have hr := h.waiting p hp c r hwait
  -- the slot is the one its sender writes
  have hsender : ((p + b.size - 2 ^ r) % b.size + 2 ^ r) % b.size = p := by
    rw [Nat.mod_add_mod]
    have hsum : p + b.size - 2 ^ r + 2 ^ r = p + b.size := by omega
    rw [hsum, Nat.add_mod_right, Nat.mod_eq_of_lt hp]
  have hlt : (p + b.size - 2 ^ r) % b.size < b.size := Nat.mod_lt _ (by omega)
  have htarget := hb.target_eq _ hlt r hr
  rw [hsender] at htarget
  rw [← htarget, h.flag _ hlt r hr]
  -- a sender two ahead has completed the barrier after this one
  have hentered := h.done_le_entries hlt hp
  have hc := hcount p hp c (by rw [hwait]; rfl)
  have hsent : (s.participants ((p + b.size - 2 ^ r) % b.size)).sent r ≤
      (s.participants ((p + b.size - 2 ^ r) % b.size)).done + 1 := by
    apply sent_le_entries.trans
    unfold Participant.entries
    split <;> omega
  omega

end Consequences

/-! ## The invariant is kept -/

section Preservation

variable {b} {s s' : State α} {p : ℕ} {l : Participant}

/-- No two signals go to one flag. -/
theorem Lawful.target_inj (hb : b.Lawful) {q r k : ℕ} (hp : p < b.size) (hq : q < b.size)
    (hr : 2 ^ r < b.size) (hk : 2 ^ k < b.size) (h : b.target p r = b.target q k) :
    p = q ∧ r = k := by
  rw [hb.target_eq p hp r hr, hb.target_eq q hq k hk] at h
  rcases hb.source_inj _ (Nat.mod_lt _ hb.pos) _ (Nat.mod_lt _ hb.pos) r k hr hk h with ⟨hmod, hrk⟩
  rw [← hrk] at hmod
  have hcancel : p ≡ q [MOD b.size] := Nat.ModEq.add_right_cancel' (2 ^ r) hmod
  exact ⟨Nat.ModEq.eq_of_lt_of_lt hcancel hp hq, hrk⟩

/-- What is left to show when participant `p` alone moves. -/
theorem Inv.of_update (h : b.Inv s) (hp : p < b.size)
    (hmove : s'.participants = Function.update s.participants p l)
    (hcount : ∀ c, l.phase.count = some c → c = l.done + 1)
    (hwaiting : ∀ c r, l.phase = .waiting c r → 2 ^ r < b.size)
    (hflag : ∀ r, 2 ^ r < b.size → s'.flag (b.target p r) = l.sent r)
    (hothers : ∀ q < b.size, q ≠ p → ∀ r, 2 ^ r < b.size →
      s'.flag (b.target q r) = s.flag (b.target q r))
    (hsent : ∀ r, 2 ^ r < b.size → (s.participants p).sent r ≤ l.sent r)
    (hgot : ∀ q < b.size, ∀ r, 2 ^ r < b.size → (q + 2 ^ r) % b.size = p →
      l.got r ≤ (s.participants q).sent r)
    (hstores : (s'.counter = s.counter ∧
        l.stores b.storeFirst = (s.participants p).stores b.storeFirst) ∨
      (s'.counter = Function.update s.counter (b.cell p) (l.stores b.storeFirst) ∧
        ∀ q < b.size, b.cell q = b.cell p →
          (s.participants q).stores b.storeFirst ≤ l.stores b.storeFirst)) : b.Inv s' := by
  -- every field splits into the participant that moves and the others
  have hself : s'.participants p = l := by rw [hmove, Function.update_self]
  have hrest : ∀ {q : ℕ}, q ≠ p → s'.participants q = s.participants q := by
    intro q hne
    rw [hmove, Function.update_of_ne hne]
  constructor
  · intro q hq c hc
    by_cases heq : q = p
    · rw [heq, hself] at hc ⊢
      exact hcount c hc
    · rw [hrest heq] at hc ⊢
      exact h.count q hq c hc
  · intro q hq c r hwait
    by_cases heq : q = p
    · rw [heq, hself] at hwait
      exact hwaiting c r hwait
    · rw [hrest heq] at hwait
      exact h.waiting q hq c r hwait
  · intro q hq r hr
    by_cases heq : q = p
    · rw [heq, hself]
      exact hflag r hr
    · rw [hrest heq, hothers q hq heq r hr]
      exact h.flag q hq r hr
  · intro q hq r hr
    have hsent' : (s.participants q).sent r ≤ (s'.participants q).sent r := by
      by_cases heq : q = p
      · rw [heq, hself]
        exact hsent r hr
      · rw [hrest heq]
    apply le_trans _ hsent'
    by_cases heq : (q + 2 ^ r) % b.size = p
    · rw [heq, hself]
      exact hgot q hq r hr heq
    · rw [hrest heq]
      exact h.got_le q hq r hr
  · intro q hq
    -- a store to a cell that another participant shares does not lower it
    rcases hstores with ⟨hcounter, hsame⟩ | ⟨hcounter, hle⟩
    · rw [hcounter]
      by_cases heq : q = p
      · rw [heq, hself, hsame]
        exact h.stores_le p hp
      · rw [hrest heq]
        exact h.stores_le q hq
    · rw [hcounter]
      by_cases heq : q = p
      · rw [heq, hself, Function.update_self]
      · rw [hrest heq]
        by_cases hcell : b.cell q = b.cell p
        · rw [hcell, Function.update_self]
          exact hle q hq hcell
        · rw [Function.update_of_ne hcell]
          exact h.stores_le q hq
  · intro q hq
    rcases hstores with ⟨hcounter, hsame⟩ | ⟨hcounter, -⟩
    · rcases h.stores_eq q hq with ⟨x, hx, hcell, hstores⟩
      refine ⟨x, hx, hcell, ?_⟩
      rw [hcounter, ← hstores]
      by_cases heq : x = p
      · rw [heq, hself, hsame]
      · rw [hrest heq]
    · rw [hcounter]
      by_cases hcell : b.cell q = b.cell p
      · refine ⟨p, hp, hcell.symm, ?_⟩
        rw [hcell, Function.update_self, hself]
      · rcases h.stores_eq q hq with ⟨x, hx, hcell', hstores⟩
        refine ⟨x, hx, hcell', ?_⟩
        rw [Function.update_of_ne hcell, ← hstores, hrest]
        intro heq
        rw [heq] at hcell'
        exact hcell hcell'.symm

theorem round_lt {r k : ℕ} (hr : 2 ^ r < b.size) (hk : ¬ 2 ^ k < b.size) : r < k := by
  by_contra hle
  have hpow : 2 ^ k ≤ 2 ^ r := Nat.pow_le_pow_right (by norm_num) (by omega)
  omega

section Steps

variable (hb : b.Lawful) (h : b.Inv s) (hp : p < b.size)
include hb h hp

/-- A participant enters. -/
theorem Inv.enter (hphase : (s.participants p).phase = .outside) :
    b.Inv { s with
      participants := Function.update s.participants p
        { s.participants p with phase := .entered (s.counter (b.cell p) + 1) } } := by
  have hcounter := h.counter_of_outside hb hp hphase
  apply h.of_update hp rfl
  · intro c hc
    rw [← Option.some.inj hc, hcounter]
  · exact nofun
  · intro r hr
    rw [h.flag p hp r hr]
    unfold Participant.sent
    rw [hphase]
  · exact fun q hq hne r hr => rfl
  · intro r _
    unfold Participant.sent
    rw [hphase]
  · intro q hq r hr heq
    have hle := h.got_le q hq r hr
    rw [heq] at hle
    unfold Participant.got at hle ⊢
    rwa [hphase] at hle
  · apply Or.inl
    apply And.intro rfl
    unfold Participant.stores
    rw [hphase]
    cases b.storeFirst <;> rfl

theorem Inv.begin {c : ℕ} (hphase : (s.participants p).phase = .entered c) :
    b.Inv { s with
      participants := Function.update s.participants p
        { s.participants p with phase := .round c 0 }
      counter := if b.storeFirst then Function.update s.counter (b.cell p) c else s.counter } := by
  have hc := h.count p hp c (by rw [hphase]; rfl)
  apply h.of_update hp rfl
  · intro c' hc'
    rw [← Option.some.inj hc', hc]
  · exact nofun
  · intro r hr
    rw [h.flag p hp r hr]
    unfold Participant.sent
    rw [hphase]
    rfl
  · exact fun q hq hne r hr => rfl
  · intro r _
    unfold Participant.sent
    rw [hphase]
    exact Nat.le_add_right _ _
  · intro q hq r hr heq
    have hle := h.got_le q hq r hr
    rw [heq] at hle
    unfold Participant.got at hle ⊢
    rw [hphase] at hle
    exact hle
  · cases hfirst : b.storeFirst with
    | true =>
      apply Or.inr
      constructor
      · show Function.update s.counter (b.cell p) c = _
        rw [hc]
        rfl
      · intro q hq hcell
        have heq := hb.cell_inj hfirst q hq p hp hcell
        rw [heq]
        unfold Participant.stores
        rw [hphase]
        exact Nat.le_add_right _ _
    | false => exact Or.inl ⟨rfl, rfl⟩

theorem Inv.signal [DecidableEq α] {c r : ℕ} (hphase : (s.participants p).phase = .round c r)
    (hr : 2 ^ r < b.size) :
    b.Inv { s with
      participants := Function.update s.participants p
        { s.participants p with phase := .waiting c r }
      flag := Function.update s.flag (b.target p r)
        (if b.storeFirst then s.counter (b.cell p) else c) } := by
  have hc := h.count p hp c (by rw [hphase]; rfl)
  -- the counter is the count while the rounds go on
  have hvalue : (if b.storeFirst then s.counter (b.cell p) else c) = c := by
    cases hfirst : b.storeFirst with
    | true =>
      rcases h.stores_eq p hp with ⟨q, hq, hcell, hstores⟩
      rw [hb.cell_inj hfirst q hq p hp hcell, hfirst] at hstores
      unfold Participant.stores at hstores
      rw [hphase] at hstores
      rw [if_pos rfl, ← hstores, hc]
    | false => rfl
  rw [hvalue]
  apply h.of_update hp rfl
  · intro c' hc'
    rw [← Option.some.inj hc', hc]
  · intro c' k hwait
    cases hwait
    exact hr
  · intro k hk
    show Function.update s.flag (b.target p r) c (b.target p k) = _
    by_cases heq : k = r
    · rw [heq, Function.update_self, hc]
      simp [Participant.sent]
    · rw [Function.update_of_ne fun ht => heq (hb.target_inj hp hp hk hr ht).2, h.flag p hp k hk]
      unfold Participant.sent
      rw [hphase]
      dsimp only
      split <;> split <;> omega
  · intro q hq hne k hk
    exact Function.update_of_ne (fun ht => hne (hb.target_inj hq hp hk hr ht).1) _ _
  · intro k _
    unfold Participant.sent
    rw [hphase]
    dsimp only
    split <;> split <;> omega
  · intro q hq k hk heq
    have hle := h.got_le q hq k hk
    rw [heq] at hle
    unfold Participant.got at hle ⊢
    rw [hphase] at hle
    exact hle
  · apply Or.inl
    apply And.intro rfl
    unfold Participant.stores
    rw [hphase]
    cases b.storeFirst <;> rfl

theorem Inv.pass {c r : ℕ} (hphase : (s.participants p).phase = .waiting c r)
    (hflag : s.flag (b.source p r) = c ∨ s.flag (b.source p r) = c + 1) :
    b.Inv { s with
      participants := Function.update s.participants p
        { s.participants p with phase := .round c (r + 1) } } := by
  have hc := h.count p hp c (by rw [hphase]; rfl)
  apply h.of_update hp rfl
  · intro c' hc'
    rw [← Option.some.inj hc', hc]
  · exact nofun
  · intro k hk
    rw [h.flag p hp k hk]
    unfold Participant.sent
    rw [hphase]
    dsimp only
    split <;> split <;> omega
  · exact fun q hq hne k hk => rfl
  · intro k _
    unfold Participant.sent
    rw [hphase]
    dsimp only
    split <;> split <;> omega
  · intro q hq k hk heq
    have hle := h.got_le q hq k hk
    by_cases hkr : k = r
    · -- the flag that let `p` through is what `q` sent
      have htarget := hb.target_eq q hq k hk
      rw [heq] at htarget
      have hsent := h.flag q hq k hk
      rw [htarget, hkr] at hsent
      rw [hkr, ← hsent]
      have hgot : Participant.got ⟨(s.participants p).done, .round c (r + 1)⟩ r = c := by
        unfold Participant.got
        dsimp only
        rw [if_pos (Nat.lt_succ_self r), hc]
      show Participant.got ⟨(s.participants p).done, .round c (r + 1)⟩ r ≤ _
      omega
    · rw [heq] at hle
      unfold Participant.got at hle ⊢
      rw [hphase] at hle
      dsimp only at hle ⊢
      split at hle <;> split <;> omega
  · apply Or.inl
    apply And.intro rfl
    unfold Participant.stores
    rw [hphase]
    cases b.storeFirst <;> rfl

omit hb in
theorem Inv.leave {c r : ℕ} (hphase : (s.participants p).phase = .round c r)
    (hr : ¬ 2 ^ r < b.size) :
    b.Inv { s with
      participants := Function.update s.participants p ⟨(s.participants p).done + 1, .outside⟩
      counter := if b.storeFirst then s.counter
        else Function.update s.counter (b.cell p) c } := by
  have hc := h.count p hp c (by rw [hphase]; rfl)
  -- every round is behind, so leaving changes no flag
  have hsent : ∀ k, 2 ^ k < b.size →
      (s.participants p).sent k = Participant.sent ⟨(s.participants p).done + 1, .outside⟩ k := by
    intro k hk
    have hlt := round_lt hk hr
    unfold Participant.sent
    rw [hphase]
    simp [hlt]
  apply h.of_update hp rfl
  · exact nofun
  · exact nofun
  · intro k hk
    rw [← hsent k hk]
    exact h.flag p hp k hk
  · exact fun q hq hne k hk => rfl
  · exact fun k hk => (hsent k hk).le
  · intro q hq k hk heq
    have hle := h.got_le q hq k hk
    have hlt := round_lt hk hr
    rw [heq] at hle
    unfold Participant.got at hle ⊢
    rw [hphase] at hle
    simpa [hlt] using hle
  · cases hfirst : b.storeFirst with
    | true =>
      apply Or.inl
      apply And.intro rfl
      unfold Participant.stores
      rw [hphase]
      rfl
    | false =>
      apply Or.inr
      constructor
      · show Function.update s.counter (b.cell p) c = _
        rw [hc]
        rfl
      · intro q hq _
        -- whoever has left this barrier did so after all had entered it
        have hentered := h.done_le_entries hq hp
        have hentries : (s.participants p).entries = (s.participants p).done + 1 := by
          unfold Participant.entries
          rw [hphase]
        show (s.participants q).done ≤ (s.participants p).done + 1
        omega

end Steps

/-- One step of one participant. -/
theorem Inv.step [DecidableEq α] (hb : b.Lawful) (h : b.Inv s) (hstep : b.step s p = some s') :
    b.Inv s' := by
  unfold Dissemination.step at hstep
  by_cases hp : p < b.size
  · rw [if_pos hp] at hstep
    dsimp only at hstep
    cases hphase : (s.participants p).phase with
    | outside =>
      rw [hphase] at hstep
      rw [← Option.some.inj hstep]
      exact h.enter hb hp hphase
    | entered c =>
      rw [hphase] at hstep
      rw [← Option.some.inj hstep]
      exact h.begin hb hp hphase
    | round c r =>
      rw [hphase] at hstep
      dsimp only at hstep
      by_cases hmore : b.more r = true
      · have hr := (hb.more_iff r).mp hmore
        rw [if_pos hmore, if_pos (hb.acts r hr)] at hstep
        rw [← Option.some.inj hstep]
        exact h.signal hb hp hphase hr
      · rw [if_neg hmore] at hstep
        rw [← Option.some.inj hstep]
        exact h.leave hp hphase fun hr => hmore ((hb.more_iff r).mpr hr)
    | waiting c r =>
      rw [hphase] at hstep
      dsimp only at hstep
      split at hstep
      · rename_i hflag
        rw [← Option.some.inj hstep]
        exact h.pass hb hp hphase hflag
      · cases hstep
  · rw [if_neg hp] at hstep
    cases hstep

theorem Inv.init : b.Inv (State.init α) := by
  constructor
  · exact fun p _ c hc => by cases hc
  · exact fun p _ c r hwait => by cases hwait
  · exact fun p _ r _ => rfl
  · exact fun p _ r _ => le_rfl
  · intro p _
    cases b.storeFirst <;> exact le_rfl
  · intro p hp
    refine ⟨p, hp, rfl, ?_⟩
    cases b.storeFirst <;> rfl

/-- Every schedule keeps a lawful barrier safe. -/
theorem Lawful.safe_of_run [DecidableEq α] (hb : b.Lawful) {schedule : List ℕ}
    (hrun : b.run (State.init α) schedule = some s) : b.Safe s := by
  suffices hinv : ∀ (schedule : List ℕ) (s₀ s : State α), b.Inv s₀ → b.run s₀ schedule = some s →
      b.Inv s from (hinv schedule _ s Inv.init hrun).safe hb
  intro schedule
  induction schedule with
  | nil =>
    intro s₀ s h₀ hrun
    rwa [← Option.some.inj hrun]
  | cons p schedule ih =>
    intro s₀ s h₀ hrun
    rw [Dissemination.run, List.foldlM_cons, Option.bind_eq_bind, Option.bind_eq_some_iff] at hrun
    rcases hrun with ⟨s₁, hstep, hrest⟩
    exact ih s₁ s (h₀.step hb hstep) hrest

end Preservation

/-! ## The slots in use -/

/-- The slot that the next step of `p` writes or reads. -/
def touches (s : State α) (p : ℕ) : Option α :=
  match (s.participants p).phase with
  | .round _ r => if b.more r && b.acts r then some (b.target p r) else none
  | .waiting _ r => some (b.source p r)
  | _ => none

/-- Some participant comes to a step that writes or reads the slot. -/
def Touched [DecidableEq α] (slot : α) : Prop :=
  ∃ schedule s p, b.run (.init α) schedule = some s ∧ p < b.size ∧ b.touches s p = some slot

section Slots

variable {b} {s s' : State α} {p : ℕ}

/-- A wait belongs to a round the barrier makes. -/
def Underway (b : Dissemination α) (s : State α) : Prop :=
  ∀ p c r, (s.participants p).phase = .waiting c r → b.more r = true ∧ b.acts r = true

/-- A participant that waits does so in a round that there is. -/
theorem Underway.update (h : b.Underway s) {l : Participant}
    (hmove : s'.participants = Function.update s.participants p l)
    (hl : ∀ c r, l.phase = .waiting c r → b.more r = true ∧ b.acts r = true) :
    b.Underway s' := by
  intro q c r hwait
  rw [hmove] at hwait
  by_cases hq : q = p
  · rw [hq, Function.update_self] at hwait
    exact hl c r hwait
  · rw [Function.update_of_ne hq] at hwait
    exact h q c r hwait

variable [DecidableEq α]

/-- A step keeps this. -/
theorem Underway.step (h : b.Underway s) (hstep : b.step s p = some s') : b.Underway s' := by
  unfold Dissemination.step at hstep
  by_cases hp : p < b.size
  · rw [if_pos hp] at hstep
    dsimp only at hstep
    cases hphase : (s.participants p).phase with
    | outside =>
      rw [hphase] at hstep
      rw [← Option.some.inj hstep]
      exact h.update rfl (by intro c r hwait; cases hwait)
    | entered c =>
      rw [hphase] at hstep
      rw [← Option.some.inj hstep]
      exact h.update rfl (by intro c r hwait; cases hwait)
    | round c r =>
      rw [hphase] at hstep
      dsimp only at hstep
      by_cases hmore : b.more r = true
      · rw [if_pos hmore] at hstep
        by_cases hacts : b.acts r = true
        · -- the one step that begins to wait
          rw [if_pos hacts] at hstep
          rw [← Option.some.inj hstep]
          apply h.update rfl
          intro c' r' hwait
          have hround : r = r' := (Phase.waiting.inj hwait).2
          rw [← hround]
          exact ⟨hmore, hacts⟩
        · rw [if_neg hacts] at hstep
          rw [← Option.some.inj hstep]
          exact h.update rfl (by intro c r hwait; cases hwait)
      · rw [if_neg hmore] at hstep
        rw [← Option.some.inj hstep]
        exact h.update rfl (by intro c r hwait; cases hwait)
    | waiting c r =>
      rw [hphase] at hstep
      dsimp only at hstep
      split at hstep
      · rw [← Option.some.inj hstep]
        exact h.update rfl (by intro c r hwait; cases hwait)
      · cases hstep
  · rw [if_neg hp] at hstep
    cases hstep

theorem underway_of_run {schedule : List ℕ} (hrun : b.run (.init α) schedule = some s) :
    b.Underway s := by
  suffices hkeep : ∀ (schedule : List ℕ) (s₀ s : State α), b.Underway s₀ →
      b.run s₀ schedule = some s → b.Underway s from
    hkeep schedule _ s (fun q c r hwait => by cases hwait) hrun
  intro schedule
  induction schedule with
  | nil =>
    intro s₀ s h₀ hrun
    rwa [← Option.some.inj hrun]
  | cons p schedule ih =>
    intro s₀ s h₀ hrun
    rw [Dissemination.run, List.foldlM_cons, Option.bind_eq_bind, Option.bind_eq_some_iff] at hrun
    obtain ⟨s₁, hstep, hrest⟩ := hrun
    exact ih s₁ s (h₀.step hstep) hrest

/-- A slot in use is the one written or the one read in some round. -/
theorem Touched.eq_target_or_source {slot : α} (h : b.Touched slot) :
    ∃ p < b.size, ∃ r, b.more r = true ∧ b.acts r = true ∧
      (slot = b.target p r ∨ slot = b.source p r) := by
  obtain ⟨schedule, s, p, hrun, hp, htouch⟩ := h
  have hunder := underway_of_run hrun
  unfold touches at htouch
  cases hphase : (s.participants p).phase with
  | round c r =>
    rw [hphase] at htouch
    dsimp only at htouch
    split at htouch
    · rename_i hround
      rw [Bool.and_eq_true] at hround
      exact ⟨p, hp, r, hround.1, hround.2, .inl (Option.some.inj htouch).symm⟩
    · cases htouch
  | waiting c r =>
    rw [hphase] at htouch
    have hround := hunder p c r hphase
    exact ⟨p, hp, r, hround.1, hround.2, .inr (Option.some.inj htouch).symm⟩
  | _ =>
    rw [hphase] at htouch
    cases htouch

/-- Everybody writes the slot of round 0, if there is one. -/
theorem touched_target_zero (hp : p < b.size) (hmore : b.more 0 = true) (hacts : b.acts 0 = true) :
    b.Touched (b.target p 0) := by
  have hrun : ∃ s, b.run (.init α) [p, p] = some s ∧
      (s.participants p).phase = .round 1 0 := by
    simp [Dissemination.run, Dissemination.step, hp, State.init]
  obtain ⟨s, hrun, hphase⟩ := hrun
  refine ⟨[p, p], s, p, hrun, hp, ?_⟩
  unfold touches
  simp only [hphase, hmore, hacts]
  rfl

end Slots

end Dissemination

end Lib
