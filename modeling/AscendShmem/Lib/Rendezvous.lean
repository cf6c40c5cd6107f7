import Mathlib
import AscendShmem.Lib.Flags

/-!
# Rounds through a shared map

Participants meet in rounds through a map that forgets. In every round each of them adds itself
to the round's slot; the last one opens the round's gate, and everybody waits for the gate and
may then read the slot. The first one of a round removes the slot and the gate of the round
`interval` rounds earlier, while others may still be in the round before its own.

`Inv` holds in every reachable state when the interval is at least two: nobody passes a gate
before all have contributed, a gate is opened once, and what is removed is of a round that
everybody has left.
-/

namespace Lib.Rendezvous

/-- Where a participant is in its round. -/
inductive Phase where
  | outside
  | contribute
  | removeSlot
  | removeGate
  | openGate
  | wait
  | collect
deriving DecidableEq, Repr

/-- The rounds a participant has entered, the first being round 1. -/
structure Participant where
  round : ℕ := 0
  phase : Phase := .outside
deriving DecidableEq, Repr

namespace Participant

variable (p : Participant) (m : ℕ)

/-- The contribution to round `m` was made. -/
def Contributed : Prop := 1 ≤ m ∧ (m < p.round ∨ m = p.round ∧ p.phase ≠ .contribute)

/-- The gate of round `m` was passed. -/
def Passed : Prop :=
  1 ≤ m ∧ (m < p.round ∨ m = p.round ∧ (p.phase = .outside ∨ p.phase = .collect))

/-- Round `m` is over for the participant. -/
def Finished : Prop := 1 ≤ m ∧ (m < p.round ∨ m = p.round ∧ p.phase = .outside)

variable {p m}

theorem Finished.passed (h : p.Finished m) : p.Passed m :=
  ⟨h.1, h.2.imp id fun hm => ⟨hm.1, Or.inl hm.2⟩⟩

theorem Passed.contributed (h : p.Passed m) : p.Contributed m := by
  refine ⟨h.1, h.2.imp id fun hm => ⟨hm.1, ?_⟩⟩
  rcases hm.2 with hphase | hphase <;> rw [hphase] <;> simp

theorem finished_of_lt (hm : 1 ≤ m) (h : m < p.round) : p.Finished m := ⟨hm, Or.inl h⟩

theorem Contributed.le_round (h : p.Contributed m) : m ≤ p.round :=
  h.2.elim le_of_lt fun hm => le_of_eq hm.1

end Participant

/-- The number of participants, the distance of the clean-up, and whether slots are read. -/
structure Config where
  n : ℕ
  interval : ℕ
  collects : Bool

/-- The map, the participants, and the history of what was added, opened and removed. -/
structure State where
  participants : ℕ → Participant
  slots : ℕ → Option (List ℕ)
  gates : ℕ → Bool
  order : ℕ → List ℕ
  opened : ℕ → ℕ
  slotRemoved : ℕ → Bool
  gateRemoved : ℕ → Bool

/-- Nobody has come, and no slot or gate was made. -/
def State.init : State :=
  ⟨fun _ => {}, fun _ => none, fun _ => false, fun _ => [], fun _ => 0, fun _ => false,
    fun _ => false⟩

namespace State

variable (s : State) (p : ℕ)

/-- The participant goes on to another phase of its round. -/
def goto (phase : Phase) : State :=
  { s with participants := Function.update s.participants p { s.participants p with phase } }

/-- The participant enters the next round. -/
def enter : State :=
  { s with
    participants := Function.update s.participants p ⟨(s.participants p).round + 1, .contribute⟩ }

/-- The slot of a round with the participant added to what is there. -/
def contribution (m : ℕ) : List ℕ := (s.slots m).getD [] ++ [p]

/-- A contribution joins those of its round. -/
def contribute (m : ℕ) : State :=
  { s with
    slots := Function.update s.slots m (some (s.contribution p m))
    order := Function.update s.order m (s.order m ++ [p]) }

/-- The slot of an earlier round is removed. -/
def removeSlot (m : ℕ) : State :=
  { s with
    slots := Function.update s.slots m none
    slotRemoved := Function.update s.slotRemoved m true }

/-- The gate of an earlier round is removed. -/
def removeGate (m : ℕ) : State :=
  { s with
    gates := Function.update s.gates m false
    gateRemoved := Function.update s.gateRemoved m true }

/-- The gate of a round is opened. -/
def openGate (m : ℕ) : State :=
  { s with
    gates := Function.update s.gates m true
    opened := Function.update s.opened m (s.opened m + 1) }

section Participants

variable {s : State} {p q : ℕ} {phase : Phase}

@[simp] theorem goto_self :
    (s.goto p phase).participants p = { s.participants p with phase } := Function.update_self ..

theorem goto_of_ne (h : q ≠ p) : (s.goto p phase).participants q = s.participants q :=
  Function.update_of_ne h ..

@[simp] theorem enter_self :
    (s.enter p).participants p = ⟨(s.participants p).round + 1, .contribute⟩ :=
  Function.update_self ..

theorem enter_of_ne (h : q ≠ p) : (s.enter p).participants q = s.participants q :=
  Function.update_of_ne h ..

end Participants

end State

namespace Config

variable (c : Config)

/-- Where a participant goes whose contribution was number `v`. -/
def afterRemove (v : ℕ) : Phase := if v = c.n then .openGate else .wait

/-- One step of a participant, if it can move. -/
def step (s : State) (p : ℕ) : Option State :=
  if p < c.n then
    let m := (s.participants p).round
    match (s.participants p).phase with
    | .outside => some (s.enter p)
    | .contribute =>
      let v := (s.contribution p m).length
      if v = 1 ∧ c.interval < m then some ((s.contribute p m).goto p .removeSlot)
      else some ((s.contribute p m).goto p (c.afterRemove v))
    | .removeSlot => some ((s.removeSlot (m - c.interval)).goto p .removeGate)
    | .removeGate => some ((s.removeGate (m - c.interval)).goto p (c.afterRemove 1))
    | .openGate => some ((s.openGate m).goto p .wait)
    | .wait =>
      if s.gates m then some (s.goto p (if c.collects then .collect else .outside)) else none
    | .collect => if (s.slots m).isSome then some (s.goto p .outside) else none
  else none

/-- The state after a schedule of steps. -/
def run (s : State) (schedule : List ℕ) : Option State := schedule.foldlM c.step s

/-! ## The invariant -/

/-- The invariant: who has contributed, what the slots hold, and which gates may be open. -/
structure Inv (s : State) : Prop where
  nodup : ∀ m, (s.order m).Nodup
  mem : ∀ m p, p ∈ s.order m ↔ p < c.n ∧ (s.participants p).Contributed m
  slot : ∀ m, s.slots m = if s.slotRemoved m ∨ s.order m = [] then none else some (s.order m)
  gate : ∀ m, s.gates m = true ↔ s.opened m ≠ 0 ∧ s.gateRemoved m = false
  full : ∀ m, s.opened m ≠ 0 → (s.order m).length = c.n
  once : ∀ m, s.opened m ≤ 1
  passed : ∀ p < c.n, ∀ m, (s.participants p).Passed m → s.opened m ≠ 0
  /-- The one about to open the gate is the last one of the round. -/
  opener : ∀ p < c.n, (s.participants p).phase = .openGate →
    s.opened (s.participants p).round = 0 ∧ (s.order (s.participants p).round).length = c.n ∧
    (s.order (s.participants p).round).getLast? = some p
  /-- The one that cleans up is the first one of its round. -/
  remover : ∀ p < c.n,
    (s.participants p).phase = .removeSlot ∨ (s.participants p).phase = .removeGate →
    c.interval < (s.participants p).round ∧ p ∈ s.order (s.participants p).round ∧
    (c.n = 1 → s.opened (s.participants p).round = 0)
  removed : ∀ m, s.slotRemoved m = true ∨ s.gateRemoved m = true →
    1 ≤ m ∧ s.order (m + c.interval) ≠ []
  entered : ∀ p, (s.participants p).phase ≠ .outside → 1 ≤ (s.participants p).round

theorem inv_init : c.Inv State.init where
  nodup := fun _ => List.nodup_nil
  mem := by
    intro m p
    simp only [State.init, List.not_mem_nil, Participant.Contributed, false_iff]
    omega
  slot := by simp [State.init]
  gate := by simp [State.init]
  full := fun _ h => absurd rfl h
  once := fun _ => Nat.zero_le 1
  passed := by
    intro p _ m h
    rcases h with ⟨hm, hlt | ⟨heq, _⟩⟩
    · exact absurd hlt (Nat.not_lt_zero m)
    · exact absurd heq (Nat.ne_of_gt hm)
  opener := by simp [State.init]
  remover := by simp [State.init]
  removed := by simp [State.init]
  entered := by simp [State.init]

namespace Inv

variable {c} {s : State} {p q m : ℕ}

theorem length_le (h : c.Inv s) (m : ℕ) : (s.order m).length ≤ c.n :=
  length_le_of_nodup (fun i hi => ((h.mem m i).mp hi).1) (h.nodup m)

theorem perm_range (h : c.Inv s) (hm : (s.order m).length = c.n) :
    (s.order m).Perm (List.range c.n) :=
  perm_range_of_nodup (fun i hi => ((h.mem m i).mp hi).1) (h.nodup m) hm

/-- Behind an open gate all have contributed. -/
theorem all_contributed (h : c.Inv s) (hp : p < c.n) (hm : (s.participants p).Passed m)
    (hq : q < c.n) : (s.participants q).Contributed m := by
  have hperm := h.perm_range (h.full m (h.passed p hp m hm))
  have hmem : q ∈ s.order m := hperm.mem_iff.mpr (List.mem_range.mpr hq)
  exact ((h.mem m q).mp hmem).2

/-- Once a round has a contribution, the rounds two and more before it are over. -/
theorem finished_of_later (h : c.Inv s) (hi : 2 ≤ c.interval) (hm : 1 ≤ m)
    (hne : s.order (m + c.interval) ≠ []) (hq : q < c.n) : (s.participants q).Finished m := by
  rcases List.exists_mem_of_ne_nil _ hne with ⟨p, hp⟩
  rcases (h.mem _ p).mp hp with ⟨hpn, hcontributed⟩
  -- the one that contributed has passed the gate before, so all have contributed there
  have hround := hcontributed.le_round
  have hpassed : (s.participants p).Passed (m + c.interval - 1) :=
    ⟨by omega, Or.inl (by omega)⟩
  have hall := (h.all_contributed hpn hpassed hq).le_round
  exact Participant.finished_of_lt hm (by omega)

/-- What is removed belongs to a round that all have left. -/
theorem finished_of_removed (h : c.Inv s) (hi : 2 ≤ c.interval)
    (hm : s.slotRemoved m = true ∨ s.gateRemoved m = true) (hq : q < c.n) :
    (s.participants q).Finished m := by
  rcases h.removed m hm with ⟨hpos, hne⟩
  exact h.finished_of_later hi hpos hne hq

/-- In a round that a participant is in, nothing is removed. -/
theorem not_removed (h : c.Inv s) (hi : 2 ≤ c.interval) (hp : p < c.n)
    (hphase : (s.participants p).phase ≠ .outside) :
    s.slotRemoved (s.participants p).round = false ∧
      s.gateRemoved (s.participants p).round = false := by
  have hnot : ¬ (s.participants p).Finished (s.participants p).round := by
    intro hf
    rcases hf.2 with hlt | ⟨_, hout⟩
    · exact lt_irrefl _ hlt
    · exact hphase hout
  constructor
  · by_contra hr
    exact hnot (h.finished_of_removed hi (Or.inl (by simpa using hr)) hp)
  · by_contra hr
    exact hnot (h.finished_of_removed hi (Or.inr (by simpa using hr)) hp)

/-- A contribution goes behind the earlier ones. -/
theorem contribution_eq (h : c.Inv s) (hi : 2 ≤ c.interval) (hp : p < c.n)
    (hphase : (s.participants p).phase ≠ .outside) :
    s.contribution p (s.participants p).round = s.order (s.participants p).round ++ [p] := by
  rw [State.contribution, h.slot, (h.not_removed hi hp hphase).1]
  by_cases hnil : s.order (s.participants p).round = [] <;> simp [hnil]

/-! ## The moves -/

/-- The next round begins for a participant. -/
theorem enter (h : c.Inv s) (hphase : (s.participants p).phase = .outside) :
    c.Inv (s.enter p) := by
  have hcontributed : ∀ q m, ((s.enter p).participants q).Contributed m
      ↔ (s.participants q).Contributed m := by
    intro q m
    by_cases hq : q = p
    · subst hq
      simp only [State.enter_self, Participant.Contributed, hphase]
      grind
    · rw [State.enter_of_ne hq]
  have hpassed : ∀ q m, ((s.enter p).participants q).Passed m → (s.participants q).Passed m := by
    intro q m
    by_cases hq : q = p
    · subst hq
      simp only [State.enter_self, Participant.Passed, hphase]
      grind
    · rw [State.enter_of_ne hq]
      exact id
  refine ⟨h.nodup, ?_, h.slot, h.gate, h.full, h.once, ?_, ?_, ?_, h.removed, ?_⟩
  · intro m q
    rw [hcontributed]
    exact h.mem m q
  · intro q hq m hm
    exact h.passed q hq m (hpassed q m hm)
  · intro q hq hopen
    by_cases hqp : q = p
    · subst hqp
      simp at hopen
    · rw [State.enter_of_ne hqp] at hopen ⊢
      exact h.opener q hq hopen
  · intro q hq hremove
    by_cases hqp : q = p
    · subst hqp
      simp at hremove
    · rw [State.enter_of_ne hqp] at hremove ⊢
      exact h.remover q hq hremove
  · intro q hq
    by_cases hqp : q = p
    · subst hqp
      rw [State.enter_self]
      exact Nat.le_add_left 1 _
    · rw [State.enter_of_ne hqp] at hq ⊢
      exact h.entered q hq

/-- A participant that has contributed goes on within its round. -/
theorem goto (h : c.Inv s) {phase : Phase} (hin : (s.participants p).phase ≠ .outside)
    (hfrom : (s.participants p).phase ≠ .contribute) (hto : phase ≠ .contribute)
    (hpassed : phase = .outside ∨ phase = .collect → s.opened (s.participants p).round ≠ 0)
    (hopener : phase = .openGate →
      s.opened (s.participants p).round = 0 ∧ (s.order (s.participants p).round).length = c.n ∧
      (s.order (s.participants p).round).getLast? = some p)
    (hremover : phase = .removeSlot ∨ phase = .removeGate →
      c.interval < (s.participants p).round ∧ p ∈ s.order (s.participants p).round ∧
      (c.n = 1 → s.opened (s.participants p).round = 0)) : c.Inv (s.goto p phase) := by
  refine ⟨h.nodup, ?_, h.slot, h.gate, h.full, h.once, ?_, ?_, ?_, h.removed, ?_⟩
  · intro m q
    -- the phase changes behind the contribution, so the same rounds have it
    have hcontributed : ((s.goto p phase).participants q).Contributed m
        ↔ (s.participants q).Contributed m := by
      by_cases hq : q = p
      · subst hq
        simp [Participant.Contributed, hfrom, hto]
      · rw [State.goto_of_ne hq]
    rw [hcontributed]
    exact h.mem m q
  · intro q hq m hm
    by_cases hqp : q = p
    · subst hqp
      rw [State.goto_self] at hm
      rcases hm.2 with hlt | ⟨heq, hphase⟩
      · exact h.passed q hq m ⟨hm.1, Or.inl hlt⟩
      · have hround : m = (s.participants q).round := heq
        rw [hround]
        exact hpassed hphase
    · rw [State.goto_of_ne hqp] at hm
      exact h.passed q hq m hm
  · intro q hq hopen
    by_cases hqp : q = p
    · subst hqp
      rw [State.goto_self] at hopen ⊢
      exact hopener hopen
    · rw [State.goto_of_ne hqp] at hopen ⊢
      exact h.opener q hq hopen
  · intro q hq hremove
    by_cases hqp : q = p
    · subst hqp
      rw [State.goto_self] at hremove ⊢
      exact hremover hremove
    · rw [State.goto_of_ne hqp] at hremove ⊢
      exact h.remover q hq hremove
  · intro q hq
    by_cases hqp : q = p
    · subst hqp
      rw [State.goto_self]
      exact h.entered q hin
    · rw [State.goto_of_ne hqp] at hq ⊢
      exact h.entered q hq

/-- A participant contributes and goes on within its round. -/
theorem contribute (h : c.Inv s) (hi : 2 ≤ c.interval) (hp : p < c.n)
    (hphase : (s.participants p).phase = .contribute) {phase : Phase}
    (hto : phase = .removeSlot ∧ c.interval < (s.participants p).round ∨ phase = .wait ∨
      phase = .openGate ∧ (s.order (s.participants p).round).length + 1 = c.n) :
    c.Inv ((s.contribute p (s.participants p).round).goto p phase) := by
  have hround : 1 ≤ (s.participants p).round := h.entered p (by rw [hphase]; simp)
  have hcontribution := h.contribution_eq hi hp (by rw [hphase]; simp)
  have hnew : p ∉ s.order (s.participants p).round := by
    rw [h.mem]
    rintro ⟨_, _, hlt | ⟨_, hne⟩⟩
    · exact lt_irrefl _ hlt
    · exact hne hphase
  have hne : phase ≠ .contribute := by
    rcases hto with ⟨h1, _⟩ | h1 | ⟨h1, _⟩ <;> rw [h1] <;> simp
  have hstay : phase ≠ .outside ∧ phase ≠ .collect ∧ phase ≠ .removeGate := by
    rcases hto with ⟨h1, _⟩ | h1 | ⟨h1, _⟩ <;> rw [h1] <;> simp
  -- the round is not complete before this contribution
  have hnodup : (s.order (s.participants p).round ++ [p]).Nodup := by
    rw [List.nodup_append]
    refine ⟨h.nodup _, List.nodup_singleton p, ?_⟩
    intro a ha b hb hab
    rw [List.mem_singleton] at hb
    have hap : a = p := hab.trans hb
    rw [hap] at ha
    exact hnew ha
  have hlength : (s.order (s.participants p).round).length + 1 ≤ c.n := by
    have hle := length_le_of_nodup (n := c.n) (l := s.order (s.participants p).round ++ [p])
      (by
        intro i hi
        rw [List.mem_append, List.mem_singleton] at hi
        rcases hi with hi | hi
        · exact ((h.mem _ i).mp hi).1
        · rw [hi]
          exact hp) hnodup
    simpa using hle
  have hclosed : s.opened (s.participants p).round = 0 := by
    by_contra hopen
    have hfull := h.full _ hopen
    omega
  generalize hr : (s.participants p).round = r at *
  have horder : ∀ m, (((s.contribute p r).goto p phase).order m)
      = if m = r then s.order r ++ [p] else s.order m := by
    intro m
    show Function.update s.order r _ m = _
    rw [Function.update_apply]
  have hothers : ∀ q, q ≠ p → ((s.contribute p r).goto p phase).participants q
      = s.participants q := fun q hq => State.goto_of_ne hq
  have hself : ((s.contribute p r).goto p phase).participants p = ⟨r, phase⟩ := by
    rw [State.goto_self, ← hr]
    rfl
  refine ⟨?_, ?_, ?_, h.gate, ?_, h.once, ?_, ?_, ?_, ?_, ?_⟩
  · intro m
    rw [horder]
    split
    · exact hnodup
    · exact h.nodup m
  · intro m q
    rw [horder]
    by_cases hq : q = p
    · subst hq
      rw [hself]
      have hbefore := h.mem m q
      simp only [Participant.Contributed, hr, hphase] at hbefore ⊢
      split
      · rename_i hm
        subst hm
        simp [hp, hne, hround]
      · rename_i hm
        rw [hbefore]
        simp [hm]
    · rw [hothers q hq, ← h.mem]
      split
      · rename_i hm
        subst hm
        simp [hq]
      · rfl
  · intro m
    rw [horder]
    show Function.update s.slots r (some (s.contribution p r)) m
      = if s.slotRemoved m = true ∨ _ then _ else _
    rw [Function.update_apply]
    by_cases hm : m = r
    · subst hm
      have hkept := (h.not_removed hi hp (by rw [hphase]; simp)).1
      rw [hr] at hkept
      simp [hkept, hcontribution]
    · simp only [if_neg hm]
      exact h.slot m
  · intro m hopen
    rw [horder]
    split
    · rename_i hm
      subst hm
      exact absurd hclosed hopen
    · exact h.full m hopen
  · intro q hq m hm
    by_cases hqp : q = p
    · subst hqp
      rw [hself] at hm
      rcases hm.2 with hlt | ⟨_, hphase'⟩
      · exact h.passed q hq m ⟨hm.1, Or.inl (by rw [hr]; exact hlt)⟩
      · exact absurd hphase' (by simp [hstay.1, hstay.2.1])
    · rw [hothers q hqp] at hm
      exact h.passed q hq m hm
  · intro q hq hopen
    by_cases hqp : q = p
    · subst hqp
      rw [hself] at hopen ⊢
      rw [horder, if_pos rfl]
      refine ⟨hclosed, ?_, by simp⟩
      rcases hto with ⟨h1, _⟩ | h1 | ⟨_, h1⟩
      · rw [h1] at hopen
        exact absurd hopen (by simp)
      · rw [h1] at hopen
        exact absurd hopen (by simp)
      · simpa using h1
    · rw [hothers q hqp] at hopen ⊢
      have hold := h.opener q hq hopen
      rw [horder]
      split
      · rename_i hm
        rw [hm] at hold
        omega
      · exact hold
  · intro q hq hremove
    by_cases hqp : q = p
    · subst hqp
      rw [hself] at hremove ⊢
      rw [horder, if_pos rfl]
      refine ⟨?_, by simp, fun _ => hclosed⟩
      rcases hto with ⟨_, h1⟩ | h1 | ⟨h1, _⟩
      · exact h1
      · rw [h1] at hremove
        exact absurd hremove (by simp)
      · rw [h1] at hremove
        exact absurd hremove (by simp)
    · rw [hothers q hqp] at hremove ⊢
      have hold := h.remover q hq hremove
      refine ⟨hold.1, ?_, hold.2.2⟩
      rw [horder]
      split
      · rename_i hm
        rw [← hm]
        exact List.mem_append_left [p] hold.2.1
      · exact hold.2.1
  · intro m hm
    have hold := h.removed m hm
    refine ⟨hold.1, ?_⟩
    rw [horder]
    split
    · simp
    · exact hold.2
  · intro q hq
    by_cases hqp : q = p
    · subst hqp
      rw [hself]
      exact hround
    · rw [hothers q hqp] at hq ⊢
      exact h.entered q hq

/-- The slot of a round that all have left goes. -/
theorem removeSlot (h : c.Inv s) (hm : 1 ≤ m) (hne : s.order (m + c.interval) ≠ []) :
    c.Inv (s.removeSlot m) := by
  refine ⟨h.nodup, h.mem, ?_, h.gate, h.full, h.once, h.passed, h.opener, h.remover, ?_,
    h.entered⟩
  · intro k
    show Function.update s.slots m none k
      = if Function.update s.slotRemoved m true k = true ∨ s.order k = [] then _ else _
    rw [Function.update_apply, Function.update_apply]
    split
    · simp
    · exact h.slot k
  · intro k hk
    have hk' : Function.update s.slotRemoved m true k = true ∨ s.gateRemoved k = true := hk
    rw [Function.update_apply] at hk'
    split at hk'
    · rename_i hkm
      subst hkm
      exact ⟨hm, hne⟩
    · exact h.removed k hk'

/-- The gate of a round that all have left goes. -/
theorem removeGate (h : c.Inv s) (hm : 1 ≤ m) (hne : s.order (m + c.interval) ≠ []) :
    c.Inv (s.removeGate m) := by
  refine ⟨h.nodup, h.mem, h.slot, ?_, h.full, h.once, h.passed, h.opener, h.remover, ?_,
    h.entered⟩
  · intro k
    show Function.update s.gates m false k = true
      ↔ s.opened k ≠ 0 ∧ Function.update s.gateRemoved m true k = false
    rw [Function.update_apply, Function.update_apply]
    split
    · simp
    · exact h.gate k
  · intro k hk
    have hk' : s.slotRemoved k = true ∨ Function.update s.gateRemoved m true k = true := hk
    rw [Function.update_apply] at hk'
    split at hk'
    · rename_i hkm
      subst hkm
      exact ⟨hm, hne⟩
    · exact h.removed k hk'

/-- The last one of a round opens the gate. -/
theorem openGate (h : c.Inv s) (hi : 2 ≤ c.interval) (hp : p < c.n)
    (hphase : (s.participants p).phase = .openGate) :
    c.Inv ((s.openGate (s.participants p).round).goto p .wait) := by
  rcases h.opener p hp hphase with ⟨hclosed, hlength, hlast⟩
  have hkept := (h.not_removed hi hp (by rw [hphase]; simp)).2
  have hwait : c.Inv (s.goto p .wait) := h.goto (by rw [hphase]; simp) (by rw [hphase]; simp)
    (by simp) (by simp) (by simp) (by simp)
  generalize hr : (s.participants p).round = r at *
  have hopened : ∀ k, (s.openGate r).opened k = if k = r then 1 else s.opened k := by
    intro k
    show Function.update s.opened r (s.opened r + 1) k = _
    rw [Function.update_apply, hclosed]
  refine ⟨hwait.nodup, hwait.mem, hwait.slot, ?_, ?_, ?_, ?_, ?_, ?_, hwait.removed,
    hwait.entered⟩
  · intro k
    show Function.update s.gates r true k = true ↔ (s.openGate r).opened k ≠ 0 ∧ _
    rw [hopened, Function.update_apply]
    split
    · rename_i hk
      subst hk
      exact ⟨fun _ => ⟨one_ne_zero, hkept⟩, fun _ => rfl⟩
    · exact h.gate k
  · intro k hk
    change (s.openGate r).opened k ≠ 0 at hk
    rw [hopened] at hk
    split at hk
    · rename_i hkr
      rw [hkr]
      exact hlength
    · exact h.full k hk
  · intro k
    show (s.openGate r).opened k ≤ 1
    rw [hopened]
    split
    · exact le_refl 1
    · exact h.once k
  · intro q hq k hk
    show (s.openGate r).opened k ≠ 0
    rw [hopened]
    split
    · exact one_ne_zero
    · exact hwait.passed q hq k hk
  · intro q hq hopen
    rcases hwait.opener q hq hopen with ⟨hnone, hlen, hlast'⟩
    refine ⟨?_, hlen, hlast'⟩
    show (s.openGate r).opened _ = 0
    rw [hopened]
    split
    · -- the last one of the round is the one that opened the gate
      rename_i hround
      have hround' : ((s.goto p .wait).participants q).round = r := hround
      rw [hround'] at hlast'
      have hqp : q = p := Option.some.inj (hlast'.symm.trans hlast)
      subst hqp
      exact absurd hopen (by simp [State.goto])
    · exact hnone
  · intro q hq hremove
    rcases hwait.remover q hq hremove with ⟨hlt, hmem, hone⟩
    refine ⟨hlt, hmem, ?_⟩
    intro hn
    have hqp : q = p := by omega
    subst hqp
    exact absurd hremove (by simp [State.goto])

/-- In a round of one participant, the first one is the last one. -/
theorem last_of_one (h : c.Inv s) (hn : c.n = 1) (hmem : p ∈ s.order m) :
    (s.order m).length = c.n ∧ (s.order m).getLast? = some p := by
  have hle := h.length_le m
  cases hl : s.order m with
  | nil => rw [hl] at hmem; exact absurd hmem List.not_mem_nil
  | cons a l =>
    rw [hl, hn, List.length_cons] at hle
    have hnil : l = [] := List.length_eq_zero_iff.mp (by omega)
    subst hnil
    rw [hl, List.mem_singleton] at hmem
    rw [hmem, hn]
    exact ⟨rfl, rfl⟩

/-- After the clean-up the first one of a round opens the gate when it is alone. -/
theorem goto_afterRemove (h : c.Inv s) (hp : p < c.n)
    (hphase : (s.participants p).phase = .removeGate) : c.Inv (s.goto p (c.afterRemove 1)) := by
  have hne : c.afterRemove 1 ≠ .contribute ∧ c.afterRemove 1 ≠ .outside ∧
      c.afterRemove 1 ≠ .collect ∧ c.afterRemove 1 ≠ .removeSlot ∧
      c.afterRemove 1 ≠ .removeGate := by
    unfold afterRemove
    split <;> simp
  rcases h.remover p hp (Or.inr hphase) with ⟨_, hmem, hone⟩
  apply h.goto (by rw [hphase]; simp) (by rw [hphase]; simp) hne.1
  · intro hout
    exact absurd hout (by simp [hne])
  · intro hopen
    have hn : c.n = 1 := by
      unfold afterRemove at hopen
      split at hopen
      · rename_i heq
        exact heq.symm
      · exact absurd hopen (by simp)
    exact ⟨hone hn, h.last_of_one hn hmem⟩
  · intro hremove
    exact absurd hremove (by simp [hne])

/-- Every step keeps the invariant. -/
theorem step (h : c.Inv s) (hi : 2 ≤ c.interval) {s' : State} (hstep : c.step s p = some s') :
    c.Inv s' := by
  unfold Config.step at hstep
  split at hstep
  swap
  · exact absurd hstep (by simp)
  rename_i hp
  cases hphase : (s.participants p).phase with
  | outside =>
    simp only [hphase, Option.some.injEq] at hstep
    subst hstep
    exact h.enter hphase
  | contribute =>
    have hlength := congrArg List.length (h.contribution_eq hi hp (by rw [hphase]; simp))
    rw [List.length_append, List.length_singleton] at hlength
    simp only [hphase, hlength] at hstep
    split at hstep
    -- the first of a late round removes an earlier one; the last of a round opens its gate
    · rename_i hfirst
      rw [Option.some.injEq] at hstep
      subst hstep
      exact h.contribute hi hp hphase (Or.inl ⟨rfl, hfirst.2⟩)
    · rw [Option.some.injEq] at hstep
      subst hstep
      apply h.contribute hi hp hphase
      unfold afterRemove
      split
      · rename_i hlast
        exact Or.inr (Or.inr ⟨rfl, hlast⟩)
      · exact Or.inr (Or.inl rfl)
  | removeSlot =>
    simp only [hphase, Option.some.injEq] at hstep
    subst hstep
    rcases h.remover p hp (Or.inl hphase) with ⟨hlt, hmem, hone⟩
    -- the round that removes has begun, so the removed one is over
    have hne : s.order ((s.participants p).round - c.interval + c.interval) ≠ [] := by
      rw [Nat.sub_add_cancel hlt.le]
      exact List.ne_nil_of_mem hmem
    have hgone := h.removeSlot (m := (s.participants p).round - c.interval) (by omega) hne
    have hphase' : ((s.removeSlot ((s.participants p).round - c.interval)).participants p).phase
        = .removeSlot := hphase
    exact hgone.goto (by rw [hphase']; simp) (by rw [hphase']; simp) (by simp) (by simp) (by simp)
      fun _ => ⟨hlt, hmem, hone⟩
  | removeGate =>
    simp only [hphase, Option.some.injEq] at hstep
    subst hstep
    rcases h.remover p hp (Or.inr hphase) with ⟨hlt, hmem, _⟩
    have hne : s.order ((s.participants p).round - c.interval + c.interval) ≠ [] := by
      rw [Nat.sub_add_cancel hlt.le]
      exact List.ne_nil_of_mem hmem
    exact (h.removeGate (m := (s.participants p).round - c.interval) (by omega) hne).goto_afterRemove
      hp hphase
  | openGate =>
    simp only [hphase, Option.some.injEq] at hstep
    subst hstep
    exact h.openGate hi hp hphase
  | wait =>
    simp only [hphase] at hstep
    split at hstep
    · rename_i hgate
      rw [Option.some.injEq] at hstep
      subst hstep
      -- a gate that stands open has been opened
      have hopen := ((h.gate _).mp hgate).1
      apply h.goto (by rw [hphase]; simp) (by rw [hphase]; simp) (by split <;> simp)
        (fun _ => hopen)
      · intro heq
        split at heq <;> exact absurd heq (by simp)
      · intro heq
        split at heq <;> exact absurd heq (by simp)
    · exact absurd hstep (by simp)
  | collect =>
    simp only [hphase] at hstep
    split at hstep
    · rw [Option.some.injEq] at hstep
      subst hstep
      have hopen := h.passed p hp (s.participants p).round
        ⟨h.entered p (by rw [hphase]; simp), Or.inr ⟨rfl, Or.inr hphase⟩⟩
      exact h.goto (by rw [hphase]; simp) (by rw [hphase]; simp) (by simp) (fun _ => hopen)
        (by simp) (by simp)
    · exact absurd hstep (by simp)

/-- Every schedule keeps the invariant. -/
theorem run (h : c.Inv s) (hi : 2 ≤ c.interval) {schedule : List ℕ} {s' : State}
    (hrun : c.run s schedule = some s') : c.Inv s' := by
  induction schedule generalizing s with
  | nil =>
    rw [← Option.some.inj hrun]
    exact h
  | cons p schedule ih =>
    rw [Config.run, List.foldlM_cons] at hrun
    rcases Option.bind_eq_some_iff.mp hrun with ⟨s₁, hstep, hrest⟩
    exact ih (h.step hi hstep) hrest

end Inv

/-! ## The gate will be opened -/

/-- A participant on its way to open the gate of its round. -/
def Opening (s : State) (p : ℕ) : Prop :=
  (s.participants p).phase = .openGate ∨ c.n = 1 ∧
    ((s.participants p).phase = .removeSlot ∨ (s.participants p).phase = .removeGate)

/-- A round with all contributions has its gate opened, or someone is about to. -/
def Pending (s : State) : Prop :=
  ∀ m, (s.order m).length = c.n → s.opened m = 0 →
    ∃ p < c.n, (s.participants p).round = m ∧ c.Opening s p

variable {c} {s s' : State} {p : ℕ}

theorem opening_congr {q : ℕ} (h : s'.participants q = s.participants q) :
    c.Opening s' q ↔ c.Opening s q := by
  rw [Opening, Opening, h]

theorem pending_init (hn : 0 < c.n) : c.Pending State.init := by
  intro m hm
  have hzero : (0 : ℕ) = c.n := hm
  omega

/-- A step that keeps the rounds' counts leaves the one who opens where it is, or on its way. -/
theorem Pending.keep (h : c.Pending s) (horder : s'.order = s.order)
    (hopened : ∀ m, s.opened m ≤ s'.opened m)
    (hopening : ∀ q < c.n, s'.opened (s.participants q).round = 0 → c.Opening s q →
      (s'.participants q).round = (s.participants q).round ∧ c.Opening s' q) : c.Pending s' := by
  intro m hm hclosed
  rw [horder] at hm
  have hle := hopened m
  rcases h m hm (by omega) with ⟨q, hq, hround, hopen⟩
  rcases hopening q hq (by rw [hround]; exact hclosed) hopen with ⟨hround', hopen'⟩
  exact ⟨q, hq, hround'.trans hround, hopen'⟩

/-- A participant that does not come to open goes on. -/
theorem Pending.goto (h : c.Pending s) {phase : Phase} (hs' : s' = s.goto p phase)
    (hphase : c.Opening s p → c.Opening (s.goto p phase) p) : c.Pending s' := by
  subst hs'
  apply @Pending.keep c s (s.goto p phase) h rfl fun _ => le_refl _
  intro q _ _ hopen
  by_cases hqp : q = p
  · subst hqp
    exact ⟨by simp, hphase hopen⟩
  · have hsame : (s.goto p phase).participants q = s.participants q := State.goto_of_ne hqp
    exact ⟨by rw [hsame], (opening_congr hsame).mpr hopen⟩

/-- A step leaves somebody who opens, or the gate open. -/
theorem Pending.step (h : c.Pending s) (hinv : c.Inv s) (hi : 2 ≤ c.interval)
    (hstep : c.step s p = some s') : c.Pending s' := by
  unfold Config.step at hstep
  split at hstep
  swap
  · exact absurd hstep (by simp)
  rename_i hp
  cases hphase : (s.participants p).phase with
  | outside =>
    simp only [hphase, Option.some.injEq] at hstep
    subst hstep
    apply @Pending.keep c s (s.enter p) h rfl fun _ => le_refl _
    intro q _ _ hopen
    have hqp : q ≠ p := by
      intro hqp
      rw [hqp, Opening, hphase] at hopen
      simp at hopen
    have hsame : (s.enter p).participants q = s.participants q := State.enter_of_ne hqp
    exact ⟨by rw [hsame], (opening_congr hsame).mpr hopen⟩
  | contribute =>
    have hcontribution := hinv.contribution_eq hi hp (by rw [hphase]; simp)
    have hlength := congrArg List.length hcontribution
    rw [List.length_append, List.length_singleton] at hlength
    simp only [hphase, hlength] at hstep
    -- the contribution that completes the round makes its participant the one who opens
    have hgo : ∀ phase, (((s.order (s.participants p).round).length + 1 = c.n →
        c.Opening ((s.contribute p (s.participants p).round).goto p phase) p)) →
        c.Pending ((s.contribute p (s.participants p).round).goto p phase) := by
      intro phase hcomplete m hm hclosed
      change (Function.update s.order _ _ m).length = c.n at hm
      rw [Function.update_apply] at hm
      split at hm
      · rename_i hmr
        rw [List.length_append, List.length_singleton] at hm
        refine ⟨p, hp, ?_, hcomplete hm⟩
        rw [hmr, State.goto_self]
        rfl
      · rcases h m hm hclosed with ⟨q, hq, hround, hopen⟩
        have hqp : q ≠ p := by
          intro hqp
          rw [hqp, Opening, hphase] at hopen
          simp at hopen
        have hsame : ((s.contribute p (s.participants p).round).goto p phase).participants q
            = s.participants q := State.goto_of_ne hqp
        exact ⟨q, hq, by rw [hsame]; exact hround, (opening_congr hsame).mpr hopen⟩
    split at hstep
    · rename_i hfirst
      rw [Option.some.injEq] at hstep
      subst hstep
      apply hgo
      intro hn
      exact Or.inr ⟨by omega, Or.inl (by simp)⟩
    · rw [Option.some.injEq] at hstep
      subst hstep
      apply hgo
      intro hn
      exact Or.inl (by simp [afterRemove, hn])
  | removeSlot =>
    simp only [hphase, Option.some.injEq] at hstep
    have hgone : c.Pending (s.removeSlot ((s.participants p).round - c.interval)) :=
      h.keep rfl (fun _ => le_refl _) fun q _ _ hopen => ⟨rfl, hopen⟩
    apply hgone.goto hstep.symm
    intro hopen
    rcases hopen with hopen | ⟨hn, _⟩
    · have hphase' : (s.participants p).phase = .openGate := hopen
      rw [hphase] at hphase'
      exact absurd hphase' (by simp)
    · exact Or.inr ⟨hn, Or.inr (by simp)⟩
  | removeGate =>
    simp only [hphase, Option.some.injEq] at hstep
    have hgone : c.Pending (s.removeGate ((s.participants p).round - c.interval)) :=
      h.keep rfl (fun _ => le_refl _) fun q _ _ hopen => ⟨rfl, hopen⟩
    apply hgone.goto hstep.symm
    intro hopen
    rcases hopen with hopen | ⟨hn, _⟩
    · have hphase' : (s.participants p).phase = .openGate := hopen
      rw [hphase] at hphase'
      exact absurd hphase' (by simp)
    · exact Or.inl (by simp [afterRemove, hn])
  | openGate =>
    simp only [hphase, Option.some.injEq] at hstep
    subst hstep
    have hopened : ∀ m, ((s.openGate (s.participants p).round).goto p .wait).opened m
        = if m = (s.participants p).round then s.opened (s.participants p).round + 1
          else s.opened m := by
      intro m
      show Function.update s.opened _ _ m = _
      rw [Function.update_apply]
    apply @Pending.keep c s ((s.openGate (s.participants p).round).goto p .wait) h rfl
    · intro m
      rw [hopened]
      split
      · rename_i hm
        rw [hm]
        exact Nat.le_succ _
      · exact le_refl _
    · intro q _ hclosed hopen
      have hqp : q ≠ p := by
        intro hqp
        rw [hqp, hopened, if_pos rfl] at hclosed
        exact absurd hclosed (Nat.succ_ne_zero _)
      have hsame : ((s.openGate (s.participants p).round).goto p .wait).participants q
          = s.participants q := State.goto_of_ne hqp
      exact ⟨by rw [hsame], (opening_congr hsame).mpr hopen⟩
  | wait =>
    simp only [hphase] at hstep
    split at hstep
    · apply h.goto (Option.some.inj hstep).symm
      intro hopen
      rw [Opening, hphase] at hopen
      exact absurd hopen (by simp)
    · exact absurd hstep (by simp)
  | collect =>
    simp only [hphase] at hstep
    split at hstep
    · apply h.goto (Option.some.inj hstep).symm
      intro hopen
      rw [Opening, hphase] at hopen
      exact absurd hopen (by simp)
    · exact absurd hstep (by simp)

theorem Pending.run (h : c.Pending s) (hinv : c.Inv s) (hi : 2 ≤ c.interval) {schedule : List ℕ}
    (hrun : c.run s schedule = some s') : c.Pending s' := by
  induction schedule generalizing s with
  | nil =>
    rw [← Option.some.inj hrun]
    exact h
  | cons p schedule ih =>
    rw [Config.run, List.foldlM_cons] at hrun
    rcases Option.bind_eq_some_iff.mp hrun with ⟨s₁, hstep, hrest⟩
    exact ih (h.step hinv hi hstep) (hinv.step hi hstep) hrest

namespace Inv

variable {q m : ℕ}

/-! ## What it is for -/

/-- A closed gate that someone waits for was never open: it is still to be opened. -/
theorem opened_eq_zero (h : c.Inv s) (hi : 2 ≤ c.interval) (hp : p < c.n)
    (hphase : (s.participants p).phase = .wait)
    (hgate : s.gates (s.participants p).round = false) :
    s.opened (s.participants p).round = 0 := by
  have hkept := (h.not_removed hi hp (by rw [hphase]; simp)).2
  by_contra hopen
  rw [(h.gate _).mpr ⟨hopen, hkept⟩] at hgate
  exact absurd hgate (by simp)

/-- A round that all have contributed to, and in which nobody is about to open the gate, had its
gate opened once. -/
theorem opened_of_all (h : c.Inv s) (hpending : c.Pending s)
    (hall : ∀ q < c.n, (s.participants q).Contributed m)
    (hopening : ∀ q < c.n, (s.participants q).round = m → ¬ c.Opening s q) : s.opened m = 1 := by
  have hperm : (s.order m).Perm (List.range c.n) := by
    rw [List.perm_ext_iff_of_nodup (h.nodup m) List.nodup_range]
    intro i
    rw [h.mem, List.mem_range]
    exact ⟨fun hi => hi.1, fun hi => ⟨hi, hall i hi⟩⟩
  have hone := h.once m
  by_contra hne
  rcases hpending m (by rw [hperm.length_eq, List.length_range]) (by omega) with
    ⟨q, hq, hround, hopen⟩
  exact hopening q hq hround hopen

/-- The slot that a participant reads behind the gate has everybody's contribution. -/
theorem slot_of_passed (h : c.Inv s) (hi : 2 ≤ c.interval) (hp : p < c.n)
    (hphase : (s.participants p).phase = .collect) :
    s.slots (s.participants p).round = some (s.order (s.participants p).round) ∧
      (s.order (s.participants p).round).Perm (List.range c.n) := by
  have hkept := (h.not_removed hi hp (by rw [hphase]; simp)).1
  have hpassed : (s.participants p).Passed (s.participants p).round :=
    ⟨h.entered p (by rw [hphase]; simp), Or.inr ⟨rfl, Or.inr hphase⟩⟩
  have hmem : p ∈ s.order (s.participants p).round := (h.mem _ p).mpr ⟨hp, hpassed.contributed⟩
  refine ⟨?_, h.perm_range (h.full _ (h.passed p hp _ hpassed))⟩
  rw [h.slot, hkept, if_neg]
  simp [List.ne_nil_of_mem hmem]

end Inv

end Config

end Lib.Rendezvous
