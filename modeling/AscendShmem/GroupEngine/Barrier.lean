import Mathlib
import AscendShmem.GroupEngine.Rounds

/-!
# The store-based barrier

`GroupBarrier` counts the ranks of a barrier in an add key; the last one sets the wait key, on
which all wait. The first rank of a barrier removes both keys of the barrier `REMOVE_INTERVAL`
before it. Between two operations on the store any other rank may run.

What holds of the rendezvous in all interleavings holds of the barrier as long as the serial
numbers do not wrap.
-/

namespace AscendShmem.GroupEngine

open ConfigStore Lib

/-- `_BA` -/
def barrierAddSuffix : Bytes := [95, 66, 65]

/-- `_BW` -/
def barrierWaitSuffix : Bytes := [95, 66, 87]

theorem barrierSuffixes : barrierAddSuffix.length = barrierWaitSuffix.length ∧
    barrierAddSuffix ≠ barrierWaitSuffix := by decide

namespace Barrier

/-- The next operation of a rank in `GroupBarrier`, with the result of its `Add`. -/
inductive Pc where
  | returned
  | add
  | removeAdd (val : ℤ)
  | removeWait (val : ℤ)
  | set
  | get
  /-- The call returned `SM_ERROR`. -/
  | failed
deriving DecidableEq, Repr

/-- The ranks, numbered by `barrierGroupSn_`, and the keys in their store. -/
structure System where
  ranks : ℕ → Rank Pc
  keys : Keys

/-- No barrier has been entered, and the store has none of the keys. -/
def System.init : System := ⟨fun _ => { pc := .returned }, Keys.init⟩

/-- A rank goes on. -/
def System.goto (s : System) (r : ℕ) (pc : Pc) : System :=
  { s with ranks := Rank.goto s.ranks r pc }

section Step

-- the group version, the same on all ranks, and the number of ranks
variable (groupVersion : ℤ) (rankSize : ℕ)

/-- What follows the clean-up: the last rank sets the wait key. -/
def afterRemove (val : ℤ) : Pc := if val = rankSize then .set else .get

/-- One operation of a rank, if it can run. -/
def step (s : System) (r : ℕ) : Option System :=
  if r < rankSize then
    let sn := (s.ranks r).sn
    match (s.ranks r).pc with
    | .returned => some { s with ranks := Rank.enter s.ranks r .add }
    | .add =>
      match s.keys.store.add (groupKey groupVersion barrierAddSuffix sn) 1 with
      | none => some (s.goto r .failed)
      | some (val, store) =>
        let s := { s with keys := { s.keys with store := store } }
        if val = 1 ∧ sn > removeInterval then some (s.goto r (.removeAdd val))
        else some (s.goto r (afterRemove rankSize val))
    | .removeAdd val =>
      let keys := s.keys.removeAdd groupVersion barrierAddSuffix (sn - removeInterval)
      some (System.goto { s with keys := keys } r (.removeWait val))
    | .removeWait val =>
      let keys := s.keys.removeWait groupVersion barrierWaitSuffix (sn - removeInterval)
      some (System.goto { s with keys := keys } r (afterRemove rankSize val))
    | .set =>
      let keys := s.keys.setWait groupVersion barrierWaitSuffix sn r
      some (System.goto { s with keys := keys } r .get)
    | .get =>
      match s.keys.store (groupKey groupVersion barrierWaitSuffix sn) with
      | none => none -- still waiting
      | some value =>
        if value.text = smemGroupSetStr then some (s.goto r .returned) else some (s.goto r .failed)
    | .failed => none
  else none

/-- The system after a schedule of operations. -/
def run (s : System) (schedule : List ℕ) : Option System :=
  schedule.foldlM (step groupVersion rankSize) s

end Step

/-! ## A barrier is a rendezvous -/

/-- The phase of a round that an operation stands for. -/
def Pc.phase : Pc → Rendezvous.Phase
  | .returned | .failed => .outside
  | .add => .contribute
  | .removeAdd _ => .removeSlot
  | .removeWait _ => .removeGate
  | .set => .openGate
  | .get => .wait

/-- The rendezvous of a group: slots are counted and not read. -/
def config (rankSize : ℕ) : Rendezvous.Config := ⟨rankSize, removeInterval, false⟩

/-- The ranks and their keys are a rendezvous: the add key counts who has come, and the wait key is
its gate. -/
structure Refines (groupVersion : ℤ) (s : System) (a : Rendezvous.State) : Prop where
  ranks : RanksRefine Pc.phase s.ranks a
  keys : KeysRefine groupVersion barrierAddSuffix barrierWaitSuffix
    (fun _ l => .number l.length) s.keys a
  alive : ∀ r, (s.ranks r).pc ≠ .failed
  first : ∀ r val, (s.ranks r).pc = .removeAdd val ∨ (s.ranks r).pc = .removeWait val → val = 1

theorem refines_init (groupVersion : ℤ) :
    Refines groupVersion System.init Rendezvous.State.init where
  ranks := RanksRefine.init rfl
  keys := KeysRefine.init
  alive := by simp [System.init]
  first := by simp [System.init]

namespace Refines

variable {groupVersion : ℤ} {rankSize : ℕ} {s s' : System} {a b : Rendezvous.State} {r : ℕ}

/-- A rank goes on with the keys that the rendezvous says. -/
theorem goto (h : Refines groupVersion s a) {keys : Keys}
    (hkeys : KeysRefine groupVersion barrierAddSuffix barrierWaitSuffix
      (fun _ l => .number l.length) keys b) (hb : b.participants = a.participants) {pc : Pc}
    (hpc : pc ≠ .failed) (hfirst : ∀ val, pc = .removeAdd val ∨ pc = .removeWait val → val = 1) :
    Refines groupVersion (System.goto { s with keys := keys } r pc) (b.goto r pc.phase) := by
  have hranks : RanksRefine Pc.phase s.ranks b :=
    ⟨by rw [hb]; exact h.ranks.participants, h.ranks.serial⟩
  refine ⟨hranks.goto pc, hkeys.goto _, ?_, ?_⟩
  all_goals
    intro q
    by_cases hq : q = r
  · subst hq
    simpa [System.goto, Rank.goto] using hpc
  · simpa [System.goto, Rank.goto, hq] using h.alive q
  · subst hq
    simpa [System.goto, Rank.goto] using hfirst
  · simpa [System.goto, Rank.goto, hq] using h.first q

/-- A rank enters its next barrier. -/
theorem enter (h : Refines groupVersion s a) :
    Refines groupVersion { s with ranks := Rank.enter s.ranks r .add } (a.enter r) := by
  refine ⟨h.ranks.enter rfl, h.keys.enter, ?_, ?_⟩
  all_goals
    intro q
    by_cases hq : q = r
  · subst hq
    simp [Rank.enter]
  · simpa [Rank.enter, hq] using h.alive q
  · subst hq
    simp [Rank.enter]
  · simpa [Rank.enter, hq] using h.first q

/-- The `Add` of a rank gives the length of the slot with its contribution. -/
theorem add_eq (h : Refines groupVersion s a) {m : ℕ} (hm : m < 2 ^ 32) :
    s.keys.store.add (groupKey groupVersion barrierAddSuffix m) 1
      = some (((a.contribution r m).length : ℤ),
        Function.update s.keys.store (groupKey groupVersion barrierAddSuffix m)
          (some (.number (a.contribution r m).length))) := by
  have hslot := h.keys.add m hm
  rw [Store.add, Rendezvous.State.contribution]
  cases hs : a.slots m with
  | none =>
    rw [hs, Option.map_none] at hslot
    rw [hslot]
    rfl
  | some l =>
    rw [hs, Option.map_some] at hslot
    rw [hslot]
    simp [Value.toNumber]

/-- Behind the clean-up the last rank opens the gate, and the others wait. -/
theorem afterRemove_phase (v : ℕ) :
    (afterRemove rankSize v).phase = (config rankSize).afterRemove v ∧
      afterRemove rankSize v ≠ .failed ∧ ∀ val, ¬ (afterRemove rankSize v = .removeAdd val ∨
        afterRemove rankSize v = .removeWait val) := by
  unfold afterRemove Rendezvous.Config.afterRemove
  by_cases hv : v = rankSize
  · have hv' : (v : ℤ) = rankSize := by omega
    rw [if_pos hv', if_pos (by exact hv)]
    simp [Pc.phase]
  · have hv' : ¬ (v : ℤ) = rankSize := by omega
    rw [if_neg hv', if_neg (by exact hv)]
    simp [Pc.phase]

/-- Every operation of a rank is a step of the rendezvous. -/
theorem step (h : Refines groupVersion s a) (hcalls : (s.ranks r).calls < 2 ^ 32)
    (hstep : step groupVersion rankSize s r = some s') :
    ∃ a', (config rankSize).step a r = some a' ∧ Refines groupVersion s' a' := by
  unfold Barrier.step at hstep
  unfold Rendezvous.Config.step
  split at hstep
  swap
  · exact absurd hstep (by simp)
  rename_i hr
  rw [if_pos (by exact hr)]
  simp only [h.ranks.sn_eq hcalls] at hstep
  simp only [h.ranks.round_eq]
  cases hpc : (s.ranks r).pc with
  | returned =>
    simp only [hpc, Option.some.injEq] at hstep
    subst hstep
    simp only [h.ranks.phase_eq, hpc, Pc.phase]
    exact ⟨_, rfl, h.enter⟩
  | add =>
    simp only [hpc, h.add_eq (r := r) hcalls] at hstep
    simp only [h.ranks.phase_eq, hpc, Pc.phase]
    have hkeys := h.keys.contribute (r := r) barrierSuffixes hcalls
    -- the first rank of a later call removes the keys of an earlier one
    by_cases hfirst : (a.contribution r (s.ranks r).calls).length = 1 ∧
        (s.ranks r).calls > removeInterval
    · have hone : ((a.contribution r (s.ranks r).calls).length : ℤ) = 1 := by omega
      rw [if_pos ⟨hone, hfirst.2⟩, Option.some.injEq] at hstep
      subst hstep
      rw [if_pos (by exact hfirst)]
      exact ⟨_, rfl, h.goto hkeys rfl (by simp) (by simpa using hone)⟩
    · have hnot : ¬ (((a.contribution r (s.ranks r).calls).length : ℤ) = 1 ∧
          (s.ranks r).calls > removeInterval) := by omega
      rw [if_neg hnot, Option.some.injEq] at hstep
      subst hstep
      rw [if_neg (by exact hfirst)]
      rcases @afterRemove_phase rankSize (a.contribution r (s.ranks r).calls).length
        with ⟨heq, halive, hval⟩
      rw [← heq]
      exact ⟨_, rfl, h.goto hkeys rfl halive fun val hv => absurd hv (hval val)⟩
  | removeAdd val =>
    have hval : val = 1 := h.first r val (Or.inl hpc)
    subst hval
    simp only [hpc, Option.some.injEq] at hstep
    subst hstep
    simp only [h.ranks.phase_eq, hpc, Pc.phase]
    have hkeys := h.keys.removeAdd (m := (s.ranks r).calls - removeInterval) barrierSuffixes
      (by omega)
    exact ⟨_, rfl, h.goto hkeys rfl (by simp) (by simp)⟩
  | removeWait val =>
    have hval : val = 1 := h.first r val (Or.inr hpc)
    subst hval
    simp only [hpc, Option.some.injEq] at hstep
    subst hstep
    simp only [h.ranks.phase_eq, hpc, Pc.phase]
    have hkeys := h.keys.removeWait (m := (s.ranks r).calls - removeInterval) barrierSuffixes
      (by omega)
    rcases @afterRemove_phase rankSize 1 with ⟨heq, halive, hval⟩
    rw [← heq]
    exact ⟨_, rfl, h.goto hkeys rfl halive fun val hv => absurd hv (hval val)⟩
  | set =>
    simp only [hpc, Option.some.injEq] at hstep
    subst hstep
    simp only [h.ranks.phase_eq, hpc, Pc.phase]
    exact ⟨_, rfl, h.goto (h.keys.setWait barrierSuffixes hcalls) rfl (by simp) (by simp)⟩
  | get =>
    simp only [hpc, h.keys.wait _ hcalls] at hstep
    simp only [h.ranks.phase_eq, hpc, Pc.phase]
    split at hstep
    · exact absurd hstep (by simp)
    · rename_i value hvalue
      split at hvalue
      -- the key is there exactly if the gate of the round is open
      · rename_i hgate
        have htext : (Value.bytes smemGroupSetStr).text = smemGroupSetStr := rfl
        rw [← Option.some.inj hvalue, if_pos htext, Option.some.injEq] at hstep
        subst hstep
        rw [if_pos hgate]
        exact ⟨_, rfl, h.goto h.keys rfl (by simp) (by simp)⟩
      · exact absurd hvalue (by simp)
  | failed => exact absurd hpc (h.alive r)

end Refines

/-! ## Runs -/

section Runs

variable {groupVersion : ℤ} {rankSize : ℕ} {s s' : System} {r : ℕ}

/-- A rank's calls are not taken back. -/
theorem calls_le_of_step (hstep : step groupVersion rankSize s r = some s') (q : ℕ) :
    (s.ranks q).calls ≤ (s'.ranks q).calls := by
  unfold Barrier.step at hstep
  split at hstep
  swap
  · exact absurd hstep (by simp)
  have hgoto : ∀ keys pc, some (System.goto { s with keys := keys } r pc) = some s' →
      (s.ranks q).calls ≤ (s'.ranks q).calls := by
    intro keys pc heq
    rw [← Option.some.inj heq]
    exact Rank.calls_le_goto s.ranks r pc q
  dsimp only at hstep
  split at hstep
  · rw [← Option.some.inj hstep]
    exact Rank.calls_le_enter s.ranks r .add q
  · split at hstep
    · exact hgoto s.keys _ hstep
    · split at hstep <;> exact hgoto _ _ hstep
  · exact hgoto _ _ hstep
  · exact hgoto _ _ hstep
  · exact hgoto _ _ hstep
  · split at hstep
    · exact absurd hstep (by simp)
    · split at hstep <;> exact hgoto s.keys _ hstep
  · exact absurd hstep (by simp)

/-- The calls are counted up. -/
theorem calls_le_of_run {schedule : List ℕ}
    (hrun : run groupVersion rankSize s schedule = some s') (q : ℕ) :
    (s.ranks q).calls ≤ (s'.ranks q).calls := by
  induction schedule generalizing s with
  | nil => rw [← Option.some.inj hrun]
  | cons r schedule ih =>
    rw [run, List.foldlM_cons] at hrun
    rcases Option.bind_eq_some_iff.mp hrun with ⟨s₁, hstep, hrest⟩
    exact (calls_le_of_step hstep q).trans (ih hrest)

/-- Every run of the ranks is a run of the rendezvous. -/
theorem Refines.run {a : Rendezvous.State} (h : Refines groupVersion s a) {schedule : List ℕ}
    (hrun : Barrier.run groupVersion rankSize s schedule = some s')
    (hcalls : ∀ q < rankSize, (s'.ranks q).calls < 2 ^ 32) :
    ∃ a', (config rankSize).run a schedule = some a' ∧ Refines groupVersion s' a' := by
  induction schedule generalizing s a with
  | nil =>
    rw [← Option.some.inj hrun]
    exact ⟨a, rfl, h⟩
  | cons r schedule ih =>
    rw [Barrier.run, List.foldlM_cons] at hrun
    rcases Option.bind_eq_some_iff.mp hrun with ⟨s₁, hstep, hrest⟩
    have hr : r < rankSize := by
      unfold Barrier.step at hstep
      split at hstep
      · assumption
      · exact absurd hstep (by simp)
    have hlt := ((calls_le_of_step hstep r).trans (calls_le_of_run hrest r)).trans_lt (hcalls r hr)
    rcases h.step hlt hstep with ⟨a₁, ha, h₁⟩
    rcases ih h₁ hrest with ⟨a', hrun', h'⟩
    refine ⟨a', ?_, h'⟩
    rw [Rendezvous.Config.run, List.foldlM_cons, ha]
    exact hrun'

end Runs

namespace System

/-- Rank `r` has called its `n`-th barrier. -/
def Entered (s : System) (r n : ℕ) : Prop := 1 ≤ n ∧ n ≤ (s.ranks r).calls

/-- Rank `r` has returned from its `n`-th barrier. -/
def Returned (s : System) (r n : ℕ) : Prop :=
  1 ≤ n ∧ (n < (s.ranks r).calls ∨ n = (s.ranks r).calls ∧ (s.ranks r).pc = .returned)

/-- Rank `r` has nothing left to do in its `n`-th barrier but to wait. -/
def Arrived (s : System) (r n : ℕ) : Prop :=
  s.Returned r n ∨ n = (s.ranks r).calls ∧ (s.ranks r).pc = .get

end System

/-- The store-based barrier, in every interleaving of the ranks' operations: nobody fails, nobody
returns from a barrier before all have entered it, the wait key of a barrier is set by one rank
only and by one rank when all have arrived, the keys of a barrier are removed when all have
returned from it, and a wait key that a rank misses was not set yet. -/
theorem groupBarrier_safe {groupVersion : ℤ} {rankSize : ℕ} {schedule : List ℕ} {s : System}
    (hrun : run groupVersion rankSize .init schedule = some s)
    (hsn : ∀ r < rankSize, (s.ranks r).calls < 2 ^ 32) :
    (∀ r < rankSize, (s.ranks r).pc ≠ .failed) ∧
    (∀ r < rankSize, ∀ n, s.Returned r n → ∀ q < rankSize, s.Entered q n) ∧
    (∀ n, (s.keys.setters n).length ≤ 1) ∧
    (∀ n, 0 < rankSize → (∀ r < rankSize, s.Arrived r n) → (s.keys.setters n).length = 1) ∧
    (∀ n, s.keys.addRemoved n = true ∨ s.keys.waitRemoved n = true →
      ∀ r < rankSize, s.Returned r n) ∧
    (∀ r < rankSize, (s.ranks r).pc = .get →
      s.keys.store (groupKey groupVersion barrierWaitSuffix (s.ranks r).calls) = none →
      s.keys.setters (s.ranks r).calls = []) := by
  rcases (refines_init groupVersion).run hrun hsn with ⟨a, harun, href⟩
  have hinit := (config rankSize).inv_init
  have hinv := hinit.run (le_refl 2) harun
  -- a participant has finished a round when its rank has returned from the call
  have hreturned : ∀ r n, (a.participants r).Finished n ↔ s.Returned r n := by
    intro r n
    rw [href.ranks.participants, Rendezvous.Participant.Finished, System.Returned]
    have hpc := href.alive r
    cases h : (s.ranks r).pc <;> simp_all [Pc.phase]
  refine ⟨fun r _ => href.alive r, ?_, ?_, ?_, ?_, ?_⟩
  · intro r hr n hn q hq
    have hround := (hinv.all_contributed hr ((hreturned r n).mpr hn).passed hq).le_round
    rw [href.ranks.round_eq] at hround
    exact ⟨hn.1, hround⟩
  · intro n
    rw [href.keys.setters]
    exact hinv.once n
  · intro n hsize hall
    rw [href.keys.setters]
    apply hinv.opened_of_all ((Rendezvous.Config.pending_init hsize).run hinit (le_refl 2) harun)
    · intro q hq
      rcases hall q hq with hret | ⟨hn, hget⟩
      · exact ((hreturned q n).mpr hret).passed.contributed
      · have hwait : (a.participants q).phase = .wait := by rw [href.ranks.phase_eq, hget]; rfl
        rw [hn, ← href.ranks.round_eq]
        exact ⟨hinv.entered q (by rw [hwait]; simp), Or.inr ⟨rfl, by rw [hwait]; simp⟩⟩
    · intro q hq hround hopen
      rw [href.ranks.round_eq] at hround
      rw [Rendezvous.Config.Opening, href.ranks.phase_eq] at hopen
      rcases hall q hq with ⟨_, hlt | ⟨_, hret⟩⟩ | ⟨_, hget⟩
      · omega
      · rw [hret] at hopen
        exact absurd hopen (by simp [Pc.phase])
      · rw [hget] at hopen
        exact absurd hopen (by simp [Pc.phase])
  · intro n hremoved r hr
    rw [href.keys.addRemoved, href.keys.waitRemoved] at hremoved
    exact (hreturned r n).mp (hinv.finished_of_removed (le_refl 2) hremoved hr)
  · intro r hr hget hmissing
    rw [href.keys.wait _ (hsn r hr)] at hmissing
    have hgate : a.gates (a.participants r).round = false := by
      rw [href.ranks.round_eq]
      by_contra hopen
      rw [if_pos (by simpa using hopen)] at hmissing
      exact absurd hmissing (by simp)
    have hzero := hinv.opened_eq_zero (le_refl 2) hr (by rw [href.ranks.phase_eq, hget]; rfl) hgate
    rw [href.ranks.round_eq, ← href.keys.setters] at hzero
    exact List.length_eq_zero_iff.mp hzero

/-- Two ranks in three barriers: the first rank of the third one removes the keys of the first. -/
def threeBarriers : List ℕ :=
  [0, 0, 1, 1, 1, 1, 0] ++ [1, 1, 0, 0, 0, 0, 1] ++ [1, 1, 1, 1, 0, 0, 0, 0, 1]

/-- Two ranks make three barriers, the last of which removes the keys of the first. -/
theorem groupBarrier_safe_threeBarriers :
    ∃ s, run 1 2 .init threeBarriers = some s ∧ s.keys.addRemoved 1 = true ∧
      ∀ r < 2, s.Returned r 1 := by
  have hany : (run 1 2 .init threeBarriers).any fun s => s.keys.addRemoved 1 ∧
      (s.ranks 0).calls = 3 ∧ (s.ranks 1).calls = 3 := by decide +kernel
  rcases (Option.any_eq_true _ _).mp hany with ⟨s, hrun, hs⟩
  rw [decide_eq_true_iff] at hs
  have hcalls : ∀ r < 2, (s.ranks r).calls < 2 ^ 32 := by
    intro r hr
    interval_cases r
    · rw [hs.2.1]
      decide
    · rw [hs.2.2]
      decide
  exact ⟨s, hrun, hs.1, (groupBarrier_safe hrun hcalls).2.2.2.2.1 1 (Or.inl hs.1)⟩

end Barrier

end AscendShmem.GroupEngine
