import Mathlib

/-!
# Runs of a guarded step

A system takes the events of a list one after the other; an event that cannot happen has no step.
`Always` says that a condition holds at every event of a run. Where a log records what happened, a run
has a good log exactly when the condition always held: before the first event that violates it the
invariant holds, and a bad log stays bad.
-/

namespace Lib

variable {σ ε : Type*} (step : σ → ε → Option σ)

/-- The state behind the events. -/
def runEvents : σ → List ε → Option σ
  | s, [] => some s
  | s, e :: es => (step s e).bind fun s' => runEvents s' es

/-- The condition holds at every event. -/
def Always (cond : σ → ε → Prop) : σ → List ε → Prop
  | _, [] => True
  | s, e :: es => cond s e ∧ ∀ s', step s e = some s' → Always cond s' es

variable {step} {cond : σ → ε → Prop} {s s' : σ} {e : ε} {es more : List ε}

theorem runEvents_cons : runEvents step s (e :: es) = some s' ↔
    ∃ mid, step s e = some mid ∧ runEvents step mid es = some s' := Option.bind_eq_some_iff

/-- A run in two pieces. -/
theorem runEvents_append : runEvents step s (es ++ more) = some s' ↔
    ∃ mid, runEvents step s es = some mid ∧ runEvents step mid more = some s' := by
  induction es generalizing s with
  | nil => simp [runEvents]
  | cons e es ih =>
    rw [List.cons_append, runEvents_cons]
    simp only [ih, runEvents_cons]
    constructor
    · rintro ⟨next, hnext, mid, hmid, hrest⟩
      exact ⟨mid, ⟨next, hnext, hmid⟩, hrest⟩
    · rintro ⟨mid, ⟨next, hnext, hmid⟩, hrest⟩
      exact ⟨next, hnext, mid, hmid, hrest⟩

/-- An invariant that every event keeps under the condition holds behind a run that keeps it. -/
theorem inv_runEvents {Inv : σ → Prop}
    (hstep : ∀ s e s', Inv s → cond s e → step s e = some s' → Inv s')
    (hs : Inv s) (hcond : Always step cond s es) (hrun : runEvents step s es = some s') : Inv s' := by
  induction es generalizing s with
  | nil =>
    cases hrun
    exact hs
  | cons e es ih =>
    obtain ⟨mid, hmid, hrest⟩ := runEvents_cons.mp hrun
    exact ih (hstep s e mid hs hcond.1 hmid) (hcond.2 mid hmid) hrest

/-- What holds at every event of a state with the invariant under the condition. -/
theorem always_of_inv {Inv : σ → Prop} {good : σ → ε → Prop}
    (hstep : ∀ s e s', Inv s → cond s e → step s e = some s' → Inv s')
    (hgood : ∀ s e, Inv s → cond s e → good s e) (hs : Inv s) (hcond : Always step cond s es) :
    Always step good s es := by
  induction es generalizing s with
  | nil => trivial
  | cons e es ih =>
    exact ⟨hgood s e hs hcond.1, fun s' hs' =>
      ih (hstep s e s' hs hcond.1 hs') (hcond.2 s' hs')⟩

/-- Where a property holds at an event of a good state exactly when the condition does, it holds at all
events exactly when the condition does. -/
theorem always_iff {Inv : σ → Prop} {good : σ → ε → Prop}
    (hstep : ∀ s e s', Inv s → cond s e → step s e = some s' → Inv s')
    (hgood : ∀ s e, Inv s → (good s e ↔ cond s e)) (hs : Inv s) :
    Always step good s es ↔ Always step cond s es := by
  induction es generalizing s with
  | nil => exact Iff.rfl
  | cons e es ih =>
    rw [Always, Always, hgood s e hs]
    exact and_congr_right fun hcond => forall₂_congr fun s' hs' => ih (hstep s e s' hs hcond hs')

/-- What no event undoes is there behind the run. -/
theorem stays_runEvents {P : σ → Prop} (hstep : ∀ s e s', P s → step s e = some s' → P s')
    (hs : P s) (hrun : runEvents step s es = some s') : P s' := by
  induction es generalizing s with
  | nil =>
    cases hrun
    exact hs
  | cons e es ih =>
    obtain ⟨mid, hmid, hrest⟩ := runEvents_cons.mp hrun
    exact ih (hstep s e mid hs hmid) hrest

/-- A run is good exactly when the condition held at all its events. -/
theorem good_runEvents_iff {Inv Good : σ → Prop}
    (hstep : ∀ s e s', Inv s → cond s e → step s e = some s' → Inv s')
    (hgood : ∀ s, Inv s → Good s)
    (hbad : ∀ s e s', Inv s → ¬ cond s e → step s e = some s' → ¬ Good s')
    (hstays : ∀ s e s', ¬ Good s → step s e = some s' → ¬ Good s')
    (hs : Inv s) (hrun : runEvents step s es = some s') : Good s' ↔ Always step cond s es := by
  refine ⟨fun hgood' => ?_, fun hcond => hgood s' (inv_runEvents hstep hs hcond hrun)⟩
  induction es generalizing s with
  | nil => trivial
  | cons e es ih =>
    obtain ⟨mid, hmid, hrest⟩ := runEvents_cons.mp hrun
    by_cases hcond : cond s e
    · refine ⟨hcond, fun next hnext => ?_⟩
      rw [Option.some.inj (hnext.symm.trans hmid)]
      exact ih (hstep s e mid hs hcond hmid) hrest
    · exact absurd hgood'
        (stays_runEvents (P := fun s => ¬ Good s) hstays (hbad s e mid hs hcond hmid) hrest)

end Lib
