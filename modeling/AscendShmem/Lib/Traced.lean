import Mathlib

/-!
# Runs that record what they do

A run gives a result or stops without one, and in both cases says what it has done so far. `Only P`
says that everything done has the property `P`; it goes through a sequence of runs step by step.
-/

namespace Lib

/-- The events of a run, in order, and its result, if it was not stopped. -/
structure Traced (ε α : Type) where
  events : List ε
  result : Option α

namespace Traced

variable {ε α β : Type}

instance : Monad (Traced ε) where
  pure a := ⟨[], some a⟩
  bind x f :=
    match x.result with
    | none => ⟨x.events, none⟩
    | some a => ⟨x.events ++ (f a).events, (f a).result⟩

/-- Something is done and gives `a`. -/
def record (e : ε) (a : α) : Traced ε α := ⟨[e], some a⟩

/-- Go on only with a value. -/
def orStop (x : Option α) : Traced ε α := ⟨[], x⟩

/-- Go on only if `p` holds. -/
def check (p : Prop) [Decidable p] : Traced ε Unit := orStop (if p then some () else none)

/-- Everything that the run does has the property. -/
def Only (P : ε → Prop) (x : Traced ε α) : Prop := ∀ e ∈ x.events, P e

variable {P : ε → Prop} {e : ε} {a : α}

@[simp] theorem result_pure : (pure a : Traced ε α).result = some a := rfl

@[simp] theorem result_record : (record e a).result = some a := rfl

@[simp] theorem result_orStop {x : Option α} : (orStop x : Traced ε α).result = x := rfl

@[simp] theorem result_check {p : Prop} [Decidable p] {u : Unit} :
    (check p : Traced ε Unit).result = some u ↔ p := by
  simp [check]

/-- The result of two programs, one after the other. -/
theorem result_bind (x : Traced ε α) (f : α → Traced ε β) :
    (x >>= f).result = x.result.bind fun a => (f a).result := by
  show (match x.result with
    | none => (⟨x.events, none⟩ : Traced ε β)
    | some a => ⟨x.events ++ (f a).events, (f a).result⟩).result = _
  cases x.result <;> rfl

theorem result_bind_eq_some {x : Traced ε α} {f : α → Traced ε β} {b : β} :
    (x >>= f).result = some b ↔ ∃ a, x.result = some a ∧ (f a).result = some b := by
  rw [result_bind, Option.bind_eq_some_iff]

@[simp] theorem only_pure : Only P (pure a : Traced ε α) ↔ True := by
  simp [Only, show (pure a : Traced ε α).events = [] from rfl]

@[simp] theorem only_record : Only P (record e a) ↔ P e := by
  simp [Only, record]

@[simp] theorem only_orStop {x : Option α} : Only P (orStop x : Traced ε α) ↔ True := by
  simp [Only, orStop]

@[simp] theorem only_check {p : Prop} [Decidable p] :
    Only P (check p : Traced ε Unit) ↔ True := only_orStop

/-- Both parts record only `P`, the second one as far as it is reached. -/
theorem only_bind {x : Traced ε α} {f : α → Traced ε β} :
    Only P (x >>= f) ↔ Only P x ∧ ∀ a, x.result = some a → Only P (f a) := by
  have hevents : (x >>= f).events = match x.result with
      | none => x.events
      | some a => x.events ++ (f a).events := by
    show (match x.result with
      | none => (⟨x.events, none⟩ : Traced ε β)
      | some a => ⟨x.events ++ (f a).events, (f a).result⟩).events = _
    cases x.result <;> rfl
  unfold Only
  rw [hevents]
  cases h : x.result with
  | none => simp
  | some a => simp [List.mem_append, or_imp, forall_and]

end Traced
end Lib
