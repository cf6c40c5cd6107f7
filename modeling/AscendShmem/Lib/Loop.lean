import Mathlib

/-!
# Loops that are left from inside

A turn of `while (true)` either leaves the loop with a value or goes on with a new state. `loop`
gives up after a number of turns; `Returns` says that some number is enough, so a loop that runs for
ever returns nothing.
-/

namespace Lib

variable {σ ρ : Type*}

/-- At most `fuel` turns of the loop, from `s`. -/
def loop (turn : σ → ρ ⊕ σ) : ℕ → σ → Option ρ
  | 0, _ => none
  | fuel + 1, s => match turn s with
    | .inl r => some r
    | .inr next => loop turn fuel next

/-- The loop is left with `r`. -/
def Returns (turn : σ → ρ ⊕ σ) (s : σ) (r : ρ) : Prop := ∃ fuel, loop turn fuel s = some r

/-- The state after `n` turns, if the loop is not left before. -/
def turns (turn : σ → ρ ⊕ σ) : ℕ → σ → Option σ
  | 0, s => some s
  | n + 1, s => match turn s with
    | .inl _ => none
    | .inr next => turns turn n next

variable {turn : σ → ρ ⊕ σ} {s next : σ} {r : ρ}

theorem loop_succ (fuel : ℕ) : loop turn (fuel + 1) s = match turn s with
    | .inl r => some r
    | .inr next => loop turn fuel next := rfl

@[simp] theorem turns_zero : turns turn 0 s = some s := rfl

theorem turns_first (n : ℕ) : turns turn (n + 1) s = match turn s with
    | .inl _ => none
    | .inr next => turns turn n next := rfl

theorem returns_of_inl (h : turn s = .inl r) : Returns turn s r := ⟨1, by rw [loop_succ, h]⟩

/-- A loop that ends has one result. -/
theorem returns_inl_iff {value : ρ} (h : turn s = .inl value) : Returns turn s r ↔ r = value := by
  constructor
  · rintro ⟨fuel, hfuel⟩
    cases fuel with
    | zero => cases hfuel
    | succ fuel =>
      rw [loop_succ, h] at hfuel
      exact (Option.some.inj hfuel).symm
  · rintro rfl
    exact returns_of_inl h

/-- A turn that goes on. -/
theorem returns_inr_iff (h : turn s = .inr next) : Returns turn s r ↔ Returns turn next r := by
  constructor
  · rintro ⟨fuel, hfuel⟩
    cases fuel with
    | zero => cases hfuel
    | succ fuel =>
      rw [loop_succ, h] at hfuel
      exact ⟨fuel, hfuel⟩
  · rintro ⟨fuel, hfuel⟩
    exact ⟨fuel + 1, by rw [loop_succ, h]; exact hfuel⟩

/-- What a turn keeps holds in the state in which the loop is left. -/
theorem Returns.exists_inl {Inv : σ → Prop} (hr : Returns turn s r) (hs : Inv s)
    (hturn : ∀ s next, Inv s → turn s = .inr next → Inv next) :
    ∃ last, Inv last ∧ turn last = .inl r := by
  obtain ⟨fuel, hfuel⟩ := hr
  induction fuel generalizing s with
  | zero => cases hfuel
  | succ fuel ih =>
    cases h : turn s with
    | inl value =>
      rw [loop_succ, h] at hfuel
      exact ⟨s, hs, by rw [h, Option.some.inj hfuel]⟩
    | inr next =>
      rw [loop_succ, h] at hfuel
      exact ih (hturn s next hs h) hfuel

/-- A loop has one result. -/
theorem Returns.unique {r' : ρ} (h : Returns turn s r) (h' : Returns turn s r') : r = r' := by
  obtain ⟨fuel, hfuel⟩ := h
  induction fuel generalizing s with
  | zero => cases hfuel
  | succ fuel ih =>
    cases hs : turn s with
    | inl value =>
      rw [loop_succ, hs] at hfuel
      rw [(returns_inl_iff hs).mp h', Option.some.inj hfuel]
    | inr next =>
      rw [loop_succ, hs] at hfuel
      exact ih ((returns_inr_iff hs).mp h') hfuel

/-! ## Leaving the loop -/

/-- The last turn behind the others. -/
theorem turns_succ (n : ℕ) : turns turn (n + 1) s = (turns turn n s).bind fun last =>
    match turn last with
    | .inl _ => none
    | .inr next => some next := by
  induction n generalizing s with
  | zero =>
    rw [turns_first, turns_zero, Option.bind_some]
    rfl
  | succ n ih =>
    rw [turns_first, turns_first]
    cases h : turn s with
    | inl value => rfl
    | inr next => exact ih

/-- A loop that does not make so many turns has ended. -/
theorem exists_returns_of_turns_eq_none {n : ℕ} (h : turns turn n s = none) :
    ∃ r, Returns turn s r := by
  induction n generalizing s with
  | zero => cases h
  | succ n ih =>
    cases hs : turn s with
    | inl value => exact ⟨value, returns_of_inl hs⟩
    | inr next =>
      rw [turns_first, hs] at h
      obtain ⟨r, hr⟩ := ih h
      exact ⟨r, (returns_inr_iff hs).mpr hr⟩

/-- A property of the number of turns and of the state, kept by a turn, holds after `n` turns. -/
theorem turns_induction (Inv : ℕ → σ → Prop) {n : ℕ} (hs : Inv 0 s)
    (hturn : ∀ n s next, Inv n s → turn s = .inr next → Inv (n + 1) next)
    (h : turns turn n s = some next) : Inv n next := by
  induction n generalizing next with
  | zero =>
    rw [turns_zero, Option.some.injEq] at h
    exact h ▸ hs
  | succ n ih =>
    rw [turns_succ, Option.bind_eq_some_iff] at h
    obtain ⟨last, hlast, hnext⟩ := h
    cases hl : turn last with
    | inl value =>
      rw [hl] at hnext
      cases hnext
    | inr mid =>
      rw [hl, Option.some.injEq] at hnext
      exact hnext ▸ hturn n last mid (ih hlast) hl

end Lib
