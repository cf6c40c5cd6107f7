import Mathlib

/-!
# A ring written lap after lap

A producer writes item `k` into slot `k % ring` over what an earlier lap left there. A reader that is
at most `ring` items behind finds at its position the item of this lap, or, where it has caught up, the
item of the lap before, or what the slot held at first. The parity of the lap tells them apart.
-/

namespace Lib

variable {α : Type*}

/-- What the slots hold when the items of `history` have been written. -/
structure LapRing (ring : ℕ) (initial slots : ℕ → α) (history : List α) : Prop where
  written : ∀ k a, history[k]? = some a → history.length ≤ k + ring → slots (k % ring) = a
  unwritten : ∀ k < ring, history.length ≤ k → slots k = initial k

/-- The parity of the lap of item `k`. -/
def lapParity (ring k : ℕ) : Bool := k / ring % 2 = 1

variable {ring : ℕ} {initial slots : ℕ → α} {history : List α}

theorem LapRing.empty : LapRing ring initial initial [] :=
  ⟨fun _ _ h => (nomatch h), fun _ _ _ => rfl⟩

/-- The next item is written. -/
theorem LapRing.write (h : LapRing ring initial slots history) (a : α) :
    LapRing ring initial (Function.update slots (history.length % ring) a) (history ++ [a]) := by
  constructor
  · intro k b hb hk
    rw [List.length_append, List.length_singleton] at hk
    rcases lt_trichotomy k history.length with hlt | heq | hgt
    · -- an item of the last lap has another slot
      have hne : k % ring ≠ history.length % ring := by
        intro hmod
        have hsub : (history.length - k) % ring = 0 :=
          Nat.sub_mod_eq_zero_of_mod_eq hmod.symm
        rw [Nat.mod_eq_of_lt (by omega)] at hsub
        omega
      rw [Function.update_of_ne hne]
      rw [List.getElem?_append_left hlt] at hb
      exact h.written k b hb (by omega)
    · rw [heq, Function.update_self]
      rw [heq, List.getElem?_append_right (le_refl _), Nat.sub_self] at hb
      exact Option.some.inj hb
    · rw [List.getElem?_eq_none (by simp; omega)] at hb
      cases hb
  · intro k hk hlength
    rw [List.length_append, List.length_singleton] at hlength
    have hne : k ≠ history.length % ring := by
      have hle := Nat.mod_le history.length ring
      omega
    rw [Function.update_of_ne hne]
    exact h.unwritten k hk (by omega)

/-- At an item that is written. -/
theorem LapRing.at_written (h : LapRing ring initial slots history) {k : ℕ}
    (hk : k < history.length) (hring : history.length ≤ k + ring) :
    history[k]? = some (slots (k % ring)) := by
  have hget := List.getElem?_eq_getElem hk
  rw [hget, h.written k _ hget hring]

/-- At the first item that is not written. -/
theorem LapRing.at_next (h : LapRing ring initial slots history) (hpos : 0 < ring) :
    (history.length < ring ∧ slots (history.length % ring) = initial history.length) ∨
    (ring ≤ history.length ∧
      history[history.length - ring]? = some (slots (history.length % ring))) := by
  rcases Nat.lt_or_ge history.length ring with hlt | hge
  · refine .inl ⟨hlt, ?_⟩
    rw [Nat.mod_eq_of_lt hlt]
    exact h.unwritten _ hlt (le_refl _)
  · refine .inr ⟨hge, ?_⟩
    have hold := h.at_written (k := history.length - ring) (by omega) (by omega)
    rwa [← Nat.mod_eq_sub_mod hge] at hold

/-- One lap later the parity is the other one. -/
theorem lapParity_add (hpos : 0 < ring) (k : ℕ) : lapParity ring (k + ring) = !lapParity ring k := by
  unfold lapParity
  rw [Nat.add_div_right k hpos]
  rcases Nat.mod_two_eq_zero_or_one (k / ring) with h | h
  · rw [h, show (k / ring).succ % 2 = 1 by omega]
    rfl
  · rw [h, show (k / ring).succ % 2 = 0 by omega]
    rfl

/-- A word that two laps divide has the parity of the counter. -/
theorem lapParity_mod {word : ℕ} (h : 2 * ring ∣ word) (k : ℕ) :
    lapParity ring (k % word) = lapParity ring k := by
  obtain ⟨m, rfl⟩ := h
  rcases Nat.eq_zero_or_pos ring with rfl | hpos
  · simp [lapParity]
  · unfold lapParity
    rw [Nat.mul_comm 2 ring, Nat.mul_assoc, Nat.mod_mul_right_div_self, Nat.mod_mul_right_mod]

end Lib
