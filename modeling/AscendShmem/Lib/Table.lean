import Mathlib

/-!
# Tables

A vector that a loop fills one index at a time is `tableOf n f`, the first `n` values of a
function; writing one entry updates the function.
-/

namespace Lib

/-- The first `n` entries of a function, as a vector. -/
def tableOf {α : Type} (n : ℕ) (f : ℕ → α) : List α := (List.range n).map f

@[simp] theorem length_tableOf {α : Type} (n : ℕ) (f : ℕ → α) : (tableOf n f).length = n := by
  simp [tableOf]

theorem getElem?_tableOf {α : Type} {n k : ℕ} {f : ℕ → α} (h : k < n) :
    (tableOf n f)[k]? = some (f k) := by
  simp [tableOf, List.getElem?_range h]

theorem tableOf_congr {α : Type} {n : ℕ} {f g : ℕ → α} (h : ∀ k < n, f k = g k) :
    tableOf n f = tableOf n g :=
  List.map_congr_left fun k hk => h k (List.mem_range.mp hk)

/-- A cell of a table is set. -/
theorem set_tableOf {α : Type} {n k : ℕ} {f : ℕ → α} (a : α) :
    (tableOf n f).set k a = tableOf n (Function.update f k a) := by
  apply List.ext_getElem?
  intro j
  rw [List.getElem?_set, length_tableOf]
  by_cases hj : j < n
  · rw [getElem?_tableOf hj, getElem?_tableOf hj]
    by_cases hkj : k = j
    · subst hkj
      simp [hj]
    · rw [if_neg hkj, Function.update_of_ne (Ne.symm hkj)]
  · rw [List.getElem?_eq_none (by simp; omega), List.getElem?_eq_none (by simp; omega)]
    by_cases hkj : k = j
    · rw [if_pos hkj, if_neg (by omega)]
    · rw [if_neg hkj]

theorem tableOf_succ {α : Type} (n : ℕ) (f : ℕ → α) : tableOf (n + 1) f = tableOf n f ++ [f n] := by
  rw [tableOf, List.range_succ, List.map_append]
  rfl

theorem replicate_eq_tableOf {α : Type} (n : ℕ) (a : α) :
    List.replicate n a = tableOf n fun _ => a := by
  simp [tableOf]

/-- Taking one more element of a list. -/
theorem take_succ_of_getElem? {α : Type} {l : List α} {k : ℕ} {a : α} (h : l[k]? = some a) :
    l.take (k + 1) = l.take k ++ [a] ∧ l = l.take k ++ a :: l.drop (k + 1) := by
  obtain ⟨hk, rfl⟩ := List.getElem?_eq_some_iff.mp h
  constructor
  · rw [List.take_add_one, h]
    rfl
  · rw [← List.drop_eq_getElem_cons hk, List.take_append_drop]

end Lib
