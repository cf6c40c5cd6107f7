import Mathlib
import AscendShmem.Lib.Alloc

/-!
# Dense pairs

`grid n f` enumerates the pairs `(i, j)` with `i < n` and `j < f i` in lexicographic order: the
rows of `n` ranks. Sorting entries by such pairs gives back the grid exactly when their keys are
the pairs of the grid in any order (`sort_eq_grid_iff`), and the entry behind the pairs before
`(i, j)` then has key `(i, j)` (`grid_split`).
-/

namespace Lib

variable {α : Type}

/-- The lexicographic order on pairs. -/
def Precedes (p q : ℕ × ℕ) : Prop := p.1 < q.1 ∨ p.1 = q.1 ∧ p.2 < q.2

theorem Precedes.trans {p q r : ℕ × ℕ} (h : Precedes p q) (h' : Precedes q r) : Precedes p r := by
  unfold Precedes at *
  omega

theorem Precedes.irrefl (p : ℕ × ℕ) : ¬ Precedes p p := by
  unfold Precedes
  omega

theorem precedes_antisymm {p q : ℕ × ℕ} (h : ¬ Precedes q p) (h' : ¬ Precedes p q) : p = q := by
  unfold Precedes at *
  ext <;> omega

/-- The pairs `(i, j)` with `i < n` and `j < f i`, in order. -/
def grid (n : ℕ) (f : ℕ → ℕ) : List (ℕ × ℕ) :=
  (List.range n).flatMap fun i => (List.range (f i)).map fun j => (i, j)

/-- The grid holds the pairs below both bounds. -/
theorem mem_grid {n : ℕ} {f : ℕ → ℕ} {p : ℕ × ℕ} : p ∈ grid n f ↔ p.1 < n ∧ p.2 < f p.1 := by
  rw [grid, List.mem_flatMap]
  constructor
  · rintro ⟨i, hi, hp⟩
    obtain ⟨j, hj, rfl⟩ := List.mem_map.mp hp
    exact ⟨List.mem_range.mp hi, List.mem_range.mp hj⟩
  · rintro ⟨hn, hf⟩
    exact ⟨p.1, List.mem_range.mpr hn, List.mem_map.mpr ⟨p.2, List.mem_range.mpr hf, rfl⟩⟩

theorem grid_succ (n : ℕ) (f : ℕ → ℕ) :
    grid (n + 1) f = grid n f ++ (List.range (f n)).map fun j => (n, j) := by
  rw [grid, List.range_succ, List.flatMap_append]
  simp [grid]

theorem length_grid_succ (n : ℕ) (f : ℕ → ℕ) :
    (grid (n + 1) f).length = (grid n f).length + f n := by
  simp [grid_succ]

/-- A rank's pairs are in the grid with those of the ranks before it. -/
theorem length_grid_add_le {n i : ℕ} {f : ℕ → ℕ} (h : i < n) :
    (grid i f).length + f i ≤ (grid n f).length := by
  induction n with
  | zero => omega
  | succ n ih =>
    rw [length_grid_succ]
    rcases Nat.lt_succ_iff_lt_or_eq.mp h with hin | rfl
    · have := ih hin
      omega
    · exact le_refl _

/-- The grid is in order. -/
theorem pairwise_grid (n : ℕ) (f : ℕ → ℕ) : (grid n f).Pairwise Precedes := by
  induction n with
  | zero => exact List.Pairwise.nil
  | succ n ih =>
    rw [grid_succ, List.pairwise_append]
    refine ⟨ih, ?_, ?_⟩
    · rw [List.pairwise_map]
      exact List.pairwise_lt_range.imp fun h => Or.inr ⟨rfl, h⟩
    · intro p hp q hq
      obtain ⟨j, -, rfl⟩ := List.mem_map.mp hq
      exact Or.inl (mem_grid.mp hp).1

theorem nodup_grid (n : ℕ) (f : ℕ → ℕ) : (grid n f).Nodup := by
  refine (pairwise_grid n f).imp ?_
  rintro p _ h rfl
  exact Precedes.irrefl p h

theorem grid_congr {n : ℕ} {f g : ℕ → ℕ} (h : ∀ i < n, f i = g i) : grid n f = grid n g := by
  rw [grid, grid, List.flatMap_def, List.flatMap_def,
    List.map_congr_left fun i hi => by rw [h i (List.mem_range.mp hi)]]

/-- One more pair at some ranks. -/
theorem grid_add_perm (n : ℕ) (f : ℕ → ℕ) (p : ℕ → Prop) [DecidablePred p] :
    (grid n fun i => f i + if p i then 1 else 0).Perm
      (grid n f ++ (List.range n).flatMap fun i => if p i then [(i, f i)] else []) := by
  induction n with
  | zero => exact List.Perm.nil
  | succ n ih =>
    rw [grid_succ, grid_succ, List.range_succ, List.flatMap_append, List.flatMap_singleton]
    have hrow : (List.range (f n + if p n then 1 else 0)).map (fun j => (n, j))
        = (List.range (f n)).map (fun j => (n, j)) ++ if p n then [(n, f n)] else [] := by
      by_cases hp : p n
      · simp [hp, List.range_succ]
      · simp [hp]
    rw [hrow]
    refine (ih.append_right _).trans ?_
    rw [List.append_assoc, List.append_assoc]
    refine List.Perm.append_left _ ?_
    rw [← List.append_assoc, ← List.append_assoc]
    exact List.perm_append_comm.append_right _

/-- The grid up to a pair, the pair, and the rest. -/
theorem grid_split {n i j : ℕ} {f : ℕ → ℕ} (hi : i < n) (hj : j < f i) :
    ∃ post, grid n f = (grid i f ++ (List.range j).map fun j => (i, j)) ++ (i, j) :: post := by
  induction n with
  | zero => omega
  | succ n ih =>
    rw [grid_succ]
    rcases Nat.lt_succ_iff_lt_or_eq.mp hi with hin | rfl
    · obtain ⟨post, hpost⟩ := ih hin
      exact ⟨post ++ (List.range (f n)).map fun j => (n, j), by rw [hpost]; simp⟩
    · have hf : f i = j + (1 + (f i - j - 1)) := by omega
      refine ⟨(List.range' (j + 1) (f i - j - 1)).map fun j => (i, j), ?_⟩
      rw [List.append_assoc]
      congr 1
      rw [List.range_eq_range', List.range_eq_range', hf, ← List.range'_append_1,
        ← List.range'_append_1, List.map_append, List.map_append]
      simp

/-- The entry of the grid behind the pairs before `(i, j)`. -/
theorem getElem?_grid {n i j : ℕ} {f : ℕ → ℕ} (hi : i < n) (hj : j < f i) :
    (grid n f)[(grid i f).length + j]? = some (i, j) := by
  obtain ⟨post, hpost⟩ := grid_split hi hj
  rw [hpost, List.getElem?_append_right (by simp)]
  simp

/-- A pair stands behind the pairs of the ranks before its own. -/
theorem grid_position {n k : ℕ} {f : ℕ → ℕ} {p : ℕ × ℕ} (h : (grid n f)[k]? = some p) :
    p.1 < n ∧ p.2 < f p.1 ∧ k = (grid p.1 f).length + p.2 := by
  obtain ⟨hi, hj⟩ := mem_grid.mp (List.mem_of_getElem? h)
  refine ⟨hi, hj, ?_⟩
  have hk := (List.getElem?_eq_some_iff.mp h).1
  exact (List.getElem?_inj hk (nodup_grid n f)).mp (h.trans (getElem?_grid hi hj).symm)

/-- Sorting by a comparison of keys sorts by the keys. -/
theorem pairwise_insertionSort_key {before : α → α → Prop} {key : α → ℕ × ℕ}
    [DecidableRel fun a b => ¬ before b a]
    (h : ∀ a b, before a b ↔ Precedes (key a) (key b)) (l : List α) :
    (l.insertionSort fun a b => ¬ before b a).Pairwise fun a b =>
      ¬ Precedes (key b) (key a) := by
  have : Std.Total fun a b => ¬ before b a := ⟨fun a b => by
    rw [h, h]
    unfold Precedes
    omega⟩
  have : IsTrans α fun a b => ¬ before b a := ⟨fun a b c => by
    rw [h, h, h]
    unfold Precedes
    omega⟩
  refine (List.pairwise_insertionSort (fun a b => ¬ before b a) l).imp ?_
  intro a b hab hba
  exact hab ((h b a).mpr hba)

/-- A list sorted by pairs has the keys of a grid in order exactly when it has them at all. -/
theorem sort_eq_grid_iff {key : α → ℕ × ℕ} {l : List α} {n : ℕ} {f : ℕ → ℕ}
    (hsorted : l.Pairwise fun a b => ¬ Precedes (key b) (key a)) :
    l.map key = grid n f ↔ (l.map key).Perm (grid n f) := by
  constructor
  · intro h
    rw [h]
  · intro h
    refine List.Perm.eq_of_pairwise (fun p q _ _ (hpq : ¬ Precedes q p) (hqp : ¬ Precedes p q) =>
      precedes_antisymm hpq hqp) ?_ ?_ h
    · rwa [List.pairwise_map]
    · refine (pairwise_grid n f).imp ?_
      intro p q hpq hqp
      exact Precedes.irrefl p (hpq.trans hqp)

/-- The entries of a sorted list with the largest first component come last. -/
theorem filter_lt_append_filter_eq {key : α → ℕ × ℕ} {l : List α} {n : ℕ}
    (hsorted : l.Pairwise fun a b => ¬ Precedes (key b) (key a))
    (hlt : ∀ a ∈ l, (key a).1 < n + 1) :
    (l.filter fun a => (key a).1 < n) ++ (l.filter fun a => (key a).1 = n) = l := by
  induction l with
  | nil => rfl
  | cons a l ih =>
    obtain ⟨hhead, htail⟩ := List.pairwise_cons.mp hsorted
    have hrest := ih htail fun b hb => hlt b (List.mem_cons_of_mem a hb)
    have ha := hlt a List.mem_cons_self
    rcases Nat.lt_succ_iff_lt_or_eq.mp ha with hlow | heq
    · rw [List.filter_cons_of_pos (by simpa using hlow), List.filter_cons_of_neg (by simp; omega),
        List.cons_append, hrest]
    · have hnone : l.filter (fun b => decide ((key b).1 < n)) = [] := by
        rw [List.filter_eq_nil_iff]
        intro b hb hlow
        have hb1 := of_decide_eq_true hlow
        exact hhead b hb (Or.inl (by omega))
      rw [hnone, List.nil_append] at hrest
      rw [List.filter_cons_of_neg (by simp; omega), hnone,
        List.filter_cons_of_pos (by simpa using heq), hrest, List.nil_append]

/-- A list sorted by pairs is the concatenation of its blocks of one first component. -/
theorem flatMap_blocks {key : α → ℕ × ℕ} {l : List α} {n : ℕ}
    (hsorted : l.Pairwise fun a b => ¬ Precedes (key b) (key a)) (hlt : ∀ a ∈ l, (key a).1 < n) :
    (List.range n).flatMap (fun i => l.filter fun a => (key a).1 = i) = l := by
  induction n generalizing l with
  | zero =>
    cases l with
    | nil => rfl
    | cons a l => exact absurd (hlt a List.mem_cons_self) (by omega)
  | succ n ih =>
    have hlow := ih (hsorted.filter fun a => decide ((key a).1 < n))
      fun a ha => of_decide_eq_true (List.mem_filter.mp ha).2
    have hblock : ∀ i ∈ List.range n, (l.filter fun a => decide ((key a).1 = i))
        = (l.filter fun a => decide ((key a).1 < n)).filter fun a => decide ((key a).1 = i) := by
      intro i hi
      have hin := List.mem_range.mp hi
      rw [List.filter_filter]
      refine List.filter_congr fun a _ => ?_
      by_cases hkey : (key a).1 = i
      · simp [hkey, hin]
      · simp [hkey]
    rw [List.range_succ, List.flatMap_append, List.flatMap_singleton, List.flatMap_def,
      List.map_congr_left hblock, ← List.flatMap_def, hlow,
      filter_lt_append_filter_eq hsorted hlt]

/-- One row of the grid. -/
theorem filter_grid {n i : ℕ} {f : ℕ → ℕ} (h : i < n) :
    (grid n f).filter (fun p => p.1 = i) = (List.range (f i)).map fun j => (i, j) := by
  induction n with
  | zero => omega
  | succ n ih =>
    rw [grid_succ, List.filter_append, List.filter_map]
    rcases Nat.lt_succ_iff_lt_or_eq.mp h with hin | rfl
    · have hne : n ≠ i := by omega
      rw [ih hin]
      simp [Function.comp_def, hne]
    · have hnone : (grid i f).filter (fun p => decide (p.1 = i)) = [] := by
        rw [List.filter_eq_nil_iff]
        intro p hp heq
        have hlt := (mem_grid.mp hp).1
        have := of_decide_eq_true heq
        omega
      rw [hnone]
      simp [Function.comp_def]

/-- The keys of a sorted list are a grid when the keys of every block are a row of it. -/
theorem map_eq_grid_iff_blocks {key : α → ℕ × ℕ} {l : List α} {n : ℕ} {f : ℕ → ℕ}
    (hsorted : l.Pairwise fun a b => ¬ Precedes (key b) (key a)) (hlt : ∀ a ∈ l, (key a).1 < n) :
    l.map key = grid n f ↔ ∀ i < n, (l.filter fun a => (key a).1 = i).map key
      = (List.range (f i)).map fun j => (i, j) := by
  constructor
  · intro h i hi
    rw [← filter_grid hi, ← h, List.filter_map]
    rfl
  · intro h
    conv_lhs => rw [← flatMap_blocks hsorted hlt]
    rw [List.map_flatMap, grid, List.flatMap_def, List.flatMap_def]
    exact congrArg _ (List.map_congr_left fun i hi => h i (List.mem_range.mp hi))

end Lib
