import Mathlib

/-!
# Seen flags

A loop that refuses repeated keys keeps one flag per key. `flagsOf n l` is the flag vector
after the keys of `l`; such a loop goes through exactly when its keys are `OnceBelow n`, all
below `n` and all different. Loops over several lists compare the flags of each with those of the
first (`SameFlags`).
-/

namespace Lib

/-- The flags of `n` keys after the keys in `l` have been marked. -/
def flagsOf (n : ℕ) (l : List ℕ) : List Bool := (List.range n).map fun i => decide (i ∈ l)

@[simp] theorem length_flagsOf (n : ℕ) (l : List ℕ) : (flagsOf n l).length = n := by
  simp [flagsOf]

theorem flagsOf_nil (n : ℕ) : flagsOf n [] = List.replicate n false := by
  simp [flagsOf]

theorem getElem?_flagsOf {n i : ℕ} {l : List ℕ} (h : i < n) :
    (flagsOf n l)[i]? = some (decide (i ∈ l)) := by
  simp [flagsOf, List.getElem?_range h]

/-- Setting a flag is visiting its index. -/
theorem set_flagsOf (n i : ℕ) (l : List ℕ) :
    (flagsOf n l).set i true = flagsOf n (l ++ [i]) := by
  apply List.ext_getElem?
  intro j
  rw [List.getElem?_set, length_flagsOf]
  by_cases hj : j < n
  · rw [getElem?_flagsOf hj, getElem?_flagsOf hj]
    by_cases hij : i = j
    · simp [hij, hj]
    · have hji : j ≠ i := fun h => hij h.symm
      simp [hij, hji]
  · rw [List.getElem?_eq_none (by simp; omega), List.getElem?_eq_none (by simp; omega)]
    by_cases hij : i = j
    · rw [if_pos hij, if_neg (by omega)]
    · rw [if_neg hij]

/-- Two flag vectors are equal when the same keys are marked. -/
theorem flagsOf_eq_iff {n : ℕ} {l m : List ℕ} :
    flagsOf n l = flagsOf n m ↔ ∀ i < n, i ∈ l ↔ i ∈ m := by
  simp [flagsOf]

/-- A list without repetitions of keys below `n` is at most `n` long. -/
theorem length_le_of_nodup {n : ℕ} {l : List ℕ} (hlt : ∀ i ∈ l, i < n) (hnd : l.Nodup) :
    l.length ≤ n := by
  have h : l.toFinset ⊆ Finset.range n := fun i hi => by
    rw [Finset.mem_range]
    exact hlt i (List.mem_toFinset.mp hi)
  have hc := Finset.card_le_card h
  rwa [List.toFinset_card_of_nodup hnd, Finset.card_range] at hc

/-- `n` keys below `n` without repetitions are all the keys. -/
theorem perm_range_of_nodup {n : ℕ} {l : List ℕ} (hlt : ∀ i ∈ l, i < n) (hnd : l.Nodup)
    (hlen : l.length = n) : l.Perm (List.range n) := by
  have hsub : l ⊆ List.range n := fun i hi => List.mem_range.mpr (hlt i hi)
  exact (List.subperm_of_subset hnd hsub).perm_of_length_le (by simp [hlen])

/-- Keys below `n` that are all different. -/
def OnceBelow (n : ℕ) (l : List ℕ) : Prop := (∀ i ∈ l, i < n) ∧ l.Nodup

theorem OnceBelow.append_left {n : ℕ} {l m : List ℕ} (h : OnceBelow n (l ++ m)) :
    OnceBelow n l :=
  ⟨fun i hi => h.1 i (List.mem_append_left m hi), h.2.of_append_left⟩

/-- One more index is below the bound and new. -/
theorem onceBelow_append_singleton {n k : ℕ} {l : List ℕ} :
    OnceBelow n (l ++ [k]) ↔ OnceBelow n l ∧ k < n ∧ k ∉ l := by
  constructor
  · intro h
    refine ⟨h.append_left, h.1 k (by simp), ?_⟩
    intro hk
    exact (List.disjoint_of_nodup_append h.2) hk (by simp)
  · rintro ⟨⟨hlt, hnd⟩, hk, hm⟩
    constructor
    · intro i hi
      rcases List.mem_append.mp hi with h | h
      · exact hlt i h
      · rw [List.mem_singleton.mp h]
        exact hk
    · rw [List.nodup_append]
      refine ⟨hnd, List.nodup_singleton k, ?_⟩
      rintro a ha b hb rfl
      exact hm (List.mem_singleton.mp hb ▸ ha)

theorem onceBelow_nil (n : ℕ) : OnceBelow n [] := ⟨by simp, List.nodup_nil⟩

/-- As many flags are set as keys have been marked. -/
theorem count_flagsOf {n : ℕ} {l : List ℕ} (h : OnceBelow n l) :
    (flagsOf n l).count true = l.length := by
  have hperm : ((List.range n).filter fun i => decide (i ∈ l)).Perm l := by
    rw [List.perm_ext_iff_of_nodup (List.nodup_range.filter _) h.2]
    intro i
    rw [List.mem_filter, List.mem_range, decide_eq_true_eq]
    exact ⟨And.right, fun hi => ⟨h.1 i hi, hi⟩⟩
  rw [flagsOf, List.count, List.countP_map, ← hperm.length_eq, List.countP_eq_length_filter]
  congr 2
  funext i
  simp

/-- The one element of a key among elements of different keys. -/
theorem filter_key_eq {α : Type} {key : α → ℕ} {l : List α} (h : (l.map key).Nodup) {a : α}
    (ha : a ∈ l) : l.filter (fun b => key b = key a) = [a] := by
  induction l with
  | nil => cases ha
  | cons b l ih =>
    rw [List.map_cons, List.nodup_cons] at h
    rcases List.mem_cons.mp ha with rfl | hmem
    · have hnone : l.filter (fun b => key b = key a) = [] := by
        rw [List.filter_eq_nil_iff]
        intro b hb heq
        exact h.1 (List.mem_map.mpr ⟨b, hb, of_decide_eq_true heq⟩)
      rw [List.filter_cons_of_pos (by simp), hnone]
    · have hne : key b ≠ key a := fun heq => h.1 (heq ▸ List.mem_map.mpr ⟨a, hmem, rfl⟩)
      rw [List.filter_cons_of_neg (by simpa using hne)]
      exact ih h.2 hmem

/-! ## Lists that mark the same flags -/

/-- Every list has its keys once, and all lists mark the same of `n` keys. -/
def SameFlags (n : ℕ) (L : List (List ℕ)) : Prop :=
  ∀ l ∈ L, l.Nodup ∧ flagsOf n l = flagsOf n (L.headD [])

instance (n : ℕ) (L : List (List ℕ)) : Decidable (SameFlags n L) :=
  inferInstanceAs (Decidable (∀ l ∈ L, _))

theorem sameFlags_nil (n : ℕ) : SameFlags n [] := by
  intro l hl
  cases hl

theorem sameFlags_singleton {n : ℕ} {l : List ℕ} : SameFlags n [l] ↔ l.Nodup := by
  simp [SameFlags]

/-- A later list is compared with the first one. -/
theorem sameFlags_concat {n : ℕ} {L : List (List ℕ)} {l : List ℕ} (h : L ≠ []) :
    SameFlags n (L ++ [l]) ↔
      SameFlags n L ∧ l.Nodup ∧ flagsOf n l = flagsOf n (L.headD []) := by
  unfold SameFlags
  rw [List.forall_mem_append, List.forall_mem_singleton]
  cases L with
  | nil => exact absurd rfl h
  | cons a L => rfl

theorem SameFlags.left {n : ℕ} {L : List (List ℕ)} {l : List ℕ} (h : SameFlags n (L ++ [l])) :
    SameFlags n L := by
  cases L with
  | nil => exact sameFlags_nil n
  | cons a L => exact ((sameFlags_concat (List.cons_ne_nil a L)).mp h).1

/-- Lists with the same keys mark the same flags. -/
theorem sameFlags_of_same {n : ℕ} {L : List (List ℕ)}
    (h : ∀ l ∈ L, l.Nodup ∧ ∀ m ∈ L, ∀ i, i ∈ l ↔ i ∈ m) : SameFlags n L := by
  intro l hl
  refine ⟨(h l hl).1, ?_⟩
  cases L with
  | nil => cases hl
  | cons a L =>
    apply flagsOf_eq_iff.mpr
    intro i _
    exact (h l hl).2 a List.mem_cons_self i

/-- When all keys are below `n`, equal flags are equal sets of keys. -/
theorem sameFlags_iff {n : ℕ} {L : List (List ℕ)} (h : ∀ l ∈ L, ∀ i ∈ l, i < n) :
    SameFlags n L ↔ ∀ l ∈ L, l.Nodup ∧ ∀ m ∈ L, ∀ i, i ∈ l ↔ i ∈ m := by
  constructor
  · intro hall l hl
    refine ⟨(hall l hl).1, ?_⟩
    intro m hm i
    have hflags := flagsOf_eq_iff.mp ((hall l hl).2.trans (hall m hm).2.symm)
    by_cases hi : i < n
    · exact hflags i hi
    · exact iff_of_false (fun hmem => hi (h l hl i hmem)) fun hmem => hi (h m hm i hmem)
  · exact sameFlags_of_same

end Lib
