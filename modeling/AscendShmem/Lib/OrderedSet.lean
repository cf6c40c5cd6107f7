import Mathlib

/-!
# Ordered containers

`std::set` and `std::map` keep their elements in the order of a key and hold at most one element
for each key. An `OrderedSet key` is the list such a container iterates over. Two of them with the
same elements are equal, so an operation is determined by what it does to membership.
-/

namespace Lib

/-- The elements of an ordered container, in the order of their keys. -/
structure OrderedSet {α κ : Type*} [LinearOrder κ] (key : α → κ) where
  toList : List α
  sorted : toList.Pairwise fun a b => key a < key b

namespace OrderedSet

variable {α κ : Type*} [LinearOrder κ] {key : α → κ}

instance : Membership α (OrderedSet key) := ⟨fun s a => a ∈ s.toList⟩

theorem mem_def {s : OrderedSet key} {a : α} : a ∈ s ↔ a ∈ s.toList := Iff.rfl

instance [DecidableEq α] (s : OrderedSet key) (a : α) : Decidable (a ∈ s) :=
  inferInstanceAs (Decidable (a ∈ s.toList))

/-- A container holds one element for each key. -/
theorem eq_of_key {s : OrderedSet key} {a b : α} (ha : a ∈ s) (hb : b ∈ s)
    (h : key a = key b) : a = b := by
  obtain ⟨i, hi, rfl⟩ := List.getElem_of_mem ha
  obtain ⟨j, hj, rfl⟩ := List.getElem_of_mem hb
  have hpair := List.pairwise_iff_getElem.mp s.sorted
  rcases Nat.lt_trichotomy i j with hlt | rfl | hgt
  · exact absurd h (hpair i j hi hj hlt).ne
  · rfl
  · exact absurd h (hpair j i hj hi hgt).ne'

/-- No entry. -/
def empty : OrderedSet key := ⟨[], List.Pairwise.nil⟩

@[simp] theorem not_mem_empty (a : α) : a ∉ (empty : OrderedSet key) := List.not_mem_nil

/-! ## Searching -/

/-- The first element with a property. -/
def first (s : OrderedSet key) (p : α → Prop) [DecidablePred p] : Option α :=
  s.toList.find? fun a => p a

/-- The last element with a property. -/
def last (s : OrderedSet key) (p : α → Prop) [DecidablePred p] : Option α :=
  s.toList.reverse.find? fun a => p a

variable {s : OrderedSet key} {p : α → Prop} [DecidablePred p] {a : α} {k : κ}

/-- The first match of an ordered list is the least one. -/
theorem find?_of_pairwise {r : α → α → Prop} {l : List α} (hl : l.Pairwise r)
    (h : l.find? (fun a => p a) = some a) :
    a ∈ l ∧ p a ∧ ∀ b ∈ l, p b → b = a ∨ r a b := by
  induction l with
  | nil => cases h
  | cons c l ih =>
    obtain ⟨hc, hl⟩ := List.pairwise_cons.mp hl
    rw [List.find?_cons] at h
    by_cases hp : p c
    · obtain rfl : c = a := by simpa [hp] using h
      refine ⟨List.mem_cons_self, hp, fun b hb _ => ?_⟩
      rcases List.mem_cons.mp hb with rfl | hb
      · exact Or.inl rfl
      · exact Or.inr (hc b hb)
    · obtain ⟨ha, hpa, hmin⟩ := ih hl (by simpa [hp] using h)
      refine ⟨List.mem_cons_of_mem c ha, hpa, fun b hb hpb => ?_⟩
      rcases List.mem_cons.mp hb with rfl | hb
      · exact absurd hpb hp
      · exact hmin b hb hpb

theorem first_eq_none : s.first p = none ↔ ∀ a ∈ s, ¬ p a := by
  simp [first, mem_def]

theorem last_eq_none : s.last p = none ↔ ∀ a ∈ s, ¬ p a := by
  simp [last, mem_def]

/-- The first one is the least of those that satisfy `p`. -/
theorem first_eq_some : s.first p = some a ↔ a ∈ s ∧ p a ∧ ∀ b ∈ s, p b → key a ≤ key b := by
  have hof : ∀ c, s.first p = some c → c ∈ s ∧ p c ∧ ∀ b ∈ s, p b → key c ≤ key b := by
    intro c h
    obtain ⟨hc, hp, hmin⟩ := find?_of_pairwise s.sorted h
    refine ⟨hc, hp, fun b hb hpb => ?_⟩
    rcases hmin b hb hpb with rfl | hlt
    · exact le_refl _
    · exact hlt.le
  refine ⟨hof a, fun ⟨ha, hp, hmin⟩ => ?_⟩
  rcases hfirst : s.first p with _ | c
  · exact absurd hp (first_eq_none.mp hfirst a ha)
  · obtain ⟨hc, hpc, hminc⟩ := hof c hfirst
    rw [eq_of_key hc ha (le_antisymm (hminc a ha hp) (hmin c hc hpc))]

/-- The last one is the greatest of those that satisfy `p`. -/
theorem last_eq_some : s.last p = some a ↔ a ∈ s ∧ p a ∧ ∀ b ∈ s, p b → key b ≤ key a := by
  have hof : ∀ c, s.last p = some c → c ∈ s ∧ p c ∧ ∀ b ∈ s, p b → key b ≤ key c := by
    intro c h
    obtain ⟨hc, hp, hmax⟩ := find?_of_pairwise (List.pairwise_reverse.mpr s.sorted) h
    refine ⟨List.mem_reverse.mp hc, hp, fun b hb hpb => ?_⟩
    rcases hmax b (List.mem_reverse.mpr hb) hpb with rfl | hlt
    · exact le_refl _
    · exact hlt.le
  refine ⟨hof a, fun ⟨ha, hp, hmax⟩ => ?_⟩
  rcases hlast : s.last p with _ | c
  · exact absurd hp (last_eq_none.mp hlast a ha)
  · obtain ⟨hc, hpc, hmaxc⟩ := hof c hlast
    rw [eq_of_key hc ha (le_antisymm (hmax c hc hpc) (hmaxc a ha hp))]

/-- The element of a key. -/
def find (s : OrderedSet key) (k : κ) : Option α := s.first fun a => key a = k

theorem find_eq_some : s.find k = some a ↔ a ∈ s ∧ key a = k := by
  rw [find, first_eq_some]
  refine ⟨fun h => ⟨h.1, h.2.1⟩, fun h => ⟨h.1, h.2, fun b _ hb => ?_⟩⟩
  rw [h.2, hb]

theorem find_eq_none : s.find k = none ↔ ∀ a ∈ s, key a ≠ k := first_eq_none

/-- The first element whose key is not less than `k`. -/
def lowerBound (s : OrderedSet key) (k : κ) : Option α := s.first fun a => k ≤ key a

/-- The element before `lowerBound k`. -/
def before (s : OrderedSet key) (k : κ) : Option α := s.last fun a => key a < k

/-! ## Updating -/

/-- Erasing by key. -/
def erase (s : OrderedSet key) (k : κ) : OrderedSet key :=
  ⟨s.toList.filter fun a => key a ≠ k, s.sorted.filter _⟩

@[simp] theorem mem_erase : a ∈ s.erase k ↔ a ∈ s ∧ key a ≠ k := by
  simp [erase, mem_def]

/-- The elements below a key, the new one, the elements above: what `emplace` makes of a container
that has no element of that key. An element that is there already stays. -/
def emplace (s : OrderedSet key) (a : α) : OrderedSet key :=
  if s.find (key a) = none then
    ⟨s.toList.filter (fun b => key b < key a) ++ a :: s.toList.filter (fun b => key a < key b), by
      refine List.pairwise_append.mpr ⟨s.sorted.filter _, List.pairwise_cons.mpr
        ⟨fun b hb => of_decide_eq_true (List.mem_filter.mp hb).2, s.sorted.filter _⟩, ?_⟩
      intro b hb c hc
      have hba : key b < key a := of_decide_eq_true (List.mem_filter.mp hb).2
      rcases List.mem_cons.mp hc with rfl | hc
      · exact hba
      · exact hba.trans (of_decide_eq_true (List.mem_filter.mp hc).2)⟩
  else s

/-- A new key is added. -/
theorem mem_emplace (h : ∀ b ∈ s, key b ≠ key a) {b : α} : b ∈ s.emplace a ↔ b = a ∨ b ∈ s := by
  rw [emplace, if_pos (find_eq_none.mpr h)]
  simp only [mem_def, List.mem_append, List.mem_filter, List.mem_cons, decide_eq_true_eq]
  constructor
  · rintro (⟨hb, -⟩ | rfl | ⟨hb, -⟩)
    · exact Or.inr hb
    · exact Or.inl rfl
    · exact Or.inr hb
  · rintro (rfl | hb)
    · exact Or.inr (Or.inl rfl)
    · rcases lt_or_gt_of_ne (h b hb) with hlt | hgt
      · exact Or.inl ⟨hb, hlt⟩
      · exact Or.inr (Or.inr ⟨hb, hgt⟩)

theorem emplace_of_mem (h : ∃ b ∈ s, key b = key a) : s.emplace a = s := by
  obtain ⟨b, hb, hkey⟩ := h
  rw [emplace, if_neg]
  intro hnone
  exact find_eq_none.mp hnone b hb hkey

/-- `emplace` of a new key adds the element. -/
theorem perm_emplace (h : s.find (key a) = none) : (s.emplace a).toList.Perm (a :: s.toList) := by
  rw [emplace, if_pos h]
  have hnone := find_eq_none.mp h
  have hlow : s.toList.filter (fun b => key a < key b)
      = s.toList.filter fun b => ! decide (key b < key a) := by
    apply List.filter_congr
    intro b hb
    rcases lt_or_gt_of_ne (hnone b hb) with hlt | hgt
    · simp [hlt, hlt.le]
    · simp [hgt, hgt.le]
  apply List.perm_middle.trans
  rw [hlow]
  exact (List.filter_append_perm (fun b => decide (key b < key a)) s.toList).cons a

/-- `erase` takes the element of the key away. -/
theorem perm_erase (h : a ∈ s) : s.toList.Perm (a :: (s.erase (key a)).toList) := by
  have hself : s.toList.filter (fun b => key b = key a) = [a] := by
    obtain ⟨pre, post, hsplit⟩ := List.append_of_mem h
    have hsorted := s.sorted
    rw [hsplit, List.pairwise_append, List.pairwise_cons] at hsorted
    have hpre : pre.filter (fun b => key b = key a) = [] := by
      rw [List.filter_eq_nil_iff]
      intro b hb
      simpa using (hsorted.2.2 b hb a List.mem_cons_self).ne
    have hpost : post.filter (fun b => key b = key a) = [] := by
      rw [List.filter_eq_nil_iff]
      intro b hb
      simpa using (hsorted.2.1.1 b hb).ne'
    rw [hsplit, List.filter_append, List.filter_cons_of_pos (by simp), hpre, hpost]
    rfl
  have hsplit := List.filter_append_perm (fun b => decide (key b = key a)) s.toList
  rw [hself] at hsplit
  have hrest : (s.erase (key a)).toList
      = s.toList.filter fun b => ! decide (key b = key a) := by
    apply List.filter_congr
    intro b _
    simp
  rw [hrest]
  exact hsplit.symm

/-- The element takes the place of the one that has its key: an assignment through `operator[]`. -/
def assign (s : OrderedSet key) (a : α) : OrderedSet key := (s.erase (key a)).emplace a

@[simp] theorem mem_assign {b : α} : b ∈ s.assign a ↔ b = a ∨ b ∈ s ∧ key b ≠ key a := by
  rw [assign, mem_emplace fun c hc => (mem_erase.mp hc).2, mem_erase]

/-- The new entry is found under its key. -/
theorem find_assign (k : κ) : (s.assign a).find k = if key a = k then some a else s.find k := by
  by_cases hk : key a = k
  · rw [if_pos hk]
    exact find_eq_some.mpr ⟨mem_assign.mpr (Or.inl rfl), hk⟩
  · rw [if_neg hk]
    rcases hfind : s.find k with _ | b
    · refine find_eq_none.mpr fun b hb => ?_
      rcases mem_assign.mp hb with rfl | ⟨hb, -⟩
      · exact hk
      · exact find_eq_none.mp hfind b hb
    · obtain ⟨hb, rfl⟩ := find_eq_some.mp hfind
      exact find_eq_some.mpr ⟨mem_assign.mpr (Or.inr ⟨hb, fun heq => hk heq.symm⟩), rfl⟩

/-- An element with a key above all others comes last. -/
theorem toList_assign_of_lt (h : ∀ b ∈ s, key b < key a) :
    (s.assign a).toList = s.toList ++ [a] := by
  have herase : (s.erase (key a)).toList = s.toList :=
    List.filter_eq_self.mpr fun b hb => by simpa using (h b hb).ne
  have hnone : (s.erase (key a)).find (key a) = none :=
    find_eq_none.mpr fun b hb => (mem_erase.mp hb).2
  rw [assign, emplace, if_pos hnone]
  simp only [herase]
  rw [List.filter_eq_self.mpr fun b hb => by simpa using h b hb,
    List.filter_eq_nil_iff.mpr fun b hb => by simpa using (h b hb).le]

/-! ## Ranges -/

/-- The elements from `lower_bound(lo)` on whose keys are below `hi`. -/
def range (s : OrderedSet key) (lo hi : κ) : List α :=
  (s.toList.dropWhile fun a => key a < lo).takeWhile fun a => key a < hi

/-- Erasing these elements. -/
def eraseRange (s : OrderedSet key) (lo hi : κ) : OrderedSet key :=
  ⟨(s.toList.takeWhile fun a => key a < lo) ++
    (s.toList.dropWhile fun a => key a < lo).dropWhile fun a => key a < hi, by
    have hsub : ((s.toList.takeWhile fun a => decide (key a < lo)) ++
        (s.toList.dropWhile fun a => decide (key a < lo)).dropWhile fun a => decide (key a < hi)).Sublist
        ((s.toList.takeWhile fun a => decide (key a < lo)) ++
          s.toList.dropWhile fun a => decide (key a < lo)) :=
      (List.Sublist.refl _).append (List.dropWhile_sublist _)
    rw [List.takeWhile_append_dropWhile] at hsub
    exact s.sorted.sublist hsub⟩

/-- In a list in the order of its keys, the elements below a key come first. -/
theorem takeWhile_of_pairwise {l : List α} (hl : l.Pairwise fun a b => key a < key b) (k : κ) :
    l.takeWhile (fun a => key a < k) = l.filter (fun a => key a < k) ∧
    l.dropWhile (fun a => key a < k) = l.filter (fun a => ¬ key a < k) := by
  induction l with
  | nil => exact ⟨rfl, rfl⟩
  | cons a l ih =>
    obtain ⟨hhead, htail⟩ := List.pairwise_cons.mp hl
    by_cases ha : key a < k
    · simpa [ha] using ih htail
    · have hlater : ∀ b ∈ a :: l, ¬ key b < k := by
        intro b hb
        rcases List.mem_cons.mp hb with rfl | hb
        · exact ha
        · exact not_lt.mpr ((not_lt.mp ha).trans (hhead b hb).le)
      rw [List.takeWhile_cons_of_neg (by simpa using ha), List.dropWhile_cons_of_neg (by simpa using ha),
        List.filter_eq_nil_iff.mpr fun b hb => by simpa using hlater b hb,
        List.filter_eq_self.mpr fun b hb => by simpa using hlater b hb]
      exact ⟨rfl, rfl⟩

/-- The entries between two keys. -/
theorem range_eq (s : OrderedSet key) (lo hi : κ) :
    s.range lo hi = s.toList.filter fun a => lo ≤ key a ∧ key a < hi := by
  rw [range, (takeWhile_of_pairwise s.sorted lo).2,
    (takeWhile_of_pairwise (s.sorted.filter _) hi).1, List.filter_filter]
  refine List.filter_congr fun a _ => ?_
  rw [Bool.decide_and, Bool.and_comm]
  simp

/-- The entries not between two keys. -/
theorem eraseRange_eq (s : OrderedSet key) (lo hi : κ) :
    (s.eraseRange lo hi).toList = s.toList.filter fun a => ¬ (lo ≤ key a ∧ key a < hi) := by
  have hsplit : s.toList.filter (fun a => ¬ (lo ≤ key a ∧ key a < hi))
      = (s.toList.takeWhile fun a => key a < lo).filter (fun a => ¬ (lo ≤ key a ∧ key a < hi)) ++
        (s.toList.dropWhile fun a => key a < lo).filter fun a => ¬ (lo ≤ key a ∧ key a < hi) := by
    rw [← List.filter_append, List.takeWhile_append_dropWhile]
  rw [hsplit, eraseRange]
  simp only [(takeWhile_of_pairwise s.sorted lo).1, (takeWhile_of_pairwise s.sorted lo).2,
    (takeWhile_of_pairwise (s.sorted.filter _) hi).2, List.filter_filter]
  congr 1 <;> refine List.filter_congr fun a _ => ?_
  · rcases lt_or_ge (key a) lo with h | h
    · simp [h]
    · simp [h]
  · rcases lt_or_ge (key a) lo with h | h
    · simp [h]
    · simp [h]

/-- A range and what its erasure leaves are the set. -/
theorem perm_range (s : OrderedSet key) (lo hi : κ) :
    s.toList.Perm (s.range lo hi ++ (s.eraseRange lo hi).toList) := by
  have hsplit : s.toList = (s.toList.takeWhile fun a => decide (key a < lo)) ++
      (s.range lo hi ++
        (s.toList.dropWhile fun a => decide (key a < lo)).dropWhile fun a => decide (key a < hi)) := by
    rw [range, List.takeWhile_append_dropWhile, List.takeWhile_append_dropWhile]
  nth_rewrite 1 [hsplit]
  rw [eraseRange, ← List.append_assoc, ← List.append_assoc]
  exact List.perm_append_comm.append_right _

end OrderedSet

end Lib
