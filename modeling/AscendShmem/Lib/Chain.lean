import Mathlib
import AscendShmem.Lib.Flags

/-!
# Chains

The indices below `n` fall into groups by a key, and `members` lists a group in increasing
order. A list threaded through an array of links is `Linked`. A loop that runs down from `n` and
puts every index before the chain of its key ends with the members of every key linked in
increasing order (`linked_members`), and these chains partition the indices
(`members_partition`). Conversely, chains with different keys that are long enough to reach
`n` indices reach each of them once (`partition_of_length`).
-/

namespace Lib

variable {α : Type}

/-- The indices from `k` on, below `n`, with key `a`. -/
def members (key : ℕ → ℕ) (n a k : ℕ) : List ℕ :=
  (List.range' k (n - k)).filter fun i => key i = a

/-- The members of `a` from `k` on. -/
theorem mem_members {key : ℕ → ℕ} {n a k i : ℕ} :
    i ∈ members key n a k ↔ k ≤ i ∧ i < n ∧ key i = a := by
  rw [members, List.mem_filter, List.mem_range'_1, decide_eq_true_iff]
  constructor
  · rintro ⟨⟨hk, hn⟩, ha⟩
    exact ⟨hk, by omega, ha⟩
  · rintro ⟨hk, hn, ha⟩
    exact ⟨⟨hk, by omega⟩, ha⟩

theorem members_of_le {key : ℕ → ℕ} {n a k : ℕ} (h : n ≤ k) : members key n a k = [] := by
  rw [members, Nat.sub_eq_zero_of_le h]
  rfl

/-- An index comes before the members of its key behind it. -/
theorem members_of_lt {key : ℕ → ℕ} {n a k : ℕ} (h : k < n) :
    members key n a k
      = if key k = a then k :: members key n a (k + 1) else members key n a (k + 1) := by
  have hsub : n - k = (n - (k + 1)) + 1 := by omega
  rw [members, hsub, List.range'_succ, List.filter_cons]
  simp only [decide_eq_true_eq]
  rfl

/-- Raising the bound adds the new index behind the members. -/
theorem members_succ {key : ℕ → ℕ} {n a k : ℕ} (h : k ≤ n) :
    members key (n + 1) a k = members key n a k ++ if key n = a then [n] else [] := by
  have hsub : n + 1 - k = (n - k) + 1 := by omega
  rw [members, hsub, List.range'_concat, List.filter_append, Nat.one_mul, Nat.add_sub_cancel' h,
    ← members, List.filter_singleton]
  by_cases hn : key n = a <;> simp [hn]

theorem pairwise_members (key : ℕ → ℕ) (n a k : ℕ) : (members key n a k).Pairwise (· < ·) :=
  (List.pairwise_lt_range' 1 one_pos).filter _

theorem nodup_members (key : ℕ → ℕ) (n a k : ℕ) : (members key n a k).Nodup :=
  (pairwise_members key n a k).imp fun h => Nat.ne_of_lt h

/-- The entries of a list at the members of a key are the entries with that key. -/
theorem map_members (l : List α) (key : α → ℕ) (index : ℕ → ℕ) (a : ℕ)
    (h : ∀ i x, l[i]? = some x → index i = key x) :
    (members index l.length a 0).map (fun i => l[i]?) = (l.filter fun x => key x = a).map some := by
  induction l using List.reverseRecOn with
  | nil => rfl
  | append_singleton l x ih =>
    have hl : ∀ i y, l[i]? = some y → index i = key y := fun i y hy =>
      h i y (by rw [List.getElem?_append_left (List.getElem?_eq_some_iff.mp hy).1, hy])
    have hx : index l.length = key x := h l.length x (by simp)
    have hleft : (members index l.length a 0).map (fun i => (l ++ [x])[i]?)
        = (members index l.length a 0).map (fun i => l[i]?) :=
      List.map_congr_left fun i hi =>
        List.getElem?_append_left (mem_members.mp hi).2.1
    rw [List.length_append, List.length_singleton, members_succ (Nat.zero_le _), List.map_append,
      hleft, ih hl, List.filter_append, List.map_append, hx]
    by_cases ha : key x = a
    · simp [ha]
    · simp [ha]

/-! ## Following the links -/

/-- Following the links from `head` visits the indices of a list and ends. -/
def Linked (next : ℕ → Option ℕ) : Option ℕ → List ℕ → Prop
  | head, [] => head = none
  | head, i :: l => head = some i ∧ Linked next (next i) l

/-- What is visited depends on the links only. -/
theorem Linked.unique {next : ℕ → Option ℕ} {head : Option ℕ} {l m : List ℕ}
    (hl : Linked next head l) (hm : Linked next head m) : l = m := by
  induction l generalizing head m with
  | nil =>
    cases m with
    | nil => rfl
    | cons j m => exact absurd (hl.symm.trans hm.1) (by simp)
  | cons i l ih =>
    cases m with
    | nil => exact absurd (hl.1.symm.trans hm) (by simp)
    | cons j m =>
      have hij : i = j := Option.some.inj (hl.1.symm.trans hm.1)
      subst hij
      rw [ih hl.2 hm.2]

/-- Links changed outside a chain leave the chain as it is. -/
theorem Linked.congr {next next' : ℕ → Option ℕ} {head : Option ℕ} {l : List ℕ}
    (h : Linked next head l) (heq : ∀ i ∈ l, next' i = next i) : Linked next' head l := by
  induction l generalizing head with
  | nil => exact h
  | cons i l ih =>
    refine ⟨h.1, ?_⟩
    rw [heq i List.mem_cons_self]
    exact ih h.2 fun j hj => heq j (List.mem_cons_of_mem i hj)

/-- Links that lead every index to the next one of its key chain the members of every key. -/
theorem linked_members {key : ℕ → ℕ} {next : ℕ → Option ℕ} {n k : ℕ}
    (h : ∀ i, k ≤ i → i < n → next i = (members key n (key i) (i + 1)).head?) (a : ℕ) :
    Linked next (members key n a k).head? (members key n a k) := by
  induction hd : n - k generalizing k with
  | zero =>
    rw [members_of_le (by omega)]
    rfl
  | succ d ih =>
    have hk : k < n := by omega
    have hrest := ih (fun i hi => h i (by omega)) (k := k + 1) (by omega)
    rw [members_of_lt hk]
    split
    · rename_i ha
      refine ⟨rfl, ?_⟩
      rw [h k (le_refl k) hk, ha]
      exact hrest
    · exact hrest

/-! ## Partitions -/

/-- Lists whose entries carry the list's own key have no entry in common. -/
theorem nodup_flatMap_keys (key : ℕ → ℕ) {f : ℕ → List ℕ} {l : List ℕ} (hl : l.Nodup)
    (hkey : ∀ a ∈ l, ∀ i ∈ f a, key i = a) (hf : ∀ a ∈ l, (f a).Nodup) : (l.flatMap f).Nodup := by
  rw [List.nodup_flatMap]
  refine ⟨hf, hl.pairwise_of_forall_ne ?_⟩
  intro a ha b hb hab i hia hib
  exact hab ((hkey a ha i hia).symm.trans (hkey b hb i hib))

/-- The members of all keys are all the indices. -/
theorem members_partition {key : ℕ → ℕ} {n m : ℕ} (h : ∀ i < n, key i < m) :
    ((List.range m).flatMap fun a => members key n a 0).Perm (List.range n) := by
  have hnodup : ((List.range m).flatMap fun a => members key n a 0).Nodup :=
    nodup_flatMap_keys key List.nodup_range
      (fun a _ i hi => (mem_members.mp hi).2.2) (fun a _ => nodup_members key n a 0)
  rw [List.perm_ext_iff_of_nodup hnodup List.nodup_range]
  intro i
  rw [List.mem_flatMap, List.mem_range]
  constructor
  · rintro ⟨a, -, hi⟩
    exact (mem_members.mp hi).2.1
  · intro hi
    exact ⟨key i, List.mem_range.mpr (h i hi), mem_members.mpr ⟨Nat.zero_le i, hi, rfl⟩⟩

/-- Chains with different keys and `n` entries below `n` in all reach each index once. -/
theorem partition_of_length {key : ℕ → ℕ} {f : ℕ → List ℕ} {n m : ℕ}
    (hkey : ∀ a < m, ∀ i ∈ f a, i < n ∧ key i = a) (hf : ∀ a < m, (f a).Nodup)
    (hlen : ((List.range m).map fun a => (f a).length).sum = n) :
    ((List.range m).flatMap f).Perm (List.range n) := by
  refine perm_range_of_nodup ?_ ?_ ?_
  · intro i hi
    obtain ⟨a, ha, hia⟩ := List.mem_flatMap.mp hi
    exact (hkey a (List.mem_range.mp ha) i hia).1
  · exact nodup_flatMap_keys key List.nodup_range
      (fun a ha i hi => (hkey a (List.mem_range.mp ha) i hi).2)
      (fun a ha => hf a (List.mem_range.mp ha))
  · rw [List.length_flatMap, hlen]

end Lib
