import Mathlib

/-!
# Consecutive allocation

Items that come one after the other take consecutive ranges of a growing storage. `alloc`
pairs every item with what the items before it have taken; sizes live in any additive monoid,
so one pass can allocate several storages at once. `emit` is what the items write there.
Allocating for a concatenation is allocating for the parts with the right bases
(`alloc_append`), which is all that splitting the work among lanes comes down to.
-/

namespace Lib

variable {M α β γ : Type*} [AddMonoid M]

/-- What a list of items takes. -/
def total (size : α → M) (l : List α) : M := (l.map size).sum

@[simp] theorem total_nil (size : α → M) : total size [] = 0 := rfl

@[simp] theorem total_cons (size : α → M) (a : α) (l : List α) :
    total size (a :: l) = size a + total size l := by
  simp [total]

@[simp] theorem total_append (size : α → M) (l m : List α) :
    total size (l ++ m) = total size l + total size m := by
  simp [total]

theorem total_singleton (size : α → M) (a : α) : total size [a] = size a := by simp

theorem total_flatMap (size : α → M) (f : β → List α) (l : List β) :
    total size (l.flatMap f) = total (fun b => total size (f b)) l := by
  induction l with
  | nil => rfl
  | cons b l ih => rw [List.flatMap_cons, total_append, total_cons, ih]

theorem total_congr {size size' : α → M} {l : List α} (h : ∀ a ∈ l, size a = size' a) :
    total size l = total size' l := by
  rw [total, total, List.map_congr_left h]

theorem total_perm {M : Type*} [AddCommMonoid M] (size : α → M) {l m : List α} (h : l.Perm m) :
    total size l = total size m :=
  (h.map size).sum_eq

theorem total_add {M : Type*} [AddCommMonoid M] (size size' : α → M) (l : List α) :
    total (fun a => size a + size' a) l = total size l + total size' l := by
  induction l with
  | nil => simp
  | cons a l ih => rw [total_cons, total_cons, total_cons, ih, add_add_add_comm]

/-- Counting is a total of ones. -/
theorem total_indicator {α : Type} (p : α → Prop) [DecidablePred p] (l : List α) :
    total (fun a => if p a then 1 else 0) l = l.countP p := by
  induction l with
  | nil => rfl
  | cons a l ih =>
    rw [total_cons, ih, List.countP_cons]
    by_cases h : p a
    · simp [h, Nat.add_comm]
    · simp [h]

theorem total_apply {α : Type} (size : α → ℕ → ℕ) (l : List α) (c : ℕ) :
    total size l c = total (fun a => size a c) l := by
  induction l with
  | nil => rfl
  | cons a l ih => rw [total_cons, total_cons, Pi.add_apply, ih]

/-- Only one of the first `n` numbers takes something. -/
theorem total_single {n i : ℕ} (h : i < n) (m : M) :
    total (fun j => if i = j then m else 0) (List.range n) = m := by
  induction n with
  | zero => omega
  | succ n ih =>
    rw [List.range_succ, total_append, total_singleton]
    by_cases hi : i = n
    · have hnone : total (fun j => if i = j then m else 0) (List.range n)
          = total (fun _ => (0 : M)) (List.range n) := by
        apply total_congr
        intro j hj
        rw [List.mem_range] at hj
        rw [if_neg (by omega)]
      rw [hnone, if_pos hi, total, List.map_const', List.sum_replicate, nsmul_zero, zero_add]
    · rw [ih (by omega), if_neg hi, add_zero]

theorem total_map (size : β → M) (f : α → β) (l : List α) :
    total size (l.map f) = total (fun a => size (f a)) l := by
  rw [total, total, List.map_map]
  rfl

/-- Every item is in the group of its key. -/
theorem total_fibers {M : Type*} [AddCommMonoid M] (size : α → M) (key : α → ℕ) {n : ℕ} {l : List α}
    (h : ∀ a ∈ l, key a < n) :
    total (fun d => total size (l.filter fun a => key a = d)) (List.range n) = total size l := by
  induction l with
  | nil => simp [total]
  | cons a l ih =>
    have hstep : ∀ d ∈ List.range n, total size ((a :: l).filter fun a => key a = d)
        = (if key a = d then size a else 0) + total size (l.filter fun a => key a = d) := by
      intro d _
      rw [List.filter_cons]
      by_cases hd : key a = d
      · simp [hd]
      · simp [hd]
    rw [total_congr hstep, total_add, total_single (h a List.mem_cons_self),
      ih fun b hb => h b (List.mem_cons_of_mem a hb), total_cons]

/-- Every item with its base. -/
def alloc (size : α → M) (base : M) : List α → List (M × α)
  | [] => []
  | a :: l => (base, a) :: alloc size (base + size a) l

@[simp] theorem alloc_nil (size : α → M) (base : M) : alloc size base [] = [] := rfl

theorem alloc_append (size : α → M) (base : M) (l m : List α) :
    alloc size base (l ++ m) = alloc size base l ++ alloc size (base + total size l) m := by
  induction l generalizing base with
  | nil => simp
  | cons a l ih => simp [alloc, ih, add_assoc]

@[simp] theorem length_alloc (size : α → M) (base : M) (l : List α) :
    (alloc size base l).length = l.length := by
  induction l generalizing base with
  | nil => rfl
  | cons a l ih => simp [alloc, ih]

@[simp] theorem map_snd_alloc (size : α → M) (base : M) (l : List α) :
    (alloc size base l).map Prod.snd = l := by
  induction l generalizing base with
  | nil => rfl
  | cons a l ih => simp [alloc, ih]

/-- Only the sizes of the elements matter. -/
theorem alloc_congr {size size' : α → M} {l : List α} (base : M)
    (h : ∀ a ∈ l, size a = size' a) : alloc size base l = alloc size' base l := by
  induction l generalizing base with
  | nil => rfl
  | cons a l ih =>
    rw [alloc, alloc, h a List.mem_cons_self, ih _ fun b hb => h b (List.mem_cons_of_mem a hb)]

/-- An element begins behind those in front of it. -/
theorem mem_alloc {size : α → M} {base b : M} {l : List α} {a : α} :
    (b, a) ∈ alloc size base l ↔
      ∃ pre post, l = pre ++ a :: post ∧ b = base + total size pre := by
  induction l generalizing base with
  | nil => simp
  | cons c l ih =>
    rw [alloc, List.mem_cons, ih, Prod.mk.injEq]
    constructor
    · rintro (⟨rfl, rfl⟩ | ⟨pre, post, rfl, rfl⟩)
      · exact ⟨[], l, rfl, by simp⟩
      · exact ⟨c :: pre, post, rfl, by simp [add_assoc]⟩
    · rintro ⟨pre, post, hl, rfl⟩
      cases pre with
      | nil =>
        obtain ⟨rfl, rfl⟩ := List.cons.inj hl
        exact Or.inl ⟨by simp, rfl⟩
      | cons c' pre =>
        obtain ⟨rfl, rfl⟩ := List.cons.inj hl
        exact Or.inr ⟨pre, post, rfl, by simp [add_assoc]⟩

theorem getElem?_alloc {size : α → M} {base : M} {l : List α} {i : ℕ} {p : M × α}
    (h : (alloc size base l)[i]? = some p) :
    l[i]? = some p.2 ∧ p.1 = base + total size (l.take i) := by
  induction l generalizing base i with
  | nil => simp at h
  | cons a l ih =>
    cases i with
    | zero =>
      obtain rfl : (base, a) = p := by simpa [alloc] using h
      simp
    | succ i =>
      obtain ⟨hget, hbase⟩ := ih (by simpa [alloc] using h)
      exact ⟨by simpa using hget, by simpa [add_assoc] using hbase⟩

/-- The first places are those of the first elements. -/
theorem take_alloc (size : α → M) (base : M) (l : List α) (i : ℕ) :
    (alloc size base l).take i = alloc size base (l.take i) := by
  induction l generalizing base i with
  | nil => simp
  | cons a l ih =>
    cases i with
    | zero => simp
    | succ i => simp [alloc, ih]

/-- What the items write, each at its base. -/
def emit (f : M → α → List β) (size : α → M) (base : M) (l : List α) : List β :=
  (alloc size base l).flatMap fun p => f p.1 p.2

@[simp] theorem emit_nil (f : M → α → List β) (size : α → M) (base : M) :
    emit f size base [] = [] := rfl

theorem emit_append (f : M → α → List β) (size : α → M) (base : M) (l m : List α) :
    emit f size base (l ++ m)
      = emit f size base l ++ emit f size (base + total size l) m := by
  rw [emit, alloc_append, List.flatMap_append]
  rfl

theorem emit_singleton (f : M → α → List β) (size : α → M) (base : M) (a : α) :
    emit f size base [a] = f base a := by
  simp [emit, alloc]

/-- One more item. -/
theorem emit_concat (f : M → α → List β) (size : α → M) (base : M) (l : List α) (a : α) :
    emit f size base (l ++ [a]) = emit f size base l ++ f (base + total size l) a := by
  rw [emit_append, emit_singleton]

theorem map_emit (g : β → γ) (f : M → α → List β) (size : α → M) (base : M) (l : List α) :
    (emit f size base l).map g = emit (fun b a => (f b a).map g) size base l := by
  rw [emit, List.map_flatMap]
  rfl

/-- What is emitted comes from an element at its place. -/
theorem mem_emit {f : M → α → List β} {size : α → M} {base : M} {l : List α} {x : β} :
    x ∈ emit f size base l ↔
      ∃ pre a post, l = pre ++ a :: post ∧ x ∈ f (base + total size pre) a := by
  rw [emit, List.mem_flatMap]
  constructor
  · rintro ⟨⟨b, a⟩, hmem, hx⟩
    obtain ⟨pre, post, hl, rfl⟩ := mem_alloc.mp hmem
    exact ⟨pre, a, post, hl, hx⟩
  · rintro ⟨pre, a, post, hl, hx⟩
    exact ⟨(base + total size pre, a), mem_alloc.mpr ⟨pre, post, hl, rfl⟩, hx⟩

/-- Items that write as much as they take fill the storage up to its total. -/
theorem length_emit (f : M → α → List β) (size : α → M) (measure : M →+ ℕ)
    (h : ∀ b a, (f b a).length = measure (size a)) (base : M) (l : List α) :
    (emit f size base l).length = measure (total size l) := by
  induction l generalizing base with
  | nil => simp
  | cons a l ih =>
    have hcons : emit f size base (a :: l) = f base a ++ emit f size (base + size a) l := rfl
    rw [hcons, List.length_append, h, ih, total_cons, map_add]

/-- Every entry is written by one item, behind what the items before it write. -/
theorem getElem?_emit (f : M → α → List β) (size : α → M) (measure : M →+ ℕ)
    (h : ∀ b a, (f b a).length = measure (size a)) {base : M} {l : List α} {i : ℕ} {x : β}
    (hx : (emit f size base l)[i]? = some x) :
    ∃ pre a post j, l = pre ++ a :: post ∧ i = measure (total size pre) + j ∧
      (f (base + total size pre) a)[j]? = some x := by
  induction l using List.reverseRecOn with
  | nil => simp at hx
  | append_singleton l a ih =>
    rw [emit_concat] at hx
    have hlen := length_emit f size measure h base l
    rcases lt_or_ge i (emit f size base l).length with hi | hi
    · rw [List.getElem?_append_left hi] at hx
      obtain ⟨pre, a', post, j, rfl, hij, hget⟩ := ih hx
      exact ⟨pre, a', post ++ [a], j, by simp, hij, hget⟩
    · rw [List.getElem?_append_right hi, hlen] at hx
      exact ⟨l, a, [], i - measure (total size l), rfl, by omega, hx⟩

/-- The range of an item in what all of them write is what it writes itself. -/
theorem take_drop_emit (f : M → α → List β) (size : α → M) (measure : M →+ ℕ)
    (h : ∀ b a, (f b a).length = measure (size a)) (base : M) (pre post : List α) (a : α) :
    ((emit f size base (pre ++ a :: post)).drop (measure (total size pre))).take
        (measure (size a)) = f (base + total size pre) a := by
  have hcons : emit f size (base + total size pre) (a :: post)
      = f (base + total size pre) a ++ emit f size (base + total size pre + size a) post := rfl
  rw [emit_append, hcons, ← length_emit f size measure h base pre, List.drop_left,
    ← h (base + total size pre) a, List.take_left]

end Lib
