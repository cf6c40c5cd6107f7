import Mathlib
import AscendShmem.Lib.Alloc

/-!
# Tilings

An interval `[0, n)` cut into consecutive blocks, each in use or idle. `rangesOf u` are the ranges
of the blocks that are in use, or of those that are not. A `Tiling` has no empty block and no two
idle blocks side by side, so its idle ranges are the maximal gaps between the used ones.
-/

namespace Lib

/-- A range of bytes. -/
structure Range where
  offset : ℕ
  size : ℕ
deriving DecidableEq, Repr

/-- Where a range ends. -/
def Range.stop (r : Range) : ℕ := r.offset + r.size

/-- One block of a tiling. -/
structure Block where
  size : ℕ
  used : Bool
deriving DecidableEq, Repr

/-- The bytes of a list of blocks. -/
def span (l : List Block) : ℕ := total Block.size l

@[simp] theorem span_nil : span [] = 0 := rfl

@[simp] theorem span_cons (b : Block) (l : List Block) : span (b :: l) = b.size + span l :=
  total_cons _ _ _

@[simp] theorem span_append (l m : List Block) : span (l ++ m) = span l + span m :=
  total_append _ _ _

/-- The ranges of the used (or the idle) blocks, the first block at `base`. -/
def rangesOf (u : Bool) (base : ℕ) (l : List Block) : List Range :=
  emit (fun base b => if b.used = u then [⟨base, b.size⟩] else []) Block.size base l

variable {u : Bool} {base : ℕ} {l pre post : List Block} {r : Range}

@[simp] theorem rangesOf_nil : rangesOf u base [] = [] := rfl

theorem rangesOf_append (l m : List Block) :
    rangesOf u base (l ++ m) = rangesOf u base l ++ rangesOf u (base + span l) m :=
  emit_append _ _ _ _ _

theorem rangesOf_cons (b : Block) :
    rangesOf u base (b :: l)
      = (if b.used = u then [⟨base, b.size⟩] else []) ++ rangesOf u (base + b.size) l := rfl

/-- A range of a tiling is a block behind those in front of it. -/
theorem mem_rangesOf : r ∈ rangesOf u base l ↔
    ∃ pre post, l = pre ++ ⟨r.size, u⟩ :: post ∧ r.offset = base + span pre := by
  unfold rangesOf
  rw [mem_emit]
  constructor
  · rintro ⟨pre, b, post, rfl, hr⟩
    split at hr
    · rename_i hu
      subst hu
      rw [List.mem_singleton.mp hr]
      exact ⟨pre, post, rfl, rfl⟩
    · cases hr
  · rintro ⟨pre, post, rfl, hoffset⟩
    refine ⟨pre, ⟨r.size, u⟩, post, rfl, ?_⟩
    rw [if_pos rfl, List.mem_singleton]
    cases r
    exact congrArg (Range.mk · _) hoffset

/-- The ranges of the blocks lie inside the bytes of the blocks. -/
theorem bounds_of_mem (h : r ∈ rangesOf u base l) : base ≤ r.offset ∧ r.stop ≤ base + span l := by
  obtain ⟨pre, post, rfl, hoffset⟩ := mem_rangesOf.mp h
  unfold Range.stop
  rw [span_append, span_cons]
  constructor
  · omega
  · show r.offset + r.size ≤ base + (span pre + (r.size + span post))
    omega

theorem mem_rangesOf_append {m : List Block} : r ∈ rangesOf u base (l ++ m) ↔
    r ∈ rangesOf u base l ∨ r ∈ rangesOf u (base + span l) m := by
  rw [rangesOf_append, List.mem_append]

/-- The first block, and the ranges behind it. -/
theorem mem_rangesOf_cons {b : Block} : r ∈ rangesOf u base (b :: l) ↔
    (b.used = u ∧ r = ⟨base, b.size⟩) ∨ r ∈ rangesOf u (base + b.size) l := by
  rw [rangesOf_cons, List.mem_append]
  by_cases hu : b.used = u
  · simp [hu]
  · simp [hu]

/-- The ranges in front of a block, the block's own, and those behind it. -/
theorem mem_rangesOf_split {b : Block} : r ∈ rangesOf u 0 (pre ++ b :: post) ↔
    r ∈ rangesOf u 0 pre ∨ (b.used = u ∧ r = ⟨span pre, b.size⟩) ∨
      r ∈ rangesOf u (span pre + b.size) post := by
  rw [mem_rangesOf_append, mem_rangesOf_cons, Nat.zero_add]

/-! ## Tilings -/

/-- The blocks of a heap of `n` bytes. -/
structure Tiling (n : ℕ) (l : List Block) : Prop where
  span_eq : span l = n
  size_pos : ∀ b ∈ l, 0 < b.size
  apart : l.IsChain fun a b => a.used = true ∨ b.used = true

/-- The byte `x` belongs to `r`. -/
def Range.Covers (r : Range) (x : ℕ) : Prop := r.offset ≤ x ∧ x < r.stop

/-- Every byte belongs to a block. -/
theorem exists_covers {x : ℕ} (hx : x < span l) :
    ∃ u, ∃ r ∈ rangesOf u 0 l, r.Covers x := by
  induction l using List.reverseRecOn with
  | nil => exact absurd hx (Nat.not_lt_zero x)
  | append_singleton l b ih =>
    rcases lt_or_ge x (span l) with hlt | hge
    · obtain ⟨u, r, hr, hcovers⟩ := ih hlt
      exact ⟨u, r, mem_rangesOf_append.mpr (Or.inl hr), hcovers⟩
    · refine ⟨b.used, ⟨span l, b.size⟩, mem_rangesOf_split.mpr (Or.inr (Or.inl ⟨rfl, rfl⟩)), hge, ?_⟩
      simpa [span_append, Range.stop] using hx

/-- Two ranges are the same or apart. -/
theorem eq_or_apart {v : Bool} {s : Range} (hpos : ∀ b ∈ l, 0 < b.size)
    (hr : r ∈ rangesOf u 0 l) (hs : s ∈ rangesOf v 0 l) :
    (u = v ∧ r = s) ∨ r.stop ≤ s.offset ∨ s.stop ≤ r.offset := by
  obtain ⟨pre, post, rfl, hoffset⟩ := mem_rangesOf.mp hr
  rw [Nat.zero_add] at hoffset
  rcases mem_rangesOf_split.mp hs with h | ⟨rfl, rfl⟩ | h
  · have hb := bounds_of_mem h
    exact Or.inr (Or.inr (by omega))
  · refine Or.inl ⟨rfl, ?_⟩
    cases r
    exact congrArg (Range.mk · _) hoffset
  · have hb : span pre + r.size ≤ s.offset ∧ _ := bounds_of_mem h
    refine Or.inr (Or.inl ?_)
    unfold Range.stop
    omega

/-- A range of a tiling is not empty. -/
theorem size_pos_of_mem (hpos : ∀ b ∈ l, 0 < b.size) (hr : r ∈ rangesOf u base l) : 0 < r.size := by
  obtain ⟨pre, post, rfl, -⟩ := mem_rangesOf.mp hr
  exact hpos ⟨r.size, u⟩ (by simp)

/-! ## Cutting and joining -/

/-- An idle block of `n` bytes, if that is any. -/
def idleBlock (n : ℕ) : List Block := if n = 0 then [] else [⟨n, false⟩]

@[simp] theorem span_idleBlock (n : ℕ) : span (idleBlock n) = n := by
  unfold idleBlock
  split
  · simp [*]
  · simp

/-- An idle block of no bytes is no range. -/
theorem mem_rangesOf_idleBlock {n : ℕ} :
    r ∈ rangesOf u base (idleBlock n) ↔ u = false ∧ n ≠ 0 ∧ r = ⟨base, n⟩ := by
  unfold idleBlock
  by_cases hn : n = 0
  · simp [hn]
  · simp only [hn, if_false, mem_rangesOf_cons, rangesOf_nil, List.not_mem_nil, or_false]
    constructor
    · rintro ⟨rfl, rfl⟩
      exact ⟨rfl, hn, rfl⟩
    · rintro ⟨rfl, -, rfl⟩
      exact ⟨rfl, rfl⟩

/-- No idle block at the end. -/
def EndsUsed (l : List Block) : Prop := ∀ b ∈ l.getLast?, b.used = true

/-- No idle block at the front. -/
def StartsUsed (l : List Block) : Prop := ∀ b ∈ l.head?, b.used = true

/-- No two idle blocks meet on either side of a block. -/
theorem apart_split {b : Block} :
    (pre ++ b :: post).IsChain (fun a b => a.used = true ∨ b.used = true) ↔
      pre.IsChain (fun a b => a.used = true ∨ b.used = true) ∧
      post.IsChain (fun a b => a.used = true ∨ b.used = true) ∧
      (b.used = true ∨ EndsUsed pre ∧ StartsUsed post) := by
  rw [List.isChain_append, List.isChain_cons]
  unfold EndsUsed StartsUsed
  simp only [List.head?_cons, Option.mem_some_iff, forall_eq']
  by_cases hb : b.used = true
  · simp [hb]
  · simp only [hb, Bool.false_eq_true, false_or, or_false]
    tauto

variable {n s : ℕ}

/-- Taking the front of an idle block into use. -/
theorem Tiling.cut (h : Tiling n (pre ++ ⟨s, false⟩ :: post)) {a : ℕ} (ha : 0 < a)
    (has : a ≤ s) : Tiling n (pre ++ ⟨a, true⟩ :: (idleBlock (s - a) ++ post)) := by
  obtain ⟨hspan, hpos, hapart⟩ := h
  obtain ⟨hpre, hpost, hedges⟩ := apart_split.mp hapart
  have hedge : StartsUsed post := by simpa using hedges.elim nofun And.right
  refine ⟨?_, ?_, apart_split.mpr ⟨hpre, ?_, Or.inl rfl⟩⟩
  · rw [← hspan]
    simp only [span_append, span_cons, span_idleBlock]
    omega
  · intro b hb
    simp only [List.mem_append, List.mem_cons] at hb
    rcases hb with hb | rfl | hb | hb
    · exact hpos b (by simp [hb])
    · exact ha
    · unfold idleBlock at hb
      split at hb
      · cases hb
      · rw [List.mem_singleton.mp hb]
        exact Nat.pos_of_ne_zero ‹_›
    · exact hpos b (by simp [hb])
  · unfold idleBlock
    split
    · exact hpost
    · exact List.isChain_cons.mpr ⟨fun b hb => Or.inr (hedge b hb), hpost⟩

/-- The idle neighbours of a used block. -/
theorem Tiling.neighbours (h : Tiling n (pre ++ ⟨s, true⟩ :: post)) :
    ∃ pre' f g post', pre = pre' ++ idleBlock f ∧ post = idleBlock g ++ post' ∧
      EndsUsed pre' ∧ StartsUsed post' := by
  obtain ⟨-, hpos, hapart⟩ := h
  obtain ⟨hpre, hpost, -⟩ := apart_split.mp hapart
  have hfront : ∃ pre' f, pre = pre' ++ idleBlock f ∧ EndsUsed pre' := by
    rcases List.eq_nil_or_concat' pre with rfl | ⟨pre', b, rfl⟩
    · exact ⟨[], 0, rfl, nofun⟩
    · by_cases hb : b.used = true
      · refine ⟨pre' ++ [b], 0, by simp [idleBlock], ?_⟩
        intro c hc
        simp only [List.getLast?_append, List.getLast?_singleton, Option.some_or,
          Option.mem_some_iff] at hc
        rwa [← hc]
      · have hsize : b.size ≠ 0 := (hpos b (by simp)).ne'
        refine ⟨pre', b.size, ?_, ?_⟩
        · rw [idleBlock, if_neg hsize]
          cases b
          simp only [Bool.not_eq_true] at hb
          rw [hb]
        · have hsplit : _ ∧ _ ∧ (b.used = true ∨ EndsUsed pre' ∧ StartsUsed []) := apart_split.mp hpre
          exact hsplit.2.2.elim (fun hused => absurd hused hb) And.left
  have hback : ∃ g post', post = idleBlock g ++ post' ∧ StartsUsed post' := by
    rcases post with _ | ⟨b, post'⟩
    · exact ⟨0, [], rfl, nofun⟩
    · by_cases hb : b.used = true
      · refine ⟨0, b :: post', by simp [idleBlock], ?_⟩
        intro c hc
        simp only [List.head?_cons, Option.mem_some_iff] at hc
        rwa [← hc]
      · have hsize : b.size ≠ 0 := (hpos b (by simp)).ne'
        refine ⟨b.size, post', ?_, ?_⟩
        · rw [idleBlock, if_neg hsize]
          cases b
          simp only [Bool.not_eq_true] at hb
          rw [hb]
          rfl
        · have hsplit : _ ∧ _ ∧ (b.used = true ∨ EndsUsed [] ∧ StartsUsed post') :=
            apart_split.mp hpost
          exact hsplit.2.2.elim (fun hused => absurd hused hb) And.right
  obtain ⟨pre', f, hf, hends⟩ := hfront
  obtain ⟨g, post', hg, hstarts⟩ := hback
  exact ⟨pre', f, g, post', hf, hg, hends, hstarts⟩

/-- Giving a used block back, together with its idle neighbours. -/
theorem Tiling.join {f g : ℕ} (h : Tiling n (pre ++ idleBlock f ++ ⟨s, true⟩ :: (idleBlock g ++ post)))
    (hends : EndsUsed pre) (hstarts : StartsUsed post) :
    Tiling n (pre ++ ⟨f + s + g, false⟩ :: post) := by
  obtain ⟨hspan, hpos, hapart⟩ := h
  obtain ⟨hpre, hpost, -⟩ := apart_split.mp hapart
  refine ⟨?_, ?_, apart_split.mpr ⟨hpre.left_of_append, hpost.right_of_append,
    Or.inr ⟨hends, hstarts⟩⟩⟩
  · rw [← hspan]
    simp only [span_append, span_cons, span_idleBlock]
    omega
  · have hs : 0 < s := hpos ⟨s, true⟩ (by simp)
    intro b hb
    simp only [List.mem_append, List.mem_cons] at hb
    rcases hb with hb | rfl | hb
    · exact hpos b (by simp [hb])
    · simp only []
      omega
    · exact hpos b (by simp [hb])

section Neighbours

variable {f g : ℕ}

/-- A range outside a part of the tiling is none of those inside. -/
theorem ne_of_outside {m : ℕ} {x : Range} (hsize : 0 < r.size)
    (hr : r.stop ≤ m ∨ m + n ≤ r.offset) (hlow : m ≤ x.offset) (hhigh : x.stop ≤ m + n) : r ≠ x := by
  rintro rfl
  unfold Range.stop at hr hhigh
  omega

/-- The ranges of a used block, its idle neighbours, and the rest. -/
theorem mem_rangesOf_neighbours :
    r ∈ rangesOf u 0 (pre ++ idleBlock f ++ ⟨s, true⟩ :: (idleBlock g ++ post)) ↔
      (r ∈ rangesOf u 0 pre ∨ u = false ∧ f ≠ 0 ∧ r = ⟨span pre, f⟩) ∨
      (true = u ∧ r = ⟨span pre + f, s⟩) ∨
      (u = false ∧ g ≠ 0 ∧ r = ⟨span pre + f + s, g⟩) ∨
      r ∈ rangesOf u (span pre + f + s + g) post := by
  rw [mem_rangesOf_split, mem_rangesOf_append, mem_rangesOf_append, mem_rangesOf_idleBlock,
    mem_rangesOf_idleBlock, span_append, span_idleBlock, span_idleBlock, Nat.zero_add]

/-- The ranges that stay when a used block goes away with its idle neighbours. -/
theorem mem_rangesOf_outside
    (hpos : ∀ b ∈ pre ++ idleBlock f ++ ⟨s, true⟩ :: (idleBlock g ++ post), 0 < b.size) :
    r ∈ rangesOf u 0 pre ∨ r ∈ rangesOf u (span pre + (f + s + g)) post ↔
      r ∈ rangesOf u 0 (pre ++ idleBlock f ++ ⟨s, true⟩ :: (idleBlock g ++ post)) ∧
        r ≠ ⟨span pre, f⟩ ∧ r ≠ ⟨span pre + f, s⟩ ∧ r ≠ ⟨span pre + f + s, g⟩ := by
  have hbase : span pre + (f + s + g) = span pre + f + s + g := by omega
  rw [mem_rangesOf_neighbours, hbase]
  constructor
  · intro hr
    have houtside : 0 < r.size ∧ (r.stop ≤ span pre ∨ span pre + (f + s + g) ≤ r.offset) := by
      rcases hr with hr | hr
      · have hb := bounds_of_mem hr
        exact ⟨size_pos_of_mem (fun b hb => hpos b (by simp [hb])) hr, Or.inl (by omega)⟩
      · have hb := bounds_of_mem hr
        exact ⟨size_pos_of_mem (fun b hb => hpos b (by simp [hb])) hr, Or.inr (by omega)⟩
    refine ⟨hr.elim (fun h => Or.inl (Or.inl h)) fun h => Or.inr (Or.inr (Or.inr h)), ?_, ?_, ?_⟩
    · exact ne_of_outside houtside.1 houtside.2 (le_refl _)
        (show span pre + f ≤ span pre + (f + s + g) by omega)
    · exact ne_of_outside houtside.1 houtside.2 (Nat.le_add_right _ _)
        (show span pre + f + s ≤ span pre + (f + s + g) by omega)
    · exact ne_of_outside houtside.1 houtside.2 (show span pre ≤ span pre + f + s by omega)
        (show span pre + f + s + g ≤ span pre + (f + s + g) by omega)
  · rintro ⟨(hr | ⟨-, -, hr⟩) | ⟨-, hr⟩ | ⟨-, -, hr⟩ | hr, hfront, hmid, hback⟩
    · exact Or.inl hr
    · exact absurd hr hfront
    · exact absurd hr hmid
    · exact absurd hr hback
    · exact Or.inr hr

end Neighbours

end Lib
