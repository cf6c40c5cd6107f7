import Mathlib
import AscendShmem.Heap.Runs

/-!
# Best fit and coalescing

Seen from the live blocks alone, the free bytes of a heap fall into maximal gaps. The idle ranges
are exactly these gaps, so `allocate` succeeds whenever some gap has room, and takes the first of
the smallest; `release` gives the bytes of a live block back to one gap.
-/

namespace AscendShmem.Heap

open Lib

/-- The byte `x` belongs to the heap and to no live block. -/
def FreeByte (m : MemoryManager) (x : ℕ) : Prop :=
  x < m.size ∧ ∀ r ∈ m.addressUsedTree, ¬ r.Covers x

/-- A range of free bytes that is not empty and cannot be made longer. -/
structure MaximalGap (m : MemoryManager) (g : Range) : Prop where
  nonempty : 0 < g.size
  free : ∀ x, g.Covers x → FreeByte m x
  stop : ¬ FreeByte m g.stop
  start : g.offset = 0 ∨ ¬ FreeByte m (g.offset - 1)

section Gaps

variable {m : MemoryManager} {blocks : List Block}

/-- A free byte of a represented heap lies in an idle range. -/
theorem Represents.exists_idle (h : Represents m blocks) {x : ℕ} (hx : FreeByte m x) :
    ∃ r ∈ m.addressIdleTree, r.Covers x := by
  have hlt : x < span blocks := by
    rw [h.tiling.span_eq]
    exact hx.1
  obtain ⟨u, r, hr, hcovers⟩ := exists_covers hlt
  cases u with
  | false => exact ⟨r, (h.idle r).mpr hr, hcovers⟩
  | true => exact absurd hcovers (hx.2 r ((h.used r).mpr hr))

/-- The bytes on both sides of an idle range are not free. -/
theorem Represents.maximalGap_of_idle (h : Represents m blocks) {r : Range}
    (hr : r ∈ m.addressIdleTree) : MaximalGap m r := by
  have hpos := h.tiling.size_pos
  obtain ⟨pre, post, rfl, hoffset⟩ := h.split_of_idle hr
  -- two idle blocks never meet, so the blocks at both edges are used
  obtain ⟨-, -, hedges⟩ := apart_split.mp h.tiling.apart
  obtain ⟨hends, hstarts⟩ : EndsUsed pre ∧ StartsUsed post := by simpa using hedges
  have hspan := h.tiling.span_eq
  rw [span_append, span_cons] at hspan
  simp only at hspan
  refine ⟨size_pos_of_mem hpos ((h.idle r).mp hr), fun x hx => ⟨?_, fun s hs hcovers => ?_⟩,
    fun hfree => ?_, ?_⟩
  · unfold Range.Covers Range.stop at hx
    omega
  · rcases eq_or_apart hpos ((h.idle r).mp hr) ((h.used s).mp hs) with ⟨hfalse, -⟩ | hstop | hstop
    · cases hfalse
    · have := hx.2
      have := hcovers.1
      omega
    · have := hcovers.2
      have := hx.1
      omega
  -- behind the range: the end of the heap, or a used block
  · have hstop : r.stop = span pre + r.size := by rw [Range.stop, hoffset]
    rw [hstop] at hfree
    obtain ⟨hinside, hnot⟩ := hfree
    rcases post with _ | ⟨b, post⟩
    · rw [span_nil] at hspan
      omega
    · have hused : b.used = true := hstarts b (by simp)
      have hsize : 0 < b.size := hpos b (by simp)
      refine hnot ⟨span pre + r.size, b.size⟩ ?_ ⟨le_refl _, ?_⟩
      · rw [h.used, mem_rangesOf_split, mem_rangesOf_cons]
        exact Or.inr (Or.inr (Or.inl ⟨hused, rfl⟩))
      · show span pre + r.size < span pre + r.size + b.size
        omega
  -- in front of it: the start of the heap, or a used block
  · rcases List.eq_nil_or_concat' pre with rfl | ⟨pre, b, rfl⟩
    · exact Or.inl hoffset
    · refine Or.inr fun hfree => ?_
      have hused : b.used = true := hends b (by simp)
      have hsize : 0 < b.size := hpos b (by simp)
      rw [span_append, span_cons, span_nil, Nat.add_zero] at hoffset
      refine hfree.2 ⟨span pre, b.size⟩ ?_ ⟨?_, ?_⟩
      · rw [h.used, mem_rangesOf_append, mem_rangesOf_split]
        exact Or.inl (Or.inr (Or.inl ⟨hused, rfl⟩))
      · show span pre ≤ r.offset - 1
        omega
      · show r.offset - 1 < span pre + b.size
        omega

/-- The idle ranges are the maximal gaps between the live blocks. -/
theorem Represents.maximalGap_iff (h : Represents m blocks) {g : Range} :
    MaximalGap m g ↔ g ∈ m.addressIdleTree := by
  refine ⟨fun hg => ?_, h.maximalGap_of_idle⟩
  have hfirst := hg.free g.offset ⟨le_refl _, Nat.lt_add_of_pos_right hg.nonempty⟩
  obtain ⟨r, hr, hcovers⟩ := h.exists_idle hfirst
  have hgap := h.maximalGap_of_idle hr
  have hlow : r.offset = g.offset := by
    by_contra hne
    have hlt : r.offset < g.offset := lt_of_le_of_ne hcovers.1 hne
    rcases hg.start with hzero | hstart
    · omega
    · have hin : r.Covers (g.offset - 1) := ⟨by omega, by have := hcovers.2; omega⟩
      exact hstart (hgap.free _ hin)
  have hhigh : r.stop = g.stop := by
    rcases Nat.lt_trichotomy r.stop g.stop with hlt | heq | hgt
    · have hin : g.Covers r.stop := ⟨by have := hcovers.2; omega, hlt⟩
      exact absurd (hg.free _ hin) hgap.stop
    · exact heq
    · have hin : r.Covers g.stop := ⟨by unfold Range.stop; omega, hgt⟩
      exact absurd (hgap.free _ hin) hg.stop
  have heq : r = g := by
    unfold Range.stop at hhigh
    cases r
    cases g
    simp only at hlow hhigh
    subst hlow
    exact congrArg (Range.mk _) (by omega)
  exact heq ▸ hr

end Gaps

section Calls

variable {m : MemoryManager} {blocks : List Block} {n p : ℕ}

/-- A refused `allocate` changes nothing. -/
theorem allocate_of_none {heapSize : ℕ} (h : (m.allocate heapSize n).1 = none) :
    (m.allocate heapSize n).2 = m := by
  dsimp only [MemoryManager.allocate] at h ⊢
  split
  · rfl
  · rename_i hargs
    rw [if_neg hargs] at h
    split
    · rfl
    · split
      · rfl
      · simp only [*] at h
        split at h
        · cases h
        · cases h

/-- A block is found exactly if some maximal gap holds the rounded size. -/
theorem Represents.allocate_isSome (h : Represents m blocks) (hm : Mapped m.base m.size)
    (hn : 0 < n) (hle : n ≤ m.size) :
    (m.allocate m.size n).1.isSome ↔ ∃ g, MaximalGap m g ∧ align16 n ≤ g.size := by
  rcases h.allocate hm hn hle with ⟨hnone, hsmall⟩ | ⟨pre, s, post, rfl, hfit, -, hsome, -⟩
  · rw [hnone]
    refine iff_of_false nofun ?_
    rintro ⟨g, hg, hroom⟩
    have := hsmall g (h.maximalGap_iff.mp hg)
    omega
  · rw [hsome]
    refine iff_of_true rfl ⟨⟨span pre, s⟩, h.maximalGap_iff.mpr ?_, hfit⟩
    rw [h.idle, mem_rangesOf_split]
    exact Or.inr (Or.inl ⟨rfl, rfl⟩)

/-- The gap `allocate` takes is the first of the smallest that have room. -/
theorem Represents.bestFit (h : Represents m blocks) (hm : Mapped m.base m.size)
    (hp : (m.allocate m.size n).1 = some p) :
    ∃ g, MaximalGap m g ∧ align16 n ≤ g.size ∧
      (∀ g', MaximalGap m g' → align16 n ≤ g'.size →
        g.size < g'.size ∨ g.size = g'.size ∧ g.offset ≤ g'.offset) ∧
      Granted m (m.allocate m.size n).2 n p ⟨g.offset, align16 n⟩ := by
  obtain ⟨block, hgranted⟩ := h.granted hm hp
  by_cases hargs : n = 0 ∨ m.size < n
  · rw [allocate_of_refused hargs] at hp
    cases hp
  rcases h.allocate (n := n) hm (by omega) (by omega) with
    ⟨hnone, -⟩ | ⟨pre, s, post, rfl, hfit, hmin, hsome, -⟩
  · rw [hnone] at hp
    cases hp
  · refine ⟨⟨span pre, s⟩, h.maximalGap_iff.mpr ?_, hfit, fun g' hg' hroom => ?_, ?_⟩
    · rw [h.idle, mem_rangesOf_split]
      exact Or.inr (Or.inl ⟨rfl, rfl⟩)
    · exact sizeFirst_le_iff.mp (hmin g' (h.maximalGap_iff.mp hg') hroom)
    · have hpointer := hgranted.pointer
      have hsize := hgranted.size
      rw [hsome, Option.some.injEq] at hp
      have hblock : block = ⟨span pre, align16 n⟩ := by
        cases block
        simp only at hpointer hsize
        subst hsize
        exact congrArg (Range.mk · _) (by omega)
      exact hblock ▸ hgranted

/-- What a release of a live block leaves: the other live blocks, and the bytes of this one inside
one maximal gap; the idle ranges of both trees are the maximal gaps. -/
structure Released (m m' : MemoryManager) (block : Range) : Prop where
  base : m'.base = m.base
  size : m'.size = m.size
  live : ∀ r, r ∈ m'.addressUsedTree ↔ r ∈ m.addressUsedTree ∧ r ≠ block
  merged : ∃ g, MaximalGap m' g ∧ g.offset ≤ block.offset ∧ block.stop ≤ g.stop
  idle : ∀ g, (g ∈ m'.addressIdleTree ↔ MaximalGap m' g) ∧ (g ∈ m'.sizeIdleTree ↔ MaximalGap m' g)

/-- Without a live block its bytes are free, unless another one covers them. -/
theorem Represents.freeByte_of_removed (h : Represents m blocks) {m' : MemoryManager}
    {block : Range} (hlive : block ∈ m.addressUsedTree) (hsize : m'.size = m.size)
    (hused : ∀ r, r ∈ m'.addressUsedTree ↔ r ∈ m.addressUsedTree ∧ r ≠ block) {x : ℕ}
    (hx : block.Covers x) : FreeByte m' x := by
  have hblock := (h.used block).mp hlive
  have hinside := (bounds_of_mem hblock).2
  rw [Nat.zero_add, h.tiling.span_eq] at hinside
  refine ⟨by rw [hsize]; exact hx.2.trans_le hinside, fun r hr hcovers => ?_⟩
  obtain ⟨hr, hne⟩ := (hused r).mp hr
  rcases eq_or_apart h.tiling.size_pos ((h.used r).mp hr) hblock with ⟨-, heq⟩ | hstop | hstop
  · exact hne heq
  · have := hx.1
    have := hcovers.2
    omega
  · have := hx.2
    have := hcovers.1
    omega

/-- The release of a live block removes it and gives its bytes to the gap around it. -/
theorem Represents.released (h : Represents m blocks) (hm : Mapped m.base m.size) {block : Range}
    (hlive : block ∈ m.addressUsedTree) :
    (m.release (m.base + block.offset)).1 = 0 ∧
      Released m (m.release (m.base + block.offset)).2 block := by
  obtain ⟨hcode, hused, blocks', hrep⟩ := h.release hm hlive
  obtain ⟨hbase, hsize⟩ := release_keeps (m := m) (m.base + block.offset)
  have hfree : ∀ x, block.Covers x → FreeByte (m.release (m.base + block.offset)).2 x :=
    fun x hx => h.freeByte_of_removed hlive hsize hused hx
  have hpos := size_pos_of_mem h.tiling.size_pos ((h.used block).mp hlive)
  -- the gap of the first byte goes on to the end of the block
  obtain ⟨g, hg, hcovers⟩ :=
    hrep.exists_idle (hfree block.offset ⟨le_refl _, Nat.lt_add_of_pos_right hpos⟩)
  have hgap := hrep.maximalGap_of_idle hg
  have hstop : block.stop ≤ g.stop := by
    by_contra hshort
    exact hgap.stop (hfree g.stop ⟨hcovers.2.le, not_le.mp hshort⟩)
  refine ⟨hcode, hbase, hsize, hused, ⟨g, hgap, hcovers.1, hstop⟩, fun r => ?_⟩
  exact ⟨hrep.maximalGap_iff.symm, (hrep.index r).trans hrep.maximalGap_iff.symm⟩

/-- With no live block left the heap is one idle range. -/
theorem Represents.idle_of_no_used (h : Represents m blocks) (hsize : 0 < m.size)
    (hused : ∀ r, r ∉ m.addressUsedTree) (r : Range) :
    r ∈ m.addressIdleTree ↔ r = ⟨0, m.size⟩ := by
  have hidle : ∀ b ∈ blocks, b.used = false := by
    intro b hb
    obtain ⟨pre, post, rfl⟩ := List.append_of_mem hb
    by_contra hne
    rw [Bool.not_eq_false] at hne
    refine hused ⟨span pre, b.size⟩ ((h.used _).mpr ?_)
    exact mem_rangesOf_split.mpr (Or.inr (Or.inl ⟨hne, rfl⟩))
  have hspan := h.tiling.span_eq
  have hapart := h.tiling.apart
  rw [h.idle]
  match blocks with
  | [] =>
    rw [span_nil] at hspan
    omega
  | [b] =>
    have hb := hidle b (List.mem_singleton_self b)
    rw [span_cons, span_nil, Nat.add_zero] at hspan
    rw [mem_rangesOf_cons, rangesOf_nil, hspan]
    simp [hb]
  | b :: c :: rest =>
    have hbc := (List.isChain_cons_cons.mp hapart).1
    rw [hidle b (by simp), hidle c (by simp)] at hbc
    exact absurd hbc (by decide)

end Calls

/-- The guarantees of a heap that serves `allocate` and `release` only. -/
structure BestFitHeap (m : MemoryManager) : Prop where
  coalesced : ∀ r ∈ m.addressIdleTree, ∀ s ∈ m.addressIdleTree, r ≠ s → r.stop ≠ s.offset
  succeeds : ∀ n, 0 < n → n ≤ m.size →
    ((m.allocate m.size n).1.isSome ↔ ∃ g, MaximalGap m g ∧ align16 n ≤ g.size)
  bestFit : ∀ n p, (m.allocate m.size n).1 = some p →
    ∃ g, MaximalGap m g ∧ align16 n ≤ g.size ∧
      (∀ g', MaximalGap m g' → align16 n ≤ g'.size →
        g.size < g'.size ∨ g.size = g'.size ∧ g.offset ≤ g'.offset) ∧
      Granted m (m.allocate m.size n).2 n p ⟨g.offset, align16 n⟩
  refused : ∀ n, (m.allocate m.size n).1 = none → (m.allocate m.size n).2 = m
  notLive : ∀ address, (∀ r ∈ m.addressUsedTree, m.base + r.offset ≠ address) →
    m.release address = (-1, m)
  released : ∀ r ∈ m.addressUsedTree, (m.release (m.base + r.offset)).1 = 0 ∧
    Released m (m.release (m.base + r.offset)).2 r
  whole : (∀ r, r ∉ m.addressUsedTree) →
    ∀ r, (r ∈ m.addressIdleTree ↔ r = ⟨0, m.size⟩) ∧ (r ∈ m.sizeIdleTree ↔ r = ⟨0, m.size⟩)

/-- A heap that represents blocks has the property. -/
theorem Represents.bestFitHeap {m : MemoryManager} {blocks : List Block}
    (h : Represents m blocks) (hm : Mapped m.base m.size) (hsize : 0 < m.size) :
    BestFitHeap m where
  coalesced := by
    intro r hr s hs hne heq
    -- the byte behind `r` is not free, the first byte of `s` is
    have hgap := h.maximalGap_of_idle hs
    have hfree := hgap.free s.offset ⟨le_refl _, Nat.lt_add_of_pos_right hgap.nonempty⟩
    exact (h.maximalGap_of_idle hr).stop (heq ▸ hfree)
  succeeds := fun n hn hle => h.allocate_isSome hm hn hle
  bestFit := fun n p hp => h.bestFit hm hp
  refused := fun n hn => allocate_of_none hn
  notLive := fun address hnot => release_of_not_live hnot
  released := fun r hr => h.released hm hr
  whole := fun hused r => ⟨h.idle_of_no_used hsize hused r,
    (h.index r).trans (h.idle_of_no_used hsize hused r)⟩

theorem bestFitHeap_empty (base : ℕ) : BestFitHeap (MemoryManager.mk' base 0) := by
  have hidle : ∀ r, r ∈ (MemoryManager.mk' base 0).addressIdleTree ↔ r = ⟨0, 0⟩ := fun r =>
    mem_singleton_tree
  constructor
  · intro r hr s hs hne
    exact absurd (((hidle r).mp hr).trans ((hidle s).mp hs).symm) hne
  · intro n hn hle
    exact absurd (lt_of_lt_of_le hn hle) (Nat.lt_irrefl 0)
  · intro n p hp
    rw [allocate_of_refused (Nat.eq_zero_or_pos n)] at hp
    cases hp
  · exact fun n hn => allocate_of_none hn
  · exact fun address hnot => release_of_not_live hnot
  · exact fun r hr => absurd hr (OrderedSet.not_mem_empty r)
  · exact fun _ r => ⟨hidle r, mem_singleton_tree⟩

/-- A run without aligned allocations is a plain one. -/
theorem plainRun_of_forall {heapSize : ℕ} {calls : List Call}
    (h : ∀ alignment size, Call.alignedAllocate alignment size ∉ calls) (m : MemoryManager) :
    PlainRun heapSize m calls := by
  induction calls generalizing m with
  | nil => exact trivial
  | cons call calls ih =>
    refine ⟨?_, ih (fun a n hmem => h a n (List.mem_cons_of_mem _ hmem)) _⟩
    cases call with
    | allocate n => exact trivial
    | alignedAllocate a n => exact absurd List.mem_cons_self (h a n)
    | release address => exact trivial

/-- After every run of `allocate` and `release` calls the heap is coalesced, fits best, takes a live
block back into its gap, and is whole again once everything is released. -/
theorem bestFitHeap_of_run {base size : ℕ} (hm : Mapped base size) {calls : List Call}
    (hcalls : ∀ alignment n, Call.alignedAllocate alignment n ∉ calls) :
    ((MemoryManager.mk' base size).run size calls).base = base ∧
    ((MemoryManager.mk' base size).run size calls).size = size ∧
    BestFitHeap ((MemoryManager.mk' base size).run size calls) := by
  have hsound := (sound_mk' base size).run hm (plainRun_of_forall hcalls _)
  generalize (MemoryManager.mk' base size).run size calls = m at *
  cases hsound with
  | fresh hsize hfresh =>
    subst hsize hfresh
    exact ⟨rfl, rfl, bestFitHeap_empty base⟩
  | tiled blocks hpos hbase hsize hrep =>
    subst hbase hsize
    exact ⟨rfl, rfl, hrep.bestFitHeap hm hpos⟩

theorem bestFitHeap_of_run_sample :
    BestFitHeap ((MemoryManager.mk' 4096 64).run 64 [.allocate 20, .allocate 1, .release 4096]) :=
  (bestFitHeap_of_run ⟨by decide, by decide⟩ (by simp)).2.2

end AscendShmem.Heap
