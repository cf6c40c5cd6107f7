import Mathlib
import AscendShmem.Heap.Manager

/-!
# The heap manager refines a tiling

`Represents m blocks` says that the three trees of a manager are the used and the idle ranges of a
tiling of the heap, the idle ones in both orders. `allocate` cuts an idle block and `release` joins
a used one with its idle neighbours, so both keep a representation; a call that is refused changes
nothing.
-/

namespace AscendShmem.Heap

open Lib

/-- The bytes a manager is created on are mapped memory, above the null page and inside the address
space. -/
structure Mapped (base size : ℕ) : Prop where
  nonnull : 16 ≤ base
  inside : base + size < 2 ^ 64

/-- `n` bytes, rounded up to a multiple of 16. -/
def align16 (n : ℕ) : ℕ := 16 * ((n + 15) / 16)

/-- The three trees are the idle and the used blocks of a tiling. -/
structure Represents (m : MemoryManager) (blocks : List Block) : Prop where
  tiling : Tiling m.size blocks
  idle : ∀ r, r ∈ m.addressIdleTree ↔ r ∈ rangesOf false 0 blocks
  used : ∀ r, r ∈ m.addressUsedTree ↔ r ∈ rangesOf true 0 blocks
  index : ∀ r, r ∈ m.sizeIdleTree ↔ r ∈ m.addressIdleTree

/-! ## Arithmetic -/

theorem wrap_of_lt {n : ℕ} (h : n < 2 ^ 64) : wrap n = n := Nat.mod_eq_of_lt h

theorem allocatedSizeAlignUp_eq {n : ℕ} (h : n + 15 < 2 ^ 64) :
    allocatedSizeAlignUp n = align16 n := by
  rw [allocatedSizeAlignUp, wrap_of_lt h, align16, Nat.mul_comm]

theorem le_align16 (n : ℕ) : n ≤ align16 n := by
  unfold align16
  omega

/-- A range is given by its size and offset. -/
theorem sizeFirst_injective {r s : Range} (h : sizeFirst r = sizeFirst s) : r = s := by
  have hpair := congrArg ofLex h
  simp only [sizeFirst, ofLex_toLex, Prod.mk.injEq] at hpair
  cases r
  cases s
  exact congrArg₂ Range.mk hpair.2 hpair.1

theorem sizeFirst_le_iff {r s : Range} :
    sizeFirst r ≤ sizeFirst s ↔ r.size < s.size ∨ r.size = s.size ∧ r.offset ≤ s.offset := by
  unfold sizeFirst
  rw [Prod.Lex.toLex_le_toLex]

/-- The lower bound of a size is the first range that has it. -/
theorem anchor_le_iff {a : ℕ} {r : Range} : sizeFirst ⟨0, a⟩ ≤ sizeFirst r ↔ a ≤ r.size := by
  rw [sizeFirst_le_iff]
  constructor
  · rintro (h | ⟨h, -⟩)
    · exact h.le
    · exact h.le
  · intro h
    rcases lt_or_eq_of_le h with hlt | heq
    · exact Or.inl hlt
    · exact Or.inr ⟨heq, Nat.zero_le _⟩

section Operations

variable {m : MemoryManager} {blocks pre post : List Block} {n s : ℕ}

/-- An idle range of a represented heap is one of its idle blocks. -/
theorem Represents.split_of_idle (h : Represents m blocks) {r : Range}
    (hr : r ∈ m.addressIdleTree) :
    ∃ pre post, blocks = pre ++ ⟨r.size, false⟩ :: post ∧ r.offset = span pre := by
  obtain ⟨pre, post, hsplit, hoffset⟩ := mem_rangesOf.mp ((h.idle r).mp hr)
  exact ⟨pre, post, hsplit, by rw [hoffset, Nat.zero_add]⟩

theorem Represents.split_of_used (h : Represents m blocks) {r : Range}
    (hr : r ∈ m.addressUsedTree) :
    ∃ pre post, blocks = pre ++ ⟨r.size, true⟩ :: post ∧ r.offset = span pre := by
  obtain ⟨pre, post, hsplit, hoffset⟩ := mem_rangesOf.mp ((h.used r).mp hr)
  exact ⟨pre, post, hsplit, by rw [hoffset, Nat.zero_add]⟩

/-! ## Allocating -/

/-- The trees after an idle block was cut. -/
theorem Represents.cut (h : Represents m (pre ++ ⟨s, false⟩ :: post)) {a : ℕ} (ha : 0 < a)
    (has : a ≤ s) {idle : AddressTree} {sizes : SizeTree}
    (hidle : ∀ r, r ∈ idle ↔
      (r ∈ m.addressIdleTree ∧ r ≠ ⟨span pre, s⟩) ∨ (a < s ∧ r = ⟨span pre + a, s - a⟩))
    (hsizes : ∀ r, r ∈ sizes ↔ r ∈ idle) :
    Represents { m with
        addressIdleTree := idle
        addressUsedTree := m.addressUsedTree.emplace ⟨span pre, a⟩
        sizeIdleTree := sizes }
      (pre ++ ⟨a, true⟩ :: (idleBlock (s - a) ++ post)) := by
  have hpos := h.tiling.size_pos
  have hspan : span pre + a + span (idleBlock (s - a)) = span pre + s := by
    rw [span_idleBlock]
    omega
  refine ⟨h.tiling.cut ha has, fun r => ?_, fun r => ?_, hsizes⟩
  -- the idle ranges: the old ones less the cut block, and its remainder
  · rw [hidle, h.idle, mem_rangesOf_split, mem_rangesOf_split, mem_rangesOf_append,
      mem_rangesOf_idleBlock, hspan]
    constructor
    · rintro (⟨hr | ⟨-, hr⟩ | hr, hne⟩ | ⟨hlt, hr⟩)
      · exact Or.inl hr
      · exact absurd hr hne
      · exact Or.inr (Or.inr (Or.inr hr))
      · exact Or.inr (Or.inr (Or.inl ⟨rfl, by omega, hr⟩))
    · rintro (hr | ⟨hfalse, -⟩ | ⟨-, hne, hr⟩ | hr)
      · have hb := bounds_of_mem hr
        -- a block in front ends where the cut one begins
        have hsize := size_pos_of_mem (fun b hb => hpos b (by simp [hb])) hr
        refine Or.inl ⟨Or.inl hr, ?_⟩
        rintro rfl
        unfold Range.stop at hb
        simp only at hb hsize
        omega
      · cases hfalse
      · exact Or.inr ⟨by omega, hr⟩
      · have hb := bounds_of_mem hr
        refine Or.inl ⟨Or.inr (Or.inr hr), ?_⟩
        rintro rfl
        simp only at hb
        omega
  -- the used ranges: no block was used at this offset, so the insertion takes place
  · have hfresh : ∀ b ∈ m.addressUsedTree, b.offset ≠ span pre := by
      intro b hb
      have hmem := (h.used b).mp hb
      have hsize := size_pos_of_mem hpos hmem
      rcases mem_rangesOf_split.mp hmem with hr | ⟨hfalse, -⟩ | hr
      · have := bounds_of_mem hr
        unfold Range.stop at this
        omega
      · cases hfalse
      · have := bounds_of_mem hr
        simp only at this
        omega
    rw [OrderedSet.mem_emplace hfresh, h.used, mem_rangesOf_split, mem_rangesOf_split,
      mem_rangesOf_append, mem_rangesOf_idleBlock, hspan]
    constructor
    · rintro (hr | hr | ⟨hfalse, -⟩ | hr)
      · exact Or.inr (Or.inl ⟨rfl, hr⟩)
      · exact Or.inl hr
      · cases hfalse
      · exact Or.inr (Or.inr (Or.inr hr))
    · rintro (hr | ⟨-, hr⟩ | ⟨hfalse, -⟩ | hr)
      · exact Or.inr (Or.inl hr)
      · exact Or.inl hr
      · cases hfalse
      · exact Or.inr (Or.inr (Or.inr hr))

/-- Taking an idle range out of both of its trees. -/
theorem Represents.mem_erase (h : Represents m blocks) {target : Range}
    (htarget : target ∈ m.addressIdleTree) (r : Range) :
    (r ∈ m.addressIdleTree.erase target.offset ↔ r ∈ m.addressIdleTree ∧ r ≠ target) ∧
      (r ∈ m.sizeIdleTree.erase (sizeFirst target) ↔ r ∈ m.addressIdleTree ∧ r ≠ target) := by
  rw [OrderedSet.mem_erase, OrderedSet.mem_erase, h.index]
  constructor
  · refine and_congr_right fun hr => not_congr ⟨fun heq => ?_, fun heq => heq ▸ rfl⟩
    exact OrderedSet.eq_of_key hr htarget heq
  · exact and_congr_right fun _ => not_congr ⟨sizeFirst_injective, fun heq => heq ▸ rfl⟩

/-- No other idle range begins inside an idle one. -/
theorem Represents.offset_ne (h : Represents m blocks) {target r : Range}
    (htarget : target ∈ m.addressIdleTree) (hr : r ∈ m.addressIdleTree) (hne : r ≠ target) {x : ℕ}
    (hx : target.Covers x) : r.offset ≠ x := by
  have hpos := size_pos_of_mem h.tiling.size_pos ((h.idle r).mp hr)
  obtain ⟨hlow, hhigh⟩ := hx
  rcases eq_or_apart h.tiling.size_pos ((h.idle r).mp hr) ((h.idle target).mp htarget) with
    ⟨-, heq⟩ | hstop | hstop
  · exact absurd heq hne
  · unfold Range.stop at hstop
    omega
  · omega

/-- What `allocate` does once it has found its target. -/
theorem allocate_of_target (hn : 0 < n) (hle : n ≤ m.size) (halign : allocatedSizeAlignUp n = s)
    {target : Range} (htarget : m.sizeIdleTree.lowerBound (sizeFirst ⟨0, s⟩) = some target)
    (hfind : m.addressIdleTree.find target.offset = some target) :
    m.allocate m.size n = (some (m.pointer target.offset),
      { m with
        addressIdleTree := if s < target.size then
            (m.addressIdleTree.erase target.offset).emplace
              ⟨wrap (target.offset + s), target.size - s⟩
          else m.addressIdleTree.erase target.offset
        addressUsedTree := m.addressUsedTree.emplace ⟨target.offset, s⟩
        sizeIdleTree := if s < target.size then
            (m.sizeIdleTree.erase (sizeFirst target)).emplace
              ⟨wrap (target.offset + s), target.size - s⟩
          else m.sizeIdleTree.erase (sizeFirst target) }) := by
  have hargs : ¬ (n = 0 ∨ m.size < n) := by omega
  unfold MemoryManager.allocate
  simp only [if_neg hargs, halign, htarget, hfind]
  by_cases hlt : s < target.size
  · simp only [if_pos hlt]
  · simp only [if_neg hlt]

/-- The target of an allocation is the best fit, and taking it cuts its block. -/
theorem Represents.allocate (h : Represents m blocks) (hm : Mapped m.base m.size) (hn : 0 < n)
    (hle : n ≤ m.size) :
    (m.allocate m.size n = (none, m) ∧ ∀ r ∈ m.addressIdleTree, r.size < align16 n) ∨
    ∃ pre s post, blocks = pre ++ ⟨s, false⟩ :: post ∧ align16 n ≤ s ∧
      (∀ r ∈ m.addressIdleTree, align16 n ≤ r.size → sizeFirst ⟨span pre, s⟩ ≤ sizeFirst r) ∧
      (m.allocate m.size n).1 = some (m.base + span pre) ∧
      Represents (m.allocate m.size n).2
        (pre ++ ⟨align16 n, true⟩ :: (idleBlock (s - align16 n) ++ post)) := by
  have hwide := hm.inside
  have hbase := hm.nonnull
  have halign : allocatedSizeAlignUp n = align16 n := allocatedSizeAlignUp_eq (by omega)
  have hfit := le_align16 n
  -- no range is large enough
  rcases htarget : m.sizeIdleTree.lowerBound (sizeFirst ⟨0, align16 n⟩) with _ | target
  · have hargs : ¬ (n = 0 ∨ m.size < n) := by omega
    refine Or.inl ⟨?_, fun r hr => ?_⟩
    · simp only [MemoryManager.allocate, if_neg hargs, halign, htarget]
    · have hnone := OrderedSet.first_eq_none.mp htarget r ((h.index r).mpr hr)
      rw [anchor_le_iff] at hnone
      omega
  -- the lower bound in the tree by size is the smallest range that fits
  obtain ⟨hsizes, hanchor, hmin⟩ := OrderedSet.first_eq_some.mp htarget
  rw [anchor_le_iff] at hanchor
  have hidle := (h.index target).mp hsizes
  rw [allocate_of_target hn hle halign htarget (OrderedSet.find_eq_some.mpr ⟨hidle, rfl⟩)]
  obtain ⟨pre, post, rfl, hoffset⟩ := h.split_of_idle hidle
  have htile := h.tiling.span_eq
  rw [span_append, span_cons] at htile
  obtain ⟨offset, s⟩ := target
  obtain rfl : offset = span pre := hoffset
  simp only at htile hanchor
  have hleft : wrap (span pre + align16 n) = span pre + align16 n := wrap_of_lt (by omega)
  refine Or.inr ⟨pre, s, post, rfl, hanchor, fun r hr hroom => ?_, ?_, ?_⟩
  · exact hmin r ((h.index r).mpr hr) (anchor_le_iff.mpr hroom)
  · exact congrArg some (wrap_of_lt (show m.base + span pre < 2 ^ 64 by omega))
  · rw [hleft]
    -- a remainder goes back to both trees, at an offset inside the block taken
    have herase := h.mem_erase hidle
    refine h.cut (by omega) hanchor (fun r => ?_) fun r => ?_
    · by_cases hlt : align16 n < s
      · have hfresh : ∀ b ∈ m.addressIdleTree.erase (span pre),
            b.offset ≠ span pre + align16 n := fun b hb =>
          h.offset_ne hidle ((herase b).1.mp hb).1 ((herase b).1.mp hb).2
            ⟨Nat.le_add_right _ _, Nat.add_lt_add_left hlt _⟩
        rw [if_pos hlt, OrderedSet.mem_emplace hfresh, (herase r).1, or_comm]
        exact or_congr_right (iff_and_self.mpr fun _ => hlt)
      · rw [if_neg hlt, (herase r).1]
        exact ⟨Or.inl, fun hr => hr.elim id fun hlt' => absurd hlt'.1 hlt⟩
    · by_cases hlt : align16 n < s
      · have hfresh : ∀ b ∈ m.addressIdleTree, b ≠ ⟨span pre, s⟩ →
            b.offset ≠ span pre + align16 n := fun b hb hne =>
          h.offset_ne hidle hb hne ⟨Nat.le_add_right _ _, Nat.add_lt_add_left hlt _⟩
        rw [if_pos hlt, if_pos hlt, OrderedSet.mem_emplace, OrderedSet.mem_emplace, (herase r).1,
          (herase r).2]
        · exact fun b hb => hfresh b ((herase b).1.mp hb).1 ((herase b).1.mp hb).2
        · intro b hb heq
          exact hfresh b ((herase b).2.mp hb).1 ((herase b).2.mp hb).2
            (congrArg Range.offset (sizeFirst_injective heq))
      · rw [if_neg hlt, if_neg hlt, (herase r).1, (herase r).2]

/-! ## Releasing -/

/-- Merging with the block in front, if that is idle. -/
theorem Represents.mergePrev {f : ℕ}
    (h : Represents m (pre ++ idleBlock f ++ ⟨s, true⟩ :: post)) (hm : m.size < 2 ^ 64)
    (hends : EndsUsed pre) :
    (m.mergePrev ⟨span pre + f, s⟩).final = ⟨span pre, f + s⟩ ∧
    ∀ r, (r ∈ (m.mergePrev ⟨span pre + f, s⟩).addressIdleTree ↔
        r ∈ m.addressIdleTree ∧ r ≠ ⟨span pre, f⟩) ∧
      (r ∈ (m.mergePrev ⟨span pre + f, s⟩).sizeIdleTree ↔
        r ∈ m.addressIdleTree ∧ r ≠ ⟨span pre, f⟩) := by
  have htile := h.tiling.span_eq
  have hpos := h.tiling.size_pos
  simp only [span_append, span_cons, span_idleBlock] at htile
  have hs : 0 < s := hpos ⟨s, true⟩ (by simp)
  -- the idle ranges in front of the block
  have hfront : ∀ r ∈ m.addressIdleTree, r.offset < span pre + f →
      r ∈ rangesOf false 0 pre ∨ (f ≠ 0 ∧ r = ⟨span pre, f⟩) := by
    intro r hr hlt
    rcases mem_rangesOf_split.mp ((h.idle r).mp hr) with hmem | ⟨hfalse, -⟩ | hmem
    · rcases mem_rangesOf_append.mp hmem with hmem | hmem
      · exact Or.inl hmem
      · obtain ⟨-, hne, heq⟩ := mem_rangesOf_idleBlock.mp hmem
        exact Or.inr ⟨hne, by rw [heq, Nat.zero_add]⟩
    · cases hfalse
    · have := bounds_of_mem hmem
      simp only [span_append, span_idleBlock] at this
      omega
  by_cases hf : f = 0
  · subst hf
    have hnone : ∀ prev, m.addressIdleTree.before (span pre + 0) = some prev →
        wrap (prev.offset + prev.size) ≠ span pre + 0 := by
      intro prev hprev heq
      obtain ⟨hidle, hlt, -⟩ := OrderedSet.last_eq_some.mp hprev
      rcases hfront prev hidle hlt with hmem | ⟨hne, -⟩
      · -- the last block in front is used, so the range ends before it
        have hb := bounds_of_mem hmem
        unfold Range.stop at hb
        rw [wrap_of_lt (by omega)] at heq
        rcases List.eq_nil_or_concat' pre with rfl | ⟨pre', b, rfl⟩
        · cases hmem
        · have hused : b.used = true := hends b (by simp)
          have hbsize : 0 < b.size := hpos b (by simp)
          rcases mem_rangesOf_split.mp hmem with hmem' | ⟨hfalse, -⟩ | hmem'
          · have hb' := bounds_of_mem hmem'
            unfold Range.stop at hb'
            simp only [span_append, span_cons, span_nil] at heq
            omega
          · rw [hused] at hfalse
            cases hfalse
          · cases hmem'
      · exact hne rfl
    have hrun : m.mergePrev ⟨span pre + 0, s⟩
        = ⟨⟨span pre, 0 + s⟩, m.addressIdleTree, m.sizeIdleTree⟩ := by
      unfold MemoryManager.mergePrev
      rcases hprev : m.addressIdleTree.before (span pre + 0) with _ | prev
      · simp only [Nat.add_zero, Nat.zero_add]
      · have hne := hnone prev hprev
        simp only [Nat.add_zero] at hne
        simp only [Nat.add_zero, if_neg hne, Nat.zero_add]
    have hzero : ∀ r ∈ m.addressIdleTree, r ≠ ⟨span pre, 0⟩ := by
      rintro r hr rfl
      exact absurd (size_pos_of_mem hpos ((h.idle _).mp hr)) (Nat.lt_irrefl 0)
    rw [hrun]
    exact ⟨rfl, fun r => ⟨(and_iff_left_of_imp (hzero r)).symm,
      (h.index r).trans (and_iff_left_of_imp (hzero r)).symm⟩⟩
  · have hprev : (⟨span pre, f⟩ : Range) ∈ m.addressIdleTree := by
      rw [h.idle, mem_rangesOf_split, mem_rangesOf_append, mem_rangesOf_idleBlock, Nat.zero_add]
      exact Or.inl (Or.inr ⟨rfl, hf, rfl⟩)
    have hbefore : m.addressIdleTree.before (span pre + f) = some ⟨span pre, f⟩ := by
      refine OrderedSet.last_eq_some.mpr ⟨hprev, ?_, fun r hr hlt => ?_⟩
      · show span pre < span pre + f
        omega
      · rcases hfront r hr hlt with hmem | ⟨-, rfl⟩
        · have hb := bounds_of_mem hmem
          unfold Range.stop at hb
          show r.offset ≤ span pre
          omega
        · exact le_refl _
    have hstop : wrap (span pre + f) = span pre + f := wrap_of_lt (by omega)
    have hsum : wrap (s + f) = f + s := by
      rw [wrap_of_lt (by omega), Nat.add_comm]
    have hrun : m.mergePrev ⟨span pre + f, s⟩ = ⟨⟨span pre, f + s⟩,
        m.addressIdleTree.erase (span pre), m.sizeIdleTree.erase (sizeFirst ⟨span pre, f⟩)⟩ := by
      unfold MemoryManager.mergePrev
      simp only [hbefore, hstop, hsum, if_true]
    rw [hrun]
    exact ⟨rfl, fun r => h.mem_erase hprev r⟩

/-- Merging with both neighbours. -/
theorem Represents.merge {f g : ℕ}
    (h : Represents m (pre ++ idleBlock f ++ ⟨s, true⟩ :: (idleBlock g ++ post)))
    (hm : m.size < 2 ^ 64) (hends : EndsUsed pre) (hstarts : StartsUsed post) :
    ((m.mergePrev ⟨span pre + f, s⟩).mergeNext ⟨span pre + f, s⟩).final
        = ⟨span pre, f + s + g⟩ ∧
    ∀ r, (r ∈ ((m.mergePrev ⟨span pre + f, s⟩).mergeNext ⟨span pre + f, s⟩).addressIdleTree ↔
        r ∈ m.addressIdleTree ∧ r ≠ ⟨span pre, f⟩ ∧ r ≠ ⟨span pre + f + s, g⟩) ∧
      (r ∈ ((m.mergePrev ⟨span pre + f, s⟩).mergeNext ⟨span pre + f, s⟩).sizeIdleTree ↔
        r ∈ m.addressIdleTree ∧ r ≠ ⟨span pre, f⟩ ∧ r ≠ ⟨span pre + f + s, g⟩) := by
  have htile := h.tiling.span_eq
  have hpos := h.tiling.size_pos
  simp only [span_append, span_cons, span_idleBlock] at htile
  have hs : 0 < s := hpos ⟨s, true⟩ (by simp)
  obtain ⟨hfinal, hmerged⟩ := h.mergePrev hm hends
  have hstop : wrap (span pre + f + s) = span pre + f + s := wrap_of_lt (by omega)
  -- the idle range that begins behind the block
  have hback : ∀ r ∈ m.addressIdleTree, r.offset = span pre + f + s →
      g ≠ 0 ∧ r = ⟨span pre + f + s, g⟩ := by
    intro r hr hoffset
    rcases mem_rangesOf_split.mp ((h.idle r).mp hr) with hmem | ⟨hfalse, -⟩ | hmem
    · have hb := bounds_of_mem hmem
      unfold Range.stop at hb
      simp only [span_append, span_idleBlock] at hb
      omega
    · cases hfalse
    · rw [span_append, span_idleBlock] at hmem
      replace hmem : r ∈ rangesOf false (span pre + f + s) (idleBlock g ++ post) := hmem
      rcases mem_rangesOf_append.mp hmem with hmem | hmem
      · exact (mem_rangesOf_idleBlock.mp hmem).2
      · rw [span_idleBlock] at hmem
        obtain ⟨l, l', rfl, hl⟩ := mem_rangesOf.mp hmem
        rcases l with _ | ⟨b, l⟩
        · have hused := hstarts ⟨r.size, false⟩ (by simp)
          cases hused
        · have hb : 0 < b.size := hpos b (by simp)
          rw [span_cons] at hl
          omega
  unfold Merge.mergeNext
  simp only [hstop]
  by_cases hg : g = 0
  · subst hg
    have hnone : (m.mergePrev ⟨span pre + f, s⟩).addressIdleTree.find (span pre + f + s)
        = none := by
      refine OrderedSet.find_eq_none.mpr fun r hr heq => ?_
      exact (hback r ((hmerged r).1.mp hr).1 heq).1 rfl
    have hzero : ∀ r ∈ m.addressIdleTree, r ≠ ⟨span pre + f + s, 0⟩ := by
      rintro r hr rfl
      exact absurd (size_pos_of_mem hpos ((h.idle _).mp hr)) (Nat.lt_irrefl 0)
    rw [hnone]
    refine ⟨hfinal, fun r => ?_⟩
    rw [(hmerged r).1, (hmerged r).2, and_self]
    exact and_congr_right fun hr => (and_iff_left (hzero r hr)).symm
  · have hnext : (⟨span pre + f + s, g⟩ : Range) ∈ m.addressIdleTree := by
      rw [h.idle, mem_rangesOf_split, span_append, span_idleBlock]
      exact Or.inr (Or.inr (mem_rangesOf_append.mpr
        (Or.inl (mem_rangesOf_idleBlock.mpr ⟨rfl, hg, rfl⟩))))
    have hne : (⟨span pre + f + s, g⟩ : Range) ≠ ⟨span pre, f⟩ := by
      intro heq
      have := congrArg Range.offset heq
      simp only at this
      omega
    have hfind : (m.mergePrev ⟨span pre + f, s⟩).addressIdleTree.find (span pre + f + s)
        = some ⟨span pre + f + s, g⟩ :=
      OrderedSet.find_eq_some.mpr ⟨(hmerged _).1.mpr ⟨hnext, hne⟩, rfl⟩
    have hsum : wrap (f + s + g) = f + s + g := wrap_of_lt (by omega)
    rw [hfind]
    simp only [hfinal, hsum]
    refine ⟨trivial, fun r => ?_⟩
    rw [OrderedSet.mem_erase, OrderedSet.mem_erase, (hmerged r).1, (hmerged r).2, and_assoc,
      and_assoc]
    constructor
    · refine and_congr_right fun hr => and_congr_right fun _ => not_congr ⟨fun heq => ?_, ?_⟩
      · exact (hback r hr heq).2
      · rintro rfl
        rfl
    · exact and_congr_right fun _ => and_congr_right fun _ =>
        not_congr ⟨sizeFirst_injective, fun heq => heq ▸ rfl⟩

/-- A release of a live block joins it with its idle neighbours. -/
theorem Represents.release (h : Represents m blocks) (hm : Mapped m.base m.size) {r : Range}
    (hr : r ∈ m.addressUsedTree) :
    (m.release (m.base + r.offset)).1 = 0 ∧
    (∀ x, x ∈ (m.release (m.base + r.offset)).2.addressUsedTree ↔ x ∈ m.addressUsedTree ∧ x ≠ r) ∧
    ∃ blocks', Represents (m.release (m.base + r.offset)).2 blocks' := by
  obtain ⟨pre, post, rfl, hoffset⟩ := h.split_of_used hr
  obtain ⟨offset, s⟩ := r
  obtain rfl : offset = span pre := hoffset
  obtain ⟨pre, f, g, post, rfl, rfl, hends, hstarts⟩ := h.tiling.neighbours
  have hwide := hm.inside
  have htile := h.tiling.span_eq
  have hpos := h.tiling.size_pos
  have hs : 0 < s := hpos ⟨s, true⟩ (by simp)
  simp only [span_append, span_cons, span_idleBlock] at htile hr ⊢
  have hfind : m.addressUsedTree.find (m.base + (span pre + f) - m.base)
      = some ⟨span pre + f, s⟩ :=
    OrderedSet.find_eq_some.mpr ⟨hr, (Nat.add_sub_cancel_left _ _).symm⟩
  have hinside : ¬ (m.base + (span pre + f) < m.base ∨
      wrap (m.base + m.size) ≤ m.base + (span pre + f)) := by
    rw [wrap_of_lt hwide]
    omega
  have hused : ∀ x, x ∈ m.addressUsedTree.erase (span pre + f) ↔
      x ∈ m.addressUsedTree ∧ x ≠ ⟨span pre + f, s⟩ := by
    intro x
    rw [OrderedSet.mem_erase]
    refine and_congr_right fun hx => not_congr ⟨fun heq => ?_, fun heq => heq ▸ rfl⟩
    exact OrderedSet.eq_of_key hx hr heq
  obtain ⟨hfinal, hmerged⟩ := h.merge (by omega) hends hstarts
  -- used ranges are no idle ones
  have hkind : ∀ {u v : Bool} {x y : Range}, x ∈ rangesOf u 0 (pre ++ idleBlock f ++
      ⟨s, true⟩ :: (idleBlock g ++ post)) → y ∈ rangesOf v 0 (pre ++ idleBlock f ++
      ⟨s, true⟩ :: (idleBlock g ++ post)) → u ≠ v → x ≠ y := by
    rintro u v x y hx hy hne rfl
    have hsize := size_pos_of_mem hpos hx
    rcases eq_or_apart hpos hx hy with ⟨huv, -⟩ | hstop | hstop
    · exact hne huv
    · unfold Range.stop at hstop
      omega
    · unfold Range.stop at hstop
      omega
  have hkept : ∀ x, x ∈ ((m.mergePrev ⟨span pre + f, s⟩).mergeNext
      ⟨span pre + f, s⟩).addressIdleTree ↔
      x ∈ rangesOf false 0 pre ∨ x ∈ rangesOf false (span pre + (f + s + g)) post := by
    intro x
    rw [(hmerged x).1, mem_rangesOf_outside hpos, h.idle]
    refine and_congr_right fun hx => and_congr_right fun _ => (and_iff_right ?_).symm
    exact hkind hx ((h.used _).mp hr) nofun
  have hfresh : ∀ x, x ∈ rangesOf false 0 pre ∨ x ∈ rangesOf false (span pre + (f + s + g)) post →
      x.offset ≠ span pre := by
    rintro x (hx | hx) heq
    · have hsize := size_pos_of_mem (fun b hb => hpos b (by simp [hb])) hx
      have hb := bounds_of_mem hx
      unfold Range.stop at hb
      omega
    · have hb := bounds_of_mem hx
      omega
  unfold MemoryManager.release
  simp only [if_neg hinside, hfind, hfinal]
  refine ⟨trivial, hused, pre ++ ⟨f + s + g, false⟩ :: post, h.tiling.join hends hstarts, ?_, ?_, ?_⟩
  · intro x
    rw [OrderedSet.mem_emplace fun b hb => hfresh b ((hkept b).mp hb), hkept, mem_rangesOf_split]
    show x = ⟨span pre, f + s + g⟩ ∨ _ ↔ _ ∨ (false = false ∧ x = ⟨span pre, f + s + g⟩) ∨ _
    tauto
  · intro x
    have houter : x ∈ rangesOf true 0 (pre ++ ⟨f + s + g, false⟩ :: post) ↔
        x ∈ rangesOf true 0 pre ∨ x ∈ rangesOf true (span pre + (f + s + g)) post := by
      rw [mem_rangesOf_split]
      show _ ∨ (false = true ∧ _) ∨ _ ↔ _
      simp
    rw [hused, h.used, houter]
    constructor
    · rintro ⟨hx, hne⟩
      rcases mem_rangesOf_neighbours.mp hx with (hx | ⟨htrue, -⟩) | ⟨-, heq⟩ | ⟨htrue, -⟩ | hx
      · exact Or.inl hx
      · cases htrue
      · exact absurd heq hne
      · cases htrue
      · exact Or.inr (by rwa [← Nat.add_assoc, ← Nat.add_assoc])
    · intro hx
      obtain ⟨hmem, -, hne, -⟩ := (mem_rangesOf_outside hpos).mp hx
      exact ⟨hmem, hne⟩
  · intro x
    rw [OrderedSet.mem_emplace fun b hb => hfresh b ((hkept b).mp hb), OrderedSet.mem_emplace,
      (hmerged x).1, (hmerged x).2]
    intro b hb heq
    have hmem := (hkept b).mp ((hmerged b).1.mpr ((hmerged b).2.mp hb))
    exact hfresh b hmem (congrArg Range.offset (sizeFirst_injective heq))

end Operations

end AscendShmem.Heap
