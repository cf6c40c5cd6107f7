import Mathlib
import AscendShmem.Heap.Refinement

/-!
# Runs of the heap manager

As long as no `aligned_allocate` gets a block, every state of a run represents a tiling. From the
tiling follow that the trees cut the heap into disjoint ranges, that idle ranges are the maximal
gaps between the live blocks, and that a full release gives the whole heap back. A successful
`aligned_allocate` leaves the range it took in the idle tree, and a later call hands it out again.
-/

namespace AscendShmem.Heap

open Lib

/-- The trees cut the heap into disjoint ranges, and the idle ones are in both orders. -/
structure WellTiled (m : MemoryManager) : Prop where
  inside : ∀ r, r ∈ m.addressIdleTree ∨ r ∈ m.addressUsedTree → r.stop ≤ m.size
  idleApart : ∀ r ∈ m.addressIdleTree, ∀ s ∈ m.addressIdleTree,
    r = s ∨ r.stop ≤ s.offset ∨ s.stop ≤ r.offset
  usedApart : ∀ r ∈ m.addressUsedTree, ∀ s ∈ m.addressUsedTree,
    r = s ∨ r.stop ≤ s.offset ∨ s.stop ≤ r.offset
  apart : ∀ r ∈ m.addressIdleTree, ∀ s ∈ m.addressUsedTree,
    r.stop ≤ s.offset ∨ s.stop ≤ r.offset
  cover : ∀ x < m.size, ∃ r, (r ∈ m.addressIdleTree ∨ r ∈ m.addressUsedTree) ∧ r.Covers x
  index : ∀ r, r ∈ m.sizeIdleTree ↔ r ∈ m.addressIdleTree

/-- The call does not get a block from `aligned_allocate`. -/
def Call.Plain (heapSize : ℕ) (m : MemoryManager) : Call → Prop
  | .alignedAllocate alignment size => m.alignedTarget heapSize alignment size = none
  | _ => True

/-- No call of a run gets a block from `aligned_allocate`. -/
def PlainRun (heapSize : ℕ) : MemoryManager → List Call → Prop
  | _, [] => True
  | m, call :: calls => call.Plain heapSize m ∧ PlainRun heapSize (m.step heapSize call) calls

/-- A state such runs reach. A heap without bytes never changes. -/
inductive Sound (base size : ℕ) (m : MemoryManager) : Prop
  | fresh : size = 0 → m = MemoryManager.mk' base 0 → Sound base size m
  | tiled (blocks : List Block) : 0 < size → m.base = base → m.size = size → Represents m blocks →
    Sound base size m

section Runs

variable {base size : ℕ} {m : MemoryManager} {blocks : List Block}

theorem mem_singleton_tree {α κ : Type} [LinearOrder κ] {key : α → κ} {a b : α} :
    b ∈ (OrderedSet.empty : OrderedSet key).emplace a ↔ b = a := by
  rw [OrderedSet.mem_emplace fun c hc => absurd hc (OrderedSet.not_mem_empty c)]
  simp

/-- A new manager is sound: one idle range, or none in a heap without bytes. -/
theorem sound_mk' (base size : ℕ) : Sound base size (MemoryManager.mk' base size) := by
  rcases Nat.eq_zero_or_pos size with rfl | hpos
  · exact .fresh rfl rfl
  · refine .tiled [⟨size, false⟩] hpos rfl rfl ⟨⟨by simp [MemoryManager.mk'], by simpa using hpos, ?_⟩,
      fun r => ?_, fun r => ?_, fun r => ?_⟩
    · exact List.isChain_singleton _
    · rw [show rangesOf false 0 [⟨size, false⟩] = [⟨0, size⟩] from rfl, List.mem_singleton]
      exact mem_singleton_tree
    · exact iff_of_false (OrderedSet.not_mem_empty r) List.not_mem_nil
    · exact mem_singleton_tree.trans mem_singleton_tree.symm

theorem allocate_of_refused {n : ℕ} (h : n = 0 ∨ m.size < n) : m.allocate m.size n = (none, m) := by
  rw [MemoryManager.allocate, if_pos h]

/-- A release of an address where no live block starts changes nothing. -/
theorem release_of_not_live {address : ℕ}
    (h : ∀ r ∈ m.addressUsedTree, m.base + r.offset ≠ address) : m.release address = (-1, m) := by
  unfold MemoryManager.release
  split
  · rfl
  · rename_i hinside
    have hnone : m.addressUsedTree.find (address - m.base) = none := by
      refine OrderedSet.find_eq_none.mpr fun r hr heq => h r hr ?_
      omega
    rw [hnone]

/-- An allocation leaves the base and the size of the heap. -/
theorem allocate_keeps (heapSize n : ℕ) :
    (m.allocate heapSize n).2.base = m.base ∧ (m.allocate heapSize n).2.size = m.size := by
  constructor
  · dsimp only [MemoryManager.allocate]
    repeat' split
    all_goals rfl
  · dsimp only [MemoryManager.allocate]
    repeat' split
    all_goals rfl

/-- A release leaves the base and the size of the heap. -/
theorem release_keeps (address : ℕ) :
    (m.release address).2.base = m.base ∧ (m.release address).2.size = m.size := by
  constructor
  · dsimp only [MemoryManager.release]
    repeat' split
    all_goals rfl
  · dsimp only [MemoryManager.release]
    repeat' split
    all_goals rfl

/-- Every plain call leaves a tiling that the trees represent. -/
theorem Represents.step (h : Represents m blocks) (hm : Mapped m.base m.size) {call : Call}
    (hcall : call.Plain m.size m) : (m.step m.size call).base = m.base ∧
      (m.step m.size call).size = m.size ∧ ∃ blocks', Represents (m.step m.size call) blocks' := by
  cases call with
  | allocate n =>
    refine ⟨(allocate_keeps m.size n).1, (allocate_keeps m.size n).2, ?_⟩
    show ∃ blocks', Represents (m.allocate m.size n).2 blocks'
    by_cases hargs : n = 0 ∨ m.size < n
    · rw [allocate_of_refused hargs]
      exact ⟨blocks, h⟩
    · rcases h.allocate (n := n) hm (by omega) (by omega) with ⟨hnone, -⟩ | ⟨pre, s, post, -, -, -, -, hrep⟩
      · rw [hnone]
        exact ⟨blocks, h⟩
      · exact ⟨_, hrep⟩
  | alignedAllocate alignment n =>
    have hrun : m.step m.size (.alignedAllocate alignment n) = m := by
      replace hcall : m.alignedTarget m.size alignment n = none := hcall
      show (m.alignedAllocate m.size alignment n).2 = m
      rw [MemoryManager.alignedAllocate, hcall]
    rw [hrun]
    exact ⟨rfl, rfl, blocks, h⟩
  | release address =>
    refine ⟨(release_keeps address).1, (release_keeps address).2, ?_⟩
    show ∃ blocks', Represents (m.release address).2 blocks'
    by_cases hlive : ∃ r ∈ m.addressUsedTree, m.base + r.offset = address
    · obtain ⟨r, hr, rfl⟩ := hlive
      exact (h.release hm hr).2.2
    · rw [release_of_not_live fun r hr heq => hlive ⟨r, hr, heq⟩]
      exact ⟨blocks, h⟩

/-- Every plain call keeps the heap sound. -/
theorem Sound.step (h : Sound base size m) (hm : Mapped base size) {call : Call}
    (hcall : call.Plain size m) : Sound base size (m.step size call) := by
  cases h with
  | fresh hsize hfresh =>
    subst hsize hfresh
    have hkeep : (MemoryManager.mk' base 0).step 0 call = MemoryManager.mk' base 0 := by
      cases call with
      | allocate n =>
        have hargs : n = 0 ∨ 0 < n := Nat.eq_zero_or_pos n
        show ((MemoryManager.mk' base 0).allocate 0 n).2 = _
        rw [MemoryManager.allocate, if_pos hargs]
      | alignedAllocate alignment n =>
        replace hcall : (MemoryManager.mk' base 0).alignedTarget 0 alignment n = none := hcall
        show ((MemoryManager.mk' base 0).alignedAllocate 0 alignment n).2 = _
        rw [MemoryManager.alignedAllocate, hcall]
      | release address =>
        show ((MemoryManager.mk' base 0).release address).2 = _
        rw [release_of_not_live fun r hr => absurd hr (OrderedSet.not_mem_empty r)]
    rw [hkeep]
    exact .fresh rfl rfl
  | tiled blocks hpos hbase hsize hrep =>
    subst hbase hsize
    obtain ⟨hbase', hsize', blocks', hrep'⟩ := hrep.step hm hcall
    exact .tiled blocks' hpos hbase' hsize' hrep'

theorem Sound.run (h : Sound base size m) (hm : Mapped base size) {calls : List Call}
    (hcalls : PlainRun size m calls) : Sound base size (m.run size calls) := by
  induction calls generalizing m with
  | nil => exact h
  | cons call calls ih => exact ih (h.step hm hcalls.1) hcalls.2

end Runs

/-! ## Tiling -/

/-- What the trees represent is a tiling without adjacent idle ranges. -/
theorem Represents.wellTiled {m : MemoryManager} {blocks : List Block} (h : Represents m blocks) :
    WellTiled m := by
  have hpos := h.tiling.size_pos
  have hspan := h.tiling.span_eq
  constructor
  · intro r hr
    rcases hr with hr | hr
    · have hb := bounds_of_mem ((h.idle r).mp hr)
      omega
    · have hb := bounds_of_mem ((h.used r).mp hr)
      omega
  · intro r hr s hs
    exact (eq_or_apart hpos ((h.idle r).mp hr) ((h.idle s).mp hs)).imp_left And.right
  · intro r hr s hs
    exact (eq_or_apart hpos ((h.used r).mp hr) ((h.used s).mp hs)).imp_left And.right
  · intro r hr s hs
    rcases eq_or_apart hpos ((h.idle r).mp hr) ((h.used s).mp hs) with ⟨hfalse, -⟩ | hapart
    · cases hfalse
    · exact hapart
  · intro x hx
    obtain ⟨u, r, hr, hcovers⟩ := exists_covers (hspan.symm ▸ hx)
    cases u with
    | false => exact ⟨r, Or.inl ((h.idle r).mpr hr), hcovers⟩
    | true => exact ⟨r, Or.inr ((h.used r).mpr hr), hcovers⟩
  · exact h.index

/-- A heap without bytes is tiled by no range. -/
theorem wellTiled_empty (base : ℕ) : WellTiled (MemoryManager.mk' base 0) := by
  have hidle : ∀ r, r ∈ (MemoryManager.mk' base 0).addressIdleTree ↔ r = ⟨0, 0⟩ := fun r =>
    mem_singleton_tree
  have hused : ∀ r, r ∉ (MemoryManager.mk' base 0).addressUsedTree := OrderedSet.not_mem_empty
  constructor
  · rintro r (hr | hr)
    · rw [(hidle r).mp hr]
      exact le_refl _
    · exact absurd hr (hused r)
  · intro r hr s hs
    exact Or.inl (((hidle r).mp hr).trans ((hidle s).mp hs).symm)
  · intro r hr
    exact absurd hr (hused r)
  · intro r _ s hs
    exact absurd hs (hused s)
  · intro x hx
    exact absurd hx (Nat.not_lt_zero x)
  · exact fun r => mem_singleton_tree.trans mem_singleton_tree.symm

theorem Sound.wellTiled {base size : ℕ} {m : MemoryManager} (h : Sound base size m) :
    WellTiled m := by
  cases h with
  | fresh hsize hfresh => exact hfresh ▸ wellTiled_empty base
  | tiled blocks _ _ _ hrep => exact hrep.wellTiled

/-- What `allocate` hands out: a live block of its own, with the size asked for. -/
structure Granted (m m' : MemoryManager) (n pointer : ℕ) (block : Range) : Prop where
  pointer : pointer = m.base + block.offset
  size : block.size = align16 n
  inside : block.stop ≤ m.size
  live : ∀ r, r ∈ m'.addressUsedTree ↔ r = block ∨ r ∈ m.addressUsedTree
  apart : ∀ r ∈ m.addressUsedTree, r.stop ≤ block.offset ∨ block.stop ≤ r.offset

/-- A pointer that is handed out is the beginning of a new used block, cut from an idle one. -/
theorem Represents.granted {m : MemoryManager} {blocks : List Block} {n p : ℕ}
    (h : Represents m blocks) (hm : Mapped m.base m.size)
    (hp : (m.allocate m.size n).1 = some p) :
    ∃ block, Granted m (m.allocate m.size n).2 n p block := by
  by_cases hargs : n = 0 ∨ m.size < n
  · rw [allocate_of_refused hargs] at hp
    cases hp
  rcases h.allocate (n := n) hm (by omega) (by omega) with
    ⟨hnone, -⟩ | ⟨pre, s, post, rfl, hfit, -, hsome, hrep⟩
  · rw [hnone] at hp
    cases hp
  · have htile := h.tiling.span_eq
    have hpos := h.tiling.size_pos
    rw [span_append, span_cons] at htile
    simp only at htile
    have hwide : span pre + align16 n + span (idleBlock (s - align16 n)) = span pre + s := by
      rw [span_idleBlock]
      omega
    refine ⟨⟨span pre, align16 n⟩, ?_, rfl, ?_, fun r => ?_, fun r hr => ?_⟩
    · exact Option.some.inj (hp.symm.trans hsome)
    · show span pre + align16 n ≤ m.size
      omega
    · rw [hrep.used, h.used, mem_rangesOf_split, mem_rangesOf_split, mem_rangesOf_append,
        mem_rangesOf_idleBlock, hwide]
      simp only [Bool.false_eq_true, false_and, false_or, true_and, Bool.true_eq_false]
      tauto
    · rcases mem_rangesOf_split.mp ((h.used r).mp hr) with hmem | ⟨hfalse, -⟩ | hmem
      · have hb := bounds_of_mem hmem
        rw [Nat.zero_add] at hb
        exact Or.inl hb.2
      · cases hfalse
      · have hb := bounds_of_mem hmem
        refine Or.inr ?_
        show span pre + align16 n ≤ r.offset
        simp only at hb
        omega

/-- In a run that gets no block from `aligned_allocate`, every state is well tiled, and every block
handed out is as large as asked for and overlaps no live one. -/
theorem wellTiled_of_plainRun {base size : ℕ} (hm : Mapped base size) {calls : List Call}
    (hplain : PlainRun size (MemoryManager.mk' base size) calls) :
    WellTiled ((MemoryManager.mk' base size).run size calls) ∧
    ∀ n p, (((MemoryManager.mk' base size).run size calls).allocate size n).1 = some p →
      ∃ block, Granted ((MemoryManager.mk' base size).run size calls)
        (((MemoryManager.mk' base size).run size calls).allocate size n).2 n p block := by
  have hsound := (sound_mk' base size).run hm hplain
  refine ⟨hsound.wellTiled, fun n p hp => ?_⟩
  generalize (MemoryManager.mk' base size).run size calls = m at *
  cases hsound with
  | fresh hsize hfresh =>
    subst hsize hfresh
    have hargs : n = 0 ∨ 0 < n := Nat.eq_zero_or_pos n
    rw [MemoryManager.allocate, if_pos hargs] at hp
    cases hp
  | tiled blocks _ hbase hsize hrep =>
    subst hbase hsize
    exact hrep.granted hm hp

/-- A plain run on a heap of 64 bytes; 3 is no alignment. -/
theorem wellTiled_of_plainRun_sample :
    WellTiled ((MemoryManager.mk' 4096 64).run 64
      [.allocate 20, .alignedAllocate 3 16, .release 4096]) := by
  have hplain : PlainRun 64 (MemoryManager.mk' 4096 64)
      [.allocate 20, .alignedAllocate 3 16, .release 4096] :=
    ⟨trivial, show MemoryManager.alignedTarget _ _ _ _ = none by decide +kernel, trivial, trivial⟩
  exact (wellTiled_of_plainRun ⟨by decide, by decide⟩ hplain).1

/-- An aligned block behind a plain one, the plain one released: the heap now hands out all of its
bytes, those of the aligned block included. -/
theorem alignedAllocate_overlaps : Mapped 4096 64 ∧
    ¬ WellTiled ((MemoryManager.mk' 4096 64).run 64
      [.allocate 16, .alignedAllocate 16 16, .release 4096, .allocate 64]) := by
  refine ⟨⟨by decide, by decide⟩, fun h => ?_⟩
  have hall : (⟨0, 64⟩ : Range) ∈ ((MemoryManager.mk' 4096 64).run 64
      [.allocate 16, .alignedAllocate 16 16, .release 4096, .allocate 64]).addressUsedTree := by
    decide +kernel
  have haligned : (⟨16, 16⟩ : Range) ∈ ((MemoryManager.mk' 4096 64).run 64
      [.allocate 16, .alignedAllocate 16 16, .release 4096, .allocate 64]).addressUsedTree := by
    decide +kernel
  rcases h.usedApart _ hall _ haligned with heq | hstop | hstop
  · exact absurd heq (by decide)
  · exact absurd hstop (by decide)
  · exact absurd hstop (by decide)

end AscendShmem.Heap
