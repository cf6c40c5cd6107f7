import Mathlib
import AscendShmem.Lib.OrderedSet
import AscendShmem.Lib.Tiling

/-!
# The symmetric heap manager

`memory_manager` of `shmem_mgr.cpp`: two address-ordered maps, one of the idle and one of the live
ranges, and the idle ranges once more in the order of their size. Every operation edits the three
one by one; `emplace` leaves an entry alone that is already there. Numbers are `uint64_t` and wrap.
-/

namespace AscendShmem.Heap

open Lib

/-- `uint64_t` arithmetic. -/
def wrap (n : ℕ) : ℕ := n % 2 ^ 64

/-- `std::map<uint64_t, uint64_t>`, the sizes of ranges by their offset. -/
abbrev AddressTree := OrderedSet Range.offset

/-- `range_size_first_comparator`. -/
def sizeFirst (mr : Range) : ℕ ×ₗ ℕ := toLex (mr.size, mr.offset)

/-- `size_idle_tree_`, ordered by size and then by offset. -/
abbrev SizeTree := OrderedSet sizeFirst

/-- The fields of `memory_manager`. -/
structure MemoryManager where
  base : ℕ
  size : ℕ
  addressIdleTree : AddressTree
  addressUsedTree : AddressTree
  sizeIdleTree : SizeTree

/-- A fresh `memory_manager(base, size)`. -/
def MemoryManager.mk' (base size : ℕ) : MemoryManager where
  base := base
  size := size
  addressIdleTree := OrderedSet.empty.emplace ⟨0, size⟩
  addressUsedTree := OrderedSet.empty
  sizeIdleTree := OrderedSet.empty.emplace ⟨0, size⟩

/-- `allocated_size_align_up`: a multiple of 16. -/
def allocatedSizeAlignUp (inputSize : ℕ) : ℕ := wrap (inputSize + 15) / 16 * 16

/-- The pointer to an offset. -/
def MemoryManager.pointer (m : MemoryManager) (offset : ℕ) : ℕ := wrap (m.base + offset)

/-- `allocate`; `none` is the null pointer, `heapSize` is `g_state.heap_size`. -/
def MemoryManager.allocate (m : MemoryManager) (heapSize size : ℕ) : Option ℕ × MemoryManager :=
  if size = 0 ∨ heapSize < size then (none, m)
  else
    let alignedSize := allocatedSizeAlignUp size
    match m.sizeIdleTree.lowerBound (sizeFirst ⟨0, alignedSize⟩) with
    | none => (none, m)
    | some target =>
      match m.addressIdleTree.find target.offset with
      | none => (none, m)
      | some _ =>
        let sizeIdle := m.sizeIdleTree.erase (sizeFirst target)
        let addressIdle := m.addressIdleTree.erase target.offset
        let addressUsed := m.addressUsedTree.emplace ⟨target.offset, alignedSize⟩
        if alignedSize < target.size then
          let left : Range := ⟨wrap (target.offset + alignedSize), target.size - alignedSize⟩
          (some (m.pointer target.offset),
            { m with
              addressIdleTree := addressIdle.emplace left
              addressUsedTree := addressUsed
              sizeIdleTree := sizeIdle.emplace left })
        else
          (some (m.pointer target.offset),
            { m with
              addressIdleTree := addressIdle
              addressUsedTree := addressUsed
              sizeIdleTree := sizeIdle })

/-- `alignment_matches`: the bytes to skip at the front of `mr`, if it then still has room. -/
def alignmentMatches (mr : Range) (alignment size : ℕ) : Option ℕ :=
  if mr.size < size then none
  else if mr.offset &&& (alignment - 1) = 0 then some 0
  else
    -- `& ~(alignment - 1)`
    let alignedOffset := wrap (mr.offset + alignment - 1) &&& (2 ^ 64 - 1 - (alignment - 1))
    let headSkip := wrap (alignedOffset + 2 ^ 64 - mr.offset)
    if wrap (size + headSkip) ≤ mr.size then some headSkip else none

/-- The idle range `aligned_allocate` takes: the walk up the size tree from the lower bound. -/
def MemoryManager.alignedTarget (m : MemoryManager) (heapSize alignment size : ℕ) : Option Range :=
  if size = 0 ∨ alignment = 0 ∨ heapSize < size then none
  else if alignment &&& (alignment - 1) ≠ 0 then none
  else
    let alignedSize := allocatedSizeAlignUp size
    m.sizeIdleTree.first fun mr => sizeFirst ⟨0, alignedSize⟩ ≤ sizeFirst mr ∧
      (alignmentMatches mr alignment alignedSize).isSome

/-- `aligned_allocate`. It takes the target out of the size tree and does not touch its entry in
the address tree. -/
def MemoryManager.alignedAllocate (m : MemoryManager) (heapSize alignment size : ℕ) :
    Option ℕ × MemoryManager :=
  match m.alignedTarget heapSize alignment size with
  | none => (none, m)
  | some target =>
    let alignedSize := allocatedSizeAlignUp size
    let headSkip := (alignmentMatches target alignment alignedSize).getD 0
    let result : Range := ⟨wrap (target.offset + headSkip), alignedSize⟩
    let sizeIdle := m.sizeIdleTree.erase (sizeFirst target)
    let head : Range := ⟨target.offset, headSkip⟩
    let (sizeIdle, addressIdle) := if 0 < headSkip then
        (sizeIdle.emplace head, m.addressIdleTree.emplace head) else (sizeIdle, m.addressIdleTree)
    let left : Range := ⟨wrap (target.offset + headSkip + alignedSize),
      wrap (target.size + 2 ^ 64 + 2 ^ 64 - headSkip - alignedSize)⟩
    let (sizeIdle, addressIdle) := if wrap (headSkip + alignedSize) < target.size then
        (sizeIdle.emplace left, addressIdle.emplace left) else (sizeIdle, addressIdle)
    (some (m.pointer result.offset),
      { m with
        addressIdleTree := addressIdle
        addressUsedTree := m.addressUsedTree.emplace result
        sizeIdleTree := sizeIdle })

/-- What `release` has merged so far. -/
structure Merge where
  final : Range
  addressIdleTree : AddressTree
  sizeIdleTree : SizeTree

/-- Merging the idle range in front of a released one. -/
def MemoryManager.mergePrev (m : MemoryManager) (freed : Range) : Merge :=
  match m.addressIdleTree.before freed.offset with
  | some prev =>
    if wrap (prev.offset + prev.size) = freed.offset then
      ⟨⟨prev.offset, wrap (freed.size + prev.size)⟩, m.addressIdleTree.erase prev.offset,
        m.sizeIdleTree.erase (sizeFirst prev)⟩
    else ⟨freed, m.addressIdleTree, m.sizeIdleTree⟩
  | none => ⟨freed, m.addressIdleTree, m.sizeIdleTree⟩

/-- Merging the idle range behind a released one. -/
def Merge.mergeNext (s : Merge) (freed : Range) : Merge :=
  match s.addressIdleTree.find (wrap (freed.offset + freed.size)) with
  | some next =>
    ⟨⟨s.final.offset, wrap (s.final.size + next.size)⟩, s.addressIdleTree.erase next.offset,
      s.sizeIdleTree.erase (sizeFirst next)⟩
  | none => s

/-- `release`: the return code and the heap. -/
def MemoryManager.release (m : MemoryManager) (address : ℕ) : ℤ × MemoryManager :=
  if address < m.base ∨ wrap (m.base + m.size) ≤ address then (-1, m)
  else
    match m.addressUsedTree.find (address - m.base) with
    | none => (-1, m)
    | some freed =>
      let merged := (m.mergePrev freed).mergeNext freed
      (0,
        { m with
          addressIdleTree := merged.addressIdleTree.emplace merged.final
          addressUsedTree := m.addressUsedTree.erase freed.offset
          sizeIdleTree := merged.sizeIdleTree.emplace merged.final })

/-! ## Runs -/

/-- A call of the manager. -/
inductive Call where
  | allocate (size : ℕ)
  | alignedAllocate (alignment size : ℕ)
  | release (address : ℕ)
deriving DecidableEq, Repr

/-- The heap after one call. -/
def MemoryManager.step (heapSize : ℕ) (m : MemoryManager) : Call → MemoryManager
  | .allocate size => (m.allocate heapSize size).2
  | .alignedAllocate alignment size => (m.alignedAllocate heapSize alignment size).2
  | .release address => (m.release address).2

/-- The heap after a sequence of calls. -/
def MemoryManager.run (heapSize : ℕ) (m : MemoryManager) (calls : List Call) : MemoryManager :=
  calls.foldl (MemoryManager.step heapSize) m

end AscendShmem.Heap
