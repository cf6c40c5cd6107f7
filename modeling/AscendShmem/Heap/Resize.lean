import Mathlib
import AscendShmem.Heap.Runs
import AscendShmem.Lib.Tiles

/-!
# Resizing a block

`change_size` of `shmem_mgr.cpp` moves the boundary between a live block and the idle range behind
it. A map entry is changed in place, which keeps its key: the size of an idle range can change that
way, the place where it begins cannot. What the heap owes its callers is stated for any heap whose
used and idle ranges tile it, whether idle ranges lie side by side or not.
-/

namespace AscendShmem.Heap

open Lib

/-- `pos->second = n` for the entry `r`. -/
def setSize (tree : AddressTree) (r : Range) (n : ℕ) : AddressTree :=
  (tree.erase r.offset).emplace ⟨r.offset, n⟩

/-- `reduce_size_in_lock` -/
def MemoryManager.reduceSize (m : MemoryManager) (pos : Range) (newSize : ℕ) : MemoryManager :=
  let addressUsed := setSize m.addressUsedTree pos newSize
  match m.addressIdleTree.find (wrap (pos.offset + pos.size)) with
  | none =>
    let left : Range := ⟨wrap (pos.offset + newSize), pos.size - newSize⟩
    { m with
      addressIdleTree := m.addressIdleTree.emplace left
      addressUsedTree := addressUsed
      sizeIdleTree := m.sizeIdleTree.emplace left }
  | some next =>
    let grown := wrap (next.size + (pos.size - newSize))
    { m with
      addressIdleTree := setSize m.addressIdleTree next grown
      addressUsedTree := addressUsed
      sizeIdleTree := (m.sizeIdleTree.erase (sizeFirst next)).emplace ⟨next.offset, grown⟩ }

/-- `expend_size_in_lock` -/
def MemoryManager.expendSize (m : MemoryManager) (pos : Range) (newSize : ℕ) :
    Bool × MemoryManager :=
  let delta := newSize - pos.size
  match m.addressIdleTree.find (wrap (pos.offset + pos.size)) with
  | none => (false, m)
  | some next =>
    if next.size < delta then (false, m)
    else
      let addressUsed := setSize m.addressUsedTree pos newSize
      if next.size = delta then
        (true,
          { m with
            addressIdleTree := m.addressIdleTree.erase next.offset
            addressUsedTree := addressUsed
            sizeIdleTree := m.sizeIdleTree.erase (sizeFirst next) })
      else
        (true,
          { m with
            addressIdleTree := setSize m.addressIdleTree next (next.size - delta)
            addressUsedTree := addressUsed
            sizeIdleTree := (m.sizeIdleTree.erase (sizeFirst next)).emplace
              ⟨next.offset, next.size - delta⟩ })

/-- `change_size` -/
def MemoryManager.changeSize (m : MemoryManager) (address size : ℕ) : Bool × MemoryManager :=
  if address < m.base ∨ wrap (m.base + m.size) ≤ address then (false, m)
  else if size = 0 then (true, (m.release address).2)
  else
    match m.addressUsedTree.find (address - m.base) with
    | none => (false, m)
    | some pos =>
      if pos.size = size then (true, m)
      else if size < pos.size then (true, m.reduceSize pos size)
      else m.expendSize pos size

/-! ## Heaps that are tiled -/

/-- The used and the idle ranges. -/
def MemoryManager.tile (m : MemoryManager) : Bool → Range → Prop
  | true, r => r ∈ m.addressUsedTree
  | false, r => r ∈ m.addressIdleTree

/-- The used and the idle ranges tile the heap, and both idle indexes agree. -/
structure Tiled (m : MemoryManager) : Prop where
  tiles : Tiles m.size m.tile
  index : ∀ r, r ∈ m.sizeIdleTree ↔ r ∈ m.addressIdleTree

/-- Every used and every idle range begins at a multiple of 16. -/
def Aligned (m : MemoryManager) : Prop := ∀ u r, m.tile u r → 16 ∣ r.offset

section Tiled

variable {m : MemoryManager} {r : Range}

theorem Tiled.used_inside (h : Tiled m) (hr : r ∈ m.addressUsedTree) :
    0 < r.size ∧ r.offset + r.size ≤ m.size :=
  ⟨h.tiles.nonempty true r hr, h.tiles.inside true r hr⟩

theorem Tiled.idle_inside (h : Tiled m) (hr : r ∈ m.addressIdleTree) :
    0 < r.size ∧ r.offset + r.size ≤ m.size :=
  ⟨h.tiles.nonempty false r hr, h.tiles.inside false r hr⟩

/-- A used and an idle range are apart. -/
theorem Tiled.apart (h : Tiled m) {s : Range} (hr : r ∈ m.addressUsedTree)
    (hs : s ∈ m.addressIdleTree) : r.stop ≤ s.offset ∨ s.stop ≤ r.offset := by
  rcases h.tiles.apart true r false s hr hs with ⟨hkind, -⟩ | hapart
  · cases hkind
  · exact hapart

/-- An operation that recuts an interval of the heap. -/
theorem Tiled.recut (h : Tiled m) {m' : MemoryManager} {a b : ℕ} {piece piece' : Bool → Range → Prop}
    (hold : Pieces a b piece) (hnew : Pieces a b piece') (hpiece : ∀ u r, piece u r → m.tile u r)
    (hab : a < b) (hb : b ≤ m.size) (hsize : m'.size = m.size)
    (hidle : ∀ r, r ∈ m'.addressIdleTree ↔
      (r ∈ m.addressIdleTree ∧ ¬ piece false r) ∨ piece' false r)
    (hused : ∀ r, r ∈ m'.addressUsedTree ↔
      (r ∈ m.addressUsedTree ∧ ¬ piece true r) ∨ piece' true r)
    (hindex : ∀ r, r ∈ m'.sizeIdleTree ↔ r ∈ m'.addressIdleTree) : Tiled m' := by
  refine ⟨?_, hindex⟩
  rw [hsize]
  apply h.tiles.recut hold hnew hpiece hab hb
  intro u r
  cases u with
  | false => exact hidle r
  | true => exact hused r

/-- The range at the offset has the new size, and the others stay. -/
theorem mem_setSize {tree : AddressTree} {n : ℕ} {s : Range} :
    s ∈ setSize tree r n ↔ s = ⟨r.offset, n⟩ ∨ (s ∈ tree ∧ s.offset ≠ r.offset) := by
  unfold setSize
  rw [OrderedSet.mem_emplace, OrderedSet.mem_erase]
  intro b hb
  exact (OrderedSet.mem_erase.mp hb).2

/-- Taking an idle range out of both of its trees. -/
theorem Tiled.mem_erase (h : Tiled m) (hr : r ∈ m.addressIdleTree) (s : Range) :
    (s ∈ m.addressIdleTree.erase r.offset ↔ s ∈ m.addressIdleTree ∧ s ≠ r) ∧
      (s ∈ m.sizeIdleTree.erase (sizeFirst r) ↔ s ∈ m.addressIdleTree ∧ s ≠ r) := by
  rw [OrderedSet.mem_erase, OrderedSet.mem_erase, h.index]
  constructor
  · apply and_congr_right
    intro hs
    exact not_congr ⟨fun heq => OrderedSet.eq_of_key hs hr heq, fun heq => heq ▸ rfl⟩
  · apply and_congr_right
    intro _
    exact not_congr ⟨sizeFirst_injective, fun heq => heq ▸ rfl⟩

/-- The used tree after its entry `r` got another size. -/
theorem mem_setSize_used (hr : r ∈ m.addressUsedTree) {n : ℕ} (s : Range) :
    s ∈ setSize m.addressUsedTree r n ↔
      (s ∈ m.addressUsedTree ∧ s ≠ r) ∨ s = ⟨r.offset, n⟩ := by
  rw [mem_setSize, or_comm]
  apply or_congr_left
  apply and_congr_right
  intro hs
  exact not_congr ⟨fun heq => OrderedSet.eq_of_key hs hr heq, fun heq => heq ▸ rfl⟩

end Tiled

/-! ## Heaps that runs reach -/

/-- A represented heap is tiled; its idle ranges are apart besides. -/
theorem Represents.tiled {m : MemoryManager} {blocks : List Block} (h : Represents m blocks) :
    Tiled m := by
  have hpos := h.tiling.size_pos
  have htile : ∀ u r, m.tile u r ↔ r ∈ rangesOf u 0 blocks := by
    intro u r
    cases u with
    | false => exact h.idle r
    | true => exact h.used r
  refine ⟨⟨?_, ?_, ?_, ?_⟩, h.index⟩
  · intro u r hr
    exact size_pos_of_mem hpos ((htile u r).mp hr)
  · intro u r hr
    have hb := bounds_of_mem ((htile u r).mp hr)
    rw [h.tiling.span_eq] at hb
    omega
  · intro u r v s hr hs
    exact eq_or_apart hpos ((htile u r).mp hr) ((htile v s).mp hs)
  · intro x hx
    obtain ⟨u, r, hr, hcovers⟩ := exists_covers (h.tiling.span_eq.symm ▸ hx)
    exact ⟨u, r, (htile u r).mpr hr, hcovers⟩

theorem Sound.isTiled {base size : ℕ} {m : MemoryManager} (h : Sound base size m) (hpos : 0 < size) :
    Tiled m := by
  cases h with
  | fresh hsize _ => exact absurd hsize hpos.ne'
  | tiled _ _ _ _ hrep => exact hrep.tiled

end AscendShmem.Heap
