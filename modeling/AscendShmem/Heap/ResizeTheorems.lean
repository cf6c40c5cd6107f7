import Mathlib
import AscendShmem.Heap.Resize

/-!
# When resizing keeps the heap

Shrinking a block with used memory or the end of the heap behind it, and growing one by the whole of
the idle range behind it, recut the heap. In the other two cases the idle range behind the block
changes its size but not the place where it begins.
-/

namespace AscendShmem.Heap

open Lib

/-- What `change_size` owes its caller. -/
structure Resized (m : MemoryManager) (address n : ℕ) (ok : Bool) (m' : MemoryManager) : Prop where
  tiled : Tiled m'
  aligned : Aligned m'
  /-- no other live block is moved or altered -/
  others : ∀ r, m.base + r.offset ≠ address → (r ∈ m'.addressUsedTree ↔ r ∈ m.addressUsedTree)
  /-- the block has the size asked for, rounded as `allocate` rounds -/
  block : ok = true → 0 < n → ⟨address - m.base, allocatedSizeAlignUp n⟩ ∈ m'.addressUsedTree
  release : n = 0 → m' = (m.release address).2
  refused : ok = false → m' = m

/-- The block is shrunk without an idle range behind it, grown by all of that range, or left as it
is, and the size is a multiple of 16. -/
def Shiftable (m : MemoryManager) (r : Range) (n : ℕ) : Prop :=
  16 ∣ n ∧ (n = r.size ∨
    (n < r.size ∧ ∀ s ∈ m.addressIdleTree, s.offset ≠ r.stop) ∨
    (r.size < n ∧ ⟨r.stop, n - r.size⟩ ∈ m.addressIdleTree))

/-- There is not enough idle memory behind the block to grow it. -/
def NoRoom (m : MemoryManager) (r : Range) (n : ℕ) : Prop :=
  r.size < n ∧ ∀ s ∈ m.addressIdleTree, s.offset = r.stop → s.size < n - r.size

section Blocks

variable {m : MemoryManager} {r s : Range} {n : ℕ}

theorem Tiled.wrap_stop (h : Tiled m) (hwide : m.size < 2 ^ 64) (hr : r ∈ m.addressUsedTree) :
    wrap (r.offset + r.size) = r.stop :=
  wrap_of_lt ((h.used_inside hr).2.trans_lt hwide)

/-- What shrinking does without an idle range behind the block. -/
theorem Tiled.reduceSize_alone (h : Tiled m) (hwide : m.size < 2 ^ 64)
    (hr : r ∈ m.addressUsedTree) (hn : 0 < n) (hlt : n < r.size)
    (hnone : ∀ s ∈ m.addressIdleTree, s.offset ≠ r.stop) :
    Tiled (m.reduceSize r n) ∧
      (∀ s, s ∈ (m.reduceSize r n).addressUsedTree ↔
        (s ∈ m.addressUsedTree ∧ s ≠ r) ∨ s = ⟨r.offset, n⟩) ∧
      (∀ s, s ∈ (m.reduceSize r n).addressIdleTree ↔
        s = ⟨r.offset + n, r.size - n⟩ ∨ s ∈ m.addressIdleTree) := by
  have hinside := h.used_inside hr
  have hleft : wrap (r.offset + n) = r.offset + n := wrap_of_lt (by omega)
  have hrun : m.reduceSize r n = { m with
      addressIdleTree := m.addressIdleTree.emplace ⟨r.offset + n, r.size - n⟩
      addressUsedTree := setSize m.addressUsedTree r n
      sizeIdleTree := m.sizeIdleTree.emplace ⟨r.offset + n, r.size - n⟩ } := by
    unfold MemoryManager.reduceSize
    rw [h.wrap_stop hwide hr, OrderedSet.find_eq_none.mpr hnone, hleft]
  -- no idle range begins inside the block
  have hfresh : ∀ s ∈ m.addressIdleTree, s.offset ≠ r.offset + n := by
    intro s hs heq
    have hsize := (h.idle_inside hs).1
    rcases h.apart hr hs with hstop | hstop
    · unfold Range.stop at hstop
      omega
    · unfold Range.stop at hstop
      omega
  have hused := mem_setSize_used hr (n := n)
  have hidle : ∀ s, s ∈ m.addressIdleTree.emplace ⟨r.offset + n, r.size - n⟩ ↔
      s = ⟨r.offset + n, r.size - n⟩ ∨ s ∈ m.addressIdleTree := by
    intro s
    rw [OrderedSet.mem_emplace hfresh]
  rw [hrun]
  refine ⟨?_, hused, hidle⟩
  -- the block is cut into a used and an idle part
  have hold : Pieces r.offset r.stop fun u s => u = true ∧ s = r := pieces_single hinside.1
  have hfront : Pieces r.offset (r.offset + n) fun u s => u = true ∧ s = ⟨r.offset, n⟩ :=
    pieces_single (r := ⟨r.offset, n⟩) hn
  have hback : Pieces (r.offset + n) r.stop fun u s =>
      u = false ∧ s = ⟨r.offset + n, r.size - n⟩ := by
    have hpieces := pieces_single (u := false) (r := ⟨r.offset + n, r.size - n⟩)
      (by show 0 < r.size - n; omega)
    have hstop : (⟨r.offset + n, r.size - n⟩ : Range).stop = r.stop := by
      unfold Range.stop
      dsimp only
      omega
    rwa [hstop] at hpieces
  have hnew := hfront.append hback (Nat.le_add_right _ _) (by unfold Range.stop; omega)
  refine h.recut hold hnew ?_ ?_ ?_ rfl ?_ ?_ ?_
  · rintro _ _ ⟨rfl, rfl⟩
    exact hr
  · unfold Range.stop
    omega
  · exact hinside.2
  · intro s
    rw [hidle s]
    simp only [Bool.false_eq_true, false_and, not_false_iff, and_true, true_and, false_or]
    exact or_comm
  · intro s
    rw [hused s]
    simp only [Bool.true_eq_false, false_and, true_and, or_false, ne_eq]
  · intro s
    rw [hidle s, OrderedSet.mem_emplace]
    · rw [h.index]
    · intro b hb heq
      exact hfresh b ((h.index b).mp hb) (congrArg Range.offset (sizeFirst_injective heq))

/-- What growing does when it takes all of the idle range behind the block. -/
theorem Tiled.expendSize_all (h : Tiled m) (hwide : m.size < 2 ^ 64) (hr : r ∈ m.addressUsedTree)
    (hgt : r.size < n) (hnext : ⟨r.stop, n - r.size⟩ ∈ m.addressIdleTree) :
    (m.expendSize r n).1 = true ∧ Tiled (m.expendSize r n).2 ∧
      (∀ s, s ∈ (m.expendSize r n).2.addressUsedTree ↔
        (s ∈ m.addressUsedTree ∧ s ≠ r) ∨ s = ⟨r.offset, n⟩) ∧
      (∀ s, s ∈ (m.expendSize r n).2.addressIdleTree → s ∈ m.addressIdleTree) := by
  have hinside := h.used_inside hr
  have hbehind := (h.idle_inside hnext).2
  have hfind : m.addressIdleTree.find r.stop = some ⟨r.stop, n - r.size⟩ :=
    OrderedSet.find_eq_some.mpr ⟨hnext, rfl⟩
  have hrun : m.expendSize r n = (true, { m with
      addressIdleTree := m.addressIdleTree.erase r.stop
      addressUsedTree := setSize m.addressUsedTree r n
      sizeIdleTree := m.sizeIdleTree.erase (sizeFirst ⟨r.stop, n - r.size⟩) }) := by
    unfold MemoryManager.expendSize
    rw [h.wrap_stop hwide hr, hfind]
    simp only [lt_irrefl, if_false, if_true]
  have hused := mem_setSize_used hr (n := n)
  have herase := h.mem_erase hnext
  rw [hrun]
  refine ⟨rfl, ?_, hused, fun s hs => ((herase s).1.mp hs).1⟩
  -- the block and the range behind it become one block
  have hold := (pieces_single (u := true) hinside.1).append
    (pieces_single (u := false) (r := ⟨r.stop, n - r.size⟩) (by show 0 < n - r.size; omega))
    (by unfold Range.stop; omega) (Nat.le_add_right _ _)
  have hstop : (⟨r.stop, n - r.size⟩ : Range).stop = (⟨r.offset, n⟩ : Range).stop := by
    unfold Range.stop
    dsimp only
    omega
  have hnew : Pieces r.offset (⟨r.stop, n - r.size⟩ : Range).stop fun u s =>
      u = true ∧ s = ⟨r.offset, n⟩ := by
    rw [hstop]
    exact pieces_single (r := ⟨r.offset, n⟩) (by show 0 < n; omega)
  refine h.recut hold hnew ?_ ?_ ?_ rfl ?_ ?_ ?_
  · rintro _ _ (⟨rfl, rfl⟩ | ⟨rfl, rfl⟩)
    · exact hr
    · exact hnext
  · unfold Range.stop
    dsimp only
    omega
  · exact hbehind
  · intro s
    rw [(herase s).1]
    simp only [Bool.false_eq_true, false_and, false_or, true_and, or_false, ne_eq]
  · intro s
    rw [hused s]
    simp only [Bool.true_eq_false, false_and, true_and, or_false, ne_eq]
  · intro s
    rw [(herase s).1, (herase s).2]

/-- Shrinking a block with an idle range behind it: that range grows at its far end, and the bytes
given back belong to nothing. -/
theorem Tiled.not_tiled_reduceSize (h : Tiled m) (hwide : m.size < 2 ^ 64)
    (hr : r ∈ m.addressUsedTree) (hlt : n < r.size) (hs : s ∈ m.addressIdleTree)
    (hoffset : s.offset = r.stop) : ¬ Tiled (m.reduceSize r n) := by
  have hinside := h.used_inside hr
  have hfind : m.addressIdleTree.find r.stop = some s :=
    OrderedSet.find_eq_some.mpr ⟨hs, hoffset⟩
  have hrun : m.reduceSize r n = { m with
      addressIdleTree := setSize m.addressIdleTree s (wrap (s.size + (r.size - n)))
      addressUsedTree := setSize m.addressUsedTree r n
      sizeIdleTree := (m.sizeIdleTree.erase (sizeFirst s)).emplace
        ⟨s.offset, wrap (s.size + (r.size - n))⟩ } := by
    unfold MemoryManager.reduceSize
    rw [h.wrap_stop hwide hr, hfind]
  rw [hrun]
  intro htiled
  -- the first byte behind the shrunk block
  obtain ⟨u, t, ht, hcovers⟩ := htiled.tiles.cover (r.offset + n) (by
    show r.offset + n < m.size
    omega)
  have hold : r.Covers (r.offset + n) := ⟨Nat.le_add_right _ _, Nat.add_lt_add_left hlt _⟩
  cases u with
  | true =>
    rcases (mem_setSize_used hr t).mp ht with ⟨ht, hne⟩ | rfl
    · exact hne (h.tiles.eq_of_covers (u := true) (v := true) ht hr hcovers hold).2
    · exact absurd hcovers.2 (lt_irrefl _)
  | false =>
    rcases mem_setSize.mp ht with rfl | ⟨ht, -⟩
    · have hlow := hcovers.1
      unfold Range.stop at hoffset
      dsimp only at hlow
      omega
    · have hkind := (h.tiles.eq_of_covers (u := false) (v := true) ht hr hcovers hold).1
      cases hkind

/-- Growing a block by a part of the idle range behind it: that range still begins where it did. -/
theorem Tiled.not_tiled_expendSize (h : Tiled m) (hwide : m.size < 2 ^ 64)
    (hr : r ∈ m.addressUsedTree) (hgt : r.size < n) (hs : s ∈ m.addressIdleTree)
    (hoffset : s.offset = r.stop) (hroom : n - r.size < s.size) :
    (m.expendSize r n).1 = true ∧ ¬ Tiled (m.expendSize r n).2 := by
  have hfind : m.addressIdleTree.find r.stop = some s :=
    OrderedSet.find_eq_some.mpr ⟨hs, hoffset⟩
  have hrun : m.expendSize r n = (true, { m with
      addressIdleTree := setSize m.addressIdleTree s (s.size - (n - r.size))
      addressUsedTree := setSize m.addressUsedTree r n
      sizeIdleTree := (m.sizeIdleTree.erase (sizeFirst s)).emplace
        ⟨s.offset, s.size - (n - r.size)⟩ }) := by
    unfold MemoryManager.expendSize
    rw [h.wrap_stop hwide hr, hfind]
    simp only [if_neg hroom.not_gt, if_neg hroom.ne']
  rw [hrun]
  refine ⟨rfl, ?_⟩
  intro htiled
  have hused : (⟨r.offset, n⟩ : Range) ∈ setSize m.addressUsedTree r n := mem_setSize.mpr (.inl rfl)
  have hidle : (⟨s.offset, s.size - (n - r.size)⟩ : Range) ∈
      setSize m.addressIdleTree s (s.size - (n - r.size)) := mem_setSize.mpr (.inl rfl)
  have hsize := (h.used_inside hr).1
  rcases htiled.apart hused hidle with hstop | hstop
  · unfold Range.stop at hoffset hstop
    dsimp only at hstop
    omega
  · unfold Range.stop at hoffset hstop
    dsimp only at hstop
    omega

/-- Nothing happens when there is not enough idle memory behind the block. -/
theorem Tiled.expendSize_none (h : Tiled m) (hwide : m.size < 2 ^ 64)
    (hr : r ∈ m.addressUsedTree) (hroom : NoRoom m r n) : m.expendSize r n = (false, m) := by
  unfold MemoryManager.expendSize
  rw [h.wrap_stop hwide hr]
  cases hfind : m.addressIdleTree.find r.stop with
  | none => rfl
  | some next =>
    obtain ⟨hnext, hoffset⟩ := OrderedSet.find_eq_some.mp hfind
    simp only [if_pos (hroom.2 next hnext hoffset)]

/-! ## Releasing -/

/-- Trees from which the idle ranges that cut `[a, b)` have been taken. -/
structure Taken (m : MemoryManager) (a b : ℕ) (piece : Bool → Range → Prop) (idle : AddressTree)
    (sizes : SizeTree) : Prop where
  le : a ≤ b
  pieces : Pieces a b piece
  of_piece : ∀ u s, piece u s → u = false ∧ s ∈ m.addressIdleTree
  mem_idle : ∀ s, s ∈ idle ↔ s ∈ m.addressIdleTree ∧ ¬ piece false s
  mem_sizes : ∀ s, s ∈ sizes ↔ s ∈ m.addressIdleTree ∧ ¬ piece false s

theorem Tiled.taken_none (h : Tiled m) (a : ℕ) :
    Taken m a a (fun _ _ => False) m.addressIdleTree m.sizeIdleTree := by
  refine ⟨le_rfl, pieces_none, fun _ _ h => h.elim, fun s => ?_, fun s => ?_⟩
  · rw [not_false_iff, and_true]
  · rw [not_false_iff, and_true, h.index]

/-- Merging with the range in front, if it ends where the block begins. -/
theorem Tiled.mergePrev (h : Tiled m) (hwide : m.size < 2 ^ 64) (hr : r ∈ m.addressUsedTree) :
    ∃ a piece, Taken m a r.offset piece (m.mergePrev r).addressIdleTree
        (m.mergePrev r).sizeIdleTree ∧
      (a = r.offset ∨ ∃ s ∈ m.addressIdleTree, s.offset = a) ∧
      (m.mergePrev r).final = ⟨a, r.stop - a⟩ := by
  have hinside := h.used_inside hr
  have hself : r = ⟨r.offset, r.stop - r.offset⟩ := by
    cases r
    exact congrArg (Range.mk _) (Nat.add_sub_cancel_left _ _).symm
  cases hprev : m.addressIdleTree.before r.offset with
  | none =>
    have hrun : m.mergePrev r = ⟨r, m.addressIdleTree, m.sizeIdleTree⟩ := by
      unfold MemoryManager.mergePrev
      rw [hprev]
    rw [hrun]
    exact ⟨r.offset, _, h.taken_none _, .inl rfl, hself⟩
  | some prev =>
    obtain ⟨hidle, hlt, -⟩ := OrderedSet.last_eq_some.mp hprev
    have hbefore := h.idle_inside hidle
    have hstop : wrap (prev.offset + prev.size) = prev.offset + prev.size := wrap_of_lt (by omega)
    -- the range in front is merged only if it ends at the block
    by_cases htouch : prev.offset + prev.size = r.offset
    · have hsum : wrap (r.size + prev.size) = r.stop - prev.offset := by
        rw [wrap_of_lt (by omega)]
        unfold Range.stop
        omega
      have hrun : m.mergePrev r = ⟨⟨prev.offset, r.stop - prev.offset⟩,
          m.addressIdleTree.erase prev.offset, m.sizeIdleTree.erase (sizeFirst prev)⟩ := by
        unfold MemoryManager.mergePrev
        simp only [hprev, hstop, hsum]
        rw [if_pos htouch]
      have hpieces : Pieces prev.offset r.offset fun u s => u = false ∧ s = prev := by
        rw [← htouch]
        exact pieces_single hbefore.1
      have herase := h.mem_erase hidle
      rw [hrun]
      refine ⟨prev.offset, _, ⟨hlt.le, hpieces, ?_, ?_, ?_⟩, .inr ⟨prev, hidle, rfl⟩, rfl⟩
      · rintro _ _ ⟨rfl, rfl⟩
        exact ⟨rfl, hidle⟩
      · intro s
        rw [(herase s).1, and_iff_right rfl]
      · intro s
        rw [(herase s).2, and_iff_right rfl]
    · have hrun : m.mergePrev r = ⟨r, m.addressIdleTree, m.sizeIdleTree⟩ := by
        unfold MemoryManager.mergePrev
        simp only [hprev, hstop, if_neg htouch]
      rw [hrun]
      exact ⟨r.offset, _, h.taken_none _, .inl rfl, hself⟩

/-- Merging with the range behind, if there is one. -/
theorem Tiled.mergeNext (h : Tiled m) (hwide : m.size < 2 ^ 64) (hr : r ∈ m.addressUsedTree)
    {merge : Merge} {a : ℕ} {piece : Bool → Range → Prop}
    (htaken : Taken m a r.offset piece merge.addressIdleTree merge.sizeIdleTree)
    (hfinal : merge.final = ⟨a, r.stop - a⟩) :
    ∃ b piece', r.stop ≤ b ∧ b ≤ m.size ∧ Pieces r.stop b piece' ∧
      (∀ u s, piece' u s → u = false ∧ s ∈ m.addressIdleTree) ∧
      (∀ s, s ∈ (merge.mergeNext r).addressIdleTree ↔
        s ∈ m.addressIdleTree ∧ ¬ (piece false s ∨ piece' false s)) ∧
      (∀ s, s ∈ (merge.mergeNext r).sizeIdleTree ↔
        s ∈ m.addressIdleTree ∧ ¬ (piece false s ∨ piece' false s)) ∧
      (merge.mergeNext r).final = ⟨a, b - a⟩ := by
  have hinside := h.used_inside hr
  have hstop := h.wrap_stop hwide hr
  have hle : r.offset ≤ r.stop := Nat.le_add_right _ _
  cases hnext : merge.addressIdleTree.find r.stop with
  | none =>
    have hrun : merge.mergeNext r = merge := by
      unfold Merge.mergeNext
      rw [hstop, hnext]
    rw [hrun]
    refine ⟨r.stop, _, le_rfl, hinside.2, pieces_none, fun _ _ h => h.elim, ?_, ?_, hfinal⟩
    · intro s
      rw [or_false]
      exact htaken.mem_idle s
    · intro s
      rw [or_false]
      exact htaken.mem_sizes s
  | some next =>
    obtain ⟨hmem, hoffset⟩ := OrderedSet.find_eq_some.mp hnext
    have hidle := ((htaken.mem_idle next).mp hmem).1
    have hbehind := h.idle_inside hidle
    have hrun : merge.mergeNext r = ⟨⟨a, next.stop - a⟩, merge.addressIdleTree.erase next.offset,
        merge.sizeIdleTree.erase (sizeFirst next)⟩ := by
      have hle := htaken.le
      -- the merged range reaches to the end of the range behind, and no size wraps
      have hsum : wrap (r.stop - a + next.size) = next.stop - a := by
        unfold Range.stop at hoffset ⊢
        rw [wrap_of_lt (by omega)]
        omega
      unfold Merge.mergeNext
      simp only [hstop, hnext, hfinal, hsum]
    have hpieces : Pieces r.stop next.stop fun u s => u = false ∧ s = next := by
      rw [← hoffset]
      exact pieces_single hbehind.1
    rw [hrun]
    refine ⟨next.stop, _, ?_, hbehind.2, hpieces, ?_, ?_, ?_, rfl⟩
    · rw [← hoffset]
      exact Nat.le_add_right _ _
    · rintro _ _ ⟨rfl, rfl⟩
      exact ⟨rfl, hidle⟩
    · intro s
      rw [OrderedSet.mem_erase, htaken.mem_idle, and_assoc, not_or, and_iff_right rfl]
      apply and_congr_right
      intro hs
      exact and_congr_right fun _ =>
        not_congr ⟨fun heq => OrderedSet.eq_of_key hs hidle heq, fun heq => heq ▸ rfl⟩
    · intro s
      rw [OrderedSet.mem_erase, htaken.mem_sizes, and_assoc, not_or, and_iff_right rfl]
      exact and_congr_right fun _ => and_congr_right fun _ =>
        not_congr ⟨sizeFirst_injective, fun heq => heq ▸ rfl⟩

/-- A release of a live block joins it with the idle ranges at its ends. -/
theorem Tiled.release_live (h : Tiled m) (halign : Aligned m) (hm : Mapped m.base m.size)
    (hr : r ∈ m.addressUsedTree) :
    Tiled (m.release (m.base + r.offset)).2 ∧ Aligned (m.release (m.base + r.offset)).2 ∧
      ∀ s, s ∈ (m.release (m.base + r.offset)).2.addressUsedTree ↔
        s ∈ m.addressUsedTree ∧ s ≠ r := by
  have hinside := h.used_inside hr
  have hmapped := hm.inside
  have hwide : m.size < 2 ^ 64 := by omega
  obtain ⟨a, piece, htaken, hstart, hfinal⟩ := h.mergePrev hwide hr
  obtain ⟨b, piece', hb, hbsize, hpieces, hof, hidle, hsizes, hfinal'⟩ :=
    h.mergeNext hwide hr htaken hfinal
  have hfind : m.addressUsedTree.find (m.base + r.offset - m.base) = some r :=
    OrderedSet.find_eq_some.mpr ⟨hr, (Nat.add_sub_cancel_left _ _).symm⟩
  have hrange : ¬ (m.base + r.offset < m.base ∨ wrap (m.base + m.size) ≤ m.base + r.offset) := by
    rw [wrap_of_lt hmapped]
    omega
  have hrun : (m.release (m.base + r.offset)).2 = { m with
      addressIdleTree := ((m.mergePrev r).mergeNext r).addressIdleTree.emplace ⟨a, b - a⟩
      addressUsedTree := m.addressUsedTree.erase r.offset
      sizeIdleTree := ((m.mergePrev r).mergeNext r).sizeIdleTree.emplace ⟨a, b - a⟩ } := by
    unfold MemoryManager.release
    rw [if_neg hrange, hfind]
    dsimp only
    rw [hfinal']
  have hle := htaken.le
  have hstop : r.stop = r.offset + r.size := rfl
  -- the pieces that become one idle range
  have hold := (htaken.pieces.append (pieces_single (u := true) hinside.1) hle
    (Nat.le_add_right _ _)).append hpieces (by omega) hb
  have hnew : Pieces a b fun u s => u = false ∧ s = ⟨a, b - a⟩ := by
    have hone := pieces_single (u := false) (r := ⟨a, b - a⟩) (by show 0 < b - a; omega)
    have hend : (⟨a, b - a⟩ : Range).stop = b := by
      unfold Range.stop
      dsimp only
      omega
    rwa [hend] at hone
  have hpiece : ∀ u s, (piece u s ∨ (u = true ∧ s = r)) ∨ piece' u s → m.tile u s := by
    rintro u s ((hs | ⟨rfl, rfl⟩) | hs)
    · obtain ⟨rfl, hidle⟩ := htaken.of_piece u s hs
      exact hidle
    · exact hr
    · obtain ⟨rfl, hidle⟩ := hof u s hs
      exact hidle
  -- no other idle range begins where the new one does
  have hfresh : ∀ s, s ∈ m.addressIdleTree ∧ ¬ (piece false s ∨ piece' false s) →
      s.offset ≠ a := by
    rintro s ⟨hs, hnot⟩ heq
    have hsize := (h.idle_inside hs).1
    have hout := h.tiles.outside_of_not_piece (u := false) hold (by omega) hpiece hs (by
      rintro ((hs | ⟨hkind, -⟩) | hs)
      · exact hnot (.inl hs)
      · cases hkind
      · exact hnot (.inr hs))
    unfold Range.Outside Range.stop at hout
    omega
  have hmem : ∀ s, s ∈ ((m.mergePrev r).mergeNext r).addressIdleTree.emplace ⟨a, b - a⟩ ↔
      s = ⟨a, b - a⟩ ∨ (s ∈ m.addressIdleTree ∧ ¬ (piece false s ∨ piece' false s)) := by
    intro s
    rw [OrderedSet.mem_emplace fun t ht => hfresh t ((hidle t).mp ht), hidle]
  have hused : ∀ s, s ∈ m.addressUsedTree.erase r.offset ↔ s ∈ m.addressUsedTree ∧ s ≠ r := by
    intro s
    rw [OrderedSet.mem_erase]
    apply and_congr_right
    intro hs
    exact not_congr ⟨fun heq => OrderedSet.eq_of_key hs hr heq, fun heq => heq ▸ rfl⟩
  rw [hrun]
  refine ⟨?_, ?_, hused⟩
  · refine h.recut hold hnew hpiece (by omega) hbsize rfl ?_ ?_ ?_
    · intro s
      rw [hmem]
      simp only [Bool.false_eq_true, false_and, or_false, true_and]
      exact or_comm
    · intro s
      rw [hused]
      constructor
      · rintro ⟨hs, hne⟩
        refine .inl ⟨hs, ?_⟩
        rintro ((hs' | ⟨-, heq⟩) | hs')
        · cases (htaken.of_piece true s hs').1
        · exact hne heq
        · cases (hof true s hs').1
      · rintro (⟨hs, hnot⟩ | ⟨hkind, -⟩)
        · exact ⟨hs, fun heq => hnot (.inl (.inr ⟨rfl, heq⟩))⟩
        · cases hkind
    · intro s
      rw [hmem, OrderedSet.mem_emplace, hsizes]
      intro t ht heq
      exact hfresh t ((hsizes t).mp ht) (congrArg Range.offset (sizeFirst_injective heq))
  · intro u s hs
    cases u with
    | true => exact halign true s ((hused s).mp hs).1
    | false =>
      rcases (hmem s).mp hs with rfl | ⟨hs, -⟩
      · rcases hstart with hstart | ⟨prev, hprev, hstart⟩
        · show 16 ∣ a
          rw [hstart]
          exact halign true r hr
        · show 16 ∣ a
          rw [← hstart]
          exact halign false prev hprev
      · exact halign false s hs

/-! ## Changing the size -/

/-- An address where no live block begins. -/
theorem changeSize_of_not_live {address : ℕ}
    (hnone : ∀ r ∈ m.addressUsedTree, m.base + r.offset ≠ address) :
    (m.changeSize address n).2 = m ∧ (0 < n → (m.changeSize address n).1 = false) := by
  unfold MemoryManager.changeSize
  split
  · exact ⟨rfl, fun _ => rfl⟩
  rename_i hrange
  by_cases hn : n = 0
  · rw [if_pos hn, release_of_not_live hnone]
    exact ⟨rfl, fun hpos => absurd hn hpos.ne'⟩
  · have hfind : m.addressUsedTree.find (address - m.base) = none := by
      apply OrderedSet.find_eq_none.mpr
      intro r hr heq
      exact hnone r hr (by omega)
    rw [if_neg hn, hfind]
    exact ⟨rfl, fun _ => rfl⟩

/-- What a resize of a live block does: it releases, shrinks, grows into the gap behind it, or
refuses. -/
theorem Tiled.changeSize_of_live (h : Tiled m) (hm : Mapped m.base m.size)
    (hr : r ∈ m.addressUsedTree) :
    m.changeSize (m.base + r.offset) n =
      if n = 0 then (true, (m.release (m.base + r.offset)).2)
      else if r.size = n then (true, m)
      else if n < r.size then (true, m.reduceSize r n) else m.expendSize r n := by
  have hinside := h.used_inside hr
  have hmapped := hm.inside
  have hfind : m.addressUsedTree.find (m.base + r.offset - m.base) = some r :=
    OrderedSet.find_eq_some.mpr ⟨hr, (Nat.add_sub_cancel_left _ _).symm⟩
  have hrange : ¬ (m.base + r.offset < m.base ∨ wrap (m.base + m.size) ≤ m.base + r.offset) := by
    rw [wrap_of_lt hmapped]
    omega
  unfold MemoryManager.changeSize
  rw [if_neg hrange, hfind]

/-- A block whose entry has the size asked for has the rounded size only if that is the same. -/
theorem dvd_of_block {m' : MemoryManager} (h : (⟨r.offset, n⟩ : Range) ∈ m'.addressUsedTree)
    (hround : (⟨r.offset, allocatedSizeAlignUp n⟩ : Range) ∈ m'.addressUsedTree) : 16 ∣ n := by
  have heq := congrArg Range.size (OrderedSet.eq_of_key h hround rfl)
  dsimp only at heq
  rw [heq]
  exact Dvd.intro_left _ rfl

theorem allocatedSizeAlignUp_of_dvd (hn : 16 ∣ n) (hwide : n + 15 < 2 ^ 64) :
    allocatedSizeAlignUp n = n := by
  rw [allocatedSizeAlignUp_eq hwide]
  unfold align16
  omega

/-- A change that left the heap tiled and the block with the size asked for. -/
theorem resized_of_block (halign : Aligned m) {m' : MemoryManager}
    (hr : r ∈ m.addressUsedTree) (hn : 0 < n) (htiled : Tiled m')
    (hround : allocatedSizeAlignUp n = n)
    (hused : ∀ s, s ∈ m'.addressUsedTree ↔ (s ∈ m.addressUsedTree ∧ s ≠ r) ∨ s = ⟨r.offset, n⟩)
    (hidle : ∀ s ∈ m'.addressIdleTree, s ∈ m.addressIdleTree ∨ 16 ∣ s.offset) :
    Resized m (m.base + r.offset) n true m' := by
  refine ⟨htiled, ?_, ?_, ?_, fun hzero => absurd hzero hn.ne', nofun⟩
  · intro u s hs
    cases u with
    | true =>
      rcases (hused s).mp hs with ⟨hs, -⟩ | rfl
      · exact halign true s hs
      · exact halign true r hr
    | false =>
      rcases hidle s hs with hs | hs
      · exact halign false s hs
      · exact hs
  · intro s hne
    rw [hused]
    constructor
    · rintro (⟨hs, -⟩ | rfl)
      · exact hs
      · exact absurd rfl hne
    · intro hs
      exact .inl ⟨hs, fun heq => hne (heq ▸ rfl)⟩
  · intro _ _
    rw [hround, Nat.add_sub_cancel_left, hused]
    exact .inr rfl

/-- On a live block and a size that is not zero the outcome is right exactly when the block can be
shifted or there is no room. -/
theorem Tiled.resized_iff (h : Tiled m) (halign : Aligned m) (hm : Mapped m.base m.size)
    (hr : r ∈ m.addressUsedTree) (hn : 0 < n) :
    Resized m (m.base + r.offset) n (m.changeSize (m.base + r.offset) n).1
        (m.changeSize (m.base + r.offset) n).2 ↔ Shiftable m r n ∨ NoRoom m r n := by
  have hinside := h.used_inside hr
  have hmapped := hm.inside
  have hnonnull := hm.nonnull
  have hwide : m.size < 2 ^ 64 := by omega
  have hblock : ∀ {m' : MemoryManager}, (⟨r.offset, n⟩ : Range) ∈ m'.addressUsedTree →
      Resized m (m.base + r.offset) n true m' → 16 ∣ n := by
    intro m' hmem hresized
    have hround := hresized.block rfl hn
    rw [Nat.add_sub_cancel_left] at hround
    exact dvd_of_block hmem hround
  rw [h.changeSize_of_live hm hr, if_neg hn.ne']
  rcases Nat.lt_trichotomy n r.size with hlt | heq | hgt
  · -- shrinking
    rw [if_neg hlt.ne', if_pos hlt]
    by_cases hnone : ∀ s ∈ m.addressIdleTree, s.offset ≠ r.stop
    · obtain ⟨htiled, hused, hidle⟩ := h.reduceSize_alone hwide hr hn hlt hnone
      constructor
      · intro hresized
        exact .inl ⟨hblock ((hused _).mpr (.inr rfl)) hresized, .inr (.inl ⟨hlt, hnone⟩)⟩
      · rintro (⟨hdvd, -⟩ | ⟨hgt, -⟩)
        · refine resized_of_block halign hr hn htiled
            (allocatedSizeAlignUp_of_dvd hdvd (by omega)) hused ?_
          intro s hs
          rcases (hidle s).mp hs with rfl | hs
          · exact .inr (dvd_add (halign true r hr) hdvd)
          · exact .inl hs
        · omega
    · obtain ⟨s, hs, hoffset⟩ : ∃ s ∈ m.addressIdleTree, s.offset = r.stop := by
        by_contra hall
        exact hnone fun s hs heq => hall ⟨s, hs, heq⟩
      constructor
      · intro hresized
        exact absurd hresized.tiled (h.not_tiled_reduceSize hwide hr hlt hs hoffset)
      · rintro (⟨-, heq | ⟨-, hnone⟩ | ⟨hgt, -⟩⟩ | ⟨hgt, -⟩)
        · omega
        · exact absurd hoffset (hnone s hs)
        · omega
        · omega
  · -- the size it has
    rw [if_pos heq.symm]
    have hmem : (⟨r.offset, n⟩ : Range) ∈ m.addressUsedTree := by
      rw [heq]
      exact hr
    constructor
    · intro hresized
      exact .inl ⟨hblock hmem hresized, .inl heq⟩
    · rintro (⟨hdvd, -⟩ | ⟨hgt, -⟩)
      · refine ⟨h, halign, fun s _ => Iff.rfl, fun _ _ => ?_, fun hzero => absurd hzero hn.ne',
          fun _ => rfl⟩
        rw [allocatedSizeAlignUp_of_dvd hdvd (by omega), Nat.add_sub_cancel_left]
        exact hmem
      · omega
  · -- growing
    rw [if_neg hgt.ne, if_neg hgt.not_gt]
    by_cases hroom : NoRoom m r n
    · rw [h.expendSize_none hwide hr hroom]
      refine ⟨fun _ => .inr hroom, fun _ => ?_⟩
      exact ⟨h, halign, fun s _ => Iff.rfl, nofun, fun hzero => absurd hzero hn.ne', fun _ => rfl⟩
    · obtain ⟨s, hs, hoffset, hsize⟩ : ∃ s ∈ m.addressIdleTree, s.offset = r.stop ∧
          n - r.size ≤ s.size := by
        by_contra hall
        exact hroom ⟨hgt, fun s hs heq => not_le.mp fun hle => hall ⟨s, hs, heq, hle⟩⟩
      rcases Nat.lt_or_eq_of_le hsize with hmore | hall
      · obtain ⟨-, hnot⟩ := h.not_tiled_expendSize hwide hr hgt hs hoffset hmore
        constructor
        · intro hresized
          exact absurd hresized.tiled hnot
        · rintro (⟨-, heq | ⟨hlt, -⟩ | ⟨-, hnext⟩⟩ | hno)
          · omega
          · omega
          · -- the range behind the block is longer
            have hsame := congrArg Range.size (OrderedSet.eq_of_key hs hnext hoffset)
            dsimp only at hsame
            omega
          · exact absurd hno hroom
      · have hnext : (⟨r.stop, n - r.size⟩ : Range) ∈ m.addressIdleTree := by
          rw [hall, ← hoffset]
          exact hs
        obtain ⟨hok, htiled, hused, hidle⟩ := h.expendSize_all hwide hr hgt hnext
        rw [hok]
        constructor
        · intro hresized
          exact .inl ⟨hblock ((hused _).mpr (.inr rfl)) hresized, .inr (.inr ⟨hgt, hnext⟩)⟩
        · rintro (⟨hdvd, -⟩ | hno)
          · have hbehind := (h.idle_inside hnext).2
            unfold Range.stop at hbehind
            dsimp only at hbehind
            exact resized_of_block halign hr hn htiled
              (allocatedSizeAlignUp_of_dvd hdvd (by omega)) hused fun s hs => .inl (hidle s hs)
          · exact absurd hno hroom

end Blocks

/-- For every heap that is tiled at multiples of 16, every address and every size: `change_size`
does what it owes if and only if the size is zero, no live block begins at the address, there is no
room, or the size is a multiple of 16 and the block is left as it is, shrunk without an idle range
behind it or grown by all of that range. -/
theorem changeSize_resized_iff (m : MemoryManager) (address n : ℕ) (hm : Mapped m.base m.size)
    (htiled : Tiled m) (haligned : Aligned m) :
    Resized m address n (m.changeSize address n).1 (m.changeSize address n).2 ↔
      n = 0 ∨ ∀ r ∈ m.addressUsedTree, m.base + r.offset = address →
        Shiftable m r n ∨ NoRoom m r n := by
  by_cases hlive : ∃ r ∈ m.addressUsedTree, m.base + r.offset = address
  · obtain ⟨r, hr, rfl⟩ := hlive
    by_cases hn : n = 0
    · refine ⟨fun _ => .inl hn, fun _ => ?_⟩
      obtain ⟨htiled', haligned', hused⟩ := htiled.release_live haligned hm hr
      rw [htiled.changeSize_of_live hm hr, if_pos hn]
      refine ⟨htiled', haligned', ?_, fun _ hpos => absurd hn hpos.ne', fun _ => rfl, nofun⟩
      intro s hne
      rw [hused]
      exact and_iff_left fun heq => hne (heq ▸ rfl)
    · rw [htiled.resized_iff haligned hm hr (Nat.pos_of_ne_zero hn), or_iff_right hn]
      constructor
      · intro hall s hs heq
        rwa [OrderedSet.eq_of_key hs hr (Nat.add_left_cancel heq)]
      · intro hall
        exact hall r hr rfl
  · have hnone : ∀ r ∈ m.addressUsedTree, m.base + r.offset ≠ address :=
      fun r hr heq => hlive ⟨r, hr, heq⟩
    obtain ⟨hsame, hfalse⟩ := changeSize_of_not_live (n := n) hnone
    refine ⟨fun _ => .inr fun r hr heq => absurd heq (hnone r hr), fun _ => ?_⟩
    rw [hsame]
    refine ⟨htiled, haligned, fun _ _ => Iff.rfl, ?_, ?_, fun _ => rfl⟩
    · intro hok hpos
      rw [hfalse hpos] at hok
      cases hok
    · intro _
      rw [release_of_not_live hnone]

/-! ## A heap of two blocks -/

/-- All offsets are multiples of 16, used and idle. -/
theorem aligned_iff {m : MemoryManager} : Aligned m ↔
    ∀ r ∈ m.addressUsedTree.toList ++ m.addressIdleTree.toList, 16 ∣ r.offset := by
  constructor
  · intro h r hr
    rcases List.mem_append.mp hr with hr | hr
    · exact h true r hr
    · exact h false r hr
  · intro h u r hr
    cases u with
    | true => exact h r (List.mem_append_left _ hr)
    | false => exact h r (List.mem_append_right _ hr)

/-- A heap of 64 bytes, the first 32 of them live. -/
def halfHeap : MemoryManager := (MemoryManager.mk' 4096 64).run 64 [.allocate 32]

/-- A heap with a used half and an idle half. -/
theorem halfHeap_tiled : Mapped halfHeap.base halfHeap.size ∧ Tiled halfHeap ∧ Aligned halfHeap := by
  have hmapped : Mapped 4096 64 := ⟨by decide, by decide⟩
  have hsound : Sound 4096 64 halfHeap := (sound_mk' 4096 64).run hmapped ⟨trivial, trivial⟩
  refine ⟨hmapped, hsound.isTiled (by decide), ?_⟩
  rw [aligned_iff]
  decide +kernel

/-- The block grows over all of the heap. -/
theorem changeSize_resized_iff_sample :
    Resized halfHeap 4096 64 true (halfHeap.changeSize 4096 64).2 := by
  obtain ⟨hmapped, htiled, haligned⟩ := halfHeap_tiled
  have hlive : ∀ r ∈ halfHeap.addressUsedTree.toList, r = ⟨0, 32⟩ := by decide +kernel
  refine (changeSize_resized_iff halfHeap 4096 64 hmapped htiled haligned).mpr (.inr ?_)
  intro r hr _
  rw [hlive r hr]
  refine .inl ⟨by decide, .inr (.inr ⟨by decide, ?_⟩)⟩
  show (⟨32, 32⟩ : Range) ∈ halfHeap.addressIdleTree.toList
  decide +kernel

/-- Shrinking the block to 16 bytes makes the idle range behind it end 16 bytes behind the heap. -/
theorem changeSize_breaks_tiling :
    (Mapped halfHeap.base halfHeap.size ∧ Tiled halfHeap ∧ Aligned halfHeap) ∧
      (halfHeap.changeSize 4096 16).1 = true ∧
      ⟨32, 48⟩ ∈ (halfHeap.changeSize 4096 16).2.addressIdleTree ∧
      ¬ Resized halfHeap 4096 16 true (halfHeap.changeSize 4096 16).2 := by
  have hidle : (⟨32, 48⟩ : Range) ∈ (halfHeap.changeSize 4096 16).2.addressIdleTree := by
    decide +kernel
  have hsize : (halfHeap.changeSize 4096 16).2.size = 64 := by decide +kernel
  refine ⟨halfHeap_tiled, by decide +kernel, hidle, ?_⟩
  intro h
  have hstop := (h.tiled.idle_inside hidle).2
  rw [hsize] at hstop
  exact absurd hstop (by decide)

end AscendShmem.Heap
