import Mathlib
import AscendShmem.Heap.Resize

/-!
# Aligned allocation

`aligned_allocate` walks up the size tree and asks `alignment_matches` of every range whether it has
room at an aligned place. On a tiled heap it finds the smallest idle range that has, if any has, and
cuts it into a head, the block and a tail. The range it took stays in the address tree.
-/

namespace AscendShmem.Heap

open Lib

/-! ## Rounding up to a power of two -/

/-- The first multiple of `alignment` from `n` on. -/
def roundUp (alignment n : ℕ) : ℕ := (n + alignment - 1) / alignment * alignment

section Rounding

variable {alignment n k : ℕ}

/-- Rounding up does not make smaller. -/
theorem le_roundUp (h : 0 < alignment) : n ≤ roundUp alignment n := by
  have hdiv := Nat.div_add_mod (n + alignment - 1) alignment
  have hmod := Nat.mod_lt (n + alignment - 1) h
  unfold roundUp
  rw [Nat.mul_comm]
  omega

theorem dvd_roundUp : alignment ∣ roundUp alignment n := Dvd.intro_left _ rfl

theorem roundUp_le_add (h : 0 < alignment) : roundUp alignment n ≤ n + (alignment - 1) := by
  have hdiv := Nat.div_add_mod (n + alignment - 1) alignment
  unfold roundUp
  rw [Nat.mul_comm]
  omega

/-- No multiple from `n` on comes before it. -/
theorem roundUp_le (h : 0 < alignment) {p : ℕ} (hp : alignment ∣ p) (hn : n ≤ p) :
    roundUp alignment n ≤ p := by
  obtain ⟨q, rfl⟩ := hp
  unfold roundUp
  rw [Nat.mul_comm alignment q]
  apply Nat.mul_le_mul_right
  apply Nat.le_of_lt_succ
  apply (Nat.div_lt_iff_lt_mul h).mpr
  rw [Nat.succ_mul, Nat.mul_comm q]
  omega

theorem roundUp_of_dvd (h : 0 < alignment) (hn : alignment ∣ n) : roundUp alignment n = n :=
  le_antisymm (roundUp_le h hn le_rfl) (le_roundUp h)

/-- `n & (alignment - 1)` -/
theorem and_mask_eq_zero : n &&& (2 ^ k - 1) = 0 ↔ 2 ^ k ∣ n := by
  rw [Nat.and_two_pow_sub_one_eq_mod, Nat.dvd_iff_mod_eq_zero]

/-- `n & ~(alignment - 1)` -/
theorem and_not_mask (hk : k ≤ 64) (hn : n < 2 ^ 64) :
    n &&& (2 ^ 64 - 1 - (2 ^ k - 1)) = n / 2 ^ k * 2 ^ k := by
  have hpos : 0 < 2 ^ k := Nat.pow_pos (by norm_num)
  have hle : 2 ^ k ≤ 2 ^ 64 := Nat.pow_le_pow_right (by norm_num) hk
  have hmask : 2 ^ 64 - 1 - (2 ^ k - 1) = 2 ^ 64 - (2 ^ k - 1 + 1) := by omega
  have hshift : n / 2 ^ k * 2 ^ k = (n >>> k) <<< k := by
    rw [Nat.shiftLeft_eq, Nat.shiftRight_eq_div_pow]
  rw [hmask, hshift]
  apply Nat.eq_of_testBit_eq
  intro i
  rw [Nat.testBit_and, Nat.testBit_two_pow_sub_succ (by omega), Nat.testBit_two_pow_sub_one,
    Nat.testBit_shiftLeft, Nat.testBit_shiftRight]
  by_cases hi : i < k
  · simp [hi]
  · -- a bit from `k` on: below 64 the mask keeps it, from there on it is not set
    have hback : k + (i - k) = i := by omega
    rw [hback]
    by_cases hword : i < 64
    · simp [hi, hword, not_lt.mp hi]
    · have hzero : n.testBit i = false :=
        Nat.testBit_lt_two_pow (hn.trans_le (Nat.pow_le_pow_right (by norm_num) (by omega)))
      simp [hzero]

end Rounding

/-! ## Ranges with room at an aligned place -/

/-- `[p, p + n)` is a part of `r` that begins at a multiple of `alignment`. -/
structure AlignedPart (r : Range) (alignment n p : ℕ) : Prop where
  aligned : alignment ∣ p
  low : r.offset ≤ p
  high : p + n ≤ r.stop

section Matching

variable {r : Range} {k n head p : ℕ}

/-- The first aligned place of a range has room if any has. -/
theorem AlignedPart.roundUp_le {alignment : ℕ} (halign : 0 < alignment)
    (h : AlignedPart r alignment n p) : roundUp alignment r.offset + n ≤ r.stop := by
  have hfirst := Heap.roundUp_le halign h.aligned h.low
  have hhigh := h.high
  omega

/-- `alignment_matches` finds the first aligned place. -/
theorem alignmentMatches_eq_some (hk : k ≤ 63) (hr : r.stop ≤ 2 ^ 63) :
    alignmentMatches r (2 ^ k) n = some head ↔
      n ≤ r.size ∧ head = roundUp (2 ^ k) r.offset - r.offset ∧
        roundUp (2 ^ k) r.offset + n ≤ r.stop := by
  have hpos : 0 < 2 ^ k := Nat.pow_pos (by norm_num)
  have hpow : 2 ^ k ≤ 2 ^ 63 := Nat.pow_le_pow_right (by norm_num) hk
  have hlow := le_roundUp (n := r.offset) hpos
  have hhigh := roundUp_le_add (n := r.offset) hpos
  have hstop : r.stop = r.offset + r.size := rfl
  unfold alignmentMatches
  by_cases hsize : r.size < n
  · rw [if_pos hsize]
    constructor
    · intro h
      cases h
    · intro h
      omega
  rw [if_neg hsize]
  by_cases hmask : r.offset &&& (2 ^ k - 1) = 0
  · rw [if_pos hmask, roundUp_of_dvd hpos (and_mask_eq_zero.mp hmask), Nat.sub_self,
      Option.some.injEq]
    constructor
    · intro h
      exact ⟨by omega, h.symm, by omega⟩
    · intro h
      exact h.2.1.symm
  have haligned : wrap (r.offset + 2 ^ k - 1) &&& (2 ^ 64 - 1 - (2 ^ k - 1))
      = roundUp (2 ^ k) r.offset := by
    rw [wrap_of_lt (by omega), and_not_mask (by omega) (by omega)]
    rfl
  have hskip : wrap (roundUp (2 ^ k) r.offset + 2 ^ 64 - r.offset)
      = roundUp (2 ^ k) r.offset - r.offset := by
    have hsplit : roundUp (2 ^ k) r.offset + 2 ^ 64 - r.offset
        = (roundUp (2 ^ k) r.offset - r.offset) + 2 ^ 64 := by omega
    unfold wrap
    rw [hsplit, Nat.add_mod_right, Nat.mod_eq_of_lt (by omega)]
  rw [if_neg hmask, haligned]
  dsimp only
  rw [hskip, wrap_of_lt (by omega), Option.ite_none_right_eq_some, Option.some.injEq]
  constructor
  · intro h
    exact ⟨by omega, h.2.symm, by omega⟩
  · intro h
    exact ⟨by omega, h.2.1.symm⟩

/-- A range matches if and only if it has an aligned part of the size. -/
theorem alignmentMatches_isSome (hk : k ≤ 63) (hr : r.stop ≤ 2 ^ 63) :
    (alignmentMatches r (2 ^ k) n).isSome ↔ ∃ p, AlignedPart r (2 ^ k) n p := by
  have hpos : 0 < 2 ^ k := Nat.pow_pos (by norm_num)
  rw [Option.isSome_iff_exists]
  constructor
  · rintro ⟨head, h⟩
    obtain ⟨-, -, hroom⟩ := (alignmentMatches_eq_some hk hr).mp h
    exact ⟨_, dvd_roundUp, le_roundUp hpos, hroom⟩
  · rintro ⟨p, hp⟩
    have hroom := hp.roundUp_le hpos
    have hlow := le_roundUp (n := r.offset) hpos
    refine ⟨_, (alignmentMatches_eq_some hk hr).mpr ⟨?_, rfl, hroom⟩⟩
    unfold Range.stop at hroom
    omega

end Matching

/-! ## The call -/

/-- The first of the smallest idle ranges with an aligned part of the size. -/
structure SmallestFit (m : MemoryManager) (alignment n : ℕ) (target : Range) : Prop where
  idle : target ∈ m.addressIdleTree
  fits : ∃ p, AlignedPart target alignment n p
  smallest : ∀ r ∈ m.addressIdleTree, (∃ p, AlignedPart r alignment n p) →
    target.size < r.size ∨ target.size = r.size ∧ target.offset ≤ r.offset

/-- What a call that succeeds has done with its target: `head` bytes, the block, `tail` bytes. -/
structure CutInto (m m' : MemoryManager) (target : Range) (head size tail : ℕ) : Prop where
  sum : head + size + tail = target.size
  used : ∀ r, r ∈ m'.addressUsedTree ↔
    r = ⟨target.offset + head, size⟩ ∨ r ∈ m.addressUsedTree
  sizeIdle : ∀ r, r ∈ m'.sizeIdleTree ↔ (r ∈ m.sizeIdleTree ∧ r ≠ target) ∨
    (0 < head ∧ r = ⟨target.offset, head⟩) ∨
    (0 < tail ∧ r = ⟨target.offset + head + size, tail⟩)
  /-- the target's own entry is not taken out of the address tree -/
  addressIdle : ∀ r, r ∈ m'.addressIdleTree ↔ r ∈ m.addressIdleTree ∨
    (0 < tail ∧ r = ⟨target.offset + head + size, tail⟩)

/-- `emplace`, if there is anything to put in. -/
theorem mem_emplace_if {α κ : Type} [LinearOrder κ] {key : α → κ} {s : OrderedSet key} {p : Prop}
    [Decidable p] {a b : α} (h : ∀ c ∈ s, key c ≠ key a) :
    (b ∈ if p then s.emplace a else s) ↔ b ∈ s ∨ (p ∧ b = a) := by
  by_cases hp : p
  · rw [if_pos hp, OrderedSet.mem_emplace h, or_comm, and_iff_right hp]
  · rw [if_neg hp, or_iff_left fun hand => hp hand.1]

/-- No other idle range begins inside an idle one. -/
theorem Tiled.offset_ne {m : MemoryManager} (h : Tiled m) {target r : Range}
    (htarget : target ∈ m.addressIdleTree) (hr : r ∈ m.addressIdleTree) (hne : r ≠ target) {x : ℕ}
    (hx : target.Covers x) : r.offset ≠ x := by
  intro heq
  have hself : r.Covers x := ⟨heq.le, heq ▸ Nat.lt_add_of_pos_right (h.idle_inside hr).1⟩
  exact hne (h.tiles.eq_of_covers (u := false) (v := false) hr htarget hself hx).2

section Call

variable {m : MemoryManager} {k n : ℕ} {target r : Range}

theorem Tiled.idle_stop (h : Tiled m) (hsize : m.size ≤ 2 ^ 63) (hr : r ∈ m.addressIdleTree) :
    r.stop ≤ 2 ^ 63 := (h.tiles.inside false r hr).trans hsize

/-- The walk up the size tree. -/
theorem alignedTarget_eq (hm : Mapped m.base m.size) (hn : 0 < n)
    (hle : n ≤ m.size) : m.alignedTarget m.size (2 ^ k) n =
      m.sizeIdleTree.first fun r => sizeFirst ⟨0, align16 n⟩ ≤ sizeFirst r ∧
        (alignmentMatches r (2 ^ k) (align16 n)).isSome := by
  have hmapped := hm.inside
  have hnonnull := hm.nonnull
  have hpos : 0 < 2 ^ k := Nat.pow_pos (by norm_num)
  have hargs : ¬ (n = 0 ∨ 2 ^ k = 0 ∨ m.size < n) := by omega
  have hpower : ¬ (2 ^ k &&& (2 ^ k - 1) ≠ 0) := not_not.mpr (and_mask_eq_zero.mpr dvd_rfl)
  unfold MemoryManager.alignedTarget
  rw [if_neg hargs, if_neg hpower, allocatedSizeAlignUp_eq (by omega)]

/-- The search finds the smallest idle range that can hold the aligned block, the lowest of those of
one size. -/
theorem Tiled.alignedTarget_eq_some (h : Tiled m) (hm : Mapped m.base m.size)
    (hsize : m.size ≤ 2 ^ 63) (hk : k ≤ 63) (hn : 0 < n) (hle : n ≤ m.size) :
    m.alignedTarget m.size (2 ^ k) n = some target ↔ SmallestFit m (2 ^ k) (align16 n) target := by
  have hmatches : ∀ r ∈ m.addressIdleTree, (sizeFirst ⟨0, align16 n⟩ ≤ sizeFirst r ∧
      (alignmentMatches r (2 ^ k) (align16 n)).isSome) ↔
        ∃ p, AlignedPart r (2 ^ k) (align16 n) p := by
    intro r hr
    have hstop := h.idle_stop hsize hr
    rw [← alignmentMatches_isSome hk hstop, anchor_le_iff]
    apply and_iff_right_of_imp
    intro hsome
    obtain ⟨head, hhead⟩ := Option.isSome_iff_exists.mp hsome
    exact ((alignmentMatches_eq_some hk hstop).mp hhead).1
  rw [alignedTarget_eq hm hn hle, OrderedSet.first_eq_some, h.index]
  constructor
  · rintro ⟨hidle, hfits, hmin⟩
    refine ⟨hidle, (hmatches target hidle).mp hfits, ?_⟩
    intro r hr hr'
    exact sizeFirst_le_iff.mp (hmin r ((h.index r).mpr hr) ((hmatches r hr).mpr hr'))
  · rintro ⟨hidle, hfits, hmin⟩
    refine ⟨hidle, (hmatches target hidle).mpr hfits, ?_⟩
    intro r hr hr'
    have hr := (h.index r).mp hr
    exact sizeFirst_le_iff.mpr (hmin r hr ((hmatches r hr).mp hr'))

/-- The walk ends at a range exactly when some idle range has an aligned part. -/
theorem Tiled.alignedTarget_isSome (h : Tiled m) (hm : Mapped m.base m.size)
    (hsize : m.size ≤ 2 ^ 63) (hk : k ≤ 63) (hn : 0 < n) (hle : n ≤ m.size) :
    (m.alignedTarget m.size (2 ^ k) n).isSome ↔
      ∃ r ∈ m.addressIdleTree, ∃ p, AlignedPart r (2 ^ k) (align16 n) p := by
  constructor
  · intro hsome
    obtain ⟨target, htarget⟩ := Option.isSome_iff_exists.mp hsome
    have hfit := (h.alignedTarget_eq_some hm hsize hk hn hle).mp htarget
    exact ⟨target, hfit.idle, hfit.fits⟩
  · rintro ⟨r, hr, hpart⟩
    by_contra hnone
    rw [Bool.not_eq_true, Option.isSome_eq_false_iff, Option.isNone_iff_eq_none,
      alignedTarget_eq hm hn hle, OrderedSet.first_eq_none] at hnone
    have hstop := h.idle_stop hsize hr
    have hmatch := (alignmentMatches_isSome hk hstop).mpr hpart
    obtain ⟨head, hhead⟩ := Option.isSome_iff_exists.mp hmatch
    have hroom := ((alignmentMatches_eq_some hk hstop).mp hhead).1
    exact hnone r ((h.index r).mpr hr) ⟨anchor_le_iff.mpr hroom, hmatch⟩

section Cut

variable {head size tail : ℕ}

/-- No used range begins inside an idle one. -/
theorem Tiled.mem_used_cut (h : Tiled m) (hidle : target ∈ m.addressIdleTree)
    (hsum : head + size + tail = target.size) (hsize : 0 < size) (r : Range) :
    r ∈ m.addressUsedTree.emplace ⟨target.offset + head, size⟩ ↔
      r = ⟨target.offset + head, size⟩ ∨ r ∈ m.addressUsedTree := by
  apply OrderedSet.mem_emplace
  intro s hs heq
  have heq : s.offset = target.offset + head := heq
  have hself : s.Covers (target.offset + head) :=
    ⟨heq.le, heq ▸ Nat.lt_add_of_pos_right (h.used_inside hs).1⟩
  have hplace : target.Covers (target.offset + head) := by
    refine ⟨Nat.le_add_right _ _, ?_⟩
    unfold Range.stop
    omega
  cases (h.tiles.eq_of_covers (u := true) (v := false) hs hidle hself hplace).1

/-- The size tree without the target, with the head and the tail. -/
theorem Tiled.mem_size_cut (h : Tiled m) (hidle : target ∈ m.addressIdleTree)
    (hsum : head + size + tail = target.size) (hsize : 0 < size) (r : Range) :
    (r ∈ if 0 < tail then
        (if 0 < head then (m.sizeIdleTree.erase (sizeFirst target)).emplace ⟨target.offset, head⟩
          else m.sizeIdleTree.erase (sizeFirst target)).emplace
            ⟨target.offset + head + size, tail⟩
      else
        if 0 < head then (m.sizeIdleTree.erase (sizeFirst target)).emplace ⟨target.offset, head⟩
          else m.sizeIdleTree.erase (sizeFirst target)) ↔
      (r ∈ m.sizeIdleTree ∧ r ≠ target) ∨ (0 < head ∧ r = ⟨target.offset, head⟩) ∨
        (0 < tail ∧ r = ⟨target.offset + head + size, tail⟩) := by
  have hrest : ∀ s, s ∈ m.sizeIdleTree.erase (sizeFirst target) ↔
      s ∈ m.sizeIdleTree ∧ s ≠ target := by
    intro s
    rw [(h.mem_erase hidle s).2, h.index]
  have hinside := (h.idle_inside hidle).1
  -- the keys of the pieces are new because no other idle range begins in the target
  have hfront : ∀ s ∈ m.sizeIdleTree.erase (sizeFirst target),
      sizeFirst s ≠ sizeFirst ⟨target.offset, head⟩ := by
    intro s hs heq
    obtain ⟨hs, hne⟩ := (hrest s).mp hs
    have hoffset := congrArg Range.offset (sizeFirst_injective heq)
    exact h.offset_ne hidle ((h.index s).mp hs) hne
      ⟨le_rfl, Nat.lt_add_of_pos_right hinside⟩ hoffset
  by_cases htail : 0 < tail
  · rw [if_pos htail, OrderedSet.mem_emplace, mem_emplace_if hfront, hrest, and_iff_right htail]
    · tauto
    · intro s hs heq
      have hoffset := congrArg Range.offset (sizeFirst_injective heq)
      rcases (mem_emplace_if hfront).mp hs with hs | ⟨-, rfl⟩
      · obtain ⟨hs, hne⟩ := (hrest s).mp hs
        refine h.offset_ne hidle ((h.index s).mp hs) hne ⟨?_, ?_⟩ hoffset
        · dsimp only
          omega
        · unfold Range.stop
          dsimp only
          omega
      · dsimp only at hoffset
        omega
  · rw [if_neg htail, mem_emplace_if hfront, hrest]
    tauto

/-- The address tree with the tail: it has an entry at the offset of the head already. -/
theorem Tiled.mem_address_cut (h : Tiled m) (hidle : target ∈ m.addressIdleTree)
    (hsum : head + size + tail = target.size) (hsize : 0 < size) (r : Range) :
    (r ∈ if 0 < tail then
        (if 0 < head then m.addressIdleTree.emplace ⟨target.offset, head⟩
          else m.addressIdleTree).emplace ⟨target.offset + head + size, tail⟩
      else
        if 0 < head then m.addressIdleTree.emplace ⟨target.offset, head⟩
          else m.addressIdleTree) ↔
      r ∈ m.addressIdleTree ∨ (0 < tail ∧ r = ⟨target.offset + head + size, tail⟩) := by
  have hkeep : m.addressIdleTree.emplace ⟨target.offset, head⟩ = m.addressIdleTree :=
    OrderedSet.emplace_of_mem ⟨target, hidle, rfl⟩
  rw [hkeep, ite_self]
  by_cases htail : 0 < tail
  · rw [if_pos htail, OrderedSet.mem_emplace, or_comm, and_iff_right htail]
    intro s hs heq
    dsimp only at heq
    by_cases hne : s = target
    · rw [hne] at heq
      omega
    · refine h.offset_ne hidle hs hne ⟨?_, ?_⟩ heq
      · omega
      · unfold Range.stop
        omega
  · rw [if_neg htail, or_iff_left fun hand => htail hand.1]

end Cut

/-- The smallest fitting range is cut. -/
theorem Tiled.alignedAllocate_cut (h : Tiled m) (hm : Mapped m.base m.size)
    (hsize : m.size ≤ 2 ^ 63) (hk : k ≤ 63) (hn : 0 < n) (hle : n ≤ m.size)
    (hfit : SmallestFit m (2 ^ k) (align16 n) target) :
    ∃ head tail, 2 ^ k ∣ target.offset + head ∧
      (m.alignedAllocate m.size (2 ^ k) n).1 = some (m.base + (target.offset + head)) ∧
      CutInto m (m.alignedAllocate m.size (2 ^ k) n).2 target head (align16 n) tail := by
  have hmapped := hm.inside
  have hnonnull := hm.nonnull
  have hpos : 0 < 2 ^ k := Nat.pow_pos (by norm_num)
  have halign : allocatedSizeAlignUp n = align16 n := allocatedSizeAlignUp_eq (by omega)
  have hblock : 0 < align16 n := hn.trans_le (le_align16 n)
  have hinside := h.idle_inside hfit.idle
  have hstop : target.stop = target.offset + target.size := rfl
  obtain ⟨p, hp⟩ := hfit.fits
  have hroom := hp.roundUp_le hpos
  have hlow := le_roundUp (n := target.offset) hpos
  have hhead := (alignmentMatches_eq_some (n := align16 n) hk (h.idle_stop hsize hfit.idle)).mpr
    ⟨by omega, rfl, hroom⟩
  have hplace : target.offset + (roundUp (2 ^ k) target.offset - target.offset)
      = roundUp (2 ^ k) target.offset := by omega
  generalize hskip : roundUp (2 ^ k) target.offset - target.offset = head at hhead hplace
  have hdvd : 2 ^ k ∣ target.offset + head := hplace ▸ dvd_roundUp
  -- the words of the split are exact
  have hfirst : wrap (target.offset + head) = target.offset + head := wrap_of_lt (by omega)
  have hsecond : wrap (target.offset + head + align16 n) = target.offset + head + align16 n :=
    wrap_of_lt (by omega)
  have hleft : wrap (target.size + 2 ^ 64 + 2 ^ 64 - head - align16 n)
      = target.size - head - align16 n := by
    have hsplit : target.size + 2 ^ 64 + 2 ^ 64 - head - align16 n
        = (target.size - head - align16 n) + 2 ^ 64 + 2 ^ 64 := by omega
    unfold wrap
    rw [hsplit, Nat.add_mod_right, Nat.add_mod_right, Nat.mod_eq_of_lt (by omega)]
  have hneed : wrap (head + align16 n) = head + align16 n := wrap_of_lt (by omega)
  have hpointer : m.pointer (target.offset + head) = m.base + (target.offset + head) :=
    wrap_of_lt (by omega)
  have hrun : m.alignedAllocate m.size (2 ^ k) n = (some (m.base + (target.offset + head)), { m with
      addressIdleTree :=
        let addressIdle := if 0 < head then m.addressIdleTree.emplace ⟨target.offset, head⟩
          else m.addressIdleTree
        if head + align16 n < target.size then addressIdle.emplace
          ⟨target.offset + head + align16 n, target.size - head - align16 n⟩ else addressIdle
      addressUsedTree := m.addressUsedTree.emplace ⟨target.offset + head, align16 n⟩
      sizeIdleTree :=
        let sizeIdle := if 0 < head then
            (m.sizeIdleTree.erase (sizeFirst target)).emplace ⟨target.offset, head⟩
          else m.sizeIdleTree.erase (sizeFirst target)
        if head + align16 n < target.size then sizeIdle.emplace
          ⟨target.offset + head + align16 n, target.size - head - align16 n⟩ else sizeIdle }) := by
    unfold MemoryManager.alignedAllocate
    rw [(h.alignedTarget_eq_some hm hsize hk hn hle).mpr hfit]
    simp only [halign, hhead, Option.getD_some, hfirst, hsecond, hleft, hneed, hpointer]
    by_cases hzero : 0 < head
    · by_cases hmore : head + align16 n < target.size
      · simp only [if_pos hzero, if_pos hmore]
      · simp only [if_pos hzero, if_neg hmore]
    · by_cases hmore : head + align16 n < target.size
      · simp only [if_neg hzero, if_pos hmore]
      · simp only [if_neg hzero, if_neg hmore]
  have hmore : (head + align16 n < target.size) = (0 < target.size - head - align16 n) :=
    propext (by omega)
  have hsum : head + align16 n + (target.size - head - align16 n) = target.size := by omega
  refine ⟨head, target.size - head - align16 n, hdvd, by rw [hrun], ?_⟩
  rw [hrun]
  refine ⟨hsum, h.mem_used_cut hfit.idle hsum hblock, ?_, ?_⟩
  · intro r
    simp only [hmore]
    exact h.mem_size_cut hfit.idle hsum hblock r
  · intro r
    simp only [hmore]
    exact h.mem_address_cut hfit.idle hsum hblock r

end Call

/-! ## Words -/

/-- The aligned place `alignment_matches` computes for an unaligned range, in exact arithmetic. -/
def alignedOffset (r : Range) (alignment : ℕ) : ℕ :=
  (r.offset + alignment - 1) &&& (2 ^ 64 - 1 - (alignment - 1))

/-- No sum of a call leaves the 64 bits and no difference is negative, for any range the walk can
come to. -/
structure NoWrap (m : MemoryManager) (alignment n : ℕ) : Prop where
  /-- `allocated_size_align_up` -/
  rounding : n + 15 < 2 ^ 64
  /-- `mr.offset + alignment` -/
  sum : ∀ r ∈ m.sizeIdleTree, r.offset + alignment < 2 ^ 64
  /-- `aligned_offset - mr.offset` -/
  skip : ∀ r ∈ m.sizeIdleTree, r.offset ≤ alignedOffset r alignment
  /-- `size + head_skip` -/
  need : ∀ r ∈ m.sizeIdleTree, align16 n ≤ r.size →
    align16 n + (alignedOffset r alignment - r.offset) < 2 ^ 64
  /-- `target_offset + head_skip + aligned_size` and `target_size - head_skip - aligned_size` -/
  split : ∀ r ∈ m.sizeIdleTree, ∀ head, alignmentMatches r alignment (align16 n) = some head →
    r.offset + head + align16 n < 2 ^ 64 ∧ head + align16 n ≤ r.size
  /-- `base_ + result_range.offset` -/
  pointer : ∀ r ∈ m.sizeIdleTree, ∀ head, alignmentMatches r alignment (align16 n) = some head →
    m.base + (r.offset + head) < 2 ^ 64

/-- In a heap of at most 2^63 bytes no sum of an aligned allocation wraps. -/
theorem Tiled.noWrap {m : MemoryManager} {k n : ℕ} (h : Tiled m) (hm : Mapped m.base m.size)
    (hsize : m.size ≤ 2 ^ 63) (hk : k ≤ 63) (hle : n ≤ m.size) : NoWrap m (2 ^ k) n := by
  have hmapped := hm.inside
  have hpos : 0 < 2 ^ k := Nat.pow_pos (by norm_num)
  have hpow : 2 ^ k ≤ 2 ^ 63 := Nat.pow_le_pow_right (by norm_num) hk
  have hinside : ∀ r ∈ m.sizeIdleTree, 0 < r.size ∧ r.offset + r.size ≤ m.size :=
    fun r hr => h.idle_inside ((h.index r).mp hr)
  have hplace : ∀ r ∈ m.sizeIdleTree, alignedOffset r (2 ^ k) = roundUp (2 ^ k) r.offset := by
    intro r hr
    have hbound := hinside r hr
    unfold alignedOffset
    rw [and_not_mask (by omega) (by omega)]
    rfl
  have hcut : ∀ r ∈ m.sizeIdleTree, ∀ head, alignmentMatches r (2 ^ k) (align16 n) = some head →
      head + align16 n ≤ r.size := by
    intro r hr head hhead
    have hstop := h.idle_stop hsize ((h.index r).mp hr)
    obtain ⟨-, rfl, hroom⟩ := (alignmentMatches_eq_some hk hstop).mp hhead
    have hlow := le_roundUp (n := r.offset) hpos
    unfold Range.stop at hroom
    omega
  constructor
  · omega
  · intro r hr
    have hbound := hinside r hr
    omega
  · intro r hr
    rw [hplace r hr]
    exact le_roundUp hpos
  · intro r hr hfit
    have hbound := hinside r hr
    have hhigh := roundUp_le_add (n := r.offset) hpos
    rw [hplace r hr]
    omega
  · intro r hr head hhead
    have hbound := hinside r hr
    have hfit := hcut r hr head hhead
    omega
  · intro r hr head hhead
    have hbound := hinside r hr
    have hfit := hcut r hr head hhead
    omega

/-- On every tiled heap, for every power of two up to `2 ^ 63` and every size up to that of the
heap: `aligned_allocate` succeeds exactly when some idle range has an aligned part of the rounded
size; it then cuts the smallest of them into a head, the block at a multiple of the alignment, and a
tail; a refusal changes nothing, and no word wraps. The heap is at most `2 ^ 63` bytes large: a
session of more than 40 GiB is refused before its heap is made. -/
theorem alignedAllocate_complete (m : MemoryManager) (k n : ℕ) (hm : Mapped m.base m.size)
    (hsize : m.size ≤ 2 ^ 63) (htiled : Tiled m) (hk : k ≤ 63) (hn : 0 < n) (hle : n ≤ m.size) :
    ((m.alignedAllocate m.size (2 ^ k) n).1.isSome ↔
      ∃ r ∈ m.addressIdleTree, ∃ p, AlignedPart r (2 ^ k) (align16 n) p) ∧
    (∀ pointer, (m.alignedAllocate m.size (2 ^ k) n).1 = some pointer →
      ∃ target head tail, SmallestFit m (2 ^ k) (align16 n) target ∧
        2 ^ k ∣ target.offset + head ∧ pointer = m.base + (target.offset + head) ∧
        CutInto m (m.alignedAllocate m.size (2 ^ k) n).2 target head (align16 n) tail) ∧
    ((m.alignedAllocate m.size (2 ^ k) n).1 = none →
      (m.alignedAllocate m.size (2 ^ k) n).2 = m) ∧
    NoWrap m (2 ^ k) n := by
  have hisSome := htiled.alignedTarget_isSome hm hsize hk hn hle
  have hnowrap := htiled.noWrap hm hsize hk hle
  cases htarget : m.alignedTarget m.size (2 ^ k) n with
  | none =>
    have hrun : m.alignedAllocate m.size (2 ^ k) n = (none, m) := by
      unfold MemoryManager.alignedAllocate
      rw [htarget]
    rw [htarget] at hisSome
    rw [hrun]
    exact ⟨hisSome, nofun, fun _ => rfl, hnowrap⟩
  | some target =>
    have hfit := (htiled.alignedTarget_eq_some hm hsize hk hn hle).mp htarget
    obtain ⟨head, tail, hdvd, hpointer, hcut⟩ :=
      htiled.alignedAllocate_cut hm hsize hk hn hle hfit
    rw [htarget] at hisSome
    refine ⟨?_, ?_, ?_, hnowrap⟩
    · rw [hpointer]
      exact iff_of_true rfl (hisSome.mp rfl)
    · intro pointer hsome
      rw [hpointer, Option.some.injEq] at hsome
      exact ⟨target, head, tail, hfit, hdvd, hsome.symm, hcut⟩
    · intro hnone
      rw [hpointer] at hnone
      cases hnone

/-- An aligned block behind a head of 16 bytes. -/
theorem alignedAllocate_complete_sample :
    ∃ target head tail, SmallestFit ((MemoryManager.mk' 4096 128).run 128 [.allocate 16]) (2 ^ 5)
        (align16 20) target ∧
      2 ^ 5 ∣ target.offset + head ∧ 4128 = 4096 + (target.offset + head) ∧
      CutInto ((MemoryManager.mk' 4096 128).run 128 [.allocate 16])
        (((MemoryManager.mk' 4096 128).run 128 [.allocate 16]).alignedAllocate 128 (2 ^ 5) 20).2
        target head (align16 20) tail := by
  have hmapped : Mapped 4096 128 := ⟨by decide, by decide⟩
  have hsound : Sound 4096 128 ((MemoryManager.mk' 4096 128).run 128 [.allocate 16]) :=
    (sound_mk' 4096 128).run hmapped ⟨trivial, trivial⟩
  cases hsound with
  | fresh hsize _ => cases hsize
  | tiled blocks _ _ _ hrep =>
    exact (alignedAllocate_complete _ 5 20 hmapped (by decide) hrep.tiled (by decide) (by decide)
      (by decide)).2.1 4128 (by decide +kernel)

end AscendShmem.Heap
