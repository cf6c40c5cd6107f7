import Mathlib
import AscendShmem.PullV2.Abi

/-!
# Checked 64-bit arithmetic and FNV hashing

The host files and the device kernels each carry their own overflow-checked sums, products
and alignments, and their own FNV-1a step; the device spells the wide product in 16-bit
limbs and the hash multiplication as shifts because its compiler has no generic wide
multiply. Every one of them is characterised here by what it computes in `ℕ`, and the
device variants are shown equal to the host ones.
-/

namespace AscendShmem.PullV2

open Lib

/-! ## Host -/

/-- `Add`: the sum, unless it does not fit. -/
def add (a b : UInt64) : Option UInt64 :=
  if b > 0xffffffffffffffff - a then none else some (a + b)

/-- `Mul`: the product, unless it does not fit. -/
def mul (a b : UInt64) : Option UInt64 :=
  if a ≠ 0 ∧ b > 0xffffffffffffffff / a then none else some (a * b)

/-- `Align`: the next multiple of a power of two, unless the rounding sum does not fit. -/
def align (value alignment : UInt64) : Option UInt64 :=
  if alignment ≠ 0 ∧ alignment &&& (alignment - 1) = 0 then
    (add value (alignment - 1)).map fun expanded => expanded / alignment * alignment
  else none

/-- A checked sum is the sum of the numbers. -/
theorem add_eq_some {a b c : UInt64} : add a b = some c ↔ a.toNat + b.toNat = c.toNat := by
  have ha := a.toNat_lt
  have hb := b.toNat_lt
  have hc := c.toNat_lt
  have hsub : (0xffffffffffffffff - a : UInt64).toNat = 2 ^ 64 - 1 - a.toNat := by
    rw [UInt64.toNat_sub_of_le]
    · rfl
    · rw [UInt64.le_iff_toNat_le]
      change a.toNat ≤ 2 ^ 64 - 1
      omega
  unfold add
  by_cases h : b > 0xffffffffffffffff - a
  · rw [if_pos h]
    rw [gt_iff_lt, UInt64.lt_iff_toNat_lt, hsub] at h
    constructor
    · intro hn; cases hn
    · intro hs; omega
  · rw [if_neg h]
    rw [gt_iff_lt, UInt64.lt_iff_toNat_lt, hsub] at h
    have hadd : (a + b).toNat = a.toNat + b.toNat := by
      rw [UInt64.toNat_add, Nat.mod_eq_of_lt (by omega)]
    rw [Option.some.injEq, ← UInt64.toNat_inj, hadd]

/-- The overflow guard of a product, in `ℕ`. -/
theorem mul_fits_iff {a b : ℕ} (ha : a ≠ 0) : b ≤ (2 ^ 64 - 1) / a ↔ a * b < 2 ^ 64 := by
  rw [Nat.le_div_iff_mul_le (Nat.pos_of_ne_zero ha), Nat.mul_comm b a]
  omega

/-- A checked product is the product of the numbers. -/
theorem mul_eq_some {a b c : UInt64} : mul a b = some c ↔ a.toNat * b.toNat = c.toNat := by
  have hc := c.toNat_lt
  have ha0 : a ≠ 0 ↔ a.toNat ≠ 0 := by
    rw [Ne, ← UInt64.toNat_inj]; rfl
  have hdiv : (0xffffffffffffffff / a : UInt64).toNat = (2 ^ 64 - 1) / a.toNat :=
    UInt64.toNat_div _ _
  have hprod : a.toNat * b.toNat < 2 ^ 64 → (a * b).toNat = a.toNat * b.toNat := fun h => by
    rw [UInt64.toNat_mul, Nat.mod_eq_of_lt h]
  unfold mul
  by_cases h : a ≠ 0 ∧ b > 0xffffffffffffffff / a
  · rw [if_pos h]
    obtain ⟨h0, hb⟩ := h
    rw [gt_iff_lt, UInt64.lt_iff_toNat_lt, hdiv] at hb
    have hfit := (mul_fits_iff (b := b.toNat) (ha0.mp h0)).not.mp (by omega)
    constructor
    · intro hn; cases hn
    · intro hs; omega
  · rw [if_neg h]
    have hfit : a.toNat * b.toNat < 2 ^ 64 := by
      by_cases h0 : a.toNat = 0
      · rw [h0]; omega
      · have hb : ¬ b > 0xffffffffffffffff / a := fun hb => h ⟨ha0.mpr h0, hb⟩
        rw [gt_iff_lt, UInt64.lt_iff_toNat_lt, hdiv] at hb
        exact (mul_fits_iff h0).mp (by omega)
    rw [Option.some.injEq, ← UInt64.toNat_inj, hprod hfit]

/-- Rounding up to the 64-byte alignment of the protocol. -/
def alignUp (n : ℕ) : ℕ := (n + 63) / 64 * 64

theorem le_alignUp (n : ℕ) : n ≤ alignUp n := by unfold alignUp; omega

theorem alignUp_lt (n : ℕ) : alignUp n < n + 64 := by unfold alignUp; omega

theorem alignUp_mod (n : ℕ) : alignUp n % 64 = 0 := by unfold alignUp; omega

theorem alignUp_of_mod {n : ℕ} (h : n % 64 = 0) : alignUp n = n := by unfold alignUp; omega

/-- A rounded-up value fits exactly when its rounding sum does. -/
theorem alignUp_fits {n : ℕ} : alignUp n < 2 ^ 64 ↔ n + 63 < 2 ^ 64 := by unfold alignUp; omega

/-- A checked alignment is that of the number. -/
theorem align_eq_some {value c : UInt64} :
    align value 64 = some c ↔ alignUp value.toNat = c.toNat := by
  have hc := c.toNat_lt
  have hpow : (64 : UInt64) ≠ 0 ∧ (64 : UInt64) &&& (64 - 1) = 0 := by decide
  have h63 : (64 - 1 : UInt64).toNat = 63 := by decide
  unfold align
  rw [if_pos hpow, Option.map_eq_some_iff]
  constructor
  · rintro ⟨e, he, rfl⟩
    rw [add_eq_some, h63] at he
    rw [UInt64.toNat_mul, UInt64.toNat_div, ← he]
    have h64 : (64 : UInt64).toNat = 64 := by decide
    have hlt : value.toNat + 63 < 2 ^ 64 := by rw [he]; exact e.toNat_lt
    rw [h64, Nat.mod_eq_of_lt (by omega)]
    rfl
  · intro h
    have hlt : value.toNat + 63 < 2 ^ 64 := alignUp_fits.mp (by omega)
    refine ⟨UInt64.ofNat (value.toNat + 63), ?_, ?_⟩
    · rw [add_eq_some, h63, UInt64.toNat_ofNat', Nat.mod_eq_of_lt hlt]
    · apply UInt64.toNat_inj.mp
      have h64 : (64 : UInt64).toNat = 64 := by decide
      rw [UInt64.toNat_mul, UInt64.toNat_div, UInt64.toNat_ofNat', Nat.mod_eq_of_lt hlt, h64,
        Nat.mod_eq_of_lt (by omega), ← h]
      rfl

/-! ## Device -/

/-- `AddU64`. -/
def addU64 (a b : UInt64) : Option UInt64 :=
  if b > ~~~0 - a then none else some (a + b)

/-- `MulU32Exact`: the 64-bit product of two words from their 16-bit limbs. -/
def mulU32Exact (a b : UInt32) : UInt64 :=
  let a0 := a &&& 0xffff
  let a1 := a >>> 16
  let b0 := b &&& 0xffff
  let b1 := b >>> 16
  let p0 := a0 * b0
  let p1 := a0 * b1
  let p2 := a1 * b0
  let p3 := a1 * b1
  p0.toUInt64 + ((p1.toUInt64 + p2.toUInt64) <<< 16) + (p3.toUInt64 <<< 32)

/-- `MulU64ByU32`. -/
def mulU64ByU32 (value : UInt64) (factor : UInt32) : UInt64 :=
  mulU32Exact value.toUInt32 factor + (mulU32Exact (value >>> 32).toUInt32 factor <<< 32)

/-- `CheckedMulU64ByU32`. -/
def checkedMulU64ByU32 (value : UInt64) (factor : UInt32) : Option UInt64 :=
  if factor ≠ 0 ∧ value > ~~~0 / factor.toUInt64 then none else some (mulU64ByU32 value factor)

/-- `AlignU64`. -/
def alignU64 (value alignment : UInt64) : Option UInt64 :=
  if alignment = 0 ∨ alignment &&& (alignment - 1) ≠ 0 then none
  else (addU64 value (alignment - 1)).map fun expanded => expanded &&& ~~~(alignment - 1)

theorem addU64_eq_add (a b : UInt64) : addU64 a b = add a b := rfl

/-- A word is its two 16-bit limbs. -/
theorem limbs16 (a : UInt32) :
    (a &&& 0xffff).toNat + 65536 * (a >>> 16).toNat = a.toNat ∧
      (a &&& 0xffff).toNat < 65536 ∧ (a >>> 16).toNat < 65536 := by
  have ha := a.toNat_lt
  have hlow : (a &&& 0xffff).toNat = a.toNat % 65536 := by
    rw [UInt32.toNat_and]
    exact Nat.and_two_pow_sub_one_eq_mod a.toNat 16
  have hhigh : (a >>> 16).toNat = a.toNat / 65536 := by
    rw [UInt32.toNat_shiftRight]
    exact Nat.shiftRight_eq_div_pow a.toNat 16
  omega

/-- A product of two 16-bit limbs fits a word. -/
theorem mul_limbs {x y : UInt32} (hx : x.toNat < 65536) (hy : y.toNat < 65536) :
    (x * y).toUInt64.toNat = x.toNat * y.toNat ∧ x.toNat * y.toNat ≤ 65535 * 65535 := by
  have h : x.toNat * y.toNat ≤ 65535 * 65535 := Nat.mul_le_mul (by omega) (by omega)
  refine ⟨?_, h⟩
  rw [UInt32.toNat_toUInt64, UInt32.toNat_mul, Nat.mod_eq_of_lt (by omega)]

/-- A product of 32 bit words fits. -/
theorem mulU32Exact_toNat (a b : UInt32) : (mulU32Exact a b).toNat = a.toNat * b.toNat := by
  obtain ⟨ha, ha0, ha1⟩ := limbs16 a
  obtain ⟨hb, hb0, hb1⟩ := limbs16 b
  unfold mulU32Exact
  set a0 := a &&& 0xffff
  set a1 := a >>> 16
  set b0 := b &&& 0xffff
  set b1 := b >>> 16
  obtain ⟨h0, h0'⟩ := mul_limbs ha0 hb0
  obtain ⟨h1, h1'⟩ := mul_limbs ha0 hb1
  obtain ⟨h2, h2'⟩ := mul_limbs ha1 hb0
  obtain ⟨h3, h3'⟩ := mul_limbs ha1 hb1
  have s16 : (16 : UInt64).toNat % 64 = 16 := by decide
  have s32 : (32 : UInt64).toNat % 64 = 32 := by decide
  simp only [UInt64.toNat_add, UInt64.toNat_shiftLeft, h0, h1, h2, h3, s16, s32,
    Nat.shiftLeft_eq]
  have hprod : a.toNat * b.toNat
      = a0.toNat * b0.toNat + (a0.toNat * b1.toNat + a1.toNat * b0.toNat) * 65536
        + a1.toNat * b1.toNat * 4294967296 := by
    rw [← ha, ← hb]; ring
  rw [hprod]
  omega

/-- The device's product by halves is the product modulo 2^64. -/
theorem mulU64ByU32_toNat (value : UInt64) (factor : UInt32) :
    (mulU64ByU32 value factor).toNat = value.toNat * factor.toNat % 2 ^ 64 := by
  have hv := value.toNat_lt
  have hlow : value.toUInt32.toNat = value.toNat % 4294967296 := UInt64.toNat_toUInt32 value
  have hhigh : (value >>> 32).toUInt32.toNat = value.toNat / 4294967296 := by
    rw [UInt64.toNat_toUInt32, UInt64.toNat_shiftRight]
    have : value.toNat >>> ((32 : UInt64).toNat % 64) = value.toNat / 4294967296 :=
      Nat.shiftRight_eq_div_pow value.toNat 32
    rw [this]
    omega
  have s32 : (32 : UInt64).toNat % 64 = 32 := by decide
  unfold mulU64ByU32
  rw [UInt64.toNat_add, UInt64.toNat_shiftLeft, mulU32Exact_toNat, mulU32Exact_toNat, hlow,
    hhigh, s32, Nat.shiftLeft_eq]
  have hsplit : value.toNat * factor.toNat
      = value.toNat % 4294967296 * factor.toNat
        + value.toNat / 4294967296 * factor.toNat * 2 ^ 32 := by
    have h := Nat.mod_add_div value.toNat 4294967296
    calc value.toNat * factor.toNat
        = (value.toNat % 4294967296 + 4294967296 * (value.toNat / 4294967296)) * factor.toNat := by
          rw [h]
      _ = _ := by ring
  rw [hsplit, Nat.add_mod_mod]

/-- The device multiplies as the host does. -/
theorem checkedMulU64ByU32_eq_mul (value : UInt64) (factor : UInt32) :
    checkedMulU64ByU32 value factor = mul factor.toUInt64 value := by
  have hf : factor ≠ 0 ↔ factor.toUInt64 ≠ 0 := by
    rw [Ne, Ne, ← UInt32.toNat_inj, ← UInt64.toNat_inj, UInt32.toNat_toUInt64]
    rfl
  have hprod : mulU64ByU32 value factor = factor.toUInt64 * value := by
    apply UInt64.toNat_inj.mp
    rw [mulU64ByU32_toNat, UInt64.toNat_mul, UInt32.toNat_toUInt64, Nat.mul_comm]
  unfold checkedMulU64ByU32 mul
  simp only [hprod, hf]
  rfl

theorem checkedMulU64ByU32_eq_some {value c : UInt64} {factor : UInt32} :
    checkedMulU64ByU32 value factor = some c ↔ value.toNat * factor.toNat = c.toNat := by
  rw [checkedMulU64ByU32_eq_mul, mul_eq_some, UInt32.toNat_toUInt64, Nat.mul_comm]

/-- Clearing the low six bits. -/
theorem and_not_63 (e : UInt64) : e &&& ~~~(64 - 1) = e / 64 * 64 := by
  apply UInt64.toBitVec_inj.mp
  apply BitVec.eq_of_getLsbD_eq
  intro i hi
  have h64 : (e / 64 * 64).toBitVec = (e.toBitVec >>> 6) <<< 6 := by
    apply BitVec.eq_of_toNat_eq
    have he := e.toNat_lt
    have h1 : (e / 64 * 64).toNat = e.toNat / 64 * 64 % 2 ^ 64 := by
      rw [UInt64.toNat_mul, UInt64.toNat_div]; rfl
    rw [UInt64.toNat_toBitVec, h1, BitVec.toNat_shiftLeft, BitVec.toNat_ushiftRight,
      Nat.shiftLeft_eq, Nat.shiftRight_eq_div_pow]
    rfl
  rw [h64]
  have hc : (~~~(64 - 1) : UInt64).toBitVec = ~~~ (63#64) := rfl
  have h63 : (63#64).getLsbD i = decide (i < 6) := by
    have : ∀ i < 64, (63#64).getLsbD i = decide (i < 6) := by decide
    exact this i hi
  simp only [UInt64.toBitVec_and, hc, BitVec.getLsbD_and, BitVec.getLsbD_not, h63,
    BitVec.getLsbD_shiftLeft, BitVec.getLsbD_ushiftRight, hi, decide_true, Bool.true_and]
  by_cases h6 : i < 6
  · simp [h6]
  · simp [h6, show 6 + (i - 6) = i by omega]

theorem and_not_63_toNat (e : UInt64) : (e &&& ~~~(64 - 1)).toNat = e.toNat / 64 * 64 := by
  have he := e.toNat_lt
  rw [and_not_63, UInt64.toNat_mul, UInt64.toNat_div]
  show e.toNat / 64 * 64 % 2 ^ 64 = _
  exact Nat.mod_eq_of_lt (by omega)

/-- The device aligns as the host does. -/
theorem alignU64_eq_align (value : UInt64) : alignU64 value 64 = align value 64 := by
  have hn : ¬ ((64 : UInt64) = 0 ∨ (64 : UInt64) &&& (64 - 1) ≠ 0) := by decide
  have hp : (64 : UInt64) ≠ 0 ∧ (64 : UInt64) &&& (64 - 1) = 0 := by decide
  unfold alignU64 align
  rw [if_neg hn, if_pos hp, addU64_eq_add]
  congr 1
  funext e
  exact and_not_63 e

/-! ## Slices of one stride -/

/-- The address of byte `o` behind the base of slice `s`, relative to the first slice. -/
def strideByte (stride : UInt64) (s : UInt32) (o : ℕ) : UInt64 :=
  mulU64ByU32 stride s + UInt64.ofNat o

/-- The slice `[s * stride, (s + 1) * stride)` of the address space. -/
def strideSlice (stride : UInt64) (s : UInt32) : Set UInt64 :=
  strideByte stride s '' Set.Iio stride.toNat

/-- A byte is in a slice exactly if its offset is below the stride. -/
theorem strideByte_mem_slice {stride : UInt64} {s : UInt32} {o : ℕ} (ho : o < 2 ^ 64) :
    strideByte stride s o ∈ strideSlice stride s ↔ o < stride.toNat := by
  constructor
  · intro h
    obtain ⟨p, hp, heq⟩ := h
    have hp : p < stride.toNat := hp
    have hstride := stride.toNat_lt
    -- the base cancels, and both offsets are words
    have hword : UInt64.ofNat p = UInt64.ofNat o := by
      apply UInt64.toBitVec_inj.mp
      have h := congrArg UInt64.toBitVec heq
      unfold strideByte at h
      rw [UInt64.toBitVec_add, UInt64.toBitVec_add] at h
      exact (BitVec.add_right_inj _).mp h
    have hnat := congrArg UInt64.toNat hword
    rw [UInt64.toNat_ofNat', UInt64.toNat_ofNat', Nat.mod_eq_of_lt (by omega),
      Nat.mod_eq_of_lt ho] at hnat
    omega
  · intro h
    exact Set.mem_image_of_mem _ h

/-! ## FNV-1a -/

/-- The offset basis of FNV-1a. -/
def kHashOffset : UInt64 := 1469598103934665603
/-- The prime of FNV-1a. -/
def kHashPrime : UInt64 := 1099511628211

/-- `HashBytes`. -/
def hashBytes (hash : UInt64) (data : List UInt8) : UInt64 :=
  data.foldl (fun hash p => (hash ^^^ p.toUInt64) * kHashPrime) hash

/-- `HashByte` of the device: the prime is `2^40 + 0x1b3`, spelled as shifts. -/
def hashByte (hash : UInt64) (value : UInt8) : UInt64 :=
  let x := hash ^^^ value.toUInt64
  (x <<< 40) + (x <<< 8) + (x <<< 7) + (x <<< 5) + (x <<< 4) + (x <<< 1) + x

theorem hashBytes_append (hash : UInt64) (xs ys : List UInt8) :
    hashBytes hash (xs ++ ys) = hashBytes (hashBytes hash xs) ys := List.foldl_append

/-- The device's hash step is the host's. -/
theorem hashByte_eq (hash : UInt64) (value : UInt8) :
    hashByte hash value = (hash ^^^ value.toUInt64) * kHashPrime := by
  unfold hashByte
  set x := hash ^^^ value.toUInt64
  apply UInt64.toNat_inj.mp
  have hx := x.toNat_lt
  have hp : kHashPrime.toNat = 1099511628211 := by decide
  have hs : ∀ k : UInt64, k.toNat < 64 → (x <<< k).toNat = x.toNat * 2 ^ k.toNat % 2 ^ 64 :=
    fun k hk => by
      rw [UInt64.toNat_shiftLeft, Nat.mod_eq_of_lt hk, Nat.shiftLeft_eq]
  have h40 := hs 40 (by decide)
  have h8 := hs 8 (by decide)
  have h7 := hs 7 (by decide)
  have h5 := hs 5 (by decide)
  have h4 := hs 4 (by decide)
  have h1 := hs 1 (by decide)
  simp only [UInt64.reduceToNat] at h40 h8 h7 h5 h4 h1
  simp only [UInt64.toNat_add, UInt64.toNat_mul, h40, h8, h7, h5, h4, h1, hp]
  omega

/-- Hashing byte by byte is hashing the bytes. -/
theorem foldl_hashByte (hash : UInt64) (data : List UInt8) :
    data.foldl hashByte hash = hashBytes hash data := by
  unfold hashBytes
  congr 1
  funext h b
  exact hashByte_eq h b

end AscendShmem.PullV2
