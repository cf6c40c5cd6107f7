import Mathlib

/-!
# Numbers as text

`std::to_string` and `StrToLong` (`store_net_common.h`) on byte strings. `StrToLong` hands the text
to `strtol` as a C string: it stops at a zero byte, skips white space and takes a sign. What
`to_string` writes is read back.
-/

namespace AscendShmem.ConfigStore

/-- The characters of a key or a value. -/
abbrev Bytes := List UInt8

/-- The decimal digits of `n`, at most `fuel` of them. -/
def decimalDigits : ℕ → ℕ → Bytes
  | 0, _ => []
  | fuel + 1, n =>
    (if n < 10 then [] else decimalDigits fuel (n / 10)) ++ [UInt8.ofNat (48 + n % 10)]

/-- `std::to_string`: 20 digits are enough for 64 bits. -/
def toDecimal (n : ℤ) : Bytes :=
  if n < 0 then 45 :: decimalDigits 20 n.natAbs else decimalDigits 20 n.natAbs

/-- `isspace` in the C locale. -/
def isSpace (c : UInt8) : Bool := c = 32 ∨ (9 ≤ c ∧ c ≤ 13)

/-- `isdigit` -/
def isDigit (c : UInt8) : Bool := 48 ≤ c ∧ c ≤ 57

/-- The number that decimal digits spell. -/
def digitsValue (digits : Bytes) : ℕ := digits.foldl (fun n c => n * 10 + (c.toNat - 48)) 0

/-- Whether a number starts with a minus sign, and the text behind its sign. -/
def takeSign : Bytes → Bool × Bytes
  | [] => (false, [])
  | c :: s => if c = 45 then (true, s) else if c = 43 then (false, s) else (false, c :: s)

/-- `strtol(src, &remain, 10)` and whether it sets `errno` to `ERANGE`. -/
def strtol (src : Bytes) : ℤ × Bytes × Bool :=
  let (negative, s) := takeSign (src.dropWhile isSpace)
  let digits := s.takeWhile isDigit
  if digits = [] then (0, src, false)
  else
    let n : ℤ := digitsValue digits
    let value := if negative then -n else n
    let remain := s.dropWhile isDigit
    if value < -2 ^ 63 then (-2 ^ 63, remain, true)
    else if 2 ^ 63 ≤ value then (2 ^ 63 - 1, remain, true)
    else (value, remain, false)

/-- `CharToLong` on the C string of `src`. -/
def strToLong (src : Bytes) : Option ℤ :=
  let chars := src.takeWhile (· ≠ 0)
  let (value, remain, erange) := strtol chars
  if (value = 0 ∧ chars ≠ [48]) ∨ remain ≠ [] ∨ erange then none else some value

/-! ## Reading back -/

/-- A digit of `decimalDigits`. -/
theorem digit_toNat (n : ℕ) : (UInt8.ofNat (48 + n % 10)).toNat = 48 + n % 10 := by
  rw [UInt8.toNat_ofNat']
  omega

theorem isDigit_iff {c : UInt8} : isDigit c = true ↔ 48 ≤ c.toNat ∧ c.toNat ≤ 57 := by
  unfold isDigit
  rw [decide_eq_true_iff, UInt8.le_iff_toNat_le, UInt8.le_iff_toNat_le]
  exact Iff.rfl

/-- Decimal digits are digits. -/
theorem mem_decimalDigits {fuel n : ℕ} {c : UInt8} (h : c ∈ decimalDigits fuel n) :
    48 ≤ c.toNat ∧ c.toNat ≤ 57 := by
  induction fuel generalizing n with
  | zero => cases h
  | succ fuel ih =>
    rw [decimalDigits, List.mem_append, List.mem_singleton] at h
    rcases h with h | h
    · split at h
      · cases h
      · exact ih h
    · rw [h, digit_toNat]
      omega

/-- The digits of a number spell it. -/
theorem digitsValue_decimalDigits {fuel n : ℕ} (h : n < 10 ^ fuel) :
    digitsValue (decimalDigits fuel n) = n := by
  induction fuel generalizing n with
  | zero =>
    have hzero : n = 0 := by simpa using h
    rw [hzero]
    rfl
  | succ fuel ih =>
    rw [decimalDigits, digitsValue, List.foldl_append]
    simp only [List.foldl_cons, List.foldl_nil, digit_toNat]
    split
    · simp only [List.foldl_nil]
      omega
    · have hdiv : n / 10 < 10 ^ fuel := by
        rw [Nat.div_lt_iff_lt_mul (by norm_num), ← pow_succ]
        exact h
      have hread := ih hdiv
      unfold digitsValue at hread
      rw [hread]
      omega

theorem decimalDigits_ne_nil (fuel n : ℕ) : decimalDigits (fuel + 1) n ≠ [] := by
  rw [decimalDigits]
  exact List.append_ne_nil_of_right_ne_nil _ (List.cons_ne_nil _ _)

theorem takeWhile_digits {l : Bytes} (h : ∀ c ∈ l, 48 ≤ c.toNat ∧ c.toNat ≤ 57) :
    l.takeWhile isDigit = l ∧ l.dropWhile isDigit = [] :=
  ⟨List.takeWhile_eq_self_iff.mpr fun c hc => isDigit_iff.mpr (h c hc),
    List.dropWhile_eq_nil_iff.mpr fun c hc => isDigit_iff.mpr (h c hc)⟩

/-- What `strtol` reads from digits behind an optional minus sign. -/
theorem strtol_toDecimal {n : ℤ} (hlo : -2 ^ 63 ≤ n) (hhi : n < 2 ^ 63) :
    strtol (toDecimal n) = (n, [], false) := by
  have hfits : n.natAbs < 10 ^ 20 := by omega
  have hread := digitsValue_decimalDigits hfits
  have hdigits : ∀ c ∈ decimalDigits 20 n.natAbs, 48 ≤ c.toNat ∧ c.toNat ≤ 57 :=
    fun c hc => mem_decimalDigits hc
  have hne : decimalDigits 20 n.natAbs ≠ [] := decimalDigits_ne_nil 19 _
  have htake := takeWhile_digits hdigits
  unfold toDecimal
  by_cases hneg : n < 0
  · rw [if_pos hneg]
    unfold strtol
    -- a number without blanks in front, whose sign is taken off
    have hskip : (45 :: decimalDigits 20 n.natAbs).dropWhile isSpace =
        45 :: decimalDigits 20 n.natAbs := List.dropWhile_cons_of_neg (by decide)
    have hsign : takeSign (45 :: decimalDigits 20 n.natAbs) = (true, decimalDigits 20 n.natAbs) := by
      rw [takeSign, if_pos rfl]
    simp only [hskip, hsign, htake.1, htake.2, if_neg hne, hread, if_true]
    have hvalue : -((n.natAbs : ℕ) : ℤ) = n := by omega
    rw [hvalue, if_neg (not_lt.mpr hlo), if_neg (not_le.mpr hhi)]
  · rw [if_neg hneg]
    rcases List.exists_cons_of_ne_nil hne with ⟨c, l, hcl⟩
    have hc := hdigits c (by rw [hcl]; exact List.mem_cons_self)
    -- the first byte is a digit, hence no blank and no sign
    have hspace : isSpace c = false := by
      unfold isSpace
      rw [decide_eq_false_iff_not, UInt8.le_iff_toNat_le, UInt8.le_iff_toNat_le,
        ← UInt8.toNat_inj]
      show ¬ (c.toNat = 32 ∨ 9 ≤ c.toNat ∧ c.toNat ≤ 13)
      omega
    have hskip : (decimalDigits 20 n.natAbs).dropWhile isSpace = decimalDigits 20 n.natAbs := by
      rw [hcl]
      exact List.dropWhile_cons_of_neg (by rw [hspace]; exact Bool.false_ne_true)
    have hminus : c ≠ 45 := by
      intro heq
      rw [heq] at hc
      exact absurd hc.1 (by decide)
    have hplus : c ≠ 43 := by
      intro heq
      rw [heq] at hc
      exact absurd hc.1 (by decide)
    unfold strtol
    have hsign : takeSign (decimalDigits 20 n.natAbs) = (false, decimalDigits 20 n.natAbs) := by
      rw [hcl]
      rw [takeSign, if_neg hminus, if_neg hplus]
    simp only [hskip, hsign, htake.1, htake.2, if_neg hne, hread, Bool.false_eq_true, if_false]
    have hvalue : ((n.natAbs : ℕ) : ℤ) = n := by omega
    rw [hvalue, if_neg (not_lt.mpr hlo), if_neg (not_le.mpr hhi)]

/-- Every `long` that was written is read back. -/
theorem strToLong_toDecimal {n : ℤ} (hlo : -2 ^ 63 ≤ n) (hhi : n < 2 ^ 63) :
    strToLong (toDecimal n) = some n := by
  have hfits : n.natAbs < 10 ^ 20 := by omega
  have hnonzero : ∀ c ∈ toDecimal n, decide (c ≠ 0) = true := by
    intro c hc
    rw [decide_eq_true_iff]
    have hbyte : c = 45 ∨ c ∈ decimalDigits 20 n.natAbs := by
      unfold toDecimal at hc
      split at hc
      · exact List.mem_cons.mp hc
      · exact Or.inr hc
    intro hzero
    rcases hbyte with hminus | hdigit
    · rw [hminus] at hzero
      exact absurd hzero (by decide)
    · have hrange := (mem_decimalDigits hdigit).1
      rw [hzero] at hrange
      exact absurd hrange (by decide)
  have hchars : (toDecimal n).takeWhile (· ≠ 0) = toDecimal n := List.takeWhile_eq_self_iff.mpr hnonzero
  unfold strToLong
  simp only [hchars, strtol_toDecimal hlo hhi]
  have hzero : ¬ (n = 0 ∧ toDecimal n ≠ [48]) := by
    intro h
    rw [h.1] at h
    exact h.2 (by decide)
  simp [hzero]

/-- What is read is a `long`. -/
theorem strToLong_range {src : Bytes} {n : ℤ} (h : strToLong src = some n) :
    -2 ^ 63 ≤ n ∧ n < 2 ^ 63 := by
  have hrange : ∀ s, -2 ^ 63 ≤ (strtol s).1 ∧ (strtol s).1 < 2 ^ 63 := by
    intro s
    unfold strtol
    dsimp only
    split_ifs <;> dsimp only <;> omega
  unfold strToLong at h
  dsimp only at h
  split at h
  · cases h
  · rw [← Option.some.inj h]
    exact hrange _

end AscendShmem.ConfigStore
