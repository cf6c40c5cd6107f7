import Mathlib

/-!
# Regions of rows

Regions of one buffer, laid out one behind the other, each of them a number of rows of one stride.
A region, a row of it and a column name a cell. Where every stride is a whole number of lines, two
cells of one line stand in one row: between two rows there is always the first cell of a line.
-/

namespace Lib

variable {rows stride : ℕ → ℕ} {line : ℕ}

/-- Where region `n` starts. -/
def regionStart (rows stride : ℕ → ℕ) : ℕ → ℕ
  | 0 => 0
  | n + 1 => regionStart rows stride n + rows n * stride n

/-- The cell in column `k` of row `i` of region `n`. -/
def rowCell (rows stride : ℕ → ℕ) (n i k : ℕ) : ℕ := regionStart rows stride n + i * stride n + k

theorem regionStart_succ (rows stride : ℕ → ℕ) (n : ℕ) :
    regionStart rows stride (n + 1) = regionStart rows stride n + rows n * stride n := rfl

theorem regionStart_mono : Monotone (regionStart rows stride) :=
  monotone_nat_of_le_succ fun n => by
    rw [regionStart_succ]
    exact Nat.le_add_right _ _

theorem dvd_regionStart (hstride : ∀ n, line ∣ stride n) (n : ℕ) :
    line ∣ regionStart rows stride n := by
  induction n with
  | zero => exact dvd_zero line
  | succ n ih => exact dvd_add ih (Dvd.dvd.mul_left (hstride n) _)

/-- A row ends where the next one starts. -/
theorem rowCell_lt_next (rows : ℕ → ℕ) {n k : ℕ} (i : ℕ) (hk : k < stride n) :
    rowCell rows stride n i k < regionStart rows stride n + (i + 1) * stride n := by
  unfold rowCell
  rw [Nat.succ_mul]
  omega

/-- A cell of a region is before the next region. -/
theorem rowCell_lt_regionStart {n i k : ℕ} (hi : i < rows n) (hk : k < stride n) :
    rowCell rows stride n i k < regionStart rows stride (n + 1) := by
  have hnext := rowCell_lt_next rows i hk
  have hrows : (i + 1) * stride n ≤ rows n * stride n := Nat.mul_le_mul_right _ hi
  rw [regionStart_succ]
  omega

/-- The first cell of a line between two cells separates their lines. -/
theorem div_lt_of_dvd_between {a b m : ℕ} (hm : line ∣ m) (ha : a < m) (hb : m ≤ b) :
    a / line < b / line := by
  obtain ⟨q, rfl⟩ := hm
  have hline : 0 < line := Nat.pos_of_mul_pos_right (Nat.lt_of_le_of_lt (Nat.zero_le a) ha)
  have hlow : a / line < q := (Nat.div_lt_iff_lt_mul hline).mpr (by rwa [Nat.mul_comm])
  have hhigh : q ≤ b / line := (Nat.le_div_iff_mul_le hline).mpr (by rwa [Nat.mul_comm])
  omega

/-- Regions, and rows of one region, are apart in lines. -/
theorem rowCell_div_lt (hstride : ∀ n, line ∣ stride n) {n i k m j l : ℕ} (hi : i < rows n)
    (hk : k < stride n) (hlt : n < m ∨ n = m ∧ i < j) :
    rowCell rows stride n i k / line < rowCell rows stride m j l / line := by
  rcases hlt with hnm | ⟨rfl, hij⟩
  · have hend := rowCell_lt_regionStart hi hk
    have hstart : regionStart rows stride (n + 1) ≤ regionStart rows stride m :=
      regionStart_mono hnm
    refine div_lt_of_dvd_between (dvd_regionStart hstride m) (Nat.lt_of_lt_of_le hend hstart) ?_
    unfold rowCell
    omega
  · have hend := rowCell_lt_next rows i hk
    have hrow : (i + 1) * stride n ≤ j * stride n := Nat.mul_le_mul_right _ hij
    refine div_lt_of_dvd_between
      (dvd_add (dvd_regionStart hstride n) (Dvd.dvd.mul_left (hstride n) j))
      (Nat.lt_of_lt_of_le hend (Nat.add_le_add_left hrow _)) ?_
    unfold rowCell
    omega

/-- Cells of one line belong to one row of one region. -/
theorem rowCell_line_inj (hstride : ∀ n, line ∣ stride n) {n i k m j l : ℕ} (hi : i < rows n)
    (hk : k < stride n) (hj : j < rows m) (hl : l < stride m)
    (h : rowCell rows stride n i k / line = rowCell rows stride m j l / line) :
    n = m ∧ i = j := by
  rcases Nat.lt_trichotomy n m with hnm | hnm | hnm
  · have := rowCell_div_lt (l := l) (j := j) hstride hi hk (Or.inl hnm)
    omega
  · rcases Nat.lt_trichotomy i j with hij | hij | hij
    · have := rowCell_div_lt (l := l) hstride hi hk (Or.inr ⟨hnm, hij⟩)
      omega
    · exact ⟨hnm, hij⟩
    · have := rowCell_div_lt (l := k) hstride hj hl (Or.inr ⟨hnm.symm, hij⟩)
      omega
  · have := rowCell_div_lt (l := k) (j := i) hstride hj hl (Or.inl hnm)
    omega

end Lib
