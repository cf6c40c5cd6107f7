import Mathlib
import AscendShmem.Lib.Rows
import AscendShmem.PullV2.DispatchKernel

/-!
# The parser scratch

`BuildParserScratchLayout` of `inc_dc_pull_dispatch_v2_device_kernel.cpp` cuts the caller's scratch
into nine regions, and the kernel indexes each with a formula of its own. The AIVs that write the
cells do not share a cache, so two of them may not write to one line.

Eight regions are rows of whole lines. The ninth, the assignment prefix, is `workers + 1` words and
the cursor is aligned behind it: one row of a whole number of lines that is not used to its end. So
the layout is a `regionStart`, and `rowCell_line_inj` keeps its rows apart.
-/

namespace AscendShmem.PullV2

open Lib

/-! ## Layout -/

/-- Words from the start of the scratch. -/
structure ParserScratchLayout where
  sourceState : UInt64
  sourceError : UInt64
  sourceAssignmentPrefix : UInt64
  blockStatus : UInt64
  blockContributors : UInt64
  blockRows : UInt64
  blockAssignments : UInt64
  blockExperts : UInt64
  metadataTails : UInt64
  sourceStride : UInt64
  blockStride : UInt64
  rowStride : UInt64
  expertStride : UInt64
  entries : UInt64
deriving DecidableEq, Repr

/-- `BuildParserScratchLayout`; `cursor` is what the source keeps in its variable of that name. -/
def buildParserScratchLayout (activeBlocks workers experts : UInt32) (capacity : UInt64) :
    Option ParserScratchLayout := do
  guard (activeBlocks ≠ 0 ∧ workers ≠ 0 ∧ experts ≠ 0)
  let expertValues ← checkedMulU64ByU32 workers.toUInt64 experts
  let rowStride ← alignU64 workers.toUInt64 16
  let expertStride ← alignU64 expertValues 16
  let sourceStride : UInt64 := 16
  let blockStride : UInt64 := 16
  let sourceState : UInt64 := 0
  let extent ← checkedMulU64ByU32 sourceStride workers
  let sourceError ← addU64 sourceState extent
  let sourceAssignmentPrefix ← addU64 sourceError extent
  let cursor ← addU64 sourceAssignmentPrefix (workers.toUInt64 + 1)
  let blockStatus ← alignU64 cursor 16
  let extent ← checkedMulU64ByU32 blockStride activeBlocks
  let blockContributors ← addU64 blockStatus extent
  let blockRows ← addU64 blockContributors extent
  let extent ← checkedMulU64ByU32 rowStride activeBlocks
  let blockAssignments ← addU64 blockRows extent
  let blockExperts ← addU64 blockAssignments extent
  let extent ← checkedMulU64ByU32 expertStride activeBlocks
  let metadataTails ← addU64 blockExperts extent
  let extent ← checkedMulU64ByU32 16 workers
  let entries ← addU64 metadataTails extent
  guard (entries ≤ capacity)
  some { sourceState, sourceError, sourceAssignmentPrefix, blockStatus, blockContributors,
         blockRows, blockAssignments, blockExperts, metadataTails, sourceStride, blockStride,
         rowStride, expertStride, entries }

/-- The nine regions in the order of the scratch. -/
inductive ParserRegion where
  | sourceState
  | sourceError
  | sourceAssignmentPrefix
  | blockStatus
  | blockContributors
  | blockRows
  | blockAssignments
  | blockExperts
  | metadataTails
deriving DecidableEq, Repr

namespace ParserScratchLayout

variable (layout : ParserScratchLayout)

/-- Where a region starts in the layout. -/
def start : ParserRegion → UInt64
  | .sourceState => layout.sourceState
  | .sourceError => layout.sourceError
  | .sourceAssignmentPrefix => layout.sourceAssignmentPrefix
  | .blockStatus => layout.blockStatus
  | .blockContributors => layout.blockContributors
  | .blockRows => layout.blockRows
  | .blockAssignments => layout.blockAssignments
  | .blockExperts => layout.blockExperts
  | .metadataTails => layout.metadataTails

/-- The factor of the row index in the kernel's formulas; the prefix has no rows. -/
def stride : ParserRegion → UInt64
  | .sourceState => layout.sourceStride
  | .sourceError => layout.sourceStride
  | .sourceAssignmentPrefix => 0
  | .blockStatus => layout.blockStride
  | .blockContributors => layout.blockStride
  | .blockRows => layout.rowStride
  | .blockAssignments => layout.rowStride
  | .blockExperts => layout.expertStride
  | .metadataTails => 16

end ParserScratchLayout

/-! ## Cells -/

/-- One word of the scratch, as the kernel names it. -/
structure ParserCell where
  region : ParserRegion
  row : UInt32
  column : UInt64
deriving DecidableEq, Repr

namespace ParserCell

/-- `region[row * stride + column]` -/
def word (layout : ParserScratchLayout) (cell : ParserCell) : UInt64 :=
  layout.start cell.region + (cell.row.toUInt64 * layout.stride cell.region + cell.column)

/-- The address of the word: the region's pointer first, then the subscript. -/
def address (scratch : UInt64) (layout : ParserScratchLayout) (cell : ParserCell) : UInt64 :=
  scratch + layout.start cell.region * 4
    + (cell.row.toUInt64 * layout.stride cell.region + cell.column) * 4

/-- The cells the kernel reads or writes. A 64-bit time stamp takes the words 2 and 3 of a block's
status, the words 2 and 3 or 4 and 5 of a source's state. -/
inductive Used (activeBlocks workers experts : UInt32) : ParserCell → Prop where
  | state {source : UInt32} {word : UInt64} (hsource : source < workers) (hword : word ≤ 6) :
      Used activeBlocks workers experts ⟨.sourceState, source, word⟩
  | error {source : UInt32} (hsource : source < workers) :
      Used activeBlocks workers experts ⟨.sourceError, source, 0⟩
  | assignmentPrefix {source : UInt32} (hsource : source ≤ workers) :
      Used activeBlocks workers experts ⟨.sourceAssignmentPrefix, 0, source.toUInt64⟩
  | status {block : UInt32} {word : UInt64} (hblock : block < activeBlocks) (hword : word ≤ 3) :
      Used activeBlocks workers experts ⟨.blockStatus, block, word⟩
  | contributors {block : UInt32} (hblock : block < activeBlocks) :
      Used activeBlocks workers experts ⟨.blockContributors, block, 0⟩
  | rows {block destination : UInt32} (hblock : block < activeBlocks)
      (hdestination : destination < workers) :
      Used activeBlocks workers experts ⟨.blockRows, block, destination.toUInt64⟩
  | assignments {block destination : UInt32} (hblock : block < activeBlocks)
      (hdestination : destination < workers) :
      Used activeBlocks workers experts ⟨.blockAssignments, block, destination.toUInt64⟩
  | experts {block destination expert : UInt32} (hblock : block < activeBlocks)
      (hdestination : destination < workers) (hexpert : expert < experts) :
      Used activeBlocks workers experts
        ⟨.blockExperts, block, destination.toUInt64 * experts.toUInt64 + expert.toUInt64⟩
  | tail {destination : UInt32} {word : UInt64} (hdestination : destination < workers)
      (hword : word < 16) :
      Used activeBlocks workers experts ⟨.metadataTails, destination, word⟩

end ParserCell

/-- `metadata_tails + destination * kPullDispatchAlignment`, a byte pointer. -/
def tailAddress (scratch : UInt64) (layout : ParserScratchLayout) (destination : UInt32) : UInt64 :=
  scratch + layout.metadataTails * 4 + destination.toUInt64 * kPullDispatchAlignment.toUInt64

/-! ## Rows -/

/-- The numbers `BuildParserScratchLayout` is called with. -/
structure ScratchShape where
  activeBlocks : ℕ
  workers : ℕ
  experts : ℕ

/-- Rounding up to a line of 16 words. -/
def alignWords (n : ℕ) : ℕ := (n + 15) / 16 * 16

theorem le_alignWords (n : ℕ) : n ≤ alignWords n := by unfold alignWords; omega

theorem dvd_alignWords (n : ℕ) : 16 ∣ alignWords n := Nat.dvd_mul_left 16 _

namespace ParserRegion

variable (shape : ScratchShape)

/-- The place in the order. -/
def place : ParserRegion → ℕ
  | .sourceState => 0
  | .sourceError => 1
  | .sourceAssignmentPrefix => 2
  | .blockStatus => 3
  | .blockContributors => 4
  | .blockRows => 5
  | .blockAssignments => 6
  | .blockExperts => 7
  | .metadataTails => 8

theorem place_inj {r s : ParserRegion} (h : r.place = s.place) : r = s := by
  cases r <;> cases s <;> first | rfl | exact absurd h (by decide)

/-- The number of rows. -/
def rows : ParserRegion → ℕ
  | .sourceState => shape.workers
  | .sourceError => shape.workers
  | .sourceAssignmentPrefix => 1
  | .blockStatus => shape.activeBlocks
  | .blockContributors => shape.activeBlocks
  | .blockRows => shape.activeBlocks
  | .blockAssignments => shape.activeBlocks
  | .blockExperts => shape.activeBlocks
  | .metadataTails => shape.workers

/-- The words of a row. -/
def width : ParserRegion → ℕ
  | .sourceState => 16
  | .sourceError => 16
  | .sourceAssignmentPrefix => shape.workers + 1
  | .blockStatus => 16
  | .blockContributors => 16
  | .blockRows => alignWords shape.workers
  | .blockAssignments => alignWords shape.workers
  | .blockExperts => alignWords (shape.workers * shape.experts)
  | .metadataTails => 16

end ParserRegion

/-! ## What a built layout is -/

/-- Every sum and product of `BuildParserScratchLayout` in `ℕ`, and the test at its end. -/
structure LayoutExact (shape : ScratchShape) (capacity : UInt64) (layout : ParserScratchLayout) :
    Prop where
  sourceStride : layout.sourceStride.toNat = 16
  blockStride : layout.blockStride.toNat = 16
  rowStride : layout.rowStride.toNat = alignWords shape.workers
  expertStride : layout.expertStride.toNat = alignWords (shape.workers * shape.experts)
  sourceState : layout.sourceState.toNat = 0
  sourceError : layout.sourceError.toNat = layout.sourceState.toNat + 16 * shape.workers
  sourceAssignmentPrefix :
    layout.sourceAssignmentPrefix.toNat = layout.sourceError.toNat + 16 * shape.workers
  blockStatus : layout.blockStatus.toNat
    = alignWords (layout.sourceAssignmentPrefix.toNat + (shape.workers + 1))
  blockContributors :
    layout.blockContributors.toNat = layout.blockStatus.toNat + 16 * shape.activeBlocks
  blockRows : layout.blockRows.toNat = layout.blockContributors.toNat + 16 * shape.activeBlocks
  blockAssignments : layout.blockAssignments.toNat
    = layout.blockRows.toNat + alignWords shape.workers * shape.activeBlocks
  blockExperts : layout.blockExperts.toNat
    = layout.blockAssignments.toNat + alignWords shape.workers * shape.activeBlocks
  metadataTails : layout.metadataTails.toNat
    = layout.blockExperts.toNat + alignWords (shape.workers * shape.experts) * shape.activeBlocks
  entries : layout.entries.toNat = layout.metadataTails.toNat + 16 * shape.workers
  fits : layout.entries.toNat ≤ capacity.toNat

/-- Clearing the low four bits. -/
theorem and_not_15_toNat (e : UInt64) : (e &&& ~~~(16 - 1)).toNat = e.toNat / 16 * 16 := by
  have he := e.toNat_lt
  have hmask : (e &&& ~~~(16 - 1)).toBitVec = (e.toBitVec >>> 4) <<< 4 := by
    have hc : (~~~(16 - 1) : UInt64).toBitVec = ~~~ (15#64) := rfl
    have h15 : ∀ i < 64, (15#64).getLsbD i = decide (i < 4) := by decide
    ext i hi
    rw [← BitVec.getLsbD_eq_getElem, ← BitVec.getLsbD_eq_getElem]
    simp only [UInt64.toBitVec_and, hc, BitVec.getLsbD_and, BitVec.getLsbD_not, h15 i hi,
      BitVec.getLsbD_shiftLeft, BitVec.getLsbD_ushiftRight, hi, decide_true, Bool.true_and]
    by_cases h4 : i < 4
    · simp [h4]
    · simp [h4, show 4 + (i - 4) = i by omega]
  rw [← UInt64.toNat_toBitVec, hmask, BitVec.toNat_shiftLeft, BitVec.toNat_ushiftRight,
    Nat.shiftLeft_eq, Nat.shiftRight_eq_div_pow, UInt64.toNat_toBitVec]
  omega

/-- The checked alignment is that of the count. -/
theorem alignU64_words {value c : UInt64} :
    alignU64 value 16 = some c → alignWords value.toNat = c.toNat := by
  have hvalid : ¬ ((16 : UInt64) = 0 ∨ (16 : UInt64) &&& (16 - 1) ≠ 0) := by decide
  intro h
  unfold alignU64 at h
  rw [if_neg hvalid, Option.map_eq_some_iff] at h
  obtain ⟨expanded, hexpanded, rfl⟩ := h
  rw [addU64_eq_add, add_eq_some] at hexpanded
  rw [and_not_15_toNat, ← hexpanded]
  rfl

variable {activeBlocks workers experts : UInt32} {capacity : UInt64}
  {layout : ParserScratchLayout}

/-- The shape of a call. -/
def scratchShape (activeBlocks workers experts : UInt32) : ScratchShape :=
  ⟨activeBlocks.toNat, workers.toNat, experts.toNat⟩

/-- A layout that is built has its regions one after the other. -/
theorem buildParserScratchLayout_exact
    (h : buildParserScratchLayout activeBlocks workers experts capacity = some layout) :
    LayoutExact (scratchShape activeBlocks workers experts) capacity layout := by
  unfold buildParserScratchLayout at h
  obtain ⟨_, hnonzero, h⟩ := Option.bind_eq_some_iff.mp h
  obtain ⟨values, hvalues, h⟩ := Option.bind_eq_some_iff.mp h
  obtain ⟨rowStride, hrow, h⟩ := Option.bind_eq_some_iff.mp h
  obtain ⟨expertStride, hexpert, h⟩ := Option.bind_eq_some_iff.mp h
  obtain ⟨sources, hsources, h⟩ := Option.bind_eq_some_iff.mp h
  obtain ⟨sourceError, herror, h⟩ := Option.bind_eq_some_iff.mp h
  obtain ⟨sourcePrefix, hprefix, h⟩ := Option.bind_eq_some_iff.mp h
  obtain ⟨cursor, hcursor, h⟩ := Option.bind_eq_some_iff.mp h
  obtain ⟨blockStatus, hstatus, h⟩ := Option.bind_eq_some_iff.mp h
  obtain ⟨blocks, hblocks, h⟩ := Option.bind_eq_some_iff.mp h
  obtain ⟨blockContributors, hcontributors, h⟩ := Option.bind_eq_some_iff.mp h
  obtain ⟨blockRows, hrows, h⟩ := Option.bind_eq_some_iff.mp h
  obtain ⟨rowWords, hrowWords, h⟩ := Option.bind_eq_some_iff.mp h
  obtain ⟨blockAssignments, hassignments, h⟩ := Option.bind_eq_some_iff.mp h
  obtain ⟨blockExperts, hexperts, h⟩ := Option.bind_eq_some_iff.mp h
  obtain ⟨expertWords, hexpertWords, h⟩ := Option.bind_eq_some_iff.mp h
  obtain ⟨metadataTails, htails, h⟩ := Option.bind_eq_some_iff.mp h
  obtain ⟨tails, htailWords, h⟩ := Option.bind_eq_some_iff.mp h
  obtain ⟨entries, hentries, h⟩ := Option.bind_eq_some_iff.mp h
  obtain ⟨_, hfits, h⟩ := Option.bind_eq_some_iff.mp h
  cases h
  -- every checked operation succeeded, so its word is the exact value
  rw [addU64_eq_add, add_eq_some] at herror hprefix hcursor hcontributors hrows
  rw [addU64_eq_add, add_eq_some] at hassignments hexperts htails hentries
  rw [checkedMulU64ByU32_eq_some] at hvalues hsources hblocks hrowWords hexpertWords htailWords
  have hrow := alignU64_words hrow
  have hexpert := alignU64_words hexpert
  have hstatus := alignU64_words hstatus
  -- the worker count plus one does not wrap in 64 bits
  have hone : (workers.toUInt64 + 1).toNat = workers.toNat + 1 := by
    have hworkers := workers.toNat_lt
    have hword : (1 : UInt64).toNat = 1 := rfl
    rw [UInt64.toNat_add, UInt32.toNat_toUInt64, hword, Nat.mod_eq_of_lt (by omega)]
  have h16 : (16 : UInt64).toNat = 16 := rfl
  rw [hone] at hcursor
  rw [h16] at hsources hblocks htailWords
  rw [UInt32.toNat_toUInt64] at hvalues hrow
  rw [← hvalues] at hexpert
  rw [← hcursor] at hstatus
  rw [← hrow] at hrowWords
  rw [← hexpert] at hexpertWords
  have hfits := UInt64.le_iff_toNat_le.mp ((Option.guard_eq_some' _).mp hfits)
  exact
    { sourceStride := rfl
      blockStride := rfl
      rowStride := hrow.symm
      expertStride := hexpert.symm
      sourceState := rfl
      sourceError := by rw [← herror, ← hsources]; rfl
      sourceAssignmentPrefix := by rw [← hprefix, ← hsources]; rfl
      blockStatus := hstatus.symm
      blockContributors := by rw [← hcontributors, ← hblocks]; rfl
      blockRows := by rw [← hrows, ← hblocks]; rfl
      blockAssignments := by rw [← hassignments, ← hrowWords]; rfl
      blockExperts := by rw [← hexperts, ← hrowWords]; rfl
      metadataTails := by rw [← htails, ← hexpertWords]; rfl
      entries := by rw [← hentries, ← htailWords]; rfl
      fits := hfits }

/-! ## Regions of rows -/

namespace ScratchShape

variable (shape : ScratchShape)

/-- The region at a place; behind the last one the answer does not matter. -/
def regionAt : ℕ → ParserRegion
  | 0 => .sourceState
  | 1 => .sourceError
  | 2 => .sourceAssignmentPrefix
  | 3 => .blockStatus
  | 4 => .blockContributors
  | 5 => .blockRows
  | 6 => .blockAssignments
  | 7 => .blockExperts
  | _ => .metadataTails

@[simp] theorem regionAt_place (r : ParserRegion) : regionAt r.place = r := by cases r <;> rfl

/-- The rows of the region at a place. -/
def rowsAt (n : ℕ) : ℕ := (regionAt n).rows shape

/-- The words kept for a row: its width in whole lines. -/
def strideAt (n : ℕ) : ℕ := alignWords ((regionAt n).width shape)

/-- Where the rows of a region start. -/
def start (r : ParserRegion) : ℕ := regionStart shape.rowsAt shape.strideAt r.place

/-- The words of a region. -/
def range (r : ParserRegion) : Set ℕ :=
  Set.Ico (shape.start r) (shape.start r + r.rows shape * r.width shape)

/-- A cell in a row of its region. -/
def InRow (cell : ParserCell) : Prop :=
  cell.row.toNat < cell.region.rows shape ∧ cell.column.toNat < cell.region.width shape

theorem dvd_strideAt (n : ℕ) : 16 ∣ shape.strideAt n := dvd_alignWords _

theorem width_le_strideAt (r : ParserRegion) : r.width shape ≤ shape.strideAt r.place := by
  unfold strideAt
  rw [regionAt_place]
  exact le_alignWords _

/-- Only the prefix leaves a part of its lines unused. -/
theorem strideAt_eq_width {r : ParserRegion} (hr : r ≠ .sourceAssignmentPrefix) :
    shape.strideAt r.place = r.width shape := by
  have halign : ∀ n, alignWords (alignWords n) = alignWords n := fun n => by
    unfold alignWords
    omega
  have hline : alignWords 16 = 16 := rfl
  unfold strideAt
  rw [regionAt_place]
  cases r with
  | sourceAssignmentPrefix => exact absurd rfl hr
  | blockRows => exact halign _
  | blockAssignments => exact halign _
  | blockExperts => exact halign _
  | _ => exact hline

/-- A region starts where the one in front of it ends. -/
theorem start_next (r s : ParserRegion) (hplace : s.place = r.place + 1) {span : ℕ}
    (hspan : shape.rowsAt r.place * shape.strideAt r.place = span) :
    shape.start s = shape.start r + span := by
  unfold start
  rw [hplace, regionStart_succ, hspan]

/-- A region ends before the next one starts. -/
theorem range_end_le {r s : ParserRegion} (h : r.place < s.place) :
    shape.start r + r.rows shape * r.width shape ≤ shape.start s := by
  have hwidth := Nat.mul_le_mul_left (r.rows shape) (shape.width_le_strideAt r)
  have hnext := regionStart_succ shape.rowsAt shape.strideAt r.place
  have hmono : regionStart shape.rowsAt shape.strideAt (r.place + 1) ≤ shape.start s :=
    regionStart_mono h
  have hrows : shape.rowsAt r.place = r.rows shape := by
    unfold rowsAt
    rw [regionAt_place]
  rw [hrows] at hnext
  unfold start at hmono ⊢
  omega

/-- Two regions share no word. -/
theorem range_disjoint {r s : ParserRegion} (h : r ≠ s) :
    Disjoint (shape.range r) (shape.range s) := by
  have hplace : r.place ≠ s.place := fun hp => h (ParserRegion.place_inj hp)
  rw [Set.disjoint_left]
  intro word hr hs
  rcases Nat.lt_or_gt_of_ne hplace with hlt | hlt
  · have hend := shape.range_end_le hlt
    have hword : word < _ := hr.2
    have hstart : _ ≤ word := hs.1
    omega
  · have hend := shape.range_end_le hlt
    have hword : word < _ := hs.2
    have hstart : _ ≤ word := hr.1
    omega

/-- The word of a cell, counted in `ℕ`. -/
def cellWord (cell : ParserCell) : ℕ :=
  rowCell shape.rowsAt shape.strideAt cell.region.place cell.row.toNat cell.column.toNat

/-- A cell of a row is inside its region. -/
theorem InRow.lt_rowsAt {shape : ScratchShape} {cell : ParserCell} (h : shape.InRow cell) :
    cell.row.toNat < shape.rowsAt cell.region.place ∧
      cell.column.toNat < shape.strideAt cell.region.place := by
  have hwidth := shape.width_le_strideAt cell.region
  refine ⟨?_, Nat.lt_of_lt_of_le h.2 hwidth⟩
  unfold rowsAt
  rw [regionAt_place]
  exact h.1

/-- The row in front of a cell takes as many words as the region says. -/
theorem InRow.row_mul {shape : ScratchShape} {cell : ParserCell} (h : shape.InRow cell) :
    cell.row.toNat * shape.strideAt cell.region.place
      = cell.row.toNat * cell.region.width shape := by
  by_cases hregion : cell.region = .sourceAssignmentPrefix
  · -- the prefix is one row
    have hrow := h.1
    rw [hregion] at hrow
    have hzero : cell.row.toNat = 0 := Nat.lt_one_iff.mp hrow
    rw [hzero, Nat.zero_mul, Nat.zero_mul]
  · rw [shape.strideAt_eq_width hregion]

theorem InRow.cellWord_mem {shape : ScratchShape} {cell : ParserCell} (h : shape.InRow cell) :
    shape.cellWord cell ∈ shape.range cell.region := by
  have hrows : (cell.row.toNat + 1) * cell.region.width shape
      ≤ cell.region.rows shape * cell.region.width shape := Nat.mul_le_mul_right _ h.1
  have hcolumn := h.2
  rw [Nat.succ_mul] at hrows
  unfold cellWord rowCell
  rw [h.row_mul]
  constructor
  · unfold start
    omega
  · unfold start
    omega

/-- Cells of one line of words stand in one row of one region. -/
theorem InRow.line_inj {shape : ScratchShape} {cell cell' : ParserCell} (h : shape.InRow cell)
    (h' : shape.InRow cell') (hline : shape.cellWord cell / 16 = shape.cellWord cell' / 16) :
    cell.region = cell'.region ∧ cell.row = cell'.row := by
  obtain ⟨hrow, hcolumn⟩ := h.lt_rowsAt
  obtain ⟨hrow', hcolumn'⟩ := h'.lt_rowsAt
  obtain ⟨hplace, hrows⟩ :=
    rowCell_line_inj shape.dvd_strideAt hrow hcolumn hrow' hcolumn' hline
  exact ⟨ParserRegion.place_inj hplace, UInt32.toNat_inj.mp hrows⟩

end ScratchShape

/-! ## The layout is the shape's -/

namespace LayoutExact

variable {shape : ScratchShape}

/-- A region starts where the layout says. -/
theorem start_eq (h : LayoutExact shape capacity layout) (r : ParserRegion) :
    (layout.start r).toNat = shape.start r := by
  have hline : shape.workers * alignWords 16 = 16 * shape.workers := Nat.mul_comm _ _
  have hblock : shape.activeBlocks * alignWords 16 = 16 * shape.activeBlocks := Nat.mul_comm _ _
  have halign : ∀ n, alignWords (alignWords n) = alignWords n := fun n => by
    unfold alignWords
    omega
  have hstate : layout.sourceState.toNat = shape.start .sourceState := h.sourceState
  have herror : layout.sourceError.toNat = shape.start .sourceError := by
    rw [h.sourceError, hstate, shape.start_next .sourceState .sourceError rfl hline]
  have hfront : layout.sourceAssignmentPrefix.toNat = shape.start .sourceAssignmentPrefix := by
    rw [h.sourceAssignmentPrefix, herror,
      shape.start_next .sourceError .sourceAssignmentPrefix rfl hline]
  have hstatus : layout.blockStatus.toNat = shape.start .blockStatus := by
    -- the prefix starts at a line, so aligning behind it rounds up its own words
    have hdvd : 16 ∣ shape.start .sourceAssignmentPrefix := dvd_regionStart shape.dvd_strideAt _
    rw [h.blockStatus, hfront,
      shape.start_next .sourceAssignmentPrefix .blockStatus rfl (Nat.one_mul _)]
    show alignWords _ = _ + alignWords (shape.workers + 1)
    unfold alignWords
    omega
  have hcontributors : layout.blockContributors.toNat = shape.start .blockContributors := by
    rw [h.blockContributors, hstatus, shape.start_next .blockStatus .blockContributors rfl hblock]
  have hrows : layout.blockRows.toNat = shape.start .blockRows := by
    rw [h.blockRows, hcontributors, shape.start_next .blockContributors .blockRows rfl hblock]
  have hrowSpan : shape.activeBlocks * alignWords (alignWords shape.workers)
      = alignWords shape.workers * shape.activeBlocks := by rw [halign, Nat.mul_comm]
  have hassignments : layout.blockAssignments.toNat = shape.start .blockAssignments := by
    rw [h.blockAssignments, hrows, shape.start_next .blockRows .blockAssignments rfl hrowSpan]
  have hexperts : layout.blockExperts.toNat = shape.start .blockExperts := by
    rw [h.blockExperts, hassignments, shape.start_next .blockAssignments .blockExperts rfl hrowSpan]
  have hexpertSpan : shape.activeBlocks * alignWords (alignWords (shape.workers * shape.experts))
      = alignWords (shape.workers * shape.experts) * shape.activeBlocks := by
    rw [halign, Nat.mul_comm]
  have htails : layout.metadataTails.toNat = shape.start .metadataTails := by
    rw [h.metadataTails, hexperts, shape.start_next .blockExperts .metadataTails rfl hexpertSpan]
  cases r with
  | sourceState => exact hstate
  | sourceError => exact herror
  | sourceAssignmentPrefix => exact hfront
  | blockStatus => exact hstatus
  | blockContributors => exact hcontributors
  | blockRows => exact hrows
  | blockAssignments => exact hassignments
  | blockExperts => exact hexperts
  | metadataTails => exact htails

/-- Every region lies in front of the entries. -/
theorem range_le (h : LayoutExact shape capacity layout) (r : ParserRegion) :
    shape.start r + r.rows shape * r.width shape ≤ layout.entries.toNat := by
  have hlast : shape.start .metadataTails + 16 * shape.workers = layout.entries.toNat := by
    rw [h.entries, ← h.start_eq .metadataTails]
    rfl
  by_cases hr : r = .metadataTails
  · rw [hr, ← hlast]
    show _ + shape.workers * 16 ≤ _
    omega
  · have hplace : r.place < ParserRegion.metadataTails.place := by
      have hne : r.place ≠ ParserRegion.metadataTails.place := fun hp =>
        hr (ParserRegion.place_inj hp)
      have hle : r.place ≤ 8 := by cases r <;> decide
      exact Nat.lt_of_le_of_ne hle hne
    have hend := shape.range_end_le hplace
    omega

/-- The stride the kernel multiplies the row index with. -/
theorem stride_eq (h : LayoutExact shape capacity layout) {r : ParserRegion}
    (hr : r ≠ .sourceAssignmentPrefix) : (layout.stride r).toNat = r.width shape := by
  cases r with
  | sourceState => exact h.sourceStride
  | sourceError => exact h.sourceStride
  | sourceAssignmentPrefix => exact absurd rfl hr
  | blockStatus => exact h.blockStride
  | blockContributors => exact h.blockStride
  | blockRows => exact h.rowStride
  | blockAssignments => exact h.rowStride
  | blockExperts => exact h.expertStride
  | metadataTails => rfl

/-- The subscript of a cell does not wrap. -/
theorem subscript_eq (h : LayoutExact shape capacity layout) {cell : ParserCell}
    (hcell : shape.InRow cell) :
    (cell.row.toUInt64 * layout.stride cell.region + cell.column).toNat
        = cell.row.toNat * (layout.stride cell.region).toNat + cell.column.toNat ∧
      shape.start cell.region
          + (cell.row.toNat * (layout.stride cell.region).toNat + cell.column.toNat)
        = shape.cellWord cell := by
  have hmem := hcell.cellWord_mem
  have hend := h.range_le cell.region
  have hlt : shape.cellWord cell < _ := hmem.2
  have hentries := layout.entries.toNat_lt
  have hstride : cell.row.toNat * (layout.stride cell.region).toNat
      = cell.row.toNat * shape.strideAt cell.region.place := by
    by_cases hregion : cell.region = .sourceAssignmentPrefix
    · have hrow := hcell.1
      rw [hregion] at hrow
      have hzero : cell.row.toNat = 0 := Nat.lt_one_iff.mp hrow
      rw [hzero, Nat.zero_mul, Nat.zero_mul]
    · rw [h.stride_eq hregion, hcell.row_mul]
  have hword : shape.start cell.region
      + (cell.row.toNat * (layout.stride cell.region).toNat + cell.column.toNat)
        = shape.cellWord cell := by
    rw [hstride, ← Nat.add_assoc]
    rfl
  refine ⟨?_, hword⟩
  rw [UInt64.toNat_add, UInt64.toNat_mul, UInt32.toNat_toUInt64, Nat.mod_eq_of_lt (a := _ * _)
    (by omega), Nat.mod_eq_of_lt (by omega)]

/-- A cell is where the layout says. -/
theorem word_eq (h : LayoutExact shape capacity layout) {cell : ParserCell}
    (hcell : shape.InRow cell) : (cell.word layout).toNat = shape.cellWord cell := by
  obtain ⟨hsubscript, hword⟩ := h.subscript_eq hcell
  have hlt : shape.cellWord cell < _ := hcell.cellWord_mem.2
  have hend := h.range_le cell.region
  have hentries := layout.entries.toNat_lt
  unfold ParserCell.word
  rw [UInt64.toNat_add, hsubscript, h.start_eq, hword, Nat.mod_eq_of_lt (by omega)]

theorem address_eq (h : LayoutExact shape capacity layout) {scratch : UInt64}
    (hscratch : scratch.toNat + 4 * layout.entries.toNat < 2 ^ 64) {cell : ParserCell}
    (hcell : shape.InRow cell) :
    (cell.address scratch layout).toNat = scratch.toNat + 4 * shape.cellWord cell := by
  obtain ⟨hsubscript, hword⟩ := h.subscript_eq hcell
  have hlt : shape.cellWord cell < _ := hcell.cellWord_mem.2
  have hend := h.range_le cell.region
  have hfour : (4 : UInt64).toNat = 4 := rfl
  unfold ParserCell.address
  rw [UInt64.toNat_add, UInt64.toNat_add, UInt64.toNat_mul, UInt64.toNat_mul, hsubscript,
    h.start_eq, hfour]
  omega

/-- The byte pointer of a tail is the address of the tail's first word. -/
theorem tailAddress_eq (scratch : UInt64) (layout : ParserScratchLayout) (destination : UInt32) :
    tailAddress scratch layout destination
      = ParserCell.address scratch layout ⟨.metadataTails, destination, 0⟩ := by
  have hbytes : destination.toUInt64 * kPullDispatchAlignment.toUInt64
      = (destination.toUInt64 * 16 + 0) * 4 := by
    have h64 : kPullDispatchAlignment.toUInt64 = 16 * 4 := rfl
    rw [h64, UInt64.add_zero, UInt64.mul_assoc]
  unfold tailAddress ParserCell.address
  rw [hbytes]
  rfl

end LayoutExact

/-! ## The kernel's cells -/

/-- Every cell of the kernel is inside the row it is taken from. -/
theorem ParserCell.Used.inRow {cell : ParserCell} (h : cell.Used activeBlocks workers experts) :
    (scratchShape activeBlocks workers experts).InRow cell := by
  have hwidth : ∀ {destination : UInt32}, destination < workers →
      destination.toUInt64.toNat < alignWords workers.toNat := by
    intro destination hdestination
    have hlt := UInt32.lt_iff_toNat_lt.mp hdestination
    rw [UInt32.toNat_toUInt64]
    exact Nat.lt_of_lt_of_le hlt (le_alignWords _)
  have hword : ∀ {word bound : UInt64}, word ≤ bound → bound.toNat < 16 → word.toNat < 16 :=
    fun hle hbound => Nat.lt_of_le_of_lt (UInt64.le_iff_toNat_le.mp hle) hbound
  cases h with
  | state hsource hk => exact ⟨UInt32.lt_iff_toNat_lt.mp hsource, hword hk (by decide)⟩
  | error hsource => exact ⟨UInt32.lt_iff_toNat_lt.mp hsource, Nat.zero_lt_succ _⟩
  | @assignmentPrefix source hsource =>
    refine ⟨Nat.zero_lt_one, ?_⟩
    show source.toUInt64.toNat < workers.toNat + 1
    rw [UInt32.toNat_toUInt64]
    exact Nat.lt_succ_of_le (UInt32.le_iff_toNat_le.mp hsource)
  | status hblock hk => exact ⟨UInt32.lt_iff_toNat_lt.mp hblock, hword hk (by decide)⟩
  | contributors hblock => exact ⟨UInt32.lt_iff_toNat_lt.mp hblock, Nat.zero_lt_succ _⟩
  | rows hblock hdestination => exact ⟨UInt32.lt_iff_toNat_lt.mp hblock, hwidth hdestination⟩
  | assignments hblock hdestination =>
    exact ⟨UInt32.lt_iff_toNat_lt.mp hblock, hwidth hdestination⟩
  | @experts block destination expert hblock hdestination hexpert =>
    refine ⟨UInt32.lt_iff_toNat_lt.mp hblock, ?_⟩
    have hd := UInt32.lt_iff_toNat_lt.mp hdestination
    have he := UInt32.lt_iff_toNat_lt.mp hexpert
    -- the index of the last expert of the last destination fits the row
    have hrow : (destination.toNat + 1) * experts.toNat ≤ workers.toNat * experts.toNat :=
      Nat.mul_le_mul_right _ hd
    have hbound : workers.toNat * experts.toNat < 2 ^ 32 * 2 ^ 32 :=
      Nat.mul_lt_mul'' workers.toNat_lt experts.toNat_lt
    have halign := le_alignWords (workers.toNat * experts.toNat)
    rw [Nat.succ_mul] at hrow
    show (destination.toUInt64 * experts.toUInt64 + expert.toUInt64).toNat
      < alignWords (workers.toNat * experts.toNat)
    rw [UInt64.toNat_add, UInt64.toNat_mul, UInt32.toNat_toUInt64, UInt32.toNat_toUInt64,
      UInt32.toNat_toUInt64]
    omega
  | tail hdestination hk =>
    exact ⟨UInt32.lt_iff_toNat_lt.mp hdestination, UInt64.lt_iff_toNat_lt.mp hk⟩

/-- A layout is built for some cores, workers and experts only. -/
theorem buildParserScratchLayout_nonzero
    (h : buildParserScratchLayout activeBlocks workers experts capacity = some layout) :
    activeBlocks ≠ 0 ∧ workers ≠ 0 ∧ experts ≠ 0 := by
  unfold buildParserScratchLayout at h
  obtain ⟨_, hnonzero, _⟩ := Option.bind_eq_some_iff.mp h
  exact (Option.guard_eq_some' _).mp hnonzero

/-- The byte counts of the kernel's `FlushRange` calls on the scratch. -/
structure FlushesExact (activeBlocks workers experts : UInt32) (layout : ParserScratchLayout) :
    Prop where
  phase0 : (layout.blockStatus * 4 + activeBlocks.toUInt64 * layout.blockStride * 4).toNat
    = 4 * layout.blockStatus.toNat + 64 * activeBlocks.toNat
  rows : (workers.toUInt64 * 4).toNat = 4 * workers.toNat
  experts : (workers.toUInt64 * experts.toUInt64 * 4).toNat = 4 * (workers.toNat * experts.toNat)
  all : (layout.entries * 4).toNat = 4 * layout.entries.toNat

/-- A flush covers exactly the lines of its row. -/
theorem flushesExact_of_build
    (h : buildParserScratchLayout activeBlocks workers experts capacity = some layout)
    (hentries : 4 * layout.entries.toNat < 2 ^ 64) :
    FlushesExact activeBlocks workers experts layout := by
  have hexact := buildParserScratchLayout_exact h
  have hblocks : 0 < activeBlocks.toNat := by
    have hne := (buildParserScratchLayout_nonzero h).1
    rw [Ne, ← UInt32.toNat_inj] at hne
    exact Nat.pos_of_ne_zero hne
  have hfour : (4 : UInt64).toNat = 4 := rfl
  have hworkers := workers.toNat_lt
  have hstatus := hexact.range_le .blockStatus
  have hexperts := hexact.range_le .blockExperts
  rw [← hexact.start_eq] at hstatus hexperts
  have hstatus : layout.blockStatus.toNat + activeBlocks.toNat * 16 ≤ layout.entries.toNat :=
    hstatus
  have hexperts : layout.blockExperts.toNat
      + activeBlocks.toNat * alignWords (workers.toNat * experts.toNat) ≤ layout.entries.toNat :=
    hexperts
  have hone : alignWords (workers.toNat * experts.toNat)
      ≤ activeBlocks.toNat * alignWords (workers.toNat * experts.toNat) :=
    Nat.le_mul_of_pos_left _ hblocks
  have halign := le_alignWords (workers.toNat * experts.toNat)
  refine ⟨?_, ?_, ?_, ?_⟩
  · rw [UInt64.toNat_add, UInt64.toNat_mul, UInt64.toNat_mul, UInt64.toNat_mul,
      UInt32.toNat_toUInt64, hexact.blockStride, hfour]
    omega
  · rw [UInt64.toNat_mul, UInt32.toNat_toUInt64, hfour]
    omega
  · rw [UInt64.toNat_mul, UInt64.toNat_mul, UInt32.toNat_toUInt64, UInt32.toNat_toUInt64, hfour]
    omega
  · rw [UInt64.toNat_mul, hfour]
    omega

/-- What the kernel relies on when it writes to a scratch at address `scratch`. -/
structure ScratchSafe (activeBlocks workers experts : UInt32) (capacity scratch : UInt64)
    (layout : ParserScratchLayout) : Prop where
  exact : LayoutExact (scratchShape activeBlocks workers experts) capacity layout
  flushes : FlushesExact activeBlocks workers experts layout
  starts : ∀ r, (layout.start r).toNat = (scratchShape activeBlocks workers experts).start r
  disjoint : ∀ r s, r ≠ s → Disjoint ((scratchShape activeBlocks workers experts).range r)
    ((scratchShape activeBlocks workers experts).range s)
  below : ∀ r, (scratchShape activeBlocks workers experts).range r ⊆ Set.Iio capacity.toNat
  cells : ∀ cell, (scratchShape activeBlocks workers experts).InRow cell →
    (cell.word layout).toNat = (layout.start cell.region).toNat
        + (cell.row.toNat * (layout.stride cell.region).toNat + cell.column.toNat) ∧
      (cell.word layout).toNat ∈ (scratchShape activeBlocks workers experts).range cell.region ∧
      (cell.address scratch layout).toNat = scratch.toNat + 4 * (cell.word layout).toNat
  used : ∀ cell, ParserCell.Used activeBlocks workers experts cell →
    (scratchShape activeBlocks workers experts).InRow cell
  tails : ∀ destination, tailAddress scratch layout destination
    = ParserCell.address scratch layout ⟨.metadataTails, destination, 0⟩
  lines : 64 ∣ scratch.toNat → ∀ cell cell' : ParserCell,
    (scratchShape activeBlocks workers experts).InRow cell →
    (scratchShape activeBlocks workers experts).InRow cell' →
    (cell.address scratch layout).toNat / 64 = (cell'.address scratch layout).toNat / 64 →
    cell.region = cell'.region ∧ cell.row = cell'.row

/-- A layout that is built keeps its regions apart, and its rows apart in lines. -/
theorem parser_scratch_safe {scratch : UInt64}
    (h : buildParserScratchLayout activeBlocks workers experts capacity = some layout)
    (hscratch : scratch.toNat + 4 * layout.entries.toNat < 2 ^ 64) :
    ScratchSafe activeBlocks workers experts capacity scratch layout := by
  have hexact := buildParserScratchLayout_exact h
  refine ⟨hexact, flushesExact_of_build h (by omega), hexact.start_eq,
    fun r s hne => ScratchShape.range_disjoint _ hne, ?_, ?_, fun _ hused => hused.inRow,
    LayoutExact.tailAddress_eq scratch layout, ?_⟩
  · intro r word hword
    have hend := hexact.range_le r
    have hfits := hexact.fits
    have hlt : word < _ := hword.2
    show word < capacity.toNat
    omega
  · intro cell hcell
    have hword := hexact.word_eq hcell
    refine ⟨?_, ?_, ?_⟩
    · rw [hword, hexact.start_eq, (hexact.subscript_eq hcell).2]
    · rw [hword]
      exact hcell.cellWord_mem
    · rw [hword]
      exact hexact.address_eq hscratch hcell
  · intro hline cell cell' hcell hcell' haddress
    obtain ⟨base, hbase⟩ := hline
    rw [hexact.address_eq hscratch hcell, hexact.address_eq hscratch hcell', hbase] at haddress
    exact hcell.line_inj hcell' (by omega)

/-- Four AIVs, two workers and one expert, in a scratch at address 4096. -/
def sampleScratch : ParserScratchLayout where
  sourceState := 0
  sourceError := 32
  sourceAssignmentPrefix := 64
  blockStatus := 80
  blockContributors := 144
  blockRows := 208
  blockAssignments := 272
  blockExperts := 336
  metadataTails := 400
  sourceStride := 16
  blockStride := 16
  rowStride := 16
  expertStride := 16
  entries := 432

theorem parser_scratch_safe_sample :
    buildParserScratchLayout 4 2 1 4096 = some sampleScratch ∧
      ScratchSafe 4 2 1 4096 4096 sampleScratch := by
  have hbuild : buildParserScratchLayout 4 2 1 4096 = some sampleScratch := by decide +kernel
  exact ⟨hbuild, parser_scratch_safe hbuild (by decide)⟩

/-! ## The launch test -/

/-- The end that `parserScratchEntries` computes is the end of the layout. -/
theorem buildParserScratchLayout_of_entries {entries : UInt64}
    (h : parserScratchEntries activeBlocks workers experts = some entries)
    (hnonzero : activeBlocks ≠ 0 ∧ workers ≠ 0 ∧ experts ≠ 0) (hcapacity : entries ≤ capacity) :
    ∃ layout, buildParserScratchLayout activeBlocks workers experts capacity = some layout ∧
      layout.entries = entries := by
  unfold parserScratchEntries at h
  obtain ⟨values, hvalues, h⟩ := Option.bind_eq_some_iff.mp h
  obtain ⟨rowStride, hrow, h⟩ := Option.bind_eq_some_iff.mp h
  obtain ⟨expertStride, hexpert, h⟩ := Option.bind_eq_some_iff.mp h
  obtain ⟨sources, hsources, h⟩ := Option.bind_eq_some_iff.mp h
  obtain ⟨sourceError, herror, h⟩ := Option.bind_eq_some_iff.mp h
  obtain ⟨sourcePrefix, hfront, h⟩ := Option.bind_eq_some_iff.mp h
  obtain ⟨cursor, hcursor, h⟩ := Option.bind_eq_some_iff.mp h
  obtain ⟨blockStatus, hstatus, h⟩ := Option.bind_eq_some_iff.mp h
  obtain ⟨blocks, hblocks, h⟩ := Option.bind_eq_some_iff.mp h
  obtain ⟨blockContributors, hcontributors, h⟩ := Option.bind_eq_some_iff.mp h
  obtain ⟨blockRows, hrows, h⟩ := Option.bind_eq_some_iff.mp h
  obtain ⟨rowWords, hrowWords, h⟩ := Option.bind_eq_some_iff.mp h
  obtain ⟨blockAssignments, hassignments, h⟩ := Option.bind_eq_some_iff.mp h
  obtain ⟨blockExperts, hexperts, h⟩ := Option.bind_eq_some_iff.mp h
  obtain ⟨expertWords, hexpertWords, h⟩ := Option.bind_eq_some_iff.mp h
  obtain ⟨metadataTails, htails, h⟩ := Option.bind_eq_some_iff.mp h
  obtain ⟨tails, htailWords, hentries⟩ := Option.bind_eq_some_iff.mp h
  -- only the two guards are not in `parserScratchEntries`
  have hguard : guard (activeBlocks ≠ 0 ∧ workers ≠ 0 ∧ experts ≠ 0) = some () :=
    (Option.guard_eq_some' _).mpr hnonzero
  have hfits : guard (entries ≤ capacity) = some () := (Option.guard_eq_some' _).mpr hcapacity
  refine ⟨{ sourceState := 0, sourceError := sourceError, sourceAssignmentPrefix := sourcePrefix,
            blockStatus := blockStatus, blockContributors := blockContributors,
            blockRows := blockRows, blockAssignments := blockAssignments,
            blockExperts := blockExperts, metadataTails := metadataTails, sourceStride := 16,
            blockStride := 16, rowStride := rowStride, expertStride := expertStride,
            entries := entries }, ?_, rfl⟩
  unfold buildParserScratchLayout
  refine Option.bind_eq_some_iff.mpr ⟨_, hguard, ?_⟩
  refine Option.bind_eq_some_iff.mpr ⟨values, hvalues, ?_⟩
  refine Option.bind_eq_some_iff.mpr ⟨rowStride, hrow, ?_⟩
  refine Option.bind_eq_some_iff.mpr ⟨expertStride, hexpert, ?_⟩
  refine Option.bind_eq_some_iff.mpr ⟨sources, hsources, ?_⟩
  refine Option.bind_eq_some_iff.mpr ⟨sourceError, herror, ?_⟩
  refine Option.bind_eq_some_iff.mpr ⟨sourcePrefix, hfront, ?_⟩
  refine Option.bind_eq_some_iff.mpr ⟨cursor, hcursor, ?_⟩
  refine Option.bind_eq_some_iff.mpr ⟨blockStatus, hstatus, ?_⟩
  refine Option.bind_eq_some_iff.mpr ⟨blocks, hblocks, ?_⟩
  refine Option.bind_eq_some_iff.mpr ⟨blockContributors, hcontributors, ?_⟩
  refine Option.bind_eq_some_iff.mpr ⟨blockRows, hrows, ?_⟩
  refine Option.bind_eq_some_iff.mpr ⟨rowWords, hrowWords, ?_⟩
  refine Option.bind_eq_some_iff.mpr ⟨blockAssignments, hassignments, ?_⟩
  refine Option.bind_eq_some_iff.mpr ⟨blockExperts, hexperts, ?_⟩
  refine Option.bind_eq_some_iff.mpr ⟨expertWords, hexpertWords, ?_⟩
  refine Option.bind_eq_some_iff.mpr ⟨metadataTails, htails, ?_⟩
  refine Option.bind_eq_some_iff.mpr ⟨tails, htailWords, ?_⟩
  refine Option.bind_eq_some_iff.mpr ⟨entries, hentries, ?_⟩
  exact Option.bind_eq_some_iff.mpr ⟨_, hfits, rfl⟩

/-- A launch that passes its test has a layout. -/
theorem DispatchLaunch.Valid.scratchLayout {launch : DispatchLaunch} (h : launch.Valid) :
    ∃ layout, buildParserScratchLayout launch.activeParserBlocks launch.workerCount
      launch.expertCount launch.parserScratchCapacityEntries = some layout := by
  obtain ⟨entries, hentries, hcapacity⟩ := (Option.any_eq_true _ _).mp h.scratch
  have hworkers : launch.workerCount ≠ 0 := by
    have htwo := UInt32.le_iff_toNat_le.mp h.workers.1
    intro hzero
    rw [hzero] at htwo
    exact absurd htwo (by decide)
  have hblocks : launch.activeParserBlocks ≠ 0 := by
    have hlt := UInt32.lt_iff_toNat_lt.mp h.cohort.2
    intro hzero
    rw [hzero] at hlt
    exact absurd hlt (Nat.not_lt_zero _)
  obtain ⟨layout, hlayout, _⟩ := buildParserScratchLayout_of_entries hentries
    ⟨hblocks, hworkers, h.shape.1⟩ (of_decide_eq_true hcapacity)
  exact ⟨layout, hlayout⟩

end AscendShmem.PullV2
