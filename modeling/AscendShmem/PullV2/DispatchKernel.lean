import AscendShmem.PullV2.Dispatch

/-!
# The dispatch kernel's planner

The planning phases of `inc_dc_pull_dispatch_v2_device_kernel.cpp` on the INC. Phase 1 gives every
AIV a slice of one source's tokens to check and to count; block zero turns the counts of all
slices into bases; phase 2 writes the journal and the destination tables from the bases, on block
zero or on several producers at once. Barriers separate the phases, so a phase reads what the one
before it has left.

Cells of the parser scratch, table indices and cursors are numbers of `ℕ`: every increment of
phase 1 and of the prefix is behind a test that keeps it in 32 bits, and phase 2 counts on from
the bases as far as phase 1 has counted.
-/

namespace AscendShmem.PullV2

open Lib Lib.Exec

/-- The device's status values; they keep the numbers of `Status`. -/
inductive DeviceStatus where
  | ok
  | invalidArgument
  | invalidReady
  | invalidHeader
  | sizeOverflow
  | capacityExceeded
  | digestMismatch
  | invalidToken
  | invalidAssignment
  | invalidState
  | readyTimeout
deriving DecidableEq, Repr

/-- Go on only if `p` holds; the device reports a status and no text. -/
def check (p : Prop) [Decidable p] (status : DeviceStatus) : Exec DeviceStatus Unit :=
  require p status ""

/-- `kOrdinalVisited` -/
def kOrdinalVisited : UInt32 := 0x80000000

/-- `DTypeBytes` of the device: an unknown type has no size. -/
def deviceDTypeBytes (dtype : UInt32) : UInt32 :=
  if dtype = DataType.fp16.toUInt32 ∨ dtype = DataType.bf16.toUInt32 then 2
  else if dtype = DataType.fp32.toUInt32 then 4
  else 0

/-! ## Launch -/

/-- The kernel's arguments that are not addresses, and its number of blocks. -/
structure DispatchLaunch where
  blocks : UInt32
  sessionId : UInt64
  placementEpoch : UInt64
  generation : UInt64
  sequence : UInt64
  sourceSlotStride : UInt64
  metadataInboxStride : UInt64
  destinationHiddenSlotStride : UInt64
  destinationRowsSlotStride : UInt64
  destinationAssignmentsSlotStride : UInt64
  destinationExpertCountsSlotStride : UInt64
  journalTokenCapacity : UInt64
  journalContributorCapacity : UInt64
  journalAssignmentCapacity : UInt64
  destinationRowCapacity : UInt64
  destinationAssignmentCapacity : UInt64
  incDestinationRowsStrideBytes : UInt64
  incDestinationAssignmentsStrideBytes : UInt64
  rowMapCapacityEntries : UInt64
  sourceDestinationPrefixCapacityEntries : UInt64
  expertCountsCapacityEntries : UInt64
  parserScratchCapacityEntries : UInt64
  workerCount : UInt32
  expertCount : UInt32
  hidden : UInt32
  dtype : UInt32
  incPe : ℤ
  regionId : UInt32
  wave : UInt32
  ringSlot : UInt32
  slotCount : UInt32
  channelsPerSource : UInt32
  spinCap : UInt64

/-- `sizeof(DestinationRow)`. -/
def destinationRowBytes : UInt64 := 40
/-- `sizeof(ExpertAssignment)`. -/
def expertAssignmentBytes : UInt64 := 32

/-- `CheckedMulU64ByU32(value, factor, &product) && product <= bound`. -/
def productFits (value : UInt64) (factor : UInt32) (bound : UInt64) : Prop :=
  (checkedMulU64ByU32 value factor).any (· ≤ bound) = true

instance (value : UInt64) (factor : UInt32) (bound : UInt64) :
    Decidable (productFits value factor bound) := inferInstanceAs (Decidable (_ = _))

/-- `BuildParserScratchLayout`; of the layout only its end is kept, since the model's scratch
tables are separate. -/
def parserScratchEntries (activeBlocks workers experts : UInt32) : Option UInt64 := do
  let expertValues ← checkedMulU64ByU32 workers.toUInt64 experts
  let rowStride ← alignU64 workers.toUInt64 16
  let expertStride ← alignU64 expertValues 16
  let extent ← checkedMulU64ByU32 16 workers
  let cursor ← addU64 0 extent
  let cursor ← addU64 cursor extent
  let cursor ← addU64 cursor (workers.toUInt64 + 1)
  let cursor ← alignU64 cursor 16
  let extent ← checkedMulU64ByU32 16 activeBlocks
  let cursor ← addU64 cursor extent
  let cursor ← addU64 cursor extent
  let extent ← checkedMulU64ByU32 rowStride activeBlocks
  let cursor ← addU64 cursor extent
  let cursor ← addU64 cursor extent
  let extent ← checkedMulU64ByU32 expertStride activeBlocks
  let cursor ← addU64 cursor extent
  let extent ← checkedMulU64ByU32 16 workers
  addU64 cursor extent

namespace DispatchLaunch

variable (launch : DispatchLaunch)

/-- The bytes of an element. -/
def dtypeBytes : UInt32 := deviceDTypeBytes launch.dtype

/-- `row_bytes` -/
def rowBytes : UInt64 := (checkedMulU64ByU32 launch.hidden.toUInt64 launch.dtypeBytes).getD 0

/-- The parser cores of each source. -/
def parserCohort : UInt32 := if launch.workerCount = 0 then 0 else launch.blocks / launch.workerCount

/-- The cores that parse. -/
def activeParserBlocks : UInt32 := launch.parserCohort * launch.workerCount

/-- `required_channels` -/
def requiredChannels : UInt64 :=
  (checkedMulU64ByU32 launch.workerCount.toUInt64 launch.channelsPerSource).getD 0

/-- `launch_valid` -/
structure Valid : Prop where
  workers : 2 ≤ launch.workerCount ∧ launch.workerCount ≤ kPullDispatchMaxWorkers
  shape : launch.expertCount ≠ 0 ∧ launch.hidden ≠ 0 ∧ launch.dtypeBytes ≠ 0
  place : launch.incPe = launch.workerCount.toNat ∧ launch.regionId ≠ 0
  epoch : launch.generation ≠ 0 ∧ launch.sequence ≠ 0 ∧ launch.ringSlot < launch.slotCount
  sourceSlot : slotHeaderBytes ≤ launch.sourceSlotStride.toNat ∧
    launch.sourceSlotStride % kPullDispatchAlignment.toUInt64 = 0
  inbox : slotHeaderBytes ≤ launch.metadataInboxStride.toNat ∧
    launch.metadataInboxStride ≤ launch.sourceSlotStride ∧
    launch.metadataInboxStride % kPullDispatchAlignment.toUInt64 = 0
  channels : launch.channelsPerSource ≠ 0
  spinCap : launch.spinCap ≠ 0
  cohort : launch.parserCohort ≠ 0 ∧ launch.workerCount < launch.activeParserBlocks
  journalTokens : launch.journalTokenCapacity ≠ 0 ∧ launch.journalTokenCapacity ≤ 0xffffffff
  journalContributors : launch.journalContributorCapacity ≤ 0xffffffff
  journalAssignments : launch.journalAssignmentCapacity ≤ 0xffffffff
  destinationRows : launch.destinationRowCapacity ≠ 0 ∧ launch.destinationRowCapacity ≤ 0xffffffff
  destinationAssignments : launch.destinationAssignmentCapacity ≠ 0 ∧
    launch.destinationAssignmentCapacity ≤ 0xffffffff
  strides : launch.incDestinationRowsStrideBytes % kPullDispatchAlignment.toUInt64 = 0 ∧
    launch.incDestinationAssignmentsStrideBytes % kPullDispatchAlignment.toUInt64 = 0
  channelBlocks : productFits launch.workerCount.toUInt64 launch.channelsPerSource
    (launch.activeParserBlocks - launch.workerCount).toUInt64
  rowBytes : (checkedMulU64ByU32 launch.hidden.toUInt64 launch.dtypeBytes).isSome = true
  expertCounts : productFits launch.workerCount.toUInt64 launch.expertCount
    launch.expertCountsCapacityEntries
  destinationPrefix : productFits (launch.workerCount.toUInt64 + 1) launch.workerCount
    launch.sourceDestinationPrefixCapacityEntries
  hiddenSlot : productFits launch.rowBytes launch.destinationRowCapacity.toUInt32
    launch.destinationHiddenSlotStride
  rowsSlot : productFits destinationRowBytes launch.destinationRowCapacity.toUInt32
      launch.destinationRowsSlotStride ∧
    productFits destinationRowBytes launch.destinationRowCapacity.toUInt32
      launch.incDestinationRowsStrideBytes
  assignmentsSlot : productFits expertAssignmentBytes
      launch.destinationAssignmentCapacity.toUInt32 launch.destinationAssignmentsSlotStride ∧
    productFits expertAssignmentBytes launch.destinationAssignmentCapacity.toUInt32
      launch.incDestinationAssignmentsStrideBytes
  expertSlot : productFits 4 launch.expertCount launch.destinationExpertCountsSlotStride
  scratch : (parserScratchEntries launch.activeParserBlocks launch.workerCount
    launch.expertCount).any (· ≤ launch.parserScratchCapacityEntries) = true

attribute [mk_iff] Valid

instance : Decidable launch.Valid := decidable_of_iff' _ (valid_iff launch)

end DispatchLaunch

/-- Two workers, one expert, one row of 64 bytes a destination. -/
def sampleLaunch : DispatchLaunch where
  blocks := 4
  sessionId := 1
  placementEpoch := 1
  generation := 1
  sequence := 1
  sourceSlotStride := 4096
  metadataInboxStride := 4096
  destinationHiddenSlotStride := 64
  destinationRowsSlotStride := 64
  destinationAssignmentsSlotStride := 64
  destinationExpertCountsSlotStride := 64
  journalTokenCapacity := 16
  journalContributorCapacity := 16
  journalAssignmentCapacity := 16
  destinationRowCapacity := 1
  destinationAssignmentCapacity := 1
  incDestinationRowsStrideBytes := 64
  incDestinationAssignmentsStrideBytes := 64
  rowMapCapacityEntries := 0
  sourceDestinationPrefixCapacityEntries := 6
  expertCountsCapacityEntries := 2
  parserScratchCapacityEntries := 4096
  workerCount := 2
  expertCount := 1
  hidden := 16
  dtype := 2
  incPe := 2
  regionId := 1
  wave := 1
  ringSlot := 0
  slotCount := 2
  channelsPerSource := 1
  spinCap := 1

/-! ## Slot headers -/

/-- The offsets `ValidateHeader` computes: hidden bytes, then tokens, assignments, hidden and
packet. -/
def deviceOffsets (header : SlotHeader) (dtypeBytes : UInt32) :
    Option (UInt64 × UInt64 × UInt64 × UInt64 × UInt64) := do
  let tokenBytes ← checkedMulU64ByU32 (UInt64.ofNat tokenRecordBytes) header.tokenCount
  let assignmentBytes ← checkedMulU64ByU32 (UInt64.ofNat assignmentRecordBytes)
    header.assignmentCount
  let hiddenElements ← checkedMulU64ByU32 header.tokenCount.toUInt64 header.hidden
  let hiddenBytes ← checkedMulU64ByU32 hiddenElements dtypeBytes
  let canonicalTokens ← alignU64 (UInt64.ofNat slotHeaderBytes) kPullDispatchAlignment.toUInt64
  let «end» ← addU64 canonicalTokens tokenBytes
  let canonicalAssignments ← alignU64 «end» kPullDispatchAlignment.toUInt64
  let «end» ← addU64 canonicalAssignments assignmentBytes
  let canonicalHidden ← alignU64 «end» kPullDispatchAlignment.toUInt64
  let «end» ← addU64 canonicalHidden hiddenBytes
  let canonicalPacket ← alignU64 «end» kPullDispatchAlignment.toUInt64
  some (hiddenBytes, canonicalTokens, canonicalAssignments, canonicalHidden, canonicalPacket)

/-- The field test of `ValidateHeader`. -/
def deviceHeaderMatches (launch : DispatchLaunch) (source : ℕ) (header : SlotHeader) : Prop :=
  header.magic = kPullDispatchMagic ∧ header.abiVersion = kPullDispatchAbiVersion ∧
    header.headerBytes.toNat = slotHeaderBytes ∧ header.sessionId = launch.sessionId ∧
    header.placementEpoch = launch.placementEpoch ∧ header.generation = launch.generation ∧
    header.sequence = launch.sequence ∧ header.wave = launch.wave ∧
    header.sourceRank.toNat = source ∧ header.sourceRegionId = launch.regionId ∧
    header.ringSlot = launch.ringSlot.toUInt16 ∧
    header.flags &&& ~~~kSlotFlagUniformDestinations = 0 ∧
    header.workerCount = launch.workerCount ∧ launch.expertCount ≠ 0 ∧
    header.hidden = launch.hidden ∧ header.dtype = launch.dtype ∧
    deviceDTypeBytes header.dtype ≠ 0 ∧ header.tokenRecordBytes.toNat = tokenRecordBytes ∧
    header.assignmentRecordBytes.toNat = assignmentRecordBytes ∧ header.reserved0 = 0

instance (launch : DispatchLaunch) (source : ℕ) (header : SlotHeader) :
    Decidable (deviceHeaderMatches launch source header) := inferInstanceAs (Decidable (_ ∧ _))

/-- `ValidateHeader` -/
def validateHeader (launch : DispatchLaunch) (source : ℕ) (header : SlotHeader) :
    Exec DeviceStatus Unit := do
  check (deviceHeaderMatches launch source header) .invalidHeader
  let (_, canonicalTokens, canonicalAssignments, canonicalHidden, canonicalPacket) ←
    orFail (deviceOffsets header (deviceDTypeBytes header.dtype)) .sizeOverflow ""
  check (header.tokensOffset = canonicalTokens ∧ header.assignmentsOffset = canonicalAssignments ∧
      header.hiddenOffset = canonicalHidden ∧ header.packetBytes = canonicalPacket ∧
      canonicalPacket ≤ launch.sourceSlotStride)
    .invalidHeader

/-- A header of the sample launch with its canonical offsets. -/
def sampleHeader : SlotHeader :=
  { sessionId := 1
    placementEpoch := 1
    generation := 1
    sequence := 1
    wave := 1
    sourceRegionId := 1
    workerCount := 2
    tokenCount := 1
    assignmentCount := 1
    hidden := 16
    dtype := 2
    tokenRecordBytes := 32
    assignmentRecordBytes := 16
    tokensOffset := 128
    assignmentsOffset := 192
    hiddenOffset := 256
    packetBytes := 320 }

/-! ## Sets of numbers below 128 -/

/-- `uint32_t bits[4]` -/
structure Bits128 where
  word : ℕ → UInt32

namespace Bits128

/-- No bit is set. -/
def empty : Bits128 := ⟨fun _ => 0⟩

/-- `bits[x >> 5] & (1u << (x & 31))` -/
def has (bits : Bits128) (x : UInt32) : Bool :=
  bits.word (x >>> 5).toNat &&& (1 <<< (x &&& 31)) ≠ 0

/-- `bits[x >> 5] |= 1u << (x & 31)` -/
def add (bits : Bits128) (x : UInt32) : Bits128 :=
  ⟨Function.update bits.word (x >>> 5).toNat (bits.word (x >>> 5).toNat ||| (1 <<< (x &&& 31)))⟩

end Bits128

/-! ## Phase 1: checking and counting -/

/-- Keep parser boundaries on eight-token groups. -/
def parserTokenBoundary (tokenCount lane cohort : UInt32) : UInt32 :=
  let groups := (tokenCount.toUInt64 + 7) / 8
  let group := mulU64ByU32 groups lane / cohort.toUInt64
  let token := group * 8
  if token < tokenCount.toUInt64 then token.toUInt32 else tokenCount

/-- The cells one parser block counts in; the prefix turns them into its bases. -/
@[ext] structure ParserCells where
  contributors : ℕ
  rows : ℕ → ℕ
  assignments : ℕ → ℕ
  experts : ℕ → ℕ

/-- The counters before the first record. -/
def ParserCells.zero : ParserCells := ⟨0, fun _ => 0, fun _ => 0, fun _ => 0⟩

/-- `assignments[record->assignment_begin + local]` -/
def assignmentAt (source : ParsedSource) (record : TokenRecord) (local_ : ℕ) :
    Exec DeviceStatus AssignmentRecord :=
  read source.assignments (record.assignmentBegin.toNat + local_)

/-- A loop over the assignments of a token. -/
def forAssignments {β : Type} (source : ParsedSource) (record : TokenRecord)
    (body : β → AssignmentRecord → Exec DeviceStatus β) (st : β) : Exec DeviceStatus β :=
  (List.range record.assignmentCount.toNat).foldlM
    (fun st local_ => do
      let assignment ← assignmentAt source record local_
      body st assignment)
    st

/-- `expected_begin` of a token: where the record before it ends. -/
def previousEnd (source : ParsedSource) (token : ℕ) : Exec DeviceStatus ℕ :=
  if token ≠ 0 then do
    let previous ← read source.tokens (token - 1)
    .ok (previous.assignmentBegin.toNat + previous.assignmentCount.toNat)
  else .ok 0

/-- The record tests of one token against the record before it. -/
def scanRecord (source : ParsedSource) (record : TokenRecord) (token : ℕ) :
    Exec DeviceStatus Unit := do
  let expectedBegin ← previousEnd source token
  let assignmentEnd := record.assignmentBegin.toNat + record.assignmentCount.toNat
  check (record.sourceToken.toNat = token ∧ record.assignmentBegin.toNat = expectedBegin ∧
      assignmentEnd ≤ source.header.assignmentCount.toNat ∧
      (token + 1 = source.header.tokenCount.toNat →
        assignmentEnd = source.header.assignmentCount.toNat) ∧
      record.reserved0 = 0 ∧ record.reserved1 = 0)
    .invalidToken

/-- The field tests of one assignment. -/
def scanAssignment (launch : DispatchLaunch) (record : TokenRecord) (assignment : AssignmentRecord) :
    Exec DeviceStatus Unit :=
  check (assignment.destinationRank < launch.workerCount ∧
      assignment.expertId < launch.expertCount ∧ isFinite assignment.weight ∧
      assignment.ordinal &&& kOrdinalVisited = 0 ∧ assignment.ordinal < record.assignmentCount)
    .invalidAssignment

/-- One ordinal of the bitmap scan. -/
def scanOrdinalBit (bits : Bits128) (assignment : AssignmentRecord) :
    Exec DeviceStatus Bits128 := do
  check (bits.has assignment.ordinal = false) .invalidAssignment
  .ok (bits.add assignment.ordinal)

/-- One ordinal of the quadratic scan, against those before it. -/
def scanOrdinalPair (source : ParsedSource) (record : TokenRecord) (local_ : ℕ) :
    Exec DeviceStatus Unit := do
  let assignment ← assignmentAt source record local_
  (List.range local_).foldlM (fun _ previous => do
    let other ← assignmentAt source record previous
    check (other.ordinal ≠ assignment.ordinal) .invalidAssignment) ()

/-- The bitmap holds ordinals below 128; a larger token is scanned pair by pair. -/
def scanOrdinals (source : ParsedSource) (record : TokenRecord) : Exec DeviceStatus Unit :=
  if record.assignmentCount ≤ 128 then do
    let _ ← forAssignments source record scanOrdinalBit Bits128.empty
    .ok ()
  else (List.range record.assignmentCount.toNat).foldlM
    (fun _ local_ => scanOrdinalPair source record local_) ()

/-- One more in a cell of 32 bits. -/
def countUp (cells : ℕ → ℕ) (i : ℕ) : Exec DeviceStatus (ℕ → ℕ) := do
  check (cells i ≠ 0xffffffff) .capacityExceeded
  .ok (Function.update cells i (cells i + 1))

/-- The first assignment of a token at a destination counts a row and a contributor. -/
def countRow (st : Bits128 × ParserCells) (destination : UInt32) :
    Exec DeviceStatus (Bits128 × ParserCells) :=
  if st.1.has destination then .ok st
  else do
    check (st.2.rows destination.toNat ≠ 0xffffffff ∧ st.2.contributors ≠ 0xffffffff)
      .capacityExceeded
    .ok (st.1.add destination,
      { st.2 with
        rows := Function.update st.2.rows destination.toNat (st.2.rows destination.toNat + 1)
        contributors := st.2.contributors + 1 })

/-- The body of the loop over the assignments of a token. -/
def countAssignment (launch : DispatchLaunch) (st : Bits128 × ParserCells)
    (assignment : AssignmentRecord) : Exec DeviceStatus (Bits128 × ParserCells) := do
  let destination := assignment.destinationRank
  let (bits, cells) ← countRow st destination
  let assignments ← countUp cells.assignments destination.toNat
  let experts ← countUp cells.experts
    (destination.toNat * launch.expertCount.toNat + assignment.expertId.toNat)
  .ok (bits, { cells with
    assignments := assignments
    experts := experts })

/-- One token of a slice. -/
def scanToken (launch : DispatchLaunch) (source : ParsedSource) (cells : ParserCells)
    (token : ℕ) : Exec DeviceStatus ParserCells := do
  let record ← read source.tokens token
  scanRecord source record token
  forAssignments source record (fun _ assignment => scanAssignment launch record assignment) ()
  scanOrdinals source record
  let (_, cells) ← forAssignments source record (countAssignment launch) (Bits128.empty, cells)
  .ok cells

/-- Phase 1 of one parser block, behind the source's READY and header tests. -/
def countSlice (launch : DispatchLaunch) (source : ParsedSource) (lane : ℕ) :
    Exec DeviceStatus ParserCells := do
  let tokenBegin := (parserTokenBoundary source.header.tokenCount (UInt32.ofNat lane)
    launch.parserCohort).toNat
  let tokenEnd := (parserTokenBoundary source.header.tokenCount (UInt32.ofNat lane + 1)
    launch.parserCohort).toNat
  check (¬ (lane = 0 ∧ source.header.tokenCount = 0 ∧ source.header.assignmentCount ≠ 0))
    .invalidToken
  (List.range' tokenBegin (tokenEnd - tokenBegin)).foldlM (scanToken launch source) ParserCells.zero

/-! ## The prefix -/

/-- What the first loop over the sources leaves. -/
structure WaveTotals where
  tokens : ℕ := 0
  assignments : ℕ := 0
  cookie : UInt64 := kHashOffset
  uniformHints : Bool := true
  /-- `source_token_prefix` -/
  tokenPrefix : List ℕ := [0]
  /-- `source_assignment_prefix` -/
  assignmentPrefix : List ℕ := [0]

/-- The flag of the header. -/
def SlotHeader.uniformHint (header : SlotHeader) : Bool :=
  header.flags &&& kSlotFlagUniformDestinations ≠ 0

/-- The body of the loop that totals the sources. -/
def totalSource (launch : DispatchLaunch) (st : WaveTotals) (source : ParsedSource) :
    Exec DeviceStatus WaveTotals := do
  let tokens := st.tokens + source.header.tokenCount.toNat
  let assignments := st.assignments + source.header.assignmentCount.toNat
  check (tokens ≤ launch.journalTokenCapacity.toNat ∧ tokens ≤ 0xffffffff ∧
      (launch.journalAssignmentCapacity ≠ 0 →
        assignments ≤ launch.journalAssignmentCapacity.toNat) ∧ assignments ≤ 0xffffffff)
    .capacityExceeded
  .ok
    { tokens := tokens
      assignments := assignments
      cookie := (Codec.u64.enc source.header.metadataDigest).foldl hashByte st.cookie
      uniformHints := st.uniformHints && source.header.uniformHint
      tokenPrefix := st.tokenPrefix ++ [tokens]
      assignmentPrefix := st.assignmentPrefix ++ [assignments] }

/-- The cursors of the prefix and what it has written. -/
structure PrefixState where
  contributorCursor : ℕ := 0
  rowCursor : ℕ → ℕ := fun _ => 0
  assignmentCursor : ℕ → ℕ := fun _ => 0
  /-- `expert_counts` -/
  expertCounts : ℕ → ℕ := fun _ => 0
  /-- the parser cells turned into bases, in parser order -/
  bases : List ParserCells := []
  /-- `source_destination_prefix`, a row for each source -/
  destinationPrefix : List (ℕ → ℕ) := []

/-- One cell of `expert_counts`. -/
def prefixExpert (cells : ParserCells) (st : (ℕ → ℕ) × (ℕ → ℕ)) (cell : ℕ) :
    Exec DeviceStatus ((ℕ → ℕ) × (ℕ → ℕ)) := do
  let base := st.1 cell
  check (cells.experts cell ≤ 0xffffffff - base) .capacityExceeded
  .ok (Function.update st.1 cell (base + cells.experts cell), Function.update st.2 cell base)

/-- One destination of one parser: its cells become bases and the cursors move on. -/
def prefixDestination (launch : DispatchLaunch) (cells : ParserCells)
    (st : PrefixState × ParserCells) (destination : ℕ) :
    Exec DeviceStatus (PrefixState × ParserCells) := do
  let (st, base) := st
  let rows := cells.rows destination
  let assignments := cells.assignments destination
  check (rows ≤ launch.destinationRowCapacity.toNat - st.rowCursor destination ∧
      assignments ≤ launch.destinationAssignmentCapacity.toNat - st.assignmentCursor destination)
    .capacityExceeded
  let experts := (List.range launch.expertCount.toNat).map
    fun expert => destination * launch.expertCount.toNat + expert
  let (expertCounts, expertBases) ← experts.foldlM (prefixExpert cells)
    (st.expertCounts, base.experts)
  .ok
    ({ st with
      rowCursor := Function.update st.rowCursor destination (st.rowCursor destination + rows)
      assignmentCursor := Function.update st.assignmentCursor destination
        (st.assignmentCursor destination + assignments)
      expertCounts := expertCounts },
    { base with
      rows := Function.update base.rows destination (st.rowCursor destination)
      assignments := Function.update base.assignments destination (st.assignmentCursor destination)
      experts := expertBases })

/-- The body of the loop over the parsers of a source. -/
def prefixParser (launch : DispatchLaunch) (st : PrefixState) (cells : ParserCells) :
    Exec DeviceStatus PrefixState := do
  let cursor := st.contributorCursor + cells.contributors
  check (cursor ≤ launch.journalContributorCapacity.toNat ∧ cursor ≤ 0xffffffff) .capacityExceeded
  let base := { ParserCells.zero with contributors := st.contributorCursor }
  let (st, base) ← (List.range launch.workerCount.toNat).foldlM (prefixDestination launch cells)
    ({ st with contributorCursor := cursor }, base)
  .ok { st with bases := st.bases ++ [base] }

/-- Every destination has none or exactly one row and one assignment of each of the tokens. -/
def sourceUniform (launch : DispatchLaunch) (tokenCount : ℕ) (before after : PrefixState) : Prop :=
  ∀ destination < launch.workerCount.toNat,
    let rows := after.rowCursor destination - before.rowCursor destination
    let assignments := after.assignmentCursor destination - before.assignmentCursor destination
    rows = 0 ∧ assignments = 0 ∨ rows = tokenCount ∧ assignments = tokenCount

instance (launch : DispatchLaunch) (tokenCount : ℕ) (before after : PrefixState) :
    Decidable (sourceUniform launch tokenCount before after) :=
  inferInstanceAs (Decidable (∀ _ < _, _))

/-- One lane of a source. -/
def prefixLane (launch : DispatchLaunch) (cells : List ParserCells) (source : ℕ)
    (st : PrefixState) (lane : ℕ) : Exec DeviceStatus PrefixState := do
  let mine ← read cells (source * launch.parserCohort.toNat + lane)
  prefixParser launch st mine

/-- The body of the loop over the sources. -/
def prefixSource (launch : DispatchLaunch) (srcs : List ParsedSource) (cells : List ParserCells)
    (st : PrefixState) (source : ℕ) : Exec DeviceStatus PrefixState := do
  let parsed ← read srcs source
  let before := { st with destinationPrefix := st.destinationPrefix ++ [st.rowCursor] }
  let after ← (List.range launch.parserCohort.toNat).foldlM (prefixLane launch cells source) before
  check (parsed.header.uniformHint = true →
    sourceUniform launch parsed.header.tokenCount.toNat before after) .invalidAssignment
  .ok after

/-- What the prefix leaves for phase 2 and the relay. -/
structure WavePlan where
  totals : WaveTotals
  contributors : ℕ
  bases : List ParserCells
  /-- `source_destination_prefix`: the rows a destination has before each source, and at the
  end -/
  destinationPrefix : List (ℕ → ℕ)
  destinationRowCounts : ℕ → ℕ
  destinationAssignmentCounts : ℕ → ℕ
  expertCounts : ℕ → ℕ

/-- `jheader->dispatch_cookie` -/
def WavePlan.dispatchCookie (plan : WavePlan) : UInt64 :=
  if plan.totals.cookie = 0 then 1 else plan.totals.cookie

/-- Parser blocks are grouped source-major. -/
def countParser (launch : DispatchLaunch) (srcs : List ParsedSource) (cells : List ParserCells)
    (parser : ℕ) : Exec DeviceStatus (List ParserCells) := do
  let source ← read srcs (parser / launch.parserCohort.toNat)
  let mine ← countSlice launch source (parser % launch.parserCohort.toNat)
  .ok (cells ++ [mine])

/-- Phase 1 of all parser blocks and the prefix, for sources whose READY and header passed. -/
def planWave (launch : DispatchLaunch) (srcs : List ParsedSource) : Exec DeviceStatus WavePlan := do
  let totals ← srcs.foldlM (totalSource launch) {}
  check (launch.rowMapCapacityEntries ≠ 0 →
      totals.tokens * launch.workerCount.toNat ≤ launch.rowMapCapacityEntries.toNat)
    .capacityExceeded
  let cells ← (List.range launch.activeParserBlocks.toNat).foldlM (countParser launch srcs) []
  let st ← (List.range launch.workerCount.toNat).foldlM (prefixSource launch srcs cells) {}
  .ok
    { totals := totals
      contributors := st.contributorCursor
      bases := st.bases
      destinationPrefix := st.destinationPrefix ++ [st.rowCursor]
      destinationRowCounts := st.rowCursor
      destinationAssignmentCounts := st.assignmentCursor
      expertCounts := st.expertCounts }

end AscendShmem.PullV2
