import Mathlib
import AscendShmem.PullV2.Arith

/-!
# Source slots: registration, encoder and parser

The slot half of `inc_dc_pull_dispatch_v2.cpp`. A worker encodes its tokens, routing
assignments and hidden rows into one canonical slot (`buildSlot`) and publishes a READY; the
host parser (`parseReadyAndSlot`) accepts a READY and the slot bytes it names. Sizes are
`size_t`, 64 bits wide. A buffer is the list of its bytes; every `memcpy` and every
subscript is checked against it, so that a run outside the buffer shows as a fault.

Output pointers are never written before the end, so a function returns what it writes to
them. The flag arguments say whether the pointers are given at all.
-/

namespace AscendShmem.PullV2

open Lib Lib.Exec

/-- `Status` -/
inductive Status where
  | ok
  | invalidArgument
  | invalidRegistration
  | invalidReady
  | invalidHeader
  | staleEpoch
  | sizeOverflow
  | capacityExceeded
  | digestMismatch
  | invalidToken
  | invalidAssignment
  | duplicateSource
  | invalidStateTransition
deriving DecidableEq, Repr

/-- `SessionConfig` -/
structure SessionConfig where
  sessionId : UInt64 := 0
  placementEpoch : UInt64 := 0
  workerCount : UInt32 := 0
  expertCount : UInt32 := 0
  hidden : UInt32 := 0
  dtype : DataType := .bf16
  ringSlots : UInt32 := 0
deriving DecidableEq, Repr

/-- `SourceInput` -/
structure SourceInput where
  session : SessionConfig := {}
  generation : UInt64 := 0
  sequence : UInt64 := 0
  wave : UInt32 := 0
  sourceRank : UInt32 := 0
  sourceRegionId : UInt32 := 0
  ringSlot : UInt16 := 0
  tokenIds : List UInt64 := []
  assignmentOffsets : List UInt32 := []
  assignments : List AssignmentRecord := []
  hiddenPayload : List UInt8 := []
deriving DecidableEq, Repr

/-- `ParsedSource` -/
structure ParsedSource where
  header : SlotHeader := {}
  tokens : List TokenRecord := []
  assignments : List AssignmentRecord := []
  hiddenPayload : List UInt8 := []
deriving DecidableEq, Repr

/-- `DTypeBytes` -/
def dTypeBytes : DataType → UInt32
  | .fp16 => 2
  | .bf16 => 2
  | .fp32 => 4

/-- `std::isfinite` on the bit pattern of a single: the exponent is not all ones. -/
def isFinite (weight : UInt32) : Prop := weight &&& 0x7f800000 ≠ 0x7f800000

instance (weight : UInt32) : Decidable (isFinite weight) := inferInstanceAs (Decidable (_ ≠ _))

/-- `SessionValid` -/
def sessionValid (session : SessionConfig) : Prop :=
  session.sessionId ≠ 0 ∧ session.placementEpoch ≠ 0 ∧ 2 ≤ session.workerCount ∧
    session.workerCount ≤ kPullDispatchMaxWorkers ∧ session.expertCount ≠ 0 ∧
    session.hidden ≠ 0 ∧ dTypeBytes session.dtype ≠ 0 ∧ session.ringSlots ≠ 0 ∧
    session.ringSlots ≤ 65535

instance (session : SessionConfig) : Decidable (sessionValid session) :=
  inferInstanceAs (Decidable (_ ∧ _))

/-! ## Hashes -/

/-- `ReadyPublication` -/
def readyPublication (ready : Ready) : UInt64 :=
  let canonical := { ready with publication := 0 }
  let hash := hashBytes kHashOffset (Ready.codec.enc canonical)
  if hash = 0 then 1 else hash

/-- `MetadataDigest` -/
def metadataDigest {σ : Type} (header : SlotHeader) (slot : Option (List UInt8)) :
    Exec σ UInt64 :=
  match slot with
  | none => .ok 0
  | some slot => do
    let canonical := header.withDigest 0
    let hash := hashBytes kHashOffset (SlotHeader.codec.enc canonical)
    let tokens ← copyFrom slot header.tokensOffset.toNat (header.tokenCount.toNat * tokenRecordBytes)
    let hash := hashBytes hash tokens
    let assignments ← copyFrom slot header.assignmentsOffset.toNat
      (header.assignmentCount.toNat * assignmentRecordBytes)
    .ok (hashBytes hash assignments)

/-! ## Registration -/

/-- `Mul(count, stride, &required) && required <= bytes`. -/
def regionHolds (count : UInt32) (stride bytes : UInt64) : Prop :=
  (mul count.toUInt64 stride).any (· ≤ bytes) = true

instance (count : UInt32) (stride bytes : UInt64) : Decidable (regionHolds count stride bytes) :=
  inferInstanceAs (Decidable (_ = _))

/-- `ValidateRegistration` -/
def validateRegistration (registration : RegionRegistration) (session : SessionConfig) :
    Exec Status Unit :=
  require (sessionValid session ∧ registration.sessionId = session.sessionId ∧
      registration.placementEpoch = session.placementEpoch ∧
      registration.sourceRank < session.workerCount ∧ registration.regionId ≠ 0 ∧
      registration.slotCount ≠ 0 ∧ session.ringSlots ≤ registration.slotCount ∧
      kPullDispatchAlignment ≤ registration.alignment ∧
      registration.alignment &&& (registration.alignment - 1) = 0 ∧
      slotHeaderBytes ≤ registration.slotStride.toNat ∧
      registration.slotStride % registration.alignment.toUInt64 = 0 ∧
      regionHolds registration.slotCount registration.slotStride registration.regionBytes ∧
      registration.reserved = (0, 0))
    .invalidRegistration "invalid registered pull region"

/-! ## Encoder -/

/-- The per-token flags `BuildSlot` keeps while it walks the assignments of a token. -/
structure BuildTokenState where
  ordinals : List Bool
  destinations : List Bool
  uniformDestinations : Bool
deriving DecidableEq, Repr

/-- One assignment of a token of `count` assignments. -/
def buildAssignment (input : SourceInput) (count : UInt32) (st : BuildTokenState) (i : ℕ) :
    Exec Status BuildTokenState := do
  let assignment ← read input.assignments i
  require (assignment.destinationRank < input.session.workerCount ∧
      assignment.expertId < input.session.expertCount ∧ isFinite assignment.weight ∧
      assignment.ordinal < count)
    .invalidAssignment "invalid token assignment"
  let seen ← read st.ordinals assignment.ordinal.toNat
  require (seen = false) .invalidAssignment "invalid token assignment"
  let ordinals ← write st.ordinals assignment.ordinal.toNat true
  let hit ← read st.destinations assignment.destinationRank.toNat
  let destinations ← write st.destinations assignment.destinationRank.toNat true
  .ok ⟨ordinals, destinations, st.uniformDestinations && !hit⟩

/-- What `BuildSlot` carries from token to token. -/
structure BuildState where
  tokens : List TokenRecord := []
  uniformDestinations : Bool := true
  referenceDestinations : List Bool
deriving DecidableEq, Repr

/-- The body of the loop over the tokens. -/
def buildToken (input : SourceInput) (st : BuildState) (token : ℕ) : Exec Status BuildState := do
  let begin ← read input.assignmentOffsets token
  let «end» ← read input.assignmentOffsets (token + 1)
  let count := «end» - begin
  let walked ← (List.range' begin.toNat count.toNat).foldlM (buildAssignment input count)
    ⟨List.replicate count.toNat false, List.replicate input.session.workerCount.toNat false,
      st.uniformDestinations⟩
  let tokenId ← read input.tokenIds token
  let record : TokenRecord :=
    { tokenId := tokenId, sourceToken := UInt32.ofNat token, assignmentBegin := begin,
      assignmentCount := count }
  if token = 0 then
    .ok ⟨st.tokens ++ [record], walked.uniformDestinations, walked.destinations⟩
  else
    .ok ⟨st.tokens ++ [record],
      walked.uniformDestinations && decide (walked.destinations = st.referenceDestinations),
      st.referenceDestinations⟩

/-- The header `BuildSlot` fills before it knows the offsets. -/
def builtHeader (input : SourceInput) (uniformDestinations : Bool) : SlotHeader :=
  { sessionId := input.session.sessionId
    placementEpoch := input.session.placementEpoch
    generation := input.generation
    sequence := input.sequence
    wave := input.wave
    sourceRank := input.sourceRank
    sourceRegionId := input.sourceRegionId
    ringSlot := input.ringSlot
    workerCount := input.session.workerCount
    tokenCount := UInt32.ofNat input.tokenIds.length
    assignmentCount := UInt32.ofNat input.assignments.length
    hidden := input.session.hidden
    dtype := input.session.dtype.toUInt32
    tokenRecordBytes := UInt32.ofNat tokenRecordBytes
    assignmentRecordBytes := UInt32.ofNat assignmentRecordBytes
    flags := if uniformDestinations then kSlotFlagUniformDestinations else 0 }

/-- The four offsets of a slot with these record counts and hidden bytes. -/
def slotOffsets (tokens assignments hiddenBytes : UInt64) :
    Option (UInt64 × UInt64 × UInt64 × UInt64) := do
  let tokenBytes ← mul tokens (UInt64.ofNat tokenRecordBytes)
  let assignmentBytes ← mul assignments (UInt64.ofNat assignmentRecordBytes)
  let tokensOffset ← align (UInt64.ofNat slotHeaderBytes) kPullDispatchAlignment.toUInt64
  let «end» ← add tokensOffset tokenBytes
  let assignmentsOffset ← align «end» kPullDispatchAlignment.toUInt64
  let «end» ← add assignmentsOffset assignmentBytes
  let hiddenOffset ← align «end» kPullDispatchAlignment.toUInt64
  let «end» ← add hiddenOffset hiddenBytes
  let packetBytes ← align «end» kPullDispatchAlignment.toUInt64
  some (tokensOffset, assignmentsOffset, hiddenOffset, packetBytes)

/-- The READY published for a built header. -/
def builtReady (header : SlotHeader) : Ready :=
  let ready : Ready :=
    { sessionId := header.sessionId
      placementEpoch := header.placementEpoch
      generation := header.generation
      sequence := header.sequence
      wave := header.wave
      sourceRank := header.sourceRank
      sourceRegionId := header.sourceRegionId
      ringSlot := header.ringSlot }
  { ready with publication := readyPublication ready }

/-- The bytes of a slot without its header: zeroes with the records and the payload. -/
def writeSlotBody (built : SlotHeader) (tokens : List TokenRecord)
    (assignments : List AssignmentRecord) (hiddenPayload : List UInt8) :
    Exec Status (List UInt8) := do
  let slot := List.replicate built.packetBytes.toNat 0
  let slot ← copyInto slot 0 (SlotHeader.codec.enc built)
  let slot ← copyInto slot built.tokensOffset.toNat (TokenRecord.codec.encAll tokens)
  let slot ← copyInto slot built.assignmentsOffset.toNat (AssignmentRecord.codec.encAll assignments)
  copyInto slot built.hiddenOffset.toNat hiddenPayload

/-- The slot, its header with the digest filled in, and the READY for it. -/
def encodeSlot (built : SlotHeader) (tokens : List TokenRecord)
    (assignments : List AssignmentRecord) (hiddenPayload : List UInt8) :
    Exec Status (List UInt8 × SlotHeader × Ready) := do
  let slot ← writeSlotBody built tokens assignments hiddenPayload
  let digest ← metadataDigest built (some slot)
  let built := built.withDigest digest
  let slot ← copyInto slot 0 (SlotHeader.codec.enc built)
  .ok (slot, built, builtReady built)

/-- The argument test of the encoder, pointers apart. -/
def inputValid (input : SourceInput) : Prop :=
  sessionValid input.session ∧ input.generation ≠ 0 ∧
    input.sequence ≠ 0 ∧ input.sourceRank < input.session.workerCount ∧
    input.sourceRegionId ≠ 0 ∧ input.ringSlot.toUInt32 < input.session.ringSlots ∧
    input.tokenIds.length ≤ 0xffffffff ∧ input.assignments.length ≤ 0xffffffff ∧
    input.assignmentOffsets.length = input.tokenIds.length + 1 ∧
    input.assignmentOffsets ≠ [] ∧ input.assignmentOffsets.head? = some 0 ∧
    input.assignmentOffsets.getLast?.map UInt32.toNat = some input.assignments.length ∧
    input.assignmentOffsets.Pairwise (· ≤ ·)

instance (input : SourceInput) : Decidable (inputValid input) :=
  inferInstanceAs (Decidable (_ ∧ _))

/-- `BuildSlot` -/
def buildSlot (input : SourceInput) (outputs : Bool := true) :
    Exec Status (List UInt8 × SlotHeader × Ready) := do
  require (outputs = true ∧ inputValid input) .invalidArgument "invalid source input"
  let hiddenElements ← orFail
    (mul (UInt64.ofNat input.tokenIds.length) input.session.hidden.toUInt64)
    .sizeOverflow "hidden size overflow"
  let hiddenBytes ← orFail (mul hiddenElements (dTypeBytes input.session.dtype).toUInt64)
    .sizeOverflow "hidden size overflow"
  require (hiddenBytes.toNat = input.hiddenPayload.length)
    .invalidArgument "hidden payload size mismatch"
  let st ← (List.range input.tokenIds.length).foldlM (buildToken input)
    { referenceDestinations := List.replicate input.session.workerCount.toNat false }
  let (tokensOffset, assignmentsOffset, hiddenOffset, packetBytes) ← orFail
    (slotOffsets (UInt64.ofNat input.tokenIds.length) (UInt64.ofNat input.assignments.length)
      hiddenBytes)
    .sizeOverflow "slot size overflow"
  let built := (builtHeader input st.uniformDestinations).withOffsets tokensOffset
    assignmentsOffset hiddenOffset packetBytes
  encodeSlot built st.tokens input.assignments input.hiddenPayload

/-! ## Parser -/

/-- The READY test of the parser. -/
def readyAccepted (registration : RegionRegistration) (session : SessionConfig)
    (ready : Ready) : Prop :=
  ready.magic = kPullDispatchMagic ∧ ready.abiVersion = kPullDispatchAbiVersion ∧
    ready.structBytes = readyBytes ∧ ready.flags = 0 ∧ ready.sessionId = session.sessionId ∧
    ready.placementEpoch = session.placementEpoch ∧
    ready.sourceRank = registration.sourceRank ∧
    ready.sourceRegionId = registration.regionId ∧
    ready.ringSlot.toUInt32 < registration.slotCount ∧
    ready.ringSlot.toUInt32 < session.ringSlots ∧ ready.generation ≠ 0 ∧ ready.sequence ≠ 0 ∧
    ready.publication = readyPublication ready

instance (registration : RegionRegistration) (session : SessionConfig) (ready : Ready) :
    Decidable (readyAccepted registration session ready) := inferInstanceAs (Decidable (_ ∧ _))

/-- The field test of the slot header against the READY and the session. -/
def headerMatches (session : SessionConfig) (ready : Ready) (header : SlotHeader) : Prop :=
  header.magic = kPullDispatchMagic ∧ header.abiVersion = kPullDispatchAbiVersion ∧
    header.headerBytes.toNat = slotHeaderBytes ∧
    header.flags &&& ~~~kSlotFlagUniformDestinations = 0 ∧
    header.sessionId = ready.sessionId ∧ header.placementEpoch = ready.placementEpoch ∧
    header.generation = ready.generation ∧ header.sequence = ready.sequence ∧
    header.wave = ready.wave ∧ header.sourceRank = ready.sourceRank ∧
    header.sourceRegionId = ready.sourceRegionId ∧ header.ringSlot = ready.ringSlot ∧
    header.workerCount = session.workerCount ∧ header.hidden = session.hidden ∧
    header.dtype = session.dtype.toUInt32 ∧
    header.tokenRecordBytes.toNat = tokenRecordBytes ∧
    header.assignmentRecordBytes.toNat = assignmentRecordBytes ∧ header.reserved0 = 0

instance (session : SessionConfig) (ready : Ready) (header : SlotHeader) :
    Decidable (headerMatches session ready header) := inferInstanceAs (Decidable (_ ∧ _))

/-- The sizes the parser derives from the counts of a header: hidden bytes, then offsets. -/
def canonicalOffsets (session : SessionConfig) (header : SlotHeader) :
    Option (UInt64 × UInt64 × UInt64 × UInt64 × UInt64) := do
  let hiddenElements ← mul header.tokenCount.toUInt64 header.hidden.toUInt64
  let hiddenBytes ← mul hiddenElements (dTypeBytes session.dtype).toUInt64
  let offsets ← slotOffsets header.tokenCount.toUInt64 header.assignmentCount.toUInt64 hiddenBytes
  some (hiddenBytes, offsets)

/-- `n` bytes from `offset` on are zero; the scan stops at the first that is not. -/
def paddingZero (slot : List UInt8) (offset : ℕ) : ℕ → Exec Status Bool
  | 0 => .ok true
  | n + 1 => do
    let byte ← read slot offset
    if byte ≠ 0 then .ok false else paddingZero slot (offset + 1) n

/-- One assignment of a token whose record is `record`. -/
def parseAssignment (session : SessionConfig) (assignments : List AssignmentRecord)
    (record : TokenRecord) (ordinals : List Bool) (local_ : ℕ) : Exec Status (List Bool) := do
  let assignment ← read assignments (record.assignmentBegin + UInt32.ofNat local_).toNat
  require (assignment.destinationRank < session.workerCount ∧
      assignment.expertId < session.expertCount ∧ isFinite assignment.weight ∧
      assignment.ordinal < record.assignmentCount)
    .invalidAssignment "invalid assignment metadata"
  let seen ← read ordinals assignment.ordinal.toNat
  require (seen = false) .invalidAssignment "invalid assignment metadata"
  write ordinals assignment.ordinal.toNat true

/-- One token record; the state is `expected_assignment`. -/
def parseToken (session : SessionConfig) (header : SlotHeader) (tokens : List TokenRecord)
    (assignments : List AssignmentRecord) (expected : UInt32) (token : ℕ) :
    Exec Status UInt32 := do
  let record ← read tokens token
  require (record.sourceToken = UInt32.ofNat token ∧ record.assignmentBegin = expected ∧
      record.assignmentCount ≤ header.assignmentCount - expected ∧ record.reserved0 = 0 ∧
      record.reserved1 = 0)
    .invalidToken "invalid token CSR"
  let _ ← (List.range record.assignmentCount.toNat).foldlM
    (parseAssignment session assignments record)
    (List.replicate record.assignmentCount.toNat false)
  .ok (expected + record.assignmentCount)

/-- The size and offset tests of the parser. Returns the hidden bytes and the canonical
assignments and hidden offsets. -/
def checkOffsets (session : SessionConfig) (header : SlotHeader) (slotCapacity : UInt64) :
    Exec Status (UInt64 × UInt64 × UInt64) := do
  let (hiddenBytes, canonicalTokens, canonicalAssignments, canonicalHidden, canonicalPacket) ←
    orFail (canonicalOffsets session header) .sizeOverflow "slot header overflow"
  require (header.tokensOffset = canonicalTokens ∧
      header.assignmentsOffset = canonicalAssignments ∧
      header.hiddenOffset = canonicalHidden ∧ header.packetBytes = canonicalPacket ∧
      header.packetBytes ≤ slotCapacity)
    .invalidHeader "noncanonical slot offsets"
  .ok (hiddenBytes, canonicalAssignments, canonicalHidden)

/-- The padding and digest tests of the parser. -/
def checkDigest (header : SlotHeader) (slot : List UInt8)
    (canonicalAssignments canonicalHidden : UInt64) : Exec Status Unit := do
  let metadataEnd := canonicalAssignments.toNat +
    header.assignmentCount.toNat * assignmentRecordBytes
  let zero ← paddingZero slot metadataEnd (canonicalHidden.toNat - metadataEnd)
  require (zero = true) .invalidHeader "hidden alignment padding is not zero"
  let digest ← metadataDigest header (some slot)
  require (digest = header.metadataDigest) .digestMismatch "slot metadata digest mismatch"

/-- The records and the payload of a slot whose header has been accepted. -/
def parseRecords (session : SessionConfig) (header : SlotHeader) (slot : List UInt8)
    (hiddenBytes : UInt64) : Exec Status ParsedSource := do
  let tokens ← copyFrom slot header.tokensOffset.toNat
    (header.tokenCount.toNat * tokenRecordBytes)
  let tokens := TokenRecord.codec.decAll header.tokenCount.toNat tokens
  let assignments ← copyFrom slot header.assignmentsOffset.toNat
    (header.assignmentCount.toNat * assignmentRecordBytes)
  let assignments := AssignmentRecord.codec.decAll header.assignmentCount.toNat assignments
  let hiddenPayload ← copyFrom slot header.hiddenOffset.toNat hiddenBytes.toNat
  let expected ← (List.range header.tokenCount.toNat).foldlM
    (parseToken session header tokens assignments) 0
  require (expected = header.assignmentCount) .invalidToken "token CSR does not cover assignments"
  .ok ⟨header, tokens, assignments, hiddenPayload⟩

/-- The parser after the pointer tests. -/
def parseSlot (registration : RegionRegistration) (session : SessionConfig) (ready : Ready)
    (slot : List UInt8) (slotCapacity : UInt64) : Exec Status ParsedSource := do
  validateRegistration registration session
  require (readyAccepted registration session ready) .invalidReady "invalid READY descriptor"
  require (slotHeaderBytes ≤ slotCapacity.toNat ∧ slotCapacity ≤ registration.slotStride)
    .capacityExceeded "invalid source slot capacity"
  let headerBytes ← copyFrom slot 0 slotHeaderBytes
  let header := SlotHeader.codec.dec headerBytes
  require (headerMatches session ready header) .invalidHeader "slot header mismatch"
  let (hiddenBytes, canonicalAssignments, canonicalHidden) ←
    checkOffsets session header slotCapacity
  checkDigest header slot canonicalAssignments canonicalHidden
  parseRecords session header slot hiddenBytes

/-- `ParseReadyAndSlot` -/
def parseReadyAndSlot (registration : RegionRegistration) (session : SessionConfig)
    (ready : Ready) (slot : Option (List UInt8)) (slotCapacity : UInt64)
    (parsed : Bool := true) : Exec Status ParsedSource :=
  match parsed, slot with
  | true, some slot => parseSlot registration session ready slot slotCapacity
  | _, _ => fail .invalidArgument "invalid parser output"

end AscendShmem.PullV2
