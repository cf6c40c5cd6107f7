import Mathlib
import AscendShmem.Lib.Bytes

/-!
# The Pull V2 records

The wire and journal records of single-INC Pull Dispatch and Combine, field by field as
`inc_dc_pull_dispatch_v2_abi.h` declares them, with the byte codecs of those the host and
the device hash or copy as raw bytes (READY, slot header, token and assignment records).

A routing weight is an IEEE single; nothing here computes with it, so it is carried as its
bit pattern.
-/

namespace AscendShmem.PullV2

open Lib

/-- The magic of headers and READY records. -/
def kPullDispatchMagic : UInt32 := 0x50443249
/-- The version of their layout. -/
def kPullDispatchAbiVersion : UInt16 := 2
/-- The alignment of a slot, one cache line. -/
def kPullDispatchAlignment : UInt32 := 64
/-- The most workers of a session. -/
def kPullDispatchMaxWorkers : UInt32 := 128
/-- The flag of a slot whose tokens all go to the same workers. -/
def kSlotFlagUniformDestinations : UInt16 := 1
/-- The same flag of a journal. -/
def kJournalFlagUniformDestinations : UInt32 := 1
/-- The same flag under its other name. -/
def kJournalFlagDenseAllDestinations : UInt32 := kJournalFlagUniformDestinations

/-- `DataType` -/
inductive DataType where
  | fp16
  | bf16
  | fp32
deriving DecidableEq, Repr

/-- The enumerator's underlying value. -/
def DataType.toUInt32 : DataType → UInt32
  | .fp16 => 0
  | .bf16 => 1
  | .fp32 => 2

/-- Installed once by the transport. Per-wave records carry only `regionId` and `ringSlot`. -/
structure RegionRegistration where
  sessionId : UInt64 := 0
  placementEpoch : UInt64 := 0
  sourceRank : UInt32 := 0
  regionId : UInt32 := 0
  slotCount : UInt32 := 0
  alignment : UInt32 := kPullDispatchAlignment
  regionBytes : UInt64 := 0
  slotStride : UInt64 := 0
  reserved : UInt64 × UInt64 := (0, 0)
deriving DecidableEq, Repr

/-- `sizeof(Ready)`. -/
def readyBytes : UInt16 := 64

/-- Published once per source and wave, publication last. -/
structure Ready where
  magic : UInt32 := kPullDispatchMagic
  abiVersion : UInt16 := kPullDispatchAbiVersion
  structBytes : UInt16 := readyBytes
  sessionId : UInt64 := 0
  placementEpoch : UInt64 := 0
  generation : UInt64 := 0
  sequence : UInt64 := 0
  wave : UInt32 := 0
  sourceRank : UInt32 := 0
  sourceRegionId : UInt32 := 0
  ringSlot : UInt16 := 0
  flags : UInt16 := 0
  publication : UInt64 := 0
deriving DecidableEq, Repr

/-- `sizeof(SlotHeader)`. -/
def slotHeaderBytes : ℕ := 128
/-- `sizeof(TokenRecord)`. -/
def tokenRecordBytes : ℕ := 32
/-- `sizeof(AssignmentRecord)`. -/
def assignmentRecordBytes : ℕ := 16

/-- The fixed header of a canonical source slot. -/
structure SlotHeader where
  magic : UInt32 := kPullDispatchMagic
  abiVersion : UInt16 := kPullDispatchAbiVersion
  headerBytes : UInt16 := 128
  sessionId : UInt64 := 0
  placementEpoch : UInt64 := 0
  generation : UInt64 := 0
  sequence : UInt64 := 0
  wave : UInt32 := 0
  sourceRank : UInt32 := 0
  sourceRegionId : UInt32 := 0
  ringSlot : UInt16 := 0
  flags : UInt16 := 0
  workerCount : UInt32 := 0
  tokenCount : UInt32 := 0
  assignmentCount : UInt32 := 0
  hidden : UInt32 := 0
  dtype : UInt32 := DataType.bf16.toUInt32
  tokenRecordBytes : UInt32 := 0
  assignmentRecordBytes : UInt32 := 0
  reserved0 : UInt32 := 0
  tokensOffset : UInt64 := 0
  assignmentsOffset : UInt64 := 0
  hiddenOffset : UInt64 := 0
  packetBytes : UInt64 := 0
  metadataDigest : UInt64 := 0
deriving DecidableEq, Repr

/-- A header with its digest filled in. -/
def SlotHeader.withDigest (header : SlotHeader) (digest : UInt64) : SlotHeader :=
  { header with metadataDigest := digest }

/-- A header with its offsets filled in. -/
def SlotHeader.withOffsets (header : SlotHeader)
    (tokensOffset assignmentsOffset hiddenOffset packetBytes : UInt64) : SlotHeader :=
  { header with
    tokensOffset := tokensOffset
    assignmentsOffset := assignmentsOffset
    hiddenOffset := hiddenOffset
    packetBytes := packetBytes }

/-- `TokenRecord` -/
structure TokenRecord where
  tokenId : UInt64 := 0
  sourceToken : UInt32 := 0
  assignmentBegin : UInt32 := 0
  assignmentCount : UInt32 := 0
  reserved0 : UInt32 := 0
  reserved1 : UInt64 := 0
deriving DecidableEq, Repr

/-- `AssignmentRecord` -/
structure AssignmentRecord where
  destinationRank : UInt32 := 0
  expertId : UInt32 := 0
  ordinal : UInt32 := 0
  /-- bit pattern of the `float` -/
  weight : UInt32 := 0x3f800000
deriving DecidableEq, Repr

/-- `JournalSlotState` -/
inductive JournalSlotState where
  | free
  | dispatchOpen
  | dispatchSealed
  | combineActive
  | complete
  | aborted
deriving DecidableEq, Repr

/-- The enumerator's value in the header's 16-bit `state` field. -/
def JournalSlotState.toUInt16 : JournalSlotState → UInt16
  | .free => 0
  | .dispatchOpen => 1
  | .dispatchSealed => 2
  | .combineActive => 3
  | .complete => 4
  | .aborted => 5

/-- `static_cast<JournalSlotState>`; a value that names no enumerator is `none`. -/
def JournalSlotState.ofUInt16 (state : UInt16) : Option JournalSlotState :=
  if state = 0 then some .free
  else if state = 1 then some .dispatchOpen
  else if state = 2 then some .dispatchSealed
  else if state = 3 then some .combineActive
  else if state = 4 then some .complete
  else if state = 5 then some .aborted
  else none

@[simp] theorem JournalSlotState.ofUInt16_toUInt16 (state : JournalSlotState) :
    JournalSlotState.ofUInt16 state.toUInt16 = some state := by
  cases state <;> rfl

/-- `JournalSlotHeader` -/
structure JournalSlotHeader where
  magic : UInt32 := kPullDispatchMagic
  abiVersion : UInt16 := kPullDispatchAbiVersion
  structBytes : UInt16 := 64
  generation : UInt64 := 0
  sequence : UInt64 := 0
  dispatchCookie : UInt64 := 0
  wave : UInt32 := 0
  ringSlot : UInt16 := 0
  state : UInt16 := JournalSlotState.free.toUInt16
  tokenCount : UInt32 := 0
  contributorCount : UInt32 := 0
  status : UInt32 := 0
  flags : UInt32 := 0
  reserved : UInt64 := 0
deriving DecidableEq, Repr

/-- The stable identity of a token is its owner rank and row, never `tokenId`. -/
structure JournalTokenEntry where
  routeKey : UInt64 := 0
  tokenId : UInt64 := 0
  ownerRank : UInt32 := 0
  ownerRow : UInt32 := 0
  contributorsBegin : UInt32 := 0
  contributorsCount : UInt32 := 0
  assignmentsBegin : UInt32 := 0
  assignmentsCount : UInt32 := 0
  accumulatorIndex : UInt32 := 0
  flags : UInt32 := 0
  reserved : UInt64 × UInt64 := (0, 0)
deriving DecidableEq, Repr

/-- `JournalContributor` -/
structure JournalContributor where
  workerRank : UInt32 := 0
  destinationRow : UInt32 := 0
  assignmentBegin : UInt32 := 0
  assignmentCount : UInt32 := 0
deriving DecidableEq, Repr

/-- One hidden row is sent per unique destination of a token. -/
structure DestinationRow where
  routeKey : UInt64 := 0
  tokenId : UInt64 := 0
  sourceRank : UInt32 := 0
  sourceToken : UInt32 := 0
  destinationRow : UInt32 := 0
  assignmentsBegin : UInt32 := 0
  assignmentsCount : UInt32 := 0
  reserved : UInt32 := 0
deriving DecidableEq, Repr

/-- `ExpertAssignment` -/
structure ExpertAssignment where
  destinationRow : UInt32 := 0
  expertId : UInt32 := 0
  expertRow : UInt32 := 0
  ordinal : UInt32 := 0
  /-- bit pattern of the `float` -/
  weight : UInt32 := 0x3f800000
  reserved : UInt32 × UInt32 × UInt32 := (0, 0, 0)
deriving DecidableEq, Repr

/-- `RouteKey` -/
def routeKey (ownerRank ownerRow : UInt32) : UInt64 :=
  (ownerRank.toUInt64 <<< 32) ||| ownerRow.toUInt64

/-! ## Byte representations

The last field of a READY and of a slot header is split off, since both hashes replace it
by zero. -/

/-- All of a READY before `publication`. -/
abbrev Ready.Prefix : Type :=
  UInt32 × UInt16 × UInt16 × UInt64 × UInt64 × UInt64 × UInt64 × UInt32 × UInt32 × UInt32 ×
    UInt16 × UInt16

/-- The fields of a READY and their tuple. -/
def Ready.equiv : Ready.Prefix × UInt64 ≃ Ready where
  toFun := fun ⟨⟨magic, abi, bytes, session, epoch, generation, sequence, wave, rank, region,
    slot, flags⟩, publication⟩ =>
    ⟨magic, abi, bytes, session, epoch, generation, sequence, wave, rank, region, slot, flags,
      publication⟩
  invFun r := ⟨⟨r.magic, r.abiVersion, r.structBytes, r.sessionId, r.placementEpoch,
    r.generation, r.sequence, r.wave, r.sourceRank, r.sourceRegionId, r.ringSlot, r.flags⟩,
    r.publication⟩
  left_inv _ := rfl
  right_inv _ := rfl

/-- The bytes of a READY before `publication`. -/
def Ready.prefixCodec : Codec Ready.Prefix :=
  .pair .u32 <| .pair .u16 <| .pair .u16 <| .pair .u64 <| .pair .u64 <| .pair .u64 <|
    .pair .u64 <| .pair .u32 <| .pair .u32 <| .pair .u32 <| .pair .u16 .u16

/-- The bytes of a READY. -/
def Ready.codec : Codec Ready := (Ready.prefixCodec.pair .u64).map Ready.equiv

/-- All of a slot header before `metadataDigest`. -/
abbrev SlotHeader.Prefix : Type :=
  UInt32 × UInt16 × UInt16 × UInt64 × UInt64 × UInt64 × UInt64 × UInt32 × UInt32 × UInt32 ×
    UInt16 × UInt16 × UInt32 × UInt32 × UInt32 × UInt32 × UInt32 × UInt32 × UInt32 × UInt32 ×
    UInt64 × UInt64 × UInt64 × UInt64

/-- The fields of a header and their tuple. -/
def SlotHeader.equiv : SlotHeader.Prefix × UInt64 ≃ SlotHeader where
  toFun := fun ⟨⟨magic, abi, bytes, session, epoch, generation, sequence, wave, rank, region,
    slot, flags, workers, tokens, assignments, hidden, dtype, tokenBytes, assignmentBytes,
    reserved, tokensOffset, assignmentsOffset, hiddenOffset, packet⟩, digest⟩ =>
    ⟨magic, abi, bytes, session, epoch, generation, sequence, wave, rank, region, slot, flags,
      workers, tokens, assignments, hidden, dtype, tokenBytes, assignmentBytes, reserved,
      tokensOffset, assignmentsOffset, hiddenOffset, packet, digest⟩
  invFun h := ⟨⟨h.magic, h.abiVersion, h.headerBytes, h.sessionId, h.placementEpoch,
    h.generation, h.sequence, h.wave, h.sourceRank, h.sourceRegionId, h.ringSlot, h.flags,
    h.workerCount, h.tokenCount, h.assignmentCount, h.hidden, h.dtype, h.tokenRecordBytes,
    h.assignmentRecordBytes, h.reserved0, h.tokensOffset, h.assignmentsOffset, h.hiddenOffset,
    h.packetBytes⟩, h.metadataDigest⟩
  left_inv _ := rfl
  right_inv _ := rfl

/-- The bytes of a slot header before `metadataDigest`. -/
def SlotHeader.prefixCodec : Codec SlotHeader.Prefix :=
  .pair .u32 <| .pair .u16 <| .pair .u16 <| .pair .u64 <| .pair .u64 <| .pair .u64 <|
    .pair .u64 <| .pair .u32 <| .pair .u32 <| .pair .u32 <| .pair .u16 <| .pair .u16 <|
    .pair .u32 <| .pair .u32 <| .pair .u32 <| .pair .u32 <| .pair .u32 <| .pair .u32 <|
    .pair .u32 <| .pair .u32 <| .pair .u64 <| .pair .u64 <| .pair .u64 .u64

/-- The bytes of a header. -/
def SlotHeader.codec : Codec SlotHeader := (SlotHeader.prefixCodec.pair .u64).map SlotHeader.equiv

/-- The fields of a token record and their tuple. -/
def TokenRecord.equiv : UInt64 × UInt32 × UInt32 × UInt32 × UInt32 × UInt64 ≃ TokenRecord where
  toFun := fun ⟨tokenId, source, begin, count, reserved0, reserved1⟩ =>
    ⟨tokenId, source, begin, count, reserved0, reserved1⟩
  invFun r := ⟨r.tokenId, r.sourceToken, r.assignmentBegin, r.assignmentCount, r.reserved0,
    r.reserved1⟩
  left_inv _ := rfl
  right_inv _ := rfl

/-- The bytes of a token record. -/
def TokenRecord.codec : Codec TokenRecord :=
  (Codec.pair .u64 <| .pair .u32 <| .pair .u32 <| .pair .u32 <| .pair .u32 .u64).map
    TokenRecord.equiv

/-- The fields of an assignment record and their tuple. -/
def AssignmentRecord.equiv : UInt32 × UInt32 × UInt32 × UInt32 ≃ AssignmentRecord where
  toFun := fun ⟨destination, expert, ordinal, weight⟩ => ⟨destination, expert, ordinal, weight⟩
  invFun r := ⟨r.destinationRank, r.expertId, r.ordinal, r.weight⟩
  left_inv _ := rfl
  right_inv _ := rfl

/-- The bytes of an assignment record. -/
def AssignmentRecord.codec : Codec AssignmentRecord :=
  (Codec.pair .u32 <| .pair .u32 <| .pair .u32 .u32).map AssignmentRecord.equiv

@[simp] theorem Ready.codec_size : Ready.codec.size = 64 := rfl
@[simp] theorem Ready.prefixCodec_size : Ready.prefixCodec.size = 56 := rfl
@[simp] theorem SlotHeader.codec_size : SlotHeader.codec.size = 128 := rfl
@[simp] theorem SlotHeader.prefixCodec_size : SlotHeader.prefixCodec.size = 120 := rfl
@[simp] theorem TokenRecord.codec_size : TokenRecord.codec.size = 32 := rfl
@[simp] theorem AssignmentRecord.codec_size : AssignmentRecord.codec.size = 16 := rfl

/-- A READY's bytes with another publication word. -/
theorem Ready.enc_with_publication (r : Ready) (publication : UInt64) :
    Ready.codec.enc { r with publication := publication }
      = (Ready.codec.enc r).take 56 ++ leBytes 8 publication.toNat := by
  have h : ∀ r : Ready, Ready.codec.enc r
      = Ready.prefixCodec.enc (Ready.equiv.symm r).1 ++ leBytes 8 r.publication.toNat :=
    fun _ => rfl
  have hlen : (Ready.prefixCodec.enc (Ready.equiv.symm r).1).length = 56 :=
    Ready.prefixCodec.length_enc _
  rw [h, h, List.take_left' hlen]
  rfl

/-- A slot header's bytes with another digest. -/
theorem SlotHeader.enc_withDigest (h : SlotHeader) (digest : UInt64) :
    SlotHeader.codec.enc (h.withDigest digest)
      = (SlotHeader.codec.enc h).take 120 ++ leBytes 8 digest.toNat := by
  have henc : ∀ h : SlotHeader, SlotHeader.codec.enc h
      = SlotHeader.prefixCodec.enc (SlotHeader.equiv.symm h).1
        ++ leBytes 8 h.metadataDigest.toNat := fun _ => rfl
  have hlen : (SlotHeader.prefixCodec.enc (SlotHeader.equiv.symm h).1).length = 120 :=
    SlotHeader.prefixCodec.length_enc _
  rw [henc, henc, List.take_left' hlen]
  rfl

end AscendShmem.PullV2
