import Mathlib
import AscendShmem.PullV2.Combine

/-!
# Combine READY descriptors

`ValidateCombineRegistration`, `CombineReadyPublication` and `ValidateCombineReady` of
`inc_dc_pull_combine_v2.cpp`. A worker installs one region per session, cut into ring slots of
one stride; each wave it publishes a READY that names a ring slot and a byte range of the region.
The checks multiply and add words of the descriptor, so the containment is stated in `ℕ`, where
nothing wraps.
-/

namespace AscendShmem.PullV2

open Lib Lib.Exec

/-- Installed once by the transport. -/
structure CombineRegionRegistration where
  sessionId : UInt64 := 0
  placementEpoch : UInt64 := 0
  sourceRank : UInt32 := 0
  regionId : UInt32 := 0
  slotCount : UInt32 := 0
  alignment : UInt32 := kPullCombineV2Alignment
  regionBytes : UInt64 := 0
  slotStride : UInt64 := 0
  reserved : UInt64 × UInt64 := (0, 0)
deriving DecidableEq, Repr

/-- `sizeof(CombineReadyV2)`. -/
def combineReadyBytes : UInt16 := 128

/-- Kept by the worker in its registered region and pulled by the INC. -/
structure CombineReadyV2 where
  magic : UInt32 := kPullCombineV2Magic
  abiVersion : UInt16 := kPullCombineV2AbiVersion
  structBytes : UInt16 := combineReadyBytes
  sessionId : UInt64 := 0
  placementEpoch : UInt64 := 0
  generation : UInt64 := 0
  sequence : UInt64 := 0
  dispatchCookie : UInt64 := 0
  wave : UInt32 := 0
  sourceRank : UInt32 := 0
  sourceRegionId : UInt32 := 0
  ringSlot : UInt16 := 0
  flags : UInt16 := kPullCombineV2CanonicalRows.toUInt16
  rowCount : UInt32 := 0
  hidden : UInt32 := 0
  partialDtype : UInt32 := PartialDataType.fp32.toUInt32
  sourceOffset : UInt64 := 0
  payloadBytes : UInt64 := 0
  publication : UInt64 := 0
  reserved : UInt64 × UInt64 × UInt64 := (0, 0, 0)
deriving DecidableEq, Repr

/-- `HashValue`. -/
def hashValue {α : Type} (codec : Codec α) (hash : UInt64) (value : α) : UInt64 :=
  hashBytes hash (codec.enc value)

/-- The fields are hashed one by one: the padding before `sourceOffset` is not part of it. -/
def combineReadyPublication (ready : CombineReadyV2) : UInt64 :=
  let hash := hashValue .u32 kHashOffset ready.magic
  let hash := hashValue .u16 hash ready.abiVersion
  let hash := hashValue .u16 hash ready.structBytes
  let hash := hashValue .u64 hash ready.sessionId
  let hash := hashValue .u64 hash ready.placementEpoch
  let hash := hashValue .u64 hash ready.generation
  let hash := hashValue .u64 hash ready.sequence
  let hash := hashValue .u64 hash ready.dispatchCookie
  let hash := hashValue .u32 hash ready.wave
  let hash := hashValue .u32 hash ready.sourceRank
  let hash := hashValue .u32 hash ready.sourceRegionId
  let hash := hashValue .u16 hash ready.ringSlot
  let hash := hashValue .u16 hash ready.flags
  let hash := hashValue .u32 hash ready.rowCount
  let hash := hashValue .u32 hash ready.hidden
  let hash := hashValue .u32 hash ready.partialDtype
  let hash := hashValue .u64 hash ready.sourceOffset
  let hash := hashValue .u64 hash ready.payloadBytes
  let hash := hashValue .u64 hash ready.reserved.1
  let hash := hashValue .u64 hash ready.reserved.2.1
  let hash := hashValue .u64 hash ready.reserved.2.2
  if hash = 0 then 1 else hash

/-- `ValidateCombineRegistration` -/
def validateCombineRegistration (registration : CombineRegionRegistration)
    (config : CombineV2Config) : Exec CombineV2Status Unit :=
  require (combineConfigValid config ∧ registration.sessionId = config.sessionId ∧
      registration.placementEpoch = config.placementEpoch ∧
      registration.sourceRank < config.workerCount ∧ registration.regionId ≠ 0 ∧
      config.ringSlots ≤ registration.slotCount ∧
      kPullCombineV2Alignment ≤ registration.alignment ∧
      registration.alignment &&& (registration.alignment - 1) = 0 ∧
      registration.slotStride ≠ 0 ∧
      registration.slotStride % registration.alignment.toUInt64 = 0 ∧
      regionHolds registration.slotCount registration.slotStride registration.regionBytes ∧
      registration.reserved = (0, 0))
    .invalidRegistration "invalid registered Combine region"

/-- The field test of a READY against its registration, the session and the plan. -/
def combineReadyAccepted (ready : CombineReadyV2) (registration : CombineRegionRegistration)
    (config : CombineV2Config) (plan : CombinePullPlan) : Prop :=
  ready.magic = kPullCombineV2Magic ∧ ready.abiVersion = kPullCombineV2AbiVersion ∧
    ready.structBytes = combineReadyBytes ∧ ready.sessionId = config.sessionId ∧
    ready.placementEpoch = config.placementEpoch ∧
    ready.sourceRank = registration.sourceRank ∧
    ready.sourceRegionId = registration.regionId ∧ ready.sourceRank < plan.workerCount ∧
    ready.ringSlot.toUInt32 < config.ringSlots ∧
    ready.ringSlot.toUInt32 < registration.slotCount ∧
    ready.flags.toUInt32 = kPullCombineV2CanonicalRows ∧ ready.hidden = config.hidden ∧
    ready.partialDtype = config.partialDtype.toUInt32 ∧ ready.reserved = (0, 0, 0) ∧
    ready.publication = combineReadyPublication ready

instance (ready : CombineReadyV2) (registration : CombineRegionRegistration)
    (config : CombineV2Config) (plan : CombinePullPlan) :
    Decidable (combineReadyAccepted ready registration config plan) :=
  inferInstanceAs (Decidable (_ ∧ _))

/-- The byte range of a READY and of its ring slot: expected payload, slot base, slot end and
payload end. -/
def combineReadyRange (ready : CombineReadyV2) (registration : CombineRegionRegistration)
    (config : CombineV2Config) : Option (UInt64 × UInt64 × UInt64 × UInt64) := do
  let rowBytes ← mul config.hidden.toUInt64 (partialBytes config.partialDtype).toUInt64
  let expectedPayload ← mul ready.rowCount.toUInt64 rowBytes
  let slotBase ← mul ready.ringSlot.toUInt64 registration.slotStride
  let slotEnd ← add slotBase registration.slotStride
  let payloadEnd ← add ready.sourceOffset ready.payloadBytes
  some (expectedPayload, slotBase, slotEnd, payloadEnd)

/-- `ValidateCombineReady` -/
def validateCombineReady (ready : CombineReadyV2) (registration : CombineRegionRegistration)
    (config : CombineV2Config) (plan : CombinePullPlan) : Exec CombineV2Status Unit := do
  validateCombineRegistration registration config
  require (combineReadyAccepted ready registration config plan) .invalidReady
    "invalid Combine READY descriptor"
  require (ready.dispatchCookie = plan.dispatchCookie) .cookieMismatch
    "Combine READY dispatch cookie mismatch"
  require (ready.generation = plan.generation ∧ ready.sequence = plan.sequence ∧
      ready.wave = plan.wave ∧ ready.ringSlot = plan.ringSlot)
    .staleEpoch "Combine READY epoch mismatch"
  let rows ← read plan.sourceRowCounts ready.sourceRank.toNat
  require (ready.rowCount = rows) .invalidReady "Combine READY row count mismatch"
  let (expectedPayload, slotBase, slotEnd, payloadEnd) ← orFail
    (combineReadyRange ready registration config)
    .sizeOverflow "Combine READY byte range overflow"
  require (ready.payloadBytes = expectedPayload ∧
      ready.sourceOffset % registration.alignment.toUInt64 = 0 ∧
      slotBase ≤ ready.sourceOffset ∧ payloadEnd ≤ slotEnd ∧
      payloadEnd ≤ registration.regionBytes)
    .capacityExceeded "Combine READY is outside its registered slot"

/-! ## Byte ranges in exact arithmetic -/

namespace CombineV2Config

/-- The bytes of one partial row. -/
def rowBytes (config : CombineV2Config) : ℕ :=
  config.hidden.toNat * (partialBytes config.partialDtype).toNat

end CombineV2Config

namespace CombineReadyV2

variable (ready : CombineReadyV2) (config : CombineV2Config)

/-- The bytes of the region that row `r` of a READY occupies. -/
def row (r : ℕ) : Set ℕ :=
  Set.Ico (ready.sourceOffset.toNat + r * config.rowBytes)
    (ready.sourceOffset.toNat + (r + 1) * config.rowBytes)

/-- The bytes of the region that the rows of a READY occupy. -/
def payload : Set ℕ :=
  Set.Ico ready.sourceOffset.toNat
    (ready.sourceOffset.toNat + ready.rowCount.toNat * config.rowBytes)

/-- A row below the row count lies inside the payload. -/
theorem row_subset_payload {r : ℕ} (hr : r < ready.rowCount.toNat) :
    ready.row config r ⊆ ready.payload config := by
  have hle : (r + 1) * config.rowBytes ≤ ready.rowCount.toNat * config.rowBytes :=
    Nat.mul_le_mul_right _ hr
  exact Set.Ico_subset_Ico (Nat.le_add_right _ _) (by omega)

end CombineReadyV2

/-- The payload of a READY is inside its ring slot, its slot inside the region, and every word the
checks compute is the exact sum or product. -/
structure PayloadContained (ready : CombineReadyV2) (registration : CombineRegionRegistration)
    (config : CombineV2Config) (plan : CombinePullPlan) : Prop where
  slot_le : ready.ringSlot.toNat * registration.slotStride.toNat ≤ ready.sourceOffset.toNat
  le_slot : ready.sourceOffset.toNat + ready.rowCount.toNat * config.rowBytes
    ≤ (ready.ringSlot.toNat + 1) * registration.slotStride.toNat
  le_region : (ready.ringSlot.toNat + 1) * registration.slotStride.toNat
    ≤ registration.regionBytes.toNat
  aligned : registration.alignment.toNat ∣ ready.sourceOffset.toNat
  rows : ∃ count, plan.sourceRowCounts[ready.sourceRank.toNat]? = some count ∧
    ∀ r < count.toNat, ready.row config r ⊆ ready.payload config
  region_exact : registration.slotCount.toNat * registration.slotStride.toNat < 2 ^ 64
  row_exact : config.rowBytes < 2 ^ 64
  payload_exact : ready.payloadBytes.toNat = ready.rowCount.toNat * config.rowBytes
  slot_exact : (ready.ringSlot.toNat + 1) * registration.slotStride.toNat < 2 ^ 64
  end_exact : ready.sourceOffset.toNat + ready.payloadBytes.toNat < 2 ^ 64

/-- A registered region holds all its slots. -/
theorem regionHolds_iff {count : UInt32} {stride bytes : UInt64} :
    regionHolds count stride bytes ↔ count.toNat * stride.toNat ≤ bytes.toNat := by
  have hbytes := bytes.toNat_lt
  unfold regionHolds
  rw [Option.any_eq_true]
  constructor
  · intro h
    obtain ⟨required, hmul, hle⟩ := h
    rw [mul_eq_some, UInt32.toNat_toUInt64] at hmul
    rw [hmul]
    exact UInt64.le_iff_toNat_le.mp (of_decide_eq_true hle)
  · intro h
    -- the product fits because it is below a word
    have hnat : (UInt64.ofNat (count.toNat * stride.toNat)).toNat = count.toNat * stride.toNat := by
      rw [UInt64.toNat_ofNat', Nat.mod_eq_of_lt (by omega)]
    refine ⟨UInt64.ofNat (count.toNat * stride.toNat), ?_, ?_⟩
    · rw [mul_eq_some, UInt32.toNat_toUInt64, hnat]
    · rw [decide_eq_true_eq, UInt64.le_iff_toNat_le, hnat]
      exact h

/-- The four words of a byte range are the exact ones. -/
theorem combineReadyRange_exact {ready : CombineReadyV2}
    {registration : CombineRegionRegistration} {config : CombineV2Config}
    {expectedPayload slotBase slotEnd payloadEnd : UInt64}
    (h : combineReadyRange ready registration config
      = some (expectedPayload, slotBase, slotEnd, payloadEnd)) :
    config.rowBytes < 2 ^ 64 ∧ expectedPayload.toNat = ready.rowCount.toNat * config.rowBytes ∧
      slotBase.toNat = ready.ringSlot.toNat * registration.slotStride.toNat ∧
      slotEnd.toNat = (ready.ringSlot.toNat + 1) * registration.slotStride.toNat ∧
      payloadEnd.toNat = ready.sourceOffset.toNat + ready.payloadBytes.toNat := by
  unfold combineReadyRange at h
  simp only [Option.bind_eq_bind, Option.bind_eq_some_iff, Option.some.injEq, Prod.mk.injEq] at h
  obtain ⟨rowBytes, hrow, expected, hexpected, base, hbase, slotEnd', hend, payloadEnd',
    hpayload, rfl, rfl, rfl, rfl⟩ := h
  rw [mul_eq_some, UInt32.toNat_toUInt64, UInt32.toNat_toUInt64] at hrow
  rw [mul_eq_some, UInt32.toNat_toUInt64] at hexpected
  rw [mul_eq_some, UInt16.toNat_toUInt64] at hbase
  rw [add_eq_some] at hend hpayload
  have hbytes : config.rowBytes = rowBytes.toNat := hrow
  rw [hbytes]
  refine ⟨rowBytes.toNat_lt, hexpected.symm, hbase.symm, ?_, hpayload.symm⟩
  rw [← hend, ← hbase, Nat.succ_mul]

/-- What an accepted READY has passed. -/
theorem validateCombineReady_contained {ready : CombineReadyV2}
    {registration : CombineRegionRegistration} {config : CombineV2Config} {plan : CombinePullPlan}
    (hok : validateCombineReady ready registration config plan = .ok ()) :
    PayloadContained ready registration config plan := by
  unfold validateCombineReady at hok
  obtain ⟨_, hregistration, hok⟩ := bind_eq_ok.mp hok
  obtain ⟨_, haccepted, hok⟩ := bind_eq_ok.mp hok
  obtain ⟨_, _, hok⟩ := bind_eq_ok.mp hok
  obtain ⟨_, _, hok⟩ := bind_eq_ok.mp hok
  obtain ⟨count, hcount, hok⟩ := bind_eq_ok.mp hok
  obtain ⟨_, hrows, hok⟩ := bind_eq_ok.mp hok
  obtain ⟨⟨expectedPayload, slotBase, slotEnd, payloadEnd⟩, hrange, hok⟩ := bind_eq_ok.mp hok
  obtain ⟨_, _, _, _, _, _, _, _, _, _, hholds, _⟩ := require_eq_ok.mp hregistration
  obtain ⟨_, _, _, _, _, _, _, _, _, hslot, _⟩ := require_eq_ok.mp haccepted
  obtain ⟨hpayload, haligned, hbase, hend, _⟩ := require_eq_ok.mp hok
  obtain ⟨hrow, hexpectedNat, hbaseNat, hendNat, hpayloadNat⟩ :=
    combineReadyRange_exact (orFail_eq_ok.mp hrange)
  have hrowCount : ready.rowCount = count := require_eq_ok.mp hrows
  have hregion := regionHolds_iff.mp hholds
  have hslotNat : ready.ringSlot.toNat < registration.slotCount.toNat := by
    rw [UInt32.lt_iff_toNat_lt, UInt16.toNat_toUInt32] at hslot
    exact hslot
  have hpayloadExact : ready.payloadBytes.toNat = ready.rowCount.toNat * config.rowBytes := by
    rw [hpayload, hexpectedNat]
  -- the slot ends inside the region because its index is below the slot count
  have hinside : (ready.ringSlot.toNat + 1) * registration.slotStride.toNat
      ≤ registration.slotCount.toNat * registration.slotStride.toNat :=
    Nat.mul_le_mul_right _ hslotNat
  rw [UInt64.le_iff_toNat_le] at hbase hend
  have hregionLt := registration.regionBytes.toNat_lt
  have hpayloadLt := payloadEnd.toNat_lt
  exact
    { slot_le := by omega
      le_slot := by omega
      le_region := by omega
      aligned := by
        have hmod := congrArg UInt64.toNat haligned
        rw [UInt64.toNat_mod, UInt32.toNat_toUInt64] at hmod
        exact Nat.dvd_of_mod_eq_zero hmod
      rows := ⟨count, read_eq_ok.mp hcount, fun r hr =>
        ready.row_subset_payload config (hrowCount ▸ hr)⟩
      region_exact := by omega
      row_exact := hrow
      payload_exact := hpayloadExact
      slot_exact := by omega
      end_exact := by omega }

/-- Ranges inside different slots of one stride have no byte in common. -/
theorem disjoint_of_slots {stride : ℕ} {a b lo hi lo' hi' : ℕ} (hne : a ≠ b)
    (hlo : a * stride ≤ lo) (hhi : hi ≤ (a + 1) * stride) (hlo' : b * stride ≤ lo')
    (hhi' : hi' ≤ (b + 1) * stride) : Disjoint (Set.Ico lo hi) (Set.Ico lo' hi') := by
  rw [Set.Ico_disjoint_Ico]
  rcases Nat.lt_or_gt_of_ne hne with hlt | hgt
  · have hstep : (a + 1) * stride ≤ b * stride := Nat.mul_le_mul_right _ hlt
    exact le_trans (min_le_left _ _) (le_trans (by omega) (le_max_right _ _))
  · have hstep : (b + 1) * stride ≤ a * stride := Nat.mul_le_mul_right _ hgt
    exact le_trans (min_le_right _ _) (le_trans (by omega) (le_max_left _ _))

/-- Every accepted READY is contained in its slot, and two accepted for different slots of one
region share no byte, whatever their waves are. -/
theorem combine_ready_payloads_contained (registration : CombineRegionRegistration)
    (config : CombineV2Config) (plan : CombinePullPlan) (ready : CombineReadyV2)
    (hok : validateCombineReady ready registration config plan = .ok ()) :
    PayloadContained ready registration config plan ∧
      ∀ (config' : CombineV2Config) (plan' : CombinePullPlan) (other : CombineReadyV2),
        validateCombineReady other registration config' plan' = .ok () →
        other.ringSlot ≠ ready.ringSlot →
        Disjoint (ready.payload config) (other.payload config') := by
  have hready := validateCombineReady_contained hok
  apply And.intro hready
  intro config' plan' other hok' hne
  have hother := validateCombineReady_contained hok'
  have hslots : ready.ringSlot.toNat ≠ other.ringSlot.toNat := by
    intro heq
    exact hne (UInt16.toNat_inj.mp heq.symm)
  exact disjoint_of_slots hslots hready.slot_le hready.le_slot hother.slot_le hother.le_slot

/-! ## A session of two slots -/

/-- A session of two workers. -/
def readySession : CombineV2Config :=
  { sessionId := 7, placementEpoch := 3, workerCount := 2, hidden := 4, ringSlots := 2 }

/-- The region of its worker 1. -/
def readyRegion : CombineRegionRegistration :=
  { sessionId := 7, placementEpoch := 3, sourceRank := 1, regionId := 9, slotCount := 2,
    regionBytes := 256, slotStride := 128 }

/-- The plan of the wave in a ring slot; source 1 reduces three rows of sixteen bytes. -/
def readyPlan (ringSlot : UInt16) : CombinePullPlan :=
  { generation := 1, sequence := 2, dispatchCookie := 5, ringSlot := ringSlot, workerCount := 2,
    hidden := 4, sourceRowCounts := [2, 3] }

/-- The READY of source 1 for the wave in a ring slot. -/
def readyOf (ringSlot : UInt16) (sourceOffset : UInt64) : CombineReadyV2 :=
  let ready : CombineReadyV2 :=
    { sessionId := 7, placementEpoch := 3, generation := 1, sequence := 2, dispatchCookie := 5,
      sourceRank := 1, sourceRegionId := 9, ringSlot := ringSlot, rowCount := 3, hidden := 4,
      sourceOffset := sourceOffset, payloadBytes := 48 }
  { ready with publication := combineReadyPublication ready }

/-- Both slots of the region are accepted. -/
theorem combine_ready_payloads_contained_slots :
    PayloadContained (readyOf 1 192) readyRegion readySession (readyPlan 1) ∧
      Disjoint ((readyOf 1 192).payload readySession) ((readyOf 0 64).payload readySession) := by
  have h := combine_ready_payloads_contained readyRegion readySession (readyPlan 1)
    (readyOf 1 192) (by decide +kernel)
  exact ⟨h.1, h.2 readySession (readyPlan 0) (readyOf 0 64) (by decide +kernel)
    (by decide +kernel)⟩

end AscendShmem.PullV2
