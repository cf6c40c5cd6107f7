import AscendShmem.PullV2.CombineReady
import AscendShmem.PullV2.FaithfulPlan
import AscendShmem.PullV2.PlanValidation

/-!
# READY on the device

`ValidateReady` of `inc_dc_pull_combine_v2_device_kernel.cpp`, next to `ValidateCombineReady` of the
host. The device has its registration checked once a wave, takes the row count of a source from the
offsets of the plan, and tests it together with the byte range. Its status values are those of
`CombineV2Status`, so that a failure passes through the host API as it is.
-/

namespace AscendShmem.PullV2

open Lib Lib.Exec

/-- The enumerator's underlying value. -/
def CombineV2Status.toUInt32 : CombineV2Status → UInt32
  | .ok => 0
  | .invalidArgument => 1
  | .invalidJournal => 2
  | .invalidRegistration => 3
  | .invalidReady => 4
  | .cookieMismatch => 5
  | .staleEpoch => 6
  | .sizeOverflow => 7
  | .capacityExceeded => 8
  | .duplicateSource => 9
  | .notReady => 10
  | .invalidStateTransition => 11
  | .aborted => 12

/-- `HashU16`, `HashU32` and `HashU64`: the bytes of the value, the least significant first. -/
def hashU {α : Type} (codec : Codec α) (hash : UInt64) (value : α) : UInt64 :=
  (codec.enc value).foldl hashByte hash

/-- `ReadyPublication`. -/
def deviceReadyPublication (ready : CombineReadyV2) : UInt64 :=
  let hash := hashU .u32 kHashOffset ready.magic
  let hash := hashU .u16 hash ready.abiVersion
  let hash := hashU .u16 hash ready.structBytes
  let hash := hashU .u64 hash ready.sessionId
  let hash := hashU .u64 hash ready.placementEpoch
  let hash := hashU .u64 hash ready.generation
  let hash := hashU .u64 hash ready.sequence
  let hash := hashU .u64 hash ready.dispatchCookie
  let hash := hashU .u32 hash ready.wave
  let hash := hashU .u32 hash ready.sourceRank
  let hash := hashU .u32 hash ready.sourceRegionId
  let hash := hashU .u16 hash ready.ringSlot
  let hash := hashU .u16 hash ready.flags
  let hash := hashU .u32 hash ready.rowCount
  let hash := hashU .u32 hash ready.hidden
  let hash := hashU .u32 hash ready.partialDtype
  let hash := hashU .u64 hash ready.sourceOffset
  let hash := hashU .u64 hash ready.payloadBytes
  let hash := hashU .u64 hash ready.reserved.1
  let hash := hashU .u64 hash ready.reserved.2.1
  let hash := hashU .u64 hash ready.reserved.2.2
  if hash = 0 then 1 else hash

/-- The scalar arguments of `ValidateReady`. -/
structure ReadyLaunch where
  source : UInt32
  workers : UInt32
  hidden : UInt32
  slots : UInt32
  sessionId : UInt64
  placementEpoch : UInt64
  generation : UInt64
  sequence : UInt64
  dispatchCookie : UInt64
  wave : UInt32
  ringSlot : UInt16

/-- The first test of `ValidateReady`, passed. -/
def deviceReadyAccepted (ready : CombineReadyV2) (registration : CombineRegionRegistration)
    (launch : ReadyLaunch) : Prop :=
  ready.magic = kPullCombineV2Magic ∧ ready.abiVersion = kPullCombineV2AbiVersion ∧
    ready.structBytes = combineReadyBytes ∧ ready.sessionId = launch.sessionId ∧
    ready.placementEpoch = launch.placementEpoch ∧ ready.sourceRank = launch.source ∧
    launch.source < launch.workers ∧ ready.sourceRegionId = registration.regionId ∧
    ready.ringSlot.toUInt32 < launch.slots ∧
    ready.ringSlot.toUInt32 < registration.slotCount ∧
    ready.flags.toUInt32 = kPullCombineV2CanonicalRows ∧ ready.hidden = launch.hidden ∧
    ready.partialDtype = PartialDataType.fp32.toUInt32 ∧ ready.reserved.1 = 0 ∧
    ready.reserved.2.1 = 0 ∧ ready.reserved.2.2 = 0 ∧ ready.publication ≠ 0 ∧
    ready.publication = deviceReadyPublication ready

instance (ready : CombineReadyV2) (registration : CombineRegionRegistration)
    (launch : ReadyLaunch) : Decidable (deviceReadyAccepted ready registration launch) :=
  inferInstanceAs (Decidable (_ ∧ _))

/-- Expected bytes, slot base, slot end and payload end. -/
def deviceReadyRange (ready : CombineReadyV2) (registration : CombineRegionRegistration)
    (launch : ReadyLaunch) (expectedRows : UInt64) :
    Option (UInt64 × UInt64 × UInt64 × UInt64) :=
  if 0xffffffff < expectedRows then none
  else do
    let expectedBytes ← checkedMulU64ByU32 expectedRows launch.hidden
    let expectedBytes ← checkedMulU64ByU32 expectedBytes 4
    let slotBase ← checkedMulU64ByU32 registration.slotStride launch.ringSlot.toUInt32
    let slotEnd ← addU64 slotBase registration.slotStride
    let payloadEnd ← addU64 ready.sourceOffset ready.payloadBytes
    some (expectedBytes, slotBase, slotEnd, payloadEnd)

/-- `ValidateReady` from `expected_rows` on. -/
def validateReadyRows (ready : CombineReadyV2) (registration : CombineRegionRegistration)
    (sourceOffsets : List UInt64) (launch : ReadyLaunch) : Exec CombineDeviceStatus Unit := do
  let last ← read sourceOffsets (launch.source + 1).toNat
  let first ← read sourceOffsets launch.source.toNat
  let expectedRows := last - first
  let (expectedBytes, slotBase, slotEnd, payloadEnd) ← orFail
    (deviceReadyRange ready registration launch expectedRows) .sizeOverflow ""
  ensure (ready.rowCount.toUInt64 = expectedRows ∧ ready.payloadBytes = expectedBytes ∧
    ready.sourceOffset % registration.alignment.toUInt64 = 0 ∧ slotBase ≤ ready.sourceOffset ∧
    payloadEnd ≤ slotEnd ∧ payloadEnd ≤ registration.regionBytes) .capacityExceeded

/-- `ValidateReady` -/
def validateReady (ready : CombineReadyV2) (registration : CombineRegionRegistration)
    (sourceOffsets : List UInt64) (launch : ReadyLaunch) : Exec CombineDeviceStatus Unit := do
  ensure (deviceReadyAccepted ready registration launch) .invalidReady
  ensure (ready.dispatchCookie = launch.dispatchCookie) .cookieMismatch
  ensure (ready.generation = launch.generation ∧ ready.sequence = launch.sequence ∧
    ready.wave = launch.wave ∧ ready.ringSlot = launch.ringSlot) .staleEpoch
  validateReadyRows ready registration sourceOffsets launch

/-- What the kernel passes for the source of a registration in the wave of a plan. -/
def ReadyLaunch.of (registration : CombineRegionRegistration) (config : CombineV2Config)
    (plan : CombinePullPlan) : ReadyLaunch where
  source := registration.sourceRank
  workers := config.workerCount
  hidden := config.hidden
  slots := config.ringSlots
  sessionId := config.sessionId
  placementEpoch := config.placementEpoch
  generation := plan.generation
  sequence := plan.sequence
  dispatchCookie := plan.dispatchCookie
  wave := plan.wave
  ringSlot := plan.ringSlot

/-! ## The two hashes and the two tests -/

theorem hashU_eq_hashValue {α : Type} (codec : Codec α) (hash : UInt64) (value : α) :
    hashU codec hash value = hashValue codec hash value := foldl_hashByte _ _

theorem deviceReadyPublication_eq (ready : CombineReadyV2) :
    deviceReadyPublication ready = combineReadyPublication ready := by
  unfold deviceReadyPublication combineReadyPublication
  simp only [hashU_eq_hashValue]

/-- The publication word is never zero. -/
theorem combineReadyPublication_ne_zero (ready : CombineReadyV2) :
    combineReadyPublication ready ≠ 0 := by
  unfold combineReadyPublication
  dsimp only
  split
  · decide
  · assumption

section Agreement

variable {ready : CombineReadyV2} {registration : CombineRegionRegistration}
  {config : CombineV2Config} {dispatch : CompiledLayout} {plan : CombinePullPlan}

/-- The descriptor tests are the same. -/
theorem deviceReadyAccepted_iff (hdtype : config.partialDtype = .fp32)
    (hworkers : plan.workerCount = config.workerCount) :
    deviceReadyAccepted ready registration (.of registration config plan) ↔
      combineReadyAccepted ready registration config plan := by
  unfold deviceReadyAccepted combineReadyAccepted ReadyLaunch.of
  rw [deviceReadyPublication_eq, hdtype, hworkers]
  constructor
  · rintro ⟨hmagic, habi, hbytes, hsession, hepoch, hsource, hrank, hregion, hslots, hcount,
      hflags, hhidden, hpartial, hres0, hres1, hres2, -, hpublication⟩
    exact ⟨hmagic, habi, hbytes, hsession, hepoch, hsource, hregion, hsource ▸ hrank, hslots,
      hcount, hflags, hhidden, hpartial, Prod.ext hres0 (Prod.ext hres1 hres2), hpublication⟩
  · rintro ⟨hmagic, habi, hbytes, hsession, hepoch, hsource, hregion, hrank, hslots, hcount,
      hflags, hhidden, hpartial, hreserved, hpublication⟩
    refine ⟨hmagic, habi, hbytes, hsession, hepoch, hsource, hsource ▸ hrank, hregion, hslots,
      hcount, hflags, hhidden, hpartial, ?_, ?_, ?_, ?_, hpublication⟩
    · rw [hreserved]
    · rw [hreserved]
    · rw [hreserved]
    · rw [hpublication]
      exact combineReadyPublication_ne_zero ready

/-- Two products one after the other overflow exactly when the product of both factors does. -/
theorem checkedMul_bind {rows : UInt64} {hidden size : UInt32} (hsize : size ≠ 0)
    (hfits : hidden.toNat * size.toNat < 2 ^ 64) :
    (checkedMulU64ByU32 rows hidden).bind (fun bytes => checkedMulU64ByU32 bytes size)
      = (mul hidden.toUInt64 size.toUInt64).bind fun rowBytes => mul rows rowBytes := by
  have hpos : 0 < size.toNat := by
    apply Nat.pos_of_ne_zero
    intro hzero
    exact hsize (UInt32.toNat_inj.mp hzero)
  apply Option.ext
  intro c
  rw [Option.bind_eq_some_iff, Option.bind_eq_some_iff]
  constructor
  · intro h
    obtain ⟨bytes, hbytes, hc⟩ := h
    rw [checkedMulU64ByU32_eq_some] at hbytes hc
    refine ⟨UInt64.ofNat (hidden.toNat * size.toNat), ?_, ?_⟩
    · rw [mul_eq_some, UInt32.toNat_toUInt64, UInt32.toNat_toUInt64, UInt64.toNat_ofNat',
        Nat.mod_eq_of_lt hfits]
    · rw [mul_eq_some, UInt64.toNat_ofNat', Nat.mod_eq_of_lt hfits, ← hc, ← hbytes, Nat.mul_assoc]
  · intro h
    obtain ⟨rowBytes, hrow, hc⟩ := h
    rw [mul_eq_some, UInt32.toNat_toUInt64, UInt32.toNat_toUInt64] at hrow
    rw [mul_eq_some, ← hrow, ← Nat.mul_assoc] at hc
    -- the first product is no larger than both
    have hlt : rows.toNat * hidden.toNat < 2 ^ 64 :=
      (Nat.le_mul_of_pos_right _ hpos).trans_lt (hc ▸ c.toNat_lt)
    refine ⟨UInt64.ofNat (rows.toNat * hidden.toNat), ?_, ?_⟩
    · rw [checkedMulU64ByU32_eq_some, UInt64.toNat_ofNat', Nat.mod_eq_of_lt hlt]
    · rw [checkedMulU64ByU32_eq_some, UInt64.toNat_ofNat', Nat.mod_eq_of_lt hlt, hc]

/-- The words of the byte range are the same when the rows are. -/
theorem deviceReadyRange_eq (hdtype : config.partialDtype = .fp32)
    (hslot : ready.ringSlot = plan.ringSlot) :
    deviceReadyRange ready registration (.of registration config plan) ready.rowCount.toUInt64
      = combineReadyRange ready registration config := by
  have hrows : ¬ 0xffffffff < ready.rowCount.toUInt64 := by
    rw [UInt64.lt_iff_toNat_lt, UInt32.toNat_toUInt64]
    have hlt := ready.rowCount.toNat_lt
    show ¬ 0xffffffff < ready.rowCount.toNat
    omega
  have hhidden := config.hidden.toNat_lt
  have hproduct : (checkedMulU64ByU32 ready.rowCount.toUInt64 config.hidden).bind
      (fun bytes => checkedMulU64ByU32 bytes 4) =
      (mul config.hidden.toUInt64 (4 : UInt32).toUInt64).bind fun rowBytes =>
        mul ready.rowCount.toUInt64 rowBytes :=
    checkedMul_bind (by decide) (by show config.hidden.toNat * 4 < 2 ^ 64; omega)
  have hbytes : (partialBytes config.partialDtype).toUInt64 = (4 : UInt32).toUInt64 := by
    rw [hdtype]
    rfl
  have hbase : checkedMulU64ByU32 registration.slotStride plan.ringSlot.toUInt32
      = mul ready.ringSlot.toUInt64 registration.slotStride := by
    rw [checkedMulU64ByU32_eq_mul, hslot]
    rfl
  unfold deviceReadyRange combineReadyRange ReadyLaunch.of
  rw [if_neg hrows, hbytes]
  simp only [Option.bind_eq_bind, addU64_eq_add, hbase]
  rw [← Option.bind_assoc, hproduct, Option.bind_assoc]

/-- The rows of a source are the difference of its offsets. -/
theorem source_offsets_of_buildPlan (hplan : buildPlan dispatch config = .ok plan) {s : ℕ}
    (hs : s < config.workerCount.toNat) :
    ∃ first last rows, plan.sourceOffsets[s]? = some first ∧
      plan.sourceOffsets[s + 1]? = some last ∧ plan.sourceRowCounts[s]? = some rows ∧
      last - first = rows.toUInt64 := by
  obtain ⟨hadmissible, rfl⟩ := (buildPlan_ends dispatch config).of_ok hplan
  have hpulls := hadmissible.pulls_le
  have hrows := congrArg List.length hadmissible.rows_eq
  rw [List.length_map] at hrows
  have hbelow := length_grid_add_le (f := dispatch.rowCount) hs
  have hoffset : ∀ i ≤ config.workerCount.toNat, (planOf dispatch config).sourceOffsets[i]?
      = some (UInt64.ofNat (grid i dispatch.rowCount).length) := fun i hi => getElem?_offsetsOf hi
  have hcount : (planOf dispatch config).sourceRowCounts[s]?
      = some (UInt32.ofNat (dispatch.rowCount s)) := by
    show (rowCountsOf _ _ _)[s]? = _
    rw [rowCountsOf, getElem?_tableOf hs, if_pos hs]
  refine ⟨_, _, _, hoffset s hs.le, hoffset (s + 1) hs, hcount, ?_⟩
  rw [length_grid_succ]
  apply UInt64.toNat_inj.mp
  rw [UInt64.toNat_sub_of_le, UInt64.toNat_ofNat', UInt64.toNat_ofNat', UInt32.toNat_toUInt64,
    UInt32.toNat_ofNat', Nat.mod_eq_of_lt (by omega), Nat.mod_eq_of_lt (by omega),
    Nat.mod_eq_of_lt (by omega)]
  · omega
  · rw [UInt64.le_iff_toNat_le, UInt64.toNat_ofNat', UInt64.toNat_ofNat',
      Nat.mod_eq_of_lt (by omega), Nat.mod_eq_of_lt (by omega)]
    omega

/-- The READY is in order up to its row count, which is not the one of the plan. -/
def WrongRowCount (ready : CombineReadyV2) (registration : CombineRegionRegistration)
    (config : CombineV2Config) (plan : CombinePullPlan) : Prop :=
  combineReadyAccepted ready registration config plan ∧
    ready.dispatchCookie = plan.dispatchCookie ∧
    (ready.generation = plan.generation ∧ ready.sequence = plan.sequence ∧
      ready.wave = plan.wave ∧ ready.ringSlot = plan.ringSlot) ∧
    plan.sourceRowCounts[ready.sourceRank.toNat]? ≠ some ready.rowCount

instance : Decidable (WrongRowCount ready registration config plan) :=
  inferInstanceAs (Decidable (_ ∧ _))

/-- The checks of the device behind the three tests, with the row count of the plan at hand. -/
theorem validateReadyRows_eq {rows : UInt32} {first last : UInt64}
    (hsource : registration.sourceRank < config.workerCount)
    (hworkers : config.workerCount ≤ kPullDispatchMaxWorkers)
    (hfirst : plan.sourceOffsets[registration.sourceRank.toNat]? = some first)
    (hlast : plan.sourceOffsets[registration.sourceRank.toNat + 1]? = some last)
    (hrows : last - first = rows.toUInt64) :
    validateReadyRows ready registration plan.sourceOffsets (.of registration config plan)
      = orFail (deviceReadyRange ready registration (.of registration config plan) rows.toUInt64)
          .sizeOverflow "" >>= fun (expectedBytes, slotBase, slotEnd, payloadEnd) =>
        ensure (ready.rowCount = rows ∧ ready.payloadBytes = expectedBytes ∧
          ready.sourceOffset % registration.alignment.toUInt64 = 0 ∧
          slotBase ≤ ready.sourceOffset ∧ payloadEnd ≤ slotEnd ∧
          payloadEnd ≤ registration.regionBytes) .capacityExceeded := by
  have hnext : (registration.sourceRank + 1).toNat = registration.sourceRank.toNat + 1 := by
    rw [UInt32.lt_iff_toNat_lt] at hsource
    rw [UInt32.le_iff_toNat_le] at hworkers
    have hmax : kPullDispatchMaxWorkers.toNat = 128 := rfl
    rw [UInt32.toNat_add, UInt32.toNat_one, Nat.mod_eq_of_lt (by omega)]
  have hword : ready.rowCount.toUInt64 = rows.toUInt64 ↔ ready.rowCount = rows := by
    rw [← UInt64.toNat_inj, UInt32.toNat_toUInt64, UInt32.toNat_toUInt64, UInt32.toNat_inj]
  unfold validateReadyRows
  have hnext' : ((ReadyLaunch.of registration config plan).source + 1).toNat
      = registration.sourceRank.toNat + 1 := hnext
  rw [hnext', read_of hlast, ok_bind]
  show (Exec.read plan.sourceOffsets registration.sourceRank.toNat >>= _) = _
  rw [read_of hfirst, ok_bind]
  simp only [hrows, hword]

variable (ready) in
/-- How the two validators end: both accept, both reject with one value, or they disagree on a row
count the plan does not have. -/
theorem ready_cases (hregistration : validateCombineRegistration registration config = .ok ())
    (hdtype : config.partialDtype = .fp32) (hplan : buildPlan dispatch config = .ok plan) :
    (validateReady ready registration plan.sourceOffsets (.of registration config plan) = .ok () ∧
      validateCombineReady ready registration config plan = .ok () ∧
      ¬ WrongRowCount ready registration config plan) ∨
    (∃ status status' message,
      validateReady ready registration plan.sourceOffsets (.of registration config plan)
        = .error (.fail status "") ∧
      validateCombineReady ready registration config plan = .error (.fail status' message) ∧
      status.toUInt32 = status'.toUInt32 ∧ ¬ WrongRowCount ready registration config plan) ∨
    (∃ status message,
      validateReady ready registration plan.sourceOffsets (.of registration config plan)
        = .error (.fail status "") ∧
      validateCombineReady ready registration config plan
        = .error (.fail .invalidReady message) ∧
      (status = .sizeOverflow ∨ status = .capacityExceeded) ∧
      WrongRowCount ready registration config plan) := by
  have hworkers : plan.workerCount = config.workerCount := by
    obtain ⟨-, rfl⟩ := (buildPlan_ends dispatch config).of_ok hplan
    rfl
  have htest : deviceReadyAccepted ready registration (.of registration config plan) ↔
      combineReadyAccepted ready registration config plan :=
    deviceReadyAccepted_iff hdtype hworkers
  unfold validateCombineReady
  rw [hregistration, ok_bind]
  have hdevice : validateReady ready registration plan.sourceOffsets (.of registration config plan)
      = (do
        require (deviceReadyAccepted ready registration (.of registration config plan))
          .invalidReady ""
        require (ready.dispatchCookie = plan.dispatchCookie) .cookieMismatch ""
        require (ready.generation = plan.generation ∧ ready.sequence = plan.sequence ∧
          ready.wave = plan.wave ∧ ready.ringSlot = plan.ringSlot) .staleEpoch ""
        validateReadyRows ready registration plan.sourceOffsets
          (.of registration config plan)) := rfl
  rw [hdevice]
  -- the first three tests have the same statuses on both sides
  by_cases haccepted : combineReadyAccepted ready registration config plan
  swap
  · rw [require_of_not haccepted, require_of_not (htest.not.mpr haccepted)]
    exact .inr (.inl ⟨.invalidReady, .invalidReady, _, rfl, rfl, rfl, fun h => haccepted h.1⟩)
  rw [require_of haccepted, require_of (htest.mpr haccepted), ok_bind, ok_bind]
  by_cases hcookie : ready.dispatchCookie = plan.dispatchCookie
  swap
  · rw [require_of_not hcookie, require_of_not hcookie]
    exact .inr (.inl ⟨.cookieMismatch, .cookieMismatch, _, rfl, rfl, rfl,
      fun h => hcookie h.2.1⟩)
  rw [require_of hcookie, require_of hcookie, ok_bind, ok_bind]
  by_cases hepoch : ready.generation = plan.generation ∧ ready.sequence = plan.sequence ∧
      ready.wave = plan.wave ∧ ready.ringSlot = plan.ringSlot
  swap
  · rw [require_of_not hepoch, require_of_not hepoch]
    exact .inr (.inl ⟨.staleEpoch, .staleEpoch, _, rfl, rfl, rfl, fun h => hepoch h.2.2.1⟩)
  rw [require_of hepoch, require_of hepoch, ok_bind, ok_bind]
  -- now the row count of the plan
  obtain ⟨hvalid, -, -, hsource, -⟩ := require_eq_ok.mp hregistration
  have hrank : ready.sourceRank = registration.sourceRank := haccepted.2.2.2.2.2.1
  obtain ⟨first, last, rows, hfirst, hlast, hrows, hdiff⟩ :=
    source_offsets_of_buildPlan hplan (UInt32.lt_iff_toNat_lt.mp hsource)
  rw [validateReadyRows_eq hsource hvalid.2.2.2.1 hfirst hlast hdiff, hrank, read_of hrows,
    ok_bind]
  by_cases hcount : ready.rowCount = rows
  · have hright : ¬ WrongRowCount ready registration config plan := by
      intro h
      apply h.2.2.2
      rw [hrank, hrows, hcount]
    rw [require_of hcount, ok_bind, ← hcount, deviceReadyRange_eq hdtype hepoch.2.2.2]
    cases combineReadyRange ready registration config with
    | none => exact .inr (.inl ⟨.sizeOverflow, .sizeOverflow, _, rfl, rfl, rfl, hright⟩)
    | some range =>
      obtain ⟨expectedPayload, slotBase, slotEnd, payloadEnd⟩ := range
      by_cases hrange : ready.payloadBytes = expectedPayload ∧
          ready.sourceOffset % registration.alignment.toUInt64 = 0 ∧
          slotBase ≤ ready.sourceOffset ∧ payloadEnd ≤ slotEnd ∧
          payloadEnd ≤ registration.regionBytes
      · exact .inl ⟨require_of ⟨rfl, hrange⟩, require_of hrange, hright⟩
      · exact .inr (.inl ⟨.capacityExceeded, .capacityExceeded, _,
          require_of_not fun h => hrange h.2, require_of_not hrange, rfl, hright⟩)
  · have hwrong : WrongRowCount ready registration config plan := by
      refine ⟨haccepted, hcookie, hepoch, ?_⟩
      rw [hrank, hrows]
      exact fun h => hcount (Option.some.inj h).symm
    rw [require_of_not hcount]
    cases deviceReadyRange ready registration (.of registration config plan) rows.toUInt64 with
    | none => exact .inr (.inr ⟨.sizeOverflow, _, rfl, rfl, .inl rfl, hwrong⟩)
    | some range =>
      exact .inr (.inr ⟨.capacityExceeded, _, require_of_not fun h => hcount h.1, rfl, .inr rfl,
        hwrong⟩)

end Agreement

/-- For every READY, every valid registration and every plan of a session of FP32 partials, the two
validators accept the same READYs. They end with the same value, and the device in a value at all,
unless the READY is in order up to a row count that the plan does not have. -/
theorem ready_validators_agree_iff (ready : CombineReadyV2)
    (registration : CombineRegionRegistration) (config : CombineV2Config)
    (dispatch : CompiledLayout) (plan : CombinePullPlan)
    (hregistration : validateCombineRegistration registration config = .ok ())
    (hdtype : config.partialDtype = .fp32) (hplan : buildPlan dispatch config = .ok plan) :
    (validateReady ready registration plan.sourceOffsets (.of registration config plan) = .ok () ↔
      validateCombineReady ready registration config plan = .ok ()) ∧
    ((∃ status status',
      (validateReady ready registration plan.sourceOffsets
        (.of registration config plan)).statusOf .ok = some status ∧
      (validateCombineReady ready registration config plan).statusOf .ok = some status' ∧
      status.toUInt32 = status'.toUInt32) ↔ ¬ WrongRowCount ready registration config plan) := by
  rcases ready_cases ready hregistration hdtype hplan with
    ⟨hdevice, hhost, hright⟩ | ⟨status, status', message, hdevice, hhost, hvalue, hright⟩ |
    ⟨status, message, hdevice, hhost, hstatus, hwrong⟩
  · rw [hdevice, hhost]
    refine ⟨⟨fun _ => rfl, fun _ => rfl⟩, fun _ => hright, fun _ => ?_⟩
    exact ⟨.ok, .ok, rfl, rfl, rfl⟩
  · rw [hdevice, hhost]
    refine ⟨⟨?_, ?_⟩, fun _ => hright, fun _ => ⟨status, status', rfl, rfl, hvalue⟩⟩
    · intro h
      cases h
    · intro h
      cases h
  · rw [hdevice, hhost]
    refine ⟨⟨?_, ?_⟩, ?_, fun h => absurd hwrong h⟩
    · intro h
      cases h
    · intro h
      cases h
    · intro h
      obtain ⟨_, _, hdev, hst, hvalue⟩ := h
      rw [← Option.some.inj hdev, ← Option.some.inj hst] at hvalue
      rcases hstatus with rfl | rfl
      · exact absurd hvalue (by decide)
      · exact absurd hvalue (by decide)

/-! ## A wave of one token -/

/-- One token of a session of two workers, routed to both. -/
def routedWave : CompiledLayout where
  journalHeader :=
    { generation := 1, sequence := 2, dispatchCookie := 5, state := 2, tokenCount := 1,
      contributorCount := 2 }
  journalTokens := [{ contributorsCount := 2 }]
  contributors := [⟨1, 0, 0, 1⟩, ⟨0, 0, 0, 1⟩]
  destinationRows := [[{ assignmentsCount := 1 }], [{ assignmentsCount := 1 }]]
  expertAssignments := [[{}], [{}]]

/-- The plan of the sample wave. -/
def routedPlan : CombinePullPlan := planOf routedWave readySession

/-- A READY of source 1, which has one row in the wave. -/
def routedReady (rowCount : UInt32) : CombineReadyV2 :=
  let ready : CombineReadyV2 :=
    { sessionId := 7, placementEpoch := 3, generation := 1, sequence := 2, dispatchCookie := 5,
      sourceRank := 1, sourceRegionId := 9, rowCount := rowCount, hidden := 4,
      sourceOffset := 64, payloadBytes := 16 }
  { ready with publication := combineReadyPublication ready }

/-- The READY of one row is accepted on both sides. -/
theorem ready_validators_agree_one_row :
    validateReady (routedReady 1) readyRegion routedPlan.sourceOffsets
        (.of readyRegion readySession routedPlan) = .ok () ∧
      ¬ WrongRowCount (routedReady 1) readyRegion readySession routedPlan := by
  have h := ready_validators_agree_iff (routedReady 1) readyRegion readySession routedWave
    routedPlan (by decide +kernel) rfl (by decide +kernel)
  exact ⟨h.1.mpr (by decide +kernel), by decide +kernel⟩

/-- A READY of two rows: the device says capacity exceeded, the host invalid READY. -/
theorem ready_validators_differ :
    validateCombineRegistration readyRegion readySession = .ok () ∧
      readySession.partialDtype = .fp32 ∧ buildPlan routedWave readySession = .ok routedPlan ∧
      (validateReady (routedReady 2) readyRegion routedPlan.sourceOffsets
        (.of readyRegion readySession routedPlan)).statusOf .ok = some .capacityExceeded ∧
      (validateCombineReady (routedReady 2) readyRegion readySession routedPlan).statusOf .ok
        = some .invalidReady ∧
      CombineDeviceStatus.capacityExceeded.toUInt32 ≠ CombineV2Status.invalidReady.toUInt32 := by
  decide +kernel

end AscendShmem.PullV2
