import AscendShmem.PullV2.Combine
import AscendShmem.PullV2.DispatchKernel

/-!
# The journal header under a launch

What a launch of the dispatch kernel and a launch of the combine kernel do to the journal header
of their ring slot. Phase 0 of the dispatch kernel reserves the slot, `journal_identity` of the
combine kernel activates it, and block zero finalizes both. Between them the phases run only while
the status word is `kStatusOk`; of these phases the header sees what block zero writes after the
prefix.

A launch that was refused at its first step reaches the finalizing step as well. There the kernels
recognise a header as their own by the wave it names, so `rejected_launch_keeps_journal_iff` turns
on whether the header names the wave of the refused launch.
-/

namespace AscendShmem.PullV2

open Lib

/-- `kStatus…` of the dispatch kernel. -/
def DeviceStatus.toUInt32 : DeviceStatus → UInt32
  | .ok => 0
  | .invalidArgument => 1
  | .invalidReady => 3
  | .invalidHeader => 4
  | .sizeOverflow => 6
  | .capacityExceeded => 7
  | .digestMismatch => 8
  | .invalidToken => 9
  | .invalidAssignment => 10
  | .invalidState => 12
  | .readyTimeout => 13

/-! ## Dispatch -/

/-- The identity test of a header that is not blank, and the three states a wave may take over. -/
def journalReservable (header : JournalSlotHeader) : Prop :=
  header.magic = 0 ∨
    header.magic = kPullDispatchMagic ∧ header.abiVersion = kPullDispatchAbiVersion ∧
      header.structBytes = 64 ∧
      (header.state = JournalSlotState.free.toUInt16 ∨
        header.state = JournalSlotState.complete.toUInt16 ∨
        header.state = JournalSlotState.aborted.toUInt16)

instance (header : JournalSlotHeader) : Decidable (journalReservable header) :=
  inferInstanceAs (Decidable (_ ∨ _))

/-- Phase 0: the status word and the header. -/
def reserveJournal (launch : DispatchLaunch) (header : JournalSlotHeader) :
    DeviceStatus × JournalSlotHeader :=
  if journalReservable header then
    (.ok,
      { magic := kPullDispatchMagic
        abiVersion := kPullDispatchAbiVersion
        structBytes := 64
        generation := launch.generation
        sequence := launch.sequence
        dispatchCookie := 0
        wave := launch.wave
        ringSlot := launch.ringSlot.toUInt16
        state := JournalSlotState.dispatchOpen.toUInt16
        tokenCount := 0
        contributorCount := 0
        status := 0
        flags := 0
        reserved := 0 })
  else (.invalidState, header)

/-- The header fields block zero fills in once the prefix has gone through. -/
structure PlannedHeader where
  tokenCount : UInt32
  contributorCount : UInt32
  cookie : UInt64
  uniform : Bool

/-- What the phases between reservation and finalization come to: the plan, if the prefix went
through, and the status word at the end. -/
structure DispatchPhases where
  planned : Option PlannedHeader
  status : DeviceStatus

/-- Block zero's last writes of the prefix phase. -/
def recordPlan (header : JournalSlotHeader) (planned : PlannedHeader) : JournalSlotHeader :=
  { header with
    tokenCount := planned.tokenCount
    contributorCount := planned.contributorCount
    dispatchCookie := if planned.cookie = 0 then 1 else planned.cookie
    flags := if planned.uniform then kJournalFlagUniformDestinations else 0 }

/-- The ownership test of the finalizing step: the header names the wave of the launch. -/
def DispatchLaunch.NamedBy (launch : DispatchLaunch) (header : JournalSlotHeader) : Prop :=
  header.magic = kPullDispatchMagic ∧ header.generation = launch.generation ∧
    header.sequence = launch.sequence

instance (launch : DispatchLaunch) (header : JournalSlotHeader) :
    Decidable (launch.NamedBy header) := inferInstanceAs (Decidable (_ ∧ _))

/-- Block zero's last phase. -/
def finalizeDispatchJournal (launch : DispatchLaunch) (status : DeviceStatus)
    (header : JournalSlotHeader) : JournalSlotHeader :=
  if status = .ok then
    { header with
      status := DeviceStatus.ok.toUInt32
      state := JournalSlotState.dispatchSealed.toUInt16 }
  else if launch.NamedBy header then
    { header with
      status := status.toUInt32
      state := JournalSlotState.aborted.toUInt16 }
  else header

/-- The journal header behind a launch of `inc_dc_pull_dispatch_v2_device_kernel` on processing
element `pe`. -/
def dispatchKernelJournal (launch : DispatchLaunch) (pe : ℤ)
    (phases : JournalSlotHeader → DispatchPhases) (header : JournalSlotHeader) :
    JournalSlotHeader :=
  if launch.Valid ∧ pe = launch.incPe then
    let (status, header) := reserveJournal launch header
    if status = .ok then
      let outcome := phases header
      finalizeDispatchJournal launch outcome.status
        (outcome.planned.elim header (recordPlan header))
    else finalizeDispatchJournal launch status header
  else header

/-! ## Combine -/

/-- The status values of the combine kernel. -/
inductive CombineDeviceStatus where
  | ok
  | invalidArgument
  | invalidJournal
  | invalidRegistration
  | invalidReady
  | cookieMismatch
  | staleEpoch
  | sizeOverflow
  | capacityExceeded
  | duplicateSource
  | notReady
  | invalidState
deriving DecidableEq, Repr

/-- `kStatus…` of the combine kernel. -/
def CombineDeviceStatus.toUInt32 : CombineDeviceStatus → UInt32
  | .ok => 0
  | .invalidArgument => 1
  | .invalidJournal => 2
  | .invalidRegistration => 3
  | .invalidReady => 4
  | .cookieMismatch => 5
  | .staleEpoch => 6
  | .sizeOverflow => 7
  | .capacityExceeded => 8
  | .duplicateSource => 9
  | .notReady => 10
  | .invalidState => 11

/-- `kTileElements` -/
def kTileElements : UInt64 := 2048

/-- The combine kernel's arguments that are not addresses, and its number of blocks. -/
structure CombineLaunch where
  blocks : UInt32
  sessionId : UInt64
  placementEpoch : UInt64
  generation : UInt64
  sequence : UInt64
  dispatchCookie : UInt64
  ownerOutputSlotStride : UInt64
  pullCount : UInt64
  resultCount : UInt64
  pullIndexCapacity : UInt64
  accumulatorIndexCapacity : UInt64
  sourceScratchCapacity : UInt64
  accumulatorCount : UInt32
  workerCount : UInt32
  hidden : UInt32
  partialDtype : UInt32
  incPe : ℤ
  wave : UInt32
  ringSlot : UInt32
  slotCount : UInt32
  spinCap : UInt64

namespace CombineLaunch

variable (launch : CombineLaunch)

/-- `tiles_per_row` -/
def tilesPerRow : UInt64 :=
  if launch.hidden = 0 then 0
  else (launch.hidden.toUInt64 + kTileElements - 1) / kTileElements

/-- `launch_valid` of the combine kernel. -/
@[mk_iff] structure Valid : Prop where
  blocks : launch.blocks ≠ 0
  workers : 2 ≤ launch.workerCount ∧ launch.workerCount ≤ kPullDispatchMaxWorkers
  place : launch.incPe = launch.workerCount.toNat
  epoch : launch.sessionId ≠ 0 ∧ launch.placementEpoch ≠ 0 ∧ launch.generation ≠ 0 ∧
    launch.sequence ≠ 0 ∧ launch.dispatchCookie ≠ 0
  shape : launch.hidden ≠ 0 ∧ launch.partialDtype = PartialDataType.fp32.toUInt32
  slot : launch.ringSlot < launch.slotCount ∧ launch.slotCount ≠ 0
  spinCap : launch.spinCap ≠ 0
  counts : launch.pullCount ≤ 0xffffffff ∧ launch.resultCount ≤ 0xffffffff ∧
    launch.resultCount = launch.accumulatorCount.toUInt64
  capacities : launch.pullCount ≤ launch.pullIndexCapacity ∧
    launch.accumulatorCount.toUInt64 ≤ launch.accumulatorIndexCapacity ∧
    launch.workerCount.toUInt64 ≤ launch.sourceScratchCapacity
  rowBytes : (checkedMulU64ByU32 4 launch.hidden).isSome = true
  outputSlot : (checkedMulU64ByU32 launch.ownerOutputSlotStride launch.ringSlot).isSome = true
  tasks : (checkedMulU64ByU32 launch.tilesPerRow launch.accumulatorCount).isSome = true

instance : Decidable launch.Valid := decidable_of_iff' _ (valid_iff launch)

/-- `journal_identity` -/
def JournalIdentity (header : JournalSlotHeader) : Prop :=
  header.magic = kPullDispatchMagic ∧ header.abiVersion = kPullDispatchAbiVersion ∧
    header.structBytes = 64 ∧ header.generation = launch.generation ∧
    header.sequence = launch.sequence ∧ header.dispatchCookie = launch.dispatchCookie ∧
    header.wave = launch.wave ∧ header.ringSlot.toUInt32 = launch.ringSlot ∧
    header.state = JournalSlotState.dispatchSealed.toUInt16 ∧
    header.tokenCount = launch.accumulatorCount ∧
    header.contributorCount.toUInt64 = launch.pullCount ∧ header.status = 0 ∧
    header.flags &&& ~~~kJournalFlagDenseAllDestinations = 0 ∧ header.reserved = 0

instance (header : JournalSlotHeader) : Decidable (launch.JournalIdentity header) :=
  inferInstanceAs (Decidable (_ ∧ _))

/-- The ownership test of `finalize`: an active journal of the wave and cookie of the launch. -/
def NamedBy (header : JournalSlotHeader) : Prop :=
  header.magic = kPullDispatchMagic ∧ header.generation = launch.generation ∧
    header.sequence = launch.sequence ∧ header.dispatchCookie = launch.dispatchCookie ∧
    header.state = JournalSlotState.combineActive.toUInt16

instance (header : JournalSlotHeader) : Decidable (launch.NamedBy header) :=
  inferInstanceAs (Decidable (_ ∧ _))

end CombineLaunch

/-- The status word and the header at the first barrier of the combine kernel, as far as the
journal header decides them. -/
def activateJournal (launch : CombineLaunch) (header : JournalSlotHeader) :
    CombineDeviceStatus × JournalSlotHeader :=
  if launch.Valid then
    if launch.JournalIdentity header then
      (.ok, { header with state := JournalSlotState.combineActive.toUInt16 })
    else (.invalidJournal, header)
  else (.invalidArgument, header)

/-- `finalize`: the status word and the header. -/
def finalizeCombineJournal (launch : CombineLaunch) (status : CombineDeviceStatus)
    (header : JournalSlotHeader) : CombineDeviceStatus × JournalSlotHeader :=
  if launch.NamedBy header then
    (status,
      { header with
        status := status.toUInt32
        state := if status = .ok then JournalSlotState.complete.toUInt16
          else JournalSlotState.aborted.toUInt16 })
  else if status = .ok then (.invalidState, header)
  else (status, header)

/-- The journal header behind a launch of `inc_dc_pull_combine_v2_device_kernel` on processing
element `pe`; `phases` is the status the index checks and the reduction come to. -/
def combineKernelJournal (launch : CombineLaunch) (pe : ℤ) (phases : CombineDeviceStatus)
    (header : JournalSlotHeader) : JournalSlotHeader :=
  if pe = launch.incPe then
    let (status, header) := activateJournal launch header
    (finalizeCombineJournal launch (if status = .ok then phases else status) header).2
  else header

/-! ## Refused launches -/

/-- Phase 0 of the dispatch kernel refuses the launch. -/
def DispatchLaunch.Refused (launch : DispatchLaunch) (header : JournalSlotHeader) : Prop :=
  launch.Valid ∧ ¬ journalReservable header

/-- `launch_valid` or `journal_identity` refuses the launch. -/
def CombineLaunch.Refused (launch : CombineLaunch) (header : JournalSlotHeader) : Prop :=
  ¬ (launch.Valid ∧ launch.JournalIdentity header)

instance (launch : DispatchLaunch) (header : JournalSlotHeader) :
    Decidable (launch.Refused header) := inferInstanceAs (Decidable (_ ∧ _))

instance (launch : CombineLaunch) (header : JournalSlotHeader) :
    Decidable (launch.Refused header) := inferInstanceAs (Decidable (¬ _))

/-- An aborted header with status `kStatusInvalidState`: what the finalizing step writes after a
refusal. -/
def JournalSlotHeader.Refusal (header : JournalSlotHeader) : Prop :=
  header.status = DeviceStatus.invalidState.toUInt32 ∧
    header.state = JournalSlotState.aborted.toUInt16

theorem reserveJournal_refused {launch : DispatchLaunch} {header : JournalSlotHeader}
    (h : ¬ journalReservable header) : reserveJournal launch header = (.invalidState, header) :=
  if_neg h

/-- A failed launch changes status and state, and only of a header that names its wave. -/
theorem finalizeDispatchJournal_failed {launch : DispatchLaunch} {status : DeviceStatus}
    (hstatus : status ≠ .ok) (header : JournalSlotHeader) :
    finalizeDispatchJournal launch status header = header ↔
      (launch.NamedBy header → header.status = status.toUInt32 ∧
        header.state = JournalSlotState.aborted.toUInt16) := by
  unfold finalizeDispatchJournal
  rw [if_neg hstatus]
  by_cases hnamed : launch.NamedBy header
  · rw [if_pos hnamed]
    constructor
    · intro heq _
      exact ⟨(congrArg JournalSlotHeader.status heq).symm,
        (congrArg JournalSlotHeader.state heq).symm⟩
    · intro h
      obtain ⟨hs, ht⟩ := h hnamed
      rw [← hs, ← ht]
  · rw [if_neg hnamed]
    exact ⟨fun _ h => absurd h hnamed, fun _ => rfl⟩

/-- A failed launch moves an active journal of its own wave and leaves every other header. -/
theorem finalizeCombineJournal_failed {launch : CombineLaunch} {status : CombineDeviceStatus}
    (hstatus : status ≠ .ok) (header : JournalSlotHeader) :
    (finalizeCombineJournal launch status header).2 = header ↔ ¬ launch.NamedBy header := by
  unfold finalizeCombineJournal
  by_cases hnamed : launch.NamedBy header
  · rw [if_pos hnamed, if_neg hstatus]
    -- the header was active and is aborted now
    have hstate : header.state = JournalSlotState.combineActive.toUInt16 := hnamed.2.2.2.2
    constructor
    · intro heq
      have : JournalSlotState.aborted.toUInt16 = header.state := congrArg JournalSlotHeader.state heq
      rw [hstate] at this
      exact absurd this (by decide)
    · intro h
      exact absurd hnamed h
  · rw [if_neg hnamed, if_neg hstatus]
    exact ⟨fun _ => hnamed, fun _ => rfl⟩

/-- A refused launch does not activate the journal. -/
theorem activateJournal_refused {launch : CombineLaunch} {header : JournalSlotHeader}
    (h : launch.Refused header) :
    (activateJournal launch header).1 ≠ .ok ∧ (activateJournal launch header).2 = header := by
  unfold activateJournal
  by_cases hvalid : launch.Valid
  · rw [if_pos hvalid, if_neg fun hidentity => h ⟨hvalid, hidentity⟩]
    exact ⟨nofun, rfl⟩
  · rw [if_neg hvalid]
    exact ⟨nofun, rfl⟩

/-- The journal survives a refused launch exactly when it is not of the wave of that launch. -/
theorem rejected_launch_keeps_journal_iff (header : JournalSlotHeader) :
    (∀ (launch : DispatchLaunch) (phases : JournalSlotHeader → DispatchPhases),
      launch.Refused header →
        (dispatchKernelJournal launch launch.incPe phases header = header ↔
          ¬ launch.NamedBy header ∨ header.Refusal)) ∧
    ∀ (launch : CombineLaunch) (phases : CombineDeviceStatus), launch.Refused header →
      (combineKernelJournal launch launch.incPe phases header = header ↔
        ¬ launch.NamedBy header) := by
  constructor
  · intro launch phases hrefused
    obtain ⟨hvalid, hnot⟩ := hrefused
    have hend : dispatchKernelJournal launch launch.incPe phases header
        = finalizeDispatchJournal launch .invalidState header := by
      unfold dispatchKernelJournal
      rw [if_pos ⟨hvalid, rfl⟩, reserveJournal_refused hnot]
      rfl
    rw [hend, finalizeDispatchJournal_failed (by decide), ← imp_iff_not_or]
    rfl
  · intro launch phases hrefused
    obtain ⟨hstatus, hheader⟩ := activateJournal_refused hrefused
    have hend : combineKernelJournal launch launch.incPe phases header
        = (finalizeCombineJournal launch (activateJournal launch header).1 header).2 := by
      unfold combineKernelJournal
      rw [if_pos rfl]
      dsimp only
      rw [if_neg hstatus, hheader]
    rw [hend, finalizeCombineJournal_failed hstatus]

/-- The combine launch of the wave of `sampleLaunch`. -/
def sampleCombineLaunch : CombineLaunch where
  blocks := 4
  sessionId := 1
  placementEpoch := 1
  generation := 1
  sequence := 1
  dispatchCookie := 7
  ownerOutputSlotStride := 64
  pullCount := 1
  resultCount := 1
  pullIndexCapacity := 16
  accumulatorIndexCapacity := 16
  sourceScratchCapacity := 2
  accumulatorCount := 1
  workerCount := 2
  hidden := 16
  partialDtype := 2
  incPe := 2
  wave := 1
  ringSlot := 0
  slotCount := 2
  spinCap := 1

/-- The journal that wave has sealed, one token with one contributor. -/
def sampleJournal (state : JournalSlotState) (sequence : UInt64) : JournalSlotHeader :=
  { generation := 1
    sequence := sequence
    dispatchCookie := 7
    wave := 1
    state := state.toUInt16
    tokenCount := 1
    contributorCount := 1 }

/-- Refused launches of wave 1 find the journal of wave 2 and leave it. -/
theorem rejected_launch_keeps_journal_iff_other :
    (∀ phases, dispatchKernelJournal sampleLaunch sampleLaunch.incPe phases
      (sampleJournal .dispatchSealed 2) = sampleJournal .dispatchSealed 2) ∧
    ∀ phases, combineKernelJournal sampleCombineLaunch sampleCombineLaunch.incPe phases
      (sampleJournal .dispatchSealed 2) = sampleJournal .dispatchSealed 2 := by
  have h := rejected_launch_keeps_journal_iff (sampleJournal .dispatchSealed 2)
  constructor
  · intro phases
    exact (h.1 sampleLaunch phases (by decide +kernel)).mpr (Or.inl (by decide +kernel))
  · intro phases
    exact (h.2 sampleCombineLaunch phases (by decide +kernel)).mpr (by decide +kernel)

/-- A second launch of a sealed wave, and of an active one, is refused and aborts the journal; so is
a combine launch of an active wave whose arguments are not valid. -/
theorem relaunch_aborts_journal :
    (sampleLaunch.Refused (sampleJournal .dispatchSealed 1) ∧
      ∀ phases, (dispatchKernelJournal sampleLaunch sampleLaunch.incPe phases
        (sampleJournal .dispatchSealed 1)).state = JournalSlotState.aborted.toUInt16) ∧
    sampleLaunch.Refused (sampleJournal .combineActive 1) ∧
      (∀ phases, (dispatchKernelJournal sampleLaunch sampleLaunch.incPe phases
        (sampleJournal .combineActive 1)).state = JournalSlotState.aborted.toUInt16) ∧
    sampleCombineLaunch.Refused (sampleJournal .combineActive 1) ∧
      (∀ phases, (combineKernelJournal sampleCombineLaunch sampleCombineLaunch.incPe phases
        (sampleJournal .combineActive 1)).state = JournalSlotState.aborted.toUInt16) ∧
    ∀ phases, (combineKernelJournal { sampleCombineLaunch with spinCap := 0 }
        sampleCombineLaunch.incPe phases (sampleJournal .combineActive 1)).state
      = JournalSlotState.aborted.toUInt16 := by
  have hvalid : sampleLaunch.Valid := by decide +kernel
  have hcombine : sampleCombineLaunch.Valid := by decide +kernel
  have hinvalid : ¬ { sampleCombineLaunch with spinCap := 0 }.Valid := by decide +kernel
  refine ⟨⟨by decide +kernel, fun phases => ?_⟩, by decide +kernel, fun phases => ?_,
    by decide +kernel, fun phases => ?_, fun phases => ?_⟩
  · unfold dispatchKernelJournal
    rw [if_pos ⟨hvalid, rfl⟩]
    rfl
  · unfold dispatchKernelJournal
    rw [if_pos ⟨hvalid, rfl⟩]
    rfl
  · unfold combineKernelJournal activateJournal
    rw [if_pos rfl, if_pos hcombine]
    rfl
  · unfold combineKernelJournal activateJournal
    rw [if_pos rfl, if_neg hinvalid]
    rfl

end AscendShmem.PullV2
