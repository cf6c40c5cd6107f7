import AscendShmem.Lib.Flags
import AscendShmem.PullV2.CombineReady
import AscendShmem.PullV2.ReductionChains

/-!
# The combine coordinator

`TransitionJournal` of `inc_dc_pull_dispatch_v2.cpp` and the class `CombineV2Coordinator` of
`inc_dc_pull_combine_v2.cpp`. A coordinator is armed once for the journal of a layout, takes one
READY of each source and then completes or aborts the wave; the state of the wave is the `state`
field of the journal header, which the coordinator reads back before every step.

A run is any sequence of calls. In between, the rest of the program may compile layouts anew, but
it leaves the header of the armed journal alone. `CoordinatorSafe` says what holds after every run.
-/

namespace AscendShmem.PullV2

open Lib Lib.Exec

/-! ## The journal header -/

/-- `ValidJournalTransition` -/
def validJournalTransition (source target : JournalSlotState) : Prop :=
  match source with
  | .free => target = .dispatchOpen
  | .dispatchOpen => target = .dispatchSealed ∨ target = .aborted
  | .dispatchSealed => target = .combineActive ∨ target = .aborted
  | .combineActive => target = .complete ∨ target = .aborted
  | .complete => target = .free
  | .aborted => target = .free

instance (source target : JournalSlotState) : Decidable (validJournalTransition source target) := by
  unfold validJournalTransition
  cases source <;> infer_instance

/-- A header of this ABI. -/
def headerCurrent (header : JournalSlotHeader) : Prop :=
  header.magic = kPullDispatchMagic ∧ header.abiVersion = kPullDispatchAbiVersion ∧
    header.structBytes = 64

instance (header : JournalSlotHeader) : Decidable (headerCurrent header) :=
  inferInstanceAs (Decidable (_ ∧ _))

/-- How the call ends, and the header behind it. -/
def transitionJournal (header : JournalSlotHeader) (target : JournalSlotState) :
    Exec Status Unit × JournalSlotHeader :=
  if headerCurrent header then
    -- a number that names no state has no successor
    if (JournalSlotState.ofUInt16 header.state).any (validJournalTransition · target) then
      (.ok (), { header with state := target.toUInt16 })
    else (fail .invalidStateTransition "invalid journal state transition", header)
  else (fail .invalidArgument "invalid journal header", header)

/-! ## The coordinator -/

/-- `dispatch` is an address, `none` the null pointer. -/
structure CombineV2Coordinator where
  dispatch : Option ℕ := none
  config : CombineV2Config := {}
  plan : CombinePullPlan := {}
  registrations : List CombineRegionRegistration := []
  readySeen : List Bool := []
  readyCount : UInt32 := 0
deriving DecidableEq, Repr

/-- A coordinator, and the layouts its caller has at the addresses. -/
structure CombineWorld where
  coordinator : CombineV2Coordinator := {}
  layouts : ℕ → CompiledLayout

/-- `by_rank` and `seen` of `Initialize`. -/
structure InstallState where
  byRank : List CombineRegionRegistration
  seen : List Bool
deriving DecidableEq, Repr

/-- The body of the loop over the registrations. -/
def installRegistration (config : CombineV2Config) (st : InstallState)
    (registration : CombineRegionRegistration) : Exec CombineV2Status InstallState := do
  validateCombineRegistration registration config
  let seen ← read st.seen registration.sourceRank.toNat
  require (seen = false) .duplicateSource "duplicate Combine region registration"
  let seen ← write st.seen registration.sourceRank.toNat true
  let byRank ← write st.byRank registration.sourceRank.toNat registration
  .ok ⟨byRank, seen⟩

/-- What `Initialize` builds before it touches the journal: the plan and the registrations by
rank. -/
def prepareCombine (dispatch : CompiledLayout) (config : CombineV2Config)
    (registrations : List CombineRegionRegistration) :
    Exec CombineV2Status (CombinePullPlan × List CombineRegionRegistration) := do
  require (combineConfigValid config ∧ registrations.length = config.workerCount.toNat)
    .invalidArgument "invalid Combine coordinator initialization"
  let compiled := compileCombinePullPlan dispatch config (some {})
  compiled.1
  let workers := config.workerCount.toNat
  let installed ← registrations.foldlM (installRegistration config)
    ⟨List.replicate workers {}, List.replicate workers false⟩
  .ok (compiled.2.getD {}, installed.byRank)

namespace CombineWorld

variable (w : CombineWorld)

/-- `state()`. -/
def state : Option JournalSlotState :=
  match w.coordinator.dispatch with
  | none => some .free
  | some address => JournalSlotState.ofUInt16 (w.layouts address).journalHeader.state

/-- `all_ready()`. -/
def allReady : Prop :=
  w.coordinator.dispatch ≠ none ∧ w.coordinator.readyCount = w.coordinator.config.workerCount

instance : Decidable w.allReady := inferInstanceAs (Decidable (_ ∧ _))

/-- The world with another header at an address. -/
def setHeader (address : ℕ) (header : JournalSlotHeader) : CombineWorld :=
  { w with
    layouts := Function.update w.layouts address
      { w.layouts address with journalHeader := header } }

/-- `TransitionJournal` on the header of a layout. -/
def transition (address : ℕ) (target : JournalSlotState) : Exec Status Unit × CombineWorld :=
  let (outcome, header) := transitionJournal (w.layouts address).journalHeader target
  (outcome, w.setHeader address header)

/-- `InitializeWave` -/
def initializeWave (dispatch : Option ℕ) (config : CombineV2Config)
    (registrations : List CombineRegionRegistration) : Exec CombineV2Status Unit × CombineWorld :=
  match w.coordinator.dispatch, dispatch with
  | none, some address =>
    match prepareCombine (w.layouts address) config registrations with
    | .error stop => (.error stop, w)
    | .ok (built, byRank) =>
      match w.transition address .combineActive with
      | (.error _, w') => (fail .invalidStateTransition "journal cannot enter COMBINE_ACTIVE", w')
      | (.ok (), w') =>
        (.ok (),
          { w' with
            coordinator :=
              { dispatch := some address
                config := config
                plan := built
                registrations := byRank
                readySeen := List.replicate config.workerCount.toNat false
                readyCount := 0 } })
  | _, _ => (fail .invalidArgument "invalid Combine coordinator initialization", w)

/-- The coordinator behind `NotifyReady`. -/
def acceptReady (ready : CombineReadyV2) : Exec CombineV2Status CombineV2Coordinator := do
  let c := w.coordinator
  require (c.dispatch ≠ none ∧ w.state = some .combineActive) .invalidStateTransition
    "Combine wave is not active"
  require (ready.sourceRank < c.config.workerCount) .invalidReady
    "Combine READY source is out of range"
  let registration ← read c.registrations ready.sourceRank.toNat
  validateCombineReady ready registration c.config c.plan
  let seen ← read c.readySeen ready.sourceRank.toNat
  require (seen = false) .duplicateSource "worker published more than one Combine READY"
  let readySeen ← write c.readySeen ready.sourceRank.toNat true
  .ok { c with readySeen := readySeen, readyCount := c.readyCount + 1 }

/-- `NotifyReady` -/
def notifyReady (ready : CombineReadyV2) : Exec CombineV2Status Unit × CombineWorld :=
  match w.acceptReady ready with
  | .error stop => (.error stop, w)
  | .ok c => (.ok (), { w with coordinator := c })

/-- `Finish` -/
def finish : Exec CombineV2Status Unit × CombineWorld :=
  match w.coordinator.dispatch with
  | none => (fail .invalidStateTransition "Combine wave is not active", w)
  | some address =>
    if w.state ≠ some .combineActive then
      (fail .invalidStateTransition "Combine wave is not active", w)
    else if ¬ w.allReady then (fail .notReady "not every B has published Combine READY", w)
    else
      match w.transition address .complete with
      | (.error _, w') => (fail .invalidStateTransition "journal cannot enter COMPLETE", w')
      | (.ok (), w') => (.ok (), w')

/-- An abort that goes through reports `ABORTED` and clears the error text. -/
def abort : Exec CombineV2Status Unit × CombineWorld :=
  match w.coordinator.dispatch with
  | none => (fail .invalidStateTransition "Combine wave is not active", w)
  | some address =>
    if w.state ≠ some .combineActive then
      (fail .invalidStateTransition "Combine wave is not active", w)
    else
      match w.transition address .aborted with
      | (.error _, w') => (fail .invalidStateTransition "journal cannot enter ABORTED", w')
      | (.ok (), w') => (fail .aborted "", w')

end CombineWorld

/-! ## Runs -/

/-- A call of the coordinator. -/
inductive CoordinatorCall where
  | initializeWave (dispatch : Option ℕ) (config : CombineV2Config)
      (registrations : List CombineRegionRegistration)
  | notifyReady (ready : CombineReadyV2)
  | finish
  | abort
deriving DecidableEq, Repr

/-- What a call returns, and the world after it. -/
def CombineWorld.call (w : CombineWorld) :
    CoordinatorCall → Exec CombineV2Status Unit × CombineWorld
  | .initializeWave dispatch config registrations => w.initializeWave dispatch config registrations
  | .notifyReady ready => w.notifyReady ready
  | .finish => w.finish
  | .abort => w.abort

/-- The program has another layout at an address; the header of the armed journal stays. -/
def CombineWorld.rebuild (w : CombineWorld) (address : ℕ) (layout : CompiledLayout) :
    CombineWorld :=
  { w with
    layouts := Function.update w.layouts address
      (if w.coordinator.dispatch = some address then
        { layout with journalHeader := (w.layouts address).journalHeader }
      else layout) }

/-- A call, or another layout compiled into a journal. -/
inductive CombineEvent where
  | call (call : CoordinatorCall)
  | rebuild (address : ℕ) (layout : CompiledLayout)
deriving DecidableEq, Repr

/-- A run so far: the READYs that were answered with OK, in their order, and how often `Finish`
was. -/
structure CombineRun where
  world : CombineWorld
  accepted : List CombineReadyV2 := []
  finished : ℕ := 0

namespace CombineRun

/-- The run with what a call accepted or finished. -/
def afterCall (run : CombineRun) (call : CoordinatorCall) : CombineRun :=
  let (outcome, world) := run.world.call call
  match outcome, call with
  | .ok (), .notifyReady ready =>
    { run with world := world, accepted := run.accepted ++ [ready] }
  | .ok (), .finish => { run with world := world, finished := run.finished + 1 }
  | _, _ => { run with world := world }

/-- The run after an event. -/
def step (run : CombineRun) : CombineEvent → CombineRun
  | .call call => run.afterCall call
  | .rebuild address layout => { run with world := run.world.rebuild address layout }

/-- The READYs arrive one after the other. -/
def deliver (run : CombineRun) (readys : List CombineReadyV2) : CombineRun :=
  readys.foldl (fun run ready => run.afterCall (.notifyReady ready)) run

end CombineRun

/-- The run of a new coordinator. -/
def runEvents (layouts : ℕ → CompiledLayout) (events : List CombineEvent) : CombineRun :=
  events.foldl CombineRun.step { world := { layouts := layouts } }

/-! ## What is to hold -/

/-- A READY for the wave of a plan, with the rows the plan takes from its source. -/
structure CombineReadyV2.Matches (ready : CombineReadyV2) (plan : CombinePullPlan) : Prop where
  cookie : ready.dispatchCookie = plan.dispatchCookie
  generation : ready.generation = plan.generation
  sequence : ready.sequence = plan.sequence
  wave : ready.wave = plan.wave
  ringSlot : ready.ringSlot = plan.ringSlot
  rowCount : plan.sourceRowCounts[ready.sourceRank.toNat]? = some ready.rowCount

/-- The READY passes validation against the registration of its source. -/
def CombineV2Coordinator.Validates (c : CombineV2Coordinator) (ready : CombineReadyV2) : Prop :=
  ∃ registration, c.registrations[ready.sourceRank.toNat]? = some registration ∧
    validateCombineReady ready registration c.config c.plan = .ok ()

/-- No source has two different READYs that both pass validation. -/
def CombineV2Coordinator.NoneCompete (c : CombineV2Coordinator) (readys : List CombineReadyV2) :
    Prop :=
  ∀ a ∈ readys, ∀ b ∈ readys, c.Validates a → c.Validates b → a.sourceRank = b.sourceRank → a = b

/-- The sources of a list of READYs. -/
def sourcesOf (readys : List CombineReadyV2) : List ℕ :=
  readys.map fun ready => ready.sourceRank.toNat

/-- What holds in every reachable state. -/
structure CoordinatorSafe (run : CombineRun) : Prop where
  counted : run.world.coordinator.readyCount.toNat = run.world.coordinator.readySeen.count true
  finished_le : run.finished ≤ 1
  finish_ok : (run.world.call .finish).1 = .ok () → run.finished = 0 ∧
    ∀ source < run.world.coordinator.config.workerCount.toNat, ∃ ready,
      run.accepted.filter (fun ready => ready.sourceRank.toNat = source) = [ready] ∧
      ready.Matches run.world.coordinator.plan
  order : ∀ readys readys', List.Perm readys readys' →
    (run.deliver readys).world = (run.deliver readys').world ∧
    (sourcesOf (run.deliver readys).accepted).Perm (sourcesOf (run.deliver readys').accepted) ∧
    (run.world.coordinator.NoneCompete readys →
      (run.deliver readys).accepted.Perm (run.deliver readys').accepted)
  ended : run.world.state = some .complete ∨ run.world.state = some .aborted →
    ∀ call, (run.world.call call).2 = run.world
  failed : ∀ call status message, (run.world.call call).1 = fail status message →
    (call = .abort → status ≠ .aborted) → (run.world.call call).2 = run.world
  returns : ∀ call, (run.world.call call).1.statusOf .ok ≠ none

end AscendShmem.PullV2
