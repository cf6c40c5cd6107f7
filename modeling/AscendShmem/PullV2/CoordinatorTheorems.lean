import AscendShmem.PullV2.CombineCoordinator

/-!
# Every run of a combine coordinator is safe

`CombineRun.Inv` ties the flags and the counter of a coordinator to the READYs it has accepted, and
the state of the journal to the calls of `Finish` that went through. `call_cases` lists what a call
can do in such a run: it fails and changes nothing, arms the coordinator, takes a READY, completes
the wave or aborts it.
-/

namespace AscendShmem.PullV2

open Lib Lib.Exec

/-! ## The journal header -/

/-- A state with the wanted successor is left. -/
theorem transitionJournal_ok {header : JournalSlotHeader} {source target : JournalSlotState}
    (hcurrent : headerCurrent header)
    (hstate : JournalSlotState.ofUInt16 header.state = some source)
    (hvalid : validJournalTransition source target) :
    transitionJournal header target = (.ok (), { header with state := target.toUInt16 }) := by
  unfold transitionJournal
  rw [if_pos hcurrent, hstate, if_pos]
  simpa using hvalid

/-- A header that is canonical is one of this ABI. -/
theorem headerCanonical.current {header : JournalSlotHeader} (h : headerCanonical header) :
    headerCurrent header := ⟨h.1, h.2.1, h.2.2.1⟩

/-! ## Arming -/

/-- The vectors of an armed coordinator have one entry for each source. -/
structure CombineV2Coordinator.Sized (c : CombineV2Coordinator) : Prop where
  workers_le : c.config.workerCount.toNat ≤ 128
  plan : c.plan.workerCount = c.config.workerCount
  rowCounts : c.plan.sourceRowCounts.length = c.config.workerCount.toNat
  registrations : c.registrations.length = c.config.workerCount.toNat

theorem validateCombineRegistration_ends (registration : CombineRegionRegistration)
    (config : CombineV2Config) :
    Ends (validateCombineRegistration registration config)
      (fun _ => registration.sourceRank < config.workerCount) (fun _ => True) False :=
  Ends.require (fun h => h.2.2.2.1) fun _ => trivial

/-- One turn of the loop over the registrations. -/
theorem installRegistration_ends {config : CombineV2Config} {st : InstallState}
    (registration : CombineRegionRegistration) {n : ℕ} (hn : n = config.workerCount.toNat)
    (hst : st.byRank.length = n ∧ st.seen.length = n) :
    Ends (installRegistration config st registration)
      (fun st' => st'.byRank.length = n ∧ st'.seen.length = n) (fun _ => True) False := by
  unfold installRegistration
  refine (validateCombineRegistration_ends registration config).bind fun _ hrank => ?_
  rw [UInt32.lt_iff_toNat_lt, ← hn] at hrank
  refine Ends.bind (Ends.read (Q := fun _ => True) (fun _ _ => trivial) (by omega)) fun _ _ => ?_
  refine Ends.bind (Ends.require (Q := fun _ => True) (fun _ => trivial) fun _ => trivial)
    fun _ _ => ?_
  refine Ends.bind (Ends.write (Q := fun l => l.length = n) (fun _ => ?_) (by omega))
    fun seen hseen => ?_
  · rw [List.length_set]
    exact hst.2
  refine Ends.bind (Ends.write (Q := fun l => l.length = n) (fun _ => ?_) (by omega))
    fun byRank hbyRank => ?_
  · rw [List.length_set]
    exact hst.1
  exact ⟨hbyRank, hseen⟩

/-- What `Initialize` has built when it comes to the journal. -/
structure Prepared (dispatch : CompiledLayout) (config : CombineV2Config) (plan : CombinePullPlan)
    (byRank : List CombineRegionRegistration) : Prop where
  admissible : Admissible dispatch config
  plan_eq : plan = planOf dispatch config
  registrations : byRank.length = config.workerCount.toNat

/-- What is prepared has a good journal, plan and registrations. -/
theorem prepareCombine_ends (dispatch : CompiledLayout) (config : CombineV2Config)
    (registrations : List CombineRegionRegistration) :
    Ends (prepareCombine dispatch config registrations)
      (fun r => Prepared dispatch config r.1 r.2) (fun _ => True) False := by
  unfold prepareCombine
  refine Ends.bind (Ends.require (Q := fun _ => combineConfigValid config) And.left
    fun _ => trivial) fun _ hconfig => ?_
  refine ((compileCombinePullPlan_ends dispatch config {}).mono (fun _ => id) (fun _ _ => trivial)
    id).bind fun _ hcompiled => ?_
  refine Ends.bind (P := fun st : InstallState => st.byRank.length = config.workerCount.toNat ∧
      st.seen.length = config.workerCount.toNat)
    (Ends.foldlM (fun _ (st : InstallState) => st.byRank.length = config.workerCount.toNat ∧
      st.seen.length = config.workerCount.toNat) registrations ?_ ?_) fun st hst => ?_
  · exact ⟨List.length_replicate, List.length_replicate⟩
  · intro pre registration post st _ hst
    exact installRegistration_ends registration rfl hst
  · exact ⟨hcompiled.1, by rw [hcompiled.2]; rfl, hst.1⟩

/-- The coordinator `Initialize` leaves behind. -/
def armedCoordinator (address : ℕ) (config : CombineV2Config) (plan : CombinePullPlan)
    (byRank : List CombineRegionRegistration) : CombineV2Coordinator :=
  { dispatch := some address
    config := config
    plan := plan
    registrations := byRank
    readySeen := List.replicate config.workerCount.toNat false
    readyCount := 0 }

/-- A prepared wave has a registration and a flag for each source. -/
theorem Prepared.sized {dispatch : CompiledLayout} {config : CombineV2Config}
    {plan : CombinePullPlan} {byRank : List CombineRegionRegistration}
    (h : Prepared dispatch config plan byRank) (address : ℕ) :
    (armedCoordinator address config plan byRank).Sized := by
  have hworkers : config.workerCount ≤ kPullDispatchMaxWorkers := h.admissible.configValid.2.2.2.1
  constructor
  · exact UInt32.le_iff_toNat_le.mp hworkers
  · show plan.workerCount = config.workerCount
    rw [h.plan_eq]
    rfl
  · show plan.sourceRowCounts.length = config.workerCount.toNat
    rw [h.plan_eq]
    simp [planOf, rowCountsOf]
  · exact h.registrations

namespace CombineWorld

variable {w : CombineWorld}

/-- The world behind a state change of a journal. -/
def enter (w : CombineWorld) (address : ℕ) (target : JournalSlotState) : CombineWorld :=
  w.setHeader address
    { (w.layouts address).journalHeader with state := target.toUInt16 }

/-- A valid transition of a current journal sets its state. -/
theorem transition_ok {address : ℕ} {source target : JournalSlotState}
    (hcurrent : headerCurrent (w.layouts address).journalHeader)
    (hstate : JournalSlotState.ofUInt16 (w.layouts address).journalHeader.state = some source)
    (hvalid : validJournalTransition source target) :
    w.transition address target = (.ok (), w.enter address target) := by
  unfold transition
  rw [transitionJournal_ok hcurrent hstate hvalid]
  rfl

/-- The six failure points of `Initialize` lie before its first write. -/
theorem initializeWave_cases (w : CombineWorld) (dispatch : Option ℕ) (config : CombineV2Config)
    (registrations : List CombineRegionRegistration) :
    (∃ status message, w.initializeWave dispatch config registrations
      = (fail status message, w)) ∨
    ∃ address plan byRank, w.coordinator.dispatch = none ∧
      Prepared (w.layouts address) config plan byRank ∧
      w.initializeWave dispatch config registrations
        = (.ok (), { w.enter address .combineActive with
            coordinator := armedCoordinator address config plan byRank }) := by
  unfold initializeWave
  split
  · rename_i address hnull
    have hends := prepareCombine_ends (w.layouts address) config registrations
    split
    · rename_i stop hstop
      rw [hstop] at hends
      match stop with
      | .fail status message => exact Or.inl ⟨status, message, rfl⟩
      | .outOfRange => exact hends.elim
      | .outOfFuel => exact hends.elim
    · rename_i built byRank hbuilt
      have hprepared := hends.of_ok hbuilt
      -- the plan compiler has found the journal sealed
      have hsealed := hprepared.admissible.journal
      rw [transition_ok hsealed.1.current hsealed.2.1 (Or.inl rfl)]
      exact Or.inr ⟨address, built, byRank, hnull, hprepared, rfl⟩
  · exact Or.inl ⟨_, _, rfl⟩

/-! ## READYs -/

/-- `NotifyReady` takes the READY. -/
structure Takes (w : CombineWorld) (ready : CombineReadyV2) : Prop where
  dispatch : w.coordinator.dispatch ≠ none
  active : w.state = some .combineActive
  rank : ready.sourceRank < w.coordinator.config.workerCount
  validates : w.coordinator.Validates ready
  unseen : w.coordinator.readySeen[ready.sourceRank.toNat]? = some false

/-- The world behind an accepted READY. -/
def mark (w : CombineWorld) (ready : CombineReadyV2) : CombineWorld :=
  { w with
    coordinator :=
      { w.coordinator with
        readySeen := w.coordinator.readySeen.set ready.sourceRank.toNat true
        readyCount := w.coordinator.readyCount + 1 } }

end CombineWorld

/-- A READY that is accepted matches the plan. -/
theorem validateCombineReady_ends {ready : CombineReadyV2}
    {registration : CombineRegionRegistration} {config : CombineV2Config} {plan : CombinePullPlan}
    (hplan : plan.sourceRowCounts.length = plan.workerCount.toNat) :
    Ends (validateCombineReady ready registration config plan)
      (fun _ => ready.Matches plan) (fun _ => True) False := by
  unfold validateCombineReady
  refine (validateCombineRegistration_ends registration config).bind fun _ _ => ?_
  refine Ends.bind (Ends.require (Q := fun _ => ready.sourceRank < plan.workerCount)
    (fun h => h.2.2.2.2.2.2.2.1) fun _ => trivial) fun _ hrank => ?_
  rw [UInt32.lt_iff_toNat_lt] at hrank
  refine Ends.bind (Ends.require (Q := fun _ => ready.dispatchCookie = plan.dispatchCookie) id
    fun _ => trivial) fun _ hcookie => ?_
  refine Ends.bind (Ends.require (Q := fun _ => ready.generation = plan.generation ∧
    ready.sequence = plan.sequence ∧ ready.wave = plan.wave ∧ ready.ringSlot = plan.ringSlot) id
    fun _ => trivial) fun _ hepoch => ?_
  refine Ends.bind (Ends.read
    (Q := fun rows => plan.sourceRowCounts[ready.sourceRank.toNat]? = some rows)
    (fun _ h => h) (by omega)) fun rows hrows => ?_
  refine Ends.bind (Ends.require (Q := fun _ => ready.rowCount = rows) id fun _ => trivial)
    fun _ hcount => ?_
  refine Ends.bind (Ends.orFail (Q := fun _ => True) (fun _ _ => trivial) fun _ => trivial)
    fun _ _ => ?_
  refine Ends.require (fun _ => ?_) fun _ => trivial
  exact ⟨hcookie, hepoch.1, hepoch.2.1, hepoch.2.2.1, hepoch.2.2.2, by rw [hrows, hcount]⟩

namespace CombineWorld

variable {w : CombineWorld}

/-- A READY is accepted exactly if the wave takes it. -/
theorem acceptReady_ends (hsized : w.coordinator.dispatch ≠ none → w.coordinator.Sized ∧
      w.coordinator.readySeen.length = w.coordinator.config.workerCount.toNat)
    (ready : CombineReadyV2) :
    Ends (w.acceptReady ready)
      (fun c => w.Takes ready ∧ c = (w.mark ready).coordinator)
      (fun _ => ¬ w.Takes ready) False := by
  unfold acceptReady
  refine Ends.bind (Ends.require (Q := fun _ => w.coordinator.dispatch ≠ none ∧
    w.state = some .combineActive) id fun hn h => hn ⟨h.dispatch, h.active⟩) fun _ hactive => ?_
  obtain ⟨hdispatch, hactive⟩ := hactive
  obtain ⟨hsized, hseen⟩ := hsized hdispatch
  refine Ends.bind (Ends.require (Q := fun _ => ready.sourceRank
    < w.coordinator.config.workerCount) id fun hn h => hn h.rank) fun _ hrank => ?_
  have hlt := UInt32.lt_iff_toNat_lt.mp hrank
  have hregs := hsized.registrations
  refine Ends.bind (Ends.read (Q := fun registration =>
    w.coordinator.registrations[ready.sourceRank.toNat]? = some registration) (fun _ h => h)
    (by omega)) fun registration hregistration => ?_
  have hrows : w.coordinator.plan.sourceRowCounts.length = w.coordinator.plan.workerCount.toNat := by
    rw [hsized.rowCounts, hsized.plan]
  -- the registration of the source is the one validation runs against
  have hvalidates : w.coordinator.Validates ready ↔ validateCombineReady ready registration
      w.coordinator.config w.coordinator.plan = .ok () := by
    unfold CombineV2Coordinator.Validates
    simp [hregistration]
  have hends : Ends (validateCombineReady ready registration w.coordinator.config
      w.coordinator.plan) (fun _ => ready.Matches w.coordinator.plan) (fun _ => True) False :=
    validateCombineReady_ends hrows
  cases hvalidate : validateCombineReady ready registration w.coordinator.config
    w.coordinator.plan with
  | error stop =>
    rw [hvalidate] at hends hvalidates
    have hnot : ¬ w.Takes ready := by
      intro h
      cases hvalidates.mp h.validates
    match stop with
    | .fail status message => exact hnot
    | .outOfRange => exact hends.elim
    | .outOfFuel => exact hends.elim
  | ok u =>
    rw [ok_bind]
    refine Ends.bind (Ends.read (Q := fun seen =>
      w.coordinator.readySeen[ready.sourceRank.toNat]? = some seen) (fun _ h => h)
      (by omega)) fun seen hread => ?_
    refine Ends.bind (Ends.require (Q := fun _ => seen = false) id fun hn h => hn ?_)
      fun _ hfalse => ?_
    · rw [h.unseen] at hread
      exact (Option.some.inj hread).symm
    have htakes : w.Takes ready :=
      ⟨hdispatch, hactive, hrank, hvalidates.mpr hvalidate, by rw [hread, hfalse]⟩
    refine Ends.bind (Ends.write (Q := fun l =>
      l = w.coordinator.readySeen.set ready.sourceRank.toNat true) (fun _ => rfl) (by omega))
      fun l hl => ?_
    exact ⟨htakes, by rw [hl]; rfl⟩

/-- A notification is taken, or fails and changes nothing. -/
theorem notifyReady_cases (hsized : w.coordinator.dispatch ≠ none → w.coordinator.Sized ∧
      w.coordinator.readySeen.length = w.coordinator.config.workerCount.toNat)
    (ready : CombineReadyV2) :
    (¬ w.Takes ready ∧ ∃ status message, w.notifyReady ready = (fail status message, w)) ∨
    (w.Takes ready ∧ w.notifyReady ready = (.ok (), w.mark ready)) := by
  have hends := acceptReady_ends hsized ready
  unfold notifyReady
  cases haccept : w.acceptReady ready with
  | error stop =>
    rw [haccept] at hends
    match stop with
    | .fail status message => exact Or.inl ⟨hends, status, message, rfl⟩
    | .outOfRange => exact hends.elim
    | .outOfFuel => exact hends.elim
  | ok c =>
    obtain ⟨htakes, rfl⟩ := hends.of_ok haccept
    exact Or.inr ⟨htakes, rfl⟩

/-! ## The end of a wave -/

/-- The coordinator finishes, or fails and changes nothing. -/
theorem finish_cases (hcurrent : ∀ address, w.coordinator.dispatch = some address →
      headerCurrent (w.layouts address).journalHeader) :
    (∃ status message, w.finish = (fail status message, w)) ∨
    ∃ address, w.coordinator.dispatch = some address ∧ w.state = some .combineActive ∧
      w.allReady ∧ w.finish = (.ok (), w.enter address .complete) := by
  unfold finish
  split
  · exact Or.inl ⟨_, _, rfl⟩
  · rename_i address hdispatch
    by_cases hactive : w.state = some .combineActive
    · rw [if_neg (not_not.mpr hactive)]
      by_cases hall : w.allReady
      · have hstate : JournalSlotState.ofUInt16 (w.layouts address).journalHeader.state
            = some .combineActive := by
          rw [← hactive, state, hdispatch]
        rw [if_neg (not_not.mpr hall),
          transition_ok (hcurrent address hdispatch) hstate (Or.inl rfl)]
        exact Or.inr ⟨address, hdispatch, hactive, hall, rfl⟩
      · rw [if_pos hall]
        exact Or.inl ⟨_, _, rfl⟩
    · rw [if_pos hactive]
      exact Or.inl ⟨_, _, rfl⟩

theorem abort_cases (hcurrent : ∀ address, w.coordinator.dispatch = some address →
      headerCurrent (w.layouts address).journalHeader) :
    (∃ status message, w.abort = (fail status message, w)) ∨
    ∃ address, w.coordinator.dispatch = some address ∧ w.state = some .combineActive ∧
      w.abort = (fail .aborted "", w.enter address .aborted) := by
  unfold abort
  split
  · exact Or.inl ⟨_, _, rfl⟩
  · rename_i address hdispatch
    by_cases hactive : w.state = some .combineActive
    · have hstate : JournalSlotState.ofUInt16 (w.layouts address).journalHeader.state
          = some .combineActive := by
        rw [← hactive, state, hdispatch]
      rw [if_neg (not_not.mpr hactive),
        transition_ok (hcurrent address hdispatch) hstate (Or.inr rfl)]
      exact Or.inr ⟨address, hdispatch, hactive, rfl⟩
    · rw [if_pos hactive]
      exact Or.inl ⟨_, _, rfl⟩

end CombineWorld

/-! ## What a call does -/

/-- The effects a call can have. -/
inductive CombineWorld.Effect (w : CombineWorld) : CoordinatorCall → Prop
  | failed {call status message} (h : w.call call = (fail status message, w)) : w.Effect call
  | armed {dispatch config registrations address plan byRank}
      (hnull : w.coordinator.dispatch = none)
      (hprepared : Prepared (w.layouts address) config plan byRank)
      (h : w.call (.initializeWave dispatch config registrations)
        = (.ok (), { w.enter address .combineActive with
            coordinator := armedCoordinator address config plan byRank })) :
      w.Effect (.initializeWave dispatch config registrations)
  | taken {ready} (htakes : w.Takes ready)
      (h : w.call (.notifyReady ready) = (.ok (), w.mark ready)) : w.Effect (.notifyReady ready)
  | completed {address} (hdispatch : w.coordinator.dispatch = some address)
      (hactive : w.state = some .combineActive) (hall : w.allReady)
      (h : w.call .finish = (.ok (), w.enter address .complete)) : w.Effect .finish
  | aborted {address} (hdispatch : w.coordinator.dispatch = some address)
      (hactive : w.state = some .combineActive)
      (h : w.call .abort = (fail .aborted "", w.enter address .aborted)) : w.Effect .abort

namespace CombineRun

variable {run : CombineRun} {address : ℕ}

/-- The coordinator of the run is armed for the journal at the address. -/
structure Armed (run : CombineRun) (address : ℕ) : Prop where
  dispatch : run.world.coordinator.dispatch = some address
  sized : run.world.coordinator.Sized
  once : OnceBelow run.world.coordinator.config.workerCount.toNat (sourcesOf run.accepted)
  seen : run.world.coordinator.readySeen
    = flagsOf run.world.coordinator.config.workerCount.toNat (sourcesOf run.accepted)
  count : run.world.coordinator.readyCount.toNat = run.accepted.length
  matching : ∀ ready ∈ run.accepted, ready.Matches run.world.coordinator.plan
  header : headerCurrent (run.world.layouts address).journalHeader
  wave : run.world.state = some .combineActive ∧ run.finished = 0 ∨
    run.world.state = some .aborted ∧ run.finished = 0 ∨
    run.world.state = some .complete ∧ run.finished = 1

/-- What holds in a run after every event. -/
inductive Inv (run : CombineRun) : Prop
  | idle (coordinator : run.world.coordinator = {}) (accepted : run.accepted = [])
      (finished : run.finished = 0)
  | armed {a} (h : run.Armed a)

/-- In a run with a dispatch the coordinator is armed on it. -/
theorem Inv.armed_at (h : run.Inv) (hdispatch : run.world.coordinator.dispatch = some address) :
    run.Armed address := by
  cases h with
  | idle hcoordinator => simp [hcoordinator] at hdispatch
  | armed h =>
    have heq := h.dispatch
    rw [hdispatch] at heq
    rw [Option.some.inj heq]
    exact h

/-- An armed coordinator has a flag for each source. -/
theorem Inv.sized (h : run.Inv) (hdispatch : run.world.coordinator.dispatch ≠ none) :
    run.world.coordinator.Sized ∧ run.world.coordinator.readySeen.length
      = run.world.coordinator.config.workerCount.toNat := by
  obtain ⟨address, hdispatch⟩ := Option.ne_none_iff_exists'.mp hdispatch
  have harmed := h.armed_at hdispatch
  exact ⟨harmed.sized, by rw [harmed.seen, length_flagsOf]⟩

/-- Every call has one of its effects. -/
theorem Inv.effect (h : run.Inv) (call : CoordinatorCall) : run.world.Effect call := by
  have hcurrent : ∀ address, run.world.coordinator.dispatch = some address →
      headerCurrent (run.world.layouts address).journalHeader :=
    fun _ hdispatch => (h.armed_at hdispatch).header
  cases call with
  | initializeWave dispatch config registrations =>
    rcases run.world.initializeWave_cases dispatch config registrations with
      ⟨_, _, hfail⟩ | ⟨_, _, _, hnull, hprepared, hok⟩
    · exact .failed hfail
    · exact .armed hnull hprepared hok
  | notifyReady ready =>
    rcases CombineWorld.notifyReady_cases h.sized ready with ⟨-, _, _, hfail⟩ | ⟨htakes, hok⟩
    · exact .failed hfail
    · exact .taken htakes hok
  | finish =>
    rcases CombineWorld.finish_cases hcurrent with ⟨_, _, hfail⟩ | ⟨_, hdispatch, hactive, hall, hok⟩
    · exact .failed hfail
    · exact .completed hdispatch hactive hall hok
  | abort =>
    rcases CombineWorld.abort_cases hcurrent with ⟨_, _, hfail⟩ | ⟨_, hdispatch, hactive, hok⟩
    · exact .failed hfail
    · exact .aborted hdispatch hactive hok

/-! ## Every event keeps the invariant -/

theorem afterCall_failed {call : CoordinatorCall} {status : CombineV2Status} {message : String}
    (h : run.world.call call = (fail status message, run.world)) : run.afterCall call = run := by
  unfold afterCall
  rw [h]
  rfl

/-- An entered state is the state of the wave. -/
theorem state_enter {w : CombineWorld} {target : JournalSlotState}
    (h : w.coordinator.dispatch = some address) :
    (w.enter address target).state = some target := by
  unfold CombineWorld.state
  have hsame : (w.enter address target).coordinator.dispatch = some address := h
  rw [hsame]
  simp [CombineWorld.enter, CombineWorld.setHeader]

theorem headerCurrent_enter {w : CombineWorld} {target : JournalSlotState}
    (h : headerCurrent (w.layouts address).journalHeader) :
    headerCurrent ((w.enter address target).layouts address).journalHeader := by
  simp only [CombineWorld.enter, CombineWorld.setHeader, Function.update_self]
  exact h

/-- An armed wave that is left. -/
theorem Armed.enter (h : run.Armed address) {target : JournalSlotState} {finished : ℕ}
    (htarget : target = .aborted ∧ finished = 0 ∨ target = .complete ∧ finished = 1) :
    Armed { run with world := run.world.enter address target, finished := finished } address where
  dispatch := h.dispatch
  sized := h.sized
  once := h.once
  seen := h.seen
  count := h.count
  matching := h.matching
  header := headerCurrent_enter h.header
  wave := by
    rcases htarget with ⟨rfl, rfl⟩ | ⟨rfl, rfl⟩
    · exact Or.inr (Or.inl ⟨state_enter h.dispatch, rfl⟩)
    · exact Or.inr (Or.inr ⟨state_enter h.dispatch, rfl⟩)

/-- A prepared wave arms the coordinator. -/
theorem armed_of_prepared {config : CombineV2Config} {plan : CombinePullPlan}
    {byRank : List CombineRegionRegistration}
    (hprepared : Prepared (run.world.layouts address) config plan byRank)
    (haccepted : run.accepted = []) (hfinished : run.finished = 0) :
    Armed { run with
      world := { run.world.enter address .combineActive with
        coordinator := armedCoordinator address config plan byRank } } address where
  dispatch := rfl
  sized := hprepared.sized address
  once := by simp [haccepted, sourcesOf, OnceBelow]
  seen := by simp only [haccepted, sourcesOf, List.map_nil, flagsOf_nil]; rfl
  count := by rw [haccepted]; rfl
  matching := by simp [haccepted]
  header := headerCurrent_enter hprepared.admissible.journal.1.current
  wave := by
    have hstate : ({ run.world.enter address .combineActive with
        coordinator := armedCoordinator address config plan byRank } : CombineWorld).state
        = some .combineActive := by
      simp [CombineWorld.state, CombineWorld.enter, CombineWorld.setHeader, armedCoordinator]
    exact Or.inl ⟨hstate, hfinished⟩

/-- A source that is not marked has no accepted READY. -/
theorem Armed.new_source (h : run.Armed address) {ready : CombineReadyV2}
    (htakes : run.world.Takes ready) : ready.sourceRank.toNat ∉ sourcesOf run.accepted := by
  have hunseen := htakes.unseen
  rw [h.seen, getElem?_flagsOf (UInt32.lt_iff_toNat_lt.mp htakes.rank)] at hunseen
  simpa using hunseen

/-- Taking a READY keeps it armed. -/
theorem Armed.taken (h : run.Armed address) {ready : CombineReadyV2}
    (htakes : run.world.Takes ready) :
    Armed { run with world := run.world.mark ready, accepted := run.accepted ++ [ready] }
      address := by
  have hrank := UInt32.lt_iff_toNat_lt.mp htakes.rank
  have hsources : sourcesOf (run.accepted ++ [ready])
      = sourcesOf run.accepted ++ [ready.sourceRank.toNat] := by
    simp [sourcesOf]
  have hbound : run.accepted.length ≤ run.world.coordinator.config.workerCount.toNat := by
    have hle := length_le_of_nodup h.once.1 h.once.2
    rwa [sourcesOf, List.length_map] at hle
  have hworkers := h.sized.workers_le
  exact
    { dispatch := h.dispatch
      sized := ⟨hworkers, h.sized.plan, h.sized.rowCounts, h.sized.registrations⟩
      once := by
        show OnceBelow run.world.coordinator.config.workerCount.toNat _
        rw [hsources, onceBelow_append_singleton]
        exact ⟨h.once, hrank, h.new_source htakes⟩
      seen := by
        show run.world.coordinator.readySeen.set _ _ = flagsOf _ (sourcesOf (run.accepted ++ _))
        rw [hsources, h.seen, set_flagsOf]
        rfl
      count := by
        -- at most 128 sources are counted, so the counter does not wrap
        show (run.world.coordinator.readyCount + 1).toNat = (run.accepted ++ [ready]).length
        rw [UInt32.toNat_add, h.count, List.length_append, List.length_singleton]
        exact Nat.mod_eq_of_lt (by show run.accepted.length + 1 < 2 ^ 32; omega)
      matching := by
        intro other hother
        show other.Matches run.world.coordinator.plan
        rcases List.mem_append.mp hother with hold | hnew
        · exact h.matching other hold
        · rw [List.mem_singleton.mp hnew]
          obtain ⟨_, _, hok⟩ := htakes.validates
          have hrows : run.world.coordinator.plan.sourceRowCounts.length
              = run.world.coordinator.plan.workerCount.toNat := by
            rw [h.sized.rowCounts, h.sized.plan]
          exact (validateCombineReady_ends hrows).of_ok hok
      header := h.header
      wave := h.wave }

/-- An active journal is not finished. -/
theorem Armed.finished_of_active (h : run.Armed address)
    (hactive : run.world.state = some .combineActive) : run.finished = 0 := by
  rcases h.wave with ⟨-, hzero⟩ | ⟨hstate, -⟩ | ⟨hstate, -⟩
  · exact hzero
  · rw [hstate] at hactive
    cases hactive
  · rw [hstate] at hactive
    cases hactive

/-- A call keeps the invariant. -/
theorem Inv.afterCall (h : run.Inv) (call : CoordinatorCall) : (run.afterCall call).Inv := by
  cases h.effect call with
  | failed hcall =>
    rw [afterCall_failed hcall]
    exact h
  | armed hnull hprepared hcall =>
    unfold CombineRun.afterCall
    rw [hcall]
    cases h with
    | idle _ haccepted hfinished => exact .armed (armed_of_prepared hprepared haccepted hfinished)
    | armed h =>
      rw [h.dispatch] at hnull
      cases hnull
  | taken htakes hcall =>
    unfold CombineRun.afterCall
    rw [hcall]
    cases h with
    | idle hcoordinator =>
      have hdispatch := htakes.dispatch
      simp [hcoordinator] at hdispatch
    | armed h => exact .armed (h.taken htakes)
  | completed hdispatch hactive _ hcall =>
    have harmed := h.armed_at hdispatch
    unfold CombineRun.afterCall
    rw [hcall]
    have hone : run.finished + 1 = 1 := by rw [harmed.finished_of_active hactive]
    exact .armed (harmed.enter (Or.inr ⟨rfl, hone⟩))
  | aborted hdispatch hactive hcall =>
    have harmed := h.armed_at hdispatch
    unfold CombineRun.afterCall
    rw [hcall]
    exact .armed (harmed.enter (Or.inl ⟨rfl, harmed.finished_of_active hactive⟩))

theorem Inv.rebuild (h : run.Inv) (address : ℕ) (layout : CompiledLayout) :
    (run.step (.rebuild address layout)).Inv := by
  cases h with
  | idle hcoordinator haccepted hfinished => exact .idle hcoordinator haccepted hfinished
  | @armed a h =>
    -- the header of the armed journal is the one thing that stays
    have hheader : ((run.world.rebuild address layout).layouts a).journalHeader
        = (run.world.layouts a).journalHeader := by
      unfold CombineWorld.rebuild
      rw [h.dispatch]
      by_cases ha : a = address
      · subst ha
        simp
      · simp [ha]
    have hstate : (run.world.rebuild address layout).state = run.world.state := by
      have hsame : (run.world.rebuild address layout).coordinator = run.world.coordinator := rfl
      unfold CombineWorld.state
      rw [hsame, h.dispatch]
      simp only [hheader]
    have harmed : (run.step (.rebuild address layout)).Armed a :=
      { dispatch := h.dispatch
        sized := h.sized
        once := h.once
        seen := h.seen
        count := h.count
        matching := h.matching
        header := by
          show headerCurrent ((run.world.rebuild address layout).layouts a).journalHeader
          rw [hheader]
          exact h.header
        wave := by
          have hwave := h.wave
          rw [← hstate] at hwave
          exact hwave }
    exact .armed harmed

theorem Inv.step (h : run.Inv) (event : CombineEvent) : (run.step event).Inv := by
  cases event with
  | call call => exact h.afterCall call
  | rebuild address layout => exact h.rebuild address layout

/-- Every run keeps the invariant. -/
theorem inv_runEvents (layouts : ℕ → CompiledLayout) (events : List CombineEvent) :
    (runEvents layouts events).Inv := by
  unfold runEvents
  induction events using List.reverseRecOn with
  | nil => exact .idle rfl rfl rfl
  | append_singleton events event ih =>
    rw [List.foldl_append]
    exact ih.step event

theorem Inv.nodup_sources (h : run.Inv) : (sourcesOf run.accepted).Nodup := by
  cases h with
  | idle _ haccepted => simp [haccepted, sourcesOf]
  | armed h => exact h.once.2

/-! ## READYs in any order -/

/-- An active wave takes READYs. -/
def Listening (run : CombineRun) : Prop :=
  run.world.coordinator.dispatch ≠ none ∧ run.world.state = some .combineActive

/-- What READYs do to a run. -/
structure Delivered (run : CombineRun) (readys : List CombineReadyV2) (after : CombineRun) :
    Prop where
  inv : after.Inv
  layouts : after.world.layouts = run.world.layouts
  kept : ∃ seen count, after.world.coordinator
    = { run.world.coordinator with readySeen := seen, readyCount := count }
  subset : run.accepted ⊆ after.accepted
  fresh : ∀ ready ∈ after.accepted, ready ∈ run.accepted ∨
    ready ∈ readys ∧ run.world.coordinator.Validates ready
  sources : ∀ source, source ∈ sourcesOf after.accepted ↔ source ∈ sourcesOf run.accepted ∨
    ∃ ready ∈ readys, run.Listening ∧ run.world.coordinator.Validates ready ∧
      ready.sourceRank.toNat = source

namespace Delivered

variable {readys : List CombineReadyV2} {after : CombineRun}

theorem validates_iff (h : Delivered run readys after) (ready : CombineReadyV2) :
    after.world.coordinator.Validates ready ↔ run.world.coordinator.Validates ready := by
  obtain ⟨seen, count, hkept⟩ := h.kept
  rw [hkept]
  rfl

theorem listening_iff (h : Delivered run readys after) : after.Listening ↔ run.Listening := by
  obtain ⟨seen, count, hkept⟩ := h.kept
  unfold Listening CombineWorld.state
  rw [hkept, h.layouts]

end Delivered

/-- A validated READY that an active wave does not take is a second one of its source. -/
theorem Inv.seen_before (h : run.Inv) {ready : CombineReadyV2} (hlistening : run.Listening)
    (hvalidates : run.world.coordinator.Validates ready) (hnot : ¬ run.world.Takes ready) :
    ready.sourceRank.toNat ∈ sourcesOf run.accepted := by
  cases h with
  | idle hcoordinator =>
    have hdispatch := hlistening.1
    simp [hcoordinator] at hdispatch
  | armed h =>
    obtain ⟨registration, hregistration, -⟩ := id hvalidates
    have hlt := (List.getElem?_eq_some_iff.mp hregistration).1
    rw [h.sized.registrations] at hlt
    by_contra hnew
    apply hnot
    refine ⟨hlistening.1, hlistening.2, UInt32.lt_iff_toNat_lt.mpr hlt, hvalidates, ?_⟩
    rw [h.seen, getElem?_flagsOf hlt]
    simpa using hnew

/-- A notification is accepted, or leaves the run. -/
theorem Inv.afterNotify (h : run.Inv) (ready : CombineReadyV2) :
    (¬ run.world.Takes ready ∧ run.afterCall (.notifyReady ready) = run) ∨
    (run.world.Takes ready ∧ run.afterCall (.notifyReady ready)
      = { run with world := run.world.mark ready, accepted := run.accepted ++ [ready] }) := by
  rcases CombineWorld.notifyReady_cases h.sized ready with ⟨hnot, _, _, hfail⟩ | ⟨htakes, hok⟩
  · exact Or.inl ⟨hnot, afterCall_failed hfail⟩
  · have hcall : run.world.call (.notifyReady ready) = (.ok (), run.world.mark ready) := hok
    apply Or.inr
    apply And.intro htakes
    unfold CombineRun.afterCall
    rw [hcall]

/-- Deliveries accept what each of them would. -/
theorem Inv.deliver (h : run.Inv) (readys : List CombineReadyV2) :
    Delivered run readys (run.deliver readys) := by
  induction readys using List.reverseRecOn with
  | nil =>
    exact
      { inv := h
        layouts := rfl
        kept := ⟨_, _, rfl⟩
        subset := fun _ hready => hready
        fresh := fun _ hready => Or.inl hready
        sources := by simp [CombineRun.deliver] }
  | append_singleton readys ready ih =>
    have hlast : run.deliver (readys ++ [ready])
        = (run.deliver readys).afterCall (.notifyReady ready) := by
      simp [CombineRun.deliver]
    rw [hlast]
    have hinv := ih.inv
    rcases hinv.afterNotify ready with ⟨hnot, heq⟩ | ⟨htakes, heq⟩
    · rw [heq]
      exact
        { inv := hinv
          layouts := ih.layouts
          kept := ih.kept
          subset := ih.subset
          fresh := fun r hr => (ih.fresh r hr).imp_right fun hnew =>
            ⟨List.mem_append_left _ hnew.1, hnew.2⟩
          sources := by
            intro source
            rw [ih.sources source]
            constructor
            · rintro (hold | ⟨r, hr, hnew⟩)
              · exact Or.inl hold
              · exact Or.inr ⟨r, List.mem_append_left _ hr, hnew⟩
            · rintro (hold | ⟨r, hr, hlistening, hvalidates, hsource⟩)
              · exact Or.inl hold
              · rcases List.mem_append.mp hr with hr | hr
                · exact Or.inr ⟨r, hr, hlistening, hvalidates, hsource⟩
                · -- the READY that was not taken
                  rw [List.mem_singleton] at hr
                  subst hr
                  rw [← ih.sources source, ← hsource]
                  exact hinv.seen_before (ih.listening_iff.mpr hlistening)
                    ((ih.validates_iff r).mpr hvalidates) hnot }
    · have hnext := hinv.afterCall (.notifyReady ready)
      rw [heq] at hnext ⊢
      obtain ⟨seen, count, hkept⟩ := ih.kept
      have hvalidates := (ih.validates_iff ready).mp htakes.validates
      have hlistening := ih.listening_iff.mp ⟨htakes.dispatch, htakes.active⟩
      exact
        { inv := hnext
          layouts := ih.layouts
          kept := ⟨_, _, by rw [CombineWorld.mark, hkept]⟩
          subset := fun r hr => List.mem_append_left _ (ih.subset hr)
          fresh := by
            intro r hr
            rcases List.mem_append.mp hr with hold | hnew
            · exact (ih.fresh r hold).imp_right fun hnew =>
                ⟨List.mem_append_left _ hnew.1, hnew.2⟩
            · rw [List.mem_singleton.mp hnew]
              exact Or.inr ⟨by simp, hvalidates⟩
          sources := by
            intro source
            have hmem : source ∈ sourcesOf ((run.deliver readys).accepted ++ [ready])
                ↔ source ∈ sourcesOf (run.deliver readys).accepted ∨
                  ready.sourceRank.toNat = source := by
              simp [sourcesOf, eq_comm]
            show source ∈ sourcesOf ((run.deliver readys).accepted ++ [ready]) ↔ _
            rw [hmem, ih.sources source]
            constructor
            · rintro ((hold | ⟨r, hr, hnew⟩) | hsource)
              · exact Or.inl hold
              · exact Or.inr ⟨r, List.mem_append_left _ hr, hnew⟩
              · exact Or.inr ⟨ready, by simp, hlistening, hvalidates, hsource⟩
            · rintro (hold | ⟨r, hr, hnew⟩)
              · exact Or.inl (Or.inl hold)
              · rcases List.mem_append.mp hr with hr | hr
                · exact Or.inl (Or.inr ⟨r, hr, hnew⟩)
                · rw [List.mem_singleton.mp hr] at hnew
                  exact Or.inr hnew.2.2 }

/-- The flags and the counter of a coordinator are those of the sources it has heard. -/
theorem Inv.coordinator_eq {run' : CombineRun} (h : run.Inv) (h' : run'.Inv)
    (hsources : (sourcesOf run.accepted).Perm (sourcesOf run'.accepted))
    (hkept : ∃ seen count, run'.world.coordinator
      = { run.world.coordinator with readySeen := seen, readyCount := count }) :
    run'.world.coordinator = run.world.coordinator := by
  obtain ⟨seen, count, hkept⟩ := hkept
  cases h with
  | idle hcoordinator =>
    cases h' with
    | idle hcoordinator' => rw [hcoordinator, hcoordinator']
    | armed h' =>
      have hdispatch := h'.dispatch
      rw [hkept, hcoordinator] at hdispatch
      cases hdispatch
  | @armed a h =>
    have hdispatch : run'.world.coordinator.dispatch = some a := by
      rw [hkept]
      exact h.dispatch
    have harmed := h'.armed_at hdispatch
    have hseen := harmed.seen
    have hcount := harmed.count
    have hlen := hsources.length_eq
    simp only [sourcesOf, List.length_map] at hlen
    rw [hkept] at hseen hcount ⊢
    have hflags : seen = run.world.coordinator.readySeen := by
      rw [h.seen]
      refine hseen.trans (flagsOf_eq_iff.mpr fun i _ => ?_)
      exact hsources.symm.mem_iff
    have hcounter : count = run.world.coordinator.readyCount := by
      rw [← UInt32.toNat_inj, h.count, hlen]
      exact hcount
    rw [hflags, hcounter]

section Order

variable {readys readys' : List CombineReadyV2}

/-- The sources accepted do not depend on the order. -/
theorem Inv.deliver_perm (h : run.Inv) (hperm : readys.Perm readys') :
    (sourcesOf (run.deliver readys).accepted).Perm (sourcesOf (run.deliver readys').accepted) := by
  have hleft := h.deliver readys
  have hright := h.deliver readys'
  rw [List.perm_ext_iff_of_nodup hleft.inv.nodup_sources hright.inv.nodup_sources]
  intro source
  rw [hleft.sources, hright.sources]
  simp only [hperm.mem_iff]

theorem Inv.deliver_world (h : run.Inv) (hperm : readys.Perm readys') :
    (run.deliver readys).world = (run.deliver readys').world := by
  have hleft := h.deliver readys
  have hright := h.deliver readys'
  have hcoordinator := hright.inv.coordinator_eq hleft.inv (h.deliver_perm hperm).symm
    (by
      obtain ⟨seen, count, hkept⟩ := hleft.kept
      obtain ⟨_, _, hkept'⟩ := hright.kept
      exact ⟨seen, count, by rw [hkept, hkept']⟩)
  have hlayouts := hleft.layouts.trans hright.layouts.symm
  cases hworld : (run.deliver readys).world with
  | mk coordinator layouts =>
    cases hworld' : (run.deliver readys').world with
    | mk coordinator' layouts' =>
      rw [hworld, hworld'] at hcoordinator hlayouts
      rw [show coordinator = coordinator' from hcoordinator,
        show layouts = layouts' from hlayouts]

/-- Without a second valid READY of a source, the READYs that one order gets accepted another one
does. -/
theorem Inv.accepted_of_perm (h : run.Inv) (hperm : readys.Perm readys')
    (hnone : run.world.coordinator.NoneCompete readys) {ready : CombineReadyV2}
    (hready : ready ∈ (run.deliver readys).accepted) :
    ready ∈ (run.deliver readys').accepted := by
  have hleft := h.deliver readys
  have hright := h.deliver readys'
  rcases hleft.fresh ready hready with hold | ⟨hmem, hvalidates⟩
  · exact hright.subset hold
  · -- some READY of the same source was accepted there
    have hsource : ready.sourceRank.toNat ∈ sourcesOf (run.deliver readys').accepted :=
      (h.deliver_perm hperm).mem_iff.mp (List.mem_map.mpr ⟨ready, hready, rfl⟩)
    obtain ⟨other, hother, heq⟩ := List.mem_map.mp hsource
    rcases hright.fresh other hother with hold | ⟨hmem', hvalidates'⟩
    · have hsame : other = ready :=
        List.inj_on_of_nodup_map hleft.inv.nodup_sources (hleft.subset hold) hready heq
      rwa [hsame] at hother
    · have hsame : other = ready :=
        hnone other (hperm.mem_iff.mpr hmem') ready hmem hvalidates' hvalidates
          (UInt32.toNat_inj.mp heq)
      rwa [hsame] at hother

theorem Inv.deliver_accepted (h : run.Inv) (hperm : readys.Perm readys')
    (hnone : run.world.coordinator.NoneCompete readys) :
    (run.deliver readys).accepted.Perm (run.deliver readys').accepted := by
  have hleft := (h.deliver readys).inv.nodup_sources.of_map
  have hright := (h.deliver readys').inv.nodup_sources.of_map
  have hnone' : run.world.coordinator.NoneCompete readys' := fun a ha b hb =>
    hnone a (hperm.mem_iff.mpr ha) b (hperm.mem_iff.mpr hb)
  rw [List.perm_ext_iff_of_nodup hleft hright]
  intro ready
  exact ⟨h.accepted_of_perm hperm hnone, h.accepted_of_perm hperm.symm hnone'⟩

end Order

/-! ## Safety -/

/-- The count is that of the flags. -/
theorem Inv.counted (h : run.Inv) :
    run.world.coordinator.readyCount.toNat = run.world.coordinator.readySeen.count true := by
  cases h with
  | idle hcoordinator =>
    rw [hcoordinator]
    rfl
  | armed h =>
    rw [h.seen, count_flagsOf h.once, h.count, sourcesOf, List.length_map]

/-- A wave that can complete has one READY of each source. -/
theorem Armed.exactly_one (h : run.Armed address) (hall : run.world.allReady) {source : ℕ}
    (hsource : source < run.world.coordinator.config.workerCount.toNat) :
    ∃ ready, run.accepted.filter (fun ready => ready.sourceRank.toNat = source) = [ready] ∧
      ready.Matches run.world.coordinator.plan := by
  have hlen : (sourcesOf run.accepted).length
      = run.world.coordinator.config.workerCount.toNat := by
    rw [sourcesOf, List.length_map, ← h.count, hall.2]
  have hmem : source ∈ sourcesOf run.accepted :=
    (perm_range_of_nodup h.once.1 h.once.2 hlen).mem_iff.mpr (List.mem_range.mpr hsource)
  obtain ⟨ready, hready, rfl⟩ := List.mem_map.mp hmem
  exact ⟨ready, filter_key_eq h.once.2 hready, h.matching ready hready⟩

/-- The coordinator finishes once, with every source. -/
theorem Inv.finish_ok (h : run.Inv) (hok : (run.world.call .finish).1 = .ok ()) :
    run.finished = 0 ∧
    ∀ source < run.world.coordinator.config.workerCount.toNat, ∃ ready,
      run.accepted.filter (fun ready => ready.sourceRank.toNat = source) = [ready] ∧
      ready.Matches run.world.coordinator.plan := by
  cases h.effect .finish with
  | failed hcall =>
    rw [hcall] at hok
    cases hok
  | completed hdispatch hactive hall hcall =>
    have harmed := h.armed_at hdispatch
    exact ⟨harmed.finished_of_active hactive, fun _ hsource => harmed.exactly_one hall hsource⟩

theorem Inv.finished_le (h : run.Inv) : run.finished ≤ 1 := by
  cases h with
  | idle _ _ hfinished => omega
  | armed h =>
    have hwave := h.wave
    omega

/-- After the end a call changes nothing. -/
theorem Inv.ended (h : run.Inv)
    (hended : run.world.state = some .complete ∨ run.world.state = some .aborted)
    (call : CoordinatorCall) : (run.world.call call).2 = run.world := by
  have hactive : run.world.state ≠ some .combineActive := by
    intro hactive
    rw [hactive] at hended
    rcases hended with hended | hended <;> cases hended
  cases h.effect call with
  | failed hcall => rw [hcall]
  | armed hnull =>
    -- a coordinator without a journal reports FREE
    have hfree : run.world.state = some .free := by
      rw [CombineWorld.state, hnull]
    rw [hfree] at hended
    rcases hended with hended | hended <;> cases hended
  | taken htakes => exact absurd htakes.active hactive
  | completed _ hstate => exact absurd hstate hactive
  | aborted _ hstate => exact absurd hstate hactive

/-- A failed call changes nothing, except for an abort that took place. -/
theorem Inv.failed (h : run.Inv) {call : CoordinatorCall} {status : CombineV2Status}
    {message : String} (hfail : (run.world.call call).1 = fail status message)
    (habort : call = .abort → status ≠ .aborted) : (run.world.call call).2 = run.world := by
  cases h.effect call with
  | failed hcall => rw [hcall]
  | armed _ _ hcall =>
    rw [hcall] at hfail
    cases hfail
  | taken _ hcall =>
    rw [hcall] at hfail
    cases hfail
  | completed _ _ _ hcall =>
    rw [hcall] at hfail
    cases hfail
  | aborted _ _ hcall =>
    rw [hcall] at hfail
    cases hfail
    exact absurd rfl (habort rfl)

/-- Every call returns a status. -/
theorem Inv.returns (h : run.Inv) (call : CoordinatorCall) :
    (run.world.call call).1.statusOf .ok ≠ none := by
  cases h.effect call with
  | failed hcall => simp [hcall, fail, statusOf]
  | armed _ _ hcall => simp [hcall, statusOf]
  | taken _ hcall => simp [hcall, statusOf]
  | completed _ _ _ hcall => simp [hcall, statusOf]
  | aborted _ _ hcall => simp [hcall, fail, statusOf]

end CombineRun

/-- After every run of calls: the counter counts the flags, `Finish` goes through at most once and
only with one matching READY of each source, READYs can come in any order, an ended wave stays as
it is, a failed call changes nothing, and every call returns. -/
theorem coordinator_safe (layouts : ℕ → CompiledLayout) (events : List CombineEvent) :
    CoordinatorSafe (runEvents layouts events) := by
  have hinv := CombineRun.inv_runEvents layouts events
  exact
    { counted := hinv.counted
      finished_le := hinv.finished_le
      finish_ok := hinv.finish_ok
      order := fun _ _ hperm =>
        ⟨hinv.deliver_world hperm, hinv.deliver_perm hperm, hinv.deliver_accepted hperm⟩
      ended := hinv.ended
      failed := fun _ _ _ => hinv.failed
      returns := hinv.returns }

/-! ## Two READYs of one source -/

/-- One token of worker 0, routed to both workers. -/
def sampleSealed : CompiledLayout :=
  { journalHeader :=
      { generation := 1, sequence := 1, dispatchCookie := 1, state := 2, tokenCount := 1,
        contributorCount := 2 }
    journalTokens := [{ contributorsCount := 2 }]
    contributors := [⟨1, 0, 0, 1⟩, ⟨0, 0, 0, 1⟩]
    destinationRows := [[{ assignmentsCount := 1 }], [{ assignmentsCount := 1 }]]
    expertAssignments := [[{}], [{}]] }

/-- A combine step of two workers. -/
def sampleCombine : CombineV2Config :=
  { sessionId := 1, placementEpoch := 1, workerCount := 2, hidden := 1, ringSlots := 1 }

/-- The region of a worker. -/
def sampleRegion (rank : UInt32) : CombineRegionRegistration :=
  { sessionId := 1, placementEpoch := 1, sourceRank := rank, regionId := 1, slotCount := 1,
    regionBytes := 128, slotStride := 128 }

/-- The READY of a worker whose row stands at an offset of its region. -/
def sampleReady (rank : UInt32) (offset : UInt64) : CombineReadyV2 :=
  let ready : CombineReadyV2 :=
    { sessionId := 1, placementEpoch := 1, generation := 1, sequence := 1, dispatchCookie := 1,
      sourceRank := rank, sourceRegionId := 1, rowCount := 1, hidden := 1,
      sourceOffset := offset, payloadBytes := 4 }
  { ready with publication := combineReadyPublication ready }

/-- The coordinator is armed on the first journal. -/
def sampleArming : CombineEvent :=
  .call (.initializeWave (some 0) sampleCombine [sampleRegion 1, sampleRegion 0])

/-- A worker that publishes its row twice, at two places of the slot, has the first one accepted:
which READY that is depends on the order. -/
theorem accepted_depends_on_order :
    ¬ ∀ (layouts : ℕ → CompiledLayout) (events : List CombineEvent)
        (readys readys' : List CombineReadyV2), readys.Perm readys' → ∀ ready,
      ready ∈ ((runEvents layouts events).deliver readys).accepted ↔
        ready ∈ ((runEvents layouts events).deliver readys').accepted := by
  intro h
  have hboth := h (fun _ => sampleSealed) [sampleArming] [sampleReady 1 0, sampleReady 1 64]
    [sampleReady 1 64, sampleReady 1 0] (List.Perm.swap _ _ _) (sampleReady 1 0)
  have hfirst : ((runEvents (fun _ => sampleSealed) [sampleArming]).deliver
      [sampleReady 1 0, sampleReady 1 64]).accepted = [sampleReady 1 0] := by
    decide +kernel
  have hsecond : ((runEvents (fun _ => sampleSealed) [sampleArming]).deliver
      [sampleReady 1 64, sampleReady 1 0]).accepted = [sampleReady 1 64] := by
    decide +kernel
  rw [hfirst, hsecond] at hboth
  exact absurd (List.mem_singleton.mp (hboth.mp (by simp))) (by decide +kernel)

/-- One READY of each worker, and the wave completes. -/
example : (runEvents (fun _ => sampleSealed)
    [sampleArming, .call (.notifyReady (sampleReady 1 64)), .call .finish,
      .call (.notifyReady (sampleReady 0 0)), .call .finish, .call .abort]).finished = 1 := by
  decide +kernel

end AscendShmem.PullV2
