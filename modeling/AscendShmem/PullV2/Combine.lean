import Mathlib
import AscendShmem.PullV2.Layout

/-!
# The Combine plan compiler

The records of `inc_dc_pull_combine_v2.h` and the `CompileCombinePullPlan` half of
`inc_dc_pull_combine_v2.cpp`. The layout comes from anywhere: every index the function takes out
of it is read through `read`, so a missing check would show as a fault of the run.
-/

namespace AscendShmem.PullV2

open Lib Lib.Exec

/-- The magic of a combine READY. -/
def kPullCombineV2Magic : UInt32 := 0x32434e49
/-- The version of its layout. -/
def kPullCombineV2AbiVersion : UInt16 := 1
/-- The alignment of a slot, one cache line. -/
def kPullCombineV2Alignment : UInt32 := 64
/-- The flag of a READY whose rows are in canonical order. -/
def kPullCombineV2CanonicalRows : UInt32 := 1

/-- `CombineV2Status` -/
inductive CombineV2Status where
  | ok
  | invalidArgument
  | invalidJournal
  | invalidRegistration
  | invalidReady
  | cookieMismatch
  | staleEpoch
  | sizeOverflow
  | capacityExceeded
  | duplicateSource
  | notReady
  | invalidStateTransition
  | aborted
deriving DecidableEq, Repr

/-- `PartialDataType` -/
inductive PartialDataType where
  | fp16
  | bf16
  | fp32
deriving DecidableEq, Repr

/-- The enumerator's underlying value. -/
def PartialDataType.toUInt32 : PartialDataType → UInt32
  | .fp16 => 0
  | .bf16 => 1
  | .fp32 => 2

/-- `CombineV2Config` -/
structure CombineV2Config where
  sessionId : UInt64 := 0
  placementEpoch : UInt64 := 0
  workerCount : UInt32 := 0
  hidden : UInt32 := 0
  partialDtype : PartialDataType := .fp32
  ringSlots : UInt32 := 0
deriving DecidableEq, Repr

/-- `CombinePullOp` -/
structure CombinePullOp where
  sourceRank : UInt32 := 0
  sourceRow : UInt32 := 0
  journalToken : UInt32 := 0
  accumulatorIndex : UInt32 := 0
deriving DecidableEq, Repr

/-- `CombineResultOp` -/
structure CombineResultOp where
  ownerRank : UInt32 := 0
  ownerRow : UInt32 := 0
  journalToken : UInt32 := 0
  accumulatorIndex : UInt32 := 0
  expectedContributors : UInt32 := 0
  reserved : UInt32 × UInt32 × UInt32 := (0, 0, 0)
deriving DecidableEq, Repr

/-- The reduction index of a wave: the rows to pull in `(source_rank, source_row)` order, the
owner rows they are reduced into, and one chain of pulls for each accumulator. -/
structure CombinePullPlan where
  generation : UInt64 := 0
  sequence : UInt64 := 0
  dispatchCookie : UInt64 := 0
  wave : UInt32 := 0
  ringSlot : UInt16 := 0
  reserved0 : UInt16 := 0
  workerCount : UInt32 := 0
  hidden : UInt32 := 0
  partialDtype : PartialDataType := .fp32
  accumulatorCount : UInt32 := 0
  sourceOffsets : List UInt64 := []
  sourceRowCounts : List UInt32 := []
  pulls : List CombinePullOp := []
  ownerOffsets : List UInt64 := []
  results : List CombineResultOp := []
  pullNext : List UInt32 := []
  accumulatorHeads : List UInt32 := []
  accumulatorContributorCounts : List UInt32 := []
  accumulatorResultIndex : List UInt32 := []
deriving DecidableEq, Repr

/-- `PartialBytes` -/
def partialBytes : PartialDataType → UInt32
  | .fp16 => 2
  | .bf16 => 2
  | .fp32 => 4

/-- `ConfigValid`. -/
def combineConfigValid (config : CombineV2Config) : Prop :=
  config.sessionId ≠ 0 ∧ config.placementEpoch ≠ 0 ∧ 2 ≤ config.workerCount ∧
    config.workerCount ≤ kPullDispatchMaxWorkers ∧ config.hidden ≠ 0 ∧
    partialBytes config.partialDtype ≠ 0 ∧ config.ringSlots ≠ 0 ∧ config.ringSlots ≤ 65535

instance (config : CombineV2Config) : Decidable (combineConfigValid config) :=
  inferInstanceAs (Decidable (_ ∧ _))

/-- What `CompileCombinePullPlan` asks of a journal header. -/
def headerCanonical (header : JournalSlotHeader) : Prop :=
  header.magic = kPullDispatchMagic ∧ header.abiVersion = kPullDispatchAbiVersion ∧
    header.structBytes = 64 ∧ header.generation ≠ 0 ∧ header.sequence ≠ 0 ∧
    header.dispatchCookie ≠ 0 ∧ header.status = 0 ∧
    header.flags &&& ~~~kJournalFlagDenseAllDestinations = 0 ∧ header.reserved = 0

instance (header : JournalSlotHeader) : Decidable (headerCanonical header) :=
  inferInstanceAs (Decidable (_ ∧ _))

/-- The journal is sealed, canonical and of the sizes its header states. -/
def journalSealed (dispatch : CompiledLayout) (config : CombineV2Config) : Prop :=
  headerCanonical dispatch.journalHeader ∧
    JournalSlotState.ofUInt16 dispatch.journalHeader.state = some .dispatchSealed ∧
    dispatch.journalHeader.ringSlot.toUInt32 < config.ringSlots ∧
    dispatch.destinationRows.length = config.workerCount.toNat ∧
    dispatch.expertAssignments.length = config.workerCount.toNat ∧
    dispatch.journalHeader.tokenCount.toNat = dispatch.journalTokens.length ∧
    dispatch.journalHeader.contributorCount.toNat = dispatch.contributors.length ∧
    dispatch.journalTokens.length ≤ 0xffffffff

instance (dispatch : CompiledLayout) (config : CombineV2Config) :
    Decidable (journalSealed dispatch config) :=
  inferInstanceAs (Decidable (_ ∧ _))

/-! ## The journal becomes pulls and results -/

/-- What the token loop carries. -/
structure PlanState where
  accumulatorSeen : List Bool
  expectedContributorBegin : UInt64 := 0
  pulls : List CombinePullOp := []
  results : List CombineResultOp := []
deriving DecidableEq, Repr

/-- `dispatch.contributors[token.contributors_begin + local]`. -/
def readContributor (dispatch : CompiledLayout) (token : JournalTokenEntry) (local_ : ℕ) :
    Exec CombineV2Status JournalContributor :=
  read dispatch.contributors (token.contributorsBegin + UInt32.ofNat local_).toNat

/-- The comparison of a contributor with one before it. -/
def checkDistinct (dispatch : CompiledLayout) (token : JournalTokenEntry)
    (contributor : JournalContributor) (_ : Unit) (previous : ℕ) : Exec CombineV2Status Unit := do
  let other ← readContributor dispatch token previous
  require (other.workerRank ≠ contributor.workerRank) .invalidJournal
    "token has duplicate contributor B"

/-- The body of the loop over the contributors of a token. -/
def planContributor (dispatch : CompiledLayout) (config : CombineV2Config) (tokenIndex : ℕ)
    (token : JournalTokenEntry) (pulls : List CombinePullOp) (local_ : ℕ) :
    Exec CombineV2Status (List CombinePullOp) := do
  let contributor ← readContributor dispatch token local_
  require (contributor.workerRank < config.workerCount) .invalidJournal
    "invalid contributor in Dispatch journal"
  let rows ← read dispatch.destinationRows contributor.workerRank.toNat
  require (contributor.destinationRow.toNat < rows.length ∧ contributor.assignmentCount ≠ 0)
    .invalidJournal "invalid contributor in Dispatch journal"
  let localAssignmentEnd ← orFail
    (add contributor.assignmentBegin.toUInt64 contributor.assignmentCount.toUInt64)
    .invalidJournal "contributor assignment range is invalid"
  let experts ← read dispatch.expertAssignments contributor.workerRank.toNat
  require (localAssignmentEnd.toNat ≤ experts.length) .invalidJournal
    "contributor assignment range is invalid"
  let row ← read rows contributor.destinationRow.toNat
  require (row.routeKey = token.routeKey ∧ row.destinationRow = contributor.destinationRow ∧
      row.assignmentsBegin = contributor.assignmentBegin ∧
      row.assignmentsCount = contributor.assignmentCount)
    .invalidJournal "contributor does not name its canonical B row"
  (List.range local_).foldlM (checkDistinct dispatch token contributor) ()
  .ok (pulls ++ [⟨contributor.workerRank, contributor.destinationRow, UInt32.ofNat tokenIndex,
    token.accumulatorIndex⟩])

/-- The body of the loop over the tokens. -/
def planToken (dispatch : CompiledLayout) (config : CombineV2Config) (st : PlanState)
    (tokenIndex : ℕ) : Exec CombineV2Status PlanState := do
  let token ← read dispatch.journalTokens tokenIndex
  require (token.ownerRank < config.workerCount ∧
      token.routeKey = routeKey token.ownerRank token.ownerRow ∧
      token.contributorsBegin.toUInt64 = st.expectedContributorBegin)
    .invalidJournal "invalid token entry in Dispatch journal"
  let contributorEnd ← orFail
    (add token.contributorsBegin.toUInt64 token.contributorsCount.toUInt64)
    .invalidJournal "invalid token entry in Dispatch journal"
  let assignmentEnd ← orFail
    (add token.assignmentsBegin.toUInt64 token.assignmentsCount.toUInt64)
    .invalidJournal "invalid token entry in Dispatch journal"
  require (contributorEnd.toNat ≤ dispatch.contributors.length ∧
      assignmentEnd.toNat ≤ dispatch.journalAssignments.length ∧
      token.accumulatorIndex.toNat < dispatch.journalTokens.length)
    .invalidJournal "invalid token entry in Dispatch journal"
  let seen ← read st.accumulatorSeen token.accumulatorIndex.toNat
  require (seen = false ∧ token.flags = 0 ∧ token.reserved = (0, 0))
    .invalidJournal "invalid token entry in Dispatch journal"
  let accumulatorSeen ← write st.accumulatorSeen token.accumulatorIndex.toNat true
  let pulls ← (List.range token.contributorsCount.toNat).foldlM
    (planContributor dispatch config tokenIndex token) st.pulls
  let result : CombineResultOp :=
    { ownerRank := token.ownerRank
      ownerRow := token.ownerRow
      journalToken := UInt32.ofNat tokenIndex
      accumulatorIndex := token.accumulatorIndex
      expectedContributors := token.contributorsCount }
  .ok ⟨accumulatorSeen, contributorEnd, pulls, st.results ++ [result]⟩

/-! ## Sorting and offsets

`std::sort` leaves entries of equal keys in no particular order. Both lists are compared with a
dense enumeration of their keys right after, which repeated keys fail, so the stable sort here
stands for any. -/

/-- The order of the pulls: by source, then by row. -/
def pullBefore (a b : CombinePullOp) : Prop :=
  if a.sourceRank ≠ b.sourceRank then a.sourceRank < b.sourceRank else a.sourceRow < b.sourceRow

instance (a b : CombinePullOp) : Decidable (pullBefore a b) :=
  inferInstanceAs (Decidable (ite _ _ _))

/-- The order of the results: by owner, then by row. -/
def resultBefore (a b : CombineResultOp) : Prop :=
  if a.ownerRank ≠ b.ownerRank then a.ownerRank < b.ownerRank else a.ownerRow < b.ownerRow

instance (a b : CombineResultOp) : Decidable (resultBefore a b) :=
  inferInstanceAs (Decidable (ite _ _ _))

/-- `std::sort` of the pulls. -/
def sortPulls (pulls : List CombinePullOp) : List CombinePullOp :=
  pulls.insertionSort fun a b => ¬ pullBefore b a

/-- `std::sort` of the results. -/
def sortResults (results : List CombineResultOp) : List CombineResultOp :=
  results.insertionSort fun a b => ¬ resultBefore b a

/-- What the loop over the sources carries; `pull` runs through the sorted pulls. -/
structure SourceState where
  pull : ℕ := 0
  sourceOffsets : List UInt64
  sourceRowCounts : List UInt32
deriving DecidableEq, Repr

/-- One row of a source must be the next one. -/
def checkRow (pulls : List CombinePullOp) (source : ℕ) (pull row : ℕ) :
    Exec CombineV2Status ℕ := do
  require (pull < pulls.length) .invalidJournal "B rows are not a dense canonical array"
  let op ← read pulls pull
  require (op.sourceRank = UInt32.ofNat source ∧ op.sourceRow = UInt32.ofNat row)
    .invalidJournal "B rows are not a dense canonical array"
  .ok (pull + 1)

/-- The body of the loop over the sources. -/
def indexSource (dispatch : CompiledLayout) (pulls : List CombinePullOp) (st : SourceState)
    (source : ℕ) : Exec CombineV2Status SourceState := do
  let sourceOffsets ← write st.sourceOffsets source (UInt64.ofNat st.pull)
  let rows ← read dispatch.destinationRows source
  require (rows.length ≤ 0xffffffff) .capacityExceeded "source row count exceeds device index width"
  let pull ← (List.range rows.length).foldlM (checkRow pulls source) st.pull
  let sourceRowCounts ← write st.sourceRowCounts source (UInt32.ofNat rows.length)
  .ok ⟨pull, sourceOffsets, sourceRowCounts⟩

/-- The rows of one owner, from the `result`th result on: how many there are, if they are dense. -/
def countOwner (owner : ℕ) : List CombineResultOp → UInt32 → ℕ → Exec CombineV2Status ℕ
  | [], _, result => .ok result
  | op :: rest, ownerRow, result =>
    if op.ownerRank = UInt32.ofNat owner then do
      require (op.ownerRow = ownerRow) .invalidJournal "owner rows are not dense and canonical"
      countOwner owner rest (ownerRow + 1) (result + 1)
    else .ok result

/-- The body of the loop over the owners. -/
def indexOwner (results : List CombineResultOp) (st : ℕ × List UInt64) (owner : ℕ) :
    Exec CombineV2Status (ℕ × List UInt64) := do
  let ownerOffsets ← write st.2 owner (UInt64.ofNat st.1)
  let result ← countOwner owner (results.drop st.1) 0 st.1
  .ok (result, ownerOffsets)

/-! ## The reduction chains -/

/-- `invalid`: the end of a chain. -/
def invalidIndex : UInt32 := 0xffffffff

/-- The chains of pulls of each accumulator, while they are linked. -/
structure ChainState where
  pullNext : List UInt32
  accumulatorHeads : List UInt32
  accumulatorContributorCounts : List UInt32
deriving DecidableEq, Repr

/-- The walk along the chain of an accumulator for a pull of the same source. -/
def checkSourceOnce (pulls : List CombinePullOp) (pullNext : List UInt32) (sourceRank : UInt32) :
    ℕ → UInt32 → Exec CombineV2Status Unit
  | 0, _ => .error .outOfFuel
  | fuel + 1, previous =>
    if previous = invalidIndex then .ok ()
    else do
      let op ← read pulls previous.toNat
      require (op.sourceRank ≠ sourceRank) .duplicateSource "accumulator has duplicate source"
      let next ← read pullNext previous.toNat
      checkSourceOnce pulls pullNext sourceRank fuel next

/-- The body of the loop that links the pulls. -/
def linkPull (accumulatorCount : UInt32) (pulls : List CombinePullOp) (st : ChainState)
    (index : ℕ) : Exec CombineV2Status ChainState := do
  let op ← read pulls index
  require (op.accumulatorIndex < accumulatorCount) .invalidJournal
    "pull names an out-of-range accumulator"
  let head ← read st.accumulatorHeads op.accumulatorIndex.toNat
  checkSourceOnce pulls st.pullNext op.sourceRank (pulls.length + 1) head
  let pullNext ← write st.pullNext index head
  let accumulatorHeads ← write st.accumulatorHeads op.accumulatorIndex.toNat (UInt32.ofNat index)
  let count ← read st.accumulatorContributorCounts op.accumulatorIndex.toNat
  let accumulatorContributorCounts ← write st.accumulatorContributorCounts
    op.accumulatorIndex.toNat (count + 1)
  .ok ⟨pullNext, accumulatorHeads, accumulatorContributorCounts⟩

/-- The body of the loop that indexes the results. -/
def indexResult (accumulatorCount : UInt32) (contributorCounts : List UInt32)
    (results : List CombineResultOp) (resultIndex : List UInt32) (index : ℕ) :
    Exec CombineV2Status (List UInt32) := do
  let op ← read results index
  require (op.accumulatorIndex < accumulatorCount) .invalidJournal
    "result does not match its reduction index"
  let present ← read resultIndex op.accumulatorIndex.toNat
  let count ← read contributorCounts op.accumulatorIndex.toNat
  require (present = invalidIndex ∧ op.expectedContributors = count) .invalidJournal
    "result does not match its reduction index"
  write resultIndex op.accumulatorIndex.toNat (UInt32.ofNat index)

/-! ## The compiler -/

/-- The plan a run builds before it is moved to the output. -/
def buildPlan (dispatch : CompiledLayout) (config : CombineV2Config) :
    Exec CombineV2Status CombinePullPlan := do
  require (combineConfigValid config) .invalidArgument "invalid Combine plan arguments"
  require (journalSealed dispatch config) .invalidJournal
    "Dispatch journal is not sealed and canonical"
  let header := dispatch.journalHeader
  let tokens := dispatch.journalTokens.length
  let workers := config.workerCount.toNat
  let accumulatorCount := UInt32.ofNat tokens
  let journal ← (List.range tokens).foldlM (planToken dispatch config)
    { accumulatorSeen := List.replicate tokens false }
  require (journal.expectedContributorBegin.toNat = dispatch.contributors.length) .invalidJournal
    "journal contributor ranges do not cover storage"
  let pulls := sortPulls journal.pulls
  let sources ← (List.range workers).foldlM (indexSource dispatch pulls)
    { sourceOffsets := List.replicate (workers + 1) 0
      sourceRowCounts := List.replicate workers 0 }
  let sourceOffsets ← write sources.sourceOffsets workers (UInt64.ofNat sources.pull)
  require (sources.pull = pulls.length) .invalidJournal
    "pull plan contains an out-of-range source"
  let results := sortResults journal.results
  let (result, ownerOffsets) ← (List.range workers).foldlM (indexOwner results)
    (0, List.replicate (workers + 1) 0)
  let ownerOffsets ← write ownerOffsets workers (UInt64.ofNat result)
  require (result = results.length) .invalidJournal "result plan contains an out-of-range owner"
  require (pulls.length ≤ 0xffffffff) .capacityExceeded "pull index exceeds device index width"
  let chains ← (List.range pulls.length).reverse.foldlM (linkPull accumulatorCount pulls)
    { pullNext := List.replicate pulls.length invalidIndex
      accumulatorHeads := List.replicate tokens invalidIndex
      accumulatorContributorCounts := List.replicate tokens 0 }
  let resultIndex ← (List.range results.length).foldlM
    (indexResult accumulatorCount chains.accumulatorContributorCounts results)
    (List.replicate tokens invalidIndex)
  require (invalidIndex ∉ resultIndex) .invalidJournal
    "reduction index does not cover all accumulators"
  .ok
    { generation := header.generation
      sequence := header.sequence
      dispatchCookie := header.dispatchCookie
      wave := header.wave
      ringSlot := header.ringSlot
      workerCount := config.workerCount
      hidden := config.hidden
      partialDtype := config.partialDtype
      accumulatorCount := accumulatorCount
      sourceOffsets := sourceOffsets
      sourceRowCounts := sources.sourceRowCounts
      pulls := pulls
      ownerOffsets := ownerOffsets
      results := results
      pullNext := chains.pullNext
      accumulatorHeads := chains.accumulatorHeads
      accumulatorContributorCounts := chains.accumulatorContributorCounts
      accumulatorResultIndex := resultIndex }

/-- How the call ends, and what `*plan` holds then; a null `plan` is `none`. -/
def compileCombinePullPlan (dispatch : CompiledLayout) (config : CombineV2Config)
    (plan : Option CombinePullPlan) : Exec CombineV2Status Unit × Option CombinePullPlan :=
  match plan with
  | none => (fail .invalidArgument "invalid Combine plan arguments", none)
  | some _ =>
    match buildPlan dispatch config with
    | .ok built => (.ok (), some built)
    | .error stop => (.error stop, plan)

end AscendShmem.PullV2
