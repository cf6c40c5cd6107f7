import Mathlib
import AscendShmem.PullV2.Dispatch

/-!
# The layout compiler

The `CompileLayout` half of `inc_dc_pull_dispatch_v2.cpp`: it collects the sources of a wave,
allocates one row per token and destination in arrival order, and writes the journal in
source order. `config` comes from the caller and is not compared with the session the
sources were parsed under, so an expert id may lie outside `expert_counts`; such a write is
a fault of the run.
-/

namespace AscendShmem.PullV2

open Lib Lib.Exec

/-- `LayoutConfig` -/
structure LayoutConfig where
  workerCount : UInt32 := 0
  expertCount : UInt32 := 0
  destinationRowCapacity : UInt64 := 0
  destinationAssignmentCapacity : UInt64 := 0
deriving DecidableEq, Repr

/-- `CompiledLayout` -/
structure CompiledLayout where
  journalHeader : JournalSlotHeader := {}
  journalTokens : List JournalTokenEntry := []
  contributors : List JournalContributor := []
  journalAssignments : List AssignmentRecord := []
  destinationRows : List (List DestinationRow) := []
  expertAssignments : List (List ExpertAssignment) := []
  /-- flattened `[destination][expert]` -/
  expertCounts : List UInt32 := []
deriving DecidableEq, Repr

/-! ## Collecting the sources -/

/-- What the first loop carries from source to source. -/
structure CollectState where
  byRank : List (Option ParsedSource)
  generation : UInt64 := 0
  sequence : UInt64 := 0
  wave : UInt32 := 0
  ringSlot : UInt16 := 0
deriving DecidableEq, Repr

/-- The first source sets the epoch; only the later ones are compared with it, and only they
have their `worker_count` tested. -/
def collectSource (config : LayoutConfig) (st : CollectState) (source : ParsedSource) :
    Exec Status CollectState := do
  let rank := source.header.sourceRank
  require (rank < config.workerCount) .duplicateSource "duplicate or invalid source"
  let present ← read st.byRank rank.toNat
  require (present = none) .duplicateSource "duplicate or invalid source"
  let byRank ← write st.byRank rank.toNat (some source)
  if st.generation = 0 then
    .ok ⟨byRank, source.header.generation, source.header.sequence, source.header.wave,
      source.header.ringSlot⟩
  else do
    require (source.header.generation = st.generation ∧ source.header.sequence = st.sequence ∧
        source.header.wave = st.wave ∧ source.header.ringSlot = st.ringSlot ∧
        source.header.workerCount = config.workerCount)
      .staleEpoch "mixed source epochs"
    .ok { st with byRank := byRank }

/-- The body of the loop over the arrival order. -/
def checkArrival (config : LayoutConfig) (seen : List Bool) (rank : UInt32) :
    Exec Status (List Bool) := do
  require (rank < config.workerCount) .duplicateSource "arrival order is not a permutation"
  let hit ← read seen rank.toNat
  require (hit = false) .duplicateSource "arrival order is not a permutation"
  write seen rank.toNat true

/-- `*by_rank[rank]`; a null pointer is a fault. -/
def sourceAt (byRank : List (Option ParsedSource)) (rank : ℕ) : Exec Status ParsedSource := do
  match ← read byRank rank with
  | some source => .ok source
  | none => .error .outOfRange

/-! ## Allocating rows -/

/-- `grouped[assignment.destination_rank].push_back(assignment)`. -/
def groupAssignment (source : ParsedSource) (record : TokenRecord)
    (grouped : List (List AssignmentRecord)) (local_ : ℕ) :
    Exec Status (List (List AssignmentRecord)) := do
  let assignment ← read source.assignments (record.assignmentBegin + UInt32.ofNat local_).toNat
  let group ← read grouped assignment.destinationRank.toNat
  write grouped assignment.destinationRank.toNat (group ++ [assignment])

/-- The rows, assignments and contributors placed so far. -/
structure LayoutState where
  destinationRows : List (List DestinationRow)
  expertAssignments : List (List ExpertAssignment)
  expertCounts : List UInt32
  contributorMap : List (List (List JournalContributor))
deriving DecidableEq, Repr

/-- One assignment of a row: it takes the next row of its expert. -/
def placeAssignment (config : LayoutConfig) (destination : ℕ) (destinationRow : UInt32)
    (st : List UInt32 × List ExpertAssignment) (assignment : AssignmentRecord) :
    Exec Status (List UInt32 × List ExpertAssignment) := do
  let countIndex := destination * config.expertCount.toNat + assignment.expertId.toNat
  let expertRow ← read st.1 countIndex
  let counts ← write st.1 countIndex (expertRow + 1)
  let expert : ExpertAssignment :=
    { destinationRow := destinationRow
      expertId := assignment.expertId
      expertRow := expertRow
      ordinal := assignment.ordinal
      weight := assignment.weight }
  .ok (counts, st.2 ++ [expert])

/-- The row of one token at one destination. -/
def placeGroup (config : LayoutConfig) (rank : UInt32) (token : ℕ) (record : TokenRecord)
    (grouped : List (List AssignmentRecord)) (st : LayoutState) (destination : ℕ) :
    Exec Status LayoutState := do
  let group ← read grouped destination
  if group = [] then .ok st
  else do
    let rows ← read st.destinationRows destination
    let experts ← read st.expertAssignments destination
    require (rows.length < config.destinationRowCapacity.toNat ∧
        experts.length + group.length ≤ config.destinationAssignmentCapacity.toNat)
      .capacityExceeded "destination layout capacity exceeded"
    let destinationRow := UInt32.ofNat rows.length
    let assignmentBegin := UInt32.ofNat experts.length
    let (counts, experts) ← group.foldlM (placeAssignment config destination destinationRow)
      (st.expertCounts, experts)
    let row : DestinationRow :=
      { routeKey := routeKey rank record.sourceToken, tokenId := record.tokenId,
        sourceRank := rank, sourceToken := record.sourceToken, destinationRow := destinationRow,
        assignmentsBegin := assignmentBegin, assignmentsCount := UInt32.ofNat group.length }
    let destinationRows ← write st.destinationRows destination (rows ++ [row])
    let expertAssignments ← write st.expertAssignments destination experts
    let perToken ← read st.contributorMap rank.toNat
    let contributors ← read perToken token
    let perToken ← write perToken token (contributors ++
      [⟨UInt32.ofNat destination, destinationRow, assignmentBegin, UInt32.ofNat group.length⟩])
    let contributorMap ← write st.contributorMap rank.toNat perToken
    .ok ⟨destinationRows, expertAssignments, counts, contributorMap⟩

/-- The body of the loop over the tokens of a source. -/
def placeToken (config : LayoutConfig) (rank : UInt32) (source : ParsedSource) (st : LayoutState)
    (token : ℕ) : Exec Status LayoutState := do
  let record ← read source.tokens token
  let grouped ← (List.range record.assignmentCount.toNat).foldlM (groupAssignment source record)
    (List.replicate config.workerCount.toNat [])
  (List.range config.workerCount.toNat).foldlM (placeGroup config rank token record grouped) st

/-- The body of the loop over the sources, in arrival order. -/
def placeSource (config : LayoutConfig) (byRank : List (Option ParsedSource)) (st : LayoutState)
    (rank : UInt32) : Exec Status LayoutState := do
  let source ← sourceAt byRank rank.toNat
  (List.range source.tokens.length).foldlM (placeToken config rank source) st

/-! ## The journal -/

/-- The journal written so far. -/
structure JournalState where
  cookie : UInt64 := kHashOffset
  tokens : List JournalTokenEntry := []
  contributors : List JournalContributor := []
  assignments : List AssignmentRecord := []
deriving DecidableEq, Repr

/-- The body of the loop over the tokens of a source. -/
def journalToken (rank : ℕ) (source : ParsedSource) (perToken : List (List JournalContributor))
    (st : JournalState) (token : ℕ) : Exec Status JournalState := do
  let record ← read source.tokens token
  let contributors ← read perToken token
  require (st.tokens.length < 0xffffffff ∧
      st.contributors.length + contributors.length ≤ 0xffffffff ∧
      st.assignments.length + record.assignmentCount.toNat ≤ 0xffffffff)
    .sizeOverflow "journal size overflow"
  let entry : JournalTokenEntry :=
    { routeKey := routeKey (UInt32.ofNat rank) record.sourceToken, tokenId := record.tokenId,
      ownerRank := UInt32.ofNat rank, ownerRow := record.sourceToken,
      contributorsBegin := UInt32.ofNat st.contributors.length,
      contributorsCount := UInt32.ofNat contributors.length,
      assignmentsBegin := UInt32.ofNat st.assignments.length,
      assignmentsCount := record.assignmentCount,
      accumulatorIndex := UInt32.ofNat st.tokens.length }
  if record.assignmentBegin.toNat + record.assignmentCount.toNat ≤ source.assignments.length then
    .ok { st with
      tokens := st.tokens ++ [entry]
      contributors := st.contributors ++ contributors
      assignments := st.assignments ++ (source.assignments.drop record.assignmentBegin.toNat).take
        record.assignmentCount.toNat }
  else .error .outOfRange

/-- The body of the loop over the sources, in rank order. -/
def journalSource (byRank : List (Option ParsedSource))
    (contributorMap : List (List (List JournalContributor))) (st : JournalState) (rank : ℕ) :
    Exec Status JournalState := do
  let source ← sourceAt byRank rank
  let cookie := hashBytes st.cookie (Codec.u64.enc source.header.metadataDigest)
  let perToken ← read contributorMap rank
  (List.range source.tokens.length).foldlM (journalToken rank source perToken)
    { st with cookie := cookie }

/-! ## The uniform flag -/

/-- One assignment of a token; `none` once a destination has come twice. -/
def markDestination (source : ParsedSource) (record : TokenRecord)
    (destinations : Option (List Bool)) (local_ : ℕ) : Exec Status (Option (List Bool)) :=
  match destinations with
  | none => .ok none
  | some destinations => do
    let assignment ← read source.assignments (record.assignmentBegin + UInt32.ofNat local_).toNat
    let hit ← read destinations assignment.destinationRank.toNat
    if hit then .ok none
    else do
      let destinations ← write destinations assignment.destinationRank.toNat true
      .ok (some destinations)

/-- One token of a source; the state is the reference set, `none` once the wave is not uniform. -/
def uniformToken (workerCount : UInt32) (source : ParsedSource) (reference : Option (List Bool))
    (token : ℕ) : Exec Status (Option (List Bool)) :=
  match reference with
  | none => .ok none
  | some reference => do
    let record ← read source.tokens token
    let destinations ← (List.range record.assignmentCount.toNat).foldlM
      (markDestination source record) (some (List.replicate workerCount.toNat false))
    match destinations with
    | none => .ok none
    | some destinations =>
      if token = 0 then .ok (some destinations)
      else if destinations = reference then .ok (some reference)
      else .ok none

/-- The test of one source for the uniform flag. -/
def uniformSource (workerCount : UInt32) (byRank : List (Option ParsedSource)) (uniform : Bool)
    (rank : ℕ) : Exec Status Bool :=
  if uniform then do
    let source ← sourceAt byRank rank
    let reference ← (List.range source.tokens.length).foldlM (uniformToken workerCount source)
      (some (List.replicate workerCount.toNat false))
    .ok reference.isSome
  else .ok false

/-! ## The compiler -/

/-- The arguments a layout is compiled from. -/
def layoutInputValid (sources : List ParsedSource) (arrivalOrder : List UInt32)
    (config : LayoutConfig) : Prop :=
  2 ≤ config.workerCount ∧ config.workerCount ≤ kPullDispatchMaxWorkers ∧
    config.expertCount ≠ 0 ∧ config.destinationRowCapacity ≠ 0 ∧
    config.destinationAssignmentCapacity ≠ 0 ∧ sources.length = config.workerCount.toNat ∧
    arrivalOrder.length = config.workerCount.toNat

instance (sources : List ParsedSource) (arrivalOrder : List UInt32) (config : LayoutConfig) :
    Decidable (layoutInputValid sources arrivalOrder config) :=
  inferInstanceAs (Decidable (_ ∧ _))

/-- `contributor_map[rank].resize(by_rank[rank]->tokens.size())`. -/
def emptyContributors (byRank : List (Option ParsedSource))
    (contributorMap : List (List (List JournalContributor))) (rank : ℕ) :
    Exec Status (List (List (List JournalContributor))) := do
  let source ← sourceAt byRank rank
  .ok (contributorMap ++ [List.replicate source.tokens.length []])

/-- The header of the finished journal. -/
def sealedHeader (wave : CollectState) (journal : JournalState) (uniform : Bool) :
    JournalSlotHeader :=
  { generation := wave.generation
    sequence := wave.sequence
    dispatchCookie := if journal.cookie = 0 then 1 else journal.cookie
    wave := wave.wave
    ringSlot := wave.ringSlot
    state := JournalSlotState.dispatchSealed.toUInt16
    tokenCount := UInt32.ofNat journal.tokens.length
    contributorCount := UInt32.ofNat journal.contributors.length
    flags := if uniform then kJournalFlagUniformDestinations else 0 }

/-- `CompileLayout` -/
def compileLayout (sources : List ParsedSource) (arrivalOrder : List UInt32)
    (config : LayoutConfig) (output : Bool := true) : Exec Status CompiledLayout := do
  require (output = true ∧ layoutInputValid sources arrivalOrder config)
    .invalidArgument "invalid layout input"
  let workers := config.workerCount.toNat
  let wave ← sources.foldlM (collectSource config) { byRank := List.replicate workers none }
  let _ ← arrivalOrder.foldlM (checkArrival config) (List.replicate workers false)
  let contributorMap ← (List.range workers).foldlM (emptyContributors wave.byRank) []
  let placed ← arrivalOrder.foldlM (placeSource config wave.byRank)
    ⟨List.replicate workers [], List.replicate workers [],
      List.replicate (workers * config.expertCount.toNat) 0, contributorMap⟩
  let journal ← (List.range workers).foldlM (journalSource wave.byRank placed.contributorMap) {}
  let uniform ← (List.range workers).foldlM (uniformSource config.workerCount wave.byRank) true
  .ok
    { journalHeader := sealedHeader wave journal uniform
      journalTokens := journal.tokens
      contributors := journal.contributors
      journalAssignments := journal.assignments
      destinationRows := placed.destinationRows
      expertAssignments := placed.expertAssignments
      expertCounts := placed.expertCounts }

end AscendShmem.PullV2
