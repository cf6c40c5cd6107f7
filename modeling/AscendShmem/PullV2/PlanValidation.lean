import AscendShmem.Lib.Strided
import AscendShmem.PullV2.CombineKernel
import AscendShmem.PullV2.JournalReservation

/-!
# The plan checks of the combine kernel

Before it pulls anything, `inc_dc_pull_combine_v2_device_kernel` proves the index it was launched
with: block zero checks the offsets and the counts, then all blocks share the pulls and the
accumulators by strides. The arrays are those of a plan, with contents from anywhere; the launch
says how long they are. What the checks before these say about the journal header and the
registrations is not part of the index.

A block that finds a failure sets the status word and leaves its loop; the kernel goes on behind the
barrier only if the word is still `kStatusOk`. So the run here goes through exactly when every loop
of every block ends without a failure. A loop that never ends keeps all blocks at the barrier.
-/

namespace AscendShmem.PullV2

open Lib Lib.Exec

/-- Go on only if `p` holds; the device reports a status and no text. -/
def ensure (p : Prop) [Decidable p] (status : CombineDeviceStatus) :
    Exec CombineDeviceStatus Unit := require p status ""

/-! ## Block zero -/

/-- The body of the loop that counts the pulls. -/
def countPulls (launch : CombineLaunch) (plan : CombinePullPlan) (indexed : UInt64)
    (accumulator : ℕ) : Exec CombineDeviceStatus UInt64 := do
  let count ← read plan.accumulatorContributorCounts accumulator
  ensure (count ≤ launch.workerCount) .invalidJournal
  let indexed ← orFail (addU64 indexed count.toUInt64) .invalidJournal ""
  ensure (indexed ≤ launch.pullCount) .invalidJournal
  .ok indexed

/-- The body of the loop over the owners. -/
def checkOwner (plan : CombinePullPlan) (rowBytes : UInt64) (maximum : UInt64) (owner : ℕ) :
    Exec CombineDeviceStatus UInt64 := do
  let source ← read plan.sourceOffsets owner
  let sourceEnd ← read plan.sourceOffsets (owner + 1)
  let first ← read plan.ownerOffsets owner
  let last ← read plan.ownerOffsets (owner + 1)
  ensure (source ≤ sourceEnd ∧ first ≤ last) .invalidJournal
  let ownerRows := last - first
  ensure (ownerRows ≤ 0xffffffff) .sizeOverflow
  let ownerBytes ← orFail (checkedMulU64ByU32 rowBytes ownerRows.toUInt32) .sizeOverflow ""
  .ok (if maximum < ownerBytes then ownerBytes else maximum)

/-- The checks of block zero, in their order. -/
def checkIndex (launch : CombineLaunch) (plan : CombinePullPlan) :
    Exec CombineDeviceStatus Unit := do
  let workers := launch.workerCount.toNat
  let source ← read plan.sourceOffsets 0
  let sourceEnd ← read plan.sourceOffsets workers
  let owner ← read plan.ownerOffsets 0
  let ownerEnd ← read plan.ownerOffsets workers
  ensure (source = 0 ∧ sourceEnd = launch.pullCount ∧ owner = 0 ∧
    ownerEnd = launch.resultCount) .invalidJournal
  let indexed ← (List.range launch.accumulatorCount.toNat).foldlM (countPulls launch plan) 0
  ensure (indexed = launch.pullCount) .invalidJournal
  let rowBytes ← orFail (checkedMulU64ByU32 4 launch.hidden) .invalidArgument ""
  let maximum ← (List.range workers).foldlM (checkOwner plan rowBytes) 0
  ensure (maximum ≤ launch.ownerOutputSlotStride) .capacityExceeded

/-! ## The loops of a block -/

/-- `raw` runs through the pulls of a block. -/
def checkPull (launch : CombineLaunch) (plan : CombinePullPlan) (raw : UInt64) :
    Exec CombineDeviceStatus Unit := do
  let index := raw.toUInt32
  let op ← read plan.pulls index.toNat
  let successor ← read plan.pullNext index.toNat
  ensure (op.sourceRank < launch.workerCount ∧ op.accumulatorIndex < launch.accumulatorCount ∧
    op.journalToken < launch.accumulatorCount) .invalidJournal
  let first ← read plan.sourceOffsets op.sourceRank.toNat
  let last ← read plan.sourceOffsets (op.sourceRank + 1).toNat
  ensure (first ≤ index.toUInt64 ∧ index.toUInt64 < last ∧
    op.sourceRow.toUInt64 = index.toUInt64 - first) .invalidJournal
  if successor = invalidIndex then .ok ()
  else do
    ensure (index < successor ∧ successor.toUInt64 < launch.pullCount) .invalidJournal
    let next ← read plan.pulls successor.toNat
    ensure (next.accumulatorIndex = op.accumulatorIndex) .invalidJournal

/-- The walk along a chain, with the passes that are still expected. -/
def walkChain (launch : CombineLaunch) (plan : CombinePullPlan) (accumulator : UInt32)
    (journalToken : UInt32) : ℕ → SeenSources → UInt32 → Exec CombineDeviceStatus Unit
  | 0, _, current => ensure (current = invalidIndex) .invalidJournal
  | left + 1, seen, current => do
    ensure (current ≠ invalidIndex ∧ current.toUInt64 < launch.pullCount) .invalidJournal
    let op ← read plan.pulls current.toNat
    ensure (op.accumulatorIndex = accumulator ∧ op.journalToken = journalToken ∧
      seen.seen op.sourceRank = false) .invalidJournal
    let next ← read plan.pullNext current.toNat
    walkChain launch plan accumulator journalToken left (seen.mark op.sourceRank) next

/-- The checks of one accumulator. -/
def checkAccumulator (launch : CombineLaunch) (plan : CombinePullPlan) (accumulator : UInt32) :
    Exec CombineDeviceStatus Unit := do
  let expected ← read plan.accumulatorContributorCounts accumulator.toNat
  let result ← read plan.accumulatorResultIndex accumulator.toNat
  ensure (result.toUInt64 < launch.resultCount) .invalidJournal
  let op ← read plan.results result.toNat
  ensure (op.accumulatorIndex = accumulator ∧ op.journalToken < launch.accumulatorCount ∧
    op.expectedContributors = expected ∧ op.ownerRank < launch.workerCount) .invalidJournal
  let first ← read plan.ownerOffsets op.ownerRank.toNat
  let last ← read plan.ownerOffsets (op.ownerRank + 1).toNat
  ensure (first ≤ result.toUInt64 ∧ result.toUInt64 < last ∧
    op.ownerRow.toUInt64 = result.toUInt64 - first ∧ op.reserved = (0, 0, 0)) .invalidJournal
  let head ← read plan.accumulatorHeads accumulator.toNat
  walkChain launch plan accumulator op.journalToken expected.toNat SeenSources.none head

/-- The pull counter has 64 bits, the accumulator counter 32. -/
def checkBlock (fuel : ℕ) (launch : CombineLaunch) (plan : CombinePullPlan) (block : ℕ) :
    Exec CombineDeviceStatus Unit := do
  forLoop (fun raw : UInt64 => raw < launch.pullCount) (fun raw => raw + launch.blocks.toUInt64)
    (checkPull launch plan) fuel (UInt64.ofNat block)
  forLoop (fun accumulator : UInt32 => accumulator < launch.accumulatorCount)
    (fun accumulator => accumulator + launch.blocks) (checkAccumulator launch plan) fuel
    (UInt32.ofNat block)

/-- The plan checks of a launch; the fuel bounds the passes of a loop. -/
def validatePlan (fuel : ℕ) (launch : CombineLaunch) (plan : CombinePullPlan) :
    Exec CombineDeviceStatus Unit := do
  ensure launch.Valid .invalidArgument
  checkIndex launch plan
  (List.range launch.blocks.toNat).foldlM (fun _ block => checkBlock fuel launch plan block) ()

/-- The checks end and leave the status word at `kStatusOk`. -/
def Validates (launch : CombineLaunch) (plan : CombinePullPlan) : Prop :=
  ∃ fuel, validatePlan fuel launch plan = .ok ()

/-! ## What a validated plan is -/

/-- Following the links from a word visits the indices of a list and ends in the invalid index. -/
def ChainFrom (links : List UInt32) : UInt32 → List ℕ → Prop
  | word, [] => word = invalidIndex
  | word, i :: l => word ≠ invalidIndex ∧ word.toNat = i ∧
    ∃ next, links[i]? = some next ∧ ChainFrom links next l

/-- The rows of an owner, from its offsets. -/
def CombinePullPlan.ownerRows (plan : CombinePullPlan) (owner : ℕ) : ℕ :=
  (plan.ownerOffsets.getD (owner + 1) 0).toNat - (plan.ownerOffsets.getD owner 0).toNat

/-- The chain of every accumulator is followed to its end, and takes no source twice. -/
structure ChainsSound (launch : CombineLaunch) (plan : CombinePullPlan) (chains : ℕ → List ℕ) :
    Prop where
  linked : ∀ a < launch.accumulatorCount.toNat, ∃ head, plan.accumulatorHeads[a]? = some head ∧
    ChainFrom plan.pullNext head (chains a)
  sources : ∀ a < launch.accumulatorCount.toNat,
    ((chains a).map fun i => (plan.pulls[i]?).map CombinePullOp.sourceRank).Nodup
  pulls : ∀ a < launch.accumulatorCount.toNat, ∀ i ∈ chains a, i < plan.pulls.length
  once : ∀ i < launch.pullCount.toNat, ∃! a, a < launch.accumulatorCount.toNat ∧ i ∈ chains a

/-- The accumulators and the output rows correspond one to one. -/
structure CellsSound (launch : CombineLaunch) (plan : CombinePullPlan) (cell : ℕ → ℕ × ℕ) :
    Prop where
  result : ∀ a < launch.accumulatorCount.toNat, ∃ r op, plan.accumulatorResultIndex[a]? = some r ∧
    plan.results[r.toNat]? = some op ∧ op.accumulatorIndex.toNat = a ∧
    cell a = (op.ownerRank.toNat, op.ownerRow.toNat)
  bijective : Set.BijOn cell (Set.Iio launch.accumulatorCount.toNat)
    {p | p.1 < launch.workerCount.toNat ∧ p.2 < plan.ownerRows p.1}

/-- What the rest of the kernel relies on. -/
def IndexSound (launch : CombineLaunch) (plan : CombinePullPlan) : Prop :=
  (∃ chains, ChainsSound launch plan chains) ∧ ∃ cell, CellsSound launch plan cell

/-- A launch for the arrays of a plan. -/
structure CombineLaunch.For (launch : CombineLaunch) (plan : CombinePullPlan) : Prop where
  valid : launch.Valid
  workerCount : launch.workerCount = plan.workerCount
  accumulatorCount : launch.accumulatorCount = plan.accumulatorCount
  pullCount : launch.pullCount.toNat = plan.pulls.length
  resultCount : launch.resultCount.toNat = plan.results.length

/-- The output slot of every owner has room for its rows. -/
def CombineLaunch.OwnersFit (launch : CombineLaunch) (plan : CombinePullPlan) : Prop :=
  ∀ owner < launch.workerCount.toNat,
    4 * launch.hidden.toNat * plan.ownerRows owner ≤ launch.ownerOutputSlotStride.toNat

/-- The 32-bit counter of the accumulator loop steps over the accumulator count before it wraps
around for good. -/
def CombineLaunch.CounterEnds (launch : CombineLaunch) : Prop :=
  launch.accumulatorCount.toNat + Nat.gcd launch.blocks.toNat (2 ^ 32) ≤ 2 ^ 32

end AscendShmem.PullV2
