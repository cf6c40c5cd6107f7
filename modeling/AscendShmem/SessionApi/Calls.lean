import Mathlib

/-!
# The session API

`inc_dc_pull_v2_api.cpp`: a session over a backend, with batch handles and completions that the
caller owns. A session counts the batches it has issued; `Combine` and `batch_release` consume a
batch. The store holds the caller's objects by their addresses. The backend is not part of this
code: what its function answers is an argument of the call that makes it.
-/

namespace AscendShmem.SessionApi

/-- A pointer, `none` for null. -/
abbrev Pointer := Option ℕ

/-- `DataType`, with the values that name none. -/
inductive DataType where
  | fp16
  | bf16
  | fp32
  | other (value : UInt32)
deriving DecidableEq, Repr

/-- `StatusCode` -/
inductive StatusCode where
  | ok
  | invalidArgument
  | capacityExceeded
  | busySlot
  | staleHandle
  | backendError
  | timeout
  | aborted
  | unsupported
  | other (value : UInt32)
deriving DecidableEq, Repr

/-- `Status` -/
structure Status where
  code : StatusCode
  message : String
deriving DecidableEq, Repr

/-- `StatusString` -/
def statusString : StatusCode → String
  | .ok => "ok"
  | .invalidArgument => "invalid argument"
  | .capacityExceeded => "capacity exceeded"
  | .busySlot => "ring slot busy"
  | .staleHandle => "stale batch handle"
  | .backendError => "backend error"
  | .timeout => "timeout"
  | .aborted => "aborted"
  | .unsupported => "unsupported"
  | .other _ => "unknown"

/-- `MakeStatus` -/
def makeStatus (code : StatusCode) : Status := ⟨code, statusString code⟩

/-- `WaveId` -/
structure WaveId where
  generation : UInt64 := 0
  sequence : UInt64 := 0
  wave : UInt32 := 0
  ringSlot : UInt16 := 0
  reserved : UInt16 := 0

/-- `SessionConfig` -/
structure SessionConfig where
  sessionId : UInt64 := 0
  placementEpoch : UInt64 := 0
  rank : UInt32 := 0
  workerCount : UInt32 := 0
  incRank : UInt32 := 0
  hidden : UInt32 := 0
  expertCount : UInt32 := 0
  ringSlots : UInt32 := 2
  maxTokensPerRank : UInt32 := 0
  maxAssignmentsPerRank : UInt32 := 0

/-- `DispatchInput` -/
structure DispatchInput where
  sendBuffer : Pointer
  sendTokenIds : Pointer
  assignmentOffsets : Pointer
  destinationGpus : Pointer
  expertIds : Pointer
  expertWeights : Pointer
  tokenCount : UInt32
  assignmentCount : UInt32
  fixedTopk : UInt32

/-- `DispatchOutput` -/
structure DispatchOutput where
  recvBuffer : Pointer
  recvCapacityBytes : UInt64
  rowCapacity : UInt32
  assignmentCapacity : UInt32
  recvRowCount : Pointer
  recvAssignmentCount : Pointer

/-- `CombineInput` -/
structure CombineInput where
  sendBuffer : Pointer
  sendTokenIds : Pointer
  sendCount : UInt32

/-- `CombineOutput` -/
structure CombineOutput where
  recvBuffer : Pointer
  recvCapacity : UInt32
  recvCount : Pointer

/-- `BackendTicket` -/
structure BackendTicket where
  words : Fin 4 → UInt64 := fun _ => 0

/-- `BatchHandle` -/
structure BatchHandle where
  sessionId : UInt64 := 0
  id : WaveId := {}
  ticket : BackendTicket := {}
  live : Bool := false

/-- `Completion` -/
structure Completion where
  ticket : BackendTicket := {}
  live : Bool := false

/-- `BackendOps` -/
structure BackendOps where
  create : Pointer := none
  destroy : Pointer := none
  dispatch : Pointer := none
  combine : Pointer := none
  query : Pointer := none
  wait : Pointer := none
  releaseBatch : Pointer := none

/-- `SingleIncSession` -/
structure SingleIncSession where
  config : SessionConfig := {}
  backend : BackendOps := {}
  backendContext : Pointer := none
  liveBatches : UInt32 := 0
  initialized : Bool := false

/-- The caller's objects. -/
structure Store where
  sessions : ℕ → SingleIncSession
  batches : ℕ → BatchHandle
  completions : ℕ → Completion

/-- What the backend function of a call returns and writes to the tickets of the call. -/
structure Reply where
  code : StatusCode
  batch : BackendTicket := {}
  completion : BackendTicket := {}

/-- `ValidSessionConfig` -/
def validSessionConfig (config : SessionConfig) : Prop :=
  config.sessionId ≠ 0 ∧ config.placementEpoch ≠ 0 ∧
    2 ≤ config.workerCount ∧ config.workerCount ≤ 128 ∧
    config.incRank = config.workerCount ∧
    config.rank ≤ config.incRank ∧ config.hidden ≠ 0 ∧
    config.expertCount ≠ 0 ∧ config.ringSlots ≠ 0 ∧
    config.maxTokensPerRank ≠ 0 ∧
    config.maxAssignmentsPerRank ≠ 0

instance (config : SessionConfig) : Decidable (validSessionConfig config) :=
  inferInstanceAs (Decidable (_ ∧ _))

/-- The rank of the session is a worker. -/
def worker (session : SingleIncSession) : Prop := session.config.rank < session.config.workerCount

instance (session : SingleIncSession) : Decidable (worker session) :=
  inferInstanceAs (Decidable (_ < _))

/-- `DataTypeBytes` -/
def dataTypeBytes : DataType → UInt32
  | .fp16 => 2
  | .bf16 => 2
  | .fp32 => 4
  | .other _ => 0

/-! ## Creating and destroying a session -/

/-- The arguments of a creation. -/
structure CreateArgs where
  config : SessionConfig
  backend : BackendOps
  backendContext : Pointer
  session : Pointer

/-- `single_inc_create` -/
def singleIncCreate (m : Store) (a : CreateArgs) (reply : Reply) : Status × Store :=
  match a.session with
  | none => (makeStatus .invalidArgument, m)
  | some session =>
    if (m.sessions session).initialized ∨ ¬ validSessionConfig a.config ∨
        a.backend.create = none ∨ a.backend.destroy = none ∨ a.backend.dispatch = none ∨
        a.backend.combine = none ∨ a.backend.query = none ∨ a.backend.wait = none ∨
        a.backend.releaseBatch = none then
      (makeStatus .invalidArgument, m)
    else if reply.code ≠ .ok then (makeStatus reply.code, m)
    else (makeStatus .ok, { m with
      sessions := Function.update m.sessions session { m.sessions session with
        config := a.config
        backend := a.backend
        backendContext := a.backendContext
        initialized := true } })

/-- `single_inc_destroy` -/
def singleIncDestroy (m : Store) (session : Pointer) (reply : Reply) : Status × Store :=
  match session with
  | none => (makeStatus .invalidArgument, m)
  | some session =>
    if ¬ (m.sessions session).initialized then (makeStatus .invalidArgument, m)
    else if (m.sessions session).liveBatches ≠ 0 then (makeStatus .busySlot, m)
    else if reply.code ≠ .ok then (makeStatus reply.code, m)
    else (makeStatus .ok, { m with sessions := Function.update m.sessions session {} })

/-! ## Dispatch -/

/-- The arguments of a dispatch. -/
structure DispatchArgs where
  session : Pointer
  dtype : DataType
  id : WaveId
  input : Option DispatchInput
  output : Option DispatchOutput
  stream : Pointer
  batch : Pointer
  completion : Pointer

/-- The checks of `DispatchAsync` on its buffers. -/
def checkDispatchBuffers (session : SingleIncSession) (dtype : DataType)
    (input : Option DispatchInput) (output : Option DispatchOutput) : Option StatusCode :=
  if worker session then
    match input, output with
    | some input, some output =>
      if (input.tokenCount ≠ 0 ∧ (input.sendBuffer = none ∨ input.sendTokenIds = none)) ∨
          session.config.maxTokensPerRank < input.tokenCount ∨
          session.config.maxAssignmentsPerRank < input.assignmentCount ∨
          (input.fixedTopk = 0 ∧ input.assignmentOffsets = none) ∨
          (input.assignmentCount ≠ 0 ∧
            (input.destinationGpus = none ∨ input.expertIds = none ∨
              input.expertWeights = none)) ∨
          output.recvBuffer = none ∨ output.recvCapacityBytes = 0 ∨ output.rowCapacity = 0 ∨
          output.assignmentCapacity = 0 ∨ output.recvRowCount = none ∨
          output.recvAssignmentCount = none then
        some .invalidArgument
      else if input.fixedTopk ≠ 0 ∧
          (0xffffffff / input.fixedTopk < input.tokenCount ∨
            input.assignmentCount ≠ input.tokenCount * input.fixedTopk) then
        some .invalidArgument
      else
        let elements := output.rowCapacity.toUInt64 * session.config.hidden.toUInt64
        let dtypeBytes := (dataTypeBytes dtype).toUInt64
        if 0xffffffffffffffff / dtypeBytes < elements ∨
            output.recvCapacityBytes < elements * dtypeBytes ∨
            output.assignmentCapacity < input.assignmentCount then
          some .capacityExceeded
        else none
    | _, _ => some .invalidArgument
  else if input.isSome ∨ output.isSome then some .invalidArgument
  else none

/-- `DispatchAsync` -/
def dispatchAsync (m : Store) (a : DispatchArgs) (reply : Reply) : Status × Store :=
  match a.session, a.batch, a.completion with
  | some s, some b, some c =>
    let session := m.sessions s
    if ¬ session.initialized ∨ (m.batches b).live ∨ (m.completions c).live ∨
        a.id.generation = 0 ∨ a.id.sequence = 0 ∨
        session.config.ringSlots ≤ a.id.ringSlot.toUInt32 ∨ a.stream = none ∨
        dataTypeBytes a.dtype = 0 then
      (makeStatus .invalidArgument, m)
    else
      match checkDispatchBuffers session a.dtype a.input a.output with
      | some code => (makeStatus code, m)
      | none =>
        if reply.code ≠ .ok then (makeStatus reply.code, m)
        else (makeStatus .ok, {
          sessions := Function.update m.sessions s
            { session with liveBatches := session.liveBatches + 1 }
          batches := Function.update m.batches b
            ⟨session.config.sessionId, a.id, reply.batch, true⟩
          completions := Function.update m.completions c ⟨reply.completion, true⟩ })
  | _, _, _ => (makeStatus .invalidArgument, m)

/-! ## Combine and release -/

/-- The arguments of a combine. -/
structure CombineArgs where
  session : Pointer
  batch : Pointer
  input : Option CombineInput
  output : Option CombineOutput
  stream : Pointer
  completion : Pointer

/-- The checks of `CombineAsync` on its buffers. -/
def checkCombineBuffers (session : SingleIncSession) (input : Option CombineInput)
    (output : Option CombineOutput) : Option StatusCode :=
  if worker session then
    match input, output with
    | some input, some output =>
      if (input.sendCount ≠ 0 ∧ (input.sendBuffer = none ∨ input.sendTokenIds = none)) ∨
          output.recvBuffer = none ∨ output.recvCount = none ∨ output.recvCapacity = 0 ∨
          session.config.maxAssignmentsPerRank < input.sendCount ∨
          session.config.maxTokensPerRank < output.recvCapacity then
        some .invalidArgument
      else none
    | _, _ => some .invalidArgument
  else if input.isSome ∨ output.isSome then some .invalidArgument
  else none

/-- `batch->live = false`, and one live batch less; `false` if the session has none left. -/
def consume (m : Store) (s b : ℕ) : Store × Bool :=
  let session := m.sessions s
  let m := { m with batches := Function.update m.batches b { m.batches b with live := false } }
  if session.liveBatches = 0 then (m, false)
  else ({ m with
    sessions := Function.update m.sessions s
      { session with liveBatches := session.liveBatches - 1 } }, true)

/-- `CombineAsync` -/
def combineAsync (m : Store) (a : CombineArgs) (reply : Reply) : Status × Store :=
  match a.session, a.batch with
  | some s, some b =>
    let session := m.sessions s
    if ¬ session.initialized then (makeStatus .invalidArgument, m)
    else if ¬ (m.batches b).live ∨ (m.batches b).sessionId ≠ session.config.sessionId then
      (makeStatus .staleHandle, m)
    else
      match a.completion with
      | none => (makeStatus .invalidArgument, m)
      | some c =>
        if (m.completions c).live ∨ a.stream = none then (makeStatus .invalidArgument, m)
        else
          match checkCombineBuffers session a.input a.output with
          | some code => (makeStatus code, m)
          | none =>
            if reply.code ≠ .ok then (makeStatus reply.code, m)
            else
              let (m, counted) := consume m s b
              if !counted then (makeStatus .backendError, m)
              else (makeStatus .ok, { m with
                completions := Function.update m.completions c ⟨reply.completion, true⟩ })
  | _, _ => (makeStatus .invalidArgument, m)

/-- `batch_release` -/
def batchRelease (m : Store) (session batch : Pointer) (reply : Reply) : Status × Store :=
  match session, batch with
  | some s, some b =>
    let session := m.sessions s
    if ¬ session.initialized ∨ ¬ (m.batches b).live ∨
        (m.batches b).sessionId ≠ session.config.sessionId then
      (makeStatus .staleHandle, m)
    else if reply.code ≠ .ok then (makeStatus reply.code, m)
    else
      let (m, counted) := consume m s b
      if !counted then (makeStatus .backendError, m)
      else (makeStatus .ok, m)
  | _, _ => (makeStatus .staleHandle, m)

/-! ## Sequences of calls -/

/-- A call of the interface. -/
inductive Call where
  | create (a : CreateArgs)
  | destroy (session : Pointer)
  | dispatch (a : DispatchArgs)
  | combine (a : CombineArgs)
  | release (session batch : Pointer)

/-- What a call returns, and the store after it. -/
def Call.run (m : Store) (reply : Reply) : Call → Status × Store
  | .create a => singleIncCreate m a reply
  | .destroy session => singleIncDestroy m session reply
  | .dispatch a => dispatchAsync m a reply
  | .combine a => combineAsync m a reply
  | .release session batch => batchRelease m session batch reply

/-- The store after the calls, each with the reply it meets. -/
def Store.run (m : Store) : List (Call × Reply) → Store
  | [] => m
  | (call, reply) :: calls => (call.run m reply).2.run calls

/-- Every call satisfies `P` in the store it is made in. -/
def Store.EachCall (P : Store → Call → Reply → Prop) (m : Store) : List (Call × Reply) → Prop
  | [] => True
  | (call, reply) :: calls => P m call reply ∧ (call.run m reply).2.EachCall P calls

/-- Objects as they are declared: no session is initialised, nothing is live. -/
def Store.init : Store := ⟨fun _ => {}, fun _ => {}, fun _ => {}⟩

end AscendShmem.SessionApi
