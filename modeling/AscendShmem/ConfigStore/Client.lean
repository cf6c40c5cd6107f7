import AscendShmem.Lib.Run

/-!
# The client of the config store

`TcpConfigStore` (`store_tcp_config.cpp`) up to the bytes of the messages: how a request gets its
sequence number, its context enters `msgClientContext_`, and the response, a broken link, a timeout
or `Unwatch` takes it out again. A critical section of `msgCtxMutex_` or of a context's `waitMutex_`
is one step, and so is the send; between two steps of a call any other thread may go on. What is
done with a context behind the lock is a step of its own.
-/

namespace AscendShmem.ConfigStore.Client

open Lib

/-- A response of the server: `AccTcpRequestContext`. -/
structure Response where
  seqNo : ℕ
  result : ℤ
  data : List UInt8
deriving DecidableEq

/-- What waits for the answer of a request. -/
inductive Kind where
  /-- `ClientWaitContext` -/
  | blocking (timeoutMs : ℤ)
  /-- `ClientWatchContext` -/
  | watch
deriving DecidableEq

/-- Where the thread of a request stands. -/
inductive Pc where
  /-- it has its sequence number -/
  | numbered
  /-- its context is in the map -/
  | registered
  /-- the send has failed -/
  | sendFailed
  /-- `WaitFinished` -/
  | waiting
  /-- `WaitFinished` has returned null -/
  | gotNull
  /-- `SendMessageBlocked` has returned -/
  | returned (response : Option Response)
  /-- `SendWatchRequest` has returned `SM_OK` -/
  | watching
  /-- `SendWatchRequest` has returned the error of the send -/
  | refused
deriving DecidableEq

/-- A request and its context. A notification is kept with the response that it is made from, or
with none after a broken link. -/
structure Request where
  kind : Kind
  seqNo : ℕ
  pc : Pc
  finished : Bool
  responseInfo : Option Response
  notices : List (Option Response)
deriving DecidableEq

/-- The client: its requests, its map of contexts, and what the handlers hold. -/
structure State where
  /-- the numbers that `reqSeqGen_` has given out -/
  reqSeqGen : ℕ
  count : ℕ
  request : ℕ → Request
  /-- the requests whose contexts are in the map, under their keys -/
  msgClientContext : List (ℕ × ℕ)
  /-- the contexts that `ReceiveResponseHandler` has taken out and not yet finished -/
  taken : List (ℕ × Response)
  /-- the contexts in a `tempContext` of `LinkBrokenHandler` -/
  broken : List ℕ
  /-- the watches for which `Unwatch` has returned `SM_OK` -/
  unwatched : List ℕ

/-- No request has been made. -/
def State.init : State := ⟨0, 0, fun _ => ⟨.watch, 0, .numbered, false, none, []⟩, [], [], [], []⟩

/-- A critical section, a send, or a wake-up. -/
inductive Event where
  /-- another client of the process takes a number -/
  | otherClient
  | begin (kind : Kind)
  | register (i : ℕ)
  | send (i : ℕ) (ok : Bool)
  | eraseFailed (i : ℕ)
  | receive (response : Response)
  | setFinished (i : ℕ) (response : Response)
  | linkBroken
  | setFailedFinish (i : ℕ)
  | wakeUp (i : ℕ)
  | timeout (i : ℕ)
  | eraseNull (i : ℕ)
  | unwatch (wid : ℕ)

namespace State

/-- Change of one request. -/
def put (s : State) (i : ℕ) (r : Request) : State :=
  { s with request := Function.update s.request i r }

/-- The thread of a request goes on. -/
def goto (s : State) (i : ℕ) (pc : Pc) : State := s.put i { s.request i with pc := pc }

/-- `reqSeqGen_.fetch_add(1U)` -/
def beginRequest (s : State) (kind : Kind) : State :=
  { s with
    reqSeqGen := s.reqSeqGen + 1
    count := s.count + 1
    request := Function.update s.request s.count
      ⟨kind, s.reqSeqGen % 2 ^ 32, .numbered, false, none, []⟩ }

/-- `msgClientContext_.find(key)` -/
def find (s : State) (key : ℕ) : Option ℕ :=
  (s.msgClientContext.find? fun entry => entry.1 = key).map Prod.snd

/-- `msgClientContext_.erase(key)` -/
def erase (s : State) (key : ℕ) : State :=
  { s with msgClientContext := s.msgClientContext.filter fun entry => entry.1 ≠ key }

/-- `msgClientContext_.emplace(seqNo, context)`: a key that is present keeps its context. -/
def register (s : State) (i : ℕ) : State :=
  if (s.find (s.request i).seqNo).isSome then s.goto i .registered
  else { s.goto i .registered with
    msgClientContext := s.msgClientContext ++ [((s.request i).seqNo, i)] }

/-- The caller behind `NonBlockSend`. -/
def sent (s : State) (i : ℕ) (ok : Bool) : State :=
  if ok then
    match (s.request i).kind with
    | .blocking _ => s.goto i .waiting
    | .watch => s.goto i .watching
  else s.goto i .sendFailed

/-- The context of a request whose send has failed is erased, and the call returns. -/
def eraseFailed (s : State) (i : ℕ) : State :=
  match (s.request i).kind with
  | .blocking _ => (s.erase (s.request i).seqNo).goto i (.returned none)
  | .watch => (s.erase (s.request i).seqNo).goto i .refused

/-- The critical section of `ReceiveResponseHandler`. -/
def receive (s : State) (response : Response) : State :=
  match s.find response.seqNo with
  | none => s
  | some i => { s.erase response.seqNo with taken := s.taken ++ [(i, response)] }

/-- `SetFinished` -/
def setFinished (s : State) (i : ℕ) (response : Response) : State :=
  match (s.request i).kind with
  | .blocking _ => { s with taken := s.taken.erase (i, response) }.put i
      { s.request i with responseInfo := some response, finished := true }
  | .watch => { s with taken := s.taken.erase (i, response) }.put i
      { s.request i with notices := (s.request i).notices ++ [some response] }

/-- The swap of `LinkBrokenHandler`. -/
def linkBroken (s : State) : State :=
  { s with msgClientContext := [], broken := s.broken ++ s.msgClientContext.map Prod.snd }

/-- `SetFailedFinish` -/
def setFailedFinish (s : State) (i : ℕ) : State :=
  match (s.request i).kind with
  | .blocking _ => { s with broken := s.broken.erase i }.put i
      { s.request i with responseInfo := none, finished := true }
  | .watch => { s with broken := s.broken.erase i }.put i
      { s.request i with notices := (s.request i).notices ++ [none] }

/-- `WaitFinished` returns what the context holds. -/
def wakeUp (s : State) (i : ℕ) : State :=
  match (s.request i).responseInfo with
  | none => s.goto i .gotNull
  | some response => s.goto i (.returned (some response))

/-- `WaitFinished` returns at its timeout. -/
def timeout (s : State) (i : ℕ) : State :=
  s.put i { s.request i with responseInfo := none, finished := true, pc := .gotNull }

/-- A blocked call that got nothing takes its context out and returns. -/
def eraseNull (s : State) (i : ℕ) : State :=
  (s.erase (s.request i).seqNo).goto i (.returned none)

/-- `Unwatch` -/
def unwatch (s : State) (wid : ℕ) : State :=
  match s.find wid with
  | none => s
  | some i =>
    match (s.request i).kind with
    | .blocking _ => s
    | .watch => { s.erase wid with unwatched := i :: s.unwatched }

end State

/-- The request stands at `pc`. -/
def State.At (s : State) (i : ℕ) (pc : Pc) : Prop := i < s.count ∧ (s.request i).pc = pc

instance (s : State) (i : ℕ) (pc : Pc) : Decidable (s.At i pc) :=
  inferInstanceAs (Decidable (_ ∧ _))

/-- A wait of the request can end by its timeout. -/
def State.timesOut (s : State) (i : ℕ) : Bool :=
  match (s.request i).kind with
  | .blocking timeoutMs => 0 < timeoutMs ∧ (s.request i).finished = false
  | .watch => false

/-- One event, where it can happen. -/
def step (s : State) : Event → Option State
  | .otherClient => some { s with reqSeqGen := s.reqSeqGen + 1 }
  | .begin kind => some (s.beginRequest kind)
  | .register i => if s.At i .numbered then some (s.register i) else none
  | .send i ok => if s.At i .registered then some (s.sent i ok) else none
  | .eraseFailed i => if s.At i .sendFailed then some (s.eraseFailed i) else none
  | .receive response => some (s.receive response)
  | .setFinished i response =>
    if (i, response) ∈ s.taken then some (s.setFinished i response) else none
  | .linkBroken => some s.linkBroken
  | .setFailedFinish i => if i ∈ s.broken then some (s.setFailedFinish i) else none
  | .wakeUp i =>
    if s.At i .waiting ∧ (s.request i).finished = true then some (s.wakeUp i) else none
  | .timeout i => if s.At i .waiting ∧ s.timesOut i = true then some (s.timeout i) else none
  | .eraseNull i => if s.At i .gotNull then some (s.eraseNull i) else none
  | .unwatch wid => some (s.unwatch wid)

/-- From the beginning. -/
def run : List Event → Option State := runEvents step State.init

end AscendShmem.ConfigStore.Client
