import AscendShmem.ConfigStore.Numbers

/-!
# The server of the config store

`AccStoreServer` (`store_tcp_config_server.cpp`). A handler's critical section and a scan of the
timer thread run under `storeMutex_`, so each is one step; the replies are sent behind it. The
iteration order of an `unordered_set` and the first bucket of an `unordered_map` are arbitrary.
-/

namespace AscendShmem.ConfigStore

/-! ## Messages and replies -/

/-- `MessageType` of `store_message_packer.h`. -/
inductive MessageType
  | set | get | add | remove | append | cas | invalidMsg
deriving DecidableEq

/-- `SmemMessage` -/
structure SmemMessage where
  mt : MessageType
  userDef : ℤ
  keys : List Bytes
  values : List Bytes
deriving DecidableEq

/-- `SmemMessage{mt}` with one value pushed behind it. -/
def SmemMessage.response (mt : MessageType) (value : Bytes) : SmemMessage := ⟨mt, -1, [], [value]⟩

/-- `Result`, an `int32_t`. -/
abbrev Result := ℤ

/-- `ACLSHMEM_SUCCESS` -/
def aclshmemSuccess : Result := 0
/-- `ACLSHMEM_SMEM_ERROR` -/
def aclshmemSmemError : Result := -3
/-- `SM_INVALID_PARAM` -/
def smInvalidParam : Result := -2000

namespace StoreErrorCode

/-- `StoreErrorCode::SUCCESS` -/
def success : Result := 0
/-- `StoreErrorCode::INVALID_MESSAGE` -/
def invalidMessage : Result := -400
/-- `StoreErrorCode::INVALID_KEY` -/
def invalidKey : Result := -401
/-- `StoreErrorCode::NOT_EXIST` -/
def notExist : Result := -404
/-- `StoreErrorCode::TIMEOUT` -/
def timeout : Result := -601

end StoreErrorCode

/-- What a reply carries: a fixed text, a number as text or a packed message. -/
inductive Body
  | text (s : String)
  | number (digits : Bytes)
  | packed (message : SmemMessage)
deriving DecidableEq

/-- A reply to the request with the context `ctx`. -/
structure Reply where
  ctx : ℕ
  code : Result
  body : Body
deriving DecidableEq

/-! ## The server -/

/-- A GET that waits for its key. -/
structure StoreWaitContext where
  id : ℕ
  timeoutMs : ℤ
  key : Bytes
  reqCtx : ℕ

/-- The fields of `AccStoreServer` under `storeMutex_`. -/
structure Server where
  kvStore : Bytes → Option Bytes
  waitCtx : ℕ → Option StoreWaitContext
  keyWaiters : Bytes → Option (Finset ℕ)
  timedWaiters : ℤ → Option (Finset ℕ)
  /-- `StoreWaitContext::idGen_` -/
  idGen : ℕ

/-- An empty store. -/
def Server.init : Server where
  kvStore _ := none
  waitCtx _ := none
  keyWaiters _ := none
  timedWaiters _ := none
  idGen := 1

/-- The order in which a loop visits an `unordered_set`. -/
structure Order where
  toList : Finset ℕ → List ℕ
  nodup : ∀ ids, (toList ids).Nodup
  mem_toList : ∀ ids id, id ∈ toList ids ↔ id ∈ ids

/-- `MAX_KEY_LEN_SERVER` -/
def maxKeyLenServer : ℕ := 2048

/-- What a handler returns, the replies it sends and the server behind its critical section. -/
structure Outcome where
  result : Result
  replies : List Reply
  server : Server

namespace Server

/-- A waiter leaves the bucket of its timeout; an empty bucket is dropped. -/
def leaveBucket (timed : ℤ → Option (Finset ℕ)) (w : StoreWaitContext) : ℤ → Option (Finset ℕ) :=
  match timed w.timeoutMs with
  | none => timed
  | some ids =>
    if ids.erase w.id = ∅ then Function.update timed w.timeoutMs none
    else Function.update timed w.timeoutMs (some (ids.erase w.id))

/-- The body of the loop of `GetOutWaitersInLock`. -/
def getOutWaiter (s : Server) (id : ℕ) : List ℕ × Server :=
  match s.waitCtx id with
  | none => ([], s)
  | some w =>
    ([w.reqCtx],
      { s with
        timedWaiters := leaveBucket s.timedWaiters w
        waitCtx := Function.update s.waitCtx id none })

/-- Those of the waiters that are still registered, taken out of all indexes. -/
def getOutWaiters (s : Server) : List ℕ → List ℕ × Server
  | [] => ([], s)
  | id :: ids =>
    let (first, s) := s.getOutWaiter id
    let (rest, s) := s.getOutWaiters ids
    (first ++ rest, s)

/-- `GetOutWaitersInLock` -/
def getOutWaitersInLock (s : Server) (order : Order) (ids : Finset ℕ) : List ℕ × Server :=
  s.getOutWaiters (order.toList ids)

/-- The waiters of a key that is being created, and their entry of `keyWaiters_`. -/
def takeWaiters (s : Server) (order : Order) (key : Bytes) : List ℕ × Server :=
  match s.keyWaiters key with
  | none => ([], s)
  | some ids =>
    let (waiters, s) := s.getOutWaitersInLock order ids
    (waiters, { s with keyWaiters := Function.update s.keyWaiters key none })

/-- `kvStore_[key] = value` -/
def put (s : Server) (key value : Bytes) : Server :=
  { s with kvStore := Function.update s.kvStore key (some value) }

/-- `WakeupWaiters` -/
def wakeupWaiters (waiters : List ℕ) (value : Bytes) : List Reply :=
  waiters.map fun ctx => ⟨ctx, StoreErrorCode.success, .packed (.response .get value)⟩

/-! ## The handlers -/

/-- `SetHandler` -/
def setHandler (s : Server) (order : Order) (ctx : ℕ) (request : SmemMessage) : Outcome :=
  match request.keys, request.values with
  | [key], [value] =>
    if maxKeyLenServer < key.length then ⟨StoreErrorCode.invalidKey, [], s⟩
    else
      let reply : Reply := ⟨ctx, StoreErrorCode.success, .text "success"⟩
      match s.kvStore key with
      | none =>
        let (waiters, s) := s.takeWaiters order key
        ⟨aclshmemSuccess, reply :: wakeupWaiters waiters value, s.put key value⟩
      | some _ => ⟨aclshmemSuccess, [reply], s.put key value⟩
  | _, _ =>
    ⟨smInvalidParam,
      [⟨ctx, StoreErrorCode.invalidMessage, .text "invalid request: key value should be one"⟩], s⟩

/-- The deadline of a GET: `steady_clock::now() + milliseconds(userDef)`, cast to milliseconds. The
clock counts `int64_t` nanoseconds; `none` is a conversion or a sum that overflows, which is undefined
in the source. -/
def waitDeadline (now userDef : ℤ) : Option ℤ :=
  let delay := userDef * 1000000
  let timeout := now + delay
  if delay < -2 ^ 63 ∨ 2 ^ 63 ≤ delay ∨ timeout < -2 ^ 63 ∨ 2 ^ 63 ≤ timeout then none
  else some (timeout.tdiv 1000000)

/-- A GET is parked: under its id, under its key and, with a timeout, in a bucket. -/
def park (s : Server) (timeoutMs : ℤ) (ctx : ℕ) (key : Bytes) (userDef : ℤ) : Server :=
  let id := s.idGen
  { s with
    idGen := id + 1
    waitCtx := Function.update s.waitCtx id (some ⟨id, timeoutMs, key, ctx⟩)
    keyWaiters := Function.update s.keyWaiters key (some (insert id ((s.keyWaiters key).getD ∅)))
    timedWaiters :=
      if 0 < userDef then
        Function.update s.timedWaiters timeoutMs
          (some (insert id ((s.timedWaiters timeoutMs).getD ∅)))
      else s.timedWaiters }

/-- `now` is `steady_clock::now()` in nanoseconds; `none` is a deadline that overflows. -/
def getHandler (s : Server) (now : ℤ) (ctx : ℕ) (request : SmemMessage) : Option Outcome :=
  match request.keys, request.values with
  | [key], [] =>
    if maxKeyLenServer < key.length then some ⟨StoreErrorCode.invalidKey, [], s⟩
    else
      match s.kvStore key with
      | some value =>
        some ⟨aclshmemSuccess,
          [⟨ctx, StoreErrorCode.success, .packed (.response request.mt value)⟩], s⟩
      | none =>
        if request.userDef = 0 then
          some ⟨aclshmemSmemError, [⟨ctx, StoreErrorCode.notExist, .text "<not exist>"⟩], s⟩
        else if 2 ^ 31 - 1 < request.userDef then some ⟨aclshmemSmemError, [], s⟩
        else
          match waitDeadline now request.userDef with
          | none => none
          | some timeoutMs =>
            some ⟨aclshmemSuccess, [], s.park timeoutMs ctx key request.userDef⟩
  | _, _ =>
    some ⟨smInvalidParam, [⟨ctx, StoreErrorCode.invalidMessage,
      .text "invalid request: key should be one and no values."⟩], s⟩

/-- `none` is a sum that overflows, which is undefined in the source. -/
def addHandler (s : Server) (order : Order) (ctx : ℕ) (request : SmemMessage) : Option Outcome :=
  match request.keys, request.values with
  | [key], [value] =>
    if maxKeyLenServer < key.length then some ⟨StoreErrorCode.invalidKey, [], s⟩
    else
      match strToLong value with
      | none => some ⟨aclshmemSmemError, [], s⟩
      | some valueNum =>
        if value ≠ toDecimal valueNum then
          some ⟨aclshmemSmemError, [⟨ctx, StoreErrorCode.invalidMessage,
            .text "invalid request: value should be a number."⟩], s⟩
        else
          match s.kvStore key with
          | none =>
            let (waiters, s) := s.takeWaiters order key
            some ⟨aclshmemSuccess,
              ⟨ctx, StoreErrorCode.success, .number (toDecimal valueNum)⟩ ::
                wakeupWaiters waiters value,
              s.put key value⟩
          | some oldValue =>
            match strToLong oldValue with
            | none => some ⟨aclshmemSmemError, [], s⟩
            | some oldNum =>
              let sum := oldNum + valueNum
              if sum < -2 ^ 63 ∨ 2 ^ 63 ≤ sum then none
              else
                some ⟨aclshmemSuccess, [⟨ctx, StoreErrorCode.success, .number (toDecimal sum)⟩],
                  s.put key (toDecimal sum)⟩
  | _, _ =>
    some ⟨smInvalidParam,
      [⟨ctx, StoreErrorCode.invalidMessage, .text "invalid request: key value should be one."⟩], s⟩

/-- `RemoveHandler` -/
def removeHandler (s : Server) (ctx : ℕ) (request : SmemMessage) : Outcome :=
  match request.keys, request.values with
  | [key], [] =>
    if maxKeyLenServer < key.length then ⟨StoreErrorCode.invalidKey, [], s⟩
    else
      match s.kvStore key with
      | none => ⟨aclshmemSuccess, [⟨ctx, StoreErrorCode.notExist, .text "not exist"⟩], s⟩
      | some _ =>
        ⟨aclshmemSuccess, [⟨ctx, StoreErrorCode.success, .text "success"⟩],
          { s with kvStore := Function.update s.kvStore key none }⟩
  | _, _ =>
    ⟨smInvalidParam, [⟨ctx, StoreErrorCode.invalidMessage,
      .text "invalid request: key should be one and no values."⟩], s⟩

/-- `AppendHandler`; the moved value is empty where it is stored under a new key. -/
def appendHandler (s : Server) (order : Order) (ctx : ℕ) (request : SmemMessage) : Outcome :=
  match request.keys, request.values with
  | [key], [value] =>
    if maxKeyLenServer < key.length then ⟨StoreErrorCode.invalidKey, [], s⟩
    else
      match s.kvStore key with
      | some oldValue =>
        let newSize := (oldValue ++ value).length
        ⟨aclshmemSuccess, [⟨ctx, StoreErrorCode.success, .number (toDecimal newSize)⟩],
          s.put key (oldValue ++ value)⟩
      | none =>
        let newSize := value.length
        let (waiters, s) := s.takeWaiters order key
        -- `value` has been moved into `kvStore_` when the waiters get it
        let value' := []
        ⟨aclshmemSuccess,
          ⟨ctx, StoreErrorCode.success, .number (toDecimal newSize)⟩ ::
            wakeupWaiters waiters value',
          s.put key value⟩
  | _, _ =>
    ⟨smInvalidParam, [⟨ctx, StoreErrorCode.invalidMessage,
      .text "invalid request: key & value should be one."⟩], s⟩

/-- `CasHandler` -/
def casHandler (s : Server) (order : Order) (ctx : ℕ) (request : SmemMessage) : Outcome :=
  match request.keys, request.values with
  | [key], [expected, exchange] =>
    if maxKeyLenServer < key.length then ⟨StoreErrorCode.invalidKey, [], s⟩
    else
      let reply (exists' : Bytes) : Reply :=
        ⟨ctx, StoreErrorCode.success, .packed (.response request.mt exists')⟩
      match s.kvStore key with
      | some value =>
        if expected = value then ⟨aclshmemSuccess, [reply value], s.put key exchange⟩
        else ⟨aclshmemSuccess, [reply value], s⟩
      | none =>
        if expected = [] then
          let (waiters, s) := (s.put key exchange).takeWaiters order key
          ⟨aclshmemSuccess, reply [] :: wakeupWaiters waiters exchange, s⟩
        else ⟨aclshmemSuccess, [reply []], s⟩
  | _, _ =>
    ⟨smInvalidParam, [⟨ctx, StoreErrorCode.invalidMessage,
      .text "invalid request: count(key)=1 & count(value)=2"⟩], s⟩

/-- `ReceiveMessageHandler` on an unpacked message: the handler of its type. -/
def receiveMessage (s : Server) (order : Order) (now : ℤ) (ctx : ℕ) (request : SmemMessage) :
    Option Outcome :=
  match request.mt with
  | .set => some (s.setHandler order ctx request)
  | .get => s.getHandler now ctx request
  | .add => s.addHandler order ctx request
  | .remove => some (s.removeHandler ctx request)
  | .append => some (s.appendHandler order ctx request)
  | .cas => some (s.casHandler order ctx request)
  | .invalidMsg =>
    some ⟨aclshmemSmemError,
      [⟨ctx, StoreErrorCode.invalidMessage, .text "invalid request message type"⟩], s⟩

/-- What a scan of the timer replies to the waiters it took out. -/
def timeoutReplies (waiters : List ℕ) : List Reply :=
  waiters.map fun ctx => ⟨ctx, StoreErrorCode.timeout, .text "<timeout>"⟩

end Server

/-- The inner loop of `TimerThreadTask`: it drops buckets from `begin()` on until that one is not
due, and gathers their ids. -/
inductive CollectTimeouts (timestamp : ℤ) :
    (ℤ → Option (Finset ℕ)) → Finset ℕ → (ℤ → Option (Finset ℕ)) → Finset ℕ → Prop
  | empty {timed ids} (h : ∀ t, timed t = none) : CollectTimeouts timestamp timed ids timed ids
  | notDue {timed ids t bucket} (hbegin : timed t = some bucket) (h : timestamp < t) :
    CollectTimeouts timestamp timed ids timed ids
  | due {timed ids t bucket timed' ids'} (hbegin : timed t = some bucket) (h : t ≤ timestamp)
    (rest : CollectTimeouts timestamp (Function.update timed t none) (ids ∪ bucket) timed' ids') :
    CollectTimeouts timestamp timed ids timed' ids'

/-! ## Runs -/

/-- The server and the number of requests it has received; request `n` has the context `n`. -/
structure System where
  server : Server
  received : ℕ

/-- A fresh server that has received nothing. -/
def System.init : System := ⟨Server.init, 0⟩

/-- The clock of a request is in nanoseconds, that of a scan in milliseconds. -/
inductive Event
  | request (order : Order) (now : ℤ) (message : SmemMessage)
  | timer (order : Order) (timestamp : ℤ)

/-- A request is handled, or the timer thread scans the buckets. -/
inductive Step : System → Event → List Reply → System → Prop
  | request {s : System} {order now message out}
    (h : s.server.receiveMessage order now s.received message = some out) :
    Step s (.request order now message) out.replies ⟨out.server, s.received + 1⟩
  | timer {s : System} {order timestamp timed ids}
    (h : CollectTimeouts timestamp s.server.timedWaiters ∅ timed ids) :
    Step s (.timer order timestamp)
      (Server.timeoutReplies
        (({ s.server with timedWaiters := timed }).getOutWaitersInLock order ids).1)
      ⟨(({ s.server with timedWaiters := timed }).getOutWaitersInLock order ids).2, s.received⟩

/-- A step with the states around it. -/
structure Transition where
  before : System
  event : Event
  replies : List Reply
  after : System

/-- The step is one of the server. -/
def Transition.Valid (t : Transition) : Prop := Step t.before t.event t.replies t.after

/-- The critical sections and the scans in the order in which they take the lock. -/
inductive Run : System → List Transition → System → Prop
  | nil (s : System) : Run s [] s
  | cons {t : Transition} {ts s} (h : t.Valid) (rest : Run t.after ts s) : Run t.before (t :: ts) s

end AscendShmem.ConfigStore
