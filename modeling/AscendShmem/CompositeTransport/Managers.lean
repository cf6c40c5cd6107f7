import Mathlib

/-!
# The composite transport manager

`CompositeTransportManager` opens one sub-manager for each transport type of its order and passes every
call on to them. A sub-manager is the number of its object and the regions it holds: it takes a region
when it registers it, and what it answers is an input of the call. The factory makes a new manager or
none.
-/

namespace AscendShmem.CompositeTransport

/-- `TransportType`, the values that the factory knows. -/
inductive TransportType where
  | hccp
  | sdma
  | udma
deriving DecidableEq

/-- 0 is success. -/
abbrev Result := ℤ

/-- `ACLSHMEM_SUCCESS` -/
def aclshmemSuccess : Result := 0
/-- `ACLSHMEM_NOT_SUPPORTED` -/
def aclshmemNotSupported : Result := -100

/-- A sub-manager, by its number, and the regions that it has registered. -/
structure Manager where
  id : ℕ
  regions : Finset ℕ
deriving DecidableEq

/-- A call of a sub-manager. -/
inductive SubCall where
  | openDevice (id : ℕ) (ret : Result)
  | closeDevice (id : ℕ)
  | registerMemoryRegion (id addr : ℕ) (ret : Result)
  | unregisterMemoryRegion (id addr : ℕ)
  | connect (id : ℕ) (ret : Result)
deriving DecidableEq

/-- The composite: `managers_`, `connected_`, how many managers were created, and the calls made of
them. -/
structure State where
  managers : TransportType → Option Manager
  connected : Bool
  created : ℕ
  log : List SubCall

/-- No manager has been created. -/
def State.init : State := ⟨fun _ => none, false, 0, []⟩

/-- What the factory and `OpenDevice` of the manager answer for one type. -/
structure OpenReply where
  created : Bool
  ret : Result

/-- What `UnregisterMemoryRegion` answers, and whether a manager that fails has dropped the region. -/
structure UnregisterReply where
  ret : Result
  drops : Bool

/-- The region is gone. -/
def UnregisterReply.gone (reply : UnregisterReply) : Bool :=
  reply.ret = aclshmemSuccess ∨ reply.drops

/-! ## One manager -/

/-- The calls made of managers are written down. -/
def State.call (s : State) (calls : List SubCall) : State := { s with log := s.log ++ calls }

/-- `managers_[type]`, set or erased. -/
def State.put (s : State) (type : TransportType) (manager : Option Manager) : State :=
  { s with managers := Function.update s.managers type manager }

/-- A new manager that has opened its device. -/
def State.openAt (s : State) (type : TransportType) : State :=
  { (s.put type (some ⟨s.created, ∅⟩)).call [.openDevice s.created aclshmemSuccess] with
    created := s.created + 1 }

/-- The manager of a type is closed and removed. -/
def State.closeAt (s : State) (type : TransportType) : State :=
  match s.managers type with
  | none => s
  | some manager => (s.put type none).call [.closeDevice manager.id]

/-- A manager answers to a region: it keeps it if it accepts. -/
def State.registerAt (s : State) (type : TransportType) (manager : Manager) (addr : ℕ) (ret : Result) :
    State :=
  (s.put type (some (if ret = aclshmemSuccess then { manager with regions := insert addr manager.regions }
    else manager))).call [.registerMemoryRegion manager.id addr ret]

/-- A manager answers to the dropping of a region. -/
def State.unregisterAt (s : State) (type : TransportType) (addr : ℕ) (reply : UnregisterReply) :
    State :=
  match s.managers type with
  | none => s
  | some manager =>
    (s.put type (some (if reply.gone then { manager with regions := manager.regions.erase addr }
      else manager))).call [.unregisterMemoryRegion manager.id addr]

/-! ## The loops over the order -/

section Loops

variable (order : List TransportType)

/-- `CloseManagersReverse` -/
def closeManagersReverse (s : State) : State :=
  { order.reverse.foldl State.closeAt s with connected := false }

/-- The turns of `OpenDevice` from the type at position `i` on. -/
def openLoop (reply : ℕ → OpenReply) : ℕ → List TransportType → State → Result × State
  | _, [], s => (aclshmemSuccess, s)
  | i, type :: types, s =>
    if ¬ (reply i).created then (aclshmemNotSupported, closeManagersReverse order s)
    else if (reply i).ret ≠ aclshmemSuccess then
      ((reply i).ret, closeManagersReverse order
        { s.call [.openDevice s.created (reply i).ret, .closeDevice s.created] with
          created := s.created + 1 })
    else openLoop reply (i + 1) types (s.openAt type)

/-- `OpenDevice` -/
def openDevice (reply : ℕ → OpenReply) (s : State) : Result × State := openLoop order reply 0 order s

/-- The turns of `CloseDevice`. -/
def closeLoop (reply : TransportType → Result) : List TransportType → Result → State → Result × State
  | [], result, s => (result, s)
  | type :: types, result, s =>
    match s.managers type with
    | none => closeLoop reply types result s
    | some _ =>
      let ret := reply type
      closeLoop reply types
        (if ret ≠ aclshmemSuccess ∧ result = aclshmemSuccess then ret else result) (s.closeAt type)

/-- `CloseDevice`; the result is the first failure. -/
def closeDevice (reply : TransportType → Result) (s : State) : Result × State :=
  let r := closeLoop reply order.reverse aclshmemSuccess s
  (r.1, { r.2 with connected := false })

/-- The managers of a list give a region back. -/
def unregisterAll (addr : ℕ) (reply : ℕ → UnregisterReply) : ℕ → List TransportType → State → State
  | _, [], s => s
  | i, type :: types, s => unregisterAll addr reply (i + 1) types (s.unregisterAt type addr (reply i))

/-- The turns of `RegisterMemoryRegion`. -/
def registerLoop (addr : ℕ) (accept : ℕ → Result) (undo : ℕ → UnregisterReply) :
    ℕ → List TransportType → List TransportType → State → Result × State
  | _, [], _, s => (aclshmemSuccess, s)
  | i, type :: types, registered, s =>
    match s.managers type with
    | none => registerLoop addr accept undo (i + 1) types registered s
    | some manager =>
      let s := s.registerAt type manager addr (accept i)
      if accept i ≠ aclshmemSuccess then (accept i, unregisterAll addr undo 0 registered.reverse s)
      else registerLoop addr accept undo (i + 1) types (registered ++ [type]) s

/-- `RegisterMemoryRegion` -/
def registerMemoryRegion (addr : ℕ) (accept : ℕ → Result) (undo : ℕ → UnregisterReply) (s : State) :
    Result × State :=
  registerLoop addr accept undo 0 order [] s

/-- The turns of `UnregisterMemoryRegion`. -/
def unregisterLoop (addr : ℕ) (reply : ℕ → UnregisterReply) :
    ℕ → List TransportType → Result → State → Result × State
  | _, [], result, s => (result, s)
  | i, type :: types, result, s =>
    match s.managers type with
    | none => unregisterLoop addr reply (i + 1) types result s
    | some _ =>
      let ret := (reply i).ret
      unregisterLoop addr reply (i + 1) types
        (if ret ≠ aclshmemSuccess ∧ result = aclshmemSuccess then ret else result)
        (s.unregisterAt type addr (reply i))

/-- `UnregisterMemoryRegion` -/
def unregisterMemoryRegion (addr : ℕ) (reply : ℕ → UnregisterReply) (s : State) : Result × State :=
  unregisterLoop addr reply 0 order.reverse aclshmemSuccess s

/-- The turns of `Connect` and of `ConnectWithOptions`. -/
def connectLoop (reply : ℕ → Result) (close : TransportType → Result) :
    ℕ → List TransportType → State → Result × State
  | _, [], s => (aclshmemSuccess, s)
  | i, type :: types, s =>
    match s.managers type with
    | none => connectLoop reply close (i + 1) types s
    | some manager =>
      let s := s.call [.connect manager.id (reply i)]
      if reply i ≠ aclshmemSuccess then (reply i, (closeDevice order close s).2)
      else connectLoop reply close (i + 1) types s

/-- `Connect` -/
def connect (reply : ℕ → Result) (close : TransportType → Result) (s : State) : Result × State :=
  connectLoop order reply close 0 order s

/-- `ConnectWithOptions` -/
def connectWithOptions (reply : ℕ → Result) (close : TransportType → Result) (s : State) :
    Result × State :=
  match connectLoop order reply close 0 order s with
  | (ret, s) => if ret = aclshmemSuccess then (ret, { s with connected := true }) else (ret, s)

/-! ## Runs -/

/-- A call of the composite, with what the factory and the managers answer. -/
inductive Call where
  | openDevice (reply : ℕ → OpenReply)
  | closeDevice (reply : TransportType → Result)
  | registerMemoryRegion (addr : ℕ) (accept : ℕ → Result) (undo : ℕ → UnregisterReply)
  | unregisterMemoryRegion (addr : ℕ) (reply : ℕ → UnregisterReply)
  | connect (reply : ℕ → Result) (close : TransportType → Result)
  | connectWithOptions (reply : ℕ → Result) (close : TransportType → Result)

/-- What a call returns and leaves. -/
def run (s : State) : Call → Result × State
  | .openDevice reply => openDevice order reply s
  | .closeDevice reply => closeDevice order reply s
  | .registerMemoryRegion addr accept undo => registerMemoryRegion order addr accept undo s
  | .unregisterMemoryRegion addr reply => unregisterMemoryRegion order addr reply s
  | .connect reply close => connect order reply close s
  | .connectWithOptions reply close => connectWithOptions order reply close s

/-- A call always returns. -/
def step (s : State) (call : Call) : Option State := some (run order s call).2

end Loops

end AscendShmem.CompositeTransport
