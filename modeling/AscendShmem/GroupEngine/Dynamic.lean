import Mathlib
import AscendShmem.GroupEngine.Store

/-!
# Dynamic groups

Ranks join and leave a dynamic group by turns: `TryCasEventKey` creates the event key, `GroupJoin`
or `GroupLeave` adds to the dynamic size, which holds the group's version and its size, and removes
the event key. Every rank has a listener thread that watches the event key. Between two operations
on the store, and between an operation and what a thread writes down of it, any other thread may
run.

`GroupSnClean` removes other keys and is left out; the callbacks return at once.
-/

namespace AscendShmem.GroupEngine

open ConfigStore

/-! ## Values -/

/-- `SMEM_GROUP_LISTEN_EVENT_KEY`, `EVENT`. -/
def listenEventKey : Bytes := [69, 86, 69, 78, 84]

/-- `SMEM_GROUP_DYNAMIC_SIZE_KEY`, `DSIZE`. -/
def dynamicSizeKey : Bytes := [68, 83, 73, 90, 69]

/-- The value of an event: `J` or `L` and the rank. -/
def eventValue (join : Bool) (rank : ℕ) : Bytes := (if join then 74 else 76) :: toDecimal rank

/-- `SplitSizeAndVersion`: two `int32_t`. -/
def splitSizeAndVersion (val : ℤ) : ℤ × ℤ :=
  ((val % 2 ^ 64 / 2 ^ 30).bmod (2 ^ 32), val % 2 ^ 64 % 2 ^ 30)

/-- `static_cast<uint32_t>`. -/
def toUint32 (n : ℤ) : ℕ := (n % 2 ^ 32).toNat

/-- What `GroupJoin` adds: a version and a rank. -/
def joinIncrement : ℤ := 2 ^ 30 + 1

/-- What `GroupLeave` adds, `GROUP_DYNAMIC_SIZE_BIT_MASK`: a version less a rank. -/
def leaveIncrement : ℤ := 2 ^ 30 - 1

/-- `NumUtil::IsDigit`. -/
def isDigitText (str : Bytes) : Bool :=
  let digits := str.dropWhile fun c => c = 32 ∨ c = 9
  digits ≠ [] ∧ digits.all isDigit

/-- The tries of `TryCasEventKey`, one every 100 ms. -/
def casLimit (timeoutMs : ℕ) : ℕ := timeoutMs / 100

namespace Dynamic

/-! ## Ranks -/

/-- The next operation of a call. -/
inductive Pc where
  | returned
  | tryCas (join : Bool) (casTimes : ℕ) (prev : Bytes)
  | joinRead
  | joinUpdate (tmp : ℤ)
  | joinAdd
  | leaveAdd
  | leaveUpdate (tmpVal : ℤ)
  | remove (join : Bool)
  | finish (join : Bool)

/-- The next operation of a listener thread. Events are numbered by their creation; `reads` is how
many events had added to the dynamic size when it was read. -/
inductive Listener where
  | top
  | watch
  /-- The watch is parked in the store. -/
  | waiting
  | notified (event : ℕ) (value : Bytes)
  | reading (event : ℕ) (value : Bytes)
  | applying (event reads : ℕ) (groupVersion : ℤ) (rankSize : Option ℕ)

/-- What a rank knows of its group, and where its two threads stand. -/
structure Rank where
  pc : Pc
  joined : Bool
  groupVersion : ℤ
  rankSize : ℕ
  listener : Listener
  prevEvent : Bytes
  /-- The last event that the rank has handled, or joined with. -/
  handled : ℕ

/-- A rank that has not joined. -/
def Rank.init : Rank := ⟨.returned, false, 0, 1, .top, [], 0⟩

/-- The ranks and their store; further the events created so far, those that have added to the
dynamic size, and of the last one its value and the size it leads to. -/
structure System where
  ranks : ℕ → Rank
  store : Store
  events : ℕ
  adds : ℕ
  lastEvent : Bytes
  size : ℕ

/-- An empty store and no event. -/
def System.init : System := ⟨fun _ => Rank.init, fun _ => none, 0, 0, [], 0⟩

/-- A rank gets a new state. -/
def System.setRank (s : System) (r : ℕ) (rank : Rank) : System :=
  { s with ranks := Function.update s.ranks r rank }

/-- The caller's thread of a rank goes on. -/
def System.goto (s : System) (r : ℕ) (pc : Pc) : System :=
  s.setRank r { s.ranks r with pc := pc }

/-- The listener of a rank goes on. -/
def System.listen (s : System) (r : ℕ) (listener : Listener) : System :=
  s.setRank r { s.ranks r with listener := listener }

/-! ## Joining and leaving -/

/-- A watch that is parked is answered when its key is created. -/
def Rank.notify (event : ℕ) (value : Bytes) (rank : Rank) : Rank :=
  match rank.listener with
  | .waiting => { rank with listener := .notified event value }
  | _ => rank

/-- `Cas` of the event key by rank `r`: what was there before, and the system after it. -/
def System.casEvent (s : System) (join : Bool) (r : ℕ) : Bytes × System :=
  let value := eventValue join r
  let (old, store) := s.store.cas listenEventKey [] value
  match s.store listenEventKey with
  | none =>
    (old, { s with
      ranks := fun q => (s.ranks q).notify (s.events + 1) value
      store := store
      events := s.events + 1
      lastEvent := value
      size := if join then s.size + 1 else s.size - 1 })
  | some _ => (old, { s with store := store })

/-- `TryCasEventKey`, one try. -/
def tryCasEventKey (timeoutMs : ℕ) (s : System) (r : ℕ) (join : Bool) (casTimes : ℕ)
    (prev : Bytes) : System :=
  if casTimes < casLimit timeoutMs then
    let (old, s) := s.casEvent join r
    if old = eventValue join r then s.goto r (if join then .joinRead else .leaveAdd)
    else if old ≠ prev then s.goto r (.tryCas join 0 old)
    else s.goto r (.tryCas join (casTimes + 1) prev)
  else s.goto r .returned

/-- `UpdateGroupVersion` and the size of the rank that joins. -/
def Rank.joinUpdate (rank : Rank) (tmp : ℤ) (event : ℕ) : Rank :=
  { rank with
    groupVersion := (splitSizeAndVersion tmp).1 + 1
    rankSize := toUint32 ((splitSizeAndVersion tmp).2 + 1)
    handled := event
    pc := .joinAdd }

/-- The next operation of rank `r` in `GroupJoin` or `GroupLeave`, if it can run. -/
def mainStep (timeoutMs : ℕ) (s : System) (r : ℕ) : Option System :=
  match (s.ranks r).pc with
  | .returned => none
  | .tryCas join casTimes prev => some (tryCasEventKey timeoutMs s r join casTimes prev)
  | .joinRead =>
    (s.store.add dynamicSizeKey 0).map fun (tmp, store) =>
      System.goto { s with store := store } r (.joinUpdate tmp)
  | .joinUpdate tmp => some (s.setRank r ((s.ranks r).joinUpdate tmp s.events))
  | .joinAdd =>
    (s.store.add dynamicSizeKey joinIncrement).map fun (_, store) =>
      System.goto { s with store := store, adds := s.adds + 1 } r (.remove true)
  | .leaveAdd =>
    (s.store.add dynamicSizeKey leaveIncrement).map fun (tmpVal, store) =>
      System.goto { s with store := store, adds := s.adds + 1 } r (.leaveUpdate tmpVal)
  | .leaveUpdate tmpVal =>
    some (s.setRank r { s.ranks r with
      groupVersion := (splitSizeAndVersion tmpVal).1 + 1
      pc := .remove false })
  | .remove join =>
    some (System.goto { s with store := s.store.remove listenEventKey } r (.finish join))
  | .finish join => some (s.setRank r { s.ranks r with
      joined := join
      pc := .returned })

/-- A call of `GroupJoin` or `GroupLeave`. -/
def call (s : System) (r : ℕ) (join : Bool) : Option System :=
  match (s.ranks r).pc with
  | .returned =>
    if (s.ranks r).joined = join then some s else some (s.goto r (.tryCas join 0 []))
  | _ => none

/-! ## Listening -/

/-- What `DealWithListenEvent` checks of a value before it looks at the event before. -/
def wellFormed (getVal : Bytes) : Bool :=
  getVal ≠ [] ∧ isDigitText getVal.tail ∧ (strToLong getVal.tail).isSome

/-- The rank's size after the event `opt`, from the size before it. -/
def sizeAfter (opt : Option UInt8) (size : ℤ) : Option ℕ :=
  if opt = some 74 then some (toUint32 (size + 1))
  else if opt = some 76 then some (toUint32 (size - 1))
  else none

/-- What the listener makes of the dynamic size. -/
def readSize (event : ℕ) (value : Bytes) (reads : ℕ) (text : Bytes) : Listener :=
  if isDigitText text then
    match strToLong text with
    | none => .top
    | some n => .applying event reads ((splitSizeAndVersion n).1 + 1)
      (sizeAfter value.head? (splitSizeAndVersion n).2)
  else .top

/-- A notification of an event wakes the listener up. An event that the filter drops counts as
handled. -/
def Rank.wake (rank : Rank) (event : ℕ) (value : Bytes) : Rank :=
  if rank.joined ∧ wellFormed value then
    if value = rank.prevEvent then { rank with
      listener := .top
      handled := max rank.handled event }
    else { rank with
      listener := .reading event value
      prevEvent := value }
  else { rank with listener := .top }

/-- `UpdateGroupVersion` and the size, by the listener. -/
def Rank.apply (rank : Rank) (event : ℕ) (groupVersion : ℤ) (rankSize : Option ℕ) : Rank :=
  { rank with
    groupVersion := groupVersion
    rankSize := rankSize.getD rank.rankSize
    listener := .top
    handled := max rank.handled event }

/-- The next operation of `GroupListenEvent` of rank `r`, if it can run. -/
def listenStep (s : System) (r : ℕ) : Option System :=
  match (s.ranks r).listener with
  | .top => some (if (s.ranks r).joined then s.listen r .watch else s)
  | .watch =>
    match s.store listenEventKey with
    | none => some (s.listen r .waiting)
    | some value => some (s.listen r (.notified s.events value.text))
  | .waiting => none
  | .notified event value => some (s.setRank r ((s.ranks r).wake event value))
  | .reading event value =>
    (s.store dynamicSizeKey).map fun size =>
      s.listen r (readSize event value s.adds size.text)
  | .applying event _ groupVersion rankSize =>
    some (s.setRank r ((s.ranks r).apply event groupVersion rankSize))

/-! ## Runs -/

/-- A call begins, or one of the threads makes its next step. -/
inductive Action where
  | join (r : ℕ)
  | leave (r : ℕ)
  | main (r : ℕ)
  | listen (r : ℕ)

/-- The rank that acts. -/
def Action.rank : Action → ℕ
  | .join r => r
  | .leave r => r
  | .main r => r
  | .listen r => r

section Run

-- the ranks, and the timeout of each
variable (group : Finset ℕ) (timeoutMs : ℕ → ℕ)

/-- What the action does; `none` if it cannot be made. -/
def step (s : System) (a : Action) : Option System :=
  if a.rank ∈ group then
    match a with
    | .join r => call s r true
    | .leave r => call s r false
    | .main r => mainStep (timeoutMs r) s r
    | .listen r => listenStep s r
  else none

/-- The system after a schedule. -/
def run (s : System) (schedule : List Action) : Option System :=
  schedule.foldlM (step group timeoutMs) s

end Run

end Dynamic

end AscendShmem.GroupEngine
