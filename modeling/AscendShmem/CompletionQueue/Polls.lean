import AscendShmem.Lib.LapRing
import AscendShmem.Lib.Run

/-!
# Polling a completion queue

`aclshmemi_udma_poll_cq` and the `aclshmemi_roce_poll_cq` of `IN_DIE`, `HNS_1825` and `XSCALE` (normal
mode) are one loop: it waits at the slot of the current tail until the owner bit is the one of its lap,
looks at the CQE, and goes on until the target is reached. They differ in how they find the slot and
the parity, in what an error is, in whether a call that ends early writes the tails, and in whether
they write the tail of the send queue (`PollCode`).

The system posts WQEs, the hardware writes CQEs and calls poll, in any order; a look is one read of the
CQE. `consumed` and `position` are the numbers of completions of which the tails are the low 32 bits;
no branch of the code depends on them.
-/

namespace AscendShmem.CompletionQueue

open Lib

/-- `uint32_t` arithmetic. -/
def word (n : ℕ) : ℕ := n % 2 ^ 32

/-- What the polls read of a CQE: the owner bit, `status` (the error code of `XSCALE`) and `substatus`,
and the operation type and the syndrome of `HNS_1825`. -/
structure Cqe where
  owner : Bool
  status : ℕ
  substatus : ℕ
  opType : ℕ
  syndrome : ℕ
deriving DecidableEq

/-- What a poll does at its places. -/
structure PollCode where
  /-- the physical size of the ring -/
  ring : ℕ
  /-- a call for the target 0 returns at once -/
  returnsAtZero : Bool
  slot : ℕ → ℕ
  ready : ℕ → Cqe → Bool
  /-- how often it looks at a CQE, if there is a limit -/
  limit : Option ℕ
  timeoutStatus : ℕ
  /-- the status with which a CQE ends the call -/
  failure : Cqe → Option ℕ
  /-- an error or a timeout returns before the tails are written -/
  exitsBare : Bool
  /-- the tail word of the send queue is written with the one of the completion queue -/
  writesSqTail : Bool
  /-- the owner bit that the hardware writes with completion `k` -/
  hwOwner : ℕ → Bool
  /-- the CQE is not a placeholder -/
  valid : Cqe → Bool

/-- `UDMA_CQ_DEPTH_DEFAULT` -/
def udmaCqDepthDefault : ℕ := 32768
/-- `MAX_RETRY_TIMES` -/
def maxRetryTimes : ℕ := 1000000

/-- `aclshmemi_udma_poll_cq` -/
def udma : PollCode where
  ring := udmaCqDepthDefault
  returnsAtZero := true
  slot curTail := curTail &&& (udmaCqDepthDefault - 1)
  ready curTail cqe := decide (curTail / udmaCqDepthDefault % 2 = 1) ^^ cqe.owner
  limit := some maxRetryTimes
  timeoutStatus := 0xFF
  failure cqe :=
    let status := cqe.status % 2 ^ 8
    let subStatus := cqe.substatus % 2 ^ 8
    if status ≠ 0 ∨ subStatus ≠ 0 then some (status * 2 ^ 8 + subStatus) else none
  exitsBare := true
  writesSqTail := true
  hwOwner k := !lapParity udmaCqDepthDefault k
  valid _ := true

/-- `aclshmemi_roce_poll_cq<IN_DIE>`, which waits without a limit. -/
def inDie (depth : ℕ) : PollCode where
  ring := depth
  returnsAtZero := true
  slot curTail := curTail &&& (depth - 1)
  ready curTail cqe := !(cqe.owner == decide (curTail &&& depth ≠ 0))
  limit := none
  timeoutStatus := 0
  failure cqe :=
    let status := cqe.status % 2 ^ 8
    if status ≠ 0 then some status else none
  exitsBare := true
  writesSqTail := true
  hwOwner k := !lapParity depth k
  valid _ := true

/-- By how much the ring of HNS_1825 is larger than its depth. -/
def cqeMaxGenNum : ℕ := 1024
/-- The operation type of an error entry. -/
def cqeOptypeError : ℕ := 0x1e
/-- The operation type of an entry that is not valid. -/
def cqeOptypeInvalid : ℕ := 0x1f
/-- The status of a poll that has timed out. -/
def pollCqTimeoutError : ℕ := 0x10000

/-- `aclshmemi_roce_poll_cq<HNS_1825>` -/
def hns1825 (depth timeoutCycles : ℕ) : PollCode where
  ring := word (depth + cqeMaxGenNum)
  returnsAtZero := true
  slot curTail := curTail &&& (word (depth + cqeMaxGenNum) - 1)
  ready curTail cqe := cqe.opType % 2 ^ 5 ≠ cqeOptypeInvalid &&
    (decide (curTail &&& word (depth + cqeMaxGenNum) = 0) ^^ cqe.owner)
  limit := some timeoutCycles
  timeoutStatus := pollCqTimeoutError
  failure cqe := if cqe.opType % 2 ^ 5 = cqeOptypeError then some (cqe.syndrome % 2 ^ 8) else none
  exitsBare := false
  writesSqTail := true
  hwOwner k := lapParity (word (depth + cqeMaxGenNum)) k
  valid cqe := cqe.opType % 2 ^ 5 ≠ cqeOptypeInvalid

/-- `aclshmemi_roce_poll_cq<XSCALE>` without `IGNORE_OVERRUN`. It writes the tail word of the completion
queue only, which may be the one of the send queue too (`sharedTail`). -/
def xscale (depth timeoutCycles : ℕ) (sharedTail : Bool) : PollCode where
  ring := depth
  returnsAtZero := false
  slot curTail := curTail % depth
  ready curTail cqe := cqe.owner == decide (curTail / depth % 2 = 1)
  limit := some timeoutCycles
  timeoutStatus := pollCqTimeoutError
  failure cqe :=
    let status := cqe.status % 2 ^ 8
    if status ≠ 0 then some status else none
  exitsBare := false
  writesSqTail := sharedTail
  hwOwner k := lapParity depth k
  valid _ := true

/-! ## The system -/

/-- A call between its looks. -/
structure Poll where
  target : ℕ
  curTail : ℕ
  times : ℕ
  position : ℕ
  goal : ℕ

/-- What happened: a CQE was accepted for completion `position`, where the hardware had written
`written`; a call returned and left the tails. -/
inductive Entry where
  | accepted (curTail position : ℕ) (cqe : Cqe) (written : Option Cqe)
  | returned (target status before after cqTail sqTail completed : ℕ)
deriving DecidableEq

/-- `cqes` lists the CQEs that the hardware has written, one for each completion. -/
structure State where
  posted : ℕ
  cqes : List Cqe
  slots : ℕ → Cqe
  cqTail : ℕ
  sqTail : ℕ
  consumed : ℕ
  lastTarget : ℕ
  poll : Option Poll
  log : List Entry

/-- Nothing is posted, and the slots have what the driver has put there. -/
def State.init (initial : ℕ → Cqe) : State := ⟨0, [], initial, 0, 0, 0, 0, none, []⟩

/-- The producer posts, the hardware completes, and the consumer calls and looks. -/
inductive Event where
  | post
  | complete (cqe : Cqe)
  | call (target : ℕ)
  | look

section Steps

variable (code : PollCode)

/-- The tails are written. -/
def State.store (s : State) (curTail position : ℕ) : State :=
  { s with
    cqTail := curTail
    sqTail := if code.writesSqTail then curTail else s.sqTail
    consumed := position }

/-- The call that began in the state `s` returns in the state `t`. -/
def State.returns (s t : State) (target status : ℕ) : State :=
  { t with
    poll := none
    log := t.log ++ [.returned target status s.consumed t.consumed t.cqTail t.sqTail t.cqes.length] }

/-- A call for the target `goal`, up to its first look. -/
def State.call (s : State) (goal : ℕ) : State :=
  let target := word goal
  let s := { s with lastTarget := goal }
  if code.returnsAtZero ∧ target = 0 then s.returns s goal 0
  else if s.cqTail = target then s.returns (s.store code s.cqTail s.consumed) goal 0
  else { s with poll := some ⟨target, s.cqTail, 0, s.consumed, goal⟩ }

/-- The end of a call that did not reach its target. -/
def State.fails (s : State) (p : Poll) (curTail position status : ℕ) : State :=
  if code.exitsBare then s.returns s p.goal status
  else s.returns (s.store code curTail position) p.goal status

/-- The call has seen the CQE of its position. -/
def State.accept (s : State) (p : Poll) (cqe : Cqe) : State :=
  let s := { s with log := s.log ++ [Entry.accepted p.curTail p.position cqe s.cqes[p.position]?] }
  let curTail := word (p.curTail + 1)
  match code.failure cqe with
  | some status => s.fails code p curTail (p.position + 1) status
  | none =>
    if curTail = p.target then s.returns (s.store code curTail (p.position + 1)) p.goal 0
    else { s with poll := some ⟨p.target, curTail, 0, p.position + 1, p.goal⟩ }

/-- The call has looked as often as it may. -/
def PollCode.timedOut (p : Poll) : Bool :=
  match code.limit with
  | some limit => limit ≤ p.times
  | none => false

/-- One turn of the loop of a poll. -/
def State.look (s : State) (p : Poll) : State :=
  if code.timedOut p then s.fails code p p.curTail p.position code.timeoutStatus
  else
    let cqe := s.slots (code.slot p.curTail)
    if code.ready p.curTail cqe then s.accept code p cqe
    else { s with poll := some { p with times := p.times + 1 } }

/-- One event, if it can happen: the words of head and tail stay apart, only a posted WQE completes
and at most `ring` completions are unconsumed, the hardware writes the CQE with the owner bit of its
lap, and the targets do not decrease, do not pass the head and are not the word 0. -/
def step (s : State) : Event → Option State
  | .post => if s.posted + 1 < s.consumed + 2 ^ 32 then some { s with posted := s.posted + 1 } else none
  | .complete cqe =>
    if s.cqes.length < s.posted ∧ s.cqes.length < s.consumed + code.ring ∧
        cqe.owner = code.hwOwner s.cqes.length ∧ code.valid cqe then
      some { s with
        cqes := s.cqes ++ [cqe]
        slots := Function.update s.slots (s.cqes.length % code.ring) cqe }
    else none
  | .call target =>
    if s.poll.isNone ∧ s.lastTarget ≤ target ∧ target ≤ s.posted ∧ word target ≠ 0 then
      some (s.call code target)
    else none
  | .look => s.poll.map (s.look code)

end Steps

/-! ## The claim of the polls -/

/-- An accepted CQE is the one that the hardware wrote for this completion; a call that returns 0 has
reached its target, and no call passes a completion that is not there. -/
def Entry.Ok : Entry → Prop
  | .accepted curTail position cqe written => curTail = word position ∧ written = some cqe
  | .returned target status before after cqTail _ completed =>
    before ≤ after ∧ after ≤ completed ∧ cqTail = word after ∧ (status = 0 → after = target)

/-- A call leaves the tail of the completion queue in the send queue too. -/
def Entry.SqOk : Entry → Prop
  | .accepted .. => True
  | .returned _ _ _ after _ sqTail _ => sqTail = word after

/-- The completions that the calls before have counted, and how far the call that runs has come: it
takes them one by one, and on return all that it has taken are counted or, after an error, none. -/
def count : ℕ × ℕ → Entry → Option (ℕ × ℕ)
  | (tail, next), .accepted _ position _ _ =>
    if position = next then some (tail, next + 1) else none
  | (tail, next), .returned _ status before after _ _ _ =>
    if before = tail ∧ (after = next ∨ after = tail ∧ status ≠ 0) then some (after, after) else none

/-- Every completion is counted once and in order. -/
def CountedOnce (log : List Entry) : Prop := (log.foldlM count (0, 0)).isSome

/-- The driver's queues: a ring of `2 ^ j` slots. -/
inductive Backend : PollCode → Prop where
  | udma : Backend udma
  | inDie (j : ℕ) : j < 32 → Backend (inDie (2 ^ j))
  | hns1825 (j depth timeoutCycles : ℕ) : j < 32 → word (depth + cqeMaxGenNum) = 2 ^ j →
    Backend (hns1825 depth timeoutCycles)
  | xscale (j timeoutCycles : ℕ) (sharedTail : Bool) : j < 32 →
    Backend (xscale (2 ^ j) timeoutCycles sharedTail)

end AscendShmem.CompletionQueue
