import Mathlib
import AscendShmem.Lib.RingIndex

/-!
# The send queue of a UDMA queue pair

The ring is made of basic blocks; a work queue entry (WQE) takes one of them, or two. `head` counts
the blocks posted, `wqeCnt` the WQEs posted and `tail` the WQEs whose completion was consumed, all
three as `uint32_t`. The tail of the completion queue and the tail of the work queue are written
together, so there is one of them here. What a poll sees is an input of the operation that polls.
The queue keeps a log of the WQEs it wrote.
-/

namespace AscendShmem.UdmaQueue

open Lib

/-- `uint32_t` arithmetic. -/
def word (n : ℕ) : ℕ := n % 2 ^ 32

/-- `UDMA_SQ_BASKBLK_CNT`. -/
def sqBaskblkCnt : ℕ := 32768

/-- `POLL_CQ_THRESHOLD` -/
def pollCqThreshold : ℕ := 10

/-- `ACLSHMEM_NUM_CQE_PER_POLL_CQ` -/
def numCqePerPollCq : ℕ := 100

/-- `ACLSHMEM_UDMA_AGGREGATE_CREDIT_GUARD`. -/
def aggregateCreditGuard : ℕ := 10

/-- The opcodes that are posted. -/
inductive Opcode where
  | write
  | writeWithNotify
  | read
  | cas
  | faa
  | writeWithReduce
  deriving DecidableEq

/-- `get_wqe_bb_cnt`. -/
def Opcode.wqeBbCnt : Opcode → ℕ
  | .faa => 2
  | .cas => 2
  | .writeWithNotify => 2
  | _ => 1

/-- A WQE as it was written: its blocks one after the other from `slot` on, with `tail` completions
consumed. -/
structure Wqe where
  slot : ℕ
  blocks : ℕ
  tail : ℕ

/-- The status words of a completion. -/
structure Cqe where
  status : ℕ
  substatus : ℕ
  deriving DecidableEq

/-- The completions in order, `none` for one that does not show up in time. -/
abbrev PollReply := ℕ → Option Cqe

/-- The words of a queue, and the requests written to it. -/
structure Queue where
  head : ℕ
  tail : ℕ
  wqeCnt : ℕ
  /-- `pending_count` of the submit state. -/
  pendingCount : ℕ
  /-- Number `k` is the WQE with index `k`. -/
  log : List Wqe

/-- A queue that was never used. -/
def Queue.init : Queue := ⟨0, 0, 0, 0, []⟩

/-! ## Polling -/

/-- The loop of `aclshmemi_udma_poll_cq` with `n` completions to go, the next one being number `i`:
what the function returns. No completion comes for a WQE that was not posted. -/
def pollLoop (reply : PollReply) (wqeCnt : ℕ) : ℕ → ℕ → ℕ → ℕ
  | 0, _, _ => 0
  | n + 1, i, tail =>
    if tail = wqeCnt then 0xFF
    else
      match reply i with
      | none => 0xFF
      | some cqe =>
        if cqe.status ≠ 0 ∨ cqe.substatus ≠ 0 then cqe.status <<< 8 ||| cqe.substatus
        else pollLoop reply wqeCnt n (i + 1) (word (tail + 1))

/-- `aclshmemi_udma_poll_cq`: a poll that fails leaves the tails as they were. -/
def pollCq (idx : ℕ) (reply : PollReply) (q : Queue) : ℕ × Queue :=
  if idx = 0 then (0, q)
  else
    let ret := pollLoop reply q.wqeCnt (ahead (2 ^ 32) idx q.tail) 0 q.tail
    if ret = 0 then (0, { q with tail := idx }) else (ret, q)

/-- Whether a post polls first. -/
def Queue.nearlyFull (q : Queue) : Prop :=
  word (q.wqeCnt + pollCqThreshold) % sqBaskblkCnt = q.tail % sqBaskblkCnt

instance (q : Queue) : Decidable q.nearlyFull := Nat.decEq _ _

/-- The WQE it polls to. -/
def Queue.pollTarget (q : Queue) : ℕ :=
  if q.wqeCnt < word (q.tail + numCqePerPollCq) then q.wqeCnt else word (q.tail + numCqePerPollCq)

/-- `poll_cq_when_sq_overflow`; what the poll returns is ignored. -/
def pollCqWhenSqOverflow (reply : PollReply) (q : Queue) : Queue :=
  if q.nearlyFull then (pollCq q.pollTarget reply q).2 else q

/-! ## Single posts -/

/-- A WQE of `bbCnt` blocks at the head, and the doorbell. -/
def Queue.post (q : Queue) (bbCnt : ℕ) : Queue :=
  { q with
    head := word (q.head + bbCnt)
    wqeCnt := word (q.wqeCnt + 1)
    log := q.log ++ [⟨q.head % sqBaskblkCnt, bbCnt, q.tail⟩] }

/-- `aclshmemi_udma_post_send`. -/
def postSend (op : Opcode) (reply : PollReply) (q : Queue) : Queue :=
  (pollCqWhenSqOverflow reply q).post op.wqeBbCnt

/-- The opcodes of the MTE3 path. -/
def Opcode.onMte3 : Opcode → Bool
  | .write => true
  | .writeWithNotify => true
  | .read => true
  | _ => false

/-- `aclshmemi_udma_post_send_mte3`. -/
def postSendMte3 (op : Opcode) (reply : PollReply) (q : Queue) : Option Queue :=
  if op.onMte3 then some ((pollCqWhenSqOverflow reply q).post op.wqeBbCnt) else none

/-! ## Aggregate posts -/

/-- The opcodes of the aggregate path, of one block each. -/
def Opcode.aggregates : Opcode → Bool
  | .write => true
  | .read => true
  | _ => false

/-- `aclshmemi_udma_stage_send_wqe`. -/
def stageSendWqe (op : Opcode) (q : Queue) : Option Queue :=
  if op.aggregates then some { q with pendingCount := word (q.pendingCount + 1) } else none

/-- `copy_wqe_cnt`: up to the end of the ring. -/
def Queue.copyWqeCnt (q : Queue) (remaining : ℕ) : ℕ :=
  min (min (sqBaskblkCnt - q.head % sqBaskblkCnt) remaining) (sqBaskblkCnt - aggregateCreditGuard)

/-- Whether `aclshmemi_udma_poll_before_aggregate_flush` polls. -/
def Queue.flushPolls (q : Queue) (staged : ℕ) : Prop :=
  sqBaskblkCnt ≤ word (word (q.head + staged + (2 ^ 32 - q.tail)) + aggregateCreditGuard)

instance (q : Queue) (staged : ℕ) : Decidable (q.flushPolls staged) := Nat.decLe _ _

/-- `aclshmemi_udma_poll_before_aggregate_flush`; what the poll returns is ignored. -/
def pollBeforeAggregateFlush (staged : ℕ) (reply : PollReply) (q : Queue) : Queue :=
  if q.flushPolls staged then (pollCq q.wqeCnt reply q).2 else q

/-- Copying `n` WQEs of one block to the head, and the doorbell. -/
def Queue.copy (q : Queue) (n : ℕ) : Queue :=
  { q with
    head := word (q.head + n)
    wqeCnt := word (q.wqeCnt + n)
    log := q.log ++ (List.range n).map fun i => ⟨q.head % sqBaskblkCnt + i, 1, q.tail⟩ }

/-- One iteration of the flush, with `remaining` WQEs to go. -/
def flushChunk (remaining : ℕ) (reply : PollReply) (q : Queue) : Queue :=
  (pollBeforeAggregateFlush (q.copyWqeCnt remaining) reply q).copy (q.copyWqeCnt remaining)

/-- The loop of `aclshmemi_udma_flush_aggregate_wqes`; `i` numbers the iterations. Every iteration
copies a WQE, so `remaining` iterations are enough. -/
def flushLoop (replies : ℕ → PollReply) : ℕ → ℕ → ℕ → Queue → Queue
  | 0, _, _, q => q
  | fuel + 1, i, remaining, q =>
    if remaining = 0 then q
    else flushLoop replies fuel (i + 1) (remaining - q.copyWqeCnt remaining)
      (flushChunk remaining (replies i) q)

/-- `aclshmemi_udma_flush_aggregate_wqes`. -/
def flushAggregateWqes (replies : ℕ → PollReply) (pending : ℕ) (q : Queue) : Queue :=
  flushLoop replies pending 0 pending q

/-- `aclshmemi_udma_submit_send_wqes`. -/
def submitSendWqes (op : Opcode) (replies : ℕ → PollReply) (q : Queue) : Option Queue :=
  (stageSendWqe op q).map fun staged =>
    { flushAggregateWqes replies staged.pendingCount staged with pendingCount := 0 }

/-- `aclshmemx_udma_quiet`. -/
def quiet (reply : PollReply) (q : Queue) : Queue := (pollCq q.wqeCnt reply q).2

/-! ## Runs -/

/-- A call on the queue. -/
inductive Call where
  | post (op : Opcode) (reply : PollReply)
  | postMte3 (op : Opcode) (reply : PollReply)
  | stage (op : Opcode)
  | submit (op : Opcode) (replies : ℕ → PollReply)
  | quiet (reply : PollReply)

/-- The queue after a call; nothing when the path does not have the opcode. -/
def step (q : Queue) : Call → Option Queue
  | .post op reply => some (postSend op reply q)
  | .postMte3 op reply => postSendMte3 op reply q
  | .stage op => stageSendWqe op q
  | .submit op replies => submitSendWqes op replies q
  | .quiet reply => some (UdmaQueue.quiet reply q)

/-- Calls one after the other. -/
def run (q : Queue) (calls : List Call) : Option Queue := calls.foldlM step q

end AscendShmem.UdmaQueue
