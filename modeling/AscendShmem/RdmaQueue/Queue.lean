import Mathlib
import AscendShmem.Lib.RingIndex

/-!
# The send queue of an RDMA queue pair

One core posts work queue entries (WQEs) into a ring of `depth` slots and polls their completions.
`head` and `tail` are free-running `uint32_t` words: `head` counts what was posted, `tail` is moved
by the poll. What a poll sees of the completion queue is an input of the operation that polls. The
queue keeps a log of the slots it wrote and of the targets it polled to.
-/

namespace AscendShmem.RdmaQueue

open Lib

/-- `uint32_t` arithmetic. -/
def word (n : ℕ) : ℕ := n % 2 ^ 32

/-- How far `head` is in front of `tail`. -/
def outstanding (head tail : ℕ) : ℕ := ahead (2 ^ 32) head tail

/-- `XSCALE` queues come with or without `IGNORE_OVERRUN`. -/
inductive Backend where
  | inDie
  | hns1825
  | xscale (ignoreOverrun : Bool)
  deriving DecidableEq

/-- `ACLSHMEM_NUM_CQE_PER_POLL_CQ` -/
def numCqePerPollCq : ℕ := 100

/-- `ACLSHMEMI_XSC_OVERRUN_WQE_INDEX_WIDTH`. -/
def overrunWqeIndexWidth : ℕ := 17

/-- What a poll returns when its time is over. -/
def pollCqTimeoutError : ℕ := 0x10000

/-- What a poll writes down: a slot written while the queue stood at `head` and `tail`, or a target
polled to. -/
inductive Event where
  | wrote (index head tail : ℕ)
  | polled (target head tail : ℕ)

/-- A completion: `HNS_1825` marks a failed one in its type, the others by a status. -/
structure Cqe where
  opError : Bool
  status : ℕ

/-- One look at the only entry of an ignore-overrun completion queue: how many more WQEs have
completed since the look before, and the status of the last one. -/
structure Look where
  advance : ℕ
  status : ℕ

/-- What a poll sees: the completions in order, `none` for one that does not show up (in time); or
the looks at the only entry, `none` when its owner bit does not match. -/
structure PollReply where
  cqes : ℕ → Option Cqe
  looks : List (Option Look)

/-- The words of a queue, and the requests written to it. -/
structure Queue where
  head : ℕ
  tail : ℕ
  /-- `base_head` of the aggregate cache. -/
  baseHead : ℕ
  /-- `pending_count` of the submit state. -/
  pendingCount : ℕ
  log : List Event

/-- A queue that was never used. -/
def Queue.init : Queue := ⟨0, 0, 0, 0, []⟩

/-! ## Polling -/

/-- The loop of `aclshmemi_roce_poll_cq` with `n` completions to go, the next one being number `i`.
A status of `none` means that the loop waited in vain; no completion comes for a WQE that was not
posted. -/
def pollLoop (stops : Cqe → Bool) (cqes : ℕ → Option Cqe) (head : ℕ) : ℕ → ℕ → ℕ → Option ℕ × ℕ
  | 0, _, tail => (some 0, tail)
  | n + 1, i, tail =>
    if tail = head then (none, tail)
    else
      match cqes i with
      | none => (none, tail)
      | some cqe =>
        if stops cqe then (some cqe.status, word (tail + 1))
        else pollLoop stops cqes head n (i + 1) (word (tail + 1))

/-- The tail after a completion with this WQE index, of which the entry has the low bits. -/
def advanceTail (tail wqeId : ℕ) : ℕ :=
  let tail := if wqeId + 1 < tail % 2 ^ overrunWqeIndexWidth
    then word (tail + 2 ^ overrunWqeIndexWidth) else tail
  word (tail / 2 ^ overrunWqeIndexWidth * 2 ^ overrunWqeIndexWidth + wqeId + 1)

/-- The index in the entry when `n` WQEs from `start` on have completed. -/
def wqeIdAt (start n : ℕ) : ℕ := word (start + (2 ^ 32 - 1) + n) % 2 ^ overrunWqeIndexWidth

/-- The loop of `aclshmemi_roce_xscale_poll_cq_overrun`: the poll began at `start` with `unpolled`
WQEs outstanding, of which `n` are known to have completed. -/
def pollOverrunLoop (start unpolled target : ℕ) :
    List (Option Look) → ℕ → Option ℕ → ℕ → ℕ × ℕ
  | [], _, _, tail => (0, tail)
  | none :: looks, n, lastWqeId, tail =>
    pollOverrunLoop start unpolled target looks n lastWqeId tail
  | some look :: looks, n, lastWqeId, tail =>
    let n := min (n + look.advance) unpolled
    let wqeId := wqeIdAt start n
    if lastWqeId = some wqeId then pollOverrunLoop start unpolled target looks n lastWqeId tail
    else
      let tail := advanceTail tail wqeId
      if look.status ≠ 0 then (look.status, tail)
      else if tail = target then (0, tail)
      else pollOverrunLoop start unpolled target looks n (some wqeId) tail

/-- `aclshmemi_roce_poll_cq<IN_DIE>`: it waits without a limit, and an error leaves the tail word as
it was. -/
def pollCqInDie (target : ℕ) (reply : PollReply) (q : Queue) : Option (ℕ × ℕ) :=
  if target = 0 then some (0, q.tail)
  else
    match pollLoop (fun cqe => cqe.status ≠ 0) reply.cqes q.head (outstanding target q.tail) 0 q.tail
      with
    | (none, _) => none
    | (some 0, tail) => some (0, tail)
    | (some status, _) => some (status, q.tail)

/-- `aclshmemi_roce_poll_cq<HNS_1825>`. -/
def pollCqHns1825 (target : ℕ) (reply : PollReply) (q : Queue) : ℕ × ℕ :=
  if target = 0 then (0, q.tail)
  else
    match pollLoop (fun cqe => cqe.opError) reply.cqes q.head (outstanding target q.tail) 0 q.tail with
    | (none, tail) => (pollCqTimeoutError, tail)
    | (some status, tail) => (status, tail)

/-- `aclshmemi_roce_xscale_poll_cq_overrun`. -/
def xscalePollCqOverrun (target : ℕ) (reply : PollReply) (q : Queue) : ℕ × ℕ :=
  if target = 0 then (0, q.tail)
  else
    match pollOverrunLoop q.tail (outstanding q.head q.tail) target reply.looks 0 none q.tail with
    | (status, tail) => if tail ≠ target then (pollCqTimeoutError, tail) else (status, tail)

/-- `aclshmemi_roce_poll_cq<XSCALE>`. -/
def pollCqXscale (ignoreOverrun : Bool) (target : ℕ) (reply : PollReply) (q : Queue) : ℕ × ℕ :=
  if ignoreOverrun then xscalePollCqOverrun target reply q
  else
    match pollLoop (fun cqe => cqe.status ≠ 0) reply.cqes q.head (outstanding target q.tail) 0 q.tail
      with
    | (none, tail) => (pollCqTimeoutError, tail)
    | (some status, tail) => (status, tail)

/-- `aclshmemi_roce_poll_cq`: the status and the new tail, nothing when it does not come back. -/
def pollCq : Backend → ℕ → PollReply → Queue → Option (ℕ × ℕ)
  | .inDie, target, reply, q => pollCqInDie target reply q
  | .hns1825, target, reply, q => some (pollCqHns1825 target reply q)
  | .xscale ignoreOverrun, target, reply, q => some (pollCqXscale ignoreOverrun target reply q)

/-- A poll of the queue. -/
def Queue.poll (q : Queue) (b : Backend) (target : ℕ) (reply : PollReply) : Option (ℕ × Queue) :=
  (pollCq b target reply q).map fun r =>
    (r.1, { q with
      tail := r.2
      log := q.log ++ [Event.polled target q.head q.tail] })

/-! ## Posting -/

/-- Writing `n` WQEs from `base` on, and the doorbell. -/
def Queue.post (q : Queue) (base n : ℕ) : Queue :=
  { q with
    head := word (base + n)
    log := q.log ++ (List.range n).map fun i => Event.wrote (word (base + i)) q.head q.tail }

/-- `aclshmemi_roce_post_send_read_write` of `IN_DIE`. -/
def postSendInDie (depth : ℕ) (reply : PollReply) (q : Queue) : Option Queue :=
  if word (q.head + 10) % depth = q.tail % depth then
    -- what the poll returns is ignored
    (q.poll .inDie (word (q.tail + numCqePerPollCq)) reply).map fun r => r.2.post q.head 1
  else some (q.post q.head 1)

/-- A post that polls to `head` when the queue is about to be full, and gives up when that fails. -/
def postSendPolled (b : Backend) (threshold depth : ℕ) (send : Queue → Queue) (reply : PollReply)
    (q : Queue) : Option Queue :=
  if word (q.head + threshold) % depth = word (depth + q.tail) % depth then
    (q.poll b q.head reply).map fun r => if r.1 ≠ 0 then r.2 else send r.2
  else some (send q)

/-- The slot after the WQE is marked invalid first. -/
def Queue.postHns1825 (q : Queue) : Queue :=
  { q with log := q.log ++ [Event.wrote (word (q.head + 1)) q.head q.tail] }.post q.head 1

/-- `aclshmemi_hns_1825_post_send_read_write`. -/
def postSendHns1825 (depth : ℕ) (reply : PollReply) (q : Queue) : Option Queue :=
  postSendPolled .hns1825 10 depth Queue.postHns1825 reply q

/-- `aclshmemi_xscale_post_send_read_write`. -/
def postSendXscale (ignoreOverrun : Bool) (depth : ℕ) (reply : PollReply) (q : Queue) :
    Option Queue :=
  postSendPolled (.xscale ignoreOverrun) 16 depth (fun q => q.post q.head 1) reply q

/-- `aclshmemi_rdma_xscdv_post_send_atomic`. -/
def postSendAtomic (ignoreOverrun : Bool) (depth : ℕ) (reply : PollReply) (q : Queue) :
    Option Queue :=
  postSendPolled (.xscale ignoreOverrun) 16 depth (fun q => q.post q.head 1) reply q

/-- `base_head`, read when a batch begins. -/
def Queue.cachedHead (q : Queue) : ℕ := if q.pendingCount = 0 then q.head else q.baseHead

/-- `aclshmemi_roce_stage_rma_wqe_ub_xscale`. -/
def stageRmaWqe (q : Queue) : Queue :=
  { q with
    baseHead := q.cachedHead
    pendingCount := word (q.pendingCount + 1) }

/-- Whether `aclshmemi_roce_commit_rma_wqes_xscale` polls. -/
def Queue.commitPolls (q : Queue) (depth : ℕ) : Prop :=
  depth ≤ word (word (q.cachedHead + word (q.pendingCount + 1) + (2 ^ 32 - q.tail)) + 16)

instance (q : Queue) (depth : ℕ) : Decidable (q.commitPolls depth) := Nat.decLe _ _

/-- `aclshmemi_roce_commit_rma_wqes_xscale`; nothing when it aborts the kernel. -/
def commitRmaWqes (ignoreOverrun : Bool) (depth : ℕ) (reply : PollReply) (q : Queue) :
    Option Queue :=
  let curHead := q.cachedHead
  let totalWqeCnt := word (q.pendingCount + 1)
  let q' := { q with baseHead := curHead }
  if depth ≤ totalWqeCnt then none
  else if q.commitPolls depth then
    match q'.poll (.xscale ignoreOverrun) curHead reply with
    | none => none
    | some (ret, q') =>
      if ret ≠ 0 then none else some { q'.post curHead totalWqeCnt with pendingCount := 0 }
  else some { q'.post curHead totalWqeCnt with pendingCount := 0 }

/-- `aclshmemi_roce_quiet`. -/
def quiet (b : Backend) (reply : PollReply) (q : Queue) : Option Queue :=
  (q.poll b q.head reply).map Prod.snd

/-! ## Runs -/

/-- A call on the queue. -/
inductive Call where
  | post (reply : PollReply)
  | atomic (reply : PollReply)
  | stage
  | commit (reply : PollReply)
  | quiet (reply : PollReply)

/-- The queue after a call; nothing when it does not return, or when the backend does not have it. -/
def step (b : Backend) (depth : ℕ) (q : Queue) : Call → Option Queue
  | .post reply =>
    match b with
    | .inDie => postSendInDie depth reply q
    | .hns1825 => postSendHns1825 depth reply q
    | .xscale ignoreOverrun => postSendXscale ignoreOverrun depth reply q
  | .atomic reply =>
    match b with
    | .xscale ignoreOverrun => postSendAtomic ignoreOverrun depth reply q
    | _ => none
  | .stage =>
    match b with
    | .xscale _ => some (stageRmaWqe q)
    | _ => none
  | .commit reply =>
    match b with
    | .xscale ignoreOverrun => commitRmaWqes ignoreOverrun depth reply q
    | _ => none
  | .quiet reply => quiet b reply q

/-- Calls one after the other. -/
def run (b : Backend) (depth : ℕ) (q : Queue) (calls : List Call) : Option Queue :=
  calls.foldlM (step b depth) q

end AscendShmem.RdmaQueue
