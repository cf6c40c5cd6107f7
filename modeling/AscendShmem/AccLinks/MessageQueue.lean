import Mathlib
import AscendShmem.AccLinks.SendQueue
import AscendShmem.Lib.Loop
import AscendShmem.Lib.Run

/-!
# The message queue as a deque

`AccLinkedMessageQueue` by itself: any thread may call any of its operations, each of them atomic
under the mutex. A dequeued node belongs to the caller, who may push it back in front, and the list
that `TakeAwayMessages` hands out belongs to the one who walks it. Beside the queue runs an abstract
deque with the same calls, and the two are compared after every one of them.

A node keeps its `next` when it is dequeued, and `EnqueueFront` on an empty queue does not write it.
So the two agree along a run exactly as long as a node that is pushed onto an empty queue has led
nowhere before.
-/

namespace AscendShmem.AccLinks

open Lib

/-! ## The queue -/

/-- The results of the queue's operations. -/
inductive QueueResult where
  | ok
  | invalidParam
  | newObjectFail
  | queueIsFull
deriving DecidableEq, Repr

/-- What a call returns. -/
inductive QueueReply where
  | result (result : QueueResult)
  | node (node : Option ℕ)
  /-- The owner of a node does something with it; the queue is not called. -/
  | silent
deriving DecidableEq, Repr

/-- The nodes of the heap and the members of the queue. -/
structure MessageQueue where
  sizeCap : UInt32
  list : LinkedQueue AccLinkedMessageNode

/-- `size_` is a `uint32_t`. -/
def wrapSize (list : LinkedQueue AccLinkedMessageNode) : LinkedQueue AccLinkedMessageNode :=
  { list with size := list.size % 2 ^ 32 }

namespace MessageQueue

variable (q : MessageQueue)

/-- The queue as it is constructed. -/
def init (sizeCap : UInt32) : MessageQueue := ⟨sizeCap, .empty⟩

/-- `EnqueueBack`; `new` is what `new (std::nothrow)` returns. -/
def enqueueBack (h : AccMsgHeader) (d : Option AccData) (cbCtx : ℕ) (new : Option ℕ) :
    Option (QueueReply × MessageQueue) :=
  match d, new with
  | none, _ => some (.result .invalidParam, q)
  | some _, none => some (.result .newObjectFail, q)
  | some d, some tmpNode =>
    -- a full queue deletes the new node again
    if q.list.size ≥ q.sizeCap.toNat then some (.result .queueIsFull, q)
    else (q.list.pushBack tmpNode (Message.node ⟨h, d, cbCtx⟩)).map fun list =>
      (.result .ok, { q with list := wrapSize list })

/-- `DequeueFront` -/
def dequeueFront : Option (QueueReply × MessageQueue) :=
  q.list.popFront.map fun (tmpNode, list) => (.node tmpNode, { q with list := list })

/-- `EnqueueFront`, which ignores the cap. -/
def enqueueFront (node : Option ℕ) : Option (QueueReply × MessageQueue) :=
  match node with
  | none => some (.result .invalidParam, q)
  | some node => (q.list.pushFront node).map fun list =>
      (.result .ok, { q with list := wrapSize list })

/-- `TakeAwayMessages` -/
def takeAwayMessages : QueueReply × MessageQueue :=
  (.node q.list.headNode, { q with list := { q.list with
    size := 0
    headNode := none
    tailNode := none } })

end MessageQueue

/-! ## Deleting a list -/

/-- A loop that deletes a list, as the destructor and `HandleLinkBroken` have it. -/
structure DeleteLoop where
  list : LinkedQueue AccLinkedMessageNode
  tmpNode : Option ℕ
  deleted : List ℕ

/-- One turn; the result is `none` where a pointer leads to no node. -/
def DeleteLoop.turn (loop : DeleteLoop) : Option (List ℕ) ⊕ DeleteLoop :=
  match loop.tmpNode with
  | none => .inl (some loop.deleted)
  | some node =>
    match loop.list.nodes node with
    | none => .inl none
    | some n => .inr ⟨loop.list.free node, n.next, loop.deleted ++ [node]⟩

/-- The loop from `head` deletes the nodes of `l`, one after the other. -/
def Deletes (list : LinkedQueue AccLinkedMessageNode) (head : Option ℕ) (l : List ℕ) : Prop :=
  Returns DeleteLoop.turn ⟨list, head, []⟩ (some l)

/-! ## The deque -/

/-- A call of the queue, or what the owners of nodes do between the calls. -/
inductive QueueEvent where
  | enqueueBack (h : AccMsgHeader) (d : Option AccData) (cbCtx : ℕ) (new : Option ℕ)
  | dequeueFront
  | enqueueFront (node : Option ℕ)
  | takeAwayMessages
  /-- The owner of a dequeued node counts what it has sent. -/
  | update (node : ℕ) (f : AccLinkedMessageNode → AccLinkedMessageNode)
  /-- The owner of a dequeued node deletes it. -/
  | delete (node : ℕ)
  /-- One turn of the loop over the list that was taken away as number `i`. -/
  | walk (i : ℕ)

/-- What the calls should make of the nodes. -/
structure Deque where
  contents : List ℕ
  /-- dequeued, and neither pushed back nor deleted -/
  dequeued : List ℕ
  /-- taken away and not deleted yet, list by list -/
  taken : List (List ℕ)

/-- A call on the deque; `none` where the caller does not own what it hands over. -/
def Deque.step (sizeCap : ℕ) (d : Deque) : QueueEvent → Option (QueueReply × Deque)
  | .enqueueBack _ none _ _ => some (.result .invalidParam, d)
  | .enqueueBack _ (some _) _ none => some (.result .newObjectFail, d)
  | .enqueueBack _ (some _) _ (some node) =>
    if sizeCap ≤ d.contents.length then some (.result .queueIsFull, d)
    else some (.result .ok, { d with contents := d.contents ++ [node] })
  | .dequeueFront =>
    match d.contents with
    | [] => some (.node none, d)
    | node :: rest => some (.node (some node), { d with
        contents := rest
        dequeued := node :: d.dequeued })
  | .enqueueFront none => some (.result .invalidParam, d)
  | .enqueueFront (some node) =>
    if node ∈ d.dequeued then some (.result .ok, { d with
        contents := node :: d.contents
        dequeued := d.dequeued.erase node })
    else none
  | .takeAwayMessages => some (.node d.contents.head?, { d with
        contents := []
        taken := d.taken ++ [d.contents] })
  | .update node _ => if node ∈ d.dequeued then some (.silent, d) else none
  | .delete node =>
    if node ∈ d.dequeued then some (.silent, { d with dequeued := d.dequeued.erase node })
    else none
  | .walk i =>
    match d.taken[i]? with
    | some (_ :: rest) => some (.silent, { d with taken := d.taken.set i rest })
    | _ => none

/-- All nodes the deque knows. -/
def Deque.nodes (d : Deque) : List ℕ := d.contents ++ (d.dequeued ++ d.taken.flatten)

/-! ## The queue and the deque side by side -/

/-- The queue beside the deque it stands for. -/
structure QueueRun where
  queue : MessageQueue
  /-- Where the loops over the lists that were taken away stand. -/
  walkers : List (Option ℕ)
  deque : Deque
  /-- What the last call returned, and what the deque says. -/
  reply : QueueReply
  expected : QueueReply
  /-- A null or dangling pointer was followed. -/
  crashed : Bool

namespace QueueRun

/-- Both are empty, and no call has been made. -/
def init (sizeCap : UInt32) : QueueRun :=
  ⟨.init sizeCap, [], ⟨[], [], []⟩, .silent, .silent, false⟩

/-- What the code does; `none` where it follows a pointer to no node. -/
def act (s : QueueRun) : QueueEvent → Option (QueueReply × MessageQueue × List (Option ℕ))
  | .enqueueBack h d cbCtx new =>
    (s.queue.enqueueBack h d cbCtx new).map fun (reply, queue) => (reply, queue, s.walkers)
  | .dequeueFront => s.queue.dequeueFront.map fun (reply, queue) => (reply, queue, s.walkers)
  | .enqueueFront node =>
    (s.queue.enqueueFront node).map fun (reply, queue) => (reply, queue, s.walkers)
  | .takeAwayMessages =>
    let (reply, queue) := s.queue.takeAwayMessages
    some (reply, queue, s.walkers ++ [s.queue.list.headNode])
  | .update node f =>
    some (.silent, { s.queue with list := s.queue.list.modify node f }, s.walkers)
  | .delete node => some (.silent, { s.queue with list := s.queue.list.free node }, s.walkers)
  | .walk i =>
    match s.walkers[i]? with
    | some (some node) =>
      (s.queue.list.nodes node).map fun n =>
        (.silent, { s.queue with list := s.queue.list.free node }, s.walkers.set i n.next)
    | _ => some (.silent, s.queue, s.walkers)

/-- `new` returns an address that no node has. -/
def allocates (s : QueueRun) : QueueEvent → Bool
  | .enqueueBack _ _ _ (some node) => (s.queue.list.nodes node).isNone
  | _ => true

/-- A call on both; `none` where it cannot be made. -/
def step (s : QueueRun) (e : QueueEvent) : Option QueueRun :=
  if s.crashed || !s.allocates e then none
  else (s.deque.step s.queue.sizeCap.toNat e).map fun (expected, deque) =>
    match s.act e with
    | none => { s with
        deque := deque
        expected := expected
        crashed := true }
    | some (reply, queue, walkers) => ⟨queue, walkers, deque, reply, expected, false⟩

/-- The queue is the deque: the links visit its contents, and whoever deletes a list deletes every
node of it once. -/
structure IsDeque (s : QueueRun) : Prop where
  alive : s.crashed = false
  reply : s.reply = s.expected
  linked : Linked s.queue.list.next? s.queue.list.headNode s.deque.contents
  size : s.queue.list.size = s.deque.contents.length
  tail : s.queue.list.tailNode = s.deque.contents.getLast?
  tailNext : ∀ node, s.queue.list.tailNode = some node → s.queue.list.next? node = none
  nodup : s.deque.contents.Nodup
  notDequeued : ∀ node ∈ s.deque.contents, node ∉ s.deque.dequeued
  destroyed : Deletes s.queue.list s.queue.list.headNode s.deque.contents
  walkers : s.walkers.length = s.deque.taken.length
  walked : ∀ (i : ℕ) (node : Option ℕ) (l : List ℕ), s.walkers[i]? = some node →
    s.deque.taken[i]? = some l → l.Nodup ∧ Deletes s.queue.list node l

/-- The call leaves the queue and the deque the same. -/
def StaysDeque (s : QueueRun) (e : QueueEvent) : Prop :=
  ∀ s', s.step e = some s' → s'.IsDeque

/-- A node that is pushed onto an empty queue leads nowhere, and `size_` has room for it. -/
def LeadsNowhere (s : QueueRun) : QueueEvent → Prop
  | .enqueueFront (some node) => node ∈ s.deque.dequeued →
    (s.queue.list.headNode = none → s.queue.list.next? node = none) ∧
      s.queue.list.size + 1 < 2 ^ 32
  | _ => True

end QueueRun

/-! ## Deleting what is linked -/

/-- A deleting loop over linked live nodes deletes each of them once and ends. -/
theorem deletes_of_linked {list : LinkedQueue AccLinkedMessageNode} {head : Option ℕ} {l : List ℕ}
    (h : Linked list.next? head l) (hnodup : l.Nodup) (hlive : ∀ a ∈ l, (list.nodes a).isSome)
    (deleted : List ℕ) : Returns DeleteLoop.turn ⟨list, head, deleted⟩ (some (deleted ++ l)) := by
  induction l generalizing list head deleted with
  | nil =>
    have hhead : head = none := h
    subst hhead
    rw [List.append_nil]
    exact returns_of_inl rfl
  | cons a l ih =>
    obtain ⟨rfl, hrest⟩ := h
    obtain ⟨ha, hnodup⟩ := List.nodup_cons.mp hnodup
    obtain ⟨n, hn⟩ := Option.isSome_iff_exists.mp (hlive a List.mem_cons_self)
    have hnext : list.next? a = n.next := by rw [LinkedQueue.next?, hn]; rfl
    have hturn : DeleteLoop.turn ⟨list, some a, deleted⟩
        = .inr ⟨list.free a, n.next, deleted ++ [a]⟩ := by
      simp only [DeleteLoop.turn, hn]
    -- the other nodes are where they were
    have hne : ∀ b ∈ l, b ≠ a := fun b hb hba => ha (hba ▸ hb)
    rw [hnext] at hrest
    have hlinked := hrest.congr fun b hb =>
      LinkedQueue.setNode_next?_of_ne (n := none) (hne b hb)
    rw [returns_inr_iff hturn]
    have hdone := ih hlinked hnodup (fun b hb => by
      rw [LinkedQueue.setNode_nodes_of_ne (hne b hb)]
      exact hlive b (List.mem_cons_of_mem a hb)) (deleted ++ [a])
    rwa [List.append_assoc] at hdone

/-! ## The invariant -/

/-- Every node is in one place: in the queue, with a caller or in a list that was taken away. -/
structure QueueRun.Inv (s : QueueRun) : Prop where
  alive : s.crashed = false
  reply : s.reply = s.expected
  queue : s.queue.list.Represents s.deque.contents
  fits : s.deque.contents.length < 2 ^ 32
  nodup : s.deque.nodes.Nodup
  live : ∀ node ∈ s.deque.nodes, (s.queue.list.nodes node).isSome
  walkers : s.walkers.length = s.deque.taken.length
  walked : ∀ (i : ℕ) (node : Option ℕ) (l : List ℕ), s.walkers[i]? = some node →
    s.deque.taken[i]? = some l → Linked s.queue.list.next? node l

namespace QueueRun

variable {s s' : QueueRun}

theorem inv_init (sizeCap : UInt32) : (init sizeCap).Inv where
  alive := rfl
  reply := rfl
  queue := LinkedQueue.represents_empty
  fits := Nat.two_pow_pos 32
  nodup := List.nodup_nil
  live := fun _ hnode => absurd hnode List.not_mem_nil
  walkers := rfl
  walked := fun _ _ _ hnode => by cases hnode

/-- A list that was taken away is made of nodes of the deque. -/
theorem mem_nodes_of_taken {d : Deque} {i : ℕ} {l : List ℕ} (hl : d.taken[i]? = some l) {node : ℕ}
    (hnode : node ∈ l) : node ∈ d.nodes := by
  have hmem : l ∈ d.taken := List.mem_of_getElem? hl
  exact List.mem_append_right _ (List.mem_append_right _ (List.mem_flatten.mpr ⟨l, hmem, hnode⟩))

theorem nodup_of_taken {d : Deque} (h : d.nodes.Nodup) {i : ℕ} {l : List ℕ}
    (hl : d.taken[i]? = some l) : l.Nodup := by
  have hflat := (List.nodup_append.mp (List.nodup_append.mp h).2.1).2.1
  exact (List.nodup_flatten.mp hflat).1 l (List.mem_of_getElem? hl)

/-- The last node of a linked list leads nowhere. -/
theorem next_of_getLast {next : ℕ → Option ℕ} {head : Option ℕ} {l : List ℕ} {node : ℕ}
    (h : Linked next head l) (hlast : l.getLast? = some node) : next node = none := by
  induction l generalizing head with
  | nil => cases hlast
  | cons a l ih =>
    cases l with
    | nil =>
      rw [List.getLast?_singleton, Option.some.injEq] at hlast
      exact hlast ▸ h.2
    | cons b l =>
      rw [List.getLast?_cons_cons] at hlast
      exact ih h.2 hlast

/-- The invariant says that the queue is the deque. -/
theorem Inv.isDeque (h : s.Inv) : s.IsDeque where
  alive := h.alive
  reply := h.reply
  linked := h.queue.linked
  size := h.queue.size
  tail := h.queue.tail
  tailNext := by
    intro node hnode
    rw [h.queue.tail] at hnode
    exact next_of_getLast h.queue.linked hnode
  nodup := h.queue.nodup
  notDequeued := by
    intro node hnode hdequeued
    have hdisjoint := (List.nodup_append.mp h.nodup).2.2
    exact hdisjoint node hnode node (List.mem_append_left _ hdequeued) rfl
  destroyed := by
    have hdeletes := deletes_of_linked h.queue.linked h.queue.nodup h.queue.live []
    rwa [List.nil_append] at hdeletes
  walkers := h.walkers
  walked := by
    intro i node l hnode hl
    have hnodup := nodup_of_taken h.nodup hl
    have hdeletes := deletes_of_linked (h.walked i node l hnode hl) hnodup
      (fun a ha => h.live a (mem_nodes_of_taken hl ha)) []
    rw [List.nil_append] at hdeletes
    exact ⟨hnodup, hdeletes⟩

/-! ## What an event keeps -/

theorem wrapSize_of_lt {list : LinkedQueue AccLinkedMessageNode} (h : list.size < 2 ^ 32) :
    wrapSize list = list := by
  unfold wrapSize
  rw [Nat.mod_eq_of_lt h]

theorem isSome_nodes (list : LinkedQueue AccLinkedMessageNode) (a : ℕ) :
    (list.nodes a).isSome = (list.value? a).isSome := by
  rw [LinkedQueue.value?, Option.isSome_map]

/-- A list that was taken away stays linked where none of its nodes is written to. -/
theorem Inv.walked_of_next (h : s.Inv) {list : LinkedQueue AccLinkedMessageNode}
    (hnext : ∀ a ∈ s.deque.taken.flatten, list.next? a = s.queue.list.next? a) (i : ℕ)
    (node : Option ℕ) (l : List ℕ) (hnode : s.walkers[i]? = some node)
    (hl : s.deque.taken[i]? = some l) : Linked list.next? node l :=
  (h.walked i node l hnode hl).congr fun a ha =>
    hnext a (List.mem_flatten.mpr ⟨l, List.mem_of_getElem? hl, ha⟩)

/-- An address that `new` may return is that of no node of the deque. -/
theorem Inv.notMem_of_fresh (h : s.Inv) {a : ℕ} (ha : s.queue.list.nodes a = none) :
    a ∉ s.deque.nodes := by
  intro hmem
  have hlive := h.live a hmem
  rw [ha] at hlive
  exact absurd hlive (by simp)

/-- A dequeued node is in no other place. -/
theorem Inv.apart (h : s.Inv) {a : ℕ} (ha : a ∈ s.deque.dequeued) :
    a ∉ s.deque.contents ∧ a ∉ s.deque.dequeued.erase a ∧ a ∉ s.deque.taken.flatten := by
  obtain ⟨_, hrest, hdisjoint⟩ := List.nodup_append.mp h.nodup
  obtain ⟨hdequeued, _, hdisjoint'⟩ := List.nodup_append.mp hrest
  refine ⟨?_, ?_, ?_⟩
  · intro hcontents
    exact hdisjoint a hcontents a (List.mem_append_left _ ha) rfl
  · exact hdequeued.not_mem_erase
  · intro htaken
    exact hdisjoint' a ha a htaken rfl

/-- A new node is linked behind the last one. -/
theorem Inv.enqueueBack (h : s.Inv) {node : ℕ} (hfresh : s.queue.list.nodes node = none)
    (m : Message) (hroom : s.deque.contents.length < s.queue.sizeCap.toNat)
    (reply : QueueReply) :
    ∃ list, s.queue.list.pushBack node m.node = some list ∧
      Inv ⟨{ s.queue with list := wrapSize list }, s.walkers,
        { s.deque with contents := s.deque.contents ++ [node] }, reply, reply, false⟩ := by
  have hnew := h.notMem_of_fresh hfresh
  obtain ⟨list, hlist, hqueue, hvalue, hkeep, hnext⟩ := h.queue.pushBack hfresh m.node
  have hcap := s.queue.sizeCap.toNat_lt
  have hlength : (s.deque.contents ++ [node]).length = s.deque.contents.length + 1 := by
    rw [List.length_append, List.length_singleton]
  have hwrap : wrapSize list = list := wrapSize_of_lt (by rw [hqueue.size]; omega)
  -- the new node stands behind the contents, in front of everything else
  have hperm : ((s.deque.contents ++ [node]) ++ (s.deque.dequeued ++ s.deque.taken.flatten)).Perm
      (node :: s.deque.nodes) := by
    rw [List.append_assoc]
    exact List.perm_middle
  refine ⟨list, hlist, ?_⟩
  rw [hwrap]
  exact
    { alive := rfl
      reply := rfl
      queue := hqueue
      fits := by
        show (s.deque.contents ++ [node]).length < _
        omega
      nodup := hperm.nodup_iff.mpr (List.nodup_cons.mpr ⟨hnew, h.nodup⟩)
      live := by
        intro a ha
        rw [isSome_nodes]
        rcases List.mem_cons.mp (hperm.mem_iff.mp ha) with rfl | hmem
        · rw [hvalue]
          rfl
        · have hne : a ≠ node := fun hane => hnew (hane ▸ hmem)
          rw [hkeep a hne, ← isSome_nodes]
          exact h.live a hmem
      walkers := h.walkers
      walked := h.walked_of_next fun a ha => by
        have hmem : a ∈ s.deque.dequeued ++ s.deque.taken.flatten := List.mem_append_right _ ha
        have hcontents : a ∉ s.deque.contents := fun hcontents =>
          (List.nodup_append.mp h.nodup).2.2 a hcontents a hmem rfl
        have hne : a ≠ node := fun hane => hnew (hane ▸ List.mem_append_right _ hmem)
        exact hnext a hcontents hne }

/-- The first node leaves the queue and keeps its `next`. -/
theorem Inv.dequeueFront (h : s.Inv) {node : ℕ} {rest : List ℕ}
    (hcontents : s.deque.contents = node :: rest) (reply : QueueReply) :
    ∃ list, s.queue.list.popFront = some (some node, list) ∧
      Inv ⟨{ s.queue with list := list }, s.walkers,
        { s.deque with
          contents := rest
          dequeued := node :: s.deque.dequeued }, reply, reply, false⟩ := by
  have hqueue := h.queue
  rw [hcontents] at hqueue
  obtain ⟨list, hlist, hrest, hnodes, _⟩ := hqueue.popFront_cons
  have hfits := h.fits
  rw [hcontents, List.length_cons] at hfits
  have hperm : (rest ++ ((node :: s.deque.dequeued) ++ s.deque.taken.flatten)).Perm
      s.deque.nodes := by
    unfold Deque.nodes
    rw [hcontents]
    exact List.perm_middle
  have hnext : ∀ a, list.next? a = s.queue.list.next? a := fun a => by
    rw [LinkedQueue.next?, hnodes, LinkedQueue.next?]
  refine ⟨list, hlist, ?_⟩
  exact
    { alive := rfl
      reply := rfl
      queue := hrest
      fits := by
        show rest.length < _
        omega
      nodup := hperm.nodup_iff.mpr h.nodup
      live := by
        intro a ha
        show (list.nodes a).isSome
        rw [hnodes]
        exact h.live a (hperm.mem_iff.mp ha)
      walkers := h.walkers
      walked := h.walked_of_next fun a _ => hnext a }

/-- A node that leads nowhere, or meets a queue that is not empty, is linked before the first one.
-/
theorem Inv.enqueueFront (h : s.Inv) {node : ℕ} (hnode : node ∈ s.deque.dequeued)
    (hnowhere : s.queue.list.headNode = none → s.queue.list.next? node = none)
    (hroom : s.queue.list.size + 1 < 2 ^ 32) (reply : QueueReply) :
    ∃ list, s.queue.list.pushFront node = some list ∧
      Inv ⟨{ s.queue with list := wrapSize list }, s.walkers,
        { s.deque with
          contents := node :: s.deque.contents
          dequeued := s.deque.dequeued.erase node }, reply, reply, false⟩ := by
  obtain ⟨hcontents, _, htaken⟩ := h.apart hnode
  have hmem : node ∈ s.deque.nodes := List.mem_append_right _ (List.mem_append_left _ hnode)
  have hempty : s.deque.contents = [] → s.queue.list.next? node = none := fun hnil =>
    hnowhere (by rw [h.queue.headNode_eq, hnil]; rfl)
  obtain ⟨list, hlist, hqueue, hvalue⟩ := h.queue.pushFront hcontents (h.live node hmem) hempty
  have hsize : list.size = s.queue.list.size + 1 := by
    rw [hqueue.size, h.queue.size, List.length_cons]
  have hwrap : wrapSize list = list := wrapSize_of_lt (by rw [hsize]; exact hroom)
  have hperm : (node :: s.deque.contents
      ++ (s.deque.dequeued.erase node ++ s.deque.taken.flatten)).Perm s.deque.nodes := by
    have herase := (List.perm_cons_erase hnode).symm.append_right s.deque.taken.flatten
    exact List.perm_middle.symm.trans (herase.append_left s.deque.contents)
  refine ⟨list, hlist, ?_⟩
  rw [hwrap]
  exact
    { alive := rfl
      reply := rfl
      queue := hqueue
      fits := by
        show (node :: s.deque.contents).length < _
        rw [List.length_cons, ← h.queue.size]
        exact hroom
      nodup := hperm.nodup_iff.mpr h.nodup
      live := by
        intro a ha
        rw [isSome_nodes, hvalue, ← isSome_nodes]
        exact h.live a (hperm.mem_iff.mp ha)
      walkers := h.walkers
      walked := h.walked_of_next fun a ha =>
        LinkedQueue.pushFront_next?_of_ne hlist fun hane => htaken (hane ▸ ha) }

/-- The whole list becomes a walker's. -/
theorem Inv.takeAwayMessages (h : s.Inv) (reply : QueueReply) :
    Inv ⟨s.queue.takeAwayMessages.2, s.walkers ++ [s.queue.list.headNode],
      { s.deque with
        contents := []
        taken := s.deque.taken ++ [s.deque.contents] }, reply, reply, false⟩ := by
  have hperm : (([] : List ℕ)
      ++ (s.deque.dequeued ++ (s.deque.taken ++ [s.deque.contents]).flatten)).Perm
      s.deque.nodes := by
    have hflatten : (s.deque.taken ++ [s.deque.contents]).flatten
        = s.deque.taken.flatten ++ s.deque.contents := by
      rw [List.flatten_append, List.flatten_singleton]
    rw [hflatten, List.nil_append, ← List.append_assoc]
    exact List.perm_append_comm
  exact
    { alive := rfl
      reply := rfl
      queue := ⟨rfl, rfl, rfl, List.nodup_nil, fun _ ha => absurd ha List.not_mem_nil⟩
      fits := Nat.two_pow_pos 32
      nodup := hperm.nodup_iff.mpr h.nodup
      live := fun a ha => h.live a (hperm.mem_iff.mp ha)
      walkers := by
        show (s.walkers ++ [_]).length = (s.deque.taken ++ [_]).length
        rw [List.length_append, List.length_append, h.walkers]
        rfl
      walked := by
        intro i node l hnode hl
        show Linked s.queue.list.next? node l
        by_cases hi : i < s.walkers.length
        · have hi' : i < s.deque.taken.length := h.walkers ▸ hi
          rw [List.getElem?_append_left hi] at hnode
          rw [List.getElem?_append_left hi'] at hl
          exact h.walked i node l hnode hl
        · -- the list that has just been taken away
          have hlt := (List.getElem?_eq_some_iff.mp hnode).1
          rw [List.length_append, List.length_singleton] at hlt
          have hlast : i = s.walkers.length := by omega
          subst hlast
          rw [List.getElem?_concat_length, Option.some.injEq] at hnode
          rw [h.walkers, List.getElem?_concat_length, Option.some.injEq] at hl
          exact hnode ▸ hl ▸ h.queue.linked }

/-- What an owner writes to a dequeued node touches no link. -/
theorem Inv.update (h : s.Inv) {node : ℕ} (hnode : node ∈ s.deque.dequeued)
    (f : AccLinkedMessageNode → AccLinkedMessageNode) (reply : QueueReply) :
    Inv ⟨{ s.queue with list := s.queue.list.modify node f }, s.walkers, s.deque, reply, reply,
      false⟩ where
  alive := rfl
  reply := rfl
  queue := h.queue.modify (h.apart hnode).1
  fits := h.fits
  nodup := h.nodup
  live := by
    intro a ha
    have hlive := h.live a ha
    show ((s.queue.list.modify node f).nodes a).isSome
    rw [isSome_nodes] at hlive ⊢
    by_cases hane : a = node
    · subst hane
      rw [LinkedQueue.modify_value?_self, Option.isSome_map]
      exact hlive
    · rw [LinkedQueue.modify_value?_of_ne hane]
      exact hlive
  walkers := h.walkers
  walked := h.walked_of_next fun _ _ => LinkedQueue.modify_next?

/-- An owner deletes a dequeued node. -/
theorem Inv.delete (h : s.Inv) {node : ℕ} (hnode : node ∈ s.deque.dequeued) (reply : QueueReply) :
    Inv ⟨{ s.queue with list := s.queue.list.free node }, s.walkers,
      { s.deque with dequeued := s.deque.dequeued.erase node }, reply, reply, false⟩ := by
  obtain ⟨hcontents, herased, htaken⟩ := h.apart hnode
  have hsub : (s.deque.contents ++ (s.deque.dequeued.erase node ++ s.deque.taken.flatten)).Sublist
      s.deque.nodes :=
    (List.Sublist.refl _).append ((List.erase_sublist).append (List.Sublist.refl _))
  have hgone : node ∉ s.deque.contents
      ++ (s.deque.dequeued.erase node ++ s.deque.taken.flatten) := by
    rw [List.mem_append, List.mem_append, not_or, not_or]
    exact ⟨hcontents, herased, htaken⟩
  exact
    { alive := rfl
      reply := rfl
      queue := h.queue.free hcontents
      fits := h.fits
      nodup := h.nodup.sublist hsub
      live := by
        intro a ha
        have hne : a ≠ node := fun hane => hgone (hane ▸ ha)
        show ((s.queue.list.setNode node none).nodes a).isSome
        rw [LinkedQueue.setNode_nodes_of_ne hne]
        exact h.live a (hsub.subset ha)
      walkers := h.walkers
      walked := h.walked_of_next fun a ha =>
        LinkedQueue.setNode_next?_of_ne fun hane => htaken (hane ▸ ha) }

/-- A list that loses its first entry. -/
theorem flatten_set_perm {ls : List (List ℕ)} {i a : ℕ} {l : List ℕ} (h : ls[i]? = some (a :: l)) :
    ls.flatten.Perm (a :: (ls.set i l).flatten) := by
  induction ls generalizing i with
  | nil => cases h
  | cons first ls ih =>
    cases i with
    | zero =>
      rw [List.getElem?_cons_zero, Option.some.injEq] at h
      subst h
      exact List.Perm.refl _
    | succ i =>
      rw [List.getElem?_cons_succ] at h
      exact ((ih h).append_left first).trans List.perm_middle

/-- A walker deletes the node it stands at, which is live. -/
theorem Inv.walk (h : s.Inv) {i a : ℕ} {rest : List ℕ}
    (hl : s.deque.taken[i]? = some (a :: rest)) (reply : QueueReply) :
    ∃ n, s.walkers[i]? = some (some a) ∧ s.queue.list.nodes a = some n ∧
      Inv ⟨{ s.queue with list := s.queue.list.free a }, s.walkers.set i n.next,
        { s.deque with taken := s.deque.taken.set i rest }, reply, reply, false⟩ := by
  have hi := (List.getElem?_eq_some_iff.mp hl).1
  have hi' : i < s.walkers.length := h.walkers ▸ hi
  have hwalked := h.walked i _ _ (List.getElem?_eq_getElem hi') hl
  have hwalker : s.walkers[i]? = some (some a) := by
    rw [List.getElem?_eq_getElem hi', hwalked.1]
  have hmem : a ∈ s.deque.nodes := mem_nodes_of_taken hl List.mem_cons_self
  obtain ⟨n, hn⟩ := Option.isSome_iff_exists.mp (h.live a hmem)
  have hnext : s.queue.list.next? a = n.next := by rw [LinkedQueue.next?, hn]; rfl
  -- the node is taken by this walker, so it stands in no other list
  have hperm : s.deque.nodes.Perm (a :: (s.deque.contents
      ++ (s.deque.dequeued ++ (s.deque.taken.set i rest).flatten))) := by
    have hlists := ((flatten_set_perm hl).append_left s.deque.dequeued).trans List.perm_middle
    exact (hlists.append_left s.deque.contents).trans List.perm_middle
  have hnodup := List.nodup_cons.mp (hperm.nodup_iff.mp h.nodup)
  have hgone := hnodup.1
  rw [List.mem_append, List.mem_append, not_or, not_or] at hgone
  have hkeep : ∀ b, b ≠ a → (s.queue.list.free a).next? b = s.queue.list.next? b := fun b hb =>
    LinkedQueue.setNode_next?_of_ne hb
  refine ⟨n, hwalker, hn, ?_⟩
  exact
    { alive := rfl
      reply := rfl
      queue := h.queue.free hgone.1
      fits := h.fits
      nodup := hnodup.2
      live := by
        intro b hb
        have hne : b ≠ a := fun hba => hnodup.1 (hba ▸ hb)
        show ((s.queue.list.setNode a none).nodes b).isSome
        rw [LinkedQueue.setNode_nodes_of_ne hne]
        exact h.live b (hperm.mem_iff.mpr (List.mem_cons_of_mem a hb))
      walkers := by
        show (s.walkers.set i _).length = (s.deque.taken.set i rest).length
        rw [List.length_set, List.length_set, h.walkers]
      walked := by
        intro j node l hnode hj
        show Linked (s.queue.list.free a).next? node l
        have hnot : ∀ b ∈ l, b ≠ a := fun b hb hba =>
          hgone.2.2 (List.mem_flatten.mpr ⟨l, List.mem_of_getElem? hj, hba ▸ hb⟩)
        -- the walker goes on to the next node; no other walker has this one before it
        by_cases hij : i = j
        · subst hij
          have hnode : (s.walkers.set i n.next)[i]? = some node := hnode
          have hj : (s.deque.taken.set i rest)[i]? = some l := hj
          rw [List.getElem?_set_self hi', Option.some.injEq] at hnode
          rw [List.getElem?_set_self hi, Option.some.injEq] at hj
          rw [← hnode, ← hnext]
          rw [← hj] at hnot ⊢
          exact hwalked.2.congr fun b hb => hkeep b (hnot b hb)
        · have hnode : (s.walkers.set i n.next)[j]? = some node := hnode
          have hj : (s.deque.taken.set i rest)[j]? = some l := hj
          rw [List.getElem?_set_ne hij] at hnode hj
          exact (h.walked j node l hnode hj).congr fun b hb => hkeep b (hnot b hb) }

/-! ## Steps and runs -/

/-- A step of a queue that is still the deque. -/
theorem Inv.step_eq (h : s.Inv) (e : QueueEvent) :
    s.step e = if s.allocates e then
      (s.deque.step s.queue.sizeCap.toNat e).map fun (expected, deque) =>
        match s.act e with
        | none => { s with
            deque := deque
            expected := expected
            crashed := true }
        | some (reply, queue, walkers) => ⟨queue, walkers, deque, reply, expected, false⟩
      else none := by
  unfold step
  rw [h.alive, Bool.false_or]
  by_cases ha : s.allocates e
  · rw [ha]
    rfl
  · rw [Bool.not_eq_true] at ha
    rw [ha]
    rfl

/-- An answer that leaves everything as it was. -/
theorem Inv.answer (h : s.Inv) (reply : QueueReply) :
    Inv ⟨s.queue, s.walkers, s.deque, reply, reply, false⟩ :=
  ⟨rfl, rfl, h.queue, h.fits, h.nodup, h.live, h.walkers, h.walked⟩

/-- The code does something for the event, and answers and behaves as the deque. -/
def Follows (s : QueueRun) (e : QueueEvent) (expected : QueueReply) (deque : Deque) : Prop :=
  ∃ reply queue walkers, s.act e = some (reply, queue, walkers) ∧
    Inv ⟨queue, walkers, deque, reply, expected, false⟩

/-- `EnqueueBack` answers as the deque does, when the queue is full too. -/
theorem Inv.follows_enqueueBack (h : s.Inv) {header : AccMsgHeader} {d : Option AccData}
    {cbCtx : ℕ} {new : Option ℕ} (hnew : s.allocates (.enqueueBack header d cbCtx new))
    {expected : QueueReply} {deque : Deque}
    (hdeque : s.deque.step s.queue.sizeCap.toNat (.enqueueBack header d cbCtx new)
      = some (expected, deque)) :
    s.Follows (.enqueueBack header d cbCtx new) expected deque := by
  cases d with
  | none =>
    cases hdeque
    exact ⟨_, _, _, rfl, h.answer _⟩
  | some d =>
    cases new with
    | none =>
      cases hdeque
      exact ⟨_, _, _, rfl, h.answer _⟩
    | some node =>
      have hsize := h.queue.size
      by_cases hfull : s.queue.sizeCap.toNat ≤ s.deque.contents.length
      · rw [Deque.step, if_pos hfull] at hdeque
        cases hdeque
        have hcode : s.queue.enqueueBack header (some d) cbCtx (some node)
            = some (.result .queueIsFull, s.queue) := by
          rw [MessageQueue.enqueueBack, hsize, if_pos hfull]
        exact ⟨_, _, _, by rw [act, hcode]; rfl, h.answer _⟩
      · rw [Deque.step, if_neg hfull] at hdeque
        cases hdeque
        obtain ⟨list, hlist, hinv⟩ := h.enqueueBack (Option.isNone_iff_eq_none.mp hnew)
          ⟨header, d, cbCtx⟩ (Nat.lt_of_not_le hfull) (.result .ok)
        have hcode : s.queue.enqueueBack header (some d) cbCtx (some node)
            = some (.result .ok, { s.queue with list := wrapSize list }) := by
          rw [MessageQueue.enqueueBack, hsize, if_neg hfull, hlist]
          rfl
        exact ⟨_, _, _, by rw [act, hcode]; rfl, hinv⟩

/-- `DequeueFront` answers as the deque does. -/
theorem Inv.follows_dequeueFront (h : s.Inv) {expected : QueueReply} {deque : Deque}
    (hdeque : s.deque.step s.queue.sizeCap.toNat .dequeueFront = some (expected, deque)) :
    s.Follows .dequeueFront expected deque := by
  cases hcontents : s.deque.contents with
  | nil =>
    have hqueue := h.queue
    rw [hcontents] at hqueue
    have hcode : s.queue.dequeueFront = some (.node none, s.queue) := by
      rw [MessageQueue.dequeueFront, hqueue.popFront_nil]
      rfl
    rw [Deque.step, hcontents] at hdeque
    cases hdeque
    exact ⟨_, _, _, by rw [act, hcode]; rfl, h.answer _⟩
  | cons node rest =>
    obtain ⟨list, hlist, hinv⟩ := h.dequeueFront hcontents (.node (some node))
    have hcode : s.queue.dequeueFront
        = some (.node (some node), { s.queue with list := list }) := by
      rw [MessageQueue.dequeueFront, hlist]
      rfl
    rw [Deque.step, hcontents] at hdeque
    cases hdeque
    exact ⟨_, _, _, by rw [act, hcode]; rfl, hinv⟩

/-- Under the condition `EnqueueFront` answers as the deque does. -/
theorem Inv.follows_enqueueFront (h : s.Inv) {node : Option ℕ}
    (hcond : s.LeadsNowhere (.enqueueFront node)) {expected : QueueReply} {deque : Deque}
    (hdeque : s.deque.step s.queue.sizeCap.toNat (.enqueueFront node) = some (expected, deque)) :
    s.Follows (.enqueueFront node) expected deque := by
  cases node with
  | none =>
    cases hdeque
    exact ⟨_, _, _, rfl, h.answer _⟩
  | some node =>
    by_cases hnode : node ∈ s.deque.dequeued
    · obtain ⟨hnowhere, hroom⟩ := hcond hnode
      obtain ⟨list, hlist, hinv⟩ := h.enqueueFront hnode hnowhere hroom (.result .ok)
      have hcode : s.queue.enqueueFront (some node)
          = some (.result .ok, { s.queue with list := wrapSize list }) := by
        rw [MessageQueue.enqueueFront, hlist]
        rfl
      rw [Deque.step, if_pos hnode] at hdeque
      cases hdeque
      exact ⟨_, _, _, by rw [act, hcode]; rfl, hinv⟩
    · rw [Deque.step, if_neg hnode] at hdeque
      cases hdeque

/-- A turn of a walker deletes what the deque says. -/
theorem Inv.follows_walk (h : s.Inv) {i : ℕ} {expected : QueueReply} {deque : Deque}
    (hdeque : s.deque.step s.queue.sizeCap.toNat (.walk i) = some (expected, deque)) :
    s.Follows (.walk i) expected deque := by
  rw [Deque.step] at hdeque
  split at hdeque
  · rename_i a rest hl
    cases hdeque
    obtain ⟨n, hwalker, hn, hinv⟩ := h.walk hl .silent
    exact ⟨_, _, _, by simp only [act, hwalker, hn, Option.map_some], hinv⟩
  · cases hdeque

/-- As long as nodes pushed onto an empty queue lead nowhere, the code follows the deque. -/
theorem Inv.follows (h : s.Inv) {e : QueueEvent} (hcond : s.LeadsNowhere e)
    (hnew : s.allocates e) {expected : QueueReply} {deque : Deque}
    (hdeque : s.deque.step s.queue.sizeCap.toNat e = some (expected, deque)) :
    s.Follows e expected deque := by
  cases e with
  | enqueueBack header d cbCtx new => exact h.follows_enqueueBack hnew hdeque
  | dequeueFront => exact h.follows_dequeueFront hdeque
  | enqueueFront node => exact h.follows_enqueueFront hcond hdeque
  | takeAwayMessages =>
    cases hdeque
    have hreply : s.queue.takeAwayMessages.1 = .node s.deque.contents.head? := by
      show QueueReply.node s.queue.list.headNode = _
      rw [h.queue.headNode_eq]
    exact ⟨_, _, _, rfl, hreply ▸ h.takeAwayMessages _⟩
  | update node f =>
    by_cases hnode : node ∈ s.deque.dequeued
    · rw [Deque.step, if_pos hnode] at hdeque
      cases hdeque
      exact ⟨_, _, _, rfl, h.update hnode f _⟩
    · rw [Deque.step, if_neg hnode] at hdeque
      cases hdeque
  | delete node =>
    by_cases hnode : node ∈ s.deque.dequeued
    · rw [Deque.step, if_pos hnode] at hdeque
      cases hdeque
      exact ⟨_, _, _, rfl, h.delete hnode _⟩
    · rw [Deque.step, if_neg hnode] at hdeque
      cases hdeque
  | walk i => exact h.follows_walk hdeque

/-- Every event that meets the condition keeps the invariant. -/
theorem inv_step (s : QueueRun) (e : QueueEvent) (s' : QueueRun) (h : s.Inv)
    (hcond : s.LeadsNowhere e) (hstep : s.step e = some s') : s'.Inv := by
  rw [h.step_eq] at hstep
  split at hstep
  · rename_i hnew
    obtain ⟨⟨expected, deque⟩, hdeque, rfl⟩ := Option.map_eq_some_iff.mp hstep
    obtain ⟨reply, queue, walkers, hact, hinv⟩ := h.follows hcond hnew hdeque
    simp only [hact]
    exact hinv
  · cases hstep

/-- What `EnqueueFront` of a dequeued node leaves when it links it. -/
theorem Inv.step_enqueueFront (h : s.Inv) {node : ℕ} (hnode : node ∈ s.deque.dequeued)
    {list : LinkedQueue AccLinkedMessageNode} (hlist : s.queue.list.pushFront node = some list) :
    s.step (.enqueueFront (some node)) = some
      ⟨{ s.queue with list := wrapSize list }, s.walkers,
        { s.deque with
          contents := node :: s.deque.contents
          dequeued := s.deque.dequeued.erase node }, .result .ok, .result .ok, false⟩ := by
  have hcode : s.act (.enqueueFront (some node))
      = some (.result .ok, { s.queue with list := wrapSize list }, s.walkers) := by
    rw [act, MessageQueue.enqueueFront, hlist]
    rfl
  have hnew : s.allocates (.enqueueFront (some node)) = true := rfl
  rw [h.step_eq, if_pos hnew, Deque.step, if_pos hnode, Option.map_some]
  simp only [hcode]

/-- A node that leads somewhere, or that `size_` has no room for, makes the queue another one than
the deque. -/
theorem Inv.not_isDeque (h : s.Inv) {e : QueueEvent} (hcond : ¬ s.LeadsNowhere e) :
    ∃ s', s.step e = some s' ∧ ¬ s'.IsDeque := by
  cases e with
  | enqueueFront node =>
    cases node with
    | none => exact absurd trivial hcond
    | some node =>
      obtain ⟨hnode, hleads⟩ := Classical.not_imp.mp hcond
      have hsize := h.queue.size
      have hhead := h.queue.headNode_eq
      cases hfirst : s.queue.list.headNode with
      | none =>
        -- the queue is empty, so there is room, and the old link of the node stays
        have hempty : s.deque.contents = [] := by
          rw [hfirst] at hhead
          exact List.head?_eq_none_iff.mp hhead.symm
        refine ⟨_, h.step_enqueueFront hnode (LinkedQueue.pushFront_of_none hfirst), ?_⟩
        intro hdeque
        have hlinked : Linked s.queue.list.next? (some node) (node :: s.deque.contents) :=
          hdeque.linked
        rw [hempty] at hlinked hsize
        have hroom : s.queue.list.size + 1 < 2 ^ 32 := by
          rw [hsize]
          decide
        exact hleads ⟨fun _ => hlinked.2, hroom⟩
      | some first =>
        have hmem : node ∈ s.deque.nodes :=
          List.mem_append_right _ (List.mem_append_left _ hnode)
        obtain ⟨n, hn⟩ := Option.isSome_iff_exists.mp (h.live node hmem)
        refine ⟨_, h.step_enqueueFront hnode (LinkedQueue.pushFront_of_some hfirst hn), ?_⟩
        intro hdeque
        have hcount : (s.queue.list.size + 1) % 2 ^ 32 = (node :: s.deque.contents).length :=
          hdeque.size
        have hlt := Nat.mod_lt (s.queue.list.size + 1) (Nat.two_pow_pos 32)
        rw [hcount, List.length_cons, ← hsize] at hlt
        exact hleads ⟨fun hnone => absurd (hfirst.symm.trans hnone) (Option.some_ne_none first), hlt⟩
  | enqueueBack header d cbCtx new => exact absurd trivial hcond
  | dequeueFront => exact absurd trivial hcond
  | takeAwayMessages => exact absurd trivial hcond
  | update node f => exact absurd trivial hcond
  | delete node => exact absurd trivial hcond
  | walk i => exact absurd trivial hcond

/-- An event keeps the deque exactly if it meets the condition. -/
theorem staysDeque_iff (s : QueueRun) (e : QueueEvent) (h : s.Inv) :
    s.StaysDeque e ↔ s.LeadsNowhere e := by
  constructor
  · intro hstays
    by_contra hcond
    obtain ⟨s', hstep, hnot⟩ := h.not_isDeque hcond
    exact hnot (hstays s' hstep)
  · intro hcond s' hstep
    exact (inv_step s e s' h hcond hstep).isDeque

/-- Along any run the queue is the deque, in every state, exactly as long as a node that is pushed
onto an empty queue leads nowhere and `size_` has room. -/
theorem queue_is_deque_iff (sizeCap : UInt32) (events : List QueueEvent) :
    Always step StaysDeque (init sizeCap) events ↔
      Always step LeadsNowhere (init sizeCap) events :=
  always_iff inv_step staysDeque_iff (inv_init sizeCap)

/-- Two messages, the first one dequeued, the second taken away, and the first pushed back: the node
of the first still leads to the second. -/
def pushBackLast : List QueueEvent :=
  [.enqueueBack {} (some ⟨[1], by decide⟩) 0 (some 1),
   .enqueueBack {} (some ⟨[2], by decide⟩) 0 (some 2),
   .dequeueFront,
   .takeAwayMessages,
   .enqueueFront (some 1)]

/-- The node put back into the empty queue still leads to the node taken away behind it. -/
theorem not_isDeque_pushBackLast : ¬ ∀ (sizeCap : UInt32) (events : List QueueEvent),
    Always step StaysDeque (init sizeCap) events := by
  intro hall
  have hstays : Always step StaysDeque (init 256) pushBackLast ↔
      Always step LeadsNowhere (init 256) pushBackLast :=
    always_iff inv_step staysDeque_iff (inv_init 256)
  have hfirst := hstays.mp (hall 256 pushBackLast)
  have hlast := (((hfirst.2 _ rfl).2 _ rfl).2 _ rfl).2 _ rfl
  have hnext := (hlast.1 (by decide)).1 rfl
  exact absurd hnext (by decide)

end QueueRun

end AscendShmem.AccLinks
