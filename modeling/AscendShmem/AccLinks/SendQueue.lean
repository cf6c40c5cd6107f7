import Mathlib
import AscendShmem.AccLinks.Message
import AscendShmem.Lib.LinkedQueue

/-!
# The send queue of a store link

Any thread appends messages with `EnqueueBack`; the worker that polls the link runs
`HandlePollOut`, which takes the first message out of the queue, writes what is left of its
header and of its data, and puts it back in front when a write was short. The queue's own
operations are atomic under its mutex, so the worker's run of `HandlePollOut` is split at them
and at the writes.

The bytes written are a prefix of what was accepted, message after message, as long as no write
would block: on `EAGAIN` the message at hand is deleted.
-/

namespace AscendShmem.AccLinks

open Lib

/-! ## The queue's nodes -/

/-- A node of the message queue; its `next` is the queue's. -/
structure AccLinkedMessageNode where
  header : AccMsgHeader
  data : AccData
  cbCtx : ℕ
  headerRemain : ℕ := accMsgHeaderSize
  dataRemain : ℕ := data.dataLen

namespace AccLinkedMessageNode

variable (n : AccLinkedMessageNode)

/-- No byte of the header remains. -/
def headerSent : Bool := n.headerRemain = 0

/-- No byte of the body remains. -/
def dataSent : Bool := n.dataRemain = 0

/-- Nothing of the message remains. -/
def sent : Bool := n.headerRemain = 0 ∧ n.dataRemain = 0

/-- The bytes from `HeaderPtrToBeSend` on. -/
def headerToBeSend : List UInt8 := n.header.bytes.drop (accMsgHeaderSize - n.headerRemain)

/-- The bytes from `DataPtrToBeSend` on. -/
def dataToBeSend : List UInt8 := n.data.bytes.drop (n.data.dataLen - n.dataRemain)

/-- The node after `HeaderAllSent`, which reports whether nothing of the header remains. -/
def headerAllSent (size : ℕ) : AccLinkedMessageNode :=
  if n.headerRemain ≤ size then { n with headerRemain := 0 }
  else { n with headerRemain := n.headerRemain - size }

/-- The node after `DataAllSent`. -/
def dataAllSent (size : ℕ) : AccLinkedMessageNode :=
  if n.dataRemain ≤ size then { n with dataRemain := 0 }
  else { n with dataRemain := n.dataRemain - size }

end AccLinkedMessageNode

/-- A message as it was handed to the queue. -/
structure Message where
  header : AccMsgHeader
  data : AccData
  cbCtx : ℕ

/-- The bytes of a message on the wire. -/
def Message.bytes (m : Message) : List UInt8 := m.header.bytes ++ m.data.bytes

/-- The node that `EnqueueBack` makes for a message. -/
def Message.node (m : Message) : AccLinkedMessageNode :=
  { header := m.header, data := m.data, cbCtx := m.cbCtx }

/-- The message a node was made for. -/
def AccLinkedMessageNode.message (n : AccLinkedMessageNode) : Message :=
  ⟨n.header, n.data, n.cbCtx⟩

/-! ## The link and its steps -/

/-- Where the worker stands in `HandlePollOut`, with the node it holds. -/
inductive Worker where
  | idle
  | sendHeader (oneMsg : ℕ)
  | sendData (oneMsg : ℕ)
  | enqueueFront (oneMsg : ℕ)
  /-- A write failed for good: the link is about to be closed. -/
  | broken
  /-- A null or dangling pointer was followed. -/
  | crashed
deriving DecidableEq, Repr

/-- The node the worker has taken out of the queue. -/
def Worker.held : Worker → List ℕ
  | .sendHeader a | .sendData a | .enqueueFront a => [a]
  | .idle | .broken | .crashed => []

/-- A link's sending half, with the history of what was accepted, reported and written. -/
structure SendLink where
  sizeCap : ℕ
  queue : LinkedQueue AccLinkedMessageNode
  worker : Worker
  /-- The messages for which `EnqueueBack` returned `ACC_OK`. -/
  accepted : List Message
  /-- The messages for which `requestSentHandle_(MSG_SENT, ..)` was called. -/
  reported : List Message
  /-- The bytes that the writes handed to the socket. -/
  socket : List UInt8

/-- A link with an empty queue and an idle worker. -/
def SendLink.init (sizeCap : ℕ) : SendLink := ⟨sizeCap, .empty, .idle, [], [], []⟩

/-- The result of one `PollOutWrite`. -/
inductive WriteResult where
  | wrote (size : ℕ)
  | failed (errno : Errno)
deriving DecidableEq, Repr

/-- What happens between the threads that enqueue and the worker that sends. -/
inductive SendEvent where
  /-- `EnqueueBack` on another thread; `node` is the address of the new node. -/
  | enqueueBack (node : ℕ) (h : AccMsgHeader) (d : AccData) (cbCtx : ℕ)
  /-- The worker enters `HandlePollOut` and takes out the first message. -/
  | dequeueFront
  | write (result : WriteResult)
  | enqueueFront

namespace SendLink

/-- `EnqueueBack`; `new` returns an address that no node has. -/
def enqueueBack (s : SendLink) (node : ℕ) (m : Message) : Option SendLink :=
  if (s.queue.nodes node).isSome then none
  else if s.queue.size ≥ s.sizeCap then some s -- `ACC_QUEUE_IS_FULL`
  else match s.queue.pushBack node m.node with
    | none => some { s with worker := .crashed }
    | some queue => some { s with
        queue := queue
        accepted := s.accepted ++ [m] }

/-- `HandlePollOut` up to its first write. -/
def dequeueFront (s : SendLink) : SendLink :=
  match s.queue.popFront with
  | none => { s with worker := .crashed }
  | some (none, _) => s
  | some (some oneMsg, queue) =>
    match queue.value? oneMsg with
    | none => { s with worker := .crashed }
    | some n =>
      let s := { s with queue := queue }
      if n.sent then s
      else if n.headerSent then { s with worker := .sendData oneMsg }
      else { s with worker := .sendHeader oneMsg }

/-- The message is done: it is deleted and `ACC_LINK_MSG_SENT` makes the worker report it. -/
def msgSent (s : SendLink) (oneMsg : ℕ) (m : Message) : SendLink :=
  { s with
    queue := s.queue.free oneMsg
    worker := .idle
    reported := s.reported ++ [m] }

/-- The message is deleted and `SendPostProcess` looks at `errno`. -/
def sendPostProcess (s : SendLink) (oneMsg : ℕ) (errno : Errno) : SendLink :=
  { s with
    queue := s.queue.free oneMsg
    worker := if errno = .eagain then .idle else .broken }

/-- The write of the header part and what follows it. -/
def writeHeader (s : SendLink) (oneMsg : ℕ) (n : AccLinkedMessageNode) :
    WriteResult → Option SendLink
  | .failed errno => some (s.sendPostProcess oneMsg errno)
  | .wrote size =>
    if 0 < size ∧ size ≤ n.headerRemain then
      let s := { s with
        socket := s.socket ++ n.headerToBeSend.take size
        queue := s.queue.modify oneMsg (·.headerAllSent size) }
      let n := n.headerAllSent size
      if !n.headerSent then some { s with worker := .enqueueFront oneMsg }
      else if n.dataSent then some (s.msgSent oneMsg n.message)
      else some { s with worker := .sendData oneMsg }
    else none

/-- The write of the data part and what follows it. -/
def writeData (s : SendLink) (oneMsg : ℕ) (n : AccLinkedMessageNode) :
    WriteResult → Option SendLink
  | .failed errno => some (s.sendPostProcess oneMsg errno)
  | .wrote size =>
    if 0 < size ∧ size ≤ n.dataRemain then
      let s := { s with
        socket := s.socket ++ n.dataToBeSend.take size
        queue := s.queue.modify oneMsg (·.dataAllSent size) }
      let n := n.dataAllSent size
      if !n.dataSent then some { s with worker := .enqueueFront oneMsg }
      else some (s.msgSent oneMsg n.message)
    else none

/-- A write by the worker to the node it holds. -/
def write (s : SendLink) (result : WriteResult) : Option SendLink :=
  match s.worker with
  | .sendHeader oneMsg =>
    match s.queue.value? oneMsg with
    | none => some { s with worker := .crashed }
    | some n => s.writeHeader oneMsg n result
  | .sendData oneMsg =>
    match s.queue.value? oneMsg with
    | none => some { s with worker := .crashed }
    | some n => s.writeData oneMsg n result
  | _ => none

/-- The message that was written in part goes back, and the worker polls again. -/
def enqueueFront (s : SendLink) : Option SendLink :=
  match s.worker with
  | .enqueueFront oneMsg =>
    match s.queue.pushFront oneMsg with
    | none => some { s with worker := .crashed }
    | some queue => some { s with
        queue := queue
        worker := .idle }
  | _ => none

/-- One step of the link, `none` where the event cannot happen. -/
def step (s : SendLink) : SendEvent → Option SendLink
  | .enqueueBack node h d cbCtx => s.enqueueBack node ⟨h, d, cbCtx⟩
  | .dequeueFront => if s.worker = .idle then some s.dequeueFront else none
  | .write result => s.write result
  | .enqueueFront => s.enqueueFront

/-- The link after a list of events. -/
def run (s : SendLink) (events : List SendEvent) : Option SendLink := events.foldlM step s

/-- The messages accepted and not deleted yet: the worker's, then the queue's. -/
def pending (s : SendLink) : List Message :=
  (s.worker.held ++ s.queue.toList).filterMap fun a => (s.queue.value? a).map (·.message)

/-- Nothing is lost, repeated or mixed up, and what was reported was written completely. -/
structure Intact (s : SendLink) : Prop where
  alive : s.worker ≠ .crashed
  stream : s.socket <+: s.accepted.flatMap Message.bytes
  written : s.reported.flatMap Message.bytes <+: s.socket
  kept : s.reported ++ s.pending = s.accepted

end SendLink

/-! ## What a node has sent -/

namespace AccLinkedMessageNode

/-- The bytes of the message that were written so far. -/
def sentBytes (n : AccLinkedMessageNode) : List UInt8 :=
  n.header.bytes.take (accMsgHeaderSize - n.headerRemain) ++
    n.data.bytes.take (n.data.dataLen - n.dataRemain)

/-- The counters of a message that is not sent completely: the data waits for the header. -/
structure Unsent (n : AccLinkedMessageNode) : Prop where
  header_le : n.headerRemain ≤ accMsgHeaderSize
  data_le : n.dataRemain ≤ n.data.dataLen
  ordered : n.headerRemain ≠ 0 → n.dataRemain = n.data.dataLen
  rest : n.headerRemain ≠ 0 ∨ n.dataRemain ≠ 0

variable {n : AccLinkedMessageNode} {size : ℕ}

theorem unsent_node (m : Message) : m.node.Unsent where
  header_le := le_refl _
  data_le := le_refl _
  ordered := fun _ => rfl
  rest := Or.inl (Nat.succ_ne_zero 15)

theorem sentBytes_node (m : Message) : m.node.sentBytes = [] := by
  simp [sentBytes, Message.node]

/-- The count of a `send` that sent no more than remained. -/
theorem headerAllSent_of_le (h : size ≤ n.headerRemain) :
    n.headerAllSent size = { n with headerRemain := n.headerRemain - size } := by
  unfold headerAllSent
  split
  · have hzero : n.headerRemain - size = 0 := by omega
    rw [hzero]
  · rfl

/-- The count of a `send` that sent no more than remained. -/
theorem dataAllSent_of_le (h : size ≤ n.dataRemain) :
    n.dataAllSent size = { n with dataRemain := n.dataRemain - size } := by
  unfold dataAllSent
  split
  · have hzero : n.dataRemain - size = 0 := by omega
    rw [hzero]
  · rfl

/-- A header write goes on where the header stopped. -/
theorem Unsent.sentBytes_headerAllSent (hn : n.Unsent) (hh : n.headerRemain ≠ 0)
    (h : size ≤ n.headerRemain) :
    (n.headerAllSent size).sentBytes = n.sentBytes ++ n.headerToBeSend.take size := by
  have hle := hn.header_le
  have hstart : accMsgHeaderSize - (n.headerRemain - size)
      = accMsgHeaderSize - n.headerRemain + size := by omega
  rw [headerAllSent_of_le h]
  simp only [sentBytes, headerToBeSend, hn.ordered hh, Nat.sub_self, List.take_zero,
    List.append_nil, hstart, List.take_add]

/-- A data write goes on where the data stopped, the header being complete. -/
theorem Unsent.sentBytes_dataAllSent (hn : n.Unsent) (h : size ≤ n.dataRemain) :
    (n.dataAllSent size).sentBytes = n.sentBytes ++ n.dataToBeSend.take size := by
  have hle := hn.data_le
  have hstart : n.data.dataLen - (n.dataRemain - size)
      = n.data.dataLen - n.dataRemain + size := by omega
  rw [dataAllSent_of_le h]
  simp only [sentBytes, dataToBeSend, hstart, List.take_add, List.append_assoc]

/-- A node with nothing remaining has sent its message. -/
theorem sentBytes_of_sent (hh : n.headerRemain = 0) (hd : n.dataRemain = 0) :
    n.sentBytes = n.message.bytes := by
  have hheader : n.header.bytes.take accMsgHeaderSize = n.header.bytes :=
    List.take_of_length_le (le_of_eq n.header.length_bytes)
  have hdata : n.data.bytes.take n.data.dataLen = n.data.bytes :=
    List.take_of_length_le (le_refl _)
  simp only [sentBytes, hh, hd, Nat.sub_zero, hheader, hdata]
  rfl

/-- What was written of a message begins the message. -/
theorem Unsent.sentBytes_prefix (hn : n.Unsent) : n.sentBytes <+: n.message.bytes := by
  by_cases hh : n.headerRemain = 0
  · have hheader : n.header.bytes.take accMsgHeaderSize = n.header.bytes :=
      List.take_of_length_le (le_of_eq n.header.length_bytes)
    rw [sentBytes, hh, Nat.sub_zero, hheader]
    exact (List.prefix_append_right_inj _).mpr (List.take_prefix _ _)
  · rw [sentBytes, hn.ordered hh, Nat.sub_self, List.take_zero, List.append_nil]
    exact (List.take_prefix _ _).trans (List.prefix_append _ _)

end AccLinkedMessageNode

/-! ## The stream of messages

What the link is for: the accepted messages leave one after the other. The nodes that are still
there stand in a line, and only the first one has sent anything.
-/

/-- A line of messages on their way out. -/
structure Outgoing where
  accepted : List Message
  reported : List Message
  socket : List UInt8
  line : List AccLinkedMessageNode

namespace Outgoing

/-- A step of the line; `true` where a message is thrown away. -/
inductive Step : Bool → Outgoing → Outgoing → Prop
  | stay {o} : Step false o o
  | accept {o n} : n.sentBytes = [] → Step false o
      { o with
        accepted := o.accepted ++ [n.message]
        line := o.line ++ [n] }
  | advance {o n n' rest bytes} : o.line = n :: rest → n'.message = n.message →
      n'.sentBytes = n.sentBytes ++ bytes → Step false o
      { o with
        socket := o.socket ++ bytes
        line := n' :: rest }
  | sent {o n rest bytes} : o.line = n :: rest → n.message.bytes = n.sentBytes ++ bytes →
      Step false o
      { o with
        socket := o.socket ++ bytes
        reported := o.reported ++ [n.message]
        line := rest }
  | drop {o n rest} : o.line = n :: rest → Step true o { o with line := rest }

/-- Steps one after the other, with what each of them did. -/
inductive Run : Outgoing → List Bool → Outgoing → Prop
  | nil {o} : Run o [] o
  | cons {o o' o'' dropped l} : Step dropped o o' → Run o' l o'' → Run o (dropped :: l) o''

/-- Everything accepted was reported or stands in the line, in this order, and the socket has
the reported messages and what the first of the line has sent. -/
structure InOrder (o : Outgoing) : Prop where
  kept : o.accepted = o.reported ++ o.line.map (·.message)
  socket : o.socket = o.reported.flatMap Message.bytes ++ (o.line.head?.elim [] (·.sentBytes))
  fresh : ∀ n ∈ o.line.tail, n.sentBytes = []

/-- A step that drops nothing keeps the order. -/
theorem InOrder.step {o o' : Outgoing} (h : o.InOrder) (hstep : Step false o o') : o'.InOrder := by
  cases hstep with
  | stay => exact h
  | @accept _ n hn =>
    refine ⟨?_, ?_, ?_⟩
    · show o.accepted ++ [n.message] = _
      rw [h.kept, List.map_append, List.append_assoc]
      rfl
    · show o.socket = _
      rw [h.socket]
      -- a message at the end of the line is its first one only when the line was empty
      cases hl : o.line with
      | nil => simp [hn]
      | cons a l => simp
    · intro m hm
      cases hl : o.line with
      | nil => simp [hl] at hm
      | cons a l =>
        simp only [hl, List.cons_append, List.tail_cons, List.mem_append, List.mem_singleton] at hm
        rcases hm with hm | hm
        · exact h.fresh m (by rw [hl]; exact hm)
        · rw [hm, hn]
  | @advance _ n n' rest bytes hl hm hb =>
    have hkept := h.kept
    have hsocket := h.socket
    have hfresh := h.fresh
    rw [hl] at hkept hsocket hfresh
    refine ⟨?_, ?_, hfresh⟩
    · show o.accepted = o.reported ++ n'.message :: rest.map (·.message)
      rw [hkept, hm]
      rfl
    · show o.socket ++ bytes = o.reported.flatMap Message.bytes ++ n'.sentBytes
      rw [hsocket, hb, ← List.append_assoc]
      rfl
  | @sent _ n rest bytes hl hb =>
    have hkept := h.kept
    have hsocket := h.socket
    have hfresh := h.fresh
    rw [hl] at hkept hsocket hfresh
    have hnone : rest.head?.elim [] (·.sentBytes) = [] := by
      cases rest with
      | nil => rfl
      | cons a l => exact hfresh a List.mem_cons_self
    refine ⟨?_, ?_, fun m hm => hfresh m (List.mem_of_mem_tail hm)⟩
    · show o.accepted = o.reported ++ [n.message] ++ rest.map (·.message)
      rw [hkept, List.append_assoc]
      rfl
    · show o.socket ++ bytes
        = (o.reported ++ [n.message]).flatMap Message.bytes ++ rest.head?.elim [] (·.sentBytes)
      rw [hnone, hsocket, List.flatMap_append, List.append_nil, List.flatMap_singleton, hb,
        List.append_assoc]
      rfl

/-- Every step accounts for the messages: one that is dropped is missing from then on. -/
theorem Step.length_eq {o o' : Outgoing} {dropped : Bool} (h : Step dropped o o') :
    o'.accepted.length + (o.reported.length + o.line.length)
      = o.accepted.length + (o'.reported.length + o'.line.length) + dropped.toNat := by
  cases h with
  | stay => simp
  | accept => simp; omega
  | advance hl => rw [hl]; simp
  | sent hl => rw [hl]; simp; omega
  | drop hl => rw [hl]; simp; omega

/-- A run that drops nothing keeps the order. -/
theorem InOrder.run {o o' : Outgoing} {l : List Bool} (h : o.InOrder) (hrun : Run o l o')
    (hl : ∀ dropped ∈ l, dropped = false) : o'.InOrder := by
  induction hrun with
  | nil => exact h
  | @cons o o₁ o₂ dropped l hstep _ ih =>
    have hd : dropped = false := hl dropped List.mem_cons_self
    subst hd
    exact ih (h.step hstep) fun d hd => hl d (List.mem_cons_of_mem _ hd)

/-- Messages accepted are reported, in line, or dropped. -/
theorem Run.length_eq {o o' : Outgoing} {l : List Bool} (h : Run o l o') :
    o'.accepted.length + (o.reported.length + o.line.length)
      = o.accepted.length + (o'.reported.length + o'.line.length) + l.count true := by
  induction h with
  | nil => simp
  | @cons o o₁ o₂ dropped l hstep _ ih =>
    have hone := hstep.length_eq
    have hcount : (dropped :: l).count true = dropped.toNat + l.count true := by
      cases dropped
      · simp
      · simp; omega
    rw [hcount]
    omega

end Outgoing

/-! ## The link is such a line -/

/-- What the worker knows of the message it holds. -/
def Worker.Holds (w : Worker) (n : AccLinkedMessageNode) : Prop :=
  match w with
  | .sendHeader _ => n.headerRemain ≠ 0
  | .sendData _ => n.headerRemain = 0 ∧ n.dataRemain ≠ 0
  | _ => True

namespace SendLink

/-- The line is the worker's node and then the queue's. -/
structure Refines (s : SendLink) (ids : List ℕ) (o : Outgoing) : Prop where
  accepted : s.accepted = o.accepted
  reported : s.reported = o.reported
  socket : s.socket = o.socket
  alive : s.worker ≠ .crashed
  represents : s.queue.Represents ids
  outside : ∀ a ∈ s.worker.held, a ∉ ids ∧ (ids = [] → s.queue.next? a = none)
  line : (s.worker.held ++ ids).map s.queue.value? = o.line.map some
  unsent : ∀ n ∈ o.line, n.Unsent
  holds : s.worker.held ≠ [] → ∀ n ∈ o.line.head?, s.worker.Holds n

section Steps

variable {s s' : SendLink} {ids : List ℕ} {o : Outgoing} {a : ℕ} {n : AccLinkedMessageNode}
  {rest : List AccLinkedMessageNode}

/-- The worker's node is the first of the line. -/
theorem Refines.exists_held (h : s.Refines ids o) (ha : s.worker.held = [a]) :
    ∃ n rest, o.line = n :: rest ∧ s.queue.value? a = some n ∧
      ids.map s.queue.value? = rest.map some := by
  have hline := h.line
  rw [ha, List.singleton_append, List.map_cons] at hline
  cases hl : o.line with
  | nil => rw [hl] at hline; exact absurd hline (by simp)
  | cons n rest =>
    rw [hl, List.map_cons, List.cons.injEq] at hline
    exact ⟨n, rest, rfl, hline.1, hline.2⟩

/-- The worker's node changes and stays with the worker. -/
theorem Refines.advance (h : s.Refines ids o) (ha : s.worker.held = [a]) (hl : o.line = n :: rest)
    {f : AccLinkedMessageNode → AccLinkedMessageNode} {w : Worker} (hw : w.held = [a])
    (hcrash : w ≠ .crashed) (hholds : w.Holds (f n)) (hf : (f n).Unsent) (bytes : List UInt8) :
    Refines { s with
      socket := s.socket ++ bytes
      queue := s.queue.modify a f
      worker := w } ids { o with
      socket := o.socket ++ bytes
      line := f n :: rest } := by
  have hout := h.outside a (by rw [ha]; exact List.mem_singleton_self a)
  rcases h.exists_held ha with ⟨m, rest', hl', hvalue, hids⟩
  rw [hl, List.cons.injEq] at hl'
  rcases hl' with ⟨hnm, hrest⟩
  subst hnm hrest
  refine ⟨h.accepted, h.reported, ?_, hcrash, h.represents.modify hout.1, ?_, ?_, ?_, ?_⟩
  · show s.socket ++ bytes = _
    rw [h.socket]
  · intro b hb
    rw [show ({ s with
      socket := s.socket ++ bytes
      queue := s.queue.modify a f
      worker := w } : SendLink).worker.held = [a] from hw, List.mem_singleton] at hb
    subst hb
    exact ⟨hout.1, fun hnil => (LinkedQueue.modify_next?).trans (hout.2 hnil)⟩
  · show (w.held ++ ids).map (s.queue.modify a f).value? = (f n :: rest).map some
    rw [hw, List.singleton_append, List.map_cons, List.map_cons, LinkedQueue.modify_value?_self,
      hvalue, ← hids]
    congr 1
    exact List.map_congr_left fun b hb =>
      LinkedQueue.modify_value?_of_ne fun hba => hout.1 (hba ▸ hb)
  · intro m hm
    rw [List.mem_cons] at hm
    rcases hm with hm | hm
    · rw [hm]
      exact hf
    · exact h.unsent m (by rw [hl]; exact List.mem_cons_of_mem n hm)
  · intro _ m hm
    rw [← Option.some.inj hm]
    exact hholds

/-- The worker's node is deleted. -/
theorem Refines.free (h : s.Refines ids o) (ha : s.worker.held = [a]) (hl : o.line = n :: rest)
    (bytes : List UInt8) (sent : List Message) :
    Refines { s with
      socket := s.socket ++ bytes
      queue := s.queue.free a
      worker := .idle
      reported := s.reported ++ sent } ids { o with
      socket := o.socket ++ bytes
      reported := o.reported ++ sent
      line := rest } := by
  have hout := h.outside a (by rw [ha]; exact List.mem_singleton_self a)
  rcases h.exists_held ha with ⟨m, rest', hl', _, hids⟩
  rw [hl, List.cons.injEq] at hl'
  rcases hl' with ⟨hnm, hrest⟩
  subst hnm hrest
  refine ⟨h.accepted, ?_, ?_, by simp, h.represents.free hout.1, ?_, ?_, ?_, ?_⟩
  · show s.reported ++ sent = _
    rw [h.reported]
  · show s.socket ++ bytes = _
    rw [h.socket]
  · intro b hb
    exact absurd hb (by simp [Worker.held])
  · show ids.map (s.queue.free a).value? = rest.map some
    rw [← hids]
    exact List.map_congr_left fun b hb =>
      LinkedQueue.free_value?_of_ne fun hba => hout.1 (hba ▸ hb)
  · intro m hm
    exact h.unsent m (by rw [hl]; exact List.mem_cons_of_mem n hm)
  · intro hne
    exact absurd rfl hne

/-- A message that is accepted goes to the end of the line. -/
theorem Refines.enqueueBack {node : ℕ} {m : Message} (h : s.Refines ids o)
    (hstep : s.enqueueBack node m = some s') :
    ∃ ids' o', Outgoing.Step false o o' ∧ s'.Refines ids' o' := by
  unfold SendLink.enqueueBack at hstep
  split at hstep
  · exact absurd hstep (by simp)
  rename_i hdead
  split at hstep
  · rw [Option.some.injEq] at hstep
    subst hstep
    exact ⟨ids, o, .stay, h⟩
  rename_i hcap
  have hnode : s.queue.nodes node = none := by simpa using hdead
  rcases h.represents.pushBack hnode m.node with ⟨queue, hpush, hrep, hvalue, hothers, _⟩
  rw [hpush, Option.some.injEq] at hstep
  subst hstep
  -- an address without a node belongs neither to the worker nor to the queue
  have hne : ∀ b ∈ s.worker.held ++ ids, b ≠ node := by
    intro b hb hbn
    have hmem : s.queue.value? b ∈ (s.worker.held ++ ids).map s.queue.value? :=
      List.mem_map_of_mem hb
    rw [h.line, hbn, LinkedQueue.value?, hnode] at hmem
    simp at hmem
  refine ⟨ids ++ [node], { o with
      accepted := o.accepted ++ [m]
      line := o.line ++ [m.node] },
    .accept (AccLinkedMessageNode.sentBytes_node m), ?_⟩
  refine ⟨?_, h.reported, h.socket, h.alive, hrep, ?_, ?_, ?_, ?_⟩
  · show s.accepted ++ [m] = _
    rw [h.accepted]
  · intro b hb
    have hbn : b ≠ node := hne b (List.mem_append_left ids hb)
    refine ⟨?_, by simp⟩
    rw [List.mem_append, List.mem_singleton]
    intro hmem
    exact hmem.elim (h.outside b hb).1 hbn
  · show (s.worker.held ++ (ids ++ [node])).map queue.value? = (o.line ++ [m.node]).map some
    rw [← List.append_assoc, List.map_append,
      List.map_congr_left fun b hb => hothers b (hne b hb), h.line, List.map_append]
    simp [hvalue]
  · intro n hn
    rw [List.mem_append, List.mem_singleton] at hn
    rcases hn with hn | hn
    · exact h.unsent n hn
    · rw [hn]
      exact AccLinkedMessageNode.unsent_node m
  · intro hheld n hn
    -- the worker holds a message already, so the first of the line is still that one
    rcases List.exists_cons_of_ne_nil hheld with ⟨b, l, hcons⟩
    cases hl : o.line with
    | nil =>
      have hline := h.line
      rw [hcons, hl] at hline
      exact absurd hline (by simp)
    | cons first line =>
      refine h.holds hheld n ?_
      simp only [hl, List.cons_append, List.head?_cons] at hn ⊢
      exact hn

/-- The worker takes the first of the line, which stays in line. -/
theorem Refines.dequeueFront (h : s.Refines ids o) (hidle : s.worker = .idle) :
    ∃ ids' o', Outgoing.Step false o o' ∧ s.dequeueFront.Refines ids' o' := by
  have hheld : s.worker.held = [] := by rw [hidle]; rfl
  cases ids with
  | nil =>
    have hpop : s.dequeueFront = s := by
      rw [SendLink.dequeueFront, h.represents.popFront_nil]
    rw [hpop]
    exact ⟨[], o, .stay, h⟩
  | cons a ids =>
    rcases h.represents.popFront_cons with ⟨queue, hpop, hrep, hnodes, hnext⟩
    have hvalues : queue.value? = s.queue.value? := by
      funext b
      rw [LinkedQueue.value?, hnodes]
      rfl
    have hline := h.line
    rw [hheld, List.nil_append] at hline
    cases hl : o.line with
    | nil => rw [hl] at hline; exact absurd hline (by simp)
    | cons n rest =>
      have hunsent : n.Unsent := h.unsent n (by rw [hl]; exact List.mem_cons_self)
      have hvalue : queue.value? a = some n := by
        rw [hl, List.map_cons, List.map_cons, List.cons.injEq] at hline
        rw [hvalues, hline.1]
      have hnotsent : n.sent = false := by
        rw [AccLinkedMessageNode.sent, decide_eq_false_iff_not]
        rcases hunsent.rest with hr | hr
        · exact fun hsent => hr hsent.1
        · exact fun hsent => hr hsent.2
      -- the line is the same before and after: the node moves from the queue to the worker
      have hmove : ∀ w : Worker, w.held = [a] → w ≠ .crashed → w.Holds n →
          Refines { s with
            queue := queue
            worker := w } ids o := by
        intro w hw hcrash hholds
        refine ⟨h.accepted, h.reported, h.socket, hcrash, hrep, ?_, ?_, h.unsent, ?_⟩
        · intro b hb
          rw [show ({ s with
            queue := queue
            worker := w } : SendLink).worker.held = [a] from hw, List.mem_singleton] at hb
          subst hb
          refine ⟨(List.nodup_cons.mp h.represents.nodup).1, fun hnil => ?_⟩
          show queue.next? b = none
          rw [LinkedQueue.next?, hnodes]
          exact hnext hnil
        · show (w.held ++ ids).map queue.value? = _
          rw [hw, hvalues]
          exact hline
        · intro _ m hm
          rw [hl] at hm
          rw [← Option.some.inj hm]
          exact hholds
      refine ⟨ids, o, .stay, ?_⟩
      simp only [SendLink.dequeueFront, hpop, hvalue, hnotsent, Bool.false_eq_true, if_false]
      split
      · rename_i hhs
        have hh : n.headerRemain = 0 := by simpa [AccLinkedMessageNode.headerSent] using hhs
        exact hmove (.sendData a) rfl (by simp) ⟨hh, hunsent.rest.resolve_left (by simp [hh])⟩
      · rename_i hhs
        have hh : n.headerRemain ≠ 0 := by simpa [AccLinkedMessageNode.headerSent] using hhs
        exact hmove (.sendHeader a) rfl (by simp) hh

/-- What the worker puts back is first in line again. -/
theorem Refines.enqueueFront (h : s.Refines ids o) (hstep : s.enqueueFront = some s') :
    ∃ ids' o', Outgoing.Step false o o' ∧ s'.Refines ids' o' := by
  unfold SendLink.enqueueFront at hstep
  split at hstep
  · rename_i a hw
    have hheld : s.worker.held = [a] := by rw [hw]; rfl
    have hout := h.outside a (by rw [hheld]; exact List.mem_singleton_self a)
    rcases h.exists_held hheld with ⟨n, rest, hl, hvalue, _⟩
    have hlive : (s.queue.nodes a).isSome := by
      cases hn : s.queue.nodes a with
      | none => rw [LinkedQueue.value?, hn] at hvalue; exact absurd hvalue (by simp)
      | some _ => rfl
    rcases h.represents.pushFront hout.1 hlive hout.2 with ⟨queue, hpush, hrep, hvalues⟩
    rw [hpush, Option.some.injEq] at hstep
    subst hstep
    refine ⟨a :: ids, o, .stay, ?_⟩
    refine ⟨h.accepted, h.reported, h.socket, by simp, hrep, ?_, ?_, h.unsent, ?_⟩
    · intro b hb
      exact absurd hb (by simp [Worker.held])
    · show (a :: ids).map queue.value? = _
      rw [← h.line, hheld]
      exact List.map_congr_left fun b _ => hvalues b
    · intro hne
      exact absurd rfl hne
  · exact absurd hstep (by simp)

/-- A failed write throws the message away, whether it breaks the link or not. -/
theorem Refines.sendPostProcess (h : s.Refines ids o) (ha : s.worker.held = [a]) (errno : Errno) :
    ∃ ids' o', Outgoing.Step true o o' ∧ (s.sendPostProcess a errno).Refines ids' o' := by
  rcases h.exists_held ha with ⟨n, rest, hl, _, _⟩
  have hfree := h.free ha hl [] []
  simp only [List.append_nil] at hfree
  refine ⟨ids, { o with line := rest }, .drop hl, ?_⟩
  unfold SendLink.sendPostProcess
  split
  · exact hfree
  · exact ⟨hfree.accepted, hfree.reported, hfree.socket, by simp, hfree.represents, by
      simp [Worker.held], hfree.line, hfree.unsent, by simp [Worker.held]⟩

/-- Bytes of the header leave with the first of the line. -/
theorem Refines.writeHeader (h : s.Refines ids o) (hw : s.worker = .sendHeader a)
    (hl : o.line = n :: rest) {size : ℕ} (hstep : s.writeHeader a n (.wrote size) = some s') :
    ∃ ids' o', Outgoing.Step false o o' ∧ s'.Refines ids' o' := by
  have hheld : s.worker.held = [a] := by rw [hw]; rfl
  have hunsent : n.Unsent := h.unsent n (by rw [hl]; exact List.mem_cons_self)
  have hh : n.headerRemain ≠ 0 := by
    have hholds := h.holds (by rw [hheld]; simp) n (by rw [hl]; rfl)
    rw [hw] at hholds
    exact hholds
  rw [SendLink.writeHeader] at hstep
  split at hstep
  · rename_i hsize
    have hadv := hunsent.sentBytes_headerAllSent hh hsize.2
    have hnode := AccLinkedMessageNode.headerAllSent_of_le hsize.2
    -- the header is longer than what was written, or the data is what is left
    by_cases hrest : size = n.headerRemain
    · have hhs : (n.headerAllSent size).headerSent = true := by
        rw [hnode, AccLinkedMessageNode.headerSent]
        simp [hrest]
      simp only [hhs, Bool.not_true, Bool.false_eq_true, if_false] at hstep
      by_cases hdata : (n.headerAllSent size).dataSent = true
      · rw [if_pos hdata, Option.some.injEq] at hstep
        subst hstep
        have hsent : (n.headerAllSent size).sentBytes = (n.headerAllSent size).message.bytes := by
          apply AccLinkedMessageNode.sentBytes_of_sent
          · simpa [AccLinkedMessageNode.headerSent] using hhs
          · simpa [AccLinkedMessageNode.dataSent] using hdata
        have hmessage : (n.headerAllSent size).message = n.message := by rw [hnode]; rfl
        rw [hadv, hmessage] at hsent
        refine ⟨ids, _, .sent hl hsent.symm, ?_⟩
        rw [hmessage]
        simp only [SendLink.msgSent, LinkedQueue.free_modify]
        exact h.free hheld hl _ _
      · rw [if_neg hdata, Option.some.injEq] at hstep
        subst hstep
        have hd : n.dataRemain ≠ 0 := by
          intro hzero
          rw [hnode] at hdata
          exact hdata (decide_eq_true hzero)
        refine ⟨ids, _, .advance hl (by rw [hnode]; rfl) hadv, ?_⟩
        apply h.advance hheld hl rfl (by simp)
        · rw [hnode]
          exact ⟨by simp [hrest], hd⟩
        · rw [hnode]
          exact ⟨(Nat.sub_le _ _).trans hunsent.header_le, hunsent.data_le,
            fun _ => hunsent.ordered hh, Or.inr hd⟩
    · have hlt : size < n.headerRemain := lt_of_le_of_ne hsize.2 hrest
      have hhs : (n.headerAllSent size).headerSent = false := by
        rw [hnode, AccLinkedMessageNode.headerSent, decide_eq_false_iff_not]
        show n.headerRemain - size ≠ 0
        omega
      simp only [hhs, Bool.not_false, if_true, Option.some.injEq] at hstep
      subst hstep
      refine ⟨ids, _, .advance hl (by rw [hnode]; rfl) hadv, ?_⟩
      apply h.advance (w := .enqueueFront a) hheld hl rfl (by simp) trivial
      rw [hnode]
      exact ⟨(Nat.sub_le _ _).trans hunsent.header_le, hunsent.data_le,
        fun _ => hunsent.ordered hh, Or.inl (Nat.sub_ne_zero_of_lt hlt)⟩
  · exact absurd hstep (by simp)

/-- Bytes of the body leave with the first of the line; with the last of them it is reported. -/
theorem Refines.writeData (h : s.Refines ids o) (hw : s.worker = .sendData a)
    (hl : o.line = n :: rest) {size : ℕ} (hstep : s.writeData a n (.wrote size) = some s') :
    ∃ ids' o', Outgoing.Step false o o' ∧ s'.Refines ids' o' := by
  have hheld : s.worker.held = [a] := by rw [hw]; rfl
  have hunsent : n.Unsent := h.unsent n (by rw [hl]; exact List.mem_cons_self)
  have hh : n.headerRemain = 0 := by
    have hholds := h.holds (by rw [hheld]; simp) n (by rw [hl]; rfl)
    rw [hw] at hholds
    exact hholds.1
  rw [SendLink.writeData] at hstep
  split at hstep
  · rename_i hsize
    have hadv := hunsent.sentBytes_dataAllSent hsize.2
    have hnode := AccLinkedMessageNode.dataAllSent_of_le hsize.2
    by_cases hrest : size = n.dataRemain
    · have hds : (n.dataAllSent size).dataSent = true := by
        rw [hnode, AccLinkedMessageNode.dataSent]
        simp [hrest]
      simp only [hds, Bool.not_true, Bool.false_eq_true, if_false, Option.some.injEq] at hstep
      subst hstep
      have hsent : (n.dataAllSent size).sentBytes = (n.dataAllSent size).message.bytes := by
        apply AccLinkedMessageNode.sentBytes_of_sent
        · rw [hnode]
          exact hh
        · simpa [AccLinkedMessageNode.dataSent] using hds
      have hmessage : (n.dataAllSent size).message = n.message := by rw [hnode]; rfl
      rw [hadv, hmessage] at hsent
      refine ⟨ids, _, .sent hl hsent.symm, ?_⟩
      rw [hmessage]
      simp only [SendLink.msgSent, LinkedQueue.free_modify]
      exact h.free hheld hl _ _
    · have hlt : size < n.dataRemain := lt_of_le_of_ne hsize.2 hrest
      have hds : (n.dataAllSent size).dataSent = false := by
        rw [hnode, AccLinkedMessageNode.dataSent, decide_eq_false_iff_not]
        show n.dataRemain - size ≠ 0
        omega
      simp only [hds, Bool.not_false, if_true, Option.some.injEq] at hstep
      subst hstep
      refine ⟨ids, _, .advance hl (by rw [hnode]; rfl) hadv, ?_⟩
      apply h.advance (w := .enqueueFront a) hheld hl rfl (by simp) trivial
      rw [hnode]
      exact ⟨hunsent.header_le, (Nat.sub_le _ _).trans hunsent.data_le, fun hne => absurd hh hne,
        Or.inr (Nat.sub_ne_zero_of_lt hlt)⟩
  · exact absurd hstep (by simp)

end Steps

end SendLink

namespace SendEvent

/-- Whether an event is a write with `EAGAIN`. -/
def wouldBlock : SendEvent → Bool
  | .write (.failed errno) => errno = .eagain
  | _ => false

/-- Whether an event is a write that breaks the link. -/
def hardError : SendEvent → Bool
  | .write (.failed errno) => errno ≠ .eagain
  | _ => false

/-- Whether an event is a write without a positive result. -/
def fails : SendEvent → Bool
  | .write (.failed _) => true
  | _ => false

theorem fails_eq (e : SendEvent) : e.fails = (e.wouldBlock || e.hardError) := by
  unfold fails wouldBlock hardError
  split
  · rename_i errno
    cases errno <;> rfl
  · rfl

end SendEvent

namespace SendLink

section Runs

variable {s s' : SendLink} {ids : List ℕ} {o : Outgoing}

/-- A write drops the first of the line exactly if it fails. -/
theorem Refines.write (h : s.Refines ids o) {result : WriteResult}
    (hstep : s.write result = some s') :
    ∃ ids' o', Outgoing.Step (SendEvent.write result).fails o o' ∧ s'.Refines ids' o' := by
  unfold SendLink.write at hstep
  -- both writes fail alike; they differ in what a success does
  have hfailed : ∀ a errno, s.worker.held = [a] → s.sendPostProcess a errno = s' →
      ∃ ids' o', Outgoing.Step true o o' ∧ s'.Refines ids' o' := by
    intro a errno ha heq
    subst heq
    exact h.sendPostProcess ha errno
  split at hstep
  · rename_i a hw
    have hheld : s.worker.held = [a] := by rw [hw]; rfl
    rcases h.exists_held hheld with ⟨n, rest, hl, hvalue, _⟩
    rw [hvalue] at hstep
    cases result with
    | wrote size => exact h.writeHeader hw hl hstep
    | failed errno => exact hfailed a errno hheld (Option.some.inj hstep)
  · rename_i a hw
    have hheld : s.worker.held = [a] := by rw [hw]; rfl
    rcases h.exists_held hheld with ⟨n, rest, hl, hvalue, _⟩
    rw [hvalue] at hstep
    cases result with
    | wrote size => exact h.writeData hw hl hstep
    | failed errno => exact hfailed a errno hheld (Option.some.inj hstep)
  · exact absurd hstep (by simp)

/-- Every step of the link is a step of the line. -/
theorem Refines.step (h : s.Refines ids o) {e : SendEvent} (hstep : s.step e = some s') :
    ∃ ids' o', Outgoing.Step e.fails o o' ∧ s'.Refines ids' o' := by
  cases e with
  | enqueueBack node hd d cbCtx => exact h.enqueueBack hstep
  | dequeueFront =>
    rw [SendLink.step] at hstep
    split at hstep
    · rename_i hidle
      rw [Option.some.injEq] at hstep
      subst hstep
      exact h.dequeueFront hidle
    · exact absurd hstep (by simp)
  | write result => exact h.write hstep
  | enqueueFront => exact h.enqueueFront hstep

/-- Every run of the link is a run of the line. -/
theorem Refines.run (h : s.Refines ids o) {events : List SendEvent}
    (hrun : s.run events = some s') :
    ∃ ids' o', Outgoing.Run o (events.map SendEvent.fails) o' ∧ s'.Refines ids' o' := by
  induction events generalizing s ids o with
  | nil =>
    rw [← Option.some.inj hrun]
    exact ⟨ids, o, .nil, h⟩
  | cons e events ih =>
    rw [SendLink.run, List.foldlM_cons] at hrun
    rcases Option.bind_eq_some_iff.mp hrun with ⟨s₁, hstep, hrest⟩
    rcases h.step hstep with ⟨ids₁, o₁, hone, h₁⟩
    rcases ih h₁ hrest with ⟨ids', o', hsteps, h'⟩
    exact ⟨ids', o', .cons hone hsteps, h'⟩

theorem refines_init (sizeCap : ℕ) : (init sizeCap).Refines [] ⟨[], [], [], []⟩ where
  accepted := rfl
  reported := rfl
  socket := rfl
  alive := by simp [init]
  represents := LinkedQueue.represents_empty
  outside := by simp [init, Worker.held]
  line := rfl
  unsent := by simp
  holds := by simp [init, Worker.held]

/-- The messages that wait are the line. -/
theorem Refines.pending_eq (h : s.Refines ids o) : s.pending = o.line.map (·.message) := by
  have hmap : (s.worker.held ++ ids).filterMap (fun a => (s.queue.value? a).map (·.message))
      = ((s.worker.held ++ ids).map s.queue.value?).filterMap (Option.map (·.message)) := by
    rw [List.filterMap_map]
    rfl
  rw [pending, h.represents.toList_eq, hmap, h.line, List.filterMap_map]
  exact List.filterMap_eq_map_iff_forall_eq_some.mpr fun n _ => rfl

/-- A line in order is a link that lost nothing. -/
theorem Refines.intact (h : s.Refines ids o) (ho : o.InOrder) : s.Intact where
  alive := h.alive
  stream := by
    rw [h.socket, h.accepted, ho.socket, ho.kept, List.flatMap_append]
    apply (List.prefix_append_right_inj _).mpr
    cases hl : o.line with
    | nil => exact List.nil_prefix
    | cons n rest =>
      have hunsent : n.Unsent := h.unsent n (by rw [hl]; exact List.mem_cons_self)
      exact hunsent.sentBytes_prefix.trans (List.prefix_append _ _)
  written := by
    rw [h.socket, h.reported, ho.socket]
    exact List.prefix_append _ _
  kept := by rw [h.pending_eq, h.reported, h.accepted, ho.kept]

/-- Up to the first hard error of a run, the outgoing stream is intact exactly as long as no
write returned `EAGAIN`: whatever is accepted meanwhile, and however short the writes are. -/
theorem intact_iff_of_run {sizeCap : ℕ} {events : List SendEvent} {s : SendLink}
    (hrun : (init sizeCap).run events = some s) (hhard : ∀ e ∈ events, e.hardError = false) :
    s.Intact ↔ ∀ e ∈ events, e.wouldBlock = false := by
  rcases (refines_init sizeCap).run hrun with ⟨ids, o, hsteps, href⟩
  have hfails : ∀ e ∈ events, e.fails = e.wouldBlock := by
    intro e he
    rw [e.fails_eq, hhard e he, Bool.or_false]
  constructor
  · intro hintact e he
    -- a message thrown away is missing among the reported and the pending ones
    have hlen := hsteps.length_eq
    have hkept := congrArg List.length hintact.kept
    rw [href.pending_eq, href.reported, href.accepted, List.length_append, List.length_map] at hkept
    have hcount : (events.map SendEvent.fails).count true = 0 := by
      simp only [List.length_nil] at hlen
      omega
    rw [List.count_eq_zero] at hcount
    rw [← hfails e he]
    by_contra hne
    exact hcount (List.mem_map.mpr ⟨e, he, by simpa using hne⟩)
  · intro hnone
    refine href.intact (Outgoing.InOrder.run ⟨rfl, rfl, by simp⟩ hsteps ?_)
    intro dropped hd
    rcases List.mem_map.mp hd with ⟨e, he, heq⟩
    rw [← heq, hfails e he, hnone e he]

/-- Two messages; the first is sent in three short writes, the second up to its header. -/
def shortSends : List SendEvent :=
  [.enqueueBack 0 { type := 1, bodyLen := 2 } ⟨[7, 8], by decide⟩ 0, .dequeueFront,
    .write (.wrote 10), .enqueueFront,
    .enqueueBack 1 { type := 2, bodyLen := 1 } ⟨[9], by decide⟩ 0, .dequeueFront, .write (.wrote 6), .write (.wrote 1), .enqueueFront, .dequeueFront,
    .write (.wrote 1), .dequeueFront, .write (.wrote 16)]

theorem intact_shortSends : ∃ s, (init 16).run shortSends = some s ∧ s.Intact := by
  have hsome : ((init 16).run shortSends).isSome := by decide +kernel
  rcases Option.isSome_iff_exists.mp hsome with ⟨s, hs⟩
  exact ⟨s, hs, (intact_iff_of_run hs (by decide +kernel)).mpr (by decide +kernel)⟩

/-- Two messages; the data write of the first would block, and the second is next. -/
def blockedSends : List SendEvent :=
  [.enqueueBack 0 { type := 1, bodyLen := 2 } ⟨[7, 8], by decide⟩ 0,
    .enqueueBack 1 { type := 2, bodyLen := 1 } ⟨[9], by decide⟩ 0, .dequeueFront,
    .write (.wrote 16), .write (.failed .eagain), .dequeueFront, .write (.wrote 16)]

/-- The second header follows the first one in the socket, without the data between them. -/
theorem not_intact_blockedSends :
    ∃ s, (init 16).run blockedSends = some s ∧ (∀ e ∈ blockedSends, e.hardError = false) ∧
      ¬ s.socket <+: s.accepted.flatMap Message.bytes ∧ ¬ s.Intact := by
  have hsome : ((init 16).run blockedSends).isSome := by decide +kernel
  have hany : ((init 16).run blockedSends).any
      (fun s => ¬ s.socket <+: s.accepted.flatMap Message.bytes) := by decide +kernel
  rcases Option.isSome_iff_exists.mp hsome with ⟨s, hs⟩
  rw [hs, Option.any_some, decide_eq_true_iff] at hany
  exact ⟨s, hs, by decide +kernel, hany, fun h => hany h.stream⟩

end Runs

end SendLink

end AscendShmem.AccLinks
