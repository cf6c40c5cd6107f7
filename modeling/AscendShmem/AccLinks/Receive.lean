import Mathlib
import AscendShmem.AccLinks.Message

/-!
# The receiving half of a store link

`HandlePollIn` receives what is missing of a header, then what is missing of a body, and may
stop after any byte. Its place in the stream is spread over the two counters of the receive
state, the header that is filled in place and a data buffer that grows when a body needs it.

Whatever the pieces are in which a sequence of frames arrives, the polls hand out the frames
one after the other and whole, and no receive call is given room past the end of a buffer.
-/

namespace AscendShmem.AccLinks

open Lib

/-! ## The socket -/

/-- What the next `recv` meets: some bytes have arrived, or it fails. -/
inductive Fragment where
  | chunk (size : ℕ)
  | failed (errno : Errno)
deriving DecidableEq, Repr

/-- The incoming bytes not received yet, and what the coming `recv` calls meet. -/
structure Socket where
  stream : List UInt8
  fragments : List Fragment

/-- The result of one `recv`: the bytes it stored, or `errno` when there are none. -/
inductive RecvResult where
  | received (bytes : List UInt8)
  | failed (errno : Errno)

/-- `recv` of at most `len` bytes; without anything to read it would block. -/
def Socket.recv (s : Socket) (len : ℕ) : RecvResult × Socket :=
  match s.fragments with
  | [] => (.failed .eagain, s)
  | .failed errno :: fragments => (.failed errno, { s with fragments := fragments })
  | .chunk size :: fragments =>
    let bytes := s.stream.take (min size len)
    if bytes = [] then (.failed .eagain, { s with fragments := fragments })
    else (.received bytes, ⟨s.stream.drop (min size len), fragments⟩)

/-- `PollInRecv` into `buffer` from `offset` on: the buffer after it. No value when the room
offered to `recv` ends behind the buffer. -/
def pollInRecv (buffer : List UInt8) (offset len : ℕ) (socket : Socket) :
    Option (RecvResult × List UInt8 × Socket) :=
  if offset + len ≤ buffer.length then
    match socket.recv len with
    | (.received bytes, socket) => some (.received bytes, patch buffer offset bytes, socket)
    | (.failed errno, socket) => some (.failed errno, buffer, socket)
  else none

/-! ## The link -/

/-- `AccLinkReceiveState`; its `headerLen` is the size of a header. -/
structure AccLinkReceiveState where
  headerToBeReceived : ℕ := accMsgHeaderSize
  bodyToBeReceived : ℤ := -1

namespace AccLinkReceiveState

/-- Some byte of the header is missing. -/
def shouldReceiveHeader (s : AccLinkReceiveState) : Bool := 0 < s.headerToBeReceived

/-- How many bytes of the header are there. -/
def receivedHeaderLen (s : AccLinkReceiveState) : ℕ :=
  if accMsgHeaderSize > s.headerToBeReceived then accMsgHeaderSize - s.headerToBeReceived else 0

/-- For the next message. -/
def resetHeader (_ : AccLinkReceiveState) : AccLinkReceiveState :=
  { headerToBeReceived := accMsgHeaderSize
    bodyToBeReceived := -1 }

/-- The state after `BodySatisfied`, which reports whether the body is complete. -/
def bodySatisfied (s : AccLinkReceiveState) (newReceivedSize : ℕ) : AccLinkReceiveState :=
  { s with
    bodyToBeReceived :=
      if s.bodyToBeReceived > newReceivedSize then s.bodyToBeReceived - newReceivedSize else 0 }

/-- The state after `HeaderSatisfied`. -/
def headerSatisfied (s : AccLinkReceiveState) (newReceivedHeader : ℕ) : AccLinkReceiveState :=
  { s with
    headerToBeReceived :=
      if s.headerToBeReceived > newReceivedHeader then s.headerToBeReceived - newReceivedHeader
      else 0 }

end AccLinkReceiveState

/-- A data buffer: an array of `memSize_` bytes, of which `dataSize_` are data. -/
structure AccDataBuffer where
  data : List UInt8
  dataSize : ℕ

/-- The link as the worker's polls see it. -/
structure RecvLink where
  receiveState : AccLinkReceiveState
  header : List UInt8
  data : AccDataBuffer

/-- `header_` read as a header. -/
def RecvLink.accMsgHeader (s : RecvLink) : AccMsgHeader := accMsgHeaderCodec.dec s.header

section HandlePollIn

-- what the bytes of new memory are before they are written
variable (uninit : ℕ → UInt8)

/-- `new uint8_t[size]`, which is taken to succeed. -/
def newArray (size : ℕ) : List UInt8 := (List.range size).map uninit

/-- `AllocIfNeed`, no value where it returns `false`. -/
def AccDataBuffer.allocIfNeed (b : AccDataBuffer) (newSize : ℕ) : Option AccDataBuffer :=
  if newSize > maxRecvBodyLen then none
  else if newSize > b.data.length then
    some { b with data := newArray uninit (max b.data.length newSize) }
  else some b

/-- `Initialize`: a buffer of 1024 bytes, a blank header. -/
def RecvLink.init : RecvLink :=
  ⟨{}, ({} : AccMsgHeader).bytes, ⟨newArray uninit 1024, 0⟩⟩

/-- What a failed receive call makes of `errno`. -/
def pollInFailed (errno : Errno) : LinkResult :=
  if errno = .econnreset ∨ errno = .success then .linkError
  else if errno = .eagain then .linkEagain else .linkError

/-- The second half of `HandlePollIn`: the body. -/
def RecvLink.receiveBody (s : RecvLink) (socket : Socket) :
    Option (LinkResult × RecvLink × Socket) :=
  let bodyLen := s.accMsgHeader.bodyLen.toNat
  let dataPtr := bodyLen - s.receiveState.bodyToBeReceived
  if s.receiveState.bodyToBeReceived < 0 ∨ dataPtr < 0 then none -- as `size_t`, out of any buffer
  else
    match pollInRecv s.data.data dataPtr.toNat s.receiveState.bodyToBeReceived.toNat socket with
    | none => none
    | some (.failed errno, _, socket) => some (pollInFailed errno, s, socket)
    | some (.received bytes, data, socket) =>
      let s := { s with
        receiveState := s.receiveState.bodySatisfied bytes.length
        data := ⟨data, s.data.dataSize⟩ }
      if s.receiveState.bodyToBeReceived = 0 then
        some (.linkMsgReady, { s with
          receiveState := s.receiveState.resetHeader
          data := { s.data with dataSize := bodyLen } }, socket)
      else some (.linkEagain, s, socket)

/-- A complete header: room for the body, and on to it. -/
def RecvLink.headerReceived (s : RecvLink) (socket : Socket) :
    Option (LinkResult × RecvLink × Socket) :=
  let bodyLen := s.accMsgHeader.bodyLen.toNat
  match s.data.allocIfNeed uninit bodyLen with
  | none => some (.mallocFail, { s with receiveState := s.receiveState.resetHeader }, socket)
  | some data => RecvLink.receiveBody { s with
      receiveState := { s.receiveState with bodyToBeReceived := bodyLen }
      data := { data with dataSize := 0 } } socket

/-- `HandlePollIn`, no value where a receive call is offered room it does not have. -/
def RecvLink.handlePollIn (s : RecvLink) (socket : Socket) :
    Option (LinkResult × RecvLink × Socket) :=
  if s.receiveState.shouldReceiveHeader then
    match pollInRecv s.header s.receiveState.receivedHeaderLen s.receiveState.headerToBeReceived
        socket with
    | none => none
    | some (.failed errno, _, socket) => some (pollInFailed errno, s, socket)
    | some (.received bytes, header, socket) =>
      let s := { s with
        receiveState := s.receiveState.headerSatisfied bytes.length
        header := header }
      if s.receiveState.headerToBeReceived = 0 then s.headerReceived uninit socket
      else some (.linkEagain, s, socket)
  else s.receiveBody socket

/-- What the worker hands to the upper layer: the header and the body in the buffer. -/
def RecvLink.request (s : RecvLink) : AccMsgHeader × List UInt8 :=
  (s.accMsgHeader, s.data.data.take s.data.dataSize)

/-- A link that was polled for a while, with the results and the requests handed out. -/
structure Polled where
  link : RecvLink
  socket : Socket
  results : List LinkResult
  requests : List (AccMsgHeader × List UInt8)

/-- One poll by the worker, which hands a complete message out. -/
def Polled.poll (p : Polled) : Option Polled :=
  match p.link.handlePollIn uninit p.socket with
  | none => none
  | some (result, link, socket) => some
    { link := link
      socket := socket
      results := p.results ++ [result]
      requests := p.requests ++ if result = .linkMsgReady then [link.request] else [] }

/-- A number of polls from the start. -/
def polls (socket : Socket) : ℕ → Option Polled
  | 0 => some ⟨.init uninit, socket, [], []⟩
  | n + 1 => (polls socket n).bind (Polled.poll uninit)

end HandlePollIn

/-! ## Frames -/

/-- A frame: a header and a body of the length it names. -/
structure Frame where
  header : AccMsgHeader
  body : List UInt8
  bodyLen_eq : header.bodyLen.toNat = body.length
  body_pos : 0 < body.length
  body_le : body.length ≤ maxRecvBodyLen

namespace Frame

/-- A frame on the wire: its header, then its body. -/
def bytes (f : Frame) : List UInt8 := f.header.bytes ++ f.body

/-- What the handler gets of a frame. -/
def request (f : Frame) : AccMsgHeader × List UInt8 := (f.header, f.body)

@[simp] theorem length_bytes (f : Frame) : f.bytes.length = accMsgHeaderSize + f.body.length := by
  rw [bytes, List.length_append, AccMsgHeader.length_bytes]

end Frame

/-! ## What a receive call does -/

namespace Socket

/-- The coming receive calls bring bytes or would block. -/
def Delivers (s : Socket) : Prop :=
  ∀ f ∈ s.fragments, (∃ size, f = .chunk size) ∨ f = .failed .eagain

/-- The number of receive calls that bring a byte as long as there is one. -/
def chunks (s : Socket) : ℕ := s.fragments.countP fun f => f matches .chunk (_ + 1)

/-- The socket after some receive calls, at least one of them when there were any to come. -/
structure Served (s s' : Socket) : Prop where
  delivers : s.Delivers → s'.Delivers
  promised : s.stream.length ≤ s.chunks → s'.stream.length ≤ s'.chunks
  shorter : s'.fragments.length ≤ s.fragments.length - 1

theorem Served.trans {s s' s'' : Socket} (h : s.Served s') (h' : s'.Served s'') : s.Served s'' where
  delivers := fun hs => h'.delivers (h.delivers hs)
  promised := fun hs => h'.promised (h.promised hs)
  shorter := h'.shorter.trans ((Nat.sub_le _ _).trans h.shorter)

/-- A receive call of a socket that delivers would block, or it takes bytes off the stream. -/
theorem recv_cases {s : Socket} (hs : s.Delivers) {len : ℕ} (hlen : 0 < len) :
    (∃ s', s.recv len = (.failed .eagain, s') ∧ s'.stream = s.stream ∧ s.Served s') ∨
    ∃ m s', 0 < m ∧ m ≤ len ∧ m ≤ s.stream.length ∧
      s.recv len = (.received (s.stream.take m), s') ∧ s'.stream = s.stream.drop m ∧
      s.Served s' := by
  rcases s with ⟨stream, fragments⟩
  cases fragments with
  | nil =>
    refine Or.inl ⟨⟨stream, []⟩, rfl, rfl, fun h => h, fun h => h, le_refl _⟩
  | cons f fragments =>
    have htail : Delivers ⟨stream, fragments⟩ := fun g hg => hs g (List.mem_cons_of_mem f hg)
    rcases hs f List.mem_cons_self with ⟨size, hf⟩ | hf
    · subst hf
      by_cases hempty : stream.take (min size len) = []
      · -- nothing to read, or a chunk without bytes
        refine Or.inl ⟨⟨stream, fragments⟩, by rw [recv]; simp [hempty], rfl, fun _ => htail, ?_,
          le_refl _⟩
        intro hpromise
        rcases List.take_eq_nil_iff.mp hempty with hzero | hnil
        · have hsize : size = 0 := by omega
          subst hsize
          simpa [chunks] using hpromise
        · rw [hnil]
          exact Nat.zero_le _
      · have hpos : stream ≠ [] ∧ 0 < size := by
          constructor
          · intro hnil
            exact hempty (by rw [hnil, List.take_nil])
          · rcases Nat.eq_zero_or_pos size with hsize | hsize
            · exact absurd (by rw [hsize, Nat.zero_min, List.take_zero]) hempty
            · exact hsize
        have hlength : 0 < stream.length := List.length_pos_iff.mpr hpos.1
        refine Or.inr ⟨min (min size len) stream.length, ⟨stream.drop (min size len), fragments⟩,
          by omega, by omega, Nat.min_le_right _ _, ?_, ?_, fun _ => htail, ?_, le_refl _⟩
        · rw [recv]
          simp only [hempty, if_false]
          rw [← List.take_eq_take_min]
        · show stream.drop (min size len) = stream.drop (min (min size len) stream.length)
          rcases Nat.le_total (min size len) stream.length with hle | hle
          · rw [Nat.min_eq_left hle]
          · rw [Nat.min_eq_right hle, List.drop_length, List.drop_of_length_le hle]
        · intro hpromise
          rcases size with _ | size
          · exact absurd hpos.2 (lt_irrefl 0)
          have hcount : chunks ⟨stream, .chunk (size + 1) :: fragments⟩
              = chunks ⟨stream, fragments⟩ + 1 := by
            simp [chunks]
          rw [hcount] at hpromise
          show (stream.drop (min (size + 1) len)).length ≤ chunks ⟨stream, fragments⟩
          rw [List.length_drop]
          have hstream : stream.length ≤ chunks ⟨stream, fragments⟩ + 1 := hpromise
          omega
    · subst hf
      refine Or.inl ⟨⟨stream, fragments⟩, rfl, rfl, fun _ => htail, ?_, le_refl _⟩
      intro hpromise
      simpa [chunks] using hpromise

end Socket

/-- Into a buffer with room, the bytes go to their offset and the rest stays. -/
theorem pollInRecv_eq {buffer : List UInt8} {offset len : ℕ} {socket : Socket}
    (h : offset + len ≤ buffer.length) :
    pollInRecv buffer offset len socket = match socket.recv len with
      | (.received bytes, socket) => some (.received bytes, patch buffer offset bytes, socket)
      | (.failed errno, socket) => some (.failed errno, buffer, socket) := by
  rw [pollInRecv, if_pos h]

/-! ## The place in the stream -/

namespace RecvLink

/-- The link has received `j` bytes of a frame. -/
structure At (s : RecvLink) (f : Frame) (j : ℕ) : Prop where
  room : s.header.length = accMsgHeaderSize
  missing : s.receiveState.headerToBeReceived = accMsgHeaderSize - j
  header : s.header.take j = f.header.bytes.take j
  body : accMsgHeaderSize ≤ j →
    s.receiveState.bodyToBeReceived = accMsgHeaderSize + f.body.length - j ∧
    f.body.length ≤ s.data.data.length ∧
    s.data.data.take (j - accMsgHeaderSize) = f.body.take (j - accMsgHeaderSize)

/-- The link waits for a header of which it has nothing. -/
structure Idle (s : RecvLink) : Prop where
  room : s.header.length = accMsgHeaderSize
  missing : s.receiveState.headerToBeReceived = accMsgHeaderSize

/-- The link has received `j` bytes of the first of the frames to come. -/
def Place (s : RecvLink) (j : ℕ) : List Frame → Prop
  | [] => j = 0 ∧ s.Idle
  | f :: _ => j < f.bytes.length ∧ s.At f j

/-- A link between messages stands at the beginning of the next frame. -/
theorem Idle.place {s : RecvLink} (h : s.Idle) (frames : List Frame) : s.Place 0 frames := by
  cases frames with
  | nil => exact ⟨rfl, h⟩
  | cons f frames =>
    refine ⟨by rw [Frame.length_bytes]; exact Nat.add_pos_left (by decide) _, h.room, h.missing,
      by simp, ?_⟩
    intro hle
    exact absurd hle (by decide)

/-- What a poll does: it stays in the frame, or it completes the frame and hands it out. -/
inductive Outcome (frames : List Frame) : LinkResult × RecvLink × Socket → Prop
  | stay {s socket} (j : ℕ) : s.Place j frames →
      socket.stream = (frames.flatMap Frame.bytes).drop j → Outcome frames (.linkEagain, s, socket)
  | ready {s socket} (f : Frame) (later : List Frame) : frames = f :: later → s.Idle →
      s.request = f.request → socket.stream = later.flatMap Frame.bytes →
      Outcome frames (.linkMsgReady, s, socket)

section Steps

variable {s : RecvLink} {f : Frame} {later : List Frame} {socket : Socket} {j : ℕ}

/-- With all its bytes received, the header is the frame's. -/
theorem At.accMsgHeader_eq (h : s.At f j) (hj : accMsgHeaderSize ≤ j) :
    s.accMsgHeader = f.header := by
  have hheader := h.header
  rw [List.take_of_length_le (by rw [h.room]; exact hj),
    List.take_of_length_le (by rw [AccMsgHeader.length_bytes]; exact hj)] at hheader
  rw [accMsgHeader, hheader, AccMsgHeader.bytes, accMsgHeaderCodec.dec_enc]

/-- The bytes that follow in the stream, up to the end of the frame. -/
theorem take_drop_stream {m : ℕ} (hm : j + m ≤ f.bytes.length) :
    (((f :: later).flatMap Frame.bytes).drop j).take m = (f.bytes.drop j).take m := by
  rw [List.flatMap_cons, List.drop_append_of_le_length (by omega),
    List.take_append_of_le_length (by rw [List.length_drop]; omega)]

/-- In the body of a frame, a poll receives body. -/
theorem At.receiveBody (h : s.At f j) (hj : accMsgHeaderSize ≤ j) (hlt : j < f.bytes.length)
    (hs : socket.Delivers) (hstream : socket.stream = ((f :: later).flatMap Frame.bytes).drop j) :
    ∃ r, s.receiveBody socket = some r ∧ Outcome (f :: later) r ∧ socket.Served r.2.2 := by
  rcases h.body hj with ⟨hmissing, hroom, hdata⟩
  rw [Frame.length_bytes] at hlt
  have hbodyLen : s.accMsgHeader.bodyLen.toNat = f.body.length := by
    rw [h.accMsgHeader_eq hj, f.bodyLen_eq]
  -- the counters in terms of `j`
  have hto : s.receiveState.bodyToBeReceived.toNat = accMsgHeaderSize + f.body.length - j := by
    omega
  have hptr : ((f.body.length : ℤ) - s.receiveState.bodyToBeReceived).toNat
      = j - accMsgHeaderSize := by omega
  have hnonneg : ¬ (s.receiveState.bodyToBeReceived < 0 ∨
      (f.body.length : ℤ) - s.receiveState.bodyToBeReceived < 0) := by omega
  have hfit : j - accMsgHeaderSize + (accMsgHeaderSize + f.body.length - j)
      ≤ s.data.data.length := by omega
  simp only [RecvLink.receiveBody, hbodyLen, if_neg hnonneg, hto, hptr, pollInRecv_eq hfit]
  rcases Socket.recv_cases hs (show 0 < accMsgHeaderSize + f.body.length - j by omega) with
    ⟨socket', hrecv, hsame, hserved⟩ | ⟨m, socket', hm, hmlen, hmstream, hrecv, hrest, hserved⟩
  · rw [hrecv]
    refine ⟨_, rfl, .stay j ⟨?_, h⟩ (hsame.trans hstream), hserved⟩
    rw [Frame.length_bytes]
    exact hlt
  · rw [hrecv]
    have hbytes : socket.stream.take m = (f.body.drop (j - accMsgHeaderSize)).take m := by
      rw [hstream, take_drop_stream (by rw [Frame.length_bytes]; omega), Frame.bytes,
        List.drop_append, AccMsgHeader.length_bytes, List.drop_of_length_le
        (by rw [AccMsgHeader.length_bytes]; exact hj), List.nil_append]
    have hlen : (socket.stream.take m).length = m := by rw [List.length_take]; omega
    have hoff : j - accMsgHeaderSize ≤ s.data.data.length := by omega
    have hpatch : (patch s.data.data (j - accMsgHeaderSize) (socket.stream.take m)).take
        (j - accMsgHeaderSize + m) = f.body.take (j - accMsgHeaderSize + m) := by
      have htake := @take_patch _ (socket.stream.take m) _ hoff
      rw [hlen] at htake
      rw [htake, hdata, hbytes, ← List.take_add]
    have hpatchlen : (patch s.data.data (j - accMsgHeaderSize) (socket.stream.take m)).length
        = s.data.data.length := length_patch (by rw [hlen]; omega)
    have hrest' : socket'.stream = ((f :: later).flatMap Frame.bytes).drop (j + m) := by
      rw [hrest, hstream, List.drop_drop]
    simp only [AccLinkReceiveState.bodySatisfied, hlen]
    by_cases hdone : j + m = accMsgHeaderSize + f.body.length
    · have hzero : ¬ s.receiveState.bodyToBeReceived > (m : ℤ) := by omega
      simp only [if_neg hzero, if_true]
      refine ⟨_, rfl, .ready f later rfl ⟨h.room, rfl⟩ ?_ ?_, hserved⟩
      · have hwhole : j - accMsgHeaderSize + m = f.body.length := by omega
        rw [hwhole, List.take_length] at hpatch
        exact Prod.ext (h.accMsgHeader_eq hj) hpatch
      · rw [hrest', hdone, ← Frame.length_bytes, List.flatMap_cons, List.drop_left]
    · have hmore : s.receiveState.bodyToBeReceived > (m : ℤ) := by omega
      have hne : ¬ s.receiveState.bodyToBeReceived - (m : ℤ) = 0 := by omega
      simp only [if_pos hmore, if_neg hne]
      refine ⟨_, rfl, .stay (j + m) ⟨?_, h.room, ?_, ?_, ?_⟩ hrest', hserved⟩
      · rw [Frame.length_bytes]
        omega
      · show s.receiveState.headerToBeReceived = accMsgHeaderSize - (j + m)
        rw [h.missing]
        omega
      · have hheader := h.header
        have hall : ∀ l : List UInt8, l.length = accMsgHeaderSize → l.take (j + m) = l.take j := by
          intro l hl
          rw [List.take_of_length_le (by omega), List.take_of_length_le (by omega)]
        show s.header.take (j + m) = _
        rw [hall _ h.room, hall _ f.header.length_bytes, hheader]
      · intro _
        have hsub : j + m - accMsgHeaderSize = j - accMsgHeaderSize + m := by omega
        refine ⟨?_, ?_, ?_⟩
        · show s.receiveState.bodyToBeReceived - (m : ℤ) = _
          omega
        · show _ ≤ (patch s.data.data _ _).length
          rw [hpatchlen]
          exact hroom
        · rw [hsub]
          exact hpatch

variable (uninit : ℕ → UInt8)

/-- A body within the limit gets a buffer that holds it. -/
theorem allocIfNeed_eq {b : AccDataBuffer} {newSize : ℕ} (h : newSize ≤ maxRecvBodyLen) :
    ∃ b', b.allocIfNeed uninit newSize = some b' ∧ newSize ≤ b'.data.length := by
  rw [AccDataBuffer.allocIfNeed, if_neg (by omega)]
  split
  · refine ⟨_, rfl, ?_⟩
    show newSize ≤ (newArray uninit _).length
    rw [newArray, List.length_map, List.length_range]
    exact Nat.le_max_right _ _
  · exact ⟨b, rfl, by omega⟩

/-- In the header of a frame, a poll receives header, and goes on to the body behind it. -/
theorem At.receiveHeader (h : s.At f j) (hj : j < accMsgHeaderSize) (hs : socket.Delivers)
    (hstream : socket.stream = ((f :: later).flatMap Frame.bytes).drop j) :
    ∃ r, s.handlePollIn uninit socket = some r ∧ Outcome (f :: later) r ∧
      socket.Served r.2.2 := by
  have hshould : s.receiveState.shouldReceiveHeader = true := by
    rw [AccLinkReceiveState.shouldReceiveHeader, h.missing]
    exact decide_eq_true (by omega)
  have hoff : s.receiveState.receivedHeaderLen = j := by
    rw [AccLinkReceiveState.receivedHeaderLen, h.missing]
    split <;> omega
  have hfit : j + (accMsgHeaderSize - j) ≤ s.header.length := by rw [h.room]; omega
  have hbody := f.body_pos
  simp only [RecvLink.handlePollIn, hshould, if_true, hoff, h.missing, pollInRecv_eq hfit]
  rcases Socket.recv_cases hs (show 0 < accMsgHeaderSize - j by omega) with
    ⟨socket', hrecv, hsame, hserved⟩ | ⟨m, socket', hm, hmlen, hmstream, hrecv, hrest, hserved⟩
  · rw [hrecv]
    refine ⟨_, rfl, .stay j ⟨?_, h⟩ (hsame.trans hstream), hserved⟩
    rw [Frame.length_bytes]
    omega
  · rw [hrecv]
    have hbytes : socket.stream.take m = (f.header.bytes.drop j).take m := by
      rw [hstream, take_drop_stream (by rw [Frame.length_bytes]; omega), Frame.bytes,
        List.drop_append_of_le_length (by rw [AccMsgHeader.length_bytes]; omega),
        List.take_append_of_le_length (by
          rw [List.length_drop, AccMsgHeader.length_bytes]; exact hmlen)]
    have hlen : (socket.stream.take m).length = m := by rw [List.length_take]; omega
    have hpatchlen : (patch s.header j (socket.stream.take m)).length = s.header.length :=
      length_patch (by rw [hlen, h.room]; omega)
    have hpatch : (patch s.header j (socket.stream.take m)).take (j + m)
        = f.header.bytes.take (j + m) := by
      have htake := @take_patch s.header (socket.stream.take m) j
        (by rw [h.room]; omega)
      rw [hlen] at htake
      rw [htake, h.header, hbytes, ← List.take_add]
    have hrest' : socket'.stream = ((f :: later).flatMap Frame.bytes).drop (j + m) := by
      rw [hrest, hstream, List.drop_drop]
    simp only [AccLinkReceiveState.headerSatisfied, hlen, h.missing]
    by_cases hdone : j + m = accMsgHeaderSize
    · have hle : ¬ accMsgHeaderSize - j > m := by omega
      simp only [if_neg hle, if_true]
      -- the header is complete: the buffer gets room, and the body starts
      have hparsed : accMsgHeaderCodec.dec (patch s.header j (socket.stream.take m))
          = f.header := by
        have hwhole : (patch s.header j (socket.stream.take m)).take accMsgHeaderSize
            = patch s.header j (socket.stream.take m) :=
          List.take_of_length_le (by rw [hpatchlen, h.room])
        have hheader : f.header.bytes.take accMsgHeaderSize = f.header.bytes :=
          List.take_of_length_le (by rw [AccMsgHeader.length_bytes])
        rw [hdone, hwhole, hheader] at hpatch
        rw [hpatch, AccMsgHeader.bytes, accMsgHeaderCodec.dec_enc]
      rcases allocIfNeed_eq uninit (b := s.data) f.body_le with ⟨data, halloc, hdata⟩
      simp only [RecvLink.headerReceived, RecvLink.accMsgHeader, hparsed, f.bodyLen_eq, halloc]
      have hat : RecvLink.At
          { receiveState := { headerToBeReceived := 0, bodyToBeReceived := f.body.length }
            header := patch s.header j (socket.stream.take m)
            data := { data with dataSize := 0 } } f accMsgHeaderSize := by
        refine ⟨hpatchlen.trans h.room, by simp, ?_, ?_⟩
        · rw [← hdone]
          exact hpatch
        · intro _
          refine ⟨?_, hdata, ?_⟩
          · show (f.body.length : ℤ) = _
            omega
          · rw [Nat.sub_self]
            rfl
      rcases hat.receiveBody (le_refl _) (by rw [Frame.length_bytes]; omega)
        (hserved.delivers hs) (by rw [hrest', hdone]) with ⟨r, hr, hout, hserved'⟩
      exact ⟨r, hr, hout, hserved.trans hserved'⟩
    · have hmore : accMsgHeaderSize - j > m := by omega
      have hne : ¬ accMsgHeaderSize - j - m = 0 := by omega
      simp only [if_pos hmore, if_neg hne]
      refine ⟨_, rfl, .stay (j + m) ⟨?_, hpatchlen.trans h.room, ?_, hpatch, ?_⟩ hrest', hserved⟩
      · rw [Frame.length_bytes]
        omega
      · show accMsgHeaderSize - j - m = accMsgHeaderSize - (j + m)
        omega
      · intro hle
        omega

/-- Between the frames and with no frame to come, a poll receives nothing. -/
theorem Idle.receiveNothing (h : s.Idle) (hs : socket.Delivers) (hstream : socket.stream = []) :
    ∃ r, s.handlePollIn uninit socket = some r ∧ Outcome [] r ∧ socket.Served r.2.2 := by
  have hshould : s.receiveState.shouldReceiveHeader = true := by
    rw [AccLinkReceiveState.shouldReceiveHeader, h.missing]
    rfl
  have hfit : s.receiveState.receivedHeaderLen + accMsgHeaderSize ≤ s.header.length := by
    rw [AccLinkReceiveState.receivedHeaderLen, h.missing, h.room]
    decide
  simp only [RecvLink.handlePollIn, hshould, if_true, h.missing, pollInRecv_eq hfit]
  rcases Socket.recv_cases hs (show 0 < accMsgHeaderSize by decide) with
    ⟨socket', hrecv, hsame, hserved⟩ | ⟨m, _, hm, _, hmstream, _, _, _⟩
  · rw [hrecv]
    exact ⟨_, rfl, .stay 0 ⟨rfl, h⟩ (hsame.trans hstream), hserved⟩
  · rw [hstream] at hmstream
    exact absurd hmstream (Nat.not_le.mpr hm)

/-- Every poll ends well, wherever the link is in the stream. -/
theorem Place.handlePollIn {frames : List Frame} (h : s.Place j frames) (hs : socket.Delivers)
    (hstream : socket.stream = (frames.flatMap Frame.bytes).drop j) :
    ∃ r, s.handlePollIn uninit socket = some r ∧ Outcome frames r ∧ socket.Served r.2.2 := by
  cases frames with
  | nil =>
    rcases h with ⟨hj, hidle⟩
    subst hj
    exact hidle.receiveNothing uninit hs hstream
  | cons f later =>
    rcases h with ⟨hlt, hat⟩
    by_cases hj : j < accMsgHeaderSize
    · exact hat.receiveHeader uninit hj hs hstream
    · have hshould : s.receiveState.shouldReceiveHeader = false := by
        rw [AccLinkReceiveState.shouldReceiveHeader, hat.missing]
        exact decide_eq_false (by omega)
      rw [RecvLink.handlePollIn, hshould]
      exact hat.receiveBody (by omega) hlt hs hstream

end Steps

theorem idle_init (uninit : ℕ → UInt8) : (RecvLink.init uninit).Idle :=
  ⟨AccMsgHeader.length_bytes _, rfl⟩

end RecvLink

/-! ## All polls -/

/-- After some polls: what was handed out, followed by the frames to come, are the frames. -/
structure Polled.Follows (p : Polled) (frames : List Frame) : Prop where
  coming : ∃ j later, p.requests ++ later.map Frame.request = frames.map Frame.request ∧
    p.link.Place j later ∧ p.socket.stream = (later.flatMap Frame.bytes).drop j
  results : ∀ r ∈ p.results, r = .linkMsgReady ∨ r = .linkEagain
  once : p.results.count .linkMsgReady = p.requests.length

/-- A poll takes the link on in its frames and hands over each that is complete. -/
theorem Polled.Follows.poll {p : Polled} {frames : List Frame} (h : p.Follows frames)
    (uninit : ℕ → UInt8) (hs : p.socket.Delivers) :
    ∃ p', p.poll uninit = some p' ∧ p'.Follows frames ∧ p.socket.Served p'.socket := by
  rcases h.coming with ⟨j, later, hsplit, hplace, hstream⟩
  rcases hplace.handlePollIn uninit hs hstream with ⟨r, hr, hout, hserved⟩
  simp only [Polled.poll, hr]
  cases hout with
  | stay j' hplace' hstream' =>
    refine ⟨_, rfl, ⟨⟨j', later, ?_, hplace', hstream'⟩, ?_, ?_⟩, hserved⟩
    · simpa using hsplit
    · intro result hmem
      rw [List.mem_append, List.mem_singleton] at hmem
      exact hmem.elim (h.results result) Or.inr
    · simpa using h.once
  | ready f later' hcons hidle hrequest hstream' =>
    subst hcons
    refine ⟨_, rfl, ⟨⟨0, later', ?_, hidle.place later', hstream'⟩, ?_, ?_⟩, hserved⟩
    · rw [← hsplit, List.map_cons, ← hrequest]
      simp
    · intro result hmem
      rw [List.mem_append, List.mem_singleton] at hmem
      exact hmem.elim (h.results result) Or.inl
    · simpa using h.once

/-- Any number of polls of a socket that has the frames to come. -/
theorem polls_follow (uninit : ℕ → UInt8) (frames : List Frame) {fragments : List Fragment}
    (hs : Socket.Delivers ⟨frames.flatMap Frame.bytes, fragments⟩) (n : ℕ) :
    ∃ p, polls uninit ⟨frames.flatMap Frame.bytes, fragments⟩ n = some p ∧ p.Follows frames ∧
      p.socket.Delivers ∧
      ((frames.flatMap Frame.bytes).length ≤ Socket.chunks ⟨[], fragments⟩ →
        p.socket.stream.length ≤ p.socket.chunks) ∧
      p.socket.fragments.length ≤ fragments.length - n := by
  induction n with
  | zero =>
    refine ⟨_, rfl, ⟨⟨0, frames, rfl, (RecvLink.idle_init uninit).place frames, rfl⟩, ?_, rfl⟩, hs,
      fun h => h, le_refl _⟩
    intro r hr
    exact absurd hr (by simp)
  | succ n ih =>
    rcases ih with ⟨p, hp, hfollows, hdelivers, hpromise, hshort⟩
    rcases hfollows.poll uninit hdelivers with ⟨p', hp', hfollows', hserved⟩
    refine ⟨p', ?_, hfollows', hserved.delivers hdelivers, fun h => hserved.promised (hpromise h),
      ?_⟩
    · rw [polls, hp, Option.bind_some, hp']
    · have hone := hserved.shorter
      omega

/-- A link that has received all bytes has handed out all frames. -/
theorem Polled.Follows.requests_eq {p : Polled} {frames : List Frame} (h : p.Follows frames)
    (hstream : p.socket.stream = []) : p.requests = frames.map Frame.request := by
  rcases h.coming with ⟨j, later, hsplit, hplace, hrest⟩
  cases later with
  | nil => simpa using hsplit
  | cons f later =>
    -- inside a frame there are bytes left
    rw [hstream, eq_comm, List.drop_eq_nil_iff, List.flatMap_cons, List.length_append] at hrest
    have hlt := hplace.1
    omega

/-- The frames are handed out whole, in order and once each, however the stream is cut: no
receive call is offered room it does not have, every poll reports a message or asks to go on,
what was handed out begins the frames, and it is all of them once all bytes are received, which
happens when the receive calls keep bringing bytes. -/
theorem handlePollIn_reassembles (uninit : ℕ → UInt8) (frames : List Frame)
    (fragments : List Fragment)
    (hfragments : ∀ f ∈ fragments, (∃ size, f = .chunk size) ∨ f = .failed .eagain) (n : ℕ) :
    ∃ p, polls uninit ⟨frames.flatMap Frame.bytes, fragments⟩ n = some p ∧
      (∀ r ∈ p.results, r = .linkMsgReady ∨ r = .linkEagain) ∧
      p.results.count .linkMsgReady = p.requests.length ∧
      p.requests <+: frames.map Frame.request ∧
      (p.socket.stream = [] → p.requests = frames.map Frame.request) ∧
      (fragments.length ≤ n →
        (frames.flatMap Frame.bytes).length ≤ Socket.chunks ⟨[], fragments⟩ →
        p.requests = frames.map Frame.request) := by
  rcases polls_follow uninit frames
    (show Socket.Delivers ⟨frames.flatMap Frame.bytes, fragments⟩ from hfragments) n with
    ⟨p, hp, hfollows, _, hpromise, hshort⟩
  refine ⟨p, hp, hfollows.results, hfollows.once, ?_, hfollows.requests_eq, ?_⟩
  · rcases hfollows.coming with ⟨_, later, hsplit, _, _⟩
    exact ⟨_, hsplit⟩
  · intro hn hchunks
    apply hfollows.requests_eq
    have hnone : p.socket.fragments = [] := List.length_eq_zero_iff.mp (by omega)
    have hleft := hpromise hchunks
    rw [Socket.chunks, hnone] at hleft
    exact List.length_eq_zero_iff.mp (Nat.le_zero.mp hleft)

/-- Two frames, the second longer than the buffer is at first, in pieces of up to 1000 bytes. -/
theorem handlePollIn_reassembles_sample : ∃ p,
    polls (fun _ => 0) ⟨[(⟨{ bodyLen := 3 }, [1, 2, 3], rfl, by decide, by decide⟩ : Frame),
      ⟨{ bodyLen := 1500 }, List.replicate 1500 7, by rw [List.length_replicate]; rfl,
        by rw [List.length_replicate]; decide,
        by rw [List.length_replicate]; decide⟩].flatMap Frame.bytes,
      [.chunk 5, .failed .eagain, .chunk 1000, .chunk 2, .chunk 1000]⟩ 7 = some p ∧
    p.results.count .linkMsgReady = p.requests.length := by
  rcases handlePollIn_reassembles (fun _ => 0) _
      [.chunk 5, .failed .eagain, .chunk 1000, .chunk 2, .chunk 1000]
      (by
        intro f hf
        simp only [List.mem_cons, List.not_mem_nil, or_false] at hf
        rcases hf with rfl | rfl | rfl | rfl | rfl
        · exact Or.inl ⟨5, rfl⟩
        · exact Or.inr rfl
        · exact Or.inl ⟨1000, rfl⟩
        · exact Or.inl ⟨2, rfl⟩
        · exact Or.inl ⟨1000, rfl⟩) 7 with ⟨p, hp, _, honce, _⟩
  exact ⟨p, hp, honce⟩

end AscendShmem.AccLinks
