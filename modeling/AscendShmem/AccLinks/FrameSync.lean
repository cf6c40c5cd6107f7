import AscendShmem.AccLinks.Receive
import AscendShmem.Lib.Run

/-!
# Frame synchronisation of a store link

The worker polls a link whose incoming bytes are arbitrary: `HandlePollIn` decides from the header's
`bodyLen` where the next header begins. A receive call may fail, the buffer may not grow, and `errno`
may be what an earlier call has left, which is what a receive call of length 0 reports. The worker
breaks a link on `ACC_LINK_ERROR` and ignores `ACC_MALLOC_FAIL`.

The link is in step with the frames up to the first header that names no body, or a body for which
there is no buffer: an empty body is waited for, and behind a body without a buffer the header is reset
and the body read as headers.
-/

namespace AscendShmem.AccLinks.FrameSync

open Lib

/-! ## The incoming bytes -/

/-- `n` bytes of the stream from place `p` on. -/
def bytesAt (stream : ℕ → UInt8) (p n : ℕ) : List UInt8 := (List.range n).map fun i => stream (p + i)

/-- The header that begins at place `p`. -/
def headerAt (stream : ℕ → UInt8) (p : ℕ) : AccMsgHeader :=
  accMsgHeaderCodec.dec (bytesAt stream p accMsgHeaderSize)

/-- `bodyLen` of the header at a place of the stream. -/
def bodyLenAt (stream : ℕ → UInt8) (p : ℕ) : ℕ := (headerAt stream p).bodyLen.toNat

/-- A frame begins at a place. -/
inductive FrameStart (stream : ℕ → UInt8) : ℕ → Prop where
  | first : FrameStart stream 0
  | next {p : ℕ} : FrameStart stream p →
    FrameStart stream (p + accMsgHeaderSize + bodyLenAt stream p)

/-- What a receive call meets. -/
inductive Arrival where
  | arrived (size : ℕ)
  | closed
  | failed (errno : Errno)

/-- The number of bytes that `recv` stores, or `errno` where it stores none: it sets it when it fails,
and leaves it when the peer has closed or `len` is 0. -/
def recv (arrival : Arrival) (errno : Errno) (len : ℕ) : Except Errno ℕ :=
  if len = 0 then .error errno
  else
    match arrival with
    | .arrived size => if size = 0 then .error .eagain else .ok (min size len)
    | .closed => .error errno
    | .failed failure => .error failure

/-! ## The link -/

/-- `AccDataBuffer`, whose array is gone when it could not grow. -/
structure Buffer where
  data : Option (List UInt8)
  memSize : ℕ
  dataSize : ℕ

/-- A link and the place in the stream up to which it has read; `requests` were handed out. -/
structure Link where
  receiveState : AccLinkReceiveState
  header : List UInt8
  buffer : Buffer
  place : ℕ
  broken : Bool
  requests : List (AccMsgHeader × List UInt8)

section Poll

variable (uninit : ℕ → UInt8)

/-- A link that has received nothing; the buffer has its first 1024 bytes, with anything in them. -/
def Link.init : Link :=
  ⟨{}, ({} : AccMsgHeader).bytes, ⟨some (newArray uninit 1024), 1024, 0⟩, 0, false, []⟩

/-- `AllocIfNeed`; `grows` says whether `new` succeeds. -/
def Buffer.allocIfNeed (b : Buffer) (grows : Bool) (newSize : ℕ) : Bool × Buffer :=
  if newSize > maxRecvBodyLen then (false, b)
  else if b.data = none ∨ newSize > b.memSize then
    let memSize := max b.memSize newSize
    (grows, ⟨if grows then some (newArray uninit memSize) else none, memSize, b.dataSize⟩)
  else (true, b)

variable (stream : ℕ → UInt8)

/-- What the world brings to a poll: what the two receive calls meet, `errno`, and memory. -/
structure Poll where
  header : Arrival
  body : Arrival
  errno : Errno
  grows : Bool

/-- The header as the struct reads it from the bytes received. -/
def Link.accMsgHeader (l : Link) : AccMsgHeader := accMsgHeaderCodec.dec l.header

/-- The second half of `HandlePollIn`, no value where it would write outside of the buffer. -/
def Link.receiveBody (l : Link) (e : Poll) : Option (LinkResult × Link) :=
  let bodyLen := l.accMsgHeader.bodyLen.toNat
  let dataPtr := bodyLen - l.receiveState.bodyToBeReceived
  let len := l.receiveState.bodyToBeReceived.toNat
  if l.receiveState.bodyToBeReceived < 0 ∨ dataPtr < 0 then none
  else
    match recv e.body e.errno len with
    | .error errno => some (pollInFailed errno, l)
    | .ok n =>
      match l.buffer.data with
      | none => none
      | some data =>
        if data.length < dataPtr.toNat + len then none
        else
          let l := { l with
            receiveState := l.receiveState.bodySatisfied n
            buffer := { l.buffer with
              data := some (patch data dataPtr.toNat (bytesAt stream l.place n)) }
            place := l.place + n }
          if l.receiveState.bodyToBeReceived = 0 then
            some (.linkMsgReady, { l with
              receiveState := l.receiveState.resetHeader
              buffer := { l.buffer with dataSize := bodyLen } })
          else some (.linkEagain, l)

/-- A complete header. -/
def Link.headerReceived (l : Link) (e : Poll) : Option (LinkResult × Link) :=
  let bodyLen := l.accMsgHeader.bodyLen.toNat
  match l.buffer.allocIfNeed uninit e.grows bodyLen with
  | (false, buffer) =>
    some (.mallocFail, { l with receiveState := l.receiveState.resetHeader, buffer := buffer })
  | (true, buffer) => Link.receiveBody stream { l with
      receiveState := { l.receiveState with bodyToBeReceived := bodyLen }
      buffer := { buffer with dataSize := 0 } } e

/-- The link with the header bytes of a receive call. -/
def Link.receivedHeader (l : Link) (n : ℕ) : Link :=
  { l with
    receiveState := l.receiveState.headerSatisfied n
    header := patch l.header l.receiveState.receivedHeaderLen (bytesAt stream l.place n)
    place := l.place + n }

/-- `HandlePollIn` -/
def Link.handlePollIn (l : Link) (e : Poll) : Option (LinkResult × Link) :=
  if l.receiveState.shouldReceiveHeader then
    if l.header.length < l.receiveState.receivedHeaderLen + l.receiveState.headerToBeReceived then none
    else
      match recv e.header e.errno l.receiveState.headerToBeReceived with
      | .error errno => some (pollInFailed errno, l)
      | .ok n =>
        let l := l.receivedHeader stream n
        if l.receiveState.headerToBeReceived = 0 then l.headerReceived uninit stream e
        else some (.linkEagain, l)
  else l.receiveBody stream e

/-- What `ProcessEvent` does with the result. -/
def Link.processResult (l : Link) : LinkResult → Link
  | .linkMsgReady => { l with requests := l.requests ++
      [(l.accMsgHeader, (l.buffer.data.getD []).take l.buffer.dataSize)] }
  | .linkError => { l with broken := true }
  | _ => l

/-- A poll of a link that is not broken. -/
def step (l : Link) (e : Poll) : Option Link :=
  if l.broken then none
  else (l.handlePollIn uninit stream e).map fun r => r.2.processResult r.1

/-! ## The property of a poll -/

/-- The body length of the header that a poll completes. -/
def Link.completes (l : Link) (e : Poll) : Option ℕ :=
  if l.receiveState.shouldReceiveHeader then
    match recv e.header e.errno l.receiveState.headerToBeReceived with
    | .ok n =>
      let l := l.receivedHeader stream n
      if l.receiveState.headerToBeReceived = 0 then some l.accMsgHeader.bodyLen.toNat else none
    | .error _ => none
  else none

/-- There is a buffer for a body. -/
def Link.fits (l : Link) (e : Poll) (bodyLen : ℕ) : Prop :=
  bodyLen ≤ maxRecvBodyLen ∧ ((l.buffer.data = none ∨ l.buffer.memSize < bodyLen) → e.grows)

/-- The link waits for a header, of which it has nothing yet. -/
def Link.Waits (l : Link) : Prop := l.receiveState.headerToBeReceived = accMsgHeaderSize

/-- A poll stays inside the buffers, takes for a header what is one, hands out whole frames, breaks the
link at a body without a buffer and passes an empty body. -/
structure PollGood (l l' : Link) (e : Poll) : Prop where
  header : l.receiveState.shouldReceiveHeader →
    l.receiveState.receivedHeaderLen ≤ l.place ∧
    FrameStart stream (l.place - l.receiveState.receivedHeaderLen)
  message : l'.requests = l.requests ∨ ∃ p, FrameStart stream p ∧
    l'.requests = l.requests ++
      [(headerAt stream p, bytesAt stream (p + accMsgHeaderSize) (bodyLenAt stream p))] ∧
    l'.place = p + accMsgHeaderSize + bodyLenAt stream p
  breaks : ∀ bodyLen ∈ l.completes stream e, ¬ l.fits e bodyLen → l'.broken
  empty : 0 ∈ l.completes stream e → ¬ l'.broken ∧ l'.Waits

/-- A poll that finds the link whole keeps its promises. -/
def Good (l : Link) (e : Poll) : Prop :=
  ¬ l.broken → ∃ l', step uninit stream l e = some l' ∧ PollGood stream l l' e

/-- A header that is completed names a body, and there is a buffer for it. -/
def BodyFits (l : Link) (e : Poll) : Prop :=
  ¬ l.broken → ∀ bodyLen ∈ l.completes stream e, 0 < bodyLen ∧ l.fits e bodyLen

end Poll

/-! ## Receive calls -/

section Receive

variable {arrival : Arrival} {errno : Errno} {len n : ℕ}

theorem recv_zero : recv arrival errno 0 = .error errno := rfl

/-- A `recv` that delivers gives at least one byte, and no more than it was asked for. -/
theorem recv_le (h : recv arrival errno len = .ok n) : 0 < n ∧ n ≤ len := by
  unfold recv at h
  split at h
  · cases h
  · cases arrival with
    | arrived size =>
      simp only at h
      split at h
      · cases h
      · injection h with h
        omega
    | closed => cases h
    | failed failure => cases h

end Receive

section Bytes

variable {stream : ℕ → UInt8} {p n m : ℕ}

@[simp] theorem length_bytesAt : (bytesAt stream p n).length = n := by
  rw [bytesAt, List.length_map, List.length_range]

theorem bytesAt_add :
    bytesAt stream p (n + m) = bytesAt stream p n ++ bytesAt stream (p + n) m := by
  simp only [bytesAt, List.range_add, List.map_append, List.map_map, Function.comp_def, Nat.add_assoc]

/-- A buffer filled up to an offset, and from there with the bytes that follow. -/
theorem take_patch_bytesAt {bs : List UInt8} (h : n ≤ bs.length)
    (hbs : bs.take n = bytesAt stream p n) :
    (patch bs n (bytesAt stream (p + n) m)).take (n + m) = bytesAt stream p (n + m) := by
  have htake := @take_patch bs (bytesAt stream (p + n) m) n h
  rw [length_bytesAt] at htake
  rw [htake, hbs, bytesAt_add]

end Bytes

/-! ## The place in the frames -/

section Place

variable {uninit stream : ℕ → UInt8} {l l' : Link} {e : Poll} {start j n : ℕ}

/-- The array is there, with the size the buffer has noted. -/
def Buffer.Sound (b : Buffer) : Prop := ∃ data, b.data = some data ∧ data.length = b.memSize

/-- The link has received `j` bytes of the frame that begins at `start`. -/
structure At (stream : ℕ → UInt8) (l : Link) (start j : ℕ) : Prop where
  isStart : FrameStart stream start
  place : l.place = start + j
  inside : j < accMsgHeaderSize + bodyLenAt stream start
  room : l.header.length = accMsgHeaderSize
  missing : l.receiveState.headerToBeReceived = accMsgHeaderSize - j
  header : l.header.take j = (bytesAt stream start accMsgHeaderSize).take j
  sound : l.buffer.Sound
  body : accMsgHeaderSize ≤ j →
    l.receiveState.bodyToBeReceived = accMsgHeaderSize + bodyLenAt stream start - j ∧
    bodyLenAt stream start ≤ l.buffer.memSize ∧
    ∀ data ∈ l.buffer.data, data.take (j - accMsgHeaderSize)
      = bytesAt stream (start + accMsgHeaderSize) (j - accMsgHeaderSize)

/-- What a poll makes of a link in step with the frames: it is still inside of the frame, or it has
handed the frame out and waits for the next. -/
inductive Outcome (stream : ℕ → UInt8) (l : Link) (start : ℕ) : LinkResult × Link → Prop
  | stay {result : LinkResult} {l' : Link} (j : ℕ) : result ≠ .linkMsgReady → At stream l' start j →
      l'.broken = l.broken → l'.requests = l.requests → Outcome stream l start (result, l')
  | ready {l' : Link} : At stream l' (start + accMsgHeaderSize + bodyLenAt stream start) 0 →
      l'.accMsgHeader = headerAt stream start →
      (l'.buffer.data.getD []).take l'.buffer.dataSize
        = bytesAt stream (start + accMsgHeaderSize) (bodyLenAt stream start) →
      l'.broken = l.broken → l'.requests = l.requests → Outcome stream l start (.linkMsgReady, l')

theorem pollInFailed_ne_ready {errno : Errno} : pollInFailed errno ≠ .linkMsgReady := by
  cases errno <;> decide

/-- With all its bytes received, the header is the one that was sent. -/
theorem At.accMsgHeader_eq (h : At stream l start j) (hj : accMsgHeaderSize ≤ j) :
    l.accMsgHeader = headerAt stream start := by
  have hheader := h.header
  rw [List.take_of_length_le (by rw [h.room]; exact hj),
    List.take_of_length_le (by rw [length_bytesAt]; exact hj)] at hheader
  rw [Link.accMsgHeader, hheader, headerAt]

/-- In the body of a frame, a poll receives body. -/
theorem At.receiveBody (h : At stream l start j) (hj : accMsgHeaderSize ≤ j) :
    ∃ r, l.receiveBody stream e = some r ∧ Outcome stream l start r := by
  obtain ⟨hmissing, hroom, hdata⟩ := h.body hj
  obtain ⟨data, hsome, hlength⟩ := h.sound
  have hinside := h.inside
  have hbodyLen : l.accMsgHeader.bodyLen.toNat = bodyLenAt stream start := by
    rw [h.accMsgHeader_eq hj, bodyLenAt]
  -- the counters in terms of `j`
  have hto : l.receiveState.bodyToBeReceived.toNat = accMsgHeaderSize + bodyLenAt stream start - j := by
    omega
  have hptr : ((bodyLenAt stream start : ℤ) - l.receiveState.bodyToBeReceived).toNat
      = j - accMsgHeaderSize := by omega
  have hnonneg : ¬ (l.receiveState.bodyToBeReceived < 0 ∨
      (bodyLenAt stream start : ℤ) - l.receiveState.bodyToBeReceived < 0) := by omega
  have hfit : ¬ data.length
      < j - accMsgHeaderSize + (accMsgHeaderSize + bodyLenAt stream start - j) := by omega
  simp only [Link.receiveBody, hbodyLen, if_neg hnonneg, hto, hptr]
  cases hrecv : recv e.body e.errno (accMsgHeaderSize + bodyLenAt stream start - j) with
  | error errno => exact ⟨_, rfl, .stay j pollInFailed_ne_ready h rfl rfl⟩
  | ok n =>
    obtain ⟨hn, hnlen⟩ := recv_le hrecv
    simp only [hsome, if_neg hfit]
    have hplace : l.place = start + accMsgHeaderSize + (j - accMsgHeaderSize) := by
      rw [h.place]
      omega
    have hpatch : (patch data (j - accMsgHeaderSize) (bytesAt stream l.place n)).take
        (j - accMsgHeaderSize + n) = bytesAt stream (start + accMsgHeaderSize)
          (j - accMsgHeaderSize + n) := by
      rw [hplace]
      exact take_patch_bytesAt (by omega) (hdata data hsome)
    have hpatchlen : (patch data (j - accMsgHeaderSize) (bytesAt stream l.place n)).length
        = l.buffer.memSize :=
      (length_patch (by rw [length_bytesAt]; omega)).trans hlength
    simp only [AccLinkReceiveState.bodySatisfied]
    by_cases hdone : j + n = accMsgHeaderSize + bodyLenAt stream start
    · have hzero : ¬ l.receiveState.bodyToBeReceived > (n : ℤ) := by omega
      have hwhole : j - accMsgHeaderSize + n = bodyLenAt stream start := by omega
      rw [hwhole] at hpatch
      simp only [if_neg hzero, if_true]
      refine ⟨_, rfl, .ready ?_ (h.accMsgHeader_eq hj) hpatch rfl rfl⟩
      refine ⟨h.isStart.next, ?_, Nat.add_pos_left (by decide) _, h.room, rfl, by simp,
        ⟨_, rfl, hpatchlen⟩, fun hle => absurd hle (by decide)⟩
      show l.place + n = _
      rw [h.place]
      omega
    · have hmore : l.receiveState.bodyToBeReceived > (n : ℤ) := by omega
      have hne : ¬ l.receiveState.bodyToBeReceived - (n : ℤ) = 0 := by omega
      simp only [if_pos hmore, if_neg hne]
      refine ⟨_, rfl, .stay (j + n) (by decide) ?_ rfl rfl⟩
      refine ⟨h.isStart, ?_, by omega, h.room, ?_, ?_, ⟨_, rfl, hpatchlen⟩, fun _ => ⟨?_, hroom, ?_⟩⟩
      · show l.place + n = _
        rw [h.place, Nat.add_assoc]
      · show l.receiveState.headerToBeReceived = _
        rw [h.missing]
        omega
      · have hall : ∀ bs : List UInt8, bs.length = accMsgHeaderSize → bs.take (j + n) = bs.take j := by
          intro bs hbs
          rw [List.take_of_length_le (by omega), List.take_of_length_le (by omega)]
        show l.header.take (j + n) = _
        rw [hall _ h.room, hall _ length_bytesAt, h.header]
      · show l.receiveState.bodyToBeReceived - (n : ℤ) = _
        omega
      · intro data' hdata'
        cases hdata'
        rw [show j + n - accMsgHeaderSize = j - accMsgHeaderSize + n from by omega]
        exact hpatch

variable (uninit) in
/-- The buffer takes a body exactly when there is room for it or can be. -/
theorem Buffer.allocIfNeed_of_fits (h : l.buffer.Sound) (hfits : l.fits e n) :
    ∃ b, l.buffer.allocIfNeed uninit e.grows n = (true, b) ∧ b.Sound ∧ n ≤ b.memSize := by
  obtain ⟨hmax, hgrows⟩ := hfits
  rw [Buffer.allocIfNeed, if_neg (Nat.not_lt.mpr hmax)]
  split_ifs with hneed hnew
  · refine ⟨_, by rw [hnew], ⟨newArray uninit (max l.buffer.memSize n), rfl, ?_⟩,
      Nat.le_max_right _ _⟩
    rw [newArray, List.length_map, List.length_range]
  · exact absurd (hgrows hneed) hnew
  · exact ⟨_, rfl, h, by omega⟩

variable (uninit) in
/-- No buffer for a body that is too long or cannot be allocated. -/
theorem Buffer.allocIfNeed_of_not_fits (hfits : ¬ l.fits e n) :
    ∃ b, l.buffer.allocIfNeed uninit e.grows n = (false, b) := by
  rw [Buffer.allocIfNeed]
  split_ifs with hmax hneed hnew
  · exact ⟨_, rfl⟩
  · exact absurd ⟨by omega, fun _ => hnew⟩ hfits
  · exact ⟨_, by rw [Bool.eq_false_of_not_eq_true hnew]⟩
  · exact absurd ⟨by omega, fun hfull => absurd hfull hneed⟩ hfits

theorem headerReceived_of_false {b : Buffer}
    (h : l.buffer.allocIfNeed uninit e.grows l.accMsgHeader.bodyLen.toNat = (false, b)) :
    l.headerReceived uninit stream e = some (.mallocFail,
      { l with receiveState := l.receiveState.resetHeader, buffer := b }) := by
  simp only [Link.headerReceived, h]

/-- With a buffer the poll goes on to the body. -/
theorem headerReceived_of_true {b : Buffer}
    (h : l.buffer.allocIfNeed uninit e.grows l.accMsgHeader.bodyLen.toNat = (true, b)) :
    l.headerReceived uninit stream e = Link.receiveBody stream { l with
      receiveState := { l.receiveState with bodyToBeReceived := l.accMsgHeader.bodyLen.toNat }
      buffer := { b with dataSize := 0 } } e := by
  simp only [Link.headerReceived, h]

/-- In the header of a frame, a poll asks for what is missing of it. -/
theorem At.asks (h : At stream l start j) (hj : j < accMsgHeaderSize) :
    l.receiveState.shouldReceiveHeader = true ∧ l.receiveState.receivedHeaderLen = j ∧
    l.header.length = l.receiveState.receivedHeaderLen + l.receiveState.headerToBeReceived := by
  have hoff : l.receiveState.receivedHeaderLen = j := by
    rw [AccLinkReceiveState.receivedHeaderLen, h.missing]
    split <;> omega
  refine ⟨?_, hoff, ?_⟩
  · rw [AccLinkReceiveState.shouldReceiveHeader, h.missing]
    exact decide_eq_true (by omega)
  · rw [hoff, h.room, h.missing]
    omega

theorem At.asks_not (h : At stream l start j) (hj : accMsgHeaderSize ≤ j) :
    l.receiveState.shouldReceiveHeader = false := by
  rw [AccLinkReceiveState.shouldReceiveHeader, h.missing]
  exact decide_eq_false (by omega)

/-- The header bytes that follow. -/
theorem At.receivedHeader (h : At stream l start j) (hj : j < accMsgHeaderSize)
    (hn : n ≤ accMsgHeaderSize - j) :
    (l.receivedHeader stream n).header.length = accMsgHeaderSize ∧
    (l.receivedHeader stream n).header.take (j + n)
      = (bytesAt stream start accMsgHeaderSize).take (j + n) ∧
    (l.receivedHeader stream n).receiveState.headerToBeReceived = accMsgHeaderSize - (j + n) ∧
    (l.receivedHeader stream n).place = start + (j + n) := by
  have hoff := (h.asks hj).2.1
  have hroom := h.room
  have hfront : ∀ m, m ≤ accMsgHeaderSize →
      (bytesAt stream start accMsgHeaderSize).take m = bytesAt stream start m := by
    intro m hm
    rw [← Nat.add_sub_cancel' hm, bytesAt_add, List.take_append_of_le_length
      (by rw [length_bytesAt]), List.take_of_length_le (by rw [length_bytesAt])]
  simp only [Link.receivedHeader, hoff, AccLinkReceiveState.headerSatisfied, h.missing]
  refine ⟨?_, ?_, by split <;> omega, by rw [h.place, Nat.add_assoc]⟩
  · rw [length_patch (by rw [length_bytesAt]; omega), hroom]
  · rw [hfront _ (by omega), h.place]
    refine take_patch_bytesAt (by omega) ?_
    rw [h.header, hfront _ (by omega)]

variable (uninit) in
/-- A poll that completes a header goes on to the body. -/
theorem At.completes (h : At stream l start j) {bodyLen : ℕ} (hc : bodyLen ∈ l.completes stream e) :
    ∃ n, j + n = accMsgHeaderSize ∧
      l.handlePollIn uninit stream e
        = (l.receivedHeader stream n).headerReceived uninit stream e ∧
      (l.receivedHeader stream n).accMsgHeader = headerAt stream start ∧
      (l.receivedHeader stream n).receiveState.headerToBeReceived = 0 ∧
      bodyLen = bodyLenAt stream start := by
  rw [Link.completes] at hc
  split at hc
  case isFalse => cases hc
  case isTrue hshould =>
    have hj : j < accMsgHeaderSize := by
      by_contra hj
      rw [h.asks_not (Nat.le_of_not_lt hj)] at hshould
      cases hshould
    split at hc
    case h_2 => cases hc
    case h_1 n hrecv =>
      have hn := (recv_le hrecv).2
      rw [h.missing] at hn
      obtain ⟨hlen, hhead, hto, -⟩ := h.receivedHeader hj hn
      obtain ⟨hzero, hbody⟩ := Option.ite_none_right_eq_some.mp hc
      have hdone : j + n = accMsgHeaderSize := by omega
      have hparsed : (l.receivedHeader stream n).accMsgHeader = headerAt stream start := by
        rw [hdone, List.take_of_length_le hlen.le,
          List.take_of_length_le (by rw [length_bytesAt])] at hhead
        rw [Link.accMsgHeader, hhead, headerAt]
      refine ⟨n, hdone, ?_, hparsed, hzero, ?_⟩
      · rw [Link.handlePollIn, if_pos hshould, if_neg (by rw [(h.asks hj).2.2]; omega), hrecv]
        exact if_pos hzero
      · rw [← Option.some.inj hbody, hparsed, bodyLenAt]

variable (uninit) in
/-- A poll of a link in step with the frames, where the header that it completes names a body for which
there is a buffer. -/
theorem At.handlePollIn (h : At stream l start j)
    (hfits : ∀ bodyLen ∈ l.completes stream e, 0 < bodyLen ∧ l.fits e bodyLen) :
    ∃ r, l.handlePollIn uninit stream e = some r ∧ Outcome stream l start r := by
  rcases Nat.lt_or_ge j accMsgHeaderSize with hj | hj
  · obtain ⟨hshould, hoff, hroom⟩ := h.asks hj
    cases hrecv : recv e.header e.errno l.receiveState.headerToBeReceived with
    | error errno =>
      rw [Link.handlePollIn, if_pos hshould, if_neg (by omega), hrecv]
      exact ⟨_, rfl, .stay j pollInFailed_ne_ready h rfl rfl⟩
    | ok n =>
      obtain ⟨hn, hnlen⟩ := recv_le hrecv
      rw [h.missing] at hnlen
      obtain ⟨hlen, hhead, hto, hplace⟩ := h.receivedHeader hj hnlen
      by_cases hdone : j + n = accMsgHeaderSize
      · -- the header is complete: the buffer gets room, and the body starts
        have hzero : (l.receivedHeader stream n).receiveState.headerToBeReceived = 0 := by omega
        have hc : (l.receivedHeader stream n).accMsgHeader.bodyLen.toNat ∈ l.completes stream e := by
          rw [Link.completes, if_pos hshould, hrecv]
          exact if_pos hzero
        obtain ⟨m, hm, hpoll, hparsed, -, hbodyLen⟩ := h.completes uninit hc
        have hmn : m = n := by omega
        subst hmn
        obtain ⟨hpos, hfits⟩ := hfits _ hc
        rw [hbodyLen] at hpos hfits
        obtain ⟨b, halloc, hsound, hmem⟩ := Buffer.allocIfNeed_of_fits uninit h.sound hfits
        have hat : At stream { (l.receivedHeader stream m) with
            receiveState := { (l.receivedHeader stream m).receiveState with
              bodyToBeReceived := bodyLenAt stream start }
            buffer := { b with dataSize := 0 } } start accMsgHeaderSize := by
          rw [hdone] at hhead hto hplace
          refine ⟨h.isStart, hplace, by omega, hlen, hto, hhead, hsound, fun _ => ⟨by simp, hmem, ?_⟩⟩
          intro data _
          simp [bytesAt]
        obtain ⟨r, hr, hout⟩ := hat.receiveBody (e := e) le_rfl
        refine ⟨r, ?_, ?_⟩
        · rw [hpoll, headerReceived_of_true (by rw [hparsed]; exact halloc), hparsed]
          exact hr
        · cases hout with
          | stay j' hne hat' hb hreq => exact .stay j' hne hat' hb hreq
          | ready hat' hheader hbody hb hreq => exact .ready hat' hheader hbody hb hreq
      · have hne : ¬ (l.receivedHeader stream n).receiveState.headerToBeReceived = 0 := by omega
        refine ⟨(.linkEagain, l.receivedHeader stream n), ?_, .stay (j + n) (by decide) ?_ rfl rfl⟩
        · rw [Link.handlePollIn, if_pos hshould, if_neg (by omega), hrecv]
          exact if_neg hne
        · exact ⟨h.isStart, hplace, by omega, hlen, hto, hhead, h.sound, fun hle => by omega⟩
  · rw [Link.handlePollIn, if_neg (by rw [h.asks_not hj]; decide)]
    exact h.receiveBody hj

variable (uninit) in
/-- A poll that completes a header without a buffer for its body is not noticed. -/
theorem At.unnoticed (h : At stream l start j) {bodyLen : ℕ} (hc : bodyLen ∈ l.completes stream e)
    (hfits : ¬ l.fits e bodyLen) :
    ∃ l', l.handlePollIn uninit stream e = some (.mallocFail, l') ∧ l'.broken = l.broken := by
  obtain ⟨n, -, hpoll, hparsed, -, hbodyLen⟩ := h.completes uninit hc
  obtain ⟨b, halloc⟩ := Buffer.allocIfNeed_of_not_fits uninit hfits
  rw [hbodyLen] at halloc
  exact ⟨_, hpoll.trans (headerReceived_of_false (by rw [hparsed]; exact halloc)), rfl⟩

theorem receiveBody_empty (hlen : l.accMsgHeader.bodyLen.toNat = 0)
    (hto : l.receiveState.bodyToBeReceived = 0) :
    l.receiveBody stream e = some (pollInFailed e.errno, l) := by
  simp only [Link.receiveBody, hlen, hto]
  rfl

variable (uninit) in
/-- An empty body is received by a call of length 0, which reports what `errno` was before. -/
theorem At.stalls (h : At stream l start j) (hc : 0 ∈ l.completes stream e) (hfits : l.fits e 0) :
    ∃ l', l.handlePollIn uninit stream e = some (pollInFailed e.errno, l') ∧
      l'.receiveState.headerToBeReceived = 0 := by
  obtain ⟨n, -, hpoll, hparsed, hzero, hbodyLen⟩ := h.completes uninit hc
  obtain ⟨b, halloc, -, -⟩ := Buffer.allocIfNeed_of_fits uninit h.sound hfits
  rw [hbodyLen] at halloc
  have hbody : (l.receivedHeader stream n).accMsgHeader.bodyLen.toNat = 0 := by
    rw [hparsed, hbodyLen, bodyLenAt]
  refine ⟨_, hpoll.trans ((headerReceived_of_true (by rw [hparsed]; exact halloc)).trans
    (receiveBody_empty hbody ?_)), hzero⟩
  show (((l.receivedHeader stream n).accMsgHeader.bodyLen.toNat : ℕ) : ℤ) = 0
  rw [hbody, Nat.cast_zero]

end Place

/-! ## All polls -/

section Runs

variable {uninit stream : ℕ → UInt8} {l l' : Link} {e : Poll}

/-- A link that is read is in step with the frames. -/
def Inv (stream : ℕ → UInt8) (l : Link) : Prop := ¬ l.broken → ∃ start j, At stream l start j

theorem inv_init : Inv stream (Link.init uninit) := fun _ =>
  ⟨0, 0, .first, rfl, Nat.add_pos_left (by decide) _, AccMsgHeader.length_bytes _, rfl, by simp,
    ⟨_, rfl, by rw [newArray, List.length_map, List.length_range]; rfl⟩, fun h => absurd h (by decide)⟩

theorem processResult_of_ne {result : LinkResult} (h : result ≠ .linkMsgReady) :
    l.processResult result = { l with broken := l.broken || decide (result = .linkError) } := by
  cases result <;> simp_all [Link.processResult]

variable (uninit) in
/-- A poll under the condition. -/
theorem step_of_bodyFits (hinv : Inv stream l) (hbroken : ¬ l.broken) (hfits : BodyFits stream l e) :
    ∃ l', step uninit stream l e = some l' ∧ Inv stream l' ∧ PollGood stream l l' e := by
  obtain ⟨start, j, h⟩ := hinv hbroken
  have hfits := hfits hbroken
  have hheader : l.receiveState.shouldReceiveHeader →
      l.receiveState.receivedHeaderLen ≤ l.place ∧
      FrameStart stream (l.place - l.receiveState.receivedHeaderLen) := by
    intro hshould
    have hj : j < accMsgHeaderSize := by
      by_contra hj
      rw [h.asks_not (Nat.le_of_not_lt hj)] at hshould
      cases hshould
    rw [(h.asks hj).2.1, h.place, Nat.add_sub_cancel]
    exact ⟨Nat.le_add_left _ _, h.isStart⟩
  have hgood : ∀ l', (l'.requests = l.requests ∨ ∃ p, FrameStart stream p ∧ l'.requests = l.requests ++
      [(headerAt stream p, bytesAt stream (p + accMsgHeaderSize) (bodyLenAt stream p))] ∧
      l'.place = p + accMsgHeaderSize + bodyLenAt stream p) → PollGood stream l l' e := fun l' hmsg =>
    ⟨hheader, hmsg, fun _ hc hnot => absurd (hfits _ hc).2 hnot,
      fun hc => absurd (hfits 0 hc).1 (lt_irrefl 0)⟩
  obtain ⟨r, hr, hout⟩ := h.handlePollIn uninit hfits
  rw [step, if_neg hbroken, hr]
  refine ⟨_, rfl, ?_⟩
  cases hout with
  | stay j' hne hat _ hreq =>
    simp only [processResult_of_ne hne]
    exact ⟨fun _ => ⟨start, j', ⟨hat.isStart, hat.place, hat.inside, hat.room, hat.missing, hat.header,
      hat.sound, hat.body⟩⟩, hgood _ (.inl hreq)⟩
  | @ready l' hat hparsed hbody _ hreq =>
    refine ⟨fun _ => ⟨_, 0, ⟨hat.isStart, hat.place, hat.inside, hat.room, hat.missing, hat.header,
      hat.sound, hat.body⟩⟩, hgood _ (.inr ⟨start, h.isStart, ?_, hat.place⟩)⟩
    show l'.requests ++ [(l'.accMsgHeader, _)] = _
    rw [hreq, hparsed, hbody]

/-- In step with the frames, a poll is good exactly when the header that it completes names a body for
which there is a buffer. -/
theorem good_iff (hinv : Inv stream l) : Good uninit stream l e ↔ BodyFits stream l e := by
  constructor
  · intro hgood hbroken bodyLen hc
    obtain ⟨l', hstep, hpoll⟩ := hgood hbroken
    obtain ⟨start, j, h⟩ := hinv hbroken
    rw [step, if_neg hbroken] at hstep
    have hfits : l.fits e bodyLen := by
      by_contra hfits
      obtain ⟨after, hafter, hkept⟩ := h.unnoticed uninit hc hfits
      rw [hafter] at hstep
      cases hstep
      exact hbroken (hkept ▸ hpoll.breaks bodyLen hc hfits)
    refine ⟨Nat.pos_of_ne_zero ?_, hfits⟩
    rintro rfl
    obtain ⟨after, hafter, hto⟩ := h.stalls uninit hc hfits
    rw [hafter] at hstep
    cases hstep
    have hwaits := (hpoll.empty hc).2
    simp only [processResult_of_ne pollInFailed_ne_ready] at hwaits
    exact absurd (hto.symm.trans hwaits) (by decide)
  · intro hfits hbroken
    obtain ⟨l', hstep, -, hpoll⟩ := step_of_bodyFits uninit hinv hbroken hfits
    exact ⟨l', hstep, hpoll⟩

/-- A poll whose body fits keeps the link in step with the stream. -/
theorem inv_step (hinv : Inv stream l) (hfits : BodyFits stream l e)
    (hstep : step uninit stream l e = some l') : Inv stream l' := by
  have hbroken : ¬ l.broken := by
    intro hbroken
    rw [step, if_pos hbroken] at hstep
    cases hstep
  obtain ⟨after, hafter, hinv', -⟩ := step_of_bodyFits uninit hinv hbroken hfits
  exact Option.some.inj (hafter.symm.trans hstep) ▸ hinv'

/-- Whatever arrives, the polls of a link are good exactly when every header that is completed names a
body for which there is a buffer. -/
theorem polls_good_iff (uninit stream : ℕ → UInt8) (es : List Poll) :
    Always (step uninit stream) (Good uninit stream) (Link.init uninit) es ↔
      Always (step uninit stream) (BodyFits stream) (Link.init uninit) es :=
  always_iff (fun _ _ _ hinv hfits hstep => inv_step hinv hfits hstep) (fun _ _ hinv => good_iff hinv)
    inv_init

/-- A header that arrives whole, with memory for its body. -/
def wholeHeader : Poll := ⟨.arrived accMsgHeaderSize, .arrived 0, .eagain, true⟩

/-- The header of all zeros names an empty body, and the header of all ones a body that is too large. -/
theorem not_good_wholeHeader :
    ¬ Always (step (fun _ => 0) fun _ => 0) (Good (fun _ => 0) fun _ => 0)
      (Link.init fun _ => 0) [wholeHeader] ∧
    ¬ Always (step (fun _ => 0) fun _ => 255) (Good (fun _ => 0) fun _ => 255)
      (Link.init fun _ => 0) [wholeHeader] := by
  constructor
  · intro h
    have hc : 0 ∈ (Link.init fun _ => 0).completes (fun _ => 0) wholeHeader := by decide +kernel
    exact absurd ((good_iff inv_init).mp h.1 (by decide) 0 hc).1 (lt_irrefl 0)
  · intro h
    have hc : 2 ^ 32 - 1 ∈ (Link.init fun _ => 0).completes (fun _ => 255) wholeHeader := by
      decide +kernel
    exact absurd ((good_iff inv_init).mp h.1 (by decide) _ hc).2.1 (by decide)

end Runs

end AscendShmem.AccLinks.FrameSync
