import Mathlib
import AscendShmem.Lib.Bytes

/-!
# Messages of a store link

`AccMsgHeader` with its bytes, the data buffers a link sends from and receives into, and the
results of a link's polling handlers.
-/

namespace AscendShmem.AccLinks

open Lib

/-- `MAX_RECV_BODY_LEN`. -/
def maxRecvBodyLen : ℕ := 10 * 1024 * 1024

/-- The message header. -/
structure AccMsgHeader where
  type : UInt16 := 0
  result : UInt16 := 0
  bodyLen : UInt32 := 0
  seqNo : UInt32 := 0
  crc : UInt32 := 0
deriving DecidableEq, Repr

/-- The five fields one after the other; `type` and `result` are `int16_t`, here as 16 bits. -/
def accMsgHeaderCodec : Codec AccMsgHeader :=
  (Codec.u16.pair (Codec.u16.pair (Codec.u32.pair (Codec.u32.pair Codec.u32)))).map
    { toFun := fun p => ⟨p.1, p.2.1, p.2.2.1, p.2.2.2.1, p.2.2.2.2⟩
      invFun := fun h => (h.type, h.result, h.bodyLen, h.seqNo, h.crc)
      left_inv := fun _ => rfl
      right_inv := fun _ => rfl }

/-- `sizeof(AccMsgHeader)`. -/
def accMsgHeaderSize : ℕ := 16

/-- The bytes of a header in memory. -/
def AccMsgHeader.bytes (h : AccMsgHeader) : List UInt8 := accMsgHeaderCodec.enc h

@[simp] theorem AccMsgHeader.length_bytes (h : AccMsgHeader) : h.bytes.length = accMsgHeaderSize :=
  accMsgHeaderCodec.length_enc h

/-- The data part of a message: `DataLen` is a `uint32_t`. -/
structure AccData where
  bytes : List UInt8
  dataLen_lt : bytes.length < 2 ^ 32

/-- `AccDataBuffer::DataLen`. -/
def AccData.dataLen (d : AccData) : ℕ := d.bytes.length

/-- What `HandlePollIn` and `HandlePollOut` return. -/
inductive LinkResult where
  | ok
  | mallocFail
  | linkEagain
  | linkError
  | linkMsgReady
  | linkMsgSent
deriving DecidableEq, Repr

/-- The values of `errno` that the handlers tell apart. -/
inductive Errno where
  | success
  | econnreset
  | eagain
  | other
deriving DecidableEq, Repr

end AscendShmem.AccLinks
