import Mathlib
import AscendShmem.PullV2.MetadataInbox

/-!
# The device's hashes

`ReadyHash` and `MetadataDigest` of `inc_dc_pull_dispatch_v2_device_kernel.cpp`. The host copies
the record, clears the field that carries the hash and hashes the copy; the device may not touch
a record that a peer owns, so it hashes the bytes in front of that field and eight zero bytes
behind them. The two agree because the field is the last of its record and the zero word covers
it (`Ready.enc_with_publication`, `SlotHeader.enc_withDigest`).
-/

namespace AscendShmem.PullV2

open Lib Lib.Exec

/-! ## Byte loops -/

/-- `HashGmBytes` of the `bytes` bytes of `data` from `offset` on. -/
def hashGmBytes {σ : Type} (hash : UInt64) (data : List UInt8) (offset bytes : ℕ) :
    Exec σ UInt64 :=
  (List.range bytes).foldlM
    (fun hash i => do
      let byte ← read data (offset + i)
      .ok (hashByte hash byte))
    hash

/-- `for (i = 0; i < sizeof(uint64_t); ++i) hash = HashByte(hash, 0)` -/
def hashZeroWord (hash : UInt64) : UInt64 :=
  (List.range 8).foldl (fun hash _ => hashByte hash 0) hash

/-- `ReadyHash` -/
def readyHash {σ : Type} (ready : Ready) : Exec σ UInt64 := do
  let hash ← hashGmBytes kHashOffset (Ready.codec.enc ready) 0 Ready.prefixCodec.size
  let hash := hashZeroWord hash
  .ok (if hash = 0 then 1 else hash)

/-- `MetadataDigest` of the device. -/
def deviceMetadataDigest {σ : Type} (header : SlotHeader) (slot : List UInt8) :
    Exec σ UInt64 := do
  let hash ← hashGmBytes kHashOffset (SlotHeader.codec.enc header) 0 SlotHeader.prefixCodec.size
  let hash := hashZeroWord hash
  let hash ← hashGmBytes hash slot header.tokensOffset.toNat
    (header.tokenCount.toUInt64 * UInt64.ofNat tokenRecordBytes).toNat
  hashGmBytes hash slot header.assignmentsOffset.toNat
    (header.assignmentCount.toUInt64 * UInt64.ofNat assignmentRecordBytes).toNat

/-! ## Host and device -/

/-- A loop over bytes that are there hashes the slice. -/
theorem hashGmBytes_eq {σ : Type} (hash : UInt64) {data : List UInt8} {offset bytes : ℕ}
    (h : offset + bytes ≤ data.length) :
    (hashGmBytes hash data offset bytes : Exec σ UInt64)
      = .ok (hashBytes hash (slice data offset bytes)) := by
  have hlen := length_slice h
  have hread : ∀ (hash : UInt64) (k : ℕ) (byte : UInt8), (slice data offset bytes)[k]? = some byte →
      (do
        let byte ← read data (offset + k)
        Except.ok (hashByte hash byte) : Exec σ UInt64) = .ok (hashByte hash byte) := by
    intro hash k byte hk
    have hlt : k < bytes := by
      have := (List.getElem?_eq_some_iff.mp hk).1
      omega
    rw [getElem?_slice hlt] at hk
    rw [read_of hk, ok_bind]
  have hloop := foldlM_range_length hread hash
  rw [hlen] at hloop
  unfold hashGmBytes
  rw [hloop, ← foldl_hashByte]
  exact List.foldlM_pure

theorem hashZeroWord_eq (hash : UInt64) : hashZeroWord hash = hashBytes hash (leBytes 8 0) :=
  foldl_hashByte hash (leBytes 8 0)

/-- Hashing a READY's prefix and a zero word hashes the READY without its publication. -/
theorem readyHash_eq {σ : Type} (ready : Ready) :
    (readyHash ready : Exec σ UInt64) = .ok (readyPublication ready) := by
  have hlen : 0 + Ready.prefixCodec.size ≤ (Ready.codec.enc ready).length := by
    rw [Ready.codec.length_enc]
    decide
  have henc : Ready.codec.enc { ready with publication := 0 }
      = slice (Ready.codec.enc ready) 0 Ready.prefixCodec.size ++ leBytes 8 0 :=
    ready.enc_with_publication 0
  unfold readyHash readyPublication
  dsimp only
  rw [hashGmBytes_eq _ hlen, ok_bind, hashZeroWord_eq, ← hashBytes_append, henc]

/-- The 64-bit product of a record count and a record size is exact. -/
theorem recordBytes_toNat (count : UInt32) {size : ℕ} (hsize : size < 2 ^ 32) :
    (count.toUInt64 * UInt64.ofNat size).toNat = count.toNat * size := by
  have hcount := count.toNat_lt
  have hprod : count.toNat * size < 2 ^ 32 * 2 ^ 32 := Nat.mul_lt_mul'' hcount hsize
  have hword : (UInt64.ofNat size).toNat = size := by
    rw [UInt64.toNat_ofNat', Nat.mod_eq_of_lt (by omega)]
  rw [UInt64.toNat_mul, UInt32.toNat_toUInt64, hword, Nat.mod_eq_of_lt (by omega)]

/-- The metadata of an accepted header ends before its hidden rows. -/
theorem CanonicalOffsets.metadata_le {header : SlotHeader} (h : CanonicalOffsets header) :
    header.tokensOffset.toNat + header.tokenCount.toNat * tokenRecordBytes
        ≤ header.assignmentsOffset.toNat ∧
      header.assignmentsOffset.toNat + header.assignmentCount.toNat * assignmentRecordBytes
        ≤ header.hiddenOffset.toNat := by
  have hassignments :=
    le_alignUp (slotHeaderBytes + tokenRecordBytes * header.tokenCount.toNat)
  have hhidden := le_alignUp
    (header.assignmentsOffset.toNat + assignmentRecordBytes * header.assignmentCount.toNat)
  rw [h.tokens, Nat.mul_comm _ tokenRecordBytes, Nat.mul_comm _ assignmentRecordBytes]
  rw [← h.assignments] at hassignments
  rw [← h.hidden] at hhidden
  exact ⟨hassignments, hhidden⟩

/-- Host and device compute one digest, and neither leaves the slot. -/
theorem deviceMetadataDigest_eq {σ : Type} {header : SlotHeader} {slot : List UInt8}
    (hoffsets : CanonicalOffsets header) (hslot : header.hiddenOffset.toNat ≤ slot.length) :
    ∃ digest, (deviceMetadataDigest header slot : Exec σ UInt64) = .ok digest ∧
      (metadataDigest header (some slot) : Exec Status UInt64) = .ok digest := by
  obtain ⟨htokens, hassignments⟩ := hoffsets.metadata_le
  have hlen : 0 + SlotHeader.prefixCodec.size ≤ (SlotHeader.codec.enc header).length := by
    rw [SlotHeader.codec.length_enc]
    decide
  have henc : SlotHeader.codec.enc (header.withDigest 0)
      = slice (SlotHeader.codec.enc header) 0 SlotHeader.prefixCodec.size ++ leBytes 8 0 :=
    header.enc_withDigest 0
  have htokenBytes : (header.tokenCount.toUInt64 * UInt64.ofNat tokenRecordBytes).toNat
      = header.tokenCount.toNat * tokenRecordBytes := recordBytes_toNat _ (by decide)
  have hassignmentBytes :
      (header.assignmentCount.toUInt64 * UInt64.ofNat assignmentRecordBytes).toNat
        = header.assignmentCount.toNat * assignmentRecordBytes := recordBytes_toNat _ (by decide)
  refine ⟨hashBytes (hashBytes (hashBytes kHashOffset (SlotHeader.codec.enc (header.withDigest 0)))
      (slice slot header.tokensOffset.toNat (header.tokenCount.toNat * tokenRecordBytes)))
    (slice slot header.assignmentsOffset.toNat
      (header.assignmentCount.toNat * assignmentRecordBytes)), ?_, ?_⟩
  · unfold deviceMetadataDigest
    dsimp only
    rw [hashGmBytes_eq _ hlen, ok_bind, hashZeroWord_eq, ← hashBytes_append, ← henc, htokenBytes,
      hashGmBytes_eq _ (by omega), ok_bind, hassignmentBytes, hashGmBytes_eq _ (by omega)]
  · unfold metadataDigest
    dsimp only
    rw [copyFrom_of_le (by omega), ok_bind, copyFrom_of_le (by omega), ok_bind]

/-- The checked product in one line: the exact product where it fits. -/
theorem checkedMulU64ByU32_eq (value : UInt64) (factor : UInt32) :
    checkedMulU64ByU32 value factor
      = if value.toNat * factor.toNat < 2 ^ 64
        then some (UInt64.ofNat (value.toNat * factor.toNat)) else none := by
  by_cases h : value.toNat * factor.toNat < 2 ^ 64
  · rw [if_pos h, checkedMulU64ByU32_eq_some, UInt64.toNat_ofNat', Nat.mod_eq_of_lt h]
  · rw [if_neg h, Option.eq_none_iff_forall_ne_some]
    intro product hproduct
    have := product.toNat_lt
    rw [checkedMulU64ByU32_eq_some] at hproduct
    omega

/-- The device's limbs, shifts and zero-padded prefixes compute what the host computes. -/
theorem device_arithmetic_eq_host :
    (∀ (hash : UInt64) (value : UInt8),
      (hashByte hash value).toNat
          = (hash ^^^ value.toUInt64).toNat * kHashPrime.toNat % 2 ^ 64 ∧
        hashByte hash value = hashBytes hash [value]) ∧
    (∀ ready : Ready,
      (readyHash ready : Exec DeviceStatus UInt64) = .ok (readyPublication ready)) ∧
    (∀ (launch : DispatchLaunch) (source : ℕ) (header : SlotHeader) (slot : List UInt8),
      validateHeader launch source header = .ok () →
      header.hiddenOffset.toNat ≤ slot.length →
      ∃ digest, (deviceMetadataDigest header slot : Exec DeviceStatus UInt64) = .ok digest ∧
        (metadataDigest header (some slot) : Exec Status UInt64) = .ok digest) ∧
    (∀ a b : UInt32, (mulU32Exact a b).toNat = a.toNat * b.toNat) ∧
    (∀ (value : UInt64) (factor : UInt32),
      (mulU64ByU32 value factor).toNat = value.toNat * factor.toNat % 2 ^ 64 ∧
        checkedMulU64ByU32 value factor
          = if value.toNat * factor.toNat < 2 ^ 64
            then some (UInt64.ofNat (value.toNat * factor.toNat)) else none) := by
  refine ⟨?_, readyHash_eq, ?_, mulU32Exact_toNat, ?_⟩
  · intro hash value
    constructor
    · rw [hashByte_eq, UInt64.toNat_mul]
    · exact hashByte_eq hash value
  · intro launch source header slot hheader hslot
    exact deviceMetadataDigest_eq (validateHeader_offsets hheader) hslot
  · intro value factor
    exact ⟨mulU64ByU32_toNat value factor, checkedMulU64ByU32_eq value factor⟩

/-- A header of the sample launch in front of zeroed records. -/
theorem device_arithmetic_eq_host_sample :
    validateHeader sampleLaunch 0 sampleHeader = .ok () ∧
      ∃ digest, (deviceMetadataDigest sampleHeader (List.replicate 320 0) :
          Exec DeviceStatus UInt64) = .ok digest ∧
        (metadataDigest sampleHeader (some (List.replicate 320 0)) : Exec Status UInt64)
          = .ok digest := by
  have hheader : validateHeader sampleLaunch 0 sampleHeader = .ok () := by decide +kernel
  have hslot : sampleHeader.hiddenOffset.toNat ≤ (List.replicate 320 (0 : UInt8)).length := by
    rw [List.length_replicate]
    decide
  exact ⟨hheader, device_arithmetic_eq_host.2.2.1 sampleLaunch 0 sampleHeader _ hheader hslot⟩

end AscendShmem.PullV2
