import AscendShmem.Lib.Bytes
import AscendShmem.ConfigStore.Server

/-!
# The message codec of the config store

`SmemMessagePacker` (`store_message_packer.cpp`). `Unpack` tests the lengths of the entries against
the buffer but reads the words in front of them untested, so the model gives it the memory from the
buffer on, of which the buffer is only a part: a word may come from behind the buffer. `Unpack`
returns a message exactly when the memory starts with the bytes that `Pack` gives for it and these
bytes are inside the buffer (`unpack_eq_ok_iff`).
-/

namespace AscendShmem.ConfigStore

open Lib Lib.Exec

/-! ## Packing -/

/-- `MAX_KEY_COUNT` -/
def maxKeyCount : ℕ := 10
/-- `MAX_KEY_SIZE` -/
def maxKeySize : ℕ := 2048
/-- `MAX_VALUE_COUNT` -/
def maxValueCount : ℕ := 10
/-- `MAX_VALUE_SIZE` -/
def maxValueSize : ℕ := 64 * 1024 * 1024

/-- `PackValue` of a `uint64_t` or a `size_t`. -/
def packValue (v : ℕ) : Bytes := leBytes 8 v

/-- `PackValue` of an `int64_t`. -/
def packInt64 (z : ℤ) : Bytes := leBytes 8 (z % 2 ^ 64).toNat

/-- The number of an enumerator. -/
def MessageType.toInt16 : MessageType → ℕ
  | .set => 0
  | .get => 1
  | .add => 2
  | .remove => 3
  | .append => 4
  | .cas => 5
  | .invalidMsg => 6

/-- `PackValue` of an `int16_t` that is an enumerator. -/
def packType (mt : MessageType) : Bytes := leBytes 2 mt.toInt16

/-- `PackString` and `PackBytes` -/
def packBytes (bytes : Bytes) : Bytes := packValue bytes.length ++ bytes

/-- size + userDef + mt + keyN + vN -/
def baseSize : ℕ := 4 * 8 + 2

/-- `MessageSize` -/
def SmemMessage.totalSize (message : SmemMessage) : ℕ :=
  baseSize + (message.keys.map fun key => 8 + key.length).sum
    + (message.values.map fun value => 8 + value.length).sum

/-- A count and the entries. -/
def packEntries (entries : List Bytes) : Bytes :=
  packValue entries.length ++ entries.flatMap packBytes

/-- `Pack`: the total size, `userDef`, the type, the keys and the values. -/
def pack (message : SmemMessage) : Bytes :=
  packValue message.totalSize ++ packInt64 message.userDef ++ packType message.mt
    ++ packEntries message.keys ++ packEntries message.values

/-! ## Unpacking -/

/-- A `uint64_t` of the memory. -/
def readValue (memory : Bytes) (length : ℕ) : Exec Result ℕ := do
  let word ← copyFrom memory length 8
  .ok (leValue word)

/-- The value of a word as an `int64_t`. -/
def toInt64 (v : ℕ) : ℤ := if v < 2 ^ 63 then v else v - 2 ^ 64

/-- A signed word. -/
def readInt64 (memory : Bytes) (length : ℕ) : Exec Result ℤ := do
  let word ← readValue memory length
  .ok (toInt64 word)

/-- `SHM_CHECK_CONDITION_RET(!p, -1)` -/
def checkUnpack (p : Prop) [Decidable p] : Exec Result Unit := require p (-1) ""

/-- The enumerator of an `int16_t` in the tested range. -/
def MessageType.ofInt16 : ℕ → Option MessageType
  | 0 => some .set
  | 1 => some .get
  | 2 => some .add
  | 3 => some .remove
  | 4 => some .append
  | 5 => some .cas
  | 6 => some .invalidMsg
  | _ => none

/-- The type, if it is one of the enumeration. -/
def readType (memory : Bytes) (length : ℕ) : Exec Result MessageType := do
  let word ← copyFrom memory length 2
  orFail (MessageType.ofInt16 (leValue word)) (-1) ""

/-- One turn of the loop over the keys or the values; the state is what is unpacked and
`length`. -/
def unpackEntry (memory : Bytes) (bufferLen maxSize : ℕ) (st : List Bytes × ℕ) :
    Exec Result (List Bytes × ℕ) := do
  let (entries, length) := st
  let size ← readValue memory length
  let length := length + 8
  checkUnpack (size ≤ maxSize ∧ length + size ≤ bufferLen)
  let entry ← copyFrom memory length size
  .ok (entries ++ [entry], length + size)

/-- A count and its entries. -/
def unpackEntries (memory : Bytes) (bufferLen maxCount maxSize length : ℕ) :
    Exec Result (List Bytes × ℕ) := do
  let count ← readValue memory length
  checkUnpack (count ≤ maxCount)
  (List.range count).foldlM (fun st _ => unpackEntry memory bufferLen maxSize st) ([], length + 8)

/-- `Full` -/
def full (memory : Bytes) (bufferLen : ℕ) : Exec Result Bool :=
  if bufferLen < baseSize then .ok false
  else do
    let totalSize ← readValue memory 0
    .ok (totalSize ≤ bufferLen)

/-- `Unpack` into a fresh message. -/
def unpack (memory : Bytes) (bufferLen : ℕ) : Exec Result (ℤ × SmemMessage) := do
  let isFull ← full memory bufferLen
  checkUnpack (isFull = true)
  let totalSize ← readValue memory 0
  let userDef ← readInt64 memory 8
  let mt ← readType memory 16
  let (keys, length) ← unpackEntries memory bufferLen maxKeyCount maxKeySize 18
  let (values, length) ← unpackEntries memory bufferLen maxValueCount maxValueSize length
  checkUnpack (totalSize = length)
  .ok (toInt64 totalSize, ⟨mt, userDef, keys, values⟩)

/-! ## What is read is what is packed -/

/-- The limits of `Unpack`, and an `int64_t` in `userDef`. -/
structure Packable (message : SmemMessage) : Prop where
  userDef : -2 ^ 63 ≤ message.userDef ∧ message.userDef < 2 ^ 63
  keyCount : message.keys.length ≤ maxKeyCount
  keySize : ∀ key ∈ message.keys, key.length ≤ maxKeySize
  valueCount : message.values.length ≤ maxValueCount
  valueSize : ∀ value ∈ message.values, value.length ≤ maxValueSize

@[simp] theorem length_packValue (v : ℕ) : (packValue v).length = 8 := length_leBytes _ _

@[simp] theorem length_packInt64 (z : ℤ) : (packInt64 z).length = 8 := length_leBytes _ _

@[simp] theorem length_packType (mt : MessageType) : (packType mt).length = 2 := length_leBytes _ _

@[simp] theorem length_packBytes (bytes : Bytes) : (packBytes bytes).length = 8 + bytes.length := by
  rw [packBytes, List.length_append, length_packValue]

theorem length_flatMap_packBytes (entries : List Bytes) :
    (entries.flatMap packBytes).length = (entries.map fun entry => 8 + entry.length).sum := by
  rw [List.length_flatMap]
  simp only [length_packBytes]

@[simp] theorem length_packEntries (entries : List Bytes) :
    (packEntries entries).length = 8 + (entries.flatMap packBytes).length := by
  rw [packEntries, List.length_append, length_packValue]

/-- The first word of a packed message is its length. -/
theorem length_pack (message : SmemMessage) : (pack message).length = message.totalSize := by
  unfold pack SmemMessage.totalSize baseSize
  simp only [List.length_append, length_packValue, length_packInt64, length_packType,
    length_packEntries, length_flatMap_packBytes]
  omega

/-- As many entries of as many bytes at most. -/
theorem length_flatMap_le {entries : List Bytes} {count size : ℕ} (hcount : entries.length ≤ count)
    (hsize : ∀ entry ∈ entries, entry.length ≤ size) :
    (entries.flatMap packBytes).length ≤ count * (8 + size) := by
  have hentry : ∀ n ∈ entries.map fun entry => 8 + entry.length, n ≤ 8 + size := by
    intro n hn
    rcases List.mem_map.mp hn with ⟨entry, hentry, rfl⟩
    have := hsize entry hentry
    omega
  rw [length_flatMap_packBytes]
  calc (entries.map fun entry => 8 + entry.length).sum
      ≤ (entries.map fun entry => 8 + entry.length).length • (8 + size) :=
        List.sum_le_card_nsmul _ _ hentry
    _ = entries.length * (8 + size) := by rw [List.length_map, smul_eq_mul]
    _ ≤ count * (8 + size) := Nat.mul_le_mul_right _ hcount

/-- A message within the limits has a size that fits in `int64_t`. -/
theorem Packable.length_lt {message : SmemMessage} (h : Packable message) :
    (pack message).length < 2 ^ 63 := by
  have hkeys := length_flatMap_le h.keyCount h.keySize
  have hvalues := length_flatMap_le h.valueCount h.valueSize
  unfold maxKeyCount maxKeySize at hkeys
  unfold maxValueCount maxValueSize at hvalues
  unfold pack
  simp only [List.length_append, length_packValue, length_packInt64, length_packType,
    length_packEntries]
  omega

section Reading

variable {memory : Bytes} {off : ℕ}

/-- A word is read exactly if its bytes are there. -/
theorem readValue_eq_ok {v : ℕ} :
    readValue memory off = .ok v ↔ BytesAt memory off (packValue v) ∧ v < 2 ^ 64 := by
  unfold readValue
  rw [bind_eq_ok]
  constructor
  · rintro ⟨word, hword, hv⟩
    rcases copyFrom_eq_ok_iff.mp hword with ⟨hat, hlen⟩
    cases hv
    have hback := leBytes_leValue word
    have hlt := leValue_lt word
    rw [hlen] at hback hlt
    unfold packValue
    rw [hback]
    exact ⟨hat, hlt⟩
  · intro ⟨hat, hlt⟩
    refine ⟨packValue v, copyFrom_eq_ok_iff.mpr ⟨hat, length_packValue v⟩, ?_⟩
    have hlt' : v < 256 ^ 8 := hlt.trans_eq (by norm_num)
    unfold packValue
    rw [leValue_leBytes, Nat.mod_eq_of_lt hlt']

theorem toInt64_eq_iff {v : ℕ} {z : ℤ} (hv : v < 2 ^ 64) :
    toInt64 v = z ↔ v = (z % 2 ^ 64).toNat ∧ -2 ^ 63 ≤ z ∧ z < 2 ^ 63 := by
  unfold toInt64
  split <;> omega

/-- A signed word is read exactly if its bytes are there. -/
theorem readInt64_eq_ok {z : ℤ} :
    readInt64 memory off = .ok z ↔
      BytesAt memory off (packInt64 z) ∧ -2 ^ 63 ≤ z ∧ z < 2 ^ 63 := by
  unfold readInt64
  rw [bind_eq_ok]
  constructor
  · rintro ⟨v, hread, hz⟩
    rcases readValue_eq_ok.mp hread with ⟨hat, hlt⟩
    cases hz
    rcases (toInt64_eq_iff hlt).mp rfl with ⟨hv, hrange⟩
    have hpack : packValue v = packInt64 (toInt64 v) := by
      conv_lhs => rw [hv]
      rfl
    rw [← hpack]
    exact ⟨hat, hrange⟩
  · intro ⟨hat, hrange⟩
    have hlt : (z % 2 ^ 64).toNat < 2 ^ 64 := by omega
    have hword : BytesAt memory off (packValue (z % 2 ^ 64).toNat) := hat
    refine ⟨(z % 2 ^ 64).toNat, readValue_eq_ok.mpr ⟨hword, hlt⟩, ?_⟩
    rw [(toInt64_eq_iff hlt).mpr ⟨rfl, hrange⟩]

/-- A type is read back as itself, and nothing else is one. -/
theorem MessageType.ofInt16_eq_some {v : ℕ} {mt : MessageType} :
    MessageType.ofInt16 v = some mt ↔ v = mt.toInt16 := by
  constructor
  · intro h
    unfold MessageType.ofInt16 at h
    split at h <;> cases h <;> rfl
  · rintro rfl
    cases mt <;> rfl

/-- A type is read exactly if its bytes are there. -/
theorem readType_eq_ok {mt : MessageType} :
    readType memory off = .ok mt ↔ BytesAt memory off (packType mt) := by
  unfold readType
  rw [bind_eq_ok]
  constructor
  · rintro ⟨word, hword, hmt⟩
    rcases copyFrom_eq_ok_iff.mp hword with ⟨hat, hlen⟩
    have hvalue := MessageType.ofInt16_eq_some.mp (orFail_eq_ok.mp hmt)
    have hback := leBytes_leValue word
    rw [hlen, hvalue] at hback
    unfold packType
    rw [hback]
    exact hat
  · intro hat
    refine ⟨packType mt, copyFrom_eq_ok_iff.mpr ⟨hat, length_packType mt⟩, ?_⟩
    apply orFail_eq_ok.mpr
    apply MessageType.ofInt16_eq_some.mpr
    unfold packType
    rw [leValue_leBytes]
    cases mt <;> rfl

/-! ## The loops -/

section Entries

variable {bufferLen maxSize : ℕ}

/-- An entry is read exactly if it is packed there and within its limit. -/
theorem unpackEntry_eq_ok (hmax : maxSize < 2 ^ 64)
    {entries entries' : List Bytes} {off' : ℕ} :
    unpackEntry memory bufferLen maxSize (entries, off) = .ok (entries', off') ↔
      ∃ entry : Bytes, entry.length ≤ maxSize ∧ BytesAt memory off (packBytes entry) ∧
        entries' = entries ++ [entry] ∧ off' = off + (packBytes entry).length ∧
        off' ≤ bufferLen := by
  unfold unpackEntry
  simp only [bind_eq_ok]
  constructor
  · rintro ⟨size, hsize, _, hcheck, entry, hentry, hresult⟩
    rcases readValue_eq_ok.mp hsize with ⟨hatSize, _⟩
    have hfits := require_eq_ok.mp hcheck
    rcases copyFrom_eq_ok_iff.mp hentry with ⟨hatEntry, rfl⟩
    cases hresult
    refine ⟨entry, hfits.1, ?_, rfl, ?_, hfits.2⟩
    · unfold packBytes
      rw [bytesAt_append, length_packValue]
      exact ⟨hatSize, hatEntry⟩
    · rw [length_packBytes, Nat.add_assoc]
  · rintro ⟨entry, hle, hat, rfl, rfl, hend⟩
    unfold packBytes at hat
    rw [bytesAt_append, length_packValue] at hat
    rw [length_packBytes] at hend
    refine ⟨entry.length, readValue_eq_ok.mpr ⟨hat.1, by omega⟩, (), ?_, entry, ?_, ?_⟩
    · exact require_of ⟨hle, by omega⟩
    · exact copyFrom_eq_ok_iff.mpr ⟨hat.2, rfl⟩
    · rw [length_packBytes, Nat.add_assoc]

/-- After `n` turns the memory holds `n` packed entries, all of them inside the buffer. -/
theorem unpackLoop_eq_ok (hmax : maxSize < 2 ^ 64)
    (hoff : off ≤ memory.length) (n : ℕ) {entries : List Bytes} {off' : ℕ} :
    (List.range n).foldlM (fun st _ => unpackEntry memory bufferLen maxSize st) ([], off)
        = .ok (entries, off') ↔
      entries.length = n ∧ (∀ entry ∈ entries, entry.length ≤ maxSize) ∧
        BytesAt memory off (entries.flatMap packBytes) ∧
        off' = off + (entries.flatMap packBytes).length ∧ (entries ≠ [] → off' ≤ bufferLen) := by
  induction n generalizing entries off' with
  | zero =>
    rw [List.range_zero, List.foldlM_nil, pure_eq_ok, List.length_eq_zero_iff]
    constructor
    · intro h
      cases h
      exact ⟨rfl, fun _ h => absurd h List.not_mem_nil, bytesAt_nil.mpr hoff, rfl,
        fun h => absurd rfl h⟩
    · rintro ⟨rfl, _, _, rfl, _⟩
      rfl
  | succ n ih =>
    rw [List.range_succ, List.foldlM_append, bind_eq_ok]
    simp only [List.foldlM_cons, List.foldlM_nil, bind_pure]
    constructor
    · rintro ⟨⟨front, mid⟩, hfront, hlast⟩
      rcases ih.mp hfront with ⟨hlen, hsize, hat, rfl, _⟩
      rcases (unpackEntry_eq_ok hmax).mp hlast with ⟨entry, hle, hatLast, rfl, rfl, hend⟩
      rw [List.flatMap_append, List.flatMap_singleton, bytesAt_append, List.length_append,
        List.length_append, List.length_singleton, hlen]
      refine ⟨rfl, ?_, ⟨hat, hatLast⟩, Nat.add_assoc _ _ _, fun _ => hend⟩
      intro x hx
      rcases List.mem_append.mp hx with hx | hx
      · exact hsize x hx
      · rw [List.mem_singleton.mp hx]
        exact hle
    · rintro ⟨hlen, hsize, hat, rfl, hend⟩
      -- the last entry of a list of `n + 1`
      rcases List.eq_nil_or_concat' entries with rfl | ⟨front, entry, rfl⟩
      · cases hlen
      · have hne : front ++ [entry] ≠ [] := List.append_ne_nil_of_right_ne_nil _ (by simp)
        have hlast := hend hne
        rw [List.flatMap_append, List.flatMap_singleton] at hat hlast ⊢
        rw [List.length_append] at hlast ⊢
        rw [bytesAt_append] at hat
        rw [List.length_append, List.length_singleton, Nat.add_right_cancel_iff] at hlen
        refine ⟨(front, off + (front.flatMap packBytes).length), ih.mpr ⟨hlen, ?_, hat.1, rfl, ?_⟩,
          (unpackEntry_eq_ok hmax).mpr ⟨entry, ?_, hat.2, rfl, ?_, hlast⟩⟩
        · exact fun x hx => hsize x (List.mem_append_left _ hx)
        · intro _
          omega
        · exact hsize entry (List.mem_append_right _ (List.mem_singleton_self entry))
        · exact (Nat.add_assoc _ _ _).symm

/-- A list of entries is read exactly if it is packed there and within its limits. -/
theorem unpackEntries_eq_ok (hmax : maxSize < 2 ^ 64)
    {maxCount : ℕ} (hcount : maxCount < 2 ^ 64) {entries : List Bytes} {off' : ℕ} :
    unpackEntries memory bufferLen maxCount maxSize off = .ok (entries, off') ↔
      entries.length ≤ maxCount ∧ (∀ entry ∈ entries, entry.length ≤ maxSize) ∧
        BytesAt memory off (packEntries entries) ∧ off' = off + (packEntries entries).length ∧
        (entries ≠ [] → off' ≤ bufferLen) := by
  unfold unpackEntries packEntries
  simp only [bind_eq_ok, bytesAt_append, List.length_append, length_packValue]
  constructor
  · rintro ⟨count, hread, _, hcheck, hloop⟩
    rcases readValue_eq_ok.mp hread with ⟨hatCount, _⟩
    have hoff : off + 8 ≤ memory.length := by
      have := hatCount.1
      rwa [length_packValue] at this
    rcases (unpackLoop_eq_ok hmax hoff count).mp hloop with
      ⟨rfl, hsize, hat, hoff', hend⟩
    exact ⟨require_eq_ok.mp hcheck, hsize, ⟨hatCount, hat⟩, by omega, hend⟩
  · rintro ⟨hle, hsize, ⟨hatCount, hat⟩, hoff', hend⟩
    have hoff : off + 8 ≤ memory.length := by
      have := hatCount.1
      rwa [length_packValue] at this
    refine ⟨entries.length, readValue_eq_ok.mpr ⟨hatCount, by omega⟩, (), require_of hle, ?_⟩
    exact (unpackLoop_eq_ok hmax hoff _).mpr ⟨rfl, hsize, hat, by omega, hend⟩

end Entries

/-- `Full` asks for the size in front, and that the buffer holds as much. -/
theorem full_eq_true {bufferLen : ℕ} :
    full memory bufferLen = .ok true ↔
      ∃ totalSize < 2 ^ 64, BytesAt memory 0 (packValue totalSize) ∧ baseSize ≤ bufferLen ∧
        totalSize ≤ bufferLen := by
  unfold full
  split
  · rename_i hshort
    constructor
    · intro h
      cases h
    · rintro ⟨_, _, _, hbase, _⟩
      omega
  · rename_i hlong
    rw [bind_eq_ok]
    constructor
    · rintro ⟨totalSize, hread, hle⟩
      rcases readValue_eq_ok.mp hread with ⟨hat, hlt⟩
      have hle' : decide (totalSize ≤ bufferLen) = true := Except.ok.inj hle
      exact ⟨totalSize, hlt, hat, by omega, of_decide_eq_true hle'⟩
    · rintro ⟨totalSize, hlt, hat, _, hle⟩
      refine ⟨totalSize, readValue_eq_ok.mpr ⟨hat, hlt⟩, ?_⟩
      rw [decide_eq_true hle]

end Reading

/-! ## Both directions -/

/-- Where the parts of a packed message stand. -/
theorem bytesAt_pack {memory : Bytes} {message : SmemMessage} :
    BytesAt memory 0 (pack message) ↔
      BytesAt memory 0 (packValue message.totalSize) ∧
      BytesAt memory 8 (packInt64 message.userDef) ∧ BytesAt memory 16 (packType message.mt) ∧
      BytesAt memory 18 (packEntries message.keys) ∧
      BytesAt memory (18 + (packEntries message.keys).length) (packEntries message.values) := by
  unfold pack
  simp only [bytesAt_append, List.length_append, length_packValue, length_packInt64,
    length_packType, and_assoc, Nat.zero_add, Nat.reduceAdd]

/-- The words in front of the entries, the keys and the values make up a packed message. -/
theorem length_pack_eq (message : SmemMessage) : (pack message).length
    = 18 + (packEntries message.keys).length + (packEntries message.values).length := by
  unfold pack
  simp only [List.length_append, length_packValue, length_packInt64, length_packType]

/-- `Unpack` returns a message exactly when its packed bytes stand at the start of the buffer. -/
theorem unpack_eq_ok_iff {memory : Bytes} {bufferLen : ℕ} {n : ℤ} {message : SmemMessage} :
    unpack memory bufferLen = .ok (n, message) ↔
      Packable message ∧ n = (pack message).length ∧ (pack message).length ≤ bufferLen ∧
        BytesAt memory 0 (pack message) := by
  have hkeys : maxKeySize < 2 ^ 64 := by decide
  have hvalues : maxValueSize < 2 ^ 64 := by decide
  have hcounts : maxKeyCount < 2 ^ 64 ∧ maxValueCount < 2 ^ 64 := by decide
  rw [bytesAt_pack]
  unfold unpack
  simp only [bind_eq_ok]
  constructor
  · rintro ⟨isFull, hfull, _, hcheckFull, totalSize, hsize, userDef, huser, mt, hmt,
      ⟨keys, off⟩, hreadKeys, ⟨values, off'⟩, hreadValues, _, htotal, hresult⟩
    rw [require_eq_ok.mp hcheckFull] at hfull
    rcases full_eq_true.mp hfull with ⟨totalSize', hlt', hat', _, hle⟩
    rcases readValue_eq_ok.mp hsize with ⟨hatSize, hlt⟩
    rcases readInt64_eq_ok.mp huser with ⟨hatUser, hrange⟩
    rcases (unpackEntries_eq_ok hkeys hcounts.1).mp hreadKeys with
      ⟨hkeyCount, hkeySize, hatKeys, rfl, _⟩
    rcases (unpackEntries_eq_ok hvalues hcounts.2).mp hreadValues with
      ⟨hvalueCount, hvalueSize, hatValues, rfl, _⟩
    have hsame : readValue memory 0 = .ok totalSize' := readValue_eq_ok.mpr ⟨hat', hlt'⟩
    rw [hsize] at hsame
    cases hsame
    have hpackable : Packable ⟨mt, userDef, keys, values⟩ :=
      ⟨hrange, hkeyCount, hkeySize, hvalueCount, hvalueSize⟩
    -- every byte is accounted for: the total is the length of what has been read
    have hlength : totalSize = (pack ⟨mt, userDef, keys, values⟩).length := by
      rw [length_pack_eq]
      exact require_eq_ok.mp htotal
    have hsmall := hpackable.length_lt
    cases hresult
    refine ⟨hpackable, ?_, ?_, ?_, hatUser, readType_eq_ok.mp hmt, hatKeys, hatValues⟩
    · rw [toInt64, if_pos (by omega), hlength]
    · rw [← hlength]
      exact hle
    · rw [← length_pack, ← hlength]
      exact hatSize
  · rintro ⟨hpackable, rfl, hle, hatSize, hatUser, hatType, hatKeys, hatValues⟩
    have hsmall := hpackable.length_lt
    have hlength := length_pack message
    have hparts := length_pack_eq message
    have hbase : baseSize ≤ message.totalSize := by
      unfold SmemMessage.totalSize
      omega
    have hread : readValue memory 0 = .ok message.totalSize :=
      readValue_eq_ok.mpr ⟨hatSize, by omega⟩
    have hfull : full memory bufferLen = .ok true :=
      full_eq_true.mpr ⟨message.totalSize, by omega, hatSize, by omega, by omega⟩
    have hreadKeys : unpackEntries memory bufferLen maxKeyCount maxKeySize 18
        = .ok (message.keys, 18 + (packEntries message.keys).length) :=
      (unpackEntries_eq_ok hkeys hcounts.1).mpr
        ⟨hpackable.keyCount, hpackable.keySize, hatKeys, rfl, fun _ => by omega⟩
    have hreadValues : unpackEntries memory bufferLen maxValueCount maxValueSize
        (18 + (packEntries message.keys).length) = .ok (message.values, _) :=
      (unpackEntries_eq_ok hvalues hcounts.2).mpr
        ⟨hpackable.valueCount, hpackable.valueSize, hatValues, rfl, fun _ => by omega⟩
    refine ⟨true, hfull, (), require_of rfl, message.totalSize, hread, message.userDef,
      readInt64_eq_ok.mpr ⟨hatUser, hpackable.userDef⟩, message.mt, readType_eq_ok.mpr hatType,
      (message.keys, _), hreadKeys, (message.values, _), hreadValues, (), require_of ?_, ?_⟩
    · rw [← hlength, hparts]
    · rw [toInt64, if_pos (by omega), hlength]

/-- What is packed is unpacked, whatever follows it in the buffer and behind the buffer; and what
is unpacked is what the buffer starts with. -/
theorem unpack_pack_round_trip :
    (∀ (message : SmemMessage) (garbage beyond : Bytes), Packable message →
      unpack (pack message ++ garbage ++ beyond) (pack message ++ garbage).length
        = .ok ((pack message).length, message)) ∧
    ∀ (memory : Bytes) (bufferLen : ℕ) (n : ℤ) (message : SmemMessage),
      unpack memory bufferLen = .ok (n, message) →
        0 ≤ n ∧ n ≤ bufferLen ∧ pack message = memory.take n.toNat := by
  constructor
  · intro message garbage beyond hpackable
    apply unpack_eq_ok_iff.mpr
    refine ⟨hpackable, rfl, ?_, bytesAt_zero.mpr ⟨?_, ?_⟩⟩
    · rw [List.length_append]
      omega
    · rw [List.length_append, List.length_append]
      omega
    · rw [List.append_assoc, List.take_left]
  · intro memory bufferLen n message h
    rcases unpack_eq_ok_iff.mp h with ⟨_, rfl, hle, hat⟩
    rcases bytesAt_zero.mp hat with ⟨_, htake⟩
    refine ⟨by omega, by omega, ?_⟩
    rw [Int.toNat_natCast, htake]

/-- A CAS on a key of one byte. -/
def sampleCas : SmemMessage := ⟨.cas, -1, [[107]], [[], [1, 2]]⟩

/-- A CAS with a byte of something else behind it. -/
theorem unpack_pack_round_trip_sample :
    unpack (pack sampleCas ++ [255] ++ []) (pack sampleCas ++ [255]).length
        = .ok ((pack sampleCas).length, sampleCas) ∧
      pack sampleCas = (pack sampleCas ++ [255] ++ []).take 61 := by
  have hpackable : Packable sampleCas := ⟨by decide, by decide, by decide, by decide, by decide⟩
  have hread := unpack_pack_round_trip.1 sampleCas [255] [] hpackable
  have hback := unpack_pack_round_trip.2 _ _ _ _ hread
  exact ⟨hread, hback.2.2⟩

end AscendShmem.ConfigStore
