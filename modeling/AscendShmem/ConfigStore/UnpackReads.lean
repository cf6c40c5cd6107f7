import AscendShmem.ConfigStore.MessageCodec
import AscendShmem.Lib.Traced

/-!
# What `Unpack` reads

The run of `Unpack` on any memory, of which the first `bufferLen` bytes are the buffer, with every
read and every sum of lengths. The lengths of the entries are tested against the buffer. The words
in front of them are not: an entry may end right before the end of the buffer, and then the next
word is taken from behind it.
-/

namespace AscendShmem.ConfigStore

open Lib Lib.Exec Lib.Traced

/-- What `Unpack` does with lengths. -/
inductive Access where
  | read (offset size : ℕ)
  | sum (a b : ℕ)
deriving DecidableEq

/-- A read inside the buffer, a sum that fits into a `uint64_t`. -/
def Access.Safe (bufferLen : ℕ) : Access → Prop
  | .read offset size => offset + size ≤ bufferLen
  | .sum a b => a + b < 2 ^ 64

/-- The memory from the buffer on. -/
abbrev Memory := ℕ → UInt8

/-- Bytes of the memory. -/
def Memory.bytes (memory : Memory) (offset size : ℕ) : Bytes :=
  (List.range size).map fun i => memory (offset + i)

/-- The `uint64_t` at `offset`. -/
def Memory.word (memory : Memory) (offset : ℕ) : ℕ := leValue (memory.bytes offset 8)

/-- The enumerator at offset 16. -/
def Memory.messageType (memory : Memory) : Option MessageType :=
  MessageType.ofInt16 (leValue (memory.bytes 16 2))

section Run

variable (memory : Memory) (bufferLen : ℕ)

/-- A word is read, whether or not it is in the buffer. -/
def runWord (length : ℕ) : Traced Access ℕ := record (.read length 8) (memory.word length)

/-- `length + size`, and `length += size` -/
def runAdd (length size : ℕ) : Traced Access ℕ := record (.sum length size) (length + size)

/-- `Full`, with its read recorded. -/
def runFull : Traced Access Bool :=
  if bufferLen < baseSize then pure false
  else do
    let totalSize ← runWord memory 0
    pure (totalSize ≤ bufferLen)

/-- One turn of the loop over the keys or the values. -/
def runEntry (maxSize : ℕ) (st : List Bytes × ℕ) : Traced Access (List Bytes × ℕ) := do
  let (entries, length) := st
  let size ← runWord memory length
  let length ← runAdd length 8
  check (size ≤ maxSize)
  let last ← runAdd length size
  check (last ≤ bufferLen)
  let entry ← record (.read length size) (memory.bytes length size)
  let length ← runAdd length size
  pure (entries ++ [entry], length)

/-- The number of entries, then the entries, with their reads recorded. -/
def runEntries (maxCount maxSize length : ℕ) : Traced Access (List Bytes × ℕ) := do
  let count ← runWord memory length
  check (count ≤ maxCount)
  let length ← runAdd length 8
  (List.range count).foldlM (fun st _ => runEntry memory bufferLen maxSize st) ([], length)

/-- `Unpack` into a fresh message. -/
def runUnpack : Traced Access (ℤ × SmemMessage) := do
  let isFull ← runFull memory bufferLen
  check (isFull = true)
  let totalSize ← runWord memory 0
  let length ← runAdd 0 8
  let userDef ← runWord memory length
  let length ← runAdd length 8
  let mt ← record (.read length 2) memory.messageType
  let length ← runAdd length 2
  let mt ← orStop mt
  let (keys, length) ← runEntries memory bufferLen maxKeyCount maxKeySize length
  let (values, length) ← runEntries memory bufferLen maxValueCount maxValueSize length
  check (totalSize = length)
  pure (toInt64 totalSize, ⟨mt, toInt64 userDef, keys, values⟩)

/-- `Unpack` stays inside the buffer, and its sums do not wrap. -/
def UnpackSafe : Prop := Only (Access.Safe bufferLen) (runUnpack memory bufferLen)

end Run

/-! ## Where the entries stand -/

section Entries

variable (memory : Memory) (bufferLen maxSize start : ℕ)

/-- Where entry `j` starts, the entries standing one after the other from `start` on. -/
def entryOffset : ℕ → ℕ
  | 0 => start
  | j + 1 => entryOffset j + 8 + memory.word (entryOffset j)

/-- Entry `j` is inside the buffer, and not too long. -/
def EntryInside (j : ℕ) : Prop :=
  memory.word (entryOffset memory start j) ≤ maxSize ∧ entryOffset memory start (j + 1) ≤ bufferLen

/-- Behind each number of entries that are inside, fewer than `count`, there is room for a word. -/
def RoomForEntries (count : ℕ) : Prop :=
  ∀ j < count, (∀ i < j, EntryInside memory bufferLen maxSize start i) →
    entryOffset memory start j + 8 ≤ bufferLen

end Entries

/-- In a full buffer with a message type, there is room for the length of each announced entry and
for the number of the values. -/
def WordsInside (memory : Memory) (bufferLen : ℕ) : Prop :=
  baseSize ≤ bufferLen → memory.word 0 ≤ bufferLen → memory.messageType.isSome →
    memory.word 18 ≤ maxKeyCount →
      RoomForEntries memory bufferLen maxKeySize 26 (memory.word 18) ∧
      ((∀ j < memory.word 18, EntryInside memory bufferLen maxKeySize 26 j) →
        let valuesAt := entryOffset memory 26 (memory.word 18)
        valuesAt + 8 ≤ bufferLen ∧ (memory.word valuesAt ≤ maxValueCount →
          RoomForEntries memory bufferLen maxValueSize (valuesAt + 8) (memory.word valuesAt)))

section Loop

variable {memory : Memory} {bufferLen maxSize start n : ℕ} {entries : List Bytes}

/-- The entries behind the first one. -/
theorem entryOffset_succ (j : ℕ) :
    entryOffset memory start (j + 1)
      = entryOffset memory (start + 8 + memory.word start) j := by
  induction j with
  | zero => rw [entryOffset, entryOffset, entryOffset]
  | succ j ih => rw [entryOffset, ih, ← entryOffset]

theorem entryInside_succ {j : ℕ} :
    EntryInside memory bufferLen maxSize start (j + 1) ↔
      EntryInside memory bufferLen maxSize (start + 8 + memory.word start) j := by
  rw [EntryInside, EntryInside, entryOffset_succ, entryOffset_succ]

theorem forall_entryInside_succ :
    (∀ j < n + 1, EntryInside memory bufferLen maxSize start j) ↔
      EntryInside memory bufferLen maxSize start 0 ∧
        ∀ j < n, EntryInside memory bufferLen maxSize (start + 8 + memory.word start) j := by
  simp only [Nat.forall_lt_succ_left, entryInside_succ]

/-- The first entry, and those behind it. -/
theorem roomForEntries_succ :
    RoomForEntries memory bufferLen maxSize start (n + 1) ↔
      start + 8 ≤ bufferLen ∧ (EntryInside memory bufferLen maxSize start 0 →
        RoomForEntries memory bufferLen maxSize (start + 8 + memory.word start) n) := by
  unfold RoomForEntries
  simp only [Nat.forall_lt_succ_left, entryInside_succ, entryOffset_succ, and_imp]
  constructor
  · rintro ⟨hfirst, hrest⟩
    exact ⟨hfirst (fun i hi => absurd hi (Nat.not_lt_zero i)), fun h j hj hin => hrest j hj h hin⟩
  · rintro ⟨hfirst, hrest⟩
    exact ⟨fun _ => hfirst, fun j hj h hin => hrest h j hj hin⟩

/-- An entry is read exactly if it is inside the buffer and its limit. -/
theorem result_runEntry {st : List Bytes × ℕ} :
    (runEntry memory bufferLen maxSize (entries, start)).result = some st ↔
      EntryInside memory bufferLen maxSize start 0 ∧
        st = (entries ++ [memory.bytes (start + 8) (memory.word start)],
          start + 8 + memory.word start) := by
  simp only [runEntry, runWord, runAdd, result_bind_eq_some, result_record, result_check,
    result_pure, Option.some.injEq, exists_eq_left', exists_const_iff, EntryInside, entryOffset]
  constructor
  · rintro ⟨-, hsize, -, hlast, rfl⟩
    exact ⟨⟨hsize, hlast⟩, rfl⟩
  · rintro ⟨⟨hsize, hlast⟩, rfl⟩
    exact ⟨⟨()⟩, hsize, ⟨()⟩, hlast, rfl⟩

/-- A turn of the loop is safe if the word is inside: the entry is tested before it is copied. -/
theorem only_runEntry (hsums : start + 8 + maxSize < 2 ^ 64) :
    Only (Access.Safe bufferLen) (runEntry memory bufferLen maxSize (entries, start)) ↔
      start + 8 ≤ bufferLen := by
  simp only [runEntry, runWord, runAdd, only_bind, only_record, only_check, only_pure,
    result_record, result_check, Access.Safe, Option.some.injEq, forall_eq', true_and, and_true]
  constructor
  · exact fun h => h.1
  · exact fun h => ⟨h, by omega, fun _ hsize => ⟨by omega, fun _ hlast => ⟨hlast, by omega⟩⟩⟩

/-- The loop gets through if all entries are inside. -/
theorem result_runLoop (l : List ℕ) :
    (∃ st, (l.foldlM (fun st _ => runEntry memory bufferLen maxSize st) (entries, start)).result
        = some st) ↔ ∀ j < l.length, EntryInside memory bufferLen maxSize start j := by
  induction l generalizing entries start with
  | nil => simp
  | cons i l ih =>
    rw [List.length_cons, forall_entryInside_succ, List.foldlM_cons]
    simp only [result_bind_eq_some, result_runEntry]
    constructor
    · rintro ⟨st, _, ⟨hfirst, rfl⟩, hrest⟩
      exact ⟨hfirst, ih.mp ⟨st, hrest⟩⟩
    · rintro ⟨hfirst, hrest⟩
      obtain ⟨st, hst⟩ := ih.mpr hrest
      exact ⟨st, _, ⟨hfirst, rfl⟩, hst⟩

/-- Behind the entries read. -/
theorem runLoop_offset {l : List ℕ} {st : List Bytes × ℕ}
    (h : (l.foldlM (fun st _ => runEntry memory bufferLen maxSize st) (entries, start)).result
      = some st) : st.2 = entryOffset memory start l.length := by
  induction l generalizing entries start with
  | nil =>
    rw [List.foldlM_nil, result_pure, Option.some.injEq] at h
    rw [← h]
    rfl
  | cons i l ih =>
    rw [List.foldlM_cons, result_bind_eq_some] at h
    obtain ⟨mid, hfirst, hrest⟩ := h
    obtain ⟨-, rfl⟩ := result_runEntry.mp hfirst
    rw [List.length_cons, entryOffset_succ, ih hrest]

/-- The loop reads inside exactly if every word it needs is inside, as long as the entries in front
are. -/
theorem only_runLoop (l : List ℕ) (hsums : start + (l.length + 1) * (8 + maxSize) < 2 ^ 64) :
    Only (Access.Safe bufferLen)
        (l.foldlM (fun st _ => runEntry memory bufferLen maxSize st) (entries, start)) ↔
      RoomForEntries memory bufferLen maxSize start l.length := by
  induction l generalizing entries start with
  | nil => simp [RoomForEntries]
  | cons i l ih =>
    rw [List.length_cons] at hsums
    rw [List.length_cons, roomForEntries_succ, List.foldlM_cons, only_bind,
      only_runEntry (by rw [Nat.succ_mul] at hsums; omega)]
    refine and_congr_right fun _ => ?_
    have hnext : EntryInside memory bufferLen maxSize start 0 →
        start + 8 + memory.word start + (l.length + 1) * (8 + maxSize) < 2 ^ 64 := by
      intro hinside
      have hsize : memory.word start ≤ maxSize := hinside.1
      rw [Nat.succ_mul] at hsums
      omega
    constructor
    · intro h hinside
      exact (ih (hnext hinside)).mp (h _ (result_runEntry.mpr ⟨hinside, rfl⟩))
    · intro h st hst
      obtain ⟨hinside, rfl⟩ := result_runEntry.mp hst
      exact (ih (hnext hinside)).mpr (h hinside)

end Loop

/-! ## The whole run -/

section Whole

variable {memory : Memory} {bufferLen : ℕ}

/-- A list that is read has its entries inside. -/
theorem result_runEntries {maxCount maxSize length : ℕ} {st : List Bytes × ℕ}
    (h : (runEntries memory bufferLen maxCount maxSize length).result = some st) :
    memory.word length ≤ maxCount ∧
      (∀ j < memory.word length, EntryInside memory bufferLen maxSize (length + 8) j) ∧
      st.2 = entryOffset memory (length + 8) (memory.word length) := by
  simp only [runEntries, runWord, runAdd, result_bind_eq_some, result_record, result_check,
    Option.some.injEq, exists_eq_left', exists_const_iff] at h
  obtain ⟨-, hcount, hloop⟩ := h
  have hinside := (result_runLoop _).mp ⟨st, hloop⟩
  have hoffset := runLoop_offset hloop
  rw [List.length_range] at hinside hoffset
  exact ⟨hcount, hinside, hoffset⟩

/-- Entries inside are read. -/
theorem exists_result_runEntries {maxCount maxSize length : ℕ}
    (hcount : memory.word length ≤ maxCount)
    (hinside : ∀ j < memory.word length, EntryInside memory bufferLen maxSize (length + 8) j) :
    ∃ st, (runEntries memory bufferLen maxCount maxSize length).result = some st := by
  simp only [runEntries, runWord, runAdd, result_bind_eq_some, result_record, result_check,
    Option.some.injEq, exists_eq_left', exists_const_iff]
  obtain ⟨st, hst⟩ := (result_runLoop (List.range (memory.word length))).mpr
    (by rw [List.length_range]; exact hinside)
  exact ⟨st, ⟨()⟩, hcount, hst⟩

/-- A list is read inside exactly if its words are. -/
theorem only_runEntries {maxCount maxSize length : ℕ}
    (hsums : length + 8 + (maxCount + 1) * (8 + maxSize) < 2 ^ 64) :
    Only (Access.Safe bufferLen) (runEntries memory bufferLen maxCount maxSize length) ↔
      length + 8 ≤ bufferLen ∧ (memory.word length ≤ maxCount →
        RoomForEntries memory bufferLen maxSize (length + 8) (memory.word length)) := by
  simp only [runEntries, runWord, runAdd, only_bind, only_record, only_check,
    result_record, result_check, Access.Safe, Option.some.injEq, forall_eq', true_and]
  refine and_congr_right fun _ => ⟨fun h hcount => ?_, fun h _ hcount => ⟨by omega, ?_⟩⟩
  · have hle := Nat.mul_le_mul_right (8 + maxSize) (Nat.add_le_add_right hcount 1)
    have hloop := (only_runLoop _ (by rw [List.length_range]; omega)).mp (h () hcount).2
    rwa [List.length_range] at hloop
  · have hle := Nat.mul_le_mul_right (8 + maxSize) (Nat.add_le_add_right hcount 1)
    refine (only_runLoop _ (by rw [List.length_range]; omega)).mpr ?_
    rw [List.length_range]
    exact h hcount

/-- The entries that get through have the lengths that were tested. -/
theorem runLoop_sizes {maxSize start : ℕ} {entries : List Bytes} {l : List ℕ} {st : List Bytes × ℕ}
    (hentries : ∀ entry ∈ entries, entry.length ≤ maxSize)
    (h : (l.foldlM (fun st _ => runEntry memory bufferLen maxSize st) (entries, start)).result
      = some st) : ∀ entry ∈ st.1, entry.length ≤ maxSize := by
  induction l generalizing entries start with
  | nil =>
    rw [List.foldlM_nil, result_pure, Option.some.injEq] at h
    rw [← h]
    exact hentries
  | cons i l ih =>
    rw [List.foldlM_cons, result_bind_eq_some] at h
    obtain ⟨mid, hfirst, hrest⟩ := h
    obtain ⟨hinside, rfl⟩ := result_runEntry.mp hfirst
    refine ih (fun entry hentry => ?_) hrest
    rcases List.mem_append.mp hentry with hentry | hentry
    · exact hentries entry hentry
    · rw [List.mem_singleton.mp hentry, Memory.bytes, List.length_map, List.length_range]
      exact hinside.1

/-- No key that is read is too long. -/
theorem keys_le_of_runUnpack {n : ℤ} {message : SmemMessage}
    (h : (runUnpack memory bufferLen).result = some (n, message)) :
    ∀ key ∈ message.keys, key.length ≤ maxKeySize := by
  simp only [runUnpack, runEntries, runWord, runAdd, result_bind_eq_some, result_record,
    result_check, result_orStop, result_pure, Option.some.injEq, exists_eq_left',
    exists_const_iff] at h
  obtain ⟨-, -, -, -, mt, -, keys, ⟨-, -, hkeys⟩, values, -, -, -, hmessage⟩ := h
  rw [Prod.mk.injEq] at hmessage
  rw [← hmessage.2]
  exact runLoop_sizes (fun _ hnil => absurd hnil List.not_mem_nil) hkeys

/-- Entries within their limit end within as many bytes. -/
theorem entryOffset_le {maxSize start n : ℕ}
    (h : ∀ j < n, EntryInside memory bufferLen maxSize start j) :
    entryOffset memory start n ≤ start + n * (8 + maxSize) := by
  induction n with
  | zero => exact Nat.le_add_right _ _
  | succ n ih =>
    have hlast := (h n (Nat.lt_succ_self n)).1
    have hbefore := ih fun j hj => h j (Nat.lt_succ_of_lt hj)
    rw [entryOffset, Nat.succ_mul]
    omega

/-- `Full` as a comparison of two numbers. -/
theorem result_runFull : (runFull memory bufferLen).result = some true ↔
    baseSize ≤ bufferLen ∧ memory.word 0 ≤ bufferLen := by
  unfold runFull
  split
  · rename_i hshort
    simp [Nat.not_le.mpr hshort]
  · rename_i hlong
    simp [runWord, result_bind_eq_some, Nat.not_lt.mp hlong]

/-- `Full` reads its word only if it is inside. -/
theorem only_runFull : Only (Access.Safe bufferLen) (runFull memory bufferLen) := by
  unfold runFull
  split
  · exact only_pure.mpr trivial
  · rename_i hlong
    simp only [runWord, only_bind, only_record, only_pure, Access.Safe, implies_true, and_true]
    unfold baseSize at hlong
    omega

/-- The values, behind keys that all are inside. -/
theorem only_runValues (h : ∀ j < memory.word 18, EntryInside memory bufferLen maxKeySize 26 j)
    (hcount : memory.word 18 ≤ maxKeyCount) :
    Only (Access.Safe bufferLen) (runEntries memory bufferLen maxValueCount maxValueSize
        (entryOffset memory 26 (memory.word 18))) ↔
      entryOffset memory 26 (memory.word 18) + 8 ≤ bufferLen ∧
        (memory.word (entryOffset memory 26 (memory.word 18)) ≤ maxValueCount →
          RoomForEntries memory bufferLen maxValueSize (entryOffset memory 26 (memory.word 18) + 8)
            (memory.word (entryOffset memory 26 (memory.word 18)))) := by
  have hoffset := entryOffset_le h
  have hmost := Nat.mul_le_mul_right (8 + maxKeySize) hcount
  have hsmall : 26 + maxKeyCount * (8 + maxKeySize) + 8
      + (maxValueCount + 1) * (8 + maxValueSize) < 2 ^ 64 := by decide
  exact only_runEntries (by omega)

/-- `Unpack` reads inside exactly if its words are inside. -/
theorem unpackSafe_iff : UnpackSafe memory bufferLen ↔ WordsInside memory bufferLen := by
  have hkeys : 18 + 8 + (maxKeyCount + 1) * (8 + maxKeySize) < 2 ^ 64 := by decide
  simp only [UnpackSafe, runUnpack, only_bind, only_runFull, only_check, result_check, runWord,
    runAdd, only_record, result_record, only_orStop, result_orStop, only_pure, Option.some.injEq,
    forall_eq', true_and, Access.Safe, Nat.zero_add, Nat.reduceAdd, only_runEntries hkeys]
  constructor
  · intro h hbase htotal htype hcount
    obtain ⟨mt, hmt⟩ := Option.isSome_iff_exists.mp htype
    obtain ⟨-, -, -, -, -, -, hrest⟩ := h true (result_runFull.mpr ⟨hbase, htotal⟩) () rfl
    obtain ⟨⟨-, hroom⟩, hvalues⟩ := hrest mt hmt
    refine ⟨hroom hcount, fun hinside => ?_⟩
    obtain ⟨st, hst⟩ := exists_result_runEntries hcount hinside
    have hoffset := (result_runEntries hst).2.2
    exact (only_runValues hinside hcount).mp (hoffset ▸ (hvalues st hst).1)
  · rintro h _ hfull - rfl
    obtain ⟨hbase, htotal⟩ := result_runFull.mp hfull
    have hlong : 34 ≤ bufferLen := hbase
    refine ⟨by omega, by decide, by omega, by decide, by omega, by decide, fun mt hmt => ?_⟩
    have htype : memory.messageType.isSome = true := by rw [hmt]; rfl
    refine ⟨⟨by omega, fun hcount => (h hbase htotal htype hcount).1⟩, fun st hst => ?_⟩
    obtain ⟨hcount, hinside, hoffset⟩ := result_runEntries hst
    refine ⟨?_, fun _ _ _ _ => trivial⟩
    rw [hoffset]
    exact (only_runValues hinside hcount).mpr ((h hbase htotal htype hcount).2 hinside)

/-- `Unpack` stays inside the buffer exactly when the words that it comes to are inside. -/
theorem unpack_reads_inside (memory : Memory) (bufferLen : ℕ) :
    UnpackSafe memory bufferLen ↔ WordsInside memory bufferLen := unpackSafe_iff

/-- A GET of 34 bytes with an empty key: the key ends where the buffer ends, and the number of the
values is read behind it. -/
def cutGet : Memory := fun i => if i = 0 then 34 else if i = 16 ∨ i = 18 then 1 else 0

theorem cutGet_reads_behind : ¬ ∀ (memory : Memory) (bufferLen : ℕ), UnpackSafe memory bufferLen := by
  intro h
  have hread : Access.read 34 8 ∈ (runUnpack cutGet 34).events := by decide
  exact absurd (h cutGet 34 _ hread) (by simp [Access.Safe])

end Whole

/-! ## The run and the function -/

section Agreement

variable {α β : Type} {bytes : Bytes} {memory : Memory}

/-- The bytes are the first of the memory. -/
def Memory.StartsWith (memory : Memory) (bytes : Bytes) : Prop :=
  bytes = memory.bytes 0 bytes.length

/-- A run inside the bytes has the result of the function on the bytes. -/
def Agrees (bytes : Bytes) (x : Exec Result α) (y : Traced Access α) : Prop :=
  Only (Access.Safe bytes.length) y →
    x = match y.result with
      | some a => .ok a
      | none => .error (.fail (-1) "")

/-- Programs that agree may be put one after the other. -/
theorem Agrees.bind {x : Exec Result α} {y : Traced Access α} {f : α → Exec Result β}
    {g : α → Traced Access β} (hxy : Agrees bytes x y) (hfg : ∀ a, Agrees bytes (f a) (g a)) :
    Agrees bytes (x >>= f) (y >>= g) := by
  intro h
  obtain ⟨hy, hg⟩ := only_bind.mp h
  rw [hxy hy, result_bind]
  cases hres : y.result with
  | none => rfl
  | some a => exact hfg a (hg a hres)

theorem agrees_pure (a : α) : Agrees bytes (.ok a : Exec Result α) (pure a) := fun _ => rfl

theorem agrees_check {p q : Prop} [Decidable p] [Decidable q] (hpq : p ↔ q) :
    Agrees bytes (checkUnpack p) (check q) := by
  intro _
  by_cases hp : p
  · rw [checkUnpack, require_of hp]
    simp [check, hpq.mp hp]
  · rw [checkUnpack, require_of_not hp]
    simp [check, mt hpq.mpr hp]

/-- The function tests in one place what the run tests in two. -/
theorem agrees_check_and {p q : Prop} [Decidable p] [Decidable q] {f : Unit → Exec Result β}
    {g : Unit → Traced Access β} (h : Agrees bytes (checkUnpack q >>= f) (g ())) :
    Agrees bytes (checkUnpack (p ∧ q) >>= f) (check p >>= g) := by
  intro hsafe
  by_cases hp : p
  · have hg := (only_bind.mp hsafe).2 () (result_check.mpr hp)
    have hresult : (check p >>= g).result = (g ()).result := by
      rw [result_bind, result_check.mpr hp]
      rfl
    have hboth : checkUnpack (p ∧ q) = checkUnpack q := by simp only [hp, true_and]
    rw [hboth, hresult]
    exact h hg
  · have hnone : (check p : Traced Access Unit).result = none := by simp [check, hp]
    rw [checkUnpack, require_of_not fun hpq => hp hpq.1, result_bind, hnone]
    rfl

theorem agrees_orStop (x : Option α) : Agrees bytes (orFail x (-1) "") (orStop x) := by
  intro _
  cases x <;> rfl

/-- The function does not keep the sums. -/
theorem agrees_add {a b : ℕ} {x : Exec Result β} {g : ℕ → Traced Access β}
    (h : Agrees bytes x (g (a + b))) : Agrees bytes x (runAdd a b >>= g) := by
  intro hsafe
  rw [runAdd, only_bind] at hsafe
  rw [runAdd, result_bind]
  exact h (hsafe.2 _ rfl)

/-- Inside the buffer the memory is the buffer. -/
theorem slice_eq_bytes (hstart : memory.StartsWith bytes) {offset size : ℕ}
    (h : offset + size ≤ bytes.length) : slice bytes offset size = memory.bytes offset size := by
  apply List.ext_getElem?
  intro i
  by_cases hi : i < size
  · have hbyte : bytes[offset + i]? = some (memory (offset + i)) := by
      rw [hstart, Memory.bytes, List.getElem?_map, List.getElem?_range (by omega)]
      simp
    rw [getElem?_slice hi, hbyte, Memory.bytes, List.getElem?_map, List.getElem?_range hi]
    rfl
  · rw [List.getElem?_eq_none, List.getElem?_eq_none]
    · simp [Memory.bytes, Nat.not_lt.mp hi]
    · rw [length_slice h]
      omega

/-- A copy inside the buffer. -/
theorem agrees_copy (hstart : memory.StartsWith bytes) (offset size : ℕ) :
    Agrees bytes (copyFrom bytes offset size)
      (record (.read offset size) (memory.bytes offset size)) := by
  intro h
  have hinside : offset + size ≤ bytes.length := h _ List.mem_cons_self
  rw [copyFrom_of_le hinside, slice_eq_bytes hstart hinside]
  rfl

/-- A word inside the buffer. -/
theorem agrees_word (hstart : memory.StartsWith bytes) (offset : ℕ) :
    Agrees bytes (readValue bytes offset) (runWord memory offset) := by
  intro h
  have hinside : offset + 8 ≤ bytes.length := h _ List.mem_cons_self
  rw [readValue, copyFrom_of_le hinside, slice_eq_bytes hstart hinside]
  rfl

variable {bufferLen : ℕ}

theorem agrees_entry (hstart : memory.StartsWith bytes) (maxSize : ℕ) (st : List Bytes × ℕ) :
    Agrees bytes (unpackEntry bytes bufferLen maxSize st) (runEntry memory bufferLen maxSize st) :=
  (agrees_word hstart _).bind fun _ => agrees_add <| agrees_check_and <| agrees_add <|
    (agrees_check Iff.rfl).bind fun _ => (agrees_copy hstart _ _).bind fun _ =>
      agrees_add <| agrees_pure _

/-- Entry after entry. -/
theorem agrees_loop (hstart : memory.StartsWith bytes) (maxSize : ℕ) (l : List ℕ)
    (st : List Bytes × ℕ) :
    Agrees bytes (l.foldlM (fun st _ => unpackEntry bytes bufferLen maxSize st) st)
      (l.foldlM (fun st _ => runEntry memory bufferLen maxSize st) st) := by
  induction l generalizing st with
  | nil => exact agrees_pure st
  | cons i l ih =>
    rw [List.foldlM_cons, List.foldlM_cons]
    exact (agrees_entry hstart maxSize st).bind ih

theorem agrees_entries (hstart : memory.StartsWith bytes) (maxCount maxSize length : ℕ) :
    Agrees bytes (unpackEntries bytes bufferLen maxCount maxSize length)
      (runEntries memory bufferLen maxCount maxSize length) :=
  (agrees_word hstart _).bind fun _ => (agrees_check Iff.rfl).bind fun _ =>
    agrees_add <| agrees_loop hstart maxSize _ _

/-- `Full`. -/
theorem agrees_full (hstart : memory.StartsWith bytes) :
    Agrees bytes (full bytes bufferLen) (runFull memory bufferLen) := by
  unfold full runFull
  split
  · exact agrees_pure _
  · exact (agrees_word hstart 0).bind fun _ => agrees_pure _

theorem agrees_int64 (hstart : memory.StartsWith bytes) {offset : ℕ} {f : ℤ → Exec Result β}
    {g : ℕ → Traced Access β} (h : ∀ v, Agrees bytes (f (toInt64 v)) (g v)) :
    Agrees bytes (readInt64 bytes offset >>= f) (runWord memory offset >>= g) := by
  rw [readInt64, bind_assoc]
  exact (agrees_word hstart offset).bind h

/-- The type is tested after its length is added. -/
theorem agrees_type (hstart : memory.StartsWith bytes) {f : MessageType → Exec Result β}
    {g : ℕ → MessageType → Traced Access β} (h : ∀ mt, Agrees bytes (f mt) (g 18 mt)) :
    Agrees bytes (readType bytes 16 >>= f)
      (record (.read 16 2) memory.messageType >>= fun mt =>
        runAdd 16 2 >>= fun length => orStop mt >>= g length) := by
  intro hsafe
  have hread : Access.Safe bytes.length (.read 16 2) := hsafe _ List.mem_cons_self
  have hinside : 16 + 2 ≤ bytes.length := hread
  rw [only_bind] at hsafe
  have htype : readType bytes 16 = orFail memory.messageType (-1) "" := by
    rw [readType, copyFrom_of_le hinside, slice_eq_bytes hstart hinside]
    rfl
  rw [htype, result_bind]
  exact (agrees_add ((agrees_orStop memory.messageType).bind h)) (hsafe.2 _ rfl)

/-- Where the run stays inside the bytes, `unpack` of these bytes has its result. -/
theorem unpack_eq_run (hstart : memory.StartsWith bytes) :
    Agrees bytes (unpack bytes bufferLen) (runUnpack memory bufferLen) := by
  unfold unpack runUnpack
  refine (agrees_full hstart).bind fun _ => (agrees_check Iff.rfl).bind fun _ =>
    (agrees_word hstart 0).bind fun totalSize => agrees_add ?_
  rw [show 0 + 8 = 8 from rfl]
  refine agrees_int64 hstart fun userDef => agrees_add ?_
  rw [show 8 + 8 = 16 from rfl]
  refine agrees_type hstart fun mt => ?_
  exact (agrees_entries hstart _ _ _).bind fun keys => (agrees_entries hstart _ _ _).bind fun values =>
    (agrees_check Iff.rfl).bind fun _ => agrees_pure _

end Agreement

end AscendShmem.ConfigStore
