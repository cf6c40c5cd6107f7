import Mathlib
import AscendShmem.Lib.Flags
import AscendShmem.Lib.Table
import AscendShmem.PullV2.Dispatch

/-!
# What the slot parser accepts

`SlotAccepts` says in ℕ what a READY and a slot must satisfy: the offsets are the aligned
ones, the token records are a CSR index of the assignments, every token's ordinals are all
different. `parseSlot_ends` shows that the parser decides exactly this.
-/

namespace AscendShmem.PullV2

open Lib Lib.Exec

/-! ## Shape of a slot -/

/-- Offset of the token records. -/
def tokensAt : ℕ := 128

/-- Offset of the assignment records behind `t` token records. -/
def assignmentsAt (t : ℕ) : ℕ := alignUp (tokensAt + t * tokenRecordBytes)

/-- Offset of the hidden rows behind `t` token and `a` assignment records. -/
def hiddenAt (t a : ℕ) : ℕ := alignUp (assignmentsAt t + a * assignmentRecordBytes)

/-- Size of a slot. -/
def packetSize (t a h : ℕ) : ℕ := alignUp (hiddenAt t a + h)

theorem tokens_end_le (t : ℕ) : tokensAt + t * tokenRecordBytes ≤ assignmentsAt t := le_alignUp _

theorem assignments_end_le (t a : ℕ) :
    assignmentsAt t + a * assignmentRecordBytes ≤ hiddenAt t a := le_alignUp _

theorem hidden_end_le (t a h : ℕ) : hiddenAt t a + h ≤ packetSize t a h := le_alignUp _

theorem assignmentsAt_le_hiddenAt (t a : ℕ) : assignmentsAt t ≤ hiddenAt t a :=
  le_trans (Nat.le_add_right _ _) (assignments_end_le t a)

theorem hiddenAt_le_packetSize (t a h : ℕ) : hiddenAt t a ≤ packetSize t a h :=
  le_trans (Nat.le_add_right _ _) (hidden_end_le t a h)

/-- The offsets are computed unless they wrap. -/
theorem slotOffsets_eq_some {t a h o₁ o₂ o₃ o₄ : UInt64} :
    slotOffsets t a h = some (o₁, o₂, o₃, o₄) ↔
      o₁.toNat = tokensAt ∧ o₂.toNat = assignmentsAt t.toNat ∧
        o₃.toNat = hiddenAt t.toNat a.toNat ∧ o₄.toNat = packetSize t.toNat a.toNat h.toNat := by
  have h32 : (UInt64.ofNat tokenRecordBytes).toNat = tokenRecordBytes := by decide
  have h16 : (UInt64.ofNat assignmentRecordBytes).toNat = assignmentRecordBytes := by decide
  have h64 : kPullDispatchAlignment.toUInt64 = 64 := by decide
  have h128 : alignUp (UInt64.ofNat slotHeaderBytes).toNat = tokensAt := by decide
  simp only [slotOffsets, Option.bind_eq_bind, Option.bind_eq_some_iff, mul_eq_some, add_eq_some,
    align_eq_some, h32, h16, h64, h128, Option.some.injEq, Prod.mk.injEq]
  constructor
  · rintro ⟨tb, htb, ab, hab, x₁, hx₁, e₁, he₁, x₂, hx₂, e₂, he₂, x₃, hx₃, e₃, he₃, x₄, hx₄,
      rfl, rfl, rfl, rfl⟩
    refine ⟨hx₁.symm, ?_, ?_, ?_⟩
    · rw [← hx₂, ← he₁, ← hx₁, ← htb]; rfl
    · rw [← hx₃, ← he₂, ← hx₂, ← he₁, ← hx₁, ← htb, ← hab]; rfl
    · rw [← hx₄, ← he₃, ← hx₃, ← he₂, ← hx₂, ← he₁, ← hx₁, ← htb, ← hab]; rfl
  · rintro ⟨h₁, h₂, h₃, h₄⟩
    -- every intermediate value is below the packet size, which fits
    have hp := o₄.toNat_lt
    rw [h₄] at hp
    have b₁ := hidden_end_le t.toNat a.toNat h.toNat
    have b₂ := assignments_end_le t.toNat a.toNat
    have b₃ := tokens_end_le t.toNat
    have fits : ∀ n, n ≤ packetSize t.toNat a.toNat h.toNat → (UInt64.ofNat n).toNat = n :=
      fun n hn => by rw [UInt64.toNat_ofNat', Nat.mod_eq_of_lt (by omega)]
    refine ⟨.ofNat (t.toNat * tokenRecordBytes), (fits _ (by omega)).symm,
      .ofNat (a.toNat * assignmentRecordBytes), (fits _ (by omega)).symm, o₁, h₁.symm,
      .ofNat (tokensAt + t.toNat * tokenRecordBytes), ?_, o₂, ?_,
      .ofNat (assignmentsAt t.toNat + a.toNat * assignmentRecordBytes), ?_, o₃, ?_,
      .ofNat (hiddenAt t.toNat a.toNat + h.toNat), ?_, o₄, ?_, rfl, rfl, rfl, rfl⟩
    · rw [fits _ (by omega), fits _ (by omega), h₁]
    · rw [fits _ (by omega), h₂]; rfl
    · rw [fits _ (by omega), fits _ (by omega), h₂]
    · rw [fits _ (by omega), h₃]; rfl
    · rw [fits _ (by omega), h₃]
    · rw [fits _ (by omega), h₄]; rfl

/-! ## Token records -/

/-- What an assignment is checked for by itself. -/
def assignmentInSession (session : SessionConfig) (a : AssignmentRecord) : Prop :=
  a.destinationRank < session.workerCount ∧ a.expertId < session.expertCount ∧ isFinite a.weight

/-- The assignments `l` of a token of `n` assignments, as far as they have been checked. -/
def AssignmentsValid (session : SessionConfig) (n : ℕ) (l : List AssignmentRecord) : Prop :=
  (∀ a ∈ l, assignmentInSession session a) ∧ OnceBelow n (l.map fun a => a.ordinal.toNat)

theorem assignmentsValid_nil (session : SessionConfig) (n : ℕ) : AssignmentsValid session n [] :=
  ⟨by simp, onceBelow_nil n⟩

/-- The first of valid assignments are valid. -/
theorem AssignmentsValid.append_left {session : SessionConfig} {n : ℕ}
    {l m : List AssignmentRecord} (h : AssignmentsValid session n (l ++ m)) :
    AssignmentsValid session n l := by
  refine ⟨fun a ha => h.1 a (List.mem_append_left m ha), ?_⟩
  have h2 := h.2
  rw [List.map_append] at h2
  exact h2.append_left

/-- One more assignment is valid by itself, with a new ordinal. -/
theorem assignmentsValid_append_singleton {session : SessionConfig} {n : ℕ}
    {l : List AssignmentRecord} {a : AssignmentRecord} :
    AssignmentsValid session n (l ++ [a]) ↔
      AssignmentsValid session n l ∧ assignmentInSession session a ∧ a.ordinal.toNat < n ∧
        a.ordinal.toNat ∉ l.map fun a => a.ordinal.toNat := by
  unfold AssignmentsValid
  rw [List.map_append, List.map_singleton, onceBelow_append_singleton]
  constructor
  · rintro ⟨hs, ho, hlt, hn⟩
    exact ⟨⟨fun b hb => hs b (List.mem_append_left _ hb), ho⟩, hs a (by simp), hlt, hn⟩
  · rintro ⟨⟨hs, ho⟩, ha, hlt, hn⟩
    refine ⟨?_, ho, hlt, hn⟩
    intro b hb
    rcases List.mem_append.mp hb with hb | hb
    · exact hs b hb
    · rw [List.mem_singleton.mp hb]
      exact ha

/-- The assignments a token record names. -/
def ParsedSource.assignmentsOf (source : ParsedSource) (record : TokenRecord) :
    List AssignmentRecord :=
  (source.assignments.drop record.assignmentBegin.toNat).take record.assignmentCount.toNat

/-- Number of assignments of the first `k` tokens. -/
def beginOf (tokens : List TokenRecord) (k : ℕ) : ℕ :=
  ((tokens.take k).map fun record => record.assignmentCount.toNat).sum

@[simp] theorem beginOf_zero (tokens : List TokenRecord) : beginOf tokens 0 = 0 := by
  simp [beginOf]

theorem beginOf_succ {tokens : List TokenRecord} {k : ℕ} {record : TokenRecord}
    (h : tokens[k]? = some record) :
    beginOf tokens (k + 1) = beginOf tokens k + record.assignmentCount.toNat := by
  simp [beginOf, List.take_add_one, h]

theorem beginOf_mono (tokens : List TokenRecord) {j k : ℕ} (h : j ≤ k) :
    beginOf tokens j ≤ beginOf tokens k := by
  obtain ⟨d, rfl⟩ := Nat.exists_eq_add_of_le h
  rw [beginOf, beginOf, List.take_add, List.map_append, List.sum_append]
  omega

/-- What the record of token `k` must be. -/
structure TokenValid (session : SessionConfig) (source : ParsedSource) (k : ℕ)
    (record : TokenRecord) : Prop where
  sourceToken : record.sourceToken.toNat = k
  assignmentBegin : record.assignmentBegin.toNat = beginOf source.tokens k
  inRange : beginOf source.tokens (k + 1) ≤ source.assignments.length
  reserved : record.reserved0 = 0 ∧ record.reserved1 = 0
  assignments : AssignmentsValid session record.assignmentCount.toNat (source.assignmentsOf record)

/-- The token records are a CSR index of the assignments. -/
structure CsrValid (session : SessionConfig) (source : ParsedSource) : Prop where
  token : ∀ k record, source.tokens[k]? = some record → TokenValid session source k record
  total : beginOf source.tokens source.tokens.length = source.assignments.length

/-- Validity of the records does not depend on the header in front of them. -/
theorem csrValid_header {session : SessionConfig} {source : ParsedSource} (header : SlotHeader)
    (h : CsrValid session source) : CsrValid session { source with header := header } := by
  refine ⟨fun k record hrecord => ?_, h.total⟩
  have ht := h.token k record hrecord
  exact ⟨ht.sourceToken, ht.assignmentBegin, ht.inRange, ht.reserved, ht.assignments⟩

/-- One step of an ordinal scan, from the flags after the ordinals of `l` to those after one
more assignment, in front of whatever comes next. -/
theorem ordinalStep_ends {β : Type} (session : SessionConfig) {n : ℕ} {count : UInt32}
    {l : List AssignmentRecord} (post : List AssignmentRecord) {a : AssignmentRecord}
    (message : String) {f : List Bool → Exec Status β} {Q : β → Prop}
    (hn : count.toNat = n) (hl : AssignmentsValid session n l)
    (hf : AssignmentsValid session n (l ++ [a]) →
      Ends (f (flagsOf n ((l ++ [a]).map fun a => a.ordinal.toNat))) Q
        (fun s => s = .invalidAssignment ∧ ¬ AssignmentsValid session n (l ++ a :: post)) False) :
    Ends (do
      require (a.destinationRank < session.workerCount ∧ a.expertId < session.expertCount ∧
        isFinite a.weight ∧ a.ordinal < count) .invalidAssignment message
      let seen ← read (flagsOf n (l.map fun a => a.ordinal.toNat)) a.ordinal.toNat
      require (seen = false) .invalidAssignment message
      let ordinals ← write (flagsOf n (l.map fun a => a.ordinal.toNat)) a.ordinal.toNat true
      f ordinals) Q
    (fun s => s = .invalidAssignment ∧ ¬ AssignmentsValid session n (l ++ a :: post)) False := by
  -- what is wrong with a front is wrong with the whole
  have hbad : ¬ AssignmentsValid session n (l ++ [a]) →
      ¬ AssignmentsValid session n (l ++ a :: post) := by
    intro h hv
    have hsplit : l ++ a :: post = (l ++ [a]) ++ post := by simp
    rw [hsplit] at hv
    exact h hv.append_left
  refine Ends.bind (P := fun _ => assignmentInSession session a ∧ a.ordinal.toNat < n)
    (Ends.require ?_ ?_) ?_
  · rintro ⟨h1, h2, h3, h4⟩
    exact ⟨⟨h1, h2, h3⟩, hn ▸ UInt32.lt_iff_toNat_lt.mp h4⟩
  · intro h
    refine ⟨rfl, hbad fun hv => h ?_⟩
    obtain ⟨-, ⟨h1, h2, h3⟩, h4, -⟩ := assignmentsValid_append_singleton.mp hv
    exact ⟨h1, h2, h3, UInt32.lt_iff_toNat_lt.mpr (hn ▸ h4)⟩
  rintro - ⟨hs, hlt⟩
  refine Ends.bind (P := fun seen =>
    seen = decide (a.ordinal.toNat ∈ l.map fun a => a.ordinal.toNat)) (Ends.read ?_ ?_) ?_
  · intro seen h
    rw [getElem?_flagsOf hlt] at h
    exact (Option.some.inj h).symm
  · intro h
    rw [length_flagsOf] at h
    omega
  rintro seen rfl
  refine Ends.bind (P := fun _ => a.ordinal.toNat ∉ l.map fun a => a.ordinal.toNat)
    (Ends.require ?_ ?_) ?_
  · intro h
    exact of_decide_eq_false h
  · intro h
    refine ⟨rfl, hbad fun hv => h ?_⟩
    exact decide_eq_false (assignmentsValid_append_singleton.mp hv).2.2.2
  intro _ hfresh
  rw [write_of_lt (by rw [length_flagsOf]; exact hlt), ok_bind, set_flagsOf]
  have hvalid := assignmentsValid_append_singleton.mpr ⟨hl, hs, hlt, hfresh⟩
  rw [← List.map_singleton (f := fun a : AssignmentRecord => a.ordinal.toNat), ← List.map_append]
  exact hf hvalid

/-- The parser's scan of one token's assignments. -/
theorem parseAssignments_ends (session : SessionConfig) {source : ParsedSource}
    {record : TokenRecord}
    (hrange : record.assignmentBegin.toNat + record.assignmentCount.toNat
      ≤ source.assignments.length)
    (hsize : source.assignments.length < 2 ^ 32) :
    Ends ((List.range record.assignmentCount.toNat).foldlM
        (parseAssignment session source.assignments record)
        (List.replicate record.assignmentCount.toNat false))
      (fun _ => AssignmentsValid session record.assignmentCount.toNat (source.assignmentsOf record))
      (fun s => s = .invalidAssignment ∧ ¬ AssignmentsValid session record.assignmentCount.toNat
        (source.assignmentsOf record)) False := by
  set n := record.assignmentCount.toNat with hn
  set l := source.assignmentsOf record with hl
  have hlen : l.length = n := by
    rw [hl, ParsedSource.assignmentsOf, List.length_take, List.length_drop]
    omega
  refine (Ends.forRange (fun k flags => AssignmentsValid session n (l.take k) ∧
    flags = flagsOf n ((l.take k).map fun a => a.ordinal.toNat)) n ?_ ?_).imp ?_
  · rw [List.take_zero]
    exact ⟨assignmentsValid_nil _ _, (flagsOf_nil n).symm⟩
  · rintro k hk flags ⟨hv, rfl⟩
    have hkl : k < l.length := by omega
    have hget : l[k]? = some l[k] := List.getElem?_eq_getElem hkl
    obtain ⟨htake, hsplit⟩ := take_succ_of_getElem? hget
    -- the index is computed in 32 bits, and does not wrap
    have hindex : (record.assignmentBegin + UInt32.ofNat k).toNat
        = record.assignmentBegin.toNat + k := by
      rw [UInt32.toNat_add, UInt32.toNat_ofNat', Nat.mod_eq_of_lt (a := k) (by omega),
        Nat.mod_eq_of_lt (by omega)]
    have hread : source.assignments[record.assignmentBegin.toNat + k]? = some l[k] := by
      rw [← hget, hl, ParsedSource.assignmentsOf, List.getElem?_take_of_lt (by omega),
        List.getElem?_drop]
    unfold parseAssignment
    rw [hindex, read_of hread, ok_bind, htake]
    have h := ordinalStep_ends (β := List Bool) session (n := n) (l.drop (k + 1)) (a := l[k])
      "invalid assignment metadata" (f := pure)
      (Q := fun flags => AssignmentsValid session n (l.take k ++ [l[k]]) ∧
        flags = flagsOf n ((l.take k ++ [l[k]]).map fun a => a.ordinal.toNat))
      hn.symm hv fun h => ⟨h, rfl⟩
    rw [← hsplit] at h
    simpa only [bind_pure] using h
  · rintro flags ⟨hv, -⟩
    rwa [← hlen, List.take_length, hlen] at hv

/-- The parser's walk over the token records. -/
theorem parseTokens_ends (session : SessionConfig) (source : ParsedSource) {header : SlotHeader}
    (htokens : header.tokenCount.toNat = source.tokens.length)
    (hassignments : header.assignmentCount.toNat = source.assignments.length) :
    Ends ((List.range header.tokenCount.toNat).foldlM
        (parseToken session header source.tokens source.assignments) 0)
      (fun expected => expected.toNat = beginOf source.tokens source.tokens.length ∧
        ∀ k record, source.tokens[k]? = some record → TokenValid session source k record)
      (fun _ => ¬ CsrValid session source) False := by
  have hsize : source.assignments.length < 2 ^ 32 := hassignments ▸ header.assignmentCount.toNat_lt
  have htsize : source.tokens.length < 2 ^ 32 := htokens ▸ header.tokenCount.toNat_lt
  rw [htokens]
  -- the next begin is the sum of the counts so far, which stays in the assignments
  refine (Ends.forRange (fun k (expected : UInt32) => expected.toNat = beginOf source.tokens k ∧
    beginOf source.tokens k ≤ source.assignments.length ∧
    ∀ j < k, ∀ record, source.tokens[j]? = some record → TokenValid session source j record)
    source.tokens.length ?_ ?_).imp ?_
  · exact ⟨by simp, by simp, fun j hj => absurd hj (by omega)⟩
  · rintro k hk expected ⟨hexp, hle, hprev⟩
    obtain ⟨record, hrecord⟩ : ∃ record, source.tokens[k]? = some record :=
      ⟨_, List.getElem?_eq_getElem hk⟩
    have hsucc := beginOf_succ hrecord
    unfold parseToken
    rw [read_of hrecord, ok_bind]
    have hroom : (header.assignmentCount - expected).toNat
        = source.assignments.length - beginOf source.tokens k := by
      rw [UInt32.toNat_sub_of_le _ _ (UInt32.le_iff_toNat_le.mpr (by omega)), hassignments, hexp]
    have hindex : record.sourceToken = UInt32.ofNat k ↔ record.sourceToken.toNat = k := by
      rw [← UInt32.toNat_inj, UInt32.toNat_ofNat', Nat.mod_eq_of_lt (by omega)]
    have hbegin : record.assignmentBegin = expected
        ↔ record.assignmentBegin.toNat = beginOf source.tokens k := by
      rw [← UInt32.toNat_inj, hexp]
    refine Ends.bind (P := fun _ => record.sourceToken.toNat = k ∧
      record.assignmentBegin.toNat = beginOf source.tokens k ∧
      beginOf source.tokens (k + 1) ≤ source.assignments.length ∧
      record.reserved0 = 0 ∧ record.reserved1 = 0) (Ends.require ?_ ?_) ?_
    · rintro ⟨h1, h2, h3, h4⟩
      rw [UInt32.le_iff_toNat_le, hroom] at h3
      exact ⟨hindex.mp h1, hbegin.mp h2, by omega, h4⟩
    · intro hn hcsr
      have hv := hcsr.token k record hrecord
      have hfit := hv.inRange
      have hcount : record.assignmentCount ≤ header.assignmentCount - expected := by
        rw [UInt32.le_iff_toNat_le, hroom]
        omega
      exact hn ⟨hindex.mpr hv.sourceToken, hbegin.mpr hv.assignmentBegin, hcount, hv.reserved⟩
    rintro - ⟨h1, h2, h3, h4⟩
    refine Ends.bind ((parseAssignments_ends session (by omega) hsize).mono
      (fun _ => id) ?_ id) ?_
    · rintro s ⟨-, hbad⟩ hcsr
      exact hbad (hcsr.token k record hrecord).assignments
    intro _ hvalid
    refine ⟨?_, h3, ?_⟩
    · rw [UInt32.toNat_add, hexp, hsucc, Nat.mod_eq_of_lt (by omega)]
    · intro j hj record' hrecord'
      rcases Nat.lt_succ_iff_lt_or_eq.mp hj with hlt | rfl
      · exact hprev j hlt record' hrecord'
      · rw [hrecord] at hrecord'
        cases hrecord'
        exact ⟨h1, h2, h3, h4, hvalid⟩
  · rintro expected ⟨hexp, -, hall⟩
    refine ⟨hexp, fun k record h => hall k ?_ record h⟩
    exact (List.getElem?_eq_some_iff.mp h).1

/-! ## The parser's verdict -/

/-- The hidden bytes of a header's tokens. -/
def hiddenSize (session : SessionConfig) (tokens : ℕ) : ℕ :=
  tokens * session.hidden.toNat * (dTypeBytes session.dtype).toNat

/-- The header at the front of a slot. -/
@[irreducible] def slotHeaderOf (slot : List UInt8) : SlotHeader := SlotHeader.codec.dec (slice slot 0 slotHeaderBytes)

/-- The offsets of a header are those its counts give. -/
structure OffsetsCanonical (session : SessionConfig) (header : SlotHeader) : Prop where
  tokens : header.tokensOffset.toNat = tokensAt
  assignments : header.assignmentsOffset.toNat = assignmentsAt header.tokenCount.toNat
  hidden : header.hiddenOffset.toNat
    = hiddenAt header.tokenCount.toNat header.assignmentCount.toNat
  packet : header.packetBytes.toNat
    = packetSize header.tokenCount.toNat header.assignmentCount.toNat
        (hiddenSize session header.tokenCount.toNat)

/-- The source a slot with this header holds. -/
def decodeSlot (session : SessionConfig) (header : SlotHeader) (slot : List UInt8) :
    ParsedSource where
  header := header
  tokens := TokenRecord.codec.decAll header.tokenCount.toNat
    (slice slot tokensAt (header.tokenCount.toNat * tokenRecordBytes))
  assignments := AssignmentRecord.codec.decAll header.assignmentCount.toNat
    (slice slot (assignmentsAt header.tokenCount.toNat)
      (header.assignmentCount.toNat * assignmentRecordBytes))
  hiddenPayload := slice slot (hiddenAt header.tokenCount.toNat header.assignmentCount.toNat)
    (hiddenSize session header.tokenCount.toNat)

/-- The digest of a header and the records of its slot. -/
def digestOf (header : SlotHeader) (slot : List UInt8) : UInt64 :=
  hashBytes (hashBytes (hashBytes kHashOffset
      (SlotHeader.codec.enc (header.withDigest 0)))
      (slice slot tokensAt (header.tokenCount.toNat * tokenRecordBytes)))
    (slice slot (assignmentsAt header.tokenCount.toNat)
      (header.assignmentCount.toNat * assignmentRecordBytes))

theorem digestOf_withDigest (header : SlotHeader) (digest : UInt64) (slot : List UInt8) :
    digestOf (header.withDigest digest) slot = digestOf header slot := rfl

/-- The digest only looks at the records. -/
theorem digestOf_congr {header : SlotHeader} {slot slot' : List UInt8}
    (htokens : slice slot tokensAt (header.tokenCount.toNat * tokenRecordBytes)
      = slice slot' tokensAt (header.tokenCount.toNat * tokenRecordBytes))
    (hassignments : slice slot (assignmentsAt header.tokenCount.toNat)
        (header.assignmentCount.toNat * assignmentRecordBytes)
      = slice slot' (assignmentsAt header.tokenCount.toNat)
        (header.assignmentCount.toNat * assignmentRecordBytes)) :
    digestOf header slot = digestOf header slot' := by
  rw [digestOf, digestOf, htokens, hassignments]

/-- The bytes between the assignment records and the hidden rows are zero. -/
def PaddingZero (header : SlotHeader) (slot : List UInt8) : Prop :=
  ∀ i, assignmentsAt header.tokenCount.toNat
      + header.assignmentCount.toNat * assignmentRecordBytes ≤ i →
    i < hiddenAt header.tokenCount.toNat header.assignmentCount.toNat → slot[i]? = some 0

/-- What a slot must satisfy besides its READY. -/
structure SlotAccepts (session : SessionConfig) (ready : Ready) (slot : List UInt8)
    (capacity : UInt64) : Prop where
  header : headerMatches session ready (slotHeaderOf slot)
  offsets : OffsetsCanonical session (slotHeaderOf slot)
  fits : (slotHeaderOf slot).packetBytes ≤ capacity
  padding : PaddingZero (slotHeaderOf slot) slot
  digest : digestOf (slotHeaderOf slot) slot = (slotHeaderOf slot).metadataDigest
  csr : CsrValid session (decodeSlot session (slotHeaderOf slot) slot)

/-- The padding is zero exactly if each of its bytes is. -/
theorem paddingZero_ends (slot : List UInt8) (offset n : ℕ) :
    Ends (paddingZero slot offset n)
      (fun zero => zero = true ↔ ∀ i, offset ≤ i → i < offset + n → slot[i]? = some 0)
      (fun _ => False) (slot.length < offset + n) := by
  induction n generalizing offset with
  | zero =>
    refine ends_ok.mpr ⟨fun _ i h1 h2 => ?_, fun _ => rfl⟩
    omega
  | succ n ih =>
    unfold paddingZero
    refine Ends.bind (Ends.read (Q := fun byte => slot[offset]? = some byte) (fun _ => id)
      (fun h => by omega)) ?_
    intro byte hbyte
    split
    · rename_i hne
      refine ends_ok.mpr ⟨fun h => by simp at h, fun h => ?_⟩
      have h0 := h offset (le_refl _) (by omega)
      rw [hbyte] at h0
      exact absurd (Option.some.inj h0) hne
    · rename_i heq
      rw [not_not] at heq
      subst heq
      refine (ih (offset + 1)).mono ?_ (fun _ => id) (fun h => by omega)
      intro zero hz
      rw [hz]
      constructor
      · intro h i h1 h2
        rcases Nat.eq_or_lt_of_le h1 with rfl | hlt
        · exact hbyte
        · exact h i (by omega) (by omega)
      · intro h i h1 h2
        exact h i (by omega) (by omega)

/-- The canonical offsets are computed unless they wrap. -/
theorem canonicalOffsets_eq_some {session : SessionConfig} {header : SlotHeader}
    (hhidden : header.hidden = session.hidden) {b o₁ o₂ o₃ o₄ : UInt64} :
    canonicalOffsets session header = some (b, o₁, o₂, o₃, o₄) ↔
      b.toNat = hiddenSize session header.tokenCount.toNat ∧
      o₁.toNat = tokensAt ∧ o₂.toNat = assignmentsAt header.tokenCount.toNat ∧
      o₃.toNat = hiddenAt header.tokenCount.toNat header.assignmentCount.toNat ∧
      o₄.toNat = packetSize header.tokenCount.toNat header.assignmentCount.toNat
        (hiddenSize session header.tokenCount.toNat) := by
  simp only [canonicalOffsets, Option.bind_eq_bind, Option.bind_eq_some_iff, mul_eq_some,
    Option.some.injEq, Prod.mk.injEq, UInt32.toNat_toUInt64, hhidden]
  constructor
  · rintro ⟨elements, helements, bytes, hbytes, offsets, hoffsets, rfl, rfl⟩
    have hb : bytes.toNat = hiddenSize session header.tokenCount.toNat := by
      rw [← hbytes, ← helements]
      rfl
    obtain ⟨h1, h2, h3, h4⟩ := slotOffsets_eq_some.mp hoffsets
    rw [UInt32.toNat_toUInt64] at h2 h3 h4
    rw [UInt32.toNat_toUInt64] at h3 h4
    exact ⟨hb, h1, h2, h3, hb ▸ h4⟩
  · rintro ⟨hb', h1, h2, h3, h4⟩
    -- the element count fits since the byte count does and a row has at least one byte
    have hd : 1 ≤ (dTypeBytes session.dtype).toNat := by cases session.dtype <;> decide
    have hle : header.tokenCount.toNat * session.hidden.toNat ≤ b.toNat := by
      rw [hb', hiddenSize]
      exact Nat.le_mul_of_pos_right _ hd
    have hlt := b.toNat_lt
    refine ⟨.ofNat (header.tokenCount.toNat * session.hidden.toNat), ?_, b, ?_,
      (o₁, o₂, o₃, o₄), ?_, rfl, rfl⟩
    · rw [UInt64.toNat_ofNat', Nat.mod_eq_of_lt (by omega)]
    · rw [UInt64.toNat_ofNat', Nat.mod_eq_of_lt (by omega), hb']
      rfl
    · rw [slotOffsets_eq_some, UInt32.toNat_toUInt64, UInt32.toNat_toUInt64, hb']
      exact ⟨h1, h2, h3, h4⟩

/-- The digest is computed if the slot holds the metadata. -/
theorem metadataDigest_ends {header : SlotHeader} (slot : List UInt8)
    (h1 : header.tokensOffset.toNat = tokensAt)
    (h2 : header.assignmentsOffset.toNat = assignmentsAt header.tokenCount.toNat) :
    Ends (metadataDigest header (some slot) : Exec Status UInt64)
      (fun digest => digest = digestOf header slot) (fun _ => False)
      (slot.length < hiddenAt header.tokenCount.toNat header.assignmentCount.toNat) := by
  have ht := tokens_end_le header.tokenCount.toNat
  have ha := assignments_end_le header.tokenCount.toNat header.assignmentCount.toNat
  unfold metadataDigest
  rw [h1, h2]
  refine Ends.bind (Ends.copyFrom (Q := fun bs => bs = slice slot tokensAt
    (header.tokenCount.toNat * tokenRecordBytes)) (fun _ => rfl) (fun h => by omega)) ?_
  rintro _ rfl
  refine Ends.bind (Ends.copyFrom (Q := fun bs => bs = slice slot
    (assignmentsAt header.tokenCount.toNat)
    (header.assignmentCount.toNat * assignmentRecordBytes)) (fun _ => rfl) (fun h => by omega)) ?_
  rintro _ rfl
  exact ends_ok.mpr rfl

/-- What a READY and a slot must satisfy for the parser. -/
structure ParserAccepts (registration : RegionRegistration) (session : SessionConfig)
    (ready : Ready) (slot : List UInt8) (capacity : UInt64) : Prop where
  registered : validateRegistration registration session = .ok ()
  published : readyAccepted registration session ready
  sized : slotHeaderBytes ≤ capacity.toNat ∧ capacity ≤ registration.slotStride
  accepts : SlotAccepts session ready slot capacity

theorem headerMatches_hidden {session : SessionConfig} {ready : Ready} {header : SlotHeader}
    (h : headerMatches session ready header) : header.hidden = session.hidden :=
  h.2.2.2.2.2.2.2.2.2.2.2.2.2.1

/-- The size and offset tests go through exactly for canonical offsets within the capacity. -/
theorem checkOffsets_ends {session : SessionConfig} {header : SlotHeader} {capacity : UInt64}
    (hhidden : header.hidden = session.hidden) :
    Ends (checkOffsets session header capacity)
      (fun r => (OffsetsCanonical session header ∧ header.packetBytes ≤ capacity) ∧
        r.1.toNat = hiddenSize session header.tokenCount.toNat ∧
        r.2.1.toNat = assignmentsAt header.tokenCount.toNat ∧
        r.2.2.toNat = hiddenAt header.tokenCount.toNat header.assignmentCount.toNat)
      (fun _ => ¬ (OffsetsCanonical session header ∧ header.packetBytes ≤ capacity)) False := by
  unfold checkOffsets
  refine Ends.bind (Ends.orFail
    (Q := fun offsets => canonicalOffsets session header = some offsets) (fun _ h => h) ?_) ?_
  · -- canonical offsets are themselves the values the computation gives
    rintro hnone ⟨hoff, -⟩
    have hlt := header.packetBytes.toNat_lt
    have hle := hidden_end_le header.tokenCount.toNat header.assignmentCount.toNat
      (hiddenSize session header.tokenCount.toNat)
    rw [← hoff.packet] at hle
    have hsome := (canonicalOffsets_eq_some hhidden
      (b := .ofNat (hiddenSize session header.tokenCount.toNat))).mpr
      ⟨by rw [UInt64.toNat_ofNat', Nat.mod_eq_of_lt (by omega)], hoff.tokens, hoff.assignments,
        hoff.hidden, hoff.packet⟩
    rw [hnone] at hsome
    cases hsome
  rintro ⟨hb, o₁, o₂, o₃, o₄⟩ hoffsets
  obtain ⟨hhb, h1, h2, h3, h4⟩ := (canonicalOffsets_eq_some hhidden).mp hoffsets
  refine Ends.bind (Ends.require (Q := fun _ => OffsetsCanonical session header ∧
    header.packetBytes ≤ capacity) ?_ ?_) ?_
  · rintro ⟨rfl, rfl, rfl, rfl, hfit⟩
    exact ⟨⟨h1, h2, h3, h4⟩, hfit⟩
  · rintro hn ⟨hoff, hfit⟩
    exact hn ⟨UInt64.toNat_inj.mp (hoff.tokens.trans h1.symm),
      UInt64.toNat_inj.mp (hoff.assignments.trans h2.symm),
      UInt64.toNat_inj.mp (hoff.hidden.trans h3.symm),
      UInt64.toNat_inj.mp (hoff.packet.trans h4.symm), hfit⟩
  · intro _ hok
    exact ⟨hok, hhb, h2, h3⟩

/-- A slot passes exactly if its padding is zero and its digest is the header's. -/
theorem checkDigest_ends {session : SessionConfig} {header : SlotHeader} {slot : List UInt8}
    {o₂ o₃ : UInt64} (hoff : OffsetsCanonical session header)
    (h2 : o₂.toNat = assignmentsAt header.tokenCount.toNat)
    (h3 : o₃.toNat = hiddenAt header.tokenCount.toNat header.assignmentCount.toNat) :
    Ends (checkDigest header slot o₂ o₃)
      (fun _ => PaddingZero header slot ∧ digestOf header slot = header.metadataDigest)
      (fun _ => ¬ (PaddingZero header slot ∧ digestOf header slot = header.metadataDigest))
      (slot.length < header.packetBytes.toNat) := by
  have b2 := assignments_end_le header.tokenCount.toNat header.assignmentCount.toNat
  have b3 := hiddenAt_le_packetSize header.tokenCount.toNat header.assignmentCount.toNat
    (hiddenSize session header.tokenCount.toNat)
  rw [← hoff.packet] at b3
  unfold checkDigest
  rw [h2, h3]
  refine Ends.bind ((paddingZero_ends slot _ _).mono (fun _ h => h) (fun _ => False.elim)
    (fun h => by omega)) ?_
  intro zero hzero
  rw [Nat.add_sub_cancel' b2] at hzero
  refine Ends.bind (Ends.require (Q := fun _ => zero = true) id
    (fun hn haccept => hn (hzero.mpr haccept.1))) ?_
  intro _ hpadding
  replace hpadding := hzero.mp hpadding
  refine Ends.bind ((metadataDigest_ends slot hoff.tokens hoff.assignments).mono (fun _ h => h)
    (fun _ => False.elim) (fun h => by omega)) ?_
  rintro _ rfl
  exact Ends.require (fun h => ⟨hpadding, h⟩) (fun hn haccept => hn haccept.2)

/-- The records are read exactly if they are valid, as the slot has them. -/
theorem parseRecords_ends {session : SessionConfig} {header : SlotHeader} {slot : List UInt8}
    {hb : UInt64} (hoff : OffsetsCanonical session header)
    (hhb : hb.toNat = hiddenSize session header.tokenCount.toNat) :
    Ends (parseRecords session header slot hb)
      (fun source => CsrValid session (decodeSlot session header slot) ∧
        source = decodeSlot session header slot ∧
        hiddenAt header.tokenCount.toNat header.assignmentCount.toNat
          + hiddenSize session header.tokenCount.toNat ≤ slot.length)
      (fun _ => ¬ CsrValid session (decodeSlot session header slot))
      (slot.length < header.packetBytes.toNat) := by
  have b1 := tokens_end_le header.tokenCount.toNat
  have b2 := assignments_end_le header.tokenCount.toNat header.assignmentCount.toNat
  have b3 := hidden_end_le header.tokenCount.toNat header.assignmentCount.toNat
    (hiddenSize session header.tokenCount.toNat)
  rw [← hoff.packet] at b3
  set source := decodeSlot session header slot with hsource
  have htokens : header.tokenCount.toNat = source.tokens.length := by
    simp [hsource, decodeSlot]
  have hassignments : header.assignmentCount.toNat = source.assignments.length := by
    simp [hsource, decodeSlot]
  unfold parseRecords
  rw [hoff.tokens, hoff.assignments, hoff.hidden, hhb]
  refine Ends.bind (Ends.copyFrom (Q := fun bs => bs = slice slot tokensAt
    (header.tokenCount.toNat * tokenRecordBytes)) (fun _ => rfl) (fun h => by omega)) ?_
  rintro _ rfl
  refine Ends.bind (Ends.copyFrom (Q := fun bs => bs = slice slot
    (assignmentsAt header.tokenCount.toNat)
    (header.assignmentCount.toNat * assignmentRecordBytes)) (fun _ => rfl) (fun h => by omega)) ?_
  rintro _ rfl
  refine Ends.bind (Ends.copyFrom (Q := fun bs => bs = source.hiddenPayload ∧
    hiddenAt header.tokenCount.toNat header.assignmentCount.toNat
      + hiddenSize session header.tokenCount.toNat ≤ slot.length)
    (fun h => ⟨rfl, h⟩) (fun h => by omega)) ?_
  rintro _ ⟨rfl, hpayload⟩
  refine Ends.bind ((parseTokens_ends session source htokens
    hassignments).mono (fun _ h => h) (fun _ h => h) False.elim) ?_
  rintro expected ⟨hexpected, hall⟩
  have htotal : expected = header.assignmentCount
      ↔ beginOf source.tokens source.tokens.length = source.assignments.length := by
    rw [← UInt32.toNat_inj, hexpected, hassignments]
  refine Ends.bind (Ends.require (Q := fun _ => CsrValid session source)
    (fun h => ⟨hall, htotal.mp h⟩) (fun hn hcsr => hn (htotal.mpr hcsr.total))) ?_
  intro _ hcsr
  exact ends_ok.mpr ⟨hcsr, rfl, hpayload⟩

/-- The parser decides `ParserAccepts`. Only memory shorter than the capacity, and that ends before
the header or before the packet the header announces, makes it read outside. -/
theorem parseSlot_ends (registration : RegionRegistration) (session : SessionConfig)
    (ready : Ready) (slot : List UInt8) (capacity : UInt64) :
    Ends (parseSlot registration session ready slot capacity)
      (fun source => ParserAccepts registration session ready slot capacity ∧
        source = decodeSlot session (slotHeaderOf slot) slot ∧
        hiddenAt (slotHeaderOf slot).tokenCount.toNat (slotHeaderOf slot).assignmentCount.toNat
          + hiddenSize session (slotHeaderOf slot).tokenCount.toNat ≤ slot.length)
      (fun _ => ¬ ParserAccepts registration session ready slot capacity)
      (slot.length < capacity.toNat ∧ (slot.length < slotHeaderBytes ∨
        slot.length < (slotHeaderOf slot).packetBytes.toNat)) := by
  unfold parseSlot
  refine Ends.bind (P := fun _ => validateRegistration registration session = .ok ()) ?_ ?_
  · unfold validateRegistration
    exact Ends.require (fun h => require_of h)
      (fun hn h => hn (require_eq_ok.mp h.registered))
  intro _ hregistered
  refine Ends.bind (Ends.require (Q := fun _ => readyAccepted registration session ready)
    id (fun hn h => hn h.published)) ?_
  intro _ hpublished
  refine Ends.bind (Ends.require (Q := fun _ => slotHeaderBytes ≤ capacity.toNat ∧
    capacity ≤ registration.slotStride) id (fun hn h => hn h.sized)) ?_
  intro _ hsized
  refine Ends.bind (Ends.copyFrom (Q := fun bs => SlotHeader.codec.dec bs = slotHeaderOf slot)
    (fun _ => by rw [slotHeaderOf]) (fun h => ⟨by omega, Or.inl (by omega)⟩)) ?_
  intro bs hheader
  simp only [hheader]
  refine Ends.bind (Ends.require (Q := fun _ => headerMatches session ready (slotHeaderOf slot))
    id (fun hn h => hn h.accepts.header)) ?_
  intro _ hmatch
  refine Ends.bind ((checkOffsets_ends (headerMatches_hidden hmatch)).mono (fun _ h => h)
    (fun _ hn h => hn ⟨h.accepts.offsets, h.accepts.fits⟩) False.elim) ?_
  rintro ⟨hb, o₂, o₃⟩ ⟨⟨hoff, hfit⟩, hhb, h2, h3⟩
  -- the packet has been compared with the capacity, so what ends before one ends before the other
  have hshort : slot.length < (slotHeaderOf slot).packetBytes.toNat → slot.length < capacity.toNat ∧
      (slot.length < slotHeaderBytes ∨ slot.length < (slotHeaderOf slot).packetBytes.toNat) :=
    fun h => ⟨Nat.lt_of_lt_of_le h (UInt64.le_iff_toNat_le.mp hfit), Or.inr h⟩
  refine Ends.bind ((checkDigest_ends hoff h2 h3).mono (fun _ h => h)
    (fun _ hn h => hn ⟨h.accepts.padding, h.accepts.digest⟩) hshort) ?_
  rintro - ⟨hpadding, hdigest⟩
  refine (parseRecords_ends hoff hhb).mono ?_ (fun _ hn h => hn h.accepts.csr) hshort
  rintro source ⟨hcsr, hsource⟩
  exact ⟨⟨hregistered, hpublished, hsized, hmatch, hoff, hfit, hpadding, hdigest, hcsr⟩, hsource⟩

/-- What an accepted slot is. -/
theorem parserAccepts_of_parse {registration : RegionRegistration} {session : SessionConfig}
    {ready : Ready} {slot : List UInt8} {capacity : UInt64} {source : ParsedSource}
    (h : parseReadyAndSlot registration session ready (some slot) capacity = .ok source) :
    ParserAccepts registration session ready slot capacity ∧
      source = decodeSlot session (slotHeaderOf slot) slot ∧
      hiddenAt (slotHeaderOf slot).tokenCount.toNat (slotHeaderOf slot).assignmentCount.toNat
        + hiddenSize session (slotHeaderOf slot).tokenCount.toNat ≤ slot.length :=
  (parseSlot_ends registration session ready slot capacity).of_ok h

/-- In memory that holds the packet the parser accepts what satisfies `ParserAccepts`. -/
theorem parse_of_parserAccepts {registration : RegionRegistration} {session : SessionConfig}
    {ready : Ready} {slot : List UInt8} {capacity : UInt64}
    (hfront : slotHeaderBytes ≤ slot.length)
    (hmem : (slotHeaderOf slot).packetBytes.toNat ≤ slot.length)
    (h : ParserAccepts registration session ready slot capacity) :
    parseReadyAndSlot registration session ready (some slot) capacity
      = .ok (decodeSlot session (slotHeaderOf slot) slot) := by
  obtain ⟨source, hsource, -, rfl, -⟩ := ((parseSlot_ends registration session ready slot
    capacity).mono (fun _ h => h) (fun _ hn => hn h) (fun hf => by omega)).exists_ok
  exact hsource

/-! ## Memory safety -/

/-- Every size and offset the parser derives from the counts of a header, in `ℕ`, with the sums
its roundings go through. -/
def parserSizes (session : SessionConfig) (header : SlotHeader) : List ℕ :=
  let t := header.tokenCount.toNat
  let a := header.assignmentCount.toNat
  [t * tokenRecordBytes, a * assignmentRecordBytes, t * header.hidden.toNat, hiddenSize session t,
    tokensAt + 63, tokensAt + t * tokenRecordBytes, tokensAt + t * tokenRecordBytes + 63,
    assignmentsAt t, assignmentsAt t + a * assignmentRecordBytes,
    assignmentsAt t + a * assignmentRecordBytes + 63, hiddenAt t a,
    hiddenAt t a + hiddenSize session t, hiddenAt t a + hiddenSize session t + 63,
    packetSize t a (hiddenSize session t)]

/-- A packet size that fits is the largest of them, so none of them wraps. -/
theorem parserSizes_lt {session : SessionConfig} {header : SlotHeader}
    (hhidden : header.hidden = session.hidden)
    (hfits : packetSize header.tokenCount.toNat header.assignmentCount.toNat
      (hiddenSize session header.tokenCount.toNat) < 2 ^ 64) :
    ∀ n ∈ parserSizes session header, n < 2 ^ 64 := by
  have hpacket : hiddenAt header.tokenCount.toNat header.assignmentCount.toNat
      + hiddenSize session header.tokenCount.toNat + 63 < 2 ^ 64 := alignUp_fits.mp hfits
  have hhiddenAt : assignmentsAt header.tokenCount.toNat
      + header.assignmentCount.toNat * assignmentRecordBytes + 63 < 2 ^ 64 := by
    apply alignUp_fits.mp
    exact Nat.lt_of_le_of_lt (hiddenAt_le_packetSize _ _ _) hfits
  have hassignmentsAt : tokensAt + header.tokenCount.toNat * tokenRecordBytes + 63 < 2 ^ 64 := by
    apply alignUp_fits.mp
    exact Nat.lt_of_le_of_lt (le_trans (assignmentsAt_le_hiddenAt _ _)
      (hiddenAt_le_packetSize _ _ _)) hfits
  have hassignments := assignmentsAt_le_hiddenAt header.tokenCount.toNat
    header.assignmentCount.toNat
  -- a row has at least one byte, so the elements are no more than the bytes
  have hbyte : 1 ≤ (dTypeBytes session.dtype).toNat := by cases session.dtype <;> decide
  have helements : header.tokenCount.toNat * header.hidden.toNat
      ≤ hiddenSize session header.tokenCount.toNat := by
    rw [hhidden]
    exact Nat.le_mul_of_pos_right _ hbyte
  have htokensAt : tokensAt = 128 := rfl
  intro n hn
  simp only [parserSizes, List.mem_cons, List.not_mem_nil, or_false] at hn
  omega

/-- The parser stays inside `capacity` bytes and inside the vectors it fills, and nothing it
computes from a header it goes on with wraps. -/
theorem parser_memory_safe (registration : RegionRegistration) (session : SessionConfig)
    (ready : Ready) (slot : Option (List UInt8)) (capacity : UInt64) (parsed : Bool)
    (hsize : ∀ bytes, slot = some bytes → bytes.length = capacity.toNat) :
    (parseReadyAndSlot registration session ready slot capacity parsed).statusOf .ok ≠ none ∧
      ∀ header, headerMatches session ready header →
        ∀ hiddenBytes tokens assignments hidden packet,
          canonicalOffsets session header
            = some (hiddenBytes, tokens, assignments, hidden, packet) →
          (∀ n ∈ parserSizes session header, n < 2 ^ 64) ∧
            hiddenBytes.toNat = hiddenSize session header.tokenCount.toNat ∧
            tokens.toNat = tokensAt ∧
            assignments.toNat = assignmentsAt header.tokenCount.toNat ∧
            hidden.toNat = hiddenAt header.tokenCount.toNat header.assignmentCount.toNat ∧
            packet.toNat = packetSize header.tokenCount.toNat header.assignmentCount.toNat
              (hiddenSize session header.tokenCount.toNat) := by
  constructor
  · have hfail : (fail .invalidArgument "invalid parser output"
        : Exec Status ParsedSource).statusOf .ok ≠ none := fun h => by cases h
    unfold parseReadyAndSlot
    match parsed, slot with
    | false, _ => exact hfail
    | true, none => exact hfail
    | true, some bytes =>
      have hlen := hsize bytes rfl
      have hends := parseSlot_ends registration session ready bytes capacity
      exact (hends.mono (fun _ h => h) (fun _ h => h) (fun h => by omega)).statusOf_ne_none .ok
  · intro header hmatch hiddenBytes tokens assignments hidden packet hoffsets
    have hhidden := headerMatches_hidden hmatch
    have hexact := (canonicalOffsets_eq_some hhidden).mp hoffsets
    have hpacket := packet.toNat_lt
    rw [hexact.2.2.2.2] at hpacket
    exact ⟨parserSizes_lt hhidden hpacket, hexact⟩

/-- A header whose offsets are canonical for more tokens than any slot holds. -/
def hugeHeader : SlotHeader :=
  { sessionId := 1, placementEpoch := 1, generation := 1, sequence := 1, sourceRegionId := 1,
    workerCount := 2, tokenCount := 0xffffffff, hidden := 1, tokenRecordBytes := 32,
    assignmentRecordBytes := 16, tokensOffset := 128, assignmentsOffset := 137438953600,
    hiddenOffset := 137438953600, packetBytes := 146028888192 }

/-- A session of two workers and one expert. -/
def hugeSession : SessionConfig :=
  { sessionId := 1, placementEpoch := 1, workerCount := 2, expertCount := 1, hidden := 1,
    ringSlots := 1 }

/-- A region of one slot for it. -/
def hugeRegistration : RegionRegistration :=
  { sessionId := 1, placementEpoch := 1, regionId := 1, slotCount := 1, regionBytes := 128,
    slotStride := 128 }

/-- The slot is its header and nothing else, and the parser refuses it. -/
theorem parser_memory_safe_huge :
    parseReadyAndSlot hugeRegistration hugeSession (builtReady hugeHeader)
        (some (SlotHeader.codec.enc hugeHeader)) 128
      = fail .invalidHeader "noncanonical slot offsets" ∧
    (parseReadyAndSlot hugeRegistration hugeSession (builtReady hugeHeader)
      (some (SlotHeader.codec.enc hugeHeader)) 128).statusOf .ok ≠ none :=
  ⟨by decide +kernel, (parser_memory_safe hugeRegistration hugeSession (builtReady hugeHeader)
    (some (SlotHeader.codec.enc hugeHeader)) 128 true (by
      intro bytes hbytes
      cases hbytes
      exact SlotHeader.codec.length_enc hugeHeader)).1⟩

end AscendShmem.PullV2
