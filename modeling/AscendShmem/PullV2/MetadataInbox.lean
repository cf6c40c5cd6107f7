import AscendShmem.PullV2.ParserBlocks

/-!
# The metadata inbox

A worker pushes its header, its records and the padding behind them into the slice of the INC's
inbox that belongs to it, as far as they fit into one stride; a longer prefix it cuts down to the
header. The INC reads the slice by the offsets of the header. `validateHeader` bounds these offsets
by the stride of a source slot, which may be larger than the stride of the inbox.

`MetadataRead` lists the bytes the INC reads for one source, as far as what it has read before lets
it go on, and `metadata_contained_iff` says for which headers they stay inside the slice.
-/

namespace AscendShmem.PullV2

open Lib Lib.Exec

/-! ## What the worker pushes -/

/-- `metadata_bytes` -/
def metadataPushBytes (launch : DispatchLaunch) (header : SlotHeader) : UInt64 :=
  if slotHeaderBytes ≤ header.hiddenOffset.toNat ∧
      header.hiddenOffset ≤ launch.metadataInboxStride ∧
      header.hiddenOffset % kPullDispatchAlignment.toUInt64 = 0 then
    header.hiddenOffset
  else UInt64.ofNat slotHeaderBytes

/-- The address of byte `o` behind the slice base of source `s`, relative to `metadata_inbox`. -/
def inboxByte (launch : DispatchLaunch) (s : UInt32) (o : ℕ) : UInt64 :=
  strideByte launch.metadataInboxStride s o

/-- The slice of source `s`. -/
def inboxSlice (launch : DispatchLaunch) (s : UInt32) : Set UInt64 :=
  strideSlice launch.metadataInboxStride s

/-- The bytes worker `s` pushes when `header` stands at its source slot. -/
def inboxPushed (launch : DispatchLaunch) (s : UInt32) (header : SlotHeader) : Set UInt64 :=
  inboxByte launch s '' Set.Iio (metadataPushBytes launch header).toNat

/-! ## What the INC reads -/

/-- `padding_begin` of `HiddenPaddingZero`. -/
def paddingBegin (header : SlotHeader) : ℕ :=
  (header.assignmentsOffset
    + mulU64ByU32 (UInt64.ofNat assignmentRecordBytes) header.assignmentCount).toNat

/-- The bytes of token record `t`. -/
def tokenRange (header : SlotHeader) (t : ℕ) : Set ℕ :=
  Set.Ico (header.tokensOffset.toNat + tokenRecordBytes * t)
    (header.tokensOffset.toNat + tokenRecordBytes * (t + 1))

/-- The bytes of assignment record `j`. -/
def assignmentRange (header : SlotHeader) (j : ℕ) : Set ℕ :=
  Set.Ico (header.assignmentsOffset.toNat + assignmentRecordBytes * j)
    (header.assignmentsOffset.toNat + assignmentRecordBytes * (j + 1))

/-- What stands in the inbox at and behind the slice base of a source: records, and the bytes of
the padding by their offset. -/
structure InboxSlot where
  source : ParsedSource
  padding : ℕ → UInt8

namespace InboxSlot

variable (launch : DispatchLaunch) (slot : InboxSlot)

/-- The header of the slot. -/
abbrev header : SlotHeader := slot.source.header

/-- `HiddenPaddingZero` as far as byte `o`. -/
def PaddingZero (o : ℕ) : Prop :=
  ∀ p, paddingBegin slot.header ≤ p → p < o → slot.padding p = 0

/-- The lane comes to token `t`: the padding is zero, and every token of the slice before `t`
passes. -/
def Reached (lane t : ℕ) : Prop :=
  slot.PaddingZero slot.header.hiddenOffset.toNat ∧ lane < launch.parserCohort.toNat ∧
    launch.cut slot.source lane ≤ t ∧ t < launch.cut slot.source (lane + 1) ∧
    ∃ cells, (List.range' (launch.cut slot.source lane) (t - launch.cut slot.source lane)).foldlM
      (scanToken launch slot.source) ParserCells.zero = .ok cells

/-- Byte `o` behind the slice base is read as metadata of the source. -/
inductive MetadataRead : ℕ → Prop where
  /-- `ValidateHeader` -/
  | header {o : ℕ} (h : o < slotHeaderBytes) : MetadataRead o
  /-- `HiddenPaddingZero` stops at the first byte that is not zero. -/
  | padding {o : ℕ} (hbegin : paddingBegin slot.header ≤ o)
      (hend : o < slot.header.hiddenOffset.toNat) (hzero : slot.PaddingZero o) : MetadataRead o
  /-- The record of a token, and the one before it for `expected_begin`. -/
  | record {lane t k o : ℕ} (h : slot.Reached launch lane t) (hk : k = t ∨ k + 1 = t)
      (ho : o ∈ tokenRange slot.header k) : MetadataRead o
  /-- The assignments of a token whose record passes; the first scan stops at one that fails. -/
  | assignment {lane t j o : ℕ} {record : TokenRecord} (h : slot.Reached launch lane t)
      (hrecord : slot.source.tokens[t]? = some record)
      (hscan : scanRecord slot.source record t = .ok ())
      (hj : j < record.assignmentCount.toNat)
      (hbefore : ∀ i < j, ∃ a, assignmentAt slot.source record i = .ok a ∧
        scanAssignment launch record a = .ok ())
      (ho : o ∈ assignmentRange slot.header (record.assignmentBegin.toNat + j)) : MetadataRead o
  /-- Phase 2 and `MetadataDigest`, once every lane has gone through. -/
  | digest {o : ℕ} (hzero : slot.PaddingZero slot.header.hiddenOffset.toNat)
      (hlanes : ∀ lane < launch.parserCohort.toNat, ∃ cells,
        countSlice launch slot.source lane = .ok cells)
      (ho : (∃ t < slot.header.tokenCount.toNat, o ∈ tokenRange slot.header t) ∨
        ∃ j < slot.header.assignmentCount.toNat, o ∈ assignmentRange slot.header j) :
      MetadataRead o

end InboxSlot

/-- Whatever stands behind `header` in the inbox, the INC reads only bytes of the source's own
slice, and only bytes its worker has pushed. -/
def MetadataContained (launch : DispatchLaunch) (s : UInt32) (header : SlotHeader) : Prop :=
  ∀ slot : InboxSlot, slot.header = header → SourceReady launch s.toNat slot.source →
    ∀ o, slot.MetadataRead launch o →
      inboxByte launch s o ∈ inboxSlice launch s ∧
      inboxByte launch s o ∈ inboxPushed launch s header

/-! ## Canonical offsets -/

/-- The offsets of an accepted header in `ℕ`. -/
structure CanonicalOffsets (header : SlotHeader) : Prop where
  tokens : header.tokensOffset.toNat = slotHeaderBytes
  assignments : header.assignmentsOffset.toNat
    = alignUp (slotHeaderBytes + tokenRecordBytes * header.tokenCount.toNat)
  hidden : header.hiddenOffset.toNat
    = alignUp (header.assignmentsOffset.toNat
      + assignmentRecordBytes * header.assignmentCount.toNat)
  padding : paddingBegin header
    = header.assignmentsOffset.toNat + assignmentRecordBytes * header.assignmentCount.toNat

/-- An accepted header has the canonical offsets. -/
theorem validateHeader_offsets {launch : DispatchLaunch} {r : ℕ} {header : SlotHeader}
    (h : validateHeader launch r header = .ok ()) : CanonicalOffsets header := by
  unfold validateHeader at h
  rw [bind_eq_ok] at h
  obtain ⟨_, _, h⟩ := h
  rw [bind_eq_ok] at h
  obtain ⟨⟨hb, t, a, hd, p⟩, hoffsets, h⟩ := h
  rw [orFail_eq_ok] at hoffsets
  have hmatch := require_eq_ok.mp h
  obtain ⟨htokens, hassignments, hhidden, _, _⟩ := hmatch
  unfold deviceOffsets at hoffsets
  simp only [Option.bind_eq_bind, Option.bind_eq_some_iff, Option.some.injEq, Prod.mk.injEq] at hoffsets
  obtain ⟨tb, htb, ab, hab, _, _, _, _, ct, hct, e1, he1, ca, hca, e2, he2, ch, hch, _, _, _, _,
    _, rfl, rfl, rfl, _⟩ := hoffsets
  have h64 : kPullDispatchAlignment.toUInt64 = 64 := by decide
  rw [h64, alignU64_eq_align, align_eq_some] at hct hca hch
  rw [checkedMulU64ByU32_eq_some] at htb hab
  rw [addU64_eq_add, add_eq_some] at he1 he2
  have hslot : (UInt64.ofNat slotHeaderBytes).toNat = 128 := by decide
  have h32 : (UInt64.ofNat tokenRecordBytes).toNat = 32 := by decide
  have h16 : (UInt64.ofNat assignmentRecordBytes).toNat = 16 := by decide
  rw [hslot] at hct
  rw [h32] at htb
  rw [h16] at hab
  have h128 : ct.toNat = 128 := hct.symm
  have he := e2.toNat_lt
  refine ⟨?_, ?_, ?_, ?_⟩
  · rw [htokens, h128]
    rfl
  · rw [hassignments, ← hca, ← he1, ← htb, h128]
    rfl
  · rw [hhidden, hassignments, ← hch, ← he2, ← hab]
    rfl
  · unfold paddingBegin
    rw [UInt64.toNat_add, mulU64ByU32_toNat, h16, hab, hassignments,
      Nat.mod_eq_of_lt ab.toNat_lt, he2, Nat.mod_eq_of_lt he, ← he2, ← hab]
    rfl

/-! ## Reads inside the metadata -/

/-- Every token belongs to a lane. -/
theorem lane_of_token {launch : DispatchLaunch} (hvalid : launch.Valid) (source : ParsedSource)
    {t : ℕ} (ht : t < source.header.tokenCount.toNat) :
    ∃ lane < launch.parserCohort.toNat,
      launch.cut source lane ≤ t ∧ t < launch.cut source (lane + 1) := by
  -- the first cut behind `t`
  have hlast : launch.cut source launch.parserCohort.toNat = source.header.tokenCount.toNat :=
    boundary_last _ hvalid.cohort_pos
  have hex : ∃ n, t < launch.cut source n := ⟨_, by rw [hlast]; exact ht⟩
  have hfind := Nat.find_spec hex
  have hle : Nat.find hex ≤ launch.parserCohort.toNat :=
    Nat.find_min' hex (by rw [hlast]; exact ht)
  have hpos : Nat.find hex ≠ 0 := by
    intro hzero
    rw [hzero] at hfind
    have hcut : launch.cut source 0 = 0 := boundary_zero _ _
    omega
  obtain ⟨lane, hlane⟩ := Nat.exists_eq_succ_of_ne_zero hpos
  have hmin : ¬ t < launch.cut source lane := Nat.find_min hex (by omega)
  rw [hlane] at hfind
  exact ⟨lane, by omega, by omega, hfind⟩

namespace InboxSlot

variable {launch : DispatchLaunch} {slot : InboxSlot} {r : ℕ}

/-- Records end before the hidden rows. -/
theorem mem_tokenRange_lt (h : CanonicalOffsets slot.header) {t o : ℕ}
    (ht : t < slot.header.tokenCount.toNat) (ho : o ∈ tokenRange slot.header t) :
    o < slot.header.hiddenOffset.toNat := by
  have hmul : tokenRecordBytes * (t + 1) ≤ tokenRecordBytes * slot.header.tokenCount.toNat :=
    Nat.mul_le_mul_left _ ht
  have hassign := le_alignUp (slotHeaderBytes + tokenRecordBytes * slot.header.tokenCount.toNat)
  have hhidden := le_alignUp (slot.header.assignmentsOffset.toNat
    + assignmentRecordBytes * slot.header.assignmentCount.toNat)
  have hend : o < slot.header.tokensOffset.toNat + tokenRecordBytes * (t + 1) := ho.2
  rw [h.tokens] at hend
  rw [← h.assignments] at hassign
  rw [← h.hidden] at hhidden
  omega

/-- An assignment is read before the hidden payload. -/
theorem mem_assignmentRange_lt (h : CanonicalOffsets slot.header) {j o : ℕ}
    (hj : j < slot.header.assignmentCount.toNat) (ho : o ∈ assignmentRange slot.header j) :
    o < slot.header.hiddenOffset.toNat := by
  have hmul : assignmentRecordBytes * (j + 1)
      ≤ assignmentRecordBytes * slot.header.assignmentCount.toNat := Nat.mul_le_mul_left _ hj
  have hhidden := le_alignUp (slot.header.assignmentsOffset.toNat
    + assignmentRecordBytes * slot.header.assignmentCount.toNat)
  have hend : o < slot.header.assignmentsOffset.toNat + assignmentRecordBytes * (j + 1) := ho.2
  rw [← h.hidden] at hhidden
  omega

/-- A lane comes only to tokens the header counts. -/
theorem Reached.lt {lane t : ℕ} (h : slot.Reached launch lane t) :
    t < slot.header.tokenCount.toNat :=
  h.2.2.2.1.trans_le (boundary_le _ _ _)

/-- No read goes past the offset of the hidden rows. -/
theorem MetadataRead.lt (h : CanonicalOffsets slot.header) {o : ℕ}
    (hread : slot.MetadataRead launch o) :
    o < slot.header.hiddenOffset.toNat := by
  cases hread with
  | header ho =>
    have hassign := le_alignUp (slotHeaderBytes + tokenRecordBytes * slot.header.tokenCount.toNat)
    have hhidden := le_alignUp (slot.header.assignmentsOffset.toNat
      + assignmentRecordBytes * slot.header.assignmentCount.toNat)
    rw [← h.assignments] at hassign
    rw [← h.hidden] at hhidden
    omega
  | padding hbegin hend hzero => exact hend
  | record hreached hk ho =>
    have hlt := hreached.lt
    exact mem_tokenRange_lt h (by omega) ho
  | assignment hreached hrecord hscan hj hbefore ho =>
    -- the record passed, so its range ends below the count of the header
    have hin : _ ≤ slot.header.assignmentCount.toNat :=
      (Ends.of_ok (scanRecord_ends hrecord) hscan).inRange
    exact mem_assignmentRange_lt h (by omega) ho
  | digest hzero hlanes ho =>
    rcases ho with ⟨t, ht, ho⟩ | ⟨j, hj, ho⟩
    · exact mem_tokenRange_lt h ht ho
    · exact mem_assignmentRange_lt h hj ho

/-- A slot without tokens and padding is read no further than its header. -/
theorem MetadataRead.lt_header (hvalid : launch.Valid)
    (hready : SourceReady launch r slot.source) (htokens : slot.header.tokenCount.toNat = 0)
    (hpadding : paddingBegin slot.header = slot.header.hiddenOffset.toNat) {o : ℕ}
    (hread : slot.MetadataRead launch o) : o < slotHeaderBytes := by
  cases hread with
  | header ho => exact ho
  | padding hbegin hend hzero => omega
  | record hreached hk ho =>
    have hlt := hreached.lt
    omega
  | assignment hreached hrecord hscan hj hbefore ho =>
    have hlt := hreached.lt
    omega
  | digest hzero hlanes ho =>
    rcases ho with ⟨t, ht, ho⟩ | ⟨j, hj, ho⟩
    · omega
    · -- lane 0 refuses assignments without tokens
      obtain ⟨cells, hcells⟩ := hlanes 0 hvalid.cohort_pos
      have hnone := (Ends.of_ok (countSlice_ends hready hvalid.cohort_pos) hcells).1 rfl
        (by rw [hready.tokens]; exact htokens)
      have hlen := hready.assignments
      have hj : j < slot.source.header.assignmentCount.toNat := hj
      omega

end InboxSlot

/-! ## A slot that is read to its end -/

/-- Records in order; the last one takes all assignments. -/
def crowdedRecord (header : SlotHeader) (t : ℕ) : TokenRecord :=
  { sourceToken := UInt32.ofNat t
    assignmentCount := if t + 1 = header.tokenCount.toNat then header.assignmentCount else 0 }

/-- A source whose last token has all assignments. -/
def crowdedSource (header : SlotHeader) : ParsedSource where
  header := header
  tokens := (List.range header.tokenCount.toNat).map (crowdedRecord header)
  assignments := List.replicate header.assignmentCount.toNat {}

section Crowded

variable {launch : DispatchLaunch} {r : ℕ} {header : SlotHeader} {t : ℕ}

theorem crowdedRecord_last (ht : t + 1 = header.tokenCount.toNat) :
    (crowdedRecord header t).assignmentCount = header.assignmentCount := if_pos ht

theorem crowdedRecord_of_lt (ht : t + 1 < header.tokenCount.toNat) :
    (crowdedRecord header t).assignmentCount = 0 := if_neg (by omega)

theorem crowdedSource_ready (h : validateHeader launch r header = .ok ()) :
    SourceReady launch r (crowdedSource header) where
  header := h
  tokens := by rw [crowdedSource, List.length_map, List.length_range]
  assignments := by rw [crowdedSource, List.length_replicate]

theorem crowdedSource_token (ht : t < header.tokenCount.toNat) :
    (crowdedSource header).tokens[t]? = some (crowdedRecord header t) := by
  rw [crowdedSource, List.getElem?_map, List.getElem?_range ht]
  rfl

theorem crowdedSource_begin (ht : t < header.tokenCount.toNat) :
    expectedBegin (crowdedSource header) t = 0 := by
  cases t with
  | zero => rfl
  | succ t =>
    rw [expectedBegin, crowdedSource_token (by omega), Option.elim_some, crowdedRecord_of_lt ht]
    rfl

/-- Every record is scanned. -/
theorem crowdedSource_scanned (ht : t < header.tokenCount.toNat) :
    RecordScanned (crowdedSource header) t (crowdedRecord header t) := by
  have hcount := header.tokenCount.toNat_lt
  have hzero : (crowdedRecord header t).assignmentBegin.toNat = 0 := rfl
  have hle : (crowdedRecord header t).assignmentCount.toNat ≤ header.assignmentCount.toNat := by
    unfold crowdedRecord
    split
    · exact le_refl _
    · exact Nat.zero_le _
  refine ⟨?_, ?_, ?_, ?_, rfl, rfl⟩
  · show (UInt32.ofNat t).toNat = t
    rw [UInt32.toNat_ofNat', Nat.mod_eq_of_lt (by omega)]
  · rw [crowdedSource_begin ht, hzero]
  · rw [hzero, Nat.zero_add]
    exact hle
  · intro hlast
    have hlast : t + 1 = header.tokenCount.toNat := hlast
    rw [hzero, Nat.zero_add, crowdedRecord_last hlast]
    rfl

/-- The record test of a token succeeds. -/
theorem crowdedSource_scanRecord (ht : t < header.tokenCount.toNat) :
    scanRecord (crowdedSource header) (crowdedRecord header t) t = .ok () := by
  have hends := scanRecord_ends (crowdedSource_token ht)
  have hends : Ends _ (fun _ => True) (fun _ => False) False :=
    hends.mono (fun _ _ => trivial) (fun _ hbad => hbad (crowdedSource_scanned ht)) id
  obtain ⟨_, h, _⟩ := Ends.exists_ok hends
  exact h

/-- A token in front of the last one has nothing to scan. -/
theorem crowdedSource_scanToken (ht : t + 1 < header.tokenCount.toNat) (cells : ParserCells) :
    scanToken launch (crowdedSource header) cells t = .ok cells := by
  have hrecord : crowdedRecord header t = { sourceToken := UInt32.ofNat t } := by
    unfold crowdedRecord
    rw [if_neg (by omega)]
  have hscan : scanRecord (crowdedSource header) (crowdedRecord header t) t = .ok () :=
    crowdedSource_scanRecord (by omega)
  have hread : (crowdedSource header).tokens[t]? = some (crowdedRecord header t) :=
    crowdedSource_token (by omega)
  rw [hrecord] at hscan hread
  unfold scanToken
  rw [read_of hread, ok_bind, hscan]
  rfl

/-- Some lane comes to the last token. -/
theorem crowdedSource_reached (hvalid : launch.Valid) {padding : ℕ → UInt8}
    (hpadding : paddingBegin header = header.hiddenOffset.toNat)
    (ht : t + 1 = header.tokenCount.toNat) :
    ∃ lane, (InboxSlot.mk (crowdedSource header) padding).Reached launch lane t := by
  obtain ⟨lane, hlane, hbegin, hend⟩ := lane_of_token hvalid (crowdedSource header)
    (t := t) (by show t < header.tokenCount.toNat; omega)
  refine ⟨lane, ?_, hlane, hbegin, hend, ParserCells.zero, ?_⟩
  · intro p hp hlt
    have hp : paddingBegin header ≤ p := hp
    have hlt : p < header.hiddenOffset.toNat := hlt
    omega
  · -- the tokens of the slice in front of the last one leave the cells as they are
    have hall : ∀ n k, k + n ≤ t → (List.range' k n).foldlM
        (scanToken launch (crowdedSource header)) ParserCells.zero = .ok ParserCells.zero := by
      intro n
      induction n with
      | zero => intro k _; rfl
      | succ n ih =>
        intro k hk
        rw [List.range'_succ, List.foldlM_cons, crowdedSource_scanToken (by omega), ok_bind]
        exact ih (k + 1) (by omega)
    exact hall _ _ (Nat.add_sub_of_le hbegin).le

theorem crowdedSource_assignment {i : ℕ} (hi : i < header.assignmentCount.toNat) :
    assignmentAt (crowdedSource header) (crowdedRecord header t) i = .ok {} := by
  apply read_of
  show (List.replicate header.assignmentCount.toNat ({} : AssignmentRecord))[0 + i]? = some {}
  rw [Nat.zero_add, List.getElem?_replicate, if_pos hi]

/-- The default assignment names worker 0, expert 0 and ordinal 0. -/
theorem scanAssignment_default (hvalid : launch.Valid) {record : TokenRecord}
    (hcount : 0 < record.assignmentCount.toNat) :
    scanAssignment launch record {} = .ok () := by
  apply require_eq_ok.mpr
  refine ⟨?_, ?_, by decide, by decide, ?_⟩
  · have hworkers := UInt32.le_iff_toNat_le.mp hvalid.workers.1
    apply UInt32.lt_iff_toNat_lt.mpr
    exact lt_of_lt_of_le (by decide) hworkers
  · apply UInt32.lt_iff_toNat_lt.mpr
    rcases Nat.eq_zero_or_pos launch.expertCount.toNat with hzero | hpos
    · exact absurd (UInt32.toNat_inj.mp hzero) hvalid.shape.1
    · exact hpos
  · exact UInt32.lt_iff_toNat_lt.mpr hcount

/-- Without padding the last byte of the metadata is read. -/
theorem crowdedSource_read_last (hvalid : launch.Valid) (h : CanonicalOffsets header)
    {padding : ℕ → UInt8} (hpadding : paddingBegin header = header.hiddenOffset.toNat)
    (htokens : header.tokenCount.toNat ≠ 0) :
    ∃ o, header.hiddenOffset.toNat ≤ o + 64 ∧
      (InboxSlot.mk (crowdedSource header) padding).MetadataRead launch o := by
  obtain ⟨t, ht⟩ : ∃ t, t + 1 = header.tokenCount.toNat :=
    ⟨header.tokenCount.toNat - 1, by omega⟩
  obtain ⟨lane, hreached⟩ : ∃ lane,
      (InboxSlot.mk (crowdedSource header) padding).Reached launch lane t :=
    crowdedSource_reached hvalid hpadding ht
  by_cases hassignments : header.assignmentCount.toNat = 0
  · -- the last byte of the last record; only the rounding of the records lies behind it
    have hend := h.hidden
    rw [hassignments, Nat.mul_zero, Nat.add_zero, h.assignments,
      alignUp_of_mod (alignUp_mod _), ← ht] at hend
    have hlt := alignUp_lt (slotHeaderBytes + tokenRecordBytes * (t + 1))
    refine ⟨header.tokensOffset.toNat + tokenRecordBytes * (t + 1) - 1, ?_,
      .record hreached (Or.inl rfl) ⟨?_, ?_⟩⟩
    · rw [h.tokens]
      omega
    · show header.tokensOffset.toNat + tokenRecordBytes * t ≤ _
      unfold tokenRecordBytes
      omega
    · show _ < header.tokensOffset.toNat + tokenRecordBytes * (t + 1)
      unfold tokenRecordBytes
      omega
  · -- the last byte of the last assignment
    obtain ⟨j, hj⟩ : ∃ j, j + 1 = header.assignmentCount.toNat :=
      ⟨header.assignmentCount.toNat - 1, by omega⟩
    have hcount : (crowdedRecord header t).assignmentCount.toNat = header.assignmentCount.toNat := by
      rw [crowdedRecord_last ht]
    have hend := h.padding
    rw [hpadding, ← hj] at hend
    refine ⟨header.hiddenOffset.toNat - 1, by omega,
      .assignment (j := j) hreached (crowdedSource_token (by omega))
        (crowdedSource_scanRecord (by omega)) (by omega) ?_ ⟨?_, ?_⟩⟩
    · intro i hi
      exact ⟨{}, crowdedSource_assignment (by omega), scanAssignment_default hvalid (by omega)⟩
    · show header.assignmentsOffset.toNat + assignmentRecordBytes * (0 + j) ≤ _
      rw [hend]
      unfold assignmentRecordBytes
      omega
    · show _ < header.assignmentsOffset.toNat + assignmentRecordBytes * (0 + j + 1)
      rw [hend]
      unfold assignmentRecordBytes
      omega

end Crowded

/-! ## Containment -/

section Containment

variable {launch : DispatchLaunch} {s : UInt32} {header : SlotHeader}

theorem inboxStride_mod (hvalid : launch.Valid) : launch.metadataInboxStride.toNat % 64 = 0 := by
  have h := congrArg UInt64.toNat hvalid.inbox.2.2
  rw [UInt64.toNat_mod] at h
  exact h

theorem header_le_inboxStride (hvalid : launch.Valid) :
    slotHeaderBytes ≤ launch.metadataInboxStride.toNat := hvalid.inbox.1

/-- A header whose metadata fits is pushed with all of it. -/
theorem metadataPushBytes_of_le (h : CanonicalOffsets header)
    (hle : header.hiddenOffset ≤ launch.metadataInboxStride) :
    metadataPushBytes launch header = header.hiddenOffset := by
  have hassign := le_alignUp (slotHeaderBytes + tokenRecordBytes * header.tokenCount.toNat)
  have hhidden := le_alignUp (header.assignmentsOffset.toNat
    + assignmentRecordBytes * header.assignmentCount.toNat)
  have hmod : header.hiddenOffset.toNat % 64 = 0 := by
    rw [h.hidden]
    exact alignUp_mod _
  rw [← h.assignments] at hassign
  rw [← h.hidden] at hhidden
  apply if_pos
  refine ⟨by omega, hle, ?_⟩
  apply UInt64.toNat_inj.mp
  rw [UInt64.toNat_mod]
  exact hmod

theorem header_le_metadataPushBytes : slotHeaderBytes ≤ (metadataPushBytes launch header).toNat := by
  unfold metadataPushBytes
  split
  · next h => exact h.1
  · exact le_refl _

/-- One read at or behind the stride leaves the slice. -/
theorem not_contained_of_read {slot : InboxSlot} (hheader : slot.header = header)
    (hready : SourceReady launch s.toNat slot.source) {o : ℕ} (hread : slot.MetadataRead launch o)
    (ho : launch.metadataInboxStride.toNat ≤ o) : ¬ MetadataContained launch s header := by
  intro hcontained
  have hlt := hread.lt (validateHeader_offsets hready.header)
  have hword := slot.header.hiddenOffset.toNat_lt
  have hin := (strideByte_mem_slice (by omega)).mp (hcontained slot hheader hready o hread).1
  omega

/-- Padding behind the stride is read whatever the records say. -/
theorem not_contained_of_padding (hvalid : launch.Valid)
    (hheader : validateHeader launch s.toNat header = .ok ())
    (hwide : launch.metadataInboxStride < header.hiddenOffset)
    (hpadding : paddingBegin header ≠ header.hiddenOffset.toNat) :
    ¬ MetadataContained launch s header := by
  have h := validateHeader_offsets hheader
  have hmod := inboxStride_mod hvalid
  have hwide := UInt64.lt_iff_toNat_lt.mp hwide
  have hlo := le_alignUp (paddingBegin header)
  have hhi := alignUp_lt (paddingBegin header)
  have hround := alignUp_mod (paddingBegin header)
  have hhidden : alignUp (paddingBegin header) = header.hiddenOffset.toNat := by
    rw [h.padding, ← h.hidden]
  rw [hhidden] at hlo hhi hround
  have hread : (InboxSlot.mk (crowdedSource header) fun _ => 0).MetadataRead launch
      (paddingBegin header) := by
    apply InboxSlot.MetadataRead.padding (le_refl _)
    · show paddingBegin header < header.hiddenOffset.toNat
      omega
    · intro p hp hlt
      exact absurd hlt (not_lt.mpr hp)
  exact not_contained_of_read rfl (crowdedSource_ready hheader) hread (by omega)

/-- The metadata of an accepted header is read inside what its worker has pushed exactly when it
fits into the stride of the inbox, or when there is nothing to read behind the header. -/
theorem metadata_contained_iff (hvalid : launch.Valid)
    (hheader : validateHeader launch s.toNat header = .ok ()) :
    MetadataContained launch s header ↔
      header.hiddenOffset ≤ launch.metadataInboxStride ∨
        header.tokenCount = 0 ∧ header.assignmentCount % 4 = 0 := by
  have h := validateHeader_offsets hheader
  have hmod := inboxStride_mod hvalid
  have hround : header.hiddenOffset.toNat % 64 = 0 := by
    rw [h.hidden]
    exact alignUp_mod _
  have hlines : header.assignmentsOffset.toNat % 64 = 0 := by
    rw [h.assignments]
    exact alignUp_mod _
  -- no padding means whole lines of four assignments
  have hfour : paddingBegin header = header.hiddenOffset.toNat ↔
      header.assignmentCount.toNat % 4 = 0 := by
    rw [h.padding, h.hidden]
    unfold assignmentRecordBytes
    constructor
    · intro heq
      have hmod := alignUp_mod
        (header.assignmentsOffset.toNat + 16 * header.assignmentCount.toNat)
      omega
    · intro heq
      exact (alignUp_of_mod (by omega)).symm
  have hcount : header.assignmentCount % 4 = 0 ↔ header.assignmentCount.toNat % 4 = 0 := by
    rw [← UInt32.toNat_inj, UInt32.toNat_mod]
    rfl
  have hnone : header.tokenCount = 0 ↔ header.tokenCount.toNat = 0 := by
    rw [← UInt32.toNat_inj]
    rfl
  constructor
  · intro hcontained
    by_contra hout
    rw [not_or, not_and, hcount, hnone, UInt64.not_le] at hout
    obtain ⟨hwide, hread⟩ := hout
    by_cases hpadding : paddingBegin header = header.hiddenOffset.toNat
    · have htokens : header.tokenCount.toNat ≠ 0 := fun hzero => hread hzero (hfour.mp hpadding)
      obtain ⟨o, ho, hread⟩ : ∃ o, header.hiddenOffset.toNat ≤ o + 64 ∧
          (InboxSlot.mk (crowdedSource header) fun _ => 0).MetadataRead launch o :=
        crowdedSource_read_last hvalid h hpadding htokens
      have hwide := UInt64.lt_iff_toNat_lt.mp hwide
      exact not_contained_of_read rfl (crowdedSource_ready hheader) hread (by omega) hcontained
    · exact not_contained_of_padding hvalid hheader hwide hpadding hcontained
  · intro hfits slot hslot hready o hread
    subst hslot
    have hstride := header_le_inboxStride hvalid
    have hpushed : slotHeaderBytes ≤ (metadataPushBytes launch slot.header).toNat :=
      header_le_metadataPushBytes
    rcases hfits with hle | ⟨htokens, hassignments⟩
    · have hlt := hread.lt h
      have hbytes : metadataPushBytes launch slot.header = slot.header.hiddenOffset :=
        metadataPushBytes_of_le h hle
      have hle := UInt64.le_iff_toNat_le.mp hle
      constructor
      · exact Set.mem_image_of_mem _ (show o < _ by omega)
      · exact Set.mem_image_of_mem _ (show o < _ by rw [hbytes]; exact hlt)
    · have hlt := hread.lt_header hvalid hready (hnone.mp htokens)
        (hfour.mpr (hcount.mp hassignments))
      constructor
      · exact Set.mem_image_of_mem _ (show o < _ by omega)
      · exact Set.mem_image_of_mem _ (show o < _ by omega)

end Containment

theorem metadata_contained_iff_sample : MetadataContained sampleLaunch 0 sampleHeader :=
  (metadata_contained_iff (by decide +kernel) (by decide +kernel)).mpr (Or.inl (by decide))

/-- The sample launch with an inbox of one header a source. -/
def narrowInboxLaunch : DispatchLaunch := { sampleLaunch with metadataInboxStride := 128 }

/-- The launch and the header are accepted, and the padding at byte 208 is read from the slice of
the next source. -/
theorem narrow_inbox_not_contained : narrowInboxLaunch.Valid ∧
    validateHeader narrowInboxLaunch (0 : UInt32).toNat sampleHeader = .ok () ∧
    ¬ MetadataContained narrowInboxLaunch 0 sampleHeader := by
  have hvalid : narrowInboxLaunch.Valid := by decide +kernel
  have hheader : validateHeader narrowInboxLaunch (0 : UInt32).toNat sampleHeader = .ok () := by
    decide +kernel
  exact ⟨hvalid, hheader, not_contained_of_padding hvalid hheader (by decide) (by decide)⟩

end AscendShmem.PullV2
