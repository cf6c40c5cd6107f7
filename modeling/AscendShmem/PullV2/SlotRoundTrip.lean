import Mathlib
import AscendShmem.PullV2.SlotTheorems

/-!
# Encoder and parser of a slot

`buildSlot_ends` says which inputs the encoder accepts and what bytes it writes. Parsing a
built slot gives the input back. The other way round, an accepted slot is rebuilt byte for
byte up to its hidden rows, except for the gap between the token and the assignment records:
the parser never looks at it.
-/

namespace AscendShmem.PullV2

open Lib Lib.Exec

/-! ## The encoder -/

/-- `assignment_offsets[k]`. -/
def offsetAt (input : SourceInput) (k : ℕ) : UInt32 := input.assignmentOffsets.getD k 0

/-- The record the encoder writes for token `k`. -/
def builtToken (input : SourceInput) (k : ℕ) : TokenRecord :=
  { tokenId := input.tokenIds.getD k 0, sourceToken := UInt32.ofNat k,
    assignmentBegin := offsetAt input k,
    assignmentCount := offsetAt input (k + 1) - offsetAt input k }

/-- The records that are built for the tokens. -/
def builtTokens (input : SourceInput) : List TokenRecord :=
  (List.range input.tokenIds.length).map (builtToken input)

/-- The records of an input, as the parser returns them apart from the header. -/
def builtSource (input : SourceInput) : ParsedSource :=
  { tokens := builtTokens input, assignments := input.assignments,
    hiddenPayload := input.hiddenPayload }

@[simp] theorem length_builtTokens (input : SourceInput) :
    (builtTokens input).length = input.tokenIds.length := by
  simp [builtTokens]

theorem getElem?_builtTokens {input : SourceInput} {k : ℕ} (hk : k < input.tokenIds.length) :
    (builtTokens input)[k]? = some (builtToken input k) := by
  simp [builtTokens, List.getElem?_range hk]

/-- The offsets of a valid input go up from 0 to the number of assignments. -/
structure OffsetsSorted (input : SourceInput) : Prop where
  length : input.assignmentOffsets.length = input.tokenIds.length + 1
  first : offsetAt input 0 = 0
  last : (offsetAt input input.tokenIds.length).toNat = input.assignments.length
  mono : ∀ j k, j ≤ k → k ≤ input.tokenIds.length →
    (offsetAt input j).toNat ≤ (offsetAt input k).toNat

/-- The offsets of the tokens are there. -/
theorem OffsetsSorted.getElem? {input : SourceInput} (h : OffsetsSorted input) (k : ℕ)
    (hk : k ≤ input.tokenIds.length) :
    input.assignmentOffsets[k]? = some (offsetAt input k) := by
  have := h.length
  rw [offsetAt, List.getD_eq_getElem?_getD, List.getElem?_eq_getElem (by omega)]
  rfl

/-- The offsets of a valid input are sorted. -/
theorem offsetsSorted_of_inputValid {input : SourceInput} (h : inputValid input) :
    OffsetsSorted input := by
  obtain ⟨-, -, -, -, -, -, -, -, hlen, -, hhead, hlast, hsorted⟩ := h
  have hget : ∀ k, k ≤ input.tokenIds.length →
      input.assignmentOffsets[k]? = some (offsetAt input k) := by
    intro k hk
    rw [offsetAt, List.getD_eq_getElem?_getD, List.getElem?_eq_getElem (by omega)]
    rfl
  refine ⟨hlen, ?_, ?_, ?_⟩
  · rw [List.head?_eq_getElem?, hget 0 (by omega)] at hhead
    exact Option.some.inj hhead
  · rw [List.getLast?_eq_getElem?, hlen, Nat.add_sub_cancel, hget _ (le_refl _)] at hlast
    exact Option.some.inj hlast
  · intro j k hjk hk
    rcases Nat.eq_or_lt_of_le hjk with rfl | hlt
    · exact le_refl _
    · obtain ⟨hj', hj⟩ := List.getElem?_eq_some_iff.mp (hget j (by omega))
      obtain ⟨hk', hk⟩ := List.getElem?_eq_some_iff.mp (hget k hk)
      have h := List.pairwise_iff_getElem.mp hsorted j k hj' hk' hlt
      rw [hj, hk] at h
      exact UInt32.le_iff_toNat_le.mp h

/-- The counts of the built records are the differences of the offsets. -/
theorem OffsetsSorted.count {input : SourceInput} (h : OffsetsSorted input) {k : ℕ}
    (hk : k < input.tokenIds.length) :
    (builtToken input k).assignmentCount.toNat
      = (offsetAt input (k + 1)).toNat - (offsetAt input k).toNat :=
  UInt32.toNat_sub_of_le _ _ (UInt32.le_iff_toNat_le.mpr (h.mono k (k + 1) (by omega) hk))

/-- A record begins at the offset of its token. -/
theorem OffsetsSorted.beginOf_eq {input : SourceInput} (h : OffsetsSorted input) {k : ℕ}
    (hk : k ≤ input.tokenIds.length) :
    beginOf (builtTokens input) k = (offsetAt input k).toNat := by
  induction k with
  | zero => rw [beginOf_zero, h.first]; rfl
  | succ k ih =>
    have hmono := h.mono k (k + 1) (by omega) hk
    rw [beginOf_succ (getElem?_builtTokens hk), ih (by omega), h.count hk]
    omega

/-- Sorted offsets make the built records a CSR index once their assignments are valid. -/
theorem OffsetsSorted.csrValid_iff {input : SourceInput} (h : OffsetsSorted input)
    (hsize : input.tokenIds.length ≤ 0xffffffff) :
    CsrValid input.session (builtSource input) ↔
      ∀ k < input.tokenIds.length, AssignmentsValid input.session
        (builtToken input k).assignmentCount.toNat
        ((builtSource input).assignmentsOf (builtToken input k)) := by
  constructor
  · intro hcsr k hk
    exact (hcsr.token k _ (getElem?_builtTokens hk)).assignments
  · intro hall
    refine ⟨fun k record hrecord => ?_, ?_⟩
    · have hk : k < input.tokenIds.length := by
        have := (List.getElem?_eq_some_iff.mp hrecord).1
        rwa [show (builtSource input).tokens = builtTokens input from rfl,
          length_builtTokens] at this
      have hrec : record = builtToken input k :=
        Option.some.inj (hrecord.symm.trans (getElem?_builtTokens hk))
      subst hrec
      refine ⟨?_, ?_, ?_, ⟨rfl, rfl⟩, hall k hk⟩
      · show (UInt32.ofNat k).toNat = k
        rw [UInt32.toNat_ofNat', Nat.mod_eq_of_lt (by omega)]
      · exact (h.beginOf_eq (by omega)).symm
      · show beginOf (builtTokens input) (k + 1) ≤ input.assignments.length
        rw [h.beginOf_eq hk, ← h.last]
        exact h.mono _ _ hk (le_refl _)
    · show beginOf (builtTokens input) (builtTokens input).length = input.assignments.length
      rw [length_builtTokens, h.beginOf_eq (le_refl _), h.last]

/-- The encoder's scan of one token's assignments. -/
theorem buildAssignments_ends {input : SourceInput} (h : OffsetsSorted input)
    {k : ℕ} (hk : k < input.tokenIds.length) (uniform : Bool) :
    Ends ((List.range' (offsetAt input k).toNat (builtToken input k).assignmentCount.toNat).foldlM
        (buildAssignment input (builtToken input k).assignmentCount)
        ⟨List.replicate (builtToken input k).assignmentCount.toNat false,
          List.replicate input.session.workerCount.toNat false, uniform⟩)
      (fun _ => AssignmentsValid input.session (builtToken input k).assignmentCount.toNat
        ((builtSource input).assignmentsOf (builtToken input k)))
      (fun _ => ¬ AssignmentsValid input.session (builtToken input k).assignmentCount.toNat
        ((builtSource input).assignmentsOf (builtToken input k))) False := by
  have hcount := h.count hk
  have hmono := h.mono k (k + 1) (by omega) hk
  have hlast := h.mono (k + 1) _ hk (le_refl _)
  rw [h.last] at hlast
  set count := (builtToken input k).assignmentCount
  set n := count.toNat
  set l := (builtSource input).assignmentsOf (builtToken input k) with hl
  have hl' : l = (input.assignments.drop (offsetAt input k).toNat).take n := hl
  have hlen : l.length = n := by
    rw [hl', List.length_take, List.length_drop]
    omega
  rw [List.range'_eq_map_range, List.foldlM_map]
  -- after `j` turns the flags are the ordinals of the first `j` assignments
  refine (Ends.forRange (fun j (st : BuildTokenState) => AssignmentsValid input.session n (l.take j)
    ∧ st.ordinals = flagsOf n ((l.take j).map fun a => a.ordinal.toNat)
    ∧ st.destinations.length = input.session.workerCount.toNat) n ?_ ?_).imp ?_
  · rw [List.take_zero]
    exact ⟨assignmentsValid_nil _ _, (flagsOf_nil n).symm, by simp⟩
  · rintro j hj ⟨ordinals, destinations, uniform'⟩ ⟨hv, rfl, hdest⟩
    have hjl : j < l.length := by omega
    have hget : l[j]? = some l[j] := List.getElem?_eq_getElem hjl
    obtain ⟨htake, hsplit⟩ := take_succ_of_getElem? hget
    have hread : input.assignments[(offsetAt input k).toNat + j]? = some l[j] := by
      rw [← hget, hl', List.getElem?_take_of_lt (by omega), List.getElem?_drop]
    unfold buildAssignment
    rw [read_of hread, ok_bind, htake]
    have hstep := ordinalStep_ends (β := BuildTokenState) input.session (n := n) (l.drop (j + 1))
      (a := l[j]) "invalid token assignment"
      (f := fun ordinals => do
        let hit ← read destinations l[j].destinationRank.toNat
        let destinations ← write destinations l[j].destinationRank.toNat true
        .ok ⟨ordinals, destinations, uniform' && !hit⟩)
      (Q := fun st => AssignmentsValid input.session n (l.take j ++ [l[j]]) ∧
        st.ordinals = flagsOf n ((l.take j ++ [l[j]]).map fun a => a.ordinal.toNat) ∧
        st.destinations.length = input.session.workerCount.toNat) rfl hv ?_
    · rw [← hsplit] at hstep
      exact hstep.mono (fun _ h => h) (fun _ h => h.2) id
    · intro hvalid
      have hw := UInt32.lt_iff_toNat_lt.mp (assignmentsValid_append_singleton.mp hvalid).2.1.1
      have hw' : l[j].destinationRank.toNat < destinations.length := lt_of_lt_of_eq hw hdest.symm
      rw [read_of_lt hw', ok_bind, write_of_lt hw', ok_bind]
      exact ends_ok.mpr ⟨hvalid, rfl, by rw [List.length_set]; exact hdest⟩
  · rintro st ⟨hv, -⟩
    rwa [← hlen, List.take_length, hlen] at hv

/-- The encoder's walk over the tokens. -/
theorem buildTokens_ends {input : SourceInput} (h : OffsetsSorted input)
    (hsize : input.tokenIds.length ≤ 0xffffffff) :
    Ends ((List.range input.tokenIds.length).foldlM (buildToken input)
        { referenceDestinations := List.replicate input.session.workerCount.toNat false })
      (fun st => CsrValid input.session (builtSource input) ∧ st.tokens = builtTokens input)
      (fun _ => ¬ CsrValid input.session (builtSource input)) False := by
  rw [h.csrValid_iff hsize]
  refine (Ends.forRange (fun k (st : BuildState) => (∀ j < k, AssignmentsValid input.session
      (builtToken input j).assignmentCount.toNat
      ((builtSource input).assignmentsOf (builtToken input j)))
    ∧ st.tokens = (List.range k).map (builtToken input)) _ ?_ ?_).imp (fun _ h => h)
  · exact ⟨fun j hj => absurd hj (by omega), rfl⟩
  · rintro k hk ⟨tokens, uniform, reference⟩ ⟨hprev, rfl⟩
    have hoff := h.getElem?
    have hid : input.tokenIds[k]? = some (input.tokenIds.getD k 0) := by
      rw [List.getD_eq_getElem?_getD, List.getElem?_eq_getElem hk]
      rfl
    unfold buildToken
    rw [read_of (hoff k (by omega)), ok_bind, read_of (hoff (k + 1) hk), ok_bind]
    refine Ends.bind ((buildAssignments_ends h hk uniform).mono (fun _ h => h)
      (fun _ hn hall => hn (hall k hk)) id) ?_
    intro walked hvalid
    rw [read_of hid, ok_bind]
    have hdone : (∀ j < k + 1, AssignmentsValid input.session
        (builtToken input j).assignmentCount.toNat
        ((builtSource input).assignmentsOf (builtToken input j))) := by
      intro j hj
      rcases Nat.lt_succ_iff_lt_or_eq.mp hj with hlt | rfl
      · exact hprev j hlt
      · exact hvalid
    have htokens : (List.range (k + 1)).map (builtToken input)
        = (List.range k).map (builtToken input) ++ [builtToken input k] := by
      rw [List.range_succ, List.map_append, List.map_singleton]
    split
    · exact ends_ok.mpr ⟨hdone, htokens.symm⟩
    · exact ends_ok.mpr ⟨hdone, htokens.symm⟩

/-- The bytes of a slot, part by part. -/
structure SlotBytes (header : SlotHeader) (source : ParsedSource) (slot : List UInt8) : Prop where
  length : slot.length = header.packetBytes.toNat
  front : slice slot 0 slotHeaderBytes = SlotHeader.codec.enc header
  tokens : slice slot tokensAt (header.tokenCount.toNat * tokenRecordBytes)
    = TokenRecord.codec.encAll source.tokens
  assignments : slice slot (assignmentsAt header.tokenCount.toNat)
    (header.assignmentCount.toNat * assignmentRecordBytes)
    = AssignmentRecord.codec.encAll source.assignments
  hidden : slice slot (hiddenAt header.tokenCount.toNat header.assignmentCount.toNat)
    source.hiddenPayload.length = source.hiddenPayload
  gap : ∀ i, tokensAt + header.tokenCount.toNat * tokenRecordBytes ≤ i →
    i < assignmentsAt header.tokenCount.toNat → slot[i]? = some 0
  padding : PaddingZero header slot

/-- The record counts of a header are those of a source. -/
structure CountsMatch (session : SessionConfig) (header : SlotHeader) (source : ParsedSource) :
    Prop where
  tokens : header.tokenCount.toNat = source.tokens.length
  assignments : header.assignmentCount.toNat = source.assignments.length
  hidden : hiddenSize session header.tokenCount.toNat = source.hiddenPayload.length
  offsets : OffsetsCanonical session header

/-- The four ranges the encoder writes lie one behind the other. -/
theorem CountsMatch.layout {session : SessionConfig} {header : SlotHeader} {source : ParsedSource}
    (h : CountsMatch session header source) :
    (SlotHeader.codec.enc header).length = slotHeaderBytes ∧
      (TokenRecord.codec.encAll source.tokens).length
        = header.tokenCount.toNat * tokenRecordBytes ∧
      (AssignmentRecord.codec.encAll source.assignments).length
        = header.assignmentCount.toNat * assignmentRecordBytes ∧
      hiddenAt header.tokenCount.toNat header.assignmentCount.toNat + source.hiddenPayload.length
        ≤ header.packetBytes.toNat := by
  refine ⟨SlotHeader.codec.length_enc _, ?_, ?_, ?_⟩
  · rw [Codec.length_encAll, TokenRecord.codec_size, h.tokens, Nat.mul_comm]
    rfl
  · rw [Codec.length_encAll, AssignmentRecord.codec_size, h.assignments, Nat.mul_comm]
    rfl
  · rw [h.offsets.packet, ← h.hidden]
    exact hidden_end_le _ _ _

/-- What the encoder writes before it knows the digest. -/
theorem writeSlotBody_bytes {session : SessionConfig} {header : SlotHeader} {source : ParsedSource}
    (h : CountsMatch session header source) :
    ∃ slot, writeSlotBody header source.tokens source.assignments source.hiddenPayload = .ok slot ∧
      SlotBytes header source slot := by
  obtain ⟨l0, l1, l2, l3⟩ := h.layout
  have b1 := tokens_end_le header.tokenCount.toNat
  have b2 := assignments_end_le header.tokenCount.toNat header.assignmentCount.toNat
  have b0 : slotHeaderBytes = tokensAt := rfl
  unfold writeSlotBody
  rw [h.offsets.tokens, h.offsets.assignments, h.offsets.hidden]
  set hb := SlotHeader.codec.enc header
  set tb := TokenRecord.codec.encAll source.tokens
  set ab := AssignmentRecord.codec.encAll source.assignments
  set zeros : List UInt8 := List.replicate header.packetBytes.toNat 0
  have n0 : zeros.length = header.packetBytes.toNat := List.length_replicate
  have f1 : 0 + hb.length ≤ zeros.length := by omega
  have n1 := (length_patch f1).trans n0
  have f2 : tokensAt + tb.length ≤ (patch zeros 0 hb).length := by omega
  have n2 := (length_patch f2).trans n1
  have f3 : assignmentsAt header.tokenCount.toNat + ab.length
      ≤ (patch (patch zeros 0 hb) tokensAt tb).length := by omega
  have n3 := (length_patch f3).trans n2
  have f4 : hiddenAt header.tokenCount.toNat header.assignmentCount.toNat
      + source.hiddenPayload.length
      ≤ (patch (patch (patch zeros 0 hb) tokensAt tb)
        (assignmentsAt header.tokenCount.toNat) ab).length := by omega
  have n4 := (length_patch f4).trans n3
  simp only []
  rw [copyInto_of_le f1, ok_bind, copyInto_of_le f2, ok_bind, copyInto_of_le f3, ok_bind,
    copyInto_of_le f4]
  -- a byte outside the four ranges is still zero
  have hzero : ∀ i, slotHeaderBytes ≤ i → i < header.packetBytes.toNat →
      ¬ (tokensAt ≤ i ∧ i < tokensAt + tb.length) →
      ¬ (assignmentsAt header.tokenCount.toNat ≤ i ∧
        i < assignmentsAt header.tokenCount.toNat + ab.length) →
      i < hiddenAt header.tokenCount.toNat header.assignmentCount.toNat →
      (patch (patch (patch (patch zeros 0 hb) tokensAt tb) (assignmentsAt header.tokenCount.toNat)
        ab) (hiddenAt header.tokenCount.toNat header.assignmentCount.toNat)
        source.hiddenPayload)[i]? = some 0 := by
    intro i h0 h1 h2 h3 h4
    rw [getElem?_patch f4, if_neg (by omega), getElem?_patch f3, if_neg h3, getElem?_patch f2,
      if_neg h2, getElem?_patch f1, if_neg (by omega), List.getElem?_replicate, if_pos h1]
  refine ⟨_, rfl, n4, ?_, ?_, ?_, slice_patch_self f4, ?_, ?_⟩
  · rw [slice_patch_disjoint f4 (by omega), slice_patch_disjoint f3 (by omega),
      slice_patch_disjoint f2 (by omega), ← l0, slice_patch_self f1]
  · rw [slice_patch_disjoint f4 (by omega), slice_patch_disjoint f3 (by omega), ← l1,
      slice_patch_self f2]
  · rw [slice_patch_disjoint f4 (by omega), ← l2, slice_patch_self f3]
  · intro i h1 h2
    exact hzero i (by omega) (by omega) (by omega) (by omega) (by omega)
  · intro i h1 h2
    exact hzero i (by omega) (by omega) (by omega) (by omega) (by omega)

/-- Writing the header again with its digest leaves the rest of a slot. -/
theorem SlotBytes.patch_header {session : SessionConfig} {header : SlotHeader}
    {source : ParsedSource} {slot : List UInt8} (hs : SlotBytes header source slot)
    (h : CountsMatch session header source) (digest : UInt64) :
    copyInto slot 0 (SlotHeader.codec.enc (header.withDigest digest))
        = (.ok (patch slot 0 (SlotHeader.codec.enc (header.withDigest digest))) :
          Exec Status _) ∧
      SlotBytes (header.withDigest digest) source
        (patch slot 0 (SlotHeader.codec.enc (header.withDigest digest))) := by
  obtain ⟨-, l1, l2, l3⟩ := h.layout
  have b1 := tokens_end_le header.tokenCount.toNat
  have b2 := assignments_end_le header.tokenCount.toNat header.assignmentCount.toNat
  have b0 : slotHeaderBytes = tokensAt := rfl
  have l0 : (SlotHeader.codec.enc (header.withDigest digest)).length
      = slotHeaderBytes := SlotHeader.codec.length_enc _
  set hb := SlotHeader.codec.enc (header.withDigest digest)
  have hlen := hs.length
  have f : 0 + hb.length ≤ slot.length := by omega
  refine ⟨copyInto_of_le f, (length_patch f).trans hlen, ?_, ?_, ?_, ?_, ?_, ?_⟩
  · rw [← l0]
    exact slice_patch_self f
  · exact (slice_patch_disjoint f (by omega)).trans hs.tokens
  · have hd := slice_patch_disjoint (o := assignmentsAt header.tokenCount.toNat)
      (n := header.assignmentCount.toNat * assignmentRecordBytes) f (by omega)
    exact hd.trans hs.assignments
  · have hd := slice_patch_disjoint
      (o := hiddenAt header.tokenCount.toNat header.assignmentCount.toNat)
      (n := source.hiddenPayload.length) f (by omega)
    exact hd.trans hs.hidden
  · intro i h1 h2
    rw [getElem?_patch f, if_neg (by omega)]
    exact hs.gap i h1 h2
  · intro i h1 h2
    have h3 : assignmentsAt header.tokenCount.toNat
      + header.assignmentCount.toNat * assignmentRecordBytes ≤ i := h1
    rw [getElem?_patch f, if_neg (by omega)]
    exact hs.padding i h1 h2

/-- The inputs the encoder accepts. -/
structure BuildAccepts (input : SourceInput) : Prop where
  valid : inputValid input
  payload : hiddenSize input.session input.tokenIds.length = input.hiddenPayload.length
  fits : packetSize input.tokenIds.length input.assignments.length input.hiddenPayload.length
    < 2 ^ 64
  csr : CsrValid input.session (builtSource input)

/-- What the encoder returns. -/
structure IsBuilt (input : SourceInput) (slot : List UInt8) (header : SlotHeader) (ready : Ready) :
    Prop where
  identity : ∃ uniform, header = ((builtHeader input uniform).withOffsets header.tokensOffset
    header.assignmentsOffset header.hiddenOffset header.packetBytes).withDigest
    header.metadataDigest
  counts : CountsMatch input.session header (builtSource input)
  bytes : SlotBytes header (builtSource input) slot
  digest : digestOf header slot = header.metadataDigest
  ready : ready = builtReady header

/-- The element and byte counts of the hidden payload. -/
theorem hiddenBytes_eq_some {session : SessionConfig} {n : ℕ} (hn : n ≤ 0xffffffff)
    {elements bytes : UInt64}
    (helements : mul (UInt64.ofNat n) session.hidden.toUInt64 = some elements)
    (hbytes : mul elements (dTypeBytes session.dtype).toUInt64 = some bytes) :
    bytes.toNat = hiddenSize session n := by
  rw [mul_eq_some, UInt32.toNat_toUInt64, UInt64.toNat_ofNat', Nat.mod_eq_of_lt (by omega)]
    at helements
  rw [mul_eq_some, UInt32.toNat_toUInt64] at hbytes
  rw [← hbytes, ← helements]
  rfl

/-- The payload counts fit as soon as the whole slot does. -/
theorem exists_hiddenBytes {session : SessionConfig} {n : ℕ} (hn : n ≤ 0xffffffff)
    (hfits : hiddenSize session n < 2 ^ 64) :
    ∃ elements, mul (UInt64.ofNat n) session.hidden.toUInt64 = some elements ∧
      mul elements (dTypeBytes session.dtype).toUInt64
        = some (UInt64.ofNat (hiddenSize session n)) := by
  have hd : 1 ≤ (dTypeBytes session.dtype).toNat := by cases session.dtype <;> decide
  have hle : n * session.hidden.toNat ≤ hiddenSize session n := Nat.le_mul_of_pos_right _ hd
  refine ⟨.ofNat (n * session.hidden.toNat), ?_, ?_⟩
  · rw [mul_eq_some, UInt32.toNat_toUInt64, UInt64.toNat_ofNat', UInt64.toNat_ofNat',
      Nat.mod_eq_of_lt (by omega), Nat.mod_eq_of_lt (by omega)]
  · rw [mul_eq_some, UInt32.toNat_toUInt64, UInt64.toNat_ofNat', UInt64.toNat_ofNat',
      Nat.mod_eq_of_lt (by omega), Nat.mod_eq_of_lt (by omega)]
    rfl

/-- The encoder behind its checks: the image of the records with a digest over them. -/
theorem encodeSlot_ok {input : SourceInput} (uniform : Bool) {o₁ o₂ o₃ o₄ hb : UInt64}
    (hn : input.tokenIds.length ≤ 0xffffffff) (ha : input.assignments.length ≤ 0xffffffff)
    (hhb : hb.toNat = hiddenSize input.session input.tokenIds.length)
    (hpayload : hb.toNat = input.hiddenPayload.length)
    (hoffsets : slotOffsets (UInt64.ofNat input.tokenIds.length)
      (UInt64.ofNat input.assignments.length) hb = some (o₁, o₂, o₃, o₄)) :
    ∃ slot header ready, IsBuilt input slot header ready ∧
      encodeSlot ((builtHeader input uniform).withOffsets o₁ o₂ o₃ o₄) (builtTokens input)
        input.assignments input.hiddenPayload = .ok (slot, header, ready) := by
  have nn : (UInt64.ofNat input.tokenIds.length).toNat = input.tokenIds.length := by
    rw [UInt64.toNat_ofNat', Nat.mod_eq_of_lt (by omega)]
  have na : (UInt64.ofNat input.assignments.length).toNat = input.assignments.length := by
    rw [UInt64.toNat_ofNat', Nat.mod_eq_of_lt (by omega)]
  obtain ⟨h1, h2, h3, h4⟩ := slotOffsets_eq_some.mp hoffsets
  rw [nn] at h2 h3 h4
  rw [na] at h3 h4
  rw [hhb] at h4
  obtain ⟨built, hbuilt⟩ : ∃ built : SlotHeader,
      built = (builtHeader input uniform).withOffsets o₁ o₂ o₃ o₄ := ⟨_, rfl⟩
  have ct : built.tokenCount.toNat = input.tokenIds.length := by
    have h : built.tokenCount = UInt32.ofNat input.tokenIds.length := by rw [hbuilt]; rfl
    rw [h, UInt32.toNat_ofNat', Nat.mod_eq_of_lt (by omega)]
  have ca : built.assignmentCount.toNat = input.assignments.length := by
    have h : built.assignmentCount = UInt32.ofNat input.assignments.length := by rw [hbuilt]; rfl
    rw [h, UInt32.toNat_ofNat', Nat.mod_eq_of_lt (by omega)]
  have hcounts : CountsMatch input.session built (builtSource input) := by
    refine ⟨ct.trans (length_builtTokens input).symm, ca, ?_, ?_, ?_, ?_, ?_⟩
    · rw [ct, ← hhb, hpayload]
      rfl
    · rw [hbuilt]
      exact h1
    · rw [ct, hbuilt]
      exact h2
    · rw [ct, ca, hbuilt]
      exact h3
    · rw [ct, ca, hbuilt]
      exact h4
  obtain ⟨slot, hslot, hbytes⟩ := writeSlotBody_bytes hcounts
  have hmem : ¬ slot.length < hiddenAt built.tokenCount.toNat built.assignmentCount.toNat := by
    have hl := hiddenAt_le_packetSize built.tokenCount.toNat built.assignmentCount.toNat
      (hiddenSize input.session built.tokenCount.toNat)
    rw [← hcounts.offsets.packet, ← hbytes.length] at hl
    omega
  obtain ⟨digest, hdigest, rfl⟩ := ((metadataDigest_ends slot hcounts.offsets.tokens
    hcounts.offsets.assignments).mono (fun _ h => h) (fun _ h => h) hmem).exists_ok
  obtain ⟨hcopy, hfinal⟩ := hbytes.patch_header hcounts (digestOf built slot)
  refine ⟨_, built.withDigest (digestOf built slot), _,
    ⟨⟨uniform, by rw [hbuilt]; rfl⟩, ⟨hcounts.tokens, hcounts.assignments, hcounts.hidden,
      hcounts.offsets.tokens, hcounts.offsets.assignments, hcounts.offsets.hidden,
      hcounts.offsets.packet⟩, hfinal, ?_, rfl⟩, ?_⟩
  · -- neither the records nor the header without its digest have changed
    exact (digestOf_withDigest built _ _).trans
      (digestOf_congr (hfinal.tokens.trans hbytes.tokens.symm)
        (hfinal.assignments.trans hbytes.assignments.symm))
  · have hslot' : writeSlotBody built (builtTokens input) input.assignments input.hiddenPayload
      = .ok slot := hslot
    rw [← hbuilt]
    unfold encodeSlot
    rw [hslot', ok_bind, hdigest, ok_bind]
    simp only [hcopy, ok_bind]

/-- The encoder takes exactly the inputs `BuildAccepts` describes. -/
theorem buildSlot_ends (input : SourceInput) :
    Ends (buildSlot input)
      (fun r => BuildAccepts input ∧ IsBuilt input r.1 r.2.1 r.2.2)
      (fun _ => ¬ BuildAccepts input) False := by
  unfold buildSlot
  refine Ends.bind (Ends.require (Q := fun _ => inputValid input) (fun h => h.2)
    (fun hn h => hn ⟨rfl, h.valid⟩)) ?_
  intro _ hvalid
  have hn : input.tokenIds.length ≤ 0xffffffff := hvalid.2.2.2.2.2.2.1
  have ha : input.assignments.length ≤ 0xffffffff := hvalid.2.2.2.2.2.2.2.1
  have hsorted := offsetsSorted_of_inputValid hvalid
  -- an accepted input has a payload that fits
  have hfit : BuildAccepts input → hiddenSize input.session input.tokenIds.length < 2 ^ 64 := by
    intro h
    have h1 := hidden_end_le input.tokenIds.length input.assignments.length
      input.hiddenPayload.length
    have h2 := h.fits
    have h3 := h.payload
    omega
  refine Ends.bind (Ends.orFail (Q := fun elements =>
    mul (UInt64.ofNat input.tokenIds.length) input.session.hidden.toUInt64 = some elements)
    (fun _ h => h) ?_) ?_
  · intro hnone haccept
    obtain ⟨elements, helements, -⟩ := exists_hiddenBytes hn (hfit haccept)
    rw [hnone] at helements
    cases helements
  intro elements helements
  refine Ends.bind (Ends.orFail (Q := fun bytes =>
    mul elements (dTypeBytes input.session.dtype).toUInt64 = some bytes) (fun _ h => h) ?_) ?_
  · intro hnone haccept
    obtain ⟨elements', helements', hbytes⟩ := exists_hiddenBytes hn (hfit haccept)
    rw [helements] at helements'
    cases helements'
    rw [hnone] at hbytes
    cases hbytes
  intro hb hbytes
  have hhb := hiddenBytes_eq_some hn helements hbytes
  refine Ends.bind (Ends.require (Q := fun _ => hb.toNat = input.hiddenPayload.length) id
    (fun hne h => hne (hhb.trans h.payload))) ?_
  intro _ hpayload
  refine Ends.bind ((buildTokens_ends hsorted hn).mono (fun _ h => h)
    (fun _ hn h => hn h.csr) id) ?_
  rintro ⟨tokens, uniform, reference⟩ ⟨hcsr, htokens⟩
  have hsize : packetSize input.tokenIds.length input.assignments.length
      input.hiddenPayload.length = packetSize input.tokenIds.length input.assignments.length
      hb.toNat := by rw [hpayload]
  have nn : (UInt64.ofNat input.tokenIds.length).toNat = input.tokenIds.length := by
    rw [UInt64.toNat_ofNat', Nat.mod_eq_of_lt (by omega)]
  have na : (UInt64.ofNat input.assignments.length).toNat = input.assignments.length := by
    rw [UInt64.toNat_ofNat', Nat.mod_eq_of_lt (by omega)]
  refine Ends.bind (Ends.orFail (Q := fun offsets => slotOffsets
    (UInt64.ofNat input.tokenIds.length) (UInt64.ofNat input.assignments.length) hb
      = some offsets) (fun _ h => h) ?_) ?_
  · intro hnone haccept
    have hlt := haccept.fits
    rw [hsize] at hlt
    have b1 := hidden_end_le input.tokenIds.length input.assignments.length hb.toNat
    have b2 := assignments_end_le input.tokenIds.length input.assignments.length
    have b3 := tokens_end_le input.tokenIds.length
    have fits : ∀ n, n ≤ packetSize input.tokenIds.length input.assignments.length hb.toNat →
        (UInt64.ofNat n).toNat = n := fun n hn => by
      rw [UInt64.toNat_ofNat', Nat.mod_eq_of_lt (by omega)]
    have hsome : slotOffsets (.ofNat input.tokenIds.length) (.ofNat input.assignments.length) hb
        = some (.ofNat tokensAt, .ofNat (assignmentsAt input.tokenIds.length),
          .ofNat (hiddenAt input.tokenIds.length input.assignments.length),
          .ofNat (packetSize input.tokenIds.length input.assignments.length hb.toNat)) :=
      slotOffsets_eq_some.mpr
      ⟨fits _ (by omega), by rw [fits _ (by omega), nn], by rw [fits _ (by omega), nn, na],
        by rw [fits _ (by omega), nn, na]⟩
    rw [hnone] at hsome
    cases hsome
  rintro ⟨o₁, o₂, o₃, o₄⟩ hoffsets
  obtain ⟨slot, header, ready, hbuilt, hencode⟩ :=
    encodeSlot_ok uniform hn ha hhb hpayload hoffsets
  have hfits : packetSize input.tokenIds.length input.assignments.length
      input.hiddenPayload.length < 2 ^ 64 := by
    have h4 := (slotOffsets_eq_some.mp hoffsets).2.2.2
    rw [nn, na] at h4
    rw [hsize, ← h4]
    exact o₄.toNat_lt
  rw [show tokens = builtTokens input from htokens]
  show Ends (encodeSlot ((builtHeader input uniform).withOffsets o₁ o₂ o₃ o₄) (builtTokens input)
    input.assignments input.hiddenPayload) _ _ _
  rw [hencode]
  exact ends_ok.mpr ⟨⟨hvalid, hhb ▸ hpayload, hfits, hcsr⟩, hbuilt⟩

/-! ## Parsing what was built -/

/-- The header of a built slot is the one the parser expects. -/
theorem IsBuilt.headerMatches {input : SourceInput} {slot : List UInt8} {header : SlotHeader}
    {ready : Ready} (h : IsBuilt input slot header ready) :
    headerMatches input.session ready header := by
  obtain ⟨uniform, hidentity⟩ := h.identity
  rw [h.ready]
  rw [hidentity]
  have hflags : (builtHeader input uniform).flags &&& ~~~kSlotFlagUniformDestinations = 0 := by
    show (if uniform then kSlotFlagUniformDestinations else 0)
      &&& ~~~kSlotFlagUniformDestinations = 0
    cases uniform <;> decide
  exact ⟨rfl, rfl, rfl, hflags, rfl, rfl, rfl, rfl, rfl, rfl, rfl, rfl, rfl, rfl, rfl, rfl, rfl,
    rfl⟩

theorem readyPublication_with (ready : Ready) (publication : UInt64) :
    readyPublication { ready with publication := publication } = readyPublication ready := by
  unfold readyPublication
  rfl

theorem publication_builtReady (header : SlotHeader) :
    (builtReady header).publication = readyPublication (builtReady header) := by
  unfold builtReady
  rw [readyPublication_with]

/-- The READY of a built slot is accepted for the region of its source. -/
theorem IsBuilt.readyAccepted {input : SourceInput} {slot : List UInt8} {header : SlotHeader}
    {ready : Ready} {registration : RegionRegistration} (h : IsBuilt input slot header ready)
    (hvalid : inputValid input)
    (hregistration : validateRegistration registration input.session = .ok ())
    (hrank : registration.sourceRank = input.sourceRank)
    (hregion : registration.regionId = input.sourceRegionId) :
    readyAccepted registration input.session ready := by
  obtain ⟨-, hgeneration, hsequence, -, -, hslot, -⟩ := hvalid
  have hslots := (require_eq_ok.mp hregistration).2.2.2.2.2.2.1
  obtain ⟨uniform, hidentity⟩ := h.identity
  rw [h.ready, hidentity]
  refine ⟨rfl, rfl, rfl, rfl, rfl, rfl, hrank.symm, hregion.symm, ?_, hslot, hgeneration,
    hsequence, publication_builtReady _⟩
  exact UInt32.lt_of_lt_of_le hslot hslots

/-- A built slot decodes to its input, whatever follows it in memory. -/
theorem IsBuilt.decodeSlot_eq {input : SourceInput} {slot : List UInt8} {header : SlotHeader}
    {ready : Ready} (h : IsBuilt input slot header ready) (rest : List UInt8) :
    slotHeaderOf (slot ++ rest) = header ∧
      decodeSlot input.session header (slot ++ rest)
        = { builtSource input with header := header } := by
  have hlen := h.bytes.length
  rw [h.counts.offsets.packet] at hlen
  have b1 := tokens_end_le header.tokenCount.toNat
  have b2 := assignments_end_le header.tokenCount.toNat header.assignmentCount.toNat
  have b3 := hidden_end_le header.tokenCount.toNat header.assignmentCount.toNat
    (hiddenSize input.session header.tokenCount.toNat)
  have b0 : slotHeaderBytes = tokensAt := rfl
  constructor
  · rw [slotHeaderOf, slice_append_left rest (by omega), h.bytes.front, SlotHeader.codec.dec_enc]
  · unfold decodeSlot
    rw [slice_append_left rest (by omega), slice_append_left rest (by omega),
      slice_append_left rest (by omega), h.bytes.tokens, h.bytes.assignments, h.counts.hidden,
      h.bytes.hidden, h.counts.tokens, h.counts.assignments, Codec.decAll_encAll,
      Codec.decAll_encAll]

/-- The parser accepts what is built. -/
theorem IsBuilt.parserAccepts {input : SourceInput} {slot : List UInt8} {header : SlotHeader}
    {ready : Ready} {registration : RegionRegistration} {capacity : UInt64} (rest : List UInt8)
    (haccept : BuildAccepts input) (h : IsBuilt input slot header ready)
    (hregistration : validateRegistration registration input.session = .ok ())
    (hrank : registration.sourceRank = input.sourceRank)
    (hregion : registration.regionId = input.sourceRegionId)
    (hlow : header.packetBytes ≤ capacity) (hhigh : capacity ≤ registration.slotStride) :
    ParserAccepts registration input.session ready (slot ++ rest) capacity := by
  obtain ⟨hheader, hdecode⟩ := h.decodeSlot_eq rest
  have hlen := h.bytes.length
  have b1 := tokens_end_le header.tokenCount.toNat
  have b2 := assignments_end_le header.tokenCount.toNat header.assignmentCount.toNat
  have b3 := hiddenAt_le_packetSize header.tokenCount.toNat header.assignmentCount.toNat
    (hiddenSize input.session header.tokenCount.toNat)
  rw [← h.counts.offsets.packet] at b3
  have b0 : slotHeaderBytes = tokensAt := rfl
  have hlow' := UInt64.le_iff_toNat_le.mp hlow
  refine ⟨hregistration, h.readyAccepted haccept.valid hregistration hrank hregion,
    ⟨by omega, hhigh⟩, ?_, ?_, ?_, ?_, ?_, ?_⟩ <;> rw [hheader]
  · exact h.headerMatches
  · exact h.counts.offsets
  · exact hlow
  · intro i h1 h2
    rw [List.getElem?_append_left (by omega)]
    exact h.bytes.padding i h1 h2
  · rw [← h.digest]
    exact digestOf_congr (slice_append_left rest (by omega)) (slice_append_left rest (by omega))
  · rw [hdecode]
    exact csrValid_header header haccept.csr

/-- Parsing a built slot gives the input back: the returned header, the token ids in order with
their CSR ranges, the assignments and the payload. -/
theorem parse_of_buildSlot {input : SourceInput} {slot rest : List UInt8} {header : SlotHeader}
    {ready : Ready} {registration : RegionRegistration} {capacity : UInt64}
    (hbuild : buildSlot input = .ok (slot, header, ready))
    (hregistration : validateRegistration registration input.session = .ok ())
    (hrank : registration.sourceRank = input.sourceRank)
    (hregion : registration.regionId = input.sourceRegionId)
    (hlow : header.packetBytes ≤ capacity) (hhigh : capacity ≤ registration.slotStride) :
    ∃ tokens, parseReadyAndSlot registration input.session ready (some (slot ++ rest)) capacity
        = .ok ⟨header, tokens, input.assignments, input.hiddenPayload⟩ ∧
      tokens.map (fun record => record.tokenId) = input.tokenIds ∧
      ∀ k record, tokens[k]? = some record →
        record.sourceToken.toNat = k ∧
        input.assignmentOffsets[k]? = some record.assignmentBegin ∧
        input.assignmentOffsets[k + 1]? = some (record.assignmentBegin + record.assignmentCount) ∧
        record.assignmentBegin.toNat + record.assignmentCount.toNat
          ≤ input.assignments.length := by
  obtain ⟨haccept, hbuilt⟩ := (buildSlot_ends input).of_ok hbuild
  have hparser := hbuilt.parserAccepts rest haccept hregistration hrank hregion hlow hhigh
  obtain ⟨hheader, hdecode⟩ := hbuilt.decodeSlot_eq rest
  have hsorted := offsetsSorted_of_inputValid haccept.valid
  refine ⟨builtTokens input, ?_, ?_, ?_⟩
  · have hlen := hbuilt.bytes.length
    -- the packet lies within the slot, so the bytes behind it are not read
    have b1 := hidden_end_le header.tokenCount.toNat header.assignmentCount.toNat
      (hiddenSize input.session header.tokenCount.toNat)
    have b2 := assignmentsAt_le_hiddenAt header.tokenCount.toNat header.assignmentCount.toNat
    have b3 := tokens_end_le header.tokenCount.toNat
    have b0 : slotHeaderBytes = tokensAt := rfl
    rw [← hbuilt.counts.offsets.packet] at b1
    rw [parse_of_parserAccepts _ _ hparser, hheader, hdecode]
    · rfl
    · rw [List.length_append]
      omega
    · rw [hheader, List.length_append]
      omega
  · apply List.ext_getElem?
    intro k
    by_cases hk : k < input.tokenIds.length
    · rw [List.getElem?_map, getElem?_builtTokens hk]
      show some (input.tokenIds.getD k 0) = _
      rw [List.getD_eq_getElem?_getD, List.getElem?_eq_getElem hk]
      rfl
    · rw [List.getElem?_eq_none (by simp; omega), List.getElem?_eq_none (by omega)]
  · intro k record hrecord
    have hk : k < input.tokenIds.length := by
      have := (List.getElem?_eq_some_iff.mp hrecord).1
      rwa [length_builtTokens] at this
    have htoken := haccept.csr.token k record hrecord
    have hrec : record = builtToken input k :=
      Option.some.inj (hrecord.symm.trans (getElem?_builtTokens hk))
    have hoff : ∀ j, j ≤ input.tokenIds.length →
        input.assignmentOffsets[j]? = some (offsetAt input j) := hsorted.getElem?
    have hsucc : beginOf (builtSource input).tokens (k + 1) = _ := beginOf_succ hrecord
    have hend := htoken.inRange
    have hbegin := htoken.assignmentBegin
    refine ⟨htoken.sourceToken, ?_, ?_, ?_⟩
    · rw [hoff k (by omega), hrec]
      rfl
    · rw [hoff (k + 1) hk, hrec]
      congr 1
      show _ = offsetAt input k + (offsetAt input (k + 1) - offsetAt input k)
      rw [UInt32.add_comm, UInt32.sub_add_cancel]
    · rw [hbegin, ← hsucc]
      exact hend

/-- One token with one assignment, as two workers see it. -/
def sampleInput : SourceInput where
  session := { sessionId := 1, placementEpoch := 1, workerCount := 2, expertCount := 2,
               hidden := 1, ringSlots := 1 }
  generation := 1
  sequence := 1
  sourceRegionId := 1
  tokenIds := [7]
  assignmentOffsets := [0, 1]
  assignments := [{ destinationRank := 1 }]
  hiddenPayload := [1, 2]

/-- A region of one slot. -/
def sampleRegistration : RegionRegistration where
  sessionId := 1
  placementEpoch := 1
  regionId := 1
  slotCount := 1
  regionBytes := 320
  slotStride := 320

/-- What the encoder makes of `sampleInput`. -/
def sampleBuilt : List UInt8 × SlotHeader × Ready :=
  (buildSlot sampleInput).toOption.getD ([], {}, {})

/-- The sample input with nothing behind its slot. -/
theorem parse_of_buildSlot_sample :
    ∃ tokens, parseReadyAndSlot sampleRegistration sampleInput.session sampleBuilt.2.2
        (some (sampleBuilt.1 ++ [])) 320
        = .ok ⟨sampleBuilt.2.1, tokens, sampleInput.assignments, sampleInput.hiddenPayload⟩ ∧
      tokens.map (fun record => record.tokenId) = sampleInput.tokenIds ∧
      ∀ k record, tokens[k]? = some record →
        record.sourceToken.toNat = k ∧
        sampleInput.assignmentOffsets[k]? = some record.assignmentBegin ∧
        sampleInput.assignmentOffsets[k + 1]?
          = some (record.assignmentBegin + record.assignmentCount) ∧
        record.assignmentBegin.toNat + record.assignmentCount.toNat
          ≤ sampleInput.assignments.length :=
  parse_of_buildSlot (by decide +kernel) (by decide +kernel) rfl rfl (by decide +kernel)
    (by decide +kernel)

/-! ## Rebuilding what was parsed -/

/-- The input whose slot a parsed source comes from. -/
def ParsedSource.toInput (session : SessionConfig) (source : ParsedSource) : SourceInput where
  session := session
  generation := source.header.generation
  sequence := source.header.sequence
  wave := source.header.wave
  sourceRank := source.header.sourceRank
  sourceRegionId := source.header.sourceRegionId
  ringSlot := source.header.ringSlot
  tokenIds := source.tokens.map fun record => record.tokenId
  assignmentOffsets := (source.tokens.map fun record => record.assignmentBegin)
    ++ [source.header.assignmentCount]
  assignments := source.assignments
  hiddenPayload := source.hiddenPayload

/-- The bytes between the token and the assignment records are zero. -/
def GapZero (header : SlotHeader) (slot : List UInt8) : Prop :=
  ∀ i, tokensAt + header.tokenCount.toNat * tokenRecordBytes ≤ i →
    i < assignmentsAt header.tokenCount.toNat → slot[i]? = some 0

/-- The offsets of a parsed CSR index are its prefix sums. -/
theorem CsrValid.offset {session : SessionConfig} {source : ParsedSource}
    (h : CsrValid session source)
    (hcount : source.header.assignmentCount.toNat = source.assignments.length) {k : ℕ}
    (hk : k ≤ source.tokens.length) :
    ∃ offset, (source.toInput session).assignmentOffsets[k]? = some offset ∧
      offset.toNat = beginOf source.tokens k := by
  rcases Nat.eq_or_lt_of_le hk with rfl | hlt
  · refine ⟨source.header.assignmentCount, ?_, hcount.trans h.total.symm⟩
    simp [ParsedSource.toInput]
  · have hget := List.getElem?_eq_getElem hlt
    refine ⟨source.tokens[k].assignmentBegin, ?_, (h.token k _ hget).assignmentBegin⟩
    simp [ParsedSource.toInput, List.getElem?_append_left, hlt]

/-- The encoder writes the parsed records again. -/
theorem CsrValid.builtTokens_eq {session : SessionConfig} {source : ParsedSource}
    (h : CsrValid session source)
    (hcount : source.header.assignmentCount.toNat = source.assignments.length)
    (hsize : source.tokens.length < 2 ^ 32) :
    builtTokens (source.toInput session) = source.tokens := by
  have hlen : (source.toInput session).tokenIds.length = source.tokens.length := by
    simp [ParsedSource.toInput]
  apply List.ext_getElem?
  intro k
  by_cases hk : k < source.tokens.length
  · have hget := List.getElem?_eq_getElem hk
    have ht := h.token k _ hget
    obtain ⟨x, hx, hxv⟩ := h.offset hcount (le_of_lt hk)
    obtain ⟨y, hy, hyv⟩ := h.offset hcount (k := k + 1) hk
    have hid : (source.toInput session).tokenIds.getD k 0 = source.tokens[k].tokenId := by
      simp [ParsedSource.toInput, hk]
    have hbegin : offsetAt (source.toInput session) k = source.tokens[k].assignmentBegin := by
      rw [offsetAt, List.getD_eq_getElem?_getD, hx]
      exact UInt32.toNat_inj.mp (hxv.trans ht.assignmentBegin.symm)
    have hend : offsetAt (source.toInput session) (k + 1) = y := by
      rw [offsetAt, List.getD_eq_getElem?_getD, hy]
      rfl
    rw [getElem?_builtTokens (by omega), hget]
    unfold builtToken
    rw [hid, hbegin, hend]
    congr 1
    have hsource : UInt32.ofNat k = source.tokens[k].sourceToken := by
      apply UInt32.toNat_inj.mp
      rw [ht.sourceToken, UInt32.toNat_ofNat', Nat.mod_eq_of_lt (by omega)]
    have hcnt : y - source.tokens[k].assignmentBegin = source.tokens[k].assignmentCount := by
      have hsucc := beginOf_succ hget
      have hb := ht.assignmentBegin
      apply UInt32.toNat_inj.mp
      rw [UInt32.toNat_sub_of_le _ _ (UInt32.le_iff_toNat_le.mpr (by omega))]
      omega
    rw [hsource, hcnt, ← ht.reserved.1, ← ht.reserved.2]
  · rw [List.getElem?_eq_none (by rw [length_builtTokens]; omega),
      List.getElem?_eq_none (by omega)]

/-- What the parser accepts, the encoder takes back. -/
theorem ParserAccepts.buildAccepts {registration : RegionRegistration} {session : SessionConfig}
    {ready : Ready} {slot : List UInt8} {capacity : UInt64} {source : ParsedSource}
    (h : ParserAccepts registration session ready slot capacity)
    (hsource : source = decodeSlot session (slotHeaderOf slot) slot)
    (hmem : hiddenAt (slotHeaderOf slot).tokenCount.toNat
      (slotHeaderOf slot).assignmentCount.toNat
      + hiddenSize session (slotHeaderOf slot).tokenCount.toNat ≤ slot.length) :
    BuildAccepts (source.toInput session) ∧
      builtTokens (source.toInput session) = source.tokens := by
  have hheader : source.header = slotHeaderOf slot := by rw [hsource]; rfl
  have hpayload : source.hiddenPayload.length
      = hiddenSize session (slotHeaderOf slot).tokenCount.toNat := by
    rw [hsource]
    exact length_slice hmem
  have hcsr : CsrValid session source := hsource ▸ h.accepts.csr
  have hmatch := h.accepts.header
  have hoff := h.accepts.offsets
  rw [← hheader] at hmatch hoff hpayload
  have htokens : source.header.tokenCount.toNat = source.tokens.length := by
    rw [hheader, hsource]
    simp [decodeSlot]
  have hcount : source.header.assignmentCount.toNat = source.assignments.length := by
    rw [hheader, hsource]
    simp [decodeSlot]
  have hts := source.header.tokenCount.toNat_lt
  have has := source.header.assignmentCount.toNat_lt
  have hids : (source.toInput session).tokenIds.length = source.tokens.length := by
    simp [ParsedSource.toInput]
  -- the records that the encoder builds are the ones that were parsed
  have hbuilt := hcsr.builtTokens_eq hcount (by omega)
  refine ⟨⟨?_, ?_, ?_, ?_⟩, hbuilt⟩
  · obtain ⟨hsession, -, -, hrank, hregion, -⟩ := require_eq_ok.mp h.registered
    obtain ⟨-, -, -, -, -, -, hr1, hr2, -, hr3, hgen, hseq, -⟩ := h.published
    obtain ⟨-, -, -, -, -, -, hg, hs, -, hm1, hm2, hm3, -⟩ := hmatch
    have hlen : (source.toInput session).assignmentOffsets.length = source.tokens.length + 1 := by
      simp [ParsedSource.toInput]
    -- the offsets begin at zero, increase, and end at the number of assignments
    obtain ⟨x, hx, hxv⟩ := hcsr.offset hcount (Nat.zero_le _)
    refine ⟨hsession, ?_, ?_, ?_, ?_, ?_, by omega, ?_, by omega, ?_, ?_, ?_, ?_⟩
    · show source.header.generation ≠ 0
      rw [hg]
      exact hgen
    · show source.header.sequence ≠ 0
      rw [hs]
      exact hseq
    · show source.header.sourceRank < session.workerCount
      rw [hm1, hr1]
      exact hrank
    · show source.header.sourceRegionId ≠ 0
      rw [hm2, hr2]
      exact hregion
    · show source.header.ringSlot.toUInt32 < session.ringSlots
      rw [hm3]
      exact hr3
    · show source.assignments.length ≤ 0xffffffff
      omega
    · intro hnil
      rw [hnil] at hlen
      simp at hlen
    · rw [List.head?_eq_getElem?, hx]
      rw [beginOf_zero] at hxv
      rw [UInt32.toNat_inj.mp (hxv.trans UInt32.toNat_zero.symm)]
    · show Option.map _ (_ ++ [source.header.assignmentCount]).getLast? = some source.assignments.length
      rw [List.getLast?_concat, Option.map_some, hcount]
    · rw [List.pairwise_iff_getElem]
      intro j k hj hk hjk
      obtain ⟨y, hy, hyv⟩ := hcsr.offset hcount (k := j) (by omega)
      obtain ⟨z, hz, hzv⟩ := hcsr.offset hcount (k := k) (by omega)
      rw [List.getElem?_eq_getElem hj] at hy
      rw [List.getElem?_eq_getElem hk] at hz
      rw [Option.some.inj hy, Option.some.inj hz, UInt32.le_iff_toNat_le, hyv, hzv]
      exact beginOf_mono _ (le_of_lt hjk)
  · rw [hids, ← htokens]
    exact hpayload.symm
  · rw [hids, ← htokens]
    show packetSize _ source.assignments.length source.hiddenPayload.length < 2 ^ 64
    rw [← hcount, hpayload, ← hoff.packet]
    exact source.header.packetBytes.toNat_lt
  · have hs : builtSource (source.toInput session) = { source with header := {} } := by
      unfold builtSource
      rw [hbuilt]
      rfl
    rw [hs]
    exact csrValid_header {} hcsr

/-- A byte of the metadata body lies in one of its four parts. -/
theorem body_cases (header : SlotHeader) (i : ℕ) :
    i < tokensAt + header.tokenCount.toNat * tokenRecordBytes ∨
    (tokensAt + header.tokenCount.toNat * tokenRecordBytes ≤ i ∧
      i < assignmentsAt header.tokenCount.toNat) ∨
    (assignmentsAt header.tokenCount.toNat ≤ i ∧ i < assignmentsAt header.tokenCount.toNat
      + header.assignmentCount.toNat * assignmentRecordBytes) ∨
    assignmentsAt header.tokenCount.toNat
      + header.assignmentCount.toNat * assignmentRecordBytes ≤ i := by
  omega

/-- An accepted slot holds the bytes of its records. -/
theorem ParserAccepts.recordBytes {registration : RegionRegistration} {session : SessionConfig}
    {ready : Ready} {slot : List UInt8} {capacity : UInt64} {header : SlotHeader}
    (h : ParserAccepts registration session ready slot capacity) (hheader : slotHeaderOf slot = header)
    (hmem : hiddenAt header.tokenCount.toNat header.assignmentCount.toNat ≤ slot.length) :
    slice slot tokensAt (header.tokenCount.toNat * tokenRecordBytes)
        = TokenRecord.codec.encAll (decodeSlot session header slot).tokens ∧
      slice slot (assignmentsAt header.tokenCount.toNat)
          (header.assignmentCount.toNat * assignmentRecordBytes)
        = AssignmentRecord.codec.encAll (decodeSlot session header slot).assignments ∧
      PaddingZero header slot := by
  have b1 := tokens_end_le header.tokenCount.toNat
  have b2 := assignments_end_le header.tokenCount.toNat header.assignmentCount.toNat
  refine ⟨?_, ?_, hheader ▸ h.accepts.padding⟩
  · refine (TokenRecord.codec.encAll_decAll _ ?_).symm
    rw [length_slice (by omega), TokenRecord.codec_size, Nat.mul_comm]
    rfl
  · refine (AssignmentRecord.codec.encAll_decAll _ ?_).symm
    rw [length_slice (by omega), AssignmentRecord.codec_size, Nat.mul_comm]
    rfl

/-- An accepted source is rebuilt with the same metadata body exactly when the gap behind its
token records holds zeroes. The gap is there when the token count is odd, and no test of the
parser reaches it: the digest covers the records and the padding test starts behind the
assignments. -/
theorem rebuilds_iff_gapZero {session : SessionConfig} {slot : List UInt8} {source : ParsedSource}
    (registration : RegionRegistration) (ready : Ready) (capacity : UInt64)
    (h : parseReadyAndSlot registration session ready (some slot) capacity = .ok source) :
    (∃ bytes header ready', buildSlot (source.toInput session) = .ok (bytes, header, ready') ∧
      slice bytes slotHeaderBytes (source.header.hiddenOffset.toNat - slotHeaderBytes)
        = slice slot slotHeaderBytes (source.header.hiddenOffset.toNat - slotHeaderBytes)) ↔
      GapZero (slotHeaderOf slot) slot := by
  obtain ⟨haccept, hsource, hmem⟩ := parserAccepts_of_parse h
  obtain ⟨hbuild, hrecords⟩ := haccept.buildAccepts hsource hmem
  have hheader : source.header = slotHeaderOf slot := by rw [hsource]; rfl
  have hhidden := haccept.accepts.offsets.hidden
  rw [← hheader] at hmem hhidden ⊢
  obtain ⟨⟨bytes, header, ready'⟩, hbytes, -, hbuilt⟩ :=
    ((buildSlot_ends (source.toInput session)).mono (fun _ h => h) (fun _ hn => hn hbuild)
      id).exists_ok
  -- both slots have the same record counts, hence the same shape
  have ht : header.tokenCount.toNat = source.header.tokenCount.toNat := by
    rw [hbuilt.counts.tokens]
    show (builtTokens (source.toInput session)).length = _
    rw [hrecords, hsource]
    simp [decodeSlot]
  have ha : header.assignmentCount.toNat = source.header.assignmentCount.toNat := by
    rw [hbuilt.counts.assignments, hsource]
    simp [decodeSlot, builtSource, ParsedSource.toInput]
  have b1 := tokens_end_le source.header.tokenCount.toNat
  have b2 := assignments_end_le source.header.tokenCount.toNat source.header.assignmentCount.toNat
  have b0 : slotHeaderBytes = tokensAt := rfl
  rw [hhidden]
  constructor
  · rintro ⟨bytes', header', ready'', hbytes', hsame⟩ i h1 h2
    rw [hbytes] at hbytes'
    cases hbytes'
    rw [← getElem?_of_slice_eq hsame (by omega) (by omega)]
    exact hbuilt.bytes.gap i (by rw [ht]; exact h1) (by rw [ht]; exact h2)
  · intro hgap
    obtain ⟨hst, hsa, hsp⟩ := haccept.recordBytes hheader.symm (by omega)
    have htokens : slice bytes tokensAt (source.header.tokenCount.toNat * tokenRecordBytes)
        = slice slot tokensAt (source.header.tokenCount.toNat * tokenRecordBytes) := by
      rw [hst, ← ht, hbuilt.bytes.tokens, hheader, ← hsource]
      exact congrArg _ hrecords
    have hassignments : slice bytes (assignmentsAt source.header.tokenCount.toNat)
        (source.header.assignmentCount.toNat * assignmentRecordBytes)
        = slice slot (assignmentsAt source.header.tokenCount.toNat)
          (source.header.assignmentCount.toNat * assignmentRecordBytes) := by
      rw [hsa, ← ht, ← ha, hbuilt.bytes.assignments, hheader, ← hsource]
      rfl
    refine ⟨bytes, header, ready', hbytes, slice_congr fun i hi => ?_⟩
    rcases body_cases source.header (slotHeaderBytes + i)
      with h1 | ⟨h1, h2⟩ | ⟨h1, h2⟩ | h1
    · exact getElem?_of_slice_eq htokens (by omega) h1
    · rw [hgap _ h1 h2]
      exact hbuilt.bytes.gap _ (by rw [ht]; exact h1) (by rw [ht]; exact h2)
    · exact getElem?_of_slice_eq hassignments h1 h2
    · rw [hsp _ h1 (by omega)]
      exact hbuilt.bytes.padding _ (by rw [ht, ha]; exact h1) (by rw [ht, ha]; omega)

/-- `sampleBuilt` with a byte written behind its only token record. -/
def dirtySlot : List UInt8 := sampleBuilt.1.set 160 1

/-- What the parser makes of `dirtySlot`. -/
def dirtySource : ParsedSource :=
  (parseReadyAndSlot sampleRegistration sampleInput.session sampleBuilt.2.2 (some dirtySlot)
    320).toOption.getD {}

/-- A slot with a byte in its gap. -/
theorem rebuilds_iff_gapZero_dirty :
    (∃ bytes header ready', buildSlot (dirtySource.toInput sampleInput.session)
        = .ok (bytes, header, ready') ∧
      slice bytes slotHeaderBytes (dirtySource.header.hiddenOffset.toNat - slotHeaderBytes)
        = slice dirtySlot slotHeaderBytes
            (dirtySource.header.hiddenOffset.toNat - slotHeaderBytes)) ↔
      GapZero (slotHeaderOf dirtySlot) dirtySlot :=
  rebuilds_iff_gapZero sampleRegistration sampleBuilt.2.2 320 (by decide +kernel)

/-- Not every accepted slot is rebuilt: the gap byte of `dirtySlot` is lost. -/
theorem not_always_rebuilt :
    ¬ ∀ (registration : RegionRegistration) (session : SessionConfig) (ready : Ready)
      (slot : List UInt8) (capacity : UInt64) (source : ParsedSource),
      parseReadyAndSlot registration session ready (some slot) capacity = .ok source →
      ∃ bytes header ready', buildSlot (source.toInput session) = .ok (bytes, header, ready') ∧
        slice bytes slotHeaderBytes (source.header.hiddenOffset.toNat - slotHeaderBytes)
          = slice slot slotHeaderBytes
              (source.header.hiddenOffset.toNat - slotHeaderBytes) := by
  intro h
  have hparse : parseReadyAndSlot sampleRegistration sampleInput.session sampleBuilt.2.2
      (some dirtySlot) 320 = .ok dirtySource := by decide +kernel
  obtain ⟨bytes, header, ready, hbuild, hsame⟩ := h _ _ _ _ _ _ hparse
  have hbytes : (buildSlot (dirtySource.toInput sampleInput.session)).toOption.map
      (fun r => r.1[160]?) = some (some 0) := by decide +kernel
  have hdirty : dirtySlot[160]? = some 1 := by decide +kernel
  have hrange : 160 < dirtySource.header.hiddenOffset.toNat := by decide +kernel
  rw [hbuild] at hbytes
  have hclean : bytes[160]? = some 0 := Option.some.inj hbytes
  have hb0 : slotHeaderBytes = 128 := rfl
  rw [getElem?_of_slice_eq hsame (by omega) (by omega), hdirty] at hclean
  exact absurd hclean (by decide)

end AscendShmem.PullV2
