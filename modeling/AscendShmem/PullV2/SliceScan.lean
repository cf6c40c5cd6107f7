import AscendShmem.PullV2.DispatchKernel
import AscendShmem.PullV2.LayoutTheorems

/-!
# The token scan of the dispatch kernel

A parser block tests every token of its slice against the record before it, and its assignments
field by field; the ordinals go through a bitmap or are compared pair by pair. Either way a token
passes exactly when it is `TokenScanned`.
-/

namespace AscendShmem.PullV2

open Lib Lib.Exec

/-! ## Sets of numbers below 128 -/

namespace Bits128

theorem toNat_shift (x : UInt32) : (x >>> 5).toNat = x.toNat / 32 := by
  rw [UInt32.toNat_shiftRight]
  exact Nat.shiftRight_eq_div_pow x.toNat 5

/-- The mask of a number's bit. -/
theorem toNat_bit (x : UInt32) : ((1 : UInt32) <<< (x &&& 31)).toNat = 2 ^ (x.toNat % 32) := by
  have hmask : (x &&& 31).toNat = x.toNat % 32 := by
    rw [UInt32.toNat_and]
    exact Nat.and_two_pow_sub_one_eq_mod x.toNat 5
  have hlt : x.toNat % 32 < 32 := Nat.mod_lt _ (by norm_num)
  have hpow : 2 ^ (x.toNat % 32) < 2 ^ 32 := Nat.pow_lt_pow_right (by norm_num) hlt
  rw [UInt32.toNat_shiftLeft, hmask, Nat.mod_eq_of_lt hlt]
  show 1 <<< _ % 2 ^ 32 = _
  rw [Nat.one_shiftLeft, Nat.mod_eq_of_lt hpow]

/-- Testing the word tests the bit. -/
theorem and_bit_ne_zero (word x : UInt32) :
    word &&& (1 <<< (x &&& 31)) ≠ 0 ↔ word.toNat.testBit (x.toNat % 32) = true := by
  rw [ne_eq, ← UInt32.toNat_inj, UInt32.toNat_and, toNat_bit, Nat.and_two_pow]
  cases word.toNat.testBit (x.toNat % 32) with
  | false => simp
  | true => simp

theorem has_iff (bits : Bits128) (x : UInt32) :
    bits.has x = true ↔ (bits.word (x.toNat / 32)).toNat.testBit (x.toNat % 32) = true := by
  unfold has
  rw [decide_eq_true_iff, toNat_shift, and_bit_ne_zero]

@[simp] theorem has_empty (x : UInt32) : empty.has x = false := by
  rw [Bool.eq_false_iff, ne_eq, has_iff]
  simp [empty]

/-- Word and bit of a number belong to it alone. -/
theorem has_add (bits : Bits128) (x y : UInt32) :
    (bits.add x).has y = true ↔ x = y ∨ bits.has y = true := by
  have heq : x = y ↔ x.toNat = y.toNat := UInt32.toNat_inj.symm
  rw [has_iff, has_iff]
  show ((Function.update bits.word _ _ : ℕ → UInt32) (y.toNat / 32)).toNat.testBit _ = true ↔ _
  rw [toNat_shift]
  by_cases hword : y.toNat / 32 = x.toNat / 32
  · rw [hword, Function.update_self, UInt32.toNat_or, toNat_bit, Nat.testBit_or,
      Nat.testBit_two_pow, Bool.or_eq_true, decide_eq_true_iff, or_comm, heq]
    apply or_congr _ Iff.rfl
    omega
  · rw [Function.update_of_ne hword]
    apply (or_iff_right _).symm
    rw [heq]
    omega

end Bits128

/-! ## Slices -/

/-- Where the slice of `lane` begins. -/
def boundary (n lane cohort : ℕ) : ℕ := min ((n + 7) / 8 * lane / cohort * 8) n

/-- The boundary of a lane does not wrap. -/
theorem toNat_parserTokenBoundary (tokenCount lane cohort : UInt32) :
    (parserTokenBoundary tokenCount lane cohort).toNat
      = boundary tokenCount.toNat lane.toNat cohort.toNat := by
  have ht := tokenCount.toNat_lt
  have hl := lane.toNat_lt
  have hgroups : ((tokenCount.toUInt64 + 7) / 8).toNat = (tokenCount.toNat + 7) / 8 := by
    rw [UInt64.toNat_div, UInt64.toNat_add, UInt32.toNat_toUInt64]
    show (tokenCount.toNat + 7) % 2 ^ 64 / 8 = _
    rw [Nat.mod_eq_of_lt (by omega)]
  have hprod : (tokenCount.toNat + 7) / 8 * lane.toNat ≤ 2 ^ 29 * (2 ^ 32 - 1) :=
    Nat.mul_le_mul (by omega) (by omega)
  set groups := (tokenCount.toUInt64 + 7) / 8 with hg
  have hgroup : (mulU64ByU32 groups lane / cohort.toUInt64).toNat
      = (tokenCount.toNat + 7) / 8 * lane.toNat / cohort.toNat := by
    rw [UInt64.toNat_div, mulU64ByU32_toNat, hgroups, UInt32.toNat_toUInt64,
      Nat.mod_eq_of_lt (by omega)]
  have hle : (tokenCount.toNat + 7) / 8 * lane.toNat / cohort.toNat ≤ 2 ^ 29 * (2 ^ 32 - 1) :=
    (Nat.div_le_self _ _).trans hprod
  have htoken : (mulU64ByU32 groups lane / cohort.toUInt64 * 8).toNat
      = (tokenCount.toNat + 7) / 8 * lane.toNat / cohort.toNat * 8 := by
    rw [UInt64.toNat_mul, hgroup]
    show _ * 8 % 2 ^ 64 = _
    rw [Nat.mod_eq_of_lt (by omega)]
  unfold parserTokenBoundary boundary
  simp only [← hg]
  by_cases hlt : mulU64ByU32 groups lane / cohort.toUInt64 * 8 < tokenCount.toUInt64
  · rw [if_pos hlt]
    rw [UInt64.lt_iff_toNat_lt, htoken, UInt32.toNat_toUInt64] at hlt
    rw [UInt64.toNat_toUInt32, htoken, Nat.mod_eq_of_lt (by omega), Nat.min_eq_left (by omega)]
  · rw [if_neg hlt]
    rw [UInt64.lt_iff_toNat_lt, htoken, UInt32.toNat_toUInt64] at hlt
    rw [Nat.min_eq_right (by omega)]

theorem boundary_le (n lane cohort : ℕ) : boundary n lane cohort ≤ n := Nat.min_le_right _ _

@[simp] theorem boundary_zero (n cohort : ℕ) : boundary n 0 cohort = 0 := by simp [boundary]

theorem boundary_last {cohort : ℕ} (n : ℕ) (h : 0 < cohort) : boundary n cohort cohort = n := by
  unfold boundary
  rw [Nat.mul_div_cancel _ h, Nat.min_eq_right (by omega)]

/-- The lanes are in order. -/
theorem boundary_mono (n cohort : ℕ) {i j : ℕ} (h : i ≤ j) :
    boundary n i cohort ≤ boundary n j cohort := by
  unfold boundary
  have hdiv : (n + 7) / 8 * i / cohort ≤ (n + 7) / 8 * j / cohort :=
    Nat.div_le_div_right (Nat.mul_le_mul_left _ h)
  omega

/-! ## Scanning a token -/

/-- The session a launch plans for; only its counts matter to the scan. -/
def DispatchLaunch.session (launch : DispatchLaunch) : SessionConfig :=
  { sessionId := launch.sessionId
    placementEpoch := launch.placementEpoch
    workerCount := launch.workerCount
    expertCount := launch.expertCount
    hidden := launch.hidden
    dtype := if launch.dtype = 0 then .fp16 else if launch.dtype = 1 then .bf16 else .fp32
    ringSlots := launch.slotCount }

/-- Where the record before token `k` ends. -/
def expectedBegin (source : ParsedSource) : ℕ → ℕ
  | 0 => 0
  | k + 1 => source.tokens[k]?.elim 0 fun record =>
      record.assignmentBegin.toNat + record.assignmentCount.toNat

/-- The record tests of token `k`. -/
structure RecordScanned (source : ParsedSource) (k : ℕ) (record : TokenRecord) : Prop where
  sourceToken : record.sourceToken.toNat = k
  assignmentBegin : record.assignmentBegin.toNat = expectedBegin source k
  inRange : record.assignmentBegin.toNat + record.assignmentCount.toNat
    ≤ source.header.assignmentCount.toNat
  last : k + 1 = source.header.tokenCount.toNat →
    record.assignmentBegin.toNat + record.assignmentCount.toNat
      = source.header.assignmentCount.toNat
  reserved : record.reserved0 = 0 ∧ record.reserved1 = 0

/-- What the device tests of token `k`. -/
structure TokenScanned (launch : DispatchLaunch) (source : ParsedSource) (k : ℕ)
    (record : TokenRecord) : Prop extends RecordScanned source k record where
  assignments : AssignmentsValid launch.session record.assignmentCount.toNat
    (source.assignmentsOf record)
  ordinals : ∀ a ∈ source.assignmentsOf record, a.ordinal &&& kOrdinalVisited = 0

section Token

variable {launch : DispatchLaunch} {source : ParsedSource} {k : ℕ} {record : TokenRecord}

/-- A record is refused exactly if it is not in canonical form. -/
theorem scanRecord_ends (hrecord : source.tokens[k]? = some record) :
    Ends (scanRecord source record k) (fun _ => RecordScanned source k record)
      (fun _ => ¬ RecordScanned source k record) False := by
  have hk := (List.getElem?_eq_some_iff.mp hrecord).1
  have hbegin : previousEnd source k = .ok (expectedBegin source k) := by
    unfold previousEnd
    cases k with
    | zero => rfl
    | succ k =>
      have hprev : source.tokens[k]? = some source.tokens[k] :=
        List.getElem?_eq_getElem (by omega)
      rw [if_pos (Nat.succ_ne_zero k), Nat.add_sub_cancel, read_of hprev, ok_bind, expectedBegin,
        hprev]
      rfl
  unfold scanRecord
  rw [hbegin, ok_bind]
  apply Ends.require
  · intro h
    exact ⟨h.1, h.2.1, h.2.2.1, h.2.2.2.1, h.2.2.2.2⟩
  · intro h hscanned
    exact h ⟨hscanned.sourceToken, hscanned.assignmentBegin, hscanned.inRange, hscanned.last,
      hscanned.reserved⟩

/-- The assignments of a record in range are all there. -/
theorem length_assignmentsOf (hrange : record.assignmentBegin.toNat + record.assignmentCount.toNat
    ≤ source.assignments.length) :
    (source.assignmentsOf record).length = record.assignmentCount.toNat := by
  rw [ParsedSource.assignmentsOf, List.length_take, List.length_drop]
  omega

/-- An assignment of a record is read. -/
theorem assignmentAt_of {j : ℕ} {a : AssignmentRecord}
    (h : (source.assignmentsOf record)[j]? = some a) :
    assignmentAt source record j = .ok a := by
  apply read_of
  have hj := (List.getElem?_eq_some_iff.mp h).1
  rw [ParsedSource.assignmentsOf, List.length_take] at hj
  rw [ParsedSource.assignmentsOf, List.getElem?_take_of_lt (by omega), List.getElem?_drop] at h
  exact h

/-- The loop over a record's assignments is a fold over them. -/
theorem forAssignments_eq {β : Type} (body : β → AssignmentRecord → Exec DeviceStatus β) (st : β)
    (hrange : record.assignmentBegin.toNat + record.assignmentCount.toNat
      ≤ source.assignments.length) :
    forAssignments source record body st = (source.assignmentsOf record).foldlM body st := by
  unfold forAssignments
  rw [← length_assignmentsOf hrange]
  apply foldlM_range_length
  intro st j a h
  rw [assignmentAt_of h, ok_bind]

/-- The field tests of one assignment. -/
def AssignmentScanned (launch : DispatchLaunch) (record : TokenRecord) (a : AssignmentRecord) :
    Prop :=
  assignmentInSession launch.session a ∧ a.ordinal &&& kOrdinalVisited = 0 ∧
    a.ordinal < record.assignmentCount

/-- The loop succeeds exactly if every assignment is good. -/
theorem scanAssignments_ends (l : List AssignmentRecord) :
    Ends (l.foldlM (fun _ a => scanAssignment launch record a) ())
      (fun _ => ∀ a ∈ l, AssignmentScanned launch record a)
      (fun _ => ¬ ∀ a ∈ l, AssignmentScanned launch record a) False := by
  apply Ends.foldlM (fun pre _ => ∀ a ∈ pre, AssignmentScanned launch record a)
  · intro a ha
    cases ha
  · intro pre a post _ hsplit hpre
    apply Ends.require
    · intro h b hb
      rcases List.mem_append.mp hb with hb | hb
      · exact hpre b hb
      · rw [List.mem_singleton.mp hb]
        exact ⟨⟨h.1, h.2.1, h.2.2.1⟩, h.2.2.2.1, h.2.2.2.2⟩
    · intro hbad hall
      have ha := hall a (by rw [hsplit]; simp)
      exact hbad ⟨ha.1.1, ha.1.2.1, ha.1.2.2, ha.2.1, ha.2.2⟩

/-- The ordinals of assignments. -/
def ordinalsOf (l : List AssignmentRecord) : List UInt32 := l.map AssignmentRecord.ordinal

theorem nodup_ordinals_concat {l : List AssignmentRecord} {a : AssignmentRecord} :
    (ordinalsOf (l ++ [a])).Nodup ↔ (ordinalsOf l).Nodup ∧ a.ordinal ∉ ordinalsOf l := by
  rw [ordinalsOf, List.map_append, List.map_singleton, ← List.concat_eq_append,
    List.nodup_concat, and_comm]
  rfl

/-- The bits find a repeated ordinal. -/
theorem scanOrdinalBits_ends (l : List AssignmentRecord) :
    Ends (l.foldlM scanOrdinalBit Bits128.empty) (fun _ => (ordinalsOf l).Nodup)
      (fun _ => ¬ (ordinalsOf l).Nodup) False := by
  apply Ends.imp (P := fun bits => (ordinalsOf l).Nodup ∧
    ∀ x, bits.has x = true ↔ x ∈ ordinalsOf l)
  · apply Ends.foldlM (fun pre (bits : Bits128) => (ordinalsOf pre).Nodup ∧
      ∀ x, bits.has x = true ↔ x ∈ ordinalsOf pre)
    · exact ⟨List.nodup_nil, fun x => by simp [ordinalsOf]⟩
    · intro pre a post bits hsplit hpre
      rcases hpre with ⟨hnodup, hbits⟩
      unfold scanOrdinalBit
      apply Ends.bind (P := fun _ => a.ordinal ∉ ordinalsOf pre)
      · apply Ends.require
        · intro h hmem
          rw [(hbits a.ordinal).mpr hmem] at h
          cases h
        · intro h hall
          apply h
          rw [Bool.eq_false_iff]
          intro hhas
          rw [hsplit, show pre ++ a :: post = (pre ++ [a]) ++ post by simp, ordinalsOf,
            List.map_append] at hall
          exact (nodup_ordinals_concat.mp hall.of_append_left).2 ((hbits _).mp hhas)
      · intro _ hfresh
        apply ends_ok.mpr
        refine ⟨nodup_ordinals_concat.mpr ⟨hnodup, hfresh⟩, ?_⟩
        intro x
        rw [Bits128.has_add, hbits, ordinalsOf, ordinalsOf, List.map_append, List.mem_append,
          List.map_singleton, List.mem_singleton, or_comm, eq_comm (a := x)]
  · intro bits h
    exact h.1

/-- The quadratic scan, for the assignments `l` of the record. -/
theorem scanOrdinalPairs_ends {l : List AssignmentRecord} (hl : source.assignmentsOf record = l) :
    Ends ((List.range l.length).foldlM (fun _ j => scanOrdinalPair source record j) ())
      (fun _ => (ordinalsOf l).Nodup) (fun _ => ¬ (ordinalsOf l).Nodup) False := by
  apply Ends.imp (P := fun _ => (ordinalsOf (l.take l.length)).Nodup)
  · apply Ends.forRange (fun k _ => (ordinalsOf (l.take k)).Nodup)
    · exact List.nodup_nil
    · intro k hk _ hpre
      obtain ⟨a, hget⟩ : ∃ a, l[k]? = some a := ⟨_, List.getElem?_eq_getElem hk⟩
      rcases take_succ_of_getElem? hget with ⟨htake, hsplit⟩
      have hat : ∀ j b, l[j]? = some b → assignmentAt source record j = .ok b := by
        intro j b h
        rw [← hl] at h
        exact assignmentAt_of h
      unfold scanOrdinalPair
      rw [hat k _ hget, ok_bind, htake, nodup_ordinals_concat]
      -- the inner loop compares with the assignments before this one
      have hinner : (List.range k).foldlM (fun _ previous => do
            let other ← assignmentAt source record previous
            check (other.ordinal ≠ a.ordinal) .invalidAssignment) ()
          = (l.take k).foldlM (fun _ (other : AssignmentRecord) =>
              check (other.ordinal ≠ a.ordinal) .invalidAssignment) () := by
        have hlen : (l.take k).length = k := by
          rw [List.length_take]
          omega
        conv_lhs => rw [← hlen]
        apply foldlM_range_length
        intro _ j b h
        have hj := (List.getElem?_eq_some_iff.mp h).1
        rw [List.getElem?_take_of_lt (by omega)] at h
        rw [hat j b h, ok_bind]
      rw [hinner]
      apply Ends.imp (P := fun _ => ∀ other ∈ l.take k, other.ordinal ≠ a.ordinal)
      · apply Ends.foldlM fun (pre : List AssignmentRecord) _ =>
          ∀ other ∈ pre, other.ordinal ≠ a.ordinal
        · intro other hother
          cases hother
        · intro pre other post _ hcut hpairs
          apply Ends.require
          · intro hne x hx
            rcases List.mem_append.mp hx with hx | hx
            · exact hpairs x hx
            · rw [List.mem_singleton.mp hx]
              exact hne
          · intro heq hall
            rw [hsplit, show l.take k ++ a :: l.drop (k + 1)
              = (l.take k ++ [a]) ++ l.drop (k + 1) by simp, ordinalsOf, List.map_append] at hall
            apply (nodup_ordinals_concat.mp hall.of_append_left).2
            rw [← not_not.mp heq]
            exact List.mem_map_of_mem (by rw [hcut]; simp)
      · intro _ hpairs
        refine ⟨hpre, ?_⟩
        intro hmem
        rcases List.mem_map.mp hmem with ⟨other, hother, heq⟩
        exact hpairs other hother heq
  · intro _ h
    rwa [List.take_length] at h

theorem scanOrdinals_ends (hrange : record.assignmentBegin.toNat + record.assignmentCount.toNat
    ≤ source.assignments.length) :
    Ends (scanOrdinals source record) (fun _ => (ordinalsOf (source.assignmentsOf record)).Nodup)
      (fun _ => ¬ (ordinalsOf (source.assignmentsOf record)).Nodup) False := by
  unfold scanOrdinals
  split
  · rw [forAssignments_eq _ _ hrange]
    apply Ends.bind (scanOrdinalBits_ends _)
    intro _ h
    exact h
  · rw [← length_assignmentsOf hrange]
    exact scanOrdinalPairs_ends rfl

/-- The two ordinal scans say what the parser's flags say. -/
theorem assignmentsValid_iff {l : List AssignmentRecord} :
    (AssignmentsValid launch.session record.assignmentCount.toNat l ∧
      ∀ a ∈ l, a.ordinal &&& kOrdinalVisited = 0) ↔
    (∀ a ∈ l, AssignmentScanned launch record a) ∧ (ordinalsOf l).Nodup := by
  have hmap : (l.map fun a => a.ordinal.toNat) = (ordinalsOf l).map UInt32.toNat := by
    rw [ordinalsOf, List.map_map]
    rfl
  have hinj : Function.Injective UInt32.toNat := fun _ _ => UInt32.toNat_inj.mp
  unfold AssignmentsValid OnceBelow
  rw [hmap, List.nodup_map_iff hinj]
  constructor
  · intro h
    refine ⟨?_, h.1.2.2⟩
    intro a ha
    refine ⟨h.1.1 a ha, h.2 a ha, ?_⟩
    exact UInt32.lt_iff_toNat_lt.mpr (h.1.2.1 _ (List.mem_map_of_mem (List.mem_map_of_mem ha)))
  · intro h
    refine ⟨⟨fun a ha => (h.1 a ha).1, ?_, h.2⟩, fun a ha => (h.1 a ha).2.1⟩
    intro n hn
    rcases List.mem_map.mp hn with ⟨x, hx, rfl⟩
    rcases List.mem_map.mp hx with ⟨a, ha, rfl⟩
    exact UInt32.lt_iff_toNat_lt.mp (h.1 a ha).2.2

end Token

end AscendShmem.PullV2
