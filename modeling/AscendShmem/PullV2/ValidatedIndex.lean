import AscendShmem.PullV2.ValidationTheorems

/-!
# The plan checks are sound

What the checks of the combine kernel establish, for arrays with any contents. Block zero has added
up the counts and compared offsets (`IndexChecked`); a walk along a chain of the expected length has
met pulls of one accumulator and of different sources (`walkChain_eq_ok`). The chains have different
accumulators and as many pulls in all as there are, so they meet each pull once; the results of the
accumulators are as many as the output rows and differ, so each row is the cell of one accumulator.
-/

namespace AscendShmem.PullV2

open Lib Lib.Exec

variable {launch : CombineLaunch} {plan : CombinePullPlan}

/-! ## Block zero -/

/-- The number of pulls an accumulator expects. -/
def CombinePullPlan.countAt (plan : CombinePullPlan) (a : ℕ) : ℕ :=
  (plan.accumulatorContributorCounts.getD a 0).toNat

/-- What the loop over the owners has compared at one owner. -/
structure OwnerChecked (launch : CombineLaunch) (plan : CombinePullPlan) (owner : ℕ) : Prop where
  sources : ∃ first last, plan.sourceOffsets[owner]? = some first ∧
    plan.sourceOffsets[owner + 1]? = some last ∧ first ≤ last
  owners : ∃ first last, plan.ownerOffsets[owner]? = some first ∧
    plan.ownerOffsets[owner + 1]? = some last ∧ first ≤ last
  rows : plan.ownerRows owner ≤ 0xffffffff
  fits : 4 * launch.hidden.toNat * plan.ownerRows owner ≤ launch.ownerOutputSlotStride.toNat

/-- What block zero has checked. -/
structure IndexChecked (launch : CombineLaunch) (plan : CombinePullPlan) : Prop where
  sourceOffsets : plan.sourceOffsets[0]? = some 0 ∧
    plan.sourceOffsets[launch.workerCount.toNat]? = some launch.pullCount
  ownerOffsets : plan.ownerOffsets[0]? = some 0 ∧
    plan.ownerOffsets[launch.workerCount.toNat]? = some launch.resultCount
  counts : ∀ a < launch.accumulatorCount.toNat, ∃ count,
    plan.accumulatorContributorCounts[a]? = some count ∧ count ≤ launch.workerCount
  total : total plan.countAt (List.range launch.accumulatorCount.toNat) = launch.pullCount.toNat
  owners : ∀ owner < launch.workerCount.toNat, OwnerChecked launch plan owner

/-- One turn of the loop that counts the pulls. -/
theorem countPulls_eq_ok {indexed indexed' : UInt64} {a : ℕ} :
    countPulls launch plan indexed a = .ok indexed' ↔
      (∃ count, plan.accumulatorContributorCounts[a]? = some count ∧
        count ≤ launch.workerCount) ∧
      indexed'.toNat = indexed.toNat + plan.countAt a ∧ indexed' ≤ launch.pullCount := by
  unfold countPulls
  simp only [bind_eq_ok, read_eq_ok, ensure, require_eq_ok, orFail_eq_ok, addU64_eq_add,
    add_eq_some]
  constructor
  · rintro ⟨count, hcount, -, hle, sum, hsum, -, hpulls, hok⟩
    rw [Except.ok.injEq] at hok
    subst hok
    refine ⟨⟨count, hcount, hle⟩, ?_, hpulls⟩
    rw [CombinePullPlan.countAt, List.getD_eq_getElem?_getD, hcount, Option.getD_some]
    rw [UInt32.toNat_toUInt64] at hsum
    exact hsum.symm
  · rintro ⟨⟨count, hcount, hle⟩, hsum, hpulls⟩
    rw [CombinePullPlan.countAt, List.getD_eq_getElem?_getD, hcount, Option.getD_some] at hsum
    refine ⟨count, hcount, (), hle, indexed', ?_, (), hpulls, rfl⟩
    rw [UInt32.toNat_toUInt64]
    exact hsum.symm

/-- The counts are added up without overflow. -/
theorem countAll_eq_ok {n : ℕ} {indexed : UInt64} :
    (List.range n).foldlM (countPulls launch plan) 0 = .ok indexed ↔
      (∀ a < n, ∃ count, plan.accumulatorContributorCounts[a]? = some count ∧
        count ≤ launch.workerCount) ∧
      indexed.toNat = total plan.countAt (List.range n) ∧ indexed ≤ launch.pullCount := by
  induction n generalizing indexed with
  | zero =>
    have hzero : (0 : UInt64) = indexed ↔ indexed.toNat = 0 :=
      ⟨fun h => h ▸ rfl, fun h => (UInt64.toNat_inj.mp h).symm⟩
    rw [List.range_zero, List.foldlM_nil, pure_eq_ok, Except.ok.injEq, hzero, total_nil]
    refine ⟨fun h => ⟨fun a ha => absurd ha (Nat.not_lt_zero a), h, ?_⟩, fun h => h.2.1⟩
    rw [UInt64.le_iff_toNat_le, h]
    exact Nat.zero_le _
  | succ n ih =>
    rw [List.range_succ, List.foldlM_append, bind_eq_ok, total_append, total_singleton]
    simp only [List.foldlM_cons, List.foldlM_nil, bind_eq_ok, pure_eq_ok, ih, countPulls_eq_ok]
    constructor
    · rintro ⟨before, ⟨hcounts, hbefore, -⟩, after, ⟨hcount, hafter, hle⟩, hok⟩
      rw [Except.ok.injEq] at hok
      subst hok
      refine ⟨fun a ha => ?_, by rw [hafter, hbefore], hle⟩
      rcases Nat.lt_succ_iff_lt_or_eq.mp ha with ha | rfl
      · exact hcounts a ha
      · exact hcount
    · rintro ⟨hcounts, hsum, hle⟩
      have hlt := indexed.toNat_lt
      have hbefore : (UInt64.ofNat (total plan.countAt (List.range n))).toNat
          = total plan.countAt (List.range n) := by
        rw [UInt64.toNat_ofNat', Nat.mod_eq_of_lt (by omega)]
      refine ⟨UInt64.ofNat (total plan.countAt (List.range n)),
        ⟨fun a ha => hcounts a (Nat.lt_succ_of_lt ha), hbefore, ?_⟩, indexed,
        ⟨hcounts n (Nat.lt_succ_self n), by rw [hbefore, hsum], hle⟩, rfl⟩
      rw [UInt64.le_iff_toNat_le] at hle ⊢
      omega

/-- A difference that does not wrap. -/
theorem sub_toNat_of_le {a b : UInt64} (h : a ≤ b) : (b - a).toNat = b.toNat - a.toNat := by
  have hle := UInt64.le_iff_toNat_le.mp h
  have ha := a.toNat_lt
  have hb := b.toNat_lt
  rw [UInt64.toNat_sub]
  omega

/-- The rows of an owner lie between its offsets. -/
theorem ownerRows_eq {owner : ℕ} {first last : UInt64}
    (hfirst : plan.ownerOffsets[owner]? = some first)
    (hlast : plan.ownerOffsets[owner + 1]? = some last) :
    plan.ownerRows owner = last.toNat - first.toNat := by
  unfold CombinePullPlan.ownerRows
  rw [List.getD_eq_getElem?_getD, List.getD_eq_getElem?_getD, hfirst, hlast]
  rfl

/-- The larger of two is within a bound if both are. -/
theorem largest_le {a b bound : UInt64} :
    (if a < b then b else a) ≤ bound ↔ a ≤ bound ∧ b ≤ bound := by
  simp only [UInt64.le_iff_toNat_le]
  split
  · rename_i h
    rw [UInt64.lt_iff_toNat_lt] at h
    omega
  · rename_i h
    rw [UInt64.lt_iff_toNat_lt] at h
    omega

/-- One owner keeps the maximum below the stride exactly when its own rows fit. -/
theorem checkOwner_fits {rowBytes maximum : UInt64} {owner : ℕ}
    (hrow : rowBytes.toNat = 4 * launch.hidden.toNat) :
    (∃ maximum', checkOwner plan rowBytes maximum owner = .ok maximum' ∧
        maximum' ≤ launch.ownerOutputSlotStride) ↔
      maximum ≤ launch.ownerOutputSlotStride ∧ OwnerChecked launch plan owner := by
  unfold checkOwner
  simp only [bind_eq_ok, read_eq_ok, ensure, require_eq_ok, orFail_eq_ok,
    checkedMulU64ByU32_eq_some]
  constructor
  · rintro ⟨maximum', ⟨source, hsource, sourceEnd, hsourceEnd, first, hfirst, last, hlast, -,
      ⟨hsources, howners⟩, -, hrows, bytes, hbytes, hok⟩, hle⟩
    rw [Except.ok.injEq] at hok
    have hsub := sub_toNat_of_le howners
    have hsize : (last - first).toNat ≤ 0xffffffff := UInt64.le_iff_toNat_le.mp hrows
    rw [UInt64.toNat_toUInt32, Nat.mod_eq_of_lt (by omega), hsub, hrow,
      ← ownerRows_eq hfirst hlast] at hbytes
    rw [← hok, largest_le] at hle
    refine ⟨hle.1, ⟨source, sourceEnd, hsource, hsourceEnd, hsources⟩,
      ⟨first, last, hfirst, hlast, howners⟩, ?_, ?_⟩
    · rw [ownerRows_eq hfirst hlast, ← hsub]
      exact hsize
    · rw [hbytes]
      exact UInt64.le_iff_toNat_le.mp hle.2
  · rintro ⟨hmaximum, ⟨source, sourceEnd, hsource, hsourceEnd, hsources⟩,
      ⟨first, last, hfirst, hlast, howners⟩, hrows, hfits⟩
    have hsub := sub_toNat_of_le howners
    have heq := ownerRows_eq hfirst hlast
    have hstride := launch.ownerOutputSlotStride.toNat_lt
    have hbytes : (UInt64.ofNat (4 * launch.hidden.toNat * plan.ownerRows owner)).toNat
        = 4 * launch.hidden.toNat * plan.ownerRows owner := by
      rw [UInt64.toNat_ofNat', Nat.mod_eq_of_lt (by omega)]
    have hsize : last - first ≤ 0xffffffff := by
      rw [UInt64.le_iff_toNat_le, hsub, ← heq]
      exact hrows
    have hproduct : rowBytes.toNat * (last - first).toUInt32.toNat
        = (UInt64.ofNat (4 * launch.hidden.toNat * plan.ownerRows owner)).toNat := by
      rw [UInt64.toNat_toUInt32, hsub, ← heq, Nat.mod_eq_of_lt (by omega), hrow, hbytes]
    have hbound := largest_le.mpr ⟨hmaximum, UInt64.le_iff_toNat_le.mpr (hbytes.trans_le hfits)⟩
    exact ⟨_, ⟨source, hsource, sourceEnd, hsourceEnd, first, hfirst, last, hlast, (),
      ⟨hsources, howners⟩, (), hsize, _, hproduct, rfl⟩, hbound⟩

/-- The owners pass if their blocks fit. -/
theorem checkOwners_fit {rowBytes maximum : UInt64} {owners : List ℕ}
    (hrow : rowBytes.toNat = 4 * launch.hidden.toNat) :
    (∃ maximum', owners.foldlM (checkOwner plan rowBytes) maximum = .ok maximum' ∧
        maximum' ≤ launch.ownerOutputSlotStride) ↔
      maximum ≤ launch.ownerOutputSlotStride ∧
        ∀ owner ∈ owners, OwnerChecked launch plan owner := by
  induction owners generalizing maximum with
  | nil => simp
  | cons owner owners ih =>
    have hstep : (∃ maximum', checkOwner plan rowBytes maximum owner = .ok maximum' ∧
        maximum' ≤ launch.ownerOutputSlotStride) ↔ _ := checkOwner_fits hrow
    simp only [List.foldlM_cons, bind_eq_ok]
    rw [List.forall_mem_cons, ← and_assoc, ← hstep]
    constructor
    · rintro ⟨last, ⟨first, hfirst, hrest⟩, hle⟩
      have h := ih.mp ⟨last, hrest, hle⟩
      exact ⟨⟨first, hfirst, h.1⟩, h.2⟩
    · rintro ⟨⟨first, hfirst, hle⟩, howners⟩
      obtain ⟨last, hrest, hlast⟩ := ih.mpr ⟨hle, howners⟩
      exact ⟨last, ⟨first, hfirst, hrest⟩, hlast⟩

/-- The index passes exactly if its sums and blocks are good. -/
theorem checkIndex_eq_ok : checkIndex launch plan = .ok () ↔ IndexChecked launch plan := by
  have hhidden := launch.hidden.toNat_lt
  have hbytes : (UInt64.ofNat (4 * launch.hidden.toNat)).toNat = 4 * launch.hidden.toNat := by
    rw [UInt64.toNat_ofNat', Nat.mod_eq_of_lt (by omega)]
  unfold checkIndex
  simp only [bind_eq_ok, read_eq_ok, ensure, require_eq_ok, orFail_eq_ok,
    checkedMulU64ByU32_eq_some, countAll_eq_ok]
  constructor
  · rintro ⟨source, hsource, sourceEnd, hsourceEnd, owner, howner, ownerEnd, hownerEnd, -,
      ⟨rfl, rfl, rfl, rfl⟩, indexed, ⟨hcounts, htotal, -⟩, -, rfl, rowBytes, hrow, maximum,
      howners, hle⟩
    exact ⟨⟨hsource, hsourceEnd⟩, ⟨howner, hownerEnd⟩, hcounts, htotal.symm, fun o ho =>
      ((checkOwners_fit hrow.symm).mp ⟨maximum, howners, hle⟩).2 o (List.mem_range.mpr ho)⟩
  · rintro ⟨⟨hsource, hsourceEnd⟩, ⟨howner, hownerEnd⟩, hcounts, htotal, howners⟩
    have hzero : (0 : UInt64) ≤ launch.ownerOutputSlotStride :=
      UInt64.le_iff_toNat_le.mpr (Nat.zero_le _)
    obtain ⟨maximum, hmaximum, hle⟩ := (checkOwners_fit hbytes).mpr
      ⟨hzero, fun o ho => howners o (List.mem_range.mp ho)⟩
    exact ⟨_, hsource, _, hsourceEnd, _, howner, _, hownerEnd, (), ⟨rfl, rfl, rfl, rfl⟩,
      launch.pullCount, ⟨hcounts, htotal.symm, UInt64.le_refl _⟩, (), rfl, _, hbytes.symm, maximum,
      hmaximum, hle⟩

/-! ## The walk along a chain -/

/-- The source of a pull. -/
def CombinePullPlan.sourceAt (plan : CombinePullPlan) (i : ℕ) : Option UInt32 :=
  plan.pulls[i]?.map CombinePullOp.sourceRank

/-- The pulls of a chain are pulls of accumulator `a` and of one journal token. -/
def ChainPulls (launch : CombineLaunch) (plan : CombinePullPlan) (accumulator token : UInt32)
    (chain : List ℕ) : Prop :=
  ∀ i ∈ chain, i < launch.pullCount.toNat ∧ ∃ op, plan.pulls[i]? = some op ∧
    op.accumulatorIndex = accumulator ∧ op.journalToken = token

/-- A walk goes through exactly along a chain that has the expected length and ends there, whose
pulls belong to the accumulator and come from different sources. -/
theorem walkChain_eq_ok {accumulator token : UInt32} {left : ℕ} {seen : SeenSources}
    {current : UInt32}
    (hsources : ∀ i op, i < launch.pullCount.toNat → plan.pulls[i]? = some op →
      op.sourceRank.toNat < 128) :
    walkChain launch plan accumulator token left seen current = .ok () ↔
      ∃ chain, chain.length = left ∧ ChainFrom plan.pullNext current chain ∧
        ChainPulls launch plan accumulator token chain ∧ (chain.map plan.sourceAt).Nodup ∧
        ∀ i ∈ chain, ∀ op, plan.pulls[i]? = some op → seen.seen op.sourceRank = false := by
  -- the walk takes one pull off the chain and marks its source for the rest
  induction left generalizing seen current with
  | zero =>
    rw [walkChain, ensure_eq_ok]
    constructor
    · intro hend
      exact ⟨[], rfl, hend, List.forall_mem_nil _, List.nodup_nil, List.forall_mem_nil _⟩
    · rintro ⟨chain, hlength, hchain, -⟩
      rw [List.length_eq_zero_iff.mp hlength] at hchain
      exact hchain
  | succ left ih =>
    rw [walkChain]
    simp only [bind_eq_ok, ensure, require_eq_ok, read_eq_ok]
    constructor
    · rintro ⟨-, ⟨hcurrent, hlt⟩, op, hop, -, ⟨haccumulator, htoken, hfresh⟩, next, hnext, hrest⟩
      rw [UInt64.lt_iff_toNat_lt, UInt32.toNat_toUInt64] at hlt
      obtain ⟨chain, hlength, hchain, hmembers, hnodup, hseen⟩ := ih.mp hrest
      have hop128 := hsources _ op hlt hop
      -- the rest is not marked, by this pull nor before
      have hsplit : ∀ i ∈ chain, ∀ op', plan.pulls[i]? = some op' →
          op.sourceRank ≠ op'.sourceRank ∧ seen.seen op'.sourceRank = false := by
        intro i hi op' hop'
        have hmark := hseen i hi op' hop'
        have hop'128 := hsources i op' (hmembers i hi).1 hop'
        rw [← Bool.not_eq_true, SeenSources.seen_mark hop128 hop'128, not_or,
          Bool.not_eq_true] at hmark
        exact hmark
      refine ⟨current.toNat :: chain, congrArg Nat.succ hlength, ⟨hcurrent, rfl, next, hnext, hchain⟩,
        List.forall_mem_cons.mpr ⟨⟨hlt, op, hop, haccumulator, htoken⟩, hmembers⟩,
        List.nodup_cons.mpr ⟨?_, hnodup⟩, List.forall_mem_cons.mpr ⟨?_, ?_⟩⟩
      · intro hmem
        obtain ⟨i, hi, heq⟩ := List.mem_map.mp hmem
        obtain ⟨-, op', hop', -⟩ := hmembers i hi
        unfold CombinePullPlan.sourceAt at heq
        rw [hop, hop', Option.map_some, Option.map_some, Option.some.injEq] at heq
        exact (hsplit i hi op' hop').1 heq.symm
      · intro op' hop'
        rw [hop, Option.some.injEq] at hop'
        rw [← hop']
        exact hfresh
      · exact fun i hi op' hop' => (hsplit i hi op' hop').2
    · rintro ⟨chain, hlength, hchain, hmembers, hnodup, hseen⟩
      cases chain with
      | nil => cases hlength
      | cons i chain =>
        obtain ⟨hcurrent, rfl, next, hnext, hrest⟩ := hchain
        obtain ⟨⟨hlt, op, hop, haccumulator, htoken⟩, hmembers⟩ := List.forall_mem_cons.mp hmembers
        obtain ⟨hfirst, hnodup⟩ := List.nodup_cons.mp hnodup
        obtain ⟨hfresh, hseen⟩ := List.forall_mem_cons.mp hseen
        have hop128 := hsources _ op hlt hop
        refine ⟨(), ⟨hcurrent, ?_⟩, op, hop, (), ⟨haccumulator, htoken, hfresh op hop⟩, next, hnext,
          ih.mpr ⟨chain, Nat.succ.inj hlength, hrest, hmembers, hnodup, ?_⟩⟩
        · rw [UInt64.lt_iff_toNat_lt, UInt32.toNat_toUInt64]
          exact hlt
        · intro j hj op' hop'
          have hop'128 := hsources j op' (hmembers j hj).1 hop'
          rw [← Bool.not_eq_true, SeenSources.seen_mark hop128 hop'128, not_or, Bool.not_eq_true]
          refine ⟨fun heq => hfirst ?_, hseen j hj op' hop'⟩
          refine List.mem_map.mpr ⟨j, hj, ?_⟩
          unfold CombinePullPlan.sourceAt
          rw [hop, hop', Option.map_some, Option.map_some, heq]

/-! ## The passes of the loops -/

/-- What the pass of an accumulator has read and compared. -/
structure AccumulatorChecked (launch : CombineLaunch) (plan : CombinePullPlan) (accumulator : UInt32)
    (op : CombineResultOp) (result head : UInt32) : Prop where
  count : plan.accumulatorContributorCounts[accumulator.toNat]? = some op.expectedContributors
  resultIndex : plan.accumulatorResultIndex[accumulator.toNat]? = some result
  result_lt : result.toUInt64 < launch.resultCount
  resultAt : plan.results[result.toNat]? = some op
  accumulatorIndex : op.accumulatorIndex = accumulator
  journalToken : op.journalToken < launch.accumulatorCount
  ownerRank : op.ownerRank < launch.workerCount
  ownerRow : ∃ first last, plan.ownerOffsets[op.ownerRank.toNat]? = some first ∧
    plan.ownerOffsets[(op.ownerRank + 1).toNat]? = some last ∧ first ≤ result.toUInt64 ∧
    result.toUInt64 < last ∧ op.ownerRow.toUInt64 = result.toUInt64 - first
  reserved : op.reserved = (0, 0, 0)
  headAt : plan.accumulatorHeads[accumulator.toNat]? = some head
  walk : walkChain launch plan accumulator op.journalToken op.expectedContributors.toNat
    SeenSources.none head = .ok ()

/-- An accumulator passes exactly if its pull and its result name it. -/
theorem checkAccumulator_eq_ok {accumulator : UInt32} :
    checkAccumulator launch plan accumulator = .ok () ↔
      ∃ op result head, AccumulatorChecked launch plan accumulator op result head := by
  unfold checkAccumulator
  simp only [bind_eq_ok, ensure, require_eq_ok, read_eq_ok]
  constructor
  · rintro ⟨expected, hexpected, result, hresult, -, hlt, op, hop, -,
      ⟨haccumulator, htoken, rfl, howner⟩, first, hfirst, last, hlast, -,
      ⟨hle, hrange, hrow, hreserved⟩, head, hhead, hwalk⟩
    exact ⟨op, result, head, hexpected, hresult, hlt, hop, haccumulator, htoken, howner,
      ⟨first, last, hfirst, hlast, hle, hrange, hrow⟩, hreserved, hhead, hwalk⟩
  · rintro ⟨op, result, head, h⟩
    obtain ⟨first, last, hfirst, hlast, hle, hrange, hrow⟩ := h.ownerRow
    exact ⟨_, h.count, result, h.resultIndex, (), h.result_lt, op, h.resultAt, (),
      ⟨h.accumulatorIndex, h.journalToken, rfl, h.ownerRank⟩, first, hfirst, last, hlast, (),
      ⟨hle, hrange, hrow, h.reserved⟩, head, h.headAt, h.walk⟩

/-- The pass of a pull has seen that it comes from a worker. -/
theorem source_of_checkPull {i : ℕ} (hi : i < 2 ^ 32)
    (hok : checkPull launch plan (UInt64.ofNat i) = .ok ()) :
    ∃ op, plan.pulls[i]? = some op ∧ op.sourceRank < launch.workerCount := by
  have hindex : (UInt64.ofNat i).toUInt32.toNat = i := by
    rw [UInt64.toNat_toUInt32, UInt64.toNat_ofNat', Nat.mod_eq_of_lt (by omega),
      Nat.mod_eq_of_lt (by omega)]
  unfold checkPull at hok
  simp only [bind_eq_ok, ensure, require_eq_ok, read_eq_ok, hindex] at hok
  obtain ⟨op, hop, _, -, -, ⟨hsource, -⟩, -⟩ := hok
  exact ⟨op, hop, hsource⟩

/-- All checks of a launch have gone through. -/
structure AllChecked (launch : CombineLaunch) (plan : CombinePullPlan) : Prop where
  valid : launch.Valid
  index : IndexChecked launch plan
  pulls : ∀ i < launch.pullCount.toNat, checkPull launch plan (UInt64.ofNat i) = .ok ()
  accumulators : ∀ a < launch.accumulatorCount.toNat, ∃ op result head,
    AccumulatorChecked launch plan (UInt32.ofNat a) op result head

theorem Validates.allChecked (h : Validates launch plan) : AllChecked launch plan := by
  obtain ⟨hvalid, hindex, hends⟩ := validates_iff.mp h
  exact ⟨hvalid, checkIndex_eq_ok.mp hindex, fun i hi => hends.pull hvalid hi, fun a ha =>
    checkAccumulator_eq_ok.mp (hends.accumulator hvalid ha)⟩

namespace AllChecked

theorem accumulator_toNat {a : ℕ} (ha : a < launch.accumulatorCount.toNat) :
    (UInt32.ofNat a).toNat = a := by
  have hlt := launch.accumulatorCount.toNat_lt
  rw [UInt32.toNat_ofNat', Nat.mod_eq_of_lt (by omega)]

/-! ## Chains -/

/-- A checked pull is of one of 128 sources. -/
theorem sources_lt (h : AllChecked launch plan) {i : ℕ} {op : CombinePullOp}
    (hi : i < launch.pullCount.toNat) (hop : plan.pulls[i]? = some op) :
    op.sourceRank.toNat < 128 := by
  have hle := h.valid.pulls_le
  obtain ⟨op', hop', hsource⟩ := source_of_checkPull (by omega) (h.pulls i hi)
  rw [hop, Option.some.injEq] at hop'
  rw [UInt32.lt_iff_toNat_lt, ← hop'] at hsource
  have hworkers := h.valid.workers_le
  omega

/-- The chain the pass of an accumulator has walked. -/
theorem exists_chain (h : AllChecked launch plan) {a : ℕ} (ha : a < launch.accumulatorCount.toNat) :
    ∃ head chain, plan.accumulatorHeads[a]? = some head ∧ ChainFrom plan.pullNext head chain ∧
      chain.length = plan.countAt a ∧ (chain.map plan.sourceAt).Nodup ∧
      ∀ i ∈ chain, i < launch.pullCount.toNat ∧ i < plan.pulls.length ∧
        accumulatorAt plan.pulls i = a := by
  obtain ⟨op, result, head, hchecked⟩ := h.accumulators a ha
  have hhead := hchecked.headAt
  have hcount := hchecked.count
  rw [accumulator_toNat ha] at hhead hcount
  obtain ⟨chain, hlength, hchain, hmembers, hnodup, -⟩ :=
    (walkChain_eq_ok fun i op => h.sources_lt).mp hchecked.walk
  refine ⟨head, chain, hhead, hchain, ?_, hnodup, fun i hi => ?_⟩
  · rw [hlength, CombinePullPlan.countAt, List.getD_eq_getElem?_getD, hcount, Option.getD_some]
  · obtain ⟨hlt, pull, hpull, haccumulator, -⟩ := hmembers i hi
    refine ⟨hlt, (List.getElem?_eq_some_iff.mp hpull).1, ?_⟩
    rw [accumulatorAt_eq hpull, haccumulator, accumulator_toNat ha]

/-- The chains are as long together as there are pulls, so they meet every pull once. -/
theorem chainsSound (h : AllChecked launch plan) : ∃ chains, ChainsSound launch plan chains := by
  choose! head chains hhead hchain hlength hnodup hmembers using
    fun a (ha : a < launch.accumulatorCount.toNat) => h.exists_chain ha
  have htotal : ((List.range launch.accumulatorCount.toNat).map fun a => (chains a).length).sum
      = launch.pullCount.toNat := by
    rw [← h.index.total, total]
    congr 1
    exact List.map_congr_left fun a ha => hlength a (List.mem_range.mp ha)
  have hpartition := partition_of_length
    (fun a ha i hi => ⟨(hmembers a ha i hi).1, (hmembers a ha i hi).2.2⟩)
    (fun a ha => List.Nodup.of_map _ (hnodup a ha)) htotal
  refine ⟨chains, fun a ha => ⟨head a, hhead a ha, hchain a ha⟩, hnodup,
    fun a ha i hi => (hmembers a ha i hi).2.1, fun i hi => ?_⟩
  obtain ⟨a, ha, hia⟩ := List.mem_flatMap.mp (hpartition.mem_iff.mpr (List.mem_range.mpr hi))
  refine ⟨a, ⟨List.mem_range.mp ha, hia⟩, ?_⟩
  rintro b ⟨hb, hib⟩
  rw [← (hmembers b hb i hib).2.2, (hmembers a (List.mem_range.mp ha) i hia).2.2]

/-! ## Output rows -/

/-- Where the results of an owner begin. -/
def ownerStart (plan : CombinePullPlan) (owner : ℕ) : ℕ := (plan.ownerOffsets.getD owner 0).toNat

theorem ownerStart_eq {owner : ℕ} {offset : UInt64}
    (h : plan.ownerOffsets[owner]? = some offset) : ownerStart plan owner = offset.toNat := by
  rw [ownerStart, List.getD_eq_getElem?_getD, h]
  rfl

/-- The owners start in order. -/
theorem ownerStart_mono (h : AllChecked launch plan) {o p : ℕ} (hop : o ≤ p)
    (hp : p ≤ launch.workerCount.toNat) : ownerStart plan o ≤ ownerStart plan p := by
  induction p, hop using Nat.le_induction with
  | base => exact le_refl _
  | succ p _ ih =>
    obtain ⟨first, last, hfirst, hlast, hle⟩ := (h.index.owners p hp).owners
    have hstep := UInt64.le_iff_toNat_le.mp hle
    rw [← ownerStart_eq hfirst, ← ownerStart_eq hlast] at hstep
    exact (ih (Nat.le_of_succ_le hp)).trans hstep

theorem ownerStart_end (h : AllChecked launch plan) :
    ownerStart plan launch.workerCount.toNat = launch.accumulatorCount.toNat := by
  rw [ownerStart_eq h.index.ownerOffsets.2, h.valid.results_eq]

/-- The result the pass of an accumulator has looked at lies among the rows of its owner. -/
theorem exists_result (h : AllChecked launch plan) {a : ℕ}
    (ha : a < launch.accumulatorCount.toNat) :
    ∃ (result : UInt32) (op : CombineResultOp), plan.accumulatorResultIndex[a]? = some result ∧
      plan.results[result.toNat]? = some op ∧ op.accumulatorIndex.toNat = a ∧
      result.toNat < launch.accumulatorCount.toNat ∧
      op.ownerRank.toNat < launch.workerCount.toNat ∧
      result.toNat = ownerStart plan op.ownerRank.toNat + op.ownerRow.toNat ∧
      result.toNat < ownerStart plan (op.ownerRank.toNat + 1) := by
  obtain ⟨op, result, head, hchecked⟩ := h.accumulators a ha
  obtain ⟨first, last, hfirst, hlast, hle, hlt, hrow⟩ := hchecked.ownerRow
  have hindex := hchecked.resultIndex
  rw [accumulator_toNat ha] at hindex
  have howner := UInt32.lt_iff_toNat_lt.mp hchecked.ownerRank
  have hworkers := h.valid.workers_le
  have hnext : (op.ownerRank + 1).toNat = op.ownerRank.toNat + 1 := by
    rw [UInt32.toNat_add]
    exact Nat.mod_eq_of_lt (by rw [UInt32.toNat_one]; omega)
  rw [hnext] at hlast
  have hrow' := congrArg UInt64.toNat hrow
  rw [sub_toNat_of_le hle, UInt32.toNat_toUInt64, UInt32.toNat_toUInt64,
    ← ownerStart_eq hfirst] at hrow'
  rw [UInt64.le_iff_toNat_le, UInt32.toNat_toUInt64, ← ownerStart_eq hfirst] at hle
  rw [UInt64.lt_iff_toNat_lt, UInt32.toNat_toUInt64, ← ownerStart_eq hlast] at hlt
  have hresult := hchecked.result_lt
  rw [UInt64.lt_iff_toNat_lt, UInt32.toNat_toUInt64, h.valid.results_eq] at hresult
  refine ⟨result, op, hindex, hchecked.resultAt, ?_, hresult, howner, by omega, hlt⟩
  rw [hchecked.accumulatorIndex, accumulator_toNat ha]

/-- The results of the accumulators differ, and there are as many as output rows. -/
theorem cellsSound (h : AllChecked launch plan) : ∃ cell, CellsSound launch plan cell := by
  have : Nonempty CombineResultOp := ⟨{}⟩
  choose! result op hindex hop haccumulator hlt howner hrow hend using
    fun a (ha : a < launch.accumulatorCount.toNat) => h.exists_result ha
  have hsame : ∀ a < launch.accumulatorCount.toNat, ∀ b < launch.accumulatorCount.toNat,
      (result a).toNat = (result b).toNat → a = b := by
    intro a ha b hb heq
    have hopb := hop b hb
    rw [← heq, hop a ha, Option.some.injEq] at hopb
    rw [← haccumulator a ha, hopb, haccumulator b hb]
  -- as many results as accumulators: every result is the one of an accumulator
  have hall : Set.SurjOn (fun a => (result a).toNat) (Finset.range launch.accumulatorCount.toNat)
      (Finset.range launch.accumulatorCount.toNat) := by
    apply Finset.surjOn_of_injOn_of_card_le
    · intro a ha
      exact Finset.mem_coe.mpr (Finset.mem_range.mpr
        (hlt a (Finset.mem_range.mp (Finset.mem_coe.mp ha))))
    · intro a ha b hb heq
      exact hsame a (Finset.mem_range.mp (Finset.mem_coe.mp ha)) b
        (Finset.mem_range.mp (Finset.mem_coe.mp hb)) heq
    · exact le_refl _
  refine ⟨fun a => ((op a).ownerRank.toNat, (op a).ownerRow.toNat),
    fun a ha => ⟨result a, op a, hindex a ha, hop a ha, haccumulator a ha, rfl⟩, ?_, ?_, ?_⟩
  · intro a ha
    refine ⟨howner a ha, ?_⟩
    have hin := hend a ha
    have hsplit := hrow a ha
    show (op a).ownerRow.toNat < ownerStart plan ((op a).ownerRank.toNat + 1)
      - ownerStart plan (op a).ownerRank.toNat
    omega
  · intro a ha b hb heq
    obtain ⟨hrank, hsameRow⟩ := Prod.mk.inj heq
    apply hsame a ha b hb
    rw [hrow a ha, hrow b hb, hrank, hsameRow]
  · rintro ⟨owner, row⟩ ⟨hworker, hbound⟩
    replace hworker : owner < launch.workerCount.toNat := hworker
    replace hbound : row < ownerStart plan (owner + 1) - ownerStart plan owner := hbound
    have hbelow : ownerStart plan (owner + 1) ≤ ownerStart plan launch.workerCount.toNat :=
      h.ownerStart_mono hworker (le_refl _)
    rw [h.ownerStart_end] at hbelow
    obtain ⟨a, ha, hresult⟩ := hall (Finset.mem_coe.mpr (Finset.mem_range.mpr
      (show ownerStart plan owner + row < launch.accumulatorCount.toNat by omega)))
    replace ha : a < launch.accumulatorCount.toNat := Finset.mem_range.mp (Finset.mem_coe.mp ha)
    replace hresult : (result a).toNat = ownerStart plan owner + row := hresult
    have hin := hend a ha
    have hsplit := hrow a ha
    -- the rows of different owners do not overlap
    have hrank : (op a).ownerRank.toNat = owner := by
      rcases Nat.lt_trichotomy (op a).ownerRank.toNat owner with hless | heq | hmore
      · have hdisjoint : ownerStart plan ((op a).ownerRank.toNat + 1) ≤ ownerStart plan owner :=
          h.ownerStart_mono hless hworker.le
        omega
      · exact heq
      · have hdisjoint : ownerStart plan (owner + 1) ≤ ownerStart plan (op a).ownerRank.toNat :=
          h.ownerStart_mono hmore (howner a ha).le
        omega
    refine ⟨a, ha, Prod.ext hrank ?_⟩
    rw [hrank] at hsplit
    show (op a).ownerRow.toNat = row
    omega

end AllChecked

/-- A plan that passes the checks is a sound index. -/
theorem Validates.indexSound (h : Validates launch plan) : IndexSound launch plan :=
  ⟨h.allChecked.chainsSound, h.allChecked.cellsSound⟩

end AscendShmem.PullV2
