import AscendShmem.PullV2.DeviceReady
import AscendShmem.PullV2.ValidatedIndex

/-!
# The plan checks accept compiled plans

The arrays of a plan from the plan compiler pass every check that is about the arrays alone. What a
launch adds is the room of its output slots, which block zero compares with the rows of the owners.
-/

namespace AscendShmem.PullV2

open Lib Lib.Exec

variable {launch : CombineLaunch} {dispatch : CompiledLayout} {config : CombineV2Config}

/-- A launch for the plan of an admissible layout. -/
structure LaunchedPlan (launch : CombineLaunch) (dispatch : CompiledLayout)
    (config : CombineV2Config) : Prop where
  admissible : Admissible dispatch config
  launched : launch.For (planOf dispatch config)

/-! ## Offsets -/

theorem length_grid_le {n i : ℕ} {f : ℕ → ℕ} (hi : i ≤ n) :
    (grid i f).length ≤ (grid n f).length := by
  rcases Nat.lt_or_eq_of_le hi with hlt | rfl
  · exact (Nat.le_add_right _ _).trans (length_grid_add_le hlt)
  · exact le_refl _

/-! ## Chains -/

section Served

variable {plan : CombinePullPlan} {a t : ℕ} {token : JournalTokenEntry} {chain : List ℕ}

/-- The pulls of a chain are those of its token. -/
theorem AccumulatorServed.pull (h : AccumulatorServed dispatch plan a chain t token) {i : ℕ}
    (hi : i ∈ chain) : ∃ op, plan.pulls[i]? = some op ∧
      op.accumulatorIndex = token.accumulatorIndex ∧ op.journalToken = UInt32.ofNat t := by
  have hmem : plan.pulls[i]? ∈ (dispatch.namedBy token).map fun c => some (pullOf token t c) :=
    h.contributors.mem_iff.mp (List.mem_map_of_mem hi)
  obtain ⟨c, -, hc⟩ := List.mem_map.mp hmem
  exact ⟨_, hc.symm, rfl, rfl⟩

/-- The sources of a chain differ. -/
theorem AccumulatorServed.sources_nodup (h : AccumulatorServed dispatch plan a chain t token) :
    (chain.map plan.sourceAt).Nodup := by
  rw [List.Nodup, List.pairwise_map]
  refine h.sources.imp_of_mem fun {i j} hi hj hlt => ?_
  obtain ⟨p, hp, -⟩ := h.pull hi
  obtain ⟨q, hq, -⟩ := h.pull hj
  have hless := hlt p q hp hq
  unfold CombinePullPlan.sourceAt
  rw [hp, hq, Option.map_some, Option.map_some, Ne, Option.some.injEq]
  rintro heq
  rw [heq] at hless
  exact UInt32.lt_irrefl _ hless

end Served

/-- A list of links that is followed inside its array is a chain. -/
theorem chainFrom_of_linked {links : List UInt32} {word : UInt32} {chain : List ℕ}
    (h : Linked (nextIn links) (linkOf word) chain) (hlt : ∀ i ∈ chain, i < links.length) :
    ChainFrom links word chain := by
  induction chain generalizing word with
  | nil =>
    have hend : word = invalidIndex := by
      by_contra hne
      rw [linkOf, if_neg hne] at h
      cases h
    exact hend
  | cons i chain ih =>
    obtain ⟨hhead, hrest⟩ := h
    obtain ⟨hi, hlt⟩ := List.forall_mem_cons.mp hlt
    have hne : word ≠ invalidIndex := by
      rintro rfl
      cases hhead
    rw [linkOf, if_neg hne, Option.some.injEq] at hhead
    rw [nextIn, List.getElem?_eq_getElem hi, Option.bind_some] at hrest
    exact ⟨hne, hhead, _, List.getElem?_eq_getElem hi, ih hrest hlt⟩

namespace LaunchedPlan

theorem workers (h : LaunchedPlan launch dispatch config) :
    launch.workerCount.toNat = config.workerCount.toNat :=
  congrArg UInt32.toNat h.launched.workerCount

theorem accumulators (h : LaunchedPlan launch dispatch config) :
    launch.accumulatorCount.toNat = dispatch.journalTokens.length :=
  (congrArg UInt32.toNat h.launched.accumulatorCount).trans h.admissible.accumulatorCount

theorem pullCount (h : LaunchedPlan launch dispatch config) :
    launch.pullCount.toNat = dispatch.pulls.length := h.launched.pullCount

theorem rows_length (h : LaunchedPlan launch dispatch config) :
    (grid config.workerCount.toNat dispatch.rowCount).length = dispatch.pulls.length := by
  rw [← h.admissible.rows_eq, List.length_map]

theorem owners_length (h : LaunchedPlan launch dispatch config) :
    (grid config.workerCount.toNat (ownerCount dispatch.journalTokens)).length
      = dispatch.journalTokens.length := by
  rw [← h.admissible.owners_eq, List.length_map, dispatch.length_results]

/-- The offset of a source counts the rows before it. -/
theorem sourceOffset (h : LaunchedPlan launch dispatch config) {s : ℕ}
    (hs : s ≤ config.workerCount.toNat) :
    ∃ offset, (planOf dispatch config).sourceOffsets[s]? = some offset ∧
      offset.toNat = (grid s dispatch.rowCount).length := by
  refine ⟨_, getElem?_offsetsOf hs, ?_⟩
  have hle := length_grid_le (f := dispatch.rowCount) hs
  have hrows := h.rows_length
  have hpulls := h.admissible.pulls_le
  rw [UInt64.toNat_ofNat', Nat.mod_eq_of_lt (by omega)]

/-- The offset of an owner counts the results before it. -/
theorem ownerOffset (h : LaunchedPlan launch dispatch config) {o : ℕ}
    (ho : o ≤ config.workerCount.toNat) :
    ∃ offset, (planOf dispatch config).ownerOffsets[o]? = some offset ∧
      offset.toNat = (grid o (ownerCount dispatch.journalTokens)).length := by
  refine ⟨_, getElem?_offsetsOf ho, ?_⟩
  have hle := length_grid_le (f := ownerCount dispatch.journalTokens) ho
  have hrows := h.owners_length
  have htokens := h.admissible.tokens_le
  rw [UInt64.toNat_ofNat', Nat.mod_eq_of_lt (by omega)]

/-! ## Pulls -/

/-- A pull stands at the place of its row among the rows of its worker. -/
theorem pull (h : LaunchedPlan launch dispatch config) {i : ℕ} (hi : i < dispatch.pulls.length) :
    ∃ op, dispatch.pulls[i]? = some op ∧ op.sourceRank.toNat < config.workerCount.toNat ∧
      op.sourceRow.toNat < dispatch.rowCount op.sourceRank.toNat ∧
      i = (grid op.sourceRank.toNat dispatch.rowCount).length + op.sourceRow.toNat ∧
      op.accumulatorIndex.toNat < dispatch.journalTokens.length ∧
      op.journalToken.toNat < dispatch.journalTokens.length := by
  have hop := List.getElem?_eq_getElem hi
  have hkey : (grid config.workerCount.toNat dispatch.rowCount)[i]?
      = some (pullKey dispatch.pulls[i]) := by
    rw [← h.admissible.rows_eq, List.getElem?_map, hop]
    rfl
  obtain ⟨hrank, hrow, hplace⟩ := grid_position hkey
  have haccumulator := h.admissible.accumulatorAt_lt hi
  rw [accumulatorAt_eq hop] at haccumulator
  refine ⟨_, hop, hrank, hrow, hplace, haccumulator, ?_⟩
  obtain ⟨⟨token, t⟩, htoken, hmem⟩ := List.mem_flatMap.mp
    (dispatch.pulls_perm.mem_iff.mp (List.getElem_mem hi))
  obtain ⟨c, -, hc⟩ := List.mem_map.mp hmem
  have hlt := (List.getElem?_eq_some_iff.mp (List.mem_zipIdx_iff_getElem?.mp htoken)).1
  have htokens := h.admissible.tokens_le
  rw [← hc]
  show (UInt32.ofNat t).toNat < _
  rw [UInt32.toNat_ofNat', Nat.mod_eq_of_lt (by omega)]
  exact hlt

/-- A chain has at most one pull from every worker. -/
theorem length_chain_le (h : LaunchedPlan launch dispatch config) {a t : ℕ}
    {token : JournalTokenEntry} (hserved : AccumulatorServed dispatch (planOf dispatch config) a
      (chainOf dispatch.pulls a) t token) :
    (chainOf dispatch.pulls a).length ≤ config.workerCount.toNat := by
  -- the sources as numbers
  rw [← List.length_map fun i => ((planOf dispatch config).sourceAt i).elim 0 UInt32.toNat]
  have hsource : ∀ i ∈ chainOf dispatch.pulls a, ∃ s, (planOf dispatch config).sourceAt i = some s ∧
      s.toNat < config.workerCount.toNat := by
    intro i hi
    obtain ⟨op, hop, hrank, -⟩ := h.pull (mem_chainFrom.mp hi).2.1
    exact ⟨op.sourceRank, congrArg (Option.map CombinePullOp.sourceRank) hop, hrank⟩
  apply length_le_of_nodup
  · intro s hs
    obtain ⟨i, hi, rfl⟩ := List.mem_map.mp hs
    obtain ⟨s, hs, hlt⟩ := hsource i hi
    rw [hs]
    exact hlt
  · have hnodup := hserved.sources_nodup
    rw [List.Nodup, List.pairwise_map] at hnodup ⊢
    refine hnodup.imp_of_mem fun {i j} hi hj hne heq => hne ?_
    obtain ⟨s, hs, -⟩ := hsource i hi
    obtain ⟨s', hs', -⟩ := hsource j hj
    rw [hs, hs'] at heq ⊢
    rw [UInt32.toNat_inj.mp heq]

/-- The pass of a pull goes through. -/
theorem checkPull_eq_ok (h : LaunchedPlan launch dispatch config) {i : ℕ}
    (hi : i < launch.pullCount.toNat) :
    checkPull launch (planOf dispatch config) (UInt64.ofNat i) = .ok () := by
  have hpulls := h.pullCount
  have hsize := h.admissible.pulls_le
  have hcount := h.accumulators
  have hworkers := h.workers
  have hsmall := h.admissible.workers_le
  rw [hpulls] at hi
  have hindex : (UInt64.ofNat i).toUInt32.toNat = i := by
    rw [UInt64.toNat_toUInt32, UInt64.toNat_ofNat', Nat.mod_eq_of_lt (by omega),
      Nat.mod_eq_of_lt (by omega)]
  obtain ⟨op, hop, hrank, hrow, hplace, haccumulator, htoken⟩ := h.pull hi
  obtain ⟨first, hfirst, hfirstValue⟩ := h.sourceOffset hrank.le
  obtain ⟨last, hlast, hlastValue⟩ := h.sourceOffset (Nat.succ_le_of_lt hrank)
  rw [length_grid_succ] at hlastValue
  have hnext : (op.sourceRank + 1).toNat = op.sourceRank.toNat + 1 := by
    rw [UInt32.toNat_add]
    exact Nat.mod_eq_of_lt (by rw [UInt32.toNat_one]; omega)
  have hsuccessor : (planOf dispatch config).pullNext[i]?
      = some (linkWord (chainFrom dispatch.pulls (i + 1) (accumulatorAt dispatch.pulls i)).head?) := by
    show (chainState dispatch.journalTokens.length dispatch.pulls 0).pullNext[i]? = _
    rw [chainState, getElem?_tableOf hi, if_pos (Nat.zero_le i)]
  rw [Nat.succ_eq_add_one, ← hnext] at hlast
  have hword : (UInt64.ofNat i).toUInt32.toUInt64.toNat = i := by
    rw [UInt32.toNat_toUInt64, hindex]
  have hlow : first ≤ (UInt64.ofNat i).toUInt32.toUInt64 := by
    rw [UInt64.le_iff_toNat_le, hword, hfirstValue]
    omega
  unfold checkPull
  simp only [bind_eq_ok, ensure, require_eq_ok, read_eq_ok, hindex]
  refine ⟨op, hop, _, hsuccessor, (), ⟨?_, ?_, ?_⟩, first, hfirst, last, hlast, (),
    ⟨hlow, ?_, ?_⟩, ?_⟩
  · rw [UInt32.lt_iff_toNat_lt, hworkers]
    exact hrank
  · rw [UInt32.lt_iff_toNat_lt, hcount]
    exact haccumulator
  · rw [UInt32.lt_iff_toNat_lt, hcount]
    exact htoken
  · rw [UInt64.lt_iff_toNat_lt, hword, hlastValue]
    omega
  · rw [← UInt64.toNat_inj, sub_toNat_of_le hlow, hword, hfirstValue, UInt32.toNat_toUInt64]
    omega
  · -- the next pull of the chain, if there is one
    rcases hhead : (chainFrom dispatch.pulls (i + 1) (accumulatorAt dispatch.pulls i)).head? with
      _ | j
    · exact if_pos rfl
    · obtain ⟨hafter, hjlt, hsame⟩ := mem_chainFrom.mp (List.mem_of_head? hhead)
      have hj : (UInt32.ofNat j).toNat = j := by
        rw [UInt32.toNat_ofNat', Nat.mod_eq_of_lt (by omega)]
      have hne : UInt32.ofNat j ≠ invalidIndex := by
        intro heq
        have hvalue := congrArg UInt32.toNat heq
        rw [hj] at hvalue
        have hinvalid : invalidIndex.toNat = 0xffffffff := rfl
        omega
      rw [accumulatorAt_eq hop, accumulatorAt_eq (List.getElem?_eq_getElem hjlt)] at hsame
      show (if UInt32.ofNat j = invalidIndex then _ else _) = _
      rw [if_neg hne]
      simp only [bind_eq_ok, require_eq_ok, read_eq_ok]
      refine ⟨(), ⟨?_, ?_⟩, dispatch.pulls[j], ?_, UInt32.toNat_inj.mp hsame⟩
      · rw [UInt32.lt_iff_toNat_lt, hindex]
        exact hj.symm ▸ hafter
      · rw [UInt64.lt_iff_toNat_lt, UInt32.toNat_toUInt64, hpulls]
        exact hj.symm ▸ hjlt
      · show dispatch.pulls[(UInt32.ofNat j).toNat]? = _
        rw [hj]
        exact List.getElem?_eq_getElem hjlt

/-! ## Accumulators -/

/-- The walk along the chain of an accumulator goes through. -/
theorem walkChain_eq_ok (h : LaunchedPlan launch dispatch config) {a t : ℕ}
    {token : JournalTokenEntry} {head : UInt32}
    (hserved : AccumulatorServed dispatch (planOf dispatch config) a
      (chainOf dispatch.pulls a) t token)
    (hhead : (planOf dispatch config).accumulatorHeads[a]? = some head) :
    walkChain launch (planOf dispatch config) token.accumulatorIndex (UInt32.ofNat t)
      token.contributorsCount.toNat SeenSources.none head = .ok () := by
  have hlt : ∀ i ∈ chainOf dispatch.pulls a, i < dispatch.pulls.length := fun i hi =>
    (mem_chainFrom.mp hi).2.1
  have hlinked := hserved.linked
  rw [nextIn, hhead, Option.bind_some] at hlinked
  have hsources : ∀ i op, i < launch.pullCount.toNat →
      (planOf dispatch config).pulls[i]? = some op → op.sourceRank.toNat < 128 := by
    intro i op hi hop
    rw [h.pullCount] at hi
    obtain ⟨op', hop', hrank, -⟩ := h.pull hi
    obtain rfl := Option.some.inj (hop.symm.trans hop')
    exact lt_of_lt_of_le hrank h.admissible.workers_le
  refine (PullV2.walkChain_eq_ok hsources).mpr ⟨chainOf dispatch.pulls a, hserved.length, ?_,
    fun i hi => ⟨h.pullCount ▸ hlt i hi, hserved.pull hi⟩, hserved.sources_nodup,
    fun i _ op _ => SeenSources.seen_none _⟩
  exact chainFrom_of_linked hlinked fun i hi => (hlt i hi).trans_eq (length_tableOf _ _).symm

/-- The result of a token stands at the place of its row among the rows of its owner. -/
theorem result_place (h : LaunchedPlan launch dispatch config) {r t : ℕ}
    {token : JournalTokenEntry} (hr : (planOf dispatch config).results[r]? = some (resultOf token t)) :
    token.ownerRank.toNat < config.workerCount.toNat ∧
      token.ownerRow.toNat < ownerCount dispatch.journalTokens token.ownerRank.toNat ∧
      r = (grid token.ownerRank.toNat (ownerCount dispatch.journalTokens)).length
        + token.ownerRow.toNat := by
  apply grid_position (p := (token.ownerRank.toNat, token.ownerRow.toNat))
  rw [← h.admissible.owners_eq, List.getElem?_map]
  exact congrArg (Option.map resultKey) hr

/-- The pass of an accumulator goes through. -/
theorem checkAccumulator_eq_ok (h : LaunchedPlan launch dispatch config) {a : ℕ}
    (ha : a < launch.accumulatorCount.toNat) :
    checkAccumulator launch (planOf dispatch config) (UInt32.ofNat a) = .ok () := by
  have hcount := h.accumulators
  have htokens := h.admissible.tokens_le
  have hsmall := h.admissible.workers_le
  rw [hcount] at ha
  have hindex : (UInt32.ofNat a).toNat = a := by
    rw [UInt32.toNat_ofNat', Nat.mod_eq_of_lt (by omega)]
  -- the token that the accumulator serves, and the result row of its owner
  obtain ⟨t, token, hserved⟩ := h.admissible.served ha
  obtain ⟨r, hr, hresult⟩ := hserved.result
  obtain ⟨hrank, hrow, hplace⟩ := h.result_place hresult
  obtain ⟨first, hfirst, hfirstValue⟩ := h.ownerOffset hrank.le
  obtain ⟨last, hlast, hlastValue⟩ := h.ownerOffset (Nat.succ_le_of_lt hrank)
  rw [length_grid_succ] at hlastValue
  have hnext : (token.ownerRank + 1).toNat = token.ownerRank.toNat + 1 := by
    rw [UInt32.toNat_add]
    exact Nat.mod_eq_of_lt (by rw [UInt32.toNat_one]; omega)
  rw [Nat.succ_eq_add_one, ← hnext] at hlast
  have hlow : first ≤ r.toUInt64 := by
    rw [UInt64.le_iff_toNat_le, UInt32.toNat_toUInt64, hfirstValue]
    omega
  obtain ⟨head, hhead⟩ : ∃ head, (planOf dispatch config).accumulatorHeads[a]? = some head :=
    ⟨_, getElem?_tableOf ha⟩
  have haccumulator : token.accumulatorIndex = UInt32.ofNat a := by
    rw [← UInt32.toNat_inj, hindex, hserved.accumulator]
  have htoken := (List.getElem?_eq_some_iff.mp hserved.entry).1
  -- every comparison of the pass, in the order of the kernel
  refine PullV2.checkAccumulator_eq_ok.mpr ⟨resultOf token t, r, head, ?_, ?_, ?_, hresult,
    haccumulator,
    ?_, ?_, ⟨first, last, hfirst, hlast, hlow, ?_, ?_⟩, rfl, ?_, ?_⟩
  · rw [hindex]
    exact hserved.count
  · rw [hindex]
    exact hr
  · have hlt := (List.getElem?_eq_some_iff.mp hresult).1
    rw [UInt64.lt_iff_toNat_lt, UInt32.toNat_toUInt64, h.launched.resultCount]
    exact hlt
  · rw [UInt32.lt_iff_toNat_lt, hcount]
    show (UInt32.ofNat t).toNat < _
    rw [UInt32.toNat_ofNat', Nat.mod_eq_of_lt (by omega)]
    exact htoken
  · rw [UInt32.lt_iff_toNat_lt, h.workers]
    exact hrank
  · rw [UInt64.lt_iff_toNat_lt, UInt32.toNat_toUInt64, hlastValue]
    omega
  · rw [← UInt64.toNat_inj, sub_toNat_of_le hlow, UInt32.toNat_toUInt64, UInt32.toNat_toUInt64,
      hfirstValue]
    show token.ownerRow.toNat = _
    omega
  · rw [hindex]
    exact hhead
  · rw [← haccumulator]
    exact h.walkChain_eq_ok hserved hhead

/-! ## Block zero -/

/-- The count of an accumulator is the length of its chain. -/
theorem count (h : LaunchedPlan launch dispatch config) {a : ℕ}
    (ha : a < dispatch.journalTokens.length) :
    ∃ count, (planOf dispatch config).accumulatorContributorCounts[a]? = some count ∧
      count.toNat = (chainOf dispatch.pulls a).length ∧ count ≤ launch.workerCount := by
  obtain ⟨t, token, hserved⟩ := h.admissible.served ha
  refine ⟨_, hserved.count, hserved.length.symm, ?_⟩
  rw [UInt32.le_iff_toNat_le, h.workers, ← hserved.length]
  exact h.length_chain_le hserved

/-- An owner has a row for each of its tokens. -/
theorem ownerRows (h : LaunchedPlan launch dispatch config) {owner : ℕ}
    (howner : owner < config.workerCount.toNat) :
    (planOf dispatch config).ownerRows owner = ownerCount dispatch.journalTokens owner := by
  obtain ⟨first, hfirst, hfirstValue⟩ := h.ownerOffset howner.le
  obtain ⟨last, hlast, hlastValue⟩ := h.ownerOffset (Nat.succ_le_of_lt howner)
  rw [length_grid_succ] at hlastValue
  rw [ownerRows_eq hfirst hlast]
  omega

/-- Block zero only looks at the launch when it compares the rows of an owner with the slot. -/
theorem indexChecked_iff (h : LaunchedPlan launch dispatch config) :
    IndexChecked launch (planOf dispatch config) ↔ launch.OwnersFit (planOf dispatch config) := by
  constructor
  · intro hindex owner howner
    exact (hindex.owners owner howner).fits
  · intro hfit
    have hworkers := h.workers
    have hcounts := h.accumulators
    have htokens := h.admissible.tokens_le
    -- the offsets are words, so equal values are equal words
    have hoffset : ∀ {offsets : List UInt64} {i n : ℕ} {offset word : UInt64},
        offsets[i]? = some offset → offset.toNat = n → word.toNat = n →
        offsets[i]? = some word := by
      intro offsets i n offset word hget hvalue hword
      rw [hget, UInt64.toNat_inj.mp (hvalue.trans hword.symm)]
    obtain ⟨s0, hs0, hs0Value⟩ := h.sourceOffset (Nat.zero_le _)
    obtain ⟨sn, hsn, hsnValue⟩ := h.sourceOffset (le_refl config.workerCount.toNat)
    obtain ⟨o0, ho0, ho0Value⟩ := h.ownerOffset (Nat.zero_le _)
    obtain ⟨on, hon, honValue⟩ := h.ownerOffset (le_refl config.workerCount.toNat)
    refine ⟨⟨hoffset hs0 hs0Value rfl, ?_⟩, ⟨hoffset ho0 ho0Value rfl, ?_⟩, ?_, ?_, ?_⟩
    · rw [hworkers]
      exact hoffset hsn (hsnValue.trans h.rows_length) h.pullCount
    · rw [hworkers]
      refine hoffset hon (honValue.trans h.owners_length) ?_
      rw [h.launched.valid.results_eq, hcounts]
    · intro a ha
      obtain ⟨count, hget, -, hle⟩ := h.count (hcounts ▸ ha)
      exact ⟨count, hget, hle⟩
    -- the pulls are partitioned among the accumulators, so the counts add up
    · have hpartition := h.admissible.reductionIndex.partition.length_eq
      rw [List.length_flatMap, List.length_range, h.admissible.accumulatorCount] at hpartition
      rw [h.pullCount, hcounts, total]
      refine Eq.trans (congrArg List.sum (List.map_congr_left fun a ha => ?_)) hpartition
      obtain ⟨count, hget, hvalue, -⟩ := h.count (List.mem_range.mp ha)
      rw [CombinePullPlan.countAt, List.getD_eq_getElem?_getD, hget, Option.getD_some, hvalue]
    · intro owner howner
      have howner' := howner
      rw [hworkers] at howner'
      obtain ⟨s1, hs1, hs1Value⟩ := h.sourceOffset howner'.le
      obtain ⟨s2, hs2, hs2Value⟩ := h.sourceOffset (Nat.succ_le_of_lt howner')
      obtain ⟨o1, ho1, ho1Value⟩ := h.ownerOffset howner'.le
      obtain ⟨o2, ho2, ho2Value⟩ := h.ownerOffset (Nat.succ_le_of_lt howner')
      rw [length_grid_succ] at hs2Value ho2Value
      refine ⟨⟨s1, s2, hs1, hs2, ?_⟩, ⟨o1, o2, ho1, ho2, ?_⟩, ?_, hfit owner howner⟩
      · rw [UInt64.le_iff_toNat_le]
        omega
      · rw [UInt64.le_iff_toNat_le]
        omega
      · rw [h.ownerRows howner']
        exact (List.length_filter_le _ _).trans htokens

end LaunchedPlan

/-- The plan checks are sound for arrays with any contents. A compiled plan passes them exactly when
the output slot of the launch holds the rows of every owner, as long as the accumulator counter of
the blocks comes to its end. -/
theorem plan_checks_exact (launch : CombineLaunch) (plan : CombinePullPlan) :
    (Validates launch plan → IndexSound launch plan) ∧
    ∀ (dispatch : CompiledLayout) (config : CombineV2Config) (old : CombinePullPlan),
      compileCombinePullPlan dispatch config (some old) = (.ok (), some plan) →
      launch.For plan → launch.CounterEnds →
      (Validates launch plan ↔ launch.OwnersFit plan) := by
  refine ⟨Validates.indexSound, fun dispatch config old hplan hfor hends => ?_⟩
  obtain ⟨hadmissible, rfl⟩ := compileCombinePullPlan_eq_ok hplan
  have h : LaunchedPlan launch dispatch config := ⟨hadmissible, hfor⟩
  have hblocks := (blocksEnd_iff hfor.valid (fun i hi => h.checkPull_eq_ok hi)
    fun a ha => h.checkAccumulator_eq_ok ha).mpr hends
  rw [validates_iff, checkIndex_eq_ok, h.indexChecked_iff]
  exact ⟨fun hall => hall.2.1, fun hfit => ⟨hfor.valid, hfit, hblocks⟩⟩

/-! ## A launch with too small a slot -/

/-- Three blocks run the plan of one token with two contributors; its owner row has 16 bytes. -/
def routedLaunch (stride : UInt64) : CombineLaunch where
  blocks := 3
  sessionId := 7
  placementEpoch := 3
  generation := 1
  sequence := 2
  dispatchCookie := 5
  ownerOutputSlotStride := stride
  pullCount := 2
  resultCount := 1
  pullIndexCapacity := 2
  accumulatorIndexCapacity := 1
  sourceScratchCapacity := 2
  accumulatorCount := 1
  workerCount := 2
  hidden := 4
  partialDtype := 2
  incPe := 2
  wave := 0
  ringSlot := 0
  slotCount := 2
  spinCap := 1

theorem compile_routedPlan :
    compileCombinePullPlan routedWave readySession (some {}) = (.ok (), some routedPlan) :=
  compileCombinePullPlan_of_isOk {} (by decide +kernel)

/-- The sample wave with enough room. -/
theorem plan_checks_exact_routed :
    Validates (routedLaunch 16) routedPlan ∧ IndexSound (routedLaunch 16) routedPlan := by
  have h := plan_checks_exact (routedLaunch 16) routedPlan
  have hvalidates := (h.2 routedWave readySession {} compile_routedPlan
    ⟨by decide +kernel, by decide +kernel, by decide +kernel, by decide +kernel, by decide +kernel⟩
    (show _ ≤ _ by decide +kernel)).mpr (show ∀ owner < _, _ by decide +kernel)
  exact ⟨hvalidates, h.1 hvalidates⟩

/-- A slot of eight bytes is refused although the plan is compiled and no counter wraps around. -/
theorem small_slot_refused :
    compileCombinePullPlan routedWave readySession (some {}) = (.ok (), some routedPlan) ∧
      (routedLaunch 8).For routedPlan ∧ (routedLaunch 8).CounterEnds ∧
      ¬ Validates (routedLaunch 8) routedPlan := by
  refine ⟨compile_routedPlan, ⟨by decide +kernel, by decide +kernel, by decide +kernel,
    by decide +kernel, by decide +kernel⟩, (show _ ≤ _ by decide +kernel), fun hvalidates => ?_⟩
  have hfits := (hvalidates.allChecked.index.owners 0 (by decide +kernel)).fits
  exact absurd hfits (by decide +kernel)

end AscendShmem.PullV2
