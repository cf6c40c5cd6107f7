import Mathlib
import AscendShmem.PullV2.ReductionChains

/-!
# A plan is an exactly-once reduction index

`AccumulatorServed` and `ReductionIndex` say what the consumers of a plan rely on, in terms of the
arrays of the plan and of the layout it was made from. Every plan the compiler returns is such an
index, for any layout whatsoever.
-/

namespace AscendShmem.PullV2

open Lib Lib.Exec

/-- Accumulator `a` belongs to one token; its chain is in increasing order of pulls and sources,
pulls exactly the contributors of the token, and is as long as the plan and the token's result
say. -/
structure AccumulatorServed (dispatch : CompiledLayout) (plan : CombinePullPlan) (a : ℕ)
    (chain : List ℕ) (t : ℕ) (token : JournalTokenEntry) : Prop where
  entry : dispatch.journalTokens[t]? = some token
  accumulator : token.accumulatorIndex.toNat = a
  only : ∀ (t' : ℕ) (token' : JournalTokenEntry), dispatch.journalTokens[t']? = some token' →
    token'.accumulatorIndex.toNat = a → t' = t
  linked : Linked (nextIn plan.pullNext) (nextIn plan.accumulatorHeads a) chain
  increasing : chain.Pairwise (· < ·)
  sources : chain.Pairwise fun i j => ∀ p q, plan.pulls[i]? = some p → plan.pulls[j]? = some q →
    p.sourceRank < q.sourceRank
  contributors : (chain.map fun i => plan.pulls[i]?).Perm
    ((dispatch.namedBy token).map fun c => some (pullOf token t c))
  length : chain.length = token.contributorsCount.toNat
  count : plan.accumulatorContributorCounts[a]? = some token.contributorsCount
  result : ∃ r, plan.accumulatorResultIndex[a]? = some r ∧
    plan.results[r.toNat]? = some (resultOf token t)

/-- The arrays of a plan index a reduction of every row of the layout, exactly once. -/
structure ReductionIndex (dispatch : CompiledLayout) (config : CombineV2Config)
    (plan : CombinePullPlan) (chains : ℕ → List ℕ) : Prop where
  accumulatorCount : plan.accumulatorCount.toNat = dispatch.journalTokens.length
  rows : plan.pulls.map pullKey = grid config.workerCount.toNat dispatch.rowCount
  sourceOffsets : plan.sourceOffsets.map UInt64.toNat
    = tableOf (config.workerCount.toNat + 1) fun s => (grid s dispatch.rowCount).length
  served : ∀ a < plan.accumulatorCount.toNat,
    ∃ t token, AccumulatorServed dispatch plan a (chains a) t token
  partition : ((List.range plan.accumulatorCount.toNat).flatMap chains).Perm
    (List.range plan.pulls.length)
  owners : plan.results.map resultKey
    = grid config.workerCount.toNat (ownerCount dispatch.journalTokens)
  ownerOffsets : plan.ownerOffsets.map UInt64.toNat
    = tableOf (config.workerCount.toNat + 1) fun o =>
      (grid o (ownerCount dispatch.journalTokens)).length
  resultIndex : (plan.accumulatorResultIndex.map UInt32.toNat).Perm
    (List.range plan.results.length)
  lengths : plan.pullNext.length = plan.pulls.length ∧
    plan.accumulatorHeads.length = plan.accumulatorCount.toNat ∧
    plan.accumulatorContributorCounts.length = plan.accumulatorCount.toNat ∧
    plan.sourceRowCounts
      = tableOf config.workerCount.toNat fun s => UInt32.ofNat (dispatch.rowCount s)

variable {dispatch : CompiledLayout} {config : CombineV2Config}

/-! ## The lists of an admissible layout -/

theorem Admissible.tokens_le (h : Admissible dispatch config) :
    dispatch.journalTokens.length ≤ 0xffffffff := h.journal.2.2.2.2.2.2.2

theorem Admissible.workers_le (h : Admissible dispatch config) :
    config.workerCount.toNat ≤ 128 := UInt32.le_iff_toNat_le.mp h.configValid.2.2.2.1

theorem Admissible.length_pulls (h : Admissible dispatch config) :
    dispatch.pulls.length = dispatch.contributors.length := by
  rw [dispatch.pulls_perm.length_eq, CompiledLayout.length_rawPulls h.tokens, h.cover]

theorem Admissible.pulls_le (h : Admissible dispatch config) :
    dispatch.pulls.length ≤ 0xffffffff := by
  rw [h.length_pulls, ← h.journal.2.2.2.2.2.2.1]
  exact Nat.le_of_lt_succ dispatch.journalHeader.contributorCount.toNat_lt

theorem Admissible.rows_eq (h : Admissible dispatch config) :
    dispatch.pulls.map pullKey = grid config.workerCount.toNat dispatch.rowCount :=
  (map_sortPulls_iff _ _ _).mpr h.rows

theorem Admissible.owners_eq (h : Admissible dispatch config) :
    dispatch.results.map resultKey
      = grid config.workerCount.toNat (ownerCount dispatch.journalTokens) :=
  (map_sortResults_iff _ _ _).mpr h.owners

theorem Admissible.accumulatorCount (h : Admissible dispatch config) :
    (planOf dispatch config).accumulatorCount.toNat = dispatch.journalTokens.length := by
  have := h.tokens_le
  show (UInt32.ofNat dispatch.journalTokens.length).toNat = _
  rw [UInt32.toNat_ofNat', Nat.mod_eq_of_lt (by omega)]

theorem Admissible.sourcesOnce (h : Admissible dispatch config) : SourcesOnce dispatch.pulls := by
  refine (dispatch.pulls_perm.pairwise_iff ?_).mpr (CompiledLayout.sourcesOnce_rawPulls h.tokens)
  intro p q hpq heq
  exact (hpq heq.symm).symm

/-- A pull goes to an accumulator that is there. -/
theorem Admissible.accumulatorAt_lt (h : Admissible dispatch config) {i : ℕ}
    (hi : i < dispatch.pulls.length) :
    accumulatorAt dispatch.pulls i < dispatch.journalTokens.length := by
  have hmem := CompiledLayout.accumulator_mem
    (dispatch.pulls_perm.mem_iff.mp (List.getElem_mem hi))
  rw [accumulatorAt_eq (List.getElem?_eq_getElem hi)]
  exact List.mem_range.mp ((CompiledLayout.accumulators_perm h.tokens).mem_iff.mp hmem)

/-- An accumulator is that of a token. -/
theorem Admissible.token_of_accumulator (h : Admissible dispatch config) {a : ℕ}
    (ha : a < dispatch.journalTokens.length) :
    ∃ (t : ℕ) (token : JournalTokenEntry), dispatch.journalTokens[t]? = some token ∧
      token.accumulatorIndex.toNat = a := by
  have hmem := (CompiledLayout.accumulators_perm h.tokens).mem_iff.mpr (List.mem_range.mpr ha)
  obtain ⟨token, htoken, heq⟩ := List.mem_map.mp hmem
  obtain ⟨t, ht⟩ := List.mem_iff_getElem?.mp htoken
  exact ⟨t, token, ht, heq⟩

/-- Tokens have different accumulators. -/
theorem Admissible.token_unique (h : Admissible dispatch config) {t t' : ℕ}
    {token token' : JournalTokenEntry} (ht : dispatch.journalTokens[t]? = some token)
    (ht' : dispatch.journalTokens[t']? = some token')
    (heq : token'.accumulatorIndex.toNat = token.accumulatorIndex.toNat) : t' = t := by
  have hget : ∀ (i : ℕ) (entry : JournalTokenEntry), dispatch.journalTokens[i]? = some entry →
      (accumulatorsOf dispatch.journalTokens)[i]? = some entry.accumulatorIndex.toNat := by
    intro i entry hi
    rw [accumulatorsOf, List.getElem?_map, hi]
    rfl
  refine (List.getElem?_inj ?_ h.tokens.2).mp ?_
  · rw [accumulatorsOf, List.length_map]
    exact (List.getElem?_eq_some_iff.mp ht').1
  · rw [hget t token ht, hget t' token' ht', heq]

/-- In one chain a later pull comes from a higher source: the pulls are in row order, and no two
of a chain come from one source. -/
theorem Admissible.source_lt (h : Admissible dispatch config) {i j : ℕ} {p q : CombinePullOp}
    (hij : i < j) (hi : dispatch.pulls[i]? = some p) (hj : dispatch.pulls[j]? = some q)
    (heq : p.accumulatorIndex = q.accumulatorIndex) : p.sourceRank < q.sourceRank := by
  obtain ⟨hilt, rfl⟩ := List.getElem?_eq_some_iff.mp hi
  obtain ⟨hjlt, rfl⟩ := List.getElem?_eq_some_iff.mp hj
  have hne := List.pairwise_iff_getElem.mp h.sourcesOnce i j hilt hjlt hij heq
  have hpairs := pairwise_grid config.workerCount.toNat dispatch.rowCount
  rw [← h.rows_eq, List.pairwise_map] at hpairs
  have hlt := List.pairwise_iff_getElem.mp hpairs i j hilt hjlt hij
  have hne' : dispatch.pulls[i].sourceRank.toNat ≠ dispatch.pulls[j].sourceRank.toNat :=
    fun he => hne (UInt32.toNat_inj.mp he)
  rw [UInt32.lt_iff_toNat_lt]
  unfold Precedes pullKey at hlt
  simp only at hlt
  omega

/-- The chain of a token's accumulator holds the token's pulls. -/
theorem Admissible.chain_perm (h : Admissible dispatch config) {t : ℕ} {token : JournalTokenEntry}
    (ht : dispatch.journalTokens[t]? = some token) :
    ((chainOf dispatch.pulls token.accumulatorIndex.toNat).map fun i => dispatch.pulls[i]?).Perm
      ((dispatch.namedBy token).map fun c => some (pullOf token t c)) := by
  have hmap := map_members dispatch.pulls (fun op => op.accumulatorIndex.toNat)
    (accumulatorAt dispatch.pulls) token.accumulatorIndex.toNat fun j op => accumulatorAt_eq
  have hfilter := (dispatch.pulls_perm.filter
    fun op => decide (op.accumulatorIndex.toNat = token.accumulatorIndex.toNat)).map some
  rw [CompiledLayout.filter_rawPulls h.tokens.2 ht, CompiledLayout.pullsOf, List.map_map] at hfilter
  rw [chainOf, chainFrom, hmap]
  exact hfilter

/-! ## The plan -/

/-- The offsets count the entries before each row. -/
theorem map_toNat_offsetsOf {n : ℕ} {f : ℕ → ℕ} (h : (grid n f).length < 2 ^ 64) :
    (offsetsOf (n + 1) (n + 1) f).map UInt64.toNat
      = tableOf (n + 1) fun i => (grid i f).length := by
  rw [offsetsOf, tableOf, tableOf, List.map_map]
  refine List.map_congr_left fun i hi => ?_
  have hi' := List.mem_range.mp hi
  have hle : (grid i f).length ≤ (grid n f).length := by
    rcases Nat.lt_succ_iff_lt_or_eq.mp hi' with hlt | rfl
    · have := length_grid_add_le (f := f) hlt
      omega
    · exact le_refl _
  show (if i < n + 1 then UInt64.ofNat (grid i f).length else 0).toNat = _
  rw [if_pos hi', UInt64.toNat_ofNat', Nat.mod_eq_of_lt (by omega)]

/-- What the result index of an admissible layout says of an accumulator. -/
theorem Admissible.resultIndex (h : Admissible dispatch config) {t : ℕ}
    {token : JournalTokenEntry} (ht : dispatch.journalTokens[t]? = some token) :
    ∃ r, (planOf dispatch config).accumulatorResultIndex[token.accumulatorIndex.toNat]? = some r ∧
      dispatch.results[r.toNat]? = some (resultOf token t) := by
  have ha := (h.tokens.1 t token ht).accumulator
  obtain ⟨j, op, hhead, hj, hop⟩ := CompiledLayout.result_of_accumulator h.tokens ha
  have hlt := (List.getElem?_eq_some_iff.mp hj).1
  have hsize := h.tokens_le
  rw [dispatch.length_results] at hlt
  refine ⟨UInt32.ofNat j, ?_, ?_⟩
  · show (resultIndexOf _ _ _)[_]? = _
    rw [resultIndexOf, getElem?_tableOf ha, hhead]
    rfl
  · rw [UInt32.toNat_ofNat', Nat.mod_eq_of_lt (by omega), hj]
    obtain ⟨t', token', ht', rfl⟩ :=
      mem_rawResults (dispatch.results_perm.mem_iff.mp (List.mem_of_getElem? hj))
    obtain rfl := h.token_unique ht ht' hop
    rw [ht, Option.some.injEq] at ht'
    rw [ht']

/-- An accumulator gets exactly the pulls of its token. -/
theorem Admissible.served (h : Admissible dispatch config) {a : ℕ}
    (ha : a < dispatch.journalTokens.length) :
    ∃ t token, AccumulatorServed dispatch (planOf dispatch config) a
      (chainOf dispatch.pulls a) t token := by
  obtain ⟨t, token, ht, rfl⟩ := h.token_of_accumulator ha
  have hlen := CompiledLayout.length_chainOf h.tokens ht
  refine ⟨t, token, ht, rfl, fun t' token' ht' heq => h.token_unique ht ht' heq, ?_,
    pairwise_members _ _ _ _, ?_, h.chain_perm ht, hlen, ?_, h.resultIndex ht⟩
  · have hlinked := linked_chainState dispatch.journalTokens.length (k := 0)
      h.pulls_le token.accumulatorIndex.toNat
    have hhead : nextIn (planOf dispatch config).accumulatorHeads token.accumulatorIndex.toNat
        = (chainFrom dispatch.pulls 0 token.accumulatorIndex.toNat).head? := by
      rw [nextIn, planOf, chainState, getElem?_tableOf ha, Option.bind_some]
      exact linkOf_linkWord fun i hi => lt_of_lt_of_le (head_chainFrom_lt hi) h.pulls_le
    rw [hhead]
    exact hlinked
  · refine (pairwise_members (accumulatorAt dispatch.pulls) dispatch.pulls.length
      token.accumulatorIndex.toNat 0).imp_of_mem ?_
    intro i j hi hj hij p q hp hq
    replace hp : dispatch.pulls[i]? = some p := hp
    replace hq : dispatch.pulls[j]? = some q := hq
    have hia := (mem_members.mp hi).2.2
    have hja := (mem_members.mp hj).2.2
    rw [accumulatorAt_eq hp] at hia
    rw [accumulatorAt_eq hq] at hja
    exact h.source_lt hij hp hq (UInt32.toNat_inj.mp (hia.trans hja.symm))
  · show (chainState dispatch.journalTokens.length dispatch.pulls
      0).accumulatorContributorCounts[_]? = _
    rw [chainState, getElem?_tableOf ha, ← chainOf, hlen, UInt32.ofNat_toNat]

/-- The result index hits every result once: it is as long as the results, and different
accumulators have different results. -/
theorem Admissible.resultIndex_perm (h : Admissible dispatch config) :
    ((planOf dispatch config).accumulatorResultIndex.map UInt32.toNat).Perm
      (List.range dispatch.results.length) := by
  have hentry : ∀ a < dispatch.journalTokens.length, ∃ r op,
      (planOf dispatch config).accumulatorResultIndex[a]? = some r ∧
      dispatch.results[r.toNat]? = some op ∧ op.accumulatorIndex.toNat = a := by
    intro a ha
    obtain ⟨t, token, ht, rfl⟩ := h.token_of_accumulator ha
    obtain ⟨r, hr, hop⟩ := h.resultIndex ht
    exact ⟨r, resultOf token t, hr, hop, rfl⟩
  have hlen : (planOf dispatch config).accumulatorResultIndex.length
      = dispatch.journalTokens.length := length_tableOf _ _
  refine perm_range_of_nodup ?_ ?_ ?_
  · intro i hi
    obtain ⟨r, hr, rfl⟩ := List.mem_map.mp hi
    obtain ⟨a, ha⟩ := List.mem_iff_getElem?.mp hr
    have halt := (List.getElem?_eq_some_iff.mp ha).1
    obtain ⟨r', op, hr', hop, -⟩ := hentry a (hlen ▸ halt)
    rw [ha, Option.some.injEq] at hr'
    rw [hr']
    exact (List.getElem?_eq_some_iff.mp hop).1
  · rw [List.nodup_iff_getElem?_ne_getElem?]
    intro a b hab hb heq
    rw [List.length_map, hlen] at hb
    obtain ⟨r, op, hr, hop, ha⟩ := hentry a (by omega)
    obtain ⟨r', op', hr', hop', hb'⟩ := hentry b hb
    rw [List.getElem?_map, List.getElem?_map, hr, hr', Option.map_some, Option.map_some,
      Option.some.injEq] at heq
    rw [heq, hop', Option.some.injEq] at hop
    rw [hop, ha] at hb'
    omega
  · rw [List.length_map, hlen, dispatch.length_results]

theorem Admissible.reductionIndex (h : Admissible dispatch config) :
    ReductionIndex dispatch config (planOf dispatch config) (chainOf dispatch.pulls) := by
  have hcount := h.accumulatorCount
  have hpulls := h.pulls_le
  have hresults := h.tokens_le
  rw [← dispatch.length_results] at hresults
  have hrows := congrArg List.length h.rows_eq
  have howners := congrArg List.length h.owners_eq
  rw [List.length_map] at hrows howners
  refine ⟨hcount, h.rows_eq, map_toNat_offsetsOf (by omega), fun a ha => h.served (by omega), ?_,
    h.owners_eq, map_toNat_offsetsOf (by omega), h.resultIndex_perm, length_tableOf _ _, ?_, ?_, ?_⟩
  · rw [hcount]
    exact members_partition fun i hi => h.accumulatorAt_lt hi
  · exact (length_tableOf _ _).trans hcount.symm
  · exact (length_tableOf _ _).trans hcount.symm
  · exact tableOf_congr fun s hs => if_pos hs

/-- A call of the plan compiler reads inside its vectors and ends, whatever the layout. If it
returns OK, the plan is an exactly-once reduction index of the layout; otherwise `*plan` is what
it was before. -/
theorem compileCombinePullPlan_faithful (dispatch : CompiledLayout) (config : CombineV2Config)
    (plan : Option CombinePullPlan) :
    (compileCombinePullPlan dispatch config plan).1.statusOf .ok ≠ none ∧
    ((compileCombinePullPlan dispatch config plan).1 = .ok () →
      ∃ built chains, (compileCombinePullPlan dispatch config plan).2 = some built ∧
        ReductionIndex dispatch config built chains) ∧
    ((compileCombinePullPlan dispatch config plan).1 ≠ .ok () →
      (compileCombinePullPlan dispatch config plan).2 = plan) := by
  rcases plan with _ | old
  · refine ⟨?_, ?_, fun _ => rfl⟩
    · intro h
      cases h
    · intro h
      cases h
  have hends := compileCombinePullPlan_ends dispatch config old
  refine ⟨(hends.mono (fun _ _ => trivial) (fun _ => id) id).statusOf_ne_none .ok,
    fun hok => ?_, fun hne => ?_⟩
  · obtain ⟨hadmissible, hplan⟩ := hends.of_ok hok
    exact ⟨_, chainOf dispatch.pulls, hplan, hadmissible.reductionIndex⟩
  · unfold compileCombinePullPlan at hne ⊢
    rcases hbuild : buildPlan dispatch config with stop | built
    · rfl
    · rw [hbuild] at hne
      exact absurd rfl hne

/-- The plan of a wave of two workers where one token is routed to both. -/
example :
    ((buildPlan
      { journalHeader :=
          { generation := 1, sequence := 1, dispatchCookie := 1, state := 2, tokenCount := 1,
            contributorCount := 2 }
        journalTokens := [{ contributorsCount := 2 }]
        contributors := [⟨1, 0, 0, 1⟩, ⟨0, 0, 0, 1⟩]
        destinationRows := [[{ assignmentsCount := 1 }], [{ assignmentsCount := 1 }]]
        expertAssignments := [[{}], [{}]] }
      { sessionId := 1, placementEpoch := 1, workerCount := 2, hidden := 1,
        ringSlots := 1 }).toOption.map fun plan => plan.pullNext) = some [1, invalidIndex] := by
  decide +kernel

end AscendShmem.PullV2
