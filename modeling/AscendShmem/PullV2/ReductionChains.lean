import Mathlib
import AscendShmem.PullV2.PlanTheorems

/-!
# The reduction chains of a plan

The plan compiler threads the pulls of every accumulator through `pull_next`, from the last pull
down to the first. The chains it leaves are the members of each accumulator in increasing order,
so they partition the pulls, and each holds the contributors of the one token with that
accumulator. `planOf` is the plan of an admissible layout in closed form.
-/

namespace AscendShmem.PullV2

open Lib Lib.Exec

/-! ## Links -/

/-- The index a word of `pull_next` or `accumulator_heads` leads to. -/
def linkOf (word : UInt32) : Option ℕ := if word = invalidIndex then none else some word.toNat

/-- The word for a link. -/
def linkWord : Option ℕ → UInt32
  | none => invalidIndex
  | some i => UInt32.ofNat i

/-- Indices below `invalid` are kept. -/
theorem linkOf_ofNat {i : ℕ} (h : i < 0xffffffff) : linkOf (UInt32.ofNat i) = some i := by
  have hval : (UInt32.ofNat i).toNat = i := by
    rw [UInt32.toNat_ofNat', Nat.mod_eq_of_lt (by omega)]
  rw [linkOf, if_neg, hval]
  rw [← UInt32.toNat_inj, hval]
  exact Nat.ne_of_lt h

theorem linkOf_linkWord {link : Option ℕ} (h : ∀ i, link = some i → i < 0xffffffff) :
    linkOf (linkWord link) = link := by
  cases link with
  | none => rfl
  | some i => exact linkOf_ofNat (h i rfl)

/-- Where an array of links leads from an index. -/
def nextIn (links : List UInt32) (i : ℕ) : Option ℕ := links[i]?.bind linkOf

/-- The accumulator of a pull. -/
def accumulatorAt (pulls : List CombinePullOp) (i : ℕ) : ℕ :=
  (pulls[i]?.map fun op => op.accumulatorIndex.toNat).getD 0

theorem accumulatorAt_eq {pulls : List CombinePullOp} {i : ℕ} {op : CombinePullOp}
    (h : pulls[i]? = some op) : accumulatorAt pulls i = op.accumulatorIndex.toNat := by
  rw [accumulatorAt, h]
  rfl

/-- The pulls of an accumulator from index `k` on. -/
def chainFrom (pulls : List CombinePullOp) (k a : ℕ) : List ℕ :=
  members (accumulatorAt pulls) pulls.length a k

/-- The pulls of an accumulator, in increasing order. -/
def chainOf (pulls : List CombinePullOp) (a : ℕ) : List ℕ := chainFrom pulls 0 a

theorem mem_chainFrom {pulls : List CombinePullOp} {k a i : ℕ} :
    i ∈ chainFrom pulls k a ↔ k ≤ i ∧ i < pulls.length ∧ accumulatorAt pulls i = a := mem_members

theorem head_chainFrom_lt {pulls : List CombinePullOp} {k a i : ℕ}
    (h : (chainFrom pulls k a).head? = some i) : i < pulls.length :=
  (mem_chainFrom.mp (List.mem_of_head? h)).2.1

/-- The three arrays after the pulls from `k` on have been put in front of their chains. -/
def chainState (accumulators : ℕ) (pulls : List CombinePullOp) (k : ℕ) : ChainState where
  pullNext := tableOf pulls.length fun i =>
    if k ≤ i then linkWord (chainFrom pulls (i + 1) (accumulatorAt pulls i)).head?
    else invalidIndex
  accumulatorHeads := tableOf accumulators fun a => linkWord (chainFrom pulls k a).head?
  accumulatorContributorCounts := tableOf accumulators fun a =>
    UInt32.ofNat (chainFrom pulls k a).length

/-- The links of `chainState` lead through the chain from `k` on. -/
theorem linked_chainState (accumulators : ℕ) {k : ℕ} {pulls : List CombinePullOp}
    (hsize : pulls.length ≤ 0xffffffff) (a : ℕ) :
    Linked (nextIn (chainState accumulators pulls k).pullNext) (chainFrom pulls k a).head?
      (chainFrom pulls k a) := by
  refine linked_members (fun i hk hi => ?_) a
  rw [nextIn, chainState, getElem?_tableOf hi, if_pos hk, Option.bind_some]
  exact linkOf_linkWord fun j hj => lt_of_lt_of_le (head_chainFrom_lt hj) hsize

/-! ## Putting one pull in front of its chain -/

/-- No two pulls of one accumulator come from one source. -/
def SourcesOnce (pulls : List CombinePullOp) : Prop :=
  pulls.Pairwise fun p q => p.accumulatorIndex = q.accumulatorIndex → p.sourceRank ≠ q.sourceRank

/-- The walk looks at every pull of a chain. -/
theorem checkSourceOnce_ends {pulls : List CombinePullOp} {pullNext : List UInt32}
    {sourceRank : UInt32} {E : CombineV2Status → Prop} {fuel : ℕ} {head : UInt32} (chain : List ℕ)
    (hlinked : Linked (nextIn pullNext) (linkOf head) chain)
    (hlt : ∀ i ∈ chain, i < pulls.length ∧ i < pullNext.length) (hfuel : chain.length < fuel)
    (honce : ∀ i ∈ chain, ∀ op, pulls[i]? = some op → op.sourceRank ≠ sourceRank) :
    Ends (checkSourceOnce pulls pullNext sourceRank fuel head) (fun _ => True) E False := by
  induction chain generalizing fuel head with
  | nil =>
    obtain ⟨fuel, rfl⟩ : ∃ f, fuel = f + 1 := ⟨fuel - 1, by simp at hfuel; omega⟩
    have hend : head = invalidIndex := by
      by_contra hne
      rw [linkOf, if_neg hne] at hlinked
      cases hlinked
    rw [checkSourceOnce, if_pos hend]
    exact trivial
  | cons i chain ih =>
    obtain ⟨fuel, rfl⟩ : ∃ f, fuel = f + 1 := ⟨fuel - 1, by simp at hfuel; omega⟩
    obtain ⟨hhead, hrest⟩ := hlinked
    obtain ⟨hpulls, hnext⟩ := hlt i List.mem_cons_self
    have hne : head ≠ invalidIndex := by
      rintro rfl
      cases hhead
    have hi : head.toNat = i := by
      rw [linkOf, if_neg hne, Option.some.injEq] at hhead
      exact hhead
    have hget : pulls[i]? = some pulls[i] := List.getElem?_eq_getElem hpulls
    rw [checkSourceOnce, if_neg hne, hi, read_of hget, ok_bind]
    refine Ends.bind (Ends.require (Q := fun _ => True) (fun _ => trivial)
      fun hn => absurd (honce i List.mem_cons_self _ hget) hn) fun _ _ => ?_
    rw [read_of_lt hnext, ok_bind]
    refine ih ?_ (fun j hj => hlt j (List.mem_cons_of_mem i hj)) (by simpa using hfuel)
      fun j hj => honce j (List.mem_cons_of_mem i hj)
    rw [nextIn, List.getElem?_eq_getElem hnext, Option.bind_some] at hrest
    exact hrest

/-- One turn of the loop that links the pulls. -/
theorem linkPull_step {accumulators k : ℕ} {pulls : List CombinePullOp}
    {E : CombineV2Status → Prop} (hsize : pulls.length ≤ 0xffffffff)
    (haccumulators : accumulators ≤ 0xffffffff)
    (hrange : ∀ op ∈ pulls, op.accumulatorIndex.toNat < accumulators)
    (honce : SourcesOnce pulls) (hk : k < pulls.length) :
    Ends (linkPull (UInt32.ofNat accumulators) pulls (chainState accumulators pulls (k + 1)) k)
      (fun st => st = chainState accumulators pulls k) E False := by
  set op := pulls[k] with hop
  have hget : pulls[k]? = some op := List.getElem?_eq_getElem hk
  have hlt := hrange op (List.getElem_mem hk)
  have hkey : accumulatorAt pulls k = op.accumulatorIndex.toNat := accumulatorAt_eq hget
  have hcount : (UInt32.ofNat accumulators).toNat = accumulators := by
    rw [UInt32.toNat_ofNat', Nat.mod_eq_of_lt (by omega)]
  -- only the chain of this pull's accumulator grows, at its head
  have hstep : ∀ a, chainFrom pulls k a
      = if op.accumulatorIndex.toNat = a then k :: chainFrom pulls (k + 1) a
        else chainFrom pulls (k + 1) a := by
    intro a
    rw [chainFrom, members_of_lt hk, hkey]
    rfl
  unfold linkPull
  rw [read_of hget, ok_bind, require_of (UInt32.lt_iff_toNat_lt.mpr (by rw [hcount]; exact hlt)),
    ok_bind]
  have hhead : (chainState accumulators pulls (k + 1)).accumulatorHeads[op.accumulatorIndex.toNat]?
      = some (linkWord (chainFrom pulls (k + 1) op.accumulatorIndex.toNat).head?) :=
    getElem?_tableOf hlt
  rw [read_of hhead, ok_bind]
  refine Ends.bind (checkSourceOnce_ends (chainFrom pulls (k + 1)
    op.accumulatorIndex.toNat) ?_ ?_ ?_ ?_) fun _ _ => ?_
  · rw [linkOf_linkWord fun i hi => lt_of_lt_of_le (head_chainFrom_lt hi) hsize]
    exact linked_chainState _ hsize _
  · intro i hi
    have hilt := (mem_chainFrom.mp hi).2.1
    exact ⟨hilt, by rw [chainState, length_tableOf]; exact hilt⟩
  -- the walk over the chain ends within the fuel, as no pull is on it twice
  · have := (nodup_members (accumulatorAt pulls) pulls.length op.accumulatorIndex.toNat (k + 1))
    have := length_le_of_nodup (fun i hi => (mem_members.mp hi).2.1) this
    exact Nat.lt_succ_of_le this
  · intro i hi op' hop'
    obtain ⟨hki, hilt, hia⟩ := mem_chainFrom.mp hi
    rw [accumulatorAt_eq hop'] at hia
    have hpair := List.pairwise_iff_getElem.mp honce k i hk hilt (by omega)
    rw [List.getElem?_eq_getElem hilt, Option.some.injEq] at hop'
    rw [hop'] at hpair
    exact (hpair (UInt32.toNat_inj.mp hia.symm)).symm
  · have hcounts : (chainState accumulators pulls
        (k + 1)).accumulatorContributorCounts[op.accumulatorIndex.toNat]?
        = some (UInt32.ofNat (chainFrom pulls (k + 1) op.accumulatorIndex.toNat).length) :=
      getElem?_tableOf hlt
    rw [write_of_lt (by rw [chainState, length_tableOf]; exact hk), ok_bind,
      write_of_lt (by rw [chainState, length_tableOf]; exact hlt), ok_bind, read_of hcounts,
      ok_bind, write_of_lt (by rw [chainState, length_tableOf]; exact hlt), ok_bind]
    refine ends_ok.mpr ?_
    simp only [chainState]
    rw [set_tableOf, set_tableOf, set_tableOf]
    congr 1
    · refine tableOf_congr fun i _ => ?_
      by_cases hi : i = k
      · rw [hi, Function.update_self, if_pos (le_refl k), hkey]
      · rw [Function.update_of_ne hi]
        by_cases hki : k ≤ i
        · rw [if_pos hki, if_pos (by omega)]
        · rw [if_neg hki, if_neg (by omega)]
    · refine tableOf_congr fun a _ => ?_
      rw [hstep a]
      by_cases ha : op.accumulatorIndex.toNat = a
      · rw [← ha, Function.update_self, if_pos rfl]
        rfl
      · rw [Function.update_of_ne (Ne.symm ha), if_neg ha]
    · refine tableOf_congr fun a _ => ?_
      rw [hstep a]
      by_cases ha : op.accumulatorIndex.toNat = a
      · rw [← ha, Function.update_self, if_pos rfl, List.length_cons, UInt32.ofNat_add]
        rfl
      · rw [Function.update_of_ne (Ne.symm ha), if_neg ha]

/-- The loop links every chain in order. -/
theorem linkPulls_ends {accumulators : ℕ} {pulls : List CombinePullOp}
    {E : CombineV2Status → Prop} (hsize : pulls.length ≤ 0xffffffff)
    (haccumulators : accumulators ≤ 0xffffffff)
    (hrange : ∀ op ∈ pulls, op.accumulatorIndex.toNat < accumulators)
    (honce : SourcesOnce pulls) :
    Ends ((List.range pulls.length).reverse.foldlM (linkPull (UInt32.ofNat accumulators) pulls)
        { pullNext := List.replicate pulls.length invalidIndex
          accumulatorHeads := List.replicate accumulators invalidIndex
          accumulatorContributorCounts := List.replicate accumulators 0 })
      (fun st => st = chainState accumulators pulls 0) E False := by
  refine Ends.forDown (fun k st => st = chainState accumulators pulls k) pulls.length ?_ ?_
  · rw [replicate_eq_tableOf, replicate_eq_tableOf, replicate_eq_tableOf, chainState]
    congr 1
    · exact tableOf_congr fun i hi => (if_neg (by omega)).symm
    · refine tableOf_congr fun a _ => ?_
      rw [chainFrom, members_of_le (le_refl _)]
      rfl
    · refine tableOf_congr fun a _ => ?_
      rw [chainFrom, members_of_le (le_refl _)]
      rfl
  · rintro k hk _ rfl
    exact linkPull_step hsize haccumulators hrange honce hk

/-! ## Results by accumulator -/

/-- The accumulator of a result. -/
def resultAccumulatorAt (results : List CombineResultOp) (i : ℕ) : ℕ :=
  (results[i]?.map fun op => op.accumulatorIndex.toNat).getD 0

/-- Where each accumulator goes, after the first `k` results. -/
def resultIndexOf (accumulators : ℕ) (results : List CombineResultOp) (k : ℕ) : List UInt32 :=
  tableOf accumulators fun a => linkWord (members (resultAccumulatorAt results) k a 0).head?

/-- One turn of the loop that indexes the results. -/
theorem indexResult_step {accumulators k : ℕ} {results : List CombineResultOp} {count : ℕ → UInt32}
    {E : CombineV2Status → Prop} (haccumulators : accumulators ≤ 0xffffffff)
    (hrange : ∀ op ∈ results, op.accumulatorIndex.toNat < accumulators)
    (hnodup : (results.map fun op => op.accumulatorIndex.toNat).Nodup)
    (hcount : ∀ op ∈ results, op.expectedContributors = count op.accumulatorIndex.toNat)
    (hk : k < results.length) :
    Ends (indexResult (UInt32.ofNat accumulators) (tableOf accumulators count) results
        (resultIndexOf accumulators results k) k)
      (fun index => index = resultIndexOf accumulators results (k + 1)) E False := by
  set op := results[k] with hop
  have hget : results[k]? = some op := List.getElem?_eq_getElem hk
  have hlt := hrange op (List.getElem_mem hk)
  have hkey : resultAccumulatorAt results k = op.accumulatorIndex.toNat := by
    rw [resultAccumulatorAt, hget]
    rfl
  have hlimit : (UInt32.ofNat accumulators).toNat = accumulators := by
    rw [UInt32.toNat_ofNat', Nat.mod_eq_of_lt (by omega)]
  -- the results before have other accumulators
  have hfresh : members (resultAccumulatorAt results) k op.accumulatorIndex.toNat 0 = [] := by
    rw [List.eq_nil_iff_forall_not_mem]
    intro i hi
    obtain ⟨-, hik, hia⟩ := mem_members.mp hi
    have hilt : i < results.length := by omega
    rw [resultAccumulatorAt, List.getElem?_eq_getElem hilt] at hia
    have hpair := List.pairwise_iff_getElem.mp hnodup i k (by simpa using hilt) (by simpa using hk)
      hik
    rw [List.getElem_map, List.getElem_map] at hpair
    exact hpair hia
  unfold indexResult
  rw [read_of hget, ok_bind, require_of (UInt32.lt_iff_toNat_lt.mpr (by rw [hlimit]; exact hlt)),
    ok_bind, resultIndexOf, read_of (getElem?_tableOf hlt), ok_bind, read_of (getElem?_tableOf hlt),
    ok_bind, hfresh, require_of ⟨rfl, hcount op (List.getElem_mem hk)⟩, ok_bind,
    write_of_lt (by rw [length_tableOf]; exact hlt), set_tableOf]
  refine ends_ok.mpr (tableOf_congr fun a _ => ?_)
  rw [members_succ (Nat.zero_le k), hkey]
  by_cases ha : a = op.accumulatorIndex.toNat
  · rw [ha, Function.update_self, hfresh, if_pos rfl]
    rfl
  · rw [Function.update_of_ne ha, if_neg (Ne.symm ha), List.append_nil]

/-- The loop writes the result of every accumulator. -/
theorem indexResults_ends {accumulators : ℕ} (results : List CombineResultOp)
    (count : ℕ → UInt32) {E : CombineV2Status → Prop} (haccumulators : accumulators ≤ 0xffffffff)
    (hrange : ∀ op ∈ results, op.accumulatorIndex.toNat < accumulators)
    (hnodup : (results.map fun op => op.accumulatorIndex.toNat).Nodup)
    (hcount : ∀ op ∈ results, op.expectedContributors = count op.accumulatorIndex.toNat) :
    Ends ((List.range results.length).foldlM
        (indexResult (UInt32.ofNat accumulators) (tableOf accumulators count) results)
        (List.replicate accumulators invalidIndex))
      (fun index => index = resultIndexOf accumulators results results.length) E False := by
  refine Ends.forRange (fun k index => index = resultIndexOf accumulators results k)
    results.length (replicate_eq_tableOf _ _) ?_
  rintro k hk _ rfl
  exact indexResult_step haccumulators hrange hnodup hcount hk

/-! ## The pulls of an admissible journal -/

/-- There is a pull for each contributor named. -/
theorem CompiledLayout.length_rawPulls {dispatch : CompiledLayout} {config : CombineV2Config}
    {tokens : List JournalTokenEntry} (h : TokensAdmissible dispatch config tokens) :
    (dispatch.rawPulls tokens).length = contributorTotal tokens := by
  induction tokens using List.reverseRecOn with
  | nil => rfl
  | append_singleton tokens token ih =>
    obtain ⟨hpre, htoken, -⟩ := tokensAdmissible_concat.mp h
    rw [CompiledLayout.rawPulls_concat, List.length_append, ih hpre, contributorTotal_concat,
      CompiledLayout.pullsOf, List.length_map,
      CompiledLayout.length_namedBy (by rw [htoken.contributorsBegin]; exact htoken.contributors)]

theorem CompiledLayout.accumulator_of_mem_pullsOf {dispatch : CompiledLayout}
    {token : JournalTokenEntry} {i : ℕ} {op : CombinePullOp} (h : op ∈ dispatch.pullsOf (token, i)) :
    op.accumulatorIndex = token.accumulatorIndex := by
  obtain ⟨c, -, rfl⟩ := List.mem_map.mp h
  rfl

/-- Every pull goes to the accumulator of a token. -/
theorem CompiledLayout.accumulator_mem {dispatch : CompiledLayout}
    {tokens : List JournalTokenEntry} {op : CombinePullOp} (h : op ∈ dispatch.rawPulls tokens) :
    op.accumulatorIndex.toNat ∈ accumulatorsOf tokens := by
  obtain ⟨⟨token, i⟩, hp, hop⟩ := List.mem_flatMap.mp h
  rw [CompiledLayout.accumulator_of_mem_pullsOf hop]
  exact List.mem_map_of_mem (List.fst_mem_of_mem_zipIdx hp)

/-- The pulls with the accumulator of a token are that token's. -/
theorem CompiledLayout.filter_rawPulls {dispatch : CompiledLayout}
    {tokens : List JournalTokenEntry} (h : (accumulatorsOf tokens).Nodup) {i : ℕ}
    {token : JournalTokenEntry} (hi : tokens[i]? = some token) :
    (dispatch.rawPulls tokens).filter
        (fun op => op.accumulatorIndex.toNat = token.accumulatorIndex.toNat)
      = dispatch.pullsOf (token, i) := by
  induction tokens using List.reverseRecOn with
  | nil => simp at hi
  | append_singleton tokens last ih =>
    rw [accumulatorsOf, List.map_append, List.map_singleton, ← List.concat_eq_append,
      List.nodup_concat] at h
    obtain ⟨hnew, hpre⟩ := h
    have hlt := (List.getElem?_eq_some_iff.mp hi).1
    rw [List.length_append, List.length_singleton] at hlt
    rw [CompiledLayout.rawPulls_concat, List.filter_append]
    rcases Nat.lt_succ_iff_lt_or_eq.mp hlt with hin | rfl
    · rw [List.getElem?_append_left hin] at hi
      have hne : last.accumulatorIndex.toNat ≠ token.accumulatorIndex.toNat := fun heq =>
        hnew (heq ▸ List.mem_map_of_mem (f := fun t : JournalTokenEntry =>
          t.accumulatorIndex.toNat) (List.mem_of_getElem? hi))
      have hnone : (dispatch.pullsOf (last, tokens.length)).filter
          (fun op => decide (op.accumulatorIndex.toNat = token.accumulatorIndex.toNat)) = [] := by
        rw [List.filter_eq_nil_iff]
        intro op hop heq
        rw [CompiledLayout.accumulator_of_mem_pullsOf hop] at heq
        exact hne (of_decide_eq_true heq)
      rw [ih hpre hi, hnone, List.append_nil]
    · rw [List.getElem?_concat_length, Option.some.injEq] at hi
      subst hi
      have hnone : (dispatch.rawPulls tokens).filter
          (fun op => decide (op.accumulatorIndex.toNat = last.accumulatorIndex.toNat)) = [] := by
        rw [List.filter_eq_nil_iff]
        intro op hop heq
        exact hnew (of_decide_eq_true heq ▸ CompiledLayout.accumulator_mem hop)
      rw [hnone, List.nil_append, List.filter_eq_self]
      intro op hop
      rw [CompiledLayout.accumulator_of_mem_pullsOf hop]
      exact decide_eq_true rfl

/-- No token has two pulls of one source. -/
theorem CompiledLayout.sourcesOnce_rawPulls {dispatch : CompiledLayout} {config : CombineV2Config}
    {tokens : List JournalTokenEntry} (h : TokensAdmissible dispatch config tokens) :
    SourcesOnce (dispatch.rawPulls tokens) := by
  induction tokens using List.reverseRecOn with
  | nil => exact List.Pairwise.nil
  | append_singleton tokens token ih =>
    obtain ⟨hpre, htoken, hnew⟩ := tokensAdmissible_concat.mp h
    rw [CompiledLayout.rawPulls_concat, SourcesOnce, List.pairwise_append]
    refine ⟨ih hpre, ?_, ?_⟩
    · rw [CompiledLayout.pullsOf, List.pairwise_map]
      refine (List.pairwise_map.mp htoken.rows.2).imp ?_
      intro a b hne _
      exact hne
    · intro p hp q hq heq
      rw [CompiledLayout.accumulator_of_mem_pullsOf hq] at heq
      exact absurd (heq ▸ CompiledLayout.accumulator_mem hp) hnew

/-- The contributors of consecutive tokens are one range of the storage. -/
theorem CompiledLayout.flatMap_namedBy {dispatch : CompiledLayout} {config : CombineV2Config}
    {tokens : List JournalTokenEntry} (h : TokensAdmissible dispatch config tokens) :
    tokens.flatMap dispatch.namedBy = dispatch.contributors.take (contributorTotal tokens) := by
  induction tokens using List.reverseRecOn with
  | nil => rfl
  | append_singleton tokens token ih =>
    obtain ⟨hpre, htoken, -⟩ := tokensAdmissible_concat.mp h
    rw [List.flatMap_append, List.flatMap_singleton, ih hpre, contributorTotal_concat,
      CompiledLayout.namedBy, htoken.contributorsBegin, List.take_add]

/-- Where the contributor's row is. -/
def contributorKey (c : JournalContributor) : ℕ × ℕ :=
  (c.workerRank.toNat, c.destinationRow.toNat)

/-- The keys of the pulls are those of the contributors. -/
theorem CompiledLayout.map_pullKey_rawPulls (dispatch : CompiledLayout)
    (tokens : List JournalTokenEntry) :
    (dispatch.rawPulls tokens).map pullKey
      = (tokens.flatMap dispatch.namedBy).map contributorKey := by
  conv_rhs => rw [← List.zipIdx_map_fst 0 tokens]
  rw [CompiledLayout.rawPulls, List.map_flatMap, List.flatMap_map, List.map_flatMap]
  refine List.flatMap_congr fun p _ => ?_
  rw [CompiledLayout.pullsOf, List.map_map]
  rfl

/-- The keys of the results are those of the tokens. -/
theorem map_resultKey_rawResults (tokens : List JournalTokenEntry) :
    (rawResults tokens).map resultKey
      = tokens.map fun token => (token.ownerRank.toNat, token.ownerRow.toNat) := by
  conv_rhs => rw [← List.zipIdx_map_fst 0 tokens]
  rw [rawResults, List.map_map, List.map_map]
  rfl

theorem length_rawResults (tokens : List JournalTokenEntry) :
    (rawResults tokens).length = tokens.length := by
  simp [rawResults]

theorem accumulators_rawResults (tokens : List JournalTokenEntry) :
    (rawResults tokens).map (fun op => op.accumulatorIndex.toNat) = accumulatorsOf tokens := by
  rw [rawResults, List.map_map, accumulatorsOf]
  conv_rhs => rw [← List.zipIdx_map_fst 0 tokens, List.map_map]
  rfl

theorem mem_rawResults {tokens : List JournalTokenEntry} {op : CombineResultOp}
    (h : op ∈ rawResults tokens) :
    ∃ i token, tokens[i]? = some token ∧ op = resultOf token i := by
  obtain ⟨⟨token, i⟩, hp, rfl⟩ := List.mem_map.mp h
  exact ⟨i, token, List.mem_zipIdx_iff_getElem?.mp hp, rfl⟩

/-- An owner has as many results as tokens. -/
theorem ownerBlock_length (tokens : List JournalTokenEntry) (owner : ℕ) :
    (ownerBlock (sortResults (rawResults tokens)) owner).length = ownerCount tokens owner := by
  rw [ownerBlock, ((sortResults_perm _).filter _).length_eq, ownerCount, rawResults,
    List.filter_map, List.length_map]
  conv_rhs => rw [← List.zipIdx_map_fst 0 tokens, List.filter_map, List.length_map]
  rfl

/-! ## The plan in closed form -/

/-- The rows to pull, in row order. -/
def CompiledLayout.pulls (dispatch : CompiledLayout) : List CombinePullOp :=
  sortPulls (dispatch.rawPulls dispatch.journalTokens)

/-- The owner rows, in row order. -/
def CompiledLayout.results (dispatch : CompiledLayout) : List CombineResultOp :=
  sortResults (rawResults dispatch.journalTokens)

/-- The plan of an admissible layout. -/
def planOf (dispatch : CompiledLayout) (config : CombineV2Config) : CombinePullPlan :=
  let tokens := dispatch.journalTokens
  let workers := config.workerCount.toNat
  let chains := chainState tokens.length dispatch.pulls 0
  { generation := dispatch.journalHeader.generation
    sequence := dispatch.journalHeader.sequence
    dispatchCookie := dispatch.journalHeader.dispatchCookie
    wave := dispatch.journalHeader.wave
    ringSlot := dispatch.journalHeader.ringSlot
    workerCount := config.workerCount
    hidden := config.hidden
    partialDtype := config.partialDtype
    accumulatorCount := UInt32.ofNat tokens.length
    sourceOffsets := offsetsOf (workers + 1) (workers + 1) dispatch.rowCount
    sourceRowCounts := rowCountsOf workers workers dispatch.rowCount
    pulls := dispatch.pulls
    ownerOffsets := offsetsOf (workers + 1) (workers + 1) (ownerCount tokens)
    results := dispatch.results
    pullNext := chains.pullNext
    accumulatorHeads := chains.accumulatorHeads
    accumulatorContributorCounts := chains.accumulatorContributorCounts
    accumulatorResultIndex := resultIndexOf tokens.length dispatch.results tokens.length }

theorem CompiledLayout.pulls_perm (dispatch : CompiledLayout) :
    dispatch.pulls.Perm (dispatch.rawPulls dispatch.journalTokens) := sortPulls_perm _

theorem CompiledLayout.results_perm (dispatch : CompiledLayout) :
    dispatch.results.Perm (rawResults dispatch.journalTokens) := sortResults_perm _

theorem CompiledLayout.length_results (dispatch : CompiledLayout) :
    dispatch.results.length = dispatch.journalTokens.length := by
  rw [dispatch.results_perm.length_eq, length_rawResults]

/-- The chain of a token's accumulator is as long as the token has contributors. -/
theorem CompiledLayout.length_chainOf {dispatch : CompiledLayout} {config : CombineV2Config}
    (h : TokensAdmissible dispatch config dispatch.journalTokens) {i : ℕ}
    {token : JournalTokenEntry} (hi : dispatch.journalTokens[i]? = some token) :
    (chainOf dispatch.pulls token.accumulatorIndex.toNat).length
      = token.contributorsCount.toNat := by
  have htoken := h.1 i token hi
  have hmap := congrArg List.length (map_members dispatch.pulls
    (fun op => op.accumulatorIndex.toNat) (accumulatorAt dispatch.pulls)
    token.accumulatorIndex.toNat fun j op => accumulatorAt_eq)
  rw [List.length_map, List.length_map, (dispatch.pulls_perm.filter _).length_eq,
    CompiledLayout.filter_rawPulls h.2 hi, CompiledLayout.pullsOf, List.length_map,
    CompiledLayout.length_namedBy (by rw [htoken.contributorsBegin]; exact htoken.contributors)]
    at hmap
  exact hmap

/-- The accumulators are those below the number of tokens. -/
theorem CompiledLayout.accumulators_perm {dispatch : CompiledLayout} {config : CombineV2Config}
    (h : TokensAdmissible dispatch config dispatch.journalTokens) :
    (accumulatorsOf dispatch.journalTokens).Perm (List.range dispatch.journalTokens.length) := by
  refine perm_range_of_nodup ?_ h.2 (by simp [accumulatorsOf])
  intro a ha
  obtain ⟨token, hmem, rfl⟩ := List.mem_map.mp ha
  obtain ⟨i, hi⟩ := List.mem_iff_getElem?.mp hmem
  exact (h.1 i token hi).accumulator

theorem CompiledLayout.accumulators_results (dispatch : CompiledLayout) :
    (dispatch.results.map fun op => op.accumulatorIndex.toNat).Perm
      (accumulatorsOf dispatch.journalTokens) := by
  rw [← accumulators_rawResults]
  exact dispatch.results_perm.map _

/-- Some result goes to each accumulator, and the compiled index leads to it. -/
theorem CompiledLayout.result_of_accumulator {dispatch : CompiledLayout}
    {config : CombineV2Config} (h : TokensAdmissible dispatch config dispatch.journalTokens)
    {a : ℕ} (ha : a < dispatch.journalTokens.length) :
    ∃ j op, (members (resultAccumulatorAt dispatch.results) dispatch.journalTokens.length a
        0).head? = some j ∧ dispatch.results[j]? = some op ∧ op.accumulatorIndex.toNat = a := by
  have hall := (dispatch.accumulators_results.trans
    (CompiledLayout.accumulators_perm h)).mem_iff.mpr (List.mem_range.mpr ha)
  obtain ⟨op, hop, hopa⟩ := List.mem_map.mp hall
  obtain ⟨i, hi⟩ := List.mem_iff_getElem?.mp hop
  have hlt := (List.getElem?_eq_some_iff.mp hi).1
  rw [dispatch.length_results] at hlt
  have hmember : i ∈ members (resultAccumulatorAt dispatch.results)
      dispatch.journalTokens.length a 0 :=
    mem_members.mpr ⟨Nat.zero_le i, hlt, by rw [resultAccumulatorAt, hi]; exact hopa⟩
  rcases hhead : (members (resultAccumulatorAt dispatch.results) dispatch.journalTokens.length
    a 0).head? with _ | j
  · rw [List.head?_eq_none_iff] at hhead
    rw [hhead] at hmember
    cases hmember
  · obtain ⟨-, hj, hja⟩ := mem_members.mp (List.mem_of_head? hhead)
    rw [← dispatch.length_results] at hj
    rw [resultAccumulatorAt, List.getElem?_eq_getElem hj] at hja
    exact ⟨j, dispatch.results[j], rfl, List.getElem?_eq_getElem hj, hja⟩

/-- A run ends with the plan of the layout if the layout is admissible, and otherwise with a
status. -/
theorem buildPlan_ends (dispatch : CompiledLayout) (config : CombineV2Config) :
    Ends (buildPlan dispatch config)
      (fun plan => Admissible dispatch config ∧ plan = planOf dispatch config)
      (fun _ => ¬ Admissible dispatch config) False := by
  unfold buildPlan
  refine Ends.bind (Ends.require (Q := fun _ => combineConfigValid config) id
    fun hn h => hn h.configValid) fun _ hconfig => ?_
  refine Ends.bind (Ends.require (Q := fun _ => journalSealed dispatch config) id
    fun hn h => hn h.journal) fun _ hjournal => ?_
  obtain ⟨-, -, -, hrows, -, -, hcontributors, htokens⟩ := id hjournal
  have hworkers : config.workerCount.toNat ≤ 128 := UInt32.le_iff_toNat_le.mp hconfig.2.2.2.1
  refine Ends.bind ((planTokens_ends hjournal).mono (fun _ => id)
    (fun _ hn h => hn h.tokens) id) fun journal hst => ?_
  rw [hst.contributorBegin, hst.pulls, hst.results]
  refine Ends.bind (Ends.require (Q := fun _ =>
    contributorTotal dispatch.journalTokens = dispatch.contributors.length) id
    fun hn h => hn h.cover) fun _ hcover => ?_
  have hsortPulls : sortPulls (dispatch.rawPulls dispatch.journalTokens) = dispatch.pulls := rfl
  have hsortResults : sortResults (rawResults dispatch.journalTokens) = dispatch.results := rfl
  simp only [hsortPulls, hsortResults]
  have hpulls : dispatch.pulls.length ≤ 0xffffffff := by
    rw [dispatch.pulls_perm.length_eq, CompiledLayout.length_rawPulls hst.tokens, hcover,
      ← hcontributors]
    exact Nat.le_of_lt_succ dispatch.journalHeader.contributorCount.toNat_lt
  have hsortedRows : dispatch.pulls.map pullKey = grid config.workerCount.toNat dispatch.rowCount ↔
      _ := map_sortPulls_iff _ _ _
  refine Ends.bind ((indexSources_ends hrows (by omega) hpulls).mono (fun _ => id)
    (fun _ hn h => hn (hsortedRows.mpr h.rows)) id) fun sources hsources => ?_
  rw [hsources.offsets, hsources.walked.1,
    write_of_lt (by rw [offsetsOf, length_tableOf]; omega), ok_bind, set_offsetsOf]
  refine Ends.bind (Ends.require (Q := fun _ =>
    dispatch.pulls.map pullKey = grid config.workerCount.toNat dispatch.rowCount) ?_ ?_)
    fun _ hrowKeys => ?_
  · intro heq
    have h := hsources.walked.2
    rwa [hsources.walked.1, heq, ← List.length_map (f := pullKey), List.take_length] at h
  · intro hn h
    have hlen := congrArg List.length (hsortedRows.mpr h.rows)
    rw [List.length_map] at hlen
    exact hn hlen.symm
  have howners : ∀ op ∈ dispatch.results, (resultKey op).1 < config.workerCount.toNat := by
    intro op hop
    obtain ⟨i, token, hi, rfl⟩ := mem_rawResults (dispatch.results_perm.mem_iff.mp hop)
    exact UInt32.lt_iff_toNat_lt.mp (hst.tokens.1 i token hi).ownerRank
  have hblocks : (fun owner => (ownerBlock dispatch.results owner).length)
      = ownerCount dispatch.journalTokens := funext fun owner => ownerBlock_length _ owner
  have hsortedOwners : dispatch.results.map resultKey
      = grid config.workerCount.toNat (ownerCount dispatch.journalTokens) ↔ _ :=
    map_sortResults_iff _ _ _
  have hownerRun := indexOwners_ends dispatch.results (sortResults_pairwise _) howners
    (dispatch.length_results ▸ htokens) (by omega)
  rw [hblocks] at hownerRun
  refine Ends.bind (hownerRun.mono (fun _ => id) (fun _ hn h => hn (hsortedOwners.mpr h.owners)) id)
    fun owners hownerSt => ?_
  obtain ⟨result, ownerOffsets⟩ := owners
  have hresult := hownerSt.result
  have hoffsets := hownerSt.offsets
  have hdense : dispatch.results.map resultKey = _ :=
    (map_eq_grid_iff_blocks (sortResults_pairwise _) howners).mpr hownerSt.dense
  rw [hblocks] at hresult hoffsets hdense
  simp only at hresult hoffsets ⊢
  rw [hoffsets, hresult, write_of_lt (by rw [offsetsOf, length_tableOf]; omega), ok_bind,
    set_offsetsOf]
  have hlength : (grid config.workerCount.toNat (ownerCount dispatch.journalTokens)).length
      = dispatch.results.length := by
    rw [← hdense, List.length_map]
  rw [require_of hlength, ok_bind, require_of hpulls, ok_bind]
  have hadmissible : Admissible dispatch config :=
    ⟨hconfig, hjournal, hst.tokens, hcover, hsortedRows.mp hrowKeys, hsortedOwners.mp hdense⟩
  -- from here on nothing can fail
  have hrange : ∀ a ∈ accumulatorsOf dispatch.journalTokens, a < dispatch.journalTokens.length :=
    fun a ha => List.mem_range.mp ((CompiledLayout.accumulators_perm hst.tokens).mem_iff.mp ha)
  refine Ends.bind (linkPulls_ends hpulls htokens
    (fun op hop => hrange _ (CompiledLayout.accumulator_mem (dispatch.pulls_perm.mem_iff.mp hop)))
    ?_) ?_
  · refine (dispatch.pulls_perm.pairwise_iff ?_).mpr (CompiledLayout.sourcesOnce_rawPulls hst.tokens)
    intro p q h heq
    exact (h heq.symm).symm
  rintro _ rfl
  refine Ends.bind (indexResults_ends dispatch.results
    (fun a => UInt32.ofNat (chainOf dispatch.pulls a).length) htokens ?_ ?_ ?_) ?_
  · intro op hop
    exact hrange _ (dispatch.accumulators_results.mem_iff.mp (List.mem_map_of_mem hop))
  · exact dispatch.accumulators_results.nodup_iff.mpr hst.tokens.2
  · intro op hop
    obtain ⟨i, token, hi, rfl⟩ := mem_rawResults (dispatch.results_perm.mem_iff.mp hop)
    show token.contributorsCount = UInt32.ofNat (chainOf dispatch.pulls token.accumulatorIndex.toNat).length
    rw [CompiledLayout.length_chainOf hst.tokens hi, UInt32.ofNat_toNat]
  rintro _ rfl
  rw [require_of ?_, ok_bind]
  · refine ends_ok.mpr ⟨hadmissible, ?_⟩
    rw [hsources.counts, dispatch.length_results]
    rfl
  · intro hmem
    obtain ⟨a, ha, hword⟩ := List.mem_map.mp hmem
    obtain ⟨j, op, hhead, hj, -⟩ :=
      CompiledLayout.result_of_accumulator hst.tokens (List.mem_range.mp ha)
    have hlt := (List.getElem?_eq_some_iff.mp hj).1
    rw [dispatch.length_results] at hlt hword
    rw [hhead] at hword
    have hlink := linkOf_ofNat (i := j) (by omega)
    rw [show UInt32.ofNat j = invalidIndex from hword] at hlink
    cases hlink

/-- A call with a plan to fill ends as the run does, and fills it with the plan of the layout. -/
theorem compileCombinePullPlan_ends (dispatch : CompiledLayout) (config : CombineV2Config)
    (old : CombinePullPlan) :
    Ends (compileCombinePullPlan dispatch config (some old)).1
      (fun _ => Admissible dispatch config ∧
        (compileCombinePullPlan dispatch config (some old)).2 = some (planOf dispatch config))
      (fun _ => ¬ Admissible dispatch config) False := by
  have hends := buildPlan_ends dispatch config
  unfold compileCombinePullPlan
  rcases hbuild : buildPlan dispatch config with stop | built
  · rw [hbuild] at hends
    exact hends.of_error
  · obtain ⟨hadmissible, rfl⟩ := hends.of_ok hbuild
    exact ⟨hadmissible, rfl⟩

/-- The plan of a call that returns OK. -/
theorem compileCombinePullPlan_eq_ok {dispatch : CompiledLayout} {config : CombineV2Config}
    {old plan : CombinePullPlan}
    (h : compileCombinePullPlan dispatch config (some old) = (.ok (), some plan)) :
    Admissible dispatch config ∧ plan = planOf dispatch config := by
  obtain ⟨hadmissible, hplan⟩ := (compileCombinePullPlan_ends dispatch config old).of_ok
    (congrArg Prod.fst h)
  exact ⟨hadmissible, Option.some.inj ((congrArg Prod.snd h).symm.trans hplan)⟩

/-- A call that returns OK, for a layout one can run it on. -/
theorem compileCombinePullPlan_of_isOk {dispatch : CompiledLayout} {config : CombineV2Config}
    (old : CombinePullPlan) (h : (compileCombinePullPlan dispatch config (some old)).1.isOk) :
    compileCombinePullPlan dispatch config (some old)
      = (.ok (), some (planOf dispatch config)) := by
  have hok : (compileCombinePullPlan dispatch config (some old)).1 = .ok () :=
    (eq_ok_getD h ()).trans (congrArg _ (Subsingleton.elim _ _))
  exact Prod.ext hok ((compileCombinePullPlan_ends dispatch config old).of_ok hok).2

end AscendShmem.PullV2
