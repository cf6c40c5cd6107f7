import Mathlib
import AscendShmem.PullV2.RowBijection

/-!
# Dispatch and combine, end to end

A value function gives every assignment a value. Each worker sums the values of the assignments of
a row into its partial of the row, and the reduction adds the partials along the chain of every
accumulator and delivers the sum to the owner row the plan names. `every_row_delivered_once`: for
any wave the layout compiler and the plan compiler accept, every token of every source gets one
delivery, and it is the sum over the token's own assignments.
-/

namespace AscendShmem.PullV2

open Lib Lib.Exec

variable {M : Type} [AddCommMonoid M]

/-! ## Values -/

/-- The value of an assignment, by owner rank, owner row, expert, ordinal and weight. -/
abbrev AssignmentValue (M : Type) := UInt32 → UInt32 → UInt32 → UInt32 → UInt32 → M

/-- The values in the range of a row. -/
def rowValue (g : AssignmentValue M) (experts : List ExpertAssignment) (row : DestinationRow) : M :=
  total (fun x => g row.sourceRank row.sourceToken x.expertId x.ordinal x.weight)
    (rowExperts experts row)

/-- The values of the assignments of token `k` of a source. -/
def tokenValue (g : AssignmentValue M) (source : ParsedSource) (k : ℕ) (record : TokenRecord) : M :=
  total (fun a => g source.header.sourceRank (UInt32.ofNat k) a.expertId a.ordinal a.weight)
    (source.assignmentsOf record)

/-- Every worker has summed up the rows it was given; `partials B row` is its partial of `row`. -/
def PartialsOf (g : AssignmentValue M) (layout : CompiledLayout) (partials : UInt32 → UInt32 → M) :
    Prop :=
  ∀ (worker index : UInt32) (row : DestinationRow),
    (layout.rowsAt worker.toNat)[index.toNat]? = some row →
    partials worker index = rowValue g (layout.expertAssignments.getD worker.toNat []) row

/-! ## The reduction of a plan -/

/-- The partials along a chain, added to `sum`. -/
def sumChain (plan : CombinePullPlan) (partials : UInt32 → UInt32 → M) :
    ℕ → UInt32 → M → Exec CombineV2Status M
  | 0, _, _ => .error .outOfFuel
  | fuel + 1, pull, sum =>
    if pull = invalidIndex then .ok sum
    else do
      let op ← read plan.pulls pull.toNat
      let next ← read plan.pullNext pull.toNat
      sumChain plan partials fuel next (sum + partials op.sourceRank op.sourceRow)

/-- One accumulator: the sum of its chain goes to the owner row of its result. -/
def deliverAccumulator (plan : CombinePullPlan) (partials : UInt32 → UInt32 → M)
    (writes : List ((ℕ × ℕ) × M)) (accumulator : ℕ) : Exec CombineV2Status (List ((ℕ × ℕ) × M)) := do
  let head ← read plan.accumulatorHeads accumulator
  let sum ← sumChain plan partials (plan.pulls.length + 1) head 0
  let resultIndex ← read plan.accumulatorResultIndex accumulator
  let result ← read plan.results resultIndex.toNat
  .ok (writes ++ [(resultKey result, sum)])

/-- What a reduction of the whole plan writes: owner rank, owner row and value, in order. -/
def deliver (plan : CombinePullPlan) (partials : UInt32 → UInt32 → M) :
    Exec CombineV2Status (List ((ℕ × ℕ) × M)) :=
  (List.range plan.accumulatorCount.toNat).foldlM (deliverAccumulator plan partials) []

/-- The writes go to the tokens of the sources, one to each, and carry the tokens' values. -/
structure DeliveredOnce (g : AssignmentValue M) (sources : List ParsedSource)
    (writes : List ((ℕ × ℕ) × M)) : Prop where
  once : (writes.map Prod.fst).Nodup
  rows : ∀ p, p ∈ writes.map Prod.fst ↔
    ∃ source ∈ sources, source.header.sourceRank.toNat = p.1 ∧ p.2 < source.tokens.length
  values : ∀ source ∈ sources, ∀ (k : ℕ) (record : TokenRecord), source.tokens[k]? = some record →
    ((source.header.sourceRank.toNat, k), tokenValue g source k record) ∈ writes

/-! ## Chains -/

/-- The partial a pull reads. -/
def pullValue (partials : UInt32 → UInt32 → M) (op : Option CombinePullOp) : M :=
  (op.map fun op => partials op.sourceRank op.sourceRow).getD 0

/-- The walk adds the partial of every pull of the chain. -/
theorem sumChain_linked {plan : CombinePullPlan} {partials : UInt32 → UInt32 → M} {fuel : ℕ}
    {head : UInt32} {sum : M} (chain : List ℕ)
    (hlinked : Linked (nextIn plan.pullNext) (linkOf head) chain)
    (hlt : ∀ i ∈ chain, i < plan.pulls.length ∧ i < plan.pullNext.length)
    (hfuel : chain.length < fuel) :
    sumChain plan partials fuel head sum
      = .ok (sum + total (fun i => pullValue partials plan.pulls[i]?) chain) := by
  induction chain generalizing fuel head sum with
  | nil =>
    obtain ⟨fuel, rfl⟩ : ∃ f, fuel = f + 1 := ⟨fuel - 1, by simp at hfuel; omega⟩
    have hend : head = invalidIndex := by
      by_contra hne
      rw [linkOf, if_neg hne] at hlinked
      cases hlinked
    rw [sumChain, if_pos hend, total_nil, add_zero]
  | cons i chain ih =>
    obtain ⟨fuel, rfl⟩ : ∃ f, fuel = f + 1 := ⟨fuel - 1, by simp at hfuel; omega⟩
    obtain ⟨hhead, hrest⟩ := hlinked
    obtain ⟨hpulls, hnext⟩ := hlt i List.mem_cons_self
    have hne : head ≠ invalidIndex := by
      rintro rfl
      cases hhead
    have hi : head.toNat = i := by
      rw [linkOf, if_neg hne, Option.some.injEq] at hhead
      exact hhead
    rw [nextIn, List.getElem?_eq_getElem hnext, Option.bind_some] at hrest
    rw [sumChain, if_neg hne, hi, read_of_lt hpulls, ok_bind, read_of_lt hnext, ok_bind,
      ih hrest (fun j hj => hlt j (List.mem_cons_of_mem i hj)) (by simpa using hfuel),
      total_cons, List.getElem?_eq_getElem hpulls, add_assoc]
    rfl

/-! ## Tokens -/

/-- The value of a token of a wave. -/
def RoutedToken.value (g : AssignmentValue M) (v : RoutedToken) : M :=
  total (fun a => g v.rank v.row a.expertId a.ordinal a.weight) v.assignments

/-- The range of a token's row holds the token's assignments at the row's worker. -/
theorem rowValue_expertsAt (g : AssignmentValue M) {e workers d : ℕ} {pre post : List RoutedToken}
    {v : RoutedToken} (hgroup : v.group d ≠ [])
    (hsize : ((pre ++ v :: post).flatMap RoutedToken.assignments).length < 2 ^ 32) :
    rowValue g (expertsOf e workers d (pre ++ v :: post)) (RoutedWave.rowFor d (taken d pre) v)
      = total (fun a => g v.rank v.row a.expertId a.ordinal a.weight) (v.group d) := by
  have hrow : RoutedWave.rowFor d (taken d pre) v ∈ rowAt d (taken d pre) v := by
    rw [rowAt, if_neg hgroup]
    exact List.mem_singleton_self _
  have hview := map_expertView_expertsAt e d (taken d pre, total (cellsBelow e workers) pre) v
  rw [rowValue, rowExperts_rowAt hsize hrow]
  have hmap := congrArg (total fun p : UInt32 × UInt32 × UInt32 => g v.rank v.row p.1 p.2.1 p.2.2)
    hview
  rw [total_map, total_map] at hmap
  exact hmap

/-- The partials of a token's contributors add up to the token's value. -/
theorem RoutedWave.total_contributors {g : AssignmentValue M} {config : LayoutConfig}
    {st : CollectState} {srcs : List ParsedSource} {vs : List RoutedToken} {uniform : Bool}
    {partials : UInt32 → UInt32 → M} (h : RoutedWave config.workerCount.toNat srcs vs)
    (hpartials : PartialsOf g (layoutOf config st srcs vs uniform) partials)
    {v : RoutedToken} (hv : v ∈ ownerOrder srcs) :
    total (fun c => partials c.workerRank c.destinationRow)
        (contributorsOf config.workerCount.toNat vs v.rank.toNat v.row.toNat) = v.value g := by
  obtain ⟨pre, post, hsplit, hcontributors⟩ := h.contributors_eq hv
  have hsize : (vs.flatMap RoutedToken.assignments).length < 2 ^ 32 :=
    Nat.lt_succ_of_le h.assignments_le
  rw [hcontributors, contributorsFor, total_flatMap, RoutedToken.value,
    ← total_fibers _ _ fun a ha => h.destinations v hv a ha]
  apply total_congr
  intro d hd
  have hd' := List.mem_range.mp hd
  show total _ (contributorAt d (taken d pre) v) = total _ (v.group d)
  unfold contributorAt
  by_cases hgroup : v.group d = []
  · rw [if_pos hgroup, hgroup, total_nil, total_nil]
  · have hle := (h.taken_le d).1
    have hsplitLe := (taken_split_le hsplit d).1
    have hworkers := h.workers_le
    have hrank : (UInt32.ofNat d).toNat = d := toNat_ofNat_of_le (by omega)
    have hindex : (UInt32.ofNat (taken d pre).1).toNat = (taken d pre).1 :=
      toNat_ofNat_of_le (by omega)
    rw [if_neg hgroup, total_singleton,
      hpartials _ _ (RoutedWave.rowFor d (taken d pre) v) ?_, hrank, layoutOf_expertsAt hd']
    · rw [hsplit] at hsize ⊢
      exact rowValue_expertsAt g hgroup hsize
    · rw [hrank, hindex, layoutOf_rowsAt hd', hsplit]
      exact RoutedWave.getElem?_rowsOf hgroup

/-! ## The reduction of a wave -/

section Layout

variable {g : AssignmentValue M} {config : LayoutConfig} {st : CollectState}
  {srcs : List ParsedSource} {vs : List RoutedToken} {uniform : Bool} {combine : CombineV2Config}
  {partials : UInt32 → UInt32 → M}

/-- The pulls in the chain of a token's accumulator read the partials of the token. -/
theorem layoutOf_sumChain (h : RoutedWave config.workerCount.toNat srcs vs)
    (hpartials : PartialsOf g (layoutOf config st srcs vs uniform) partials) {t : ℕ}
    {v : RoutedToken} {token : JournalTokenEntry} {chain : List ℕ}
    (hv : (ownerOrder srcs)[t]? = some v)
    (hserved : AccumulatorServed (layoutOf config st srcs vs uniform)
      (planOf (layoutOf config st srcs vs uniform) combine) t chain t token) :
    total (fun i => pullValue partials
        (planOf (layoutOf config st srcs vs uniform) combine).pulls[i]?) chain = v.value g := by
  rw [← total_map (pullValue partials), total_perm _ hserved.contributors, total_map,
    layoutOf_namedBy h.fits hv hserved.entry]
  exact h.total_contributors hpartials (List.mem_of_getElem? hv)

/-- One accumulator delivers the token it belongs to. -/
theorem layoutOf_deliverAccumulator (h : RoutedWave config.workerCount.toNat srcs vs)
    (hadmissible : Admissible (layoutOf config st srcs vs uniform) combine)
    (hpartials : PartialsOf g (layoutOf config st srcs vs uniform) partials) {t : ℕ}
    {v : RoutedToken} (hv : (ownerOrder srcs)[t]? = some v) (writes : List ((ℕ × ℕ) × M)) :
    deliverAccumulator (planOf (layoutOf config st srcs vs uniform) combine) partials writes t
      = .ok (writes ++ [(v.key, v.value g)]) := by
  set layout := layoutOf config st srcs vs uniform with hlayout
  have htokens : layout.journalTokens.length = (ownerOrder srcs).length :=
    length_journalOf_tokens _ (cookieOf srcs) _
  have ht : t < layout.journalTokens.length := htokens ▸ (List.getElem?_eq_some_iff.mp hv).1
  obtain ⟨t', token, hserved⟩ := hadmissible.served ht
  -- the accumulator of a token is its place in the journal
  obtain rfl : t' = t :=
    (layoutOf_tokenExact h hserved.entry).accumulatorIndex.symm.trans hserved.accumulator
  have hentry := Option.some.inj (hserved.entry.symm.trans
    (getElem?_journalOf_tokens (contributorsOf config.workerCount.toNat vs) (cookieOf srcs) hv))
  obtain ⟨r, hr, hresult⟩ := hserved.result
  have hheads : t' < (planOf layout combine).accumulatorHeads.length :=
    ht.trans_eq (length_tableOf _ _).symm
  have hlinked := hserved.linked
  rw [nextIn, List.getElem?_eq_getElem hheads, Option.bind_some] at hlinked
  have hpulls : ∀ i ∈ chainOf layout.pulls t', i < layout.pulls.length := fun i hi =>
    (mem_chainFrom.mp hi).2.1
  have hfuel : (chainOf layout.pulls t').length < (planOf layout combine).pulls.length + 1 :=
    Nat.lt_succ_of_le (length_le_of_nodup hpulls (nodup_members _ _ _ _))
  have hsum : sumChain (planOf layout combine) partials
      ((planOf layout combine).pulls.length + 1) (planOf layout combine).accumulatorHeads[t'] 0
      = .ok (v.value g) := by
    rw [sumChain_linked _ hlinked
      (fun i hi => ⟨hpulls i hi, (hpulls i hi).trans_eq (length_tableOf _ _).symm⟩)
      hfuel, layoutOf_sumChain h hpartials hv hserved, zero_add]
  unfold deliverAccumulator
  rw [read_of_lt hheads, ok_bind, hsum, ok_bind, read_of hr, ok_bind, read_of hresult, ok_bind,
    hentry]
  rfl

/-- The reduction delivers the tokens in owner order, each with its value. -/
theorem layoutOf_deliver (h : RoutedWave config.workerCount.toNat srcs vs)
    (hadmissible : Admissible (layoutOf config st srcs vs uniform) combine)
    (hpartials : PartialsOf g (layoutOf config st srcs vs uniform) partials) :
    deliver (planOf (layoutOf config st srcs vs uniform) combine) partials
      = .ok ((ownerOrder srcs).map fun v => (v.key, v.value g)) := by
  have htokens : (layoutOf config st srcs vs uniform).journalTokens.length
      = (ownerOrder srcs).length := length_journalOf_tokens _ (cookieOf srcs) _
  have hrun := Ends.forRange (E := fun _ => False) (F := False)
    (f := deliverAccumulator (planOf (layoutOf config st srcs vs uniform) combine) partials)
    (fun k writes => writes = ((ownerOrder srcs).take k).map fun v => (v.key, v.value g))
    (ownerOrder srcs).length (s := []) rfl ?_
  · obtain ⟨writes, hok, hwrites⟩ := hrun.exists_ok
    rw [deliver, hadmissible.accumulatorCount, htokens, hok, hwrites, List.take_length]
  · rintro k hk _ rfl
    have hv : (ownerOrder srcs)[k]? = some (ownerOrder srcs)[k] := List.getElem?_eq_getElem hk
    rw [layoutOf_deliverAccumulator h hadmissible hpartials hv, (take_succ_of_getElem? hv).1,
      List.map_append]
    exact ends_ok.mpr rfl

end Layout

/-- A write for every token of a wave, in owner order, is one for every token of its sources. -/
theorem Collected.deliveredOnce {session : SessionConfig} {config : LayoutConfig}
    {sources srcs : List ParsedSource} {st : CollectState} {vs : List RoutedToken}
    (g : AssignmentValue M) (hc : Collected session config sources st srcs)
    (hvalid : ∀ source ∈ sources, SourceValid session source)
    (hwave : RoutedWave config.workerCount.toNat srcs vs) :
    DeliveredOnce g sources ((ownerOrder srcs).map fun v => (v.key, v.value g)) := by
  have hkeys : ((ownerOrder srcs).map fun v => (v.key, v.value g)).map Prod.fst
      = (ownerOrder srcs).map RoutedToken.key := by
    rw [List.map_map]
    rfl
  have hmem : ∀ v, v ∈ ownerOrder srcs ↔ ∃ source ∈ sources, ∃ (k : ℕ) (record : TokenRecord),
      source.tokens[k]? = some record ∧ v = source.routedToken record := fun v =>
    hwave.perm.mem_iff.symm.trans (hc.mem_wave_iff hwave)
  have hkey : ∀ source ∈ sources, ∀ (k : ℕ) (record : TokenRecord),
      source.tokens[k]? = some record →
      (source.routedToken record).key = (source.header.sourceRank.toNat, k) := by
    intro source hsource k record hk
    exact Prod.ext rfl ((hvalid source hsource).csr.token k record hk).sourceToken
  refine ⟨?_, fun p => ?_, fun source hsource k record hk => ?_⟩
  · rw [hkeys, hwave.keys]
    exact nodup_grid _ _
  · rw [hkeys, List.mem_map]
    constructor
    · rintro ⟨v, hv, rfl⟩
      obtain ⟨source, hsource, k, record, hk, rfl⟩ := (hmem v).mp hv
      rw [hkey source hsource k record hk]
      exact ⟨source, hsource, rfl, (List.getElem?_eq_some_iff.mp hk).1⟩
    · rintro ⟨source, hsource, hrank, hlt⟩
      have hk := List.getElem?_eq_getElem hlt
      refine ⟨_, (hmem _).mpr ⟨source, hsource, p.2, _, hk, rfl⟩, ?_⟩
      rw [hkey source hsource p.2 _ hk, hrank]
  · refine List.mem_map.mpr ⟨_, (hmem _).mpr ⟨source, hsource, k, record, hk, rfl⟩, ?_⟩
    have htoken := ((hvalid source hsource).csr.token k record hk).sourceToken
    rw [hkey source hsource k record hk, tokenValue, ← htoken, UInt32.ofNat_toNat]
    rfl

/-- Dispatch and combine compute every token's sum: whatever the value function, if the layout and
the plan are compiled and the workers have summed up their rows, the reduction along the plan
delivers one value to every token of every source, the sum over the token's own assignments. -/
theorem every_row_delivered_once {session : SessionConfig} {config : LayoutConfig}
    {sources : List ParsedSource} {order : List UInt32} {layout : CompiledLayout}
    {combine : CombineV2Config} {old plan : CombinePullPlan} (g : AssignmentValue M)
    {partials : UInt32 → UInt32 → M}
    (haccepted : ∀ source ∈ sources, Accepted session source)
    (horder : (order.map UInt32.toNat).Perm (List.range config.workerCount.toNat))
    (hlayout : compileLayout sources order config = .ok layout)
    (hplan : compileCombinePullPlan layout combine (some old) = (.ok (), some plan))
    (hpartials : PartialsOf g layout partials) :
    ∃ writes, deliver plan partials = .ok writes ∧ DeliveredOnce g sources writes := by
  obtain ⟨srcs, st, uniform, -, hc, hwave, rfl⟩ :=
    compileLayout_eq_layoutOf haccepted horder hlayout
  have hvalid : ∀ source ∈ sources, SourceValid session source := fun source h =>
    (haccepted source h).valid
  obtain ⟨hadmissible, rfl⟩ := compileCombinePullPlan_eq_ok hplan
  exact ⟨_, layoutOf_deliver hwave hadmissible hpartials, hc.deliveredOnce g hvalid hwave⟩

/-- The partials workers make of a layout. -/
def partialsOf (g : AssignmentValue M) (layout : CompiledLayout) (worker index : UInt32) : M :=
  ((layout.rowsAt worker.toNat)[index.toNat]?.map
    (rowValue g (layout.expertAssignments.getD worker.toNat []))).getD 0

theorem partialsOf_spec (g : AssignmentValue M) (layout : CompiledLayout) :
    PartialsOf g layout (partialsOf g layout) := by
  intro worker index row hrow
  rw [partialsOf, hrow]
  rfl

/-- A value that tells all assignments apart. -/
def sampleValue : AssignmentValue ℕ := fun rank row expert _ weight =>
  1000 * rank.toNat + 100 * row.toNat + 10 * expert.toNat + weight.toNat

/-- The sample wave from dispatch to delivery. -/
theorem every_row_delivered_once_sample :
    ∃ writes, deliver (planOf sampleLayout sampleCombineConfig)
        (partialsOf sampleValue sampleLayout) = .ok writes ∧
      DeliveredOnce sampleValue sampleSources writes := by
  exact every_row_delivered_once sampleValue sampleSources_accepted (by decide)
    compileLayout_sampleSources (compileCombinePullPlan_of_isOk {} (by decide +kernel))
    (partialsOf_spec sampleValue sampleLayout)

end AscendShmem.PullV2
