import Mathlib
import AscendShmem.PullV2.Completeness

/-!
# Rows and tokens

A token of a wave and a destination it has assignments at are one row of that destination, and a
row is one such pair: `Set.BijOn` says so for every layout the compiler returns. The assignments
of the token stand in the range its row names, the ranges tile the expert storage in row order, and
the entries of one expert are numbered without a gap.
-/

namespace AscendShmem.PullV2

open Lib Lib.Exec

/-! ## Statement -/

/-- Destination, rank and index of every token of the sources that has an assignment there. -/
def tokenDestinations (sources : List ParsedSource) : Set (ℕ × ℕ × ℕ) :=
  {p | ∃ source ∈ sources, source.header.sourceRank.toNat = p.2.1 ∧
    ∃ record, source.tokens[p.2.2]? = some record ∧
      ∃ a ∈ source.assignmentsOf record, a.destinationRank.toNat = p.1}

namespace CompiledLayout

variable (layout : CompiledLayout)

/-- Every destination with every row it has. -/
def rowIndices : Set (ℕ × ℕ) := {p | p.2 < layout.rowCount p.1}

/-- The destination, rank and index of the token that row `p.2` of destination `p.1` is for. -/
def rowToken (p : ℕ × ℕ) : ℕ × ℕ × ℕ :=
  let row := (layout.rowsAt p.1).getD p.2 {}
  (p.1, row.sourceRank.toNat, row.sourceToken.toNat)

end CompiledLayout

/-- The assignments of a token of a source at a destination, in the token's order. -/
def assignmentsTo (source : ParsedSource) (record : TokenRecord) (d : ℕ) : List AssignmentRecord :=
  (source.assignmentsOf record).filter fun a => a.destinationRank.toNat = d

/-- The rows of destination `d` tile its expert storage, and the range of a row holds the
assignments of its token there. -/
structure RowsTile (sources : List ParsedSource) (layout : CompiledLayout) (d : ℕ)
    (storage : List ExpertAssignment) : Prop where
  number : ∀ (i : ℕ) (row : DestinationRow), (layout.rowsAt d)[i]? = some row →
    row.destinationRow.toNat = i
  range : ∀ (i : ℕ) (row : DestinationRow), (layout.rowsAt d)[i]? = some row →
    row.assignmentsBegin.toNat = rowAssignments ((layout.rowsAt d).take i)
  covered : rowAssignments (layout.rowsAt d) = storage.length
  entries : ∀ row ∈ layout.rowsAt d, ∀ source ∈ sources, ∀ record,
    source.header.sourceRank = row.sourceRank →
    source.tokens[row.sourceToken.toNat]? = some record →
    (rowExperts storage row).map expertView = (assignmentsTo source record d).map assignmentView ∧
      ∀ x ∈ rowExperts storage row, x.destinationRow = row.destinationRow

/-- Rows and token destinations are the same things under two names. -/
structure RowsBijective (config : LayoutConfig) (sources : List ParsedSource)
    (layout : CompiledLayout) : Prop where
  bijection : Set.BijOn layout.rowToken layout.rowIndices (tokenDestinations sources)
  tiling : ∀ d < config.workerCount.toNat, ∃ storage,
    layout.expertAssignments[d]? = some storage ∧ RowsTile sources layout d storage

/-- The entries of an expert at a destination have the numbers below its count, each once and in
storage order. -/
def ExpertRowsDense (config : LayoutConfig) (layout : CompiledLayout) : Prop :=
  ∀ d < config.workerCount.toNat, ∃ storage, layout.expertAssignments[d]? = some storage ∧
    ∀ x < config.expertCount.toNat, ∃ count : UInt32,
      layout.expertCounts[d * config.expertCount.toNat + x]? = some count ∧
      (storage.filter fun y => y.expertId.toNat = x).map (fun y => y.expertRow.toNat)
        = List.range count.toNat

/-! ## Rows -/

/-- The identity of the token a row is for. -/
def rowKey (row : DestinationRow) : ℕ × ℕ := (row.sourceRank.toNat, row.sourceToken.toNat)

/-- The rows of a destination are those of the tokens with assignments there, as they came. -/
theorem map_rowKey_rowsOf (d : ℕ) (vs : List RoutedToken) :
    (rowsOf d vs).map rowKey = (vs.filter fun v => v.group d ≠ []).map RoutedToken.key := by
  induction vs using List.reverseRecOn with
  | nil => rfl
  | append_singleton vs v ih =>
    rw [rowsOf_concat, List.map_append, ih, List.filter_append, List.map_append]
    congr 1
    unfold rowAt
    by_cases hgroup : v.group d = []
    · simp [hgroup]
    · simp [hgroup, rowKey, RoutedToken.key]

/-- Entries numbered by how many of their expert stand before them have the numbers below the
count. -/
theorem filter_expertRow_eq_range (x : ℕ) {storage : List ExpertAssignment}
    (h : ∀ (i : ℕ) (y : ExpertAssignment), storage[i]? = some y →
      y.expertRow.toNat = expertUses (storage.take i) y.expertId.toNat) :
    (storage.filter fun y => y.expertId.toNat = x).map (fun y => y.expertRow.toNat)
      = List.range (expertUses storage x) := by
  induction storage using List.reverseRecOn with
  | nil => rfl
  | append_singleton storage y ih =>
    have hlast := h storage.length y (by simp)
    rw [List.take_left' rfl] at hlast
    have hinit : ∀ (i : ℕ) (z : ExpertAssignment), storage[i]? = some z →
        z.expertRow.toNat = expertUses (storage.take i) z.expertId.toNat := by
      intro i z hz
      have hi := (List.getElem?_eq_some_iff.mp hz).1
      have hz' := h i z (by rw [List.getElem?_append_left hi, hz])
      rwa [List.take_append_of_le_length (by omega)] at hz'
    rw [List.filter_append, List.map_append, ih hinit]
    unfold expertUses at hlast ⊢
    rw [List.countP_append]
    by_cases hy : y.expertId.toNat = x
    · simp [hy, hlast, List.range_succ]
    · simp [hy]

namespace RoutedWave

variable {workers : ℕ} {srcs : List ParsedSource} {vs : List RoutedToken}

/-- No two rows of a destination are for one token. -/
theorem nodup_rowKey (h : RoutedWave workers srcs vs) (d : ℕ) :
    ((rowsOf d vs).map rowKey).Nodup := by
  rw [map_rowKey_rowsOf]
  exact h.keys_nodup.sublist (List.filter_sublist.map _)

/-- The token of a row, and what its range holds. -/
theorem row_token (h : RoutedWave workers srcs vs) {e d : ℕ} {row : DestinationRow}
    (hrow : row ∈ rowsOf d vs) :
    ∃ v ∈ vs, v.rank = row.sourceRank ∧ v.row = row.sourceToken ∧
      (rowExperts (expertsOf e workers d vs) row).map expertView
        = (v.group d).map assignmentView ∧
      ∀ x ∈ rowExperts (expertsOf e workers d vs) row, x.destinationRow = row.destinationRow := by
  obtain ⟨pre, v, post, hsplit, hat⟩ := mem_emit.mp hrow
  rw [zero_add] at hat
  replace hat : row ∈ rowAt d (taken d pre) v := hat
  have hsize : ((pre ++ v :: post).flatMap RoutedToken.assignments).length < 2 ^ 32 := by
    rw [← hsplit]
    exact Nat.lt_succ_of_le h.assignments_le
  have hexperts : rowExperts (expertsOf e workers d vs) row
      = expertsAt e d (taken d pre, total (cellsBelow e workers) pre) v := by
    rw [hsplit]
    exact rowExperts_rowAt hsize hat
  rw [hexperts, map_expertView_expertsAt]
  unfold rowAt at hat
  by_cases hgroup : v.group d = []
  · rw [if_pos hgroup] at hat
    cases hat
  · rw [if_neg hgroup] at hat
    rw [List.mem_singleton.mp hat]
    refine ⟨v, by rw [hsplit]; simp, rfl, rfl, rfl, ?_⟩
    intro x hx
    obtain ⟨p, -, rfl⟩ := List.mem_map.mp hx
    rfl

end RoutedWave

/-! ## The layout of a wave -/

section Layout

variable {session : SessionConfig} {config : LayoutConfig} {sources srcs : List ParsedSource}
  {st : CollectState} {vs : List RoutedToken} {uniform : Bool}

/-- The tokens of a wave are the token records of its sources. -/
theorem Collected.mem_wave_iff (hc : Collected session config sources st srcs)
    (hwave : RoutedWave config.workerCount.toNat srcs vs) {v : RoutedToken} :
    v ∈ vs ↔ ∃ source ∈ sources, ∃ (k : ℕ) (record : TokenRecord),
      source.tokens[k]? = some record ∧ v = source.routedToken record := by
  rw [hwave.perm.mem_iff]
  constructor
  · exact hc.mem_ownerOrder
  · intro h
    obtain ⟨source, hsource, k, record, hrecord, rfl⟩ := h
    exact List.mem_flatMap.mpr ⟨source, hc.perm.mem_iff.mpr hsource,
      List.mem_map_of_mem (List.mem_of_getElem? hrecord)⟩

/-- A destination has a row for a token exactly when the token has an assignment there. -/
theorem mem_rowKeys_iff (hc : Collected session config sources st srcs)
    (hvalid : ∀ source ∈ sources, SourceValid session source)
    (hwave : RoutedWave config.workerCount.toNat srcs vs) (d r k : ℕ) :
    (r, k) ∈ (rowsOf d vs).map rowKey ↔ (d, r, k) ∈ tokenDestinations sources := by
  rw [map_rowKey_rowsOf, List.mem_map]
  constructor
  · intro h
    obtain ⟨v, hv, hkey⟩ := h
    obtain ⟨hmem, hgroup⟩ := List.mem_filter.mp hv
    obtain ⟨source, hsource, j, record, hrecord, rfl⟩ := (hc.mem_wave_iff hwave).mp hmem
    have htoken := (hvalid source hsource).csr.token j record hrecord
    obtain ⟨hrank, hrow⟩ := Prod.mk.inj hkey
    replace hrow : record.sourceToken.toNat = k := hrow
    rw [htoken.sourceToken] at hrow
    subst hrow
    obtain ⟨a, ha⟩ := List.exists_mem_of_ne_nil _ (of_decide_eq_true hgroup)
    obtain ⟨hin, hdest⟩ := List.mem_filter.mp ha
    exact ⟨source, hsource, hrank, record, hrecord, a, hin, of_decide_eq_true hdest⟩
  · intro h
    obtain ⟨source, hsource, hrank, record, hrecord, a, ha, hdest⟩ := h
    have htoken := (hvalid source hsource).csr.token k record hrecord
    refine ⟨source.routedToken record, List.mem_filter.mpr ⟨(hc.mem_wave_iff hwave).mpr
      ⟨source, hsource, k, record, hrecord, rfl⟩, decide_eq_true ?_⟩,
      Prod.ext hrank htoken.sourceToken⟩
    exact List.ne_nil_of_mem (List.mem_filter.mpr ⟨ha, decide_eq_true hdest⟩)

/-- Behind the last worker there are no rows. -/
theorem layoutOf_rowsAt_of_le {d : ℕ} (hd : config.workerCount.toNat ≤ d) :
    (layoutOf config st srcs vs uniform).rowsAt d = [] := by
  unfold CompiledLayout.rowsAt
  rw [List.getD_eq_getElem?_getD, List.getElem?_eq_none]
  · rfl
  · exact (length_tableOf _ _).le.trans hd

/-- A token only goes to workers of the wave. -/
theorem destination_lt (hc : Collected session config sources st srcs)
    (hwave : RoutedWave config.workerCount.toNat srcs vs) {p : ℕ × ℕ × ℕ}
    (hp : p ∈ tokenDestinations sources) : p.1 < config.workerCount.toNat := by
  obtain ⟨source, hsource, -, record, hrecord, a, ha, hdest⟩ := hp
  rw [← hdest]
  apply hwave.destinations (source.routedToken record) _ a ha
  exact hwave.perm.mem_iff.mp
    ((hc.mem_wave_iff hwave).mpr ⟨source, hsource, p.2.2, record, hrecord, rfl⟩)

/-- The rows of a worker are those of the tokens that go to it, once each. -/
theorem layoutOf_bijOn (hc : Collected session config sources st srcs)
    (hvalid : ∀ source ∈ sources, SourceValid session source)
    (hwave : RoutedWave config.workerCount.toNat srcs vs) :
    Set.BijOn (layoutOf config st srcs vs uniform).rowToken
      (layoutOf config st srcs vs uniform).rowIndices (tokenDestinations sources) := by
  set layout := layoutOf config st srcs vs uniform with hlayout
  have hworker : ∀ p ∈ layout.rowIndices, p.1 < config.workerCount.toNat := by
    intro p hp
    by_contra hd
    have hcount : layout.rowCount p.1 = 0 :=
      congrArg List.length (layoutOf_rowsAt_of_le (by omega))
    have hlt : p.2 < layout.rowCount p.1 := hp
    omega
  have hkey : ∀ p ∈ layout.rowIndices, ((rowsOf p.1 vs).map rowKey)[p.2]?
      = some (layout.rowToken p).2 := by
    intro p hp
    have hrows : layout.rowsAt p.1 = rowsOf p.1 vs := layoutOf_rowsAt (hworker p hp)
    have hlt : p.2 < (rowsOf p.1 vs).length := by
      rw [← hrows]
      exact hp
    unfold CompiledLayout.rowToken
    rw [hrows, List.getElem?_map, List.getElem?_eq_getElem hlt, List.getD_eq_getElem?_getD,
      List.getElem?_eq_getElem hlt]
    rfl
  refine ⟨?_, ?_, ?_⟩
  · intro p hp
    exact (mem_rowKeys_iff hc hvalid hwave p.1 _ _).mp (List.mem_of_getElem? (hkey p hp))
  · intro p hp q hq heq
    have hd : p.1 = q.1 := (Prod.mk.inj heq).1
    have hp' := hkey p hp
    have hq' := hkey q hq
    rw [heq, hd] at hp'
    have hlt := (List.getElem?_eq_some_iff.mp hp').1
    -- the token of a row is in one place only
    exact Prod.ext hd ((List.getElem?_inj hlt (hwave.nodup_rowKey q.1)).mp (hp'.trans hq'.symm))
  · intro p hp
    have hmem := (mem_rowKeys_iff hc hvalid hwave p.1 p.2.1 p.2.2).mpr hp
    obtain ⟨i, hi⟩ := List.mem_iff_getElem?.mp hmem
    have hindex : (p.1, i) ∈ layout.rowIndices := by
      have hlt := (List.getElem?_eq_some_iff.mp hi).1
      rw [List.length_map] at hlt
      show i < (layout.rowsAt p.1).length
      rw [show layout.rowsAt p.1 = rowsOf p.1 vs from layoutOf_rowsAt (destination_lt hc hwave hp)]
      exact hlt
    refine ⟨(p.1, i), hindex, ?_⟩
    have hsame := (hkey (p.1, i) hindex).symm.trans hi
    exact Prod.ext rfl (Option.some.inj hsame)

/-- The assignments of the rows lie one after the other. -/
theorem layoutOf_rowsTile (hc : Collected session config sources st srcs)
    (hvalid : ∀ source ∈ sources, SourceValid session source)
    (hwave : RoutedWave config.workerCount.toNat srcs vs) {d : ℕ}
    (hd : d < config.workerCount.toNat) :
    RowsTile sources (layoutOf config st srcs vs uniform) d
      (expertsOf config.expertCount.toNat config.workerCount.toNat d vs) := by
  have hrows : (layoutOf config st srcs vs uniform).rowsAt d = rowsOf d vs := layoutOf_rowsAt hd
  constructor
  · rw [hrows]
    exact fun i row hrow => (hwave.row_exact hrow).1
  · rw [hrows]
    exact fun i row hrow => (hwave.row_exact hrow).2
  · rw [hrows, rowAssignments_rowsOf (hwave.taken_le d).2, length_expertsOf]
  · intro row hrow source hsource record hrank hrecord
    rw [hrows] at hrow
    obtain ⟨v, hv, hvrank, hvrow, hexperts, hnumber⟩ :=
      hwave.row_token (e := config.expertCount.toNat) hrow
    have htoken := (hvalid source hsource).csr.token _ record hrecord
    -- the row's token is the record, since identities are not shared
    have hw : source.routedToken record ∈ vs :=
      (hc.mem_wave_iff hwave).mpr ⟨source, hsource, _, record, hrecord, rfl⟩
    have hkey : v.key = (source.routedToken record).key := by
      refine Prod.ext ?_ ?_
      · show v.rank.toNat = source.header.sourceRank.toNat
        rw [hvrank, hrank]
      · show v.row.toNat = record.sourceToken.toNat
        rw [hvrow, htoken.sourceToken]
    have hsame := List.inj_on_of_nodup_map hwave.keys_nodup hv hw hkey
    rw [hsame] at hexperts
    exact ⟨hexperts, hnumber⟩

end Layout

/-- Every expert of a wave has a counter of its own at each destination. -/
def ExpertsCounted (config : LayoutConfig) (sources : List ParsedSource) : Prop :=
  ∀ source ∈ sources, ∀ v ∈ source.routed, ExpertsBelow config.expertCount.toNat v

/-- The allocation of a wave loses and repeats nothing, and numbers the entries of an expert without
a gap if every expert has a counter of its own. -/
theorem row_allocation_bijective {session : SessionConfig} {config : LayoutConfig}
    {sources : List ParsedSource} {order : List UInt32} {layout : CompiledLayout}
    (haccepted : ∀ source ∈ sources, Accepted session source)
    (horder : (order.map UInt32.toNat).Perm (List.range config.workerCount.toNat))
    (hlayout : compileLayout sources order config = .ok layout) :
    RowsBijective config sources layout ∧
      (ExpertsCounted config sources → ExpertRowsDense config layout) := by
  obtain ⟨srcs, st, uniform, hinput, hc, hwave, rfl⟩ :=
    compileLayout_eq_layoutOf haccepted horder hlayout
  have hvalid : ∀ source ∈ sources, SourceValid session source := fun source h =>
    (haccepted source h).valid
  refine ⟨⟨layoutOf_bijOn hc hvalid hwave, fun d hd => ⟨_, getElem?_tableOf hd,
    layoutOf_rowsTile hc hvalid hwave hd⟩⟩, fun hcounted d hd => ?_⟩
  have hbelow : ∀ v ∈ visits srcs order, ExpertsBelow config.expertCount.toNat v := by
    intro v hv
    obtain ⟨source, hsource, k, record, hk, rfl⟩ := hc.mem_ownerOrder (hwave.perm.mem_iff.mp hv)
    exact hcounted source hsource _ (List.mem_map_of_mem (List.mem_of_getElem? hk))
  have hdest : DestinationExact config (layoutOf config st srcs (visits srcs order) uniform) d
      (expertsOf config.expertCount.toNat config.workerCount.toNat d (visits srcs order)) :=
    layoutOf_destinationExact hwave hbelow hd
  refine ⟨_, getElem?_tableOf hd, fun x hx => ?_⟩
  obtain ⟨count, hcount, huses⟩ := hdest.counts x hx
  refine ⟨count, hcount, ?_⟩
  rw [huses]
  exact filter_expertRow_eq_range x fun i y hy => (hdest.entries i y hy).2

/-- The two sources of the sample wave. -/
theorem row_allocation_bijective_sample :
    RowsBijective sampleLayoutConfig sampleSources sampleLayout ∧
      ExpertRowsDense sampleLayoutConfig sampleLayout := by
  have h := row_allocation_bijective sampleSources_accepted (by decide) compileLayout_sampleSources
  have hcounted : ExpertsCounted sampleLayoutConfig sampleSources := by
    unfold ExpertsCounted ExpertsBelow
    decide +kernel
  exact ⟨h.1, h.2 hcounted⟩

/-! ## Experts that share a counter -/

/-- A source beside `sampleInput` with a token for both experts of worker 0. -/
def sharedInput : SourceInput :=
  { sampleInput₁ with assignments := [{ expertId := 1 }, { ordinal := 1 }] }

/-- Two sources with tokens for the same worker. -/
def sharedSources : List ParsedSource := [parsedInput sampleInput, parsedInput sharedInput]

/-- One counter a destination. -/
def sharedConfig : LayoutConfig := ⟨2, 1, 4, 4⟩

/-- Their layout. -/
def sharedLayout : CompiledLayout :=
  (compileLayout sharedSources [0, 1] sharedConfig).toOption.getD {}

/-- Expert 1 of worker 0 is counted in the counter of worker 1, where two entries are counted and one
is stored. -/
theorem expert_rows_shared : ¬ ∀ (session : SessionConfig) (config : LayoutConfig)
    (sources : List ParsedSource) (order : List UInt32) (layout : CompiledLayout),
    (∀ source ∈ sources, Accepted session source) →
    (order.map UInt32.toNat).Perm (List.range config.workerCount.toNat) →
    compileLayout sources order config = .ok layout → ExpertRowsDense config layout := by
  intro h
  have haccepted : ∀ source ∈ sharedSources, Accepted sampleInput.session source :=
    List.forall_mem_cons.mpr ⟨parsedInput_accepted sampleInput (by decide +kernel),
      List.forall_mem_singleton.mpr (parsedInput_accepted sharedInput (by decide +kernel))⟩
  have hlayout : compileLayout sharedSources [0, 1] sharedConfig = .ok sharedLayout := by
    unfold sharedLayout
    exact eq_ok_getD (by decide +kernel) _
  obtain ⟨storage, hstorage, hdense⟩ := h _ _ _ _ _ haccepted (by decide) hlayout 1 (by decide)
  obtain ⟨count, hcount, hrows⟩ := hdense 0 (by decide)
  have hone : sharedLayout.expertAssignments[1]?.map List.length = some 1 := by decide +kernel
  have htwo : sharedLayout.expertCounts[1]? = some 2 := by decide +kernel
  have hcount : sharedLayout.expertCounts[1]? = some count := hcount
  rw [hcount, Option.some.injEq] at htwo
  rw [hstorage, Option.map_some, Option.some.injEq] at hone
  have hlen := congrArg List.length hrows
  have hle := List.length_filter_le (fun y : ExpertAssignment => y.expertId.toNat = 0) storage
  rw [List.length_map, List.length_range, htwo] at hlen
  rw [hlen, hone] at hle
  exact absurd hle (by decide)

end AscendShmem.PullV2
