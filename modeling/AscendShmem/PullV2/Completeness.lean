import Mathlib
import AscendShmem.PullV2.WaveLayout

/-!
# What the layout compiler accepts, the plan compiler accepts

A layout casts sizes to 32 bits in many places. `IndicesExact` says that every index it stores is
the number the source computes, and `compileLayout_complete` that this holds of every layout the
compiler returns, and that the plan compiler then returns OK.
-/

namespace AscendShmem.PullV2

open Lib Lib.Exec

/-! ## Counting the assignments of an expert -/

/-- Expert ids that have a cell share it only within their destination. -/
theorem cell_eq_iff {e d d' x : ℕ} {a : AssignmentRecord} (ha : a.expertId.toNat < e)
    (hx : x < e) : cell e d' a = d * e + x ↔ d' = d ∧ a.expertId.toNat = x := by
  unfold cell
  constructor
  · intro h
    have hd : d' = d := by
      rcases Nat.lt_trichotomy d' d with hlt | heq | hgt
      · have := Nat.mul_le_mul_right e (Nat.succ_le_of_lt hlt)
        rw [Nat.succ_mul] at this
        omega
      · exact heq
      · have := Nat.mul_le_mul_right e (Nat.succ_le_of_lt hgt)
        rw [Nat.succ_mul] at this
        omega
    subst hd
    exact ⟨rfl, by omega⟩
  · rintro ⟨rfl, rfl⟩
    rfl

section Cells

variable {e workers d x : ℕ} {v : RoutedToken}

/-- The cell of an expert counts its assignments. -/
theorem total_cellCount {l : List AssignmentRecord} (d' : ℕ)
    (hl : ∀ a ∈ l, a.expertId.toNat < e) (hx : x < e) :
    total (cellCount e d') l (d * e + x)
      = if d' = d then l.countP fun a => a.expertId.toNat = x else 0 := by
  have hcount : ∀ a ∈ l, cellCount e d' a (d * e + x)
      = if d' = d ∧ a.expertId.toNat = x then 1 else 0 := by
    intro a ha
    unfold cellCount
    simp only [cell_eq_iff (hl a ha) hx]
  rw [total_apply, total_congr hcount, total_indicator]
  by_cases hd : d' = d
  · simp [hd]
  · simp [hd]

/-- The cells of a token count the assignments of each group. -/
theorem cellsBelow_apply (hv : ExpertsBelow e v) (hx : x < e) (n : ℕ) :
    cellsBelow e n v (d * e + x)
      = if d < n then (v.group d).countP fun a => a.expertId.toNat = x else 0 := by
  have hgroup : ∀ d', ∀ a ∈ v.group d', a.expertId.toNat < e := fun d' a ha =>
    hv a (List.mem_filter.mp ha).1
  induction n with
  | zero => rfl
  | succ n ih =>
    rw [cellsBelow, List.range_succ, total_append, total_singleton, ← cellsBelow, Pi.add_apply, ih,
      total_cellCount n (hgroup n) hx]
    rcases Nat.lt_trichotomy d n with hlt | rfl | hgt
    · rw [if_pos hlt, if_neg (by omega), if_pos (by omega), Nat.add_zero]
    · rw [if_neg (by omega), if_pos rfl, if_pos (by omega), Nat.zero_add]
    · rw [if_neg (by omega), if_neg (by omega), if_neg (by omega)]

/-- The assignments placed for an expert are those of the group. -/
theorem countP_expertsAt (b : (ℕ × ℕ) × (ℕ → ℕ)) (d : ℕ) (v : RoutedToken) (x : ℕ) :
    (expertsAt e d b v).countP (fun y => y.expertId.toNat = x)
      = (v.group d).countP fun a => a.expertId.toNat = x := by
  conv_rhs => rw [← map_snd_alloc (cellCount e d) (b.2 + cellsBelow e d v) (v.group d)]
  rw [expertsAt, List.countP_map, List.countP_map]
  rfl

/-- The counters of a destination count its expert storage. -/
theorem total_cellsBelow (hd : d < workers) (hx : x < e) {vs : List RoutedToken}
    (hvs : ∀ v ∈ vs, ExpertsBelow e v) :
    total (cellsBelow e workers) vs (d * e + x)
      = (expertsOf e workers d vs).countP fun y => y.expertId.toNat = x := by
  induction vs using List.reverseRecOn with
  | nil => rfl
  | append_singleton vs v ih =>
    have hv : ExpertsBelow e v := hvs v (by simp)
    rw [total_append, total_singleton, Pi.add_apply,
      ih fun w hw => hvs w (List.mem_append_left _ hw), cellsBelow_apply hv hx, if_pos hd,
      expertsOf_concat, List.countP_append, countP_expertsAt]

end Cells

/-! ## Rows and entries -/

/-- The assignments of a list of rows. -/
def rowAssignments (rows : List DestinationRow) : ℕ :=
  total (fun row => row.assignmentsCount.toNat) rows

/-- The entries of an expert. -/
def expertUses (storage : List ExpertAssignment) (expert : ℕ) : ℕ :=
  storage.countP fun y => y.expertId.toNat = expert

/-- The rows of a worker own all of its assignments. -/
theorem rowAssignments_rowsOf {d : ℕ} {vs : List RoutedToken}
    (h : (taken d vs).2 ≤ 0xffffffff) : rowAssignments (rowsOf d vs) = (taken d vs).2 := by
  induction vs using List.reverseRecOn with
  | nil => rfl
  | append_singleton vs v ih =>
    rw [taken_concat, Prod.snd_add] at h ⊢
    rw [rowsOf_concat, rowAssignments, total_append, ← rowAssignments, ih (by omega), need_snd]
    congr 1
    rw [need_snd] at h
    unfold rowAt
    by_cases hgroup : v.group d = []
    · simp [hgroup]
    · rw [if_neg hgroup, total_singleton]
      exact toNat_ofNat_of_le (by omega)

namespace RoutedWave

variable {workers : ℕ} {srcs : List ParsedSource} {vs : List RoutedToken}

/-- A row stands at the number it names, and its assignments begin where those of the rows before
it end. -/
theorem row_exact (h : RoutedWave workers srcs vs) {d i : ℕ} {row : DestinationRow}
    (hrow : (rowsOf d vs)[i]? = some row) :
    row.destinationRow.toNat = i ∧
      row.assignmentsBegin.toNat = rowAssignments ((rowsOf d vs).take i) := by
  obtain ⟨pre, v, post, j, hsplit, hij, hat⟩ := getElem?_emit (rowAt d) (need d)
    (AddMonoidHom.fst ℕ ℕ) (fun b v => length_rowAt d b v) hrow
  rw [zero_add] at hat
  replace hij : i = (taken d pre).1 + j := hij
  replace hat : (rowAt d (taken d pre) v)[j]? = some row := hat
  have hle := h.taken_le d
  have hsplitLe := taken_split_le hsplit d
  unfold rowAt at hat
  by_cases hgroup : v.group d = []
  · simp [hgroup] at hat
  · rw [if_neg hgroup, List.getElem?_singleton] at hat
    split at hat
    · rename_i hj
      subst hj
      rw [← Option.some.inj hat]
      have htake : (rowsOf d vs).take i = rowsOf d pre := by
        rw [hsplit, rowsOf, emit_append, ← rowsOf]
        exact List.take_left' ((length_rowsOf d pre).trans hij.symm)
      rw [htake, rowAssignments_rowsOf (by omega)]
      exact ⟨(toNat_ofNat_of_le (by omega)).trans hij.symm, toNat_ofNat_of_le (by omega)⟩
    · cases hat

/-- An entry of the expert storage lies in the range of the row it names, and its expert row counts
the entries of its expert before it. -/
theorem entry_exact (h : RoutedWave workers srcs vs) {e d i : ℕ} {x : ExpertAssignment}
    (hexperts : ∀ v ∈ vs, ExpertsBelow e v) (hd : d < workers)
    (hx : (expertsOf e workers d vs)[i]? = some x) :
    (∃ row, (rowsOf d vs)[x.destinationRow.toNat]? = some row ∧
      row.assignmentsBegin.toNat ≤ i ∧
      i < row.assignmentsBegin.toNat + row.assignmentsCount.toNat) ∧
    x.expertRow.toNat = expertUses ((expertsOf e workers d vs).take i) x.expertId.toNat := by
  -- the entry is the `j`-th of one token `v`, behind those of the tokens before it
  obtain ⟨pre, v, post, j, hsplit, hij, hat⟩ := getElem?_emit (expertsAt e d)
    (fun v => (need d v, cellsBelow e workers v))
    ((AddMonoidHom.snd ℕ ℕ).comp (AddMonoidHom.fst (ℕ × ℕ) (ℕ → ℕ)))
    (fun b v => length_expertsAt e d b v) hx
  rw [total_needCells] at hij hat
  rw [zero_add] at hat
  replace hij : i = (taken d pre).2 + j := hij
  have hle := h.taken_le d
  have hsplitLe := taken_split_le hsplit d
  have hjlt := (List.getElem?_eq_some_iff.mp hat).1
  rw [length_expertsAt] at hjlt
  have hgroup : v.group d ≠ [] := by
    intro hnil
    rw [need_snd, hnil] at hjlt
    simp at hjlt
  have hneed : need d v = (1, (v.group d).length) := if_neg hgroup
  rw [hneed] at hsplitLe hjlt
  simp only at hsplitLe hjlt
  -- the entries before it: all of the earlier tokens, and `j` of this one
  have htake : (expertsOf e workers d vs).take i = expertsOf e workers d pre
      ++ (expertsAt e d (taken d pre, total (cellsBelow e workers) pre) v).take j := by
    rw [hsplit, ← List.singleton_append, ← List.append_assoc, expertsOf, emit_append, ← expertsOf,
      expertsOf_concat, List.append_assoc, hij, ← length_expertsOf e workers d pre,
      List.take_length_add_append, List.take_append_of_le_length]
    rw [length_expertsAt, hneed]
    exact hjlt.le
  obtain ⟨p, hp, rfl⟩ : ∃ p, (alloc (cellCount e d)
      (total (cellsBelow e workers) pre + cellsBelow e d v) (v.group d))[j]? = some p ∧
      expertEntry (taken d pre).1 (p.1 (cell e d p.2)) p.2 = x := by
    rw [expertsAt, List.getElem?_map, Option.map_eq_some_iff] at hat
    exact hat
  obtain ⟨hget, hbase⟩ := getElem?_alloc hp
  have hmem : ∀ w ∈ pre ++ v :: post, ExpertsBelow e w := hsplit ▸ hexperts
  have hv : ExpertsBelow e v := hmem v (by simp)
  have hlt : p.2.expertId.toNat < e :=
    hv p.2 (List.mem_filter.mp (List.mem_of_getElem? hget)).1
  constructor
  · refine ⟨rowFor d (taken d pre) v, ?_, ?_, ?_⟩
    · show (rowsOf d vs)[(UInt32.ofNat (taken d pre).1).toNat]? = _
      rw [toNat_ofNat_of_le (by omega), hsplit]
      exact getElem?_rowsOf hgroup
    · show (UInt32.ofNat (taken d pre).2).toNat ≤ i
      rw [toNat_ofNat_of_le (by omega)]
      omega
    · show i < (UInt32.ofNat (taken d pre).2).toNat + (UInt32.ofNat (v.group d).length).toNat
      rw [toNat_ofNat_of_le (by omega), toNat_ofNat_of_le (by omega)]
      omega
  · have hcount : p.1 (cell e d p.2)
        = expertUses ((expertsOf e workers d vs).take i) p.2.expertId.toNat := by
      have hgroupLt : ∀ a ∈ (v.group d).take j, a.expertId.toNat < e := fun a ha =>
        hv a (List.mem_filter.mp (List.mem_of_mem_take ha)).1
      rw [hbase, Pi.add_apply, Pi.add_apply, cell,
        total_cellsBelow hd hlt fun w hw => hmem w (by simp [hw]), cellsBelow_apply hv hlt,
        if_neg (Nat.lt_irrefl d), total_cellCount d hgroupLt hlt, if_pos rfl, htake, expertUses,
        List.countP_append, Nat.add_zero]
      congr 1
      rw [expertsAt, ← List.map_take, take_alloc, List.countP_map]
      conv_lhs => rw [← map_snd_alloc (cellCount e d) (total (cellsBelow e workers) pre
        + cellsBelow e d v) ((v.group d).take j), List.countP_map]
      rfl
    -- the row fits the word, as the wave has at most 2^32 - 1 assignments
    have hbound : p.1 (cell e d p.2) ≤ 0xffffffff := by
      have hle' : expertUses ((expertsOf e workers d vs).take i) p.2.expertId.toNat
          ≤ (expertsOf e workers d vs).length :=
        List.countP_le_length.trans (List.length_take_le' _ _)
      rw [length_expertsOf] at hle'
      omega
    show (UInt32.ofNat (p.1 (cell e d p.2))).toNat = _
    rw [toNat_ofNat_of_le hbound, hcount]
    rfl

end RoutedWave

/-! ## Exact indices -/

/-- The index fields of a journal entry at position `t`. -/
structure TokenExact (layout : CompiledLayout) (t : ℕ) (token : JournalTokenEntry) : Prop where
  accumulatorIndex : token.accumulatorIndex.toNat = t
  contributorsBegin : token.contributorsBegin.toNat
    = contributorTotal (layout.journalTokens.take t)
  assignmentsBegin : token.assignmentsBegin.toNat = assignmentTotal (layout.journalTokens.take t)
  contributors : ∀ c ∈ layout.namedBy token, ∃ row,
    (layout.rowsAt c.workerRank.toNat)[c.destinationRow.toNat]? = some row ∧
    row.routeKey = token.routeKey ∧ row.assignmentsBegin = c.assignmentBegin ∧
    row.assignmentsCount = c.assignmentCount

/-- The index fields of the rows and the expert storage of destination `d`. -/
structure DestinationExact (config : LayoutConfig) (layout : CompiledLayout) (d : ℕ)
    (storage : List ExpertAssignment) : Prop where
  rowTotal : layout.rowCount d ≤ 0xffffffff
  storageTotal : storage.length ≤ 0xffffffff
  rows : ∀ (i : ℕ) (row : DestinationRow), (layout.rowsAt d)[i]? = some row →
    row.destinationRow.toNat = i ∧
    row.assignmentsBegin.toNat = rowAssignments ((layout.rowsAt d).take i)
  covered : rowAssignments (layout.rowsAt d) = storage.length
  entries : ∀ (i : ℕ) (x : ExpertAssignment), storage[i]? = some x →
    (∃ row, (layout.rowsAt d)[x.destinationRow.toNat]? = some row ∧
      row.assignmentsBegin.toNat ≤ i ∧
      i < row.assignmentsBegin.toNat + row.assignmentsCount.toNat) ∧
    x.expertRow.toNat = expertUses (storage.take i) x.expertId.toNat
  counts : ∀ x < config.expertCount.toNat, ∃ count : UInt32,
    layout.expertCounts[d * config.expertCount.toNat + x]? = some count ∧
    count.toNat = expertUses storage x

/-- Every index a layout stores is the number it stands for, and so are its totals. -/
structure IndicesExact (config : LayoutConfig) (layout : CompiledLayout) : Prop where
  tokenCount : layout.journalHeader.tokenCount.toNat = layout.journalTokens.length
  contributorCount : layout.journalHeader.contributorCount.toNat = layout.contributors.length
  assignmentTotal : layout.journalAssignments.length ≤ 0xffffffff
  contributorsCovered : contributorTotal layout.journalTokens = layout.contributors.length
  assignmentsCovered : AscendShmem.PullV2.assignmentTotal layout.journalTokens
    = layout.journalAssignments.length
  tokens : ∀ (t : ℕ) (token : JournalTokenEntry), layout.journalTokens[t]? = some token →
    TokenExact layout t token
  destinations : ∀ d < config.workerCount.toNat, ∃ storage,
    layout.expertAssignments[d]? = some storage ∧ DestinationExact config layout d storage

section Layout

variable {config : LayoutConfig} {st : CollectState} {srcs : List ParsedSource}
  {vs : List RoutedToken} {uniform : Bool}

/-- Every journal token is one of the wave's. -/
theorem layoutOf_tokenExact (h : RoutedWave config.workerCount.toNat srcs vs) {t : ℕ}
    {token : JournalTokenEntry}
    (ht : (layoutOf config st srcs vs uniform).journalTokens[t]? = some token) :
    TokenExact (layoutOf config st srcs vs uniform) t token := by
  have htokens : TokensAdmissible (layoutOf config st srcs vs uniform)
      { workerCount := config.workerCount } (layoutOf config st srcs vs uniform).journalTokens :=
    layoutOf_tokensAdmissible h rfl
  have hadmissible := htokens.1 t token ht
  have hlen : (layoutOf config st srcs vs uniform).journalTokens.length
      = (ownerOrder srcs).length := length_journalOf_tokens _ (cookieOf srcs) _
  have hlt := (List.getElem?_eq_some_iff.mp ht).1
  rw [hlen] at hlt
  have hv : (ownerOrder srcs)[t]? = some (ownerOrder srcs)[t] := List.getElem?_eq_getElem hlt
  have hentry := Option.some.inj (ht.symm.trans (getElem?_journalOf_tokens _ (cookieOf srcs) hv))
  have hfits := h.fits.1
  refine ⟨?_, hadmissible.contributorsBegin, ?_, fun c hc => ?_⟩
  · rw [hentry]
    exact toNat_ofNat_of_le (by omega)
  · have htake := take_journalOf_tokens (contributorsOf config.workerCount.toNat vs)
      (cookieOf srcs) (ownerOrder srcs) t
    have htotal := (congrArg assignmentTotal htake).trans
      (assignmentTotal_journalOf _ (cookieOf srcs) (h.fits.take t))
    rw [hentry]
    exact (toNat_ofNat_of_le (h.fits.take t).2.2).trans htotal.symm
  · obtain ⟨row, hrow, hkey, -, hbegin, hcount⟩ := (hadmissible.rows.1 c hc).row
    exact ⟨row, hrow, hkey, hbegin, hcount⟩

/-- Every worker has the rows and experts of the wave. -/
theorem layoutOf_destinationExact (h : RoutedWave config.workerCount.toNat srcs vs)
    (hexperts : ∀ v ∈ vs, ExpertsBelow config.expertCount.toNat v) {d : ℕ}
    (hd : d < config.workerCount.toNat) :
    DestinationExact config (layoutOf config st srcs vs uniform) d
      (expertsOf config.expertCount.toNat config.workerCount.toNat d vs) := by
  have hle := h.taken_le d
  have hrows : (layoutOf config st srcs vs uniform).rowsAt d = rowsOf d vs := layoutOf_rowsAt hd
  constructor
  · rw [CompiledLayout.rowCount, hrows, length_rowsOf]
    exact hle.1
  · rw [length_expertsOf]
    exact hle.2
  · rw [hrows]
    exact fun i row hrow => h.row_exact hrow
  · rw [hrows, rowAssignments_rowsOf hle.2, length_expertsOf]
  · rw [hrows]
    exact fun i x hx => h.entry_exact hexperts hd hx
  · intro x hx
    have hcell : d * config.expertCount.toNat + x
        < config.workerCount.toNat * config.expertCount.toNat := by
      have := Nat.mul_le_mul_right config.expertCount.toNat (Nat.succ_le_of_lt hd)
      rw [Nat.succ_mul] at this
      omega
    refine ⟨_, getElem?_tableOf hcell, ?_⟩
    have hcount := total_cellsBelow hd hx hexperts
    rw [hcount]
    refine toNat_ofNat_of_le (List.countP_le_length.trans ?_)
    rw [length_expertsOf]
    exact hle.2

/-- The indexes of a layout are exact. -/
theorem layoutOf_indicesExact (h : RoutedWave config.workerCount.toNat srcs vs)
    (hexperts : ∀ v ∈ vs, ExpertsBelow config.expertCount.toNat v) :
    IndicesExact config (layoutOf config st srcs vs uniform) := by
  have hlen : (layoutOf config st srcs vs uniform).journalTokens.length
      = (ownerOrder srcs).length := length_journalOf_tokens _ (cookieOf srcs) _
  exact {
    tokenCount := toNat_ofNat_of_le (hlen ▸ h.fits.1)
    contributorCount := toNat_ofNat_of_le h.fits.2.1
    assignmentTotal := h.fits.2.2
    contributorsCovered := contributorTotal_journalOf _ (cookieOf srcs) h.fits
    assignmentsCovered := assignmentTotal_journalOf _ (cookieOf srcs) h.fits
    tokens := fun t token ht => layoutOf_tokenExact h ht
    destinations := fun d hd =>
      ⟨_, getElem?_tableOf hd, layoutOf_destinationExact h hexperts hd⟩ }

end Layout

/-! ## The compilers -/

/-- What a layout the compiler returns is, and what is known of the wave it was made from. -/
theorem compileLayout_eq_layoutOf {session : SessionConfig} {config : LayoutConfig}
    {sources : List ParsedSource} {order : List UInt32} {layout : CompiledLayout}
    (haccepted : ∀ source ∈ sources, Accepted session source)
    (horder : (order.map UInt32.toNat).Perm (List.range config.workerCount.toNat))
    (hlayout : compileLayout sources order config = .ok layout) :
    ∃ srcs st uniform, layoutInputValid sources order config ∧
      Collected session config sources st srcs ∧
      RoutedWave config.workerCount.toNat srcs (visits srcs order) ∧
      layout = layoutOf config st srcs (visits srcs order) uniform := by
  have hvalid : ∀ source ∈ sources, SourceValid session source := fun source h =>
    (haccepted source h).valid
  have hinput : layoutInputValid sources order config := by
    by_contra hn
    unfold compileLayout at hlayout
    rw [require_of_not fun h => hn h.2] at hlayout
    cases hlayout
  have hlen : sources.length = config.workerCount.toNat := hinput.2.2.2.2.2.1
  have htwo : 2 ≤ config.workerCount.toNat := UInt32.le_iff_toNat_le.mp hinput.1
  rcases hcollect : collectRun config sources with e | st
  · rw [compileLayout_of_collect_error hinput hcollect] at hlayout
    cases hlayout
  · obtain ⟨srcs, hc⟩ := (collectRun_ends hvalid hlen htwo).of_ok hcollect
    obtain ⟨-, hjournal, uniform, -, rfl⟩ :=
      (compileLayout_ends hvalid hinput horder hcollect hc).of_ok hlayout
    exact ⟨srcs, st, uniform, hinput, hc, hc.routedWave hvalid hinput horder hjournal, rfl⟩

/-- The plan compiler returns OK on every admissible layout. -/
theorem Admissible.compile_ok {dispatch : CompiledLayout} {config : CombineV2Config}
    (h : Admissible dispatch config) (plan : CombinePullPlan) :
    (compileCombinePullPlan dispatch config (some plan)).1 = .ok () := by
  obtain ⟨⟨⟩, hok, -⟩ := ((compileCombinePullPlan_ends dispatch config plan).mono (fun _ => id)
    (fun _ hn => hn h) id).exists_ok
  exact hok

/-- In a layout compiled from accepted sources no index is truncated, and the plan compiler returns
OK on it. -/
theorem compileLayout_complete {session : SessionConfig} {config : LayoutConfig}
    {sources : List ParsedSource} {order : List UInt32} {layout : CompiledLayout}
    (haccepted : ∀ source ∈ sources, Accepted session source)
    (horder : (order.map UInt32.toNat).Perm (List.range config.workerCount.toNat))
    (hexperts : session.expertCount ≤ config.expertCount)
    (hlayout : compileLayout sources order config = .ok layout) :
    IndicesExact config layout ∧
    ∀ (combine : CombineV2Config) (plan : CombinePullPlan), combineConfigValid combine →
      combine.workerCount = config.workerCount →
      (∀ source ∈ sources, source.header.ringSlot.toUInt32 < combine.ringSlots) →
      (compileCombinePullPlan layout combine (some plan)).1 = .ok () := by
  obtain ⟨srcs, st, uniform, hinput, hc, hwave, rfl⟩ :=
    compileLayout_eq_layoutOf haccepted horder hlayout
  refine ⟨layoutOf_indicesExact hwave fun v hv a ha => ?_, fun combine plan hcombine hworkers hring
    => ?_⟩
  · obtain ⟨source, hsource, k, record, hk, rfl⟩ := hc.mem_ownerOrder (hwave.perm.mem_iff.mp hv)
    have hlt := (((haccepted source hsource).valid.csr.token k record hk).assignments.1 a ha).2.1
    exact lt_of_lt_of_le (UInt32.lt_iff_toNat_lt.mp hlt) (UInt32.le_iff_toNat_le.mp hexperts)
  · -- the epoch of the wave is that of its first source
    have htwo : 2 ≤ config.workerCount.toNat := UInt32.le_iff_toNat_le.mp hinput.1
    have hlen : sources.length = config.workerCount.toNat := hinput.2.2.2.2.2.1
    obtain ⟨source, hsource⟩ : ∃ source, source ∈ sources :=
      List.exists_mem_of_length_pos (by omega)
    obtain ⟨hgeneration, hsequence, -, hslot⟩ := hc.wave source hsource
    have hvalid := (haccepted source hsource).valid
    exact (layoutOf_admissible hwave hcombine hworkers (hgeneration ▸ hvalid.generation)
      (hsequence ▸ hvalid.sequence) (hslot ▸ hring source hsource)).compile_ok plan

/-- The combine step of the sample wave. -/
def sampleCombineConfig : CombineV2Config :=
  { sessionId := 1, placementEpoch := 1, workerCount := 2, hidden := 1, ringSlots := 1 }

/-- The layout of the sample wave. -/
def sampleLayout : CompiledLayout :=
  (compileLayout sampleSources [0, 1] sampleLayoutConfig).toOption.getD {}

theorem compileLayout_sampleSources :
    compileLayout sampleSources [0, 1] sampleLayoutConfig = .ok sampleLayout := by
  unfold sampleLayout
  exact eq_ok_getD (by decide +kernel) _

/-- The two sources, with their plan. -/
theorem compileLayout_complete_sample :
    IndicesExact sampleLayoutConfig sampleLayout ∧
    (compileCombinePullPlan sampleLayout sampleCombineConfig (some {})).1 = .ok () := by
  obtain ⟨hexact, hplan⟩ := compileLayout_complete sampleSources_accepted (by decide) (by decide)
    compileLayout_sampleSources
  exact ⟨hexact, hplan sampleCombineConfig {} (by decide) rfl (by decide +kernel)⟩

end AscendShmem.PullV2
