import Mathlib
import AscendShmem.PullV2.LayoutTheorems
import AscendShmem.PullV2.SlotRoundTrip

/-!
# The layout under another arrival order

Two arrival orders of one wave route the same tokens. What the destinations give out, the
cell counts and the shape of the journal depend on the tokens only, so both runs end with
the same status and write the same journal; the rows of a destination are the same rows
under other numbers.
-/

namespace AscendShmem.PullV2

open Lib Lib.Exec

/-! ## The tokens of a wave -/

/-- A token's identity. -/
def RoutedToken.key (v : RoutedToken) : ℕ × ℕ := (v.rank.toNat, v.row.toNat)

/-- Reading a list by index, one entry after the other. -/
theorem flatMap_range_getElem? {α β : Type} (l : List α) (f : α → List β) :
    l.flatMap f = (List.range l.length).flatMap fun r => l[r]?.elim [] f := by
  induction l using List.reverseRecOn with
  | nil => rfl
  | append_singleton l a ih =>
    have hlast : (l ++ [a])[l.length]? = some a := by simp
    have hinit : ((List.range l.length).flatMap fun r => (l ++ [a])[r]?.elim [] f)
        = (List.range l.length).flatMap fun r => l[r]?.elim [] f := by
      refine List.flatMap_congr fun r hr => ?_
      rw [List.getElem?_append_left (List.mem_range.mp hr)]
    rw [List.flatMap_append, List.length_append, List.length_singleton, List.range_succ,
      List.flatMap_append, List.flatMap_singleton, List.flatMap_singleton, hlast, hinit, ih]
    rfl

theorem ownerOrder_eq (srcs : List ParsedSource) :
    ownerOrder srcs = (List.range srcs.length).flatMap (sourceTokens srcs) :=
  flatMap_range_getElem? srcs ParsedSource.routed

/-- Every arrival order visits the tokens of the wave. -/
theorem visits_perm (srcs : List ParsedSource) {order : List UInt32}
    (h : (order.map UInt32.toNat).Perm (List.range srcs.length)) :
    (visits srcs order).Perm (ownerOrder srcs) := by
  have hvisits : visits srcs order = (order.map UInt32.toNat).flatMap (sourceTokens srcs) := by
    rw [visits, List.flatMap_map]
  rw [hvisits, ownerOrder_eq]
  exact h.flatMap_right _

section Wave

variable {session : SessionConfig} {config : LayoutConfig} {sources srcs : List ParsedSource}
  {st : CollectState}

/-- The identities of the tokens of a rank. -/
theorem Collected.sourceTokens_keys (hc : Collected session config sources st srcs)
    (hvalid : ∀ source ∈ sources, SourceValid session source)
    (hlen : sources.length = config.workerCount.toNat) {r : ℕ}
    (hr : r < config.workerCount.toNat) :
    (sourceTokens srcs r).map RoutedToken.key
      = (List.range (sourceTokens srcs r).length).map fun k => (r, k) := by
  obtain ⟨source, -, -, hsv, hrank, htokens⟩ := hc.source hvalid hlen hr
  rw [htokens]
  apply List.ext_getElem?
  intro k
  rw [List.getElem?_map, List.getElem?_map]
  by_cases hk : k < source.tokens.length
  · have hget := List.getElem?_eq_getElem hk
    rw [List.getElem?_range (by simpa [ParsedSource.routed] using hk), ParsedSource.routed,
      List.getElem?_map, hget]
    show some (source.header.sourceRank.toNat, source.tokens[k].sourceToken.toNat) = some (r, k)
    rw [hrank, (hsv.csr.token k _ hget).sourceToken]
  · have hlen : source.routed.length = source.tokens.length := by simp [ParsedSource.routed]
    rw [List.getElem?_eq_none (by omega), List.getElem?_eq_none (by simp; omega)]
    rfl

/-- No two tokens of a wave have the same identity. -/
theorem Collected.ownerOrder_keys_nodup (hc : Collected session config sources st srcs)
    (hvalid : ∀ source ∈ sources, SourceValid session source)
    (hlen : sources.length = config.workerCount.toNat) :
    ((ownerOrder srcs).map RoutedToken.key).Nodup := by
  have hsize : srcs.length = config.workerCount.toNat := hc.perm.length_eq.trans hlen
  rw [ownerOrder_eq, List.map_flatMap, List.nodup_flatMap]
  constructor
  · intro r hr
    rw [hc.sourceTokens_keys hvalid hlen (hsize ▸ List.mem_range.mp hr)]
    exact List.nodup_range.map fun a b h => (Prod.mk.inj h).2
  · refine List.nodup_range.imp_of_mem fun {r s} hr hs hne => ?_
    simp only [Function.onFun]
    rw [hc.sourceTokens_keys hvalid hlen (hsize ▸ List.mem_range.mp hr),
      hc.sourceTokens_keys hvalid hlen (hsize ▸ List.mem_range.mp hs)]
    rw [List.disjoint_left]
    intro x hx hy
    obtain ⟨i, -, rfl⟩ := List.mem_map.mp hx
    obtain ⟨j, -, h⟩ := List.mem_map.mp hy
    exact hne (Prod.mk.inj h).1.symm

end Wave

/-- With distinct identities every token keeps the contributors it got on arrival. -/
theorem contributorsOf_of_nodup {workers : ℕ} {vs pre post : List RoutedToken} {v : RoutedToken}
    (hnodup : (vs.map RoutedToken.key).Nodup) (hsplit : vs = pre ++ v :: post) :
    contributorsOf workers vs v.rank.toNat v.row.toNat = contributorsFor workers pre v := by
  subst hsplit
  refine contributorsOf_eq fun w hw hkey => ?_
  rw [List.map_append, List.map_cons, List.nodup_middle, List.nodup_cons] at hnodup
  apply hnodup.1
  rw [← List.map_append]
  have heq : w.key = v.key := Prod.ext hkey.1 hkey.2
  exact heq ▸ List.mem_map_of_mem hw

/-! ## What does not depend on the order -/

/-- Destination and number of assignments of a token's contributors. -/
def destinationsOf (workers : ℕ) (v : RoutedToken) : List (UInt32 × UInt32) :=
  (List.range workers).flatMap fun d =>
    if v.group d = [] then [] else [(UInt32.ofNat d, UInt32.ofNat (v.group d).length)]

/-- What of a contributor does not depend on the order. -/
def contributorView (c : JournalContributor) : UInt32 × UInt32 := (c.workerRank, c.assignmentCount)

/-- The contributors of a token are its destinations, in every order of placing. -/
theorem contributorsFor_view (workers : ℕ) (pre : List RoutedToken) (v : RoutedToken) :
    (contributorsFor workers pre v).map contributorView = destinationsOf workers v := by
  rw [contributorsFor, List.map_flatMap, destinationsOf]
  refine List.flatMap_congr fun d _ => ?_
  unfold contributorAt
  split <;> rfl

/-- The contributors of the tokens of a wave, seen without their rows. -/
theorem contributorsOf_view {workers : ℕ} {vs : List RoutedToken}
    (hnodup : (vs.map RoutedToken.key).Nodup) {v : RoutedToken} (hv : v ∈ vs) :
    (contributorsOf workers vs v.rank.toNat v.row.toNat).map contributorView
      = destinationsOf workers v := by
  obtain ⟨pre, post, hsplit⟩ := List.append_of_mem hv
  rw [contributorsOf_of_nodup hnodup hsplit, contributorsFor_view]

/-- The journal's entries only depend on how many contributors the tokens have. -/
theorem journalOf_tokens_congr {C C' : ℕ → ℕ → List JournalContributor} (cookie : UInt64)
    {vs : List RoutedToken}
    (h : ∀ v ∈ vs, (C v.rank.toNat v.row.toNat).length = (C' v.rank.toNat v.row.toNat).length) :
    (journalOf C cookie vs).tokens = (journalOf C' cookie vs).tokens := by
  have hsize : ∀ v ∈ vs, journalNeed C v = journalNeed C' v := fun v hv => by
    rw [journalNeed, journalNeed, h v hv]
  simp only [journalOf]
  rw [emit, emit, alloc_congr 0 hsize]
  refine List.flatMap_congr fun p hp => ?_
  have hmem : p.2 ∈ vs := by
    rw [← map_snd_alloc (journalNeed C') 0 vs]
    exact List.mem_map_of_mem hp
  rw [h p.2 hmem]

/-- What a destination has given out is at most what the tokens hold. -/
theorem taken_snd_le (d : ℕ) (vs : List RoutedToken) :
    (taken d vs).2 ≤ (vs.flatMap RoutedToken.assignments).length := by
  induction vs with
  | nil => simp
  | cons v vs ih =>
    have hsplit := taken_cons d v vs
    have hgroup := length_group_le v d
    rw [hsplit, Prod.snd_add, need_snd, List.flatMap_cons, List.length_append]
    omega

/-- There are no more rows than assignments. -/
theorem taken_fst_le (d : ℕ) (vs : List RoutedToken) : (taken d vs).1 ≤ (taken d vs).2 := by
  induction vs with
  | nil => simp
  | cons v vs ih =>
    have hsplit := taken_cons d v vs
    have hneed := need_fst_le d v
    rw [hsplit, Prod.snd_add, Prod.fst_add]
    omega

/-! ## Rows and their assignments -/

/-- What of an assignment goes into the expert storage, its expert row apart. -/
def assignmentView (a : AssignmentRecord) : UInt32 × UInt32 × UInt32 :=
  (a.expertId, a.ordinal, a.weight)

/-- The part of an expert assignment that no arrival order changes. -/
def expertView (x : ExpertAssignment) : UInt32 × UInt32 × UInt32 := (x.expertId, x.ordinal, x.weight)

theorem map_expertView_expertsAt (e d : ℕ) (b : (ℕ × ℕ) × (ℕ → ℕ)) (v : RoutedToken) :
    (expertsAt e d b v).map expertView = (v.group d).map assignmentView := by
  rw [expertsAt, List.map_map]
  have h : expertView ∘ (fun p : (ℕ → ℕ) × AssignmentRecord =>
      expertEntry b.1.1 (p.1 (cell e d p.2)) p.2) = assignmentView ∘ Prod.snd := rfl
  rw [h, ← List.map_map, map_snd_alloc]

/-- The range a token's row names holds the token's own entries. -/
theorem expertsOf_range (e workers d : ℕ) (pre post : List RoutedToken) (v : RoutedToken) :
    ((expertsOf e workers d (pre ++ v :: post)).drop (taken d pre).2).take (v.group d).length
      = expertsAt e d (taken d pre, total (cellsBelow e workers) pre) v := by
  have h := take_drop_emit (expertsAt e d) (fun v => (need d v, cellsBelow e workers v))
    ((AddMonoidHom.snd ℕ ℕ).comp (AddMonoidHom.fst (ℕ × ℕ) (ℕ → ℕ)))
    (fun b v => length_expertsAt e d b v) 0 pre post v
  rw [total_needCells, zero_add] at h
  rw [← need_snd]
  exact h

/-- A destination row without its number, with the assignments of its range. -/
structure RowView where
  routeKey : UInt64
  tokenId : UInt64
  sourceRank : UInt32
  sourceToken : UInt32
  assignmentsCount : UInt32
  assignments : List (UInt32 × UInt32 × UInt32)
deriving DecidableEq, Repr

/-- The expert entries of a row. -/
def rowExperts (experts : List ExpertAssignment) (row : DestinationRow) : List ExpertAssignment :=
  (experts.drop row.assignmentsBegin.toNat).take row.assignmentsCount.toNat

/-- The part of a row that no arrival order changes. -/
def rowView (experts : List ExpertAssignment) (row : DestinationRow) : RowView :=
  ⟨row.routeKey, row.tokenId, row.sourceRank, row.sourceToken, row.assignmentsCount,
    (rowExperts experts row).map expertView⟩

/-- The rows of destination `d`, seen without their numbers. -/
def CompiledLayout.rowViews (layout : CompiledLayout) (d : ℕ) : List RowView :=
  (layout.destinationRows.getD d []).map (rowView (layout.expertAssignments.getD d []))

/-- The row of a token at destination `d`. -/
def tokenView (d : ℕ) (v : RoutedToken) : List RowView :=
  if v.group d = [] then []
  else [⟨routeKey v.rank v.row, v.tokenId, v.rank, v.row, UInt32.ofNat (v.group d).length,
    (v.group d).map assignmentView⟩]

/-- Reading every item of an allocation by itself. -/
theorem flatMap_alloc_snd {M α β : Type*} [AddMonoid M] (size : α → M) (base : M) (l : List α)
    (f : α → List β) : ((alloc size base l).flatMap fun p => f p.2) = l.flatMap f := by
  conv_rhs => rw [← map_snd_alloc size base l]
  rw [List.flatMap_map]

/-- The row a token gets names the token's own assignments, as long as the range it names is
not truncated. -/
theorem rowExperts_rowAt {e workers d : ℕ} {pre post : List RoutedToken} {v : RoutedToken}
    (hsize : ((pre ++ v :: post).flatMap RoutedToken.assignments).length < 2 ^ 32)
    {row : DestinationRow} (hrow : row ∈ rowAt d (taken d pre) v) :
    rowExperts (expertsOf e workers d (pre ++ v :: post)) row
      = expertsAt e d (taken d pre, total (cellsBelow e workers) pre) v := by
  have hpre := taken_snd_le d pre
  have hgroup := length_group_le v d
  rw [List.flatMap_append, List.flatMap_cons, List.length_append, List.length_append] at hsize
  unfold rowAt at hrow
  split at hrow
  · simp at hrow
  · rw [List.mem_singleton.mp hrow]
    have h1 : (UInt32.ofNat (taken d pre).2).toNat = (taken d pre).2 := by
      rw [UInt32.toNat_ofNat', Nat.mod_eq_of_lt (by omega)]
    have h2 : (UInt32.ofNat (v.group d).length).toNat = (v.group d).length := by
      rw [UInt32.toNat_ofNat', Nat.mod_eq_of_lt (by omega)]
    rw [rowExperts, h1, h2]
    exact expertsOf_range e workers d pre post v

/-- The rows of a destination are the rows of the tokens, in the order the tokens came. -/
theorem map_rowView_rowsOf {e workers d : ℕ} {vs : List RoutedToken}
    (hsize : (vs.flatMap RoutedToken.assignments).length < 2 ^ 32) :
    (rowsOf d vs).map (rowView (expertsOf e workers d vs)) = vs.flatMap (tokenView d) := by
  rw [rowsOf, map_emit, emit, ← flatMap_alloc_snd (need d) 0 vs (tokenView d)]
  refine List.flatMap_congr fun p hp => ?_
  obtain ⟨pre, post, hsplit, hb⟩ := mem_alloc.mp hp
  have hbase : p.1 = taken d pre := hb.trans (zero_add _)
  have hexperts : ∀ row ∈ rowAt d (taken d pre) p.2, rowExperts (expertsOf e workers d vs) row
      = expertsAt e d (taken d pre, total (cellsBelow e workers) pre) p.2 := by
    intro row hrow
    rw [hsplit] at hsize ⊢
    exact rowExperts_rowAt hsize hrow
  rw [hbase]
  unfold rowAt tokenView at *
  by_cases hgroup : p.2.group d = []
  · rw [if_pos hgroup, if_pos hgroup]
    rfl
  · rw [if_neg hgroup] at hexperts ⊢
    rw [if_neg hgroup, List.map_singleton, rowView, hexperts _ (List.mem_singleton_self _),
      map_expertView_expertsAt]

/-! ## Two runs -/

/-- Two layouts of one wave. -/
structure LayoutsAgree (a b : CompiledLayout) : Prop where
  journalHeader : a.journalHeader = b.journalHeader
  journalTokens : a.journalTokens = b.journalTokens
  journalAssignments : a.journalAssignments = b.journalAssignments
  expertCounts : a.expertCounts = b.expertCounts
  contributors : a.contributors.map contributorView = b.contributors.map contributorView
  destinations : a.destinationRows.length = b.destinationRows.length
  rows : ∀ d, (a.rowViews d).Perm (b.rowViews d)

/-- Layouts of two orders agree up to the places of rows. -/
theorem layoutOf_agree {config : LayoutConfig} {st : CollectState} {srcs : List ParsedSource}
    {vs ws : List RoutedToken} {uniform : Bool} (hvs : vs.Perm (ownerOrder srcs))
    (hws : ws.Perm (ownerOrder srcs))
    (hnodup : ((ownerOrder srcs).map RoutedToken.key).Nodup)
    (hsize : ((ownerOrder srcs).flatMap RoutedToken.assignments).length < 2 ^ 32) :
    LayoutsAgree (layoutOf config st srcs vs uniform) (layoutOf config st srcs ws uniform) := by
  have hvn : (vs.map RoutedToken.key).Nodup := (hvs.map _).nodup_iff.mpr hnodup
  have hwn : (ws.map RoutedToken.key).Nodup := (hws.map _).nodup_iff.mpr hnodup
  -- a token has the same contributors in both orders, up to their rows
  have hview : ∀ v ∈ ownerOrder srcs,
      (contributorsOf config.workerCount.toNat vs v.rank.toNat v.row.toNat).map contributorView
        = (contributorsOf config.workerCount.toNat ws v.rank.toNat v.row.toNat).map
          contributorView := fun v hv => by
    rw [contributorsOf_view hvn (hvs.mem_iff.mpr hv), contributorsOf_view hwn (hws.mem_iff.mpr hv)]
  have hcontributors : ((layoutOf config st srcs vs uniform).contributors).map contributorView
      = ((layoutOf config st srcs ws uniform).contributors).map contributorView := by
    show ((ownerOrder srcs).flatMap _).map _ = ((ownerOrder srcs).flatMap _).map _
    rw [List.map_flatMap, List.map_flatMap]
    exact List.flatMap_congr hview
  have hlen := congrArg List.length hcontributors
  rw [List.length_map, List.length_map] at hlen
  -- the journal only counts contributors, in the order of the owners
  have htokens : (layoutOf config st srcs vs uniform).journalTokens
      = (layoutOf config st srcs ws uniform).journalTokens := by
    refine journalOf_tokens_congr (cookieOf srcs) fun v hv => ?_
    have h := congrArg List.length (hview v hv)
    rwa [List.length_map, List.length_map] at h
  refine ⟨?_, htokens, rfl, ?_, hcontributors, ?_, ?_⟩
  · have h1 := congrArg List.length htokens
    simp only [layoutOf] at h1 hlen ⊢
    simp only [sealedHeader, h1, hlen]
    rfl
  · simp only [layoutOf]
    rw [total_perm _ (hvs.trans hws.symm)]
  · simp [layoutOf]
  · intro d
    simp only [CompiledLayout.rowViews, layoutOf]
    -- the views leave the places out, so they are permuted as the tokens are
    by_cases hd : d < config.workerCount.toNat
    · have hsv : (vs.flatMap RoutedToken.assignments).length < 2 ^ 32 := by
        rwa [(hvs.flatMap_right _).length_eq]
      have hsw : (ws.flatMap RoutedToken.assignments).length < 2 ^ 32 := by
        rwa [(hws.flatMap_right _).length_eq]
      simp only [List.getD_eq_getElem?_getD, getElem?_tableOf hd, Option.getD_some]
      rw [map_rowView_rowsOf hsv, map_rowView_rowsOf hsw]
      exact (hvs.trans hws.symm).flatMap_right _
    · have hnone : ∀ {α : Type} (f : ℕ → List α),
          (tableOf config.workerCount.toNat f).getD d [] = [] := fun f => by
        rw [List.getD_eq_getElem?_getD, List.getElem?_eq_none (by simp; omega)]
        rfl
      simp only [hnone]
      exact List.Perm.nil

/-- A wave's routing does not exceed 32-bit indices in one order only. -/
theorem journalFits_perm (workers : ℕ) {vs ws owner : List RoutedToken}
    (hvs : vs.Perm owner) (hws : ws.Perm owner) (hnodup : (owner.map RoutedToken.key).Nodup) :
    JournalFits (contributorsOf workers vs) owner ↔ JournalFits (contributorsOf workers ws) owner := by
  have hview : ∀ us : List RoutedToken, us.Perm owner →
      (owner.flatMap fun v => contributorsOf workers us v.rank.toNat v.row.toNat).length
        = (owner.flatMap (destinationsOf workers)).length := by
    intro us hus
    have hun : (us.map RoutedToken.key).Nodup := (hus.map _).nodup_iff.mpr hnodup
    rw [← List.length_map (f := contributorView), List.map_flatMap]
    congr 1
    exact List.flatMap_congr fun v hv => contributorsOf_view hun (hus.mem_iff.mpr hv)
  unfold JournalFits
  rw [hview vs hvs, hview ws hws]

/-- The status of a run on a collected wave, faults aside, and its layout. -/
theorem compileLayout_collected {session : SessionConfig} {config : LayoutConfig}
    {sources srcs : List ParsedSource} {st : CollectState} {A B : List UInt32}
    (hvalid : ∀ source ∈ sources, SourceValid session source)
    (hinputA : layoutInputValid sources A config) (hinputB : layoutInputValid sources B config)
    (hA : (A.map UInt32.toNat).Perm (List.range config.workerCount.toNat))
    (hB : (B.map UInt32.toNat).Perm (List.range config.workerCount.toNat))
    (hcollect : collectRun config sources = .ok st)
    (hc : Collected session config sources st srcs)
    (hfaultA : (compileLayout sources A config).statusOf .ok ≠ none)
    (hfaultB : (compileLayout sources B config).statusOf .ok ≠ none) :
    (compileLayout sources A config).statusOf .ok = (compileLayout sources B config).statusOf .ok ∧
      ∀ a b, compileLayout sources A config = .ok a → compileLayout sources B config = .ok b →
        LayoutsAgree a b := by
  have hlen : sources.length = config.workerCount.toNat := hinputA.2.2.2.2.2.1
  have hsize : srcs.length = config.workerCount.toNat := hc.perm.length_eq.trans hlen
  have hpA := visits_perm srcs (hsize.symm ▸ hA)
  have hpB := visits_perm srcs (hsize.symm ▸ hB)
  have hnodup := hc.ownerOrder_keys_nodup hvalid hlen
  -- neither bound on the wave sees the order of the tokens
  have hfits := fits_perm config (hpA.trans hpB.symm)
  have hjournal := journalFits_perm config.workerCount.toNat hpA hpB hnodup
  have hendA := compileLayout_ends hvalid hinputA hA hcollect hc
  have hendB := compileLayout_ends hvalid hinputB hB hcollect hc
  generalize compileLayout sources A config = x at *
  generalize compileLayout sources B config = y at *
  match x, y with
  | .error .outOfRange, _ => exact absurd rfl hfaultA
  | .error .outOfFuel, _ => exact absurd rfl hfaultA
  | _, .error .outOfRange => exact absurd rfl hfaultB
  | _, .error .outOfFuel => exact absurd rfl hfaultB
  | .ok a, .ok b =>
    refine ⟨rfl, fun a' b' ha hb => ?_⟩
    cases ha
    cases hb
    obtain ⟨-, hjA, uniform, hu, rfl⟩ := ends_ok.mp hendA
    obtain ⟨-, -, uniform', hu', rfl⟩ := ends_ok.mp hendB
    rw [hu] at hu'
    cases hu'
    exact layoutOf_agree hpA hpB hnodup (Nat.lt_succ_of_le hjA.2.2)
  -- the runs cannot end differently
  | .ok a, .error (.fail s m) =>
    obtain ⟨hfA, hjA, -⟩ := ends_ok.mp hendA
    rcases ends_fail.mp hendB with ⟨-, hn⟩ | ⟨-, -, hn⟩
    · exact absurd (hfits.mp hfA) hn
    · exact absurd (hjournal.mp hjA) hn
  | .error (.fail s m), .ok b =>
    obtain ⟨hfB, hjB, -⟩ := ends_ok.mp hendB
    rcases ends_fail.mp hendA with ⟨-, hn⟩ | ⟨-, -, hn⟩
    · exact absurd (hfits.mpr hfB) hn
    · exact absurd (hjournal.mpr hjB) hn
  | .error (.fail s m), .error (.fail t n) =>
    refine ⟨?_, fun a b ha => by cases ha⟩
    rcases ends_fail.mp hendA with ⟨rfl, hn⟩ | ⟨rfl, hf, -⟩ <;>
      rcases ends_fail.mp hendB with ⟨rfl, hn'⟩ | ⟨rfl, hf', -⟩
    · rfl
    · exact absurd (hfits.mpr hf') hn
    · exact absurd (hfits.mp hf) hn'
    · rfl

/-- A wave that cannot be collected stops the compiler whatever the order. -/
theorem compileLayout_of_collect_error {config : LayoutConfig} {sources : List ParsedSource}
    {order : List UInt32} {e : Stop Status} (hinput : layoutInputValid sources order config)
    (hcollect : collectRun config sources = .error e) :
    compileLayout sources order config = .error e := by
  unfold collectRun at hcollect
  unfold compileLayout
  rw [require_of ⟨rfl, hinput⟩, ok_bind]
  simp only [hcollect, error_bind]

/-- Every assignment of a wave is counted inside the table of the layout. -/
def Counted (config : LayoutConfig) (sources : List ParsedSource) : Prop :=
  ∀ source ∈ sources, ∀ v ∈ source.routed,
    CellsInside config.expertCount.toNat config.workerCount.toNat v

/-- A layout with a counter for every expert of the session counts its waves. -/
theorem counted_of_session {session : SessionConfig} {config : LayoutConfig}
    {sources : List ParsedSource} (hvalid : ∀ source ∈ sources, SourceValid session source)
    (hexperts : session.expertCount ≤ config.expertCount) : Counted config sources := by
  intro source hsource v hv
  obtain ⟨record, hrecord, rfl⟩ := List.mem_map.mp hv
  obtain ⟨k, hk⟩ := List.mem_iff_getElem?.mp hrecord
  refine ExpertsBelow.cellsInside (fun a ha => ?_) _
  have hlt := (((hvalid source hsource).csr.token k record hk).assignments.1 a ha).2.1
  exact lt_of_lt_of_le (UInt32.lt_iff_toNat_lt.mp hlt) (UInt32.le_iff_toNat_le.mp hexperts)

/-- A run whose assignments are all counted inside the table does not fault. -/
theorem compileLayout_no_fault {session : SessionConfig} {config : LayoutConfig}
    {sources : List ParsedSource} {order : List UInt32}
    (hvalid : ∀ source ∈ sources, SourceValid session source)
    (horder : (order.map UInt32.toNat).Perm (List.range config.workerCount.toNat))
    (hcounted : Counted config sources) :
    (compileLayout sources order config).statusOf .ok ≠ none := by
  have hrun : Ends (compileLayout sources order config) (fun _ => True) (fun _ => True) False := by
    by_cases hinput : layoutInputValid sources order config
    · have hlen : sources.length = config.workerCount.toNat := hinput.2.2.2.2.2.1
      have htwo : 2 ≤ config.workerCount.toNat := UInt32.le_iff_toNat_le.mp hinput.1
      have hends := collectRun_ends hvalid hlen htwo
      rcases hcollect : collectRun config sources with e | st
      · rw [hcollect] at hends
        rw [compileLayout_of_collect_error hinput hcollect]
        exact (hends.mono (fun _ _ => trivial) (fun _ h => h) id).of_error
      · obtain ⟨srcs, hc⟩ := hends.of_ok hcollect
        have hsize : srcs.length = config.workerCount.toNat := hc.perm.length_eq.trans hlen
        refine (compileLayout_ends hvalid hinput horder hcollect hc).mono (fun _ _ => trivial)
          (fun _ _ => trivial) fun hn => hn fun v hv => ?_
        -- a token of the wave comes from one of the sources
        have hvo := (visits_perm srcs (hsize.symm ▸ horder)).mem_iff.mp hv
        obtain ⟨source, hsource, hvs⟩ := List.mem_flatMap.mp hvo
        exact hcounted source (hc.perm.mem_iff.mp hsource) v hvs
    · unfold compileLayout
      rw [require_of_not fun h => hinput h.2]
      exact trivial
  exact hrun.statusOf_ne_none .ok

/-- Two arrival orders of accepted sources whose assignments are counted inside the table give the
same status, and layouts that only differ in how the rows of a destination are numbered. -/
theorem compileLayout_arrival_independent {session : SessionConfig} {config : LayoutConfig}
    {sources : List ParsedSource} {A B : List UInt32}
    (haccepted : ∀ source ∈ sources, Accepted session source)
    (hA : (A.map UInt32.toNat).Perm (List.range config.workerCount.toNat))
    (hB : (B.map UInt32.toNat).Perm (List.range config.workerCount.toNat))
    (hcounted : Counted config sources) :
    (compileLayout sources A config).statusOf .ok ≠ none ∧
    (compileLayout sources A config).statusOf .ok
        = (compileLayout sources B config).statusOf .ok ∧
      ∀ a b, compileLayout sources A config = .ok a → compileLayout sources B config = .ok b →
        LayoutsAgree a b := by
  have hvalid : ∀ source ∈ sources, SourceValid session source := fun source h =>
    (haccepted source h).valid
  have hfaultA := compileLayout_no_fault hvalid hA hcounted
  have hfaultB := compileLayout_no_fault hvalid hB hcounted
  apply And.intro hfaultA
  have hlenA : A.length = config.workerCount.toNat := by simpa using hA.length_eq
  have hlenB : B.length = config.workerCount.toNat := by simpa using hB.length_eq
  have hinputs : layoutInputValid sources A config ↔ layoutInputValid sources B config := by
    unfold layoutInputValid
    rw [hlenA, hlenB]
  by_cases hinput : layoutInputValid sources A config
  · have hlen : sources.length = config.workerCount.toNat := hinput.2.2.2.2.2.1
    have htwo : 2 ≤ config.workerCount.toNat := UInt32.le_iff_toNat_le.mp hinput.1
    rcases hcollect : collectRun config sources with e | st
    · rw [compileLayout_of_collect_error hinput hcollect,
        compileLayout_of_collect_error (hinputs.mp hinput) hcollect]
      exact ⟨rfl, fun a b ha => by cases ha⟩
    · obtain ⟨srcs, hc⟩ := (collectRun_ends hvalid hlen htwo).of_ok hcollect
      exact compileLayout_collected hvalid hinput (hinputs.mp hinput) hA hB hcollect hc hfaultA
        hfaultB
  · have hstop : ∀ order, ¬ layoutInputValid sources order config →
        compileLayout sources order config
          = .error (.fail .invalidArgument "invalid layout input") := by
      intro order hn
      unfold compileLayout
      rw [require_of_not fun h => hn h.2]
      rfl
    rw [hstop A hinput, hstop B fun h => hinput (hinputs.mpr h)]
    exact ⟨rfl, fun a b ha => by cases ha⟩

/-- A second source beside `sampleInput`: one token at both workers, one without assignments. -/
def sampleInput₁ : SourceInput where
  session := sampleInput.session
  generation := 1
  sequence := 1
  sourceRank := 1
  sourceRegionId := 1
  tokenIds := [8, 9]
  assignmentOffsets := [0, 2, 2]
  assignments := [{ destinationRank := 1, expertId := 1 }, { ordinal := 1 }]
  hiddenPayload := [3, 4, 5, 6]

/-- The parser run on the slot the encoder writes. -/
def parseSample (input : SourceInput) : Exec Status ParsedSource :=
  let built := (buildSlot input).toOption.getD ([], {}, {})
  parseReadyAndSlot { sampleRegistration with sourceRank := input.sourceRank } input.session
    built.2.2 (some built.1) 320

/-- What the parser makes of that slot. -/
def parsedInput (input : SourceInput) : ParsedSource :=
  (parseSample input).toOption.getD {}

/-- Two sources with a token each. -/
def sampleSources : List ParsedSource := [parsedInput sampleInput, parsedInput sampleInput₁]

/-- Two workers and two experts. -/
def sampleLayoutConfig : LayoutConfig := ⟨2, 2, 4, 4⟩

theorem parsedInput_accepted (input : SourceInput) (h : (parseSample input).isOk) :
    Accepted input.session (parsedInput input) := ⟨_, _, _, _, eq_ok_getD h {}⟩

theorem sampleSources_accepted : ∀ source ∈ sampleSources, Accepted sampleInput.session source :=
  List.forall_mem_cons.mpr ⟨parsedInput_accepted sampleInput (by decide +kernel),
    List.forall_mem_singleton.mpr (parsedInput_accepted sampleInput₁ (by decide +kernel))⟩

/-- The two sources in both orders. -/
theorem compileLayout_arrival_independent_sample :
    (compileLayout sampleSources [0, 1] sampleLayoutConfig).statusOf .ok ≠ none ∧
    (compileLayout sampleSources [0, 1] sampleLayoutConfig).statusOf .ok
        = (compileLayout sampleSources [1, 0] sampleLayoutConfig).statusOf .ok ∧
      ∀ a b, compileLayout sampleSources [0, 1] sampleLayoutConfig = .ok a →
        compileLayout sampleSources [1, 0] sampleLayoutConfig = .ok b → LayoutsAgree a b :=
  compileLayout_arrival_independent sampleSources_accepted (by decide) (by decide)
    (counted_of_session (fun source h => (sampleSources_accepted source h).valid) (by decide))

/-- With one counter a destination, the assignment to expert 1 of worker 1 is counted behind the
table. In the order 0, 1 the row capacity stops the compiler in front of it. -/
theorem compileLayout_uncounted : ¬ ∀ (session : SessionConfig) (config : LayoutConfig)
    (sources : List ParsedSource) (A B : List UInt32),
    (∀ source ∈ sources, Accepted session source) →
    (A.map UInt32.toNat).Perm (List.range config.workerCount.toNat) →
    (B.map UInt32.toNat).Perm (List.range config.workerCount.toNat) →
    (compileLayout sources A config).statusOf .ok
      = (compileLayout sources B config).statusOf .ok := by
  intro h
  have hsame := h sampleInput.session ⟨2, 1, 1, 4⟩ sampleSources [0, 1] [1, 0]
    sampleSources_accepted (by decide) (by decide)
  have hcapacity : (compileLayout sampleSources [0, 1] ⟨2, 1, 1, 4⟩).statusOf .ok
      = some .capacityExceeded := by decide +kernel
  have hfault : (compileLayout sampleSources [1, 0] ⟨2, 1, 1, 4⟩).statusOf .ok = none := by
    decide +kernel
  rw [hcapacity, hfault] at hsame
  cases hsame

/-- In the sample wave the two orders do number the rows of worker 1 differently. -/
example : (compileLayout sampleSources [0, 1] sampleLayoutConfig).toOption.map (·.destinationRows)
    ≠ (compileLayout sampleSources [1, 0] sampleLayoutConfig).toOption.map (·.destinationRows) := by
  decide +kernel

end AscendShmem.PullV2
