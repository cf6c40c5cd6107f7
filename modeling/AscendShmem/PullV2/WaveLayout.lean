import Mathlib
import AscendShmem.PullV2.ArrivalOrder
import AscendShmem.PullV2.FaithfulPlan

/-!
# The layout of a wave is admissible

What the layout compiler returns has closed form `layoutOf`, and `RoutedWave` collects what that
form is made of: the tokens in owner order and in the order they came, with 32-bit totals. From
it, no index the layout stores is truncated (`IndicesExact`), the contributors of a token name the
rows it got, the contributors are the rows of all destinations, and so the plan compiler accepts
the layout.
-/

namespace AscendShmem.PullV2

open Lib Lib.Exec

/-- The tokens `vs` are those of the sources `srcs` in some order, and their journal fits its
indices. -/
structure RoutedWave (workers : ℕ) (srcs : List ParsedSource) (vs : List RoutedToken) : Prop where
  workers_le : workers ≤ 128
  perm : vs.Perm (ownerOrder srcs)
  keys : (ownerOrder srcs).map RoutedToken.key
    = grid workers fun r => (sourceTokens srcs r).length
  destinations : ∀ v ∈ ownerOrder srcs, ∀ a ∈ v.assignments, a.destinationRank.toNat < workers
  fits : JournalFits (contributorsOf workers vs) (ownerOrder srcs)

section Collected

variable {session : SessionConfig} {config : LayoutConfig} {sources srcs : List ParsedSource}
  {st : CollectState} {order : List UInt32}

/-- The keys in owner order are a grid. -/
theorem Collected.ownerOrder_keys (hc : Collected session config sources st srcs)
    (hvalid : ∀ source ∈ sources, SourceValid session source)
    (hlen : sources.length = config.workerCount.toNat) :
    (ownerOrder srcs).map RoutedToken.key
      = grid config.workerCount.toNat fun r => (sourceTokens srcs r).length := by
  have hsize : srcs.length = config.workerCount.toNat := hc.perm.length_eq.trans hlen
  rw [ownerOrder_eq, List.map_flatMap, hsize, grid]
  exact List.flatMap_congr fun r hr => hc.sourceTokens_keys hvalid hlen (List.mem_range.mp hr)

/-- A token of a wave is a token of one of its sources. -/
theorem Collected.mem_ownerOrder (hc : Collected session config sources st srcs)
    {v : RoutedToken} (hv : v ∈ ownerOrder srcs) :
    ∃ source ∈ sources, ∃ (k : ℕ) (record : TokenRecord), source.tokens[k]? = some record ∧
      v = source.routedToken record := by
  obtain ⟨source, hsource, hvs⟩ := List.mem_flatMap.mp hv
  obtain ⟨record, hrecord, rfl⟩ := List.mem_map.mp hvs
  obtain ⟨k, hk⟩ := List.mem_iff_getElem?.mp hrecord
  exact ⟨source, hc.perm.mem_iff.mp hsource, k, record, hk, rfl⟩

/-- The sources collected are a wave. -/
theorem Collected.routedWave (hc : Collected session config sources st srcs)
    (hvalid : ∀ source ∈ sources, SourceValid session source)
    (hinput : layoutInputValid sources order config)
    (horder : (order.map UInt32.toNat).Perm (List.range config.workerCount.toNat))
    (hfits : JournalFits (contributorsOf config.workerCount.toNat (visits srcs order))
      (ownerOrder srcs)) :
    RoutedWave config.workerCount.toNat srcs (visits srcs order) := by
  have hlen : sources.length = config.workerCount.toNat := hinput.2.2.2.2.2.1
  have hsize : srcs.length = config.workerCount.toNat := hc.perm.length_eq.trans hlen
  refine ⟨UInt32.le_iff_toNat_le.mp hinput.2.1, visits_perm srcs (hsize.symm ▸ horder),
    hc.ownerOrder_keys hvalid hlen, ?_, hfits⟩
  intro v hv a ha
  obtain ⟨source, hsource, k, record, hk, rfl⟩ := hc.mem_ownerOrder hv
  have hdest := (((hvalid source hsource).csr.token k record hk).assignments.1 a ha).1
  rw [hc.workerCount] at hdest
  exact UInt32.lt_iff_toNat_lt.mp hdest

end Collected

/-- A word that holds a number of rows or assignments holds it exactly. -/
theorem toNat_ofNat_of_le {n : ℕ} (h : n ≤ 0xffffffff) : (UInt32.ofNat n).toNat = n := by
  rw [UInt32.toNat_ofNat', Nat.mod_eq_of_lt (by omega)]

/-- What a token finds taken when it comes, and what it takes. -/
theorem taken_split_le {pre post vs : List RoutedToken} {v : RoutedToken}
    (hsplit : vs = pre ++ v :: post) (d : ℕ) :
    (taken d pre).1 + (need d v).1 ≤ (taken d vs).1 ∧
      (taken d pre).2 + (need d v).2 ≤ (taken d vs).2 := by
  rw [hsplit, ← List.singleton_append, ← List.append_assoc, taken_append, taken_concat,
    Prod.fst_add, Prod.snd_add, Prod.fst_add, Prod.snd_add]
  omega

/-! ## The journal entries -/

section Journal

variable (C : ℕ → ℕ → List JournalContributor) (cookie : UInt64)

/-- The journal of a prefix of the tokens is a prefix of the journal. -/
theorem take_journalOf_tokens (us : List RoutedToken) (t : ℕ) :
    (journalOf C cookie us).tokens.take t = (journalOf C cookie (us.take t)).tokens := by
  rcases le_or_gt t us.length with ht | ht
  · have hlen : (journalOf C cookie (us.take t)).tokens.length = t := by
      rw [length_journalOf_tokens, List.length_take]
      omega
    conv_lhs => rw [← List.take_append_drop t us]
    simp only [journalOf] at hlen ⊢
    rw [emit_append]
    exact List.take_left' hlen
  · rw [List.take_of_length_le (by rw [length_journalOf_tokens]; omega),
      List.take_of_length_le (by omega)]

/-- The entry of the token at position `t`. -/
theorem getElem?_journalOf_tokens {us : List RoutedToken} {t : ℕ} {v : RoutedToken}
    (hv : us[t]? = some v) :
    (journalOf C cookie us).tokens[t]? = some (entryAt
      (t, ((us.take t).flatMap fun v => C v.rank.toNat v.row.toNat).length,
        ((us.take t).flatMap RoutedToken.assignments).length)
      (C v.rank.toNat v.row.toNat).length v) := by
  obtain ⟨htake, hsplit⟩ := take_succ_of_getElem? hv
  have ht := (List.getElem?_eq_some_iff.mp hv).1
  have h := take_journalOf_tokens C cookie us (t + 1)
  rw [htake, journalOf_concat, List.length_take, Nat.min_eq_left (by omega)] at h
  have hlen : (journalOf C cookie (us.take t)).tokens.length = t := by
    rw [length_journalOf_tokens, List.length_take]
    omega
  rw [← List.getElem?_take_of_lt (Nat.lt_succ_self t), h, List.getElem?_append_right (by omega),
    hlen, Nat.sub_self]
  rfl

theorem JournalFits.take {C : ℕ → ℕ → List JournalContributor} {us : List RoutedToken}
    (h : JournalFits C us) (t : ℕ) :
    JournalFits C (us.take t) := by
  rw [← List.take_append_drop t us] at h
  exact h.append_left

/-- Without truncation the entries' counts add up to the contributors. -/
theorem contributorTotal_journalOf {us : List RoutedToken} (h : JournalFits C us) :
    contributorTotal (journalOf C cookie us).tokens
      = (us.flatMap fun v => C v.rank.toNat v.row.toNat).length := by
  induction us using List.reverseRecOn with
  | nil => rfl
  | append_singleton us v ih =>
    obtain ⟨-, hfits, -⟩ := id h
    rw [List.flatMap_append, List.flatMap_singleton, List.length_append] at hfits
    rw [journalOf_concat, contributorTotal_concat, ih h.append_left, List.flatMap_append,
      List.flatMap_singleton, List.length_append]
    show _ + (UInt32.ofNat (C v.rank.toNat v.row.toNat).length).toNat = _
    rw [toNat_ofNat_of_le (by omega)]

/-- The assignments of a list of entries. -/
def assignmentTotal (tokens : List JournalTokenEntry) : ℕ :=
  total (fun token => token.assignmentsCount.toNat) tokens

/-- The journal counts the assignments of the tokens. -/
theorem assignmentTotal_journalOf {us : List RoutedToken} (h : JournalFits C us) :
    assignmentTotal (journalOf C cookie us).tokens
      = (us.flatMap RoutedToken.assignments).length := by
  induction us using List.reverseRecOn with
  | nil => rfl
  | append_singleton us v ih =>
    obtain ⟨-, -, hfits⟩ := id h
    rw [List.flatMap_append, List.flatMap_singleton, List.length_append] at hfits
    rw [journalOf_concat, assignmentTotal, total_append, total_singleton, ← assignmentTotal,
      ih h.append_left, List.flatMap_append, List.flatMap_singleton, List.length_append]
    show _ + (UInt32.ofNat v.assignments.length).toNat = _
    rw [toNat_ofNat_of_le (by omega)]

end Journal

namespace RoutedWave

variable {workers : ℕ} {srcs : List ParsedSource} {vs : List RoutedToken}

theorem keys_nodup (h : RoutedWave workers srcs vs) : (vs.map RoutedToken.key).Nodup := by
  rw [(h.perm.map _).nodup_iff, h.keys]
  exact nodup_grid _ _

theorem rank_lt (h : RoutedWave workers srcs vs) {v : RoutedToken} (hv : v ∈ ownerOrder srcs) :
    v.rank.toNat < workers := by
  have hmem : v.key ∈ (ownerOrder srcs).map RoutedToken.key := List.mem_map_of_mem hv
  rw [h.keys] at hmem
  exact (mem_grid.mp hmem).1

/-- All assignments of the wave together have 32-bit indices. -/
theorem assignments_le (h : RoutedWave workers srcs vs) :
    (vs.flatMap RoutedToken.assignments).length ≤ 0xffffffff := by
  rw [(h.perm.flatMap_right _).length_eq]
  exact h.fits.2.2

/-- What tokens take of a worker is counted in 32 bits. -/
theorem taken_le (h : RoutedWave workers srcs vs) (d : ℕ) :
    (taken d vs).1 ≤ 0xffffffff ∧ (taken d vs).2 ≤ 0xffffffff := by
  have h1 := taken_fst_le d vs
  have h2 := taken_snd_le d vs
  have h3 := h.assignments_le
  omega

/-- The contributors of a token, by the tokens that came before it. -/
theorem contributors_eq (h : RoutedWave workers srcs vs) {v : RoutedToken}
    (hv : v ∈ ownerOrder srcs) :
    ∃ pre post, vs = pre ++ v :: post ∧
      contributorsOf workers vs v.rank.toNat v.row.toNat = contributorsFor workers pre v := by
  obtain ⟨pre, post, hsplit⟩ := List.append_of_mem (h.perm.mem_iff.mpr hv)
  exact ⟨pre, post, hsplit, contributorsOf_of_nodup h.keys_nodup hsplit⟩

/-! ## Rows and contributors -/

/-- The row of a token that has assignments at destination `d`. -/
def rowFor (d : ℕ) (b : ℕ × ℕ) (v : RoutedToken) : DestinationRow :=
  { routeKey := routeKey v.rank v.row, tokenId := v.tokenId, sourceRank := v.rank,
    sourceToken := v.row, destinationRow := UInt32.ofNat b.1, assignmentsBegin := UInt32.ofNat b.2,
    assignmentsCount := UInt32.ofNat (v.group d).length }

/-- The row of a token stands where the rows of the tokens before it end. -/
theorem getElem?_rowsOf {pre post : List RoutedToken} {v : RoutedToken} {d : ℕ}
    (hgroup : v.group d ≠ []) :
    (rowsOf d (pre ++ v :: post))[(taken d pre).1]? = some (rowFor d (taken d pre) v) := by
  have hrow : rowAt d (taken d pre) v = [rowFor d (taken d pre) v] := if_neg hgroup
  rw [← List.singleton_append, ← List.append_assoc, rowsOf, emit_append, ← rowsOf, rowsOf_concat,
    hrow, ← length_rowsOf, List.append_assoc, List.getElem?_append_right (le_refl _), Nat.sub_self]
  rfl

/-- The contributors of a token are the workers it goes to. -/
theorem mem_contributorsFor {pre : List RoutedToken} {v : RoutedToken} {c : JournalContributor} :
    c ∈ contributorsFor workers pre v ↔ ∃ d < workers, v.group d ≠ [] ∧
      c = ⟨UInt32.ofNat d, UInt32.ofNat (taken d pre).1, UInt32.ofNat (taken d pre).2,
        UInt32.ofNat (v.group d).length⟩ := by
  rw [contributorsFor, List.mem_flatMap]
  constructor
  · rintro ⟨d, hd, hc⟩
    unfold contributorAt at hc
    split at hc
    · cases hc
    · rename_i hgroup
      exact ⟨d, List.mem_range.mp hd, hgroup, List.mem_singleton.mp hc⟩
  · rintro ⟨d, hd, hgroup, rfl⟩
    refine ⟨d, List.mem_range.mpr hd, ?_⟩
    rw [contributorAt, if_neg hgroup]
    exact List.mem_singleton_self _

/-- A token has at most one contributor at each worker. -/
theorem nodup_contributorsFor (hworkers : workers ≤ 128) (pre : List RoutedToken)
    (v : RoutedToken) : ((contributorsFor workers pre v).map fun c => c.workerRank).Nodup := by
  have hmap : ((contributorsFor workers pre v).map fun c => c.workerRank)
      = ((List.range workers).filter fun d => v.group d ≠ []).map UInt32.ofNat := by
    rw [contributorsFor, List.map_flatMap]
    induction List.range workers with
    | nil => rfl
    | cons d l ih =>
      rw [List.flatMap_cons, ih, List.filter_cons]
      unfold contributorAt
      by_cases hgroup : v.group d = []
      · simp [hgroup]
      · simp [hgroup]
  rw [hmap]
  refine (List.nodup_range.filter _).map_on ?_
  intro a ha b hb hab
  have hla := List.mem_range.mp (List.mem_filter.mp ha).1
  have hlb := List.mem_range.mp (List.mem_filter.mp hb).1
  rw [← UInt32.toNat_inj, toNat_ofNat_of_le (by omega), toNat_ofNat_of_le (by omega)] at hab
  exact hab

/-- The contributors of the first tokens to come are the rows they got. -/
theorem contributors_perm (h : RoutedWave workers srcs vs) {us post : List RoutedToken}
    (hsplit : vs = us ++ post) :
    ((us.flatMap fun v => contributorsOf workers vs v.rank.toNat v.row.toNat).map
        contributorKey).Perm (grid workers fun d => (taken d us).1) := by
  induction us using List.reverseRecOn generalizing post with
  | nil =>
    have hnil : grid workers (fun d => (taken d []).1) = [] := by
      rw [List.eq_nil_iff_forall_not_mem]
      intro p hp
      exact absurd (mem_grid.mp hp).2 (by simp)
    rw [hnil]
    exact List.Perm.nil
  | append_singleton us v ih =>
    rw [List.append_assoc, List.singleton_append] at hsplit
    have hle := h.taken_le
    have hpre : ∀ d, (taken d us).1 ≤ 0xffffffff := fun d => by
      have := (taken_split_le hsplit d).1
      have := (hle d).1
      omega
    have hgrid : grid workers (fun d => (taken d (us ++ [v])).1)
        = grid workers fun d => (taken d us).1 + if v.group d ≠ [] then 1 else 0 := by
      refine grid_congr fun d _ => ?_
      rw [taken_concat, Prod.fst_add, need]
      by_cases hgroup : v.group d = []
      · simp [hgroup]
      · simp [hgroup]
    have hlast : (contributorsOf workers vs v.rank.toNat v.row.toNat).map contributorKey
        = (List.range workers).flatMap fun d =>
          if v.group d ≠ [] then [(d, (taken d us).1)] else [] := by
      rw [contributorsOf_of_nodup h.keys_nodup hsplit, contributorsFor, List.map_flatMap]
      refine List.flatMap_congr fun d hd => ?_
      have hd' := List.mem_range.mp hd
      have hworkers := h.workers_le
      unfold contributorAt
      by_cases hgroup : v.group d = []
      · simp [hgroup]
      · simp only [hgroup, if_false, ne_eq, not_false_eq_true, if_true, List.map_singleton,
          contributorKey]
        rw [toNat_ofNat_of_le (by omega), toNat_ofNat_of_le (hpre d)]
    rw [List.flatMap_append, List.flatMap_singleton, List.map_append, hlast, hgrid]
    exact ((ih hsplit).append_right _).trans (grid_add_perm _ _ _).symm

end RoutedWave

/-! ## The layout -/

section Layout

variable {config : LayoutConfig} {st : CollectState} {srcs : List ParsedSource}
  {vs : List RoutedToken} {uniform : Bool} {combine : CombineV2Config}

theorem getD_tableOf {α : Type} {n d : ℕ} {f : ℕ → α} {a : α} (h : d < n) :
    (tableOf n f).getD d a = f d := by
  rw [List.getD_eq_getElem?_getD, getElem?_tableOf h]
  rfl

theorem layoutOf_rowsAt {d : ℕ} (hd : d < config.workerCount.toNat) :
    (layoutOf config st srcs vs uniform).rowsAt d = rowsOf d vs := getD_tableOf hd

theorem layoutOf_expertsAt {d : ℕ} (hd : d < config.workerCount.toNat) :
    (layoutOf config st srcs vs uniform).expertAssignments.getD d []
      = expertsOf config.expertCount.toNat config.workerCount.toNat d vs := getD_tableOf hd

/-- The contributors the entry of a token names are that token's. -/
theorem layoutOf_namedBy {t : ℕ} {v : RoutedToken} {token : JournalTokenEntry}
    (hfits : JournalFits (contributorsOf config.workerCount.toNat vs) (ownerOrder srcs))
    (hv : (ownerOrder srcs)[t]? = some v)
    (htoken : (layoutOf config st srcs vs uniform).journalTokens[t]? = some token) :
    (layoutOf config st srcs vs uniform).namedBy token
      = contributorsOf config.workerCount.toNat vs v.rank.toNat v.row.toNat := by
  have hentry := getElem?_journalOf_tokens (contributorsOf config.workerCount.toNat vs)
    (cookieOf srcs) hv
  have heq := Option.some.inj (htoken.symm.trans hentry)
  obtain ⟨-, hsplit⟩ := take_succ_of_getElem? hv
  have hlen := hfits.2.1
  conv at hlen => rw [hsplit]
  rw [List.flatMap_append, List.flatMap_cons, List.length_append, List.length_append] at hlen
  have hcontributors : (layoutOf config st srcs vs uniform).contributors
      = ((ownerOrder srcs).take t).flatMap
          (fun v => contributorsOf config.workerCount.toNat vs v.rank.toNat v.row.toNat)
        ++ (contributorsOf config.workerCount.toNat vs v.rank.toNat v.row.toNat
          ++ ((ownerOrder srcs).drop (t + 1)).flatMap fun v =>
            contributorsOf config.workerCount.toNat vs v.rank.toNat v.row.toNat) := by
    have hall : (layoutOf config st srcs vs uniform).contributors = (ownerOrder srcs).flatMap
      fun v => contributorsOf config.workerCount.toNat vs v.rank.toNat v.row.toNat := rfl
    rw [hall]
    conv_lhs => rw [hsplit]
    rw [List.flatMap_append, List.flatMap_cons]
  rw [CompiledLayout.namedBy, heq, hcontributors]
  simp only [entryAt]
  rw [toNat_ofNat_of_le (by omega), toNat_ofNat_of_le (by omega), List.drop_left, List.take_left]

/-- The contributors of a token name the rows it got. -/
theorem layoutOf_namesRows (h : RoutedWave config.workerCount.toNat srcs vs)
    (hworkers : combine.workerCount = config.workerCount) {t : ℕ} {v : RoutedToken}
    {token : JournalTokenEntry} (hv : (ownerOrder srcs)[t]? = some v)
    (htoken : (layoutOf config st srcs vs uniform).journalTokens[t]? = some token)
    (hkey : token.routeKey = routeKey v.rank v.row) :
    NamesRows (layoutOf config st srcs vs uniform) combine token := by
  obtain ⟨pre, post, hsplit, hcontributors⟩ := h.contributors_eq (List.mem_of_getElem? hv)
  rw [NamesRows, layoutOf_namedBy h.fits hv htoken, hcontributors]
  refine ⟨fun c hc => ?_, RoutedWave.nodup_contributorsFor h.workers_le pre v⟩
  obtain ⟨d, hd, hgroup, rfl⟩ := RoutedWave.mem_contributorsFor.mp hc
  have hle := h.taken_le d
  have hsplitLe := taken_split_le hsplit d
  have hneed : need d v = (1, (v.group d).length) := if_neg hgroup
  have hpos := List.length_pos_iff.mpr hgroup
  have hwd := h.workers_le
  rw [hneed] at hsplitLe
  simp only at hsplitLe
  have hrank : (UInt32.ofNat d).toNat = d := toNat_ofNat_of_le (by omega)
  refine ⟨?_, ?_, ?_, RoutedWave.rowFor d (taken d pre) v, ?_, hkey.symm, rfl, rfl, rfl⟩
  · rw [hworkers, UInt32.lt_iff_toNat_lt, hrank]
    exact hd
  · intro hzero
    have := congrArg UInt32.toNat hzero
    rw [toNat_ofNat_of_le (by omega)] at this
    simp only [UInt32.toNat_zero] at this
    omega
  · simp only [hrank]
    rw [layoutOf_expertsAt hd, length_expertsOf, toNat_ofNat_of_le (by omega),
      toNat_ofNat_of_le (by omega)]
    exact hsplitLe.2
  · simp only [hrank]
    rw [layoutOf_rowsAt hd, toNat_ofNat_of_le (by omega), hsplit]
    exact RoutedWave.getElem?_rowsOf hgroup

/-- The tokens of a layout are admissible. -/
theorem layoutOf_tokensAdmissible (h : RoutedWave config.workerCount.toNat srcs vs)
    (hworkers : combine.workerCount = config.workerCount) :
    TokensAdmissible (layoutOf config st srcs vs uniform) combine
      (layoutOf config st srcs vs uniform).journalTokens := by
  have hlen : (layoutOf config st srcs vs uniform).journalTokens.length
      = (ownerOrder srcs).length := length_journalOf_tokens _ (cookieOf srcs) _
  -- a journal token is the entry of an owner, behind those of the owners before it
  have hentry : ∀ {t : ℕ} {token : JournalTokenEntry},
      (layoutOf config st srcs vs uniform).journalTokens[t]? = some token →
      ∃ v, (ownerOrder srcs)[t]? = some v ∧ token = entryAt
        (t, (((ownerOrder srcs).take t).flatMap fun v =>
            contributorsOf config.workerCount.toNat vs v.rank.toNat v.row.toNat).length,
          (((ownerOrder srcs).take t).flatMap RoutedToken.assignments).length)
        (contributorsOf config.workerCount.toNat vs v.rank.toNat v.row.toNat).length v := by
    intro t token ht
    have hlt := (List.getElem?_eq_some_iff.mp ht).1
    rw [hlen] at hlt
    have hv : (ownerOrder srcs)[t]? = some (ownerOrder srcs)[t] := List.getElem?_eq_getElem hlt
    exact ⟨_, hv, Option.some.inj (ht.symm.trans (getElem?_journalOf_tokens _ (cookieOf srcs) hv))⟩
  constructor
  · intro t token ht
    obtain ⟨v, hv, rfl⟩ := hentry ht
    obtain ⟨hfit1, hfit2, hfit3⟩ := h.fits
    obtain ⟨-, hsplit⟩ := take_succ_of_getElem? hv
    have hlt := (List.getElem?_eq_some_iff.mp hv).1
    have hfront : contributorTotal ((layoutOf config st srcs vs uniform).journalTokens.take t)
        = (((ownerOrder srcs).take t).flatMap fun v =>
            contributorsOf config.workerCount.toNat vs v.rank.toNat v.row.toNat).length := by
      have htake := take_journalOf_tokens (contributorsOf config.workerCount.toNat vs)
        (cookieOf srcs) (ownerOrder srcs) t
      exact (congrArg contributorTotal htake).trans (contributorTotal_journalOf _ _ (h.fits.take t))
    have hall : (layoutOf config st srcs vs uniform).contributors = (ownerOrder srcs).flatMap
        fun v => contributorsOf config.workerCount.toNat vs v.rank.toNat v.row.toNat := rfl
    have hassignments : (layoutOf config st srcs vs uniform).journalAssignments
        = (ownerOrder srcs).flatMap RoutedToken.assignments := rfl
    rw [← hall] at hfit2
    have hlen2 := congrArg List.length hall
    have hlen3 := congrArg List.length hassignments
    rw [hsplit, List.flatMap_append, List.flatMap_cons, List.length_append,
      List.length_append] at hlen2 hlen3
    rw [← hassignments] at hfit3
    refine ⟨?_, rfl, ?_, ?_, ?_, ?_, rfl, rfl,
      layoutOf_namesRows h hworkers hv ht rfl⟩
    · rw [hworkers]
      exact UInt32.lt_iff_toNat_lt.mpr (h.rank_lt (List.mem_of_getElem? hv))
    · rw [hfront]
      simp only [entryAt]
      rw [toNat_ofNat_of_le (by omega)]
    · rw [hfront]
      simp only [entryAt]
      rw [toNat_ofNat_of_le (by omega)]
      omega
    · simp only [entryAt]
      rw [toNat_ofNat_of_le (by omega), toNat_ofNat_of_le (by omega)]
      omega
    · simp only [entryAt]
      rw [toNat_ofNat_of_le (by omega), hlen]
      exact hlt
  · rw [List.nodup_iff_getElem?_ne_getElem?]
    intro a b hab hb heq
    rw [accumulatorsOf, List.length_map] at hb
    have hfit := h.fits.1
    -- token `i` has accumulator `i`, so no accumulator is taken twice
    have hposition : ∀ i < (layoutOf config st srcs vs uniform).journalTokens.length,
        (accumulatorsOf (layoutOf config st srcs vs uniform).journalTokens)[i]? = some i := by
      intro i hi
      have hget := List.getElem?_eq_getElem hi
      obtain ⟨v, -, hv⟩ := hentry hget
      rw [accumulatorsOf, List.getElem?_map, hget, hv]
      exact congrArg some (toNat_ofNat_of_le (by omega))
    rw [hposition a (by omega), hposition b hb, Option.some.injEq] at heq
    omega

/-- The owners in the journal are those of the tokens. -/
theorem map_owner_journalOf (C : ℕ → ℕ → List JournalContributor) (cookie : UInt64)
    (us : List RoutedToken) :
    (journalOf C cookie us).tokens.map (fun token => (token.ownerRank.toNat, token.ownerRow.toNat))
      = us.map RoutedToken.key := by
  induction us using List.reverseRecOn with
  | nil => rfl
  | append_singleton us v ih =>
    rw [journalOf_concat, List.map_append, List.map_append, ih]
    rfl

/-- The tokens of a rank own the rows of that rank. -/
theorem ownerCount_eq {tokens : List JournalTokenEntry} {workers owner : ℕ} {f : ℕ → ℕ}
    (hkeys : tokens.map (fun token => (token.ownerRank.toNat, token.ownerRow.toNat))
      = grid workers f) (howner : owner < workers) : ownerCount tokens owner = f owner := by
  have hfilter := congrArg List.length (filter_grid (f := f) howner)
  rw [← hkeys, List.filter_map, List.length_map, List.length_map, List.length_range] at hfilter
  exact hfilter

/-- The plan compiler accepts the layout of a wave. -/
theorem layoutOf_admissible (h : RoutedWave config.workerCount.toNat srcs vs)
    (hconfig : combineConfigValid combine) (hworkers : combine.workerCount = config.workerCount)
    (hgeneration : st.generation ≠ 0) (hsequence : st.sequence ≠ 0)
    (hring : st.ringSlot.toUInt32 < combine.ringSlots) :
    Admissible (layoutOf config st srcs vs uniform) combine := by
  have hcontributors : (layoutOf config st srcs vs uniform).contributors = (ownerOrder srcs).flatMap
    fun v => contributorsOf config.workerCount.toNat vs v.rank.toNat v.row.toNat := rfl
  -- the tokens cover the contributors without gaps
  have hcover : contributorTotal (layoutOf config st srcs vs uniform).journalTokens
      = (layoutOf config st srcs vs uniform).contributors.length :=
    contributorTotal_journalOf _ (cookieOf srcs) h.fits
  have htokens : TokensAdmissible (layoutOf config st srcs vs uniform) combine
      (layoutOf config st srcs vs uniform).journalTokens := layoutOf_tokensAdmissible h hworkers
  refine ⟨hconfig, ?_, htokens, hcover, ?_, ?_⟩
  · have hlen : (layoutOf config st srcs vs uniform).journalTokens.length
        = (ownerOrder srcs).length := length_journalOf_tokens _ (cookieOf srcs) _
    refine ⟨⟨rfl, rfl, rfl, hgeneration, hsequence, ?_, rfl, ?_, rfl⟩,
      JournalSlotState.ofUInt16_toUInt16 .dispatchSealed, hring, ?_, ?_, ?_, ?_, ?_⟩
    · show (if cookieOf srcs = 0 then (1 : UInt64) else cookieOf srcs) ≠ 0
      split
      · decide
      · assumption
    · show (if uniform = true then kJournalFlagUniformDestinations else 0)
        &&& ~~~kJournalFlagDenseAllDestinations = 0
      cases uniform <;> decide
    · rw [hworkers]
      exact length_tableOf _ _
    · rw [hworkers]
      exact length_tableOf _ _
    · show (UInt32.ofNat (layoutOf config st srcs vs uniform).journalTokens.length).toNat = _
      rw [toNat_ofNat_of_le (hlen ▸ h.fits.1)]
    · show (UInt32.ofNat (layoutOf config st srcs vs uniform).contributors.length).toNat = _
      exact toNat_ofNat_of_le (hcontributors ▸ h.fits.2.1)
    · rw [hlen]
      exact h.fits.1
  · have hrows : grid config.workerCount.toNat (layoutOf config st srcs vs uniform).rowCount
        = grid config.workerCount.toNat fun d => (taken d vs).1 := by
      refine grid_congr fun d hd => ?_
      rw [CompiledLayout.rowCount, layoutOf_rowsAt hd, length_rowsOf]
    rw [CompiledLayout.map_pullKey_rawPulls, CompiledLayout.flatMap_namedBy htokens, hcover,
      List.take_length, hworkers, hrows, hcontributors]
    exact ((h.perm.flatMap_right _).symm.map _).trans
      (h.contributors_perm (List.append_nil vs).symm)
  -- the owners of the journal are the rows of the grid, in its order
  · have hkeys := (map_owner_journalOf (contributorsOf config.workerCount.toNat vs) (cookieOf srcs)
      (ownerOrder srcs)).trans h.keys
    rw [map_resultKey_rawResults, hworkers]
    refine List.Perm.of_eq ?_
    rw [show (layoutOf config st srcs vs uniform).journalTokens.map _ = _ from hkeys]
    exact grid_congr fun owner howner => (ownerCount_eq hkeys howner).symm

end Layout

end AscendShmem.PullV2
