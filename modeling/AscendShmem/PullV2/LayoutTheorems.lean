import Mathlib
import AscendShmem.Lib.Flags
import AscendShmem.Lib.Table
import AscendShmem.PullV2.Layout
import AscendShmem.PullV2.Routing

/-!
# The layout compiler computes the allocation

Every loop of `compileLayout` is shown to compute its part of the allocation of
`AscendShmem.PullV2.Routing`, from sources the parser accepts. The compiler stops with
`capacityExceeded` exactly when some destination cannot give out what the tokens need, and
with `sizeOverflow` exactly when the journal does not fit its 32-bit indices; both depend on
the tokens only.
-/

namespace AscendShmem.PullV2

open Lib Lib.Exec

/-! ## Accepted sources -/

/-- What the parser guarantees of a source. -/
structure SourceValid (session : SessionConfig) (source : ParsedSource) : Prop where
  csr : CsrValid session source
  rank : source.header.sourceRank < session.workerCount
  workerCount : source.header.workerCount = session.workerCount
  generation : source.header.generation ≠ 0
  sequence : source.header.sequence ≠ 0
  ringSlot : source.header.ringSlot.toUInt32 < session.ringSlots
  tokenCount : source.tokens.length = source.header.tokenCount.toNat
  assignmentCount : source.assignments.length = source.header.assignmentCount.toNat

/-- A source some READY and slot were parsed to. -/
def Accepted (session : SessionConfig) (source : ParsedSource) : Prop :=
  ∃ registration ready slot capacity,
    parseReadyAndSlot registration session ready (some slot) capacity = .ok source

/-- An accepted source is valid. -/
theorem Accepted.valid {session : SessionConfig} {source : ParsedSource}
    (h : Accepted session source) : SourceValid session source := by
  obtain ⟨registration, ready, slot, capacity, hparse⟩ := h
  obtain ⟨haccept, rfl, -⟩ := parserAccepts_of_parse hparse
  obtain ⟨-, -, -, hrank, -⟩ := require_eq_ok.mp haccept.registered
  obtain ⟨-, -, -, -, -, -, hr1, -, -, hr3, hgen, hseq, -⟩ := haccept.published
  have hmatch := haccept.accepts.header
  have hcsr := haccept.accepts.csr
  generalize slotHeaderOf slot = header at hmatch hcsr ⊢
  obtain ⟨-, -, -, -, -, -, hg, hs, -, hm1, -, hm3, hwc, -⟩ := hmatch
  refine ⟨hcsr, ?_, hwc, ?_, ?_, ?_, by simp [decodeSlot], by simp [decodeSlot]⟩
  · show header.sourceRank < session.workerCount
    rw [hm1, hr1]
    exact hrank
  · show header.generation ≠ 0
    rw [hg]
    exact hgen
  · show header.sequence ≠ 0
    rw [hs]
    exact hseq
  · show header.ringSlot.toUInt32 < session.ringSlots
    rw [hm3]
    exact hr3

/-- A token of a source with its routing. -/
def ParsedSource.routedToken (source : ParsedSource) (record : TokenRecord) : RoutedToken :=
  ⟨source.header.sourceRank, record.sourceToken, record.tokenId, source.assignmentsOf record⟩

/-- The tokens of a source with their assignments. -/
def ParsedSource.routed (source : ParsedSource) : List RoutedToken :=
  source.tokens.map source.routedToken

/-- The index of an assignment of a token does not wrap. -/
theorem TokenValid.getElem?_assignments {session : SessionConfig} {source : ParsedSource}
    {k : ℕ} {record : TokenRecord} (h : TokenValid session source k record)
    (hrecord : source.tokens[k]? = some record) (hsize : source.assignments.length < 2 ^ 32)
    {j : ℕ} (hj : j < record.assignmentCount.toNat) :
    source.assignments[(record.assignmentBegin + UInt32.ofNat j).toNat]?
      = (source.assignmentsOf record)[j]? := by
  have hend := h.inRange
  rw [beginOf_succ hrecord] at hend
  have hb := h.assignmentBegin
  have hindex : (record.assignmentBegin + UInt32.ofNat j).toNat
      = record.assignmentBegin.toNat + j := by
    rw [UInt32.toNat_add, UInt32.toNat_ofNat', Nat.mod_eq_of_lt (a := j) (by omega),
      Nat.mod_eq_of_lt (by omega)]
  rw [hindex, ParsedSource.assignmentsOf, List.getElem?_take_of_lt hj, List.getElem?_drop]

/-- A token has as many assignments as its record says. -/
theorem TokenValid.length_assignmentsOf {session : SessionConfig} {source : ParsedSource}
    {k : ℕ} {record : TokenRecord} (h : TokenValid session source k record)
    (hrecord : source.tokens[k]? = some record) :
    (source.assignmentsOf record).length = record.assignmentCount.toNat := by
  have hend := h.inRange
  rw [beginOf_succ hrecord] at hend
  have hb := h.assignmentBegin
  rw [ParsedSource.assignmentsOf, List.length_take, List.length_drop]
  omega

/-! ## Collecting -/

/-- The source of rank `r`. -/
def rankedSource (sources : List ParsedSource) (r : ℕ) : Option ParsedSource :=
  sources.find? fun source => source.header.sourceRank.toNat = r

/-- One more source is found under its rank. -/
theorem rankedSource_concat (pre : List ParsedSource) (source : ParsedSource) (r : ℕ)
    (h : source.header.sourceRank.toNat ∉ pre.map fun source => source.header.sourceRank.toNat) :
    rankedSource (pre ++ [source]) r
      = if source.header.sourceRank.toNat = r then some source else rankedSource pre r := by
  unfold rankedSource
  rw [List.find?_append]
  by_cases hr : source.header.sourceRank.toNat = r
  · have hnone : pre.find? (fun s => decide (s.header.sourceRank.toNat = r)) = none := by
      rw [List.find?_eq_none]
      intro s hs heq
      apply h
      rw [hr, ← of_decide_eq_true heq]
      exact List.mem_map_of_mem hs
    simp [hnone, hr]
  · simp [hr]

/-- The table of the sources `pre` by rank; no rank has come twice. -/
structure Ranked (workers : ℕ) (pre : List ParsedSource) (byRank : List (Option ParsedSource)) :
    Prop where
  byRank : byRank = (List.range workers).map (rankedSource pre)
  ranks : OnceBelow workers (pre.map fun source => source.header.sourceRank.toNat)

theorem ranked_nil (workers : ℕ) : Ranked workers [] (List.replicate workers none) := by
  refine ⟨?_, onceBelow_nil workers⟩
  rw [replicate_eq_tableOf]
  rfl

section Ranked

variable {workers r : ℕ} {pre : List ParsedSource} {byRank : List (Option ParsedSource)}
  {source : ParsedSource}

theorem Ranked.getElem? (h : Ranked workers pre byRank) (hr : r < workers) :
    byRank[r]? = some (rankedSource pre r) := by
  rw [h.byRank, List.getElem?_map, List.getElem?_range hr]
  rfl

/-- One source more, of a rank that has not come yet. -/
theorem Ranked.set (h : Ranked workers pre byRank)
    (hlt : source.header.sourceRank.toNat < workers)
    (hnone : rankedSource pre source.header.sourceRank.toNat = none) :
    Ranked workers (pre ++ [source]) (byRank.set source.header.sourceRank.toNat (some source)) := by
  have hfresh : source.header.sourceRank.toNat
      ∉ pre.map fun source => source.header.sourceRank.toNat := by
    intro hmem
    obtain ⟨s, hs, heq⟩ := List.mem_map.mp hmem
    exact List.find?_eq_none.mp hnone s hs (decide_eq_true heq)
  have hlen : byRank.length = workers := by simp [h.byRank]
  constructor
  · apply List.ext_getElem?
    intro r
    rw [List.getElem?_set, hlen, List.getElem?_map]
    by_cases hr : r < workers
    · rw [List.getElem?_range hr, Option.map_some, rankedSource_concat _ _ _ hfresh]
      by_cases heq : source.header.sourceRank.toNat = r
      · simp [heq, hr]
      · rw [if_neg heq, if_neg heq, h.getElem? hr]
    · rw [if_neg (by omega), List.getElem?_eq_none (by omega), List.getElem?_eq_none (by simp; omega)]
      rfl
  · rw [List.map_append, List.map_singleton]
    exact onceBelow_append_singleton.mpr ⟨h.ranks, hlt, hfresh⟩

/-- As many sources as ranks leave no rank without a source. -/
theorem Ranked.exists_source (h : Ranked workers pre byRank) (hlen : pre.length = workers)
    (hr : r < workers) :
    ∃ source, rankedSource pre r = some source ∧ source ∈ pre ∧
      source.header.sourceRank.toNat = r := by
  have hperm := perm_range_of_nodup h.ranks.1 h.ranks.2 (by simpa using hlen)
  have hmem := hperm.mem_iff.mpr (List.mem_range.mpr hr)
  obtain ⟨s, hs, heq⟩ := List.mem_map.mp hmem
  have hsome : (rankedSource pre r).isSome := by
    rw [rankedSource, List.find?_isSome]
    exact ⟨s, hs, decide_eq_true heq⟩
  obtain ⟨source, hsource⟩ := Option.isSome_iff_exists.mp hsome
  have hrank := List.find?_some (p := fun s : ParsedSource =>
    decide (s.header.sourceRank.toNat = r)) hsource
  exact ⟨source, hsource, List.mem_of_find?_eq_some hsource, of_decide_eq_true hrank⟩

/-- Every source is the one of its rank. -/
theorem Ranked.of_mem (h : Ranked workers pre byRank) (hlen : pre.length = workers)
    (hsource : source ∈ pre) :
    rankedSource pre source.header.sourceRank.toNat = some source := by
  have hlt := h.ranks.1 _ (List.mem_map_of_mem hsource)
  obtain ⟨other, hother, hmem, hrank⟩ := h.exists_source hlen hlt
  rw [hother, List.inj_on_of_nodup_map h.ranks.2 hmem hsource hrank]

end Ranked

/-- The epoch of a source is the one recorded. -/
def sameWave (st : CollectState) (source : ParsedSource) : Prop :=
  source.header.generation = st.generation ∧ source.header.sequence = st.sequence ∧
    source.header.wave = st.wave ∧ source.header.ringSlot = st.ringSlot

/-- What the collecting loop has found out after the sources `pre`. -/
structure CollectInvariant (session : SessionConfig) (config : LayoutConfig)
    (pre : List ParsedSource) (st : CollectState) : Prop where
  byRank : st.byRank = (List.range config.workerCount.toNat).map (rankedSource pre)
  ranks : OnceBelow config.workerCount.toNat
    (pre.map fun source => source.header.sourceRank.toNat)
  wave : ∀ source ∈ pre, sameWave st source
  fresh : st.generation = 0 → pre = []
  workerCount : 2 ≤ pre.length → session.workerCount = config.workerCount

theorem CollectInvariant.ranked {session : SessionConfig} {config : LayoutConfig}
    {pre : List ParsedSource} {st : CollectState} (h : CollectInvariant session config pre st) :
    Ranked config.workerCount.toNat pre st.byRank := ⟨h.byRank, h.ranks⟩

/-- One turn of the collection. -/
theorem collectSource_step {session : SessionConfig} {config : LayoutConfig}
    {pre : List ParsedSource} {st : CollectState} {source : ParsedSource}
    (hst : CollectInvariant session config pre st) (hsource : SourceValid session source) :
    Ends (collectSource config st source) (CollectInvariant session config (pre ++ [source]))
      (fun _ => True) False := by
  unfold collectSource
  refine Ends.bind (Ends.require (Q := fun _ => source.header.sourceRank < config.workerCount)
    id (fun _ => trivial)) ?_
  intro _ hlt
  replace hlt := UInt32.lt_iff_toNat_lt.mp hlt
  have hlen : st.byRank.length = config.workerCount.toNat := by simp [hst.byRank]
  rw [read_of (hst.ranked.getElem? hlt), ok_bind]
  refine Ends.bind (Ends.require (Q := fun _ =>
    rankedSource pre source.header.sourceRank.toNat = none) id (fun _ => trivial)) ?_
  intro _ hnone
  rw [write_of_lt (by omega), ok_bind]
  obtain ⟨hbyRank, hranks⟩ := hst.ranked.set hlt hnone
  split
  · rename_i hzero
    have hnil := hst.fresh hzero
    subst hnil
    refine ends_ok.mpr ⟨hbyRank, hranks, ?_, fun h => absurd h hsource.generation, ?_⟩
    · intro s hs
      rw [List.nil_append, List.mem_singleton] at hs
      rw [hs]
      exact ⟨rfl, rfl, rfl, rfl⟩
    · intro h
      simp at h
  · rename_i hne
    refine Ends.bind (Ends.require (Q := fun _ => sameWave st source ∧
      source.header.workerCount = config.workerCount)
      (fun h => ⟨⟨h.1, h.2.1, h.2.2.1, h.2.2.2.1⟩, h.2.2.2.2⟩) (fun _ => trivial)) ?_
    rintro - ⟨hwave, hcount⟩
    refine ends_ok.mpr ⟨hbyRank, hranks, ?_, fun h => absurd h hne, ?_⟩
    · intro s hs
      rcases List.mem_append.mp hs with h | h
      · exact hst.wave s h
      · rw [List.mem_singleton.mp h]
        exact hwave
    · intro _
      exact hsource.workerCount.symm.trans hcount

/-- The table does not depend on what the sources agree on. -/
theorem collectSource_ranked {config : LayoutConfig} {pre : List ParsedSource} {st : CollectState}
    {source : ParsedSource} (hst : Ranked config.workerCount.toNat pre st.byRank) :
    Ends (collectSource config st source)
      (fun st' => Ranked config.workerCount.toNat (pre ++ [source]) st'.byRank)
      (fun _ => True) False := by
  unfold collectSource
  refine Ends.bind (Ends.require (Q := fun _ => source.header.sourceRank < config.workerCount)
    id fun _ => trivial) ?_
  intro _ hlt
  replace hlt := UInt32.lt_iff_toNat_lt.mp hlt
  have hlen : st.byRank.length = config.workerCount.toNat := by simp [hst.byRank]
  rw [read_of (hst.getElem? hlt), ok_bind]
  refine Ends.bind (Ends.require (Q := fun _ =>
    rankedSource pre source.header.sourceRank.toNat = none) id fun _ => trivial) ?_
  intro _ hnone
  rw [write_of_lt (by omega), ok_bind]
  split
  · exact ends_ok.mpr (hst.set hlt hnone)
  · apply Ends.bind (Ends.require_or trivial)
    intro _ _
    exact ends_ok.mpr (hst.set hlt hnone)

/-- The collected sources in rank order. -/
structure Collected (session : SessionConfig) (config : LayoutConfig)
    (sources : List ParsedSource) (st : CollectState) (srcs : List ParsedSource) : Prop where
  byRank : st.byRank = srcs.map some
  perm : srcs.Perm sources
  rank : ∀ (r : ℕ) (source : ParsedSource), srcs[r]? = some source →
    source.header.sourceRank.toNat = r
  wave : ∀ source ∈ sources, sameWave st source
  workerCount : session.workerCount = config.workerCount

/-- After the collection every rank has its source. -/
theorem CollectInvariant.collected {session : SessionConfig} {config : LayoutConfig}
    {sources : List ParsedSource} {st : CollectState}
    (h : CollectInvariant session config sources st)
    (hlen : sources.length = config.workerCount.toNat) (htwo : 2 ≤ config.workerCount.toNat) :
    ∃ srcs, Collected session config sources st srcs := by
  have hall : ∀ r < config.workerCount.toNat, ∃ source, rankedSource sources r = some source ∧
      source ∈ sources ∧ source.header.sourceRank.toNat = r := by
    intro r hr
    exact h.ranked.exists_source hlen hr
  have : Nonempty ParsedSource := ⟨{}⟩
  choose! pick hpick using hall
  have hrank : ∀ (r : ℕ) (source : ParsedSource),
      ((List.range config.workerCount.toNat).map pick)[r]? = some source →
      source.header.sourceRank.toNat = r := by
    intro r source hsource
    rw [List.getElem?_map] at hsource
    by_cases hr : r < config.workerCount.toNat
    · rw [List.getElem?_range hr] at hsource
      rw [← Option.some.inj hsource]
      exact (hpick r hr).2.2
    · rw [List.getElem?_eq_none (by simp; omega)] at hsource
      cases hsource
  refine ⟨(List.range config.workerCount.toNat).map pick, ?_, ?_, hrank, h.wave,
    h.workerCount (by omega)⟩
  · rw [h.byRank, List.map_map]
    apply List.map_congr_left
    intro r hr
    exact (hpick r (List.mem_range.mp hr)).1
  · -- different ranks, so different sources, and as many as there are
    have hnodup : ((List.range config.workerCount.toNat).map pick).Nodup := by
      apply List.Nodup.map_on _ List.nodup_range
      intro a ha b hb heq
      rw [← (hpick a (List.mem_range.mp ha)).2.2, heq, (hpick b (List.mem_range.mp hb)).2.2]
    have hsub : (List.range config.workerCount.toNat).map pick ⊆ sources := by
      intro s hs
      obtain ⟨r, hr, rfl⟩ := List.mem_map.mp hs
      exact (hpick r (List.mem_range.mp hr)).2.1
    exact (List.subperm_of_subset hnodup hsub).perm_of_length_le (by simp [hlen])

/-- A permutation of the ranks passes the arrival test. -/
theorem checkArrival_ok {config : LayoutConfig} {order : List UInt32}
    (h : (order.map UInt32.toNat).Perm (List.range config.workerCount.toNat)) :
    ∃ seen, order.foldlM (checkArrival config) (List.replicate config.workerCount.toNat false)
      = .ok seen := by
  have honce : OnceBelow config.workerCount.toNat (order.map UInt32.toNat) :=
    ⟨fun i hi => List.mem_range.mp (h.mem_iff.mp hi), h.nodup_iff.mpr List.nodup_range⟩
  have hrun : Ends (order.foldlM (checkArrival config)
      (List.replicate config.workerCount.toNat false))
      (fun seen => seen = flagsOf config.workerCount.toNat (order.map UInt32.toNat))
      (fun _ => False) False := by
    refine Ends.foldlM (fun pre seen =>
      seen = flagsOf config.workerCount.toNat (pre.map UInt32.toNat)) order
      (flagsOf_nil _).symm ?_
    rintro pre rank post _ hsplit rfl
    rw [hsplit, List.map_append, List.map_cons] at honce
    have hsplit' : pre.map UInt32.toNat ++ rank.toNat :: post.map UInt32.toNat
        = (pre.map UInt32.toNat ++ [rank.toNat]) ++ post.map UInt32.toNat := by simp
    rw [hsplit'] at honce
    obtain ⟨-, hlt, hfresh⟩ := onceBelow_append_singleton.mp honce.append_left
    unfold checkArrival
    rw [require_of (UInt32.lt_iff_toNat_lt.mpr hlt), ok_bind, read_of (getElem?_flagsOf hlt),
      ok_bind, require_of (decide_eq_false hfresh), ok_bind,
      write_of_lt (by rw [length_flagsOf]; exact hlt)]
    refine ends_ok.mpr ?_
    rw [set_flagsOf, List.map_append, List.map_singleton]
  obtain ⟨seen, hseen, -⟩ := hrun.exists_ok
  exact ⟨seen, hseen⟩

/-! ## Placing one token -/

/-- The counters of the cells `K` counts in. -/
def countsOf (n : ℕ) (K : ℕ → ℕ) : List UInt32 := tableOf n fun c => UInt32.ofNat (K c)

/-- The grouping loop splits the assignments of a token by destination. -/
theorem groupAssignments_ok {session : SessionConfig} {source : ParsedSource} {k : ℕ}
    {record : TokenRecord} {workers : ℕ} (hvalid : SourceValid session source)
    (hrecord : source.tokens[k]? = some record) (hworkers : session.workerCount.toNat = workers) :
    (List.range record.assignmentCount.toNat).foldlM (groupAssignment source record)
        (List.replicate workers [])
      = .ok (tableOf workers (source.routedToken record).group) := by
  have htoken := hvalid.csr.token k record hrecord
  have hlen := htoken.length_assignmentsOf hrecord
  have hsize : source.assignments.length < 2 ^ 32 :=
    hvalid.assignmentCount ▸ source.header.assignmentCount.toNat_lt
  set l := source.assignmentsOf record with hl
  have hrun : Ends ((List.range record.assignmentCount.toNat).foldlM
      (groupAssignment source record) (List.replicate workers []))
      (fun grouped => grouped = tableOf workers fun d =>
        (l.take record.assignmentCount.toNat).filter fun a => a.destinationRank.toNat = d)
      (fun _ => False) False := by
    refine Ends.forRange (fun j grouped => grouped = tableOf workers fun d =>
      (l.take j).filter fun a => a.destinationRank.toNat = d) _ ?_ ?_
    · rw [replicate_eq_tableOf, List.take_zero]
      rfl
    rintro j hj _ rfl
    have hjl : j < l.length := by omega
    have hget : l[j]? = some l[j] := List.getElem?_eq_getElem hjl
    have hmem : l[j] ∈ l := List.getElem_mem _
    have hdest := UInt32.lt_iff_toNat_lt.mp (htoken.assignments.1 _ hmem).1
    rw [hworkers] at hdest
    unfold groupAssignment
    rw [read_of ((htoken.getElem?_assignments hrecord hsize hj).trans hget), ok_bind,
      read_of (getElem?_tableOf hdest), ok_bind,
      write_of_lt (by rw [length_tableOf]; exact hdest), set_tableOf]
    refine ends_ok.mpr (tableOf_congr fun d _ => ?_)
    rw [(take_succ_of_getElem? hget).1, List.filter_append]
    by_cases hd : d = l[j].destinationRank.toNat
    · rw [hd, Function.update_self]
      simp
    · rw [Function.update_of_ne hd]
      simp [Ne.symm hd]
  obtain ⟨grouped, hgrouped, rfl⟩ := hrun.exists_ok
  rw [hgrouped, ← hlen, List.take_length]
  rfl

/-- Placing the assignments of one row. -/
theorem placeAssignments_ends {config : LayoutConfig} {d n row : ℕ} {K : ℕ → ℕ}
    {experts : List ExpertAssignment} (group : List AssignmentRecord) :
    Ends (group.foldlM (placeAssignment config d (UInt32.ofNat row)) (countsOf n K, experts))
      (fun r => r = (countsOf n (K + total (cellCount config.expertCount.toNat d) group),
        experts ++ (alloc (cellCount config.expertCount.toNat d) K group).map
          fun p => expertEntry row (p.1 (cell config.expertCount.toNat d p.2)) p.2))
      (fun _ => False) (∃ a ∈ group, n ≤ cell config.expertCount.toNat d a) := by
  set e := config.expertCount.toNat with he
  refine Ends.foldlM (fun pre r => r = (countsOf n (K + total (cellCount e d) pre),
    experts ++ (alloc (cellCount e d) K pre).map fun p => expertEntry row (p.1 (cell e d p.2)) p.2))
    group ?_ ?_
  · simp
  · rintro pre a post _ hsplit rfl
    unfold placeAssignment
    refine Ends.bind (Ends.read (Q := fun x => cell e d a < n ∧
      x = UInt32.ofNat ((K + total (cellCount e d) pre) (cell e d a))) ?_ ?_) ?_
    · intro x hx
      have hlt : cell e d a < n := by
        have := (List.getElem?_eq_some_iff.mp hx).1
        rwa [countsOf, length_tableOf] at this
      refine ⟨hlt, ?_⟩
      have hget := getElem?_tableOf (f := fun c =>
        UInt32.ofNat ((K + total (cellCount e d) pre) c)) hlt
      exact Option.some.inj (hx.symm.trans hget)
    · intro hge
      rw [countsOf, length_tableOf] at hge
      exact ⟨a, by rw [hsplit]; simp, hge⟩
    rintro x ⟨hlt, rfl⟩
    have hlt' : d * e + a.expertId.toNat < n := hlt
    simp only [countsOf]
    rw [write_of_lt (by rw [length_tableOf]; exact hlt'), ok_bind]
    refine ends_ok.mpr (Prod.ext ?_ ?_)
    · show (tableOf n _).set (cell e d a) _ = _
      rw [set_tableOf]
      refine tableOf_congr fun c _ => ?_
      rw [total_append, total_singleton, ← add_assoc, Pi.add_apply]
      by_cases hc : c = cell e d a
      · subst hc
        rw [Function.update_self]
        simp [cellCount, UInt32.ofNat_add]
      · rw [Function.update_of_ne hc]
        simp [cellCount, Ne.symm hc]
    · rw [alloc_append, List.map_append, ← List.append_assoc]
      rfl

/-- The layout state with rows `R`, expert entries `X`, cell counts `K` and contributors `C`. -/
def stateOf (workers n : ℕ) (lens : ℕ → ℕ) (R : ℕ → List DestinationRow)
    (X : ℕ → List ExpertAssignment) (K : ℕ → ℕ) (C : ℕ → ℕ → List JournalContributor) :
    LayoutState :=
  ⟨tableOf workers R, tableOf workers X, countsOf n K,
    tableOf workers fun r => tableOf (lens r) (C r)⟩

/-- `C` with `c` appended for the token at `rank` and `token`. -/
def appendAt (C : ℕ → ℕ → List JournalContributor) (rank token : ℕ)
    (c : List JournalContributor) : ℕ → ℕ → List JournalContributor :=
  fun r t => C r t ++ if r = rank ∧ t = token then c else []

theorem appendAt_nil (C : ℕ → ℕ → List JournalContributor) (rank token : ℕ) :
    appendAt C rank token [] = C := by
  funext r t
  simp [appendAt]

/-- Appending twice is appending both. -/
theorem appendAt_appendAt (C : ℕ → ℕ → List JournalContributor) (rank token : ℕ)
    (c c' : List JournalContributor) :
    appendAt (appendAt C rank token c) rank token c' = appendAt C rank token (c ++ c') := by
  funext r t
  by_cases h : r = rank ∧ t = token
  · simp [appendAt, h]
  · simp [appendAt, h]

/-- The table of contributors after one of its lists has grown. -/
theorem set_contributors {workers rank token : ℕ} {lens : ℕ → ℕ}
    {C : ℕ → ℕ → List JournalContributor} (c : List JournalContributor) :
    (tableOf workers fun r => tableOf (lens r) (C r)).set rank
        ((tableOf (lens rank) (C rank)).set token (C rank token ++ c))
      = tableOf workers fun r => tableOf (lens r) (appendAt C rank token c r) := by
  rw [set_tableOf, set_tableOf]
  refine tableOf_congr fun r _ => ?_
  by_cases hr : r = rank
  · subst hr
    rw [Function.update_self]
    refine tableOf_congr fun t _ => ?_
    by_cases ht : t = token
    · subst ht
      simp [appendAt]
    · rw [Function.update_of_ne ht]
      simp [appendAt, ht]
  · rw [Function.update_of_ne hr]
    refine tableOf_congr fun t _ => ?_
    simp [appendAt, hr]

/-- Every expert id of a token has a cell. -/
def ExpertsBelow (expertCount : ℕ) (v : RoutedToken) : Prop :=
  ∀ a ∈ v.assignments, a.expertId.toNat < expertCount

/-- A cell is inside the table. -/
theorem cell_lt {e workers d : ℕ} {a : AssignmentRecord} (hd : d < workers)
    (ha : a.expertId.toNat < e) : cell e d a < workers * e := by
  unfold cell
  calc d * e + a.expertId.toNat < d * e + e := by omega
    _ = (d + 1) * e := by ring
    _ ≤ workers * e := Nat.mul_le_mul_right e hd

/-- Every assignment of a token is counted inside the table, at its destination or a later one. -/
def CellsInside (expertCount workers : ℕ) (v : RoutedToken) : Prop :=
  ∀ d < workers, ∀ a ∈ v.group d, cell expertCount d a < workers * expertCount

theorem ExpertsBelow.cellsInside {e : ℕ} {v : RoutedToken} (h : ExpertsBelow e v) (workers : ℕ) :
    CellsInside e workers v :=
  fun _ hd a ha => cell_lt hd (h a (List.mem_filter.mp ha).1)

/-- Destination `d` has room for a token behind `b` rows and assignments. -/
def Room (config : LayoutConfig) (d : ℕ) (b : ℕ × ℕ) (v : RoutedToken) : Prop :=
  v.group d ≠ [] → b.1 < config.destinationRowCapacity.toNat ∧
    b.2 + (v.group d).length ≤ config.destinationAssignmentCapacity.toNat

section PlaceToken

variable {config : LayoutConfig} {workers : ℕ} {L : ℕ → ℕ} {R : ℕ → List DestinationRow}
  {X : ℕ → List ExpertAssignment} {K : ℕ → ℕ} {C : ℕ → ℕ → List JournalContributor}
  {v : RoutedToken} {record : TokenRecord} {token : ℕ}

/-- One destination of a token. -/
theorem placeGroup_ends (config : LayoutConfig) {d : ℕ} (hd : d < workers) (hrank : v.rank.toNat < workers)
    (htoken : token < L v.rank.toNat) (hrow : record.sourceToken = v.row)
    (hid : record.tokenId = v.tokenId) :
    Ends (placeGroup config v.rank token record (tableOf workers v.group)
        (stateOf workers (workers * config.expertCount.toNat) L R X K C) d)
      (fun st => Room config d ((R d).length, (X d).length) v ∧
        st = stateOf workers (workers * config.expertCount.toNat) L
          (Function.update R d (R d ++ rowAt d ((R d).length, (X d).length) v))
          (Function.update X d (X d ++ (alloc (cellCount config.expertCount.toNat d) K
            (v.group d)).map fun p => expertEntry (R d).length
              (p.1 (cell config.expertCount.toNat d p.2)) p.2))
          (K + total (cellCount config.expertCount.toNat d) (v.group d))
          (appendAt C v.rank.toNat token (contributorAt d ((R d).length, (X d).length) v)))
      (fun s => s = .capacityExceeded ∧ ¬ Room config d ((R d).length, (X d).length) v)
      (¬ CellsInside config.expertCount.toNat workers v) := by
  unfold placeGroup
  rw [read_of (getElem?_tableOf hd), ok_bind]
  -- a destination without assignments gets nothing
  by_cases hgroup : v.group d = []
  · rw [if_pos hgroup]
    refine ends_ok.mpr ⟨fun h => absurd hgroup h, ?_⟩
    simp [hgroup, rowAt, contributorAt, appendAt_nil]
  · rw [if_neg hgroup]
    simp only [stateOf]
    rw [read_of (getElem?_tableOf hd), ok_bind, read_of (getElem?_tableOf hd), ok_bind]
    -- the capacity is checked before anything is written
    refine Ends.bind (Ends.require (Q := fun _ => Room config d ((R d).length, (X d).length) v)
      (fun h _ => h) (fun hn => ⟨rfl, fun hroom => hn (hroom hgroup)⟩)) ?_
    intro _ hroom
    refine Ends.bind ((placeAssignments_ends (v.group d)).mono (fun _ h => h)
      (fun _ => False.elim) ?_) ?_
    · rintro ⟨a, ha, hge⟩ hinside
      exact absurd (hinside d hd a ha) (not_lt.mpr hge)
    rintro _ rfl
    have hrow' : rowAt d ((R d).length, (X d).length) v = [{
        routeKey := routeKey v.rank v.row, tokenId := v.tokenId, sourceRank := v.rank,
        sourceToken := v.row, destinationRow := UInt32.ofNat (R d).length,
        assignmentsBegin := UInt32.ofNat (X d).length,
        assignmentsCount := UInt32.ofNat (v.group d).length }] := if_neg hgroup
    have hcontributor : contributorAt d ((R d).length, (X d).length) v = [⟨UInt32.ofNat d,
        UInt32.ofNat (R d).length, UInt32.ofNat (X d).length,
        UInt32.ofNat (v.group d).length⟩] := if_neg hgroup
    simp only []
    rw [write_of_lt (by rw [length_tableOf]; exact hd), ok_bind,
      write_of_lt (by rw [length_tableOf]; exact hd), ok_bind,
      read_of (getElem?_tableOf hrank), ok_bind, read_of (getElem?_tableOf htoken), ok_bind,
      write_of_lt (by rw [length_tableOf]; exact htoken), ok_bind,
      write_of_lt (by rw [length_tableOf]; exact hrank), ok_bind]
    refine ends_ok.mpr ⟨hroom, ?_⟩
    rw [set_tableOf, set_tableOf, set_contributors, hrow', hcontributor, hrow, hid]

/-- A token at all its destinations. -/
theorem placeGroups_ends (hrank : v.rank.toNat < workers) (htoken : token < L v.rank.toNat)
    (hrow : record.sourceToken = v.row) (hid : record.tokenId = v.tokenId) :
    Ends ((List.range workers).foldlM
        (placeGroup config v.rank token record (tableOf workers v.group))
        (stateOf workers (workers * config.expertCount.toNat) L R X K C))
      (fun st => (∀ d < workers, Room config d ((R d).length, (X d).length) v) ∧
        st = stateOf workers (workers * config.expertCount.toNat) L
          (fun d => R d ++ rowAt d ((R d).length, (X d).length) v)
          (fun d => X d ++ expertsAt config.expertCount.toNat d
            (((R d).length, (X d).length), K) v)
          (K + cellsBelow config.expertCount.toNat workers v)
          (appendAt C v.rank.toNat token ((List.range workers).flatMap fun d =>
            contributorAt d ((R d).length, (X d).length) v)))
      (fun s => s = .capacityExceeded ∧
        ∃ d < workers, ¬ Room config d ((R d).length, (X d).length) v)
      (¬ CellsInside config.expertCount.toNat workers v) := by
  -- before turn `j` the destinations below `j` are served
  set e := config.expertCount.toNat with he
  refine (Ends.forRange (fun j st => (∀ d < j, Room config d ((R d).length, (X d).length) v) ∧
      st = stateOf workers (workers * e) L
        (fun d => if d < j then R d ++ rowAt d ((R d).length, (X d).length) v else R d)
        (fun d => if d < j then X d ++ expertsAt e d (((R d).length, (X d).length), K) v else X d)
        (K + cellsBelow e j v)
        (appendAt C v.rank.toNat token ((List.range j).flatMap fun d =>
          contributorAt d ((R d).length, (X d).length) v))) workers ?_ ?_).imp ?_
  · refine ⟨fun d hd => absurd hd (by omega), ?_⟩
    simp [cellsBelow, appendAt_nil]
  · rintro j hj _ ⟨hroom, rfl⟩
    have hRj : (if j < j then R j ++ rowAt j ((R j).length, (X j).length) v else R j) = R j :=
      if_neg (by omega)
    have hXj : (if j < j then X j ++ expertsAt e j (((R j).length, (X j).length), K) v else X j)
        = X j := if_neg (by omega)
    have hstep := placeGroup_ends config (L := L)
      (R := fun d => if d < j then R d ++ rowAt d ((R d).length, (X d).length) v else R d)
      (X := fun d => if d < j then X d ++ expertsAt e d (((R d).length, (X d).length), K) v
        else X d) (K := K + cellsBelow e j v)
      (C := appendAt C v.rank.toNat token ((List.range j).flatMap fun d =>
          contributorAt d ((R d).length, (X d).length) v)) hj hrank htoken hrow hid
    simp only [hRj, hXj] at hstep
    refine hstep.mono ?_ (fun s hs => ⟨hs.1, j, hj, hs.2⟩) id
    rintro _ ⟨hr, rfl⟩
    refine ⟨fun d hd => ?_, ?_⟩
    · rcases Nat.lt_succ_iff_lt_or_eq.mp hd with h | rfl
      · exact hroom d h
      · exact hr
    · unfold stateOf
      congr 1
      · refine tableOf_congr fun d _ => ?_
        by_cases hdj : d = j
        · subst hdj
          rw [Function.update_self, if_pos (by omega)]
        · rw [Function.update_of_ne hdj]
          by_cases hlt : d < j
          · rw [if_pos hlt, if_pos (by omega)]
          · rw [if_neg hlt, if_neg (by omega)]
      · refine tableOf_congr fun d _ => ?_
        by_cases hdj : d = j
        · subst hdj
          rw [Function.update_self, if_pos (by omega)]
          rfl
        · rw [Function.update_of_ne hdj]
          by_cases hlt : d < j
          · rw [if_pos hlt, if_pos (by omega)]
          · rw [if_neg hlt, if_neg (by omega)]
      · rw [cellsBelow, cellsBelow, List.range_succ, total_append, total_singleton, add_assoc]
      · rw [appendAt_appendAt, List.range_succ, List.flatMap_append, List.flatMap_singleton]
  · rintro _ ⟨hroom, rfl⟩
    refine ⟨hroom, ?_⟩
    unfold stateOf
    congr 1
    · exact tableOf_congr fun d hd => if_pos hd
    · exact tableOf_congr fun d hd => if_pos hd

end PlaceToken

/-! ## Placing a wave -/

/-- The tokens of rank `r`. -/
def sourceTokens (srcs : List ParsedSource) (r : ℕ) : List RoutedToken :=
  srcs[r]?.elim [] ParsedSource.routed

/-- The tokens of a wave in arrival order. -/
def visits (srcs : List ParsedSource) (order : List UInt32) : List RoutedToken :=
  order.flatMap fun rank => sourceTokens srcs rank.toNat

/-- No destination has given out more than it has. -/
def Fits (config : LayoutConfig) (vs : List RoutedToken) : Prop :=
  ∀ d < config.workerCount.toNat, (taken d vs).1 ≤ config.destinationRowCapacity.toNat ∧
    (taken d vs).2 ≤ config.destinationAssignmentCapacity.toNat

/-- The layout state after the tokens `vs`. -/
def placedState (config : LayoutConfig) (srcs : List ParsedSource) (vs : List RoutedToken) :
    LayoutState :=
  stateOf config.workerCount.toNat (config.workerCount.toNat * config.expertCount.toNat)
    (fun r => (sourceTokens srcs r).length) (fun d => rowsOf d vs)
    (fun d => expertsOf config.expertCount.toNat config.workerCount.toNat d vs)
    (total (cellsBelow config.expertCount.toNat config.workerCount.toNat) vs)
    (contributorsOf config.workerCount.toNat vs)

theorem fits_nil (config : LayoutConfig) : Fits config [] := fun d _ => by simp

/-- A beginning of what fits does. -/
theorem Fits.append_left {config : LayoutConfig} {vs ws : List RoutedToken}
    (h : Fits config (vs ++ ws)) : Fits config vs := by
  intro d hd
  have := h d hd
  rw [taken_append, Prod.fst_add, Prod.snd_add] at this
  omega

/-- One more token fits if every worker has room for it. -/
theorem fits_concat {config : LayoutConfig} {vs : List RoutedToken} {v : RoutedToken} :
    Fits config (vs ++ [v]) ↔
      Fits config vs ∧ ∀ d < config.workerCount.toNat, Room config d (taken d vs) v := by
  constructor
  · intro h
    refine ⟨h.append_left, fun d hd hgroup => ?_⟩
    have := h d hd
    rw [taken_concat, Prod.fst_add, Prod.snd_add, need, if_neg hgroup] at this
    exact ⟨this.1, this.2⟩
  · rintro ⟨hfits, hroom⟩ d hd
    rw [taken_concat]
    by_cases hgroup : v.group d = []
    · rw [need, if_pos hgroup, add_zero]
      exact hfits d hd
    · rw [need, if_neg hgroup]
      exact hroom d hd hgroup

theorem fits_perm (config : LayoutConfig) {vs ws : List RoutedToken} (h : vs.Perm ws) :
    Fits config vs ↔ Fits config ws := by
  unfold Fits
  simp only [taken_perm h]

section Wave

variable {session : SessionConfig} {config : LayoutConfig} {sources srcs : List ParsedSource}
  {st : CollectState}

/-- What the later loops know about the source of a rank. -/
theorem Collected.source (hc : Collected session config sources st srcs)
    (hvalid : ∀ source ∈ sources, SourceValid session source)
    (hlen : sources.length = config.workerCount.toNat) {r : ℕ}
    (hr : r < config.workerCount.toNat) :
    ∃ source, srcs[r]? = some source ∧ (sourceAt st.byRank r) = .ok source ∧
      SourceValid session source ∧ source.header.sourceRank.toNat = r ∧
      sourceTokens srcs r = source.routed := by
  have hsize : srcs.length = config.workerCount.toNat := hc.perm.length_eq.trans hlen
  obtain ⟨source, hsource⟩ : ∃ source, srcs[r]? = some source :=
    ⟨_, List.getElem?_eq_getElem (by omega)⟩
  refine ⟨source, hsource, ?_, ?_, hc.rank r source hsource, ?_⟩
  · unfold sourceAt
    have hget : st.byRank[r]? = some (some source) := by
      rw [hc.byRank, List.getElem?_map, hsource]
      rfl
    rw [read_of hget, ok_bind]
  · exact hvalid source (hc.perm.mem_iff.mp (List.mem_of_getElem? hsource))
  · rw [sourceTokens, hsource]
    rfl

/-- One token of a source. -/
theorem placeToken_ends {source : ParsedSource} {rank : UInt32} {k : ℕ} {record : TokenRecord}
    {vs : List RoutedToken} (hvalid : SourceValid session source)
    (hworkers : session.workerCount = config.workerCount)
    (hrank : source.header.sourceRank = rank) (htokens : sourceTokens srcs rank.toNat = source.routed)
    (hrecord : source.tokens[k]? = some record) (hfits : Fits config vs) :
    Ends (placeToken config rank source (placedState config srcs vs) k)
      (fun placed => Fits config (vs ++ [source.routedToken record]) ∧
        placed = placedState config srcs (vs ++ [source.routedToken record]))
      (fun s => s = .capacityExceeded ∧ ¬ Fits config (vs ++ [source.routedToken record]))
      (¬ CellsInside config.expertCount.toNat config.workerCount.toNat
        (source.routedToken record)) := by
  have htoken := hvalid.csr.token k record hrecord
  obtain ⟨v, hv⟩ : ∃ v, v = source.routedToken record := ⟨_, rfl⟩
  have hvrank : v.rank = rank := by rw [hv]; exact hrank
  have hvrow : v.row.toNat = k := by rw [hv]; exact htoken.sourceToken
  have hlt : v.rank.toNat < config.workerCount.toNat := by
    rw [hvrank, ← hrank, ← hworkers]
    exact UInt32.lt_iff_toNat_lt.mp hvalid.rank
  have hk : k < (sourceTokens srcs v.rank.toNat).length := by
    rw [hvrank, htokens, ParsedSource.routed, List.length_map]
    exact (List.getElem?_eq_some_iff.mp hrecord).1
  unfold placeToken
  rw [read_of hrecord, ok_bind,
    groupAssignments_ok hvalid hrecord (congrArg UInt32.toNat hworkers), ok_bind, ← hv, ← hvrank]
  refine (placeGroups_ends (L := fun r => (sourceTokens srcs r).length) hlt hk
    (by rw [hv]; rfl) (by rw [hv]; rfl)).mono ?_ ?_ id
  · rintro placed ⟨hroom, rfl⟩
    simp only [length_rowsOf, length_expertsOf] at hroom ⊢
    refine ⟨fits_concat.mpr ⟨hfits, hroom⟩, ?_⟩
    unfold placedState stateOf
    congr 1
    · exact tableOf_congr fun d _ => (rowsOf_concat d vs v).symm
    · exact tableOf_congr fun d _ => (expertsOf_concat _ _ d vs v).symm
    · rw [total_append, total_singleton]
    · refine tableOf_congr fun r _ => tableOf_congr fun t _ => ?_
      rw [contributorsOf_concat, appendAt, ← hvrow]
      by_cases h : r = v.rank.toNat ∧ t = v.row.toNat
      · rw [if_pos h, if_pos ⟨h.1.symm, h.2.symm⟩]
        rfl
      · rw [if_neg h, if_neg fun h' => h ⟨h'.1.symm, h'.2.symm⟩]
  · rintro s ⟨rfl, d, hd, hroom⟩
    refine ⟨rfl, fun hfit => hroom ?_⟩
    simp only [length_rowsOf, length_expertsOf]
    exact (fits_concat.mp hfit).2 d hd

/-- The whole wave in arrival order. -/
theorem placeSources_ends (hc : Collected session config sources st srcs)
    (hvalid : ∀ source ∈ sources, SourceValid session source)
    (hlen : sources.length = config.workerCount.toNat) (order : List UInt32)
    (horder : ∀ rank ∈ order, rank.toNat < config.workerCount.toNat) :
    Ends (order.foldlM (placeSource config st.byRank) (placedState config srcs []))
      (fun placed => Fits config (visits srcs order) ∧
        placed = placedState config srcs (visits srcs order))
      (fun s => s = .capacityExceeded ∧ ¬ Fits config (visits srcs order))
      (¬ ∀ v ∈ visits srcs order,
        CellsInside config.expertCount.toNat config.workerCount.toNat v) := by
  -- after some ranks, what was placed is the layout of their tokens
  refine Ends.foldlM (fun pre placed => Fits config (visits srcs pre) ∧
    placed = placedState config srcs (visits srcs pre)) order ⟨fits_nil config, rfl⟩ ?_
  rintro pre rank post _ hsplit ⟨hfits, rfl⟩
  have hr : rank.toNat < config.workerCount.toNat := horder rank (by rw [hsplit]; simp)
  obtain ⟨source, hsource, hat, hsv, hsrank, htokens⟩ := hc.source hvalid hlen hr
  have hall : visits srcs order
      = visits srcs pre ++ (source.routed ++ visits srcs post) := by
    rw [hsplit, visits, List.flatMap_append, List.flatMap_cons, htokens]
    rfl
  have hnext : visits srcs (pre ++ [rank]) = visits srcs pre ++ source.routed := by
    rw [visits, List.flatMap_append, List.flatMap_singleton, htokens]
    rfl
  unfold placeSource
  rw [hat, ok_bind, hnext]
  refine (Ends.forRange (fun k placed => Fits config (visits srcs pre ++ source.routed.take k) ∧
    placed = placedState config srcs (visits srcs pre ++ source.routed.take k))
    source.tokens.length ?_ ?_).imp ?_
  · rw [List.take_zero, List.append_nil]
    exact ⟨hfits, rfl⟩
  · rintro k hk _ ⟨hfit, rfl⟩
    have hrecord : source.tokens[k]? = some source.tokens[k] := List.getElem?_eq_getElem hk
    have hget : source.routed[k]? = some (source.routedToken source.tokens[k]) := by
      rw [ParsedSource.routed, List.getElem?_map, hrecord]
      rfl
    obtain ⟨htake, hsplitk⟩ := take_succ_of_getElem? hget
    -- a front of the wave that does not fit does not fit with the rest either
    have hfront : visits srcs order = (visits srcs pre ++ source.routed.take k
        ++ [source.routedToken source.tokens[k]])
        ++ (source.routed.drop (k + 1) ++ visits srcs post) := by
      rw [hall]
      conv_lhs => rw [hsplitk]
      simp
    have hstep := placeToken_ends hsv hc.workerCount (UInt32.toNat_inj.mp hsrank) htokens hrecord hfit
    rw [htake, ← List.append_assoc]
    refine hstep.mono (fun _ h => h) ?_ ?_
    · rintro s ⟨hs, hn⟩
      refine ⟨hs, fun hfitAll => hn ?_⟩
      rw [hfront] at hfitAll
      exact hfitAll.append_left
    · intro hn hinside
      exact hn (hinside _ (by rw [hfront]; simp))
  · intro placed h
    rwa [show source.tokens.length = source.routed.length by simp [ParsedSource.routed],
      List.take_length] at h

end Wave

/-! ## The journal -/

/-- All tokens of a wave in owner order. -/
def ownerOrder (srcs : List ParsedSource) : List RoutedToken := srcs.flatMap ParsedSource.routed

/-- What a token takes in the journal: entries, contributors, assignments. -/
def journalNeed (C : ℕ → ℕ → List JournalContributor) (v : RoutedToken) : ℕ × ℕ × ℕ :=
  (1, (C v.rank.toNat v.row.toNat).length, v.assignments.length)

/-- The journal entry of a token with `n` contributors, behind `b`. -/
def entryAt (b : ℕ × ℕ × ℕ) (n : ℕ) (v : RoutedToken) : JournalTokenEntry :=
  { routeKey := routeKey v.rank v.row, tokenId := v.tokenId, ownerRank := v.rank,
    ownerRow := v.row, contributorsBegin := UInt32.ofNat b.2.1,
    contributorsCount := UInt32.ofNat n, assignmentsBegin := UInt32.ofNat b.2.2,
    assignmentsCount := UInt32.ofNat v.assignments.length, accumulatorIndex := UInt32.ofNat b.1 }

/-- The journal of the tokens `vs` with contributors `C`. -/
def journalOf (C : ℕ → ℕ → List JournalContributor) (cookie : UInt64) (vs : List RoutedToken) :
    JournalState where
  cookie := cookie
  tokens := emit (fun b v => [entryAt b (C v.rank.toNat v.row.toNat).length v]) (journalNeed C) 0 vs
  contributors := vs.flatMap fun v => C v.rank.toNat v.row.toNat
  assignments := vs.flatMap RoutedToken.assignments

/-- Entries, contributors and assignments have 32-bit indices. -/
def JournalFits (C : ℕ → ℕ → List JournalContributor) (vs : List RoutedToken) : Prop :=
  vs.length ≤ 0xffffffff ∧ (vs.flatMap fun v => C v.rank.toNat v.row.toNat).length ≤ 0xffffffff ∧
    (vs.flatMap RoutedToken.assignments).length ≤ 0xffffffff

theorem JournalFits.append_left {C : ℕ → ℕ → List JournalContributor} {vs ws : List RoutedToken}
    (h : JournalFits C (vs ++ ws)) : JournalFits C vs := by
  obtain ⟨h1, h2, h3⟩ := h
  rw [List.length_append] at h1
  rw [List.flatMap_append, List.length_append] at h2 h3
  exact ⟨by omega, by omega, by omega⟩

/-- How much the journal of `vs` holds. -/
theorem total_journalNeed (C : ℕ → ℕ → List JournalContributor) (vs : List RoutedToken) :
    total (journalNeed C) vs
      = (vs.length, (vs.flatMap fun v => C v.rank.toNat v.row.toNat).length,
          (vs.flatMap RoutedToken.assignments).length) := by
  induction vs with
  | nil => rfl
  | cons v vs ih =>
    rw [total_cons, ih, journalNeed, Prod.mk_add_mk, Prod.mk_add_mk, List.flatMap_cons,
      List.flatMap_cons, List.length_append, List.length_append, List.length_cons, Nat.add_comm 1]

@[simp] theorem length_journalOf_tokens (C : ℕ → ℕ → List JournalContributor) (cookie : UInt64)
    (vs : List RoutedToken) : (journalOf C cookie vs).tokens.length = vs.length := by
  have h := length_emit (fun b v => [entryAt b (C v.rank.toNat v.row.toNat).length v])
    (journalNeed C) (AddMonoidHom.fst ℕ (ℕ × ℕ)) (fun b v => rfl) 0 vs
  rw [total_journalNeed] at h
  exact h

/-- One more token of the journal. -/
theorem journalOf_concat (C : ℕ → ℕ → List JournalContributor) (cookie : UInt64)
    (vs : List RoutedToken) (v : RoutedToken) :
    journalOf C cookie (vs ++ [v]) =
      ⟨cookie, (journalOf C cookie vs).tokens
          ++ [entryAt (vs.length, (journalOf C cookie vs).contributors.length,
            (journalOf C cookie vs).assignments.length) (C v.rank.toNat v.row.toNat).length v],
        (journalOf C cookie vs).contributors ++ C v.rank.toNat v.row.toNat,
        (journalOf C cookie vs).assignments ++ v.assignments⟩ := by
  unfold journalOf
  rw [emit_concat, zero_add, total_journalNeed, List.flatMap_append, List.flatMap_append,
    List.flatMap_singleton, List.flatMap_singleton]

/-- One token of the journal loop. -/
theorem journalToken_ends {session : SessionConfig} {source : ParsedSource} {k : ℕ}
    {record : TokenRecord} {C : ℕ → ℕ → List JournalContributor} {cookie : UInt64}
    {vs : List RoutedToken} {n rank : ℕ} (hvalid : SourceValid session source)
    (hrecord : source.tokens[k]? = some record) (hn : k < n)
    (hrank : source.header.sourceRank.toNat = rank) :
    Ends (journalToken rank source (tableOf n (C rank)) (journalOf C cookie vs) k)
      (fun st => (JournalFits C vs → JournalFits C (vs ++ [source.routedToken record])) ∧
        st = journalOf C cookie (vs ++ [source.routedToken record]))
      (fun s => s = .sizeOverflow ∧ ¬ JournalFits C (vs ++ [source.routedToken record])) False := by
  have htoken := hvalid.csr.token k record hrecord
  have hcount := htoken.length_assignmentsOf hrecord
  obtain ⟨v, hv⟩ : ∃ v, v = source.routedToken record := ⟨_, rfl⟩
  have hvrank : v.rank.toNat = rank := by rw [hv]; exact hrank
  have hvrow : v.row.toNat = k := by rw [hv]; exact htoken.sourceToken
  have hvlen : v.assignments.length = record.assignmentCount.toNat := by rw [hv]; exact hcount
  -- the three bounds of the loop are those of the journal with this token
  have hfits : JournalFits C (vs ++ [v]) ↔
      (journalOf C cookie vs).tokens.length < 0xffffffff ∧
      (journalOf C cookie vs).contributors.length + (C rank k).length ≤ 0xffffffff ∧
      (journalOf C cookie vs).assignments.length + record.assignmentCount.toNat ≤ 0xffffffff := by
    unfold JournalFits
    rw [List.length_append, List.flatMap_append, List.flatMap_append, List.flatMap_singleton,
      List.flatMap_singleton, List.length_append, List.length_append, hvlen, hvrank, hvrow,
      length_journalOf_tokens]
    exact Iff.rfl
  unfold journalToken
  rw [← hv, read_of hrecord, ok_bind, read_of (getElem?_tableOf hn), ok_bind]
  refine Ends.bind (Ends.require (Q := fun _ => JournalFits C (vs ++ [v])) hfits.mpr
    (fun hno => ⟨rfl, fun h => hno (hfits.mp h)⟩)) ?_
  intro _ hfit
  have hend := htoken.inRange
  rw [beginOf_succ hrecord, ← htoken.assignmentBegin] at hend
  simp only []
  rw [if_pos hend]
  refine ends_ok.mpr ⟨fun _ => hfit, ?_⟩
  rw [journalOf_concat, hvrank, hvrow, length_journalOf_tokens]
  -- the record that is written is the entry of the token
  have hentry : entryAt (vs.length, (journalOf C cookie vs).contributors.length,
      (journalOf C cookie vs).assignments.length) (C rank k).length v
      = { routeKey := routeKey (UInt32.ofNat rank) record.sourceToken, tokenId := record.tokenId,
          ownerRank := UInt32.ofNat rank, ownerRow := record.sourceToken,
          contributorsBegin := UInt32.ofNat (journalOf C cookie vs).contributors.length,
          contributorsCount := UInt32.ofNat (C rank k).length,
          assignmentsBegin := UInt32.ofNat (journalOf C cookie vs).assignments.length,
          assignmentsCount := record.assignmentCount,
          accumulatorIndex := UInt32.ofNat vs.length } := by
    have h1 : UInt32.ofNat rank = v.rank := by rw [← hvrank, UInt32.ofNat_toNat]
    have h2 : UInt32.ofNat v.assignments.length = record.assignmentCount := by
      rw [hvlen, UInt32.ofNat_toNat]
    rw [entryAt, h1, h2, hv]
    rfl
  rw [hentry, hv]
  rfl

/-- The digests of the sources, hashed in rank order. -/
def cookieOf (srcs : List ParsedSource) : UInt64 :=
  srcs.foldl (fun cookie source => hashBytes cookie (Codec.u64.enc source.header.metadataDigest))
    kHashOffset

section Wave

variable {session : SessionConfig} {config : LayoutConfig} {sources srcs : List ParsedSource}
  {st : CollectState}

/-- The journal of a placed wave. -/
theorem journalSources_ends (hc : Collected session config sources st srcs)
    (hvalid : ∀ source ∈ sources, SourceValid session source)
    (hlen : sources.length = config.workerCount.toNat) (C : ℕ → ℕ → List JournalContributor) :
    Ends ((List.range config.workerCount.toNat).foldlM (journalSource st.byRank
        (tableOf config.workerCount.toNat fun r => tableOf (sourceTokens srcs r).length (C r))) {})
      (fun journal => JournalFits C (ownerOrder srcs) ∧
        journal = journalOf C (cookieOf srcs) (ownerOrder srcs))
      (fun s => s = .sizeOverflow ∧ ¬ JournalFits C (ownerOrder srcs)) False := by
  have hsize : srcs.length = config.workerCount.toNat := hc.perm.length_eq.trans hlen
  refine (Ends.forRange (fun r journal => JournalFits C (ownerOrder (srcs.take r)) ∧
    journal = journalOf C (cookieOf (srcs.take r)) (ownerOrder (srcs.take r))) _ ?_ ?_).imp ?_
  · rw [List.take_zero]
    exact ⟨⟨by simp [ownerOrder], by simp [ownerOrder], by simp [ownerOrder]⟩, rfl⟩
  · rintro r hr _ ⟨hfits, rfl⟩
    obtain ⟨source, hsource, hat, hsv, hsrank, htokens⟩ := hc.source hvalid hlen hr
    obtain ⟨htake, hsplit⟩ := take_succ_of_getElem? hsource
    have howner : ownerOrder (srcs.take (r + 1))
        = ownerOrder (srcs.take r) ++ source.routed := by
      rw [htake, ownerOrder, List.flatMap_append, List.flatMap_singleton]
      rfl
    have hall : ownerOrder srcs = ownerOrder (srcs.take r)
        ++ (source.routed ++ ownerOrder (srcs.drop (r + 1))) := by
      conv_lhs => rw [hsplit]
      rw [ownerOrder, List.flatMap_append, List.flatMap_cons]
      rfl
    -- the cookie takes the digest of a source in before its tokens
    have hcookie : cookieOf (srcs.take (r + 1)) = hashBytes (cookieOf (srcs.take r))
        (Codec.u64.enc source.header.metadataDigest) := by
      rw [htake, cookieOf, List.foldl_append, List.foldl_cons, List.foldl_nil, cookieOf]
    have hnext : hashBytes (journalOf C (cookieOf (srcs.take r)) (ownerOrder (srcs.take r))).cookie
        (Codec.u64.enc source.header.metadataDigest) = cookieOf (srcs.take (r + 1)) := hcookie.symm
    unfold journalSource
    rw [hat, ok_bind, read_of (getElem?_tableOf hr), ok_bind, howner, htokens]
    simp only [hnext]
    refine (Ends.forRange (fun k journal =>
      JournalFits C (ownerOrder (srcs.take r) ++ source.routed.take k) ∧
      journal = journalOf C (cookieOf (srcs.take (r + 1)))
        (ownerOrder (srcs.take r) ++ source.routed.take k)) source.tokens.length ?_ ?_).imp ?_
    · rw [List.take_zero, List.append_nil]
      exact ⟨hfits, rfl⟩
    · rintro k hk _ ⟨hfit, rfl⟩
      have hrecord : source.tokens[k]? = some source.tokens[k] := List.getElem?_eq_getElem hk
      have hget : source.routed[k]? = some (source.routedToken source.tokens[k]) := by
        rw [ParsedSource.routed, List.getElem?_map, hrecord]
        rfl
      obtain ⟨htakek, hsplitk⟩ := take_succ_of_getElem? hget
      -- a front of the journal that does not fit does not fit with the rest either
      have hfront : ownerOrder srcs = (ownerOrder (srcs.take r) ++ source.routed.take k
          ++ [source.routedToken source.tokens[k]])
          ++ (source.routed.drop (k + 1) ++ ownerOrder (srcs.drop (r + 1))) := by
        rw [hall]
        conv_lhs => rw [hsplitk]
        simp
      rw [htakek, ← List.append_assoc]
      refine (journalToken_ends hsv hrecord (by simpa [ParsedSource.routed] using hk)
        hsrank).mono (fun _ h => ⟨h.1 hfit, h.2⟩) ?_ id
      rintro s ⟨hs, hn⟩
      refine ⟨hs, fun hfitAll => hn ?_⟩
      rw [hfront] at hfitAll
      exact hfitAll.append_left
    · intro journal h
      rwa [show source.tokens.length = source.routed.length by simp [ParsedSource.routed],
        List.take_length] at h
  · intro journal h
    rwa [← hsize, List.take_length] at h

end Wave

/-! ## The uniform flag -/

/-- The uniform test of one token neither fails nor reads outside. -/
theorem uniformToken_ends {session : SessionConfig} {source : ParsedSource} {k : ℕ}
    {workers : UInt32} (hvalid : SourceValid session source)
    (hworkers : session.workerCount = workers) (hk : k < source.tokens.length)
    (reference : Option (List Bool)) :
    Ends (uniformToken workers source reference k) (fun _ => True) (fun _ => False) False := by
  have hrecord : source.tokens[k]? = some source.tokens[k] := List.getElem?_eq_getElem hk
  have htoken := hvalid.csr.token k _ hrecord
  have hlen := htoken.length_assignmentsOf hrecord
  have hsize : source.assignments.length < 2 ^ 32 :=
    hvalid.assignmentCount ▸ source.header.assignmentCount.toNat_lt
  unfold uniformToken
  cases reference with
  | none => exact ends_ok.mpr trivial
  | some reference =>
    simp only []
    rw [read_of hrecord, ok_bind]
    -- the flags keep the length of the workers, and every destination is a worker
    refine Ends.bind (Ends.forRange (fun _ destinations =>
      ∀ flags, destinations = some flags → flags.length = workers.toNat) _ ?_ ?_) ?_
    · intro flags hflags
      rw [← Option.some.inj hflags, List.length_replicate]
    · intro j hj destinations hflags
      unfold markDestination
      cases destinations with
      | none => exact ends_ok.mpr hflags
      | some flags =>
        have hjl : j < (source.assignmentsOf source.tokens[k]).length := by omega
        have hget : (source.assignmentsOf source.tokens[k])[j]?
            = some (source.assignmentsOf source.tokens[k])[j] := List.getElem?_eq_getElem hjl
        have hdest := (htoken.assignments.1 _ (List.mem_of_getElem? hget)).1
        rw [hworkers] at hdest
        replace hdest := UInt32.lt_iff_toNat_lt.mp hdest
        have hflen := hflags flags rfl
        simp only []
        rw [read_of ((htoken.getElem?_assignments hrecord hsize hj).trans hget), ok_bind,
          read_of_lt (by omega), ok_bind]
        split
        · exact ends_ok.mpr fun _ h => by cases h
        · rw [write_of_lt (by omega), ok_bind]
          refine ends_ok.mpr fun flags' h => ?_
          rw [← Option.some.inj h, List.length_set, hflen]
    · intro destinations _
      cases destinations with
      | none => exact ends_ok.mpr trivial
      | some flags =>
        simp only []
        split
        · exact ends_ok.mpr trivial
        · split <;> exact ends_ok.mpr trivial

/-- The uniform flag is computed without a fault. -/
theorem uniformSources_ok {session : SessionConfig} {config : LayoutConfig}
    {sources srcs : List ParsedSource} {st : CollectState}
    (hc : Collected session config sources st srcs)
    (hvalid : ∀ source ∈ sources, SourceValid session source)
    (hlen : sources.length = config.workerCount.toNat) :
    ∃ uniform, (List.range config.workerCount.toNat).foldlM
      (uniformSource config.workerCount st.byRank) true = .ok uniform := by
  have hrun : Ends ((List.range config.workerCount.toNat).foldlM
      (uniformSource config.workerCount st.byRank) true) (fun _ => True) (fun _ => False)
      False := by
    refine Ends.forRange (fun _ _ => True) _ trivial ?_
    intro r hr uniform _
    obtain ⟨source, -, hat, hsv, -⟩ := hc.source hvalid hlen hr
    unfold uniformSource
    split
    · rw [hat, ok_bind]
      refine Ends.bind (Ends.forRange (fun _ _ => True) _ trivial fun k hk reference _ =>
        uniformToken_ends hsv hc.workerCount hk reference) fun _ _ => ends_ok.mpr trivial
    · exact ends_ok.mpr trivial
  obtain ⟨uniform, huniform, -⟩ := hrun.exists_ok
  exact ⟨uniform, huniform⟩

/-! ## The compiler -/

/-- The layout of a wave. -/
def layoutOf (config : LayoutConfig) (st : CollectState) (srcs : List ParsedSource)
    (vs : List RoutedToken) (uniform : Bool) : CompiledLayout :=
  let journal := journalOf (contributorsOf config.workerCount.toNat vs) (cookieOf srcs)
    (ownerOrder srcs)
  { journalHeader := sealedHeader st journal uniform
    journalTokens := journal.tokens
    contributors := journal.contributors
    journalAssignments := journal.assignments
    destinationRows := tableOf config.workerCount.toNat fun d => rowsOf d vs
    expertAssignments := tableOf config.workerCount.toNat fun d =>
      expertsOf config.expertCount.toNat config.workerCount.toNat d vs
    expertCounts := countsOf (config.workerCount.toNat * config.expertCount.toNat)
      (total (cellsBelow config.expertCount.toNat config.workerCount.toNat) vs) }

/-- The collecting loop of a run. -/
def collectRun (config : LayoutConfig) (sources : List ParsedSource) : Exec Status CollectState :=
  sources.foldlM (collectSource config) { byRank := List.replicate config.workerCount.toNat none }

/-- The collection ends with the source of every rank, or refuses the sources. -/
theorem collectRun_ends {session : SessionConfig} {config : LayoutConfig}
    {sources : List ParsedSource} (hvalid : ∀ source ∈ sources, SourceValid session source)
    (hlen : sources.length = config.workerCount.toNat) (htwo : 2 ≤ config.workerCount.toNat) :
    Ends (collectRun config sources)
      (fun st => ∃ srcs, Collected session config sources st srcs) (fun _ => True) False := by
  refine (Ends.foldlM (CollectInvariant session config) sources ?_ ?_).imp
    fun st h => h.collected hlen htwo
  · refine ⟨?_, onceBelow_nil _, by simp, fun _ => rfl, fun h => by simp at h⟩
    rw [replicate_eq_tableOf]
    rfl
  · intro pre source post st hsplit hst
    exact collectSource_step hst (hvalid source (by rw [hsplit]; simp))

/-- How the compiler ends on a collected wave. -/
theorem compileLayout_ends {session : SessionConfig} {config : LayoutConfig}
    {sources srcs : List ParsedSource} {st : CollectState} {order : List UInt32}
    (hvalid : ∀ source ∈ sources, SourceValid session source)
    (hinput : layoutInputValid sources order config)
    (horder : (order.map UInt32.toNat).Perm (List.range config.workerCount.toNat))
    (hcollect : collectRun config sources = .ok st)
    (hc : Collected session config sources st srcs) :
    Ends (compileLayout sources order config)
      (fun layout => Fits config (visits srcs order) ∧
        JournalFits (contributorsOf config.workerCount.toNat (visits srcs order))
          (ownerOrder srcs) ∧
        ∃ uniform, (List.range config.workerCount.toNat).foldlM
            (uniformSource config.workerCount st.byRank) true = .ok uniform ∧
          layout = layoutOf config st srcs (visits srcs order) uniform)
      (fun s => (s = .capacityExceeded ∧ ¬ Fits config (visits srcs order)) ∨
        (s = .sizeOverflow ∧ Fits config (visits srcs order) ∧
          ¬ JournalFits (contributorsOf config.workerCount.toNat (visits srcs order))
            (ownerOrder srcs)))
      (¬ ∀ v ∈ visits srcs order,
        CellsInside config.expertCount.toNat config.workerCount.toNat v) := by
  have hlen : sources.length = config.workerCount.toNat := hinput.2.2.2.2.2.1
  have hranks : ∀ rank ∈ order, rank.toNat < config.workerCount.toNat := fun rank hrank =>
    List.mem_range.mp (horder.mem_iff.mp (List.mem_map_of_mem hrank))
  obtain ⟨seen, hseen⟩ := checkArrival_ok horder
  obtain ⟨uniform, huniform⟩ := uniformSources_ok hc hvalid hlen
  -- the contributor table starts empty, with a row for every token of a source
  have hempty : (List.range config.workerCount.toNat).foldlM (emptyContributors st.byRank) []
      = .ok (tableOf config.workerCount.toNat fun r =>
          tableOf (sourceTokens srcs r).length fun _ => []) := by
    have hrun : Ends ((List.range config.workerCount.toNat).foldlM (emptyContributors st.byRank) [])
        (fun map => map = tableOf config.workerCount.toNat fun r =>
          tableOf (sourceTokens srcs r).length fun _ => []) (fun _ => False) False := by
      refine Ends.forRange (fun r map => map = tableOf r fun r =>
        tableOf (sourceTokens srcs r).length fun _ => []) _ rfl ?_
      rintro r hr _ rfl
      obtain ⟨source, -, hat, -, -, htokens⟩ := hc.source hvalid hlen hr
      unfold emptyContributors
      rw [hat, ok_bind, replicate_eq_tableOf]
      refine ends_ok.mpr ?_
      rw [tableOf_succ, htokens, ParsedSource.routed, List.length_map]
    obtain ⟨map, hmap, rfl⟩ := hrun.exists_ok
    exact hmap
  -- the state before the first source is the layout of no tokens
  have hinit : (⟨List.replicate config.workerCount.toNat [],
      List.replicate config.workerCount.toNat [],
      List.replicate (config.workerCount.toNat * config.expertCount.toNat) 0,
      tableOf config.workerCount.toNat fun r =>
        tableOf (sourceTokens srcs r).length fun _ => []⟩ : LayoutState)
      = placedState config srcs [] := by
    rw [replicate_eq_tableOf, replicate_eq_tableOf, replicate_eq_tableOf]
    rfl
  unfold compileLayout
  rw [require_of ⟨rfl, hinput⟩, ok_bind]
  simp only []
  rw [show sources.foldlM (collectSource config)
      { byRank := List.replicate config.workerCount.toNat none } = .ok st from hcollect, ok_bind,
    hseen, ok_bind, hempty, ok_bind, hinit]
  refine Ends.bind ((placeSources_ends hc hvalid hlen order hranks).mono (fun _ h => h)
    (fun _ h => Or.inl h) id) ?_
  rintro _ ⟨hfits, rfl⟩
  refine Ends.bind ((journalSources_ends hc hvalid hlen
    (contributorsOf config.workerCount.toNat (visits srcs order))).mono (fun _ h => h)
    (fun _ h => Or.inr ⟨h.1, hfits, h.2⟩) False.elim) ?_
  rintro _ ⟨hjournal, rfl⟩
  rw [huniform, ok_bind]
  exact ends_ok.mpr ⟨hfits, hjournal, uniform, rfl, rfl⟩

end AscendShmem.PullV2
