import Mathlib
import AscendShmem.PullV2.ArrivalOrder

/-!
# The order of the sources

The collecting loop of `CompileLayout` compares every source with the first one, and tests
`worker_count` in the same branch, so the first source is the only one whose `worker_count` nobody
looks at. `collectRun_status` says how the loop ends on any list of sources, and from it
`mixed_waves_iff` for which lists the compiler answers the same in every order and refuses what
does not belong to one wave.
-/

namespace AscendShmem.PullV2

open Lib Lib.Exec

/-- The wave a source says it is part of. -/
def ParsedSource.epoch (source : ParsedSource) : UInt64 × UInt64 × UInt32 × UInt16 :=
  (source.header.generation, source.header.sequence, source.header.wave, source.header.ringSlot)

/-- The rank of a source. -/
def ParsedSource.rank (source : ParsedSource) : ℕ := source.header.sourceRank.toNat

/-- What the loop asks of a source behind the first one. -/
def Follows (config : LayoutConfig) (first source : ParsedSource) : Prop :=
  source.epoch = first.epoch ∧ source.header.workerCount = config.workerCount

instance (config : LayoutConfig) (first source : ParsedSource) :
    Decidable (Follows config first source) := inferInstanceAs (Decidable (_ ∧ _))

/-- Every source has a rank of its own. -/
def RanksValid (config : LayoutConfig) (sources : List ParsedSource) : Prop :=
  OnceBelow config.workerCount.toNat (sources.map ParsedSource.rank)

/-! ## The collecting loop -/

/-- The state of the loop after the sources `pre`. -/
def collectState (config : LayoutConfig) : List ParsedSource → CollectState
  | [] => { byRank := List.replicate config.workerCount.toNat none }
  | first :: rest =>
    ⟨(List.range config.workerCount.toNat).map (rankedSource (first :: rest)),
      first.header.generation, first.header.sequence, first.header.wave, first.header.ringSlot⟩

/-- The collection keeps the sources by rank. -/
theorem collectState_byRank (config : LayoutConfig) (pre : List ParsedSource) :
    (collectState config pre).byRank
      = (List.range config.workerCount.toNat).map (rankedSource pre) := by
  cases pre with
  | nil => exact replicate_eq_tableOf _ _
  | cons first rest => rfl

/-- A rank is taken when some source has it. -/
theorem rankedSource_eq_none {pre : List ParsedSource} {r : ℕ} :
    rankedSource pre r = none ↔ r ∉ pre.map ParsedSource.rank := by
  unfold rankedSource
  rw [List.find?_eq_none, List.mem_map]
  constructor
  · intro h hmem
    obtain ⟨s, hs, heq⟩ := hmem
    exact h s hs (decide_eq_true heq)
  · intro h s hs heq
    exact h ⟨s, hs, of_decide_eq_true heq⟩

/-- The table of ranks with one more source. -/
theorem collectState_set {config : LayoutConfig} {pre : List ParsedSource} {source : ParsedSource}
    (hfresh : source.rank ∉ pre.map ParsedSource.rank) :
    (collectState config pre).byRank.set source.header.sourceRank.toNat (some source)
      = (List.range config.workerCount.toNat).map (rankedSource (pre ++ [source])) := by
  rw [collectState_byRank]
  apply List.ext_getElem?
  intro r
  rw [List.getElem?_set, List.length_map, List.length_range, List.getElem?_map, List.getElem?_map]
  by_cases hr : r < config.workerCount.toNat
  · rw [List.getElem?_range hr, Option.map_some, Option.map_some,
      rankedSource_concat _ _ _ hfresh]
    by_cases heq : source.header.sourceRank.toNat = r
    · rw [if_pos heq, if_pos heq, if_pos (by omega)]
    · rw [if_neg heq, if_neg heq]
  · rw [List.getElem?_eq_none (by rw [List.length_range]; omega)]
    by_cases heq : source.header.sourceRank.toNat = r
    · rw [if_pos heq, if_neg (by omega)]
      rfl
    · rw [if_neg heq]
      rfl

/-- One source of the loop, all outcomes. -/
theorem collectSource_eq {config : LayoutConfig} {pre : List ParsedSource} {source : ParsedSource}
    (hgeneration : ∀ s ∈ pre, s.header.generation ≠ 0) :
    collectSource config (collectState config pre) source =
      if source.rank < config.workerCount.toNat ∧ source.rank ∉ pre.map ParsedSource.rank then
        if ∀ first ∈ pre.head?, Follows config first source then
          .ok (collectState config (pre ++ [source]))
        else .error (.fail .staleEpoch "mixed source epochs")
      else .error (.fail .duplicateSource "duplicate or invalid source") := by
  unfold collectSource
  simp only []
  by_cases hlt : source.rank < config.workerCount.toNat
  · have hread : (collectState config pre).byRank[source.header.sourceRank.toNat]?
        = some (rankedSource pre source.rank) := by
      rw [collectState_byRank, List.getElem?_map, show source.header.sourceRank.toNat = source.rank
        from rfl, List.getElem?_range hlt]
      rfl
    rw [require_of (UInt32.lt_iff_toNat_lt.mpr hlt), ok_bind, read_of hread, ok_bind]
    by_cases hfresh : source.rank ∉ pre.map ParsedSource.rank
    · have hlen : source.header.sourceRank.toNat < (collectState config pre).byRank.length := by
        rw [collectState_byRank, List.length_map, List.length_range]
        exact hlt
      rw [if_pos ⟨hlt, hfresh⟩, require_of (rankedSource_eq_none.mpr hfresh), ok_bind,
        write_of_lt hlen, ok_bind, collectState_set hfresh]
      cases pre with
      | nil => rfl
      | cons first rest =>
        have hne : (collectState config (first :: rest)).generation ≠ 0 :=
          hgeneration first List.mem_cons_self
        rw [if_neg hne]
        have hiff : (∀ s ∈ (first :: rest).head?, Follows config s source) ↔
            (source.header.generation = (collectState config (first :: rest)).generation ∧
              source.header.sequence = (collectState config (first :: rest)).sequence ∧
              source.header.wave = (collectState config (first :: rest)).wave ∧
              source.header.ringSlot = (collectState config (first :: rest)).ringSlot ∧
              source.header.workerCount = config.workerCount) := by
          simp [Follows, ParsedSource.epoch, collectState, and_assoc]
        by_cases hfollows : ∀ s ∈ (first :: rest).head?, Follows config s source
        · rw [if_pos hfollows, require_of (hiff.mp hfollows), ok_bind]
          rfl
        · rw [if_neg hfollows, require_of_not fun h => hfollows (hiff.mpr h), error_bind]
    · rw [if_neg fun h => hfresh h.2,
        require_of_not fun h => hfresh (rankedSource_eq_none.mp h), error_bind]
  · rw [if_neg fun h => hlt h.1, require_of_not fun h => hlt (UInt32.lt_iff_toNat_lt.mp h),
      error_bind]

/-- How the loop ends: each status names what it has found. -/
theorem collectRun_status (config : LayoutConfig) {sources : List ParsedSource}
    (hgeneration : ∀ source ∈ sources, source.header.generation ≠ 0) :
    Ends (collectRun config sources)
      (fun st => RanksValid config sources ∧
        (∀ first ∈ sources.head?, ∀ source ∈ sources.tail, Follows config first source) ∧
        st = collectState config sources)
      (fun s => (s = .duplicateSource ∧ ¬ RanksValid config sources) ∨
        (s = .staleEpoch ∧ ∃ first ∈ sources.head?, ∃ source ∈ sources.tail,
          first.rank < config.workerCount.toNat ∧ source.rank < config.workerCount.toNat ∧
          first.rank ≠ source.rank ∧ ¬ Follows config first source)) False := by
  refine Ends.foldlM (fun pre st => RanksValid config pre ∧
    (∀ first ∈ pre.head?, ∀ source ∈ pre.tail, Follows config first source) ∧
    st = collectState config pre) sources ?_ ?_
  · exact ⟨onceBelow_nil _, by simp, rfl⟩
  intro pre source post st hsplit hinv
  obtain ⟨hranks, hfollow, rfl⟩ := hinv
  rw [collectSource_eq fun s hs => hgeneration s (by rw [hsplit]; simp [hs])]
  -- a rank that is new and in range, compared with the first source of the wave
  by_cases hrank : source.rank < config.workerCount.toNat ∧
      source.rank ∉ pre.map ParsedSource.rank
  · rw [if_pos hrank]
    have hnext : RanksValid config (pre ++ [source]) := by
      unfold RanksValid
      rw [List.map_append, List.map_singleton]
      exact onceBelow_append_singleton.mpr ⟨hranks, hrank⟩
    by_cases hfirst : ∀ first ∈ pre.head?, Follows config first source
    · rw [if_pos hfirst]
      refine ends_ok.mpr ⟨hnext, ?_, rfl⟩
      cases pre with
      | nil => simp
      | cons first rest =>
        intro s hs t ht
        rw [List.cons_append, List.tail_cons, List.mem_append, List.mem_singleton] at ht
        rcases ht with hrest | rfl
        · exact hfollow s hs t hrest
        · exact hfirst s hs
    · rw [if_neg hfirst]
      rw [not_forall₂] at hfirst
      obtain ⟨first, hmem, hnot⟩ := hfirst
      cases pre with
      | nil => cases hmem
      | cons head rest =>
        cases hmem
        refine ends_fail.mpr (Or.inr ⟨rfl, first, by rw [hsplit]; rfl, source, ?_, ?_, hrank.1, ?_,
          hnot⟩)
        · rw [hsplit]
          simp
        · exact hranks.1 _ (List.mem_map_of_mem List.mem_cons_self)
        · intro heq
          exact hrank.2 (heq ▸ List.mem_map_of_mem List.mem_cons_self)
  · rw [if_neg hrank]
    refine ends_fail.mpr (Or.inl ⟨rfl, fun hall => hrank ?_⟩)
    -- a rank that comes twice in a front comes twice in the whole
    unfold RanksValid at hall
    rw [hsplit, List.map_append, List.map_cons, ← List.singleton_append, ← List.append_assoc] at hall
    exact (onceBelow_append_singleton.mp hall.append_left).2

/-! ## Behind the loop -/

/-- The compiler sees the sources through the collecting loop only. -/
theorem compileLayout_congr {config : LayoutConfig} {order : List UInt32}
    {sources others : List ParsedSource} (hlen : others.length = sources.length)
    (hrun : collectRun config others = collectRun config sources) :
    compileLayout others order config = compileLayout sources order config := by
  unfold collectRun at hrun
  unfold compileLayout layoutInputValid
  simp only [hlen, hrun]

section Behind

variable {config : LayoutConfig} {st : CollectState}

/-- Behind the collection no stale epoch is reported. -/
theorem sourceAt_behind (byRank : List (Option ParsedSource)) (rank : ℕ) :
    Ends (sourceAt byRank rank) (fun _ => True) (· ≠ .staleEpoch) True := by
  unfold sourceAt
  refine Ends.bind (Ends.read_or_fault _ _) fun entry _ => ?_
  cases entry with
  | none => exact ends_outOfRange.mpr trivial
  | some source => exact ends_ok.mpr trivial

theorem checkArrival_behind (seen : List Bool) (rank : UInt32) :
    Ends (checkArrival config seen rank) (fun _ => True) (· ≠ .staleEpoch) True := by
  unfold checkArrival
  refine Ends.bind (Ends.require_or (by decide)) fun _ _ => ?_
  refine Ends.bind (Ends.read_or_fault _ _) fun _ _ => ?_
  refine Ends.bind (Ends.require_or (by decide)) fun _ _ => ?_
  exact Ends.write_or_fault _ _ _

theorem placeGroup_behind (rank : UInt32) (token : ℕ) (record : TokenRecord)
    (grouped : List (List AssignmentRecord)) (placed : LayoutState) (destination : ℕ) :
    Ends (placeGroup config rank token record grouped placed destination) (fun _ => True)
      (· ≠ .staleEpoch) True := by
  unfold placeGroup
  refine Ends.bind (Ends.read_or_fault _ _) fun group _ => ?_
  by_cases hgroup : group = []
  · rw [if_pos hgroup]
    exact ends_ok.mpr trivial
  rw [if_neg hgroup]
  refine Ends.bind (Ends.read_or_fault _ _) fun rows _ => ?_
  refine Ends.bind (Ends.read_or_fault _ _) fun experts _ => ?_
  refine Ends.bind (Ends.require_or (by decide)) fun _ _ => ?_
  refine Ends.bind (Ends.each (fun entries assignment => ?_) _ _) fun entries _ => ?_
  · unfold placeAssignment
    refine Ends.bind (Ends.read_or_fault _ _) fun _ _ => ?_
    refine Ends.bind (Ends.write_or_fault _ _ _) fun _ _ => ?_
    exact ends_ok.mpr trivial
  refine Ends.bind (Ends.write_or_fault _ _ _) fun _ _ => ?_
  refine Ends.bind (Ends.write_or_fault _ _ _) fun _ _ => ?_
  refine Ends.bind (Ends.read_or_fault _ _) fun _ _ => ?_
  refine Ends.bind (Ends.read_or_fault _ _) fun _ _ => ?_
  refine Ends.bind (Ends.write_or_fault _ _ _) fun _ _ => ?_
  refine Ends.bind (Ends.write_or_fault _ _ _) fun _ _ => ?_
  exact ends_ok.mpr trivial

theorem placeSource_behind (byRank : List (Option ParsedSource)) (placed : LayoutState)
    (rank : UInt32) :
    Ends (placeSource config byRank placed rank) (fun _ => True) (· ≠ .staleEpoch) True := by
  unfold placeSource
  refine Ends.bind (sourceAt_behind byRank _) fun source _ => Ends.each (fun placed token => ?_) _ _
  unfold placeToken
  refine Ends.bind (Ends.read_or_fault _ _) fun record _ => ?_
  refine Ends.bind (Ends.each (fun grouped local_ => ?_) _ _) fun grouped _ => ?_
  · unfold groupAssignment
    refine Ends.bind (Ends.read_or_fault _ _) fun _ _ => ?_
    refine Ends.bind (Ends.read_or_fault _ _) fun _ _ => ?_
    exact Ends.write_or_fault _ _ _
  · exact Ends.each (placeGroup_behind rank token record grouped) _ _

theorem journalSource_behind (byRank : List (Option ParsedSource))
    (contributorMap : List (List (List JournalContributor))) (journal : JournalState) (rank : ℕ) :
    Ends (journalSource byRank contributorMap journal rank) (fun _ => True) (· ≠ .staleEpoch)
      True := by
  unfold journalSource
  refine Ends.bind (sourceAt_behind byRank _) fun source _ => ?_
  refine Ends.bind (Ends.read_or_fault _ _) fun perToken _ => ?_
  refine Ends.each (fun journal token => ?_) _ _
  unfold journalToken
  refine Ends.bind (Ends.read_or_fault _ _) fun record _ => ?_
  refine Ends.bind (Ends.read_or_fault _ _) fun contributors _ => ?_
  refine Ends.bind (Ends.require_or (by decide)) fun _ _ => ?_
  by_cases hrange : record.assignmentBegin.toNat + record.assignmentCount.toNat
      ≤ source.assignments.length
  · simp only []
    rw [if_pos hrange]
    exact ends_ok.mpr trivial
  · simp only []
    rw [if_neg hrange]
    exact ends_outOfRange.mpr trivial

theorem uniformSource_behind (byRank : List (Option ParsedSource)) (uniform : Bool) (rank : ℕ) :
    Ends (uniformSource config.workerCount byRank uniform rank) (fun _ => True) (· ≠ .staleEpoch)
      True := by
  unfold uniformSource
  cases uniform with
  | false => exact ends_ok.mpr trivial
  | true =>
    rw [if_pos rfl]
    refine Ends.bind (sourceAt_behind byRank _) fun source _ => ?_
    refine Ends.bind (Ends.each (fun reference token => ?_) _ _) fun _ _ => ends_ok.mpr trivial
    unfold uniformToken
    cases reference with
    | none => exact ends_ok.mpr trivial
    | some reference =>
      refine Ends.bind (Ends.read_or_fault _ _) fun record _ => ?_
      refine Ends.bind (Ends.each (fun destinations local_ => ?_) _ _) fun destinations _ => ?_
      · unfold markDestination
        cases destinations with
        | none => exact ends_ok.mpr trivial
        | some destinations =>
          refine Ends.bind (Ends.read_or_fault _ _) fun _ _ => ?_
          refine Ends.bind (Ends.read_or_fault _ _) fun hit _ => ?_
          cases hit with
          | true => exact ends_ok.mpr trivial
          | false => exact Ends.bind (Ends.write_or_fault _ _ _) fun _ _ => ends_ok.mpr trivial
      · cases destinations with
        | none => exact ends_ok.mpr trivial
        | some destinations =>
          by_cases hzero : token = 0
          · simp only [if_pos hzero]
            exact ends_ok.mpr trivial
          · by_cases hsame : destinations = reference
            · simp only [if_neg hzero, if_pos hsame]
              exact ends_ok.mpr trivial
            · simp only [if_neg hzero, if_neg hsame]
              exact ends_ok.mpr trivial

/-- Only the collecting loop says that epochs are mixed. -/
theorem compileLayout_behind {sources : List ParsedSource} (order : List UInt32)
    (hrun : collectRun config sources = .ok st) :
    (compileLayout sources order config).statusOf .ok ≠ some .staleEpoch := by
  have hends : Ends (compileLayout sources order config) (fun _ => True) (· ≠ .staleEpoch)
      True := by
    unfold collectRun at hrun
    unfold compileLayout
    refine Ends.bind (Ends.require_or (by decide)) fun _ _ => ?_
    simp only []
    rw [hrun, ok_bind]
    refine Ends.bind (Ends.each checkArrival_behind _ _) fun _ _ => ?_
    refine Ends.bind (Ends.each (fun contributorMap rank => ?_) _ _) fun _ _ => ?_
    · unfold emptyContributors
      exact Ends.bind (sourceAt_behind _ _) fun _ _ => ends_ok.mpr trivial
    refine Ends.bind (Ends.each (placeSource_behind _) _ _) fun placed _ => ?_
    refine Ends.bind (Ends.each (journalSource_behind _ _) _ _) fun _ _ => ?_
    refine Ends.bind (Ends.each (uniformSource_behind _) _ _) fun _ _ => ?_
    exact ends_ok.mpr trivial
  intro hstale
  match hrun' : compileLayout sources order config with
  | .ok layout => rw [hrun'] at hstale; cases hstale
  | .error (.fail s message) =>
    rw [hrun'] at hends hstale
    exact hends (Option.some.inj hstale)
  | .error .outOfRange => rw [hrun'] at hstale; cases hstale
  | .error .outOfFuel => rw [hrun'] at hstale; cases hstale

end Behind

/-! ## Every order of the sources -/

/-- The compiler answers the same whatever the order of the sources, and what it accepts is one
wave of the configured workers. -/
structure RejectsMixedWaves (config : LayoutConfig) (order : List UInt32)
    (sources : List ParsedSource) : Prop where
  status : ∀ others, others.Perm sources →
    (compileLayout others order config).statusOf .ok
      = (compileLayout sources order config).statusOf .ok
  layout : ∀ others, others.Perm sources → ∀ a b, compileLayout others order config = .ok a →
    compileLayout sources order config = .ok b → a = b
  epoch : (compileLayout sources order config).isOk → ∀ u ∈ sources, ∀ v ∈ sources,
    u.epoch = v.epoch
  workerCount : (compileLayout sources order config).isOk → ∀ source ∈ sources,
    source.header.workerCount = config.workerCount

/-- The number of sources with another `worker_count` than the configured one. -/
def miscounted (config : LayoutConfig) (sources : List ParsedSource) : ℕ :=
  sources.countP fun source => source.header.workerCount ≠ config.workerCount

theorem miscounted_eq_zero {config : LayoutConfig} {sources : List ParsedSource} :
    miscounted config sources = 0
      ↔ ∀ source ∈ sources, source.header.workerCount = config.workerCount := by
  simp [miscounted]

theorem miscounted_cons {config : LayoutConfig} {source : ParsedSource}
    (hwrong : source.header.workerCount ≠ config.workerCount) (rest : List ParsedSource) :
    miscounted config (source :: rest) = miscounted config rest + 1 := by
  simp [miscounted, hwrong]

/-- Of sources with ranks of their own not exactly one counts its workers wrongly, unless they are
of several waves; otherwise any two of different ranks are of one wave and count them right. -/
def OrderFree (config : LayoutConfig) (sources : List ParsedSource) : Prop :=
  (RanksValid config sources →
    (∃ u ∈ sources, ∃ v ∈ sources, u.epoch ≠ v.epoch) ∨ miscounted config sources ≠ 1) ∧
  (¬ RanksValid config sources → ∀ u ∈ sources, ∀ v ∈ sources,
    u.rank < config.workerCount.toNat → v.rank < config.workerCount.toNat → u.rank ≠ v.rank →
      Follows config u v)

section Order

variable {config : LayoutConfig} {order : List UInt32} {sources others : List ParsedSource}

theorem ranksValid_perm (h : others.Perm sources) :
    RanksValid config others ↔ RanksValid config sources := by
  unfold RanksValid OnceBelow
  rw [(h.map _).nodup_iff]
  simp only [(h.map ParsedSource.rank).mem_iff]

/-- The table of ranks does not depend on the order, and the epoch not where all have the same. -/
theorem collectState_perm (h : others.Perm sources) (hranks : RanksValid config sources)
    (hepoch : ∀ u ∈ sources, ∀ v ∈ sources, u.epoch = v.epoch) :
    collectState config others = collectState config sources := by
  have hbyRank : (collectState config others).byRank = (collectState config sources).byRank := by
    rw [collectState_byRank, collectState_byRank]
    apply List.map_congr_left
    intro r _
    have hsame : ∀ a b : ParsedSource, a ∈ sources → b ∈ sources → a.rank = b.rank → a = b :=
      fun a b ha hb heq => List.inj_on_of_nodup_map hranks.2 ha hb heq
    -- both look for the one source of rank r
    cases hfound : rankedSource sources r with
    | none =>
      rw [rankedSource_eq_none] at hfound ⊢
      rwa [(h.map _).mem_iff]
    | some source =>
      have hmem := List.mem_of_find?_eq_some hfound
      have hrank : source.rank = r := of_decide_eq_true
        (List.find?_some (p := fun s : ParsedSource => decide (s.header.sourceRank.toNat = r))
          hfound)
      cases hother : rankedSource others r with
      | none =>
        rw [rankedSource_eq_none, (h.map _).mem_iff] at hother
        exact absurd (hrank ▸ List.mem_map_of_mem hmem) hother
      | some other =>
        have hrank' : other.rank = r := of_decide_eq_true
          (List.find?_some (p := fun s : ParsedSource => decide (s.header.sourceRank.toNat = r))
            hother)
        rw [hsame other source (h.mem_iff.mp (List.mem_of_find?_eq_some hother)) hmem
          (hrank'.trans hrank.symm)]
  cases others with
  | nil => rw [h.nil_eq]
  | cons first rest =>
    cases sources with
    | nil => exact absurd h.symm.nil_eq (by simp)
    | cons first' rest' =>
      have heq := hepoch first (h.mem_iff.mp List.mem_cons_self) first' List.mem_cons_self
      simp only [ParsedSource.epoch, Prod.mk.injEq] at heq
      obtain ⟨h1, h2, h3, h4⟩ := heq
      simp only [collectState] at hbyRank ⊢
      rw [hbyRank, h1, h2, h3, h4]

/-- A source in front of another that does not follow it stops the loop. -/
theorem collectRun_stale {u v : ParsedSource} {rest : List ParsedSource}
    (hu : u.header.generation ≠ 0) (hur : u.rank < config.workerCount.toNat)
    (hvr : v.rank < config.workerCount.toNat) (hne : u.rank ≠ v.rank)
    (hnot : ¬ Follows config u v) :
    collectRun config (u :: v :: rest) = .error (.fail .staleEpoch "mixed source epochs") := by
  have hstart : collectSource config (collectState config []) u
      = .ok (collectState config ([] ++ [u])) := by
    rw [collectSource_eq (by simp), if_pos ⟨hur, by simp⟩, if_pos (by simp)]
  have hnext : collectSource config (collectState config [u]) v
      = .error (.fail .staleEpoch "mixed source epochs") := by
    rw [collectSource_eq (by simpa using hu), if_pos ⟨hvr, by simpa using hne.symm⟩,
      if_neg (by simpa using hnot)]
  unfold collectRun
  rw [List.foldlM_cons, show ({ byRank := List.replicate config.workerCount.toNat none }
    : CollectState) = collectState config [] from rfl, hstart, ok_bind, List.nil_append,
    List.foldlM_cons, hnext, error_bind]

/-- Sources without ranks of their own have an order in which that is what stops the loop. -/
theorem exists_collectRun_duplicate (hgeneration : ∀ s ∈ sources, s.header.generation ≠ 0)
    (hranks : ¬ RanksValid config sources) :
    ∃ others, others.Perm sources ∧ collectRun config others
      = .error (.fail .duplicateSource "duplicate or invalid source") := by
  have hstart : ∀ u : ParsedSource, u.rank < config.workerCount.toNat →
      collectSource config (collectState config []) u = .ok (collectState config [u]) := by
    intro u hu
    rw [collectSource_eq (by simp), if_pos ⟨hu, by simp⟩, if_pos (by simp)]
    rfl
  by_cases hbelow : ∀ r ∈ sources.map ParsedSource.rank, r < config.workerCount.toNat
  · -- two sources have one rank; they come first
    have hdup : ¬ (sources.map ParsedSource.rank).Nodup := fun h => hranks ⟨hbelow, h⟩
    rw [List.nodup_iff_sublist, not_forall] at hdup
    obtain ⟨r, hdup⟩ := hdup
    obtain ⟨pair, hsub, hpair⟩ := List.sublist_map_iff.mp (not_not.mp hdup)
    obtain ⟨rest, hperm⟩ := hsub.exists_perm_append
    have htwo := congrArg List.length hpair
    rw [List.length_map] at htwo
    obtain ⟨u, v, rfl⟩ := List.length_eq_two.mp htwo.symm
    rw [List.map_cons, List.map_cons, List.map_nil, List.cons.injEq, List.cons.injEq] at hpair
    obtain ⟨hu, hv, -⟩ := hpair
    have humem : u ∈ sources := hperm.mem_iff.mpr (by simp)
    have hnext : collectSource config (collectState config [u]) v
        = .error (.fail .duplicateSource "duplicate or invalid source") := by
      rw [collectSource_eq (by simpa using hgeneration u humem), if_neg]
      intro h
      exact h.2 (by simp [← hu, hv])
    refine ⟨u :: v :: rest, hperm.symm, ?_⟩
    unfold collectRun
    rw [List.foldlM_cons, show ({ byRank := List.replicate config.workerCount.toNat none }
      : CollectState) = collectState config [] from rfl,
      hstart u (hbelow _ (List.mem_map_of_mem humem)), ok_bind, List.foldlM_cons, hnext,
      error_bind]
  · rw [not_forall₂] at hbelow
    obtain ⟨r, hr, hlarge⟩ := hbelow
    obtain ⟨u, hu, rfl⟩ := List.mem_map.mp hr
    refine ⟨u :: sources.erase u, (List.perm_cons_erase hu).symm, ?_⟩
    unfold collectRun
    rw [List.foldlM_cons, show ({ byRank := List.replicate config.workerCount.toNat none }
      : CollectState) = collectState config [] from rfl, collectSource_eq (by simp),
      if_neg fun h => hlarge h.1, error_bind]

/-- The sources are one wave of the configured workers. -/
def OneWave (config : LayoutConfig) (sources : List ParsedSource) : Prop :=
  (∀ u ∈ sources, ∀ v ∈ sources, u.epoch = v.epoch) ∧
    ∀ source ∈ sources, source.header.workerCount = config.workerCount

theorem oneWave_perm (h : others.Perm sources) : OneWave config others ↔ OneWave config sources := by
  unfold OneWave
  simp only [h.mem_iff]

theorem orderFree_perm (h : others.Perm sources) :
    OrderFree config others ↔ OrderFree config sources := by
  unfold OrderFree miscounted
  simp only [h.mem_iff, h.countP_eq, ranksValid_perm h]

/-- How the loop ends on sources that are free of their order. -/
theorem OrderFree.collectRun (hfree : OrderFree config sources)
    (hgeneration : ∀ s ∈ sources, s.header.generation ≠ 0) :
    (collectRun config sources = .ok (collectState config sources) ∧ RanksValid config sources ∧
      OneWave config sources) ∨
    (∃ m, collectRun config sources = .error (.fail .staleEpoch m) ∧ RanksValid config sources ∧
      ¬ OneWave config sources) ∨
    (∃ m, collectRun config sources = .error (.fail .duplicateSource m) ∧
      ¬ RanksValid config sources) := by
  have hends := collectRun_status config hgeneration
  generalize PullV2.collectRun config sources = run at hends ⊢
  match run with
  | .ok st =>
    obtain ⟨hranks, hfollow, rfl⟩ := ends_ok.mp hends
    refine Or.inl ⟨rfl, hranks, ?_⟩
    cases sources with
    | nil => exact ⟨by simp, by simp⟩
    | cons first rest =>
      have hrest : ∀ source ∈ rest, Follows config first source := hfollow first rfl
      have hepoch : ∀ u ∈ first :: rest, u.epoch = first.epoch := by
        intro u hu
        rcases List.mem_cons.mp hu with rfl | hu
        · rfl
        · exact (hrest u hu).1
      have hsame : ∀ u ∈ first :: rest, ∀ v ∈ first :: rest, u.epoch = v.epoch :=
        fun u hu v hv => (hepoch u hu).trans (hepoch v hv).symm
      refine ⟨hsame, ?_⟩
      -- at most the first one counts wrongly, and one alone must not
      have hzero : miscounted config rest = 0 :=
        miscounted_eq_zero.mpr fun source hsource => (hrest source hsource).2
      rcases hfree.1 hranks with hmixed | hone
      · obtain ⟨u, hu, v, hv, hne⟩ := hmixed
        exact absurd (hsame u hu v hv) hne
      · intro source hsource
        rcases List.mem_cons.mp hsource with rfl | hsource
        · by_contra hwrong
          apply hone
          rw [miscounted_cons hwrong, hzero]
        · exact (hrest source hsource).2
  | .error (.fail s m) =>
    rcases ends_fail.mp hends with ⟨rfl, hranks⟩ | ⟨rfl, first, hfirst, source, hsource, hlt, hlt',
      hne, hnot⟩
    · exact Or.inr (Or.inr ⟨m, rfl, hranks⟩)
    · have hfirstMem : first ∈ sources := List.mem_of_mem_head? hfirst
      have hsourceMem : source ∈ sources := List.mem_of_mem_tail hsource
      by_cases hranks : RanksValid config sources
      · refine Or.inr (Or.inl ⟨m, rfl, hranks, fun hone => hnot ?_⟩)
        exact ⟨hone.1 source hsourceMem first hfirstMem, hone.2 source hsourceMem⟩
      · exact absurd (hfree.2 hranks first hfirstMem source hsourceMem hlt hlt' hne) hnot
  | .error .outOfRange => exact hends.elim
  | .error .outOfFuel => exact hends.elim

/-- The status of a run whose collecting loop has stopped. -/
theorem statusOf_of_collect_error {s : Status} {m : String}
    (hinput : layoutInputValid sources order config)
    (hrun : collectRun config sources = .error (.fail s m)) :
    (compileLayout sources order config).statusOf .ok = some s := by
  rw [compileLayout_of_collect_error hinput hrun]
  rfl

/-- Runs whose collecting loops stop with the same status give one answer. -/
theorem same_of_collect_error {s : Status} {m m' : String}
    (hinput : layoutInputValid others order config)
    (hinput' : layoutInputValid sources order config)
    (hrun : collectRun config others = .error (.fail s m))
    (hrun' : collectRun config sources = .error (.fail s m')) :
    (compileLayout others order config).statusOf .ok
        = (compileLayout sources order config).statusOf .ok ∧
      ∀ a b, compileLayout others order config = .ok a →
        compileLayout sources order config = .ok b → a = b := by
  refine ⟨(statusOf_of_collect_error hinput hrun).trans
    (statusOf_of_collect_error hinput' hrun').symm, fun a b ha => ?_⟩
  rw [compileLayout_of_collect_error hinput hrun] at ha
  cases ha

theorem layoutInputValid_perm (h : others.Perm sources) :
    layoutInputValid others order config ↔ layoutInputValid sources order config := by
  unfold layoutInputValid
  rw [h.length_eq]

/-- Sources that are free of their order give one answer. -/
theorem OrderFree.rejects (hfree : OrderFree config sources)
    (hgeneration : ∀ s ∈ sources, s.header.generation ≠ 0)
    (hinput : layoutInputValid sources order config) : RejectsMixedWaves config order sources := by
  -- either all collect, or the waves are mixed, or the ranks are wrong, in any order
  have hsources := hfree.collectRun hgeneration
  have hok : (compileLayout sources order config).isOk → OneWave config sources := by
    intro hok
    rcases hsources with ⟨-, -, hone⟩ | ⟨m, hrun, -⟩ | ⟨m, hrun, -⟩
    · exact hone
    · rw [compileLayout_of_collect_error hinput hrun] at hok
      cases hok
    · rw [compileLayout_of_collect_error hinput hrun] at hok
      cases hok
  have hsame : ∀ others, others.Perm sources →
      (compileLayout others order config).statusOf .ok
          = (compileLayout sources order config).statusOf .ok ∧
        ∀ a b, compileLayout others order config = .ok a →
          compileLayout sources order config = .ok b → a = b := by
    intro others hperm
    have hothers := ((orderFree_perm hperm).mpr hfree).collectRun fun s hs =>
      hgeneration s (hperm.mem_iff.mp hs)
    rw [ranksValid_perm hperm, oneWave_perm hperm] at hothers
    have hinput' := (layoutInputValid_perm hperm).mpr hinput
    rcases hothers with ⟨hrun, hranks, hone⟩ | ⟨m, hrun, hranks, hone⟩ | ⟨m, hrun, hranks⟩
    · rcases hsources with ⟨hrun', -, -⟩ | ⟨m', -, -, hnot⟩ | ⟨m', -, hnot⟩
      · have hcompile : compileLayout others order config = compileLayout sources order config := by
          apply compileLayout_congr hperm.length_eq
          rw [hrun, hrun', collectState_perm hperm hranks hone.1]
        rw [hcompile]
        exact ⟨rfl, fun a b ha hb => Except.ok.inj (ha.symm.trans hb)⟩
      · exact absurd hone hnot
      · exact absurd hranks hnot
    · rcases hsources with ⟨-, -, hone'⟩ | ⟨m', hrun', -⟩ | ⟨m', -, hnot⟩
      · exact absurd hone' hone
      · exact same_of_collect_error hinput' hinput hrun hrun'
      · exact absurd hranks hnot
    · rcases hsources with ⟨-, hranks', -⟩ | ⟨m', -, hranks', -⟩ | ⟨m', hrun', -⟩
      · exact absurd hranks' hranks
      · exact absurd hranks' hranks
      · exact same_of_collect_error hinput' hinput hrun hrun'
  exact ⟨fun others h => (hsame others h).1, fun others h => (hsame others h).2,
    fun h => (hok h).1, fun h => (hok h).2⟩

/-- One wrong count among sources of one wave is found in some orders only. -/
theorem not_rejects_of_miscounted (hgeneration : ∀ s ∈ sources, s.header.generation ≠ 0)
    (hinput : layoutInputValid sources order config) (hranks : RanksValid config sources)
    (hepoch : ∀ u ∈ sources, ∀ v ∈ sources, u.epoch = v.epoch)
    (hone : miscounted config sources = 1) : ¬ RejectsMixedWaves config order sources := by
  intro hrejects
  obtain ⟨x, hx, hwrong⟩ : ∃ x ∈ sources, x.header.workerCount ≠ config.workerCount := by
    by_contra hall
    simp only [not_exists, not_and, not_not] at hall
    rw [miscounted_eq_zero.mpr hall] at hone
    cases hone
  have hperm : (x :: sources.erase x).Perm sources := (List.perm_cons_erase hx).symm
  have hlen : sources.length = config.workerCount.toNat := hinput.2.2.2.2.2.1
  have htwo : 2 ≤ config.workerCount.toNat := UInt32.le_iff_toNat_le.mp hinput.1
  -- with the wrong one in front the loop goes through
  have hrest : ∀ source ∈ sources.erase x, Follows config x source := by
    intro source hsource
    refine ⟨hepoch source (List.mem_of_mem_erase hsource) x hx, ?_⟩
    have hcount : miscounted config (x :: sources.erase x) = 1 := (hperm.countP_eq _).trans hone
    rw [miscounted_cons hwrong] at hcount
    exact miscounted_eq_zero.mp (Nat.succ.inj hcount) source hsource
  have hfront : ∃ st, collectRun config (x :: sources.erase x) = .ok st := by
    have hgeneration' : ∀ s ∈ x :: sources.erase x, s.header.generation ≠ 0 :=
      fun s hs => hgeneration s (hperm.mem_iff.mp hs)
    have hends := collectRun_status config hgeneration'
    obtain ⟨st, hst, -⟩ := (hends.mono (fun _ h => h) (fun s hs => by
      rcases hs with ⟨-, hnot⟩ | ⟨-, first, hfirst, source, hsource, -, -, -, hnot⟩
      · exact hnot ((ranksValid_perm hperm).mpr hranks)
      · cases hfirst
        exact hnot (hrest source hsource)) (fun h => h)).exists_ok
    exact ⟨st, hst⟩
  obtain ⟨st, hst⟩ := hfront
  have hnotStale := compileLayout_behind order hst
  -- with another one in front it is found
  obtain ⟨y, hy⟩ : ∃ y, y ∈ sources.erase x := by
    apply List.exists_mem_of_length_pos
    rw [List.length_erase_of_mem hx]
    omega
  have hperm' : (y :: x :: (sources.erase x).erase y).Perm sources :=
    ((List.Perm.swap x y _).trans ((List.perm_cons_erase hy).symm.cons x)).trans hperm
  have hnodup : ((x :: sources.erase x).map ParsedSource.rank).Nodup :=
    ((ranksValid_perm hperm).mpr hranks).2
  have hne : y.rank ≠ x.rank := by
    intro heq
    rw [List.map_cons, List.nodup_cons] at hnodup
    exact hnodup.1 (heq ▸ List.mem_map_of_mem hy)
  have hymem := List.mem_of_mem_erase hy
  have hstale : collectRun config (y :: x :: (sources.erase x).erase y)
      = .error (.fail .staleEpoch "mixed source epochs") :=
    collectRun_stale (hgeneration y hymem) (hranks.1 _ (List.mem_map_of_mem hymem))
      (hranks.1 _ (List.mem_map_of_mem hx)) hne fun h => hwrong h.2
  have hstatus := statusOf_of_collect_error ((layoutInputValid_perm hperm').mpr hinput) hstale
  rw [hrejects.status _ hperm'] at hstatus
  rw [hrejects.status _ hperm] at hnotStale
  exact hnotStale hstatus

/-- Sources with two faults, one of rank and one of wave, stop the compiler with either. -/
theorem not_rejects_of_stale {u v : ParsedSource}
    (hgeneration : ∀ s ∈ sources, s.header.generation ≠ 0)
    (hinput : layoutInputValid sources order config) (hranks : ¬ RanksValid config sources)
    (hu : u ∈ sources) (hv : v ∈ sources) (hur : u.rank < config.workerCount.toNat)
    (hvr : v.rank < config.workerCount.toNat) (hne : u.rank ≠ v.rank)
    (hnot : ¬ Follows config u v) : ¬ RejectsMixedWaves config order sources := by
  intro hrejects
  have hmem : v ∈ sources.erase u := (List.mem_erase_of_ne fun h => hne (by rw [h])).mpr hv
  have hperm : (u :: v :: (sources.erase u).erase v).Perm sources :=
    ((List.perm_cons_erase hmem).symm.cons u).trans (List.perm_cons_erase hu).symm
  obtain ⟨others, hothers, hduplicate⟩ := exists_collectRun_duplicate hgeneration hranks
  have hstale := statusOf_of_collect_error ((layoutInputValid_perm hperm).mpr hinput)
    (collectRun_stale (hgeneration u hu) hur hvr hne hnot)
  have hdup := statusOf_of_collect_error ((layoutInputValid_perm hothers).mpr hinput) hduplicate
  rw [hrejects.status _ hperm] at hstale
  rw [hrejects.status _ hothers, hstale] at hdup
  cases hdup

/-- On arguments the compiler looks at it answers the same in every order, and refuses mixed waves,
exactly for sources that are free of their order. -/
theorem rejects_mixed_waves_iff (config : LayoutConfig) (order : List UInt32)
    (sources : List ParsedSource) (hgeneration : ∀ s ∈ sources, s.header.generation ≠ 0) :
    RejectsMixedWaves config order sources ↔
      ¬ layoutInputValid sources order config ∨ OrderFree config sources := by
  constructor
  · intro hrejects
    by_contra hboth
    rw [not_or, not_not] at hboth
    obtain ⟨hinput, hfree⟩ := hboth
    by_cases hranks : RanksValid config sources
    · have hbad : ¬ ((∃ u ∈ sources, ∃ v ∈ sources, u.epoch ≠ v.epoch) ∨
          miscounted config sources ≠ 1) := fun h => hfree ⟨fun _ => h, fun h' => absurd hranks h'⟩
      rw [not_or, not_not] at hbad
      refine not_rejects_of_miscounted hgeneration hinput hranks ?_ hbad.2 hrejects
      intro u hu v hv
      by_contra hne
      exact hbad.1 ⟨u, hu, v, hv, hne⟩
    · have hbad : ¬ ∀ u ∈ sources, ∀ v ∈ sources, u.rank < config.workerCount.toNat →
          v.rank < config.workerCount.toNat → u.rank ≠ v.rank → Follows config u v :=
        fun h => hfree ⟨fun h' => absurd h' hranks, fun _ => h⟩
      simp only [not_forall] at hbad
      obtain ⟨u, hu, v, hv, hur, hvr, hne, hnot⟩ := hbad
      exact not_rejects_of_stale hgeneration hinput hranks hu hv hur hvr hne hnot hrejects
  · intro h
    by_cases hinput : layoutInputValid sources order config
    · rcases h with hnot | hfree
      · exact absurd hinput hnot
      · exact hfree.rejects hgeneration hinput
    · have hstop : ∀ others, others.Perm sources → compileLayout others order config
          = .error (.fail .invalidArgument "invalid layout input") := by
        intro others hperm
        unfold compileLayout
        rw [require_of_not fun h => hinput ((layoutInputValid_perm hperm).mp h.2)]
        rfl
      refine ⟨fun others hperm => by rw [hstop others hperm, hstop sources (List.Perm.refl _)],
        fun others hperm a b ha => ?_, fun hok => ?_, fun hok => ?_⟩
      · rw [hstop others hperm] at ha
        cases ha
      · rw [hstop sources (List.Perm.refl _)] at hok
        cases hok
      · rw [hstop sources (List.Perm.refl _)] at hok
        cases hok

end Order

/-! ## A source of a larger session in front -/

/-- A source of a wave that another session of three workers has parsed. -/
def wideSource : ParsedSource :=
  { header := { generation := 1, workerCount := 3, tokenCount := 1, assignmentCount := 1 }
    tokens := [{ assignmentCount := 1 }], assignments := [{ destinationRank := 2 }] }

/-- A source of a session of two workers. -/
def narrowSource : ParsedSource :=
  { header := { generation := 1, sourceRank := 1, workerCount := 2 } }

/-- Two workers and one expert. -/
def pairConfig : LayoutConfig := ⟨2, 1, 4, 4⟩

/-- Sources of one wave. -/
theorem rejects_mixed_waves_iff_narrow :
    RejectsMixedWaves pairConfig [0, 1] [{ narrowSource with header.sourceRank := 0 },
      narrowSource] := by
  refine (rejects_mixed_waves_iff pairConfig [0, 1] _ (by decide)).mpr (Or.inr ⟨fun _ => ?_,
    fun hranks => ?_⟩)
  · exact Or.inr (by decide)
  · exact absurd ⟨by decide, by decide⟩ hranks

/-- In front the wide source is not compared, and its assignment is grouped behind the end of the
table of destinations; without assignments the wave is accepted. Behind it is refused. -/
theorem wide_source_accepted :
    ¬ RejectsMixedWaves pairConfig [0, 1]
        [{ wideSource with tokens := [], assignments := [] }, narrowSource] ∧
      compileLayout [wideSource, narrowSource] [0, 1] pairConfig = .error .outOfRange ∧
      (compileLayout [{ wideSource with tokens := [], assignments := [] }, narrowSource] [0, 1]
        pairConfig).statusOf .ok = some .ok ∧
      (compileLayout [narrowSource, { wideSource with tokens := [], assignments := [] }] [0, 1]
        pairConfig).statusOf .ok = some .staleEpoch := by
  have hfront : (compileLayout [{ wideSource with tokens := [], assignments := [] }, narrowSource]
      [0, 1] pairConfig).statusOf .ok = some .ok := by decide +kernel
  have hbehind : (compileLayout [narrowSource,
      { wideSource with tokens := [], assignments := [] }] [0, 1] pairConfig).statusOf .ok
        = some .staleEpoch := by decide +kernel
  refine ⟨fun hrejects => ?_, by decide +kernel, hfront, hbehind⟩
  have hsame := hrejects.status _ (List.Perm.swap _ _ _)
  rw [hfront, hbehind] at hsame
  cases hsame

end AscendShmem.PullV2
