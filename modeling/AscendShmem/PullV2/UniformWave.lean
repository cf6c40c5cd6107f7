import AscendShmem.PullV2.Completeness
import AscendShmem.PullV2.DestinationPuts
import AscendShmem.PullV2.UniformTokens

/-!
# Uniform waves

The encoder, the layout compiler and the dispatch kernel each have a test of their own for uniform
sources. The encoder and the compiler compare destination sets; the kernel only compares, for every
destination, how many rows and assignments a source has there with its number of tokens. All three
find the same sources uniform (`uniform_definitions_agree`).
-/

namespace AscendShmem.PullV2

open Lib Lib.Exec

/-! ## Counting -/

section Counting

variable {d workers : ℕ} {v : RoutedToken} {vs : List RoutedToken} {source : ParsedSource}

theorem length_group (d : ℕ) (v : RoutedToken) : (v.group d).length = v.destinations.count d := by
  rw [RoutedToken.group, RoutedToken.destinations, List.count, List.countP_map,
    List.countP_eq_length_filter]
  rfl

/-- A token needs nothing where it does not go. -/
theorem need_eq_zero_iff : need d v = 0 ↔ d ∉ v.destinations := by
  have hcount := length_group d v
  rw [← List.count_eq_zero, ← hcount, List.length_eq_zero_iff]
  unfold need
  by_cases hgroup : v.group d = []
  · rw [if_pos hgroup]
    exact iff_of_true rfl hgroup
  · rw [if_neg hgroup]
    exact iff_of_false (fun h => absurd (congrArg Prod.fst h) Nat.one_ne_zero) hgroup

theorem need_eq_one_iff : need d v = (1, 1) ↔ v.destinations.count d = 1 := by
  rw [← length_group, ← need_snd]
  constructor
  · intro h
    rw [h]
  · intro h
    rw [need_snd] at h
    unfold need
    rw [if_neg (List.ne_nil_of_length_pos (by omega)), h]

theorem need_fst_le_one (d : ℕ) (v : RoutedToken) : (need d v).1 ≤ 1 := by
  unfold need
  split
  · exact Nat.zero_le 1
  · exact le_refl 1

/-- Tokens take at most one row each. -/
theorem taken_fst_le_length (d : ℕ) (vs : List RoutedToken) : (taken d vs).1 ≤ vs.length := by
  induction vs with
  | nil => exact le_refl 0
  | cons v vs ih =>
    have hone := need_fst_le_one d v
    rw [taken_cons, Prod.fst_add, List.length_cons]
    omega

theorem taken_eq_zero_iff : taken d vs = 0 ↔ ∀ v ∈ vs, need d v = 0 := by
  induction vs with
  | nil => simp
  | cons v vs ih => rw [taken_cons, add_eq_zero, ih, List.forall_mem_cons]

/-- A destination with a row and an assignment for every token has one of both for each: no token
can have more than one row, nor more rows than assignments. -/
theorem taken_eq_length_iff :
    taken d vs = (vs.length, vs.length) ↔ ∀ v ∈ vs, need d v = (1, 1) := by
  induction vs with
  | nil => exact iff_of_true rfl fun v hv => by cases hv
  | cons v vs ih =>
    have hle := need_fst_le d v
    have hone := need_fst_le_one d v
    have hrow := taken_fst_le d vs
    have hlen := taken_fst_le_length d vs
    rw [List.forall_mem_cons, ← ih, taken_cons, List.length_cons]
    simp only [Prod.ext_iff, Prod.fst_add, Prod.snd_add]
    omega

/-- The counts of the kernel tell which sources are uniform. -/
theorem ParsedSource.uniform_iff (hin : ∀ v ∈ source.routed, ∀ d ∈ v.destinations, d < workers)
    (htokens : source.tokens.length = source.header.tokenCount.toNat) :
    source.Uniform workers ↔ source.SameOnce := by
  have hlen : source.header.tokenCount.toNat = source.routed.length := by
    rw [ParsedSource.routed, List.length_map, htokens]
  have hcounts : source.Uniform workers ↔ ∀ d < workers,
      (∀ v ∈ source.routed, need d v = 0) ∨ ∀ v ∈ source.routed, need d v = (1, 1) := by
    unfold ParsedSource.Uniform
    rw [hlen]
    simp only [taken_eq_zero_iff, taken_eq_length_iff]
  rw [hcounts]
  constructor
  · intro huniform
    -- a destination of one token is a destination of all, once
    have hall : ∀ v ∈ source.routed, ∀ d ∈ v.destinations, ∀ w ∈ source.routed,
        w.destinations.count d = 1 := by
      intro v hv d hd w hw
      rcases huniform d (hin v hv d hd) with hzero | hone
      · exact absurd hd (need_eq_zero_iff.mp (hzero v hv))
      · exact need_eq_one_iff.mp (hone w hw)
    have hmem : ∀ v ∈ source.routed, ∀ w ∈ source.routed, ∀ d ∈ v.destinations,
        d ∈ w.destinations := by
      intro v hv w hw d hd
      have hcount := hall v hv d hd w hw
      exact List.count_pos_iff.mp (by omega)
    intro v hv
    constructor
    · apply List.nodup_iff_count_le_one.mpr
      intro d
      by_cases hd : d ∈ v.destinations
      · exact (hall v hv d hd v hv).le
      · rw [List.count_eq_zero_of_not_mem hd]
        exact Nat.zero_le 1
    · intro w hw d
      exact ⟨hmem v hv w hw d, hmem w hw v hv d⟩
  · intro hsame d _
    by_cases hsome : ∃ v ∈ source.routed, d ∈ v.destinations
    · right
      rcases hsome with ⟨v, hv, hd⟩
      intro w hw
      apply need_eq_one_iff.mpr
      exact List.count_eq_one_of_mem (hsame w hw).1 (((hsame v hv).2 w hw d).mp hd)
    · left
      intro v hv
      exact need_eq_zero_iff.mpr fun hd => hsome ⟨v, hv, hd⟩

end Counting

/-! ## The kernel -/

/-- Whatever sources come before it, the counters of a source are compared with its number of tokens
successfully exactly when the source is uniform. -/
theorem sourceUniform_iff {launch : DispatchLaunch} {srcs : List ParsedSource}
    {cells : List ParserCells} {s : ℕ} {source : ParsedSource} {before after : PrefixState}
    (hvalid : launch.Valid) (hready : WaveReady launch srcs) (hs : srcs[s]? = some source)
    (hcells : (List.range launch.activeParserBlocks.toNat).foldlM (countParser launch srcs) []
      = .ok cells)
    (hbefore : (List.range s).foldlM (prefixSource launch srcs cells) {} = .ok before)
    (hafter : (List.range launch.parserCohort.toNat).foldlM (prefixLane launch cells s)
      { before with destinationPrefix := before.destinationPrefix ++ [before.rowCursor] }
      = .ok after) :
    sourceUniform launch source.header.tokenCount.toNat before after ↔ source.SameOnce := by
  have hslt := (List.getElem?_eq_some_iff.mp hs).1
  rcases (countParsers_ends hvalid hready).of_ok hcells with ⟨hscanned, rfl⟩
  rcases (prefixSources_ends hvalid hready hscanned hslt.le).of_ok hbefore with ⟨⟨hroom, _⟩, rfl⟩
  have htokens := (hready.source s source hs).tokens
  rcases (prefixLanes_ends hvalid hs hready.length (tokensInside_ownerOrder hscanned) htokens hroom
    _).of_ok hafter with ⟨_, rfl⟩
  have hin : ∀ v ∈ source.routed, ∀ d ∈ v.destinations, d < launch.workerCount.toNat := by
    intro v hv d hd
    rcases List.mem_map.mp hd with ⟨a, ha, rfl⟩
    exact (hscanned source (List.mem_of_getElem? hs)).destination_lt hv ha
  rw [← ParsedSource.uniform_iff hin htokens]
  exact sourceUniform_prefixAt hs _ _ _ _

/-! ## The compiler -/

/-- A source that has been built and parsed, whatever stands behind the slot in memory. -/
def BuiltAndParsed (source : ParsedSource) : Prop :=
  ∃ input slot header ready registration session rest capacity,
    buildSlot input = .ok (slot, header, ready) ∧
    parseReadyAndSlot registration session ready (some (slot ++ rest)) capacity = .ok source

theorem BuiltAndParsed.accepted {source : ParsedSource} (h : BuiltAndParsed source) :
    ∃ session, Accepted session source := by
  rcases h with ⟨_, slot, _, ready, registration, session, rest, capacity, _, hparse⟩
  exact ⟨session, registration, ready, slot ++ rest, capacity, hparse⟩

/-- The hint of a parsed source tells whether it is uniform. -/
theorem BuiltAndParsed.hint {source : ParsedSource} (h : BuiltAndParsed source) :
    source.header.uniformHint = true ↔ source.SameOnce := by
  rcases h with ⟨input, slot, header, ready, registration, session, rest, capacity, hbuild, hparse⟩
  have hbuilt := ((buildSlot_ends input).of_ok hbuild).2
  rcases hbuilt.decodeSlot_eq rest with ⟨hheader, hdecode⟩
  have hsource := (parserAccepts_of_parse hparse).2.1
  rw [hheader] at hsource
  -- the records do not depend on the session they are parsed in
  have htokens : source.tokens = (builtSource input).tokens := by
    have hrecords := congrArg ParsedSource.tokens hdecode
    rw [hsource]
    exact hrecords
  have hassignments : source.assignments = (builtSource input).assignments := by
    have hrecords := congrArg ParsedSource.assignments hdecode
    rw [hsource]
    exact hrecords
  have hlists : source.destinationLists = (builtSource input).destinationLists := by
    unfold ParsedSource.destinationLists ParsedSource.routed
    rw [htokens, List.map_map, List.map_map]
    apply List.map_congr_left
    intro record _
    show (source.assignmentsOf record).map _ = ((builtSource input).assignmentsOf record).map _
    rw [ParsedSource.assignmentsOf, hassignments]
    rfl
  have hhint : source.header.uniformHint = header.uniformHint := by rw [hsource]; rfl
  rw [hhint, buildSlot_hint hbuild, ParsedSource.sameOnce_iff_lists,
    ParsedSource.sameOnce_iff_lists, hlists]

section Compiler

variable {config : LayoutConfig} {sources : List ParsedSource} {st : CollectState}
  {order : List UInt32} {layout : CompiledLayout}

/-- The sources are looked at by rank, till one is not uniform. -/
theorem uniformSources_ends (hranked : Ranked config.workerCount.toNat sources st.byRank)
    (hlen : sources.length = config.workerCount.toNat)
    (hvalid : ∀ source ∈ sources, ∃ session, SourceValid session source) :
    Ends ((List.range config.workerCount.toNat).foldlM
        (uniformSource config.workerCount st.byRank) true)
      (fun uniform => uniform = true ↔ ∀ source ∈ sources, source.SameOnce) (fun _ => True) True := by
  apply Ends.imp (P := fun uniform => uniform = true ↔ ∀ r < config.workerCount.toNat, ∀ source,
    rankedSource sources r = some source → source.SameOnce)
  · apply Ends.forRange (fun n (uniform : Bool) => uniform = true ↔ ∀ r < n, ∀ source,
      rankedSource sources r = some source → source.SameOnce)
    · exact iff_of_true rfl fun r hr => absurd hr (Nat.not_lt_zero r)
    · intro r hr uniform huniform
      obtain ⟨source, hsource, hmem, _⟩ := hranked.exists_source hlen hr
      rcases hvalid source hmem with ⟨session, hsession⟩
      -- the ranks below `r + 1` are those below `r` and this source
      have hnext : (∀ r' < r + 1, ∀ other, rankedSource sources r' = some other →
          other.SameOnce) ↔ uniform = true ∧ source.SameOnce := by
        rw [huniform]
        constructor
        · intro hall
          exact ⟨fun r' hr' => hall r' (by omega), hall r (by omega) source hsource⟩
        · intro ⟨hfront, hlast⟩ r' hr' other hother
          rcases Nat.lt_succ_iff_lt_or_eq.mp hr' with hlt | rfl
          · exact hfront r' hlt other hother
          · rw [hsource] at hother
            cases hother
            exact hlast
      unfold uniformSource
      cases uniform with
      | false => exact ends_ok.mpr (iff_of_false Bool.false_ne_true fun h =>
          Bool.false_ne_true (hnext.mp h).1)
      | true =>
        have hat : sourceAt st.byRank r = .ok source := by
          unfold sourceAt
          rw [read_of (hranked.getElem? hr), ok_bind, hsource]
        rw [if_pos rfl, hat, ok_bind]
        apply (uniformTokens_ends hsession).bind
        intro reference hreference
        apply ends_ok.mpr
        rw [hnext, hreference, and_iff_right rfl]
  · intro uniform huniform
    rw [huniform]
    constructor
    · intro hall source hsource
      have hlt := hranked.ranks.1 _ (List.mem_map_of_mem hsource)
      exact hall _ hlt source (hranked.of_mem hlen hsource)
    · intro hall r hr source hsource
      exact hall source (List.mem_of_find?_eq_some hsource)

/-- The journal is flagged uniform exactly when all sources are. -/
theorem compileLayout_uniform (hlayout : compileLayout sources order config = .ok layout)
    (hvalid : ∀ source ∈ sources, ∃ session, SourceValid session source) :
    layout.journalHeader.flags &&& kJournalFlagUniformDestinations ≠ 0 ↔
      ∀ source ∈ sources, source.SameOnce := by
  -- the run that returned the layout
  unfold compileLayout at hlayout
  rw [bind_eq_ok] at hlayout
  rcases hlayout with ⟨_, hinput, hlayout⟩
  have hlen : sources.length = config.workerCount.toNat :=
    (require_eq_ok.mp hinput).2.2.2.2.2.2.1
  simp only [] at hlayout
  rw [bind_eq_ok] at hlayout
  rcases hlayout with ⟨st, hcollect, hlayout⟩
  have hranked : Ranked config.workerCount.toNat sources st.byRank := by
    have hloop : Ends (sources.foldlM (collectSource config)
        { byRank := List.replicate config.workerCount.toNat none })
        (fun st => Ranked config.workerCount.toNat sources st.byRank) (fun _ => True) False := by
      apply Ends.foldlM (fun pre (st : CollectState) =>
        Ranked config.workerCount.toNat pre st.byRank)
      · exact ranked_nil _
      · intro pre source post st _ hst
        exact collectSource_ranked hst
    exact hloop.of_ok hcollect
  rw [bind_eq_ok] at hlayout
  rcases hlayout with ⟨_, _, hlayout⟩
  rw [bind_eq_ok] at hlayout
  rcases hlayout with ⟨contributorMap, _, hlayout⟩
  rw [bind_eq_ok] at hlayout
  rcases hlayout with ⟨placed, _, hlayout⟩
  rw [bind_eq_ok] at hlayout
  rcases hlayout with ⟨journal, _, hlayout⟩
  rw [bind_eq_ok] at hlayout
  rcases hlayout with ⟨uniform, huniform, hlayout⟩
  cases hlayout
  rw [← (uniformSources_ends hranked hlen hvalid).of_ok huniform]
  show (if uniform then kJournalFlagUniformDestinations else 0)
    &&& kJournalFlagUniformDestinations ≠ 0 ↔ _
  cases uniform with
  | true => decide
  | false => decide

end Compiler

/-! ## The three tests -/

/-- For sources that have been built and parsed the compiler flags the journal uniform exactly when
all headers carry the hint. The counters of the kernel single out the sources whose tokens all
select the same destinations, each with one assignment; so do the hints. -/
theorem uniform_definitions_agree :
    (∀ sources order config layout, (∀ source ∈ sources, BuiltAndParsed source) →
      compileLayout sources order config = .ok layout →
      (layout.journalHeader.flags &&& kJournalFlagUniformDestinations ≠ 0 ↔
        ∀ source ∈ sources, source.header.uniformHint = true) ∧
      ∀ source ∈ sources, source.header.uniformHint = true ↔ source.SameOnce) ∧
    ∀ (launch : DispatchLaunch) srcs cells s source before after, launch.Valid →
      WaveReady launch srcs → srcs[s]? = some source →
      (List.range launch.activeParserBlocks.toNat).foldlM (countParser launch srcs) []
        = .ok cells →
      (List.range s).foldlM (prefixSource launch srcs cells) {} = .ok before →
      (List.range launch.parserCohort.toNat).foldlM (prefixLane launch cells s)
        { before with destinationPrefix := before.destinationPrefix ++ [before.rowCursor] }
        = .ok after →
      (sourceUniform launch source.header.tokenCount.toNat before after ↔ source.SameOnce) := by
  constructor
  · intro sources order config layout hbuilt hlayout
    have hhints : ∀ source ∈ sources, source.header.uniformHint = true ↔ source.SameOnce :=
      fun source hsource => (hbuilt source hsource).hint
    refine ⟨?_, hhints⟩
    rw [compileLayout_uniform hlayout fun source hsource => by
      rcases (hbuilt source hsource).accepted with ⟨session, hsession⟩
      exact ⟨session, hsession.valid⟩]
    exact forall₂_congr fun source hsource => (hhints source hsource).symm
  · intro launch srcs cells s source before after hvalid hready hs hcells hbefore hafter
    exact sourceUniform_iff hvalid hready hs hcells hbefore hafter

/-- A sample that builds and parses is one. -/
theorem parsedInput_builtAndParsed (input : SourceInput) (hbuild : (buildSlot input).isOk = true)
    (hparse : (parseSample input).isOk = true) : BuiltAndParsed (parsedInput input) := by
  refine ⟨input, _, _, _, { sampleRegistration with sourceRank := input.sourceRank },
    input.session, [], 320, eq_ok_getD hbuild ([], {}, {}), ?_⟩
  rw [List.append_nil]
  exact eq_ok_getD hparse {}

theorem sampleSources_builtAndParsed : ∀ source ∈ sampleSources, BuiltAndParsed source :=
  List.forall_mem_cons.mpr
    ⟨parsedInput_builtAndParsed sampleInput (by decide +kernel) (by decide +kernel),
      List.forall_mem_singleton.mpr
        (parsedInput_builtAndParsed sampleInput₁ (by decide +kernel) (by decide +kernel))⟩

/-- What the parser blocks count in the sample wave. -/
def sampleCells : List ParserCells :=
  ((List.range sampleLaunch.activeParserBlocks.toNat).foldlM
    (countParser sampleLaunch sampleWave) []).toOption.getD []

/-- The prefix behind the first source of the sample wave. -/
def samplePrefix : PrefixState :=
  ((List.range sampleLaunch.parserCohort.toNat).foldlM (prefixLane sampleLaunch sampleCells 0)
    { destinationPrefix := [fun _ => 0] }).toOption.getD {}

/-- In the sample layout one source is uniform and one is not; in the sample wave the first source
is. -/
theorem uniform_definitions_agree_sample :
    (sampleLayout.journalHeader.flags &&& kJournalFlagUniformDestinations ≠ 0 ↔
      ∀ source ∈ sampleSources, source.header.uniformHint = true) ∧
    sourceUniform sampleLaunch 1 {} samplePrefix ∧ (sampleWave.headD {}).SameOnce := by
  have hready : WaveReady sampleLaunch sampleWave :=
    waveReady_of_two rfl ⟨by decide +kernel, rfl, rfl⟩ ⟨by decide +kernel, rfl, rfl⟩
  have hkernel := uniform_definitions_agree.2 sampleLaunch sampleWave sampleCells 0 _ {}
    samplePrefix (by decide +kernel) hready rfl (eq_ok_getD (by decide +kernel) []) rfl
    (eq_ok_getD (by decide +kernel) {})
  have huniform : sourceUniform sampleLaunch 1 {} samplePrefix := by decide +kernel
  exact ⟨(uniform_definitions_agree.1 sampleSources [0, 1] sampleLayoutConfig sampleLayout
    sampleSources_builtAndParsed compileLayout_sampleSources).1, huniform, hkernel.mp huniform⟩

end AscendShmem.PullV2
