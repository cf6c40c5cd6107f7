import AscendShmem.PullV2.SliceCounts

/-!
# Phase 1 on all parser blocks

Parser blocks are ordered by source and lane, so the tokens in front of a parser block
(`DispatchLaunch.before`) are those of the sources before its own and of the lanes before its own.
All parser blocks succeed exactly when every source has been scanned, wherever the lanes are cut,
and then every block has counted its own slice (`countParsers_ends`).
-/

namespace AscendShmem.PullV2

open Lib Lib.Exec

/-! ## Sources behind the READY and header tests -/

/-- The inbox of source `r` holds a slot whose header has been validated. -/
structure SourceReady (launch : DispatchLaunch) (r : ℕ) (source : ParsedSource) : Prop where
  header : validateHeader launch r source.header = .ok ()
  tokens : source.tokens.length = source.header.tokenCount.toNat
  assignments : source.assignments.length = source.header.assignmentCount.toNat

/-- There is a ready source for each worker. -/
structure WaveReady (launch : DispatchLaunch) (srcs : List ParsedSource) : Prop where
  length : srcs.length = launch.workerCount.toNat
  source : ∀ r source, srcs[r]? = some source → SourceReady launch r source

namespace DispatchLaunch

variable (launch : DispatchLaunch)

/-- What the tokens `vs` count in. -/
def cells (vs : List RoutedToken) : ParserCells :=
  cellsOf launch.workerCount.toNat launch.expertCount.toNat vs

/-- The first token of a lane. -/
def cut (source : ParsedSource) (lane : ℕ) : ℕ :=
  boundary source.header.tokenCount.toNat lane launch.parserCohort.toNat

/-- The slice of a lane. -/
def laneSlice (source : ParsedSource) (lane : ℕ) : List RoutedToken :=
  source.slice (launch.cut source lane) (launch.cut source (lane + 1) - launch.cut source lane)

variable {launch}

theorem Valid.cohort_pos (h : launch.Valid) : 0 < launch.parserCohort.toNat := by
  rcases Nat.eq_zero_or_pos launch.parserCohort.toNat with hzero | hpos
  · exact absurd (UInt32.toNat_inj.mp hzero) h.cohort.1
  · exact hpos

theorem Valid.workers_ne (h : launch.Valid) : launch.workerCount ≠ 0 := by
  intro hzero
  have h2 := h.workers.1
  rw [hzero] at h2
  exact absurd h2 (by decide)

/-- The cores that parse are a cohort for each worker. -/
theorem Valid.active (h : launch.Valid) : launch.activeParserBlocks.toNat
    = launch.parserCohort.toNat * launch.workerCount.toNat := by
  unfold activeParserBlocks
  rw [UInt32.toNat_mul, Nat.mod_eq_of_lt]
  have hcohort : launch.parserCohort.toNat = launch.blocks.toNat / launch.workerCount.toNat := by
    unfold parserCohort
    rw [if_neg h.workers_ne, UInt32.toNat_div]
  rw [hcohort]
  exact (Nat.div_mul_le_self _ _).trans_lt launch.blocks.toNat_lt

/-- The slice of a lane comes after those before it. -/
theorem laneSlice_append (source : ParsedSource) (lane : ℕ) :
    source.routed.take (launch.cut source lane) ++ launch.laneSlice source lane
      = source.routed.take (launch.cut source (lane + 1)) := by
  have hmono : launch.cut source lane ≤ launch.cut source (lane + 1) :=
    boundary_mono _ _ (Nat.le_succ lane)
  have hsplit : launch.cut source (lane + 1)
      = launch.cut source lane + (launch.cut source (lane + 1) - launch.cut source lane) := by
    omega
  conv_rhs => rw [hsplit, List.take_add]
  rfl

end DispatchLaunch

/-- A source the scan of all its lanes accepts. -/
def SourceScanned (launch : DispatchLaunch) (source : ParsedSource) : Prop :=
  CsrValid launch.session source ∧ OrdinalsSmall source

section Phase1

variable {launch : DispatchLaunch} {r : ℕ} {source : ParsedSource}

/-- A scanned destination is a worker. -/
theorem SourceScanned.destination_lt (h : SourceScanned launch source) {v : RoutedToken}
    (hv : v ∈ source.routed) {a : AssignmentRecord} (ha : a ∈ v.assignments) :
    a.destinationRank.toNat < launch.workerCount.toNat := by
  rcases List.mem_map.mp hv with ⟨record, hrecord, rfl⟩
  rcases List.getElem?_of_mem hrecord with ⟨k, hk⟩
  exact UInt32.lt_iff_toNat_lt.mp ((h.1.token k record hk).assignments.1 a ha).1

/-- A scanned expert is within the count. -/
theorem SourceScanned.expert_lt (h : SourceScanned launch source) {v : RoutedToken}
    (hv : v ∈ source.routed) {a : AssignmentRecord} (ha : a ∈ v.assignments) :
    a.expertId.toNat < launch.expertCount.toNat := by
  rcases List.mem_map.mp hv with ⟨record, hrecord, rfl⟩
  rcases List.getElem?_of_mem hrecord with ⟨k, hk⟩
  exact UInt32.lt_iff_toNat_lt.mp ((h.1.token k record hk).assignments.1 a ha).2.1

/-- The tokens of a source have its assignments. -/
theorem length_flatMap_take (h : CsrValid launch.session source) {k : ℕ}
    (hk : k ≤ source.tokens.length) :
    ((source.routed.take k).flatMap RoutedToken.assignments).length = beginOf source.tokens k := by
  induction k with
  | zero => rfl
  | succ k ih =>
    have hrecord : source.tokens[k]? = some source.tokens[k] := List.getElem?_eq_getElem (by omega)
    have hget : source.routed[k]? = some (source.routedToken source.tokens[k]) := by
      rw [ParsedSource.routed, List.getElem?_map, hrecord]
      rfl
    rw [(take_succ_of_getElem? hget).1, List.flatMap_append, List.length_append, ih (by omega),
      beginOf_succ hrecord, List.flatMap_singleton]
    congr 1
    exact (h.token k _ hrecord).length_assignmentsOf hrecord

theorem length_flatMap_routed (h : CsrValid launch.session source) :
    (source.routed.flatMap RoutedToken.assignments).length = source.assignments.length := by
  have hlen : source.routed.length = source.tokens.length := List.length_map _
  rw [← h.total, ← length_flatMap_take h (le_refl _), ← hlen, List.take_length]

/-- One parser block. -/
theorem countSlice_ends (hready : SourceReady launch r source) {lane : ℕ}
    (hlane : lane < launch.parserCohort.toNat) :
    Ends (countSlice launch source lane)
      (fun cells => (lane = 0 → source.tokens.length = 0 → source.assignments.length = 0) ∧
        SliceScanned launch source (launch.cut source lane)
          (launch.cut source (lane + 1) - launch.cut source lane) ∧
        cells = launch.cells (launch.laneSlice source lane))
      (fun _ => ¬ SourceScanned launch source) False := by
  have hcohort := launch.parserCohort.toNat_lt
  -- the boundaries of the lane, without a wrap
  have hbegin : (parserTokenBoundary source.header.tokenCount (UInt32.ofNat lane)
      launch.parserCohort).toNat = launch.cut source lane := by
    rw [toNat_parserTokenBoundary, UInt32.toNat_ofNat', Nat.mod_eq_of_lt (by omega)]
    rfl
  have hend : (parserTokenBoundary source.header.tokenCount (UInt32.ofNat lane + 1)
      launch.parserCohort).toNat = launch.cut source (lane + 1) := by
    rw [toNat_parserTokenBoundary, UInt32.toNat_add, UInt32.toNat_ofNat',
      Nat.mod_eq_of_lt (a := lane) (by omega)]
    show boundary _ ((lane + 1) % 2 ^ 32) _ = _
    rw [Nat.mod_eq_of_lt (by omega)]
    rfl
  have hmono : launch.cut source lane ≤ launch.cut source (lane + 1) :=
    boundary_mono _ _ (Nat.le_succ lane)
  have hle : launch.cut source (lane + 1) ≤ source.tokens.length := by
    rw [hready.tokens]
    exact boundary_le _ _ _
  have hzero : ∀ x : UInt32, x = 0 ↔ x.toNat = 0 := fun x => UInt32.toNat_inj.symm
  unfold countSlice
  rw [hbegin, hend]
  apply Ends.bind (P := fun _ =>
    lane = 0 → source.tokens.length = 0 → source.assignments.length = 0)
  · apply Ends.require
    · intro h hlane0 htokens
      rw [hready.assignments]
      by_contra hne
      exact h ⟨hlane0, (hzero _).mpr (hready.tokens.symm.trans htokens), fun heq => hne ((hzero _).mp heq)⟩
    -- a source without tokens whose assignments are not empty is not scanned
    · intro h hscanned
      apply h
      intro ⟨_, htokens, hassignments⟩
      apply hassignments
      have hnone : source.tokens.length = 0 := by rw [hready.tokens, (hzero _).mp htokens]
      have htotal := hscanned.1.total
      rw [hnone, beginOf_zero, hready.assignments] at htotal
      exact (hzero _).mpr htotal.symm
  · intro _ hempty
    apply (scanTokens_ends (by omega) hready.assignments).mono _ _ id
    · intro cells h
      exact ⟨hempty, h.1, h.2⟩
    · intro _ hbad hscanned
      apply hbad
      -- the slice of a scanned source is scanned, and its cells fit
      have hall := (csrValid_iff_scanned hready.tokens hready.assignments).mp hscanned
      constructor
      · intro j record _ hj hrecord
        exact hall.1 j record (Nat.zero_le j) (by omega) hrecord
      · apply cellsOf_fit
        · intro v hv a ha
          exact hscanned.destination_lt (List.mem_of_mem_drop (List.mem_of_mem_take hv)) ha
        · have hsub : ((source.slice (launch.cut source lane) (launch.cut source (lane + 1)
              - launch.cut source lane)).flatMap RoutedToken.assignments).length
                ≤ (source.routed.flatMap RoutedToken.assignments).length := by
            apply List.Sublist.length_le
            apply List.Sublist.flatMap
            exact (List.take_sublist _ _).trans (List.drop_sublist _ _)
          have hlt := source.header.assignmentCount.toNat_lt
          rw [length_flatMap_routed hscanned.1, hready.assignments] at hsub
          omega

end Phase1

/-! ## Parser blocks -/

/-- The tokens of the sources before `s` and the first `k` tokens of source `s`. -/
def tokensBefore (srcs : List ParsedSource) (s k : ℕ) : List RoutedToken :=
  ownerOrder (srcs.take s) ++ srcs[s]?.elim [] fun source => source.routed.take k

namespace DispatchLaunch

variable (launch : DispatchLaunch) (srcs : List ParsedSource)

/-- The tokens in front of a parser block. -/
def before (parser : ℕ) : List RoutedToken :=
  tokensBefore srcs (parser / launch.parserCohort.toNat)
    (srcs[parser / launch.parserCohort.toNat]?.elim 0 fun source =>
      launch.cut source (parser % launch.parserCohort.toNat))

/-- The tokens of a parser block. -/
def tokensOf (parser : ℕ) : List RoutedToken :=
  srcs[parser / launch.parserCohort.toNat]?.elim [] fun source =>
    launch.laneSlice source (parser % launch.parserCohort.toNat)

end DispatchLaunch

section Parsers

variable {launch : DispatchLaunch} {srcs : List ParsedSource} {source : ParsedSource}

theorem ownerOrder_take_succ {s : ℕ} (h : srcs[s]? = some source) :
    ownerOrder (srcs.take (s + 1)) = ownerOrder (srcs.take s) ++ source.routed := by
  rw [(take_succ_of_getElem? h).1, ownerOrder, List.flatMap_append, List.flatMap_singleton]
  rfl

theorem div_of_lane {s lane n : ℕ} (h : lane < n) : (s * n + lane) / n = s := by
  rw [Nat.mul_comm, Nat.mul_add_div (by omega), Nat.div_eq_of_lt h, Nat.add_zero]

theorem mod_of_lane {s lane n : ℕ} (h : lane < n) : (s * n + lane) % n = lane := by
  rw [Nat.mul_comm, Nat.mul_add_mod, Nat.mod_eq_of_lt h]

/-- What comes before the slice of a core. -/
theorem before_lane {s lane : ℕ} (hlane : lane < launch.parserCohort.toNat)
    (h : srcs[s]? = some source) :
    launch.before srcs (s * launch.parserCohort.toNat + lane)
      = ownerOrder (srcs.take s) ++ source.routed.take (launch.cut source lane) := by
  unfold DispatchLaunch.before tokensBefore
  rw [div_of_lane hlane, mod_of_lane hlane, h]
  rfl

/-- The slice of a core. -/
theorem tokensOf_lane {s lane : ℕ} (hlane : lane < launch.parserCohort.toNat)
    (h : srcs[s]? = some source) :
    launch.tokensOf srcs (s * launch.parserCohort.toNat + lane) = launch.laneSlice source lane := by
  unfold DispatchLaunch.tokensOf
  rw [div_of_lane hlane, mod_of_lane hlane, h]
  rfl

/-- Slices that have all been scanned are the whole source. -/
theorem sliceScanned_of_lanes (hcohort : 0 < launch.parserCohort.toNat)
    (htokens : source.tokens.length = source.header.tokenCount.toNat)
    (h : ∀ lane < launch.parserCohort.toNat, SliceScanned launch source (launch.cut source lane)
      (launch.cut source (lane + 1) - launch.cut source lane)) :
    SliceScanned launch source 0 source.tokens.length := by
  have hlast : launch.cut source launch.parserCohort.toNat = source.tokens.length := by
    rw [htokens]
    exact boundary_last _ hcohort
  have hfront : ∀ n ≤ launch.parserCohort.toNat,
      SliceScanned launch source 0 (launch.cut source n) := by
    intro n
    induction n with
    | zero =>
      intro _ j record _ hj _
      have hzero : launch.cut source 0 = 0 := boundary_zero _ _
      omega
    | succ n ih =>
      intro hn j record hj0 hj hrecord
      by_cases hfirst : j < launch.cut source n
      · exact ih (by omega) j record hj0 (by omega) hrecord
      · exact h n (by omega) j record (by omega) (by omega) hrecord
  have hall := hfront _ (le_refl _)
  rwa [hlast] at hall

/-- The parsers succeed exactly on scanned sources, and count their slices. -/
theorem countParsers_ends (hvalid : launch.Valid) (hready : WaveReady launch srcs) :
    Ends ((List.range launch.activeParserBlocks.toNat).foldlM (countParser launch srcs) [])
      (fun cells => (∀ source ∈ srcs, SourceScanned launch source) ∧
        cells = tableOf launch.activeParserBlocks.toNat
          fun parser => launch.cells (launch.tokensOf srcs parser))
      (fun _ => ¬ ∀ source ∈ srcs, SourceScanned launch source) False := by
  -- parser `k` is lane `k % n` of source `k / n`
  set n := launch.parserCohort.toNat with hn
  have hpos : 0 < n := hvalid.cohort_pos
  have hactive : launch.activeParserBlocks.toNat = n * srcs.length := by
    rw [hvalid.active, hready.length]
  apply Ends.imp (P := fun cells =>
    (∀ parser < launch.activeParserBlocks.toNat, ∀ source, srcs[parser / n]? = some source →
      (parser % n = 0 → source.tokens.length = 0 → source.assignments.length = 0) ∧
      SliceScanned launch source (launch.cut source (parser % n))
        (launch.cut source (parser % n + 1) - launch.cut source (parser % n))) ∧
    cells = tableOf launch.activeParserBlocks.toNat
      fun parser => launch.cells (launch.tokensOf srcs parser))
  · apply Ends.forRange (fun k (cells : List ParserCells) =>
      (∀ parser < k, ∀ source, srcs[parser / n]? = some source →
        (parser % n = 0 → source.tokens.length = 0 → source.assignments.length = 0) ∧
        SliceScanned launch source (launch.cut source (parser % n))
          (launch.cut source (parser % n + 1) - launch.cut source (parser % n))) ∧
      cells = tableOf k fun parser => launch.cells (launch.tokensOf srcs parser))
    · exact ⟨fun parser h => by omega, rfl⟩
    · rintro k hk _ ⟨hdone, rfl⟩
      have hs : k / n < srcs.length := by
        rw [Nat.div_lt_iff_lt_mul hpos, Nat.mul_comm]
        omega
      obtain ⟨source, hsource⟩ : ∃ source, srcs[k / n]? = some source :=
        ⟨_, List.getElem?_eq_getElem hs⟩
      have hlane : k % n < n := Nat.mod_lt _ hpos
      unfold countParser
      rw [← hn, read_of hsource, ok_bind]
      apply Ends.bind ((countSlice_ends (hready.source _ _ hsource) hlane).mono
        (fun _ h => h) _ id)
      · rintro mine ⟨hempty, hscanned, rfl⟩
        apply ends_ok.mpr
        constructor
        · intro parser hparser source' hsource'
          rcases Nat.lt_succ_iff_lt_or_eq.mp hparser with hlt | rfl
          · exact hdone parser hlt source' hsource'
          · rw [hsource] at hsource'
            cases hsource'
            exact ⟨hempty, hscanned⟩
        · rw [tableOf_succ]
          congr 3
          unfold DispatchLaunch.tokensOf
          rw [← hn, hsource]
          rfl
      · intro _ hbad hall
        exact hbad (hall source (List.mem_of_getElem? hsource))
  · rintro cells ⟨hdone, hcells⟩
    refine ⟨?_, hcells⟩
    intro source hsource
    rcases List.getElem?_of_mem hsource with ⟨s, hs⟩
    have hready' := hready.source s source hs
    have hlt := (List.getElem?_eq_some_iff.mp hs).1
    have hparser : ∀ lane < n, s * n + lane < launch.activeParserBlocks.toNat := by
      intro lane hlane
      rw [hactive]
      calc s * n + lane < s * n + n := by omega
        _ = n * (s + 1) := by ring
        _ ≤ n * srcs.length := Nat.mul_le_mul_left n hlt
    -- the lanes of a source together cover its tokens
    have hlanes : ∀ lane < n, (lane = 0 → source.tokens.length = 0 →
          source.assignments.length = 0) ∧
        SliceScanned launch source (launch.cut source lane)
          (launch.cut source (lane + 1) - launch.cut source lane) := by
      intro lane hlane
      have h := hdone _ (hparser lane hlane) source (by rw [div_of_lane hlane]; exact hs)
      rwa [mod_of_lane hlane] at h
    apply (csrValid_iff_scanned hready'.tokens hready'.assignments).mpr
    exact ⟨sliceScanned_of_lanes hpos hready'.tokens fun lane hlane => (hlanes lane hlane).2,
      (hlanes 0 hpos).1 rfl⟩

end Parsers

end AscendShmem.PullV2
