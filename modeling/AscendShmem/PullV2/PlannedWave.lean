import AscendShmem.PullV2.ParserBlocks

/-!
# Planned waves

What the prefix of the dispatch kernel computes. The bases of a parser block are what the tokens in
front of it count in, and the cell of `source_destination_prefix` for a source and a destination is
the number of rows the sources before it have there. The planner succeeds exactly on the waves that
are `Planned`, and its plan is then `wavePlanOf` (`planWave_ends`).
-/

namespace AscendShmem.PullV2

open Lib Lib.Exec

/-! ## Cells inside the tables -/

/-- Nothing is counted for a destination or a cell outside the tables. -/
structure ParserCells.Inside (workers expertCount : ℕ) (c : ParserCells) : Prop where
  rows : ∀ d, workers ≤ d → c.rows d = 0
  assignments : ∀ d, workers ≤ d → c.assignments d = 0
  experts : ∀ x, workers * expertCount ≤ x → c.experts x = 0

/-- The tables have room for what has been counted. -/
structure DispatchLaunch.Room (launch : DispatchLaunch) (c : ParserCells) : Prop where
  contributors : c.contributors ≤ launch.journalContributorCapacity.toNat ∧
    c.contributors ≤ 0xffffffff
  rows : ∀ d < launch.workerCount.toNat, c.rows d ≤ launch.destinationRowCapacity.toNat
  assignments : ∀ d < launch.workerCount.toNat,
    c.assignments d ≤ launch.destinationAssignmentCapacity.toNat
  experts : ∀ x < launch.workerCount.toNat * launch.expertCount.toNat, c.experts x ≤ 0xffffffff

section Inside

variable {launch : DispatchLaunch} {workers e : ℕ} {a b : ParserCells} {vs : List RoutedToken}

/-- Sums of counters inside the table are inside it. -/
theorem ParserCells.Inside.add (ha : a.Inside workers e) (hb : b.Inside workers e) :
    (a + b).Inside workers e := by
  refine ⟨fun d hd => ?_, fun d hd => ?_, fun x hx => ?_⟩
  · rw [ParserCells.rows_add, Pi.add_apply, ha.rows d hd, hb.rows d hd]
  · rw [ParserCells.assignments_add, Pi.add_apply, ha.assignments d hd, hb.assignments d hd]
  · rw [ParserCells.experts_add, Pi.add_apply, ha.experts x hx, hb.experts x hx]

/-- The destinations and the experts of the tokens are inside the wave. -/
def TokensInside (workers expertCount : ℕ) (vs : List RoutedToken) : Prop :=
  ∀ v ∈ vs, ∀ a ∈ v.assignments,
    a.destinationRank.toNat < workers ∧ a.expertId.toNat < expertCount

theorem TokensInside.cellsOf (h : TokensInside workers e vs) :
    (cellsOf workers e vs).Inside workers e := by
  induction vs with
  | nil => exact ⟨fun _ _ => rfl, fun _ _ => rfl, fun _ _ => rfl⟩
  | cons v vs ih =>
    have hcons : PullV2.cellsOf workers e (v :: vs)
        = tokenCells workers e v + PullV2.cellsOf workers e vs := total_cons _ _ _
    have hv : ∀ d, workers ≤ d → v.group d = [] := by
      intro d hd
      rw [RoutedToken.group, List.filter_eq_nil_iff]
      intro a ha heq
      rw [decide_eq_true_iff] at heq
      have := (h v List.mem_cons_self a ha).1
      omega
    have hneed : ∀ d, workers ≤ d → need d v = 0 := by
      intro d hd
      rw [need, if_pos (hv d hd)]
    rw [hcons]
    apply ParserCells.Inside.add
    · refine ⟨fun d hd => ?_, fun d hd => ?_, fun x hx => ?_⟩
      · exact congrArg Prod.fst (hneed d hd)
      · exact congrArg Prod.snd (hneed d hd)
      · show total (fun d => total (cellCount e d) (v.group d)) (List.range workers) x = 0
        have hcell : ∀ d < workers, total (cellCount e d) (v.group d) x = 0 := by
          intro d hd
          rw [total_apply]
          apply List.sum_eq_zero
          intro n hn
          rcases List.mem_map.mp hn with ⟨a, ha, rfl⟩
          have hexpert := (h v List.mem_cons_self a (List.mem_filter.mp ha).1).2
          have hlt : cell e d a < workers * e := cell_lt hd hexpert
          rw [cellCount, if_neg (by omega)]
        rw [total_apply]
        apply List.sum_eq_zero
        intro n hn
        rcases List.mem_map.mp hn with ⟨d, hd, rfl⟩
        exact hcell d (List.mem_range.mp hd)
    · exact ih fun w hw => h w (List.mem_cons_of_mem _ hw)

theorem DispatchLaunch.Room.left (h : launch.Room (a + b)) : launch.Room a :=
  ⟨⟨(Nat.le_add_right _ _).trans h.contributors.1, (Nat.le_add_right _ _).trans h.contributors.2⟩,
    fun d hd => (Nat.le_add_right _ _).trans (h.rows d hd),
    fun d hd => (Nat.le_add_right _ _).trans (h.assignments d hd),
    fun x hx => (Nat.le_add_right _ _).trans (h.experts x hx)⟩

end Inside

/-! ## One parser block -/

/-- The first `n` values of `f`, and zero behind them. -/
def upTo (n : ℕ) (f : ℕ → ℕ) : ℕ → ℕ := fun x => if x < n then f x else 0

theorem upTo_zero (f : ℕ → ℕ) : upTo 0 f = 0 := by
  funext x
  rw [upTo, if_neg (Nat.not_lt_zero x)]
  rfl

/-- Cutting a function where it is zero changes nothing. -/
theorem upTo_of_le {n : ℕ} {f : ℕ → ℕ} (h : ∀ x, n ≤ x → f x = 0) : upTo n f = f := by
  funext x
  unfold upTo
  split
  · rfl
  · exact (h x (by omega)).symm

theorem upTo_self (n : ℕ) (f : ℕ → ℕ) : upTo n f n = 0 := by
  rw [upTo, if_neg (lt_irrefl n)]

theorem update_upTo (n : ℕ) (f : ℕ → ℕ) :
    Function.update (upTo n f) n (f n) = upTo (n + 1) f := by
  funext x
  unfold upTo
  by_cases h : x = n
  · subst h
    rw [Function.update_self, if_pos (Nat.lt_succ_self x)]
  · rw [Function.update_of_ne h]
    by_cases hlt : x < n
    · rw [if_pos hlt, if_pos (by omega)]
    · rw [if_neg hlt, if_neg (by omega)]

theorem update_add_upTo (n : ℕ) (f g : ℕ → ℕ) :
    Function.update (g + upTo n f) n (g n + f n) = g + upTo (n + 1) f := by
  funext x
  by_cases h : x = n
  · subst h
    rw [Function.update_self, Pi.add_apply, upTo, if_pos (Nat.lt_succ_self x)]
  · rw [Function.update_of_ne h, Pi.add_apply, Pi.add_apply]
    unfold upTo
    by_cases hlt : x < n
    · rw [if_pos hlt, if_pos (by omega)]
    · rw [if_neg hlt, if_neg (by omega)]

/-- The prefix state whose cursors are the cells `c`. -/
def prefixAt (c : ParserCells) (bases : List ParserCells) (destinationPrefix : List (ℕ → ℕ)) :
    PrefixState :=
  ⟨c.contributors, c.rows, c.assignments, c.experts, bases, destinationPrefix⟩

section Parser

variable {launch : DispatchLaunch} {b c : ParserCells} {bases : List ParserCells}
  {destinationPrefix : List (ℕ → ℕ)}

/-- The cells of one destination. -/
theorem prefixExperts_ends {b c : ParserCells} (base n : ℕ)
    (hb : ∀ x < base + n, b.experts x ≤ 0xffffffff) :
    Ends (((List.range n).map fun expert => base + expert).foldlM (prefixExpert c)
        (b.experts + upTo base c.experts, upTo base b.experts))
      (fun st => (∀ x < base + n, base ≤ x → b.experts x + c.experts x ≤ 0xffffffff) ∧
        st = (b.experts + upTo (base + n) c.experts, upTo (base + n) b.experts))
      (fun _ => ¬ ∀ x < base + n, b.experts x + c.experts x ≤ 0xffffffff) False := by
  rw [List.foldlM_map]
  apply Ends.forRange (fun i st =>
    (∀ x < base + i, base ≤ x → b.experts x + c.experts x ≤ 0xffffffff) ∧
    st = (b.experts + upTo (base + i) c.experts, upTo (base + i) b.experts))
  · exact ⟨fun x hlt hle => by omega, rfl⟩
  · rintro i hi _ ⟨hroom, rfl⟩
    have hold : (b.experts + upTo (base + i) c.experts) (base + i) = b.experts (base + i) := by
      rw [Pi.add_apply, upTo_self, Nat.add_zero]
    unfold prefixExpert
    simp only [hold]
    apply Ends.bind (P := fun _ => b.experts (base + i) + c.experts (base + i) ≤ 0xffffffff)
    · apply Ends.require
      · intro h
        have hle := hb (base + i) (by omega)
        omega
      · intro h hall
        apply h
        have hle := hall (base + i) (by omega)
        omega
    · intro _ hfits
      apply ends_ok.mpr
      constructor
      · intro x hlt hle
        rcases Nat.lt_succ_iff_lt_or_eq.mp (show x < (base + i) + 1 by omega) with hlt | rfl
        · exact hroom x hlt hle
        · exact hfits
      · rw [update_add_upTo, update_upTo]
        rfl

/-- The prefix state and the bases of a parser block after `n` destinations. -/
def prefixUpTo (e : ℕ) (b c : ParserCells) (bases : List ParserCells)
    (destinationPrefix : List (ℕ → ℕ)) (n : ℕ) : PrefixState × ParserCells :=
  (⟨b.contributors + c.contributors, b.rows + upTo n c.rows, b.assignments + upTo n c.assignments,
    b.experts + upTo (n * e) c.experts, bases, destinationPrefix⟩,
  ⟨b.contributors, upTo n b.rows, upTo n b.assignments, upTo (n * e) b.experts⟩)

/-- One destination, if there is room for it. -/
theorem prefixDestination_ends (hb : launch.Room b) {n : ℕ} (hn : n < launch.workerCount.toNat) :
    Ends (prefixDestination launch c
        (prefixUpTo launch.expertCount.toNat b c bases destinationPrefix n) n)
      (fun st => (b.rows n + c.rows n ≤ launch.destinationRowCapacity.toNat ∧
          b.assignments n + c.assignments n ≤ launch.destinationAssignmentCapacity.toNat ∧
          ∀ x < (n + 1) * launch.expertCount.toNat, n * launch.expertCount.toNat ≤ x →
            b.experts x + c.experts x ≤ 0xffffffff) ∧
        st = prefixUpTo launch.expertCount.toNat b c bases destinationPrefix (n + 1))
      (fun _ => ¬ launch.Room (b + c)) False := by
  set e := launch.expertCount.toNat with he
  have hend : n * e + e = (n + 1) * e := by ring
  have hcell : ∀ x < n * e + e, x < launch.workerCount.toNat * e := by
    intro x hx
    calc x < (n + 1) * e := by omega
      _ ≤ launch.workerCount.toNat * e := Nat.mul_le_mul_right e hn
  -- the destinations from `n` on are untouched so far
  have hrow : (b.rows + upTo n c.rows) n = b.rows n := by
    rw [Pi.add_apply, upTo_self, Nat.add_zero]
  have hassignment : (b.assignments + upTo n c.assignments) n = b.assignments n := by
    rw [Pi.add_apply, upTo_self, Nat.add_zero]
  have hbrow := hb.rows n hn
  have hbassignment := hb.assignments n hn
  unfold prefixDestination prefixUpTo
  simp only [hrow, hassignment, ← he]
  apply Ends.bind (P := fun _ => b.rows n + c.rows n ≤ launch.destinationRowCapacity.toNat ∧
    b.assignments n + c.assignments n ≤ launch.destinationAssignmentCapacity.toNat)
  · apply Ends.require
    · intro h
      omega
    · intro h hroom
      apply h
      have hr := hroom.rows n hn
      have ha := hroom.assignments n hn
      rw [ParserCells.rows_add, Pi.add_apply] at hr
      rw [ParserCells.assignments_add, Pi.add_apply] at ha
      omega
  -- the rows fit; the cells of the experts of this destination follow
  · intro _ hfits
    apply Ends.bind ((prefixExperts_ends (b := b) (c := c) (n * e) e fun x hx =>
      hb.experts x (hcell x hx)).mono (fun _ h => h) _ id)
    · rintro _ ⟨hroom, rfl⟩
      apply ends_ok.mpr
      refine ⟨⟨hfits.1, hfits.2, fun x hlt hle => hroom x (by omega) hle⟩, ?_⟩
      simp only [update_add_upTo, update_upTo, hend]
    · intro _ hbad hroom
      apply hbad
      intro x hx
      exact hroom.experts x (hcell x hx)

/-- The prefix of one parser block. -/
theorem prefixParser_ends (hb : launch.Room b)
    (hbin : b.Inside launch.workerCount.toNat launch.expertCount.toNat)
    (hcin : c.Inside launch.workerCount.toNat launch.expertCount.toNat) :
    Ends (prefixParser launch (prefixAt b bases destinationPrefix) c)
      (fun st => launch.Room (b + c) ∧ st = prefixAt (b + c) (bases ++ [b]) destinationPrefix)
      (fun _ => ¬ launch.Room (b + c)) False := by
  set w := launch.workerCount.toNat with hw
  set e := launch.expertCount.toNat with he
  unfold prefixParser
  apply Ends.bind (P := fun _ => b.contributors + c.contributors
      ≤ launch.journalContributorCapacity.toNat ∧ b.contributors + c.contributors ≤ 0xffffffff)
  · apply Ends.require
    · intro h
      exact h
    · intro h hroom
      exact h hroom.contributors
  · intro _ hcontributors
    -- turn zero leaves the cells as they are, and the last turn adds all of them
    have hstart : ({ prefixAt b bases destinationPrefix with
          contributorCursor := b.contributors + c.contributors },
        { ParserCells.zero with contributors := b.contributors })
        = prefixUpTo e b c bases destinationPrefix 0 := by
      unfold prefixUpTo
      rw [Nat.zero_mul, upTo_zero, upTo_zero, upTo_zero, upTo_zero, upTo_zero, upTo_zero]
      rfl
    have hstop : prefixUpTo e b c bases destinationPrefix w
        = (prefixAt (b + c) bases destinationPrefix, b) := by
      unfold prefixUpTo
      rw [upTo_of_le hcin.rows, upTo_of_le hcin.assignments, upTo_of_le hcin.experts,
        upTo_of_le hbin.rows, upTo_of_le hbin.assignments, upTo_of_le hbin.experts]
      rfl
    -- before turn `n` the destinations below `n` have room
    have hloop : Ends ((List.range w).foldlM (prefixDestination launch c)
          (prefixUpTo e b c bases destinationPrefix 0))
        (fun st => ((∀ d < w, b.rows d + c.rows d ≤ launch.destinationRowCapacity.toNat ∧
            b.assignments d + c.assignments d ≤ launch.destinationAssignmentCapacity.toNat) ∧
            ∀ x < w * e, b.experts x + c.experts x ≤ 0xffffffff) ∧
          st = prefixUpTo e b c bases destinationPrefix w)
        (fun _ => ¬ launch.Room (b + c)) False := by
      apply Ends.forRange (fun n st =>
        ((∀ d < n, b.rows d + c.rows d ≤ launch.destinationRowCapacity.toNat ∧
          b.assignments d + c.assignments d ≤ launch.destinationAssignmentCapacity.toNat) ∧
          ∀ x < n * e, b.experts x + c.experts x ≤ 0xffffffff) ∧
        st = prefixUpTo e b c bases destinationPrefix n)
      · refine ⟨⟨fun d hd => absurd hd (Nat.not_lt_zero d), fun x hx => ?_⟩, rfl⟩
        rw [Nat.zero_mul] at hx
        exact absurd hx (Nat.not_lt_zero x)
      · rintro n hn _ ⟨⟨hrows, hexperts⟩, rfl⟩
        apply (prefixDestination_ends hb hn).imp
        rintro st ⟨⟨hr, ha, hx⟩, hst⟩
        refine ⟨⟨?_, ?_⟩, hst⟩
        · intro d hd
          rcases Nat.lt_succ_iff_lt_or_eq.mp hd with hlt | rfl
          · exact hrows d hlt
          · exact ⟨hr, ha⟩
        · intro x hlt
          by_cases hfirst : x < n * e
          · exact hexperts x hfirst
          · exact hx x hlt (Nat.le_of_not_lt hfirst)
    simp only []
    rw [show (prefixAt b bases destinationPrefix).contributorCursor = b.contributors from rfl,
      hstart]
    apply Ends.bind hloop
    rintro st ⟨⟨hrows, hexperts⟩, rfl⟩
    rw [hstop]
    apply ends_ok.mpr
    exact ⟨⟨hcontributors, fun d hd => (hrows d hd).1, fun d hd => (hrows d hd).2, hexperts⟩, rfl⟩

end Parser

/-! ## Sources -/

/-- What a set uniform hint promises: every destination gets no token of the source, or each of
them once. -/
def ParsedSource.Uniform (workers : ℕ) (source : ParsedSource) : Prop :=
  ∀ d < workers, taken d source.routed = 0 ∨
    taken d source.routed = (source.header.tokenCount.toNat, source.header.tokenCount.toNat)

/-- A uniform hint is set truthfully. -/
def ParsedSource.HintTrue (workers : ℕ) (source : ParsedSource) : Prop :=
  source.header.uniformHint = true → source.Uniform workers

/-- The prefix state in front of source `s`. -/
def prefixState (launch : DispatchLaunch) (srcs : List ParsedSource) (s : ℕ) : PrefixState :=
  prefixAt (launch.cells (ownerOrder (srcs.take s)))
    (tableOf (s * launch.parserCohort.toNat) fun parser => launch.cells (launch.before srcs parser))
    (tableOf s fun r => (launch.cells (ownerOrder (srcs.take r))).rows)

section Source

variable {launch : DispatchLaunch} {srcs : List ParsedSource} {source : ParsedSource}

/-- The rows of tokens. -/
theorem cellsOf_rows (workers e d : ℕ) (vs : List RoutedToken) :
    (cellsOf workers e vs).rows d = (taken d vs).1 := by
  induction vs with
  | nil => rfl
  | cons v vs ih =>
    have hcons : cellsOf workers e (v :: vs) = tokenCells workers e v + cellsOf workers e vs :=
      total_cons _ _ _
    rw [hcons, taken_cons, ParserCells.rows_add, Pi.add_apply, ih]
    rfl

/-- The assignments of tokens. -/
theorem cellsOf_assignments (workers e d : ℕ) (vs : List RoutedToken) :
    (cellsOf workers e vs).assignments d = (taken d vs).2 := by
  induction vs with
  | nil => rfl
  | cons v vs ih =>
    have hcons : cellsOf workers e (v :: vs) = tokenCells workers e v + cellsOf workers e vs :=
      total_cons _ _ _
    rw [hcons, taken_cons, ParserCells.assignments_add, Pi.add_apply, ih]
    rfl

theorem cells_append (vs ws : List RoutedToken) :
    launch.cells (vs ++ ws) = launch.cells vs + launch.cells ws := cellsOf_append vs ws

theorem tokensInside_ownerOrder (h : ∀ source ∈ srcs, SourceScanned launch source) :
    TokensInside launch.workerCount.toNat launch.expertCount.toNat (ownerOrder srcs) := by
  intro v hv a ha
  rcases List.mem_flatMap.mp hv with ⟨source, hsource, hv⟩
  exact ⟨(h source hsource).destination_lt hv ha, (h source hsource).expert_lt hv ha⟩

theorem TokensInside.sublist {workers e : ℕ} {vs ws : List RoutedToken}
    (h : TokensInside workers e ws) (hsub : ∀ v ∈ vs, v ∈ ws) : TokensInside workers e vs :=
  fun v hv => h v (hsub v hv)

/-- The lanes of one source. -/
theorem prefixLanes_ends (hvalid : launch.Valid) {s : ℕ} (hs : srcs[s]? = some source)
    (hlen : srcs.length = launch.workerCount.toNat)
    (hinside : TokensInside launch.workerCount.toNat launch.expertCount.toNat (ownerOrder srcs))
    (htokens : source.tokens.length = source.header.tokenCount.toNat)
    (hroom : launch.Room (launch.cells (ownerOrder (srcs.take s))))
    (destinationPrefix : List (ℕ → ℕ)) :
    Ends ((List.range launch.parserCohort.toNat).foldlM
        (prefixLane launch (tableOf launch.activeParserBlocks.toNat
          fun parser => launch.cells (launch.tokensOf srcs parser)) s)
        (prefixAt (launch.cells (ownerOrder (srcs.take s)))
          (tableOf (s * launch.parserCohort.toNat)
            fun parser => launch.cells (launch.before srcs parser)) destinationPrefix))
      (fun st => launch.Room (launch.cells (ownerOrder (srcs.take (s + 1)))) ∧
        st = prefixAt (launch.cells (ownerOrder (srcs.take (s + 1))))
          (tableOf ((s + 1) * launch.parserCohort.toNat)
            fun parser => launch.cells (launch.before srcs parser)) destinationPrefix)
      (fun _ => ¬ launch.Room (launch.cells (ownerOrder (srcs.take (s + 1))))) False := by
  set n := launch.parserCohort.toNat with hn
  have hslt := (List.getElem?_eq_some_iff.mp hs).1
  have hparser : ∀ lane < n, s * n + lane < launch.activeParserBlocks.toNat := by
    intro lane hlane
    rw [hvalid.active, ← hlen]
    calc s * n + lane < s * n + n := by omega
      _ = n * (s + 1) := by ring
      _ ≤ n * srcs.length := Nat.mul_le_mul_left n hslt
  -- the tokens in front of lane `j` of the source
  set front := fun j => ownerOrder (srcs.take s) ++ source.routed.take (launch.cut source j)
    with hfront
  have hfrontIn : ∀ j, ∀ v ∈ front j, v ∈ ownerOrder srcs := by
    intro j v hv
    rcases List.mem_append.mp hv with hv | hv
    · rcases List.mem_flatMap.mp hv with ⟨source', hsource', hv⟩
      exact List.mem_flatMap.mpr ⟨source', List.mem_of_mem_take hsource', hv⟩
    · exact List.mem_flatMap.mpr ⟨source, List.mem_of_getElem? hs, List.mem_of_mem_take hv⟩
  have hnext : ∀ j < n, front (j + 1) = front j ++ launch.laneSlice source j := by
    intro j _
    rw [hfront]
    simp only [List.append_assoc, DispatchLaunch.laneSlice_append]
  have hlast : front n = ownerOrder (srcs.take (s + 1)) := by
    have hcut : launch.cut source n = source.routed.length := by
      rw [ParsedSource.routed, List.length_map, htokens]
      exact boundary_last _ hvalid.cohort_pos
    rw [ownerOrder_take_succ hs, hfront]
    simp only [hcut, List.take_length]
  have hrest : ∀ j ≤ n, ∃ rest, front n = front j ++ rest := by
    intro j hj
    refine ⟨(source.routed.take (launch.cut source n)).drop (launch.cut source j), ?_⟩
    have hmono : launch.cut source j ≤ launch.cut source n := boundary_mono _ _ hj
    have htake : source.routed.take (launch.cut source j)
        = (source.routed.take (launch.cut source n)).take (launch.cut source j) := by
      rw [List.take_take, Nat.min_eq_left hmono]
    rw [hfront]
    simp only []
    rw [htake, List.append_assoc, List.take_append_drop]
  rw [← hlast, show (s + 1) * n = s * n + n by ring]
  apply Ends.forRange (fun j st => launch.Room (launch.cells (front j)) ∧
    st = prefixAt (launch.cells (front j)) (tableOf (s * n + j)
      fun parser => launch.cells (launch.before srcs parser)) destinationPrefix)
  · have hzero : front 0 = ownerOrder (srcs.take s) := by
      have hcut : launch.cut source 0 = 0 := boundary_zero _ _
      rw [hfront]
      simp only [hcut, List.take_zero, List.append_nil]
    rw [hzero]
    exact ⟨hroom, rfl⟩
  · rintro j hj _ ⟨hroomj, rfl⟩
    have hin : (launch.cells (front j)).Inside launch.workerCount.toNat
        launch.expertCount.toNat := (hinside.sublist (hfrontIn j)).cellsOf
    have hmine : (launch.cells (launch.laneSlice source j)).Inside launch.workerCount.toNat
        launch.expertCount.toNat := by
      apply (hinside.sublist _).cellsOf
      intro v hv
      apply hfrontIn (j + 1)
      rw [hnext j hj]
      exact List.mem_append_right _ hv
    unfold prefixLane
    rw [read_of (getElem?_tableOf (hparser j hj)), ok_bind, tokensOf_lane hj hs]
    apply (prefixParser_ends hroomj hin hmine).mono _ _ id
    · rintro st ⟨hroom', rfl⟩
      rw [hnext j hj, cells_append]
      refine ⟨hroom', ?_⟩
      rw [show s * n + (j + 1) = s * n + j + 1 by ring, tableOf_succ, before_lane hj hs]
    · intro _ hbad hall
      apply hbad
      rcases hrest (j + 1) hj with ⟨rest, hsplit⟩
      rw [hsplit, cells_append, hnext j hj, cells_append] at hall
      exact hall.left

/-- What a source adds to the cursors is what its tokens take. -/
theorem sourceUniform_prefixAt {s : ℕ} (hs : srcs[s]? = some source)
    (bases bases' : List ParserCells) (prefixes prefixes' : List (ℕ → ℕ)) :
    sourceUniform launch source.header.tokenCount.toNat
      (prefixAt (launch.cells (ownerOrder (srcs.take s))) bases prefixes)
      (prefixAt (launch.cells (ownerOrder (srcs.take (s + 1)))) bases' prefixes') ↔
    source.Uniform launch.workerCount.toNat := by
  have hcells : launch.cells (ownerOrder (srcs.take (s + 1)))
      = launch.cells (ownerOrder (srcs.take s)) + launch.cells source.routed := by
    rw [ownerOrder_take_succ hs, cells_append]
  unfold sourceUniform ParsedSource.Uniform prefixAt
  apply forall_congr'
  intro d
  apply imp_congr Iff.rfl
  rw [hcells]
  simp only [ParserCells.rows_add, ParserCells.assignments_add, Pi.add_apply,
    Nat.add_sub_cancel_left]
  show (cellsOf _ _ _).rows d = 0 ∧ (cellsOf _ _ _).assignments d = 0 ∨
    (cellsOf _ _ _).rows d = _ ∧ (cellsOf _ _ _).assignments d = _ ↔ _
  rw [cellsOf_rows, cellsOf_assignments, Prod.ext_iff, Prod.ext_iff]
  rfl

/-- One turn of the loop over the sources. -/
theorem prefixSource_ends (hvalid : launch.Valid) {s : ℕ} (hs : srcs[s]? = some source)
    (hlen : srcs.length = launch.workerCount.toNat)
    (hinside : TokensInside launch.workerCount.toNat launch.expertCount.toNat (ownerOrder srcs))
    (htokens : source.tokens.length = source.header.tokenCount.toNat)
    (hroom : launch.Room (launch.cells (ownerOrder (srcs.take s)))) :
    Ends (prefixSource launch srcs (tableOf launch.activeParserBlocks.toNat
        fun parser => launch.cells (launch.tokensOf srcs parser)) (prefixState launch srcs s) s)
      (fun st => (launch.Room (launch.cells (ownerOrder (srcs.take (s + 1)))) ∧
          source.HintTrue launch.workerCount.toNat) ∧ st = prefixState launch srcs (s + 1))
      (fun _ => ¬ (launch.Room (launch.cells (ownerOrder (srcs.take (s + 1)))) ∧
        source.HintTrue launch.workerCount.toNat)) False := by
  unfold prefixSource
  rw [read_of hs, ok_bind]
  -- the rows before the source are noted first, for the uniform check
  have hbefore : ({ prefixState launch srcs s with
      destinationPrefix := (prefixState launch srcs s).destinationPrefix
        ++ [(prefixState launch srcs s).rowCursor] } : PrefixState)
      = prefixAt (launch.cells (ownerOrder (srcs.take s)))
          (tableOf (s * launch.parserCohort.toNat)
            fun parser => launch.cells (launch.before srcs parser))
          (tableOf (s + 1) fun r => (launch.cells (ownerOrder (srcs.take r))).rows) := by
    rw [tableOf_succ]
    rfl
  dsimp only
  rw [hbefore]
  apply Ends.bind ((prefixLanes_ends hvalid hs hlen hinside htokens hroom _).mono
    (fun _ h => h) _ id)
  · rintro _ ⟨hroom', rfl⟩
    -- a source that claims to be uniform is checked behind its lanes
    have hcheck : Ends (check (source.header.uniformHint = true →
        sourceUniform launch source.header.tokenCount.toNat
          (prefixAt (launch.cells (ownerOrder (srcs.take s)))
            (tableOf (s * launch.parserCohort.toNat)
              fun parser => launch.cells (launch.before srcs parser))
            (tableOf (s + 1) fun r => (launch.cells (ownerOrder (srcs.take r))).rows))
          (prefixAt (launch.cells (ownerOrder (srcs.take (s + 1))))
            (tableOf ((s + 1) * launch.parserCohort.toNat)
              fun parser => launch.cells (launch.before srcs parser))
            (tableOf (s + 1) fun r => (launch.cells (ownerOrder (srcs.take r))).rows)))
        .invalidAssignment)
        (fun _ => source.HintTrue launch.workerCount.toNat)
        (fun _ => ¬ (launch.Room (launch.cells (ownerOrder (srcs.take (s + 1)))) ∧
          source.HintTrue launch.workerCount.toNat)) False := by
      apply Ends.require
      · intro h hhint
        exact (sourceUniform_prefixAt hs _ _ _ _).mp (h hhint)
      · intro h hall
        exact h fun hhint => (sourceUniform_prefixAt hs _ _ _ _).mpr (hall.2 hhint)
    apply hcheck.bind
    intro _ hhint
    exact ⟨⟨hroom', hhint⟩, rfl⟩
  · intro _ hbad hall
    exact hbad hall.1

end Source

/-! ## Waves -/

/-- The tokens the headers announce. -/
def announcedTokens (srcs : List ParsedSource) : ℕ :=
  total (fun source => source.header.tokenCount.toNat) srcs

/-- The assignments the headers announce. -/
def announcedAssignments (srcs : List ParsedSource) : ℕ :=
  total (fun source => source.header.assignmentCount.toNat) srcs

/-- What the first loop over the sources computes. -/
def totalsOf (srcs : List ParsedSource) : WaveTotals where
  tokens := announcedTokens srcs
  assignments := announcedAssignments srcs
  cookie := srcs.foldl
    (fun cookie source => (Codec.u64.enc source.header.metadataDigest).foldl hashByte cookie)
    kHashOffset
  uniformHints := srcs.all fun source => source.header.uniformHint
  tokenPrefix := tableOf (srcs.length + 1) fun k => announcedTokens (srcs.take k)
  assignmentPrefix := tableOf (srcs.length + 1) fun k => announcedAssignments (srcs.take k)

/-- The journal has room for the tokens and assignments the headers announce. -/
structure TotalsFit (launch : DispatchLaunch) (srcs : List ParsedSource) : Prop where
  tokens : announcedTokens srcs ≤ launch.journalTokenCapacity.toNat ∧ announcedTokens srcs ≤ 0xffffffff
  assignments : (launch.journalAssignmentCapacity ≠ 0 →
    announcedAssignments srcs ≤ launch.journalAssignmentCapacity.toNat) ∧
    announcedAssignments srcs ≤ 0xffffffff

/-- The waves the kernel plans. -/
structure Planned (launch : DispatchLaunch) (srcs : List ParsedSource) : Prop where
  totals : TotalsFit launch srcs
  rowMap : launch.rowMapCapacityEntries ≠ 0 →
    announcedTokens srcs * launch.workerCount.toNat ≤ launch.rowMapCapacityEntries.toNat
  scanned : ∀ source ∈ srcs, SourceScanned launch source
  room : launch.Room (launch.cells (ownerOrder srcs))
  hints : ∀ source ∈ srcs, source.HintTrue launch.workerCount.toNat

/-- The plan of a wave. -/
def wavePlanOf (launch : DispatchLaunch) (srcs : List ParsedSource) : WavePlan where
  totals := totalsOf srcs
  contributors := (launch.cells (ownerOrder srcs)).contributors
  bases := tableOf launch.activeParserBlocks.toNat
    fun parser => launch.cells (launch.before srcs parser)
  destinationPrefix := tableOf (srcs.length + 1)
    fun r => (launch.cells (ownerOrder (srcs.take r))).rows
  destinationRowCounts := (launch.cells (ownerOrder srcs)).rows
  destinationAssignmentCounts := (launch.cells (ownerOrder srcs)).assignments
  expertCounts := (launch.cells (ownerOrder srcs)).experts

section Wave

variable {launch : DispatchLaunch} {srcs : List ParsedSource}

theorem announcedTokens_append (xs ys : List ParsedSource) :
    announcedTokens (xs ++ ys) = announcedTokens xs + announcedTokens ys := total_append _ _ _

theorem announcedAssignments_append (xs ys : List ParsedSource) :
    announcedAssignments (xs ++ ys) = announcedAssignments xs + announcedAssignments ys := total_append _ _ _

/-- The totals of a part fit if those of the whole do. -/
theorem TotalsFit.left {xs ys : List ParsedSource} (h : TotalsFit launch (xs ++ ys)) :
    TotalsFit launch xs := by
  have htokens := h.tokens
  have hassignments := h.assignments
  rw [announcedTokens_append] at htokens
  rw [announcedAssignments_append] at hassignments
  exact ⟨⟨by omega, by omega⟩, fun hne => (Nat.le_add_right _ _).trans (hassignments.1 hne),
    by omega⟩

/-- The prefix tables of one source more. -/
theorem prefix_concat (size : List ParsedSource → ℕ) (pre : List ParsedSource)
    (source : ParsedSource) :
    tableOf ((pre ++ [source]).length + 1) (fun k => size ((pre ++ [source]).take k))
      = tableOf (pre.length + 1) (fun k => size (pre.take k)) ++ [size (pre ++ [source])] := by
  rw [List.length_append, List.length_singleton, tableOf_succ (pre.length + 1)]
  congr 1
  · apply tableOf_congr
    intro k hk
    rw [List.take_append_of_le_length (by omega)]
  · rw [List.take_of_length_le (by rw [List.length_append, List.length_singleton])]

/-- The totals are computed exactly if they fit. -/
theorem totals_ends (launch : DispatchLaunch) (srcs : List ParsedSource) :
    Ends (srcs.foldlM (totalSource launch) {})
      (fun totals => TotalsFit launch srcs ∧ totals = totalsOf srcs)
      (fun _ => ¬ TotalsFit launch srcs) False := by
  apply Ends.foldlM (fun pre totals => TotalsFit launch pre ∧ totals = totalsOf pre)
  · exact ⟨⟨⟨Nat.zero_le _, Nat.zero_le _⟩, fun _ => Nat.zero_le _, Nat.zero_le _⟩, rfl⟩
  · rintro pre source post _ hsplit ⟨_, rfl⟩
    have htokens : announcedTokens (pre ++ [source])
        = announcedTokens pre + source.header.tokenCount.toNat := by
      rw [announcedTokens_append]
      exact congrArg _ (total_singleton _ _)
    have hassignments : announcedAssignments (pre ++ [source])
        = announcedAssignments pre + source.header.assignmentCount.toNat := by
      rw [announcedAssignments_append]
      exact congrArg _ (total_singleton _ _)
    unfold totalSource
    rw [show (totalsOf pre).tokens = announcedTokens pre from rfl,
      show (totalsOf pre).assignments = announcedAssignments pre from rfl, ← htokens, ← hassignments]
    apply Ends.bind (P := fun _ => TotalsFit launch (pre ++ [source]))
    · apply Ends.require
      · intro h
        exact ⟨⟨h.1, h.2.1⟩, h.2.2.1, h.2.2.2⟩
      · intro h hfit
        have hfit : TotalsFit launch ((pre ++ [source]) ++ post) := by
          rw [List.append_assoc]
          exact hsplit ▸ hfit
        exact h ⟨hfit.left.tokens.1, hfit.left.tokens.2, hfit.left.assignments.1,
          hfit.left.assignments.2⟩
    · intro _ hfit
      apply ends_ok.mpr
      refine ⟨hfit, ?_⟩
      unfold totalsOf
      rw [prefix_concat, prefix_concat, List.foldl_append, List.all_append]
      simp only [List.foldl_cons, List.foldl_nil, List.all_cons, List.all_nil, Bool.and_true]

/-- There is room for the sources before each source. -/
theorem room_take (h : launch.Room (launch.cells (ownerOrder srcs))) (n : ℕ) :
    launch.Room (launch.cells (ownerOrder (srcs.take n))) := by
  have hsplit : ownerOrder srcs = ownerOrder (srcs.take n) ++ ownerOrder (srcs.drop n) := by
    unfold ownerOrder
    rw [← List.flatMap_append, List.take_append_drop]
  rw [hsplit, cells_append] at h
  exact h.left

/-- The prefix over the first `n` sources: they have room and true hints. -/
theorem prefixSources_ends (hvalid : launch.Valid) (hready : WaveReady launch srcs)
    (hscanned : ∀ source ∈ srcs, SourceScanned launch source) {n : ℕ} (hn : n ≤ srcs.length) :
    Ends ((List.range n).foldlM (prefixSource launch srcs (tableOf launch.activeParserBlocks.toNat
        fun parser => launch.cells (launch.tokensOf srcs parser))) {})
      (fun st => (launch.Room (launch.cells (ownerOrder (srcs.take n))) ∧
        ∀ source ∈ srcs.take n, source.HintTrue launch.workerCount.toNat) ∧
        st = prefixState launch srcs n)
      (fun _ => ¬ Planned launch srcs) False := by
  have hinside := tokensInside_ownerOrder hscanned
  have hstart : ({} : PrefixState) = prefixState launch srcs 0 := by
    unfold prefixState
    rw [Nat.zero_mul]
    rfl
  rw [hstart]
  apply Ends.forRange (fun s st => (launch.Room (launch.cells (ownerOrder (srcs.take s))) ∧
    ∀ source ∈ srcs.take s, source.HintTrue launch.workerCount.toNat) ∧
    st = prefixState launch srcs s)
  · refine ⟨⟨⟨⟨Nat.zero_le _, Nat.zero_le _⟩, fun _ _ => Nat.zero_le _,
      fun _ _ => Nat.zero_le _, fun _ _ => Nat.zero_le _⟩, ?_⟩, rfl⟩
    intro source hsource
    rw [List.take_zero] at hsource
    cases hsource
  · rintro s hs _ ⟨⟨hroom, hhints⟩, rfl⟩
    have hget : srcs[s]? = some srcs[s] := List.getElem?_eq_getElem (by omega)
    have htake := (take_succ_of_getElem? hget).1
    apply (prefixSource_ends hvalid hget hready.length hinside (hready.source s _ hget).tokens
      hroom).mono _ _ id
    · rintro st ⟨⟨hroom', hhint⟩, hst⟩
      refine ⟨⟨hroom', ?_⟩, hst⟩
      intro source hsource
      rw [htake] at hsource
      rcases List.mem_append.mp hsource with hsource | hsource
      · exact hhints source hsource
      · rw [List.mem_singleton.mp hsource]
        exact hhint
    · intro _ hbad hplanned
      exact hbad ⟨room_take hplanned.room _, hplanned.hints _ (List.mem_of_getElem? hget)⟩

/-- The planner succeeds exactly on the planned waves, with their plan. -/
theorem planWave_ends (hvalid : launch.Valid) (hready : WaveReady launch srcs) :
    Ends (planWave launch srcs) (fun plan => Planned launch srcs ∧ plan = wavePlanOf launch srcs)
      (fun _ => ¬ Planned launch srcs) False := by
  have hlen := hready.length
  unfold planWave
  apply Ends.bind ((totals_ends launch srcs).mono (fun _ h => h) (fun _ h hplanned =>
    h hplanned.totals) id)
  rintro _ ⟨hfit, rfl⟩
  apply Ends.bind (P := fun _ => launch.rowMapCapacityEntries ≠ 0 →
    announcedTokens srcs * launch.workerCount.toNat ≤ launch.rowMapCapacityEntries.toNat)
  · exact Ends.require (fun h => h) fun h hplanned => h hplanned.rowMap
  intro _ hrowMap
  apply Ends.bind ((countParsers_ends hvalid hready).mono (fun _ h => h) (fun _ h hplanned =>
    h hplanned.scanned) id)
  rintro _ ⟨hscanned, rfl⟩
  rw [show List.range launch.workerCount.toNat = List.range srcs.length by rw [hlen]]
  apply (prefixSources_ends hvalid hready hscanned (le_refl _)).bind
  rintro _ ⟨⟨hroom, hhints⟩, rfl⟩
  rw [List.take_length] at hroom hhints
  apply ends_ok.mpr
  refine ⟨⟨hfit, hrowMap, hscanned, hroom, hhints⟩, ?_⟩
  unfold wavePlanOf prefixState prefixAt
  rw [List.take_length, tableOf_succ, List.take_length, hvalid.active, hlen,
    Nat.mul_comm launch.parserCohort.toNat]

end Wave

end AscendShmem.PullV2
