import Mathlib
import AscendShmem.Teams.Split2d
import AscendShmem.Teams.Translate

/-!
# The world as a grid

A 2-D split of the world, on a PE in any state of its pool: the splits of an axis cut the world into
lines, every PE is on one line of each axis, and the two splits that select this PE decide what it
gets.
-/

namespace AscendShmem.Teams

/-- The PE `p` of `n` still has its world. -/
structure OnWorld (s : PeState) (p n : ℤ) : Prop where
  single : s.instanceId = 0
  valid : s.isValidTeam teamWorld = some true
  wellFormed : s.WellFormed
  npes : s.npes = n
  le : n ≤ maxPes
  start : (s.teamPool teamWorld).start = 0
  stride : (s.teamPool teamWorld).stride = 1
  size : (s.teamPool teamWorld).size = n
  mype : (s.teamPool teamWorld).mype = p

/-- The split asks for a progression of the world. -/
structure InWorld (n : ℤ) (a : SplitArgs) : Prop where
  parent : a.parentTeam = teamWorld
  start_nonneg : 0 ≤ a.peStart
  stride_pos : 1 ≤ a.peStride
  size_pos : 0 < a.peSize
  last : a.peStart + a.peStride * (a.peSize - 1) < n

/-- Member `j` of the progression is `p`. -/
def SplitArgs.Hits (a : SplitArgs) (p j : ℤ) : Prop :=
  0 ≤ j ∧ j < a.peSize ∧ p = a.peStart + j * a.peStride

section Line

variable {s : PeState} {p n : ℤ} {a : SplitArgs} {host : Host}

theorem OnWorld.linear (h : OnWorld s p n) : (s.teamPool teamWorld).Linear n := by
  have hlinear := h.wellFormed teamWorld h.valid
  rwa [h.npes] at hlinear

/-- The PE is one of the world. -/
theorem OnWorld.range (h : OnWorld s p n) : 0 ≤ p ∧ p < n := by
  have hnonneg := h.linear.mype_nonneg
  have hlt := h.linear.mype_lt
  rw [h.mype] at hnonneg hlt
  rw [h.size] at hlt
  exact ⟨hnonneg, hlt⟩

theorem InWorld.srcTeam_eq (ha : InWorld n a) : s.srcTeam a = s.teamPool teamWorld := by
  rw [PeState.srcTeam, ha.parent]

/-- A split inside the world passes the checks. -/
theorem OnWorld.accepted (h : OnWorld s p n) (ha : InWorld n a) (hsmall : a.peStride < maxPes)
    {output : ℤ} : Accepted s a (some output) := by
  have hstride := ha.stride_pos
  have hsize := ha.size_pos
  have hlast := ha.last
  have hle := h.le
  have hreach : a.peSize - 1 ≤ a.peStride * (a.peSize - 1) := by
    rw [mul_comm]
    exact int_le_mul_of_one_le (by omega) hstride
  have hstart := ha.start_nonneg
  constructor
  · exact h.single
  · exact Option.some_ne_none _
  · rw [ha.parent]
    exact h.valid
  · exact ⟨by omega, hsmall, by omega⟩
  · exact hstart
  · rw [ha.srcTeam_eq, h.size]
    omega
  · exact hsize
  · rw [ha.srcTeam_eq, h.size]
    omega
  · exact hstride

theorem OnWorld.globalStart_eq (h : OnWorld s p n) (ha : InWorld n a) (hsmall : a.peStride < maxPes) :
    s.globalStart a = a.peStart := by
  have haccepted : Accepted s a (some 0) := h.accepted ha hsmall
  have hstart := haccepted.start_lt
  rw [ha.srcTeam_eq] at hstart
  rw [PeState.globalStart, ha.srcTeam_eq, h.linear.mapping _ ha.start_nonneg hstart, h.start,
    h.stride]
  ring

theorem OnWorld.globalStride_eq (h : OnWorld s p n) (ha : InWorld n a) :
    s.globalStride a = a.peStride := by
  rw [PeState.globalStride, ha.srcTeam_eq, h.stride, one_mul]

theorem OnWorld.placed (h : OnWorld s p n) (ha : InWorld n a) (hsmall : a.peStride < maxPes) :
    Placed s a := by
  have haccepted : Accepted s a (some 0) := h.accepted ha hsmall
  have hstart := haccepted.start_lt
  rw [ha.srcTeam_eq, h.size] at hstart
  refine ⟨h.single, haccepted.parent, haccepted.small, haccepted.start_nonneg, haccepted.start_lt,
    haccepted.size_pos, haccepted.size_le, haccepted.stride_pos, ?_, ?_⟩
  · rwa [h.globalStart_eq ha hsmall, h.npes]
  · rw [h.globalStart_eq ha hsmall, h.globalStride_eq ha, h.npes]
    exact ha.last

/-- A PE joins exactly if the split hits it. -/
theorem OnWorld.joins_iff (h : OnWorld s p n) (ha : InWorld n a) (hsmall : a.peStride < maxPes) :
    Joins s a ↔ ∃ j, a.Hits p j := by
  rw [(h.placed ha hsmall).joins_iff h.wellFormed]
  apply exists_congr
  intro j
  rw [PeState.Selects, h.globalStart_eq ha hsmall, h.globalStride_eq ha, ha.srcTeam_eq,
    h.mype, and_assoc]
  rfl

theorem OnWorld.prepare_eq (h : OnWorld s p n) (ha : InWorld n a) (hsmall : a.peStride < maxPes)
    (output : ℤ) : s.splitStrided a host (some output) =
      (s.place a host (some teamInvalid)).bind (s.finish host) := by
  rw [splitStrided_eq_prepare, (h.accepted ha hsmall).prepare_eq]

/-- A line that misses this PE. -/
theorem OnWorld.passes (h : OnWorld s p n) (ha : InWorld n a) (hsmall : a.peStride < maxPes)
    (hmiss : ¬ ∃ j, a.Hits p j) : Passes s a := by
  intro host output
  have hpes : maxPes = 16384 := rfl
  have haccepted : Accepted s a (some output) := h.accepted ha hsmall
  have hpass : s.place a host (some teamInvalid) = some (.returns ⟨success, some teamInvalid, s⟩) :=
    haccepted.place_passes (h.placed ha hsmall) h.wellFormed (h.npes.trans_le h.le)
      (by rw [h.globalStride_eq ha]; omega) (mt (h.joins_iff ha hsmall).mp hmiss)
  rw [h.prepare_eq ha hsmall, hpass]
  exact ⟨success, rfl⟩

/-- A stride of `ACLSHMEM_MAX_PES` is refused. -/
theorem OnWorld.passes_of_refused (h : OnWorld s p n) (hparent : a.parentTeam = teamWorld)
    (hlarge : maxPes ≤ a.peStride) : Passes s a := by
  intro host output
  have hvalid : s.isValidTeam a.parentTeam = some true := by
    rw [hparent]
    exact h.valid
  rw [PeState.splitStrided, if_neg (not_not.mpr h.single),
    splitStridedPrecheck_of_valid hvalid (Option.some_ne_none _), if_pos (Or.inr (Or.inl hlarge))]
  exact ⟨invalidParam, rfl⟩

/-- Both `device_team_update` and `update_device_state` work. -/
def Host.Works (host : Host) : Prop := host.teamUpdate = true ∧ host.stateUpdate = true

/-- What enrolling a team under a clear bit does. -/
theorem enroll_of_clear {team : Team} {out : Option ℤ} {idx : ℤ} (hinit : s.initialized = true)
    (halloc : s.poolAllocated = true) (hfetch : firstFreeIdxFetch s.teamMask
      = some (idx, s.teamMask ||| bit idx)) (hclear : LowestClear s.teamMask idx) :
    ∃ r, s.enroll team host out = some r ∧ (¬ host.Works → r.newTeam = out) := by
  have hne : idx ≠ -1 := by
    have hnonneg := hclear.nonneg
    omega
  have hdestroy : ∀ s' : PeState, s'.initialized = true → s'.poolAllocated = true →
      s'.teamMask = s.teamMask ||| bit idx → ∃ t, s'.destroy idx = some t :=
    fun s' hinit' halloc' hmask =>
      ⟨_, destroy_of_valid (isValidTeam_new hclear hmask hinit' halloc')⟩
  rw [PeState.enroll, hfetch]
  simp only [Option.bind_eq_bind, Option.bind_some, if_neg hne]
  by_cases hteam : host.teamUpdate = true
  · by_cases hstate : host.stateUpdate = true
    · simp only [hteam, hstate, Bool.not_true, Bool.false_eq_true, if_false]
      exact ⟨_, rfl, fun hfails => absurd ⟨hteam, hstate⟩ hfails⟩
    · simp only [hteam, hstate, Bool.not_true, Bool.not_false, Bool.false_eq_true, if_false, if_true]
      rcases hdestroy { s with
        teamMask := s.teamMask ||| bit idx
        teamPool := Function.update s.teamPool idx { team with teamIdx := idx }
        devicePools := Function.update s.devicePools idx (some { team with teamIdx := idx }) }
        hinit halloc rfl with ⟨t, ht⟩
      exact ⟨⟨innerError, out, t⟩, by rw [ht]; rfl, fun _ => rfl⟩
  · simp only [hteam, Bool.not_false, if_true]
    rcases hdestroy { s with
      teamMask := s.teamMask ||| bit idx
      teamPool := Function.update s.teamPool idx { team with teamIdx := idx } }
      hinit halloc rfl with ⟨t, ht⟩
    exact ⟨⟨innerError, out, t⟩, by rw [ht]; rfl, fun _ => rfl⟩

/-- The team is the line the split asked for, with this PE at place `j`. -/
structure IsLine (t : Team) (a : SplitArgs) (j n : ℤ) : Prop where
  linear : t.Linear n
  start : t.start = a.peStart
  stride : t.stride = a.peStride
  size : t.size = a.peSize
  mype : t.mype = j

/-- What the split of a line through this PE comes to: nothing without a free index; else a team at
the lowest one, or no team if the device does not play along. -/
inductive JoinOutcome (s : PeState) (p n : ℤ) (a : SplitArgs) (j : ℤ) (host : Host) :
    Option SplitResult → Prop
  | full (hfull : ∀ idx, ¬ LowestClear s.teamMask idx) : JoinOutcome s p n a j host none
  | joined {idx : ℤ} {r : SplitResult} {t : Team} (hworks : host.Works)
      (hclear : LowestClear s.teamMask idx) (hworld : OnWorld r.state p n)
      (hnew : r.newTeam = some idx) (hmask : r.state.teamMask = s.teamMask ||| bit idx)
      (hpool : r.state.teamPool = Function.update s.teamPool idx t) (hline : IsLine t a j n) :
      JoinOutcome s p n a j host (some r)
  | failed {r : SplitResult} (hfails : ¬ host.Works) (hworld : OnWorld r.state p n)
      (hnew : r.newTeam = some teamInvalid) (hmask : r.state.teamMask = s.teamMask) :
      JoinOutcome s p n a j host (some r)

/-- What a split does on a PE that it hits. -/
theorem OnWorld.joins (h : OnWorld s p n) (ha : InWorld n a) (hsmall : a.peStride < maxPes) {j : ℤ}
    (hhits : a.Hits p j) (output : ℤ) :
    JoinOutcome s p n a j host (s.splitStrided a host (some output)) := by
  have hpes : maxPes = 16384 := rfl
  have hbits := PeState.isValidTeam_true.mp h.valid
  have haccepted : Accepted s a (some output) := h.accepted ha hsmall
  have hplaced := h.placed ha hsmall
  have hjoins := (h.joins_iff ha hsmall).mpr ⟨j, hhits⟩
  have hbuilds : ∃ m, fillMapping host.stack (s.globalStart a) (s.globalStride a) a.peSize.toNat
        = some m ∧
      s.place a host (some teamInvalid) = some (.builds (s.myTeam a m) (some teamInvalid)) :=
    haccepted.place_builds hplaced h.wellFormed (h.npes.trans_le h.le)
      (by rw [h.globalStride_eq ha]; omega) hjoins
  rcases hbuilds with ⟨m, hfill, hplace⟩
  have henroll : s.splitStrided a host (some output)
      = s.enroll (s.myTeam a m) host (some teamInvalid) := by
    rw [h.prepare_eq ha hsmall, hplace]
    rfl
  cases hfetch : firstFreeIdxFetch s.teamMask with
  | none =>
    have hnone : s.enroll (s.myTeam a m) host (some teamInvalid) = none := by
      rw [PeState.enroll, hfetch]
      rfl
    rw [henroll, hnone]
    apply JoinOutcome.full
    intro idx hclear
    rcases firstFreeIdxFetch_of_clear hclear.nonneg hclear.lt hclear.clear with ⟨r, hr⟩
    rw [hr] at hfetch
    cases hfetch
  | some fetched =>
    rcases firstFreeIdxFetch_eq_some hfetch with ⟨hclear, hmask⟩
    have hfetch : firstFreeIdxFetch s.teamMask
        = some (fetched.1, s.teamMask ||| bit fetched.1) := by
      rw [hfetch, ← hmask]
    have hreturns : ∃ r, s.enroll (s.myTeam a m) host (some teamInvalid) = some r ∧
        (¬ host.Works → r.newTeam = some teamInvalid) :=
      enroll_of_clear hbits.1 hbits.2.1 hfetch hclear
    rcases hreturns with ⟨r, hr, hout⟩
    rw [henroll, hr]
    have hformed := h.wellFormed.splitStrided (henroll.trans hr)
    rcases enroll_cases hbits.1 hbits.2.1 hr with
      ⟨idx, hclear', hinit, halloc, -, -, hpool, hcases⟩
    -- the world keeps its entry and its bit
    have hne : teamWorld ≠ idx := by
      intro heq
      have hset : s.teamMask.getLsbD teamWorld.toNat = true := hbits.2.2.2
      rw [heq, hclear'.clear] at hset
      cases hset
    have hentry : r.state.teamPool teamWorld = s.teamPool teamWorld := by
      rw [hpool, Function.update_of_ne hne]
    have hvalid : r.state.isValidTeam teamWorld = some true := by
      rcases hcases with ⟨-, -, -, -, hmask'⟩ | ⟨-, -, hmask'⟩
      · exact (isValidTeam_of_or hclear' hmask' hinit halloc hne).mpr h.valid
      · rw [PeState.isValidTeam_true, hinit, halloc, hmask']
        exact hbits
    have hworld : OnWorld r.state p n := by
      constructor
      · exact (enroll_instanceId hr).trans h.single
      · exact hvalid
      · exact hformed.1
      · exact hformed.2.1.trans h.npes
      · exact h.le
      · rw [hentry]
        exact h.start
      · rw [hentry]
        exact h.stride
      · rw [hentry]
        exact h.size
      · rw [hentry]
        exact h.mype
    rcases hcases with ⟨hteam, hstate, -, hnew, hmask'⟩ | ⟨hfails, -, hmask'⟩
    · refine .joined ⟨hteam, hstate⟩ hclear' hworld hnew hmask' hpool ?_
      constructor
      · rw [← h.npes]
        exact hplaced.linear_myTeam h.wellFormed hjoins hfill idx
      · exact h.globalStart_eq ha hsmall
      · exact h.globalStride_eq ha
      · rfl
      · apply hplaced.place h.wellFormed
        rw [PeState.Selects, h.globalStart_eq ha hsmall, h.globalStride_eq ha,
          ha.srcTeam_eq, h.mype]
        exact ⟨⟨hhits.1, hhits.2.1⟩, hhits.2.2⟩
    · exact .failed hfails hworld (hout hfails) hmask'

end Line

/-! ## Lines through the grid -/

/-- The rounds of an axis cut the `n` PEs into `count` lines: `q` is at place `place q` of the line
of round `line q`. -/
structure Axis (n stride step : ℤ) (size : ℕ → ℤ) (count : ℕ) (line place : ℤ → ℤ) : Prop where
  inWorld : ∀ i < count, InWorld n (axisArgs teamWorld stride step size i)
  step_nonneg : 0 ≤ step
  fits : count * step < 2 ^ 31
  line_range : ∀ q, 0 ≤ q → q < n → 0 ≤ line q ∧ line q < count
  hits : ∀ i < count, ∀ q j, (axisArgs teamWorld stride step size i).Hits q j ↔
    (0 ≤ q ∧ q < n) ∧ line q = i ∧ place q = j

/-- The PE is on the world afterwards. -/
theorem JoinOutcome.onWorld {s : PeState} {p n j : ℤ} {a : SplitArgs} {host : Host}
    {o : Option SplitResult} (h : JoinOutcome s p n a j host o) {r : SplitResult} (hr : o = some r) :
    OnWorld r.state p n ∧ ∃ t, r.newTeam = some t := by
  cases h with
  | full hfull => cases hr
  | joined hworks hclear hworld hnew hmask hpool hline =>
    rw [← Option.some.inj hr]
    exact ⟨hworld, _, hnew⟩
  | failed hfails hworld hnew hmask =>
    rw [← Option.some.inj hr]
    exact ⟨hworld, _, hnew⟩

section Grid

variable {s : PeState} {p n stride step : ℤ} {size : ℕ → ℤ} {count : ℕ} {line place : ℤ → ℤ}

/-- An axis comes to what the split of the line through this PE comes to. -/
theorem Axis.splitAxis_eq (hax : Axis n stride step size count line place) (h : OnWorld s p n)
    (hsmall : stride < maxPes) (calls : ℕ → AxisCall) :
    ∃ o, JoinOutcome s p n (axisArgs teamWorld stride step size (line p).toNat) (place p)
        (calls (line p).toNat).host o ∧
      splitAxis teamWorld stride step size calls count 0 0 teamInvalid s =
        o.bind fun r => r.newTeam.map fun t => (success, t, r.state) := by
  have hrange := h.range
  have hline := hax.line_range p hrange.1 hrange.2
  have hcast : (((line p).toNat : ℕ) : ℤ) = line p := Int.toNat_of_nonneg hline.1
  have hk : (line p).toNat < count := by omega
  have hhits := (hax.hits _ hk p (place p)).mpr ⟨hrange, hcast.symm, rfl⟩
  have hpass : ∀ {s' : PeState} {i : ℕ}, OnWorld s' p n → i < count → i ≠ (line p).toNat →
      Passes s' (axisArgs teamWorld stride step size i) := by
    intro s' i hworld hi hne
    apply hworld.passes (hax.inWorld i hi) hsmall
    intro hhit
    rcases hhit with ⟨j, hj⟩
    have heq := ((hax.hits i hi p j).mp hj).2.1
    omega
  have houtcome := fun output =>
    @OnWorld.joins s p n _ (calls (line p).toNat).host h (hax.inWorld _ hk) hsmall _ hhits output
  refine ⟨_, houtcome (calls (line p).toNat).output, ?_⟩
  apply splitAxis_at hax.step_nonneg hax.fits hk
  · intro i hlt
    exact hpass h (by omega) (by omega)
  · intro r hr
    have hworld := (houtcome _).onWorld hr
    exact ⟨hworld.2, fun i hlt hi => hpass hworld.1 hi (by omega)⟩

/-- An axis with a stride of `ACLSHMEM_MAX_PES` gives no team. -/
theorem Axis.splitAxis_refused (hax : Axis n stride step size count line place) (h : OnWorld s p n)
    (hlarge : maxPes ≤ stride) (calls : ℕ → AxisCall) (team : ℤ) :
    splitAxis teamWorld stride step size calls count 0 0 team s = some (success, team, s) := by
  have hall : splitAxis teamWorld stride step size calls count 0 ((0 : ℕ) * step) team s
      = some (success, team, s) :=
    splitAxis_passes hax.step_nonneg (by rw [Nat.cast_zero, zero_add]; exact hax.fits)
      fun k _ _ => h.passes_of_refused rfl hlarge
  rwa [Nat.cast_zero, zero_mul] at hall

/-! ### Rows and columns -/

/-- The number of rows is the number of PEs divided by the range, rounded up. -/
theorem ceil_div_bounds {r : ℤ} (hr : 0 < r) :
    (⌈(n : ℚ) / r⌉ - 1) * r < n ∧ n ≤ ⌈(n : ℚ) / r⌉ * r := by
  have hpos : (0 : ℚ) < r := by exact_mod_cast hr
  constructor
  · have hlt := (Int.lt_ceil (a := (n : ℚ) / r) (z := ⌈(n : ℚ) / r⌉ - 1)).mp (by omega)
    rw [lt_div_iff₀ hpos] at hlt
    exact_mod_cast hlt
  · have hle := Int.le_ceil ((n : ℚ) / r)
    rw [div_le_iff₀ hpos] at hle
    exact_mod_cast hle

/-- The size of a row: what is left of the world, at most `r`. -/
theorem xSize_spec {r : ℤ} (hr : 0 < r) (hn : 0 ≤ n) {i : ℕ} (hi : i < ⌈(n : ℚ) / r⌉) :
    0 < xSize ⌈(n : ℚ) / r⌉ n r i ∧ xSize ⌈(n : ℚ) / r⌉ n r i ≤ r ∧
      i * r + xSize ⌈(n : ℚ) / r⌉ n r i ≤ n ∧
      (xSize ⌈(n : ℚ) / r⌉ n r i = r ∨ i * r + xSize ⌈(n : ℚ) / r⌉ n r i = n) := by
  have hbounds := ceil_div_bounds (n := n) hr
  have hsplit := Int.mul_ediv_add_emod n r
  have hmod := Int.emod_nonneg n hr.ne'
  have hmodlt := Int.emod_lt_of_pos n hr
  rw [xSize, Int.tmod_eq_emod_of_nonneg hn]
  generalize ⌈(n : ℚ) / r⌉ = c at *
  -- the quotient is the number of full rows
  have hlow : c - 1 ≤ n / r := (Int.le_ediv_iff_mul_le hr).mpr hbounds.1.le
  have hhigh : n / r ≤ c := Int.ediv_le_of_le_mul hr hbounds.2
  split
  · rename_i hlast
    have hne : n / r ≠ c := by
      intro heq
      rw [heq] at hsplit
      have hcomm : r * c = c * r := mul_comm r c
      omega
    have heq : n / r = i := by omega
    rw [heq, mul_comm] at hsplit
    omega
  · rename_i hfull
    have hroom : (i + 1) * r ≤ n := by
      by_cases hlast : i = c - 1
      · have hzero : n % r = 0 := by
          by_contra hne
          exact hfull ⟨hlast, hne⟩
        have heq : n / r = c := by
          by_contra hne
          have hrow : n / r = c - 1 := by omega
          rw [hrow, hzero, mul_comm] at hsplit
          omega
        rw [heq, hzero, mul_comm] at hsplit
        rw [hlast, sub_add_cancel]
        omega
      · have hle : ((i : ℤ) + 1) * r ≤ (c - 1) * r :=
          mul_le_mul_of_nonneg_right (by omega) hr.le
        omega
    have hexpand : ((i : ℤ) + 1) * r = i * r + r := by ring
    omega

/-- The size of a column: every `r`-th PE from `i` on. -/
theorem ySize_spec {r : ℤ} (hr : 0 < r) (hn : r ≤ n) {i : ℕ} (hi : i < r) :
    0 < ySize n r i ∧ i + r * (ySize n r i - 1) < n ∧ n ≤ i + r * ySize n r i := by
  have hsplit := Int.mul_ediv_add_emod n r
  have hmod := Int.emod_nonneg n hr.ne'
  have hmodlt := Int.emod_lt_of_pos n hr
  have hpos : 1 ≤ n / r := (Int.le_ediv_iff_mul_le hr).mpr (by omega)
  simp only [ySize, Int.tmod_eq_emod_of_nonneg (show 0 ≤ n by omega),
    Int.tdiv_eq_ediv_of_nonneg (show 0 ≤ n by omega)]
  split
  · rename_i hlong
    have hexpand : r * (n / r + 1) = r * (n / r) + r := by ring
    rw [add_sub_cancel_right]
    omega
  · rename_i hshort
    have hexpand : r * (n / r - 1) = r * (n / r) - r := by ring
    omega

/-- The x axis of the grid. -/
theorem xAxis {r : ℤ} (hr : 0 < r) (hn : r ≤ n) (hle : n ≤ maxPes) :
    Axis n 1 r (xSize ⌈(n : ℚ) / r⌉ n r) ⌈(n : ℚ) / r⌉.toNat (· / r) (· % r) := by
  have hbounds := ceil_div_bounds (n := n) hr
  have hspec := fun i : ℕ => xSize_spec (n := n) (i := i) hr (by omega)
  have hpes : maxPes = 16384 := rfl
  have hnonneg : 0 ≤ ⌈(n : ℚ) / r⌉ := by
    apply Int.ceil_nonneg
    have hnum : (0 : ℚ) ≤ n := by exact_mod_cast (show 0 ≤ n by omega)
    have hden : (0 : ℚ) ≤ r := by exact_mod_cast hr.le
    exact div_nonneg hnum hden
  have hcast : ((⌈(n : ℚ) / r⌉.toNat : ℕ) : ℤ) = ⌈(n : ℚ) / r⌉ := Int.toNat_of_nonneg hnonneg
  generalize ⌈(n : ℚ) / r⌉ = c at *
  constructor
  · intro i hi
    have hi := hspec i (by omega)
    constructor
    · rfl
    · exact mul_nonneg (Int.natCast_nonneg i) hr.le
    · exact le_rfl
    · exact hi.1
    · show i * r + 1 * (xSize c n r i - 1) < n
      omega
  · exact hr.le
  · rw [hcast]
    have hexpand : (c - 1) * r = c * r - r := by ring
    omega
  · intro q hq hlt
    rw [hcast]
    exact ⟨Int.ediv_nonneg hq hr.le, Int.ediv_lt_of_lt_mul hr (by omega)⟩
  · intro i hi q j
    have hi := hspec i (by omega)
    rw [Int.ediv_emod_unique hr]
    show (0 ≤ j ∧ j < xSize c n r i ∧ q = i * r + j * 1) ↔ _
    have hoffset : 0 ≤ i * r := mul_nonneg (Int.natCast_nonneg i) hr.le
    rw [mul_comm r]
    omega

/-- The y axis of the grid. -/
theorem yAxis {r : ℤ} (hr : 0 < r) (hn : r ≤ n) (hle : n ≤ maxPes) :
    Axis n r 1 (ySize n r) r.toNat (· % r) (· / r) := by
  have hspec := fun i : ℕ => ySize_spec (n := n) (i := i) hr hn
  have hpes : maxPes = 16384 := rfl
  have hcast : ((r.toNat : ℕ) : ℤ) = r := Int.toNat_of_nonneg hr.le
  constructor
  · intro i hi
    have hi := hspec i (by omega)
    constructor
    · rfl
    · exact mul_nonneg (Int.natCast_nonneg i) (by norm_num)
    · exact hr
    · exact hi.1
    · show i * 1 + r * (ySize n r i - 1) < n
      omega
  · exact zero_le_one
  · omega
  · intro q _ _
    rw [hcast]
    exact ⟨Int.emod_nonneg q hr.ne', Int.emod_lt_of_pos q hr⟩
  · intro i hi q j
    have hlt : (i : ℤ) < r := by omega
    have hi := hspec i hlt
    rw [and_comm (a := q % r = i), Int.ediv_emod_unique hr]
    show (0 ≤ j ∧ j < ySize n r i ∧ q = i * 1 + j * r) ↔ _
    rw [mul_comm j r]
    constructor
    · intro hhits
      have hle : r * j ≤ r * (ySize n r i - 1) := mul_le_mul_of_nonneg_left (by omega) hr.le
      have hoffset : 0 ≤ r * j := mul_nonneg hr.le hhits.1
      omega
    · intro hplace
      -- both bounds on the place come from the bounds on `q`
      have hj : 0 ≤ j := by
        by_contra hneg
        have hle : r * j ≤ r * (-1) := mul_le_mul_of_nonneg_left (by omega) hr.le
        omega
      have hjlt : j < ySize n r i := by
        by_contra hge
        have hle : r * ySize n r i ≤ r * j := mul_le_mul_of_nonneg_left (by omega) hr.le
        omega
      omega

end Grid

/-! ## The grid -/

/-- The team is the line `line q = line p` of the world, with `p` at its place. -/
structure TeamIs (t : Team) (p n : ℤ) (line place : ℤ → ℤ) : Prop where
  members : ∀ q, (∃ i, t.HasMember i q) ↔ (0 ≤ q ∧ q < n) ∧ line q = line p
  own : t.HasMember (place p) p
  mype : t.mype = place p

/-- A line of an axis is the team of the PEs on it. -/
theorem IsLine.teamIs {t : Team} {n stride step p : ℤ} {size : ℕ → ℤ} {count : ℕ}
    {line place : ℤ → ℤ} (hax : Axis n stride step size count line place) (hp : 0 ≤ p) (hlt : p < n)
    (h : IsLine t (axisArgs teamWorld stride step size (line p).toNat) (place p) n) :
    TeamIs t p n line place := by
  have hline := hax.line_range p hp hlt
  have hcast : (((line p).toNat : ℕ) : ℤ) = line p := Int.toNat_of_nonneg hline.1
  have hmember : ∀ i q, t.HasMember i q ↔ (0 ≤ q ∧ q < n) ∧ line q = line p ∧ place q = i := by
    intro i q
    have hhits := hax.hits (line p).toNat (by omega) q i
    rw [hcast] at hhits
    rw [h.linear.hasMember_iff, h.start, h.stride, h.size, ← hhits]
    rfl
  constructor
  · intro q
    constructor
    · intro hq
      rcases hq with ⟨i, hi⟩
      exact ⟨((hmember i q).mp hi).1, ((hmember i q).mp hi).2.1⟩
    · intro hq
      exact ⟨place q, (hmember _ q).mpr ⟨hq.1, hq.2, rfl⟩⟩
  · exact (hmember _ p).mpr ⟨⟨hp, hlt⟩, rfl, rfl⟩
  · exact h.mype

/-- What a 2-D split of a world of `n` has to come to on PE `p`: with a success its row and its
column, with an error no index. -/
def GridMeets (s : PeState) (p n r : ℤ) (o : Option Split2dResult) : Prop :=
  ∃ result, o = some result ∧
    (result.ret = success → ∃ x y, result.xTeam = some x ∧ result.yTeam = some y ∧
      result.state.isValidTeam x = some true ∧ result.state.isValidTeam y = some true ∧
      TeamIs (result.state.teamPool x) p n (· / r) (· % r) ∧
      TeamIs (result.state.teamPool y) p n (· % r) (· / r)) ∧
    (result.ret ≠ success → result.state.teamMask = s.teamMask)

/-- Two indexes are free. -/
def TwoFree (s : PeState) : Prop :=
  ∃ t u : ℤ, t ≠ u ∧ (0 ≤ t ∧ t < 64) ∧ (0 ≤ u ∧ u < 64) ∧
    s.teamMask.getLsbD t.toNat = false ∧ s.teamMask.getLsbD u.toNat = false

section Split2d

variable {s : PeState} {p n xRange : ℤ} {xCalls yCalls : ℕ → AxisCall}

/-- On a world, a 2-D split with both outputs and a positive range goes through both axes. -/
theorem OnWorld.split2d_eq (h : OnWorld s p n) {xTeam yTeam : Option ℤ} (hx : xTeam ≠ none)
    (hy : yTeam ≠ none) (hrange : 0 < xRange) :
    s.split2d teamWorld xRange xCalls yCalls xTeam yTeam =
      (split2dX teamWorld ⌈(n : ℚ) / min xRange n⌉ n (min xRange n) xCalls teamInvalid s).bind
        fun x => if x.1 ≠ success then some ⟨x.1, some x.2.1, some teamInvalid, x.2.2⟩
          else (split2dY teamWorld (min xRange n) n (min xRange n) yCalls teamInvalid x.2.2).bind
            fun y => some ⟨y.1, some x.2.1, some y.2.1, y.2.2⟩ := by
  have hmin : (if n < xRange then n else xRange) = min xRange n := by
    split
    · rw [min_eq_right (by omega)]
    · rw [min_eq_left (by omega)]
  have hpre : s.split2dPrecheck teamWorld xRange xTeam yTeam
      = some (success, some teamInvalid, some teamInvalid) := by
    rw [PeState.split2dPrecheck, if_neg (not_or.mpr ⟨hx, hy⟩), if_neg (not_le.mpr hrange), h.valid]
    rfl
  rw [PeState.split2d, if_neg (not_not.mpr h.single), hpre]
  simp only [Option.bind_eq_bind, Option.bind_some, ne_eq, not_true_eq_false, if_false, h.size,
    hmin]

/-- A refused 2-D split changes nothing. -/
theorem OnWorld.split2d_refused (h : OnWorld s p n) {xTeam yTeam : Option ℤ}
    (hbad : ¬ (xTeam ≠ none ∧ yTeam ≠ none ∧ 0 < xRange)) :
    s.split2d teamWorld xRange xCalls yCalls xTeam yTeam
      = some ⟨invalidParam, xTeam, yTeam, s⟩ := by
  have hpre : s.split2dPrecheck teamWorld xRange xTeam yTeam
      = some (invalidParam, xTeam, yTeam) := by
    unfold PeState.split2dPrecheck
    by_cases hnull : xTeam = none ∨ yTeam = none
    · rw [if_pos hnull]
    · rw [if_neg hnull, if_pos]
      by_contra hpos
      rw [not_or] at hnull
      exact hbad ⟨hnull.1, hnull.2, by omega⟩
  rw [PeState.split2d, if_neg (not_not.mpr h.single), hpre]
  rfl

/-- Without one of the teams the grid is not met. -/
theorem not_gridMeets_of_invalid {r : ℤ} {o : Option Split2dResult}
    (h : ∀ result, o = some result → result.ret = success ∧
      (result.xTeam = some teamInvalid ∨ result.yTeam = some teamInvalid)) :
    ¬ GridMeets s p n r o := by
  intro hmeets
  rcases hmeets with ⟨result, hresult, hgrid, -⟩
  rcases h result hresult with ⟨hret, hinvalid⟩
  rcases hgrid hret with ⟨x, y, hx, hy, hxvalid, hyvalid, -⟩
  rcases hinvalid with hxout | hyout
  · rw [← Option.some.inj (hxout.symm.trans hx)] at hxvalid
    exact not_isValidTeam_invalid hxvalid
  · rw [← Option.some.inj (hyout.symm.trans hy)] at hyvalid
    exact not_isValidTeam_invalid hyvalid

/-- The search for a second index after a first one finds one exactly if two were free. -/
theorem twoFree_of_clear {s' : PeState} {idx idx' : ℤ} (hclear : LowestClear s.teamMask idx)
    (hmask : s'.teamMask = s.teamMask ||| bit idx) (hclear' : LowestClear s'.teamMask idx') :
    TwoFree s ∧ idx' ≠ idx := by
  have hbit := hclear'.clear
  rw [hmask, BitVec.getLsbD_or, getLsbD_bit ⟨hclear.nonneg, hclear.lt⟩, Bool.or_eq_false_iff,
    decide_eq_false_iff_not] at hbit
  have hne : idx' ≠ idx := by
    intro heq
    rw [heq] at hbit
    exact hbit.2 rfl
  exact ⟨⟨idx, idx', hne.symm, ⟨hclear.nonneg, hclear.lt⟩, ⟨hclear'.nonneg, hclear'.lt⟩,
    hclear.clear, hbit.1⟩, hne⟩

theorem exists_lowestClear {mask : BitVec 64} {t : ℤ} (ht : 0 ≤ t) (hlt : t < 64)
    (hclear : mask.getLsbD t.toNat = false) : ∃ idx, LowestClear mask idx := by
  rcases firstFreeIdxFetch_of_clear ht hlt hclear with ⟨r, hr⟩
  exact ⟨r.1, (firstFreeIdxFetch_eq_some hr).1⟩

/-- With the last bit taken there were not two. -/
theorem not_twoFree_of_full {s' : PeState} {idx : ℤ} (hclear : LowestClear s.teamMask idx)
    (hmask : s'.teamMask = s.teamMask ||| bit idx) (hfull : ∀ i, ¬ LowestClear s'.teamMask i) :
    ¬ TwoFree s := by
  intro hfree
  rcases hfree with ⟨t, u, hne, ht, hu, htclear, huclear⟩
  have hother : ∀ v : ℤ, (0 ≤ v ∧ v < 64) → s.teamMask.getLsbD v.toNat = false → v = idx := by
    intro v hv hvclear
    by_contra hdiff
    have hstill : s'.teamMask.getLsbD v.toNat = false := by
      have hnonneg := hclear.nonneg
      rw [hmask, BitVec.getLsbD_or, getLsbD_bit ⟨hclear.nonneg, hclear.lt⟩, hvclear,
        decide_eq_false (by omega)]
      rfl
    rcases exists_lowestClear hv.1 hv.2 hstill with ⟨i, hi⟩
    exact hfull i hi
  exact hne ((hother t ht htclear).trans (hother u hu huclear).symm)

variable (yCalls) in
/-- The columns give some team or none and always come to a success, if they come to an end. -/
theorem OnWorld.split2dY_success (h : OnWorld s p n) {r : ℤ} (hr : 0 < r) (hn : r ≤ n) :
    split2dY teamWorld r n r yCalls teamInvalid s = none ∨
      ∃ t s', split2dY teamWorld r n r yCalls teamInvalid s = some (success, t, s') := by
  have hax := yAxis hr hn h.le
  by_cases hsmall : r < maxPes
  · rcases hax.splitAxis_eq h hsmall yCalls with ⟨o, ho, heq⟩
    rw [split2dY, heq]
    cases ho with
    | full hfull => exact Or.inl rfl
    | joined hworks hclear hworld hnew hmask hpool hline =>
      rw [Option.bind_some, hnew]
      exact Or.inr ⟨_, _, rfl⟩
    | failed hfails hworld hnew hmask =>
      rw [Option.bind_some, hnew]
      exact Or.inr ⟨_, _, rfl⟩
  · exact Or.inr ⟨_, _, hax.splitAxis_refused h (not_lt.mp hsmall) yCalls teamInvalid⟩

/-- The columns after the row has got the index `x`. -/
theorem OnWorld.columns_iff (h : OnWorld s p n) {r x : ℤ} {s' : PeState} {t : Team} (hr : 0 < r)
    (hn : r ≤ n) (hclear : LowestClear s.teamMask x) (h' : OnWorld s' p n)
    (hmask : s'.teamMask = s.teamMask ||| bit x)
    (hpool : s'.teamPool = Function.update s.teamPool x t)
    (hrow : TeamIs t p n (· / r) (· % r)) :
    GridMeets s p n r ((split2dY teamWorld r n r yCalls teamInvalid s').bind
        fun y => some ⟨y.1, some x, some y.2.1, y.2.2⟩) ↔
      TwoFree s ∧ (yCalls (p % r).toNat).host.Works ∧ r < maxPes := by
  have hax := yAxis hr hn h.le
  by_cases hsmall : r < maxPes
  swap
  · -- the columns are refused
    apply iff_of_false
    · rw [split2dY, hax.splitAxis_refused h' (not_lt.mp hsmall)]
      apply not_gridMeets_of_invalid
      intro result hresult
      rw [← Option.some.inj hresult]
      exact ⟨rfl, Or.inr rfl⟩
    · exact fun hall => hsmall hall.2.2
  rcases hax.splitAxis_eq h' hsmall yCalls with ⟨o, ho, heq⟩
  rw [split2dY, heq]
  cases ho with
  | full hfull =>
    apply iff_of_false
    · intro hmeets
      rcases hmeets with ⟨result, hresult, -⟩
      cases hresult
    · exact fun hall => not_twoFree_of_full hclear hmask hfull hall.1
  | failed hfails hworld hnew hmask' =>
    rw [Option.bind_some, hnew]
    apply iff_of_false
    · apply not_gridMeets_of_invalid
      intro result hresult
      rw [← Option.some.inj hresult]
      exact ⟨rfl, Or.inr rfl⟩
    · exact fun hall => hfails hall.2.1
  | @joined y result u hworks hclear' hworld hnew hmask' hpool' hline =>
    rcases twoFree_of_clear hclear hmask hclear' with ⟨htwo, hne⟩
    rw [Option.bind_some, hnew]
    apply iff_of_true
    · refine ⟨_, rfl, fun _ => ⟨x, y, rfl, rfl, ?_, ?_, ?_, ?_⟩, fun hret => absurd rfl hret⟩
      · -- the row keeps its bit and its entry
        have hbits' := PeState.isValidTeam_true.mp h'.valid
        have hbits := PeState.isValidTeam_true.mp hworld.valid
        have hvalid : s'.isValidTeam x = some true :=
          isValidTeam_new hclear hmask hbits'.1 hbits'.2.1
        exact (isValidTeam_of_or hclear' hmask' (hbits.1.trans hbits'.1.symm)
          (hbits.2.1.trans hbits'.2.1.symm) hne.symm).mpr hvalid
      · have hbits := PeState.isValidTeam_true.mp hworld.valid
        exact isValidTeam_new hclear' hmask' hbits.1 hbits.2.1
      · show TeamIs (result.state.teamPool x) _ _ _ _
        rw [hpool', Function.update_of_ne hne.symm, hpool, Function.update_self]
        exact hrow
      · show TeamIs (result.state.teamPool y) _ _ _ _
        rw [hpool', Function.update_self]
        exact hline.teamIs hax h.range.1 h.range.2
    · exact ⟨htwo, hworks, hsmall⟩

/-- A 2-D split of the world is a grid exactly if two indexes are free, the device plays along for
the row and the column of this PE, and the columns do not have the stride `ACLSHMEM_MAX_PES`. -/
theorem OnWorld.gridMeets_iff (h : OnWorld s p n) {xTeam yTeam : Option ℤ} (hx : xTeam ≠ none)
    (hy : yTeam ≠ none) (hrange : 0 < xRange) :
    GridMeets s p n (min xRange n) (s.split2d teamWorld xRange xCalls yCalls xTeam yTeam) ↔
      TwoFree s ∧ (xCalls (p / min xRange n).toNat).host.Works ∧
        (yCalls (p % min xRange n).toNat).host.Works ∧ min xRange n < maxPes := by
  have hpos : 0 < min xRange n := lt_min hrange (by linarith [h.range.1, h.range.2])
  have hn : min xRange n ≤ n := min_le_right _ _
  have hax := xAxis hpos hn h.le
  rw [h.split2d_eq hx hy hrange]
  generalize min xRange n = r at *
  rcases hax.splitAxis_eq h (by decide) xCalls with ⟨o, ho, heq⟩
  rw [split2dX, heq]
  cases ho with
  | full hfull =>
    apply iff_of_false
    · intro hmeets
      rcases hmeets with ⟨result, hresult, -⟩
      cases hresult
    · intro hall
      rcases hall.1 with ⟨t, -, -, ht, -, htclear, -⟩
      rcases exists_lowestClear ht.1 ht.2 htclear with ⟨idx, hidx⟩
      exact hfull idx hidx
  | failed hfails hworld hnew hmask =>
    apply iff_of_false
    · rw [Option.bind_some, hnew]
      apply not_gridMeets_of_invalid
      intro result hresult
      rcases hworld.split2dY_success yCalls hpos hn with hnone | ⟨t, s', hsome⟩
      · simp only [Option.map_some, Option.bind_some, ne_eq, not_true_eq_false, if_false, hnone,
          Option.bind_none] at hresult
        cases hresult
      · simp only [Option.map_some, Option.bind_some, ne_eq, not_true_eq_false, if_false, hsome]
          at hresult
        rw [← Option.some.inj hresult]
        exact ⟨rfl, Or.inl rfl⟩
    · exact fun hall => hfails hall.2.1
  | joined hworks hclear hworld hnew hmask hpool hline =>
    rw [Option.bind_some, hnew]
    simp only [Option.map_some, Option.bind_some, ne_eq, not_true_eq_false, if_false]
    rw [h.columns_iff hpos hn hclear hworld hmask hpool
      (hline.teamIs hax h.range.1 h.range.2)]
    exact ⟨fun hall => ⟨hall.1, hworks, hall.2⟩, fun hall => ⟨hall.1, hall.2.2⟩⟩

end Split2d

/-! ## Every state of the pool -/

/-- A PE that has not destroyed its world is on it. -/
theorem onWorld_of_run {rank size : ℤ} {l l' : Ledger} {calls : List TeamCall} (hrank : 0 ≤ rank)
    (hlt : rank < size) (hsize : size ≤ maxPes) (hinit : Ledger.init rank size = some l)
    (hkeep : ∀ call ∈ calls, call ≠ .destroy teamWorld) (hrun : l.run calls = some l') :
    OnWorld l'.state rank size := by
  have hsound := sound_init hrank hlt hsize hinit
  have hafter := hsound.run hrun
  rcases Option.map_eq_some_iff.mp hinit with ⟨s, hs, heq⟩
  have hnpes := (wellFormed_init hrank hlt hsize hs).2.2
  simp only [PeState.init, Option.bind_eq_bind, Option.bind_eq_some_iff] at hs
  rcases hs with ⟨m, -, m', -, hs⟩
  have hlive : teamWorld ∈ l.live := by
    rw [← heq]
    exact Finset.mem_singleton_self _
  have hworld : l.state.teamPool teamWorld = ⟨rank, 0, 1, size, teamWorld, m'⟩ := by
    rw [← heq, ← Option.some.inj hs]
    exact Function.update_self teamWorld _ fun _ : ℤ => Team.blank
  rcases hsound.run_keeps hkeep hlive hrun with ⟨hlive', hentry, hnpes'⟩
  rw [hworld] at hentry
  constructor
  · exact hafter.single
  · exact hafter.isValidTeam_iff.mpr hlive'
  · exact hafter.wellFormed
  · rw [hnpes', ← heq]
    exact hnpes
  · exact hsize
  all_goals rw [hentry]

/-- After any history that keeps the world, a 2-D split of it either refuses its arguments or is a
grid exactly if two indexes are free, the device plays along for the row and the column of this PE,
and the columns do not have the stride `ACLSHMEM_MAX_PES`. -/
theorem split_2d_iff {rank size : ℤ} {l l' : Ledger} {calls : List TeamCall} (hrank : 0 ≤ rank)
    (hlt : rank < size) (hsize : size ≤ maxPes) (hinit : Ledger.init rank size = some l)
    (hkeep : ∀ call ∈ calls, call ≠ .destroy teamWorld) (hrun : l.run calls = some l')
    (xRange : ℤ) (xCalls yCalls : ℕ → AxisCall) (xTeam yTeam : Option ℤ) :
    GridMeets l'.state rank size (min xRange size)
        (l'.state.split2d teamWorld xRange xCalls yCalls xTeam yTeam) ↔
      (xTeam ≠ none ∧ yTeam ≠ none ∧ 0 < xRange → TwoFree l'.state ∧
        (xCalls (rank / min xRange size).toNat).host.Works ∧
        (yCalls (rank % min xRange size).toNat).host.Works ∧ min xRange size < maxPes) := by
  have hworld := onWorld_of_run hrank hlt hsize hinit hkeep hrun
  by_cases hargs : xTeam ≠ none ∧ yTeam ≠ none ∧ 0 < xRange
  · rw [hworld.gridMeets_iff hargs.1 hargs.2.1 hargs.2.2]
    exact ⟨fun hall _ => hall, fun hall => hall hargs⟩
  · rw [hworld.split2d_refused hargs]
    apply iff_of_true
    · have hret : invalidParam ≠ success := by decide
      exact ⟨_, rfl, fun hsuccess => absurd hsuccess hret, fun _ => rfl⟩
    · exact fun hgood => absurd hgood hargs

/-- Splits whose device side works. -/
def workingCalls : ℕ → AxisCall := fun _ => ⟨⟨fun _ => 77, true, true⟩, 0⟩

/-- Splits for which `device_team_update` fails. -/
def failingCalls : ℕ → AxisCall := fun _ => ⟨⟨fun _ => 77, false, true⟩, 0⟩

/-- PE 4 of five, in rows of three. -/
theorem split_2d_iff_sample : ∃ l, Ledger.init 4 5 = some l ∧
    GridMeets l.state 4 5 3 (l.state.split2d teamWorld 3 workingCalls workingCalls (some 0)
      (some 0)) := by
  have hsome : (Ledger.init 4 5).isSome := by decide +kernel
  rcases Option.isSome_iff_exists.mp hsome with ⟨l, hl⟩
  have hfree : (Ledger.init 4 5).map (fun l => (l.state.teamMask.getLsbD 1,
      l.state.teamMask.getLsbD 2)) = some (false, false) := by decide +kernel
  rw [hl, Option.map_some, Option.some_inj, Prod.mk.injEq] at hfree
  refine ⟨l, hl, (@split_2d_iff 4 5 l l [] (by decide) (by decide) (by decide +kernel) hl nofun rfl
    3 workingCalls workingCalls (some 0) (some 0)).mpr fun _ => ?_⟩
  exact ⟨⟨1, 2, by decide, by decide, by decide, hfree⟩, ⟨rfl, rfl⟩, ⟨rfl, rfl⟩, by decide +kernel⟩

/-- A world of one PE whose device runs out of memory: both splits fail, and the call returns a
success without a team. -/
theorem split_2d_hides_failures : ¬ ∀ (rank size : ℤ) (l l' : Ledger) (calls : List TeamCall)
    (xRange : ℤ) (xCalls yCalls : ℕ → AxisCall) (x y : ℤ), 0 ≤ rank → rank < size →
    size ≤ maxPes → Ledger.init rank size = some l →
    (∀ call ∈ calls, call ≠ .destroy teamWorld) → l.run calls = some l' → 0 < xRange →
    GridMeets l'.state rank size (min xRange size)
      (l'.state.split2d teamWorld xRange xCalls yCalls (some x) (some y)) := by
  intro hclaim
  have hsome : (Ledger.init 0 1).isSome := by decide +kernel
  rcases Option.isSome_iff_exists.mp hsome with ⟨l, hl⟩
  have hworld : OnWorld l.state 0 1 :=
    @onWorld_of_run 0 1 l l [] (by decide) (by decide) (by decide +kernel) hl nofun rfl
  have hmeets := hclaim 0 1 l l [] 1 failingCalls failingCalls 0 0 (by decide) (by decide)
    (by decide +kernel) hl nofun rfl (by decide)
  rw [hworld.gridMeets_iff (Option.some_ne_none _) (Option.some_ne_none _) (by decide)] at hmeets
  exact absurd hmeets.2.1.1 (by decide)

end AscendShmem.Teams
