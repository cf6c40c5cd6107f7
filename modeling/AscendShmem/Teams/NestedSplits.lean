import Mathlib
import AscendShmem.Teams.SplitTheorems

/-!
# Splits of splits

Every valid team of a PE is a progression inside the world, whatever was split from what. A split
compares `src_team->mype`, the number of this PE inside the parent, with global numbers; it does
what it should exactly when the two numbers agree wherever one of them is selected, and when the
last selected rank of the parent exists.
-/

namespace AscendShmem.Teams

/-- A team is an arithmetic progression of the world with this PE at place `mype`. -/
structure Team.Linear (t : Team) (npes : ℤ) : Prop where
  start_nonneg : 0 ≤ t.start
  stride_pos : 1 ≤ t.stride
  size_pos : 1 ≤ t.size
  size_le : t.size ≤ maxPes
  last : t.start + t.stride * (t.size - 1) < npes
  mype_nonneg : 0 ≤ t.mype
  mype_lt : t.mype < t.size
  mapping : ∀ j, 0 ≤ j → j < t.size → t.peMapping j = t.start + j * t.stride

/-- Every valid team of the PE is one. -/
def PeState.WellFormed (s : PeState) : Prop :=
  ∀ t, s.isValidTeam t = some true → (s.teamPool t).Linear s.npes

/-- The split makes `pe` member `i` of the new team. -/
def PeState.Selects (s : PeState) (a : SplitArgs) (pe i : ℤ) : Prop :=
  (0 ≤ i ∧ i < a.peSize) ∧ pe = s.globalStart a + i * s.globalStride a

theorem int_le_mul_of_one_le {x y : ℤ} (hx : 0 ≤ x) (hy : 1 ≤ y) : x ≤ x * y := by
  nlinarith

section Split

variable {s : PeState} {a : SplitArgs} {host : Host} {newTeam : Option ℤ} {r : SplitResult}

theorem Placed.linear (h : Placed s a) (hs : s.WellFormed) : (s.srcTeam a).Linear s.npes :=
  hs _ h.parent

theorem Placed.globalStart_eq (h : Placed s a) (hs : s.WellFormed) :
    s.globalStart a = (s.srcTeam a).start + a.peStart * (s.srcTeam a).stride :=
  (h.linear hs).mapping _ h.start_nonneg h.start_lt

theorem Placed.globalStart_nonneg (h : Placed s a) (hs : s.WellFormed) : 0 ≤ s.globalStart a := by
  have hlinear := h.linear hs
  have hoffset : 0 ≤ a.peStart * (s.srcTeam a).stride :=
    mul_nonneg h.start_nonneg (by linarith [hlinear.stride_pos])
  rw [h.globalStart_eq hs]
  linarith [hlinear.start_nonneg]

/-- The stride of the new team is positive. -/
theorem Placed.globalStride_pos (h : Placed s a) (hs : s.WellFormed) : 1 ≤ s.globalStride a := by
  have hstride := (h.linear hs).stride_pos
  have hle : (s.srcTeam a).stride ≤ (s.srcTeam a).stride * a.peStride :=
    int_le_mul_of_one_le (by omega) h.stride_pos
  show 1 ≤ (s.srcTeam a).stride * a.peStride
  omega

/-- The place of a selected number is what the code divides out. -/
theorem Placed.place (h : Placed s a) (hs : s.WellFormed) {i : ℤ}
    (hi : s.Selects a (s.srcTeam a).mype i) :
    ((s.srcTeam a).mype - s.globalStart a).tdiv (s.globalStride a) = i := by
  have hpos := h.globalStride_pos hs
  have hdiff : (s.srcTeam a).mype - s.globalStart a = i * s.globalStride a := by
    rw [hi.2]
    ring
  rw [hdiff, Int.mul_tdiv_cancel i (by omega)]

/-- The code tests whether the parent rank of this PE is selected. -/
theorem Placed.joins_iff (h : Placed s a) (hs : s.WellFormed) :
    Joins s a ↔ ∃ i, s.Selects a (s.srcTeam a).mype i := by
  have hpos := h.globalStride_pos hs
  constructor
  · intro hjoins
    have hdistance : 0 ≤ (s.srcTeam a).mype - s.globalStart a := by linarith [hjoins.1]
    have hsplit := Int.mul_tdiv_add_tmod ((s.srcTeam a).mype - s.globalStart a) (s.globalStride a)
    rw [hjoins.2.1, add_zero] at hsplit
    apply Exists.intro (((s.srcTeam a).mype - s.globalStart a).tdiv (s.globalStride a))
    exact ⟨⟨Int.tdiv_nonneg hdistance (by omega), hjoins.2.2⟩, by linarith⟩
  · intro hselects
    rcases hselects with ⟨i, hi⟩
    have hdiff : (s.srcTeam a).mype - s.globalStart a = i * s.globalStride a := by
      rw [hi.2]
      ring
    have hnonneg : 0 ≤ i * s.globalStride a := mul_nonneg hi.1.1 (by omega)
    refine ⟨by omega, ?_, ?_⟩
    · rw [hdiff]
      exact Int.mul_tmod_left i _
    · rw [h.place hs hi]
      exact hi.1.2

/-- The team a joining PE builds is a progression inside the world again. -/
theorem Placed.linear_myTeam (h : Placed s a) (hs : s.WellFormed) (hjoins : Joins s a)
    {stack peMapping : ℤ → ℤ}
    (hfill : fillMapping stack (s.globalStart a) (s.globalStride a) a.peSize.toNat
      = some peMapping) (idx : ℤ) :
    Team.Linear { s.myTeam a peMapping with teamIdx := idx } s.npes := by
  have hpos := h.globalStride_pos hs
  have hsize : ((a.peSize.toNat : ℕ) : ℤ) = a.peSize := Int.toNat_of_nonneg (by linarith [h.size_pos])
  have hplace : ∃ i, s.Selects a (s.srcTeam a).mype i := (h.joins_iff hs).mp hjoins
  rcases hplace with ⟨i, hi⟩
  constructor
  · exact h.globalStart_nonneg hs
  · exact hpos
  · exact h.size_pos
  · exact h.small.2.2
  · exact h.world
  · show 0 ≤ ((s.srcTeam a).mype - s.globalStart a).tdiv (s.globalStride a)
    rw [h.place hs hi]
    exact hi.1.1
  · exact hjoins.2.2
  · intro j hj hlt
    apply fillMapping_list (h.globalStart_nonneg hs) (by omega) _ hfill hj
    · rw [hsize]
      exact hlt
    · rw [hsize]
      exact h.small.2.2

/-- The valid teams after an enrolment are the old ones and the new one. -/
theorem isValidTeam_of_or {s s' : PeState} {idx t : ℤ} (hclear : LowestClear s.teamMask idx)
    (hmask : s'.teamMask = s.teamMask ||| bit idx) (hinit : s'.initialized = s.initialized)
    (halloc : s'.poolAllocated = s.poolAllocated) (ht : t ≠ idx) :
    s'.isValidTeam t = some true ↔ s.isValidTeam t = some true := by
  rw [PeState.isValidTeam_true, PeState.isValidTeam_true, hmask, hinit, halloc]
  apply and_congr_right
  intro _
  apply and_congr_right
  intro _
  apply and_congr_right
  intro hrange
  have hne : idx.toNat ≠ t.toNat := by
    have hnonneg := hclear.nonneg
    omega
  rw [BitVec.getLsbD_or, getLsbD_bit ⟨hclear.nonneg, hclear.lt⟩, decide_eq_false hne, Bool.or_false]

/-- The new team is valid. -/
theorem isValidTeam_new {s s' : PeState} {idx : ℤ} (hclear : LowestClear s.teamMask idx)
    (hmask : s'.teamMask = s.teamMask ||| bit idx) (hinit : s'.initialized = true)
    (halloc : s'.poolAllocated = true) : s'.isValidTeam idx = some true := by
  rw [PeState.isValidTeam_true, hmask]
  refine ⟨hinit, halloc, ⟨hclear.nonneg, hclear.lt⟩, ?_⟩
  rw [BitVec.getLsbD_or, getLsbD_bit ⟨hclear.nonneg, hclear.lt⟩]
  simp

/-- Splits keep the teams of a PE well formed, whatever they return. -/
theorem PeState.WellFormed.splitStrided (hs : s.WellFormed)
    (h : s.splitStrided a host newTeam = some r) :
    r.state.WellFormed ∧ r.state.npes = s.npes ∧ r.state.mype = s.mype := by
  rcases splitStrided_cases h with ⟨hstate, -⟩ | ⟨-, -, hr⟩ | ⟨hplaced, hjoins, peMapping, hfill, henroll⟩
  · rw [hstate]
    exact ⟨hs, rfl, rfl⟩
  · rw [hr]
    exact ⟨hs, rfl, rfl⟩
  have hparent := PeState.isValidTeam_true.mp hplaced.parent
  rcases enroll_cases hparent.1 hparent.2.1 henroll with
    ⟨idx, hclear, hinit, halloc, hnpes, hmype, hpool, hmask⟩
  refine ⟨fun t ht => ?_, hnpes, hmype⟩
  rw [hpool, hnpes]
  by_cases heq : t = idx
  · rw [heq, Function.update_self]
    exact hplaced.linear_myTeam hs hjoins hfill idx
  · rw [Function.update_of_ne heq]
    apply hs
    rcases hmask with ⟨-, -, -, -, hmask⟩ | ⟨-, -, hmask⟩
    · exact (isValidTeam_of_or hclear hmask hinit halloc heq).mp ht
    · rw [PeState.isValidTeam_true] at ht ⊢
      rwa [hmask, hinit, halloc] at ht

/-- What a split has to do. This PE gets a valid team exactly if its global number is selected; the
team then knows its place, and its members are the selected members of the parent. -/
def SplitMeets (s : PeState) (a : SplitArgs) (r : SplitResult) : Prop :=
  ((∃ t, r.newTeam = some t ∧ r.state.isValidTeam t = some true) ↔ ∃ i, s.Selects a s.mype i) ∧
  ∀ t i, r.newTeam = some t → r.state.isValidTeam t = some true → s.Selects a s.mype i →
    (r.state.teamPool t).mype = i ∧ ∀ j, 0 ≤ j → j < a.peSize →
      a.peStart + j * a.peStride < (s.srcTeam a).size ∧
      (r.state.teamPool t).peMapping j = (s.srcTeam a).peMapping (a.peStart + j * a.peStride)

/-- Where the parent rank or the global number of this PE is selected, the two are equal, and the
last selected rank of the parent exists. -/
def SplitConsistent (s : PeState) (a : SplitArgs) : Prop :=
  (∃ i, s.Selects a (s.srcTeam a).mype i ∨ s.Selects a s.mype i) →
    (s.srcTeam a).mype = s.mype ∧
      a.peStart + (a.peSize - 1) * a.peStride < (s.srcTeam a).size

/-- A successful split gives this PE a team exactly if it passes the membership test. -/
theorem splitStrided_success (h : s.splitStrided a host newTeam = some r)
    (hret : r.ret = success) : Placed s a ∧
      ((¬ Joins s a ∧ r = ⟨success, some teamInvalid, s⟩) ∨
        (Joins s a ∧ ∃ idx peMapping, LowestClear s.teamMask idx ∧ r.newTeam = some idx ∧
          fillMapping host.stack (s.globalStart a) (s.globalStride a) a.peSize.toNat
            = some peMapping ∧
          r.state.isValidTeam idx = some true ∧
          r.state.teamPool idx = { s.myTeam a peMapping with teamIdx := idx })) := by
  rcases splitStrided_cases h with ⟨-, hne, -⟩ | ⟨hplaced, hout, hr⟩ | ⟨hplaced, hjoins, peMapping, hfill, henroll⟩
  · exact absurd hret hne
  · exact ⟨hplaced, Or.inl ⟨hout, hr⟩⟩
  apply And.intro hplaced
  apply Or.inr
  apply And.intro hjoins
  have hparent := PeState.isValidTeam_true.mp hplaced.parent
  rcases enroll_cases hparent.1 hparent.2.1 henroll with
    ⟨idx, hclear, hinit, halloc, -, -, hpool, ⟨-, -, -, hnew, hmask⟩ | ⟨-, hne, -⟩⟩
  · refine ⟨idx, peMapping, hclear, hnew, hfill, ?_, ?_⟩
    · exact isValidTeam_new hclear hmask (hinit.trans hparent.1) (halloc.trans hparent.2.1)
    · rw [hpool, Function.update_self]
  · exact absurd hret hne

theorem not_isValidTeam_invalid : s.isValidTeam teamInvalid ≠ some true := by
  intro hvalid
  have hrange := (PeState.isValidTeam_true.mp hvalid).2.2.1.1
  exact absurd hrange (by decide)

/-- A member of the new team at `j` is the parent's member at the rank the arguments name. -/
theorem Placed.mapping (h : Placed s a) (hs : s.WellFormed) {stack peMapping : ℤ → ℤ}
    (hfill : fillMapping stack (s.globalStart a) (s.globalStride a) a.peSize.toNat
      = some peMapping)
    (hlast : a.peStart + (a.peSize - 1) * a.peStride < (s.srcTeam a).size) {j : ℤ} (hj : 0 ≤ j)
    (hlt : j < a.peSize) : a.peStart + j * a.peStride < (s.srcTeam a).size ∧
      peMapping j = (s.srcTeam a).peMapping (a.peStart + j * a.peStride) := by
  have hstride := h.stride_pos
  have hle : j * a.peStride ≤ (a.peSize - 1) * a.peStride :=
    mul_le_mul_of_nonneg_right (by omega) (by omega)
  have hoffset : 0 ≤ j * a.peStride := mul_nonneg hj (by omega)
  have hsize : ((a.peSize.toNat : ℕ) : ℤ) = a.peSize := Int.toNat_of_nonneg (by linarith)
  have hpos := h.globalStride_pos hs
  apply And.intro (by omega)
  rw [fillMapping_list (h.globalStart_nonneg hs) (by omega) (by rw [hsize]; exact h.small.2.2)
    hfill hj (by rw [hsize]; exact hlt)]
  rw [(h.linear hs).mapping _ (by linarith [h.start_nonneg]) (by omega), h.globalStart_eq hs]
  show _ + j * ((s.srcTeam a).stride * a.peStride) = _
  ring

/-- One successful split does what it should exactly if it is consistent. -/
theorem PeState.WellFormed.splitMeets_iff (hs : s.WellFormed)
    (h : s.splitStrided a host newTeam = some r) (hret : r.ret = success) :
    SplitMeets s a r ↔ SplitConsistent s a := by
  rcases splitStrided_success h hret with ⟨hplaced, ⟨hout, hr⟩ | ⟨hjoins, idx, peMapping, -, hnew, hfill, hvalid, hpool⟩⟩
  · -- this PE got no team
    have hnone : ¬ ∃ t, r.newTeam = some t ∧ r.state.isValidTeam t = some true := by
      intro hsome
      rcases hsome with ⟨t, ht, hvalid⟩
      rw [hr] at ht hvalid
      rw [← Option.some.inj ht] at hvalid
      exact not_isValidTeam_invalid hvalid
    rw [hplaced.joins_iff hs] at hout
    constructor
    · intro hmeets hselected
      rcases hselected with ⟨i, hparent | hglobal⟩
      · exact absurd ⟨i, hparent⟩ hout
      · exact absurd (hmeets.1.mpr ⟨i, hglobal⟩) hnone
    · intro hconsistent
      have hglobal : ¬ ∃ i, s.Selects a s.mype i := by
        intro hselected
        rcases hselected with ⟨i, hi⟩
        have hsame := (hconsistent ⟨i, Or.inr hi⟩).1
        rw [← hsame] at hi
        exact hout ⟨i, hi⟩
      exact ⟨iff_of_false hnone hglobal, fun t i ht hvalid => absurd ⟨t, ht, hvalid⟩ hnone⟩
  · -- this PE got the team at `idx`
    rcases (hplaced.joins_iff hs).mp hjoins with ⟨i, hi⟩
    constructor
    · intro hmeets hselected
      rcases hmeets.1.mp ⟨idx, hnew, hvalid⟩ with ⟨k, hk⟩
      have hteam := hmeets.2 idx k hnew hvalid hk
      have hmype : ((s.srcTeam a).mype - s.globalStart a).tdiv (s.globalStride a) = k := by
        rw [← hteam.1, hpool]
        rfl
      rw [hplaced.place hs hi] at hmype
      constructor
      · rw [hi.2, hk.2, hmype]
      · have hsize := hplaced.size_pos
        exact (hteam.2 (a.peSize - 1) (by omega) (by omega)).1
    · intro hconsistent
      rcases hconsistent ⟨i, Or.inl hi⟩ with ⟨hsame, hlast⟩
      rw [hsame] at hi
      apply And.intro (iff_of_true ⟨idx, hnew, hvalid⟩ ⟨i, hi⟩)
      intro t k ht _ hk
      have heq : t = idx := Option.some.inj (ht.symm.trans hnew)
      rw [heq, hpool]
      refine ⟨?_, fun j hj hlt => hplaced.mapping hs hfill hlast hj hlt⟩
      rw [← hsame] at hk
      exact hplaced.place hs hk

end Split

/-! ## Runs of splits -/

/-- One call of `aclshmem_team_split_strided` with all it meets. -/
structure SplitCall where
  args : SplitArgs
  host : Host
  newTeam : Option ℤ

/-- The state after the calls, if they all succeed. -/
def PeState.runSplits (s : PeState) : List SplitCall → Option PeState
  | [] => some s
  | call :: calls => do
    let r ← s.splitStrided call.args call.host call.newTeam
    if r.ret = success then r.state.runSplits calls else none

/-- `P` holds of every call of a successful run in the state the call is made in. -/
def AllSplits (P : PeState → SplitArgs → SplitResult → Prop) : PeState → List SplitCall → Prop
  | _, [] => True
  | s, call :: calls => ∃ r, s.splitStrided call.args call.host call.newTeam = some r ∧
      r.ret = success ∧ P s call.args r ∧ AllSplits P r.state calls

/-- A new PE is well formed. -/
theorem wellFormed_init {rank size : ℤ} {s : PeState} (hrank : 0 ≤ rank) (hlt : rank < size)
    (hsize : size ≤ maxPes) (h : PeState.init rank size = some s) :
    s.WellFormed ∧ s.mype = rank ∧ s.npes = size := by
  simp only [PeState.init, Option.bind_eq_bind, Option.bind_eq_some_iff] at h
  rcases h with ⟨m, hlist, m', hinvert, h⟩
  have hcast : ((size.toNat : ℕ) : ℤ) = size := Int.toNat_of_nonneg (by omega)
  have hmapping : ∀ j, 0 ≤ j → j < size → m' j = j := by
    intro j hj hjlt
    have hm : ∀ k : ℤ, 0 ≤ k → k < size.toNat → m k = k := by
      intro k hk hklt
      rw [constantStride_list hlist hk hklt]
      ring
    rw [invertMapping_list hinvert (by omega) (fun k hk hklt => by rwa [hm k hk hklt]) (by omega)]
    exact hm j hj (by omega)
  rw [← Option.some.inj h]
  refine ⟨fun t ht => ?_, rfl, rfl⟩
  have hbit := PeState.isValidTeam_true.mp ht
  have hworld : t = teamWorld := by
    have hset : (bit teamWorld).getLsbD t.toNat = true := hbit.2.2.2
    rw [getLsbD_bit (by decide), decide_eq_true_eq] at hset
    have hnonneg := hbit.2.2.1.1
    show t = 0
    have hzero : (0 : ℤ).toNat = t.toNat := hset
    omega
  rw [hworld]
  show Team.Linear (Function.update (fun _ => Team.blank) teamWorld _ teamWorld) size
  rw [Function.update_self]
  constructor
  · exact le_rfl
  · exact le_rfl
  · show 1 ≤ size
    omega
  · exact hsize
  · show 0 + 1 * (size - 1) < size
    omega
  · exact hrank
  · exact hlt
  · intro j hj hjlt
    show m' j = 0 + j * 1
    rw [hmapping j hj hjlt]
    ring

/-- The first split, and the others. -/
theorem runSplits_cons {s s' : PeState} {call : SplitCall} {calls : List SplitCall}
    (h : s.runSplits (call :: calls) = some s') :
    ∃ r, s.splitStrided call.args call.host call.newTeam = some r ∧ r.ret = success ∧
      r.state.runSplits calls = some s' := by
  rw [PeState.runSplits, Option.bind_eq_bind, Option.bind_eq_some_iff] at h
  rcases h with ⟨r, hr, h⟩
  by_cases hret : r.ret = success
  · rw [if_pos hret] at h
    exact ⟨r, hr, hret, h⟩
  · rw [if_neg hret] at h
    cases h

/-- In a run of successful splits every split does what it should exactly if every one is
consistent. -/
theorem PeState.WellFormed.allSplits_iff {s s' : PeState} (hs : s.WellFormed)
    {calls : List SplitCall} (hrun : s.runSplits calls = some s') :
    AllSplits SplitMeets s calls ↔ AllSplits (fun s a _ => SplitConsistent s a) s calls := by
  induction calls generalizing s with
  | nil => exact Iff.rfl
  | cons call calls ih =>
    rcases runSplits_cons hrun with ⟨r, hr, hret, hrest⟩
    have hnext := ih (hs.splitStrided hr).1 hrest
    have hstep := hs.splitMeets_iff hr hret
    constructor
    · intro hall
      rcases hall with ⟨r', hr', -, hmeets, htail⟩
      have heq : r' = r := Option.some.inj (hr'.symm.trans hr)
      rw [heq] at hmeets htail
      exact ⟨r, hr, hret, hstep.mp hmeets, hnext.mp htail⟩
    · intro hall
      rcases hall with ⟨r', hr', -, hconsistent, htail⟩
      have heq : r' = r := Option.some.inj (hr'.symm.trans hr)
      rw [heq] at htail
      exact ⟨r, hr, hret, hstep.mpr hconsistent, hnext.mpr htail⟩

/-- Splits of splits of the world, on every PE. -/
theorem nested_splits_iff {rank size : ℤ} {s s' : PeState} {calls : List SplitCall}
    (hrank : 0 ≤ rank) (hlt : rank < size) (hsize : size ≤ maxPes)
    (hinit : PeState.init rank size = some s) (hrun : s.runSplits calls = some s') :
    AllSplits SplitMeets s calls ↔ AllSplits (fun s a _ => SplitConsistent s a) s calls :=
  (wellFormed_init hrank hlt hsize hinit).1.allSplits_iff hrun

/-- A call whose device side works, on a stack of garbage. -/
def sampleCall (args : SplitArgs) : SplitCall := ⟨args, ⟨fun _ => 77, true, true⟩, some 0⟩

/-- PE 1 of four splits `{0, 1, 2}` off the world and `{0, 1}` off that. -/
theorem nested_splits_iff_sample : ∃ s s', PeState.init 1 4 = some s ∧
    s.runSplits [sampleCall ⟨0, 0, 1, 3⟩, sampleCall ⟨1, 0, 1, 2⟩] = some s' ∧
    (AllSplits SplitMeets s [sampleCall ⟨0, 0, 1, 3⟩, sampleCall ⟨1, 0, 1, 2⟩] ↔
      AllSplits (fun s a _ => SplitConsistent s a) s
        [sampleCall ⟨0, 0, 1, 3⟩, sampleCall ⟨1, 0, 1, 2⟩]) := by
  have hsome : ((PeState.init 1 4).bind fun s =>
      s.runSplits [sampleCall ⟨0, 0, 1, 3⟩, sampleCall ⟨1, 0, 1, 2⟩]).isSome := by decide +kernel
  rcases Option.isSome_iff_exists.mp hsome with ⟨s', hs'⟩
  rcases Option.bind_eq_some_iff.mp hs' with ⟨s, hs, hrun⟩
  exact ⟨s, s', hs, hrun,
    nested_splits_iff (by decide) (by decide) (by decide +kernel) hs hrun⟩

/-- PE 2 of four splits `{1, 2, 3}` off the world and its first two members `{1, 2}` off that: it
becomes member 0 of a team in which it is member 1. -/
theorem nested_splits_misplaced : ¬ ∀ (rank size : ℤ) (s s' : PeState) (calls : List SplitCall),
    0 ≤ rank → rank < size → size ≤ maxPes → PeState.init rank size = some s →
    s.runSplits calls = some s' → AllSplits SplitMeets s calls := by
  intro hclaim
  have hfirst : ((PeState.init 2 4).bind fun s =>
      (s.splitStrided ⟨0, 1, 1, 3⟩ ⟨fun _ => 77, true, true⟩ (some 0)).map fun r =>
        ((r.state.srcTeam ⟨1, 0, 1, 2⟩).mype, r.state.mype, r.state.globalStart ⟨1, 0, 1, 2⟩)) =
      some (1, 2, 1) := by decide +kernel
  have hsome : ((PeState.init 2 4).bind fun s =>
      s.runSplits [sampleCall ⟨0, 1, 1, 3⟩, sampleCall ⟨1, 0, 1, 2⟩]).isSome := by decide +kernel
  rcases Option.isSome_iff_exists.mp hsome with ⟨s', hs'⟩
  rcases Option.bind_eq_some_iff.mp hs' with ⟨s, hs, hrun⟩
  have hmeets := hclaim 2 4 s s' _ (by decide) (by decide) (by decide +kernel) hs hrun
  rw [(wellFormed_init (by decide) (by decide) (by decide +kernel) hs).1.allSplits_iff hrun] at hmeets
  rcases hmeets with ⟨r, hr, -, -, -, -, -, hsecond, -⟩
  have hr : s.splitStrided ⟨0, 1, 1, 3⟩ ⟨fun _ => 77, true, true⟩ (some 0) = some r := hr
  rw [hs, Option.bind_some, hr, Option.map_some, Option.some_inj, Prod.mk.injEq, Prod.mk.injEq]
    at hfirst
  have hselected : r.state.Selects ⟨1, 0, 1, 2⟩ (r.state.srcTeam ⟨1, 0, 1, 2⟩).mype 0 := by
    refine ⟨by decide, ?_⟩
    rw [hfirst.1, hfirst.2.2]
    simp
  have hsame := (hsecond ⟨0, Or.inl hselected⟩).1
  rw [show (r.state.srcTeam (sampleCall ⟨1, 0, 1, 2⟩).args).mype = 1 from hfirst.1, hfirst.2.1]
    at hsame
  exact absurd hsame (by decide)

end AscendShmem.Teams
