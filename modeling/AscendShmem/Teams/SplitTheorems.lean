import Mathlib
import AscendShmem.Teams.Manager

/-!
# What a split does

`SplitArgs.Selects` is the membership test of `aclshmem_team_split_strided` in its own terms: the
number lies on the progression the arguments pick out of the parent. `SplitDone` lists what a split
can do when it returns at all: it leaves the mask and the valid teams alone, or it gives this PE a
team at the lowest clear bit of its mask.
-/

namespace AscendShmem.Teams

/-! ## The mask -/

/-- A number is represented exactly in its range. -/
theorem int32_eq_some {n m : ℤ} : int32 n = some m ↔ (-2 ^ 31 ≤ n ∧ n < 2 ^ 31) ∧ n = m := by
  unfold int32
  by_cases h : -2 ^ 31 ≤ n ∧ n < 2 ^ 31
  · rw [if_pos h, Option.some_inj]
    exact (and_iff_right h).symm
  · rw [if_neg h]
    exact iff_of_false nofun fun hn => h hn.1

theorem maskBit_eq_some {mask : BitVec 64} {i : ℤ} {b : Bool} :
    maskBit mask i = some b ↔ (0 ≤ i ∧ i < 64) ∧ mask.getLsbD i.toNat = b := by
  unfold maskBit
  split <;> simp [*]

/-- Bit `i` is the lowest clear bit of the mask. -/
structure LowestClear (mask : BitVec 64) (i : ℤ) : Prop where
  nonneg : 0 ≤ i
  lt : i < 64
  clear : mask.getLsbD i.toNat = false
  below : ∀ j, 0 ≤ j → j < i → mask.getLsbD j.toNat = true

/-- There is one lowest clear bit. -/
theorem LowestClear.unique {mask : BitVec 64} {i j : ℤ} (hi : LowestClear mask i)
    (hj : LowestClear mask j) : i = j := by
  rcases lt_trichotomy i j with h | h | h
  · have hset := hj.below i hi.nonneg h
    rw [hi.clear] at hset
    exact absurd hset (by simp)
  · exact h
  · have hset := hi.below j hj.nonneg h
    rw [hj.clear] at hset
    exact absurd hset (by simp)

/-- The loop stops at the lowest clear bit, or shifts by 64. -/
theorem firstFreeFrom_eq_some {mask : BitVec 64} {fuel : ℕ} {i : ℤ} {r : ℤ × BitVec 64}
    (hi : 0 ≤ i) (hfuel : 64 < i + fuel) (hle : i ≤ 64)
    (hbelow : ∀ j, 0 ≤ j → j < i → mask.getLsbD j.toNat = true)
    (h : firstFreeFrom mask fuel i = some r) :
    LowestClear mask r.1 ∧ r.2 = mask ||| bit r.1 := by
  induction fuel generalizing i with
  | zero =>
    have hlt : 64 < i := by simpa using hfuel
    omega
  | succ fuel ih =>
    rw [firstFreeFrom, Option.bind_eq_bind, Option.bind_eq_some_iff] at h
    rcases h with ⟨used, hused, h⟩
    have hbit := maskBit_eq_some.mp hused
    cases used with
    | true =>
      apply ih (by omega) (by push_cast at hfuel; omega) (by omega) _ h
      intro j hj hlt
      by_cases heq : j = i
      · rw [heq]
        exact hbit.2
      · exact hbelow j hj (by omega)
    | false =>
      have hr : r = (i, mask ||| bit i) := (Option.some.inj h).symm
      rw [hr]
      exact ⟨⟨hi, hbit.1.2, hbit.2, hbelow⟩, rfl⟩

theorem firstFreeIdxFetch_eq_some {mask : BitVec 64} {r : ℤ × BitVec 64}
    (h : firstFreeIdxFetch mask = some r) : LowestClear mask r.1 ∧ r.2 = mask ||| bit r.1 :=
  firstFreeFrom_eq_some le_rfl (by norm_num [maxTeams]) (by norm_num)
    (fun j hj hlt => absurd hj (by omega)) h

@[simp] theorem getLsbD_bit {i : ℤ} (hi : 0 ≤ i ∧ i < 64) (j : ℕ) :
    (bit i).getLsbD j = decide (i.toNat = j) := by
  have hlt : i.toNat < 64 := by omega
  rw [bit, BitVec.getLsbD_twoPow]
  simp [hlt]

/-- Taking a bit back that was clear before it was set. -/
theorem or_xor_bit {mask : BitVec 64} {i : ℤ} (hi : LowestClear mask i) :
    (mask ||| bit i) ^^^ bit i = mask := by
  apply BitVec.eq_of_getLsbD_eq
  intro j hj
  rw [BitVec.getLsbD_xor, BitVec.getLsbD_or, getLsbD_bit ⟨hi.nonneg, hi.lt⟩]
  by_cases heq : i.toNat = j
  · rw [← heq, hi.clear]
    simp
  · simp [heq]

/-! ## The mapping -/

theorem store_eq_some {m m' : ℤ → ℤ} {i v : ℤ} :
    store m i v = some m' ↔ (0 ≤ i ∧ i < 2 * maxPes) ∧ Function.update m i v = m' := by
  unfold store
  split <;> simp [*]

/-- The first half of a filled mapping lists the progression. -/
theorem fillMapping_list {stack m : ℤ → ℤ} {start stride : ℤ} {n : ℕ} (hstart : 0 ≤ start)
    (hstride : 0 ≤ stride) (hn : n ≤ maxPes) (h : fillMapping stack start stride n = some m) {j : ℤ}
    (hj : 0 ≤ j) (hlt : j < n) : m j = start + j * stride := by
  induction n generalizing m j with
  | zero => exact absurd hlt (by simpa using hj)
  | succ n ih =>
    simp only [fillMapping, Option.bind_eq_bind, Option.bind_eq_some_iff, int32_eq_some,
      store_eq_some] at h
    rcases h with ⟨m', hm', offset, ⟨-, hoffset⟩, pe, ⟨-, hpe⟩, m'', ⟨-, hm''⟩, inverse,
      ⟨-, hinverse⟩, -, hm⟩
    have hnonneg : 0 ≤ n * stride := mul_nonneg (Int.natCast_nonneg n) hstride
    push_cast at hn hlt
    -- the write to the second half is behind every entry of the first
    have hne : j ≠ inverse := by omega
    rw [← hm, Function.update_of_ne hne, ← hm'']
    by_cases heq : j = n
    · rw [heq, Function.update_self, ← hpe, ← hoffset]
    · rw [Function.update_of_ne heq]
      exact ih (by omega) hm' hj (by omega)

/-- The entries of the members. -/
theorem constantStride_list {m₀ m : ℤ → ℤ} {start stride : ℤ} {n : ℕ}
    (h : constantStride m₀ start stride n = some m) {j : ℤ} (hj : 0 ≤ j) (hlt : j < n) :
    m j = start + j * stride := by
  induction n generalizing m j with
  | zero => exact absurd hlt (by simpa using hj)
  | succ n ih =>
    simp only [constantStride, Option.bind_eq_bind, Option.bind_eq_some_iff, int32_eq_some,
      store_eq_some] at h
    rcases h with ⟨m', hm', offset, ⟨-, hoffset⟩, pe, ⟨-, hpe⟩, -, hm⟩
    push_cast at hlt
    rw [← hm]
    by_cases heq : j = n
    · rw [heq, Function.update_self, ← hpe, ← hoffset]
    · rw [Function.update_of_ne heq]
      exact ih hm' hj (by omega)

/-- The inverse goes to the second half only. -/
theorem invertMapping_list {m₀ m : ℤ → ℤ} {n : ℕ} (h : invertMapping m₀ n = some m)
    (hn : n ≤ maxPes) (hm₀ : ∀ j : ℤ, 0 ≤ j → j < n → 0 ≤ m₀ j) {j : ℤ} (hj : j < maxPes) :
    m j = m₀ j := by
  induction n generalizing m j with
  | zero => rw [← Option.some.inj h]
  | succ n ih =>
    simp only [invertMapping, Option.bind_eq_bind, Option.bind_eq_some_iff, int32_eq_some,
      store_eq_some] at h
    rcases h with ⟨m', hm', inverse, ⟨-, hinverse⟩, -, hm⟩
    push_cast at hn
    have hsame : ∀ {k : ℤ}, k < maxPes → m' k = m₀ k := fun hk =>
      ih hm' (by omega) (fun k hk hlt => hm₀ k hk (by push_cast; omega)) hk
    have hpos : 0 ≤ m' n := by
      rw [hsame (by omega)]
      exact hm₀ n (Int.natCast_nonneg n) (by push_cast; omega)
    rw [← hm, Function.update_of_ne (by omega), hsame hj]

/-! ## The outcomes of a split -/

/-- The parent of a split. -/
def PeState.srcTeam (s : PeState) (a : SplitArgs) : Team := s.teamPool a.parentTeam

/-- `global_pe_start` -/
def PeState.globalStart (s : PeState) (a : SplitArgs) : ℤ := (s.srcTeam a).peMapping a.peStart

/-- `global_pe_stride` -/
def PeState.globalStride (s : PeState) (a : SplitArgs) : ℤ := (s.srcTeam a).stride * a.peStride

/-- The arguments pass every check that does not depend on this PE. -/
structure Placed (s : PeState) (a : SplitArgs) : Prop where
  single : s.instanceId = 0
  parent : s.isValidTeam a.parentTeam = some true
  small : a.peStart < maxPes ∧ a.peStride < maxPes ∧ a.peSize ≤ maxPes
  start_nonneg : 0 ≤ a.peStart
  start_lt : a.peStart < (s.srcTeam a).size
  size_pos : 0 < a.peSize
  size_le : a.peSize ≤ (s.srcTeam a).size
  stride_pos : 1 ≤ a.peStride
  start_world : s.globalStart a < s.npes
  world : s.globalStart a + s.globalStride a * (a.peSize - 1) < s.npes

/-- The membership test as the code makes it. -/
def Joins (s : PeState) (a : SplitArgs) : Prop :=
  s.globalStart a ≤ (s.srcTeam a).mype ∧
    ((s.srcTeam a).mype - s.globalStart a).tmod (s.globalStride a) = 0 ∧
    ((s.srcTeam a).mype - s.globalStart a).tdiv (s.globalStride a) < a.peSize

/-- The team a joining PE builds on its stack. -/
def PeState.myTeam (s : PeState) (a : SplitArgs) (peMapping : ℤ → ℤ) : Team where
  mype := ((s.srcTeam a).mype - s.globalStart a).tdiv (s.globalStride a)
  start := s.globalStart a
  stride := s.globalStride a
  size := a.peSize
  teamIdx := -1
  peMapping := peMapping

/-- A team is valid exactly if the manager is set up and its bit is set. -/
theorem PeState.isValidTeam_true {s : PeState} {t : ℤ} : s.isValidTeam t = some true ↔
    s.initialized = true ∧ s.poolAllocated = true ∧ (0 ≤ t ∧ t < 64) ∧
      s.teamMask.getLsbD t.toNat = true := by
  unfold isValidTeam
  split
  · rename_i h
    rw [maskBit_eq_some]
    exact ⟨fun hbit => ⟨h.1, h.2.1, hbit⟩, fun hbit => hbit.2.2⟩
  · rename_i h
    apply iff_of_false (by simp)
    intro hbit
    apply h
    exact ⟨hbit.1, hbit.2.1, hbit.2.2.1.1, by have := hbit.2.2.1.2; norm_num [maxTeams]; omega⟩

/-- What the first checks can answer. -/
theorem splitStridedPrecheck_cases {s : PeState} {a : SplitArgs} {newTeam : Option ℤ}
    {p : ℤ × Option ℤ} (h : s.splitStridedPrecheck a newTeam = some p) :
    (p.1 ≠ success ∧ (newTeam = none ∨ ¬ Placed s a)) ∨
      (p = (success, some teamInvalid) ∧ s.isValidTeam a.parentTeam = some true ∧
        a.peStart < maxPes ∧ a.peStride < maxPes ∧ a.peSize ≤ maxPes) := by
  cases newTeam with
  | none =>
    rw [← Option.some.inj h]
    exact Or.inl ⟨show invalidParam ≠ success by decide, Or.inl rfl⟩
  | some _ =>
    rw [PeState.splitStridedPrecheck, Option.bind_eq_bind, Option.bind_eq_some_iff] at h
    rcases h with ⟨valid, hvalid, h⟩
    cases valid with
    | false =>
      rw [← Option.some.inj h]
      apply Or.inl
      refine ⟨show invalidParam ≠ success by decide, Or.inr fun hplaced => ?_⟩
      rw [hplaced.parent] at hvalid
      cases hvalid
    | true =>
      by_cases hbig : maxPes ≤ a.peStart ∨ maxPes ≤ a.peStride ∨ maxPes < a.peSize
      · simp only [Bool.not_true, Bool.false_eq_true, if_false, if_pos hbig] at h
        rw [← Option.some.inj h]
        apply Or.inl
        refine ⟨show invalidParam ≠ success by decide, Or.inr fun hplaced => ?_⟩
        have hsmall := hplaced.small
        omega
      · simp only [Bool.not_true, Bool.false_eq_true, if_false, if_neg hbig] at h
        rw [← Option.some.inj h]
        exact Or.inr ⟨rfl, hvalid, by omega, by omega, by omega⟩

/-- A split that returns was refused, or passed this PE by, or goes on to enrol it. -/
theorem splitStrided_cases {s : PeState} {a : SplitArgs} {host : Host} {newTeam : Option ℤ}
    {r : SplitResult} (h : s.splitStrided a host newTeam = some r) :
    (r.state = s ∧ r.ret ≠ success ∧ (newTeam = none ∨ ¬ Placed s a)) ∨
    (Placed s a ∧ ¬ Joins s a ∧ r = ⟨success, some teamInvalid, s⟩) ∨
    (Placed s a ∧ Joins s a ∧ ∃ peMapping,
      fillMapping host.stack (s.globalStart a) (s.globalStride a) a.peSize.toNat = some peMapping ∧
      s.enroll (s.myTeam a peMapping) host (some teamInvalid) = some r) := by
  unfold PeState.splitStrided at h
  by_cases hid : s.instanceId ≠ 0
  · rw [if_pos hid] at h
    rw [← Option.some.inj h]
    exact Or.inl ⟨rfl, show notSupported ≠ success by decide,
      Or.inr fun hplaced => hid hplaced.single⟩
  rw [if_neg hid, Option.bind_eq_bind, Option.bind_eq_some_iff] at h
  rcases h with ⟨⟨ret, out⟩, hpre, h⟩
  -- the checks in front, then those of the arguments, then those of the world
  rcases splitStridedPrecheck_cases hpre with ⟨hret, hrefused⟩ | ⟨hpassed, hparent, hsmall⟩
  · simp only [if_pos hret] at h
    rw [← Option.some.inj h]
    exact Or.inl ⟨rfl, hret, hrefused⟩
  rw [hpassed] at h
  simp only [ne_eq, not_true_eq_false, if_false] at h
  split at h
  · rename_i hargs
    rw [← Option.some.inj h]
    refine Or.inl ⟨rfl, show invalidParam ≠ success by decide, Or.inr fun hplaced => ?_⟩
    rcases hargs with hlt | hge | hsize | hmany | hstride
    · exact absurd hplaced.start_nonneg (not_le.mpr hlt)
    · exact absurd hplaced.start_lt (not_lt.mpr hge)
    · exact absurd hplaced.size_pos (not_lt.mpr hsize)
    · exact absurd hplaced.size_le (not_le.mpr hmany)
    · exact absurd hplaced.stride_pos (not_le.mpr hstride)
  rename_i hargs
  simp only [Option.bind_eq_bind, Option.bind_eq_some_iff, int32_eq_some] at h
  rcases h with ⟨stride, ⟨-, hstride⟩, reach, ⟨-, hreach⟩, last, ⟨-, hlast⟩, h⟩
  subst hstride
  subst hreach
  subst hlast
  split at h
  · rename_i hworld
    rw [← Option.some.inj h]
    refine Or.inl ⟨rfl, show invalidParam ≠ success by decide, Or.inr fun hplaced => ?_⟩
    rcases hworld with hstart | hend
    · exact absurd hplaced.start_world (not_lt.mpr hstart)
    · exact absurd hplaced.world (not_lt.mpr hend)
  rename_i hworld
  have hplaced : Placed s a := by
    simp only [not_or, not_lt, not_le] at hargs hworld
    exact ⟨not_not.mp hid, hparent, hsmall, hargs.1, hargs.2.1, hargs.2.2.1, hargs.2.2.2.1,
      hargs.2.2.2.2, hworld.1, hworld.2⟩
  simp only [Option.bind_eq_some_iff, int32_eq_some] at h
  rcases h with ⟨distance, ⟨-, hdistance⟩, h⟩
  subst hdistance
  split at h
  · cases h
  split at h
  -- a PE in front of the team, between two members, or behind the last one
  · rename_i hout
    apply Or.inr ∘ Or.inl
    refine ⟨hplaced, fun hjoins => ?_, (Option.some.inj h).symm⟩
    rcases hout with hlt | hmod | hge
    · exact absurd hjoins.1 (not_le.mpr hlt)
    · exact hmod hjoins.2.1
    · exact absurd hjoins.2.2 (not_lt.mpr hge)
  · rename_i hin
    simp only [Option.bind_eq_some_iff] at h
    rcases h with ⟨peMapping, hfill, h⟩
    apply Or.inr ∘ Or.inr
    simp only [not_or, not_lt, not_not, not_le] at hin
    exact ⟨hplaced, hin, peMapping, hfill, h⟩

/-- Destroying a valid team clears its bit. -/
theorem destroy_of_valid {s : PeState} {t : ℤ} (h : s.isValidTeam t = some true) :
    s.destroy t = some { s with
      devicePools := Function.update s.devicePools t none
      teamMask := s.teamMask ^^^ bit t } := by
  rw [PeState.destroy, h]
  rfl

theorem destroy_of_invalid {s : PeState} {t : ℤ} (h : s.isValidTeam t = some false) :
    s.destroy t = some s := by
  rw [PeState.destroy, h]
  rfl

/-- A team that got a pool entry keeps it if the device runtime plays along, and otherwise leaves
the mask as it was. -/
theorem enroll_cases {s : PeState} {team : Team} {host : Host} {out : Option ℤ} {r : SplitResult}
    (hinit : s.initialized = true) (halloc : s.poolAllocated = true)
    (h : s.enroll team host out = some r) : ∃ idx, LowestClear s.teamMask idx ∧
      r.state.initialized = s.initialized ∧ r.state.poolAllocated = s.poolAllocated ∧
      r.state.npes = s.npes ∧ r.state.mype = s.mype ∧
      r.state.teamPool = Function.update s.teamPool idx { team with teamIdx := idx } ∧
      ((host.teamUpdate = true ∧ host.stateUpdate = true ∧ r.ret = success ∧
          r.newTeam = some idx ∧ r.state.teamMask = s.teamMask ||| bit idx) ∨
        (¬ (host.teamUpdate = true ∧ host.stateUpdate = true) ∧ r.ret ≠ success ∧
          r.state.teamMask = s.teamMask)) := by
  rw [PeState.enroll, Option.bind_eq_bind, Option.bind_eq_some_iff] at h
  rcases h with ⟨⟨idx, mask⟩, hfetch, h⟩
  rcases firstFreeIdxFetch_eq_some hfetch with ⟨hclear, hmask⟩
  have hclear : LowestClear s.teamMask idx := hclear
  have hmask : mask = s.teamMask ||| bit idx := hmask
  have hne : idx ≠ -1 := by
    have hnonneg := hclear.nonneg
    omega
  simp only [if_neg hne] at h
  -- whatever has been written by then, taking the team back clears just its bit
  have htaken : ∀ {s' t : PeState}, s'.destroy idx = some t → s'.initialized = s.initialized →
      s'.poolAllocated = s.poolAllocated → s'.teamMask = mask →
      t = { s' with
        devicePools := Function.update s'.devicePools idx none
        teamMask := s.teamMask } := by
    intro s' t hdestroy hinit' halloc' hmask'
    have hvalid : s'.isValidTeam idx = some true := by
      rw [PeState.isValidTeam_true, hinit', halloc', hmask', hmask]
      refine ⟨hinit, halloc, ⟨hclear.nonneg, hclear.lt⟩, ?_⟩
      simp [getLsbD_bit ⟨hclear.nonneg, hclear.lt⟩]
    rw [destroy_of_valid hvalid, hmask', hmask, or_xor_bit hclear] at hdestroy
    exact (Option.some.inj hdestroy).symm
  apply Exists.intro idx
  apply And.intro hclear
  by_cases hteam : host.teamUpdate = true
  · by_cases hstate : host.stateUpdate = true
    · simp only [hteam, hstate, Bool.not_true, Bool.false_eq_true, if_false] at h
      rw [← Option.some.inj h]
      exact ⟨rfl, rfl, rfl, rfl, rfl, Or.inl ⟨hteam, hstate, rfl, rfl, hmask⟩⟩
    · simp only [hteam, hstate, Bool.not_true, Bool.not_false, Bool.false_eq_true, if_false,
        if_true, Option.bind_eq_bind, Option.bind_eq_some_iff] at h
      rcases h with ⟨s', hs', h⟩
      rw [← Option.some.inj h, htaken hs' rfl rfl rfl]
      exact ⟨rfl, rfl, rfl, rfl, rfl,
        Or.inr ⟨fun hboth => hstate hboth.2, show innerError ≠ success by decide, rfl⟩⟩
  · simp only [hteam, Bool.not_false, if_true, Option.bind_eq_bind, Option.bind_eq_some_iff] at h
    rcases h with ⟨s', hs', h⟩
    rw [← Option.some.inj h, htaken hs' rfl rfl rfl]
    exact ⟨rfl, rfl, rfl, rfl, rfl,
      Or.inr ⟨fun hboth => hteam hboth.1, show innerError ≠ success by decide, rfl⟩⟩

end AscendShmem.Teams
