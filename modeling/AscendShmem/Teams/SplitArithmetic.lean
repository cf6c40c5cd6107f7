import Mathlib
import AscendShmem.Teams.Ledger

/-!
# The arithmetic of a split

A split does all its arithmetic before it takes an index: `place` from the global numbers to
`my_team`, `prepare` with the checks in front. The stride of a team of one is not held down by the
world, so it grows with every split of such a team by up to `ACLSHMEM_MAX_PES - 1`, and the product
of two strides is the one number that can leave `int`.
-/

namespace AscendShmem.Teams

/-- What a split has come to when it is about to take an index. -/
inductive Prepared where
  | returns (r : SplitResult)
  | builds (myTeam : Team) (newTeam : Option ℤ)

/-- The arithmetic of `aclshmem_team_split_strided`, after its checks. -/
def PeState.place (s : PeState) (a : SplitArgs) (host : Host) (newTeam : Option ℤ) :
    Option Prepared := do
  let srcTeam := s.teamPool a.parentTeam
  let globalPe := srcTeam.mype
  let globalPeStart := srcTeam.peMapping a.peStart
  let globalPeStride ← int32 (srcTeam.stride * a.peStride)
  let reach ← int32 (globalPeStride * (a.peSize - 1))
  let globalPeEnd ← int32 (globalPeStart + reach)
  if s.npes ≤ globalPeStart ∨ s.npes ≤ globalPeEnd then some (.returns ⟨invalidParam, newTeam, s⟩)
  else
    let distance ← int32 (globalPe - globalPeStart)
    if globalPeStride = 0 then none
    else
      let mype := distance.tdiv globalPeStride
      if globalPe < globalPeStart ∨ distance.tmod globalPeStride ≠ 0 ∨ a.peSize ≤ mype then
        some (.returns ⟨success, newTeam, s⟩)
      else
        let peMapping ← fillMapping host.stack globalPeStart globalPeStride a.peSize.toNat
        some (.builds ⟨mype, globalPeStart, globalPeStride, a.peSize, -1, peMapping⟩ newTeam)

/-- `aclshmem_team_split_strided` up to `first_free_idx_fetch`. -/
def PeState.prepare (s : PeState) (a : SplitArgs) (host : Host) (newTeam : Option ℤ) :
    Option Prepared := do
  if s.instanceId ≠ 0 then some (.returns ⟨notSupported, newTeam, s⟩)
  else
    let (ret, newTeam) ← s.splitStridedPrecheck a newTeam
    if ret ≠ success then some (.returns ⟨ret, newTeam, s⟩)
    else
      let srcTeam := s.teamPool a.parentTeam
      if a.peStart < 0 ∨ srcTeam.size ≤ a.peStart ∨ a.peSize ≤ 0 ∨ srcTeam.size < a.peSize ∨
          a.peStride < 1 then
        some (.returns ⟨invalidParam, newTeam, s⟩)
      else s.place a host newTeam

/-- The rest of the split. -/
def PeState.finish (s : PeState) (host : Host) : Prepared → Option SplitResult
  | .returns r => some r
  | .builds myTeam newTeam => s.enroll myTeam host newTeam

section

variable {s : PeState} {a : SplitArgs} {host : Host} {newTeam : Option ℤ}

/-- A split is its preparation and then its enrolment. -/
theorem splitStrided_eq_prepare :
    s.splitStrided a host newTeam = (s.prepare a host newTeam).bind (s.finish host) := by
  unfold PeState.splitStrided PeState.prepare
  split
  · rfl
  simp only [Option.bind_eq_bind, Option.bind_assoc]
  apply Option.bind_congr
  intro checked _
  split
  · rfl
  split
  · rfl
  -- both go through the same numbers from here
  show _ = (s.place a host checked.2).bind (s.finish host)
  unfold PeState.place
  simp only [Option.bind_eq_bind, Option.bind_assoc]
  apply Option.bind_congr
  intro stride _
  apply Option.bind_congr
  intro reach _
  apply Option.bind_congr
  intro last _
  split
  · rfl
  rw [Option.bind_assoc]
  apply Option.bind_congr
  intro distance _
  split
  · rfl
  split
  · rfl
  rw [Option.bind_assoc]
  rfl

/-- The split passes its checks and comes to its arithmetic. -/
structure Accepted (s : PeState) (a : SplitArgs) (newTeam : Option ℤ) : Prop where
  single : s.instanceId = 0
  out : newTeam ≠ none
  parent : s.isValidTeam a.parentTeam = some true
  small : a.peStart < maxPes ∧ a.peStride < maxPes ∧ a.peSize ≤ maxPes
  start_nonneg : 0 ≤ a.peStart
  start_lt : a.peStart < (s.srcTeam a).size
  size_pos : 0 < a.peSize
  size_le : a.peSize ≤ (s.srcTeam a).size
  stride_pos : 1 ≤ a.peStride

/-- What the first checks say of a valid parent. -/
theorem splitStridedPrecheck_of_valid (hvalid : s.isValidTeam a.parentTeam = some true)
    (hout : newTeam ≠ none) : s.splitStridedPrecheck a newTeam =
      if maxPes ≤ a.peStart ∨ maxPes ≤ a.peStride ∨ maxPes < a.peSize then
        some (invalidParam, some teamInvalid)
      else some (success, some teamInvalid) := by
  rcases Option.ne_none_iff_exists'.mp hout with ⟨t, ht⟩
  rw [ht, PeState.splitStridedPrecheck, hvalid]
  rfl

/-- An accepted split is decided by its placing. -/
theorem Accepted.prepare_eq (h : Accepted s a newTeam) :
    s.prepare a host newTeam = s.place a host (some teamInvalid) := by
  have hsmall := h.small
  have hbad : ¬ (a.peStart < 0 ∨ (s.teamPool a.parentTeam).size ≤ a.peStart ∨ a.peSize ≤ 0 ∨
      (s.teamPool a.parentTeam).size < a.peSize ∨ a.peStride < 1) := by
    have hstart : a.peStart < (s.teamPool a.parentTeam).size := h.start_lt
    have hsize : a.peSize ≤ (s.teamPool a.parentTeam).size := h.size_le
    have hnonneg := h.start_nonneg
    have hpos := h.size_pos
    have hstride := h.stride_pos
    omega
  rw [PeState.prepare, if_neg (not_not.mpr h.single),
    splitStridedPrecheck_of_valid h.parent h.out, if_neg (by omega)]
  exact if_neg hbad

/-- A split that a check refuses returns without arithmetic. -/
theorem prepare_of_refused (host : Host) (hvalid : s.isValidTeam a.parentTeam ≠ none)
    (h : ¬ Accepted s a newTeam) : ∃ r, s.prepare a host newTeam = some (.returns r) := by
  unfold PeState.prepare
  by_cases hid : s.instanceId ≠ 0
  · rw [if_pos hid]
    exact ⟨_, rfl⟩
  rw [if_neg hid]
  by_cases hout : newTeam = none
  · rw [hout]
    exact ⟨_, rfl⟩
  rcases Option.ne_none_iff_exists'.mp hvalid with ⟨valid, hsome⟩
  cases valid with
  | false =>
    rcases Option.ne_none_iff_exists'.mp hout with ⟨t, ht⟩
    rw [ht, PeState.splitStridedPrecheck, hsome]
    exact ⟨_, rfl⟩
  | true =>
    rw [splitStridedPrecheck_of_valid hsome hout]
    by_cases hbig : maxPes ≤ a.peStart ∨ maxPes ≤ a.peStride ∨ maxPes < a.peSize
    · rw [if_pos hbig]
      exact ⟨_, rfl⟩
    rw [if_neg hbig]
    by_cases hbad : a.peStart < 0 ∨ (s.teamPool a.parentTeam).size ≤ a.peStart ∨ a.peSize ≤ 0 ∨
        (s.teamPool a.parentTeam).size < a.peSize ∨ a.peStride < 1
    · exact ⟨_, if_pos hbad⟩
    · -- every check is passed
      apply absurd _ h
      simp only [not_or, not_lt, not_le] at hbig hbad
      exact ⟨not_not.mp hid, hout, hsome, hbig, hbad.1, hbad.2.1, hbad.2.2.1, hbad.2.2.2.1,
        hbad.2.2.2.2⟩

/-! ## The numbers -/

theorem int32_of_range {n : ℤ} (hlow : -2 ^ 31 ≤ n) (hhigh : n < 2 ^ 31) : int32 n = some n :=
  if_pos ⟨hlow, hhigh⟩

/-- The mapping of a team inside the world is written inside its array. -/
theorem fillMapping_inside (stack : ℤ → ℤ) {start stride : ℤ} {n : ℕ} (hstart : 0 ≤ start)
    (hstride : 0 ≤ stride) (hn : n ≤ maxPes)
    (hlast : ∀ i : ℤ, 0 ≤ i → i < n → start + i * stride < maxPes) :
    ∃ m, fillMapping stack start stride n = some m := by
  induction n with
  | zero => exact ⟨stack, rfl⟩
  | succ n ih =>
    push_cast at hn hlast
    rcases ih (by omega) (fun i hi hlt => hlast i hi (by omega)) with ⟨m, hm⟩
    have hoffset : 0 ≤ n * stride := mul_nonneg (Int.natCast_nonneg n) hstride
    have hpe := hlast n (Int.natCast_nonneg n) (by omega)
    have hpes : maxPes = 16384 := rfl
    have hlist : store m n (start + n * stride)
        = some (Function.update m n (start + n * stride)) := by
      rw [store, if_pos (by omega)]
    rw [fillMapping, hm]
    simp only [Option.bind_eq_bind, Option.bind_some]
    rw [int32_of_range (by omega) (by omega), Option.bind_some,
      int32_of_range (by omega) (by omega), Option.bind_some, hlist, Option.bind_some,
      int32_of_range (by omega) (by omega), Option.bind_some, store, if_pos (by omega)]
    exact ⟨_, rfl⟩

/-- What the arithmetic works with once the product of the strides is an `int`. -/
structure Bounds (s : PeState) (a : SplitArgs) : Prop where
  start_nonneg : 0 ≤ s.globalStart a
  start_lt : s.globalStart a < s.npes
  stride_pos : 1 ≤ s.globalStride a
  reach_nonneg : 0 ≤ s.globalStride a * (a.peSize - 1)
  reach_lt : s.globalStride a * (a.peSize - 1) < 2 ^ 28
  mype_nonneg : 0 ≤ (s.srcTeam a).mype
  mype_lt : (s.srcTeam a).mype < maxPes

/-- The arguments of an accepted split are in range. -/
theorem Accepted.bounds (h : Accepted s a newTeam) (hs : s.WellFormed) (hnpes : s.npes ≤ maxPes) :
    Bounds s a := by
  have hparent : (s.srcTeam a).Linear s.npes := hs _ h.parent
  have hpos := hparent.stride_pos
  have hfirst := hparent.start_nonneg
  have hlast := hparent.last
  have hstride := h.stride_pos
  have hsmall := h.small
  have hpes : maxPes = 16384 := rfl
  have hstart : s.globalStart a = (s.srcTeam a).start + a.peStart * (s.srcTeam a).stride :=
    hparent.mapping _ h.start_nonneg h.start_lt
  have hoffset : 0 ≤ a.peStart * (s.srcTeam a).stride := mul_nonneg h.start_nonneg (by omega)
  have hinside : a.peStart * (s.srcTeam a).stride
      ≤ (s.srcTeam a).stride * ((s.srcTeam a).size - 1) := by
    rw [mul_comm]
    exact mul_le_mul_of_nonneg_left (by linarith [h.start_lt]) (by omega)
  -- the new team spans no more ranks of the parent than the parent has
  have hspan : (s.srcTeam a).stride * (a.peSize - 1)
      ≤ (s.srcTeam a).stride * ((s.srcTeam a).size - 1) :=
    mul_le_mul_of_nonneg_left (by linarith [h.size_le]) (by omega)
  have hnonneg : 0 ≤ (s.srcTeam a).stride * (a.peSize - 1) :=
    mul_nonneg (by omega) (by linarith [h.size_pos])
  have hreach : s.globalStride a * (a.peSize - 1)
      = (s.srcTeam a).stride * (a.peSize - 1) * a.peStride := by
    show (s.srcTeam a).stride * a.peStride * (a.peSize - 1) = _
    ring
  constructor
  · omega
  · omega
  · exact one_le_mul_of_one_le_of_one_le hpos hstride
  · rw [hreach]
    exact mul_nonneg hnonneg (by omega)
  · rw [hreach]
    calc (s.srcTeam a).stride * (a.peSize - 1) * a.peStride
        ≤ 16383 * 16383 := mul_le_mul (by omega) (by omega) (by omega) (by norm_num)
      _ < 2 ^ 28 := by norm_num
  · exact hparent.mype_nonneg
  · linarith [hparent.mype_lt, hparent.size_le]

theorem place_of_overflow (h : ¬ s.globalStride a < 2 ^ 31) : s.place a host newTeam = none := by
  have hstride : int32 ((s.teamPool a.parentTeam).stride * a.peStride) = none :=
    if_neg fun hrange => h hrange.2
  rw [PeState.place, hstride]
  rfl

/-- The arithmetic without its range checks. -/
theorem Bounds.place_eq (h : Bounds s a) (hnpes : s.npes ≤ maxPes)
    (hfit : s.globalStride a < 2 ^ 31) : s.place a host newTeam =
      if s.npes ≤ s.globalStart a ∨
          s.npes ≤ s.globalStart a + s.globalStride a * (a.peSize - 1) then
        some (.returns ⟨invalidParam, newTeam, s⟩)
      else if (s.srcTeam a).mype < s.globalStart a ∨
          ((s.srcTeam a).mype - s.globalStart a).tmod (s.globalStride a) ≠ 0 ∨
          a.peSize ≤ ((s.srcTeam a).mype - s.globalStart a).tdiv (s.globalStride a) then
        some (.returns ⟨success, newTeam, s⟩)
      else (fillMapping host.stack (s.globalStart a) (s.globalStride a) a.peSize.toNat).bind
        fun peMapping => some (.builds (s.myTeam a peMapping) newTeam) := by
  have hpes : maxPes = 16384 := rfl
  have hstart := h.start_nonneg
  have hstartlt := h.start_lt
  have hpos := h.stride_pos
  have hreach := h.reach_nonneg
  have hreachlt := h.reach_lt
  have hmype := h.mype_nonneg
  have hmypelt := h.mype_lt
  have hstride : int32 ((s.teamPool a.parentTeam).stride * a.peStride) = some (s.globalStride a) :=
    int32_of_range (n := s.globalStride a) (by omega) hfit
  rw [PeState.place, hstride]
  simp only [Option.bind_eq_bind, Option.bind_some]
  rw [int32_of_range (by omega) (by omega), Option.bind_some]
  rw [show (s.teamPool a.parentTeam).peMapping a.peStart = s.globalStart a from rfl,
    int32_of_range (by omega) (by omega), Option.bind_some]
  rw [show (s.teamPool a.parentTeam).mype = (s.srcTeam a).mype from rfl,
    int32_of_range (by omega) (by omega), Option.bind_some,
    if_neg (show s.globalStride a ≠ 0 by omega)]
  rfl

/-- The members of a team that ends inside the world lie inside the world. -/
theorem Bounds.fills (h : Bounds s a) (hnpes : s.npes ≤ maxPes) (hsize : 0 < a.peSize)
    (hsmall : a.peSize ≤ maxPes)
    (hworld : s.globalStart a + s.globalStride a * (a.peSize - 1) < s.npes) (stack : ℤ → ℤ) :
    ∃ m, fillMapping stack (s.globalStart a) (s.globalStride a) a.peSize.toNat = some m := by
  have hcast : ((a.peSize.toNat : ℕ) : ℤ) = a.peSize := Int.toNat_of_nonneg (by omega)
  have hpos := h.stride_pos
  apply fillMapping_inside stack h.start_nonneg (by omega) (by omega)
  intro i hi hlt
  rw [hcast] at hlt
  have hle : i * s.globalStride a ≤ s.globalStride a * (a.peSize - 1) := by
    rw [mul_comm]
    exact mul_le_mul_of_nonneg_left (by omega) (by omega)
  omega

/-- The arithmetic of an accepted split stays in range exactly if the product of the strides does. -/
theorem Accepted.place_ne_none_iff (h : Accepted s a newTeam) (hs : s.WellFormed)
    (hnpes : s.npes ≤ maxPes) {out : Option ℤ} :
    s.place a host out ≠ none ↔ s.globalStride a < 2 ^ 31 := by
  have hbounds := h.bounds hs hnpes
  constructor
  · intro hdefined
    by_contra hbig
    exact hdefined (place_of_overflow hbig)
  · intro hfit
    rw [hbounds.place_eq hnpes hfit]
    split
    · exact Option.some_ne_none _
    rename_i hworld
    split
    · exact Option.some_ne_none _
    rcases hbounds.fills hnpes h.size_pos h.small.2.2 (by omega) host.stack with ⟨m, hm⟩
    rw [hm]
    exact Option.some_ne_none _

/-- A split inside the world that does not select this PE. -/
theorem Accepted.place_passes (h : Accepted s a newTeam) (hplaced : Placed s a)
    (hs : s.WellFormed) (hnpes : s.npes ≤ maxPes) (hfit : s.globalStride a < 2 ^ 31)
    (hout : ¬ Joins s a) {out : Option ℤ} :
    s.place a host out = some (.returns ⟨success, out, s⟩) := by
  have hinside : ¬ (s.npes ≤ s.globalStart a ∨
      s.npes ≤ s.globalStart a + s.globalStride a * (a.peSize - 1)) :=
    not_or.mpr ⟨not_le.mpr hplaced.start_world, not_le.mpr hplaced.world⟩
  rw [(h.bounds hs hnpes).place_eq hnpes hfit, if_neg hinside]
  apply if_pos
  by_contra hjoins
  simp only [not_or, not_lt, not_not, not_le] at hjoins
  exact hout hjoins

/-- A split inside the world that selects this PE. -/
theorem Accepted.place_builds (h : Accepted s a newTeam) (hplaced : Placed s a)
    (hs : s.WellFormed) (hnpes : s.npes ≤ maxPes) (hfit : s.globalStride a < 2 ^ 31)
    (hjoins : Joins s a) {out : Option ℤ} :
    ∃ m, fillMapping host.stack (s.globalStart a) (s.globalStride a) a.peSize.toNat = some m ∧
      s.place a host out = some (.builds (s.myTeam a m) out) := by
  have hinside : ¬ (s.npes ≤ s.globalStart a ∨
      s.npes ≤ s.globalStart a + s.globalStride a * (a.peSize - 1)) :=
    not_or.mpr ⟨not_le.mpr hplaced.start_world, not_le.mpr hplaced.world⟩
  have hmember : ¬ ((s.srcTeam a).mype < s.globalStart a ∨
      ((s.srcTeam a).mype - s.globalStart a).tmod (s.globalStride a) ≠ 0 ∨
      a.peSize ≤ ((s.srcTeam a).mype - s.globalStart a).tdiv (s.globalStride a)) := by
    simp only [not_or, not_lt, not_not, not_le]
    exact hjoins
  have hbounds := h.bounds hs hnpes
  rcases hbounds.fills hnpes h.size_pos h.small.2.2 hplaced.world host.stack with ⟨m, hm⟩
  rw [hbounds.place_eq hnpes hfit, if_neg hinside, if_neg hmember, hm]
  exact ⟨m, rfl, rfl⟩

/-- Only the stride of a team of one can be too large. -/
theorem Accepted.strides_fit (h : Accepted s a newTeam) (hs : s.WellFormed)
    (hnpes : s.npes ≤ maxPes) (htwo : 2 ≤ (s.srcTeam a).size) : s.globalStride a < 2 ^ 31 := by
  have hparent : (s.srcTeam a).Linear s.npes := hs _ h.parent
  have hpes : maxPes = 16384 := rfl
  have hpos := hparent.stride_pos
  have hlast := hparent.last
  have hfirst := hparent.start_nonneg
  have hsmall := h.small
  have hstride := h.stride_pos
  have hle : (s.srcTeam a).stride ≤ (s.srcTeam a).stride * ((s.srcTeam a).size - 1) :=
    int_le_mul_of_one_le (by omega) (by omega)
  calc (s.srcTeam a).stride * a.peStride
      ≤ 16383 * 16383 := mul_le_mul (by omega) (by omega) (by omega) (by norm_num)
    _ < 2 ^ 31 := by norm_num

end

/-! ## Every chain of splits -/

/-- No product or sum of a split leaves `int`, it does not divide by zero, and it writes
`pe_mapping` inside its bounds. Next to the shift of `is_valid_team` over the parent, `prepare` has
no other way to be undefined, and behind it there is no arithmetic. -/
def ArithmeticSafe (l : Ledger) : TeamCall → Prop
  | .split call => l.state.isValidTeam call.args.parentTeam ≠ none →
      l.state.prepare call.args call.host call.newTeam ≠ none
  | .destroy _ => True

/-- The stride of the parent times the stride asked for is an `int`, if the split comes so far. -/
def StridesFit (l : Ledger) : TeamCall → Prop
  | .split call => Accepted l.state call.args call.newTeam →
      (l.state.srcTeam call.args).stride * call.args.peStride < 2 ^ 31
  | .destroy _ => True

/-- A call is safe exactly if its stride fits. -/
theorem Ledger.Sound.arithmeticSafe_iff (l : Ledger) (call : TeamCall) (hl : l.Sound) :
    ArithmeticSafe l call ↔ StridesFit l call := by
  cases call with
  | destroy team => exact Iff.rfl
  | split call =>
    by_cases haccepted : Accepted l.state call.args call.newTeam
    · have hiff : l.state.place call.args call.host (some teamInvalid) ≠ none ↔
          l.state.globalStride call.args < 2 ^ 31 :=
        haccepted.place_ne_none_iff hl.wellFormed hl.world
      constructor
      · intro hsafe _
        have hdefined := hsafe (by rw [haccepted.parent]; exact Option.some_ne_none _)
        rw [haccepted.prepare_eq] at hdefined
        exact hiff.mp hdefined
      · intro hfits _
        rw [haccepted.prepare_eq]
        exact hiff.mpr (hfits haccepted)
    · apply iff_of_true
      · intro hvalid
        rcases prepare_of_refused call.host hvalid haccepted with ⟨r, hr⟩
        rw [hr]
        exact Option.some_ne_none _
      · exact fun hpassed => absurd hpassed haccepted

/-- Over every history of splits and destroys, the arithmetic of all splits is safe exactly if the
strides of parent and split always fit. -/
theorem split_arithmetic_iff {rank size : ℤ} {l : Ledger} (hrank : 0 ≤ rank) (hlt : rank < size)
    (hsize : size ≤ maxPes) (hinit : Ledger.init rank size = some l) (calls : List TeamCall) :
    l.EachCall ArithmeticSafe calls ↔ l.EachCall StridesFit calls :=
  (sound_init hrank hlt hsize hinit).eachCall_iff Ledger.Sound.arithmeticSafe_iff calls

/-- Two nested splits off a world of one PE, each with the largest stride. -/
def twoSplits : List TeamCall :=
  [.split (sampleCall ⟨0, 0, 16383, 1⟩), .split (sampleCall ⟨1, 0, 16383, 1⟩)]

theorem split_arithmetic_iff_sample : ∃ l, Ledger.init 0 1 = some l ∧
    (l.EachCall ArithmeticSafe twoSplits ↔ l.EachCall StridesFit twoSplits) := by
  have hsome : (Ledger.init 0 1).isSome := by decide +kernel
  rcases Option.isSome_iff_exists.mp hsome with ⟨l, hl⟩
  exact ⟨l, hl, split_arithmetic_iff (by decide) (by decide) (by decide +kernel) hl twoSplits⟩

/-- A third split off the two, with stride 16: `16383 * 16383 * 16` is no `int`. -/
theorem third_split_overflows : ¬ ∀ (rank size : ℤ) (l : Ledger) (calls : List TeamCall),
    0 ≤ rank → rank < size → size ≤ maxPes → Ledger.init rank size = some l →
    l.EachCall ArithmeticSafe calls := by
  intro hclaim
  have hthird : ((Ledger.init 0 1).bind fun l => (l.run twoSplits).map fun l' =>
      (l'.state.isValidTeam 2, (l'.state.prepare ⟨2, 0, 16, 1⟩ ⟨fun _ => 77, true, true⟩
        (some 0)).isNone)) = some (some true, true) := by decide +kernel
  rcases Option.bind_eq_some_iff.mp hthird with ⟨l, hl, hrest⟩
  rcases Option.map_eq_some_iff.mp hrest with ⟨l', hl', hlast⟩
  have hall := hclaim 0 1 l (twoSplits ++ [.split (sampleCall ⟨2, 0, 16, 1⟩)]) (by decide)
    (by decide) (by decide +kernel) hl
  rw [Prod.mk.injEq, Option.isNone_iff_eq_none] at hlast
  have hvalid : l'.state.isValidTeam 2 ≠ none := by
    rw [hlast.1]
    exact Option.some_ne_none _
  exact hall.last hl' hvalid hlast.2

end AscendShmem.Teams
