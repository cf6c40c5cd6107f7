import Mathlib
import AscendShmem.Teams.ValidityMask

/-!
# The 2-D split

`aclshmem_team_split_2d` cuts the parent into rows and columns with one strided split each, and
returns the row and the column of this PE. A split that fails is only logged; its output stays
`ACLSHMEM_TEAM_INVALID` and the next split goes on.
-/

namespace AscendShmem.Teams

/-- What one split of an axis meets, and what its uninitialised output holds. -/
structure AxisCall where
  host : Host
  output : ℤ

/-- The loop over the splits of an axis from round `i` on, with `fuel` rounds to go: what it
returns, the output team, and the state. -/
def splitAxis (parent stride step : ℤ) (size : ℕ → ℤ) (calls : ℕ → AxisCall) :
    ℕ → ℕ → ℤ → ℤ → PeState → Option (ℤ × ℤ × PeState)
  | 0, _, _, team, s => some (success, team, s)
  | fuel + 1, i, start, team, s => do
    let r ← s.splitStrided ⟨parent, start, stride, size i⟩ (calls i).host (some (calls i).output)
    let start ← int32 (start + step)
    let myTeam ← r.newTeam
    if myTeam ≠ teamInvalid then
      if team = teamInvalid then
        splitAxis parent stride step size calls fuel (i + 1) start myTeam r.state
      else some (innerError, team, r.state)
    else splitAxis parent stride step size calls fuel (i + 1) start team r.state

/-- `x_size` of round `i` -/
def xSize (xTeamCounts srcSize xRange : ℤ) (i : ℕ) : ℤ :=
  if i = xTeamCounts - 1 ∧ srcSize.tmod xRange ≠ 0 then srcSize.tmod xRange else xRange

/-- `aclshmemi_team_split_2d_x` -/
def split2dX (parent xTeamCounts srcSize xRange : ℤ) (calls : ℕ → AxisCall) (xTeam : ℤ)
    (s : PeState) : Option (ℤ × ℤ × PeState) :=
  splitAxis parent 1 xRange (xSize xTeamCounts srcSize xRange) calls xTeamCounts.toNat 0 0 xTeam s

/-- `y_size` of round `i` -/
def ySize (srcSize xRange : ℤ) (i : ℕ) : ℤ :=
  let remainder := srcSize.tmod xRange
  let yRange := srcSize.tdiv xRange
  if remainder ≠ 0 ∧ i < remainder then yRange + 1 else yRange

/-- `aclshmemi_team_split_2d_y` -/
def split2dY (parent yTeamCounts srcSize xRange : ℤ) (calls : ℕ → AxisCall) (yTeam : ℤ)
    (s : PeState) : Option (ℤ × ℤ × PeState) :=
  splitAxis parent xRange 1 (ySize srcSize xRange) calls yTeamCounts.toNat 0 0 yTeam s

/-- What a 2-D split returns, what it leaves behind its two outputs, and the state. -/
structure Split2dResult where
  ret : ℤ
  xTeam : Option ℤ
  yTeam : Option ℤ
  state : PeState

/-- `aclshmemi_team_split_2d_precheck`; an output is `none` for the null pointer. -/
def PeState.split2dPrecheck (s : PeState) (parent xRange : ℤ) (xTeam yTeam : Option ℤ) :
    Option (ℤ × Option ℤ × Option ℤ) :=
  if xTeam = none ∨ yTeam = none then some (invalidParam, xTeam, yTeam)
  else if xRange ≤ 0 then some (invalidParam, xTeam, yTeam)
  else do
    let valid ← s.isValidTeam parent
    if !valid then some (invalidParam, some teamInvalid, some teamInvalid)
    else some (success, some teamInvalid, some teamInvalid)

/-- `aclshmem_team_split_2d`. The quotient of two sizes is far enough from the next integer for
`std::ceil` of the `double` to be exact. -/
def PeState.split2d (s : PeState) (parent xRange : ℤ) (xCalls yCalls : ℕ → AxisCall)
    (xTeam yTeam : Option ℤ) : Option Split2dResult := do
  if s.instanceId ≠ 0 then some ⟨notSupported, xTeam, yTeam, s⟩
  else
    let (ret, xTeam, yTeam) ← s.split2dPrecheck parent xRange xTeam yTeam
    if ret ≠ success then some ⟨ret, xTeam, yTeam, s⟩
    else
      let srcSize := (s.teamPool parent).size
      let xRange := if srcSize < xRange then srcSize else xRange
      let xTeamCounts := ⌈(srcSize : ℚ) / xRange⌉
      let yTeamCounts := xRange
      let (ret, xTeam, s) ← split2dX parent xTeamCounts srcSize xRange xCalls teamInvalid s
      if ret ≠ success then some ⟨ret, some xTeam, yTeam, s⟩
      else
        let (ret, yTeam, s) ← split2dY parent yTeamCounts srcSize xRange yCalls teamInvalid s
        some ⟨ret, some xTeam, some yTeam, s⟩

/-! ## One axis -/

/-- The split of round `i`. -/
def axisArgs (parent stride step : ℤ) (size : ℕ → ℤ) (i : ℕ) : SplitArgs :=
  ⟨parent, i * step, stride, size i⟩

/-- The split gives this PE no team and changes nothing. -/
def Passes (s : PeState) (a : SplitArgs) : Prop :=
  ∀ host output, ∃ ret, s.splitStrided a host (some output) = some ⟨ret, some teamInvalid, s⟩

section Axis

variable {parent stride step : ℤ} {size : ℕ → ℤ} {calls : ℕ → AxisCall} {s : PeState}

/-- After a line whose split passes comes the next. -/
theorem splitAxis_pass {fuel i : ℕ} {team : ℤ} (hstep : 0 ≤ step)
    (hfits : (i + 1) * step < 2 ^ 31) (h : Passes s (axisArgs parent stride step size i)) :
    splitAxis parent stride step size calls (fuel + 1) i (i * step) team s =
      splitAxis parent stride step size calls fuel (i + 1) ((i + 1 : ℕ) * step) team s := by
  rcases h (calls i).host (calls i).output with ⟨ret, hsplit⟩
  have hnonneg : 0 ≤ (i + 1) * step := mul_nonneg (by omega) hstep
  have hnext : (i * step + step : ℤ) = (i + 1 : ℕ) * step := by
    push_cast
    ring
  have hstart : int32 (i * step + step) = some ((i + 1 : ℕ) * step) := by
    rw [hnext]
    push_cast
    exact int32_of_range (by omega) hfits
  have hsplit : s.splitStrided ⟨parent, i * step, stride, size i⟩ (calls i).host
      (some (calls i).output) = some ⟨ret, some teamInvalid, s⟩ := hsplit
  rw [splitAxis, hsplit]
  simp only [Option.bind_eq_bind, Option.bind_some, hstart, ne_eq, not_true_eq_false, if_false]

theorem splitAxis_passes {fuel i : ℕ} {team : ℤ} (hstep : 0 ≤ step)
    (hfits : (i + fuel) * step < 2 ^ 31)
    (h : ∀ k, i ≤ k → k < i + fuel → Passes s (axisArgs parent stride step size k)) :
    splitAxis parent stride step size calls fuel i (i * step) team s = some (success, team, s) := by
  induction fuel generalizing i with
  | zero => rfl
  | succ fuel ih =>
    push_cast at hfits
    have hle : ((i : ℤ) + 1) * step ≤ (i + (fuel + 1)) * step :=
      mul_le_mul_of_nonneg_right (by omega) hstep
    rw [splitAxis_pass hstep (by omega) (h i le_rfl (by omega))]
    apply ih
    · push_cast
      rwa [add_assoc, add_comm 1]
    · exact fun k hk hlt => h k (by omega) (by omega)

/-- The loop comes to round `k` with nothing done. -/
theorem splitAxis_upto {fuel i k : ℕ} (hstep : 0 ≤ step) (hfits : k * step < 2 ^ 31) (hik : i ≤ k)
    (h : ∀ j, i ≤ j → j < k → Passes s (axisArgs parent stride step size j)) {team : ℤ} :
    splitAxis parent stride step size calls (k - i + fuel) i (i * step) team s =
      splitAxis parent stride step size calls fuel k (k * step) team s := by
  induction hn : k - i generalizing i with
  | zero =>
    have heq : i = k := by omega
    rw [heq, Nat.zero_add]
  | succ n ih =>
    have hle : ((i : ℤ) + 1) * step ≤ k * step := mul_le_mul_of_nonneg_right (by omega) hstep
    rw [Nat.add_right_comm, splitAxis_pass hstep (by omega) (h i le_rfl (by omega))]
    exact ih (by omega) (fun j hj hlt => h j (by omega) hlt) (by omega)

/-- A loop in which only round `k` can give this PE a team: it comes to what that round does. -/
theorem splitAxis_at {count k : ℕ} (hstep : 0 ≤ step) (hfits : count * step < 2 ^ 31)
    (hk : k < count)
    (hbefore : ∀ j < k, Passes s (axisArgs parent stride step size j))
    (hafter : ∀ r, s.splitStrided (axisArgs parent stride step size k) (calls k).host
      (some (calls k).output) = some r → (∃ t, r.newTeam = some t) ∧
        ∀ j, k < j → j < count → Passes r.state (axisArgs parent stride step size j)) :
    splitAxis parent stride step size calls count 0 0 teamInvalid s =
      (s.splitStrided (axisArgs parent stride step size k) (calls k).host
        (some (calls k).output)).bind fun r => r.newTeam.map fun t => (success, t, r.state) := by
  have hstart : ((0 : ℕ) : ℤ) * step = 0 := by simp
  have hle : ((k : ℤ) + 1) * step ≤ count * step := mul_le_mul_of_nonneg_right (by omega) hstep
  have hless : (k : ℤ) * step ≤ (k + 1) * step := mul_le_mul_of_nonneg_right (by omega) hstep
  have hcount : count = k - 0 + (count - k - 1 + 1) := by omega
  have hupto : splitAxis parent stride step size calls (k - 0 + (count - k - 1 + 1)) 0
        ((0 : ℕ) * step) teamInvalid s =
      splitAxis parent stride step size calls (count - k - 1 + 1) k (k * step) teamInvalid s :=
    splitAxis_upto hstep (by omega) (Nat.zero_le k) fun j _ hlt => hbefore j hlt
  rw [← hcount, hstart] at hupto
  rw [hupto, splitAxis]
  show (s.splitStrided (axisArgs parent stride step size k) (calls k).host _).bind _ = _
  apply Option.bind_congr
  intro r hr
  rcases hafter r hr with ⟨⟨t, ht⟩, hrest⟩
  have hnonneg : 0 ≤ ((k : ℤ) + 1) * step := mul_nonneg (by omega) hstep
  have hnext : (k * step + step : ℤ) = (k + 1 : ℕ) * step := by
    push_cast
    ring
  have hint : int32 (k * step + step) = some ((k + 1 : ℕ) * step) := by
    rw [hnext]
    push_cast
    exact int32_of_range (by omega) (by omega)
  have htail : ∀ team, splitAxis parent stride step size calls (count - k - 1) (k + 1)
      ((k + 1 : ℕ) * step) team r.state = some (success, team, r.state) := by
    intro team
    apply splitAxis_passes hstep
    · have hlast : (((k + 1 : ℕ) : ℤ) + (count - k - 1 : ℕ)) = count := by omega
      rw [hlast]
      exact hfits
    · exact fun j hj hlt => hrest j (by omega) (by omega)
  simp only [hint, ht, Option.bind_eq_bind, Option.bind_some, Option.map_some]
  by_cases hinvalid : t = teamInvalid
  · rw [if_neg (not_not.mpr hinvalid), htail, hinvalid]
  · rw [if_pos hinvalid, if_pos trivial, htail]

end Axis

end AscendShmem.Teams
