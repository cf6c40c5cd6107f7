import Mathlib
import AscendShmem.Lib.Dissemination

/-!
# The dissemination barriers of the device

Four functions of `shmemi_device_cc.h` run one algorithm: between the vector cores of a device
(`aclshmemi_barrier_core_soft`), between the PEs of a team on one host (`aclshmemi_barrier_npu_v1`,
`aclshmemi_barrier_npu_v2`) and between hosts (`aclshmemi_barrier_cross_host`). They differ in the
slots they use, in the loop that counts the rounds, and in when the counter is stored.

Participants are numbered by block or by their place in the team. In the team barriers block 0 of a
PE makes the rounds; the other blocks only meet it at core barriers. Counts are numbers: below
`2 ^ 31 - 1` barriers no `int32_t` wraps.
-/

namespace AscendShmem.Barriers

open Lib

/-- `ACLSHMEM_MAX_AIV_PER_NPU` -/
def maxAivPerNpu : ℕ := 48

/-- `ACLSHMEM_LOG_MAX_AIV_PER_NPU` -/
def logMaxAivPerNpu : ℕ := 6

/-- `aclshmemi_barrier_core_soft` on `blockDim` vector cores: round `r` has `shift = 2 ^ r` and
`offset = r`. A slot is its index in `core_sync_pool`; all cores share `core_sync_counter`. -/
def coreSoft (blockDim : ℕ) : Dissemination ℕ where
  size := blockDim
  more r := decide (2 ^ r < blockDim)
  acts _ := true
  target curBlockIdx r := (curBlockIdx + 2 ^ r) % blockDim * logMaxAivPerNpu + r
  source curBlockIdx r := curBlockIdx * logMaxAivPerNpu + r
  cell _ := 0
  storeFirst := false

/-- The fields of `aclshmemx_team_t` that the barriers read. -/
structure TeamShape where
  start : ℕ
  stride : ℕ
  size : ℕ
deriving DecidableEq, Repr

/-- The PE at a place of the team. -/
def TeamShape.pe (team : TeamShape) (i : ℕ) : ℕ := team.start + i * team.stride

/-- `my_pe_in_team` -/
def TeamShape.place (team : TeamShape) (myPe : ℕ) : ℕ := (myPe - team.start) / team.stride

theorem TeamShape.place_pe {team : TeamShape} (h : 0 < team.stride) (i : ℕ) :
    team.place (team.pe i) = i := by
  unfold place pe
  rw [Nat.add_sub_cancel_left, Nat.mul_div_cancel i h]

/-- `aclshmemi_barrier_npu_v1`: a slot is a PE and an index in its part of `sync_pool`. -/
def npuV1 (team : TeamShape) : Dissemination (ℕ × ℕ) where
  size := team.size
  more r := decide (2 ^ r < team.size)
  acts _ := true
  target myPeInTeam r := (team.pe ((myPeInTeam + 2 ^ r) % team.size), r)
  source myPeInTeam r := (team.pe myPeInTeam, r)
  cell myPeInTeam := team.pe myPeInTeam
  storeFirst := false

/-- `k` of `aclshmemi_barrier_npu_v2`: `BARRIER_DISSEM_KVAL` cut to the team and raised to
`BARRIER_DISSEM_KVAL_MIN`. -/
def kval (teamSize : ℕ) : ℕ := max 2 (min 2 teamSize)

/-- `aclshmemi_barrier_npu_v2`. Phase `r` has `temp = (team_size - 1) / k ^ r` and
`pow_k = k ^ r`; with `k = 2` its loops over neighbours make the one turn `i = 1`, on block 0, and
break off when `shift` reaches the size of the team. -/
def npuV2 (teamSize : ℕ) (peMapping : ℕ → ℕ) : Dissemination (ℕ × ℕ) where
  size := teamSize
  more r := decide ((teamSize - 1) / kval teamSize ^ r ≠ 0)
  acts r := decide (1 ≤ kval teamSize - 1 ∧ kval teamSize ^ r < teamSize)
  target myPe r := (peMapping ((myPe + kval teamSize ^ r) % teamSize), myPe)
  source myPe r := (peMapping myPe,
    -- `from_nbr_idx`, plus the size of the team when it is negative
    if myPe < kval teamSize ^ r then myPe + teamSize - kval teamSize ^ r
    else myPe - kval teamSize ^ r)
  cell myPe := peMapping myPe
  storeFirst := false

/-- `aclshmemi_barrier_cross_host`: the counter is stored first, and a signal is an RDMA write of
the counter word. -/
def crossHost (team : TeamShape) : Dissemination (ℕ × ℕ) where
  size := team.size
  more r := decide (2 ^ r < team.size)
  acts _ := true
  target myPeInTeam r := (team.pe ((myPeInTeam + 2 ^ r) % team.size), myPeInTeam)
  source myPeInTeam r := (team.pe myPeInTeam, (myPeInTeam + team.size - 2 ^ r) % team.size)
  cell myPeInTeam := team.pe myPeInTeam
  storeFirst := true

theorem kval_eq (teamSize : ℕ) : kval teamSize = 2 := by
  unfold kval
  omega

theorem TeamShape.pe_inj {team : TeamShape} (h : 0 < team.stride) {i j : ℕ}
    (heq : team.pe i = team.pe j) : i = j := by
  have hplace := congrArg team.place heq
  rwa [place_pe h, place_pe h] at hplace

/-- With at most 48 cores the six slots of a core are enough. -/
theorem round_lt_log {blockDim r : ℕ} (h : blockDim ≤ maxAivPerNpu) (hr : 2 ^ r < blockDim) :
    r < logMaxAivPerNpu := by
  by_contra hge
  have hpow : 2 ^ 6 ≤ 2 ^ r := Nat.pow_le_pow_right (by norm_num) (not_lt.mp hge)
  have hmax : blockDim ≤ 48 := h
  omega

/-- The barrier of the cores runs the algorithm, for as many cores as have slots. -/
theorem coreSoft_lawful {blockDim : ℕ} (hpos : 0 < blockDim) (h : blockDim ≤ maxAivPerNpu) :
    (coreSoft blockDim).Lawful := by
  constructor
  · exact hpos
  · exact fun r => decide_eq_true_iff
  · exact fun _ _ => rfl
  · exact fun _ _ _ _ => rfl
  · intro p _ q _ r k hr hk heq
    have hr' : r < 6 := round_lt_log h hr
    have hk' : k < 6 := round_lt_log h hk
    have heq : p * 6 + r = q * 6 + k := heq
    omega
  · exact fun hfirst => absurd hfirst (by simp [coreSoft])

/-- `aclshmemi_barrier_npu_v1` runs the algorithm. -/
theorem npuV1_lawful {team : TeamShape} (hpos : 0 < team.size) (hstride : 0 < team.stride) :
    (npuV1 team).Lawful := by
  constructor
  · exact hpos
  · exact fun r => decide_eq_true_iff
  · exact fun _ _ => rfl
  · exact fun _ _ _ _ => rfl
  · intro p _ q _ r k _ _ heq
    exact ⟨TeamShape.pe_inj hstride (Prod.mk.inj heq).1, (Prod.mk.inj heq).2⟩
  · exact fun hfirst => absurd hfirst (by simp [npuV1])

/-- Going back `x` places and forward again. -/
theorem back_eq {p x size : ℕ} (hp : p < size) (hx : x < size) :
    ((p + x) % size + size - x) % size = p := by
  rcases Nat.lt_or_ge (p + x) size with hlt | hge
  · rw [Nat.mod_eq_of_lt hlt]
    have hsum : p + x + size - x = p + size := by omega
    rw [hsum, Nat.add_mod_right, Nat.mod_eq_of_lt hp]
  · have hwrap : (p + x) % size = p + x - size := by
      rw [Nat.mod_eq_sub_mod hge, Nat.mod_eq_of_lt (by omega)]
    have hsum : p + x - size + size - x = p := by omega
    rw [hwrap, hsum, Nat.mod_eq_of_lt hp]

/-- Going back different ways ends at different places. -/
theorem back_inj {p x y size : ℕ} (hp : p < size) (hx : x < size) (hy : y < size)
    (h : (p + size - x) % size = (p + size - y) % size) : x = y := by
  have hback : ∀ {z : ℕ}, z < size → (p + size - z) % size = if z ≤ p then p - z
      else p + size - z := by
    intro z hz
    split
    · rw [show p + size - z = p - z + size by omega, Nat.add_mod_right, Nat.mod_eq_of_lt (by omega)]
    · exact Nat.mod_eq_of_lt (by omega)
  rw [hback hx, hback hy] at h
  split at h <;> split at h <;> omega

/-- The neighbour that a PE waits for in a round, without the case distinction. -/
theorem npuV2_source {teamSize p r : ℕ} {peMapping : ℕ → ℕ} (hp : p < teamSize) (hr : 2 ^ r < teamSize) :
    (npuV2 teamSize peMapping).source p r = (peMapping p, (p + teamSize - 2 ^ r) % teamSize) := by
  unfold npuV2
  dsimp only
  rw [kval_eq]
  split
  · rw [Nat.mod_eq_of_lt (by omega)]
  · have hlt : p - 2 ^ r < teamSize := (Nat.sub_le p _).trans_lt hp
    rw [show p + teamSize - 2 ^ r = p - 2 ^ r + teamSize by omega, Nat.add_mod_right,
      Nat.mod_eq_of_lt hlt]

/-- `aclshmemi_barrier_npu_v2` runs the algorithm. -/
theorem npuV2_lawful {teamSize : ℕ} {peMapping : ℕ → ℕ} (hpos : 0 < teamSize)
    (hmapping : ∀ i < teamSize, ∀ j < teamSize, peMapping i = peMapping j → i = j) :
    (npuV2 teamSize peMapping).Lawful := by
  constructor
  · exact hpos
  · intro r
    show decide ((teamSize - 1) / kval teamSize ^ r ≠ 0) = true ↔ 2 ^ r < teamSize
    rw [decide_eq_true_iff, kval_eq, ne_eq, Nat.div_eq_zero_iff]
    have hpow : 0 < 2 ^ r := Nat.pow_pos (by norm_num)
    omega
  · intro r hr
    show decide (1 ≤ kval teamSize - 1 ∧ kval teamSize ^ r < teamSize) = true
    rw [kval_eq, decide_eq_true_iff]
    exact ⟨le_rfl, hr⟩
  · intro p hp r hr
    have hr : 2 ^ r < teamSize := hr
    show (peMapping ((p + kval teamSize ^ r) % teamSize), p) =
      (npuV2 teamSize peMapping).source ((p + 2 ^ r) % teamSize) r
    have hp : p < teamSize := hp
    rw [npuV2_source (Nat.mod_lt _ hpos) hr, kval_eq, back_eq hp hr]
  · intro p hp q hq r k hr hk heq
    have hp : p < teamSize := hp
    have hq : q < teamSize := hq
    have hr : 2 ^ r < teamSize := hr
    have hk : 2 ^ k < teamSize := hk
    rw [npuV2_source hp hr, npuV2_source hq hk, Prod.mk.injEq] at heq
    have hpq := hmapping p hp q hq heq.1
    rw [← hpq] at heq
    exact ⟨hpq, Nat.pow_right_injective le_rfl (back_inj hp hr hk heq.2)⟩
  · exact fun hfirst => absurd hfirst (by simp [npuV2])

/-- `aclshmemi_barrier_cross_host` runs the algorithm. -/
theorem crossHost_lawful {team : TeamShape} (hpos : 0 < team.size) (hstride : 0 < team.stride) :
    (crossHost team).Lawful := by
  constructor
  · exact hpos
  · exact fun r => decide_eq_true_iff
  · exact fun _ _ => rfl
  · intro p hp r hr
    show (team.pe ((p + 2 ^ r) % team.size), p) = (team.pe ((p + 2 ^ r) % team.size),
      ((p + 2 ^ r) % team.size + team.size - 2 ^ r) % team.size)
    have hp : p < team.size := hp
    rw [back_eq hp hr]
  · intro p hp q hq r k hr hk heq
    have hpq := TeamShape.pe_inj hstride (Prod.mk.inj heq).1
    rw [← hpq] at heq
    exact ⟨hpq, Nat.pow_right_injective le_rfl (back_inj hp hr hk (Prod.mk.inj heq).2)⟩
  · exact fun _ p _ q _ heq => TeamShape.pe_inj hstride heq

/-- In every run of each of the four barriers, with any number of participants, nobody completes a
barrier that somebody has not entered, everybody counts alike, and a flag waited on is at most one
ahead of the count. -/
theorem dissemination_barriers_safe :
    (∀ (blockDim : ℕ), 0 < blockDim → blockDim ≤ maxAivPerNpu → ∀ schedule s,
      (coreSoft blockDim).run (.init ℕ) schedule = some s → (coreSoft blockDim).Safe s) ∧
    (∀ (team : TeamShape), 0 < team.size → 0 < team.stride → ∀ schedule s,
      (npuV1 team).run (.init (ℕ × ℕ)) schedule = some s → (npuV1 team).Safe s) ∧
    (∀ (teamSize : ℕ) (peMapping : ℕ → ℕ), 0 < teamSize →
      (∀ i < teamSize, ∀ j < teamSize, peMapping i = peMapping j → i = j) → ∀ schedule s,
      (npuV2 teamSize peMapping).run (.init (ℕ × ℕ)) schedule = some s →
      (npuV2 teamSize peMapping).Safe s) ∧
    (∀ (team : TeamShape), 0 < team.size → 0 < team.stride → ∀ schedule s,
      (crossHost team).run (.init (ℕ × ℕ)) schedule = some s → (crossHost team).Safe s) :=
  ⟨fun _ hpos hle _ _ hrun => (coreSoft_lawful hpos hle).safe_of_run hrun,
    fun _ hpos hstride _ _ hrun => (npuV1_lawful hpos hstride).safe_of_run hrun,
    fun _ _ hpos hmapping _ _ hrun => (npuV2_lawful hpos hmapping).safe_of_run hrun,
    fun _ hpos hstride _ _ hrun => (crossHost_lawful hpos hstride).safe_of_run hrun⟩

/-- Three cores, and three PEs at 1, 3 and 5, in the middle of their first barrier. -/
theorem dissemination_barriers_safe_sample :
    (∃ s, (coreSoft 3).run (.init ℕ) [0, 1, 0, 1, 0, 1, 1, 1] = some s ∧ (coreSoft 3).Safe s) ∧
    (∃ s, (npuV1 ⟨1, 2, 3⟩).run (.init (ℕ × ℕ)) [0, 1, 0, 1, 0, 1, 1, 1] = some s ∧
      (npuV1 ⟨1, 2, 3⟩).Safe s) ∧
    (∃ s, (npuV2 3 fun i => 1 + 2 * i).run (.init (ℕ × ℕ)) [0, 1, 0, 1, 0, 1, 1, 1] = some s ∧
      (npuV2 3 fun i => 1 + 2 * i).Safe s) ∧
    (∃ s, (crossHost ⟨1, 2, 3⟩).run (.init (ℕ × ℕ)) [0, 1, 0, 1, 0, 1, 1, 1] = some s ∧
      (crossHost ⟨1, 2, 3⟩).Safe s) := by
  have hcore : ((coreSoft 3).run (.init ℕ) [0, 1, 0, 1, 0, 1, 1, 1]).isSome := by decide
  have hv1 : ((npuV1 ⟨1, 2, 3⟩).run (.init (ℕ × ℕ)) [0, 1, 0, 1, 0, 1, 1, 1]).isSome := by decide
  have hv2 : ((npuV2 3 fun i => 1 + 2 * i).run (.init (ℕ × ℕ)) [0, 1, 0, 1, 0, 1, 1, 1]).isSome := by
    decide
  have hcross : ((crossHost ⟨1, 2, 3⟩).run (.init (ℕ × ℕ)) [0, 1, 0, 1, 0, 1, 1, 1]).isSome := by
    decide
  rcases Option.isSome_iff_exists.mp hcore with ⟨s₁, h₁⟩
  rcases Option.isSome_iff_exists.mp hv1 with ⟨s₂, h₂⟩
  rcases Option.isSome_iff_exists.mp hv2 with ⟨s₃, h₃⟩
  rcases Option.isSome_iff_exists.mp hcross with ⟨s₄, h₄⟩
  have hall := dissemination_barriers_safe
  exact ⟨⟨s₁, h₁, hall.1 3 (by decide) (by decide) _ s₁ h₁⟩,
    ⟨s₂, h₂, hall.2.1 _ (by decide) (by decide) _ s₂ h₂⟩,
    ⟨s₃, h₃, hall.2.2.1 _ _ (by decide) (by decide) _ s₃ h₃⟩,
    ⟨s₄, h₄, hall.2.2.2 _ (by decide) (by decide) _ s₄ h₄⟩⟩

end AscendShmem.Barriers
