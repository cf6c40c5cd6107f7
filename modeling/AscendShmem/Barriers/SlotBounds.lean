import Mathlib
import AscendShmem.Barriers.Centralized
import AscendShmem.Teams.Manager

/-!
# Where the barriers of a team read and write

Every team owns `SYNC_ARRAY_SIZE` bytes of `sync_pool`, sized by a logarithm of the number of PEs.
`aclshmemi_barrier_npu_v1` uses one slot a round and `aclshmemi_barrier_npu_v3` one slot, while
`aclshmemi_barrier_npu_v2` and `aclshmemi_barrier_cross_host` number their slots by the members of
the team.
-/

namespace AscendShmem.Barriers

open Lib

/-! ## The pools -/

/-- `ACLSHMEM_SYNCBIT_SIZE` -/
def syncbitSize : ℕ := 64

/-- `SYNC_LOG_MAX_PES` -/
def syncLogMaxPes : ℕ := 5

/-- `SYNC_ARRAY_SIZE` -/
def syncArraySize : ℕ := syncbitSize * syncLogMaxPes * barrierTgDissemKval

/-- `SYNC_POOL_SIZE` -/
def syncPoolSize : ℕ := syncArraySize * Teams.maxTeams

/-- `ACLSHMEM_CORE_SYNC_POOL_SIZE` -/
def coreSyncPoolSize : ℕ := maxAivPerNpu * logMaxAivPerNpu * syncbitSize

/-- Where slot `slot` of a team begins, in bytes behind the beginning of the pool: pointer
arithmetic on what `aclshmemi_get_team_sync_pool` returns. -/
def slotOffset (teamIdx slot : ℕ) : ℕ := teamIdx * syncArraySize + slot * syncbitSize

/-- The slot lies in the part of the pool that belongs to the team. -/
def InTeam (teamIdx slot : ℕ) : Prop :=
  teamIdx * syncArraySize ≤ slotOffset teamIdx slot ∧
    slotOffset teamIdx slot + syncbitSize ≤ (teamIdx + 1) * syncArraySize

/-- A team has forty slots. -/
theorem inTeam_iff {teamIdx slot : ℕ} : InTeam teamIdx slot ↔ slot < 40 := by
  unfold InTeam slotOffset syncArraySize syncbitSize syncLogMaxPes barrierTgDissemKval
  omega

/-- A slot inside the part of a team is inside the pool. -/
theorem InTeam.inPool {teamIdx slot : ℕ} (h : InTeam teamIdx slot)
    (hteam : teamIdx < Teams.maxTeams) : slotOffset teamIdx slot + syncbitSize ≤ syncPoolSize := by
  have hbound : (teamIdx + 1) * syncArraySize ≤ Teams.maxTeams * syncArraySize :=
    Nat.mul_le_mul_right _ hteam
  have hpool : syncPoolSize = Teams.maxTeams * syncArraySize := Nat.mul_comm _ _
  rw [hpool]
  exact h.2.trans hbound

/-- Slots of two teams do not overlap. -/
theorem InTeam.apart {i j slot slot' : ℕ} (h : InTeam i slot) (h' : InTeam j slot') (hne : i ≠ j) :
    slotOffset i slot + syncbitSize ≤ slotOffset j slot' ∨
      slotOffset j slot' + syncbitSize ≤ slotOffset i slot := by
  rw [inTeam_iff] at h h'
  unfold slotOffset syncArraySize syncbitSize syncLogMaxPes barrierTgDissemKval
  omega

namespace Centralized

variable (b : Centralized)

/-- The slot that the next step of a core writes or reads, with its PE: always the first one of the
team. -/
def touches (s : State) (x : ℕ × ℕ) : Option (ℕ × ℕ) :=
  match (s.core x).phase with
  | .loop _ i =>
    if i < b.team.size then
      if i = b.team.place (b.team.pe x.1) then some (b.team.pe x.1, 0) else some (b.team.pe i, 0)
    else none
  | _ => none

/-- Some core comes to a step that writes or reads the slot. -/
def Touched (slot : ℕ × ℕ) : Prop :=
  ∃ schedule s x, b.run .init schedule = some s ∧ x.1 < b.team.size ∧ x.2 < b.vecSize x.1 ∧
    b.touches s x = some slot

/-- The centralized barrier touches the first slot only. -/
theorem Touched.eq_zero {slot : ℕ × ℕ} (h : b.Touched slot) : slot.2 = 0 := by
  obtain ⟨_, s, x, _, _, _, htouch⟩ := h
  unfold touches at htouch
  split at htouch
  · split at htouch
    · split at htouch <;> rw [← Option.some.inj htouch]
    · cases htouch
  · cases htouch

end Centralized

/-! ## The slots of each barrier -/

section Slots

variable {team : TeamShape} {slot : ℕ × ℕ}

/-- A round of a world of at most `2 ^ 14` PEs. -/
theorem round_lt_of_pow {size r : ℕ} (hsize : (size : ℤ) ≤ Teams.maxPes) (hr : 2 ^ r < size) :
    r < 14 := by
  have hmax : size ≤ 2 ^ 14 := by
    unfold Teams.maxPes at hsize
    omega
  exact (Nat.pow_lt_pow_iff_right (by norm_num)).mp (hr.trans_le hmax)

/-- One slot a round: 14 rounds at most, for the greatest number of PEs. -/
theorem npuV1_slot (hsize : (team.size : ℤ) ≤ Teams.maxPes) (h : (npuV1 team).Touched slot) :
    slot.2 < 40 := by
  obtain ⟨p, hp, r, hmore, -, hslot⟩ := h.eq_target_or_source
  have hr : r < 14 := round_lt_of_pow hsize (of_decide_eq_true hmore)
  have hslot2 : slot.2 = r := by
    rcases hslot with hslot | hslot <;> rw [hslot] <;> rfl
  omega

/-- One slot for each member of the team. -/
theorem npuV2_slot {teamSize : ℕ} {peMapping : ℕ → ℕ}
    (h : (npuV2 teamSize peMapping).Touched slot) : slot.2 < teamSize := by
  obtain ⟨p, hp, r, -, hacts, hslot⟩ := h.eq_target_or_source
  have hp : p < teamSize := hp
  have hr : 2 ^ r < teamSize := by
    have hacts := (of_decide_eq_true hacts).2
    rwa [kval_eq] at hacts
  rcases hslot with hslot | hslot
  · rw [hslot]
    exact hp
  · rw [hslot, npuV2_source hp hr]
    exact Nat.mod_lt _ (by omega)

/-- One slot for each member of the team. -/
theorem crossHost_slot (h : (crossHost team).Touched slot) : slot.2 < team.size := by
  obtain ⟨p, hp, r, -, -, hslot⟩ := h.eq_target_or_source
  have hp : p < team.size := hp
  rcases hslot with hslot | hslot
  · rw [hslot]
    exact hp
  · rw [hslot]
    exact Nat.mod_lt _ (by omega)

/-- In a team of more than one PE everybody's own number is a slot. -/
theorem npuV2_touched {teamSize p : ℕ} {peMapping : ℕ → ℕ} (hsize : 1 < teamSize)
    (hp : p < teamSize) : ∃ pe, (npuV2 teamSize peMapping).Touched (pe, p) := by
  refine ⟨_, Dissemination.touched_target_zero hp ?_ ?_⟩
  · show decide ((teamSize - 1) / kval teamSize ^ 0 ≠ 0) = true
    rw [pow_zero, Nat.div_one]
    exact decide_eq_true (by omega)
  · show decide (1 ≤ kval teamSize - 1 ∧ kval teamSize ^ 0 < teamSize) = true
    rw [kval_eq, pow_zero]
    exact decide_eq_true ⟨le_rfl, hsize⟩

/-- Every member's slot is touched. -/
theorem crossHost_touched {p : ℕ} (hsize : 1 < team.size) (hp : p < team.size) :
    ∃ pe, (crossHost team).Touched (pe, p) := by
  refine ⟨_, Dissemination.touched_target_zero hp ?_ rfl⟩
  show decide (2 ^ 0 < team.size) = true
  rw [pow_zero]
  exact decide_eq_true hsize

/-- The slots of 48 cores are inside the pool of the cores. -/
theorem coreSoft_slot {blockDim slot : ℕ} (hdim : blockDim ≤ maxAivPerNpu)
    (h : (coreSoft blockDim).Touched slot) : slot < maxAivPerNpu * logMaxAivPerNpu := by
  obtain ⟨p, hp, r, hmore, -, hslot⟩ := h.eq_target_or_source
  have hp : p < blockDim := hp
  have hr : r < 6 := round_lt_log hdim (of_decide_eq_true hmore)
  have hdim : blockDim ≤ 48 := hdim
  have hnext : (p + 2 ^ r) % blockDim < blockDim := Nat.mod_lt _ (by omega)
  show slot < 48 * 6
  rcases hslot with hslot | hslot
  · have hslot : slot = (p + 2 ^ r) % blockDim * 6 + r := hslot
    omega
  · have hslot : slot = p * 6 + r := hslot
    omega

end Slots

/-- Barriers that number their slots by members keep to the slots of the team exactly when it has
at most forty of them. -/
theorem forall_inTeam_iff {touched : ℕ × ℕ → Prop} {teamIdx size : ℕ}
    (hlt : ∀ slot, touched slot → slot.2 < size)
    (hall : ∀ p, 1 < size → p < size → ∃ pe, touched (pe, p)) :
    (∀ slot, touched slot → InTeam teamIdx slot.2) ↔ size ≤ 40 := by
  constructor
  · intro h
    by_contra hbig
    obtain ⟨pe, htouch⟩ := hall 40 (by omega) (by omega)
    exact absurd (inTeam_iff.mp (h _ htouch)) (lt_irrefl 40)
  · intro hsize slot htouch
    exact inTeam_iff.mpr ((hlt slot htouch).trans_le hsize)

/-- `aclshmemi_barrier_npu_v1` and `aclshmemi_barrier_npu_v3` keep to the slots of their team, and
`aclshmemi_barrier_npu_v2` and `aclshmemi_barrier_cross_host` do if and only if the team has at most
forty members. Slots inside their teams are inside the pool and apart from each other, and the core
barrier stays in its own pool. -/
theorem barrier_slots_in_team_iff (teamIdx : ℕ) (team : TeamShape)
    (hsize : (team.size : ℤ) ≤ Teams.maxPes) :
    ((∀ slot, (npuV1 team).Touched slot → InTeam teamIdx slot.2) ∧
      (∀ vecSize slot, (Centralized.mk team vecSize).Touched slot → InTeam teamIdx slot.2) ∧
      (∀ peMapping, (∀ slot, (npuV2 team.size peMapping).Touched slot → InTeam teamIdx slot.2) ↔
        team.size ≤ 40) ∧
      ((∀ slot, (crossHost team).Touched slot → InTeam teamIdx slot.2) ↔ team.size ≤ 40)) ∧
    (∀ i j slot slot', InTeam i slot → InTeam j slot' →
      (i < Teams.maxTeams → slotOffset i slot + syncbitSize ≤ syncPoolSize) ∧
      (i ≠ j → slotOffset i slot + syncbitSize ≤ slotOffset j slot' ∨
        slotOffset j slot' + syncbitSize ≤ slotOffset i slot)) ∧
    (∀ blockDim ≤ maxAivPerNpu, ∀ slot, (coreSoft blockDim).Touched slot →
      slot * syncbitSize + syncbitSize ≤ coreSyncPoolSize) := by
  refine ⟨?_, ?_, ?_⟩
  · refine ⟨?_, ?_, ?_, ?_⟩
    · intro slot htouch
      exact inTeam_iff.mpr (npuV1_slot hsize htouch)
    · intro vecSize slot htouch
      rw [htouch.eq_zero, inTeam_iff]
      norm_num
    · intro peMapping
      exact forall_inTeam_iff (fun slot => npuV2_slot) fun p hone hp => npuV2_touched hone hp
    · exact forall_inTeam_iff (fun slot => crossHost_slot) fun p hone hp => crossHost_touched hone hp
  · intro i j slot slot' h h'
    exact ⟨h.inPool, h.apart h'⟩
  · intro blockDim hdim slot htouch
    have hslot := coreSoft_slot hdim htouch
    unfold coreSyncPoolSize syncbitSize
    omega

/-- A world of 41 PEs, and the 48 cores of one of them. -/
theorem barrier_slots_in_team_iff_sample :
    ((∀ slot, (crossHost ⟨0, 1, 41⟩).Touched slot → InTeam 0 slot.2) ↔ 41 ≤ 40) ∧
    ((slotOffset 0 39 + syncbitSize ≤ syncPoolSize) ∧
      (slotOffset 0 39 + syncbitSize ≤ slotOffset 1 0 ∨
        slotOffset 1 0 + syncbitSize ≤ slotOffset 0 39)) ∧
    (∀ slot, (coreSoft 48).Touched slot → slot * syncbitSize + syncbitSize ≤ coreSyncPoolSize) :=
  have hall := barrier_slots_in_team_iff 0 ⟨0, 1, 41⟩ (by decide)
  have hslots := hall.2.1 0 1 39 0 (inTeam_iff.mpr (by decide)) (inTeam_iff.mpr (by decide))
  ⟨hall.1.2.2.2, ⟨hslots.1 (by decide), hslots.2 (by decide)⟩, hall.2.2 48 (by decide)⟩

/-- The last PE of a world of 41 enters the barrier between hosts: its signal goes to the first slot
of the next team. -/
theorem crossHost_leaves_team :
    (∃ slot, (crossHost ⟨0, 1, 41⟩).Touched slot ∧ ¬ InTeam 0 slot.2 ∧
      slotOffset 0 slot.2 = slotOffset 1 0) ∧
    (∃ slot, (npuV2 41 id).Touched slot ∧ ¬ InTeam 0 slot.2 ∧
      slotOffset 0 slot.2 = slotOffset 1 0) := by
  have hcross : (crossHost ⟨0, 1, 41⟩).Touched (0, 40) :=
    ⟨[40, 40], _, 40, rfl, by decide, by decide⟩
  have hv2 : (npuV2 41 id).Touched (0, 40) := ⟨[40, 40], _, 40, rfl, by decide, by decide⟩
  exact ⟨⟨_, hcross, by rw [inTeam_iff]; decide, by decide⟩,
    ⟨_, hv2, by rw [inTeam_iff]; decide, by decide⟩⟩

end AscendShmem.Barriers
