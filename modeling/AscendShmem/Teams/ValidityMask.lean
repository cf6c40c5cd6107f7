import Mathlib
import AscendShmem.Teams.SplitArithmetic

/-!
# The mask of the valid teams

The pool has 2048 entries and the mask 64 bits. As long as a PE stays with the teams the mask has
bits for, the valid teams are the live ones. `is_valid_team` shifts the mask by any team number
below 2048, and `first_free_idx_fetch` goes on to the sixty-fifth entry when 64 are in use.
-/

namespace AscendShmem.Teams

/-- A split comes to `first_free_idx_fetch`. -/
def Fetches (s : PeState) (call : SplitCall) : Prop :=
  ∃ myTeam newTeam, s.prepare call.args call.host call.newTeam = some (.builds myTeam newTeam)

/-- A split looks its parent up. -/
def LooksUp (s : PeState) (call : SplitCall) : Prop := s.instanceId = 0 ∧ call.newTeam ≠ none

/-- What the mask has to do for a call. `isValidTeam` and `firstFreeIdxFetch` are defined where they
shift by less than 64. A split finds the pool full only if all its entries are in use, and a
destroy leaves the other teams alone. -/
def MaskMeets (l : Ledger) : TeamCall → Prop
  | .split call =>
    (LooksUp l.state call → l.state.isValidTeam call.args.parentTeam ≠ none) ∧
      (Fetches l.state call → ∃ r, firstFreeIdxFetch l.state.teamMask = some r ∧
        (r.1 = -1 → ∀ t : ℤ, 0 ≤ t → t < maxTeams → t ∈ l.live))
  | .destroy team => ∃ s, l.state.destroy team = some s ∧
      ∀ t, t ≠ team → s.isValidTeam t = l.state.isValidTeam t

/-- The mask has a bit for the team, or the team is out of range altogether. -/
def HasBit (team : ℤ) : Prop := team < 64 ∨ maxTeams ≤ team

/-- The teams of the call have bits, and one of the first 64 teams is not live when a split takes an
index. -/
def MaskFits (l : Ledger) : TeamCall → Prop
  | .split call =>
    (LooksUp l.state call → HasBit call.args.parentTeam) ∧
      (Fetches l.state call → ∃ t : ℤ, 0 ≤ t ∧ t < 64 ∧ t ∉ l.live)
  | .destroy team => HasBit team

/-- A team with a bit is valid exactly if it is live. -/
theorem Ledger.Sound.isValidTeam_eq {l : Ledger} (h : l.Sound) {t : ℤ} (ht : HasBit t) :
    l.state.isValidTeam t = some (decide (t ∈ l.live)) := by
  by_cases hlive : t ∈ l.live
  · rw [h.isValidTeam_iff.mpr hlive, decide_eq_true hlive]
  rw [decide_eq_false hlive]
  unfold PeState.isValidTeam
  by_cases hrange : 0 ≤ t ∧ t < maxTeams
  · have hlt : t < 64 := by
      rcases ht with hlt | hge
      · exact hlt
      · omega
    have hclear : l.state.teamMask.getLsbD t.toNat = false := by
      rw [← Bool.not_eq_true, h.used t hrange.1 hlt]
      exact hlive
    rw [if_pos ⟨h.initialized, h.poolAllocated, hrange⟩, maskBit_eq_some]
    exact ⟨⟨hrange.1, hlt⟩, hclear⟩
  · rw [if_neg fun hall => hrange hall.2.2]

/-- Only those with a bit can be asked about. -/
theorem Ledger.Sound.isValidTeam_ne_none_iff {l : Ledger} (h : l.Sound) {t : ℤ} :
    l.state.isValidTeam t ≠ none ↔ HasBit t := by
  constructor
  · intro hdefined
    by_contra hbit
    simp only [HasBit, not_or, not_lt, not_le] at hbit
    apply hdefined
    unfold PeState.isValidTeam maskBit
    rw [if_pos ⟨h.initialized, h.poolAllocated, by omega, hbit.2⟩, if_neg (by omega)]
  · intro hbit
    rw [h.isValidTeam_eq hbit]
    exact Option.some_ne_none _

/-- The search for a free entry stops at the first clear bit. -/
theorem firstFreeFrom_of_clear {mask : BitVec 64} {t : ℤ} (ht : 0 ≤ t) (hlt : t < 64)
    (hclear : mask.getLsbD t.toNat = false) {fuel : ℕ} {i : ℤ} (hi : 0 ≤ i) (hle : i ≤ t)
    (hfuel : t < i + fuel) : ∃ r, firstFreeFrom mask fuel i = some r := by
  induction fuel generalizing i with
  | zero =>
    have hbefore : t < i := by simpa using hfuel
    omega
  | succ fuel ih =>
    rw [firstFreeFrom, maskBit, if_pos ⟨hi, by omega⟩]
    push_cast at hfuel
    cases hbit : mask.getLsbD i.toNat with
    | false => exact ⟨(i, mask ||| bit i), rfl⟩
    | true =>
      have hne : i ≠ t := by
        intro heq
        rw [heq, hclear] at hbit
        cases hbit
      exact ih (by omega) (by omega) (by omega)

theorem firstFreeIdxFetch_of_clear {mask : BitVec 64} {t : ℤ} (ht : 0 ≤ t) (hlt : t < 64)
    (hclear : mask.getLsbD t.toNat = false) : ∃ r, firstFreeIdxFetch mask = some r :=
  firstFreeFrom_of_clear ht hlt hclear le_rfl ht (by norm_num [maxTeams]; omega)

/-- An index is found exactly if one is free. -/
theorem Ledger.Sound.fetch_iff {l : Ledger} (h : l.Sound) :
    (∃ r, firstFreeIdxFetch l.state.teamMask = some r) ↔
      ∃ t : ℤ, 0 ≤ t ∧ t < 64 ∧ t ∉ l.live := by
  constructor
  · intro hfetch
    rcases hfetch with ⟨r, hr⟩
    have hclear := (firstFreeIdxFetch_eq_some hr).1
    exact ⟨r.1, hclear.nonneg, hclear.lt, not_live_of_clear h hclear⟩
  · intro hfree
    rcases hfree with ⟨t, ht, hlt, hdead⟩
    have hclear : l.state.teamMask.getLsbD t.toNat = false := by
      rw [← Bool.not_eq_true, h.used t ht hlt]
      exact hdead
    exact firstFreeIdxFetch_of_clear ht hlt hclear

/-- A destroy with a bit for its team takes that team out and no other. -/
theorem Ledger.Sound.destroy_keeps {l : Ledger} (h : l.Sound) {team : ℤ} (hteam : HasBit team) :
    ∃ s, l.state.destroy team = some s ∧
      ∀ t, t ≠ team → s.isValidTeam t = l.state.isValidTeam t := by
  have hdestroy : ∃ s, l.state.destroy team = some s := by
    have hvalid := h.isValidTeam_eq hteam
    by_cases hlive : team ∈ l.live
    · rw [decide_eq_true hlive] at hvalid
      exact ⟨_, destroy_of_valid hvalid⟩
    · rw [decide_eq_false hlive] at hvalid
      exact ⟨_, destroy_of_invalid hvalid⟩
  rcases hdestroy with ⟨s, hs⟩
  have hsound := h.destroy hs
  refine ⟨s, hs, fun t hne => ?_⟩
  by_cases hbit : HasBit t
  · have hafter := hsound.isValidTeam_eq hbit
    rw [h.isValidTeam_eq hbit]
    rw [show s.isValidTeam t = _ from hafter, Option.some_inj, decide_eq_decide]
    exact Finset.mem_erase.trans (and_iff_right hne)
  · -- no bit before, none after
    have hbefore := mt h.isValidTeam_ne_none_iff.mp hbit
    have hafter := mt hsound.isValidTeam_ne_none_iff.mp hbit
    rw [not_ne_iff] at hbefore hafter
    rw [hbefore]
    exact hafter

/-- A call meets the claim of the mask exactly if it fits in the mask. -/
theorem Ledger.Sound.maskMeets_iff (l : Ledger) (call : TeamCall) (h : l.Sound) :
    MaskMeets l call ↔ MaskFits l call := by
  cases call with
  | split call =>
    apply and_congr
    · exact imp_congr_right fun _ => h.isValidTeam_ne_none_iff
    · apply imp_congr_right
      intro _
      rw [← h.fetch_iff]
      apply exists_congr
      intro r
      apply and_iff_left_of_imp
      -- the index is a bit of the mask
      intro hr hfull
      have hnonneg := (firstFreeIdxFetch_eq_some hr).1.nonneg
      omega
  | destroy team =>
    constructor
    · intro hmeets
      rcases hmeets with ⟨s, hs, -⟩
      rw [PeState.destroy, Option.bind_eq_bind, Option.bind_eq_some_iff] at hs
      rcases hs with ⟨valid, hvalid, -⟩
      apply h.isValidTeam_ne_none_iff.mp
      rw [hvalid]
      exact Option.some_ne_none _
    · exact h.destroy_keeps

/-! ## Finalizing -/

/-- The loop of `aclshmemi_team_finalize` over the teams from `i` on. -/
def PeState.finalizeFrom (s : PeState) : ℕ → ℤ → Option PeState
  | 0, _ => some s
  | fuel + 1, i => do
    let valid ← s.isValidTeam i
    let s ← if valid then s.destroy i else some s
    s.finalizeFrom fuel (i + 1)

/-- The teams `aclshmemi_team_finalize` destroys. -/
def PeState.finalizeTeams (s : PeState) : Option PeState :=
  s.finalizeFrom (if s.instanceId = 0 then maxTeams else 1) 0

/-- Finalizing asks for every entry of the pool, so it always shifts by 64. -/
theorem Ledger.Sound.finalize_shifts {l : Ledger} (h : l.Sound) :
    l.state.finalizeTeams = none := by
  have hloop : ∀ (fuel : ℕ) (i : ℤ) (l : Ledger), l.Sound → 0 ≤ i → i ≤ 64 → 64 < i + fuel →
      l.state.finalizeFrom fuel i = none := by
    intro fuel
    induction fuel with
    | zero =>
      intro i l _ _ hle hfuel
      have hlt : 64 < i := by simpa using hfuel
      omega
    | succ fuel ih =>
      intro i l h hi hle hfuel
      push_cast at hfuel
      rw [PeState.finalizeFrom]
      by_cases heq : i = 64
      · have hshift : l.state.isValidTeam 64 = none := by
          apply not_ne_iff.mp
          rw [h.isValidTeam_ne_none_iff]
          unfold HasBit
          decide
        rw [heq, hshift]
        rfl
      · have hbit : HasBit i := Or.inl (by omega)
        rw [h.isValidTeam_eq hbit]
        by_cases hlive : i ∈ l.live
        · rcases h.destroy_keeps hbit with ⟨s, hs, -⟩
          rw [decide_eq_true hlive]
          simp only [Option.bind_eq_bind, Option.bind_some, if_true, hs]
          exact ih (i + 1) _ (h.destroy hs) (by omega) (by omega) (by omega)
        · rw [decide_eq_false hlive]
          exact ih (i + 1) l h (by omega) (by omega) (by omega)
  rw [PeState.finalizeTeams, if_pos h.single]
  exact hloop maxTeams 0 l h le_rfl (by norm_num) (by norm_num [maxTeams])

/-! ## Every history -/

/-- After any run, a team number in the pool is valid or not as the ledger says exactly if the mask
has a bit for it; and over any history the mask does what it should for every call exactly if the
calls fit the mask. -/
theorem validity_mask_iff {rank size : ℤ} {l l' : Ledger} {calls : List TeamCall}
    (hrank : 0 ≤ rank) (hlt : rank < size) (hsize : size ≤ maxPes)
    (hinit : Ledger.init rank size = some l) :
    (l.EachCall MaskMeets calls ↔ l.EachCall MaskFits calls) ∧
      (l.run calls = some l' → ∀ t : ℤ, 0 ≤ t → t < maxTeams →
        (l'.state.isValidTeam t = some (decide (t ∈ l'.live)) ↔ t < 64)) := by
  have hsound := sound_init hrank hlt hsize hinit
  constructor
  · exact hsound.eachCall_iff Ledger.Sound.maskMeets_iff calls
  · intro hrun t ht htlt
    have hafter := hsound.run hrun
    constructor
    · intro hvalid
      rcases hafter.isValidTeam_ne_none_iff.mp (by rw [hvalid]; exact Option.some_ne_none _) with
        hbit | hout
      · exact hbit
      · omega
    · exact fun hbit => hafter.isValidTeam_eq (Or.inl hbit)

/-- A world of one PE splits twice and destroys the first team. -/
theorem validity_mask_iff_sample : ∃ l l', Ledger.init 0 1 = some l ∧
    l.run (twoSplits ++ [.destroy 1]) = some l' ∧
    (l.EachCall MaskMeets (twoSplits ++ [.destroy 1]) ↔
      l.EachCall MaskFits (twoSplits ++ [.destroy 1])) ∧
    ∀ t : ℤ, 0 ≤ t → t < maxTeams →
      (l'.state.isValidTeam t = some (decide (t ∈ l'.live)) ↔ t < 64) := by
  have hsome : ((Ledger.init 0 1).bind fun l => l.run (twoSplits ++ [.destroy 1])).isSome := by
    decide +kernel
  rcases Option.isSome_iff_exists.mp hsome with ⟨l', hl'⟩
  rcases Option.bind_eq_some_iff.mp hl' with ⟨l, hl, hrun⟩
  have hiff := @validity_mask_iff 0 1 l l' (twoSplits ++ [.destroy 1]) (by decide) (by decide)
    (by decide +kernel) hl
  exact ⟨l, l', hl, hrun, hiff.1, hiff.2 hrun⟩

/-- Destroying team 64, which was never split off, shifts the mask by 64. -/
theorem destroy_shifts_by_64 : ¬ ∀ (rank size : ℤ) (l : Ledger) (calls : List TeamCall),
    0 ≤ rank → rank < size → size ≤ maxPes → Ledger.init rank size = some l →
    l.EachCall MaskMeets calls ∧ ∀ l', l.run calls = some l' → ∀ t : ℤ, 0 ≤ t → t < maxTeams →
      l'.state.isValidTeam t = some (decide (t ∈ l'.live)) := by
  intro hclaim
  have hshift : (Ledger.init 0 1).map (fun l => (l.state.destroy 64).isNone) = some true := by
    decide +kernel
  rcases Option.map_eq_some_iff.mp hshift with ⟨l, hl, hnone⟩
  have hmeets := (hclaim 0 1 l [.destroy 64] (by decide) (by decide) (by decide +kernel) hl).1.1
  rcases hmeets with ⟨s, hs, -⟩
  rw [hs] at hnone
  cases hnone

end AscendShmem.Teams
