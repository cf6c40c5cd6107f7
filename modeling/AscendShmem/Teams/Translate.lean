import Mathlib
import AscendShmem.Teams.Ledger

/-!
# Translating a PE number from one team to another

`aclshmem_team_translate_pe` reads the second half of the mapping of the destination and takes what
it finds for the answer. For a PE outside the destination that is what the mapping held before it
was filled: for a split, the uninitialised stack object the team was built in.
-/

namespace AscendShmem.Teams

/-- `pe_mapping[i]` -/
def load (peMapping : ℤ → ℤ) (i : ℤ) : Option ℤ :=
  if 0 ≤ i ∧ i < 2 * maxPes then some (peMapping i) else none

/-- `aclshmem_team_translate_pe` -/
def PeState.translatePe (s : PeState) (srcTeam srcPe destTeam : ℤ) : Option ℤ := do
  if s.instanceId ≠ 0 then some notSupported
  else
    let srcValid ← s.isValidTeam srcTeam
    if !srcValid then some (-1)
    else
      let destValid ← s.isValidTeam destTeam
      if !destValid then some (-1)
      else if srcPe < 0 ∨ (s.teamPool srcTeam).size ≤ srcPe then some (-1)
      else
        let globalPe ← load (s.teamPool srcTeam).peMapping srcPe
        let inverse ← int32 (globalPe + maxPes)
        load (s.teamPool destTeam).peMapping inverse

/-- Member `i` of the team has the global number `pe`. -/
def Team.HasMember (t : Team) (i pe : ℤ) : Prop := 0 ≤ i ∧ i < t.size ∧ t.peMapping i = pe

/-- `j` is what a translation has to return: the place in `dest` of member `srcPe` of `src`, or
`-1` if there is none. -/
def Translation (src dest : Team) (srcPe j : ℤ) : Prop :=
  (∃ pe, src.HasMember srcPe pe ∧ dest.HasMember j pe) ∨
    (j = -1 ∧ ¬ ∃ pe i, src.HasMember srcPe pe ∧ dest.HasMember i pe)

section

variable {l : Ledger} {src dest : ℤ}

theorem Ledger.Sound.linear (h : l.Sound) (hsrc : src ∈ l.live) :
    (l.state.teamPool src).Linear l.state.npes :=
  h.wellFormed src (h.isValidTeam_iff.mpr hsrc)

/-- The members of a linear team. -/
theorem Team.Linear.hasMember_iff {t : Team} {npes : ℤ} (h : t.Linear npes) {i pe : ℤ} :
    t.HasMember i pe ↔ 0 ≤ i ∧ i < t.size ∧ pe = t.start + i * t.stride := by
  apply and_congr_right
  intro hi
  apply and_congr_right
  intro hlt
  rw [h.mapping i hi hlt]
  exact eq_comm

/-- A member is a PE of the world. -/
theorem Team.Linear.member_range {t : Team} {npes : ℤ} (h : t.Linear npes) {i pe : ℤ}
    (hi : t.HasMember i pe) : 0 ≤ pe ∧ pe < npes := by
  rcases h.hasMember_iff.mp hi with ⟨hnonneg, hlt, heq⟩
  have hpos := h.stride_pos
  have hoffset : 0 ≤ i * t.stride := mul_nonneg hnonneg (by omega)
  have hle : i * t.stride ≤ t.stride * (t.size - 1) := by
    rw [mul_comm]
    exact mul_le_mul_of_nonneg_left (by omega) (by omega)
  rw [heq]
  exact ⟨by linarith [h.start_nonneg], by linarith [h.last]⟩

theorem Team.Linear.first_half {t : Team} {npes : ℤ} (h : t.Linear npes) {i : ℤ}
    (hlt : i < t.size) : i < 2 * maxPes := by
  have hsize := h.size_le
  have hpes : maxPes = 16384 := rfl
  omega

/-- A translation reads the word of the global number in the second half of the destination. -/
theorem Ledger.Sound.translatePe_member (h : l.Sound) (hsrc : src ∈ l.live) (hdest : dest ∈ l.live)
    {srcPe pe : ℤ} (hmember : (l.state.teamPool src).HasMember srcPe pe) :
    l.state.translatePe src srcPe dest
      = some ((l.state.teamPool dest).peMapping (pe + maxPes)) := by
  have hlinear := h.linear hsrc
  have hrange := hlinear.member_range hmember
  have hworld := h.world
  have hpes : maxPes = 16384 := rfl
  rcases hmember with ⟨hnonneg, hlt, heq⟩
  have hload : load (l.state.teamPool src).peMapping srcPe = some pe := by
    rw [load, if_pos ⟨hnonneg, hlinear.first_half hlt⟩, heq]
  have hinverse : int32 (pe + maxPes) = some (pe + maxPes) := if_pos (by omega)
  have hword : load (l.state.teamPool dest).peMapping (pe + maxPes)
      = some ((l.state.teamPool dest).peMapping (pe + maxPes)) := if_pos (by omega)
  rw [PeState.translatePe, if_neg (not_not.mpr h.single), h.isValidTeam_iff.mpr hsrc,
    h.isValidTeam_iff.mpr hdest]
  simp only [Option.bind_eq_bind, Option.bind_some, Bool.not_true, Bool.false_eq_true, if_false]
  rw [if_neg (by omega), hload, Option.bind_some, hinverse, Option.bind_some, hword]

/-- A number outside the source team is not translated. -/
theorem Ledger.Sound.translatePe_outside (h : l.Sound) (hsrc : src ∈ l.live) (hdest : dest ∈ l.live)
    {srcPe : ℤ} (hout : ¬ ∃ pe, (l.state.teamPool src).HasMember srcPe pe) :
    l.state.translatePe src srcPe dest = some (-1) := by
  have hrange : srcPe < 0 ∨ (l.state.teamPool src).size ≤ srcPe := by
    by_contra hin
    apply hout
    exact ⟨_, by omega, by omega, rfl⟩
  rw [PeState.translatePe, if_neg (not_not.mpr h.single), h.isValidTeam_iff.mpr hsrc,
    h.isValidTeam_iff.mpr hdest]
  simp only [Option.bind_eq_bind, Option.bind_some, Bool.not_true, Bool.false_eq_true, if_false]
  exact if_pos hrange

/-- The word holds the place of a member. -/
theorem Ledger.Sound.word_of_member (h : l.Sound) (hdest : dest ∈ l.live) {i pe : ℤ}
    (hi : (l.state.teamPool dest).HasMember i pe) :
    (l.state.teamPool dest).peMapping (pe + maxPes) = i := by
  rcases (h.linear hdest).hasMember_iff.mp hi with ⟨hnonneg, hlt, heq⟩
  rw [heq]
  exact (h.inverts dest hdest).member i hnonneg hlt

/-- The word of any other PE is what lay there before. -/
theorem Ledger.Sound.word_of_stranger (h : l.Sound) (hdest : dest ∈ l.live) {pe : ℤ} (hpe : 0 ≤ pe)
    (hout : ¬ ∃ i, (l.state.teamPool dest).HasMember i pe) :
    (l.state.teamPool dest).peMapping (pe + maxPes) = l.stack dest (pe + maxPes) := by
  apply (h.inverts dest hdest).other
  · omega
  intro i hi hlt heq
  apply hout
  exact ⟨i, (h.linear hdest).hasMember_iff.mpr ⟨hi, hlt, by omega⟩⟩

/-- A translation is right exactly if the PE is in the destination, or happens to find `-1`. -/
theorem Ledger.Sound.translation_iff (h : l.Sound) (hsrc : src ∈ l.live) (hdest : dest ∈ l.live)
    (srcPe : ℤ) :
    (∃ j, l.state.translatePe src srcPe dest = some j ∧
        Translation (l.state.teamPool src) (l.state.teamPool dest) srcPe j) ↔
      ∀ pe, (l.state.teamPool src).HasMember srcPe pe →
        (∃ i, (l.state.teamPool dest).HasMember i pe) ∨ l.stack dest (pe + maxPes) = -1 := by
  by_cases hmember : ∃ pe, (l.state.teamPool src).HasMember srcPe pe
  · rcases hmember with ⟨pe, hpe⟩
    have hnonneg := ((h.linear hsrc).member_range hpe).1
    rw [h.translatePe_member hsrc hdest hpe]
    have hsame : ∀ pe', (l.state.teamPool src).HasMember srcPe pe' → pe' = pe :=
      fun pe' hpe' => hpe'.2.2.symm.trans hpe.2.2
    by_cases hin : ∃ i, (l.state.teamPool dest).HasMember i pe
    · rcases hin with ⟨i, hi⟩
      apply iff_of_true
      · exact ⟨i, congrArg some (h.word_of_member hdest hi), Or.inl ⟨pe, hpe, hi⟩⟩
      · intro pe' hpe'
        rw [hsame pe' hpe']
        exact Or.inl ⟨i, hi⟩
    · -- the answer can only be `-1`
      rw [h.word_of_stranger hdest hnonneg hin]
      constructor
      · intro hright pe' hpe'
        rcases hright with ⟨j, hj, hplace | hnone⟩
        · rcases hplace with ⟨pe'', hpe'', hmember⟩
          rw [hsame pe'' hpe''] at hmember
          exact absurd ⟨j, hmember⟩ hin
        · rw [hsame pe' hpe', Option.some.inj hj]
          exact Or.inr hnone.1
      · intro hword
        rcases hword pe hpe with hplace | hminus
        · exact absurd hplace hin
        · refine ⟨-1, congrArg some hminus, Or.inr ⟨rfl, ?_⟩⟩
          intro hplace
          rcases hplace with ⟨pe', i, hpe', hmember⟩
          rw [hsame pe' hpe'] at hmember
          exact hin ⟨i, hmember⟩
  · rw [h.translatePe_outside hsrc hdest hmember]
    apply iff_of_true
    · refine ⟨-1, rfl, Or.inr ⟨rfl, ?_⟩⟩
      intro hplace
      rcases hplace with ⟨pe, i, hpe, -⟩
      exact hmember ⟨pe, hpe⟩
    · exact fun pe hpe => absurd ⟨pe, hpe⟩ hmember

/-- A common member is translated there and back. -/
theorem Ledger.Sound.round_trip (h : l.Sound) (hsrc : src ∈ l.live) (hdest : dest ∈ l.live)
    {i j pe : ℤ} (hi : (l.state.teamPool src).HasMember i pe)
    (hj : (l.state.teamPool dest).HasMember j pe) :
    l.state.translatePe src i dest = some j ∧ l.state.translatePe dest j src = some i := by
  constructor
  · rw [h.translatePe_member hsrc hdest hi, h.word_of_member hdest hj]
  · rw [h.translatePe_member hdest hsrc hj, h.word_of_member hsrc hi]

end

/-- After any history of splits and destroys, between any two valid teams: the translation of
`srcPe` is right exactly if the PE is in the destination or the destination was built on a `-1`, and
common members are translated there and back. -/
theorem translate_pe_iff {rank size : ℤ} {l l' : Ledger} {calls : List TeamCall} (hrank : 0 ≤ rank)
    (hlt : rank < size) (hsize : size ≤ maxPes) (hinit : Ledger.init rank size = some l)
    (hrun : l.run calls = some l') {src dest : ℤ} (hsrc : l'.state.isValidTeam src = some true)
    (hdest : l'.state.isValidTeam dest = some true) :
    (∀ srcPe, (∃ j, l'.state.translatePe src srcPe dest = some j ∧
        Translation (l'.state.teamPool src) (l'.state.teamPool dest) srcPe j) ↔
      ∀ pe, (l'.state.teamPool src).HasMember srcPe pe →
        (∃ i, (l'.state.teamPool dest).HasMember i pe) ∨ l'.stack dest (pe + maxPes) = -1) ∧
    ∀ i j pe, (l'.state.teamPool src).HasMember i pe → (l'.state.teamPool dest).HasMember j pe →
      l'.state.translatePe src i dest = some j ∧ l'.state.translatePe dest j src = some i := by
  have hsound := (sound_init hrank hlt hsize hinit).run hrun
  rw [hsound.isValidTeam_iff] at hsrc hdest
  exact ⟨hsound.translation_iff hsrc hdest, fun i j pe => hsound.round_trip hsrc hdest⟩

/-- PE 0 of two splits itself off the world. -/
def soloSplit : List TeamCall := [.split (sampleCall ⟨0, 0, 1, 1⟩)]

/-- What PE 0 has then: both teams are valid, the new one has one member, and PE 1 of the world is
translated to 77. -/
theorem soloSplit_run : ((Ledger.init 0 2).bind fun l => (l.run soloSplit).map fun l' =>
    (l'.state.isValidTeam 0, l'.state.isValidTeam 1, (l'.state.teamPool 1).size,
      l'.state.translatePe 0 1 1)) = some (some true, some true, 1, some 77) := by decide +kernel

/-- A team of one PE in a world of two. -/
theorem translate_pe_iff_sample : ∃ l l', Ledger.init 0 2 = some l ∧
    l.run soloSplit = some l' ∧
    (∀ srcPe, (∃ j, l'.state.translatePe 0 srcPe 1 = some j ∧
        Translation (l'.state.teamPool 0) (l'.state.teamPool 1) srcPe j) ↔
      ∀ pe, (l'.state.teamPool 0).HasMember srcPe pe →
        (∃ i, (l'.state.teamPool 1).HasMember i pe) ∨ l'.stack 1 (pe + maxPes) = -1) ∧
    ∀ i j pe, (l'.state.teamPool 0).HasMember i pe → (l'.state.teamPool 1).HasMember j pe →
      l'.state.translatePe 0 i 1 = some j ∧ l'.state.translatePe 1 j 0 = some i := by
  rcases Option.bind_eq_some_iff.mp soloSplit_run with ⟨l, hl, hrest⟩
  rcases Option.map_eq_some_iff.mp hrest with ⟨l', hl', hlast⟩
  rw [Prod.mk.injEq, Prod.mk.injEq] at hlast
  exact ⟨l, l', hl, hl', translate_pe_iff (by decide) (by decide) (by decide +kernel) hl hl'
    hlast.1 hlast.2.1⟩

/-- PE 1 is not in the new team, but no `-1` comes back. -/
theorem translate_pe_stranger : ¬ ∀ (rank size : ℤ) (l l' : Ledger) (calls : List TeamCall)
    (src dest srcPe : ℤ), 0 ≤ rank → rank < size → size ≤ maxPes →
    Ledger.init rank size = some l → l.run calls = some l' →
    l'.state.isValidTeam src = some true → l'.state.isValidTeam dest = some true →
    ∃ j, l'.state.translatePe src srcPe dest = some j ∧
      Translation (l'.state.teamPool src) (l'.state.teamPool dest) srcPe j := by
  intro hclaim
  rcases Option.bind_eq_some_iff.mp soloSplit_run with ⟨l, hl, hrest⟩
  rcases Option.map_eq_some_iff.mp hrest with ⟨l', hl', hlast⟩
  rw [Prod.mk.injEq, Prod.mk.injEq, Prod.mk.injEq] at hlast
  rcases hclaim 0 2 l l' soloSplit 0 1 1 (by decide) (by decide) (by decide +kernel) hl hl'
    hlast.1 hlast.2.1 with ⟨j, hj, hright⟩
  have hgarbage : j = 77 := Option.some.inj (hj.symm.trans hlast.2.2.2)
  rcases hright with ⟨pe, -, hmember⟩ | ⟨hminus, -⟩
  · have hsmall : j < 1 := hmember.2.1.trans_eq hlast.2.2.1
    omega
  · omega

end AscendShmem.Teams
