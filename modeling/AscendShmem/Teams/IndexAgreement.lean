import Mathlib
import AscendShmem.Teams.NestedSplits

/-!
# Which index a team gets on which PE

All PEs with their own pools, and the live teams as the handles the PEs store. A collective call is
made by every PE that stores a handle of the team, with its own handle. Nothing is exchanged: each
PE puts the new team at the lowest clear bit of its own mask.

Whether the members of every team agree on its index can be told from the memberships alone
(`Rolls`): they do exactly as long as every new team can be given a number `k` such that each of its
members belongs to live teams of all numbers below `k`, and to none of number `k`.
-/

namespace AscendShmem.Teams

/-- The handle each PE stores of one team. -/
abbrev Handles := ℕ → Option ℤ

/-- The PEs, and the teams with the handle of each of their PEs. -/
structure World where
  npes : ℕ
  pes : ℕ → PeState
  /-- the live teams -/
  teams : List Handles

/-- A collective call on the live team at position `team`. -/
inductive CollectiveCall where
  | split (team : ℕ) (peStart peStride peSize : ℤ) (hosts : ℕ → Host)
  | destroy (team : ℕ)

/-- The call a PE makes with its handle in a collective split, and the handle it gets. -/
def World.splitOn (w : World) (T : Handles) (peStart peStride peSize : ℤ) (hosts : ℕ → Host)
    (p : ℕ) : Option (PeState × Option ℤ) :=
  match T p with
  | none => some (w.pes p, none)
  | some parent =>
    ((w.pes p).splitStrided ⟨parent, peStart, peStride, peSize⟩ (hosts p) (some teamInvalid)).map
      fun r => (r.state, if r.ret = success then r.newTeam.filter (· ≠ teamInvalid) else none)

/-- The call a PE makes with its handle in a collective destroy. -/
def World.destroyOn (w : World) (T : Handles) (p : ℕ) : Option PeState :=
  match T p with
  | none => some (w.pes p)
  | some team => (w.pes p).destroy team

/-- The world after a collective call; the call has to return on every PE. -/
def World.step (w : World) : CollectiveCall → Option World
  | .split team peStart peStride peSize hosts =>
    w.teams[team]?.bind fun T =>
      if ∀ p < w.npes, (w.splitOn T peStart peStride peSize hosts p).isSome then
        some { w with
          pes := fun p => ((w.splitOn T peStart peStride peSize hosts p).map Prod.fst).getD (w.pes p)
          teams := w.teams ++
            [fun p => if p < w.npes then
              (w.splitOn T peStart peStride peSize hosts p).bind Prod.snd else none] }
      else none
  | .destroy team =>
    w.teams[team]?.bind fun T =>
      if ∀ p < w.npes, (w.destroyOn T p).isSome then
        some { w with
          pes := fun p => (w.destroyOn T p).getD (w.pes p)
          teams := w.teams.eraseIdx team }
      else none

/-- Calls one after the other. -/
def World.run (w : World) : List CollectiveCall → Option World
  | [] => some w
  | call :: calls => (w.step call).bind fun w' => w'.run calls

/-- `n` PEs after their initialisation. -/
def World.init (n : ℕ) : Option World :=
  if ∀ p < n, (PeState.init p n).isSome then
    some {
      npes := n
      pes := fun p => (PeState.init p n).getD ⟨0, false, false, p, n, 0, fun _ => Team.blank, fun _ => none⟩
      teams := [fun p => if p < n then some teamWorld else none] }
  else none

/-! ## Agreement -/

/-- All PEs store a team at one index, and where a PE stores two teams no PE has the one at the
index of the other. -/
def World.Agrees (w : World) : Prop :=
  (∀ T ∈ w.teams, ∀ p q i j, T p = some i → T q = some j → i = j) ∧
  ∀ (a b : ℕ) (T U : Handles), a ≠ b → w.teams[a]? = some T → w.teams[b]? = some U →
    ∀ p q i j, T p = some i → U p = some j → T q ≠ some j

/-- PE `p` passes the membership test of the split, and its device runtime plays along. -/
def World.Gets (w : World) (T : Handles) (peStart peStride peSize : ℤ) (hosts : ℕ → Host)
    (p : ℕ) : Prop :=
  p < w.npes ∧ ∃ parent, T p = some parent ∧
    Placed (w.pes p) ⟨parent, peStart, peStride, peSize⟩ ∧
    Joins (w.pes p) ⟨parent, peStart, peStride, peSize⟩ ∧
    (hosts p).teamUpdate = true ∧ (hosts p).stateUpdate = true

/-- The PEs that get the team of a split have the same lowest clear bit in their masks. -/
def World.FreeAgrees (w : World) : CollectiveCall → Prop
  | .split team peStart peStride peSize hosts => ∀ T, w.teams[team]? = some T → ∀ p q i j,
      w.Gets T peStart peStride peSize hosts p → w.Gets T peStart peStride peSize hosts q →
      LowestClear (w.pes p).teamMask i → LowestClear (w.pes q).teamMask j → i = j
  | .destroy _ => True

/-- Every state of a run satisfies `P`. -/
def World.Always (P : World → Prop) (w : World) : List CollectiveCall → Prop
  | [] => P w
  | call :: calls => P w ∧ ∀ w', w.step call = some w' → w'.Always P calls

/-! ## Memberships -/

/-- The live teams by their members alone, in the order of the handles, each with a number. -/
abbrev Rolls := List (ℕ × (ℕ → Prop))

/-- PE `p` is a member of a live team with number `k`. -/
def Rolls.Has (rolls : Rolls) (p k : ℕ) : Prop := ∃ roll ∈ rolls, roll.1 = k ∧ roll.2 p

/-- Each of the PEs belongs to live teams of all numbers below `k`, and to none of number `k`. -/
def Rolls.Free (rolls : Rolls) (members : ℕ → Prop) (k : ℕ) : Prop :=
  ∀ p, members p → (∀ i < k, rolls.Has p i) ∧ ¬ rolls.Has p k

/-- Every team that the calls make can be given a number that is free for its members. -/
def World.Numbered (rolls : Rolls) (w : World) : List CollectiveCall → Prop
  | [] => True
  | .split team peStart peStride peSize hosts :: calls =>
    ∀ T w', w.teams[team]? = some T →
      w.step (.split team peStart peStride peSize hosts) = some w' →
      ∃ k, rolls.Free (w.Gets T peStart peStride peSize hosts) k ∧
        World.Numbered (rolls ++ [(k, w.Gets T peStart peStride peSize hosts)]) w' calls
  | .destroy team :: calls =>
    ∀ w', w.step (.destroy team) = some w' → World.Numbered (rolls.eraseIdx team) w' calls

/-- What each PE knows about its handles: they are used bits of its mask, different for different
teams. -/
structure World.Owned (w : World) : Prop where
  inside : ∀ T ∈ w.teams, ∀ p i, T p = some i → p < w.npes
  used : ∀ T ∈ w.teams, ∀ p i, T p = some i →
    (0 ≤ i ∧ i < 64) ∧ (w.pes p).teamMask.getLsbD i.toNat = true
  apart : ∀ (a b : ℕ) (T U : Handles), a ≠ b → w.teams[a]? = some T → w.teams[b]? = some U →
    ∀ p i, T p = some i → U p ≠ some i

/-- On top of what each PE knows, agreement on the index of every team is all there is to show. -/
theorem World.Owned.agrees_iff {w : World} (h : w.Owned) :
    w.Agrees ↔ ∀ T ∈ w.teams, ∀ p q i j, T p = some i → T q = some j → i = j := by
  constructor
  · exact And.left
  · intro hsame
    apply And.intro hsame
    intro a b T U hne hT hU p q i j hi hj hq
    have heq := hsame T (List.mem_of_getElem? hT) p q i j hi hq
    rw [← heq] at hj
    exact h.apart a b T U hne hT hU p i hi hj

/-! ## One collective call -/

/-- A PE that gets the new team stores it at the lowest clear bit of its mask and sets the bit;
any other PE keeps its mask. -/
def Enrols (gets : Prop) (mask mask' : BitVec 64) (handle : Option ℤ) : Prop :=
  (gets ∧ ∃ idx, LowestClear mask idx ∧ handle = some idx ∧ mask' = mask ||| bit idx) ∨
    (¬ gets ∧ handle = none ∧ mask' = mask)

section Step

variable {w w' : World} {T : Handles} {peStart peStride peSize : ℤ} {hosts : ℕ → Host} {p : ℕ}

/-- What a collective split does to one PE. -/
theorem splitOn_cases {out : PeState × Option ℤ} (hp : p < w.npes)
    (h : w.splitOn T peStart peStride peSize hosts p = some out) :
    Enrols (w.Gets T peStart peStride peSize hosts p) (w.pes p).teamMask out.1.teamMask out.2 := by
  unfold World.splitOn at h
  cases hT : T p with
  | none =>
    rw [hT] at h
    rw [← Option.some.inj h]
    apply Or.inr
    refine ⟨fun hgets => ?_, rfl, rfl⟩
    rcases hgets.2 with ⟨parent, hparent, -⟩
    rw [hT] at hparent
    cases hparent
  | some parent =>
    rw [hT] at h
    rcases Option.map_eq_some_iff.mp h with ⟨r, hr, hout⟩
    rw [← hout]
    -- a PE gets a team if its own checks pass and both updates of the device work
    have hgets_iff : w.Gets T peStart peStride peSize hosts p ↔
        Placed (w.pes p) ⟨parent, peStart, peStride, peSize⟩ ∧
        Joins (w.pes p) ⟨parent, peStart, peStride, peSize⟩ ∧
        (hosts p).teamUpdate = true ∧ (hosts p).stateUpdate = true := by
      unfold World.Gets
      rw [hT]
      simp [hp]
    rw [hgets_iff]
    rcases splitStrided_cases hr with ⟨hstate, hret, hnone | hrefused⟩ | ⟨hplaced, hjoins, hr⟩ | ⟨hplaced, hjoins, m, -, henroll⟩
    · cases hnone
    · apply Or.inr
      exact ⟨fun hgets => hrefused hgets.1, if_neg hret, congrArg PeState.teamMask hstate⟩
    · apply Or.inr
      rw [hr]
      exact ⟨fun hgets => hjoins hgets.2.1, by simp, rfl⟩
    · have hparent := PeState.isValidTeam_true.mp hplaced.parent
      rcases enroll_cases hparent.1 hparent.2.1 henroll with
        ⟨idx, hclear, -, -, -, -, -, ⟨hteam, hstate, hret, hnew, hmask⟩ | ⟨hhost, hret, hmask⟩⟩
      · apply Or.inl
        refine ⟨⟨hplaced, hjoins, hteam, hstate⟩, idx, hclear, ?_, hmask⟩
        have hvalid : idx ≠ teamInvalid := by
          have hnonneg := hclear.nonneg
          show idx ≠ -1
          omega
        show (if r.ret = success then r.newTeam.filter (· ≠ teamInvalid) else none) = some idx
        rw [if_pos hret, hnew]
        simp [hvalid]
      · apply Or.inr
        exact ⟨fun hgets => hhost hgets.2.2, if_neg hret, hmask⟩

/-- A destroy clears no bit but the one of its team. -/
theorem destroy_getLsbD {s s' : PeState} {t j : ℤ} (h : s.destroy t = some s')
    (hj : 0 ≤ j ∧ j < 64) (hne : t ≠ j) :
    s'.teamMask.getLsbD j.toNat = s.teamMask.getLsbD j.toNat := by
  rw [PeState.destroy, Option.bind_eq_bind, Option.bind_eq_some_iff] at h
  rcases h with ⟨valid, hvalid, h⟩
  cases valid with
  | false =>
    rw [if_neg Bool.false_ne_true] at h
    rw [Option.some.inj h]
  | true =>
    have hrange := (PeState.isValidTeam_true.mp hvalid).2.2.1
    rw [if_pos rfl] at h
    rw [← Option.some.inj h]
    show (s.teamMask ^^^ bit t).getLsbD j.toNat = _
    rw [BitVec.getLsbD_xor, getLsbD_bit hrange, decide_eq_false (by omega), Bool.xor_false]

/-- An entry is an old one or the new one. -/
theorem getElem?_concat_cases {α : Type*} {l : List α} {x y : α} {a : ℕ}
    (h : (l ++ [x])[a]? = some y) : (l[a]? = some y ∧ a < l.length) ∨ (a = l.length ∧ y = x) := by
  rcases Nat.lt_trichotomy a l.length with hlt | heq | hgt
  · rw [List.getElem?_append_left hlt] at h
    exact Or.inl ⟨h, hlt⟩
  · rw [heq, List.getElem?_concat_length] at h
    exact Or.inr ⟨heq, (Option.some.inj h).symm⟩
  · rw [List.getElem?_eq_none (by simp; omega)] at h
    cases h

/-- The handles of the team a collective split makes. -/
def World.newHandles (w : World) (T : Handles) (peStart peStride peSize : ℤ) (hosts : ℕ → Host) :
    Handles :=
  fun p => if p < w.npes then (w.splitOn T peStart peStride peSize hosts p).bind Prod.snd else none

/-- A collective split adds one team, and runs on every PE. -/
theorem split_runs {team : ℕ}
    (h : w.step (.split team peStart peStride peSize hosts) = some w') :
    ∃ T, w.teams[team]? = some T ∧ w'.npes = w.npes ∧
      w'.teams = w.teams ++ [w.newHandles T peStart peStride peSize hosts] ∧
      ∀ p < w.npes, w.splitOn T peStart peStride peSize hosts p
        = some (w'.pes p, w.newHandles T peStart peStride peSize hosts p) := by
  rcases Option.bind_eq_some_iff.mp h with ⟨T, hT, h⟩
  by_cases hall : ∀ p < w.npes, (w.splitOn T peStart peStride peSize hosts p).isSome
  · rw [if_pos hall] at h
    rw [← Option.some.inj h]
    refine ⟨T, hT, rfl, rfl, fun p hp => ?_⟩
    rcases Option.isSome_iff_exists.mp (hall p hp) with ⟨out, hout⟩
    have hnew : w.newHandles T peStart peStride peSize hosts p = out.2 := by
      rw [World.newHandles, if_pos hp, hout]
      rfl
    show _ = some (((w.splitOn T peStart peStride peSize hosts p).map Prod.fst).getD (w.pes p), _)
    rw [hnew, hout]
    rfl
  · rw [if_neg hall] at h
    cases h

/-- Every PE of a collective split enrols in the new team or keeps its mask. -/
theorem split_step {team : ℕ}
    (h : w.step (.split team peStart peStride peSize hosts) = some w') :
    ∃ T, w.teams[team]? = some T ∧ w'.npes = w.npes ∧
      w'.teams = w.teams ++ [w.newHandles T peStart peStride peSize hosts] ∧
      ∀ p < w.npes, Enrols (w.Gets T peStart peStride peSize hosts p) (w.pes p).teamMask
        (w'.pes p).teamMask (w.newHandles T peStart peStride peSize hosts p) := by
  rcases split_runs h with ⟨T, hT, hnpes, hteams, hpes⟩
  exact ⟨T, hT, hnpes, hteams, fun p hp => splitOn_cases hp (hpes p hp)⟩

theorem newHandles_lt {i : ℤ} (h : w.newHandles T peStart peStride peSize hosts p = some i) :
    p < w.npes := by
  by_contra hp
  rw [World.newHandles, if_neg hp] at h
  cases h

/-- A handle is that of a PE that joins, and its lowest clear bit. -/
theorem Enrols.of_some {gets : Prop} {mask mask' : BitVec 64} {handle : Option ℤ} {i : ℤ}
    (h : Enrols gets mask mask' handle) (hi : handle = some i) :
    gets ∧ LowestClear mask i ∧ mask' = mask ||| bit i := by
  rcases h with ⟨hgets, idx, hclear, hidx, hmask⟩ | ⟨-, hnone, -⟩
  · have heq : idx = i := Option.some.inj (hidx.symm.trans hi)
    rw [heq] at hclear hmask
    exact ⟨hgets, hclear, hmask⟩
  · rw [hnone] at hi
    cases hi

/-- No bit of the mask is cleared. -/
theorem Enrols.keeps {gets : Prop} {mask mask' : BitVec 64} {handle : Option ℤ}
    (h : Enrols gets mask mask' handle) {k : ℕ} (hk : mask.getLsbD k = true) :
    mask'.getLsbD k = true := by
  rcases h with ⟨-, idx, -, -, hmask⟩ | ⟨-, -, hmask⟩
  · rw [hmask, BitVec.getLsbD_or, hk, Bool.true_or]
  · rw [hmask]
    exact hk

/-- The handles of the PEs stay owned. -/
theorem World.Owned.split {team : ℕ} (h : w.Owned)
    (hstep : w.step (.split team peStart peStride peSize hosts) = some w') : w'.Owned := by
  rcases split_step hstep with ⟨T, -, hnpes, hteams, hpes⟩
  have hnew : ∀ {p : ℕ} {i : ℤ}, w.newHandles T peStart peStride peSize hosts p = some i →
      LowestClear (w.pes p).teamMask i ∧ (w'.pes p).teamMask = (w.pes p).teamMask ||| bit i :=
    fun hi => ((hpes _ (newHandles_lt hi)).of_some hi).2
  constructor
  · intro U hU p i hi
    rw [hteams, List.mem_append, List.mem_singleton] at hU
    rw [hnpes]
    rcases hU with hU | hU
    · exact h.inside U hU p i hi
    · rw [hU] at hi
      exact newHandles_lt hi
  · intro U hU p i hi
    rw [hteams, List.mem_append, List.mem_singleton] at hU
    rcases hU with hU | hU
    · have hused := h.used U hU p i hi
      exact ⟨hused.1, (hpes p (h.inside U hU p i hi)).keeps hused.2⟩
    · rw [hU] at hi
      rcases hnew hi with ⟨hclear, hmask⟩
      refine ⟨⟨hclear.nonneg, hclear.lt⟩, ?_⟩
      rw [hmask, BitVec.getLsbD_or, getLsbD_bit ⟨hclear.nonneg, hclear.lt⟩]
      simp
  · -- a bit that is used before the split is not the lowest clear one
    have hfresh : ∀ (a : ℕ) (U : Handles) (p : ℕ) (i : ℤ), w.teams[a]? = some U → U p = some i →
        w.newHandles T peStart peStride peSize hosts p ≠ some i := by
      intro a U p i hU hi hsame
      have hused := (h.used U (List.mem_of_getElem? hU) p i hi).2
      rw [(hnew hsame).1.clear] at hused
      exact absurd hused (by simp)
    intro a b U V hne hU hV p i hi hj
    rw [hteams] at hU hV
    rcases getElem?_concat_cases hU with ⟨hU, -⟩ | ⟨ha, hU⟩
    · rcases getElem?_concat_cases hV with ⟨hV, -⟩ | ⟨-, hV⟩
      · exact h.apart a b U V hne hU hV p i hi hj
      · rw [hV] at hj
        exact hfresh a U p i hU hi hj
    · rcases getElem?_concat_cases hV with ⟨hV, -⟩ | ⟨hb, -⟩
      · rw [hU] at hi
        exact hfresh b V p i hV hj hi
      · exact hne (ha.trans hb.symm)

/-- The split keeps agreement exactly if its PEs have the same bit to give. -/
theorem World.Owned.agrees_split {team : ℕ} (h : w.Owned) (hagrees : w.Agrees)
    (hstep : w.step (.split team peStart peStride peSize hosts) = some w') :
    w'.Agrees ↔ w.FreeAgrees (.split team peStart peStride peSize hosts) := by
  rcases split_step hstep with ⟨T, hT, -, hteams, hpes⟩
  rw [(h.split hstep).agrees_iff]
  constructor
  · intro hsame T' hT' p q i j hp hq hi hj
    have heq : T' = T := Option.some.inj (hT'.symm.trans hT)
    rw [heq] at hp hq
    -- who gets the team stores it at its lowest clear bit
    have hstores : ∀ {p : ℕ} {i : ℤ}, w.Gets T peStart peStride peSize hosts p →
        LowestClear (w.pes p).teamMask i →
        w.newHandles T peStart peStride peSize hosts p = some i := by
      intro p i hp hi
      rcases hpes p hp.1 with ⟨-, idx, hclear, hidx, -⟩ | ⟨hnot, -, -⟩
      · rw [hidx, hclear.unique hi]
      · exact absurd hp hnot
    apply hsame (w.newHandles T peStart peStride peSize hosts) _ p q i j (hstores hp hi)
      (hstores hq hj)
    rw [hteams]
    exact List.mem_concat_self
  · intro hfree U hU p q i j hi hj
    rw [hteams, List.mem_append, List.mem_singleton] at hU
    rcases hU with hU | hU
    · exact hagrees.1 U hU p q i j hi hj
    · rw [hU] at hi hj
      rcases (hpes p (newHandles_lt hi)).of_some hi with ⟨hgetsp, hclearp, -⟩
      rcases (hpes q (newHandles_lt hj)).of_some hj with ⟨hgetsq, hclearq, -⟩
      exact hfree T hT p q i j hgetsp hgetsq hclearp hclearq

/-- A collective destroy takes one team away, and runs on every PE. -/
theorem destroy_runs {team : ℕ} (h : w.step (.destroy team) = some w') :
    ∃ T, w.teams[team]? = some T ∧ w'.npes = w.npes ∧ w'.teams = w.teams.eraseIdx team ∧
      ∀ p < w.npes, w.destroyOn T p = some (w'.pes p) := by
  rcases Option.bind_eq_some_iff.mp h with ⟨T, hT, h⟩
  by_cases hall : ∀ p < w.npes, (w.destroyOn T p).isSome
  · rw [if_pos hall] at h
    rw [← Option.some.inj h]
    refine ⟨T, hT, rfl, rfl, fun p hp => ?_⟩
    rcases Option.isSome_iff_exists.mp (hall p hp) with ⟨out, hout⟩
    show _ = some ((w.destroyOn T p).getD (w.pes p))
    rw [hout]
    rfl
  · rw [if_neg hall] at h
    cases h

/-- A collective destroy clears no bit of the other teams. -/
theorem destroy_step {team : ℕ} (h : w.step (.destroy team) = some w') :
    ∃ T, w.teams[team]? = some T ∧ w'.npes = w.npes ∧ w'.teams = w.teams.eraseIdx team ∧
      ∀ p < w.npes, ∀ j, (0 ≤ j ∧ j < 64) → T p ≠ some j →
        (w'.pes p).teamMask.getLsbD j.toNat = (w.pes p).teamMask.getLsbD j.toNat := by
  rcases destroy_runs h with ⟨T, hT, hnpes, hteams, hpes⟩
  refine ⟨T, hT, hnpes, hteams, fun p hp j hj hne => ?_⟩
  have hout := hpes p hp
  unfold World.destroyOn at hout
  cases hTp : T p with
  | none =>
    rw [hTp] at hout
    rw [← Option.some.inj hout]
  | some t =>
    rw [hTp] at hout
    have htj : t ≠ j := fun heq => hne (by rw [hTp, heq])
    exact destroy_getLsbD hout hj htj

/-- An entry behind an erased one moves up. -/
theorem getElem?_eraseIdx_cases {α : Type*} {l : List α} {k a : ℕ} {x : α}
    (h : (l.eraseIdx k)[a]? = some x) : l[if a < k then a else a + 1]? = some x := by
  rw [List.getElem?_eraseIdx] at h
  split
  · rename_i hlt
    rwa [if_pos hlt] at h
  · rename_i hge
    rwa [if_neg hge] at h

/-- Destroying a team keeps the ownership. -/
theorem World.Owned.destroy {team : ℕ} (h : w.Owned)
    (hstep : w.step (.destroy team) = some w') : w'.Owned := by
  rcases destroy_step hstep with ⟨T, hT, hnpes, hteams, hpes⟩
  constructor
  · intro U hU p i hi
    rw [hteams] at hU
    rw [hnpes]
    exact h.inside U (List.mem_of_mem_eraseIdx hU) p i hi
  · intro U hU p i hi
    rw [hteams] at hU
    have hmem := List.mem_of_mem_eraseIdx hU
    have hused := h.used U hmem p i hi
    apply And.intro hused.1
    rcases List.mem_iff_getElem?.mp hU with ⟨a, ha⟩
    have hplace := getElem?_eraseIdx_cases ha
    have hother : T p ≠ some i := by
      intro hsame
      apply h.apart _ team U T _ hplace hT p i hi hsame
      split <;> omega
    rw [hpes p (h.inside U hmem p i hi) i hused.1 hother]
    exact hused.2
  · intro a b U V hne hU hV p i
    rw [hteams] at hU hV
    apply h.apart _ _ U V _ (getElem?_eraseIdx_cases hU) (getElem?_eraseIdx_cases hV)
    split <;> split <;> omega

/-- One collective call: the PEs keep what they know, and agreement goes on exactly if the PEs that
get a team agree on the bit. -/
theorem World.Owned.step (h : w.Owned) {call : CollectiveCall} (hstep : w.step call = some w') :
    w'.Owned ∧ (w.Agrees → (w'.Agrees ↔ w.FreeAgrees call)) := by
  cases call with
  | split team peStart peStride peSize hosts =>
    exact ⟨h.split hstep, fun hagrees => h.agrees_split hagrees hstep⟩
  | destroy team =>
    apply And.intro (h.destroy hstep)
    intro hagrees
    rcases destroy_step hstep with ⟨T, -, -, hteams, -⟩
    apply iff_of_true _ trivial
    rw [(h.destroy hstep).agrees_iff]
    intro U hU
    rw [hteams] at hU
    exact hagrees.1 U (List.mem_of_mem_eraseIdx hU)

end Step

/-! ## Rolls and masks -/

/-- A PE that can use its pool. -/
def PeState.Ready (s : PeState) : Prop := s.initialized = true ∧ s.poolAllocated = true

/-- A split leaves a PE ready. -/
theorem PeState.Ready.splitOn {w : World} {T : Handles} {peStart peStride peSize : ℤ}
    {hosts : ℕ → Host} {p : ℕ} (h : (w.pes p).Ready) {out : PeState × Option ℤ}
    (hout : w.splitOn T peStart peStride peSize hosts p = some out) : out.1.Ready := by
  unfold World.splitOn at hout
  cases hT : T p with
  | none =>
    rw [hT] at hout
    rw [← Option.some.inj hout]
    exact h
  | some parent =>
    rw [hT] at hout
    rcases Option.map_eq_some_iff.mp hout with ⟨r, hr, hout⟩
    rw [← hout]
    rcases splitStrided_cases hr with ⟨hstate, -⟩ | ⟨-, -, hr⟩ | ⟨-, -, m, -, henroll⟩
    · show r.state.Ready
      rw [hstate]
      exact h
    · rw [hr]
      exact h
    · obtain ⟨idx, -, hinit, halloc, -⟩ := enroll_cases h.1 h.2 henroll
      exact ⟨hinit.trans h.1, halloc.trans h.2⟩

/-- A destroy of a team that a ready PE has clears its bit. -/
theorem PeState.Ready.destroy {s s' : PeState} {t : ℤ} (h : s.Ready) (ht : 0 ≤ t ∧ t < 64)
    (hused : s.teamMask.getLsbD t.toNat = true) (hdestroy : s.destroy t = some s') :
    s'.Ready ∧ s'.teamMask.getLsbD t.toNat = false := by
  rw [destroy_of_valid (PeState.isValidTeam_true.mpr ⟨h.1, h.2, ht, hused⟩)] at hdestroy
  rw [← Option.some.inj hdestroy]
  refine ⟨h, ?_⟩
  show (s.teamMask ^^^ bit t).getLsbD t.toNat = false
  rw [BitVec.getLsbD_xor, getLsbD_bit ht, hused, decide_eq_true rfl]
  rfl

/-- The rolls name the members of every team and the number they store it at, and a PE uses no
other bit of its mask. -/
structure World.Enrolled (w : World) (rolls : Rolls) : Prop where
  length : rolls.length = w.teams.length
  handles : ∀ (a : ℕ) (T : Handles) roll, w.teams[a]? = some T → rolls[a]? = some roll →
    ∀ p i, T p = some i ↔ roll.2 p ∧ i = roll.1
  ready : ∀ p < w.npes, (w.pes p).Ready
  masks : ∀ p < w.npes, ∀ i < 64, (w.pes p).teamMask.getLsbD i = true → rolls.Has p i

namespace World.Enrolled

variable {w w' : World} {rolls : Rolls} {peStart peStride peSize : ℤ} {hosts : ℕ → Host} {p : ℕ}

/-- A roll has the handles of the live teams. -/
theorem has_iff (h : w.Enrolled rolls) (p k : ℕ) :
    rolls.Has p k ↔ ∃ T ∈ w.teams, T p = some (k : ℤ) := by
  constructor
  · intro hhas
    obtain ⟨roll, hroll, hk, hp⟩ := hhas
    obtain ⟨a, ha⟩ := List.mem_iff_getElem?.mp hroll
    have hlt : a < w.teams.length := by
      rw [← h.length]
      exact (List.getElem?_eq_some_iff.mp ha).1
    have hT := List.getElem?_eq_getElem hlt
    exact ⟨_, List.getElem_mem hlt, (h.handles a _ roll hT ha p k).mpr ⟨hp, by rw [hk]⟩⟩
  · intro hhas
    obtain ⟨T, hmem, hk⟩ := hhas
    obtain ⟨a, ha⟩ := List.mem_iff_getElem?.mp hmem
    have hlt : a < rolls.length := by
      rw [h.length]
      exact (List.getElem?_eq_some_iff.mp ha).1
    have hroll := List.getElem?_eq_getElem hlt
    obtain ⟨hp, hnumber⟩ := (h.handles a T _ ha hroll p k).mp hk
    exact ⟨_, List.getElem_mem hlt, (Nat.cast_inj.mp hnumber).symm, hp⟩

/-- A PE uses the bits that are numbers of its teams. -/
theorem used_iff (h : w.Enrolled rolls) (howned : w.Owned) (hp : p < w.npes) {i : ℕ} (hi : i < 64) :
    (w.pes p).teamMask.getLsbD i = true ↔ rolls.Has p i := by
  refine ⟨h.masks p hp i hi, fun hhas => ?_⟩
  obtain ⟨T, hT, hk⟩ := (h.has_iff p i).mp hhas
  exact (howned.used T hT p i hk).2

/-- The lowest clear bit of a PE's mask is the number that is free for it. -/
theorem lowestClear_iff (h : w.Enrolled rolls) (howned : w.Owned) (hp : p < w.npes) {k : ℕ}
    (hk : k < 64) :
    LowestClear (w.pes p).teamMask k ↔ (∀ i < k, rolls.Has p i) ∧ ¬ rolls.Has p k := by
  have hused := fun {i : ℕ} (hi : i < 64) => h.used_iff howned hp hi
  constructor
  · intro hclear
    refine ⟨fun i hi => (hused (by omega)).mp (hclear.below i (by omega) (by omega)), fun hhas => ?_⟩
    have hset := (hused hk).mpr hhas
    have hnot := hclear.clear
    rw [Int.toNat_natCast, hset] at hnot
    cases hnot
  · intro hfree
    refine ⟨by omega, by omega, ?_, fun j hj hlt => ?_⟩
    · rw [Int.toNat_natCast, ← Bool.not_eq_true, hused hk]
      exact hfree.2
    · exact (hused (by omega)).mpr (hfree.1 j.toNat (by omega))

/-- No other number is free for a PE than its lowest clear bit. -/
theorem number_eq (h : w.Enrolled rolls) (howned : w.Owned) (hp : p < w.npes) {i : ℤ} {k : ℕ}
    (hi : LowestClear (w.pes p).teamMask i)
    (hk : (∀ i < k, rolls.Has p i) ∧ ¬ rolls.Has p k) : i = k := by
  have hlt := hi.lt
  have hnonneg := hi.nonneg
  have hclear : LowestClear (w.pes p).teamMask (i.toNat : ℤ) := by
    rw [Int.toNat_of_nonneg hnonneg]
    exact hi
  have hown := (h.lowestClear_iff howned hp (by omega)).mp hclear
  rcases Nat.lt_trichotomy i.toNat k with hbelow | heq | habove
  · exact absurd (hk.1 _ hbelow) hown.2
  · omega
  · exact absurd (hown.1 k habove) hk.2

/-- The PEs that get a team have one bit to give exactly if a number is free for all of them. -/
theorem freeAgrees_iff (h : w.Enrolled rolls) (howned : w.Owned) {team : ℕ} {T : Handles}
    (hT : w.teams[team]? = some T)
    (hclear : ∀ p, w.Gets T peStart peStride peSize hosts p →
      ∃ i, LowestClear (w.pes p).teamMask i) :
    w.FreeAgrees (.split team peStart peStride peSize hosts) ↔
      ∃ k, rolls.Free (w.Gets T peStart peStride peSize hosts) k := by
  constructor
  · intro hfree
    by_cases hnone : ∃ p, w.Gets T peStart peStride peSize hosts p
    swap
    · exact ⟨0, fun p hp => absurd ⟨p, hp⟩ hnone⟩
    obtain ⟨q, hq⟩ := hnone
    obtain ⟨j, hj⟩ := hclear q hq
    refine ⟨j.toNat, fun p hp => ?_⟩
    obtain ⟨i, hi⟩ := hclear p hp
    have heq := hfree T hT p q i j hp hq hi hj
    have hlt := hj.lt
    rw [← h.lowestClear_iff howned hp.1 (by omega), Int.toNat_of_nonneg hj.nonneg, ← heq]
    exact hi
  · intro hnumber T' hT' p q i j hp hq hi hj
    obtain ⟨k, hk⟩ := hnumber
    rw [Option.some.inj (hT'.symm.trans hT)] at hp hq
    rw [h.number_eq howned hp.1 hi (hk p hp), h.number_eq howned hq.1 hj (hk q hq)]

/-- A split enters its PEs in the rolls, at the number that is free for them. -/
theorem split (h : w.Enrolled rolls) (howned : w.Owned) {team k : ℕ} {T : Handles}
    (hT : w.teams[team]? = some T)
    (hstep : w.step (.split team peStart peStride peSize hosts) = some w')
    (hfree : rolls.Free (w.Gets T peStart peStride peSize hosts) k) :
    w'.Enrolled (rolls ++ [(k, w.Gets T peStart peStride peSize hosts)]) := by
  rcases split_runs hstep with ⟨T', hT', hnpes, hteams, hruns⟩
  rw [Option.some.inj (hT'.symm.trans hT)] at hteams hruns
  have hpes : ∀ p < w.npes, Enrols (w.Gets T peStart peStride peSize hosts p) (w.pes p).teamMask
      (w'.pes p).teamMask (w.newHandles T peStart peStride peSize hosts p) :=
    fun p hp => splitOn_cases hp (hruns p hp)
  -- a PE that gets the team stores it at `k`
  have hnumber : ∀ {p : ℕ} {i : ℤ}, w.Gets T peStart peStride peSize hosts p →
      LowestClear (w.pes p).teamMask i → i = k :=
    fun hp hi => h.number_eq howned hp.1 hi (hfree _ hp)
  have hnew : ∀ p i, w.newHandles T peStart peStride peSize hosts p = some i ↔
      w.Gets T peStart peStride peSize hosts p ∧ i = k := by
    intro p i
    constructor
    · intro hi
      obtain ⟨hgets, hclear, -⟩ := (hpes p (newHandles_lt hi)).of_some hi
      exact ⟨hgets, hnumber hgets hclear⟩
    · rintro ⟨hgets, rfl⟩
      rcases hpes p hgets.1 with ⟨-, idx, hclear, hidx, -⟩ | ⟨hnot, -, -⟩
      · rw [hidx, hnumber hgets hclear]
      · exact absurd hgets hnot
  have hold : ∀ {p i : ℕ}, rolls.Has p i →
      Rolls.Has (rolls ++ [(k, w.Gets T peStart peStride peSize hosts)]) p i := by
    intro p i hhas
    obtain ⟨roll, hroll, hrest⟩ := hhas
    exact ⟨roll, List.mem_append_left _ hroll, hrest⟩
  refine ⟨?_, fun a U roll hU hroll p i => ?_, fun p hp => ?_, fun p hp i hi hset => ?_⟩
  · rw [hteams, List.length_append, List.length_append, h.length]
    rfl
  · rw [hteams] at hU
    rcases getElem?_concat_cases hU with ⟨hU, ha⟩ | ⟨ha, hU⟩
    · rcases getElem?_concat_cases hroll with ⟨hroll, -⟩ | ⟨hb, -⟩
      · exact h.handles a U roll hU hroll p i
      · rw [hb, h.length] at ha
        exact absurd ha (lt_irrefl _)
    · rcases getElem?_concat_cases hroll with ⟨-, hb⟩ | ⟨-, hroll⟩
      · rw [ha, h.length] at hb
        exact absurd hb (lt_irrefl _)
      · rw [hU, hroll]
        exact hnew p i
  · rw [hnpes] at hp
    exact (h.ready p hp).splitOn (hruns p hp)
  · rw [hnpes] at hp
    rcases hpes p hp with ⟨hgets, idx, hclear, -, hmask⟩ | ⟨-, -, hmask⟩
    · have hidx := hnumber hgets hclear
      rw [hmask, BitVec.getLsbD_or, getLsbD_bit ⟨hclear.nonneg, hclear.lt⟩, Bool.or_eq_true,
        decide_eq_true_eq] at hset
      rcases hset with hset | hset
      · exact hold (h.masks p hp i hi hset)
      · refine ⟨_, List.mem_append_right _ (List.mem_singleton_self _), ?_, hgets⟩
        show k = i
        omega
    · rw [hmask] at hset
      exact hold (h.masks p hp i hi hset)

/-- A destroy strikes its team off the rolls. -/
theorem destroy (h : w.Enrolled rolls) (howned : w.Owned) {team : ℕ}
    (hstep : w.step (.destroy team) = some w') : w'.Enrolled (rolls.eraseIdx team) := by
  rcases destroy_runs hstep with ⟨T, hT, hnpes, hteams, hruns⟩
  have hmem := List.mem_of_getElem? hT
  have hteam : team < rolls.length := by
    rw [h.length]
    exact (List.getElem?_eq_some_iff.mp hT).1
  have hhandles : ∀ (a : ℕ) (U : Handles) roll, w'.teams[a]? = some U →
      (rolls.eraseIdx team)[a]? = some roll → ∀ p i, U p = some i ↔ roll.2 p ∧ i = roll.1 := by
    intro a U roll hU hroll p i
    rw [hteams] at hU
    exact h.handles _ U roll (getElem?_eraseIdx_cases hU) (getElem?_eraseIdx_cases hroll) p i
  have hlength : (rolls.eraseIdx team).length = w'.teams.length := by
    rw [hteams, List.length_eraseIdx_of_lt hteam, List.length_eraseIdx_of_lt (h.length ▸ hteam),
      h.length]
  -- a PE without the team keeps its state, a PE with it loses one bit
  have hpe : ∀ p < w.npes, (w'.pes p).Ready ∧ ∀ i < 64, (w'.pes p).teamMask.getLsbD i = true →
      (w.pes p).teamMask.getLsbD i = true ∧ T p ≠ some (i : ℤ) := by
    intro p hp
    have hrun := hruns p hp
    unfold World.destroyOn at hrun
    cases hTp : T p with
    | none =>
      rw [hTp] at hrun
      rw [← Option.some.inj hrun]
      exact ⟨h.ready p hp, fun i _ hset => ⟨hset, by simp⟩⟩
    | some t =>
      rw [hTp] at hrun
      obtain ⟨ht, hused⟩ := howned.used T hmem p t hTp
      obtain ⟨hready, hcleared⟩ := (h.ready p hp).destroy ht hused hrun
      refine ⟨hready, fun i hi hset => ?_⟩
      have hne : t ≠ (i : ℤ) := by
        intro heq
        rw [heq, Int.toNat_natCast, hset] at hcleared
        cases hcleared
      have hkept := destroy_getLsbD hrun (j := i) ⟨by omega, by omega⟩ hne
      rw [Int.toNat_natCast] at hkept
      exact ⟨hkept ▸ hset, fun heq => hne (Option.some.inj heq)⟩
  refine ⟨hlength, hhandles, fun p hp => (hpe p (hnpes ▸ hp)).1, fun p hp i hi hset => ?_⟩
  -- a bit that stays is the number of another team
  obtain ⟨hbefore, hother⟩ := (hpe p (hnpes ▸ hp)).2 i hi hset
  obtain ⟨U, hU, hi'⟩ := (h.has_iff p i).mp (h.masks p (hnpes ▸ hp) i hi hbefore)
  obtain ⟨a, ha⟩ := List.mem_iff_getElem?.mp hU
  have hne : a ≠ team := by
    intro heq
    rw [heq, hT] at ha
    rw [← Option.some.inj ha] at hi'
    exact hother hi'
  have hkept : ∃ b : ℕ, (w.teams.eraseIdx team)[b]? = some U := by
    rcases Nat.lt_or_gt_of_ne hne with hlt | hgt
    · exact ⟨a, by rw [List.getElem?_eraseIdx, if_pos hlt, ha]⟩
    · refine ⟨a - 1, ?_⟩
      rw [List.getElem?_eraseIdx, if_neg (by omega), Nat.sub_add_cancel (by omega), ha]
  obtain ⟨b, hb⟩ := hkept
  rw [← hteams] at hb
  have hlt : b < (rolls.eraseIdx team).length := by
    rw [hlength]
    exact (List.getElem?_eq_some_iff.mp hb).1
  have hroll := List.getElem?_eq_getElem hlt
  obtain ⟨hp', hnumber⟩ := (hhandles b U _ hb hroll p i).mp hi'
  exact ⟨_, List.getElem_mem hlt, (Nat.cast_inj.mp hnumber).symm, hp'⟩

end World.Enrolled

/-! ## Runs -/

theorem World.Always.head {P : World → Prop} {w : World} {calls : List CollectiveCall}
    (h : w.Always P calls) : P w := by
  cases calls with
  | nil => exact h
  | cons call calls => exact h.1


/-- The PEs agree in every state of a run exactly if the memberships can be numbered. -/
theorem World.Enrolled.always_agrees_iff {w w' : World} {rolls : Rolls}
    {calls : List CollectiveCall} (h : w.Enrolled rolls) (howned : w.Owned) (hagrees : w.Agrees)
    (hrun : w.run calls = some w') :
    w.Always World.Agrees calls ↔ w.Numbered rolls calls := by
  induction calls generalizing w rolls with
  | nil => exact iff_of_true hagrees trivial
  | cons call calls ih =>
    rcases Option.bind_eq_some_iff.mp hrun with ⟨next, hstep, hrest⟩
    rcases howned.step hstep with ⟨hnext, hiff⟩
    cases call with
    | split team peStart peStride peSize hosts =>
      rcases split_step hstep with ⟨T, hT, -, -, hpes⟩
      have hclear : ∀ p, w.Gets T peStart peStride peSize hosts p →
          ∃ i, LowestClear (w.pes p).teamMask i := by
        intro p hp
        rcases hpes p hp.1 with ⟨-, i, hi, -⟩ | ⟨hnot, -⟩
        · exact ⟨i, hi⟩
        · exact absurd hp hnot
      have hfree := h.freeAgrees_iff howned hT hclear
      constructor
      · intro halways T' w₁ hT' hstep'
        rw [Option.some.inj (hT'.symm.trans hT), Option.some.inj (hstep'.symm.trans hstep)]
        have htail := halways.2 next hstep
        obtain ⟨k, hk⟩ := hfree.mp ((hiff hagrees).mp htail.head)
        exact ⟨k, hk, (ih (h.split howned hT hstep hk) hnext htail.head hrest).mp htail⟩
      · intro hnumbered
        obtain ⟨k, hk, htail⟩ := hnumbered T next hT hstep
        have hagrees' := (hiff hagrees).mpr (hfree.mpr ⟨k, hk⟩)
        apply And.intro hagrees
        intro w₁ hstep'
        rw [Option.some.inj (hstep'.symm.trans hstep)]
        exact (ih (h.split howned hT hstep hk) hnext hagrees' hrest).mpr htail
    | destroy team =>
      have hagrees' := (hiff hagrees).mpr trivial
      have htail := ih (h.destroy howned hstep) hnext hagrees' hrest
      constructor
      · intro halways w₁ hstep'
        rw [Option.some.inj (hstep'.symm.trans hstep)]
        exact htail.mp (halways.2 next hstep)
      · intro hnumbered
        apply And.intro hagrees
        intro w₁ hstep'
        rw [Option.some.inj (hstep'.symm.trans hstep)]
        exact htail.mpr (hnumbered next hstep)

theorem World.Always.last {P : World → Prop} {w w' : World} {calls : List CollectiveCall}
    (h : w.Always P calls) (hrun : w.run calls = some w') : P w' := by
  induction calls generalizing w with
  | nil => rwa [← Option.some.inj hrun]
  | cons call calls ih =>
    rcases Option.bind_eq_some_iff.mp hrun with ⟨next, hstep, hrest⟩
    exact ih (h.2 next hstep) hrest

/-- A new PE has the world only. -/
theorem PeState.init_eq {rank size : ℤ} {s : PeState} (h : PeState.init rank size = some s) :
    s.Ready ∧ s.teamMask = bit teamWorld := by
  simp only [PeState.init, Option.bind_eq_bind, Option.bind_eq_some_iff] at h
  obtain ⟨m, -, m', -, hs⟩ := h
  rw [← Option.some.inj hs]
  exact ⟨⟨rfl, rfl⟩, rfl⟩

/-- WORLD alone, with all PEs and number 0. -/
def Rolls.world (n : ℕ) : Rolls := [(0, fun p => p < n)]

/-- After the initialisation WORLD is the only team, at index 0 on every PE. -/
theorem World.init_cases {n : ℕ} {w : World} (h : World.init n = some w) :
    w.Owned ∧ w.Agrees ∧ w.Enrolled (Rolls.world n) := by
  unfold World.init at h
  split at h
  swap
  · cases h
  rename_i hpes
  have hw := Option.some.inj h
  have hnpes : w.npes = n := by rw [← hw]
  have hteams : w.teams = [fun p => if p < n then some teamWorld else none] := by rw [← hw]
  have hpe : ∀ p < n, (w.pes p).Ready ∧ (w.pes p).teamMask = bit teamWorld := by
    intro p hp
    rcases Option.isSome_iff_exists.mp (hpes p hp) with ⟨s, hs⟩
    have hstate : w.pes p = s := by
      rw [← hw]
      show (PeState.init p n).getD _ = s
      rw [hs, Option.getD_some]
    rw [hstate]
    exact PeState.init_eq hs
  -- the one handle on every PE is that of WORLD
  have hworld : ∀ p i, (if p < n then some teamWorld else none) = some i ↔ p < n ∧ i = teamWorld := by
    intro p i
    by_cases hp : p < n
    · rw [if_pos hp, Option.some.injEq]
      exact ⟨fun heq => ⟨hp, heq.symm⟩, fun hand => hand.2.symm⟩
    · rw [if_neg hp]
      exact ⟨fun heq => absurd heq (by simp), fun hand => absurd hand.1 hp⟩
  have hhandles : ∀ T ∈ w.teams, ∀ p i, T p = some i → p < n ∧ i = teamWorld := by
    intro T hT p i hi
    rw [hteams, List.mem_singleton] at hT
    rw [hT] at hi
    exact (hworld p i).mp hi
  have howned : w.Owned := by
    refine ⟨fun T hT p i hi => ?_, fun T hT p i hi => ?_, fun a b T U hne hT hU => ?_⟩
    · rw [hnpes]
      exact (hhandles T hT p i hi).1
    · obtain ⟨hp, hi⟩ := hhandles T hT p i hi
      rw [hi, (hpe p hp).2, getLsbD_bit (by decide)]
      decide
    · have ha := (List.getElem?_eq_some_iff.mp hT).1
      have hb := (List.getElem?_eq_some_iff.mp hU).1
      rw [hteams, List.length_singleton] at ha hb
      omega
  refine ⟨howned, howned.agrees_iff.mpr fun T hT p q i j hi hj => ?_, ?_⟩
  · rw [(hhandles T hT p i hi).2, (hhandles T hT q j hj).2]
  · refine ⟨by rw [hteams]; rfl, fun a T roll hT hroll p i => ?_, fun p hp => ?_,
      fun p hp i hi hset => ?_⟩
    · have hT' := List.mem_of_getElem? hT
      have hroll' := List.mem_of_getElem? hroll
      rw [hteams, List.mem_singleton] at hT'
      rw [Rolls.world, List.mem_singleton] at hroll'
      rw [hT', hroll']
      exact hworld p i
    · exact (hpe p (hnpes ▸ hp)).1
    · rw [(hpe p (hnpes ▸ hp)).2] at hset
      -- the mask has the one bit of WORLD
      have hzero : i = 0 := by
        have hbit := @getLsbD_bit teamWorld (by decide) i
        rw [hset] at hbit
        have htrue := of_decide_eq_true hbit.symm
        exact htrue.symm
      exact ⟨_, List.mem_singleton_self _, hzero.symm, hnpes ▸ hp⟩

/-- In every run of collective splits and destroys the PEs agree on the indices in every state
exactly if every new team can be given a number such that each of its members belongs to live teams
of all smaller numbers, and to none of that number. -/
theorem team_indices_agree_iff {n : ℕ} {w w' : World} {calls : List CollectiveCall}
    (hinit : World.init n = some w) (hrun : w.run calls = some w') :
    w.Always World.Agrees calls ↔ w.Numbered (Rolls.world n) calls := by
  obtain ⟨howned, hagrees, henrolled⟩ := World.init_cases hinit
  exact henrolled.always_agrees_iff howned hagrees hrun

/-- Hosts whose device calls succeed. -/
def sampleHosts : ℕ → Host := fun _ => ⟨fun _ => 77, true, true⟩

/-- Four PEs split the world in two halves and take the first half apart again. -/
theorem team_indices_agree_iff_sample : ∃ w w', World.init 4 = some w ∧
    w.run [.split 0 0 1 2 sampleHosts, .split 0 2 1 2 sampleHosts, .destroy 1] = some w' ∧
    (w.Always World.Agrees [.split 0 0 1 2 sampleHosts, .split 0 2 1 2 sampleHosts, .destroy 1] ↔
      w.Numbered (Rolls.world 4)
        [.split 0 0 1 2 sampleHosts, .split 0 2 1 2 sampleHosts, .destroy 1]) := by
  have hsome : ((World.init 4).bind fun w =>
      w.run [.split 0 0 1 2 sampleHosts, .split 0 2 1 2 sampleHosts, .destroy 1]).isSome := by
    decide +kernel
  rcases Option.isSome_iff_exists.mp hsome with ⟨w', hw'⟩
  rcases Option.bind_eq_some_iff.mp hw' with ⟨w, hw, hrun⟩
  exact ⟨w, w', hw, hrun, team_indices_agree_iff hw hrun⟩

/-- Three PEs split `{0, 1}` and then `{1, 2}` off the world: PE 1 stores the second team at index 2,
PE 2 at index 1, where PE 1 has the first team. -/
theorem team_indices_disagree : ¬ ∀ (n : ℕ) (w w' : World) (calls : List CollectiveCall),
    World.init n = some w → w.run calls = some w' → w.Always World.Agrees calls := by
  intro hclaim
  have hhandles : ((World.init 3).bind fun w =>
      (w.run [.split 0 0 1 2 sampleHosts, .split 0 1 1 2 sampleHosts]).bind fun w' =>
        w'.teams[2]?.map fun T => (T 1, T 2)) = some (some 2, some 1) := by decide +kernel
  rcases Option.bind_eq_some_iff.mp hhandles with ⟨w, hw, hhandles⟩
  rcases Option.bind_eq_some_iff.mp hhandles with ⟨w', hrun, hhandles⟩
  rcases Option.map_eq_some_iff.mp hhandles with ⟨T, hT, hhandles⟩
  have hagrees := (hclaim 3 w w' _ hw hrun).last hrun
  have hsame := hagrees.1 T (List.mem_of_getElem? hT) 1 2 2 1 (Prod.mk.inj hhandles).1
    (Prod.mk.inj hhandles).2
  exact absurd hsame (by decide)

end AscendShmem.Teams
