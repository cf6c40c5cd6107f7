import Mathlib

/-!
# Turns of a rotating cursor

A cursor goes round the places `0, …, n - 1` and stops at the next place that is available; the
search for the next turn begins behind it. As long as the same places are available, the turns visit
them in rotation: the turn number `t` stops at the place whose rank among the available ones is `t`
more than that of the start, modulo their number. So no place has two turns more than another.
-/

namespace Lib.RoundRobin

variable {n : ℕ} (p : ℕ → Bool)

/-- The first available place from the cursor on. -/
def pick (n current : ℕ) : Option ℕ :=
  ((List.range n).find? fun offset => p ((current + offset) % n)).map fun offset =>
    (current + offset) % n

/-- The cursor behind a turn. -/
def next (n current : ℕ) : ℕ :=
  match pick p n current with
  | none => current
  | some k => (k + 1) % n

theorem pick_lt {current k : ℕ} (h : pick p n current = some k) : k < n ∧ p k = true := by
  obtain ⟨offset, hfind, rfl⟩ := Option.map_eq_some_iff.mp h
  have hlt := List.mem_range.mp (List.mem_of_find?_eq_some hfind)
  have hp := List.find?_some hfind
  exact ⟨Nat.mod_lt _ (by omega), hp⟩

/-- No turn is lost: the search finds a place iff one is available. -/
theorem pick_eq_none_iff {current : ℕ} (hcurrent : current < n) :
    pick p n current = none ↔ ∀ k < n, p k = false := by
  rw [pick, Option.map_eq_none_iff, List.find?_eq_none]
  constructor
  · intro hnone k hk
    by_cases hle : current ≤ k
    · have hno := hnone (k - current) (List.mem_range.mpr (by omega))
      rwa [show current + (k - current) = k by omega, Nat.mod_eq_of_lt hk, Bool.not_eq_true] at hno
    · have hno := hnone (n - current + k) (List.mem_range.mpr (by omega))
      rwa [show current + (n - current + k) = n + k by omega, Nat.add_mod_left,
        Nat.mod_eq_of_lt hk, Bool.not_eq_true] at hno
  · intro hall offset _
    rw [Bool.not_eq_true]
    exact hall _ (Nat.mod_lt _ (by omega))

/-- The search looks at the places below `n` only. -/
theorem pick_congr {q : ℕ → Bool} {current : ℕ} (hcurrent : current < n)
    (h : ∀ k < n, p k = q k) : pick p n current = pick q n current := by
  have hfun : (fun offset => p ((current + offset) % n)) =
      fun offset => q ((current + offset) % n) :=
    funext fun offset => h _ (Nat.mod_lt _ (by omega))
  rw [pick, pick, hfun]

/-! ## Ranks -/

/-- The number of available places in front of `k`. -/
abbrev rank (k : ℕ) : ℕ := Nat.count (fun k => p k = true) k

/-- Places that are not eligible do not count. -/
theorem rank_add_of_none {a b : ℕ} (h : ∀ k, a ≤ k → k < a + b → p k = false) :
    rank p (a + b) = rank p a := by
  induction b with
  | zero => rfl
  | succ b ih =>
    have hlast : ¬ p (a + b) = true := by simp [h (a + b) (by omega) (by omega)]
    rw [← Nat.add_assoc, rank, Nat.count_succ, if_neg hlast, Nat.add_zero]
    exact ih fun k hk hlt => h k hk (by omega)

theorem rank_lt {k : ℕ} (hk : k < n) (hp : p k = true) : rank p k < rank p n :=
  Nat.count_strict_mono hp hk

/-- Available places with the same rank are the same. -/
theorem rank_inj {k k' : ℕ} (hp : p k = true) (hp' : p k' = true) (h : rank p k = rank p k') :
    k = k' := Nat.count_injective hp hp' h

/-- A turn stops at the place with the rank of the cursor. -/
theorem rank_pick {current k : ℕ} (hcurrent : current < n) (h : pick p n current = some k) :
    rank p k = rank p current % rank p n := by
  obtain ⟨hk, hp⟩ := pick_lt p h
  have hlt := rank_lt p hk hp
  obtain ⟨offset, hfind, hplace⟩ := Option.map_eq_some_iff.mp h
  obtain ⟨_, hmem, hfirst⟩ := List.find?_range_eq_some.mp hfind
  have hoffset := List.mem_range.mp hmem
  -- the places that the search passes are not available
  have hpassed : ∀ j < offset, p ((current + j) % n) = false := by
    intro j hj
    simpa using hfirst j hj
  by_cases hwrap : current + offset < n
  · rw [Nat.mod_eq_of_lt hwrap] at hplace
    have heq : rank p k = rank p current := by
      rw [← hplace]
      refine rank_add_of_none p fun j hj hjlt => ?_
      have hno := hpassed (j - current) (by omega)
      rwa [show current + (j - current) = j by omega, Nat.mod_eq_of_lt (by omega)] at hno
    rw [← heq, Nat.mod_eq_of_lt hlt]
  · -- behind the cursor nothing is available up to the end, and nothing in front of `k`
    have hk' : k = current + offset - n := by
      rw [← hplace, Nat.mod_eq_sub_mod (by omega), Nat.mod_eq_of_lt (by omega)]
    have hend : rank p n = rank p current := by
      have hrank : rank p (current + (n - current)) = rank p current := by
        refine rank_add_of_none p fun j hj hjlt => ?_
        have hno := hpassed (j - current) (by omega)
        rwa [show current + (j - current) = j by omega, Nat.mod_eq_of_lt (by omega)] at hno
      rwa [show current + (n - current) = n by omega] at hrank
    have hzero : rank p (0 + k) = rank p 0 := by
      refine rank_add_of_none p fun j _ hj => ?_
      have hno := hpassed (n - current + j) (by omega)
      rwa [show current + (n - current + j) = n + j by omega, Nat.add_mod_left,
        Nat.mod_eq_of_lt (by omega)] at hno
    rw [Nat.zero_add] at hzero
    rw [hzero, hend, Nat.mod_self]
    exact Nat.count_zero _

/-- The cursor goes on by one among the eligible places, cyclically. -/
theorem rank_next {current k : ℕ} (hcurrent : current < n) (h : pick p n current = some k) :
    rank p (next p n current) ≡ rank p current + 1 [MOD rank p n] := by
  obtain ⟨hk, hp⟩ := pick_lt p h
  have hrank := rank_pick p hcurrent h
  have hsucc : rank p (k + 1) = rank p k + 1 := by
    rw [rank, Nat.count_succ, if_pos hp]
  have hmod : rank p k + 1 ≡ rank p current + 1 [MOD rank p n] := by
    rw [hrank]
    exact (Nat.mod_modEq _ _).add_right 1
  rw [next, h]
  change rank p ((k + 1) % n) ≡ _ [MOD _]
  rcases Nat.lt_or_ge (k + 1) n with hlt | hge
  · rwa [Nat.mod_eq_of_lt hlt, hsucc]
  · have hend : k + 1 = n := by omega
    rw [hend, Nat.mod_self]
    rw [hend] at hsucc
    rw [← hsucc] at hmod
    have hzero : rank p 0 = 0 := Nat.count_zero _
    rw [hzero]
    exact (Nat.modEq_zero_iff_dvd.mpr (dvd_refl _)).symm.trans hmod

theorem next_lt {current : ℕ} (hcurrent : current < n) : next p n current < n := by
  unfold next
  split
  · exact hcurrent
  · exact Nat.mod_lt _ (by omega)

/-! ## A run of turns -/

/-- The loads of a run of turns in which the places of `p` are available: `load k` turns went to the
place `k`, the cursor stands at `current`. -/
structure Rotation (n start : ℕ) (turns : ℕ) (current : ℕ) (load : ℕ → ℕ) : Prop where
  lt : current < n
  rank : rank p current ≡ rank p start + turns [MOD rank p n]
  load : ∀ k < n, p k = true →
    load k = Nat.count (fun t => (RoundRobin.rank p start + t) % RoundRobin.rank p n =
      RoundRobin.rank p k) turns

theorem Rotation.begin {start : ℕ} (hstart : start < n) :
    Rotation p n start 0 start (fun _ => 0) :=
  ⟨hstart, Nat.ModEq.refl _, fun _ _ _ => (Nat.count_zero _).symm⟩

/-- One more turn. -/
theorem Rotation.turn {start turns current k : ℕ} {load : ℕ → ℕ}
    (h : Rotation p n start turns current load) (hpick : pick p n current = some k) :
    Rotation p n start (turns + 1) ((k + 1) % n)
      (fun j => load j + if j = k then 1 else 0) := by
  obtain ⟨hk, hp⟩ := pick_lt p hpick
  have hnext : next p n current = (k + 1) % n := by rw [next, hpick]
  have hplace : RoundRobin.rank p k = (RoundRobin.rank p start + turns) % RoundRobin.rank p n := by
    rw [rank_pick p h.lt hpick]
    exact h.rank
  refine ⟨Nat.mod_lt _ (by omega), ?_, fun j hj hpj => ?_⟩
  · rw [← hnext]
    exact (rank_next p h.lt hpick).trans (h.rank.add_right 1)
  · rw [Nat.count_succ, h.load j hj hpj, ← hplace]
    refine congrArg (_ + ·) (if_congr ?_ rfl rfl)
    exact ⟨fun heq => by rw [heq], fun hrank => (rank_inj p hp hpj hrank).symm⟩

/-- In a rotation the turns are spread evenly. -/
theorem Rotation.balanced {start turns current : ℕ} {load : ℕ → ℕ}
    (h : Rotation p n start turns current load) {k k' : ℕ} (hk : k < n) (hp : p k = true)
    (hk' : k' < n) (hp' : p k' = true) : load k ≤ load k' + 1 := by
  have hpos : 0 < RoundRobin.rank p n := (Nat.zero_le _).trans_lt (rank_lt p hk hp)
  -- the turns of one place are those of one residue class
  have hclass : ∀ j < n, p j = true →
      turns / RoundRobin.rank p n ≤ load j ∧ load j ≤ turns / RoundRobin.rank p n + 1 := by
    intro j hj hpj
    have hlt := rank_lt p hj hpj
    have hload := h.load j hj hpj
    set m := RoundRobin.rank p n
    set s := RoundRobin.rank p start
    have hcongr : ∀ t, (s + t) % m = RoundRobin.rank p j ↔
        t ≡ RoundRobin.rank p j + (m - s % m) [MOD m] := by
      intro t
      have hs := Nat.mod_lt s hpos
      have hcancel : (m - s % m) + s ≡ 0 [MOD m] := by
        have hsplit := Nat.div_add_mod s m
        refine Nat.modEq_zero_iff_dvd.mpr ⟨s / m + 1, ?_⟩
        rw [Nat.mul_add, Nat.mul_one]
        omega
      rw [show (s + t) % m = RoundRobin.rank p j ↔ s + t ≡ RoundRobin.rank p j [MOD m] by
        rw [Nat.ModEq, Nat.mod_eq_of_lt hlt]]
      constructor
      · intro heq
        have hadd := heq.add_left (m - s % m)
        rw [← Nat.add_assoc] at hadd
        have hleft : t ≡ m - s % m + s + t [MOD m] := by
          simpa using (hcancel.symm.add_right t)
        exact (hleft.trans hadd).trans (by rw [Nat.add_comm])
      · intro heq
        have hadd := heq.add_left s
        refine hadd.trans ?_
        rw [Nat.add_left_comm, Nat.add_comm s]
        simpa using hcancel.add_left (RoundRobin.rank p j)
    simp only [hcongr] at hload
    rw [hload, Nat.count_modEq_card _ hpos]
    split <;> omega
  have hlow := hclass k' hk' hp'
  have hhigh := hclass k hk hp
  omega

end Lib.RoundRobin
