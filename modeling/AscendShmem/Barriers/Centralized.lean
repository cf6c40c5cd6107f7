import Mathlib
import AscendShmem.Barriers.Dissemination

/-!
# The centralized barrier of the device

`aclshmemi_barrier_npu_v3`: every vector core of every member PE takes part. The cores of a PE share
its counter word and its flag. Between two core barriers each core goes through every `k`-th place
of the team: at its own PE's place it writes the count to the flag of the PE, at the others it waits
for the flag there. The core barrier is taken as correct: nobody leaves its `j`-th core barrier
before all cores of the PE have arrived at their `j`-th.
-/

namespace AscendShmem.Barriers

/-- `ACLSHMEM_BARRIER_TG_DISSEM_KVAL` -/
def barrierTgDissemKval : ℕ := 8

/-- A team and the number of vector cores of the PE at each place. -/
structure Centralized where
  team : TeamShape
  vecSize : ℕ → ℕ

namespace Centralized

/-- Where a core is in its barrier. -/
inductive Phase where
  | outside
  /-- `count` is computed -/
  | loaded (count : ℕ)
  /-- at the first core barrier -/
  | meeting (count : ℕ)
  | loop (count i : ℕ)
  /-- the counter is stored -/
  | stored
  /-- at the second core barrier -/
  | leaving
deriving DecidableEq, Repr

/-- A core of the team. -/
structure Core where
  /-- completed barriers -/
  done : ℕ
  phase : Phase
deriving DecidableEq, Repr

/-- Core barriers this core has arrived at. -/
def Core.arrivals (l : Core) : ℕ :=
  2 * l.done + match l.phase with
    | .outside => 0
    | .loaded _ => 0
    | .meeting _ => 1
    | .loop _ _ => 1
    | .stored => 1
    | .leaving => 2

/-- The cores, and the words of the team that they share. -/
structure State where
  /-- by place in the team and block -/
  core : ℕ × ℕ → Core
  /-- the first word of the team in `sync_pool`, by PE -/
  flag : ℕ → ℕ
  /-- `sync_counter`, by PE -/
  counter : ℕ → ℕ

/-- No barrier has been entered, and every word is 0. -/
def State.init : State := ⟨fun _ => ⟨0, .outside⟩, fun _ => 0, fun _ => 0⟩

variable (b : Centralized)

/-- The stride of the loop on the PE at place `p`. -/
def k (p : ℕ) : ℕ := min (min barrierTgDissemKval b.team.size) (b.vecSize p)

/-- The next step of core `v` of the PE at place `p`, if it can make one. -/
def step (s : State) (x : ℕ × ℕ) : Option State :=
  if x.1 < b.team.size ∧ x.2 < b.vecSize x.1 then
    let here := s.core x
    let myPe := b.team.pe x.1
    let go := fun phase => Function.update s.core x { here with phase := phase }
    match here.phase with
    | .outside => some { s with core := go (.loaded (s.counter myPe + 1)) }
    | .loaded count => some { s with core := go (.meeting count) }
    | .meeting count =>
      if ∀ u < b.vecSize x.1, 2 * here.done + 1 ≤ (s.core (x.1, u)).arrivals then
        some { s with core := go (.loop count x.2) }
      else none
    | .loop count i =>
      if i < b.team.size then
        if i = b.team.place myPe then
          some { s with
            core := go (.loop count (i + b.k x.1))
            flag := Function.update s.flag myPe count }
        else if s.flag (b.team.pe i) = count ∨ s.flag (b.team.pe i) = count + 1 then
          some { s with core := go (.loop count (i + b.k x.1)) }
        else none
      else some { s with core := go .stored, counter := Function.update s.counter myPe count }
    | .stored => some { s with core := go .leaving }
    | .leaving =>
      if ∀ u < b.vecSize x.1, 2 * here.done + 2 ≤ (s.core (x.1, u)).arrivals then
        some { s with core := Function.update s.core x ⟨here.done + 1, .outside⟩ }
      else none
  else none

/-- The state after the cores of a schedule have made their steps. -/
def run (s : State) (schedule : List (ℕ × ℕ)) : Option State := schedule.foldlM b.step s

/-! ## What a core has done -/

/-- Barriers entered. -/
def Core.entries (l : Core) : ℕ :=
  l.done + match l.phase with
    | .outside => 0
    | _ => 1

/-- Barriers in which the core is past place `j` of its loop. -/
def Core.seen (l : Core) (j : ℕ) : ℕ :=
  l.done + match l.phase with
    | .loop _ i => if j < i then 1 else 0
    | .stored => 1
    | .leaving => 1
    | _ => 0

/-- Stores to the counter. -/
def Core.stores (l : Core) : ℕ :=
  l.done + match l.phase with
    | .stored => 1
    | .leaving => 1
    | _ => 0

/-- The count a core carries. -/
def Phase.count : Phase → Option ℕ
  | .loaded count => some count
  | .meeting count => some count
  | .loop count _ => some count
  | _ => none

/-- The core is behind the first core barrier. -/
def Phase.Past : Phase → Prop
  | .loop _ _ => True
  | .stored => True
  | .leaving => True
  | _ => False

/-- Core `v` of the PE at place `p` is responsible for place `j`. -/
def Visits (p v j : ℕ) : Prop := v ≤ j ∧ (j - v) % b.k p = 0

/-- What holds in every reachable state. -/
structure Inv (s : State) : Prop where
  count : ∀ p < b.team.size, ∀ v < b.vecSize p, ∀ c, (s.core (p, v)).phase.count = some c →
    c = (s.core (p, v)).done + 1
  visits : ∀ p < b.team.size, ∀ v < b.vecSize p, ∀ c i, (s.core (p, v)).phase = .loop c i →
    b.Visits p v i
  first : ∀ p < b.team.size, ∀ v < b.vecSize p, (s.core (p, v)).phase.Past →
    ∀ u < b.vecSize p, 2 * (s.core (p, v)).done + 1 ≤ (s.core (p, u)).arrivals
  second : ∀ p < b.team.size, ∀ v < b.vecSize p, ∀ u < b.vecSize p,
    2 * (s.core (p, v)).done ≤ (s.core (p, u)).arrivals
  flag_le : ∀ p < b.team.size, ∀ v < b.vecSize p,
    2 * s.flag (b.team.pe p) ≤ (s.core (p, v)).arrivals + 1
  seen_le : ∀ p < b.team.size, ∀ v < b.vecSize p, ∀ j < b.team.size, b.Visits p v j →
    (s.core (p, v)).seen j ≤ s.flag (b.team.pe j)
  stores_le : ∀ p < b.team.size, ∀ v < b.vecSize p,
    (s.core (p, v)).stores ≤ s.counter (b.team.pe p)
  stores_eq : ∀ p < b.team.size, ∃ v < b.vecSize p,
    (s.core (p, v)).stores = s.counter (b.team.pe p)

/-- What the barrier is for, and that its waits cannot miss their flag. -/
structure Safe (s : State) : Prop where
  /-- no core completes a barrier that some core of some member has not entered -/
  together : ∀ p < b.team.size, ∀ v < b.vecSize p, ∀ q < b.team.size, ∀ u < b.vecSize q,
    (s.core (p, v)).done ≤ (s.core (q, u)).entries
  /-- the count is the number of the barrier -/
  count : ∀ p < b.team.size, ∀ v < b.vecSize p, ∀ c, (s.core (p, v)).phase.count = some c →
    c = (s.core (p, v)).entries
  /-- a flag waited on is at most one off the count -/
  flag : ∀ p < b.team.size, ∀ v < b.vecSize p, ∀ c i, (s.core (p, v)).phase = .loop c i →
    i < b.team.size → i ≠ p →
    s.flag (b.team.pe i) + 1 = c ∨ s.flag (b.team.pe i) = c ∨ s.flag (b.team.pe i) = c + 1

/-- Every member has a core and a PE of its own. -/
structure Lawful : Prop where
  size_pos : 0 < b.team.size
  stride_pos : 0 < b.team.stride
  cores : ∀ p < b.team.size, 0 < b.vecSize p

section Order

variable {l : Core} {j : ℕ}

/-- A core between its core barriers has arrived once more than it has seen the other. -/
theorem arrivals_le_seen : l.arrivals ≤ 2 * l.seen j + 1 := by
  unfold Core.arrivals Core.seen
  cases l.phase with
  | loop c i =>
    dsimp only
    split <;> omega
  | _ =>
    dsimp only
    omega

theorem arrivals_le_entries : l.arrivals ≤ 2 * l.entries := by
  unfold Core.arrivals Core.entries
  cases l.phase <;> dsimp only <;> omega

theorem arrivals_le_done : l.arrivals ≤ 2 * l.done + 2 := by
  unfold Core.arrivals
  cases l.phase <;> dsimp only <;> omega

theorem done_le_stores : l.done ≤ l.stores := Nat.le_add_right _ _

end Order

/-! ## What follows from the invariant -/

section Consequences

variable {b} {s : State} {p v : ℕ}

theorem Lawful.k_pos (hb : b.Lawful) (hp : p < b.team.size) : 0 < b.k p := by
  have hcores := hb.cores p hp
  have hsize := hb.size_pos
  unfold k barrierTgDissemKval
  omega

/-- Some core of every PE is responsible for each place. -/
theorem Lawful.exists_visits (hb : b.Lawful) (hp : p < b.team.size) (j : ℕ) :
    ∃ w < b.vecSize p, b.Visits p w j := by
  have hlt : j % b.k p < b.k p := Nat.mod_lt _ (hb.k_pos hp)
  have hle : b.k p ≤ b.vecSize p := Nat.min_le_right _ _
  exact ⟨j % b.k p, by omega, Nat.mod_le _ _,
    Nat.sub_mod_eq_zero_of_mod_eq (Nat.mod_mod _ _).symm⟩

/-- A completed barrier shows in the flags of all members. -/
theorem Inv.done_le_flag (hb : b.Lawful) (h : b.Inv s) (hp : p < b.team.size)
    (hv : v < b.vecSize p) {j : ℕ} (hj : j < b.team.size) :
    (s.core (p, v)).done ≤ s.flag (b.team.pe j) := by
  rcases hb.exists_visits hp j with ⟨w, hw, hvisits⟩
  have hsecond := h.second p hp v hv w hw
  have hseen := h.seen_le p hp w hw j hj hvisits
  have harrivals : (s.core (p, w)).arrivals ≤ 2 * (s.core (p, w)).seen j + 1 := arrivals_le_seen
  omega

/-- Who enters a barrier reads the number of barriers it has completed. -/
theorem Inv.counter_of_outside (h : b.Inv s) (hp : p < b.team.size) (hv : v < b.vecSize p)
    (hout : (s.core (p, v)).phase = .outside) :
    s.counter (b.team.pe p) = (s.core (p, v)).done := by
  have harrivals : (s.core (p, v)).arrivals = 2 * (s.core (p, v)).done := by
    unfold Core.arrivals
    rw [hout]
    rfl
  have hle := done_le_stores.trans (h.stores_le p hp v hv)
  rcases h.stores_eq p hp with ⟨u, hu, hstores⟩
  have hsecond := h.second p hp u hu v hv
  have hfirst := h.first p hp u hu
  unfold Core.stores at hstores
  cases hphase : (s.core (p, u)).phase with
  | stored =>
    rw [hphase] at hstores hfirst
    have hlate := hfirst trivial v hv
    dsimp only at hstores
    omega
  | leaving =>
    rw [hphase] at hstores hfirst
    have hlate := hfirst trivial v hv
    dsimp only at hstores
    omega
  | _ =>
    rw [hphase] at hstores
    dsimp only at hstores
    omega

/-- The invariant contains the safety of the barrier. -/
theorem Inv.safe (h : b.Inv s) (hb : b.Lawful) : b.Safe s := by
  constructor
  · intro p hp v hv q hq u hu
    have hflag := h.done_le_flag hb hp hv hq
    have hle := h.flag_le q hq u hu
    have hentries : (s.core (q, u)).arrivals ≤ 2 * (s.core (q, u)).entries := arrivals_le_entries
    omega
  · intro p hp v hv c hc
    rw [h.count p hp v hv c hc]
    unfold Core.entries
    cases hphase : (s.core (p, v)).phase with
    | outside =>
      rw [hphase] at hc
      cases hc
    | _ => rfl
  · intro p hp v hv c i hloop hi _
    have hc := h.count p hp v hv c (by rw [hloop]; rfl)
    have hlower := h.done_le_flag hb hp hv hi
    -- the member at `i` is at most one barrier ahead of what it last saw here
    have hahead := h.flag_le i hi 0 (hb.cores i hi)
    have hdone : (s.core (i, 0)).arrivals ≤ 2 * (s.core (i, 0)).done + 2 := arrivals_le_done
    have hback := h.done_le_flag hb hi (hb.cores i hi) hp
    have hown := h.flag_le p hp v hv
    have harrivals : (s.core (p, v)).arrivals = 2 * (s.core (p, v)).done + 1 := by
      unfold Core.arrivals
      rw [hloop]
    omega

end Consequences

/-! ## The invariant is kept -/

section Preservation

variable {b} {s s' : State} {p v : ℕ} {l : Core}

/-- What is left to show when one core moves. -/
theorem Inv.of_update (hb : b.Lawful) (h : b.Inv s) (hp : p < b.team.size) (hv : v < b.vecSize p)
    (hmove : s'.core = Function.update s.core (p, v) l)
    (hcount : ∀ c, l.phase.count = some c → c = l.done + 1)
    (hvisits : ∀ c i, l.phase = .loop c i → b.Visits p v i)
    (harrivals : (s.core (p, v)).arrivals ≤ l.arrivals)
    (hfirst : l.phase.Past → ∀ u < b.vecSize p, 2 * l.done + 1 ≤ (s.core (p, u)).arrivals)
    (hsecond : ∀ u < b.vecSize p, 2 * l.done ≤ (s.core (p, u)).arrivals)
    (hflag : s'.flag = s.flag ∨ ∃ c, s'.flag = Function.update s.flag (b.team.pe p) c ∧
      s.flag (b.team.pe p) ≤ c ∧ ∀ u < b.vecSize p, 2 * c ≤ (s.core (p, u)).arrivals + 1)
    (hseen : ∀ j < b.team.size, b.Visits p v j → l.seen j ≤ s'.flag (b.team.pe j))
    (hstores : (s'.counter = s.counter ∧ l.stores = (s.core (p, v)).stores) ∨
      (s'.counter = Function.update s.counter (b.team.pe p) l.stores ∧
        ∀ u < b.vecSize p, (s.core (p, u)).stores ≤ l.stores)) : b.Inv s' := by
  have hself : s'.core (p, v) = l := by rw [hmove, Function.update_self]
  have hrest : ∀ {q u : ℕ}, (q, u) ≠ (p, v) → s'.core (q, u) = s.core (q, u) := by
    intro q u hne
    rw [hmove, Function.update_of_ne hne]
  -- arrivals only grow
  have hgrow : ∀ q u, (s.core (q, u)).arrivals ≤ (s'.core (q, u)).arrivals := by
    intro q u
    by_cases heq : (q, u) = (p, v)
    · rw [heq, hself]
      exact harrivals
    · rw [hrest heq]
  have hflag_le : ∀ q, s.flag (b.team.pe q) ≤ s'.flag (b.team.pe q) := by
    intro q
    rcases hflag with hflag | ⟨c, hflag, hle, -⟩
    · rw [hflag]
    · rw [hflag]
      by_cases heq : b.team.pe q = b.team.pe p
      · rw [heq, Function.update_self]
        exact hle
      · rw [Function.update_of_ne heq]
  constructor
  · intro q hq u hu c hc
    by_cases heq : (q, u) = (p, v)
    · rw [heq, hself] at hc ⊢
      exact hcount c hc
    · rw [hrest heq] at hc ⊢
      exact h.count q hq u hu c hc
  · intro q hq u hu c i hloop
    by_cases heq : (q, u) = (p, v)
    · rw [heq, hself] at hloop
      rw [(Prod.mk.inj heq).1, (Prod.mk.inj heq).2]
      exact hvisits c i hloop
    · rw [hrest heq] at hloop
      exact h.visits q hq u hu c i hloop
  · intro q hq u hu hpast w hw
    apply le_trans _ (hgrow q w)
    by_cases heq : (q, u) = (p, v)
    · rw [heq, hself] at hpast ⊢
      rw [(Prod.mk.inj heq).1] at hw ⊢
      exact hfirst hpast w hw
    · rw [hrest heq] at hpast ⊢
      exact h.first q hq u hu hpast w hw
  · intro q hq u hu w hw
    apply le_trans _ (hgrow q w)
    by_cases heq : (q, u) = (p, v)
    · rw [heq, hself]
      rw [(Prod.mk.inj heq).1] at hw ⊢
      exact hsecond w hw
    · rw [hrest heq]
      exact h.second q hq u hu w hw
  · intro q hq u hu
    have hle := h.flag_le q hq u hu
    have hmono := hgrow q u
    rcases hflag with hflag | ⟨c, hflag, -, hc⟩
    · rw [hflag]
      omega
    · rw [hflag]
      by_cases heq : b.team.pe q = b.team.pe p
      · have hqp := TeamShape.pe_inj hb.stride_pos heq
        rw [hqp] at hu hmono ⊢
        rw [Function.update_self]
        have hbound := hc u hu
        omega
      · rw [Function.update_of_ne heq]
        omega
  · intro q hq u hu j hj hvisit
    by_cases heq : (q, u) = (p, v)
    · rw [heq, hself]
      rw [(Prod.mk.inj heq).1, (Prod.mk.inj heq).2] at hvisit
      exact hseen j hj hvisit
    · rw [hrest heq]
      exact (h.seen_le q hq u hu j hj hvisit).trans (hflag_le j)
  · intro q hq u hu
    rcases hstores with ⟨hcounter, hsame⟩ | ⟨hcounter, hle⟩
    · rw [hcounter]
      by_cases heq : (q, u) = (p, v)
      · rw [heq, hself, hsame, (Prod.mk.inj heq).1]
        exact h.stores_le p hp v hv
      · rw [hrest heq]
        exact h.stores_le q hq u hu
    · rw [hcounter]
      by_cases hpe : b.team.pe q = b.team.pe p
      · rw [hpe, Function.update_self]
        by_cases heq : (q, u) = (p, v)
        · rw [heq, hself]
        · rw [hrest heq, TeamShape.pe_inj hb.stride_pos hpe]
          rw [TeamShape.pe_inj hb.stride_pos hpe] at hu
          exact hle u hu
      · rw [Function.update_of_ne hpe, hrest]
        · exact h.stores_le q hq u hu
        · intro heq
          exact hpe (congrArg b.team.pe (Prod.mk.inj heq).1)
  · intro q hq
    rcases hstores with ⟨hcounter, hsame⟩ | ⟨hcounter, -⟩
    · rcases h.stores_eq q hq with ⟨u, hu, hstores⟩
      refine ⟨u, hu, ?_⟩
      rw [hcounter, ← hstores]
      by_cases heq : (q, u) = (p, v)
      · rw [heq, hself, hsame]
      · rw [hrest heq]
    · rw [hcounter]
      by_cases hpe : b.team.pe q = b.team.pe p
      · have hqp := TeamShape.pe_inj hb.stride_pos hpe
        rw [hqp, Function.update_self]
        exact ⟨v, hv, by rw [hself]⟩
      · rcases h.stores_eq q hq with ⟨u, hu, hstores⟩
        refine ⟨u, hu, ?_⟩
        rw [Function.update_of_ne hpe, ← hstores, hrest]
        intro heq
        exact hpe (congrArg b.team.pe (Prod.mk.inj heq).1)

section Steps

variable (hb : b.Lawful) (h : b.Inv s) (hp : p < b.team.size) (hv : v < b.vecSize p)
include hb h hp hv

/-- A core enters. -/
theorem Inv.enter (hphase : (s.core (p, v)).phase = .outside) :
    b.Inv { s with
      core := Function.update s.core (p, v)
        { s.core (p, v) with phase := .loaded (s.counter (b.team.pe p) + 1) } } := by
  apply h.of_update hb hp hv rfl
  · intro c hc
    rw [← Option.some.inj hc, h.counter_of_outside hp hv hphase]
  · exact nofun
  · unfold Core.arrivals
    rw [hphase]
  · exact nofun
  · exact fun u hu => h.second p hp v hv u hu
  · exact Or.inl rfl
  · intro j hj hvisit
    have hle := h.seen_le p hp v hv j hj hvisit
    unfold Core.seen at hle ⊢
    rwa [hphase] at hle
  · apply Or.inl
    apply And.intro rfl
    unfold Core.stores
    rw [hphase]

/-- A core arrives at the first core barrier. -/
theorem Inv.meet {c : ℕ} (hphase : (s.core (p, v)).phase = .loaded c) :
    b.Inv { s with
      core := Function.update s.core (p, v) { s.core (p, v) with phase := .meeting c } } := by
  have hc := h.count p hp v hv c (by rw [hphase]; rfl)
  apply h.of_update hb hp hv rfl
  · intro c' hc'
    rw [← Option.some.inj hc', hc]
  · exact nofun
  · unfold Core.arrivals
    rw [hphase]
    exact Nat.le_add_right _ _
  · exact nofun
  · exact fun u hu => h.second p hp v hv u hu
  · exact Or.inl rfl
  · intro j hj hvisit
    have hle := h.seen_le p hp v hv j hj hvisit
    unfold Core.seen at hle ⊢
    rwa [hphase] at hle
  · apply Or.inl
    apply And.intro rfl
    unfold Core.stores
    rw [hphase]

/-- A core passes the first core barrier, at which all cores of its PE have arrived. -/
theorem Inv.start {c : ℕ} (hphase : (s.core (p, v)).phase = .meeting c)
    (hall : ∀ u < b.vecSize p, 2 * (s.core (p, v)).done + 1 ≤ (s.core (p, u)).arrivals) :
    b.Inv { s with
      core := Function.update s.core (p, v) { s.core (p, v) with phase := .loop c v } } := by
  have hc := h.count p hp v hv c (by rw [hphase]; rfl)
  apply h.of_update hb hp hv rfl
  · intro c' hc'
    rw [← Option.some.inj hc', hc]
  · intro c' i hloop
    cases hloop
    exact ⟨le_rfl, by rw [Nat.sub_self, Nat.zero_mod]⟩
  · unfold Core.arrivals
    rw [hphase]
  · exact fun _ => hall
  · exact fun u hu => h.second p hp v hv u hu
  · exact Or.inl rfl
  · intro j hj hvisit
    have hle := h.seen_le p hp v hv j hj hvisit
    unfold Core.seen at hle ⊢
    rw [hphase] at hle
    dsimp only at hle ⊢
    rwa [if_neg (not_lt.mpr hvisit.1)]
  · apply Or.inl
    apply And.intro rfl
    unfold Core.stores
    rw [hphase]

/-- A turn of the loop at place `i` that leaves the flag there at the count or beyond. -/
theorem Inv.turn {c i : ℕ} (hphase : (s.core (p, v)).phase = .loop c i) {flag : ℕ → ℕ}
    (hflag : flag = s.flag ∨ flag = Function.update s.flag (b.team.pe p) c)
    (hi : c ≤ flag (b.team.pe i)) :
    b.Inv { s with
      core := Function.update s.core (p, v)
        { s.core (p, v) with phase := .loop c (i + b.k p) }
      flag := flag } := by
  have hc := h.count p hp v hv c (by rw [hphase]; rfl)
  have hvisits := h.visits p hp v hv c i hphase
  have hpast : (s.core (p, v)).phase.Past := by
    rw [hphase]
    trivial
  have harrivals : (s.core (p, v)).arrivals = 2 * (s.core (p, v)).done + 1 := by
    unfold Core.arrivals
    rw [hphase]
  have hown : s.flag (b.team.pe p) ≤ c := by
    have hle := h.flag_le p hp v hv
    omega
  have hmono : ∀ q, s.flag (b.team.pe q) ≤ flag (b.team.pe q) := by
    intro q
    rcases hflag with hflag | hflag
    · rw [hflag]
    · rw [hflag]
      by_cases heq : b.team.pe q = b.team.pe p
      · rw [heq, Function.update_self]
        exact hown
      · rw [Function.update_of_ne heq]
  apply h.of_update hb hp hv rfl
  · intro c' hc'
    rw [← Option.some.inj hc', hc]
  · intro c' j hloop
    cases hloop
    have hle := hvisits.1
    exact ⟨by omega, by rw [Nat.sub_add_comm hle, Nat.add_mod_right, hvisits.2]⟩
  · unfold Core.arrivals
    rw [hphase]
  · exact fun _ => h.first p hp v hv hpast
  · exact fun u hu => h.second p hp v hv u hu
  · rcases hflag with hflag | hflag
    · exact Or.inl hflag
    · apply Or.inr
      refine ⟨c, hflag, hown, fun u hu => ?_⟩
      have hlate := h.first p hp v hv hpast u hu
      omega
  · intro j hj hvisit
    by_cases heq : j = i
    · rw [heq]
      apply le_trans _ hi
      rw [hc]
      unfold Core.seen
      dsimp only
      split <;> omega
    · -- the loop jumps over the places of other cores
      have hle := (h.seen_le p hp v hv j hj hvisit).trans (hmono j)
      have hsame : j < i + b.k p → j < i := by
        intro hlt
        by_contra hge
        have hgap : (j - i) % b.k p = 0 := by
          have hsum : j - v = j - i + (i - v) := by
            have hvi := hvisits.1
            omega
          have hmod := hvisit.2
          rw [hsum, Nat.add_mod, hvisits.2, Nat.add_zero, Nat.mod_mod] at hmod
          exact hmod
        rw [Nat.mod_eq_of_lt (by omega)] at hgap
        omega
      unfold Core.seen at hle ⊢
      rw [hphase] at hle
      dsimp only at hle ⊢
      split
      · rename_i hlt
        rwa [if_pos (hsame hlt)] at hle
      · exact le_trans (Nat.le_add_right _ _) hle
  · apply Or.inl
    apply And.intro rfl
    unfold Core.stores
    rw [hphase]

/-- A core stores the flag behind its last visit. -/
theorem Inv.store {c i : ℕ} (hphase : (s.core (p, v)).phase = .loop c i)
    (hi : ¬ i < b.team.size) :
    b.Inv { s with
      core := Function.update s.core (p, v) { s.core (p, v) with phase := .stored }
      counter := Function.update s.counter (b.team.pe p) c } := by
  have hc := h.count p hp v hv c (by rw [hphase]; rfl)
  have harrivals : (s.core (p, v)).arrivals = 2 * (s.core (p, v)).done + 1 := by
    unfold Core.arrivals
    rw [hphase]
  apply h.of_update hb hp hv rfl
  · exact nofun
  · exact nofun
  · unfold Core.arrivals
    rw [hphase]
  · intro _
    apply h.first p hp v hv
    rw [hphase]
    trivial
  · exact fun u hu => h.second p hp v hv u hu
  · exact Or.inl rfl
  -- the loop has ended, so this core has visited every member
  · intro j hj hvisit
    have hle := h.seen_le p hp v hv j hj hvisit
    unfold Core.seen at hle ⊢
    rw [hphase] at hle
    dsimp only at hle ⊢
    rwa [if_pos (by omega)] at hle
  · apply Or.inr
    constructor
    · show Function.update s.counter (b.team.pe p) c = _
      rw [hc]
      rfl
    · intro u hu
      show (s.core (p, u)).stores ≤ (s.core (p, v)).done + 1
      have hsecond := h.second p hp u hu v hv
      have hfirst := h.first p hp u hu
      -- no core of this PE has stored more often
      unfold Core.stores
      cases hu' : (s.core (p, u)).phase with
      | stored =>
        rw [hu'] at hfirst
        have hlate := hfirst trivial v hv
        dsimp only
        omega
      | leaving =>
        rw [hu'] at hfirst
        have hlate := hfirst trivial v hv
        dsimp only
        omega
      | _ =>
        dsimp only
        omega

/-- A core arrives at the second core barrier. -/
theorem Inv.finish (hphase : (s.core (p, v)).phase = .stored) :
    b.Inv { s with
      core := Function.update s.core (p, v) { s.core (p, v) with phase := .leaving } } := by
  apply h.of_update hb hp hv rfl
  · exact nofun
  · exact nofun
  · unfold Core.arrivals
    rw [hphase]
    exact Nat.le_succ _
  · intro _
    apply h.first p hp v hv
    rw [hphase]
    trivial
  · exact fun u hu => h.second p hp v hv u hu
  · exact Or.inl rfl
  · intro j hj hvisit
    have hle := h.seen_le p hp v hv j hj hvisit
    unfold Core.seen at hle ⊢
    rwa [hphase] at hle
  · apply Or.inl
    apply And.intro rfl
    unfold Core.stores
    rw [hphase]

/-- A core passes the second core barrier, and with it the barrier. -/
theorem Inv.leave (hphase : (s.core (p, v)).phase = .leaving)
    (hall : ∀ u < b.vecSize p, 2 * (s.core (p, v)).done + 2 ≤ (s.core (p, u)).arrivals) :
    b.Inv { s with
      core := Function.update s.core (p, v) ⟨(s.core (p, v)).done + 1, .outside⟩ } := by
  apply h.of_update hb hp hv rfl
  · exact nofun
  · exact nofun
  · unfold Core.arrivals
    rw [hphase]
    exact (Nat.mul_succ 2 _).ge
  · exact nofun
  · intro u hu
    have hlate := hall u hu
    show 2 * ((s.core (p, v)).done + 1) ≤ _
    omega
  · exact Or.inl rfl
  · intro j hj hvisit
    have hle := h.seen_le p hp v hv j hj hvisit
    unfold Core.seen at hle ⊢
    rwa [hphase] at hle
  · apply Or.inl
    apply And.intro rfl
    unfold Core.stores
    rw [hphase]
    rfl

end Steps

/-- One step of one core. -/
theorem Inv.step (hb : b.Lawful) (h : b.Inv s) {x : ℕ × ℕ} (hstep : b.step s x = some s') :
    b.Inv s' := by
  rcases x with ⟨p, v⟩
  unfold Centralized.step at hstep
  by_cases hx : p < b.team.size ∧ v < b.vecSize p
  · rw [if_pos hx] at hstep
    rcases hx with ⟨hp, hv⟩
    dsimp only at hstep
    cases hphase : (s.core (p, v)).phase with
    | outside =>
      rw [hphase] at hstep
      rw [← Option.some.inj hstep]
      exact h.enter hb hp hv hphase
    | loaded c =>
      rw [hphase] at hstep
      rw [← Option.some.inj hstep]
      exact h.meet hb hp hv hphase
    | meeting c =>
      rw [hphase] at hstep
      dsimp only at hstep
      split at hstep
      · rename_i hall
        rw [← Option.some.inj hstep]
        exact h.start hb hp hv hphase hall
      · cases hstep
    | loop c i =>
      rw [hphase] at hstep
      dsimp only at hstep
      by_cases hi : i < b.team.size
      · rw [if_pos hi, TeamShape.place_pe hb.stride_pos] at hstep
        by_cases hown : i = p
        · -- the flag of this PE
          rw [if_pos hown] at hstep
          rw [← Option.some.inj hstep]
          apply h.turn hb hp hv hphase (Or.inr rfl)
          rw [hown, Function.update_self]
        · rw [if_neg hown] at hstep
          split at hstep
          · rename_i hflag
            rw [← Option.some.inj hstep]
            apply h.turn hb hp hv hphase (Or.inl rfl)
            omega
          · cases hstep
      · rw [if_neg hi] at hstep
        rw [← Option.some.inj hstep]
        exact h.store hb hp hv hphase hi
    | stored =>
      rw [hphase] at hstep
      rw [← Option.some.inj hstep]
      exact h.finish hb hp hv hphase
    | leaving =>
      rw [hphase] at hstep
      dsimp only at hstep
      split at hstep
      · rename_i hall
        rw [← Option.some.inj hstep]
        exact h.leave hb hp hv hphase hall
      · cases hstep
  · rw [if_neg hx] at hstep
    cases hstep

theorem Inv.init (hb : b.Lawful) : b.Inv State.init := by
  constructor
  · exact fun p _ v _ c hc => by cases hc
  · exact fun p _ v _ c i hloop => by cases hloop
  · exact fun p _ v _ hpast => hpast.elim
  · exact fun p _ v _ u _ => le_rfl
  · exact fun p _ v _ => Nat.zero_le _
  · exact fun p _ v _ j _ _ => le_rfl
  · exact fun p _ v _ => le_rfl
  · exact fun p hp => ⟨0, hb.cores p hp, rfl⟩

/-- Every run keeps the invariant. -/
theorem Lawful.inv_of_run (hb : b.Lawful) {schedule : List (ℕ × ℕ)} (h : b.Inv s)
    (hrun : b.run s schedule = some s') : b.Inv s' := by
  induction schedule generalizing s with
  | nil => rwa [← Option.some.inj hrun]
  | cons x schedule ih =>
    rw [Centralized.run, List.foldlM_cons, Option.bind_eq_bind, Option.bind_eq_some_iff] at hrun
    rcases hrun with ⟨s₁, hstep, hrest⟩
    exact ih (h.step hb hstep) hrest

end Preservation

end Centralized

/-- In every run of the centralized barrier, with any team and any number of cores, no core
completes a barrier that some core has not entered, all cores count alike, and a flag waited on is
at most one off the count. -/
theorem centralized_barrier_safe {b : Centralized} (hsize : 0 < b.team.size)
    (hstride : 0 < b.team.stride) (hcores : ∀ p < b.team.size, 0 < b.vecSize p)
    {schedule : List (ℕ × ℕ)} {s : Centralized.State}
    (hrun : b.run Centralized.State.init schedule = some s) : b.Safe s := by
  have hb : b.Lawful := ⟨hsize, hstride, hcores⟩
  exact (hb.inv_of_run (Centralized.Inv.init hb) hrun).safe hb

/-- PEs 1 and 4 with two cores each: the first PE has gone through a barrier. -/
theorem centralized_barrier_safe_sample :
    ∃ s, (Centralized.mk ⟨1, 3, 2⟩ fun _ => 2).run Centralized.State.init
        [(0, 0), (0, 1), (0, 0), (0, 1), (0, 0), (0, 1), (1, 0), (1, 1), (1, 0), (1, 1), (1, 0),
          (1, 1), (1, 1), (0, 0), (0, 1), (0, 0), (0, 1), (0, 0), (0, 1), (0, 0)] = some s ∧
      (s.core (0, 0)).done = 1 ∧ (Centralized.mk ⟨1, 3, 2⟩ fun _ => 2).Safe s := by
  have hdone : ((Centralized.mk ⟨1, 3, 2⟩ fun _ => 2).run Centralized.State.init
      [(0, 0), (0, 1), (0, 0), (0, 1), (0, 0), (0, 1), (1, 0), (1, 1), (1, 0), (1, 1), (1, 0),
        (1, 1), (1, 1), (0, 0), (0, 1), (0, 0), (0, 1), (0, 0), (0, 1), (0, 0)]).map
      (fun s => (s.core (0, 0)).done) = some 1 := by decide +kernel
  rcases Option.map_eq_some_iff.mp hdone with ⟨s, hs, hdone⟩
  exact ⟨s, hs, hdone, centralized_barrier_safe (by decide) (by decide) (fun _ _ => Nat.succ_pos 1) hs⟩

end AscendShmem.Barriers
