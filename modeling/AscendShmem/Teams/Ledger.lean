import Mathlib
import AscendShmem.Teams.NestedSplits

/-!
# The life of the teams of one PE

A PE splits and destroys teams in any order and with any arguments. The ledger runs beside it: the
teams that splits have returned and no call has destroyed since, and for each of them what its
stack object lay on when its mapping was filled.
-/

namespace AscendShmem.Teams

/-- A call that changes the teams of a PE. -/
inductive TeamCall where
  | split (call : SplitCall)
  | destroy (team : ℤ)

/-- The state with the live teams and the stale part of their mappings. -/
structure Ledger where
  state : PeState
  /-- `WORLD` and the teams returned by splits, without the ones destroyed since -/
  live : Finset ℤ
  /-- what the mapping of a team held before it was filled -/
  stack : ℤ → ℤ → ℤ

/-- The index a split returns. -/
def SplitResult.index (r : SplitResult) : Option ℤ :=
  if r.ret = success then r.newTeam.filter (· ≠ teamInvalid) else none

/-- The entry a split makes. -/
def Ledger.enter (l : Ledger) (stack : ℤ → ℤ) (r : SplitResult) : Ledger :=
  match r.index with
  | none => { l with state := r.state }
  | some t => ⟨r.state, insert t l.live, Function.update l.stack t stack⟩

/-- The ledger after a call that returns. -/
def Ledger.step (l : Ledger) : TeamCall → Option Ledger
  | .split call =>
    (l.state.splitStrided call.args call.host call.newTeam).map (l.enter call.host.stack)
  | .destroy team =>
    (l.state.destroy team).map fun s => { l with state := s, live := l.live.erase team }

/-- Calls one after the other. -/
def Ledger.run (l : Ledger) : List TeamCall → Option Ledger
  | [] => some l
  | call :: calls => (l.step call).bind fun l' => l'.run calls

/-- Every call satisfies `P` in the state it is made in. -/
def Ledger.EachCall (P : Ledger → TeamCall → Prop) (l : Ledger) : List TeamCall → Prop
  | [] => True
  | call :: calls => P l call ∧ ∀ l', l.step call = some l' → l'.EachCall P calls

/-- A new PE has the world. -/
def Ledger.init (rank size : ℤ) : Option Ledger :=
  (PeState.init rank size).map fun s => ⟨s, {teamWorld}, fun _ => Team.blank.peMapping⟩

/-! ## The second half of a mapping -/

/-- The second half of the mapping of a team inverts the first; beside that it is what it was. -/
structure Team.Inverts (t : Team) (stack : ℤ → ℤ) : Prop where
  member : ∀ i, 0 ≤ i → i < t.size → t.peMapping (t.start + i * t.stride + maxPes) = i
  other : ∀ k, maxPes ≤ k → (∀ i, 0 ≤ i → i < t.size → k ≠ t.start + i * t.stride + maxPes) →
    t.peMapping k = stack k

/-- A member's global number is mapped back to its place. -/
theorem fillMapping_member {stack m : ℤ → ℤ} {start stride : ℤ} {n : ℕ} (hstart : 0 ≤ start)
    (hstride : 1 ≤ stride) (hn : n ≤ maxPes) (h : fillMapping stack start stride n = some m) {i : ℤ}
    (hi : 0 ≤ i) (hlt : i < n) : m (start + i * stride + maxPes) = i := by
  induction n generalizing m i with
  | zero => exact absurd hlt (by simpa using hi)
  | succ n ih =>
    simp only [fillMapping, Option.bind_eq_bind, Option.bind_eq_some_iff, int32_eq_some,
      store_eq_some] at h
    rcases h with ⟨m', hm', offset, ⟨-, hoffset⟩, pe, ⟨-, hpe⟩, m'', ⟨-, hm''⟩, inverse,
      ⟨-, hinverse⟩, -, hm⟩
    push_cast at hn hlt
    rw [← hm]
    by_cases heq : i = n
    · rw [heq, hoffset, hpe, hinverse, Function.update_self]
    · -- another member has another number, and the list lies before all of them
      have hsplit : (n : ℤ) * stride = i * stride + (n - i) * stride := by ring
      have hbehind : 1 ≤ (n - i) * stride := one_le_mul_of_one_le_of_one_le (by omega) hstride
      have hoff : 0 ≤ i * stride := mul_nonneg hi (by omega)
      rw [Function.update_of_ne (by omega), ← hm'', Function.update_of_ne (by omega)]
      exact ih (by omega) hm' hi (by omega)

/-- Other entries keep what was there. -/
theorem fillMapping_other {stack m : ℤ → ℤ} {start stride : ℤ} {n : ℕ} (hn : n ≤ maxPes)
    (h : fillMapping stack start stride n = some m) {k : ℤ} (hk : maxPes ≤ k)
    (hout : ∀ i : ℤ, 0 ≤ i → i < n → k ≠ start + i * stride + maxPes) : m k = stack k := by
  induction n generalizing m with
  | zero => rw [← Option.some.inj h]
  | succ n ih =>
    simp only [fillMapping, Option.bind_eq_bind, Option.bind_eq_some_iff, int32_eq_some,
      store_eq_some] at h
    rcases h with ⟨m', hm', offset, ⟨-, hoffset⟩, pe, ⟨-, hpe⟩, m'', ⟨-, hm''⟩, inverse,
      ⟨-, hinverse⟩, -, hm⟩
    push_cast at hn hout
    have hne := hout n (Int.natCast_nonneg n) (by omega)
    rw [← hm, Function.update_of_ne (by omega), ← hm'', Function.update_of_ne (by omega)]
    exact ih (by omega) hm' fun i hi hlt => hout i hi (by omega)

/-- The entries behind the members keep what was there. -/
theorem constantStride_rest {m₀ m : ℤ → ℤ} {start stride : ℤ} {n : ℕ}
    (h : constantStride m₀ start stride n = some m) {k : ℤ} (hk : n ≤ k) : m k = m₀ k := by
  induction n generalizing m with
  | zero => rw [← Option.some.inj h]
  | succ n ih =>
    simp only [constantStride, Option.bind_eq_bind, Option.bind_eq_some_iff, int32_eq_some,
      store_eq_some] at h
    rcases h with ⟨m', hm', offset, -, pe, -, -, hm⟩
    push_cast at hk
    rw [← hm, Function.update_of_ne (by omega)]
    exact ih hm' (by omega)

/-- The inverse of the identity is the identity. -/
theorem invertMapping_member {m₀ m : ℤ → ℤ} {n : ℕ} (h : invertMapping m₀ n = some m)
    (hn : n ≤ maxPes) (hm₀ : ∀ j : ℤ, 0 ≤ j → j < n → m₀ j = j) {i : ℤ} (hi : 0 ≤ i)
    (hlt : i < n) : m (i + maxPes) = i := by
  induction n generalizing m i with
  | zero => exact absurd hlt (by simpa using hi)
  | succ n ih =>
    simp only [invertMapping, Option.bind_eq_bind, Option.bind_eq_some_iff, int32_eq_some,
      store_eq_some] at h
    rcases h with ⟨m', hm', inverse, ⟨-, hinverse⟩, -, hm⟩
    push_cast at hn hlt hm₀
    have hsame : m' n = n := by
      rw [invertMapping_list hm' (by omega)
        (fun j hj hlt => by rw [hm₀ j hj (by omega)]; exact hj) (by omega)]
      exact hm₀ n (Int.natCast_nonneg n) (by omega)
    rw [hsame] at hinverse
    rw [← hm]
    by_cases heq : i = n
    · rw [heq, hinverse, Function.update_self]
    · rw [Function.update_of_ne (by omega)]
      exact ih hm' (by omega) (fun j hj hlt => hm₀ j hj (by omega)) hi (by omega)

/-- Other entries keep what was there. -/
theorem invertMapping_other {m₀ m : ℤ → ℤ} {n : ℕ} (h : invertMapping m₀ n = some m)
    (hn : n ≤ maxPes) (hm₀ : ∀ j : ℤ, 0 ≤ j → j < n → m₀ j = j) {k : ℤ}
    (hout : ∀ i : ℤ, 0 ≤ i → i < n → k ≠ i + maxPes) : m k = m₀ k := by
  induction n generalizing m with
  | zero => rw [← Option.some.inj h]
  | succ n ih =>
    simp only [invertMapping, Option.bind_eq_bind, Option.bind_eq_some_iff, int32_eq_some,
      store_eq_some] at h
    rcases h with ⟨m', hm', inverse, ⟨-, hinverse⟩, -, hm⟩
    push_cast at hn hm₀ hout
    have hsame : m' n = n := by
      rw [invertMapping_list hm' (by omega)
        (fun j hj hlt => by rw [hm₀ j hj (by omega)]; exact hj) (by omega)]
      exact hm₀ n (Int.natCast_nonneg n) (by omega)
    have hne := hout n (Int.natCast_nonneg n) (by omega)
    rw [hsame] at hinverse
    rw [← hm, Function.update_of_ne (by omega)]
    exact ih hm' (by omega) (fun j hj hlt => hm₀ j hj (by omega))
      fun i hi hlt => hout i hi (by omega)

/-! ## What a ledger knows -/

/-- The mask is the set of live teams, and every live team is a progression with an inverted
mapping. -/
structure Ledger.Sound (l : Ledger) : Prop where
  single : l.state.instanceId = 0
  initialized : l.state.initialized = true
  poolAllocated : l.state.poolAllocated = true
  world : l.state.npes ≤ maxPes
  wellFormed : l.state.WellFormed
  inside : ∀ t ∈ l.live, 0 ≤ t ∧ t < 64
  used : ∀ t, 0 ≤ t → t < 64 → (l.state.teamMask.getLsbD t.toNat = true ↔ t ∈ l.live)
  inverts : ∀ t ∈ l.live, (l.state.teamPool t).Inverts (l.stack t)

/-- A team is valid exactly if it is live. -/
theorem Ledger.Sound.isValidTeam_iff {l : Ledger} (h : l.Sound) {t : ℤ} :
    l.state.isValidTeam t = some true ↔ t ∈ l.live := by
  rw [PeState.isValidTeam_true]
  constructor
  · intro hvalid
    exact (h.used t hvalid.2.2.1.1 hvalid.2.2.1.2).mp hvalid.2.2.2
  · intro hlive
    have hrange := h.inside t hlive
    exact ⟨h.initialized, h.poolAllocated, hrange, (h.used t hrange.1 hrange.2).mpr hlive⟩

theorem not_live_of_clear {l : Ledger} (h : l.Sound) {idx : ℤ}
    (hclear : LowestClear l.state.teamMask idx) : idx ∉ l.live := by
  rw [← h.used idx hclear.nonneg hclear.lt, hclear.clear]
  exact Bool.false_ne_true

/-- Destroying keeps the instance. -/
theorem destroy_instanceId {s s' : PeState} {team : ℤ} (h : s.destroy team = some s') :
    s'.instanceId = s.instanceId := by
  rw [PeState.destroy, Option.bind_eq_bind, Option.bind_eq_some_iff] at h
  rcases h with ⟨valid, -, h⟩
  cases valid with
  | true => rw [← Option.some.inj h]
  | false => rw [← Option.some.inj h]

/-- Enrolling keeps the instance. -/
theorem enroll_instanceId {s : PeState} {team : Team} {host : Host} {out : Option ℤ}
    {r : SplitResult} (h : s.enroll team host out = some r) :
    r.state.instanceId = s.instanceId := by
  rw [PeState.enroll, Option.bind_eq_bind, Option.bind_eq_some_iff] at h
  rcases h with ⟨fetched, -, h⟩
  by_cases hfull : fetched.1 = -1
  · simp only [if_pos hfull] at h
    rw [← Option.some.inj h]
  simp only [if_neg hfull] at h
  by_cases hteam : host.teamUpdate = true
  · by_cases hstate : host.stateUpdate = true
    · simp only [hteam, hstate, Bool.not_true, Bool.false_eq_true, if_false] at h
      rw [← Option.some.inj h]
    · simp only [hteam, hstate, Bool.not_true, Bool.not_false, Bool.false_eq_true, if_false,
        if_true, Option.bind_eq_bind, Option.bind_eq_some_iff] at h
      rcases h with ⟨s', hs', h⟩
      have hsame := destroy_instanceId hs'
      rw [← Option.some.inj h]
      exact hsame
  · simp only [hteam, Bool.not_false, if_true, Option.bind_eq_bind, Option.bind_eq_some_iff] at h
    rcases h with ⟨s', hs', h⟩
    have hsame := destroy_instanceId hs'
    rw [← Option.some.inj h]
    exact hsame

/-- The team a joining PE builds inverts its list and keeps the rest of its stack object. -/
theorem Placed.inverts_myTeam {s : PeState} {a : SplitArgs} (h : Placed s a) (hs : s.WellFormed)
    {stack peMapping : ℤ → ℤ}
    (hfill : fillMapping stack (s.globalStart a) (s.globalStride a) a.peSize.toNat
      = some peMapping) (idx : ℤ) :
    Team.Inverts { s.myTeam a peMapping with teamIdx := idx } stack := by
  have hsize : ((a.peSize.toNat : ℕ) : ℤ) = a.peSize :=
    Int.toNat_of_nonneg (by linarith [h.size_pos])
  have hsmall : ((a.peSize.toNat : ℕ) : ℤ) ≤ maxPes := by
    rw [hsize]
    exact h.small.2.2
  constructor
  · intro i hi hlt
    apply fillMapping_member (h.globalStart_nonneg hs) (h.globalStride_pos hs) hsmall hfill hi
    rw [hsize]
    exact hlt
  · intro k hk hout
    apply fillMapping_other hsmall hfill hk
    rw [hsize]
    exact hout

theorem index_of_failed {r : SplitResult} (h : r.ret ≠ success) : r.index = none := by
  rw [SplitResult.index, if_neg h]

/-- A split that returns left the PE as it was, or it enrolled a team. -/
theorem split_outcome {s : PeState} {call : SplitCall} {r : SplitResult}
    (h : s.splitStrided call.args call.host call.newTeam = some r) :
    (r.state = s ∧ r.index = none) ∨
      ∃ peMapping, Placed s call.args ∧ Joins s call.args ∧
        fillMapping call.host.stack (s.globalStart call.args) (s.globalStride call.args)
          call.args.peSize.toNat = some peMapping ∧
        s.enroll (s.myTeam call.args peMapping) call.host (some teamInvalid) = some r := by
  rcases splitStrided_cases h with
    ⟨hstate, hret, -⟩ | ⟨-, -, hr⟩ | ⟨hplaced, hjoins, peMapping, hfill, henroll⟩
  · exact Or.inl ⟨hstate, index_of_failed hret⟩
  · rw [hr]
    exact Or.inl ⟨rfl, rfl⟩
  · exact Or.inr ⟨peMapping, hplaced, hjoins, hfill, henroll⟩

/-- Entering a new team keeps the ledger sound. -/
theorem Ledger.Sound.enter {l : Ledger} (hl : l.Sound) {call : SplitCall} {r : SplitResult}
    (h : l.state.splitStrided call.args call.host call.newTeam = some r) :
    (l.enter call.host.stack r).Sound := by
  have hkeeps := hl.wellFormed.splitStrided h
  rcases split_outcome h with ⟨hstate, hindex⟩ | ⟨peMapping, hplaced, hjoins, hfill, henroll⟩
  · have hsame : l.enter call.host.stack r = l := by
      rw [Ledger.enter, hindex, hstate]
    rwa [hsame]
  have hsingle := (enroll_instanceId henroll).trans hl.single
  rcases enroll_cases hl.initialized hl.poolAllocated henroll with
    ⟨idx, hclear, hinit, halloc, -, -, hpool, hmask⟩
  have hfresh := not_live_of_clear hl hclear
  have hinverts : ∀ t ∈ l.live, (r.state.teamPool t).Inverts (l.stack t) := by
    intro t ht
    have hne : t ≠ idx := fun heq => hfresh (heq ▸ ht)
    rw [hpool, Function.update_of_ne hne]
    exact hl.inverts t ht
  rcases hmask with ⟨-, -, hret, hnew, hmask⟩ | ⟨-, hret, hmask⟩
  · -- the PE has got the team at `idx`
    have hindex : r.index = some idx := by
      have hvalid : idx ≠ teamInvalid := by
        have hnonneg := hclear.nonneg
        show idx ≠ -1
        omega
      rw [SplitResult.index, if_pos hret, hnew]
      simp [hvalid]
    rw [Ledger.enter, hindex]
    constructor
    · exact hsingle
    · exact hinit.trans hl.initialized
    · exact halloc.trans hl.poolAllocated
    · exact hkeeps.2.1.trans_le hl.world
    · exact hkeeps.1
    · intro t ht
      rcases Finset.mem_insert.mp ht with heq | hold
      · rw [heq]
        exact ⟨hclear.nonneg, hclear.lt⟩
      · exact hl.inside t hold
    · intro t ht hlt
      show r.state.teamMask.getLsbD t.toNat = true ↔ t ∈ insert idx l.live
      rw [hmask, BitVec.getLsbD_or, getLsbD_bit ⟨hclear.nonneg, hclear.lt⟩, Finset.mem_insert,
        Bool.or_eq_true, decide_eq_true_eq, hl.used t ht hlt, or_comm]
      have hnonneg := hclear.nonneg
      exact or_congr_left (by omega)
    · intro t ht
      show (r.state.teamPool t).Inverts (Function.update l.stack idx call.host.stack t)
      by_cases heq : t = idx
      · rw [heq, Function.update_self, hpool, Function.update_self]
        exact hplaced.inverts_myTeam hl.wellFormed hfill idx
      · rw [Function.update_of_ne heq]
        exact hinverts t (Finset.mem_of_mem_insert_of_ne ht heq)
  · -- it has lost it again
    rw [Ledger.enter, index_of_failed hret]
    constructor
    · exact hsingle
    · exact hinit.trans hl.initialized
    · exact halloc.trans hl.poolAllocated
    · exact hkeeps.2.1.trans_le hl.world
    · exact hkeeps.1
    · exact hl.inside
    · show ∀ t, 0 ≤ t → t < 64 → (r.state.teamMask.getLsbD t.toNat = true ↔ t ∈ l.live)
      rw [hmask]
      exact hl.used
    · exact hinverts

/-- A destroy takes one team off the ledger and keeps it sound. -/
theorem Ledger.Sound.destroy {l : Ledger} (hl : l.Sound) {team : ℤ} {s : PeState}
    (h : l.state.destroy team = some s) :
    Ledger.Sound { l with state := s, live := l.live.erase team } := by
  have hcases := h
  rw [PeState.destroy, Option.bind_eq_bind, Option.bind_eq_some_iff] at hcases
  rcases hcases with ⟨valid, hvalid, -⟩
  cases valid with
  | false =>
    have hgone : team ∉ l.live := by
      intro hlive
      rw [hl.isValidTeam_iff.mpr hlive] at hvalid
      cases hvalid
    rw [destroy_of_invalid hvalid] at h
    rw [← Option.some.inj h, Finset.erase_eq_of_notMem hgone]
    exact hl
  | true =>
    have hrange := hl.inside team (hl.isValidTeam_iff.mp hvalid)
    rw [destroy_of_valid hvalid] at h
    rw [← Option.some.inj h]
    have hused : ∀ t, 0 ≤ t → t < 64 →
        ((l.state.teamMask ^^^ bit team).getLsbD t.toNat = true ↔ t ∈ l.live.erase team) := by
      intro t ht hlt
      rw [BitVec.getLsbD_xor, getLsbD_bit hrange, Finset.mem_erase]
      by_cases heq : t = team
      · -- the bit was set
        have hset := (PeState.isValidTeam_true.mp hvalid).2.2.2
        rw [heq, hset]
        simp
      · have hne : team.toNat ≠ t.toNat := by omega
        rw [decide_eq_false hne, Bool.xor_false, hl.used t ht hlt]
        exact (and_iff_right heq).symm
    constructor
    · exact hl.single
    · exact hl.initialized
    · exact hl.poolAllocated
    · exact hl.world
    · intro t ht
      have hbit := PeState.isValidTeam_true.mp ht
      have hlive := (hused t hbit.2.2.1.1 hbit.2.2.1.2).mp hbit.2.2.2
      exact hl.wellFormed t (hl.isValidTeam_iff.mpr (Finset.mem_of_mem_erase hlive))
    · exact fun t ht => hl.inside t (Finset.mem_of_mem_erase ht)
    · exact hused
    · exact fun t ht => hl.inverts t (Finset.mem_of_mem_erase ht)

/-- A call keeps the invariant. -/
theorem Ledger.Sound.step {l l' : Ledger} (hl : l.Sound) {call : TeamCall}
    (h : l.step call = some l') : l'.Sound := by
  cases call with
  | split call =>
    rcases Option.map_eq_some_iff.mp h with ⟨r, hr, heq⟩
    rw [← heq]
    exact hl.enter hr
  | destroy team =>
    rcases Option.map_eq_some_iff.mp h with ⟨s, hs, heq⟩
    rw [← heq]
    exact hl.destroy hs

theorem Ledger.Sound.run {l l' : Ledger} (hl : l.Sound) {calls : List TeamCall}
    (h : l.run calls = some l') : l'.Sound := by
  induction calls generalizing l with
  | nil => rwa [← Option.some.inj h]
  | cons call calls ih =>
    rcases Option.bind_eq_some_iff.mp h with ⟨next, hnext, hrest⟩
    exact ih (hl.step hnext) hrest

/-- A live team keeps its entry through any call but its own destroy. -/
theorem Ledger.Sound.step_keeps {l l' : Ledger} (hl : l.Sound) {call : TeamCall} {t : ℤ}
    (hcall : call ≠ .destroy t) (ht : t ∈ l.live) (h : l.step call = some l') :
    t ∈ l'.live ∧ l'.state.teamPool t = l.state.teamPool t ∧ l'.state.npes = l.state.npes := by
  cases call with
  | split call =>
    rcases Option.map_eq_some_iff.mp h with ⟨r, hr, heq⟩
    have hlive : t ∈ (l.enter call.host.stack r).live := by
      unfold Ledger.enter
      split
      · exact ht
      · exact Finset.mem_insert_of_mem ht
    have hstate : (l.enter call.host.stack r).state = r.state := by
      unfold Ledger.enter
      split <;> rfl
    rw [← heq, hstate]
    refine ⟨hlive, ?_, (hl.wellFormed.splitStrided hr).2.1⟩
    rcases split_outcome hr with ⟨hsame, -⟩ | ⟨peMapping, -, -, -, henroll⟩
    · rw [hsame]
    · rcases enroll_cases hl.initialized hl.poolAllocated henroll with
        ⟨idx, hclear, -, -, -, -, hpool, -⟩
      rw [hpool, Function.update_of_ne]
      exact fun heq => not_live_of_clear hl hclear (heq ▸ ht)
  | destroy team =>
    rcases Option.map_eq_some_iff.mp h with ⟨s, hs, heq⟩
    have hne : t ≠ team := fun heq => hcall (heq ▸ rfl)
    rw [← heq]
    refine ⟨Finset.mem_erase.mpr ⟨hne, ht⟩, ?_⟩
    rw [PeState.destroy, Option.bind_eq_bind, Option.bind_eq_some_iff] at hs
    rcases hs with ⟨valid, -, hs⟩
    cases valid with
    | true =>
      rw [← Option.some.inj hs]
      exact ⟨rfl, rfl⟩
    | false =>
      rw [← Option.some.inj hs]
      exact ⟨rfl, rfl⟩

/-- A team stays live until it is destroyed. -/
theorem Ledger.Sound.run_keeps {l l' : Ledger} (hl : l.Sound) {calls : List TeamCall} {t : ℤ}
    (hcalls : ∀ call ∈ calls, call ≠ .destroy t) (ht : t ∈ l.live) (h : l.run calls = some l') :
    t ∈ l'.live ∧ l'.state.teamPool t = l.state.teamPool t ∧ l'.state.npes = l.state.npes := by
  induction calls generalizing l with
  | nil =>
    rw [← Option.some.inj h]
    exact ⟨ht, rfl, rfl⟩
  | cons call calls ih =>
    rcases Option.bind_eq_some_iff.mp h with ⟨next, hnext, hrest⟩
    have hstep := hl.step_keeps (hcalls call List.mem_cons_self) ht hnext
    have hrun := ih (hl.step hnext) (fun c hc => hcalls c (List.mem_cons_of_mem _ hc)) hstep.1 hrest
    exact ⟨hrun.1, hrun.2.1.trans hstep.2.1, hrun.2.2.trans hstep.2.2⟩

/-- The last of the calls is made in the state the others lead to. -/
theorem Ledger.EachCall.last {P : Ledger → TeamCall → Prop} {l l' : Ledger}
    {calls : List TeamCall} {call : TeamCall} (h : l.EachCall P (calls ++ [call]))
    (hrun : l.run calls = some l') : P l' call := by
  induction calls generalizing l with
  | nil =>
    rw [← Option.some.inj hrun]
    exact h.1
  | cons first calls ih =>
    rcases Option.bind_eq_some_iff.mp hrun with ⟨next, hnext, hrest⟩
    exact ih (h.2 next hnext) hrest

/-- Two conditions on a call that agree on sound ledgers agree on every call of a run. -/
theorem Ledger.Sound.eachCall_iff {P Q : Ledger → TeamCall → Prop}
    (hstep : ∀ l call, l.Sound → (P l call ↔ Q l call)) {l : Ledger} (hl : l.Sound)
    (calls : List TeamCall) : l.EachCall P calls ↔ l.EachCall Q calls := by
  induction calls generalizing l with
  | nil => exact Iff.rfl
  | cons call calls ih =>
    apply and_congr (hstep l call hl)
    apply forall_congr'
    intro l'
    apply imp_congr_right
    intro hnext
    exact ih (hl.step hnext)

/-- A new PE is sound. -/
theorem sound_init {rank size : ℤ} {l : Ledger} (hrank : 0 ≤ rank) (hlt : rank < size)
    (hsize : size ≤ maxPes) (h : Ledger.init rank size = some l) : l.Sound := by
  rcases Option.map_eq_some_iff.mp h with ⟨s, hs, heq⟩
  have hformed := wellFormed_init hrank hlt hsize hs
  simp only [PeState.init, Option.bind_eq_bind, Option.bind_eq_some_iff] at hs
  rcases hs with ⟨m, hlist, m', hinvert, hs⟩
  have hcast : ((size.toNat : ℕ) : ℤ) = size := Int.toNat_of_nonneg (by omega)
  -- the PEs of WORLD are numbered as they are, and the upper half inverts this
  have hidentity : ∀ j : ℤ, 0 ≤ j → j < size.toNat → m j = j := by
    intro j hj hjlt
    rw [constantStride_list hlist hj hjlt]
    ring
  rw [← heq]
  constructor
  · rw [← Option.some.inj hs]
  · rw [← Option.some.inj hs]
  · rw [← Option.some.inj hs]
  · exact hformed.2.2.trans_le hsize
  · exact hformed.1
  · intro t ht
    rw [Finset.mem_singleton.mp ht]
    decide
  · intro t ht hlt
    rw [← Option.some.inj hs]
    show (bit teamWorld).getLsbD t.toNat = true ↔ t ∈ ({teamWorld} : Finset ℤ)
    rw [getLsbD_bit (by decide), decide_eq_true_eq, Finset.mem_singleton]
    show (0 : ℤ).toNat = t.toNat ↔ t = 0
    omega
  · intro t ht
    rw [Finset.mem_singleton.mp ht, ← Option.some.inj hs]
    show Team.Inverts (Function.update (fun _ => Team.blank) teamWorld _ teamWorld) _
    rw [Function.update_self]
    constructor
    · intro i hi hilt
      show m' (0 + i * 1 + maxPes) = i
      rw [zero_add, mul_one]
      apply invertMapping_member hinvert (by omega) hidentity hi
      rw [hcast]
      exact hilt
    · intro k hk hout
      show m' k = Team.blank.peMapping k
      rw [invertMapping_other hinvert (by omega) hidentity]
      · exact constantStride_rest hlist (by omega)
      · intro i hi hilt heq
        rw [hcast] at hilt
        apply hout i hi hilt
        show k = 0 + i * 1 + maxPes
        omega

end AscendShmem.Teams
