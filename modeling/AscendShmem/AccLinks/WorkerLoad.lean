import AscendShmem.Lib.Run

/-!
# The load of the workers

`AccTcpServerDefault` claims a slot of a worker inside `WorkerSelect`, long before the link enters
`connectedLinks_`, from where `HandleLinkBroken` gives it back. Set-ups of incoming connections and of
outgoing handshakes run beside each other and beside broken links and the stop of the server; a step is
what one of them does under a mutex or alone. None of the exits behind the selection gives the slot
back.

The selection looks at one worker at a time. A worker that it has passed over may lose a link before it
finds the last one full: the connection is then refused for load although a slot is free.
-/

namespace AscendShmem.AccLinks.WorkerLoad

open Lib

/-- What `ValidateOptions` checks of the options. -/
structure Options where
  workerCount : ℕ
  maxWorldSize : ℕ
  workerCount_pos : 0 < workerCount
  maxWorldSize_pos : 0 < maxWorldSize

/-- Where a set-up is: it tries the workers one after the other and has found `tried` of them full, it
initialises the link, calls the user's handler (an incoming connection only) and adds the link. -/
inductive Stage where
  | selecting (tried : ℕ)
  | initializing (workIndex : ℕ)
  | handling (workIndex : ℕ)
  | adding (workIndex : ℕ)
deriving DecidableEq

/-- A set-up in progress; `start` is `nextWorkerIndex_` as it was read. -/
structure Setup where
  id : ℕ
  incoming : Bool
  start : ℕ
  stage : Stage
deriving DecidableEq

/-- A link of `connectedLinks_`. -/
structure Link where
  id : ℕ
  workerIndex : ℕ
deriving DecidableEq

/-- The server; `refused` holds, for every connection refused for load, the loads of the workers at the
refusal. -/
structure Server where
  started : Bool
  workersUp : Bool
  workerLinkCnt : ℕ → Option ℕ
  connectedLinks : Multiset Link
  setups : Multiset Setup
  refused : List (ℕ → ℕ)

/-- A started server whose workers run. -/
def Server.init : Server := ⟨true, true, fun _ => none, 0, 0, []⟩

/-- The worker whose slot a set-up has claimed. -/
def Setup.worker (t : Setup) : Option ℕ :=
  match t.stage with
  | .selecting _ => none
  | .initializing w | .handling w | .adding w => some w

/-- The links that a worker serves and the set-ups in progress on it. -/
def Server.load (s : Server) (w : ℕ) : ℕ :=
  s.connectedLinks.countP (·.workerIndex = w) + s.setups.countP (·.worker = some w)

/-- `workerLinkCnt_[w]`, 0 without an entry. -/
def Server.recorded (s : Server) (w : ℕ) : ℕ := (s.workerLinkCnt w).getD 0

/-- `workerLinkCnt_[w] = cnt`; `none` is a key that the map does not have. -/
def Server.setCnt (s : Server) (w : ℕ) (cnt : Option ℕ) : Server :=
  { s with workerLinkCnt := Function.update s.workerLinkCnt w cnt }

/-- A set-up ends. -/
def Server.drop (s : Server) (t : Setup) : Server := { s with setups := s.setups.erase t }

/-- A set-up goes on to a stage. -/
def Server.move (s : Server) (t : Setup) (stage : Stage) : Server :=
  { s with setups := { t with stage := stage } ::ₘ s.setups.erase t }

/-- `WorkerLinkLimitCheck` -/
def Server.workerLinkLimitCheck (maxWorkerLinkCnt : ℕ) (s : Server) (w : ℕ) : Bool × Server :=
  match s.workerLinkCnt w with
  | none => (true, s.setCnt w (some 1))
  | some cnt => if maxWorkerLinkCnt ≤ cnt then (false, s) else (true, s.setCnt w (some (cnt + 1)))

/-- `WorkerLinkCntUpdate` -/
def Server.workerLinkCntUpdate (s : Server) (w : ℕ) : Server :=
  match s.workerLinkCnt w with
  | none => s
  | some cnt => s.setCnt w (if cnt - 1 = 0 then none else some (cnt - 1))

section Steps

variable (o : Options)

/-- The worker that the turn of `WorkerSelect` behind `tried` others looks at. -/
def Setup.turn (t : Setup) (tried : ℕ) : ℕ := (t.start + tried) % o.workerCount

/-- A turn of the loop of `WorkerSelect`; the last one that finds its worker full refuses the
connection. -/
def Server.select (s : Server) (t : Setup) (tried : ℕ) : Server :=
  if ¬ s.workersUp then s.drop t
  else
    match s.workerLinkLimitCheck o.maxWorldSize (t.turn o tried) with
    | (true, s) => s.move t (.initializing (t.turn o tried))
    | (false, s) =>
      if tried + 1 < o.workerCount then s.move t (.selecting (tried + 1))
      else { s.drop t with refused := s.refused ++ [s.load] }

/-- The link enters the table, if the server runs (`HandleNewConnection` looks, `Handshake` does not),
the id is new and the worker takes it. -/
def Server.add (s : Server) (t : Setup) (workIndex : ℕ) (added : Bool) : Server :=
  if t.incoming ∧ ¬ s.started then s.drop t
  else if t.id ∈ s.connectedLinks.map Link.id then s.drop t
  else if ¬ added then s.drop t
  else { s.drop t with connectedLinks := ⟨t.id, workIndex⟩ ::ₘ s.connectedLinks }

/-- The locked part of `HandleLinkBroken`. -/
def Server.broken (s : Server) (link : Link) : Server :=
  if ¬ s.started then s
  else { s.workerLinkCntUpdate link.workerIndex with
    connectedLinks := s.connectedLinks.erase link }

/-- What one of the threads does under a mutex or alone. -/
inductive Event where
  /-- a connection arrives or a handshake begins -/
  | connect (incoming : Bool) (id start : ℕ)
  | select (t : Setup)
  | linkInitialize (t : Setup) (ok : Bool)
  | newLinkHandle (t : Setup) (ok : Bool)
  | add (t : Setup) (added : Bool)
  | linkBroken (link : Link)
  /-- `Stop` begins -/
  | stop
  /-- `Stop` clears the workers and the table -/
  | clear

/-- One event, if it can happen. -/
def step (s : Server) : Event → Option Server
  | .connect incoming id start =>
    some { s with setups := ⟨id, incoming, start, .selecting 0⟩ ::ₘ s.setups }
  | .select t =>
    match t.stage with
    | .selecting tried => if t ∈ s.setups then some (s.select o t tried) else none
    | _ => none
  | .linkInitialize t ok =>
    match t.stage with
    | .initializing w =>
      if t ∈ s.setups ∧ s.workersUp then
        some (if ok then s.move t (if t.incoming then .handling w else .adding w) else s.drop t)
      else none
    | _ => none
  | .newLinkHandle t ok =>
    match t.stage with
    | .handling w =>
      if t ∈ s.setups then some (if ok then s.move t (.adding w) else s.drop t) else none
    | _ => none
  | .add t added =>
    match t.stage with
    | .adding w =>
      if t ∈ s.setups ∧ (s.workersUp ∨ t.incoming) then some (s.add t w added) else none
    | _ => none
  | .linkBroken link => if link ∈ s.connectedLinks then some (s.broken link) else none
  | .stop => if s.started then some { s with started := false } else none
  | .clear =>
    if ¬ s.started ∧ s.workersUp then some { s with workersUp := false, connectedLinks := 0 } else none

/-! ## The property -/

/-- What is recorded is the load, it is within the limit, and a connection was refused for load only
while every worker served the maximum. -/
structure Accurate (s : Server) : Prop where
  recorded : ∀ w, s.recorded w = s.load w
  within : ∀ w cnt, s.workerLinkCnt w = some cnt → 0 < cnt ∧ cnt ≤ o.maxWorldSize
  refused : ∀ load ∈ s.refused, ∀ w < o.workerCount, load w = o.maxWorldSize

/-- The server is accurate behind the event. -/
def Good (s : Server) (e : Event) : Prop := ∀ s', step o s e = some s' → Accurate o s'

/-- `WorkerLinkLimitCheck` finds the worker full. -/
def Server.full (s : Server) (w : ℕ) : Bool := !(s.workerLinkLimitCheck o.maxWorldSize w).1

/-- A set-up that has selected a worker does not fail, a selection that finds its last worker full has
not passed over a worker with a slot that is free again, and the table is empty when it is cleared. -/
def Undisturbed (s : Server) : Event → Prop
  | .select t => (step o s (.select t)).isSome → s.workersUp →
    ∀ tried, t.stage = .selecting tried → tried + 1 = o.workerCount →
      s.full o (t.turn o tried) → ∀ i < tried, s.full o (t.turn o i)
  | .linkInitialize t ok => (step o s (.linkInitialize t ok)).isSome → ok
  | .newLinkHandle t ok => (step o s (.newLinkHandle t ok)).isSome → ok
  | .add t added => (step o s (.add t added)).isSome →
    (t.incoming → s.started) ∧ t.id ∉ s.connectedLinks.map Link.id ∧ added
  | .clear => (step o s .clear).isSome → s.connectedLinks = 0
  | _ => True

/-- The invariant: besides, a set-up that selects has workers left to try. -/
structure Inv (s : Server) : Prop where
  accurate : Accurate o s
  tried : ∀ t ∈ s.setups, ∀ tried, t.stage = .selecting tried → tried < o.workerCount

end Steps

/-! ## Loads -/

theorem countP_erase_add {α : Type*} [DecidableEq α] {m : Multiset α} {a : α} (h : a ∈ m) (p : α → Prop)
    [DecidablePred p] : (m.erase a).countP p + (if p a then 1 else 0) = m.countP p := by
  rw [← Multiset.countP_cons, Multiset.cons_erase h]

section Invariant

variable {o : Options} {s : Server} {t : Setup}

theorem load_drop (ht : t ∈ s.setups) (w : ℕ) :
    (s.drop t).load w + (if t.worker = some w then 1 else 0) = s.load w := by
  rw [Server.load, Server.drop, Nat.add_assoc, countP_erase_add ht]
  rfl

/-- A set-up that goes on changes the loads by the worker it claims or gives up. -/
theorem load_move (ht : t ∈ s.setups) (stage : Stage) (w : ℕ) :
    (s.move t stage).load w + (if t.worker = some w then 1 else 0)
      = s.load w + (if Setup.worker { t with stage := stage } = some w then 1 else 0) := by
  rw [Server.load, Server.move, Multiset.countP_cons, ← load_drop ht w, Server.load, Server.drop]
  dsimp only
  omega

theorem load_setCnt (s : Server) (w : ℕ) (cnt : Option ℕ) (w' : ℕ) :
    (s.setCnt w cnt).load w' = s.load w' := rfl

theorem recorded_setCnt (s : Server) (w : ℕ) (cnt : Option ℕ) (w' : ℕ) :
    (s.setCnt w cnt).recorded w' = if w' = w then cnt.getD 0 else s.recorded w' := by
  unfold Server.recorded Server.setCnt
  by_cases h : w' = w
  · simp [h]
  · simp [h]

/-- A set-up goes on, on the same worker. -/
theorem Accurate.move (h : Accurate o s) (ht : t ∈ s.setups) {stage : Stage}
    (hsame : Setup.worker { t with stage := stage } = t.worker) : Accurate o (s.move t stage) := by
  refine ⟨fun w => ?_, h.within, h.refused⟩
  have hload := load_move ht stage w
  rw [hsame] at hload
  exact (h.recorded w).trans (Nat.add_right_cancel hload).symm

/-- A set-up without a slot ends. -/
theorem Accurate.drop (h : Accurate o s) (ht : t ∈ s.setups) (hworker : t.worker = none) :
    Accurate o (s.drop t) := by
  refine ⟨fun w => ?_, h.within, h.refused⟩
  have hload := load_drop ht w
  rw [hworker, if_neg (Option.some_ne_none w).symm, Nat.add_zero] at hload
  exact (h.recorded w).trans hload.symm

/-- A set-up that ends on a worker keeps its slot. -/
theorem not_accurate_drop (h : Accurate o s) (ht : t ∈ s.setups) {w : ℕ} (hworker : t.worker = some w) :
    ¬ Accurate o (s.drop t) := by
  intro hdrop
  have hload := load_drop ht w
  rw [if_pos hworker] at hload
  have hbefore := h.recorded w
  have hafter : s.recorded w = (s.drop t).load w := hdrop.recorded w
  omega

/-- A set-up goes on and the counts stay accurate. -/
theorem Inv.move (h : Inv o s) {stage : Stage} (haccurate : Accurate o (s.move t stage))
    (hstage : ∀ tried, stage = .selecting tried → tried < o.workerCount) :
    Inv o (s.move t stage) := by
  refine ⟨haccurate, fun t' ht' tried hselecting => ?_⟩
  rcases Multiset.mem_cons.mp ht' with rfl | hold
  · exact hstage tried hselecting
  · exact h.tried t' (Multiset.mem_of_mem_erase hold) tried hselecting

theorem Inv.drop (h : Inv o s) (haccurate : Accurate o (s.drop t)) : Inv o (s.drop t) :=
  ⟨haccurate, fun t' ht' => h.tried t' (Multiset.mem_of_mem_erase ht')⟩

/-- A slot is claimed. -/
theorem Accurate.claim (h : Accurate o s) (ht : t ∈ s.setups) (hworker : t.worker = none) {w cnt : ℕ}
    (hcnt : cnt = s.recorded w + 1) (hle : cnt ≤ o.maxWorldSize) :
    Accurate o ((s.setCnt w (some cnt)).move t (.initializing w)) := by
  refine ⟨fun w' => ?_, fun w' cnt' hcnt' => ?_, h.refused⟩
  · have hload := load_move (s := s.setCnt w (some cnt)) ht (.initializing w) w'
    have hrecorded : ((s.setCnt w (some cnt)).move t (.initializing w)).recorded w'
        = if w' = w then cnt else s.recorded w' := recorded_setCnt s w (some cnt) w'
    have hbefore := h.recorded w'
    have hnew : Setup.worker { t with stage := .initializing w } = some w := rfl
    rw [hworker, if_neg (Option.some_ne_none w').symm, load_setCnt, hnew] at hload
    rw [hrecorded]
    by_cases hw : w' = w
    · subst hw
      rw [if_pos rfl] at hload ⊢
      omega
    · rw [if_neg fun heq => hw (Option.some.inj heq).symm] at hload
      rw [if_neg hw]
      omega
  · change Function.update s.workerLinkCnt w (some cnt) w' = some cnt' at hcnt'
    by_cases hw : w' = w
    · rw [hw, Function.update_self] at hcnt'
      obtain rfl := Option.some.inj hcnt'
      exact ⟨by omega, hle⟩
    · rw [Function.update_of_ne hw] at hcnt'
      exact h.within w' cnt' hcnt'

/-- The turns of the selection reach every worker. -/
theorem exists_turn {n w : ℕ} (hn : 0 < n) (hw : w < n) (start : ℕ) : ∃ i < n, (start + i) % n = w := by
  refine ⟨(w + (n - start % n)) % n, Nat.mod_lt _ hn, ?_⟩
  have hlt := Nat.mod_lt start hn
  have hsum : start + (w + (n - start % n)) = n * (start / n + 1) + w := by
    rw [Nat.mul_add, Nat.mul_one]
    have hdiv := Nat.div_add_mod start n
    omega
  rw [Nat.add_mod_mod, hsum, Nat.mul_add_mod, Nat.mod_eq_of_lt hw]

/-- A selection with its slot counted. -/
theorem inv_claimed (h : Inv o s) {w : ℕ} {cnt : Option ℕ}
    (hclaim : Accurate o ((s.setCnt w cnt).move t (.initializing w))) :
    Inv o ((s.setCnt w cnt).move t (.initializing w)) := by
  refine ⟨hclaim, fun t' ht' tried hselecting => ?_⟩
  rcases Multiset.mem_cons.mp ht' with rfl | hold
  · cases hselecting
  · exact h.tried t' (Multiset.mem_of_mem_erase hold) tried hselecting

/-- The code finds a worker full exactly when it serves the maximum. -/
theorem Accurate.full_iff (h : Accurate o s) (w : ℕ) :
    s.full o w = true ↔ s.load w = o.maxWorldSize := by
  have hrecorded := h.recorded w
  unfold Server.full Server.workerLinkLimitCheck
  rw [Server.recorded] at hrecorded
  cases hcnt : s.workerLinkCnt w with
  | none =>
    rw [hcnt, Option.getD_none] at hrecorded
    have hpos := o.maxWorldSize_pos
    simp only [Bool.not_true, Bool.false_eq_true, false_iff]
    omega
  | some cnt =>
    rw [hcnt, Option.getD_some] at hrecorded
    have hle := (h.within w cnt hcnt).2
    dsimp only
    split
    case isTrue hfull =>
      simp only [Bool.not_false, true_iff]
      omega
    case isFalse hroom =>
      simp only [Bool.not_true, Bool.false_eq_true, false_iff]
      omega

/-- A check that finds its worker full changes nothing, and one that does not claims a slot. -/
theorem workerLinkLimitCheck_cases (h : Accurate o s) (ht : t ∈ s.setups) (hworker : t.worker = none)
    (w : ℕ) :
    (s.full o w = true ∧ s.workerLinkLimitCheck o.maxWorldSize w = (false, s)) ∨
    (s.full o w = false ∧ ∃ cnt, s.workerLinkLimitCheck o.maxWorldSize w = (true, s.setCnt w (some cnt)) ∧
      Accurate o ((s.setCnt w (some cnt)).move t (.initializing w))) := by
  unfold Server.full Server.workerLinkLimitCheck
  cases hcnt : s.workerLinkCnt w with
  | none =>
    have hrecorded : s.recorded w = 0 := by rw [Server.recorded, hcnt]; rfl
    exact .inr ⟨rfl, 1, rfl, h.claim ht hworker (by rw [hrecorded]) o.maxWorldSize_pos⟩
  | some cnt =>
    have hrecorded : s.recorded w = cnt := by rw [Server.recorded, hcnt]; rfl
    dsimp only
    split
    case isTrue => exact .inl ⟨rfl, rfl⟩
    case isFalse hbelow =>
      exact .inr ⟨rfl, cnt + 1, rfl, h.claim ht hworker (by rw [hrecorded]) (Nat.lt_of_not_le hbelow)⟩

/-- A broken link gives back the slot it was counted for. -/
theorem inv_broken (h : Inv o s) {link : Link} (hlink : link ∈ s.connectedLinks) :
    Inv o (s.broken link) := by
  unfold Server.broken
  split
  case isTrue => exact h
  case isFalse =>
  -- the link is counted for its worker, so the number is positive and goes down by one
  have herase (w : ℕ) := countP_erase_add hlink (fun l : Link => l.workerIndex = w)
  have hload := h.accurate.recorded link.workerIndex
  have hpos : 0 < s.recorded link.workerIndex := by
    have hown := herase link.workerIndex
    rw [if_pos rfl] at hown
    rw [hload, Server.load]
    omega
  cases hcnt : s.workerLinkCnt link.workerIndex with
  | none =>
    rw [Server.recorded, hcnt] at hpos
    exact absurd hpos (Nat.lt_irrefl 0)
  | some cnt =>
    have hrecorded : s.recorded link.workerIndex = cnt := by rw [Server.recorded, hcnt]; rfl
    have hupdate : s.workerLinkCntUpdate link.workerIndex
        = s.setCnt link.workerIndex (if cnt - 1 = 0 then none else some (cnt - 1)) := by
      rw [Server.workerLinkCntUpdate, hcnt]
    rw [hupdate]
    refine ⟨⟨fun w => ?_, fun w cnt' hcnt' => ?_, h.accurate.refused⟩, h.tried⟩
    · have hnew : Server.recorded { s.setCnt link.workerIndex (if cnt - 1 = 0 then none
          else some (cnt - 1)) with connectedLinks := s.connectedLinks.erase link } w
          = if w = link.workerIndex then (if cnt - 1 = 0 then none else some (cnt - 1)).getD 0
            else s.recorded w := recorded_setCnt s _ _ w
      have hw := herase w
      have hbefore := h.accurate.recorded w
      rw [hnew]
      rw [Server.load] at hbefore ⊢
      dsimp only [Server.setCnt]
      by_cases heq : w = link.workerIndex
      · rw [if_pos heq]
        rw [if_pos heq.symm] at hw
        rw [heq, hrecorded, ← heq] at hbefore
        split
        case isTrue => simp only [Option.getD_none]; omega
        case isFalse => simp only [Option.getD_some]; omega
      · rw [if_neg heq]
        rw [if_neg (Ne.symm heq)] at hw
        omega
    -- an entry that goes down to zero is erased
    · change Function.update s.workerLinkCnt link.workerIndex _ w = some cnt' at hcnt'
      by_cases heq : w = link.workerIndex
      · rw [heq, Function.update_self] at hcnt'
        have hbound := (h.accurate.within _ _ hcnt).2
        split at hcnt'
        case isTrue => cases hcnt'
        case isFalse hne =>
          obtain rfl := Option.some.inj hcnt'
          exact ⟨Nat.pos_of_ne_zero hne, by omega⟩
      · rw [Function.update_of_ne heq] at hcnt'
        exact h.accurate.within w cnt' hcnt'

/-- The link enters the table with the slot of its set-up. -/
theorem accurate_added (h : Accurate o s) (ht : t ∈ s.setups) {w : ℕ} (hworker : t.worker = some w) :
    Accurate o { s.drop t with connectedLinks := ⟨t.id, w⟩ ::ₘ s.connectedLinks } := by
  refine ⟨fun w' => ?_, h.within, h.refused⟩
  have hload := load_drop ht w'
  have hbefore := h.recorded w'
  rw [Server.load] at hload
  rw [Server.load, Multiset.countP_cons]
  dsimp only [Server.drop] at hload ⊢
  change s.recorded w' = _
  rw [hworker] at hload
  simp only [Option.some.injEq] at hload
  omega

theorem good_of_none {e : Event} (h : step o s e = none) : Good o s e := by
  intro s' hs'
  rw [h] at hs'
  cases hs'

theorem good_iff_of_some {e : Event} {s' : Server} (h : step o s e = some s') :
    Good o s e ↔ Accurate o s' :=
  ⟨fun hgood => hgood s' h, fun haccurate _ hs' => Option.some.inj (h.symm.trans hs') ▸ haccurate⟩

theorem undisturbed_of_none {e : Event} (h : step o s e = none) : Undisturbed o s e := by
  have hnot : ¬ (step o s e).isSome := by rw [h]; exact Bool.false_ne_true
  cases e with
  | linkInitialize t ok => exact fun hsome => absurd hsome hnot
  | newLinkHandle t ok => exact fun hsome => absurd hsome hnot
  | add t added => exact fun hsome => absurd hsome hnot
  | clear => exact fun hsome => absurd hsome hnot
  | connect incoming id start => trivial
  | select t => exact fun hsome => absurd hsome hnot
  | linkBroken link => trivial
  | stop => trivial

/-- An event that meets the condition keeps the invariant, and one that does not loses accuracy. -/
def Settles (o : Options) (s : Server) (e : Event) (s' : Server) : Prop :=
  Undisturbed o s e ∧ Inv o s' ∨ ¬ Undisturbed o s e ∧ ¬ Accurate o s'

/-- A set-up on a worker goes on or fails. -/
theorem settles_move (h : Inv o s) (ht : t ∈ s.setups) {w : ℕ} (hworker : t.worker = some w) {stage : Stage}
    (hsame : Setup.worker { t with stage := stage } = some w) {e : Event} {ok : Bool}
    (he : Undisturbed o s e ↔ ok) : Settles o s e (if ok then s.move t stage else s.drop t) := by
  cases ok with
  | true =>
    refine .inl ⟨he.mpr rfl, h.move (h.accurate.move ht (hsame.trans hworker.symm)) fun tried hstage => ?_⟩
    rw [hstage] at hsame
    cases hsame
  | false => exact .inr ⟨fun hfail => Bool.false_ne_true (he.mp hfail), not_accurate_drop h.accurate ht hworker⟩

/-- The link enters the table, or the set-up fails with its slot counted. -/
theorem settles_add (h : Inv o s) (ht : t ∈ s.setups) {w : ℕ} (hworker : t.worker = some w) {added : Bool}
    (hsome : (step o s (.add t added)).isSome) :
    Settles o s (.add t added) (s.add t w added) := by
  have hlost := not_accurate_drop h.accurate ht hworker
  unfold Server.add
  split
  case isTrue hstopped => exact .inr ⟨fun hcond => hstopped.2 ((hcond hsome).1 hstopped.1), hlost⟩
  case isFalse hstarted =>
    split
    case isTrue hknown => exact .inr ⟨fun hcond => (hcond hsome).2.1 hknown, hlost⟩
    case isFalse hnew =>
      split
      case isTrue hrefused => exact .inr ⟨fun hcond => hrefused (hcond hsome).2.2, hlost⟩
      case isFalse hadded =>
        refine .inl ⟨fun _ => ⟨fun hincoming => ?_, hnew, not_not.mp hadded⟩,
          accurate_added h.accurate ht hworker,
          fun t' ht' => h.tried t' (Multiset.mem_of_mem_erase ht')⟩
        by_contra hstopped
        exact hstarted ⟨hincoming, hstopped⟩

/-- The last worker of a selection is full: the connection is refused. -/
theorem settles_refused (h : Inv o s) (ht : t ∈ s.setups) {tried : ℕ} (hstage : t.stage = .selecting tried)
    (hup : s.workersUp) (hlast : tried + 1 = o.workerCount) (hfull : s.full o (t.turn o tried) = true) :
    Settles o s (.select t) { s.drop t with refused := s.refused ++ [s.load] } := by
  have hworker : t.worker = none := by rw [Setup.worker, hstage]
  have hdrop := h.drop (h.accurate.drop ht hworker)
  have hsome : (step o s (.select t)).isSome := by
    rw [step]
    split
    case h_1 tried' hstage' => rw [if_pos ht]; rfl
    case h_2 hno => exact absurd hstage (hno tried)
  by_cases hall : ∀ i < tried, s.full o (t.turn o i) = true
  · refine .inl ⟨fun _ _ tried' hstage' _ _ => ?_, ⟨hdrop.accurate.recorded, hdrop.accurate.within,
      fun load hload w hw => ?_⟩, hdrop.tried⟩
    · rw [← Stage.selecting.inj (hstage.symm.trans hstage')]
      exact hall
    · rcases List.mem_append.mp hload with hold | hnew
      · exact h.accurate.refused load hold w hw
      · obtain ⟨i, hi, hiw⟩ := exists_turn o.workerCount_pos hw t.start
        rw [List.mem_singleton.mp hnew, ← h.accurate.full_iff, ← hiw]
        rcases Nat.lt_or_ge i tried with hbefore | hend
        · exact hall i hbefore
        · rw [show i = tried by omega]
          exact hfull
  · refine .inr ⟨fun hcond => hall (hcond hsome hup tried hstage hlast hfull), fun hafter => hall ?_⟩
    intro i hi
    have hlt : t.turn o i < o.workerCount := Nat.mod_lt _ o.workerCount_pos
    have hmax := hafter.refused s.load (List.mem_append_right _ (List.mem_singleton_self _)) _ hlt
    exact (h.accurate.full_iff _).mpr hmax

/-- One worker tried: it is full, or its slot is claimed, or it was the last one. -/
theorem settles_select (h : Inv o s) (ht : t ∈ s.setups) {tried : ℕ}
    (hstage : t.stage = .selecting tried) : Settles o s (.select t) (s.select o t tried) := by
  have hworker : t.worker = none := by rw [Setup.worker, hstage]
  have hlt := h.tried t ht tried hstage
  -- unless the last worker is found full, the condition asks for nothing
  have hmeets : ¬ (s.workersUp ∧ tried + 1 = o.workerCount ∧ s.full o (t.turn o tried) = true) →
      Undisturbed o s (.select t) := by
    intro hnot _ hup tried' hstage' hlast hfull
    rw [← Stage.selecting.inj (hstage.symm.trans hstage')] at hlast hfull
    exact absurd ⟨hup, hlast, hfull⟩ hnot
  unfold Server.select
  split
  case isTrue hdown =>
    exact .inl ⟨hmeets fun hall => hdown hall.1, h.drop (h.accurate.drop ht hworker)⟩
  case isFalse hup =>
    rcases workerLinkLimitCheck_cases h.accurate ht hworker (t.turn o tried) with
      ⟨hfull, hcheck⟩ | ⟨hroom, cnt, hcheck, hclaim⟩
    · rw [hcheck]
      dsimp only
      split
      case isTrue hmore =>
        refine .inl ⟨hmeets fun hall => by omega, h.move (h.accurate.move ht hworker.symm) ?_⟩
        intro tried' htried'
        rw [← Stage.selecting.inj htried']
        exact hmore
      case isFalse hlast =>
        exact settles_refused h ht hstage (not_not.mp hup) (by omega) hfull
    · rw [hcheck]
      refine .inl ⟨hmeets fun hall => ?_, inv_claimed h hclaim⟩
      rw [hroom] at hall
      exact Bool.false_ne_true hall.2.2

/-- Every event either meets the condition and keeps the invariant, or does neither. -/
theorem settles_step (h : Inv o s) {e : Event} {s' : Server} (hstep : step o s e = some s') :
    Settles o s e s' := by
  have hsome : (step o s e).isSome := by rw [hstep]; rfl
  cases e with
  | connect incoming id start =>
    cases hstep
    refine .inl ⟨trivial, ⟨fun w => ?_, h.accurate.within, h.accurate.refused⟩, fun t ht tried htried => ?_⟩
    · have hload : Server.load { s with setups := ⟨id, incoming, start, .selecting 0⟩ ::ₘ s.setups } w
          = s.load w := by
        rw [Server.load, Multiset.countP_cons]
        rfl
      exact (h.accurate.recorded w).trans hload.symm
    · rcases Multiset.mem_cons.mp ht with rfl | hold
      · rw [← Stage.selecting.inj htried]
        exact o.workerCount_pos
      · exact h.tried t hold tried htried
  | select t =>
    rw [step] at hstep
    split at hstep
    case h_1 tried hstage =>
      obtain ⟨ht, ⟨⟩⟩ := Option.ite_none_right_eq_some.mp hstep
      exact settles_select h ht hstage
    case h_2 => cases hstep
  -- a setup that fails behind the selection keeps the slot it was counted for
  | linkInitialize t ok =>
    have he : Undisturbed o s (.linkInitialize t ok) ↔ ok := ⟨fun hcond => hcond hsome, fun hok _ => hok⟩
    rw [step] at hstep
    split at hstep
    case h_1 w hstage =>
      obtain ⟨⟨ht, _⟩, ⟨⟩⟩ := Option.ite_none_right_eq_some.mp hstep
      refine settles_move h ht (by rw [Setup.worker, hstage]) ?_ he
      cases t.incoming <;> rfl
    case h_2 => cases hstep
  | newLinkHandle t ok =>
    have he : Undisturbed o s (.newLinkHandle t ok) ↔ ok := ⟨fun hcond => hcond hsome, fun hok _ => hok⟩
    rw [step] at hstep
    split at hstep
    case h_1 w hstage =>
      obtain ⟨ht, ⟨⟩⟩ := Option.ite_none_right_eq_some.mp hstep
      exact settles_move h ht (by rw [Setup.worker, hstage]) rfl he
    case h_2 => cases hstep
  | add t added =>
    rw [step] at hstep
    split at hstep
    case h_1 w hstage =>
      obtain ⟨⟨ht, _⟩, ⟨⟩⟩ := Option.ite_none_right_eq_some.mp hstep
      exact settles_add h ht (by rw [Setup.worker, hstage]) hsome
    case h_2 => cases hstep
  | linkBroken link =>
    obtain ⟨hlink, ⟨⟩⟩ := Option.ite_none_right_eq_some.mp hstep
    exact .inl ⟨trivial, inv_broken h hlink⟩
  | stop =>
    obtain ⟨_, ⟨⟩⟩ := Option.ite_none_right_eq_some.mp hstep
    exact .inl ⟨trivial, ⟨h.accurate.recorded, h.accurate.within, h.accurate.refused⟩, h.tried⟩
  | clear =>
    obtain ⟨_, ⟨⟩⟩ := Option.ite_none_right_eq_some.mp hstep
    -- `clear` drops the links and leaves their counts
    by_cases hempty : s.connectedLinks = 0
    · refine .inl ⟨fun _ => hempty, ⟨fun w => ?_, h.accurate.within, h.accurate.refused⟩, h.tried⟩
      have hbefore := h.accurate.recorded w
      rw [Server.load, hempty] at hbefore
      exact hbefore
    · refine .inr ⟨fun hcond => hempty (hcond hsome), fun hafter => ?_⟩
      obtain ⟨link, hlink⟩ := Multiset.exists_mem_of_ne_zero hempty
      have hbefore := h.accurate.recorded link.workerIndex
      have hafter' : s.recorded link.workerIndex
          = 0 + s.setups.countP (·.worker = some link.workerIndex) := hafter.recorded link.workerIndex
      have hpos : 0 < s.connectedLinks.countP (·.workerIndex = link.workerIndex) :=
        Multiset.countP_pos.mpr ⟨link, hlink, rfl⟩
      rw [Server.load] at hbefore
      omega

theorem inv_init (o : Options) : Inv o .init where
  accurate := ⟨fun _ => rfl, fun _ _ h => (nomatch h), fun _ h => (nomatch h)⟩
  tried _ h := absurd h (Multiset.notMem_zero _)

theorem inv_step (s : Server) (e : Event) (s' : Server) (h : Inv o s) (hcond : Undisturbed o s e)
    (hstep : step o s e = some s') : Inv o s' := by
  rcases settles_step h hstep with ⟨_, hinv⟩ | ⟨hfail, _⟩
  · exact hinv
  · exact absurd hcond hfail

/-- An event is good exactly if it meets the condition. -/
theorem good_iff (s : Server) (e : Event) (h : Inv o s) : Good o s e ↔ Undisturbed o s e := by
  cases hstep : step o s e with
  | none => exact iff_of_true (good_of_none hstep) (undisturbed_of_none hstep)
  | some s' =>
    rw [good_iff_of_some hstep]
    rcases settles_step h hstep with ⟨hcond, hinv⟩ | ⟨hfail, hlost⟩
    · exact iff_of_true hinv.accurate hcond
    · exact iff_of_false hlost hfail

end Invariant

/-- In every run the recorded loads are the loads of the workers, within the limit, and a connection is
refused for load only while every worker serves the maximum, as long as and only as long as no set-up
fails behind its selection, no selection finds its last worker full behind one with a slot that is free
again, and the server is not stopped with links in the table. -/
theorem worker_load_iff (o : Options) (events : List Event) :
    Always (step o) (Good o) .init events ↔ Always (step o) (Undisturbed o) .init events :=
  always_iff inv_step good_iff (inv_init o)

/-- One worker for one link. -/
def single : Options := ⟨1, 1, Nat.one_pos, Nat.one_pos⟩

/-- The link of a connection cannot be initialised: its slot stays claimed. -/
theorem not_good_failedSetup : ¬ ∀ (o : Options) (events : List Event),
    Always (step o) (Good o) .init events := by
  intro hall
  have hrun := hall single [.connect true 0 0, .select ⟨0, true, 0, .selecting 0⟩,
    .linkInitialize ⟨0, true, 0, .initializing 0⟩ false]
  have hgood := ((hrun.2 _ rfl).2 _ rfl).1
  have haccurate := (hgood _ rfl).recorded 0
  exact absurd haccurate (by decide)

end AscendShmem.AccLinks.WorkerLoad
