import AscendShmem.Lib.Run
import AscendShmem.RdmaQueue.RingSafety

/-!
# The tail of an ignore-overrun queue

In ignore-overrun mode every completion overwrites the only entry of the completion queue, and
`aclshmemi_roce_xscale_poll_cq_overrun` rebuilds the 32-bit tail from the 17-bit WQE index in it. A
queue pair posts, its hardware completes and the polls look at the entry, in any order; each look is
one turn of the loop, in which the entry is read once. The log holds the accepted looks and the calls
that returned.

A call that takes its first look while nothing has completed since the last one reads the entry that it
has read before. The rebuilt tail is the old one then, unless the old one is a multiple of `2 ^ 17`:
the index in the entry is the largest one, and the tail jumps a whole generation ahead.
-/

namespace AscendShmem.RdmaQueue.OverrunTail

open Lib

/-- The depth of the queues. -/
def depth : ℕ := 2 ^ 15

/-- `ACLSHMEMI_XSC_CQE_WQE_ID_SHIFT` -/
def wqeIdShift : ℕ := 3

/-- The entry of the completion queue: `wqe_id` with 20 bits, `owner` with one. -/
structure SlotCqe where
  wqeIdField : ℕ
  owner : ℕ
  errorCode : ℕ
deriving DecidableEq

/-- `cqe.wqe_id >> ACLSHMEMI_XSC_CQE_WQE_ID_SHIFT` -/
def SlotCqe.wqeId (cqe : SlotCqe) : ℕ := cqe.wqeIdField / 2 ^ wqeIdShift

/-- `aclshmemi_roce_xscale_check_cqe_owner` -/
def checkCqeOwner (cqe : SlotCqe) (curTail : ℕ) : Bool := cqe.owner = curTail / depth % 2

/-- What the hardware writes when WQE `k` completes. -/
def cqeOf (k errorCode : ℕ) : SlotCqe := ⟨k * 2 ^ wqeIdShift % 2 ^ 20, k / depth % 2, errorCode⟩

/-- A call of the poll between its turns; no `lastWqeId` stands for the invalid index. -/
structure Poll where
  target : ℕ
  curTail : ℕ
  lastWqeId : Option ℕ
  runCycles : ℕ
deriving DecidableEq

/-- What happened: a look moved the tail, or a call returned with a status and wrote the tail. -/
inductive Entry where
  | observed (before after completed head : ℕ)
  | returned (target status completed tailBefore tailAfter head : ℕ)
deriving DecidableEq

/-- The queue pair: WQEs posted and completed, the tail in memory, the entry, and the call that polls. -/
structure State where
  head : ℕ
  completed : ℕ
  tail : ℕ
  slot : SlotCqe
  poll : Option Poll
  log : List Entry
deriving DecidableEq

/-- Nothing has been posted or completed. -/
def State.init (slot : SlotCqe) : State := ⟨0, 0, 0, slot, none, []⟩

/-- A post, a completion, a call of the poll, or a look of the running poll. -/
inductive Event where
  | post
  | complete (errorCode : ℕ)
  | call (target : ℕ)
  | look

/-- The end of a call: the tail is written back. -/
def State.return (s : State) (p : Poll) (status : ℕ) : State :=
  { s with
    tail := p.curTail
    poll := none
    log := s.log ++ [.returned p.target (if p.curTail ≠ p.target then pollCqTimeoutError else status)
      s.completed s.tail p.curTail s.head] }

/-- A call, which returns at once for the target 0. -/
def State.call (s : State) (target : ℕ) : State :=
  if target = 0 then { s with log := s.log ++ [.returned 0 0 s.completed s.tail s.tail s.head] }
  else { s with poll := some ⟨target, s.tail, none, 0⟩ }

/-- An accepted look. -/
def State.observed (s : State) (before after : ℕ) : State :=
  { s with log := s.log ++ [.observed before after s.completed s.head] }

/-- A turn of the loop that looks at the entry. -/
def State.turn (s : State) (p : Poll) : State :=
  let p := { p with runCycles := p.runCycles + 1 }
  let wqeId := s.slot.wqeId
  if ¬ checkCqeOwner s.slot wqeId then { s with poll := some p }
  else if p.lastWqeId = some wqeId then { s with poll := some p }
  else
    let curTail := advanceTail p.curTail wqeId
    let s := s.observed p.curTail curTail
    let p := { p with curTail := curTail }
    if s.slot.errorCode ≠ 0 then s.return p s.slot.errorCode
    else if curTail = p.target then s.return p 0
    else { s with poll := some { p with lastWqeId := some wqeId } }

/-- One event, if it can happen: at most `depth` WQEs are outstanding and fewer than `2 ^ 32 - 1` are
posted, only a posted WQE completes, and a call is made for a target that is posted. A call that has
looked `timeoutCycles` times returns. -/
def step (timeoutCycles : ℕ) (s : State) : Event → Option State
  | .post =>
    if s.head < s.tail + depth ∧ s.head + 1 < 2 ^ 32 - 1 then some { s with head := s.head + 1 }
    else none
  | .complete errorCode =>
    if s.completed < s.head then
      some { s with completed := s.completed + 1, slot := cqeOf s.completed errorCode }
    else none
  | .call target => if s.poll.isNone ∧ target ≤ s.head then some (s.call target) else none
  | .look => s.poll.map fun p =>
    if p.runCycles < timeoutCycles then s.turn p else s.return p 0

/-- A look finds the number of completed WQEs, neither behind the tail nor beyond the head; a call
returns 0 only when all WQEs below its target have completed. -/
def Entry.Ok : Entry → Prop
  | .observed before after completed head => after = completed ∧ before ≤ after ∧ after ≤ head
  | .returned target status completed tailBefore tailAfter head =>
    (status = 0 → target ≤ completed) ∧ tailBefore ≤ tailAfter ∧ tailAfter ≤ head

/-- No call takes its first look while the tail is a multiple of `2 ^ 17`, except 0, and nothing has
completed since. -/
def Fresh (timeoutCycles : ℕ) (s : State) : Event → Prop
  | .look => ∀ p ∈ s.poll, p.runCycles < timeoutCycles → p.lastWqeId = none →
    s.completed = p.curTail → p.curTail % 2 ^ 17 = 0 → p.curTail = 0
  | _ => True

/-! ## One event -/

/-- A poll knows what has completed up to its tail. -/
structure PollOk (s : State) (p : Poll) : Prop where
  start : s.tail ≤ p.curTail
  completed : p.curTail ≤ s.completed
  last : ∀ wqeId ∈ p.lastWqeId, 0 < p.curTail ∧ wqeId = (p.curTail - 1) % 2 ^ 17

/-- The invariant of the run. -/
structure Inv (s : State) : Prop where
  tail : s.tail ≤ s.completed
  completed : s.completed ≤ s.head
  credit : s.head ≤ s.tail + depth
  posts : s.head < 2 ^ 32 - 1
  empty : s.completed = 0 → ¬ checkCqeOwner s.slot s.slot.wqeId
  slot : 0 < s.completed → ∃ errorCode, s.slot = cqeOf (s.completed - 1) errorCode
  poll : ∀ p ∈ s.poll, PollOk s p
  log : ∀ e ∈ s.log, e.Ok

theorem inv_init {slot : SlotCqe} (hslot : ¬ checkCqeOwner slot slot.wqeId) : Inv (.init slot) where
  tail := le_refl _
  completed := le_refl _
  credit := Nat.zero_le _
  posts := Nat.succ_pos _
  empty _ := hslot
  slot h := absurd h (Nat.lt_irrefl 0)
  poll := by simp [State.init]
  log := by simp [State.init]

theorem wqeId_cqeOf (k errorCode : ℕ) : (cqeOf k errorCode).wqeId = k % 2 ^ 17 := by
  simp only [cqeOf, SlotCqe.wqeId, wqeIdShift]
  omega

/-- The owner bit of an entry that the hardware wrote is the one its index asks for. -/
theorem checkCqeOwner_cqeOf (k errorCode : ℕ) :
    checkCqeOwner (cqeOf k errorCode) (cqeOf k errorCode).wqeId = true := by
  rw [wqeId_cqeOf]
  refine decide_eq_true ?_
  simp only [cqeOf, depth]
  omega

/-- The tail that a look rebuilds when at most `depth` WQEs have completed since the one before. -/
theorem advanceTail_eq {tail completed : ℕ} (hpos : 0 < completed) (hle : tail ≤ completed)
    (hcredit : completed ≤ tail + depth) (hbound : completed < 2 ^ 32)
    (hfresh : completed = tail → tail % 2 ^ 17 ≠ 0) :
    advanceTail tail ((completed - 1) % 2 ^ 17) = completed := by
  have hcredit' : completed ≤ tail + 2 ^ 15 := hcredit
  simp only [advanceTail, word, overrunWqeIndexWidth]
  norm_num only at *
  split <;> omega

/-- A look at the entry read before, at a multiple of `2 ^ 17`. -/
theorem advanceTail_boundary {tail : ℕ} (hpos : 0 < tail) (hwrap : tail % 2 ^ 17 = 0) :
    advanceTail tail ((tail - 1) % 2 ^ 17) = word (tail + 2 ^ 17) := by
  simp only [advanceTail, word, overrunWqeIndexWidth]
  norm_num only at *
  split <;> omega

/-- One more entry of the log. -/
theorem Inv.snoc {s : State} (h : Inv s) {entry : Entry} (hentry : entry.Ok) :
    ∀ e ∈ s.log ++ [entry], e.Ok := by
  intro e he
  rcases List.mem_append.mp he with hold | hlast
  · exact h.log e hold
  · rw [List.mem_singleton.mp hlast]
    exact hentry

/-- A look that moved nothing. -/
theorem Inv.passed {s : State} (h : Inv s) {p : Poll} (hp : PollOk s p) (runCycles : ℕ) :
    Inv { s with poll := some { p with runCycles := runCycles } } :=
  ⟨h.tail, h.completed, h.credit, h.posts, h.empty, h.slot,
    fun _ hmem => Option.some.inj hmem ▸ ⟨hp.start, hp.completed, hp.last⟩, h.log⟩

/-- A poll that returns keeps the invariant. -/
theorem Inv.returned {s : State} (h : Inv s) {p : Poll} (hstart : s.tail ≤ p.curTail)
    (hcompleted : p.curTail ≤ s.completed) (status : ℕ) : Inv (s.return p status) where
  tail := hcompleted
  completed := h.completed
  credit := h.credit.trans (Nat.add_le_add_right hstart depth)
  posts := h.posts
  empty := h.empty
  slot := h.slot
  poll _ hmem := nomatch hmem
  log := by
    refine h.snoc ⟨fun hzero => ?_, hstart, hcompleted.trans h.completed⟩
    split at hzero
    case isTrue => exact absurd hzero pollCqTimeoutError_ne
    case isFalse htarget => exact not_not.mp htarget ▸ hcompleted

theorem Inv.observed {s : State} (h : Inv s) {before : ℕ} (hbefore : before ≤ s.completed) :
    Inv (s.observed before s.completed) :=
  ⟨h.tail, h.completed, h.credit, h.posts, h.empty, h.slot,
    fun p hp => ⟨(h.poll p hp).start, (h.poll p hp).completed, (h.poll p hp).last⟩,
    h.snoc ⟨rfl, hbefore, h.completed⟩⟩

/-- What a turn does: it passes an entry with another owner bit and the entry that this call has
accepted, and moves the tail at any other; then it goes on or returns. -/
theorem turn_cases (s : State) (p : Poll) :
    ((checkCqeOwner s.slot s.slot.wqeId = false ∨ p.lastWqeId = some s.slot.wqeId) ∧
      s.turn p = { s with poll := some { p with runCycles := p.runCycles + 1 } }) ∨
    (checkCqeOwner s.slot s.slot.wqeId = true ∧ p.lastWqeId ≠ some s.slot.wqeId ∧
      ∃ q : Poll, q.curTail = advanceTail p.curTail s.slot.wqeId ∧
        (q.lastWqeId = some s.slot.wqeId ∧
          s.turn p = { s.observed p.curTail q.curTail with poll := some q } ∨
        q.lastWqeId = p.lastWqeId ∧
          ∃ status, s.turn p = (s.observed p.curTail q.curTail).return q status)) := by
  let next : Poll :=
    { p with runCycles := p.runCycles + 1, curTail := advanceTail p.curTail s.slot.wqeId }
  unfold State.turn
  dsimp only
  split
  case isTrue howner => exact .inl ⟨.inl (by simpa using howner), rfl⟩
  case isFalse howner =>
    split
    case isTrue hlast => exact .inl ⟨.inr hlast, rfl⟩
    case isFalse hlast =>
      refine .inr ⟨by simpa using howner, hlast, ?_⟩
      split
      case isTrue => exact ⟨next, rfl, .inr ⟨rfl, _, rfl⟩⟩
      case isFalse =>
        split
        case isTrue => exact ⟨next, rfl, .inr ⟨rfl, _, rfl⟩⟩
        case isFalse =>
          exact ⟨{ next with lastWqeId := some s.slot.wqeId }, rfl, .inl ⟨rfl, rfl⟩⟩

/-- A look at a fresh entry finds the number of completed WQEs. -/
theorem Inv.turn {s : State} (h : Inv s) {p : Poll} (hp : PollOk s p)
    (hfresh : p.lastWqeId = none → s.completed = p.curTail → p.curTail % 2 ^ 17 = 0 → p.curTail = 0) :
    Inv (s.turn p) := by
  rcases turn_cases s p with ⟨_, hturn⟩ | ⟨howner, hlast, q, hq, hturn⟩
  · rw [hturn]
    exact h.passed hp _
  · have hpos : 0 < s.completed := by
      rcases Nat.eq_zero_or_pos s.completed with hzero | hpos
      · exact absurd howner (h.empty hzero)
      · exact hpos
    obtain ⟨errorCode, hslot⟩ := h.slot hpos
    rw [hslot, wqeId_cqeOf] at hq hlast
    have hnew : s.completed = p.curTail → p.curTail % 2 ^ 17 ≠ 0 := by
      intro heq hwrap
      cases hlastWqe : p.lastWqeId with
      | none => exact hpos.ne' (heq.trans (hfresh hlastWqe heq hwrap))
      | some wqeId =>
        -- this call has accepted the entry
        rw [hlastWqe, (hp.last wqeId hlastWqe).2, heq] at hlast
        exact hlast rfl
    have hcredit := h.credit
    have hbound := h.posts
    have hle := h.completed
    have hstart := hp.start
    rw [advanceTail_eq hpos hp.completed (by omega) (by omega) hnew] at hq
    have hobserved := h.observed hp.completed
    rw [← hq] at hobserved
    have hstart' : s.tail ≤ q.curTail := hq ▸ h.tail
    have hcompleted' : q.curTail ≤ s.completed := hq.le
    rcases hturn with ⟨hlastWqe, hturn⟩ | ⟨_, status, hturn⟩
    · rw [hturn]
      refine hobserved.passed ⟨hstart', hcompleted', fun wqeId hwqeId => ?_⟩ q.runCycles
      rw [hlastWqe, hslot, wqeId_cqeOf] at hwqeId
      rw [hq]
      exact ⟨hpos, (Option.some.inj hwqeId).symm⟩
    · rw [hturn]
      exact hobserved.returned hstart' hcompleted' status

theorem inv_step {timeoutCycles : ℕ} (s : State) (event : Event) (s' : State) (h : Inv s)
    (hfresh : Fresh timeoutCycles s event) (hstep : step timeoutCycles s event = some s') : Inv s' := by
  cases event with
  | post =>
    obtain ⟨⟨hcredit, hposts⟩, ⟨⟩⟩ := Option.ite_none_right_eq_some.mp hstep
    exact ⟨h.tail, Nat.le_succ_of_le h.completed, hcredit, hposts, h.empty, h.slot,
      fun p hp => ⟨(h.poll p hp).start, (h.poll p hp).completed, (h.poll p hp).last⟩, h.log⟩
  | complete errorCode =>
    obtain ⟨hposted, ⟨⟩⟩ := Option.ite_none_right_eq_some.mp hstep
    exact ⟨Nat.le_succ_of_le h.tail, hposted, h.credit, h.posts, fun hzero => absurd hzero (Nat.succ_ne_zero _),
      fun _ => ⟨errorCode, rfl⟩,
      fun p hp => ⟨(h.poll p hp).start, Nat.le_succ_of_le (h.poll p hp).completed, (h.poll p hp).last⟩,
      h.log⟩
  | call target =>
    obtain ⟨_, ⟨⟩⟩ := Option.ite_none_right_eq_some.mp hstep
    unfold State.call
    split
    case isTrue =>
      have hentry : (Entry.returned 0 0 s.completed s.tail s.tail s.head).Ok :=
        ⟨fun _ => Nat.zero_le _, le_refl _, h.tail.trans h.completed⟩
      exact ⟨h.tail, h.completed, h.credit, h.posts, h.empty, h.slot,
        fun p hp => ⟨(h.poll p hp).start, (h.poll p hp).completed, (h.poll p hp).last⟩, h.snoc hentry⟩
    case isFalse =>
      refine ⟨h.tail, h.completed, h.credit, h.posts, h.empty, h.slot, fun p hp => ?_, h.log⟩
      rw [← Option.some.inj hp]
      exact ⟨le_refl _, h.tail, fun _ hnone => nomatch hnone⟩
  | look =>
    obtain ⟨p, hp, rfl⟩ := Option.map_eq_some_iff.mp hstep
    have hpoll := h.poll p hp
    split
    case isTrue hcycles => exact h.turn hpoll (hfresh p hp hcycles)
    case isFalse => exact h.returned hpoll.start hpoll.completed 0

/-! ## Runs -/

/-- What is logged stays in the log. -/
theorem log_step {timeoutCycles : ℕ} {s s' : State} {event : Event}
    (hstep : step timeoutCycles s event = some s') : ∃ more, s'.log = s.log ++ more := by
  cases event with
  | post =>
    obtain ⟨_, ⟨⟩⟩ := Option.ite_none_right_eq_some.mp hstep
    exact ⟨[], (List.append_nil _).symm⟩
  | complete errorCode =>
    obtain ⟨_, ⟨⟩⟩ := Option.ite_none_right_eq_some.mp hstep
    exact ⟨[], (List.append_nil _).symm⟩
  | call target =>
    obtain ⟨_, ⟨⟩⟩ := Option.ite_none_right_eq_some.mp hstep
    unfold State.call
    split
    case isTrue => exact ⟨_, rfl⟩
    case isFalse => exact ⟨[], (List.append_nil _).symm⟩
  | look =>
    obtain ⟨p, _, rfl⟩ := Option.map_eq_some_iff.mp hstep
    split
    case isFalse => exact ⟨_, rfl⟩
    case isTrue =>
      rcases turn_cases s p with ⟨_, hturn⟩ | ⟨_, _, q, _, ⟨_, hturn⟩ | ⟨_, status, hturn⟩⟩
      · exact ⟨[], by rw [hturn, List.append_nil]⟩
      · exact ⟨_, by rw [hturn]; rfl⟩
      · exact ⟨_, by rw [hturn, State.return, State.observed, List.append_assoc]⟩

/-- The look that the condition excludes logs a tail that is not the number of completed WQEs. -/
theorem not_ok_of_not_fresh {timeoutCycles : ℕ} (s : State) (event : Event) (s' : State) (h : Inv s)
    (hfresh : ¬ Fresh timeoutCycles s event) (hstep : step timeoutCycles s event = some s') :
    ¬ ∀ e ∈ s'.log, e.Ok := by
  cases event with
  | post => exact absurd trivial hfresh
  | complete errorCode => exact absurd trivial hfresh
  | call target => exact absurd trivial hfresh
  | look =>
    simp only [Fresh] at hfresh
    push Not at hfresh
    obtain ⟨p, hp, hcycles, hlast, hsame, hwrap, hne⟩ := hfresh
    have hpos : 0 < p.curTail := Nat.pos_of_ne_zero hne
    obtain ⟨errorCode, hslot⟩ := h.slot (hsame ▸ hpos)
    obtain ⟨p', hp', rfl⟩ := Option.map_eq_some_iff.mp hstep
    rw [Option.some.inj (hp'.symm.trans hp), if_pos hcycles]
    have hentry : ∀ after, after = word (p.curTail + 2 ^ 17) →
        ¬ (Entry.observed p.curTail after s.completed s.head).Ok := by
      intro after hafter hok
      have heq : word (p.curTail + 2 ^ 17) = p.curTail := hafter.symm.trans (hok.1.trans hsame)
      rw [word] at heq
      omega
    rcases turn_cases s p with ⟨hpassed, _⟩ | ⟨_, _, q, hq, hturn⟩
    · rw [hslot, checkCqeOwner_cqeOf, hlast] at hpassed
      simp at hpassed
    · rw [hslot, wqeId_cqeOf, hsame, advanceTail_boundary hpos hwrap] at hq
      rcases hturn with ⟨_, hturn⟩ | ⟨_, status, hturn⟩
      · rw [hturn]
        exact fun hall => hentry _ hq (hall _ (List.mem_append_right _ (.head _)))
      · rw [hturn]
        exact fun hall => hentry _ hq
          (hall _ (List.mem_append_left _ (List.mem_append_right _ (.head _))))

/-- In a run from an entry that no WQE has written, every accepted look finds the number of completed
WQEs, the tail never moves backward or beyond the head and a call returns 0 only when all WQEs below
its target have completed, exactly when no call takes its first look at the entry read last while the
tail is a multiple of `2 ^ 17`. -/
theorem overrun_tail_iff (timeoutCycles : ℕ) {slot : SlotCqe}
    (hslot : ¬ checkCqeOwner slot slot.wqeId) {events : List Event} {s : State}
    (hrun : runEvents (step timeoutCycles) (.init slot) events = some s) :
    (∀ e ∈ s.log, e.Ok) ↔ Always (step timeoutCycles) (Fresh timeoutCycles) (.init slot) events := by
  refine good_runEvents_iff inv_step (fun s h => h.log) not_ok_of_not_fresh ?_ (inv_init hslot) hrun
  intro s event s' hbad hstep
  obtain ⟨more, hlog⟩ := log_step hstep
  rw [hlog]
  exact fun hall => hbad fun e he => hall e (List.mem_append_left _ he)

/-- A look that finds the target. -/
theorem turn_reaches {s : State} {p : Poll} (howner : checkCqeOwner s.slot s.slot.wqeId = true)
    (hlast : p.lastWqeId = none) (herror : s.slot.errorCode = 0)
    (htarget : advanceTail p.curTail s.slot.wqeId = p.target) :
    s.turn p = (s.observed p.curTail p.target).return
      { p with runCycles := p.runCycles + 1, curTail := p.target } 0 := by
  have herror' : ¬ (s.observed p.curTail p.target).slot.errorCode ≠ 0 := not_not.mpr herror
  unfold State.turn
  dsimp only
  rw [howner, if_neg (not_not.mpr rfl), hlast, if_neg (Option.some_ne_none _).symm, htarget,
    if_neg herror', if_pos rfl]

/-- A WQE is posted, completes and is polled. -/
theorem round {n : ℕ} (hn : n < 2 ^ 17) (slot : SlotCqe) (log : List Entry) :
    runEvents (step 1) ⟨n, n, n, slot, none, log⟩ [.post, .complete 0, .call (n + 1), .look]
      = some ⟨n + 1, n + 1, n + 1, cqeOf n 0, none, log ++ [.observed n (n + 1) (n + 1) (n + 1)]
        ++ [.returned (n + 1) 0 (n + 1) n (n + 1) (n + 1)]⟩ := by
  have htail := @advanceTail_eq n (n + 1) (Nat.succ_pos n) (Nat.le_succ n) (by rw [depth]; omega)
    (by omega) (by omega)
  rw [Nat.add_sub_cancel, ← wqeId_cqeOf n 0] at htail
  have hpost : step 1 ⟨n, n, n, slot, none, log⟩ .post = some ⟨n + 1, n, n, slot, none, log⟩ :=
    if_pos ⟨Nat.lt_add_of_pos_right (by decide), by dsimp only; omega⟩
  have hcomplete : step 1 ⟨n + 1, n, n, slot, none, log⟩ (.complete 0)
      = some ⟨n + 1, n + 1, n, cqeOf n 0, none, log⟩ := if_pos (Nat.lt_succ_self n)
  have hcall : step 1 ⟨n + 1, n + 1, n, cqeOf n 0, none, log⟩ (.call (n + 1))
      = some ⟨n + 1, n + 1, n, cqeOf n 0, some ⟨n + 1, n, none, 0⟩, log⟩ :=
    (if_pos ⟨rfl, le_refl _⟩).trans (congrArg some (if_neg (Nat.succ_ne_zero n)))
  have hturn := @turn_reaches ⟨n + 1, n + 1, n, cqeOf n 0, some ⟨n + 1, n, none, 0⟩, log⟩
    ⟨n + 1, n, none, 0⟩ (checkCqeOwner_cqeOf n 0) rfl rfl htail
  have hlook : step 1 ⟨n + 1, n + 1, n, cqeOf n 0, some ⟨n + 1, n, none, 0⟩, log⟩ .look
      = some ⟨n + 1, n + 1, n + 1, cqeOf n 0, none, log ++ [.observed n (n + 1) (n + 1) (n + 1)]
        ++ [.returned (n + 1) 0 (n + 1) n (n + 1) (n + 1)]⟩ := by
    refine congrArg some ((if_pos Nat.one_pos).trans (hturn.trans ?_))
    rw [State.return, State.observed, if_neg (not_not.mpr rfl)]
  exact runEvents_cons.mpr ⟨_, hpost, runEvents_cons.mpr ⟨_, hcomplete,
    runEvents_cons.mpr ⟨_, hcall, runEvents_cons.mpr ⟨_, hlook, rfl⟩⟩⟩⟩

theorem overrun_tail_iff_round : (∀ e ∈ [Entry.observed 0 1 1 1, .returned 1 0 1 0 1 1], e.Ok) ↔
    Always (step 1) (Fresh 1) (.init ⟨0, 1, 0⟩) [.post, .complete 0, .call 1, .look] :=
  overrun_tail_iff 1 (by decide) (round (by decide) ⟨0, 1, 0⟩ [])

/-- `n` rounds. -/
theorem exists_rounds (slot : SlotCqe) {n : ℕ} (hn : n ≤ 2 ^ 17) : ∃ events last log,
    (0 < n → last = cqeOf (n - 1) 0) ∧
    runEvents (step 1) (.init slot) events = some ⟨n, n, n, last, none, log⟩ := by
  induction n with
  | zero => exact ⟨[], slot, [], fun h => absurd h (Nat.lt_irrefl 0), rfl⟩
  | succ n ih =>
    obtain ⟨events, last, log, _, hrun⟩ := ih (Nat.le_of_succ_le hn)
    exact ⟨_, _, _, fun _ => rfl, runEvents_append.mpr ⟨_, hrun, round hn last log⟩⟩

/-- At a multiple of `2 ^ 17` a poll for the tail that is reached already moves it. -/
theorem boundary_look {n : ℕ} (hpos : 0 < n) (hwrap : n % 2 ^ 17 = 0) (log : List Entry) :
    ∃ s after, runEvents (step 1) ⟨n, n, n, cqeOf (n - 1) 0, none, log⟩ [.call n, .look] = some s ∧
      after ≠ n ∧ Entry.observed n after n n ∈ s.log := by
  have hcall : step 1 ⟨n, n, n, cqeOf (n - 1) 0, none, log⟩ (.call n)
      = some ⟨n, n, n, cqeOf (n - 1) 0, some ⟨n, n, none, 0⟩, log⟩ :=
    (if_pos ⟨rfl, le_refl _⟩).trans (congrArg some (if_neg hpos.ne'))
  have hlook : step 1 ⟨n, n, n, cqeOf (n - 1) 0, some ⟨n, n, none, 0⟩, log⟩ .look
      = some (State.turn ⟨n, n, n, cqeOf (n - 1) 0, some ⟨n, n, none, 0⟩, log⟩ ⟨n, n, none, 0⟩) :=
    congrArg some (if_pos Nat.one_pos)
  refine ⟨_, word (n + 2 ^ 17), runEvents_cons.mpr ⟨_, hcall, runEvents_cons.mpr ⟨_, hlook, rfl⟩⟩,
    by rw [word]; omega, ?_⟩
  rcases turn_cases ⟨n, n, n, cqeOf (n - 1) 0, some ⟨n, n, none, 0⟩, log⟩ ⟨n, n, none, 0⟩ with
    ⟨hpassed, _⟩ | ⟨_, _, q, hq, hturn⟩
  · rw [checkCqeOwner_cqeOf] at hpassed
    simp at hpassed
  · rw [wqeId_cqeOf, advanceTail_boundary hpos hwrap] at hq
    rw [← hq]
    rcases hturn with ⟨_, hturn⟩ | ⟨_, status, hturn⟩
    · rw [hturn]
      exact List.mem_append_right _ (.head _)
    · rw [hturn]
      exact List.mem_append_left _ (List.mem_append_right _ (.head _))

/-- After `2 ^ 17` rounds. -/
theorem not_ok_boundary : ¬ ∀ (timeoutCycles : ℕ) (slot : SlotCqe),
    ¬ checkCqeOwner slot slot.wqeId → ∀ (events : List Event) (s : State),
      runEvents (step timeoutCycles) (.init slot) events = some s → ∀ e ∈ s.log, e.Ok := by
  intro hall
  obtain ⟨events, last, log, hlast, hrun⟩ := exists_rounds ⟨0, 1, 0⟩ (le_refl (2 ^ 17))
  rw [hlast (by decide)] at hrun
  obtain ⟨s, after, hlook, hne, hmem⟩ :=
    @boundary_look (2 ^ 17) (by decide) (by decide) log
  have hok := hall 1 ⟨0, 1, 0⟩ (by decide) _ s (runEvents_append.mpr ⟨_, hrun, hlook⟩) _ hmem
  exact hne hok.1

end AscendShmem.RdmaQueue.OverrunTail
