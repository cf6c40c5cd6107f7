import AscendShmem.CompletionQueue.Polls

/-!
# Every completion is consumed once

The owner bit tells a CQE of this lap from one of the lap before, and at most one lap is unconsumed, so
a poll accepts at its position the CQE of this completion and nothing else (`ready_written`). The tails
are then the number of consumed completions in every lap, and across the wrap of the counters. Where
the tail words of the queues are apart, the poll of `XSCALE` leaves the one of the send queue behind.
-/

namespace AscendShmem.CompletionQueue

open Lib

/-- What the four polls share: they go around the ring and know the lap by its parity. -/
structure PollCode.Lawful (code : PollCode) : Prop where
  ring_pos : 0 < code.ring
  laps : 2 * code.ring ∣ 2 ^ 32
  slot_eq : ∀ t, code.slot t = t % code.ring
  ready_eq : ∀ k t cqe, code.valid cqe → cqe.owner = code.hwOwner k →
    code.ready t cqe = (lapParity code.ring k == lapParity code.ring t)
  timeoutStatus : code.limit.isSome → code.timeoutStatus ≠ 0
  failure : code.exitsBare → ∀ cqe, code.failure cqe ≠ some 0

/-- The bit of `depth` in a tail is the parity of the lap. -/
theorem lapParity_eq_and (t j : ℕ) : lapParity (2 ^ j) t = decide (t &&& 2 ^ j ≠ 0) := by
  have hbit : t.testBit j = lapParity (2 ^ j) t := Nat.testBit_eq_decide_div_mod_eq
  have hpos : (2 : ℕ) ^ j ≠ 0 := (Nat.two_pow_pos j).ne'
  rw [Nat.and_two_pow, hbit]
  cases lapParity (2 ^ j) t
  case false => simp
  case true => simp

theorem xor_not_eq_beq (a b : Bool) : (a ^^ !b) = (b == a) := by cases a <;> cases b <;> rfl

theorem not_not_beq_eq_beq (a b : Bool) : (!((!a) == b)) = (a == b) := by
  cases a <;> cases b <;> rfl

theorem two_mul_two_pow_dvd {j : ℕ} (hj : j < 32) : 2 * 2 ^ j ∣ 2 ^ 32 := by
  rw [← Nat.pow_succ']
  exact Nat.pow_dvd_pow 2 hj

/-- Every backend tells the laps apart by its owner bit. -/
theorem Backend.lawful {code : PollCode} (h : Backend code) : code.Lawful := by
  -- every ring is a power of two, so that a mask is a remainder and laps fit the 32-bit words
  cases h with
  | udma =>
    constructor
    case ring_pos => decide
    case laps => decide
    case slot_eq => exact fun t => Nat.and_two_pow_sub_one_eq_mod t 15
    case ready_eq =>
      intro k t cqe _ howner
      change (lapParity udmaCqDepthDefault t ^^ cqe.owner) = _
      rw [howner]
      exact xor_not_eq_beq _ _
    case timeoutStatus => exact fun _ => by decide
    case failure =>
      intro _ cqe
      simp only [CompletionQueue.udma]
      split
      case isTrue hstatus =>
        rw [ne_eq, Option.some.injEq]
        omega
      case isFalse => exact (Option.some_ne_none _).symm
  | inDie j hj =>
    constructor
    case ring_pos => exact Nat.two_pow_pos j
    case laps => exact two_mul_two_pow_dvd hj
    case slot_eq => exact fun t => Nat.and_two_pow_sub_one_eq_mod t j
    case ready_eq =>
      intro k t cqe _ howner
      change (!(cqe.owner == decide (t &&& 2 ^ j ≠ 0))) = _
      rw [howner, ← lapParity_eq_and]
      exact not_not_beq_eq_beq _ _
    case timeoutStatus => exact fun hlimit => nomatch hlimit
    case failure =>
      intro _ cqe
      simp only [CompletionQueue.inDie]
      split
      case isTrue hstatus => exact fun hzero => hstatus (Option.some.inj hzero)
      case isFalse => exact (Option.some_ne_none _).symm
  | hns1825 j depth timeoutCycles hj hring =>
    constructor
    case ring_pos => exact Nat.lt_of_lt_of_eq (Nat.two_pow_pos j) hring.symm
    case laps =>
      change 2 * word (depth + cqeMaxGenNum) ∣ 2 ^ 32
      rw [hring]
      exact two_mul_two_pow_dvd hj
    case slot_eq =>
      intro t
      change t &&& (word (depth + cqeMaxGenNum) - 1) = t % word (depth + cqeMaxGenNum)
      rw [hring]
      exact Nat.and_two_pow_sub_one_eq_mod t j
    case ready_eq =>
      intro k t cqe hvalid howner
      have hvalid' : decide (cqe.opType % 2 ^ 5 ≠ cqeOptypeInvalid) = true := hvalid
      change (decide (cqe.opType % 2 ^ 5 ≠ cqeOptypeInvalid) &&
        (decide (t &&& word (depth + cqeMaxGenNum) = 0) ^^ cqe.owner)) = _
      -- a written entry is valid, so that only the owner bit is left
      rw [hvalid', howner]
      change (true && (_ ^^ lapParity (word (depth + cqeMaxGenNum)) k))
        = (lapParity (word (depth + cqeMaxGenNum)) k == lapParity (word (depth + cqeMaxGenNum)) t)
      rw [hring, lapParity_eq_and t]
      cases lapParity (2 ^ j) k <;> by_cases ht : t &&& 2 ^ j = 0 <;> simp [ht]
    case timeoutStatus => exact fun _ => Nat.succ_ne_zero 0xFFFF
    case failure => exact fun hbare => nomatch hbare
  | xscale j timeoutCycles sharedTail hj =>
    constructor
    case ring_pos => exact Nat.two_pow_pos j
    case laps => exact two_mul_two_pow_dvd hj
    case slot_eq => exact fun _ => rfl
    case ready_eq =>
      intro k t cqe _ howner
      change (cqe.owner == lapParity (2 ^ j) t) = _
      rw [howner]
      rfl
    case timeoutStatus => exact fun _ => Nat.succ_ne_zero 0xFFFF
    case failure => exact fun hbare => nomatch hbare

/-! ## The invariant -/

/-- A call that runs is at its position, before its target. -/
structure PollOk (s : State) (p : Poll) : Prop where
  start : s.consumed ≤ p.position
  completed : p.position ≤ s.cqes.length
  before : p.position < p.goal
  goal : p.goal = s.lastTarget
  curTail : p.curTail = word p.position
  target : p.target = word p.goal

/-- The queue and its log. -/
structure Base (code : PollCode) (initial : ℕ → Cqe) (s : State) : Prop where
  consumed : s.consumed ≤ s.cqes.length
  completed : s.cqes.length ≤ s.posted
  unconsumed : s.cqes.length ≤ s.consumed + code.ring
  posted : s.posted < s.consumed + 2 ^ 32
  counted : s.consumed ≤ s.lastTarget
  lastTarget : s.lastTarget ≤ s.posted
  slots : LapRing code.ring initial s.slots s.cqes
  cqes : ∀ k cqe, s.cqes[k]? = some cqe → code.valid cqe ∧ cqe.owner = code.hwOwner k
  cqTail : s.cqTail = word s.consumed
  sqTail : code.writesSqTail → s.sqTail = word s.consumed
  log : ∀ e ∈ s.log, e.Ok ∧ (code.writesSqTail → e.SqOk)

/-- The invariant: what the tails say, where a poll stands, and that the log counts every completion
once. -/
structure Inv (code : PollCode) (initial : ℕ → Cqe) (s : State) : Prop where
  base : Base code initial s
  poll : ∀ p ∈ s.poll, PollOk s p
  counts : s.log.foldlM count (0, 0) = some (s.consumed, (s.poll.map Poll.position).getD s.consumed)

section Invariant

variable {code : PollCode} {initial : ℕ → Cqe} {s : State}

theorem inv_init : Inv code initial (.init initial) where
  base := {
    consumed := le_refl _
    completed := le_refl _
    unconsumed := Nat.zero_le _
    posted := by simp [State.init]
    counted := le_refl _
    lastTarget := le_refl _
    slots := .empty
    cqes _ _ h := nomatch h
    cqTail := rfl
    sqTail _ := rfl
    log _ h := nomatch h }
  poll _ h := nomatch h
  counts := rfl

theorem word_add_one (n : ℕ) : word (word n + 1) = word (n + 1) := Nat.mod_add_mod n (2 ^ 32) 1

/-- Counters that are less than `2 ^ 32` apart are told apart by their words. -/
theorem eq_of_word_eq {m n : ℕ} (hle : m ≤ n) (hlt : n < m + 2 ^ 32) (h : word m = word n) : m = n := by
  unfold word at h
  omega

/-- The slot of a tail is the slot of its completion. -/
theorem PollCode.Lawful.slot_word (hcode : code.Lawful) (n : ℕ) :
    code.slot (word n) = n % code.ring := by
  rw [hcode.slot_eq, word, Nat.mod_mod_of_dvd n ((Dvd.intro_left 2 rfl).trans hcode.laps)]

/-- The owner bit is the one of the lap exactly at the CQE of this completion: the slot of a completion
that is not there yet holds the CQE of the lap before or what it held at first. -/
theorem ready_written (hcode : code.Lawful) (hinitial : ∀ i < code.ring, code.ready i (initial i) = false)
    (h : Base code initial s) {position : ℕ} (hstart : s.consumed ≤ position)
    (hcompleted : position ≤ s.cqes.length)
    (hready : code.ready (word position) (s.slots (code.slot (word position))) = true) :
    s.cqes[position]? = some (s.slots (code.slot (word position))) := by
  rw [hcode.slot_word] at hready ⊢
  rcases Nat.lt_or_eq_of_le hcompleted with hlt | heq
  · exact h.slots.at_written hlt (h.unconsumed.trans (Nat.add_le_add_right hstart _))
  · exfalso
    rcases h.slots.at_next hcode.ring_pos with ⟨hlt, hslot⟩ | ⟨hge, hslot⟩
    · have hring : code.ring < 2 ^ 32 := by
        have hdvd := Nat.le_of_dvd (Nat.two_pow_pos 32) hcode.laps
        have hpos := hcode.ring_pos
        omega
      have hword : word position = position := Nat.mod_eq_of_lt (by omega)
      rw [hword, heq, hslot, hinitial _ hlt] at hready
      exact Bool.false_ne_true hready
    · obtain ⟨hvalid, howner⟩ := h.cqes _ _ hslot
      rw [heq, hcode.ready_eq _ _ _ hvalid howner, word, lapParity_mod hcode.laps] at hready
      -- one lap apart
      have hlap := lapParity_add hcode.ring_pos (s.cqes.length - code.ring)
      rw [Nat.sub_add_cancel hge] at hlap
      rw [hlap] at hready
      cases hparity : lapParity code.ring (s.cqes.length - code.ring) <;> simp [hparity] at hready

/-- An entry that has the property joins the log. -/
theorem Base.snoc (h : Base code initial s) {entry : Entry} (hentry : entry.Ok)
    (hsq : code.writesSqTail → entry.SqOk) :
    Base code initial { s with log := s.log ++ [entry] } where
  __ := h
  log e he := by
    rcases List.mem_append.mp he with hold | hlast
    · exact h.log e hold
    · rw [List.mem_singleton.mp hlast]
      exact ⟨hentry, hsq⟩

theorem Base.setPoll (h : Base code initial s) (poll : Option Poll) :
    Base code initial { s with poll := poll } where
  __ := h

/-- The tails are written at a completion that is there. -/
theorem Base.store (h : Base code initial s) {position : ℕ} (hstart : s.consumed ≤ position)
    (hcompleted : position ≤ s.cqes.length) (htarget : position ≤ s.lastTarget) :
    Base code initial (s.store code (word position) position) where
  consumed := hcompleted
  completed := h.completed
  unconsumed := h.unconsumed.trans (Nat.add_le_add_right hstart _)
  posted := h.posted.trans_le (Nat.add_le_add_right hstart _)
  counted := htarget
  lastTarget := h.lastTarget
  slots := h.slots
  cqes := h.cqes
  cqTail := rfl
  sqTail hshared := if_pos hshared
  log := h.log

/-- A call returns with the completions counted that it has taken. -/
theorem Inv.returned (h : Base code initial s) {position goal status : ℕ}
    (hstart : s.consumed ≤ position) (hcompleted : position ≤ s.cqes.length)
    (htarget : position ≤ s.lastTarget)
    (hcounts : s.log.foldlM count (0, 0) = some (s.consumed, position))
    (hzero : status = 0 → position = goal) :
    Inv code initial (s.returns (s.store code (word position) position) goal status) where
  base := ((h.store hstart hcompleted htarget).setPoll none).snoc
    ⟨hstart, hcompleted, rfl, hzero⟩ fun hshared => if_pos hshared
  poll _ hmem := nomatch hmem
  counts := by
    have hnext : count (s.consumed, position) (.returned goal status s.consumed position
        (word position) (if code.writesSqTail then word position else s.sqTail) s.cqes.length)
        = some (position, position) := if_pos ⟨rfl, .inl rfl⟩
    simp only [State.returns, State.store, List.foldlM_append, hcounts, List.foldlM_cons,
      List.foldlM_nil, Option.bind_eq_bind, Option.bind_some, hnext]
    rfl

/-- A call returns with an error and has counted nothing. -/
theorem Inv.leaves (h : Base code initial s) {position goal status : ℕ}
    (hcounts : s.log.foldlM count (0, 0) = some (s.consumed, position)) (hstatus : status ≠ 0) :
    Inv code initial (s.returns s goal status) where
  base := (h.setPoll none).snoc
    ⟨le_refl _, h.consumed, h.cqTail, fun hzero => absurd hzero hstatus⟩ h.sqTail
  poll _ hmem := nomatch hmem
  counts := by
    have hnext : count (s.consumed, position) (.returned goal status s.consumed s.consumed
        s.cqTail s.sqTail s.cqes.length) = some (s.consumed, s.consumed) :=
      if_pos ⟨rfl, .inr ⟨rfl, hstatus⟩⟩
    simp only [State.returns, List.foldlM_append, hcounts, List.foldlM_cons,
      List.foldlM_nil, Option.bind_eq_bind, Option.bind_some, hnext]
    rfl

/-- A call that ends before its target. -/
theorem Inv.fails (h : Base code initial s) {p : Poll} {position status : ℕ}
    (hstart : s.consumed ≤ position) (hcompleted : position ≤ s.cqes.length)
    (htarget : position ≤ s.lastTarget)
    (hcounts : s.log.foldlM count (0, 0) = some (s.consumed, position))
    (hbare : code.exitsBare → status ≠ 0) (hzero : status = 0 → position = p.goal) :
    Inv code initial (s.fails code p (word position) position status) := by
  unfold State.fails
  split
  case isTrue hexits => exact Inv.leaves h hcounts (hbare hexits)
  case isFalse => exact Inv.returned h hstart hcompleted htarget hcounts hzero

/-- A CQE that ends the call with the status 0 is the last one before the target. -/
def Keeps (code : PollCode) (s : State) : Event → Prop
  | .look => ∀ p ∈ s.poll, ∀ cqe ∈ s.cqes[p.position]?,
    code.failure cqe = some 0 → p.position + 1 = p.goal
  | _ => True

/-- The CQE of its completion is accepted. -/
theorem Inv.accept (hcode : code.Lawful) (h : Inv code initial s) {p : Poll} (hp : p ∈ s.poll)
    {cqe : Cqe} (hcqe : s.cqes[p.position]? = some cqe)
    (hsyndrome : code.failure cqe = some 0 → p.position + 1 = p.goal) :
    Inv code initial (s.accept code p cqe) := by
  obtain ⟨hstart, _, hbefore, hgoal, hcurTail, htarget⟩ := h.poll p hp
  have hlength : p.position < s.cqes.length := (List.getElem?_eq_some_iff.mp hcqe).1
  have hle : p.position + 1 ≤ s.lastTarget := hgoal ▸ hbefore
  -- the CQE is logged and taken
  have haccepted : (Entry.accepted p.curTail p.position cqe s.cqes[p.position]?).Ok :=
    ⟨hcurTail, hcqe⟩
  have hbase := h.base.snoc haccepted fun _ => trivial
  have hcounts : (s.log ++ [Entry.accepted p.curTail p.position cqe s.cqes[p.position]?]).foldlM
      count (0, 0) = some (s.consumed, p.position + 1) := by
    have hnext : count (s.consumed, p.position) (.accepted p.curTail p.position cqe
        s.cqes[p.position]?) = some (s.consumed, p.position + 1) := if_pos rfl
    rw [List.foldlM_append, h.counts, Option.mem_def.mp hp]
    simp only [Option.map_some, Option.getD_some, List.foldlM_cons, List.foldlM_nil,
      Option.bind_eq_bind, Option.bind_some, hnext]
    rfl
  unfold State.accept
  dsimp only
  rw [hcurTail, word_add_one]
  rw [hcurTail] at hbase hcounts
  split
  case h_1 status hfailure =>
    refine Inv.fails hbase (Nat.le_succ_of_le hstart) hlength hle hcounts
      (fun hbare hzero => hcode.failure hbare cqe (hfailure.trans (congrArg some hzero)))
      (fun hzero => hsyndrome (hfailure.trans (congrArg some hzero)))
  case h_2 =>
    have hposted := h.base.posted
    have hlast := h.base.lastTarget
    split
    case isTrue hreached =>
      rw [htarget] at hreached
      have heq := eq_of_word_eq hbefore (by omega) hreached
      exact Inv.returned hbase (Nat.le_succ_of_le hstart) hlength hle hcounts fun _ => heq
    case isFalse hreached =>
      have hne : p.position + 1 ≠ p.goal := fun heq => hreached (by rw [heq, htarget])
      refine ⟨hbase.setPoll _, fun q hq => ?_, hcounts⟩
      rw [← Option.some.inj hq]
      exact ⟨Nat.le_succ_of_le hstart, hlength, Nat.lt_of_le_of_ne hbefore hne, hgoal, rfl, htarget⟩

/-- A look accepts the next completion, finds nothing, or ends the call. -/
theorem Inv.look (hcode : code.Lawful)
    (hinitial : ∀ i < code.ring, code.ready i (initial i) = false) (h : Inv code initial s) {p : Poll}
    (hp : p ∈ s.poll) (hsyndrome : ∀ cqe ∈ s.cqes[p.position]?,
      code.failure cqe = some 0 → p.position + 1 = p.goal) :
    Inv code initial (s.look code p) := by
  obtain ⟨hstart, hcompleted, hbefore, hgoal, hcurTail, htarget⟩ := h.poll p hp
  have hcounts := h.counts
  rw [Option.mem_def.mp hp] at hcounts
  unfold State.look
  split
  case isTrue htimeout =>
    have hstatus : code.timeoutStatus ≠ 0 := by
      refine hcode.timeoutStatus ?_
      cases hlimit : code.limit
      case none => simp [PollCode.timedOut, hlimit] at htimeout
      case some => rfl
    rw [hcurTail]
    exact Inv.fails h.base hstart hcompleted (hgoal ▸ hbefore.le) hcounts (fun _ => hstatus)
      fun hzero => absurd hzero hstatus
  case isFalse =>
    dsimp only
    split
    case isTrue hready =>
      rw [hcurTail] at hready ⊢
      have hwritten := ready_written hcode hinitial h.base hstart hcompleted hready
      exact h.accept hcode hp hwritten (hsyndrome _ hwritten)
    case isFalse =>
      refine ⟨h.base.setPoll _, fun q hq => ?_, hcounts⟩
      rw [← Option.some.inj hq]
      exact ⟨hstart, hcompleted, hbefore, hgoal, hcurTail, htarget⟩

/-- Every step that meets the condition keeps the invariant. -/
theorem inv_step (hcode : code.Lawful)
    (hinitial : ∀ i < code.ring, code.ready i (initial i) = false) (s : State) (event : Event)
    (s' : State) (h : Inv code initial s) (hkeeps : Keeps code s event)
    (hstep : step code s event = some s') : Inv code initial s' := by
  cases event with
  | post =>
    obtain ⟨hposted, ⟨⟩⟩ := Option.ite_none_right_eq_some.mp hstep
    refine ⟨{ h.base with
      completed := Nat.le_succ_of_le h.base.completed
      posted := hposted
      lastTarget := Nat.le_succ_of_le h.base.lastTarget }, fun p hp => ?_, h.counts⟩
    obtain ⟨hstart, hcompleted, hbefore, hgoal, hcurTail, htarget⟩ := h.poll p hp
    exact ⟨hstart, hcompleted, hbefore, hgoal, hcurTail, htarget⟩
  | complete cqe =>
    obtain ⟨⟨hposted, hring, howner, hvalid⟩, ⟨⟩⟩ := Option.ite_none_right_eq_some.mp hstep
    -- the entry takes the slot of its number, whose last one has been consumed
    have hlength : (s.cqes ++ [cqe]).length = s.cqes.length + 1 := by simp
    refine ⟨{ h.base with
      consumed := ?_
      completed := hlength.le.trans hposted
      unconsumed := hlength.le.trans hring
      slots := h.base.slots.write cqe
      cqes := fun k written hk => ?_ }, fun p hp => ?_, h.counts⟩
    · exact h.base.consumed.trans (hlength ▸ Nat.le_succ _)
    · rcases Nat.lt_or_ge k s.cqes.length with hlt | hge
      · rw [List.getElem?_append_left hlt] at hk
        exact h.base.cqes k written hk
      · have hk' : k = s.cqes.length := by
          have hbound : k < (s.cqes ++ [cqe]).length := (List.getElem?_eq_some_iff.mp hk).1
          omega
        subst hk'
        rw [List.getElem?_append_right (le_refl _), Nat.sub_self] at hk
        cases hk
        exact ⟨hvalid, howner⟩
    · obtain ⟨hstart, hcompleted, hbefore, hgoal, hcurTail, htarget⟩ := h.poll p hp
      exact ⟨hstart, hcompleted.trans (hlength ▸ Nat.le_succ _), hbefore, hgoal, hcurTail, htarget⟩
  | call goal =>
    obtain ⟨⟨hidle, hlast, hposted, hne⟩, ⟨⟩⟩ := Option.ite_none_right_eq_some.mp hstep
    have hconsumed := h.base.counted.trans hlast
    have hbase : Base code initial { s with lastTarget := goal } :=
      { h.base with counted := hconsumed, lastTarget := hposted }
    have hcounts := h.counts
    rw [Option.isNone_iff_eq_none.mp hidle] at hcounts
    unfold State.call
    dsimp only
    rw [if_neg fun hzero => hne hzero.2]
    split
    -- the words are equal, and the target is less than a turn of the word ahead
    case isTrue hreached =>
      rw [h.base.cqTail] at hreached ⊢
      have hhead := h.base.posted
      have heq := eq_of_word_eq hconsumed (by omega) hreached
      exact Inv.returned hbase (le_refl _) h.base.consumed hconsumed hcounts fun _ => heq
    case isFalse hreached =>
      have hlt : s.consumed < goal := by
        refine Nat.lt_of_le_of_ne hconsumed fun heq => hreached ?_
        rw [h.base.cqTail, heq]
      refine ⟨hbase.setPoll _, fun q hq => ?_, hcounts⟩
      rw [← Option.some.inj hq]
      exact ⟨le_refl _, h.base.consumed, hlt, rfl, h.base.cqTail, rfl⟩
  | look =>
    obtain ⟨p, hp, rfl⟩ := Option.map_eq_some_iff.mp hstep
    exact h.look hcode hinitial hp (hkeeps p hp)

end Invariant

/-- Every accepted CQE is the one of its completion, every completion is counted once, a call that
returns 0 has waited for all completions below its target and every call leaves both tails at the
number of counted completions, if the poll writes the tail word of the send queue and an error with the
status 0 is met at the last completion before the target only. -/
theorem consumed_once {code : PollCode} (hcode : Backend code) (hshared : code.writesSqTail)
    {initial : ℕ → Cqe} (hinitial : ∀ i < code.ring, code.ready i (initial i) = false)
    {events : List Event} {s : State}
    (hrun : runEvents (step code) (.init initial) events = some s)
    (hkeeps : Always (step code) (Keeps code) (.init initial) events) :
    CountedOnce s.log ∧ ∀ e ∈ s.log, e.Ok ∧ e.SqOk := by
  have h := inv_runEvents (inv_step hcode.lawful hinitial) inv_init hkeeps hrun
  refine ⟨?_, fun e he => ⟨(h.base.log e he).1, (h.base.log e he).2 hshared⟩⟩
  rw [CountedOnce, h.counts]
  rfl

/-- Where an error has another status than 0 the condition always holds. -/
theorem always_keeps {code : PollCode} (h : ∀ cqe, code.failure cqe ≠ some 0) (s : State)
    (events : List Event) : Always (step code) (Keeps code) s events := by
  induction events generalizing s with
  | nil => trivial
  | cons event events ih =>
    refine ⟨?_, fun s' _ => ih s'⟩
    cases event with
    | look => exact fun p _ cqe _ hfailure => absurd hfailure (h cqe)
    | post => trivial
    | complete cqe => trivial
    | call target => trivial

/-- XSCALE returns no error with the status 0. -/
theorem xscale_failure_ne (depth timeoutCycles : ℕ) (sharedTail : Bool) (cqe : Cqe) :
    (xscale depth timeoutCycles sharedTail).failure cqe ≠ some 0 := by
  simp only [xscale]
  split
  case isTrue hstatus => exact fun hzero => hstatus (Option.some.inj hzero)
  case isFalse => exact (Option.some_ne_none _).symm

/-- A CQE without an error. -/
def okCqe (owner : Bool) : Cqe := ⟨owner, 0, 0, 0, 0⟩

/-- Three completions in a ring of two slots and the polls for them. The third CQE overwrites the
first, with the owner bit of the second lap. -/
def aroundRing : List Event :=
  [.post, .complete (okCqe false), .post, .complete (okCqe false), .call 2, .look, .look,
    .post, .complete (okCqe true), .call 3, .look]

/-- What the two calls have accepted and returned. -/
def aroundLog : List Entry :=
  [.accepted 0 0 (okCqe false) (okCqe false), .accepted 1 1 (okCqe false) (okCqe false),
    .returned 2 0 0 2 2 2 2, .accepted 2 2 (okCqe true) (okCqe true), .returned 3 0 2 3 3 3 3]

/-- A slot that was not written looks like one of the lap before the first. -/
theorem ready_unwritten (j timeoutCycles : ℕ) (sharedTail : Bool) :
    ∀ i < (xscale (2 ^ j) timeoutCycles sharedTail).ring,
      (xscale (2 ^ j) timeoutCycles sharedTail).ready i (okCqe true) = false := by
  intro i hi
  have hi : i < 2 ^ j := hi
  show (true == lapParity (2 ^ j) i) = false
  unfold lapParity
  rw [Nat.div_eq_of_lt hi]
  rfl

/-- The ring is reused: the third completion is accepted in the slot of the first. -/
theorem consumed_once_around : CountedOnce aroundLog ∧ ∀ e ∈ aroundLog, e.Ok ∧ e.SqOk := by
  obtain ⟨s, hrun, hlog⟩ : ∃ s, runEvents (step (xscale (2 ^ 1) 1 true))
      (.init fun _ => okCqe true) aroundRing = some s ∧ s.log = aroundLog :=
    Option.map_eq_some_iff.mp (by decide +kernel)
  rw [← hlog]
  exact consumed_once (.xscale 1 1 true (by decide)) rfl (ready_unwritten 1 1 true) hrun
    (always_keeps (xscale_failure_ne _ _ _) _ _)

/-- One completion and the poll for it, in a ring of one slot: with a tail word of its own the send
queue stays at 0. -/
theorem not_sqOk_xscale : ¬ ∀ (code : PollCode) (initial : ℕ → Cqe) (events : List Event) (s : State),
    Backend code → (∀ i < code.ring, code.ready i (initial i) = false) →
    runEvents (step code) (.init initial) events = some s →
    CountedOnce s.log ∧ ∀ e ∈ s.log, e.Ok ∧ e.SqOk := by
  intro hall
  obtain ⟨s, hrun, hlog⟩ : ∃ s, runEvents (step (xscale (2 ^ 0) 1 false))
      (.init fun _ => okCqe true) [.post, .complete (okCqe false), .call 1, .look] = some s ∧
      s.log = [.accepted 0 0 (okCqe false) (okCqe false), .returned 1 0 0 1 1 0 1] :=
    Option.map_eq_some_iff.mp (by decide +kernel)
  have hok := (hall _ _ _ s (.xscale 0 1 false (by decide)) (ready_unwritten 0 1 false) hrun).2
  rw [hlog] at hok
  have hsq : 0 = word 1 := (hok _ (.tail _ (.head _))).2
  exact absurd hsq (by decide)

end AscendShmem.CompletionQueue
