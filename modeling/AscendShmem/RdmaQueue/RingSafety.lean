import Mathlib
import AscendShmem.RdmaQueue.Queue

/-!
# Safety of the send queue

The queue is about to be full when `head` and `tail` are `threshold` slots short of a full ring, and
the posts test this as an equality of two slots. The equality is met before the ring overflows as
long as `head` moves in steps of one below it, and it stops the queue as long as the poll it starts
moves `tail`.
-/

namespace AscendShmem.RdmaQueue

open Lib

/-! ## What must hold -/

/-- A slot written does not hold a WQE between `tail` and `head`, and a target polled to is not
beyond `head`. -/
def Event.Ok (depth : ℕ) : Event → Prop
  | .wrote index head tail => ∀ k < outstanding head tail, word (tail + k) % depth ≠ index % depth
  | .polled target head tail => outstanding target tail ≤ outstanding head tail

/-- No more requests are outstanding than the ring has slots, and no slot is taken twice. -/
structure Safe (depth : ℕ) (q : Queue) : Prop where
  bounded : outstanding q.head q.tail ≤ depth
  events : ∀ e ∈ q.log, e.Ok depth

/-! ## When it holds -/

/-- The test of the posts. -/
def Queue.nearlyFull (q : Queue) (threshold depth : ℕ) : Prop :=
  word (q.head + threshold) % depth = q.tail % depth

/-- Where the index in the entry has just wrapped, the first look of an ignore-overrun poll shows a
WQE that was not polled before. -/
def FreshLook (start unpolled : ℕ) (looks : List (Option Look)) : Prop :=
  start % 2 ^ overrunWqeIndexWidth = 0 →
    ∀ look ∈ (looks.filterMap id).head?, 0 < min look.advance unpolled

/-- A poll sees completions of outstanding requests only. -/
def Queue.FreshLook (q : Queue) (reply : PollReply) : Prop :=
  RdmaQueue.FreshLook q.tail (outstanding q.head q.tail) reply.looks

/-- What a call needs so that the queue stays safe. -/
def Keeps (b : Backend) (depth : ℕ) (q : Queue) (call : Call) : Prop :=
  match b, call with
  | .inDie, .post reply => q.nearlyFull 10 depth →
      word (q.tail + numCqePerPollCq) ≠ 0 ∧
        ∀ i < numCqePerPollCq, ∀ cqe ∈ reply.cqes i, cqe.status = 0
  | .hns1825, .post _ => q.nearlyFull 10 depth → q.head ≠ 0
  | .xscale ignoreOverrun, .post reply => outstanding q.head q.tail + 16 ≤ depth ∧
      (ignoreOverrun = true → q.nearlyFull 16 depth → q.head ≠ 0 ∧ q.FreshLook reply)
  | .xscale ignoreOverrun, .atomic reply => outstanding q.head q.tail + 16 ≤ depth ∧
      (ignoreOverrun = true → q.nearlyFull 16 depth → q.head ≠ 0 ∧ q.FreshLook reply)
  | .xscale ignoreOverrun, .commit reply => q.cachedHead = q.head ∧
      outstanding q.head q.tail + word (q.pendingCount + 1) + 16 < 2 ^ 32 ∧
      (ignoreOverrun = true → q.commitPolls depth → q.head ≠ 0 ∧ q.FreshLook reply)
  | .xscale true, .quiet reply => q.head ≠ 0 → q.FreshLook reply
  | _, _ => True

/-! ## The polls -/

/-- A poll of the completion queue moves the tail by what it saw: to the end, or to the completion
that stopped it, or to where it waited in vain. -/
theorem pollLoop_spec (stops : Cqe → Bool) (cqes : ℕ → Option Cqe) (head : ℕ) {n i tail : ℕ}
    (ht : tail < 2 ^ 32) :
    ∃ k ≤ n, (pollLoop stops cqes head n i tail).2 = word (tail + k) ∧
      ∀ status, (pollLoop stops cqes head n i tail).1 = some status → k = n ∧ status = 0 ∨
        0 < k ∧ ∃ j cqe, j < i + n ∧ cqes j = some cqe ∧ stops cqe = true ∧ status = cqe.status := by
  induction n generalizing i tail with
  | zero =>
    refine ⟨0, le_refl 0, (Nat.mod_eq_of_lt ht).symm, ?_⟩
    intro status hstatus
    exact Or.inl ⟨rfl, (Option.some.inj hstatus).symm⟩
  | succ n ih =>
    have hstay : tail = word (tail + 0) := (Nat.mod_eq_of_lt ht).symm
    rw [pollLoop]
    by_cases hhead : tail = head
    · rw [if_pos hhead]
      exact ⟨0, Nat.zero_le _, hstay, fun status hstatus => by cases hstatus⟩
    rw [if_neg hhead]
    cases hcqe : cqes i with
    | none => exact ⟨0, Nat.zero_le _, hstay, fun status hstatus => by cases hstatus⟩
    | some cqe =>
      dsimp only
      by_cases hstops : stops cqe = true
      · rw [if_pos hstops]
        refine ⟨1, by omega, rfl, ?_⟩
        intro status hstatus
        exact Or.inr ⟨Nat.one_pos, i, cqe, by omega, hcqe, hstops, (Option.some.inj hstatus).symm⟩
      · rw [if_neg hstops]
        rcases @ih (i + 1) (word (tail + 1)) (Nat.mod_lt _ (by decide)) with ⟨k, hk, heq, hdone⟩
        refine ⟨k + 1, by omega, ?_, ?_⟩
        · rw [heq, word, word, word, Nat.mod_add_mod, Nat.add_assoc, Nat.add_comm 1 k]
        · intro status hstatus
          rcases hdone status hstatus with ⟨hk', hzero⟩ | ⟨_, j, cqe', hj, hrest⟩
          · exact Or.inl ⟨by omega, hzero⟩
          · exact Or.inr ⟨by omega, j, cqe', by omega, hrest⟩

/-- The index in the entry after `k` more WQEs gives the tail after them. -/
theorem advanceTail_ahead {tail k : ℕ} (hk : k + 1 < 2 ^ 17) :
    advanceTail tail (word (tail + k) % 2 ^ overrunWqeIndexWidth) = word (tail + k + 1) := by
  simp only [advanceTail, word, overrunWqeIndexWidth]
  norm_num only at *
  split <;> omega

/-- The index of the last WQE polled leaves the tail alone, unless it has wrapped. -/
theorem advanceTail_stale {tail : ℕ} (ht : tail < 2 ^ 32) (hwrap : tail % 2 ^ 17 ≠ 0) :
    advanceTail tail (word (tail + (2 ^ 32 - 1)) % 2 ^ overrunWqeIndexWidth) = tail := by
  simp only [advanceTail, word, overrunWqeIndexWidth]
  norm_num only at *
  split <;> omega

theorem wqeIdAt_zero (start : ℕ) :
    wqeIdAt start 0 = word (start + (2 ^ 32 - 1)) % 2 ^ overrunWqeIndexWidth := rfl

theorem wqeIdAt_later {start n m : ℕ} (h : n < m) :
    wqeIdAt start m = word (word (start + n) + (m - n - 1)) % 2 ^ overrunWqeIndexWidth := by
  simp only [wqeIdAt, word, overrunWqeIndexWidth]
  norm_num only at *
  omega

theorem wqeIdAt_ne {start n m : ℕ} (h : n < m) (hm : m < 2 ^ 17) :
    wqeIdAt start n ≠ wqeIdAt start m := by
  simp only [wqeIdAt, word, overrunWqeIndexWidth]
  norm_num only at *
  omega

/-- The looks at the only entry of an ignore-overrun queue move the tail to a WQE that has
completed: after each of them it stands behind the last WQE seen. -/
theorem pollOverrunLoop_spec {start unpolled target : ℕ} (hs : start < 2 ^ 32)
    (hu : unpolled + 1 < 2 ^ 17) {looks : List (Option Look)} {n : ℕ} {lastWqeId : Option ℕ}
    (hn : n ≤ unpolled)
    (hlast : lastWqeId = some (wqeIdAt start n) ∨
      lastWqeId = none ∧ n = 0 ∧ FreshLook start unpolled looks) :
    ∃ k ≤ unpolled, (pollOverrunLoop start unpolled target looks n lastWqeId (word (start + n))).2
      = word (start + k) := by
  induction looks generalizing n lastWqeId with
  | nil => exact ⟨n, hn, rfl⟩
  | cons look looks ih =>
    cases look with
    | none =>
      rw [pollOverrunLoop]
      exact ih hn hlast
    | some look =>
      rw [pollOverrunLoop]
      have hm : min (n + look.advance) unpolled ≤ unpolled := Nat.min_le_right _ _
      have hnm : n ≤ min (n + look.advance) unpolled := by omega
      -- where the index in the entry has wrapped, the first look shows a new entry
      have hstale : min (n + look.advance) unpolled = n → lastWqeId = none →
          start % 2 ^ 17 ≠ 0 := by
        intro hsame hnone hwrap
        rcases hlast with hsome | ⟨_, hzero, hfresh⟩
        · rw [hnone] at hsome
          cases hsome
        · have hadvance := hfresh hwrap look rfl
          omega
      generalize min (n + look.advance) unpolled = m at hm hnm hstale
      -- the same entry again: no completion since the last look
      by_cases hsame : lastWqeId = some (wqeIdAt start m)
      · have hmn : m = n := by
          rcases hlast with hsome | ⟨hnone, _⟩
          · by_contra hne
            rw [hsome, Option.some.injEq] at hsame
            exact wqeIdAt_ne (by omega) (by omega) hsame
          · rw [hnone] at hsame
            cases hsame
        subst hmn
        rw [if_pos hsame]
        exact ih hn (Or.inl hsame)
      rw [if_neg hsame]
      -- the tail goes to behind the entry, less than a turn ahead
      have hadvanced : advanceTail (word (start + n)) (wqeIdAt start m) = word (start + m) := by
        rcases Nat.eq_or_lt_of_le hnm with heq | hlt
        · subst heq
          rcases hlast with hsome | ⟨hnone, hzero, _⟩
          · exact absurd hsome hsame
          · have hstart : word (start + n) = start := by
              rw [hzero]
              exact Nat.mod_eq_of_lt hs
            rw [hstart, hzero, wqeIdAt_zero]
            exact advanceTail_stale hs (hstale rfl hnone)
        · rw [wqeIdAt_later hlt, advanceTail_ahead (by omega)]
          simp only [word]
          omega
      simp only [hadvanced]
      by_cases hstatus : look.status ≠ 0
      · rw [if_pos hstatus]
        exact ⟨m, hm, rfl⟩
      rw [if_neg hstatus]
      by_cases htarget : word (start + m) = target
      · rw [if_pos htarget]
        exact ⟨m, hm, rfl⟩
      rw [if_neg htarget]
      exact ih hm (Or.inl rfl)

theorem pollCqTimeoutError_ne : pollCqTimeoutError ≠ 0 := by decide

section Polls

variable {target : ℕ} {reply : PollReply} {q : Queue}

/-- A successful poll reaches its target when it only stops at an error. -/
theorem pollLoop_reaches {stops : Cqe → Bool} {cqes : ℕ → Option Cqe} {head tail : ℕ}
    (ht : tail < 2 ^ 32) (htarget : target < 2 ^ 32)
    (hstops : ∀ j < outstanding target tail, ∀ cqe, cqes j = some cqe → stops cqe = true →
      cqe.status ≠ 0)
    (hzero : (pollLoop stops cqes head (outstanding target tail) 0 tail).1 = some 0) :
    (pollLoop stops cqes head (outstanding target tail) 0 tail).2 = target := by
  rcases @pollLoop_spec stops cqes head (outstanding target tail) 0 tail ht with
    ⟨k, _, heq, hdone⟩
  rcases hdone 0 hzero with ⟨hk, _⟩ | ⟨_, j, cqe, hj, hcqe, hstop, hstatus⟩
  · rw [heq, hk]
    exact RingIndex.add_ahead ht htarget
  · exact absurd hstatus.symm (hstops j (by omega) cqe hcqe hstop)

/-- A poll that returns has moved the tail over outstanding requests only. -/
theorem pollCqInDie_spec (ht : q.tail < 2 ^ 32) {r : ℕ × ℕ}
    (hr : pollCqInDie target reply q = some r) :
    ∃ k ≤ outstanding target q.tail, r.2 = word (q.tail + k) := by
  have hstay : q.tail = word (q.tail + 0) := (Nat.mod_eq_of_lt ht).symm
  unfold pollCqInDie at hr
  split at hr
  · rw [← Option.some.inj hr]
    exact ⟨0, Nat.zero_le _, hstay⟩
  rcases @pollLoop_spec (fun cqe => cqe.status ≠ 0) reply.cqes q.head (outstanding target q.tail) 0
    q.tail ht with ⟨k, hk, heq, _⟩
  split at hr
  · cases hr
  · rename_i tail hloop
    rw [hloop] at heq
    rw [← Option.some.inj hr]
    exact ⟨k, hk, heq⟩
  · rw [← Option.some.inj hr]
    exact ⟨0, Nat.zero_le _, hstay⟩

/-- Without an error `IN_DIE` polls to its target. -/
theorem pollCqInDie_reaches (ht : q.tail < 2 ^ 32) (htarget : target < 2 ^ 32) (hne : target ≠ 0)
    (hcqes : ∀ j < outstanding target q.tail, ∀ cqe, reply.cqes j = some cqe → cqe.status = 0)
    {r : ℕ × ℕ} (hr : pollCqInDie target reply q = some r) : r.2 = target := by
  have hnone : ∀ j < outstanding target q.tail, ∀ cqe, reply.cqes j = some cqe →
      decide (cqe.status ≠ 0) = true → cqe.status ≠ 0 := fun _ _ _ _ h => of_decide_eq_true h
  have hreaches := @pollLoop_reaches target (fun cqe => cqe.status ≠ 0) reply.cqes q.head q.tail ht
    htarget hnone
  rcases @pollLoop_spec (fun cqe => cqe.status ≠ 0) reply.cqes q.head (outstanding target q.tail) 0
    q.tail ht with ⟨_, _, _, hdone⟩
  rw [pollCqInDie, if_neg hne] at hr
  generalize pollLoop _ _ _ _ _ _ = loop at hr hreaches hdone
  obtain ⟨status, tail⟩ := loop
  cases status with
  | none => cases hr
  | some status =>
    have hzero : status = 0 := by
      rcases hdone status rfl with ⟨_, hzero⟩ | ⟨_, j, cqe, hj, hcqe, hstop, _⟩
      · exact hzero
      · exact absurd (hcqes j (by omega) cqe hcqe) (of_decide_eq_true hstop)
    subst hzero
    rw [← Option.some.inj hr]
    exact hreaches rfl

/-- `HNS_1825` consumes something when it succeeds. -/
theorem pollCqHns1825_spec (ht : q.tail < 2 ^ 32) :
    ∃ k ≤ outstanding target q.tail, (pollCqHns1825 target reply q).2 = word (q.tail + k) ∧
      (target ≠ 0 → (pollCqHns1825 target reply q).1 = 0 → 0 < outstanding target q.tail →
        0 < k) := by
  unfold pollCqHns1825
  by_cases hzero : target = 0
  · rw [if_pos hzero]
    exact ⟨0, Nat.zero_le _, (Nat.mod_eq_of_lt ht).symm, fun hne => absurd hzero hne⟩
  rw [if_neg hzero]
  rcases @pollLoop_spec (fun cqe => cqe.opError) reply.cqes q.head (outstanding target q.tail) 0
    q.tail ht with ⟨k, hk, heq, hdone⟩
  generalize pollLoop _ _ _ _ _ _ = loop at heq hdone
  obtain ⟨status, tail⟩ := loop
  cases status with
  | none => exact ⟨k, hk, heq, fun _ hstatus => absurd hstatus pollCqTimeoutError_ne⟩
  | some status =>
    refine ⟨k, hk, heq, fun _ _ hpos => ?_⟩
    rcases hdone status rfl with ⟨hk', _⟩ | ⟨hk', _⟩
    · rw [hk']
      exact hpos
    · exact hk'

/-- `XSCALE` has reached its target when it succeeds. -/
theorem pollCqXscale_spec {ignoreOverrun : Bool} (ht : q.tail < 2 ^ 32) (htarget : target < 2 ^ 32)
    (hbefore : outstanding target q.tail ≤ outstanding q.head q.tail)
    (hlook : ignoreOverrun = true → target ≠ 0 →
      q.FreshLook reply ∧ outstanding q.head q.tail + 1 < 2 ^ 17) :
    ∃ k ≤ outstanding q.head q.tail,
      (pollCqXscale ignoreOverrun target reply q).2 = word (q.tail + k) ∧
      ((ignoreOverrun = true → target ≠ 0) → (pollCqXscale ignoreOverrun target reply q).1 = 0 →
        (pollCqXscale ignoreOverrun target reply q).2 = target) := by
  have hstay : q.tail = word (q.tail + 0) := (Nat.mod_eq_of_lt ht).symm
  cases ignoreOverrun with
  | false =>
    rw [pollCqXscale, if_neg (by decide)]
    have hreaches := @pollLoop_reaches target (fun cqe => cqe.status ≠ 0) reply.cqes q.head q.tail ht
      htarget (fun _ _ _ _ h => of_decide_eq_true h)
    rcases @pollLoop_spec (fun cqe => cqe.status ≠ 0) reply.cqes q.head (outstanding target q.tail)
      0 q.tail ht with ⟨k, hk, heq, _⟩
    generalize pollLoop _ _ _ _ _ _ = loop at heq hreaches
    obtain ⟨status, tail⟩ := loop
    cases status with
    | none => exact ⟨k, hk.trans hbefore, heq, fun _ hstatus => absurd hstatus pollCqTimeoutError_ne⟩
    | some status =>
      refine ⟨k, hk.trans hbefore, heq, fun _ hstatus => ?_⟩
      obtain rfl : status = 0 := hstatus
      exact hreaches rfl
  | true =>
    rw [pollCqXscale, if_pos rfl, xscalePollCqOverrun]
    by_cases hzero : target = 0
    · rw [if_pos hzero]
      exact ⟨0, Nat.zero_le _, hstay, fun hne => absurd hzero (hne rfl)⟩
    rw [if_neg hzero]
    obtain ⟨hfresh, hsmall⟩ := hlook rfl hzero
    have hloop := @pollOverrunLoop_spec q.tail (outstanding q.head q.tail) target ht hsmall
      reply.looks 0 none (Nat.zero_le _) (Or.inr ⟨rfl, rfl, hfresh⟩)
    rw [← hstay] at hloop
    rcases hloop with ⟨k, hk, heq⟩
    generalize pollOverrunLoop _ _ _ _ _ _ _ = loop at heq
    obtain ⟨status, tail⟩ := loop
    dsimp only at heq ⊢
    by_cases hreached : tail = target
    · rw [if_neg (not_not.mpr hreached)]
      exact ⟨k, hk, heq, fun _ _ => hreached⟩
    · rw [if_pos hreached]
      exact ⟨k, hk, heq, fun _ hstatus => absurd hstatus pollCqTimeoutError_ne⟩

end Polls

/-! ## The invariant -/

/-- The words of the queue, and no more than `limit` WQEs between them. -/
structure Queue.Sound (depth limit : ℕ) (q : Queue) : Prop where
  head_lt : q.head < 2 ^ 32
  tail_lt : q.tail < 2 ^ 32
  bounded : outstanding q.head q.tail ≤ limit
  events : ∀ e ∈ q.log, e.Ok depth

variable {depth limit : ℕ} {q : Queue}

namespace Queue.Sound

theorem mono (h : q.Sound depth limit) {limit' : ℕ} (hle : limit ≤ limit') : q.Sound depth limit' :=
  ⟨h.head_lt, h.tail_lt, h.bounded.trans hle, h.events⟩

/-- A poll that moves the tail by `k`. -/
theorem polled (h : q.Sound depth limit) {target k : ℕ} (hk : k ≤ outstanding q.head q.tail)
    (htarget : outstanding target q.tail ≤ outstanding q.head q.tail) :
    Queue.Sound depth (outstanding q.head q.tail - k) { q with
      tail := word (q.tail + k)
      log := q.log ++ [.polled target q.head q.tail] } := by
  refine ⟨h.head_lt, Nat.mod_lt _ (by decide), ?_, ?_⟩
  · exact (RingIndex.ahead_pop h.tail_lt h.head_lt hk).le
  · intro e he
    rcases List.mem_append.mp he with he | he
    · exact h.events e he
    · rw [List.mem_singleton.mp he]
      exact htarget

/-- A slot within a ring of the tail is free. -/
theorem wrote_ok (h : q.Sound depth limit) (hd : depth ∣ 2 ^ 32) {i : ℕ} (hi : limit + i < depth) :
    (Event.wrote (word (q.head + i)) q.head q.tail).Ok depth := by
  intro k hk
  have hbounded := h.bounded
  exact RingIndex.slot_free hd h.tail_lt h.head_lt
    (show ahead (2 ^ 32) q.head q.tail + i < depth from by
      show outstanding q.head q.tail + i < depth
      omega) hk

/-- A slot written besides the posts. -/
theorem mark (h : q.Sound depth limit) (hd : depth ∣ 2 ^ 32) {i : ℕ} (hi : limit + i < depth) :
    Queue.Sound depth limit { q with
      log := q.log ++ [.wrote (word (q.head + i)) q.head q.tail] } := by
  refine ⟨h.head_lt, h.tail_lt, h.bounded, ?_⟩
  intro e he
  rcases List.mem_append.mp he with he | he
  · exact h.events e he
  · rw [List.mem_singleton.mp he]
    exact h.wrote_ok hd hi

/-- Posting what there is room for. -/
theorem post (h : q.Sound depth limit) (hd : depth ∣ 2 ^ 32) (hsmall : depth < 2 ^ 32) {n : ℕ}
    (hn : limit + n ≤ depth) : (q.post q.head n).Sound depth (limit + n) := by
  have hbounded := h.bounded
  refine ⟨Nat.mod_lt _ (by decide), h.tail_lt, ?_, ?_⟩
  · have hpush := @RingIndex.ahead_push (2 ^ 32) q.head q.tail n h.tail_lt h.head_lt
      (show outstanding q.head q.tail + n < 2 ^ 32 by omega)
    show ahead (2 ^ 32) ((q.head + n) % 2 ^ 32) q.tail ≤ limit + n
    rw [hpush]
    exact Nat.add_le_add_right hbounded n
  · intro e he
    rcases List.mem_append.mp he with he | he
    · exact h.events e he
    · rcases List.mem_map.mp he with ⟨i, hi, rfl⟩
      exact h.wrote_ok hd (by rw [List.mem_range] at hi; omega)

/-- The test of the posts is met when the threshold is all that is left. -/
theorem nearlyFull_iff (h : q.Sound depth limit) (hd : depth ∣ 2 ^ 32) {threshold : ℕ}
    (hpos : 0 < threshold) (hlimit : limit + threshold ≤ depth) :
    q.nearlyFull threshold depth ↔ outstanding q.head q.tail + threshold = depth := by
  have hbounded := h.bounded
  have hiff := @RingIndex.slot_eq_tail_iff (2 ^ 32) depth q.head q.tail threshold hd h.tail_lt
    h.head_lt
  constructor
  · intro hfull
    have hdvd : depth ∣ outstanding q.head q.tail + threshold := hiff.mp hfull
    have hle := Nat.le_of_dvd (by omega) hdvd
    omega
  · intro heq
    exact hiff.mpr (show depth ∣ outstanding q.head q.tail + threshold by rw [heq])

end Queue.Sound

/-- `(depth + tail) % depth`. -/
theorem word_depth_add (hd : depth ∣ 2 ^ 32) (tail : ℕ) : word (depth + tail) % depth = tail % depth := by
  rw [word, Nat.mod_mod_of_dvd _ hd, Nat.add_mod_left]

/-! ## The operations -/

section Operations

variable (hd : depth ∣ 2 ^ 32) (hsmall : depth < 2 ^ 32)
include hd hsmall

/-- `IN_DIE` stays 10 short of a full ring as long as the poll of a full queue meets no error. -/
theorem postSendInDie_sound (hlarge : 128 ≤ depth) (h : q.Sound depth (depth - 10))
    {reply : PollReply} (hkeeps : Keeps .inDie depth q (.post reply)) {q' : Queue}
    (hstep : postSendInDie depth reply q = some q') : q'.Sound depth (depth - 10) := by
  have hiff := h.nearlyFull_iff hd (show 0 < 10 by decide) (by omega)
  have hbounded := h.bounded
  unfold postSendInDie at hstep
  by_cases hfull : word (q.head + 10) % depth = q.tail % depth
  · rw [if_pos hfull] at hstep
    have ho := hiff.mp hfull
    obtain ⟨hne, hcqes⟩ := hkeeps hfull
    rcases Option.map_eq_some_iff.mp hstep with ⟨r, hr, rfl⟩
    rcases Option.map_eq_some_iff.mp hr with ⟨answer, hanswer, rfl⟩
    have hhundred : outstanding (word (q.tail + numCqePerPollCq)) q.tail = 100 :=
      RingIndex.ahead_add h.tail_lt (by decide)
    have htarget : word (q.tail + numCqePerPollCq) < 2 ^ 32 := Nat.mod_lt _ (by decide)
    rw [show numCqePerPollCq = 100 from rfl, ← hhundred] at hcqes
    have hreached := pollCqInDie_reaches h.tail_lt htarget hne hcqes hanswer
    have hpolled := h.polled (k := 100) (by omega)
      (show outstanding (word (q.tail + numCqePerPollCq)) q.tail ≤ _ by omega)
    have hpost := hpolled.post hd hsmall (n := 1) (by omega)
    dsimp only
    rw [hreached]
    exact hpost.mono (by omega)
  · rw [if_neg hfull] at hstep
    have hroom : q.Sound depth (depth - 11) := ⟨h.head_lt, h.tail_lt, by
      have hne : outstanding q.head q.tail + 10 ≠ depth := fun heq => hfull (hiff.mpr heq)
      omega, h.events⟩
    rw [← Option.some.inj hstep]
    exact (hroom.post hd hsmall (n := 1) (by omega)).mono (by omega)

/-- `HNS_1825` stays 10 short of a full ring as long as a full queue does not stand at word 0. -/
theorem postSendHns1825_sound (hlarge : 128 ≤ depth) (h : q.Sound depth (depth - 10))
    {reply : PollReply} (hkeeps : Keeps .hns1825 depth q (.post reply)) {q' : Queue}
    (hstep : postSendHns1825 depth reply q = some q') : q'.Sound depth (depth - 10) := by
  have hiff := h.nearlyFull_iff hd (show 0 < 10 by decide) (by omega)
  have hbounded := h.bounded
  -- sending with one more slot of room
  have hsend : ∀ p : Queue, p.Sound depth (depth - 11) →
      p.postHns1825.Sound depth (depth - 10) := fun p hp =>
    ((hp.mark hd (i := 1) (by omega)).post hd hsmall (n := 1) (by omega)).mono (by omega)
  rw [postSendHns1825, postSendPolled, word_depth_add hd] at hstep
  by_cases hfull : word (q.head + 10) % depth = q.tail % depth
  · rw [if_pos hfull] at hstep
    have ho := hiff.mp hfull
    rcases Option.map_eq_some_iff.mp hstep with ⟨r, hr, rfl⟩
    rcases Option.map_eq_some_iff.mp hr with ⟨answer, hanswer, rfl⟩
    rw [← Option.some.inj hanswer]
    rcases @pollCqHns1825_spec q.head reply q h.tail_lt with ⟨k, hk, htail, hprogress⟩
    dsimp only
    rw [htail]
    have hpolled := h.polled hk (le_refl _)
    by_cases hstatus : (pollCqHns1825 q.head reply q).1 = 0
    · rw [if_neg (not_not.mpr hstatus)]
      have hpos := hprogress (hkeeps hfull) hstatus (by omega)
      exact hsend _ (hpolled.mono (by omega))
    · rw [if_pos hstatus]
      exact hpolled.mono (by omega)
  · rw [if_neg hfull, Option.some.injEq] at hstep
    rw [← hstep]
    apply hsend
    refine ⟨h.head_lt, h.tail_lt, ?_, h.events⟩
    have hne : outstanding q.head q.tail + 10 ≠ depth := fun heq => hfull (hiff.mpr heq)
    omega

omit hd hsmall in
/-- A successful poll to `head` empties an `XSCALE` queue. -/
theorem Queue.Sound.pollXscale (h : q.Sound depth limit) {ignoreOverrun : Bool} {reply : PollReply}
    (hlook : ignoreOverrun = true → q.head ≠ 0 →
      q.FreshLook reply ∧ outstanding q.head q.tail + 1 < 2 ^ 17)
    {r : ℕ × Queue} (hr : q.poll (.xscale ignoreOverrun) q.head reply = some r) :
    r.2.Sound depth limit ∧ r.2.head = q.head ∧
      ((ignoreOverrun = true → q.head ≠ 0) → r.1 = 0 → r.2.Sound depth 0) := by
  rcases Option.map_eq_some_iff.mp hr with ⟨answer, hanswer, rfl⟩
  rw [← Option.some.inj hanswer]
  rcases @pollCqXscale_spec q.head reply q ignoreOverrun h.tail_lt h.head_lt (le_refl _) hlook with
    ⟨k, hk, htail, hreached⟩
  have hpolled := h.polled hk (le_refl (outstanding q.head q.tail))
  have hbounded := h.bounded
  rw [← htail] at hpolled
  refine ⟨hpolled.mono (by omega), rfl, fun hne hstatus => ?_⟩
  refine ⟨hpolled.head_lt, hpolled.tail_lt, ?_, hpolled.events⟩
  dsimp only
  rw [hreached hne hstatus]
  exact (RingIndex.ahead_self h.head_lt).le

/-- Below its threshold an `XSCALE` queue has room for one more WQE. -/
theorem postSendXscale_sound (hlarge : 128 ≤ depth) (h : q.Sound depth (depth - 1))
    {ignoreOverrun : Bool} (hoverrun : ignoreOverrun = true → depth < 2 ^ 17) {reply : PollReply}
    (hkeeps : Keeps (.xscale ignoreOverrun) depth q (.post reply)) {q' : Queue}
    (hstep : postSendXscale ignoreOverrun depth reply q = some q') :
    q'.Sound depth (depth - 1) := by
  obtain ⟨hbelow, hlook⟩ := hkeeps
  have hsound : q.Sound depth (depth - 16) := ⟨h.head_lt, h.tail_lt, by omega, h.events⟩
  have hiff := hsound.nearlyFull_iff hd (show 0 < 16 by decide) (by omega)
  rw [postSendXscale, postSendPolled, word_depth_add hd] at hstep
  by_cases hfull : word (q.head + 16) % depth = q.tail % depth
  · rw [if_pos hfull] at hstep
    rcases Option.map_eq_some_iff.mp hstep with ⟨r, hr, rfl⟩
    have hfresh : ignoreOverrun = true → q.head ≠ 0 →
        q.FreshLook reply ∧ outstanding q.head q.tail + 1 < 2 ^ 17 := by
      intro htrue _
      have hdepth := hoverrun htrue
      exact ⟨(hlook htrue hfull).2, by omega⟩
    rcases hsound.pollXscale hfresh hr with ⟨hpolled, hhead, hempty⟩
    by_cases hstatus : r.1 = 0
    · rw [if_neg (not_not.mpr hstatus)]
      have hzero := hempty (fun htrue => (hlook htrue hfull).1) hstatus
      exact (hzero.post hd hsmall (n := 1) (by omega)).mono (by omega)
    · rw [if_pos hstatus]
      exact hpolled.mono (by omega)
  · rw [if_neg hfull, Option.some.injEq] at hstep
    rw [← hstep]
    exact (hsound.post hd hsmall (n := 1) (by omega)).mono (by omega)

omit hd hsmall in
/-- Committing a batch looks at what is outstanding after it. -/
theorem commitPolls_iff (h : q.Sound depth limit) (hhead : q.cachedHead = q.head)
    (hfits : outstanding q.head q.tail + word (q.pendingCount + 1) + 16 < 2 ^ 32) :
    q.commitPolls depth ↔
      depth ≤ outstanding q.head q.tail + word (q.pendingCount + 1) + 16 := by
  have hpush := @RingIndex.ahead_push (2 ^ 32) q.head q.tail (word (q.pendingCount + 1)) h.tail_lt
    h.head_lt (show outstanding q.head q.tail + word (q.pendingCount + 1) < 2 ^ 32 by omega)
  rw [ahead, Nat.mod_add_mod] at hpush
  rw [Queue.commitPolls, hhead]
  have hword : word (q.head + word (q.pendingCount + 1) + (2 ^ 32 - q.tail))
      = outstanding q.head q.tail + word (q.pendingCount + 1) := hpush
  rw [hword, show word (outstanding q.head q.tail + word (q.pendingCount + 1) + 16)
    = outstanding q.head q.tail + word (q.pendingCount + 1) + 16 from Nat.mod_eq_of_lt hfits]

/-- A batch that is posted has room in front of a full ring. -/
theorem commitRmaWqes_sound (h : q.Sound depth (depth - 1)) {ignoreOverrun : Bool}
    (hoverrun : ignoreOverrun = true → depth < 2 ^ 17) {reply : PollReply}
    (hkeeps : Keeps (.xscale ignoreOverrun) depth q (.commit reply)) {q' : Queue}
    (hstep : commitRmaWqes ignoreOverrun depth reply q = some q') :
    q'.Sound depth (depth - 1) := by
  obtain ⟨hhead, hfits, hlook⟩ := hkeeps
  have hiff := commitPolls_iff h hhead hfits
  have hbounded := h.bounded
  unfold commitRmaWqes at hstep
  rw [hhead] at hstep
  dsimp only at hstep
  by_cases hbig : depth ≤ word (q.pendingCount + 1)
  · rw [if_pos hbig] at hstep
    cases hstep
  rw [if_neg hbig] at hstep
  have hcached : Queue.Sound depth (depth - 1) { q with baseHead := q.head } :=
    ⟨h.head_lt, h.tail_lt, h.bounded, h.events⟩
  -- a ring that is nearly full is polled till it is empty
  by_cases hpolls : q.commitPolls depth
  · rw [if_pos hpolls] at hstep
    have hfresh : ignoreOverrun = true → q.head ≠ 0 →
        q.FreshLook reply ∧ outstanding q.head q.tail + 1 < 2 ^ 17 := by
      intro htrue _
      have hdepth := hoverrun htrue
      exact ⟨(hlook htrue hpolls).2, by omega⟩
    cases hr : Queue.poll { q with baseHead := q.head } (.xscale ignoreOverrun) q.head reply with
    | none =>
      rw [hr] at hstep
      cases hstep
    | some r =>
      rcases hcached.pollXscale hfresh hr with ⟨_, hsame, hempty⟩
      simp only [hr] at hstep
      by_cases hstatus : r.1 = 0
      · rw [if_neg (not_not.mpr hstatus), Option.some.injEq] at hstep
        have hzero := hempty (fun htrue => (hlook htrue hpolls).1) hstatus
        have hpost := hzero.post hd hsmall (n := word (q.pendingCount + 1)) (by omega)
        have hsame' : r.2.head = q.head := hsame
        rw [hsame'] at hpost
        have hposted := hpost.mono (show 0 + word (q.pendingCount + 1) ≤ depth - 1 by omega)
        rw [← hstep]
        exact ⟨hposted.head_lt, hposted.tail_lt, hposted.bounded, hposted.events⟩
      · rw [if_pos hstatus] at hstep
        cases hstep
  · rw [if_neg hpolls, Option.some.injEq] at hstep
    -- without a poll there is room for the batch and 16 more
    have hroom : outstanding q.head q.tail + word (q.pendingCount + 1) + 16 < depth := by
      by_contra hnot
      exact hpolls (hiff.mpr (by omega))
    have hexact : Queue.Sound depth (outstanding q.head q.tail) { q with baseHead := q.head } :=
      ⟨h.head_lt, h.tail_lt, le_refl _, h.events⟩
    have hpost := hexact.post hd hsmall (n := word (q.pendingCount + 1)) (by omega)
    have hposted := hpost.mono
      (show outstanding q.head q.tail + word (q.pendingCount + 1) ≤ depth - 1 by omega)
    rw [← hstep]
    exact ⟨hposted.head_lt, hposted.tail_lt, hposted.bounded, hposted.events⟩

end Operations

/-- `quiet` only polls. -/
theorem quiet_sound (h : q.Sound depth limit) {b : Backend}
    (hoverrun : b = .xscale true → outstanding q.head q.tail + 1 < 2 ^ 17) {reply : PollReply}
    (hkeeps : Keeps b depth q (.quiet reply)) {q' : Queue} (hstep : quiet b reply q = some q') :
    q'.Sound depth limit := by
  rcases Option.map_eq_some_iff.mp hstep with ⟨r, hr, rfl⟩
  have hbounded := h.bounded
  cases b with
  | inDie =>
    rcases Option.map_eq_some_iff.mp hr with ⟨answer, hanswer, rfl⟩
    rcases pollCqInDie_spec h.tail_lt hanswer with ⟨k, hk, htail⟩
    have hpolled := h.polled hk (le_refl (outstanding q.head q.tail))
    rw [← htail] at hpolled
    exact hpolled.mono (by omega)
  | hns1825 =>
    rcases Option.map_eq_some_iff.mp hr with ⟨answer, hanswer, rfl⟩
    rw [← Option.some.inj hanswer]
    rcases @pollCqHns1825_spec q.head reply q h.tail_lt with ⟨k, hk, htail, _⟩
    have hpolled := h.polled hk (le_refl (outstanding q.head q.tail))
    rw [← htail] at hpolled
    exact hpolled.mono (by omega)
  | xscale ignoreOverrun =>
    have hlook : ignoreOverrun = true → q.head ≠ 0 →
        q.FreshLook reply ∧ outstanding q.head q.tail + 1 < 2 ^ 17 := by
      rintro rfl hne
      exact ⟨hkeeps hne, hoverrun rfl⟩
    exact (h.pollXscale hlook hr).1

/-! ## Runs -/

/-- How many WQEs a backend leaves between `head` and `tail`. -/
def Backend.maxOutstanding (depth : ℕ) : Backend → ℕ
  | .inDie => depth - 10
  | .hns1825 => depth - 10
  | .xscale _ => depth - 1

/-- A call keeps the invariant. -/
theorem step_sound {b : Backend} (hd : depth ∣ 2 ^ 32) (hsmall : depth < 2 ^ 32)
    (hlarge : 128 ≤ depth) (hoverrun : b = .xscale true → depth < 2 ^ 17)
    (h : q.Sound depth (b.maxOutstanding depth)) {call : Call} (hkeeps : Keeps b depth q call) {q' : Queue}
    (hstep : step b depth q call = some q') : q'.Sound depth (b.maxOutstanding depth) := by
  cases call with
  | quiet reply =>
    apply quiet_sound h _ hkeeps hstep
    rintro rfl
    have hbounded : outstanding q.head q.tail ≤ depth - 1 := h.bounded
    have hdepth := hoverrun rfl
    omega
  | post reply =>
    cases b with
    | inDie => exact postSendInDie_sound hd hsmall hlarge h hkeeps hstep
    | hns1825 => exact postSendHns1825_sound hd hsmall hlarge h hkeeps hstep
    | xscale ignoreOverrun =>
      exact postSendXscale_sound hd hsmall hlarge h (fun htrue => hoverrun (by rw [htrue])) hkeeps
        hstep
  | atomic reply =>
    cases b with
    | xscale ignoreOverrun =>
      exact postSendXscale_sound hd hsmall hlarge h (fun htrue => hoverrun (by rw [htrue])) hkeeps
        hstep
    | _ => cases hstep
  | stage =>
    cases b with
    | xscale ignoreOverrun =>
      rw [← Option.some.inj hstep]
      exact ⟨h.head_lt, h.tail_lt, h.bounded, h.events⟩
    | _ => cases hstep
  | commit reply =>
    cases b with
    | xscale ignoreOverrun =>
      exact commitRmaWqes_sound hd hsmall h (fun htrue => hoverrun (by rw [htrue])) hkeeps hstep
    | _ => cases hstep

/-- Every call of a sequence has what it needs. -/
def KeepsAll (b : Backend) (depth : ℕ) (q : Queue) : List Call → Prop
  | [] => True
  | call :: rest => Keeps b depth q call ∧
    match step b depth q call with
    | none => True
    | some q' => KeepsAll b depth q' rest

instance (start unpolled : ℕ) (looks : List (Option Look)) :
    Decidable (FreshLook start unpolled looks) :=
  inferInstanceAs (Decidable (_ → ∀ look ∈ _, _))

instance (q : Queue) (reply : PollReply) : Decidable (q.FreshLook reply) :=
  inferInstanceAs (Decidable (RdmaQueue.FreshLook _ _ _))

instance (q : Queue) (threshold depth : ℕ) : Decidable (q.nearlyFull threshold depth) :=
  Nat.decEq _ _

instance (depth : ℕ) (q : Queue) : (b : Backend) → (call : Call) → Decidable (Keeps b depth q call)
  | .inDie, .post _ => inferInstanceAs (Decidable (_ → _ ∧ ∀ i < _, ∀ cqe ∈ _, _))
  | .hns1825, .post _ => inferInstanceAs (Decidable (_ → _))
  | .xscale _, .post _ => inferInstanceAs (Decidable (_ ∧ (_ → _ → _ ∧ _)))
  | .xscale _, .atomic _ => inferInstanceAs (Decidable (_ ∧ (_ → _ → _ ∧ _)))
  | .xscale _, .commit _ => inferInstanceAs (Decidable (_ ∧ _ ∧ (_ → _ → _ ∧ _)))
  | .xscale true, .quiet _ => inferInstanceAs (Decidable (_ → _))
  | .xscale false, .quiet _ => isTrue trivial
  | .xscale _, .stage => isTrue trivial
  | .inDie, .atomic _ => isTrue trivial
  | .inDie, .stage => isTrue trivial
  | .inDie, .commit _ => isTrue trivial
  | .inDie, .quiet _ => isTrue trivial
  | .hns1825, .atomic _ => isTrue trivial
  | .hns1825, .stage => isTrue trivial
  | .hns1825, .commit _ => isTrue trivial
  | .hns1825, .quiet _ => isTrue trivial

instance decidableKeepsAll (b : Backend) (depth : ℕ) :
    (q : Queue) → (calls : List Call) → Decidable (KeepsAll b depth q calls)
  | _, [] => isTrue trivial
  | q, call :: rest =>
    have : Decidable (match step b depth q call with
        | none => True
        | some q' => KeepsAll b depth q' rest) :=
      match step b depth q call with
      | none => isTrue trivial
      | some q' => decidableKeepsAll b depth q' rest
    inferInstanceAs (Decidable (_ ∧ _))

/-- A run keeps the invariant. -/
theorem run_sound {b : Backend} (hd : depth ∣ 2 ^ 32) (hsmall : depth < 2 ^ 32)
    (hlarge : 128 ≤ depth) (hoverrun : b = .xscale true → depth < 2 ^ 17)
    (h : q.Sound depth (b.maxOutstanding depth)) {calls : List Call} (hkeeps : KeepsAll b depth q calls)
    {q' : Queue} (hrun : run b depth q calls = some q') : q'.Sound depth (b.maxOutstanding depth) := by
  induction calls generalizing q with
  | nil =>
    rw [← Option.some.inj hrun]
    exact h
  | cons call rest ih =>
    rw [run, List.foldlM_cons] at hrun
    rcases Option.bind_eq_some_iff.mp hrun with ⟨mid, hstep, hrest⟩
    have hlater := hkeeps.2
    rw [hstep] at hlater
    exact ih (step_sound hd hsmall hlarge hoverrun h hkeeps.1 hstep) hlater hrest

/-- A queue of which every call has what it needs never overflows, never writes the slot of a WQE
that is not polled, and never polls beyond its head. -/
theorem run_safe (b : Backend) (depth : ℕ) (hpower : ∃ k, depth = 2 ^ k) (hlarge : 128 ≤ depth)
    (hsmall : depth < 2 ^ 32) (hoverrun : b = .xscale true → depth < 2 ^ 17) (calls : List Call)
    (q : Queue) (hkeeps : KeepsAll b depth .init calls) (hrun : run b depth .init calls = some q) :
    Safe depth q := by
  have hd : depth ∣ 2 ^ 32 := by
    obtain ⟨k, rfl⟩ := hpower
    exact pow_dvd_pow 2 ((Nat.pow_lt_pow_iff_right (by decide)).mp hsmall).le
  have hinit : Queue.init.Sound depth (b.maxOutstanding depth) :=
    ⟨by decide, by decide, Nat.zero_le _, fun e he => absurd he List.not_mem_nil⟩
  have hsound := run_sound hd hsmall hlarge hoverrun hinit hkeeps hrun
  have hle : b.maxOutstanding depth ≤ depth := by cases b <;> exact Nat.sub_le _ _
  exact ⟨hsound.bounded.trans hle, hsound.events⟩

/-- All WQEs complete without an error. -/
def allComplete : PollReply := ⟨fun _ => some ⟨false, 0⟩, []⟩

/-- A batch of 110 requests and two posts. -/
theorem run_safe_batch :
    ∃ q, run (.xscale false) 128 .init
        (List.replicate 110 .stage ++ [.commit allComplete, .post allComplete, .post allComplete])
        = some q ∧ outstanding q.head q.tail = 1 ∧ Safe 128 q := by
  obtain ⟨q, hrun, hone⟩ := (Option.any_eq_true (fun q : Queue => outstanding q.head q.tail == 1)
    (run (.xscale false) 128 .init
      (List.replicate 110 .stage ++ [.commit allComplete, .post allComplete, .post allComplete]))).mp
        (by decide +kernel)
  exact ⟨q, hrun, by simpa using hone, run_safe (.xscale false) 128 ⟨7, rfl⟩ (by decide) (by decide)
    (by decide) _ q (by decide +kernel) hrun⟩

/-- A batch of 127 WQEs jumps over the threshold of a queue of 128, and two posts overflow it. -/
theorem not_safe_largeBatch :
    ¬ ∀ (b : Backend) (depth : ℕ), (∃ k, depth = 2 ^ k) → 128 ≤ depth → depth < 2 ^ 32 →
      ∀ (calls : List Call) (q : Queue), run b depth .init calls = some q → Safe depth q := by
  intro h
  obtain ⟨q, hrun, hover⟩ := (Option.any_eq_true (fun q : Queue => outstanding q.head q.tail == 129)
    (run (.xscale false) 128 .init
      (List.replicate 126 .stage ++ [.commit allComplete, .post allComplete, .post allComplete]))).mp
        (by decide +kernel)
  have hbounded := (h _ 128 ⟨7, rfl⟩ (by decide) (by decide) _ q hrun).bounded
  rw [beq_iff_eq] at hover
  omega

end AscendShmem.RdmaQueue
