import Mathlib
import AscendShmem.UdmaQueue.Queue

/-!
# Ring safety of the UDMA send queue

The test for a full ring counts WQEs and keeps ten of them back, so it leaves room for ten second
blocks. It is an equality, which holds as long as every poll it starts succeeds. A WQE is written in
one piece, so one of two blocks must not begin in the last block of the ring.
-/

namespace AscendShmem.UdmaQueue

open Lib

/-! ## What must hold -/

/-- Every block is written where the hardware reads it, around the end of the ring. -/
def Wqe.InRing (e : Wqe) : Prop := ∀ i < e.blocks, e.slot + i = (e.slot + i) % sqBaskblkCnt

/-- Two requests share no block. -/
def Wqe.Apart (e f : Wqe) : Prop := ∀ i < e.blocks, ∀ j < f.blocks, e.slot + i ≠ f.slot + j

/-- Every WQE is in the ring, and it leaves those alone that were not completed when it was
written. -/
structure Safe (q : Queue) : Prop where
  inRing : ∀ e ∈ q.log, e.InRing
  apart : ∀ (j k : ℕ) (e f : Wqe), j < k → q.log[j]? = some e → q.log[k]? = some f → f.tail ≤ j → e.Apart f

/-! ## When it holds -/

/-- The next `n` completions come, without an error. -/
def Completes (reply : PollReply) (n : ℕ) : Prop := ∀ i < n, reply i = some ⟨0, 0⟩

/-- The tail with which a post goes on. -/
def Queue.tailAtPost (q : Queue) : ℕ := if q.nearlyFull then q.pollTarget else q.tail

/-- The blocks of a list of WQEs. -/
def blocksOf (l : List Wqe) : ℕ := (l.map Wqe.blocks).sum

/-- The WQEs of two blocks. -/
def secondBlocks (l : List Wqe) : ℕ := l.countP fun e => e.blocks = 2

/-- What a single post needs: the poll it may start succeeds, a WQE of two blocks does not begin in
the last block, and the second blocks have places of their own, of which ten are kept back. -/
def KeepsPost (op : Opcode) (reply : PollReply) (q : Queue) : Prop :=
  (q.nearlyFull → Completes reply numCqePerPollCq) ∧
    (op.wqeBbCnt = 2 → q.head % sqBaskblkCnt ≠ sqBaskblkCnt - 1) ∧
    (secondBlocks (q.log.drop q.tailAtPost) + (op.wqeBbCnt - 1) ≤ pollCqThreshold ∨
      (q.log.drop q.tailAtPost).length + 1 + (secondBlocks (q.log.drop q.tailAtPost)
        + (op.wqeBbCnt - 1)) ≤ sqBaskblkCnt)

/-- What an iteration of a flush needs: the poll it may start succeeds, and the blocks posted since
the beginning do not run away from the tail by a whole `uint32_t`. -/
def KeepsChunk (remaining : ℕ) (reply : PollReply) (q : Queue) : Prop :=
  (q.flushPolls (q.copyWqeCnt remaining) → Completes reply (q.log.length - q.tail)) ∧
    blocksOf q.log + q.copyWqeCnt remaining + aggregateCreditGuard < 2 ^ 32 + q.tail

/-- What the iterations of a flush need. -/
def KeepsFlush (replies : ℕ → PollReply) : ℕ → ℕ → ℕ → Queue → Prop
  | 0, _, _, _ => True
  | fuel + 1, i, remaining, q => remaining ≠ 0 → KeepsChunk remaining (replies i) q ∧
      KeepsFlush replies fuel (i + 1) (remaining - q.copyWqeCnt remaining)
        (flushChunk remaining (replies i) q)

/-- What a call needs so that the queue stays safe. -/
def Keeps (q : Queue) : Call → Prop
  | .post op reply => KeepsPost op reply q
  | .postMte3 op reply => KeepsPost op reply q
  | .submit op replies => match stageSendWqe op q with
    | none => True
    | some staged => KeepsFlush replies staged.pendingCount 0 staged.pendingCount staged
  | _ => True

/-! ## The polls -/

/-- A poll returns zero when all completions come without an error. -/
theorem pollLoop_completes {reply : PollReply} {wqeCnt n i tail : ℕ}
    (hreply : ∀ j < n, reply (i + j) = some ⟨0, 0⟩) (hn : tail + n ≤ wqeCnt)
    (hw : wqeCnt < 2 ^ 32) : pollLoop reply wqeCnt n i tail = 0 := by
  induction n generalizing i tail with
  | zero => rfl
  | succ n ih =>
    have hword : word (tail + 1) = tail + 1 := Nat.mod_eq_of_lt (by omega)
    rw [pollLoop, if_neg (by omega), show reply i = some ⟨0, 0⟩ from hreply 0 (by omega)]
    dsimp only
    rw [if_neg (by decide), hword]
    apply ih
    · intro j hj
      rw [Nat.add_assoc, Nat.add_comm 1 j]
      exact hreply (j + 1) (by omega)
    · omega

/-- A poll moves the tail to where it polled, or not at all. -/
theorem pollCq_cases (idx : ℕ) (reply : PollReply) (q : Queue) :
    (pollCq idx reply q).2 = q ∨ (pollCq idx reply q).2 = { q with tail := idx } := by
  unfold pollCq
  by_cases hidx : idx = 0
  · rw [if_pos hidx]
    exact Or.inl rfl
  rw [if_neg hidx]
  dsimp only
  by_cases hret : pollLoop reply q.wqeCnt (ahead (2 ^ 32) idx q.tail) 0 q.tail = 0
  · rw [if_pos hret]
    exact Or.inr rfl
  · rw [if_neg hret]
    exact Or.inl rfl

/-- A poll returns after the completion it waits for. -/
theorem pollCq_completes {idx : ℕ} {reply : PollReply} {q : Queue} (hpos : idx ≠ 0)
    (htail : q.tail ≤ idx) (hidx : idx ≤ q.wqeCnt) (hw : q.wqeCnt < 2 ^ 32)
    (hreply : Completes reply (idx - q.tail)) : (pollCq idx reply q).2 = { q with tail := idx } := by
  have hahead : ahead (2 ^ 32) idx q.tail = idx - q.tail := by
    rw [ahead, show idx + (2 ^ 32 - q.tail) = idx - q.tail + 2 ^ 32 by omega, Nat.add_mod_right]
    exact Nat.mod_eq_of_lt (by omega)
  have hloop : pollLoop reply q.wqeCnt (ahead (2 ^ 32) idx q.tail) 0 q.tail = 0 := by
    apply pollLoop_completes _ (by omega) hw
    intro j hj
    rw [Nat.zero_add]
    exact hreply j (by omega)
  unfold pollCq
  rw [if_neg hpos]
  dsimp only
  rw [if_pos hloop]

/-! ## Blocks -/

@[simp] theorem blocksOf_append (l m : List Wqe) : blocksOf (l ++ m) = blocksOf l + blocksOf m := by
  simp [blocksOf]

@[simp] theorem blocksOf_singleton (e : Wqe) : blocksOf [e] = e.blocks := by simp [blocksOf]

theorem blocksOf_take_add_drop (l : List Wqe) (n : ℕ) :
    blocksOf (l.take n) + blocksOf (l.drop n) = blocksOf l := by
  rw [← blocksOf_append, List.take_append_drop]

theorem blocksOf_take_mono (l : List Wqe) {m n : ℕ} (h : m ≤ n) :
    blocksOf (l.take m) ≤ blocksOf (l.take n) := by
  have hsplit := blocksOf_take_add_drop (l.take n) m
  rw [List.take_take, Nat.min_eq_left h] at hsplit
  omega

theorem blocksOf_take_succ {l : List Wqe} {k : ℕ} {e : Wqe} (h : l[k]? = some e) :
    blocksOf (l.take (k + 1)) = blocksOf (l.take k) + e.blocks := by
  rw [List.take_add_one, h, Option.toList_some, blocksOf_append, blocksOf_singleton]

/-- A block for every WQE, and one more for those of two. -/
theorem blocksOf_eq {l : List Wqe} (h : ∀ e ∈ l, e.blocks = 1 ∨ e.blocks = 2) :
    blocksOf l = l.length + secondBlocks l := by
  induction l with
  | nil => rfl
  | cons e l ih =>
    have hrest := ih fun f hf => h f (List.mem_cons_of_mem e hf)
    have hcons : blocksOf (e :: l) = e.blocks + blocksOf l := List.sum_cons
    rw [hcons, hrest, List.length_cons, secondBlocks, secondBlocks, List.countP_cons]
    rcases h e List.mem_cons_self with hone | htwo
    · rw [hone, if_neg (by decide)]
      omega
    · rw [htwo, if_pos (by decide)]
      omega

/-! ## The invariant -/

/-- The invariant of a queue. -/
structure Queue.Sound (q : Queue) : Prop where
  head : q.head = word (blocksOf q.log)
  wqeCnt : q.wqeCnt = word q.log.length
  tail_le : q.tail ≤ q.log.length
  bounded : q.log.length ≤ q.tail + (sqBaskblkCnt - pollCqThreshold)
  fits : blocksOf (q.log.drop q.tail) ≤ sqBaskblkCnt
  blocks : ∀ e ∈ q.log, e.blocks = 1 ∨ e.blocks = 2
  placed : ∀ (k : ℕ) (e : Wqe), q.log[k]? = some e →
    e.slot = blocksOf (q.log.take k) % sqBaskblkCnt
  safe : Safe q

theorem word_mod (n : ℕ) : word n % sqBaskblkCnt = n % sqBaskblkCnt :=
  Nat.mod_mod_of_dvd n (by decide)

theorem sqBaskblkCnt_pos : 0 < sqBaskblkCnt := by decide

variable {q : Queue}

namespace Queue.Sound

/-- A new queue is sound. -/
theorem init : Queue.init.Sound where
  head := rfl
  wqeCnt := rfl
  tail_le := Nat.le_refl 0
  bounded := Nat.zero_le _
  fits := Nat.zero_le _
  blocks := fun e he => absurd he List.not_mem_nil
  placed := fun k e he => by cases he
  safe := ⟨fun e he => absurd he List.not_mem_nil, fun j k e f _ he => by cases he⟩

theorem head_slot (h : q.Sound) : q.head % sqBaskblkCnt = blocksOf q.log % sqBaskblkCnt := by
  rw [h.head, word_mod]

/-- The consumer goes on. -/
theorem advance (h : q.Sound) {idx : ℕ} (htail : q.tail ≤ idx) (hidx : idx ≤ q.log.length) :
    Queue.Sound { q with tail := idx } := by
  have hbounded := h.bounded
  have hmono := blocksOf_take_mono q.log htail
  have hold := blocksOf_take_add_drop q.log q.tail
  have hnew := blocksOf_take_add_drop q.log idx
  have hfits := h.fits
  exact ⟨h.head, h.wqeCnt, hidx, by dsimp only; omega, by dsimp only; omega, h.blocks, h.placed,
    ⟨h.safe.inRing, h.safe.apart⟩⟩

/-- A WQE in flight keeps clear of a new one that fits in. -/
theorem apart_new (h : q.Sound) {b j : ℕ} {e : Wqe} (he : q.log[j]? = some e) (hj : q.tail ≤ j)
    (hfits : blocksOf (q.log.drop q.tail) + b ≤ sqBaskblkCnt) :
    e.Apart ⟨q.head % sqBaskblkCnt, b, q.tail⟩ := by
  have hend := blocksOf_take_succ he
  have hle := blocksOf_take_add_drop q.log (j + 1)
  have hmono := blocksOf_take_mono q.log hj
  have hsplit := blocksOf_take_add_drop q.log q.tail
  have hranges := @RingIndex.ranges_apart sqBaskblkCnt (blocksOf (q.log.take j)) (blocksOf q.log)
    e.blocks b (by omega) (by omega)
  intro i hi l hl
  rw [h.placed j e he]
  show blocksOf (q.log.take j) % sqBaskblkCnt + i ≠ q.head % sqBaskblkCnt + l
  rw [h.head_slot]
  have hl' : l < b := hl
  omega

/-- A WQE that fits in is posted. -/
theorem post (h : q.Sound) {b : ℕ} (hb : b = 1 ∨ b = 2)
    (hroom : q.log.length + 1 ≤ q.tail + (sqBaskblkCnt - pollCqThreshold))
    (hfits : blocksOf (q.log.drop q.tail) + b ≤ sqBaskblkCnt)
    (hring : q.head % sqBaskblkCnt + b ≤ sqBaskblkCnt) : (q.post b).Sound := by
  have htail := h.tail_le
  -- an entry of the log is an old one or the one that is posted
  have hlast : ∀ (k : ℕ) (e : Wqe), (q.post b).log[k]? = some e → q.log[k]? = some e ∨
      k = q.log.length ∧ e = ⟨q.head % sqBaskblkCnt, b, q.tail⟩ := by
    intro k e he
    have hget : (q.log ++ [⟨q.head % sqBaskblkCnt, b, q.tail⟩])[k]? = some e := he
    rcases Nat.lt_or_ge k q.log.length with hlt | hge
    · rw [List.getElem?_append_left hlt] at hget
      exact Or.inl hget
    · rw [List.getElem?_append_right hge] at hget
      rcases List.getElem?_eq_some_iff.mp hget with ⟨hbound, heq⟩
      have hk : k - q.log.length = 0 := Nat.lt_one_iff.mp hbound
      simp only [hk, List.getElem_cons_zero] at heq
      exact Or.inr ⟨by omega, heq.symm⟩
  refine ⟨?_, ?_, ?_, ?_, ?_, ?_, ?_, ?_, ?_⟩
  · show word (q.head + b) = word (blocksOf (q.log ++ _))
    rw [blocksOf_append, blocksOf_singleton, h.head, word, word, word, Nat.mod_add_mod]
  · show word (q.wqeCnt + 1) = word (q.log ++ _).length
    rw [List.length_append, h.wqeCnt, word, word, word, Nat.mod_add_mod, List.length_singleton]
  · show q.tail ≤ (q.log ++ _).length
    rw [List.length_append]
    omega
  · show (q.log ++ _).length ≤ _
    rw [List.length_append]
    exact hroom
  · show blocksOf ((q.log ++ _).drop q.tail) ≤ _
    rw [List.drop_append_of_le_length htail, blocksOf_append, blocksOf_singleton]
    exact hfits
  · intro e he
    rcases List.mem_append.mp he with hold | hnew
    · exact h.blocks e hold
    · rw [List.mem_singleton.mp hnew]
      exact hb
  · intro k e he
    rcases hlast k e he with hold | ⟨rfl, rfl⟩
    · have hk := (List.getElem?_eq_some_iff.mp hold).1
      show e.slot = blocksOf ((q.log ++ _).take k) % _
      rw [List.take_append_of_le_length hk.le]
      exact h.placed k e hold
    · show q.head % sqBaskblkCnt = blocksOf ((q.log ++ _).take q.log.length) % _
      rw [List.take_left, h.head_slot]
  · intro e he
    rcases List.mem_append.mp he with hold | hnew
    · exact h.safe.inRing e hold
    · rw [List.mem_singleton.mp hnew]
      intro i hi
      -- the request does not cross the end of the ring
      have hi' : i < b := hi
      exact (Nat.mod_eq_of_lt (by dsimp only; omega)).symm
  · intro j k e f hjk he hf hftail
    rcases hlast k f hf with hold | ⟨rfl, rfl⟩
    · have hk := (List.getElem?_eq_some_iff.mp hold).1
      rcases hlast j e he with hej | ⟨rfl, _⟩
      · exact h.safe.apart j k e f hjk hej hold hftail
      · omega
    · rcases hlast j e he with hej | ⟨rfl, _⟩
      · exact h.apart_new hej hftail hfits
      · omega

end Queue.Sound

/-! ## Single posts -/

/-- The test is met exactly when all but ten places of the ring are taken. -/
theorem Queue.Sound.nearlyFull_iff (h : q.Sound) :
    q.nearlyFull ↔ q.log.length + pollCqThreshold = q.tail + sqBaskblkCnt := by
  have htail := h.tail_le
  have hbounded := h.bounded
  have hmod : word (q.wqeCnt + pollCqThreshold) % sqBaskblkCnt
      = (q.log.length + pollCqThreshold) % sqBaskblkCnt := by
    rw [h.wqeCnt, word_mod, word, Nat.add_mod, Nat.mod_mod_of_dvd _ (by decide), ← Nat.add_mod]
  rw [Queue.nearlyFull, hmod]
  simp only [sqBaskblkCnt, pollCqThreshold] at *
  omega

/-- A post polls a hundred WQEs on. -/
theorem Queue.Sound.pollTarget_eq (h : q.Sound) (hposts : q.log.length < 2 ^ 32)
    (hfull : q.nearlyFull) : q.pollTarget = q.tail + numCqePerPollCq := by
  have hlength := h.nearlyFull_iff.mp hfull
  have hcnt := h.wqeCnt
  have hword : word (q.tail + numCqePerPollCq) = q.tail + numCqePerPollCq := by
    apply Nat.mod_eq_of_lt
    simp only [sqBaskblkCnt, pollCqThreshold, numCqePerPollCq] at *
    omega
  rw [word, Nat.mod_eq_of_lt hposts] at hcnt
  rw [Queue.pollTarget, hword, if_neg]
  simp only [sqBaskblkCnt, pollCqThreshold, numCqePerPollCq] at *
  omega

/-- When its poll succeeds a post has a place for a WQE. -/
theorem Queue.Sound.pollOverflow (h : q.Sound) (hposts : q.log.length < 2 ^ 32)
    {reply : PollReply} (hreply : q.nearlyFull → Completes reply numCqePerPollCq) :
    pollCqWhenSqOverflow reply q = { q with tail := q.tailAtPost } ∧ q.tail ≤ q.tailAtPost ∧
      q.tailAtPost ≤ q.log.length ∧
      q.log.length + 1 ≤ q.tailAtPost + (sqBaskblkCnt - pollCqThreshold) := by
  have hbounded := h.bounded
  have htail := h.tail_le
  have hcnt := h.wqeCnt
  have hiff := h.nearlyFull_iff
  rw [word, Nat.mod_eq_of_lt hposts] at hcnt
  rw [pollCqWhenSqOverflow, Queue.tailAtPost]
  by_cases hfull : q.nearlyFull
  · have htarget := h.pollTarget_eq hposts hfull
    have hlength := hiff.mp hfull
    rw [if_pos hfull, if_pos hfull, htarget]
    simp only [sqBaskblkCnt, pollCqThreshold, numCqePerPollCq] at *
    refine ⟨?_, by omega, by omega, by omega⟩
    apply pollCq_completes (by omega) (by omega) (by omega) (by omega)
    rw [Nat.add_sub_cancel_left]
    exact hreply hfull
  · have hlength : ¬ q.log.length + pollCqThreshold = q.tail + sqBaskblkCnt :=
      fun heq => hfull (hiff.mpr heq)
    rw [if_neg hfull, if_neg hfull]
    simp only [sqBaskblkCnt, pollCqThreshold] at *
    exact ⟨trivial, by omega, by omega, by omega⟩

theorem Opcode.wqeBbCnt_cases (op : Opcode) : op.wqeBbCnt = 1 ∨ op.wqeBbCnt = 2 := by
  cases op <;> decide

/-- What is kept back is enough for the second blocks. -/
theorem secondBlocks_fit {l : List Wqe} {b : ℕ}
    (hl : ∀ e ∈ l, e.blocks = 1 ∨ e.blocks = 2)
    (hroom : l.length + 1 ≤ sqBaskblkCnt - pollCqThreshold)
    (hseconds : secondBlocks l + (b - 1) ≤ pollCqThreshold ∨
      l.length + 1 + (secondBlocks l + (b - 1)) ≤ sqBaskblkCnt) :
    blocksOf l + b ≤ sqBaskblkCnt := by
  rw [blocksOf_eq hl]
  simp only [sqBaskblkCnt, pollCqThreshold] at *
  omega

/-- A post keeps the invariant. -/
theorem Queue.Sound.postSend (h : q.Sound) (hposts : q.log.length < 2 ^ 32) {op : Opcode}
    {reply : PollReply} (hkeeps : KeepsPost op reply q) :
    ((pollCqWhenSqOverflow reply q).post op.wqeBbCnt).Sound := by
  obtain ⟨hreply, hlast, hseconds⟩ := hkeeps
  rcases h.pollOverflow hposts hreply with ⟨hpoll, hmono, hle, hroom⟩
  have hlength : (q.log.drop q.tailAtPost).length = q.log.length - q.tailAtPost :=
    List.length_drop
  have hfits := secondBlocks_fit
    (fun e he => h.blocks e (List.mem_of_mem_drop he)) (by omega) hseconds
  have hslot : q.head % sqBaskblkCnt < sqBaskblkCnt := Nat.mod_lt _ sqBaskblkCnt_pos
  have hring : q.head % sqBaskblkCnt + op.wqeBbCnt ≤ sqBaskblkCnt := by
    rcases op.wqeBbCnt_cases with hone | htwo
    · omega
    · have hne := hlast htwo
      omega
  rw [hpoll]
  exact (h.advance hmono hle).post op.wqeBbCnt_cases hroom hfits hring

/-! ## Aggregate posts -/

/-- Copying WQEs is posting them one by one as long as the ring does not end. -/
theorem copy_succ {n : ℕ} (hring : q.head % sqBaskblkCnt + n < sqBaskblkCnt) :
    q.copy (n + 1) = (q.copy n).post 1 := by
  have hslot : word (q.head + n) % sqBaskblkCnt = q.head % sqBaskblkCnt + n := by
    rw [word_mod, ← Nat.mod_add_mod, Nat.mod_eq_of_lt hring]
  have hhead : word (word (q.head + n) + 1) = word (q.head + (n + 1)) := by
    rw [word, word, word, Nat.mod_add_mod, Nat.add_assoc]
  have hcnt : word (word (q.wqeCnt + n) + 1) = word (q.wqeCnt + (n + 1)) := by
    rw [word, word, word, Nat.mod_add_mod, Nat.add_assoc]
  simp only [Queue.copy, Queue.post, hhead, hcnt, hslot, List.range_succ, List.map_append,
    List.map_cons, List.map_nil, List.append_assoc]

/-- Copying nothing does. -/
theorem Queue.Sound.copy_zero (h : q.Sound) : (q.copy 0).Sound := by
  have hhead : word (q.head + 0) = q.head := by
    rw [h.head, word, word, Nat.add_zero, Nat.mod_mod]
  have hcnt : word (q.wqeCnt + 0) = q.wqeCnt := by
    rw [h.wqeCnt, word, word, Nat.add_zero, Nat.mod_mod]
  have heq : q.copy 0 = q := by
    rw [Queue.copy, hhead, hcnt, List.range_zero, List.map_nil, List.append_nil]
  rw [heq]
  exact h

@[simp] theorem length_copy (q : Queue) (n : ℕ) : (q.copy n).log.length = q.log.length + n := by
  simp [Queue.copy]

@[simp] theorem tail_copy (q : Queue) (n : ℕ) : (q.copy n).tail = q.tail := rfl

/-- A copy adds its blocks behind the tail. -/
theorem blocksOf_copy (h : q.tail ≤ q.log.length) (n : ℕ) :
    blocksOf ((q.copy n).log.drop q.tail) = blocksOf (q.log.drop q.tail) + n := by
  show blocksOf ((q.log ++ _).drop q.tail) = _
  rw [List.drop_append_of_le_length h, blocksOf_append]
  congr 1
  simp [blocksOf, Function.comp_def]

/-- Copied WQEs that fit in are sound. -/
theorem Queue.Sound.copy (h : q.Sound) {n : ℕ}
    (hroom : q.log.length + n ≤ q.tail + (sqBaskblkCnt - pollCqThreshold))
    (hfits : blocksOf (q.log.drop q.tail) + n ≤ sqBaskblkCnt)
    (hring : q.head % sqBaskblkCnt + n ≤ sqBaskblkCnt) : (q.copy n).Sound := by
  induction n with
  | zero => exact h.copy_zero
  | succ n ih =>
    have hslot : (q.copy n).head % sqBaskblkCnt = q.head % sqBaskblkCnt + n := by
      show word (q.head + n) % sqBaskblkCnt = _
      rw [word_mod, ← Nat.mod_add_mod,
        Nat.mod_eq_of_lt (show q.head % sqBaskblkCnt + n < sqBaskblkCnt by omega)]
    rw [copy_succ hring]
    apply (ih (by omega) (by omega) (by omega)).post (Or.inl rfl)
    · rw [length_copy, tail_copy]
      omega
    · rw [tail_copy, blocksOf_copy h.tail_le]
      omega
    · omega

/-- A chunk stays before the end of the ring. -/
theorem copyWqeCnt_le (q : Queue) (remaining : ℕ) :
    q.copyWqeCnt remaining ≤ remaining ∧
      q.head % sqBaskblkCnt + q.copyWqeCnt remaining ≤ sqBaskblkCnt ∧
      q.copyWqeCnt remaining ≤ sqBaskblkCnt - pollCqThreshold := by
  have hslot : q.head % sqBaskblkCnt < sqBaskblkCnt := Nat.mod_lt _ sqBaskblkCnt_pos
  have hguard : aggregateCreditGuard = pollCqThreshold := rfl
  rw [Queue.copyWqeCnt, hguard]
  refine ⟨?_, ?_, ?_⟩ <;> omega

/-- A chunk is not empty. -/
theorem copyWqeCnt_pos (q : Queue) {remaining : ℕ} (h : remaining ≠ 0) :
    0 < q.copyWqeCnt remaining := by
  have hslot : q.head % sqBaskblkCnt < sqBaskblkCnt := Nat.mod_lt _ sqBaskblkCnt_pos
  have hguard : 0 < sqBaskblkCnt - aggregateCreditGuard := by decide
  rw [Queue.copyWqeCnt]
  omega

/-- A chunk is added to the log. -/
theorem length_flushChunk (remaining : ℕ) (reply : PollReply) (q : Queue) :
    (flushChunk remaining reply q).log.length = q.log.length + q.copyWqeCnt remaining := by
  rw [flushChunk, length_copy, pollBeforeAggregateFlush]
  split
  · rcases pollCq_cases q.wqeCnt reply q with heq | heq <;> rw [heq]
  · rfl

/-- A flush posts everything that is staged. -/
theorem length_flushLoop (replies : ℕ → PollReply) {fuel i remaining : ℕ} (q : Queue)
    (h : remaining ≤ fuel) :
    (flushLoop replies fuel i remaining q).log.length = q.log.length + remaining := by
  induction fuel generalizing i remaining q with
  | zero =>
    rw [flushLoop]
    omega
  | succ fuel ih =>
    rw [flushLoop]
    by_cases hzero : remaining = 0
    · rw [if_pos hzero, hzero]
      rfl
    · have hpos := copyWqeCnt_pos q hzero
      have hle := (copyWqeCnt_le q remaining).1
      rw [if_neg hzero, ih _ (by omega), length_flushChunk]
      omega

/-- Without a poll the blocks posted since the beginning are within a ring's length of the tail. -/
theorem Queue.Sound.flushPolls_iff (h : q.Sound) (hposts : q.log.length < 2 ^ 32) {staged : ℕ}
    (hkeeps : blocksOf q.log + staged + aggregateCreditGuard < 2 ^ 32 + q.tail) :
    q.flushPolls staged ↔ sqBaskblkCnt + q.tail ≤ blocksOf q.log + staged + aggregateCreditGuard := by
  have hlength : blocksOf q.log = q.log.length + secondBlocks q.log := blocksOf_eq h.blocks
  have htail := h.tail_le
  have hhead := h.head
  rw [Queue.flushPolls]
  simp only [word, sqBaskblkCnt, aggregateCreditGuard] at *
  omega

/-- A chunk keeps the invariant. -/
theorem Queue.Sound.flushChunk (h : q.Sound) {remaining : ℕ} {reply : PollReply}
    (hposts : q.log.length < 2 ^ 32) (hkeeps : KeepsChunk remaining reply q) :
    (flushChunk remaining reply q).Sound := by
  obtain ⟨hreply, hwrap⟩ := hkeeps
  obtain ⟨_, hring, hguard⟩ := copyWqeCnt_le q remaining
  have htail := h.tail_le
  have hcnt := h.wqeCnt
  rw [word, Nat.mod_eq_of_lt hposts] at hcnt
  rw [UdmaQueue.flushChunk, pollBeforeAggregateFlush]
  by_cases hpolls : q.flushPolls (q.copyWqeCnt remaining)
  · rw [if_pos hpolls]
    -- the poll empties the ring
    have hempty : (pollCq q.wqeCnt reply q).2 = { q with tail := q.log.length } := by
      by_cases hzero : q.wqeCnt = 0
      · have hsame : q.log.length = q.tail := by omega
        rw [pollCq, if_pos hzero, hsame]
      · rw [← hcnt] at htail hreply ⊢
        exact pollCq_completes hzero htail (le_refl _) (by omega) (hreply hpolls)
    rw [hempty]
    apply (h.advance htail (le_refl _)).copy
    · dsimp only
      omega
    · have hnone : blocksOf (q.log.drop q.log.length) = 0 := by
        rw [List.drop_length]
        rfl
      dsimp only
      rw [hnone]
      omega
    · exact hring
  · rw [if_neg hpolls]
    have hroom := mt (h.flushPolls_iff hposts hwrap).mpr hpolls
    have hlength := blocksOf_eq h.blocks
    have hsplit := blocksOf_take_add_drop q.log q.tail
    have hbefore : q.tail ≤ blocksOf (q.log.take q.tail) := by
      have hpre := blocksOf_eq fun e he => h.blocks e (List.mem_of_mem_take (i := q.tail) he)
      have htake : (q.log.take q.tail).length = q.tail := List.length_take_of_le htail
      omega
    have hten : aggregateCreditGuard = pollCqThreshold := rfl
    apply h.copy
    · omega
    · omega
    · exact hring

theorem Queue.Sound.flushLoop (h : q.Sound) {replies : ℕ → PollReply} {fuel i remaining : ℕ}
    (hposts : q.log.length + remaining < 2 ^ 32)
    (hkeeps : KeepsFlush replies fuel i remaining q) :
    (flushLoop replies fuel i remaining q).Sound := by
  induction fuel generalizing i remaining q with
  | zero => exact h
  | succ fuel ih =>
    rw [UdmaQueue.flushLoop]
    by_cases hzero : remaining = 0
    · rw [if_pos hzero]
      exact h
    · rw [if_neg hzero]
      obtain ⟨hchunk, hrest⟩ := hkeeps hzero
      have hle := (copyWqeCnt_le q remaining).1
      apply ih (h.flushChunk (by omega) hchunk) _ hrest
      rw [length_flushChunk]
      omega

/-! ## Runs -/

/-- The submit state does not matter to the ring. -/
theorem Queue.Sound.pending (h : q.Sound) (n : ℕ) :
    Queue.Sound { q with pendingCount := n } :=
  ⟨h.head, h.wqeCnt, h.tail_le, h.bounded, h.fits, h.blocks, h.placed,
    ⟨h.safe.inRing, h.safe.apart⟩⟩

/-- Waiting for room adds nothing. -/
theorem pollCqWhenSqOverflow_log (reply : PollReply) (q : Queue) :
    (pollCqWhenSqOverflow reply q).log = q.log := by
  rw [pollCqWhenSqOverflow]
  split
  · rcases pollCq_cases q.pollTarget reply q with heq | heq <;> rw [heq]
  · rfl

theorem length_post (q : Queue) (b : ℕ) : (q.post b).log.length = q.log.length + 1 := by
  simp [Queue.post]

/-- Posts are not undone. -/
theorem length_le_step {call : Call} {q' : Queue} (hstep : step q call = some q') :
    q.log.length ≤ q'.log.length := by
  cases call with
  | post op reply =>
    rw [← Option.some.inj hstep, postSend, length_post, pollCqWhenSqOverflow_log]
    omega
  | postMte3 op reply =>
    rw [step, postSendMte3] at hstep
    split at hstep
    · rw [← Option.some.inj hstep, length_post, pollCqWhenSqOverflow_log]
      omega
    · cases hstep
  | stage op =>
    rw [step, stageSendWqe] at hstep
    split at hstep
    · rw [← Option.some.inj hstep]
    · cases hstep
  | submit op replies =>
    rcases Option.map_eq_some_iff.mp hstep with ⟨staged, hstaged, rfl⟩
    rw [stageSendWqe] at hstaged
    split at hstaged
    · rw [← Option.some.inj hstaged]
      have hlength := length_flushLoop replies (i := 0)
        { q with pendingCount := word (q.pendingCount + 1) } (le_refl (word (q.pendingCount + 1)))
      exact (Nat.le_add_right _ _).trans_eq hlength.symm
    · cases hstaged
  | quiet reply =>
    rw [← Option.some.inj hstep, quiet]
    rcases pollCq_cases q.wqeCnt reply q with heq | heq <;> rw [heq]

/-- Waiting for all requests keeps the invariant. -/
theorem quiet_sound (h : q.Sound) (hposts : q.log.length < 2 ^ 32) (reply : PollReply) :
    (quiet reply q).Sound := by
  have hcnt := h.wqeCnt
  rw [word, Nat.mod_eq_of_lt hposts] at hcnt
  rw [quiet, hcnt]
  rcases pollCq_cases q.log.length reply q with heq | heq
  · rw [heq]
    exact h
  · rw [heq]
    exact h.advance h.tail_le (le_refl _)

/-- A call keeps the invariant. -/
theorem step_sound (h : q.Sound) {call : Call} (hkeeps : Keeps q call) {q' : Queue}
    (hposts : q'.log.length < 2 ^ 32) (hstep : step q call = some q') : q'.Sound := by
  have hbefore : q.log.length < 2 ^ 32 := (length_le_step hstep).trans_lt hposts
  cases call with
  | post op reply =>
    rw [← Option.some.inj hstep]
    exact h.postSend hbefore hkeeps
  | postMte3 op reply =>
    rw [step, postSendMte3] at hstep
    split at hstep
    · rw [← Option.some.inj hstep]
      exact h.postSend hbefore hkeeps
    · cases hstep
  | stage op =>
    rw [step, stageSendWqe] at hstep
    split at hstep
    · rw [← Option.some.inj hstep]
      exact h.pending _
    · cases hstep
  | submit op replies =>
    rcases Option.map_eq_some_iff.mp hstep with ⟨staged, hstaged, rfl⟩
    have hflush : KeepsFlush replies staged.pendingCount 0 staged.pendingCount staged := by
      rw [Keeps, hstaged] at hkeeps
      exact hkeeps
    have hsound : staged.Sound := by
      rw [stageSendWqe] at hstaged
      split at hstaged
      · rw [← Option.some.inj hstaged]
        exact h.pending _
      · cases hstaged
    have hlength := length_flushLoop replies (i := 0) staged (le_refl staged.pendingCount)
    have hafter : (flushLoop replies staged.pendingCount 0 staged.pendingCount staged).log.length
        < 2 ^ 32 := hposts
    rw [hlength] at hafter
    exact (hsound.flushLoop hafter hflush).pending 0
  | quiet reply =>
    rw [← Option.some.inj hstep]
    exact quiet_sound h hbefore reply

/-- Every call of a sequence has what it needs. -/
def KeepsAll (q : Queue) : List Call → Prop
  | [] => True
  | call :: rest => Keeps q call ∧
    match step q call with
    | none => True
    | some q' => KeepsAll q' rest

/-- The log only grows. -/
theorem length_le_run {calls : List Call} {q' : Queue} (hrun : run q calls = some q') :
    q.log.length ≤ q'.log.length := by
  induction calls generalizing q with
  | nil => rw [Option.some.inj hrun]
  | cons call rest ih =>
    rw [run, List.foldlM_cons] at hrun
    rcases Option.bind_eq_some_iff.mp hrun with ⟨mid, hstep, hrest⟩
    exact (length_le_step hstep).trans (ih hrest)

/-- A run keeps the invariant. -/
theorem run_sound (h : q.Sound) {calls : List Call} (hkeeps : KeepsAll q calls) {q' : Queue}
    (hposts : q'.log.length < 2 ^ 32) (hrun : run q calls = some q') : q'.Sound := by
  induction calls generalizing q with
  | nil =>
    rw [← Option.some.inj hrun]
    exact h
  | cons call rest ih =>
    rw [run, List.foldlM_cons] at hrun
    rcases Option.bind_eq_some_iff.mp hrun with ⟨mid, hstep, hrest⟩
    have hmid : mid.log.length < 2 ^ 32 := (length_le_run hrest).trans_lt hposts
    have hlater := hkeeps.2
    rw [hstep] at hlater
    exact ih (step_sound h hkeeps.1 hmid hstep) hlater hrest

instance (reply : PollReply) (n : ℕ) : Decidable (Completes reply n) :=
  inferInstanceAs (Decidable (∀ i < n, reply i = some ⟨0, 0⟩))

instance (op : Opcode) (reply : PollReply) (q : Queue) : Decidable (KeepsPost op reply q) :=
  inferInstanceAs (Decidable ((_ → _) ∧ (_ → _ ≠ _) ∧ (_ ∨ _)))

instance (remaining : ℕ) (reply : PollReply) (q : Queue) :
    Decidable (KeepsChunk remaining reply q) :=
  inferInstanceAs (Decidable ((_ → _) ∧ _ < _))

instance decidableKeepsFlush (replies : ℕ → PollReply) :
    (fuel i remaining : ℕ) → (q : Queue) → Decidable (KeepsFlush replies fuel i remaining q)
  | 0, _, _, _ => isTrue trivial
  | fuel + 1, i, remaining, q =>
    have : Decidable (KeepsFlush replies fuel (i + 1) (remaining - q.copyWqeCnt remaining)
        (flushChunk remaining (replies i) q)) := decidableKeepsFlush replies fuel _ _ _
    inferInstanceAs (Decidable (_ ≠ _ → _ ∧ _))

instance (q : Queue) : (call : Call) → Decidable (Keeps q call)
  | .post op reply => inferInstanceAs (Decidable (KeepsPost op reply q))
  | .postMte3 op reply => inferInstanceAs (Decidable (KeepsPost op reply q))
  | .stage _ => isTrue trivial
  | .quiet _ => isTrue trivial
  | .submit op replies =>
    have : Decidable (match stageSendWqe op q with
        | none => True
        | some staged => KeepsFlush replies staged.pendingCount 0 staged.pendingCount staged) :=
      match stageSendWqe op q with
      | none => isTrue trivial
      | some staged => decidableKeepsFlush replies staged.pendingCount 0 staged.pendingCount staged
    this

instance decidableKeepsAll : (q : Queue) → (calls : List Call) → Decidable (KeepsAll q calls)
  | _, [] => isTrue trivial
  | q, call :: rest =>
    have : Decidable (match step q call with
        | none => True
        | some q' => KeepsAll q' rest) :=
      match step q call with
      | none => isTrue trivial
      | some q' => decidableKeepsAll q' rest
    inferInstanceAs (Decidable (_ ∧ _))

/-- A queue of which every call has what it needs writes every WQE into the ring, and never over one
that is not completed. -/
theorem run_ring_safe (calls : List Call) (q : Queue) (hkeeps : KeepsAll .init calls)
    (hposts : q.log.length < 2 ^ 32) (hrun : run .init calls = some q) : Safe q :=
  (run_sound .init hkeeps hposts hrun).safe

/-- All WQEs complete without an error. -/
def allComplete : PollReply := fun _ => some ⟨0, 0⟩

/-- One post of two blocks, a batch of two WQEs and another post. -/
def mixedCalls : List Call :=
  [.post .faa allComplete, .stage .write, .submit .read fun _ => allComplete,
    .postMte3 .writeWithNotify allComplete, .quiet allComplete]

/-- Calls of every kind. -/
theorem run_ring_safe_mixed :
    ∃ q, run .init mixedCalls = some q ∧ q.tail = 4 ∧ q.head = 6 ∧ Safe q := by
  obtain ⟨q, hrun, hq⟩ := (Option.any_eq_true
    (fun q : Queue => q.tail == 4 && q.head == 6 && q.log.length == 4)
    (run .init mixedCalls)).mp (by decide +kernel)
  simp only [Bool.and_eq_true, beq_iff_eq] at hq
  obtain ⟨⟨htail, hhead⟩, hlength⟩ := hq
  exact ⟨q, hrun, htail, hhead, run_ring_safe mixedCalls q (by decide +kernel) (by omega) hrun⟩

/-! ## Only second blocks -/

/-- As long as the test is not met, posts of two blocks follow each other around the ring. -/
theorem run_notify (reply : PollReply) {n : ℕ} (hn : n + pollCqThreshold ≤ sqBaskblkCnt) :
    run .init (List.replicate n (.post .writeWithNotify reply))
      = some ⟨2 * n, 0, n, 0, (List.range n).map fun i => ⟨2 * i % sqBaskblkCnt, 2, 0⟩⟩ := by
  induction n with
  | zero => rfl
  | succ n ih =>
    have hfull : ¬ word (n + pollCqThreshold) % sqBaskblkCnt = 0 % sqBaskblkCnt := by
      simp only [word, sqBaskblkCnt, pollCqThreshold] at *
      omega
    have hhead : word (2 * n + 2) = 2 * (n + 1) := by
      simp only [word, sqBaskblkCnt, pollCqThreshold] at *
      omega
    have hcnt : word (n + 1) = n + 1 := by
      simp only [word, sqBaskblkCnt, pollCqThreshold] at *
      omega
    have hstep : ∀ q : Queue, ¬ q.nearlyFull →
        step q (.post .writeWithNotify reply) = some (q.post 2) := by
      intro q hroom
      rw [step, postSend, pollCqWhenSqOverflow, if_neg hroom]
      rfl
    rw [List.replicate_succ', run, List.foldlM_append]
    rw [run] at ih
    rw [ih (by omega)]
    rw [Option.bind_eq_bind, Option.bind_some, List.foldlM_cons, hstep]
    · simp only [Queue.post, hhead, hcnt, List.range_succ, List.map_append, List.map_cons,
        List.map_nil]
      rfl
    · exact hfull

/-- The fullness test counts WQEs: after 16384 posts of two blocks the next one overwrites the
first, of which nothing has completed. -/
theorem not_safe_notify :
    ¬ ∀ (calls : List Call) (q : Queue), q.log.length < 2 ^ 32 → run .init calls = some q →
      Safe q := by
  intro h
  have hsafe := h _ _ (by rw [List.length_map, List.length_range]; decide)
    (run_notify allComplete (n := 16385) (by decide))
  have hapart := hsafe.apart 0 16384 ⟨0, 2, 0⟩ ⟨0, 2, 0⟩ (by decide)
    (by rw [List.getElem?_map, List.getElem?_range (by decide)]; rfl)
    (by rw [List.getElem?_map, List.getElem?_range (by decide)]; rfl) (by decide)
  exact hapart 0 (by decide) 0 (by decide) rfl

end AscendShmem.UdmaQueue
