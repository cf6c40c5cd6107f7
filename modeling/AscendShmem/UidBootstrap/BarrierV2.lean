import AscendShmem.Lib.Dissemination

/-!
# The message barrier

`aclshmemi_bootstrap_uid_barrier_v2` of `shmemi_bootstrap_uid.cpp` over `bootstrap_send` and
`bootstrap_recv`. A message is a connection of its own: the sender connects to the listening socket
of its destination, writes its rank and a tag and closes. A receive accepts connections until one
carries its peer and its tag, and parks the others in `unexpected_conns`, last in first out.

The ranks move one step at a time in any order, connections reach a listening socket in any order,
and what a sender writes may come after its connection has been accepted.
-/

namespace AscendShmem.UidBootstrap

/-! ## Ranks and messages -/

/-- A connection of `bootstrap_send`, by the rank and the tag that are written to it. -/
structure Conn where
  peer : ℕ
  tag : ℕ
  /-- the barrier of the sender; nothing of the kind is written, and no step reads it -/
  call : ℕ
deriving DecidableEq, Repr

/-- `unexpected_dequeue` -/
def unexpectedDequeue (conns : List Conn) (peer tag : ℕ) : Option (Conn × List Conn) :=
  match conns with
  | [] => none
  | elem :: next =>
    if elem.peer = peer ∧ elem.tag = tag then some (elem, next)
    else (unexpectedDequeue next peer tag).map fun found => (found.1, elem :: found.2)

/-- `unexpected_enqueue` -/
def unexpectedEnqueue (conns : List Conn) (sock : Conn) : List Conn := sock :: conns

/-- Where a rank stands in round `k` of the barrier, with `mask = 2 ^ k` and `tag = k + 1`. -/
inductive BarrierPc where
  | idle
  /-- in `bootstrap_send`, before the connection -/
  | connecting (k : ℕ)
  /-- connected, rank and tag not yet written -/
  | writing (k : ℕ)
  /-- at the call of `bootstrap_recv` -/
  | dequeuing (k : ℕ)
  | accepting (k : ℕ)
  /-- `sock` accepted, its rank and tag not yet read -/
  | reading (k : ℕ) (sock : Conn)
deriving DecidableEq, Repr

/-- A message a receive has returned with: the arguments of the receive, and its barrier. -/
structure Delivery where
  sock : Conn
  peer : ℕ
  tag : ℕ
  call : ℕ
deriving DecidableEq, Repr

/-- The state of a rank. -/
structure BarrierRank where
  /-- the barriers that have returned -/
  calls : ℕ
  pc : BarrierPc
  /-- `unexpected_conns`, head first -/
  unexpected : List Conn
  /-- what its receives have returned with, newest first -/
  delivered : List Delivery
deriving DecidableEq, Repr

/-- The ranks, and the connections on their way. -/
structure BarrierState where
  rank : ℕ → BarrierRank
  /-- the connections to a rank that have not reached its listening socket -/
  inFlight : ℕ → List Conn
  /-- the connections a listening socket hands out, oldest first -/
  backlog : ℕ → List Conn

/-- `dst` of round `k` -/
def roundDst (n r k : ℕ) : ℕ := (r + 2 ^ k) % n

/-- `src` of round `k` -/
def roundSrc (n r k : ℕ) : ℕ := (r + n - 2 ^ k) % n

/-- The head of the `mask` loop. -/
def roundHead (n : ℕ) (rs : BarrierRank) (k : ℕ) : BarrierRank :=
  if 2 ^ k < n then { rs with pc := .connecting k }
  else { rs with
    pc := .idle
    calls := rs.calls + 1 }

/-- A receive that returns with `sock`. -/
def deliver (n r : ℕ) (rs : BarrierRank) (k : ℕ) (sock : Conn) : BarrierRank :=
  roundHead n { rs with delivered := ⟨sock, roundSrc n r k, k + 1, rs.calls⟩ :: rs.delivered }
    (k + 1)

/-- What a rank has read from an accepted connection decides what becomes of it. -/
def afterRead (n r : ℕ) (rs : BarrierRank) (k : ℕ) (sock : Conn) : BarrierRank :=
  if sock.peer = roundSrc n r k ∧ sock.tag = k + 1 then deliver n r rs k sock
  else { rs with
    pc := .accepting k
    unexpected := unexpectedEnqueue rs.unexpected sock }

/-- `unexpected_dequeue` at the head of `bootstrap_recv`. -/
def afterDequeue (n r : ℕ) (rs : BarrierRank) (k : ℕ) : BarrierRank :=
  match unexpectedDequeue rs.unexpected (roundSrc n r k) (k + 1) with
  | some (sock, rest) => deliver n r { rs with unexpected := rest } k sock
  | none => { rs with pc := .accepting k }

/-! ## Steps -/

/-- One step of a rank, or of the network: `arrive d sock` brings a connection to the listening
socket of `d`. -/
inductive BarrierAction where
  | enter (r : ℕ)
  | connect (r : ℕ)
  | write (r : ℕ)
  | arrive (d : ℕ) (sock : Conn)
  | dequeue (r : ℕ)
  | accept (r : ℕ)
  | read (r : ℕ)
deriving DecidableEq, Repr

/-- The sender has written what a reader of the connection waits for. -/
def Written (st : BarrierState) (sock : Conn) : Prop :=
  ¬ ((st.rank sock.peer).pc = .writing (sock.tag - 1) ∧ (st.rank sock.peer).calls = sock.call)

instance (st : BarrierState) (sock : Conn) : Decidable (Written st sock) :=
  inferInstanceAs (Decidable (¬ _))

/-- The state with another state of a rank. -/
def BarrierState.setRank (st : BarrierState) (r : ℕ) (rs : BarrierRank) : BarrierState :=
  { st with rank := Function.update st.rank r rs }

/-- The state after an action, if the action is possible. -/
def barrierStep (n : ℕ) (st : BarrierState) : BarrierAction → Option BarrierState
  | .enter r =>
    if r < n ∧ (st.rank r).pc = .idle then some (st.setRank r (roundHead n (st.rank r) 0))
    else none
  | .connect r =>
    match (st.rank r).pc with
    | .connecting k =>
      if r < n then
        some { st.setRank r { st.rank r with pc := .writing k } with
          inFlight := Function.update st.inFlight (roundDst n r k)
            (⟨r, k + 1, (st.rank r).calls⟩ :: st.inFlight (roundDst n r k)) }
      else none
    | _ => none
  | .write r =>
    match (st.rank r).pc with
    | .writing k =>
      if r < n then some (st.setRank r { st.rank r with pc := .dequeuing k }) else none
    | _ => none
  | .arrive d sock =>
    if d < n ∧ sock ∈ st.inFlight d then
      some { st with
        inFlight := Function.update st.inFlight d ((st.inFlight d).erase sock)
        backlog := Function.update st.backlog d (st.backlog d ++ [sock]) }
    else none
  | .dequeue r =>
    match (st.rank r).pc with
    | .dequeuing k =>
      if r < n then some (st.setRank r (afterDequeue n r (st.rank r) k)) else none
    | _ => none
  | .accept r =>
    match (st.rank r).pc, st.backlog r with
    | .accepting k, sock :: rest =>
      if r < n then
        some { st.setRank r { st.rank r with pc := .reading k sock } with
          backlog := Function.update st.backlog r rest }
      else none
    | _, _ => none
  | .read r =>
    match (st.rank r).pc with
    | .reading k sock =>
      if r < n ∧ Written st sock then some (st.setRank r (afterRead n r (st.rank r) k sock))
      else none
    | _ => none

/-- After `init`: nothing sent, nothing parked. -/
def BarrierState.init : BarrierState where
  rank _ := { calls := 0, pc := .idle, unexpected := [], delivered := [] }
  inFlight _ := []
  backlog _ := []

/-- The states of runs. -/
inductive BarrierReachable (n : ℕ) : BarrierState → Prop where
  | init : BarrierReachable n BarrierState.init
  | step {st st' : BarrierState} (a : BarrierAction) (h : BarrierReachable n st)
      (hstep : barrierStep n st a = some st') : BarrierReachable n st'

/-! ## What a rank has sent and received -/

open Lib.Dissemination in
/-- A rank as a participant of a dissemination barrier. -/
def BarrierRank.participant (rs : BarrierRank) : Participant where
  done := rs.calls
  phase := match rs.pc with
    | .idle => .outside
    | .connecting k => .round 0 k
    | .writing k => .waiting 0 k
    | .dequeuing k => .waiting 0 k
    | .accepting k => .waiting 0 k
    | .reading k _ => .waiting 0 k

/-- The barriers a rank has entered. -/
def BarrierState.entered (st : BarrierState) (r : ℕ) : ℕ := (st.rank r).participant.entries

/-- The messages rank `r` has sent in rounds `k`. -/
def BarrierState.sent (st : BarrierState) (r k : ℕ) : ℕ := (st.rank r).participant.sent k

/-- The receives of rounds `k` that have returned at rank `r`. -/
def BarrierState.received (st : BarrierState) (r k : ℕ) : ℕ := (st.rank r).participant.got k

/-- The connection a rank has accepted and not yet read. -/
def BarrierPc.held : BarrierPc → List Conn
  | .reading _ sock => [sock]
  | _ => []

/-- The messages on the way to `d`, or parked there. -/
def BarrierState.pending (st : BarrierState) (d : ℕ) : List Conn :=
  st.inFlight d ++ st.backlog d ++ (st.rank d).pc.held ++ (st.rank d).unexpected

/-- `sock` is a message that has been sent to `d`. -/
def IsSent (n : ℕ) (st : BarrierState) (d : ℕ) (sock : Conn) : Prop :=
  sock.peer < n ∧ 1 ≤ sock.tag ∧ 2 ^ (sock.tag - 1) < n ∧
    roundDst n sock.peer (sock.tag - 1) = d ∧ sock.call < st.sent sock.peer (sock.tag - 1)

instance (n : ℕ) (st : BarrierState) (d : ℕ) (sock : Conn) : Decidable (IsSent n st d sock) :=
  inferInstanceAs (Decidable (_ ∧ _))

/-- A receive with these arguments takes `sock`. -/
def isFrom (peer tag : ℕ) (sock : Conn) : Bool := decide (sock.peer = peer ∧ sock.tag = tag)

section Rank

variable {n r k j : ℕ} {rs : BarrierRank}

theorem roundDst_lt (hr : r < n) : roundDst n r k < n := Nat.mod_lt _ (by omega)

theorem roundSrc_lt (hr : r < n) : roundSrc n r k < n := Nat.mod_lt _ (by omega)

theorem roundDst_roundSrc (hr : r < n) (hk : 2 ^ k < n) :
    roundDst n (roundSrc n r k) k = r := by
  unfold roundDst roundSrc
  rw [Nat.mod_add_mod, show r + n - 2 ^ k + 2 ^ k = r + n by omega, Nat.add_mod_right,
    Nat.mod_eq_of_lt hr]

theorem roundSrc_roundDst (hr : r < n) (hk : 2 ^ k < n) :
    roundSrc n (roundDst n r k) k = r := by
  unfold roundDst roundSrc
  rcases Nat.lt_or_ge (r + 2 ^ k) n with hlt | hge
  · rw [Nat.mod_eq_of_lt hlt, show r + 2 ^ k + n - 2 ^ k = r + n by omega, Nat.add_mod_right,
      Nat.mod_eq_of_lt hr]
  · rw [Nat.mod_eq_sub_mod hge, Nat.mod_eq_of_lt (show r + 2 ^ k - n < n by omega),
      show r + 2 ^ k - n + n - 2 ^ k = r by omega, Nat.mod_eq_of_lt hr]

theorem round_lt (hk : ¬ 2 ^ k < n) (hj : 2 ^ j < n) : j < k :=
  (Nat.pow_lt_pow_iff_right (by norm_num : 1 < 2)).mp (by omega)

/-- At the loop head a rank has sent and received in the rounds before. -/
theorem roundHead_counts (hj : 2 ^ j < n) :
    (roundHead n rs k).participant.sent j = rs.calls + (if j < k then 1 else 0) ∧
      (roundHead n rs k).participant.got j = rs.calls + (if j < k then 1 else 0) := by
  unfold roundHead
  by_cases hk : 2 ^ k < n
  · rw [if_pos hk]
    exact ⟨rfl, rfl⟩
  · rw [if_neg hk, if_pos (round_lt hk hj)]
    exact ⟨rfl, rfl⟩

theorem roundHead_held : (roundHead n rs k).pc.held = [] := by
  unfold roundHead
  split <;> rfl

theorem roundHead_unexpected : (roundHead n rs k).unexpected = rs.unexpected := by
  unfold roundHead
  split <;> rfl

theorem roundHead_delivered : (roundHead n rs k).delivered = rs.delivered := by
  unfold roundHead
  split <;> rfl

end Rank

section Counts

variable {st : BarrierState} {r k : ℕ}

theorem sent_of_idle (hpc : (st.rank r).pc = .idle) (j : ℕ) :
    st.sent r j = (st.rank r).calls := by
  unfold BarrierState.sent BarrierRank.participant Lib.Dissemination.Participant.sent
  rw [hpc]
  rfl

theorem sent_of_connecting (hpc : (st.rank r).pc = .connecting k) (j : ℕ) :
    st.sent r j = (st.rank r).calls + if j < k then 1 else 0 := by
  unfold BarrierState.sent BarrierRank.participant Lib.Dissemination.Participant.sent
  rw [hpc]

theorem sent_of_waiting {c : ℕ} (hphase : (st.rank r).participant.phase = .waiting c k) (j : ℕ) :
    st.sent r j = (st.rank r).calls + if j ≤ k then 1 else 0 := by
  unfold BarrierState.sent Lib.Dissemination.Participant.sent
  rw [hphase]
  rfl

theorem received_of_waiting {c : ℕ} (hphase : (st.rank r).participant.phase = .waiting c k)
    (j : ℕ) : st.received r j = (st.rank r).calls + if j < k then 1 else 0 := by
  unfold BarrierState.received Lib.Dissemination.Participant.got
  rw [hphase]
  rfl

end Counts

/-! ## The unexpected list -/

section Unexpected

variable {conns rest : List Conn} {peer tag : ℕ} {sock : Conn}

/-- A dequeue takes one socket out. -/
theorem unexpectedDequeue_perm (h : unexpectedDequeue conns peer tag = some (sock, rest)) :
    conns.Perm (sock :: rest) := by
  induction conns generalizing rest with
  | nil => cases h
  | cons elem next ih =>
    unfold unexpectedDequeue at h
    by_cases hkey : elem.peer = peer ∧ elem.tag = tag
    · rw [if_pos hkey] at h
      cases h
      exact List.Perm.refl _
    · rw [if_neg hkey] at h
      obtain ⟨⟨found, tail⟩, hfound, heq⟩ := Option.map_eq_some_iff.mp h
      cases heq
      exact ((ih hfound).cons elem).trans (List.Perm.swap _ _ _)

theorem unexpectedDequeue_matches (h : unexpectedDequeue conns peer tag = some (sock, rest)) :
    sock.peer = peer ∧ sock.tag = tag := by
  induction conns generalizing rest with
  | nil => cases h
  | cons elem next ih =>
    unfold unexpectedDequeue at h
    by_cases hkey : elem.peer = peer ∧ elem.tag = tag
    · rw [if_pos hkey] at h
      cases h
      exact hkey
    · rw [if_neg hkey] at h
      obtain ⟨⟨found, tail⟩, hfound, heq⟩ := Option.map_eq_some_iff.mp h
      cases heq
      exact ih hfound

/-- The others stay in order. -/
theorem unexpectedDequeue_sublist (h : unexpectedDequeue conns peer tag = some (sock, rest)) :
    rest.Sublist conns := by
  induction conns generalizing rest with
  | nil => cases h
  | cons elem next ih =>
    unfold unexpectedDequeue at h
    by_cases hkey : elem.peer = peer ∧ elem.tag = tag
    · rw [if_pos hkey] at h
      cases h
      exact List.sublist_cons_self _ _
    · rw [if_neg hkey] at h
      obtain ⟨⟨found, tail⟩, hfound, heq⟩ := Option.map_eq_some_iff.mp h
      cases heq
      exact (ih hfound).cons_cons elem

/-- Nothing is taken if there is none. -/
theorem unexpectedDequeue_none :
    unexpectedDequeue conns peer tag = none ↔
      ∀ sock ∈ conns, ¬ (sock.peer = peer ∧ sock.tag = tag) := by
  induction conns with
  | nil => exact ⟨fun _ _ hmem => absurd hmem List.not_mem_nil, fun _ => rfl⟩
  | cons elem next ih =>
    unfold unexpectedDequeue
    rw [List.forall_mem_cons]
    by_cases hkey : elem.peer = peer ∧ elem.tag = tag
    · rw [if_pos hkey]
      exact ⟨fun h => absurd h (Option.some_ne_none _), fun h => absurd hkey h.1⟩
    · rw [if_neg hkey, Option.map_eq_none_iff, ih]
      exact ⟨fun h => ⟨hkey, h⟩, fun h => h.2⟩

/-- A message that is the only one of its kind is found. -/
theorem unexpectedDequeue_of_mem
    (hapart : conns.Pairwise fun a b => ¬ (b.peer = a.peer ∧ b.tag = a.tag)) (hsock : sock ∈ conns) :
    ∃ rest, unexpectedDequeue conns sock.peer sock.tag = some (sock, rest) := by
  induction conns with
  | nil => cases hsock
  | cons elem next ih =>
    obtain ⟨hhead, htail⟩ := List.pairwise_cons.mp hapart
    unfold unexpectedDequeue
    rcases List.mem_cons.mp hsock with heq | hmem
    · rw [heq, if_pos ⟨rfl, rfl⟩]
      exact ⟨next, rfl⟩
    · obtain ⟨rest, hrest⟩ := ih htail hmem
      rw [if_neg (fun hkey => hhead sock hmem ⟨hkey.1.symm, hkey.2.symm⟩), hrest]
      exact ⟨elem :: rest, rfl⟩

end Unexpected

/-! ## Every message is in one place -/

/-- The books of the messages. -/
structure Accounts (n : ℕ) (st : BarrierState) : Prop where
  /-- what a destination has not received is pending there -/
  pending : ∀ s < n, ∀ k, 2 ^ k < n →
    (st.pending (roundDst n s k)).countP (isFrom s (k + 1)) + st.received (roundDst n s k) k
      = st.sent s k
  /-- a message is pending at its destination, or delivered there, once -/
  once : ∀ d < n, ∀ sock, (st.pending d ++ (st.rank d).delivered.map Delivery.sock).count sock
    = if IsSent n st d sock then 1 else 0
  /-- a receive that has returned has one delivery -/
  receives : ∀ d < n, ∀ k, 2 ^ k < n → ∀ b,
    ((st.rank d).delivered.map fun e => (e.tag, e.call)).count (k + 1, b)
      = if b < st.received d k then 1 else 0
  /-- a receive takes what its arguments say -/
  matching : ∀ d < n, ∀ e ∈ (st.rank d).delivered, e.sock.peer = e.peer ∧ e.sock.tag = e.tag ∧
    ∃ k, 2 ^ k < n ∧ e.tag = k + 1 ∧ e.peer = roundSrc n d k

section Accounts

variable {n r k : ℕ} {st st' : BarrierState} {rs : BarrierRank} {sock : Conn}

theorem isFrom_iff {peer tag : ℕ} : isFrom peer tag sock = true ↔ sock.peer = peer ∧ sock.tag = tag :=
  decide_eq_true_iff

/-- At the start nothing is sent or received. -/
theorem Accounts.init : Accounts n BarrierState.init where
  pending _ _ _ _ := rfl
  once d _ sock := by
    rw [if_neg]
    · rfl
    · intro h
      exact absurd h.2.2.2.2 (Nat.not_lt_zero _)
  receives _ _ _ _ b := (if_neg (Nat.not_lt_zero b)).symm
  matching _ _ _ he := absurd he List.not_mem_nil

/-- What has been sent only depends on the send counters. -/
theorem isSent_congr (hsent : ∀ s < n, ∀ k, 2 ^ k < n → st'.sent s k = st.sent s k) {d : ℕ} :
    IsSent n st d sock ↔ IsSent n st' d sock := by
  unfold IsSent
  constructor
  · intro ⟨hpeer, htag, hround, hdst, hcall⟩
    exact ⟨hpeer, htag, hround, hdst, by rwa [hsent _ hpeer _ hround]⟩
  · intro ⟨hpeer, htag, hround, hdst, hcall⟩
    exact ⟨hpeer, htag, hround, hdst, by rwa [← hsent _ hpeer _ hround]⟩

/-- A pending message has been sent. -/
theorem Accounts.isSent (h : Accounts n st) {d : ℕ} (hd : d < n) (hsock : sock ∈ st.pending d) :
    IsSent n st d sock := by
  by_contra hnot
  have hcount := h.once d hd sock
  rw [if_neg hnot, List.count_append] at hcount
  have hpos := List.count_pos_iff.mpr hsock
  omega

/-- Messages that move along to the same destination, with nothing sent or received. -/
theorem Accounts.of_perm (h : Accounts n st)
    (hpending : ∀ d < n, (st'.pending d).Perm (st.pending d))
    (hdelivered : ∀ d < n, (st'.rank d).delivered = (st.rank d).delivered)
    (hsent : ∀ s < n, ∀ k, 2 ^ k < n → st'.sent s k = st.sent s k)
    (hreceived : ∀ s < n, ∀ k, 2 ^ k < n → st'.received s k = st.received s k) :
    Accounts n st' := by
  refine ⟨?_, ?_, ?_, ?_⟩
  · intro s hs k hk
    have hdst : roundDst n s k < n := roundDst_lt hs
    rw [(hpending _ hdst).countP_eq, hreceived _ hdst k hk, hsent s hs k hk]
    exact h.pending s hs k hk
  · intro d hd sock
    rw [hdelivered d hd, ((hpending d hd).append_right _).count_eq, h.once d hd sock]
    exact if_congr (isSent_congr hsent) rfl rfl
  · intro d hd k hk b
    rw [hdelivered d hd, hreceived d hd k hk]
    exact h.receives d hd k hk b
  · intro d hd e he
    rw [hdelivered d hd] at he
    exact h.matching d hd e he

/-- Rank `r` sends its message of round `k`. -/
theorem Accounts.connect (h : Accounts n st) (hr : r < n) (hk : 2 ^ k < n)
    (hpending : ∀ d < n, (st'.pending d) =
      if d = roundDst n r k then ⟨r, k + 1, st.sent r k⟩ :: st.pending d else st.pending d)
    (hdelivered : ∀ d < n, (st'.rank d).delivered = (st.rank d).delivered)
    (hsent : ∀ s < n, ∀ j, 2 ^ j < n →
      st'.sent s j = st.sent s j + if s = r ∧ j = k then 1 else 0)
    (hreceived : ∀ s < n, ∀ k, 2 ^ k < n → st'.received s k = st.received s k) :
    Accounts n st' := by
  refine ⟨?_, ?_, ?_, ?_⟩
  · intro s hs j hj
    have hdst : roundDst n s j < n := roundDst_lt hs
    have hold := h.pending s hs j hj
    rw [hpending _ hdst, hreceived _ hdst j hj, hsent s hs j hj]
    by_cases hself : s = r ∧ j = k
    · obtain ⟨rfl, rfl⟩ := hself
      have hfrom : isFrom s (j + 1) ⟨s, j + 1, st.sent s j⟩ = true := isFrom_iff.mpr ⟨rfl, rfl⟩
      rw [if_pos rfl, if_pos ⟨rfl, rfl⟩, List.countP_cons_of_pos hfrom]
      omega
    · rw [if_neg hself]
      by_cases hat : roundDst n s j = roundDst n r k
      · rw [if_pos hat, List.countP_cons_of_neg]
        · exact hold
        · intro hfrom
          obtain ⟨hpeer, htag⟩ := isFrom_iff.mp hfrom
          exact hself ⟨hpeer.symm, (Nat.succ.inj htag).symm⟩
      · rw [if_neg hat]
        exact hold
  · intro d hd sock
    have hold := h.once d hd sock
    rw [hdelivered d hd, hpending d hd]
    -- the new message is the only one that has become sent
    have hiff : IsSent n st' d sock ↔
        IsSent n st d sock ∨ d = roundDst n r k ∧ sock = ⟨r, k + 1, st.sent r k⟩ := by
      unfold IsSent
      constructor
      · rintro ⟨hpeer, htag, hround, hdst, hcall⟩
        rw [hsent _ hpeer _ hround] at hcall
        by_cases hself : sock.peer = r ∧ sock.tag - 1 = k
        · rw [if_pos hself] at hcall
          obtain ⟨hr', hk'⟩ := hself
          rw [hr', hk'] at hcall hdst
          rcases Nat.lt_or_ge sock.call (st.sent r k) with hlt | hge
          · exact Or.inl ⟨hpeer, htag, hround, by rw [hr', hk']; exact hdst,
              by rw [hr', hk']; exact hlt⟩
          · refine Or.inr ⟨hdst.symm, ?_⟩
            rcases sock with ⟨peer, tag, call⟩
            simp only [Conn.mk.injEq] at *
            exact ⟨hr', by omega, by omega⟩
        · rw [if_neg hself] at hcall
          exact Or.inl ⟨hpeer, htag, hround, hdst, hcall⟩
      · rintro (⟨hpeer, htag, hround, hdst, hcall⟩ | ⟨rfl, rfl⟩)
        · exact ⟨hpeer, htag, hround, hdst, by rw [hsent _ hpeer _ hround]; omega⟩
        · refine ⟨hr, by simp, by simpa using hk, by simp, ?_⟩
          show st.sent r k < st'.sent r k
          rw [hsent r hr k hk, if_pos ⟨rfl, rfl⟩]
          exact Nat.lt_succ_self _
    have hfresh : ¬ IsSent n st d ⟨r, k + 1, st.sent r k⟩ := by
      intro hsent
      exact absurd hsent.2.2.2.2 (Nat.lt_irrefl _)
    by_cases hnew : d = roundDst n r k ∧ sock = ⟨r, k + 1, st.sent r k⟩
    · rw [if_pos (hiff.mpr (Or.inr hnew)), if_pos hnew.1]
      rw [if_neg (by rw [hnew.2]; exact hfresh)] at hold
      rw [hnew.2] at hold ⊢
      rw [List.cons_append, List.count_cons_self, hold]
    · rw [if_congr (hiff.trans (or_iff_left hnew)) rfl rfl, ← hold]
      by_cases hd' : d = roundDst n r k
      · rw [if_pos hd', List.cons_append, List.count_cons_of_ne]
        intro heq
        exact hnew ⟨hd', heq.symm⟩
      · rw [if_neg hd']
  · intro d hd j hj b
    rw [hdelivered d hd, hreceived d hd j hj]
    exact h.receives d hd j hj b
  · intro d hd e he
    rw [hdelivered d hd] at he
    exact h.matching d hd e he

/-- A receive of rank `r` in round `k` returns with `sock`. -/
theorem Accounts.of_delivery (h : Accounts n st) (hk : 2 ^ k < n)
    (hmatch : sock.peer = roundSrc n r k ∧ sock.tag = k + 1)
    (htaken : (st.pending r).Perm (sock :: st'.pending r))
    (hothers : ∀ d < n, d ≠ r → st'.pending d = st.pending d)
    (hdelivered : ∀ d < n, (st'.rank d).delivered =
      if d = r then ⟨sock, roundSrc n r k, k + 1, st.received r k⟩ :: (st.rank d).delivered
      else (st.rank d).delivered)
    (hsent : ∀ s < n, ∀ k, 2 ^ k < n → st'.sent s k = st.sent s k)
    (hreceived : ∀ s < n, ∀ j, 2 ^ j < n →
      st'.received s j = st.received s j + if s = r ∧ j = k then 1 else 0) :
    Accounts n st' := by
  refine ⟨?_, ?_, ?_, ?_⟩
  · intro s hs j hj
    have hdst : roundDst n s j < n := roundDst_lt hs
    have hold := h.pending s hs j hj
    rw [hreceived _ hdst j hj, hsent s hs j hj]
    by_cases hat : roundDst n s j = r
    · rw [hat] at hold ⊢
      rw [htaken.countP_eq] at hold
      -- the connection is from the source of this round, and of no other round
      by_cases hround : j = k
      · have hs' : s = roundSrc n r k := by rw [← hat, ← hround, roundSrc_roundDst hs hj]
        rw [List.countP_cons_of_pos
          (isFrom_iff.mpr ⟨by rw [hs']; exact hmatch.1, by rw [hround]; exact hmatch.2⟩)] at hold
        rw [if_pos ⟨rfl, hround⟩]
        omega
      · rw [List.countP_cons_of_neg] at hold
        · rw [if_neg (fun hself => hround hself.2)]
          omega
        · intro hfrom
          have htag := (isFrom_iff.mp hfrom).2
          rw [hmatch.2] at htag
          exact hround (Nat.succ.inj htag).symm
    · rw [hothers _ hdst hat, if_neg (fun hself => hat hself.1)]
      exact hold
  · intro d hd sock'
    have hold := h.once d hd sock'
    rw [if_congr (isSent_congr hsent) rfl rfl] at hold
    rw [← hold, hdelivered d hd]
    by_cases hself : d = r
    · rw [if_pos hself, hself, List.map_cons]
      -- the connection moves from those pending to those delivered
      have hmoved : (st'.pending r ++ sock :: (st.rank r).delivered.map Delivery.sock).Perm
          (st.pending r ++ (st.rank r).delivered.map Delivery.sock) :=
        List.perm_middle.trans (htaken.symm.append_right _)
      exact hmoved.count_eq _
    · rw [if_neg hself, hothers d hd hself]
  · intro d hd j hj b
    have hold := h.receives d hd j hj b
    rw [hdelivered d hd, hreceived d hd j hj]
    by_cases hself : d = r
    · rw [hself] at hold
      rw [if_pos hself, hself, List.map_cons]
      by_cases hround : j = k
      · rw [hround] at hold ⊢
        rw [if_pos (⟨rfl, rfl⟩ : r = r ∧ k = k)]
        -- the receives of a round are numbered in the order they return
        by_cases hb : b = st.received r k
        · rw [if_neg (by omega)] at hold
          rw [hb] at hold ⊢
          rw [List.count_cons_self, hold, if_pos (Nat.lt_succ_self _)]
        · rw [List.count_cons_of_ne (fun heq => hb (congrArg Prod.snd heq).symm), hold]
          exact if_congr (by omega) rfl rfl
      · have hno : ¬ (r = r ∧ j = k) := fun heq => hround heq.2
        rw [if_neg hno,
          List.count_cons_of_ne (fun heq => hround (Nat.succ.inj (congrArg Prod.fst heq)).symm)]
        exact hold
    · have hno : ¬ (d = r ∧ j = k) := fun heq => hself heq.1
      rw [if_neg hself, if_neg hno]
      exact hold
  · intro d hd e he
    rw [hdelivered d hd] at he
    by_cases hself : d = r
    · rw [if_pos hself] at he
      rcases List.mem_cons.mp he with rfl | he
      · exact ⟨hmatch.1, hmatch.2, k, hk, rfl, by rw [hself]⟩
      · exact h.matching d hd e he
    · rw [if_neg hself] at he
      exact h.matching d hd e he

/-- Nobody has received more than has been sent. -/
theorem Accounts.sentFirst (h : Accounts n st) :
    Lib.Dissemination.SentFirst n fun r => (st.rank r).participant := by
  intro p hp k hk
  have hcount := h.pending p hp k hk
  unfold BarrierState.received BarrierState.sent roundDst at hcount
  show (st.rank ((p + 2 ^ k) % n)).participant.got k ≤ (st.rank p).participant.sent k
  omega

/-- Outside its receive of round `k` a rank has at most one message of round `k` coming. -/
theorem Accounts.pending_le_one (h : Accounts n st) {s : ℕ} (hs : s < n) (hk : 2 ^ k < n)
    (heven : st.sent (roundDst n s k) k = st.received (roundDst n s k) k) :
    (st.pending (roundDst n s k)).countP (isFrom s (k + 1)) ≤ 1 := by
  have hcount := h.pending s hs k hk
  have hle : st.sent s k ≤ st.sent (roundDst n s k) k + 1 := h.sentFirst.sent_le_succ hs hk
  omega

end Accounts

/-! ## Parked messages -/

/-- The round of a rank inside the barrier. -/
def BarrierPc.round : BarrierPc → Option ℕ
  | .idle => none
  | .connecting k => some k
  | .writing k => some k
  | .dequeuing k => some k
  | .accepting k => some k
  | .reading k _ => some k

/-- The round whose receive has been called and has not returned. -/
def BarrierPc.receiving : BarrierPc → Option ℕ
  | .accepting k => some k
  | .reading k _ => some k
  | _ => none

/-- What rank `d` has parked. -/
structure Parked (n d : ℕ) (rs : BarrierRank) : Prop where
  round : ∀ k, rs.pc.round = some k → 2 ^ k < n
  /-- no receive finds two messages in the list -/
  apart : rs.unexpected.Pairwise fun a b => ¬ (b.peer = a.peer ∧ b.tag = a.tag)
  /-- the receive that has been called finds none -/
  behind : ∀ k, rs.pc.receiving = some k →
    ∀ sock ∈ rs.unexpected, ¬ (sock.peer = roundSrc n d k ∧ sock.tag = k + 1)

section Parked

variable {n d k : ℕ} {rs : BarrierRank} {sock : Conn}

/-- The parked sockets at the head of a round. -/
theorem Parked.of_roundHead
    (hapart : rs.unexpected.Pairwise fun a b => ¬ (b.peer = a.peer ∧ b.tag = a.tag)) (k : ℕ) :
    Parked n d (roundHead n rs k) := by
  unfold roundHead
  by_cases hk : 2 ^ k < n
  · rw [if_pos hk]
    refine ⟨fun j hj => (Option.some.inj hj) ▸ hk, hapart, ?_⟩
    intro j hj
    cases hj
  · rw [if_neg hk]
    refine ⟨?_, hapart, ?_⟩
    · intro j hj
      cases hj
    · intro j hj
      cases hj

/-- Another place in the same round, before the receive has been called. -/
theorem Parked.before (h : Parked n d rs) {pc : BarrierPc} (hround : pc.round = rs.pc.round)
    (hreceiving : pc.receiving = none) : Parked n d { rs with pc := pc } where
  round k hk := h.round k (hround ▸ hk)
  apart := h.apart
  behind k hk := by
    have hnone : (none : Option ℕ) = some k := hreceiving ▸ hk
    cases hnone

theorem Parked.accept (h : Parked n d rs) (hpc : rs.pc = .accepting k) :
    Parked n d { rs with pc := .reading k sock } where
  round j hj := h.round j (hpc ▸ hj)
  apart := h.apart
  behind j hj := h.behind j (hpc ▸ hj)

/-- A dequeue keeps the parked sockets in time. -/
theorem Parked.dequeue (h : Parked n d rs) (hpc : rs.pc = .dequeuing k) :
    Parked n d (afterDequeue n d rs k) := by
  unfold afterDequeue
  cases hfound : unexpectedDequeue rs.unexpected (roundSrc n d k) (k + 1) with
  | some found =>
    apply Parked.of_roundHead
    exact h.apart.sublist (unexpectedDequeue_sublist hfound)
  | none =>
    refine ⟨fun j hj => h.round j (hpc ▸ hj), h.apart, ?_⟩
    intro j hj
    cases hj
    exact unexpectedDequeue_none.mp hfound

theorem Parked.read (h : Parked n d rs) (hpc : rs.pc = .reading k sock)
    (hfresh : ¬ (sock.peer = roundSrc n d k ∧ sock.tag = k + 1) →
      ∀ parked ∈ rs.unexpected, ¬ (parked.peer = sock.peer ∧ parked.tag = sock.tag)) :
    Parked n d (afterRead n d rs k sock) := by
  unfold afterRead
  by_cases hmatch : sock.peer = roundSrc n d k ∧ sock.tag = k + 1
  · rw [if_pos hmatch]
    apply Parked.of_roundHead
    exact h.apart
  · rw [if_neg hmatch]
    refine ⟨fun j hj => h.round j (hpc ▸ hj), List.pairwise_cons.mpr ⟨hfresh hmatch, h.apart⟩, ?_⟩
    intro j hj
    have hbehind := h.behind j (hpc ▸ hj)
    cases hj
    exact List.forall_mem_cons.mpr ⟨hmatch, hbehind⟩

end Parked

/-! ## Every step keeps the books -/

section Steps

variable {n r k : ℕ} {st st' : BarrierState} {rs : BarrierRank} {sock : Conn} {a : BarrierAction}

@[simp] theorem setRank_rank_self : (st.setRank r rs).rank r = rs := Function.update_self ..

theorem setRank_rank_of_ne {d : ℕ} (hd : d ≠ r) : (st.setRank r rs).rank d = st.rank d :=
  Function.update_of_ne hd ..

theorem setRank_pending_of_ne {d : ℕ} (hd : d ≠ r) :
    (st.setRank r rs).pending d = st.pending d := by
  unfold BarrierState.pending
  rw [setRank_rank_of_ne hd]
  rfl

theorem setRank_pending_self :
    (st.setRank r rs).pending r = st.inFlight r ++ st.backlog r ++ rs.pc.held ++ rs.unexpected := by
  unfold BarrierState.pending
  rw [setRank_rank_self]
  rfl

/-- What a function of the ranks is after rank `r` has moved. -/
theorem setRank_apply {α : Type} {f : BarrierRank → α} (hf : f rs = f (st.rank r)) (d : ℕ) :
    f ((st.setRank r rs).rank d) = f (st.rank d) := by
  by_cases hd : d = r
  · rw [hd, setRank_rank_self, hf]
  · rw [setRank_rank_of_ne hd]

/-- A rank moves, and no message. -/
theorem Accounts.stay (h : Accounts n st) (hheld : rs.pc.held = (st.rank r).pc.held)
    (hunexpected : rs.unexpected = (st.rank r).unexpected)
    (hdelivered : rs.delivered = (st.rank r).delivered)
    (hcounts : ∀ k, 2 ^ k < n → rs.participant.sent k = st.sent r k ∧
      rs.participant.got k = st.received r k) : Accounts n (st.setRank r rs) := by
  apply h.of_perm
  · intro d _
    have heq : (st.setRank r rs).pending d = st.pending d := by
      unfold BarrierState.pending
      rw [setRank_apply (f := fun rs => rs.pc.held) hheld, setRank_apply hunexpected]
      rfl
    rw [heq]
  · intro d _
    exact setRank_apply hdelivered d
  · intro s _ j hj
    exact setRank_apply (f := fun rs => rs.participant.sent j) (hcounts j hj).1 s
  · intro s _ j hj
    exact setRank_apply (f := fun rs => rs.participant.got j) (hcounts j hj).2 s

/-- A receive of rank `r` returns. -/
theorem Accounts.returned (h : Accounts n st) (hk : 2 ^ k < n)
    (hphase : (st.rank r).participant.phase = .waiting 0 k)
    (hcalls : rs.calls = (st.rank r).calls)
    (hdelivered : rs.delivered = (st.rank r).delivered)
    (hmatch : sock.peer = roundSrc n r k ∧ sock.tag = k + 1)
    (htaken : (st.pending r).Perm (sock :: (st.inFlight r ++ st.backlog r ++ rs.unexpected))) :
    Accounts n (st.setRank r (deliver n r rs k sock)) := by
  have hgot := received_of_waiting hphase
  have hsent := sent_of_waiting hphase
  apply h.of_delivery hk hmatch
  · rw [setRank_pending_self]
    unfold deliver
    rw [roundHead_held, roundHead_unexpected, List.append_nil]
    exact htaken
  · intro d _ hd
    exact setRank_pending_of_ne hd
  · intro d _
    by_cases hd : d = r
    · rw [if_pos hd, hd, setRank_rank_self]
      unfold deliver
      rw [roundHead_delivered, hgot k, if_neg (Nat.lt_irrefl k), hdelivered, hcalls]
      rfl
    · rw [if_neg hd, setRank_rank_of_ne hd]
  · intro s _ j hj
    by_cases hs : s = r
    · unfold BarrierState.sent
      rw [hs, setRank_rank_self]
      unfold deliver
      rw [(roundHead_counts hj).1]
      show rs.calls + _ = st.sent r j
      rw [hsent j, hcalls]
      congr 1
      exact if_congr Nat.lt_succ_iff rfl rfl
    · unfold BarrierState.sent
      rw [setRank_rank_of_ne hs]
  · intro s _ j hj
    by_cases hs : s = r
    -- round `k` is received now, and no later one is
    · have hnew : ((st.setRank r (deliver n r rs k sock)).received s j)
          = rs.calls + if j < k + 1 then 1 else 0 := by
        unfold BarrierState.received
        rw [hs, setRank_rank_self]
        exact (roundHead_counts hj).2
      rw [hnew, hs, hgot j, hcalls]
      split_ifs <;> omega
    · unfold BarrierState.received
      rw [setRank_rank_of_ne hs, if_neg (fun heq => hs heq.1), Nat.add_zero]

/-- What holds in every reachable state. -/
structure BarrierInv (n : ℕ) (st : BarrierState) : Prop where
  accounts : Accounts n st
  parked : ∀ d < n, Parked n d (st.rank d)

/-- The invariant holds at the start. -/
theorem BarrierInv.init : BarrierInv n BarrierState.init where
  accounts := Accounts.init
  parked d _ := by
    refine ⟨?_, List.Pairwise.nil, ?_⟩
    · intro k hk
      cases hk
    · intro k hk
      cases hk

/-- The parked sockets after a step of a rank. -/
theorem parked_setRank (h : ∀ d < n, Parked n d (st.rank d)) (hrs : Parked n r rs) :
    ∀ d < n, Parked n d ((st.setRank r rs).rank d) := by
  intro d hd
  by_cases hdr : d = r
  · rw [hdr, setRank_rank_self]
    exact hrs
  · rw [setRank_rank_of_ne hdr]
    exact h d hd

/-- A call keeps the invariant. -/
theorem BarrierInv.enter (h : BarrierInv n st) (hr : r < n) (hpc : (st.rank r).pc = .idle) :
    BarrierInv n (st.setRank r (roundHead n (st.rank r) 0)) where
  accounts := by
    apply h.accounts.stay
    · rw [roundHead_held, hpc]
      rfl
    · exact roundHead_unexpected
    · exact roundHead_delivered
    · intro k hk
      rw [(roundHead_counts hk).1, (roundHead_counts hk).2, if_neg (Nat.not_lt_zero k)]
      unfold BarrierState.sent BarrierState.received BarrierRank.participant
      rw [hpc]
      exact ⟨rfl, rfl⟩
  parked := parked_setRank h.parked (Parked.of_roundHead (h.parked r hr).apart 0)

theorem BarrierInv.connect (h : BarrierInv n st) (hr : r < n) (hpc : (st.rank r).pc = .connecting k) :
    BarrierInv n { st.setRank r { st.rank r with pc := .writing k } with
      inFlight := Function.update st.inFlight (roundDst n r k)
        (⟨r, k + 1, (st.rank r).calls⟩ :: st.inFlight (roundDst n r k)) } := by
  have hk : 2 ^ k < n := (h.parked r hr).round k (by rw [hpc]; rfl)
  have hcalls : st.sent r k = (st.rank r).calls := by
    rw [sent_of_connecting hpc, if_neg (Nat.lt_irrefl k), Nat.add_zero]
  refine ⟨?_, ?_⟩
  · apply h.accounts.connect hr hk
    · intro d _
      have hheld : ((st.setRank r { st.rank r with pc := .writing k }).rank d).pc.held
          = (st.rank d).pc.held :=
        setRank_apply (f := fun rs => rs.pc.held) (by rw [hpc]; rfl) d
      have hunexpected : ((st.setRank r { st.rank r with pc := .writing k }).rank d).unexpected
          = (st.rank d).unexpected :=
        setRank_apply (by rfl) d
      unfold BarrierState.pending
      rw [hcalls]
      show Function.update st.inFlight _ _ d ++ st.backlog d ++ _ ++ _ = _
      rw [hheld, hunexpected]
      by_cases hd : d = roundDst n r k
      · rw [if_pos hd, hd, Function.update_self]
        rfl
      · rw [if_neg hd, Function.update_of_ne hd]
    · intro d _
      exact setRank_apply (by rfl) d
    · intro s _ j _
      show ((st.setRank r _).rank s).participant.sent j = _
      by_cases hs : s = r
      · rw [hs, setRank_rank_self, sent_of_connecting hpc]
        show (st.rank r).calls + (if j ≤ k then 1 else 0) = _
        split_ifs <;> omega
      · rw [setRank_rank_of_ne hs, if_neg (fun heq => hs heq.1)]
        rfl
    · intro s _ j _
      apply setRank_apply (f := fun rs => rs.participant.got j)
      unfold BarrierRank.participant
      rw [hpc]
      rfl
  · apply parked_setRank h.parked
    exact (h.parked r hr).before (by rw [hpc]; rfl) rfl

theorem BarrierInv.write (h : BarrierInv n st) (hr : r < n) (hpc : (st.rank r).pc = .writing k) :
    BarrierInv n (st.setRank r { st.rank r with pc := .dequeuing k }) where
  accounts := by
    apply h.accounts.stay
    · rw [hpc]
      rfl
    · rfl
    · rfl
    · intro j _
      unfold BarrierState.sent BarrierState.received BarrierRank.participant
      rw [hpc]
      exact ⟨rfl, rfl⟩
  parked := parked_setRank h.parked ((h.parked r hr).before (by rw [hpc]; rfl) rfl)

theorem BarrierInv.arrive (h : BarrierInv n st) {d : ℕ} (hsock : sock ∈ st.inFlight d) :
    BarrierInv n { st with
      inFlight := Function.update st.inFlight d ((st.inFlight d).erase sock)
      backlog := Function.update st.backlog d (st.backlog d ++ [sock]) } where
  accounts := by
    apply h.accounts.of_perm
    · intro q _
      unfold BarrierState.pending
      show (Function.update st.inFlight d _ q ++ Function.update st.backlog d _ q
        ++ (st.rank q).pc.held ++ (st.rank q).unexpected).Perm _
      by_cases hq : q = d
      · rw [hq, Function.update_self, Function.update_self]
        apply List.Perm.append_right
        apply List.Perm.append_right
        -- the connection goes from the one list to the other
        have hmoved : ((st.inFlight d).erase sock ++ (st.backlog d ++ [sock])).Perm
            (sock :: (st.inFlight d).erase sock ++ st.backlog d) := by
          rw [← List.append_assoc]
          exact List.perm_append_singleton _ _
        exact hmoved.trans ((List.perm_cons_erase hsock).symm.append_right _)
      · rw [Function.update_of_ne hq, Function.update_of_ne hq]
    · exact fun _ _ => rfl
    · exact fun _ _ _ _ => rfl
    · exact fun _ _ _ _ => rfl
  parked := h.parked

/-- A rank that receives is waiting. -/
theorem waiting_of_receiving (hpc : (st.rank r).pc.receiving = some k) :
    (st.rank r).participant.phase = .waiting 0 k := by
  unfold BarrierRank.participant
  cases hcase : (st.rank r).pc with
  | accepting j =>
    rw [hcase] at hpc
    cases hpc
    rfl
  | reading j sock =>
    rw [hcase] at hpc
    cases hpc
    rfl
  | _ =>
    rw [hcase] at hpc
    cases hpc

/-- A look at the parked sockets keeps the invariant. -/
theorem BarrierInv.dequeue (h : BarrierInv n st) (hr : r < n)
    (hpc : (st.rank r).pc = .dequeuing k) :
    BarrierInv n (st.setRank r (afterDequeue n r (st.rank r) k)) := by
  have hk : 2 ^ k < n := (h.parked r hr).round k (by rw [hpc]; rfl)
  have hphase : (st.rank r).participant.phase = .waiting 0 k := by
    unfold BarrierRank.participant
    rw [hpc]
  refine ⟨?_, parked_setRank h.parked ((h.parked r hr).dequeue hpc)⟩
  unfold afterDequeue
  cases hfound : unexpectedDequeue (st.rank r).unexpected (roundSrc n r k) (k + 1) with
  | some found =>
    show Accounts n (st.setRank r
      (deliver n r { st.rank r with unexpected := found.2 } k found.1))
    apply h.accounts.returned hk hphase
    · rfl
    · rfl
    · exact unexpectedDequeue_matches hfound
    · unfold BarrierState.pending
      rw [hpc]
      show (st.inFlight r ++ st.backlog r ++ [] ++ (st.rank r).unexpected).Perm _
      rw [List.append_nil]
      exact ((unexpectedDequeue_perm hfound).append_left _).trans List.perm_middle
  | none =>
    apply h.accounts.stay
    · rw [hpc]
      rfl
    · rfl
    · rfl
    · intro j _
      rw [sent_of_waiting hphase, received_of_waiting hphase]
      exact ⟨rfl, rfl⟩

theorem BarrierInv.accept (h : BarrierInv n st) (hr : r < n)
    (hpc : (st.rank r).pc = .accepting k) {rest : List Conn} (hbacklog : st.backlog r = sock :: rest) :
    BarrierInv n { st.setRank r { st.rank r with pc := .reading k sock } with
      backlog := Function.update st.backlog r rest } := by
  have hphase := waiting_of_receiving (show (st.rank r).pc.receiving = some k by rw [hpc]; rfl)
  refine ⟨?_, parked_setRank h.parked ((h.parked r hr).accept hpc)⟩
  apply h.accounts.of_perm
  · intro d _
    unfold BarrierState.pending
    show (st.inFlight d ++ Function.update st.backlog r rest d
      ++ ((st.setRank r _).rank d).pc.held ++ ((st.setRank r _).rank d).unexpected).Perm _
    by_cases hd : d = r
    · rw [hd, Function.update_self, setRank_rank_self, hbacklog, hpc]
      show (st.inFlight r ++ rest ++ [sock] ++ (st.rank r).unexpected).Perm
        (st.inFlight r ++ (sock :: rest) ++ [] ++ (st.rank r).unexpected)
      rw [List.append_nil]
      apply List.Perm.append_right
      exact (List.perm_append_singleton _ _).trans List.perm_middle.symm
    · rw [Function.update_of_ne hd, setRank_rank_of_ne hd]
  · intro d _
    exact setRank_apply (by rfl) d
  · intro s _ j _
    apply setRank_apply (f := fun rs => rs.participant.sent j)
    show _ = st.sent r j
    rw [sent_of_waiting hphase]
    rfl
  · intro s _ j _
    apply setRank_apply (f := fun rs => rs.participant.got j)
    show _ = st.received r j
    rw [received_of_waiting hphase]
    rfl

/-- A message that a receive of another round has accepted has no message of its kind parked. -/
theorem BarrierInv.fresh (h : BarrierInv n st) (hr : r < n)
    (hpc : (st.rank r).pc = .reading k sock)
    (hmatch : ¬ (sock.peer = roundSrc n r k ∧ sock.tag = k + 1)) :
    ∀ parked ∈ (st.rank r).unexpected, ¬ (parked.peer = sock.peer ∧ parked.tag = sock.tag) := by
  have hphase := waiting_of_receiving (show (st.rank r).pc.receiving = some k by rw [hpc]; rfl)
  have hmem : sock ∈ st.pending r := by
    unfold BarrierState.pending
    rw [hpc]
    apply List.mem_append_left
    exact List.mem_append_right _ (List.mem_singleton.mpr rfl)
  obtain ⟨hpeer, htag, hround, hdst, _⟩ := h.accounts.isSent hr hmem
  -- it belongs to another round
  have hother : sock.tag - 1 ≠ k := by
    intro heq
    apply hmatch
    rw [← hdst, ← heq, roundSrc_roundDst hpeer hround]
    exact ⟨rfl, by omega⟩
  have heven : st.sent r (sock.tag - 1) = st.received r (sock.tag - 1) := by
    rw [sent_of_waiting hphase, received_of_waiting hphase]
    congr 1
    exact if_congr (by omega) rfl rfl
  have hone := h.accounts.pending_le_one hpeer hround (by rw [hdst]; exact heven)
  rw [hdst, Nat.sub_add_cancel htag] at hone
  unfold BarrierState.pending at hone
  rw [hpc, List.countP_append, List.countP_append] at hone
  have hheld : (BarrierPc.reading k sock).held.countP (isFrom sock.peer sock.tag) = 1 :=
    List.countP_cons_of_pos (isFrom_iff.mpr ⟨rfl, rfl⟩)
  intro parked hparked hkey
  have hpos := List.countP_pos_iff.mpr ⟨parked, hparked, isFrom_iff.mpr hkey⟩
  omega

theorem BarrierInv.read (h : BarrierInv n st) (hr : r < n)
    (hpc : (st.rank r).pc = .reading k sock) :
    BarrierInv n (st.setRank r (afterRead n r (st.rank r) k sock)) := by
  have hk : 2 ^ k < n := (h.parked r hr).round k (by rw [hpc]; rfl)
  have hphase := waiting_of_receiving (show (st.rank r).pc.receiving = some k by rw [hpc]; rfl)
  refine ⟨?_, parked_setRank h.parked ((h.parked r hr).read hpc (h.fresh hr hpc))⟩
  unfold afterRead
  by_cases hmatch : sock.peer = roundSrc n r k ∧ sock.tag = k + 1
  · rw [if_pos hmatch]
    apply h.accounts.returned hk hphase rfl rfl hmatch
    unfold BarrierState.pending
    rw [hpc]
    exact ((List.perm_append_singleton _ _).append_right _)
  · rw [if_neg hmatch]
    apply h.accounts.of_perm
    · intro d _
      by_cases hd : d = r
      · rw [hd, setRank_pending_self]
        unfold BarrierState.pending
        rw [hpc]
        show (st.inFlight r ++ st.backlog r ++ [] ++ sock :: (st.rank r).unexpected).Perm
          (st.inFlight r ++ st.backlog r ++ [sock] ++ (st.rank r).unexpected)
        rw [List.append_nil, List.append_assoc _ [sock]]
        exact List.Perm.refl _
      · rw [setRank_pending_of_ne hd]
    · intro d _
      exact setRank_apply (by rfl) d
    · intro s _ j _
      apply setRank_apply (f := fun rs => rs.participant.sent j)
      show _ = st.sent r j
      rw [sent_of_waiting hphase]
      rfl
    · intro s _ j _
      apply setRank_apply (f := fun rs => rs.participant.got j)
      show _ = st.received r j
      rw [received_of_waiting hphase]
      rfl

theorem BarrierInv.step (h : BarrierInv n st) (hstep : barrierStep n st a = some st') :
    BarrierInv n st' := by
  cases a with
  | enter r =>
    simp only [barrierStep] at hstep
    split at hstep
    · next hok =>
      cases hstep
      exact h.enter hok.1 hok.2
    · cases hstep
  | connect r =>
    simp only [barrierStep] at hstep
    split at hstep
    · next k hpc =>
      split at hstep
      · next hr =>
        cases hstep
        exact h.connect hr hpc
      · cases hstep
    · cases hstep
  | write r =>
    simp only [barrierStep] at hstep
    split at hstep
    · next k hpc =>
      split at hstep
      · next hr =>
        cases hstep
        exact h.write hr hpc
      · cases hstep
    · cases hstep
  | arrive d sock =>
    simp only [barrierStep] at hstep
    split at hstep
    · next hok =>
      cases hstep
      exact h.arrive hok.2
    · cases hstep
  | dequeue r =>
    simp only [barrierStep] at hstep
    split at hstep
    · next k hpc =>
      split at hstep
      · next hr =>
        cases hstep
        exact h.dequeue hr hpc
      · cases hstep
    · cases hstep
  | accept r =>
    simp only [barrierStep] at hstep
    split at hstep
    · next k sock rest hpc hbacklog =>
      split at hstep
      · next hr =>
        cases hstep
        exact h.accept hr hpc hbacklog
      · cases hstep
    · cases hstep
  | read r =>
    simp only [barrierStep] at hstep
    split at hstep
    · next k sock hpc =>
      split at hstep
      · next hok =>
        cases hstep
        exact h.read hok.1 hpc
      · cases hstep
    · cases hstep

theorem BarrierReachable.inv (h : BarrierReachable n st) : BarrierInv n st := by
  induction h with
  | init => exact BarrierInv.init
  | step a _ hstep ih => exact ih.step hstep

end Steps

/-! ## A run that cannot go on has finished -/

section Progress

variable {n r k c : ℕ} {st : BarrierState}

/-- Only a call can be next. -/
def Quiet (n : ℕ) (st : BarrierState) : Prop :=
  ∀ a, barrierStep n st a ≠ none → ∃ r, a = .enter r

/-- When nothing moves nothing is in flight. -/
theorem Quiet.inFlight (h : Quiet n st) (hr : r < n) : st.inFlight r = [] := by
  cases hlist : st.inFlight r with
  | nil => rfl
  | cons sock rest =>
    have hmem : sock ∈ st.inFlight r := by
      rw [hlist]
      exact List.mem_cons_self
    have hstep : barrierStep n st (.arrive r sock) ≠ none := by
      simp only [barrierStep]
      rw [if_pos ⟨hr, hmem⟩]
      exact Option.some_ne_none _
    obtain ⟨q, hq⟩ := h _ hstep
    cases hq

/-- No rank is about to send. -/
theorem Quiet.not_writing (h : Quiet n st) (hr : r < n) : (st.rank r).pc ≠ .writing k := by
  intro hpc
  have hstep : barrierStep n st (.write r) ≠ none := by
    simp only [barrierStep]
    rw [hpc]
    simp only []
    rw [if_pos hr]
    exact Option.some_ne_none _
  obtain ⟨q, hq⟩ := h _ hstep
  cases hq

/-- Whoever is in a barrier waits for a connection. -/
theorem Quiet.waits (h : Quiet n st) (hinv : BarrierInv n st) (hr : r < n)
    (hbusy : (st.rank r).pc ≠ .idle) : ∃ k, (st.rank r).pc = .accepting k ∧ st.backlog r = [] := by
  cases hpc : (st.rank r).pc with
  | idle => exact absurd hpc hbusy
  | connecting k =>
    have hstep : barrierStep n st (.connect r) ≠ none := by
      simp only [barrierStep]
      rw [hpc]
      simp only []
      rw [if_pos hr]
      exact Option.some_ne_none _
    obtain ⟨q, hq⟩ := h _ hstep
    cases hq
  | writing k => exact absurd hpc (h.not_writing hr)
  | dequeuing k =>
    have hstep : barrierStep n st (.dequeue r) ≠ none := by
      simp only [barrierStep]
      rw [hpc]
      simp only []
      rw [if_pos hr]
      exact Option.some_ne_none _
    obtain ⟨q, hq⟩ := h _ hstep
    cases hq
  | accepting k =>
    refine ⟨k, rfl, ?_⟩
    cases hbacklog : st.backlog r with
    | nil => rfl
    | cons sock rest =>
      have hstep : barrierStep n st (.accept r) ≠ none := by
        simp only [barrierStep]
        rw [hpc, hbacklog]
        simp only []
        rw [if_pos hr]
        exact Option.some_ne_none _
      obtain ⟨q, hq⟩ := h _ hstep
      cases hq
  | reading k sock =>
    -- the sender has not written, but then it can
    have hmem : sock ∈ st.pending r := by
      unfold BarrierState.pending
      rw [hpc]
      apply List.mem_append_left
      exact List.mem_append_right _ (List.mem_singleton.mpr rfl)
    have hpeer := (hinv.accounts.isSent hr hmem).1
    have hwritten : Written st sock := fun hnot => h.not_writing hpeer hnot.1
    have hstep : barrierStep n st (.read r) ≠ none := by
      simp only [barrierStep]
      rw [hpc]
      simp only []
      rw [if_pos ⟨hr, hwritten⟩]
      exact Option.some_ne_none _
    obtain ⟨q, hq⟩ := h _ hstep
    cases hq

theorem entered_of_idle (hpc : (st.rank r).pc = .idle) : st.entered r = (st.rank r).calls := by
  unfold BarrierState.entered BarrierRank.participant Lib.Dissemination.Participant.entries
  rw [hpc]
  rfl

theorem entered_of_accepting (hpc : (st.rank r).pc = .accepting k) :
    st.entered r = (st.rank r).calls + 1 := by
  unfold BarrierState.entered BarrierRank.participant Lib.Dissemination.Participant.entries
  rw [hpc]

/-- Of the ranks that wait, the one in the earliest round has its message. -/
theorem Quiet.idle (h : Quiet n st) (hinv : BarrierInv n st) (hentered : ∀ r < n, st.entered r = c)
    (hr : r < n) : (st.rank r).pc = .idle := by
  have hnone : ∀ k, ∀ q < n, (st.rank q).pc ≠ .accepting k := by
    intro k
    induction k using Nat.strong_induction_on with
    | _ k ih =>
      intro q hq hpc
      have hk : 2 ^ k < n := (hinv.parked q hq).round k (by rw [hpc]; rfl)
      have hsrc : roundSrc n q k < n := roundSrc_lt hq
      have hcount := hinv.accounts.pending _ hsrc k hk
      rw [roundDst_roundSrc hq hk] at hcount
      have hphase : (st.rank q).participant.phase = .waiting 0 k :=
        waiting_of_receiving (by rw [hpc]; rfl)
      rw [received_of_waiting hphase, if_neg (Nat.lt_irrefl k)] at hcount
      have hmine := hentered q hq
      rw [entered_of_accepting hpc] at hmine
      -- the sender has sent in this round
      have hsent : st.sent (roundSrc n q k) k = c := by
        have htheirs := hentered _ hsrc
        by_cases hidle : (st.rank (roundSrc n q k)).pc = .idle
        · rw [sent_of_idle hidle, ← entered_of_idle hidle, htheirs]
        · obtain ⟨j, hj, _⟩ := h.waits hinv hsrc hidle
          have hkj : k ≤ j := by
            by_contra hlt
            exact ih j (by omega) _ hsrc hj
          have hphase' : (st.rank (roundSrc n q k)).participant.phase = .waiting 0 j :=
            waiting_of_receiving (by rw [hj]; rfl)
          rw [entered_of_accepting hj] at htheirs
          rw [sent_of_waiting hphase', if_pos hkj, htheirs]
      -- so its message is pending, and it can be parked only
      have hpos : 0 < (st.pending q).countP (isFrom (roundSrc n q k) (k + 1)) := by omega
      obtain ⟨sock, hsock, hfrom⟩ := List.countP_pos_iff.mp hpos
      obtain ⟨j, hj, hbacklog⟩ := h.waits hinv hq (by rw [hpc]; exact fun heq => by cases heq)
      unfold BarrierState.pending at hsock
      rw [h.inFlight hq, hbacklog, hpc] at hsock
      exact (hinv.parked q hq).behind k (by rw [hpc]; rfl) sock hsock (isFrom_iff.mp hfrom)
  by_contra hbusy
  obtain ⟨k, hk, _⟩ := h.waits hinv hr hbusy
  exact hnone k r hr hk

/-- Nothing is pending for a rank. -/
theorem Quiet.pending (h : Quiet n st) (hinv : BarrierInv n st) (hentered : ∀ r < n, st.entered r = c)
    (hr : r < n) : st.pending r = [] := by
  apply List.eq_nil_iff_forall_not_mem.mpr
  intro sock hsock
  obtain ⟨hpeer, htag, hround, hdst, _⟩ := hinv.accounts.isSent hr hsock
  have hcount := hinv.accounts.pending _ hpeer _ hround
  have hcalls : ∀ q < n, (st.rank q).calls = c := by
    intro q hq
    rw [← entered_of_idle (h.idle hinv hentered hq)]
    exact hentered q hq
  have hreceived : c ≤ st.received r (sock.tag - 1) := by
    rw [← hcalls r hr]
    show (st.rank r).participant.done ≤ (st.rank r).participant.got _
    exact Lib.Dissemination.done_le_got
  rw [hdst, sent_of_idle (h.idle hinv hentered hpeer), hcalls _ hpeer, Nat.sub_add_cancel htag]
    at hcount
  have hpos := List.countP_pos_iff.mpr
    ⟨sock, hsock, isFrom_iff.mpr (⟨rfl, rfl⟩ : sock.peer = sock.peer ∧ sock.tag = sock.tag)⟩
  omega

end Progress

/-! ## What the barrier guarantees -/

/-- A message that has been sent is pending at its destination or has been delivered there, once,
and is nowhere else; a receive that has returned has one delivery, of the peer and the tag it was
called with. -/
structure DeliveredOnce (n : ℕ) (st : BarrierState) : Prop where
  message : ∀ s < n, ∀ k, 2 ^ k < n → ∀ b < st.sent s k, ∀ d < n,
    (st.pending d).count ⟨s, k + 1, b⟩
      + ((st.rank d).delivered.map Delivery.sock).count ⟨s, k + 1, b⟩
        = if d = roundDst n s k then 1 else 0
  receive : ∀ d < n, ∀ k, 2 ^ k < n → ∀ b < st.received d k,
    ((st.rank d).delivered.map fun e => (e.tag, e.call)).count (k + 1, b) = 1
  delivery : ∀ d < n, ∀ e ∈ (st.rank d).delivered, IsSent n st d e.sock ∧
    e.sock.peer = e.peer ∧ e.sock.tag = e.tag ∧
      ∃ k, 2 ^ k < n ∧ e.tag = k + 1 ∧ e.peer = roundSrc n d k ∧ e.call < st.received d k

/-- The receive a parked message belongs to has not been called, and at its call it finds the
message. -/
structure ParkedInTime (n : ℕ) (st : BarrierState) : Prop where
  not_called : ∀ d < n, ∀ k, (st.rank d).pc.receiving = some k →
    ∀ sock ∈ (st.rank d).unexpected, ¬ (sock.peer = roundSrc n d k ∧ sock.tag = k + 1)
  found : ∀ d < n, ∀ k, (st.rank d).pc = .dequeuing k →
    ∀ sock ∈ (st.rank d).unexpected, sock.peer = roundSrc n d k → sock.tag = k + 1 →
      ∃ rest, unexpectedDequeue (st.rank d).unexpected (roundSrc n d k) (k + 1) = some (sock, rest) ∧
        ∀ other ∈ rest, ¬ (other.peer = roundSrc n d k ∧ other.tag = k + 1)

section Guarantees

variable {n : ℕ} {st : BarrierState}

/-- The invariant says that messages are delivered once. -/
theorem BarrierInv.deliveredOnce (h : BarrierInv n st) : DeliveredOnce n st where
  message s hs k hk b hb d hd := by
    rw [← List.count_append, h.accounts.once d hd]
    apply if_congr _ rfl rfl
    constructor
    · intro hsent
      have hdst := hsent.2.2.2.1
      rw [← hdst]
      rfl
    · intro hdst
      exact ⟨hs, Nat.le_add_left _ _, hk, hdst.symm, hb⟩
  receive d hd k hk b hb := by
    rw [h.accounts.receives d hd k hk, if_pos hb]
  delivery d hd e he := by
    obtain ⟨hpeer, htag, k, hk, hround, hsrc⟩ := h.accounts.matching d hd e he
    refine ⟨?_, hpeer, htag, k, hk, hround, hsrc, ?_⟩
    · by_contra hnot
      have hcount := h.accounts.once d hd e.sock
      rw [if_neg hnot, List.count_append] at hcount
      have hpos := List.count_pos_iff.mpr (List.mem_map_of_mem (f := Delivery.sock) he)
      omega
    · by_contra hnot
      have hcount := h.accounts.receives d hd k hk e.call
      rw [if_neg hnot, ← hround] at hcount
      have hpos := List.count_pos_iff.mpr
        (List.mem_map_of_mem (f := fun e : Delivery => (e.tag, e.call)) he)
      omega

/-- The invariant says that messages are parked in time. -/
theorem BarrierInv.parkedInTime (h : BarrierInv n st) : ParkedInTime n st where
  not_called d hd := (h.parked d hd).behind
  found d hd k hk sock hsock hpeer htag := by
    have hapart := (h.parked d hd).apart
    obtain ⟨rest, hrest⟩ := unexpectedDequeue_of_mem hapart hsock
    rw [hpeer, htag] at hrest
    refine ⟨rest, hrest, ?_⟩
    -- a second one would not be apart from the first
    have hperm := unexpectedDequeue_perm hrest
    have hsymm : ∀ {a b : Conn}, ¬ (b.peer = a.peer ∧ b.tag = a.tag) →
        ¬ (a.peer = b.peer ∧ a.tag = b.tag) := fun hne heq => hne ⟨heq.1.symm, heq.2.symm⟩
    have hhead := (List.pairwise_cons.mp ((hperm.pairwise_iff hsymm).mp hapart)).1
    intro other hother hkey
    exact hhead other hother ⟨hkey.1.trans hpeer.symm, hkey.2.trans htag.symm⟩

end Guarantees

/-- In every state of every run: a rank returns from its barrier only after all have entered theirs,
every message is taken once by a receive it matches, and no parked message is passed over. Where all
ranks have entered equally often and nothing but a call can be next, all have returned and every
message has been taken. -/
theorem barrier_v2_correct (n : ℕ) (st : BarrierState) (hst : BarrierReachable n st) :
    (∀ r < n, ∀ q < n, (st.rank r).calls ≤ st.entered q) ∧
    DeliveredOnce n st ∧
    ParkedInTime n st ∧
    (∀ c, (∀ r < n, st.entered r = c) → Quiet n st →
      ∀ r < n, (st.rank r).pc = .idle ∧ (st.rank r).calls = c ∧ st.pending r = []) := by
  have hinv := hst.inv
  refine ⟨?_, hinv.deliveredOnce, hinv.parkedInTime, ?_⟩
  · intro r hr q hq
    exact hinv.accounts.sentFirst.done_le_entries hr hq
  · intro c hentered hquiet r hr
    have hidle := hquiet.idle hinv hentered hr
    refine ⟨hidle, ?_, hquiet.pending hinv hentered hr⟩
    rw [← entered_of_idle hidle]
    exact hentered r hr

/-- Three ranks. Rank 0 has parked the second message of rank 1, taken it from the list in its second
round and gone on to the second barrier, whose first message rank 1 has parked in the first. -/
theorem barrier_v2_correct_parked : ∃ st, BarrierReachable 3 st ∧ (st.rank 0).calls = 1 ∧
    (st.rank 0).unexpected = [] ∧ (st.rank 1).unexpected = [⟨0, 1, 1⟩] ∧
      ∀ q < 3, 1 ≤ st.entered q := by
  have h := (BarrierReachable.init (n := 3)).step (.enter 0) rfl
  have h := h.step (.enter 1) rfl
  have h := h.step (.enter 2) rfl
  have h := h.step (.connect 0) rfl
  have h := h.step (.write 0) rfl
  have h := h.step (.arrive 1 ⟨0, 1, 0⟩) rfl
  have h := h.step (.connect 1) rfl
  have h := h.step (.write 1) rfl
  have h := h.step (.dequeue 1) rfl
  have h := h.step (.accept 1) rfl
  have h := h.step (.read 1) rfl
  have h := h.step (.connect 1) rfl
  have h := h.step (.write 1) rfl
  -- the message of round 1 comes first
  have h := h.step (.arrive 0 ⟨1, 2, 0⟩) rfl
  have h := h.step (.dequeue 0) rfl
  have h := h.step (.accept 0) rfl
  have h := h.step (.read 0) rfl
  have h := h.step (.connect 2) rfl
  have h := h.step (.write 2) rfl
  have h := h.step (.arrive 0 ⟨2, 1, 0⟩) rfl
  have h := h.step (.accept 0) rfl
  have h := h.step (.read 0) rfl
  have h := h.step (.connect 0) rfl
  have h := h.step (.write 0) rfl
  have h := h.step (.dequeue 0) rfl
  -- the second barrier of rank 0
  have h := h.step (.enter 0) rfl
  have h := h.step (.connect 0) rfl
  have h := h.step (.write 0) rfl
  have h := h.step (.arrive 1 ⟨0, 1, 1⟩) rfl
  have h := h.step (.dequeue 1) rfl
  have h := h.step (.accept 1) rfl
  have h := h.step (.read 1) rfl
  exact ⟨_, h, rfl, rfl, rfl, (barrier_v2_correct 3 _ h).1 0 (by decide)⟩

end AscendShmem.UidBootstrap
