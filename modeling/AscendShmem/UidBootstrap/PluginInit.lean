import AscendShmem.UidBootstrap.RingAllGather
import AscendShmem.UidBootstrap.RootReports

/-!
# The rendezvous

`aclshmemi_bootstrap_plugin_init` of `shmemi_bootstrap_uid.cpp` on every rank, and `bootstrap_root`.
A rank reports its two listening sockets to the root, receives the address of its successor on one
of them, connects to it, accepts its predecessor on the other, and gathers the addresses of all
ranks over the ring. A rank that has returned may already connect to the listening sockets of others
for a message, and start further allgathers.

The exchange of versions and the report are one step of the root, which handles one connection after
the other.
-/

namespace AscendShmem.UidBootstrap

open Lib

/-- The sockets of `n` ranks. The system gives every listening socket an address of its own. -/
structure Endpoints (n : ℕ) where
  version : ℤ
  listen : ℕ → SockAddr
  listenRoot : ℕ → SockAddr
  listen_inj : ∀ r < n, ∀ q < n, listen r = listen q → r = q
  listenRoot_inj : ∀ r < n, ∀ q < n, listenRoot r = listenRoot q → r = q
  listenRoot_ne_zero : ∀ r < n, listenRoot r ≠ zeroAddr
  /-- `n_pes` is at most `ACLSHMEM_MAX_PES`, and `int` holds the size of `peer_addrs` -/
  fits : n * sockAddrSize < 2 ^ 31

variable {n : ℕ}

/-- `info`, with the version sent before it. -/
def Endpoints.report (eps : Endpoints n) (r : ℕ) : Report where
  peerVersion := eps.version
  rank := r
  nranks := n
  extAddrListen := eps.listen r
  extAddressListenRoot := eps.listenRoot r

/-- `peer_addrs` when the rank calls the allgather: its own address is there. -/
def Endpoints.peerAddrs (eps : Endpoints n) (r : ℕ) : ℕ → UInt8 := fun p =>
  if p / sockAddrSize = r then eps.listen r ⟨p % sockAddrSize, Nat.mod_lt _ (by decide)⟩ else 0

/-- The allgathers of the ranks: first the one of `plugin_init`, in place, then others. -/
def Endpoints.calls (eps : Endpoints n) (later : Calls n) : Calls n where
  len
    | 0 => sockAddrSize
    | c + 1 => later.len c
  inPlace r
    | 0 => true
    | c + 1 => later.inPlace r c
  input r
    | 0 => fun _ => 0
    | c + 1 => later.input r c
  before r
    | 0 => eps.peerAddrs r
    | c + 1 => later.before r c
  len_pos
    | 0 => show 0 < sockAddrSize by decide
    | c + 1 => later.len_pos c
  fits
    | 0 => eps.fits
    | c + 1 => later.fits c

/-! ## States -/

/-- Where a rank stands in `plugin_init`. -/
inductive InitPc where
  /-- both sockets listen -/
  | listening
  /-- connected to the root -/
  | reported
  /-- `next_addr` received -/
  | informed
  /-- `ring_send_sock` connected -/
  | linked
  /-- `ring_recv_sock` accepted -/
  | ready
deriving DecidableEq, Repr

/-- A connection to the `listen_sock` of a rank. -/
inductive Link where
  /-- the `ring_send_sock` of rank `r` -/
  | ring (r : ℕ)
  /-- a `bootstrap_send` of rank `r` -/
  | message (r : ℕ)
deriving DecidableEq, Repr

/-- The state of a rank. -/
structure InitRank where
  pc : InitPc
  nextAddr : Option SockAddr
  ringRecv : Option Link
  /-- `peer_addrs` when `plugin_init` has returned -/
  peerAddrs : Option (ℕ → UInt8)

/-- The ranks, the root, and the connections on their way. -/
structure InitState where
  rank : ℕ → InitRank
  root : RootState
  /-- the ranks that have connected to the root and have not been read, oldest first -/
  toRoot : List ℕ
  /-- what the root has sent to the `listen_sock_root` of a rank -/
  fromRoot : ℕ → List SockAddr
  /-- the connections to a `listen_sock` that have not reached it -/
  inFlight : ℕ → List Link
  /-- the connections a `listen_sock` hands out, oldest first -/
  backlog : ℕ → List Link
  ring : RingState

/-- The state with another state of a rank. -/
def InitState.setRank (st : InitState) (r : ℕ) (rs : InitRank) : InitState :=
  { st with rank := Function.update st.rank r rs }

/-- A rank after a step of its allgather: when the first one returns, so does `plugin_init`. -/
def afterGather (rs : InitRank) (ring : RankState) : InitRank :=
  if rs.peerAddrs.isNone ∧ ring.calls = 1 ∧ ring.pc = .idle then
    { rs with peerAddrs := some ring.out }
  else rs

/-- One step of a rank, of the root or of the network. -/
inductive InitStep (eps : Endpoints n) (later : Calls n) (capacity : ℕ → ℕ) :
    InitState → InitState → Prop where
  | report {st : InitState} {r : ℕ} (hr : r < n) (hpc : (st.rank r).pc = .listening) :
      InitStep eps later capacity st { st.setRank r { st.rank r with pc := .reported } with
        toRoot := st.toRoot ++ [r] }
  | rootRead {st : InitState} {r : ℕ} {rest : List ℕ} (hpc : st.root.pc = .collecting)
      (hqueue : st.toRoot = r :: rest) :
      InitStep eps later capacity st { st with
        root := rootRead eps.version st.root (eps.report r)
        toRoot := rest }
  | rootSend {st : InitState} {r q : ℕ} (hpc : st.root.pc = .distributing r)
      (hr : (r : ℤ) < st.root.nranks) (hq : q < n)
      (haddr : eps.listenRoot q = st.root.rankAddrsRoot r) :
      InitStep eps later capacity st { st with
        root := { st.root with pc := .distributing (r + 1) }
        fromRoot := Function.update st.fromRoot q
          (st.fromRoot q ++ [st.root.rankAddrs ((r + 1) % st.root.nranks.toNat)]) }
  | acceptRoot {st : InitState} {r : ℕ} {next : SockAddr} {rest : List SockAddr} (hr : r < n)
      (hpc : (st.rank r).pc = .reported) (hsent : st.fromRoot r = next :: rest) :
      InitStep eps later capacity st
        { st.setRank r { st.rank r with
            pc := .informed
            nextAddr := some next } with
          fromRoot := Function.update st.fromRoot r rest }
  | connectRing {st : InitState} {r q : ℕ} (hr : r < n) (hpc : (st.rank r).pc = .informed)
      (hq : q < n) (haddr : (st.rank r).nextAddr = some (eps.listen q)) :
      InitStep eps later capacity st { st.setRank r { st.rank r with pc := .linked } with
        inFlight := Function.update st.inFlight q (.ring r :: st.inFlight q) }
  | arrive {st : InitState} {q : ℕ} {link : Link} (hq : q < n) (hlink : link ∈ st.inFlight q) :
      InitStep eps later capacity st { st with
        inFlight := Function.update st.inFlight q ((st.inFlight q).erase link)
        backlog := Function.update st.backlog q (st.backlog q ++ [link]) }
  | acceptRing {st : InitState} {r : ℕ} {link : Link} {rest : List Link} (hr : r < n)
      (hpc : (st.rank r).pc = .linked) (hbacklog : st.backlog r = link :: rest) :
      InitStep eps later capacity st
        { st.setRank r { st.rank r with
            pc := .ready
            ringRecv := some link } with
          backlog := Function.update st.backlog r rest }
  | gather {st : InitState} {r q : ℕ} {ring : RingState} (hpc : (st.rank r).pc = .ready)
      (hrecv : (st.rank r).ringRecv = some (.ring q))
      (hstep : RankStep (eps.calls later) capacity q r st.ring ring) :
      InitStep eps later capacity st
        { st.setRank r (afterGather (st.rank r) (ring.rank r)) with ring := ring }
  | message {st : InitState} {r q : ℕ} (hr : r < n) (hdone : (st.rank r).peerAddrs ≠ none)
      (hq : q < n) :
      InitStep eps later capacity st { st with
        inFlight := Function.update st.inFlight q (.message r :: st.inFlight q) }

/-- Every rank listens. -/
def InitState.init : InitState where
  rank _ := { pc := .listening, nextAddr := none, ringRecv := none, peerAddrs := none }
  root := RootState.init
  toRoot := []
  fromRoot _ := []
  inFlight _ := []
  backlog _ := []
  ring := RingState.init

/-- The states of runs. -/
inductive InitReachable (eps : Endpoints n) (later : Calls n) (capacity : ℕ → ℕ) :
    InitState → Prop where
  | init : InitReachable eps later capacity InitState.init
  | step {st st' : InitState} (h : InitReachable eps later capacity st)
      (hstep : InitStep eps later capacity st st') : InitReachable eps later capacity st'

/-! ## What holds in every reachable state -/

/-- The ranks whose next address the root has sent. -/
def RootState.sentTo (st : RootState) : ℕ :=
  match st.pc with
  | .distributing r => r
  | _ => 0

/-- Every rank has accepted its predecessor. -/
def AllReady (n : ℕ) (st : InitState) : Prop := ∀ r < n, (st.rank r).pc = .ready

/-- `peer_addrs` has the address of rank `j` at place `j`. -/
def HoldsAddresses (eps : Endpoints n) (table : ℕ → UInt8) : Prop :=
  ∀ j < n, ∀ k : Fin sockAddrSize, table (j * sockAddrSize + k) = eps.listen j k

/-- The root after it has read the reports of the ranks `seen`. -/
structure HasRead (eps : Endpoints n) (seen : List ℕ) (root : RootState) : Prop where
  stored : Stored n (seen.map eps.report)
    { root with pc := if seen.length = n then .distributing 0 else .collecting }
  pc : root.pc = .collecting ∧ seen.length < n ∨
    (∃ k ≤ n, root.pc = .distributing k) ∧ seen.length = n

/-- The invariant of the run. -/
structure InitInv (eps : Endpoints n) (later : Calls n) (capacity : ℕ → ℕ) (st : InitState) :
    Prop where
  /-- a rank that has reported waits at the root or has been read -/
  reports : ∃ seen, HasRead eps seen st.root ∧ (seen ++ st.toRoot).Nodup ∧
    (∀ r ∈ seen ++ st.toRoot, r < n) ∧
      ∀ r < n, (st.rank r).pc ≠ .listening ↔ r ∈ seen ++ st.toRoot
  /-- the root sends every rank the address of its successor, once -/
  handed : ∀ q < n, (st.rank q).nextAddr.toList ++ st.fromRoot q
    = if q < st.root.sentTo then [eps.listen (succRank n q)] else []
  waiting : ∀ q < n, (st.rank q).pc = .listening ∨ (st.rank q).pc = .reported →
    (st.rank q).nextAddr = none
  /-- messages come only when all have accepted -/
  links : ∀ q < n, ∀ link ∈ st.inFlight q ++ st.backlog q,
    (∃ r < n, link = .ring r ∧ q = succRank n r) ∨ AllReady n st
  received : ∀ q < n, ∀ link, (st.rank q).ringRecv = some link → link = .ring (predRank n q)
  gate : ∀ r < n, (st.rank r).pc ≠ .ready → st.ring.rank r = RingState.init.rank r
  ring : RingReachable (eps.calls later) capacity st.ring
  tables : ∀ r < n, ∀ table, (st.rank r).peerAddrs = some table →
    AllReady n st ∧ HoldsAddresses eps table

section Reports

variable {eps : Endpoints n} {seen : List ℕ} {root : RootState} {r : ℕ}

theorem HasRead.init (hn : 0 < n) : HasRead eps [] RootState.init where
  stored := by
    rw [if_neg (by rw [List.length_nil]; omega)]
    exact Stored.init (by omega)
  pc := Or.inl ⟨rfl, hn⟩

/-- Reports of different ranks agree. -/
theorem agreeing_reports (hread : seen.Nodup) (hlt : ∀ r ∈ seen, r < n) :
    Agreeing eps.version n (seen.map eps.report) where
  fits info hinfo := by
    obtain ⟨r, hr, rfl⟩ := List.mem_map.mp hinfo
    have hrn := hlt r hr
    have hpos : 0 ≤ (r : ℤ) := by omega
    have hlt' : (r : ℤ) < n := by omega
    exact ⟨rfl, rfl, hpos, hlt'⟩
  distinct := by
    rw [List.map_map]
    exact hread.map Nat.cast_injective

/-- A root that collects has stored what it has read. -/
theorem HasRead.collecting (h : HasRead eps seen root) (hpc : root.pc = .collecting) :
    Stored n (seen.map eps.report) root ∧ seen.length < n := by
  rcases h.pc with ⟨_, hlt⟩ | ⟨⟨k, _, hk⟩, _⟩
  · have hstored := h.stored
    rw [if_neg (by omega), ← hpc] at hstored
    exact ⟨hstored, hlt⟩
  · rw [hpc] at hk
    cases hk

/-- One more report is stored. -/
theorem HasRead.read (h : HasRead eps seen root) (hpc : root.pc = .collecting)
    (hread : (seen ++ [r]).Nodup) (hlt : ∀ q ∈ seen ++ [r], q < n) :
    HasRead eps (seen ++ [r]) (rootRead eps.version root (eps.report r)) ∧
      (rootRead eps.version root (eps.report r)).sentTo = 0 := by
  obtain ⟨hstored, hless⟩ := h.collecting hpc
  have hagree : Agreeing eps.version n _ := agreeing_reports hread hlt
  rw [List.map_append] at hagree
  have hnext := hstored.read (by rw [List.length_map]; omega) hagree
  have hlen : (seen ++ [r]).length = seen.length + 1 := List.length_append
  have hmap : seen.map eps.report ++ [eps.report r] = (seen ++ [r]).map eps.report := by
    rw [List.map_append]
    rfl
  rw [hmap] at hnext
  have hpc' := hnext.pc
  rw [List.length_map] at hpc'
  by_cases hfull : (seen ++ [r]).length = n
  · rw [if_pos (by omega)] at hpc'
    refine ⟨⟨?_, Or.inr ⟨⟨0, Nat.zero_le _, hpc'⟩, hfull⟩⟩, ?_⟩
    · rw [if_pos hfull, ← hpc']
      exact hnext
    · unfold RootState.sentTo
      rw [hpc']
  · rw [if_neg (by omega)] at hpc'
    refine ⟨⟨?_, Or.inl ⟨hpc', by omega⟩⟩, ?_⟩
    · rw [if_neg hfull, ← hpc']
      exact hnext
    · unfold RootState.sentTo
      rw [hpc']

/-- What the root sends while it distributes. -/
theorem HasRead.distributing (h : HasRead eps seen root) {k : ℕ}
    (hpc : root.pc = .distributing k) (hn : 0 < n) :
    seen.length = n ∧ root.c = n ∧ root.nranks = n ∧
      ∀ r ∈ seen, root.rankAddrsRoot r = eps.listenRoot r ∧ root.rankAddrs r = eps.listen r := by
  rcases h.pc with ⟨hcollecting, _⟩ | ⟨_, hlen⟩
  · rw [hpc] at hcollecting
    cases hcollecting
  · refine ⟨hlen, ?_, ?_, ?_⟩
    · have hc := h.stored.c
      rw [List.length_map, hlen] at hc
      exact hc
    · rcases h.stored.opened with hnil | hopened
      · rw [List.map_eq_nil_iff.mp hnil] at hlen
        exact absurd hlen (by rw [List.length_nil]; omega)
      · exact hopened.1
    · intro r hr
      exact h.stored.addr (eps.report r) (List.mem_map_of_mem hr)

/-- `n` different ranks are all ranks. -/
theorem mem_of_length_eq (hread : seen.Nodup) (hlt : ∀ r ∈ seen, r < n) (hlen : seen.length = n)
    (hr : r < n) : r ∈ seen := by
  have hsub : seen.toFinset ⊆ Finset.range n := by
    intro q hq
    exact Finset.mem_range.mpr (hlt q (List.mem_toFinset.mp hq))
  have hcard : (Finset.range n).card ≤ seen.toFinset.card := by
    rw [List.toFinset_card_of_nodup hread, hlen, Finset.card_range]
  have heq := Finset.eq_of_subset_of_card_le hsub hcard
  rw [← List.mem_toFinset, heq]
  exact Finset.mem_range.mpr hr

end Reports

/-! ## Every step keeps the invariant -/

section Steps

variable {eps : Endpoints n} {later : Calls n} {capacity : ℕ → ℕ} {st st' : InitState} {r q : ℕ}
  {rs : InitRank}

theorem InitState.setRank_self : (st.setRank r rs).rank r = rs := Function.update_self ..

theorem InitState.setRank_of_ne (hq : q ≠ r) : (st.setRank r rs).rank q = st.rank q :=
  Function.update_of_ne hq ..

/-- What holds of all ranks still does when it holds of the one that has moved. -/
theorem InitState.forall_setRank {P : ℕ → InitRank → Prop}
    (h : ∀ q < n, P q (st.rank q)) (hr : P r rs) :
    ∀ q < n, P q ((st.setRank r rs).rank q) := by
  intro q hq
  by_cases hqr : q = r
  · rw [hqr, InitState.setRank_self]
    exact hr
  · rw [InitState.setRank_of_ne hqr]
    exact h q hq

/-- A rank that keeps its next address leaves the addresses that have been handed out. -/
theorem InitInv.handed_setRank (h : InitInv eps later capacity st) (hr : r < n)
    (hnext : rs.nextAddr = (st.rank r).nextAddr) :
    ∀ q < n, ((st.setRank r rs).rank q).nextAddr.toList ++ st.fromRoot q
      = if q < st.root.sentTo then [eps.listen (succRank n q)] else [] := by
  apply InitState.forall_setRank
    (P := fun q rs => rs.nextAddr.toList ++ st.fromRoot q
      = if q < st.root.sentTo then [eps.listen (succRank n q)] else []) h.handed
  rw [hnext]
  exact h.handed r hr

theorem not_allReady (hr : r < n) (hpc : (st.rank r).pc ≠ .ready) : ¬ AllReady n st :=
  fun hall => hpc (hall r hr)

/-- Nobody has returned while a rank has not accepted its predecessor. -/
theorem InitInv.no_table (h : InitInv eps later capacity st) (hr : r < n)
    (hpc : (st.rank r).pc ≠ .ready) : ∀ q < n, (st.rank q).peerAddrs = none := by
  intro q hq
  cases htable : (st.rank q).peerAddrs with
  | none => rfl
  | some table => exact absurd (h.tables q hq table htable).1 (not_allReady hr hpc)

/-- The invariant holds at the start. -/
theorem InitInv.init (hn : 0 < n) : InitInv eps later capacity InitState.init where
  reports := by
    refine ⟨[], HasRead.init hn, List.nodup_nil, ?_, ?_⟩
    · intro r hr
      exact absurd hr List.not_mem_nil
    · intro r _
      exact ⟨fun hne => absurd rfl hne, fun hr => absurd hr List.not_mem_nil⟩
  handed _ _ := rfl
  waiting _ _ _ := rfl
  links _ _ _ hlink := absurd hlink List.not_mem_nil
  received _ _ _ hlink := by cases hlink
  gate _ _ _ := rfl
  ring := .init
  tables _ _ _ htable := by cases htable

/-- A rank that is not ready moves on. -/
theorem InitInv.of_move (h : InitInv eps later capacity st) (rs : InitRank) (hr : r < n)
    (hpc : (st.rank r).pc ≠ .ready)
    (hrecv : ∀ link, rs.ringRecv = some link → link = .ring (predRank n r))
    (hpeer : rs.peerAddrs = (st.rank r).peerAddrs)
    (hranks : st'.rank = (st.setRank r rs).rank) (hring : st'.ring = st.ring)
    (hreports : ∃ seen, HasRead eps seen st'.root ∧ (seen ++ st'.toRoot).Nodup ∧
      (∀ r ∈ seen ++ st'.toRoot, r < n) ∧
        ∀ r < n, (st'.rank r).pc ≠ .listening ↔ r ∈ seen ++ st'.toRoot)
    (hhanded : ∀ q < n, (st'.rank q).nextAddr.toList ++ st'.fromRoot q
      = if q < st'.root.sentTo then [eps.listen (succRank n q)] else [])
    (hwaiting : rs.pc = .listening ∨ rs.pc = .reported → rs.nextAddr = none)
    (hlinks : ∀ q < n, ∀ link ∈ st'.inFlight q ++ st'.backlog q,
      link ∈ st.inFlight q ++ st.backlog q ∨ ∃ p < n, link = .ring p ∧ q = succRank n p) :
    InitInv eps later capacity st' where
  reports := hreports
  handed := hhanded
  waiting := by
    rw [hranks]
    exact InitState.forall_setRank
      (P := fun _ rs => rs.pc = .listening ∨ rs.pc = .reported → rs.nextAddr = none)
      h.waiting hwaiting
  links q hq link hlink := by
    left
    rcases hlinks q hq link hlink with hold | hnew
    · rcases h.links q hq link hold with hring | hall
      · exact hring
      · exact absurd hall (not_allReady hr hpc)
    · exact hnew
  received := by
    rw [hranks]
    exact InitState.forall_setRank
      (P := fun q rs => ∀ link, rs.ringRecv = some link → link = .ring (predRank n q))
      h.received hrecv
  gate := by
    rw [hranks, hring]
    apply InitState.forall_setRank
      (P := fun q rs => rs.pc ≠ .ready → st.ring.rank q = RingState.init.rank q) h.gate
    exact fun _ => h.gate r hr hpc
  ring := by
    rw [hring]
    exact h.ring
  tables := by
    -- no rank has a table as long as this one is not ready
    have hnone : ∀ q < n, (st'.rank q).peerAddrs = none := by
      rw [hranks]
      apply InitState.forall_setRank (P := fun _ rs => rs.peerAddrs = none)
        (h.no_table hr hpc)
      rw [hpeer]
      exact h.no_table hr hpc r hr
    intro q hq table htable
    rw [hnone q hq] at htable
    cases htable

/-- The reports that have been made when rank `r`, which has reported, moves on. -/
theorem InitInv.reports_of_move (h : InitInv eps later capacity st) (hr : r < n)
    (hpc : (st.rank r).pc ≠ .listening) (hpc' : rs.pc ≠ .listening) :
    ∃ seen, HasRead eps seen st.root ∧ (seen ++ st.toRoot).Nodup ∧
      (∀ r ∈ seen ++ st.toRoot, r < n) ∧
        ∀ q < n, ((st.setRank r rs).rank q).pc ≠ .listening ↔ q ∈ seen ++ st.toRoot := by
  obtain ⟨seen, hread, hnodup, hlt, hmem⟩ := h.reports
  refine ⟨seen, hread, hnodup, hlt, ?_⟩
  apply InitState.forall_setRank
    (P := fun q rs => rs.pc ≠ .listening ↔ q ∈ seen ++ st.toRoot) hmem
  exact ⟨fun _ => (hmem r hr).mp hpc, fun _ => hpc'⟩

/-- A report keeps it. -/
theorem InitInv.report (h : InitInv eps later capacity st) (hr : r < n)
    (hpc : (st.rank r).pc = .listening) :
    InitInv eps later capacity { st.setRank r { st.rank r with pc := .reported } with
      toRoot := st.toRoot ++ [r] } := by
  have hnone := h.waiting r hr (Or.inl hpc)
  apply h.of_move { st.rank r with pc := .reported } hr
  · rw [hpc]
    exact fun heq => by cases heq
  · exact h.received r hr
  · rfl
  · rfl
  · rfl
  · obtain ⟨seen, hread, hnodup, hlt, hmem⟩ := h.reports
    have hfresh : r ∉ seen ++ st.toRoot := fun hin => (hmem r hr).mpr hin hpc
    refine ⟨seen, hread, ?_, ?_, ?_⟩
    · show (seen ++ (st.toRoot ++ [r])).Nodup
      rw [← List.append_assoc]
      exact hnodup.append (List.nodup_singleton _) (List.disjoint_singleton.mpr hfresh)
    · intro q hq
      rw [← List.append_assoc] at hq
      rcases List.mem_append.mp hq with hq | hq
      · exact hlt q hq
      · rw [List.mem_singleton.mp hq]
        exact hr
    · intro q hq
      show ((st.setRank r _).rank q).pc ≠ .listening ↔ q ∈ seen ++ (st.toRoot ++ [r])
      rw [← List.append_assoc, List.mem_append, List.mem_singleton]
      by_cases hqr : q = r
      · rw [hqr, InitState.setRank_self]
        exact ⟨fun _ => Or.inr rfl, fun _ heq => by cases heq⟩
      · rw [InitState.setRank_of_ne hqr, hmem q hq]
        exact ⟨Or.inl, fun hor => hor.resolve_right hqr⟩
  · exact h.handed_setRank hr rfl
  · exact fun _ => hnone
  · exact fun q _ link hlink => Or.inl hlink

theorem InitInv.acceptRoot (h : InitInv eps later capacity st) (hr : r < n) {next : SockAddr}
    {rest : List SockAddr} (hpc : (st.rank r).pc = .reported)
    (hsent : st.fromRoot r = next :: rest) :
    InitInv eps later capacity
      { st.setRank r { st.rank r with
          pc := .informed
          nextAddr := some next } with
        fromRoot := Function.update st.fromRoot r rest } := by
  have hnone := h.waiting r hr (Or.inr hpc)
  apply h.of_move { st.rank r with
    pc := .informed
    nextAddr := some next } hr
  · rw [hpc]
    exact fun heq => by cases heq
  · exact h.received r hr
  · rfl
  · rfl
  · rfl
  · apply h.reports_of_move hr
    · rw [hpc]
      exact fun heq => by cases heq
    · exact fun heq => by cases heq
  · intro q hq
    have hold := h.handed q hq
    show ((st.setRank r _).rank q).nextAddr.toList ++ Function.update st.fromRoot r rest q = _
    by_cases hqr : q = r
    · rw [hqr, hnone, hsent] at hold
      rw [hqr, InitState.setRank_self, Function.update_self]
      exact hold
    · rw [InitState.setRank_of_ne hqr, Function.update_of_ne hqr]
      exact hold
  · intro hor
    rcases hor with heq | heq <;> cases heq
  · exact fun q _ link hlink => Or.inl hlink

theorem InitInv.connectRing (h : InitInv eps later capacity st) (hr : r < n)
    (hpc : (st.rank r).pc = .informed) (hq : q < n)
    (haddr : (st.rank r).nextAddr = some (eps.listen q)) :
    InitInv eps later capacity { st.setRank r { st.rank r with pc := .linked } with
      inFlight := Function.update st.inFlight q (.ring r :: st.inFlight q) } := by
  -- the address is the successor's
  have hsucc : q = succRank n r := by
    have hhanded := h.handed r hr
    rw [haddr] at hhanded
    by_cases hsent : r < st.root.sentTo
    · rw [if_pos hsent] at hhanded
      exact eps.listen_inj q hq _ (succRank_lt hr) (List.cons.inj hhanded).1
    · rw [if_neg hsent] at hhanded
      cases hhanded
  apply h.of_move { st.rank r with pc := .linked } hr
  · rw [hpc]
    exact fun heq => by cases heq
  · exact h.received r hr
  · rfl
  · rfl
  · rfl
  · apply h.reports_of_move hr
    · rw [hpc]
      exact fun heq => by cases heq
    · exact fun heq => by cases heq
  · exact h.handed_setRank hr rfl
  · intro hor
    rcases hor with heq | heq <;> cases heq
  · intro p hp link hlink
    by_cases hpq : p = q
    · rw [hpq] at hlink ⊢
      have hlink : link ∈ Function.update st.inFlight q (.ring r :: st.inFlight q) q ++ st.backlog q :=
        hlink
      rw [Function.update_self, List.cons_append] at hlink
      rcases List.mem_cons.mp hlink with heq | hold
      · exact Or.inr ⟨r, hr, heq, hsucc⟩
      · exact Or.inl hold
    · left
      have hlink : link ∈ Function.update st.inFlight q (.ring r :: st.inFlight q) p ++ st.backlog p :=
        hlink
      rwa [Function.update_of_ne hpq] at hlink

theorem InitInv.acceptRing (h : InitInv eps later capacity st) (hr : r < n) {link : Link}
    {rest : List Link} (hpc : (st.rank r).pc = .linked) (hbacklog : st.backlog r = link :: rest) :
    InitInv eps later capacity
      { st.setRank r { st.rank r with
          pc := .ready
          ringRecv := some link } with
        backlog := Function.update st.backlog r rest } := by
  have hnot : (st.rank r).pc ≠ .ready := by
    rw [hpc]
    exact fun heq => by cases heq
  -- nobody has returned, so there are only the connections of the ring
  have hlink : link = .ring (predRank n r) := by
    have hmem : link ∈ st.inFlight r ++ st.backlog r := by
      rw [hbacklog]
      exact List.mem_append_right _ List.mem_cons_self
    rcases h.links r hr link hmem with ⟨p, hp, heq, hsucc⟩ | hall
    · rw [heq, ← eq_predRank hp hsucc.symm]
    · exact absurd hall (not_allReady hr hnot)
  apply h.of_move { st.rank r with
    pc := .ready
    ringRecv := some link } hr hnot
  · intro link' heq
    rw [← Option.some.inj heq]
    exact hlink
  · rfl
  · rfl
  · rfl
  · apply h.reports_of_move hr
    · rw [hpc]
      exact fun heq => by cases heq
    · exact fun heq => by cases heq
  · exact h.handed_setRank hr rfl
  · intro hor
    rcases hor with heq | heq <;> cases heq
  · intro p hp other hother
    left
    have hother : other ∈ st.inFlight p ++ Function.update st.backlog r rest p := hother
    by_cases hpr : p = r
    · rw [hpr, Function.update_self] at hother
      rw [hpr, hbacklog]
      exact List.mem_append.mpr ((List.mem_append.mp hother).imp_right (List.mem_cons_of_mem _))
    · rwa [Function.update_of_ne hpr] at hother

theorem InitInv.rootRead (h : InitInv eps later capacity st) {rest : List ℕ}
    (hpc : st.root.pc = .collecting) (hqueue : st.toRoot = r :: rest) :
    InitInv eps later capacity { st with
      root := rootRead eps.version st.root (eps.report r)
      toRoot := rest } := by
  obtain ⟨seen, hread, hnodup, hlt, hmem⟩ := h.reports
  have hsplit : seen ++ st.toRoot = (seen ++ [r]) ++ rest := by
    rw [hqueue, List.append_assoc]
    rfl
  rw [hsplit] at hnodup hlt
  simp only [hsplit] at hmem
  obtain ⟨hnext, hsent⟩ := hread.read hpc hnodup.of_append_left
    fun q hq => hlt q (List.mem_append_left _ hq)
  have hbefore : st.root.sentTo = 0 := by
    unfold RootState.sentTo
    rw [hpc]
  refine ⟨⟨seen ++ [r], hnext, hnodup, hlt, hmem⟩, ?_, h.waiting, h.links, h.received, h.gate, h.ring,
    h.tables⟩
  intro q hq
  have hold := h.handed q hq
  rw [hbefore] at hold
  show (st.rank q).nextAddr.toList ++ st.fromRoot q = _
  rw [hsent]
  exact hold

theorem InitInv.rootSend (h : InitInv eps later capacity st) (hpc : st.root.pc = .distributing r)
    (hr : (r : ℤ) < st.root.nranks) (hq : q < n)
    (haddr : eps.listenRoot q = st.root.rankAddrsRoot r) :
    InitInv eps later capacity { st with
      root := { st.root with pc := .distributing (r + 1) }
      fromRoot := Function.update st.fromRoot q
        (st.fromRoot q ++ [st.root.rankAddrs ((r + 1) % st.root.nranks.toNat)]) } := by
  obtain ⟨seen, hread, hnodup, hlt, hmem⟩ := h.reports
  obtain ⟨hlen, hc, hnranks, haddrs⟩ := hread.distributing hpc (by omega)
  have hrn : r < n := by omega
  have hall : ∀ p < n, p ∈ seen := fun p hp =>
    mem_of_length_eq hnodup.of_append_left
      (fun q hq => hlt q (List.mem_append_left _ hq)) hlen hp
  have hqr : q = r := by
    rw [(haddrs r (hall r hrn)).1] at haddr
    exact eps.listenRoot_inj q hq r hrn haddr
  have hnext : st.root.rankAddrs ((r + 1) % st.root.nranks.toNat) = eps.listen (succRank n r) := by
    rw [hnranks, Int.toNat_natCast]
    exact (haddrs _ (hall _ (succRank_lt hrn))).2
  have hbefore : st.root.sentTo = r := by
    unfold RootState.sentTo
    rw [hpc]
  refine ⟨⟨seen, ⟨hread.stored, Or.inr ⟨⟨r + 1, hrn, rfl⟩, hlen⟩⟩, hnodup, hlt, hmem⟩, ?_, h.waiting,
    h.links, h.received, h.gate, h.ring, h.tables⟩
  intro p hp
  have hold := h.handed p hp
  rw [hbefore] at hold
  show (st.rank p).nextAddr.toList ++ Function.update st.fromRoot q _ p
    = if p < r + 1 then _ else _
  by_cases hpr : p = r
  · rw [hpr, if_neg (Nat.lt_irrefl r)] at hold
    rw [hpr, hqr, Function.update_self, ← List.append_assoc, hold, if_pos (Nat.lt_succ_self r),
      hnext]
    rfl
  · rw [Function.update_of_ne (fun heq => hpr (heq.trans hqr)), hold]
    exact if_congr (by omega) rfl rfl

theorem InitInv.arrive (h : InitInv eps later capacity st) {link : Link}
    (hlink : link ∈ st.inFlight q) :
    InitInv eps later capacity { st with
      inFlight := Function.update st.inFlight q ((st.inFlight q).erase link)
      backlog := Function.update st.backlog q (st.backlog q ++ [link]) } := by
  refine ⟨h.reports, h.handed, h.waiting, ?_, h.received, h.gate, h.ring, h.tables⟩
  intro p hp other hother
  apply h.links p hp other
  have hother : other ∈ Function.update st.inFlight q ((st.inFlight q).erase link) p
      ++ Function.update st.backlog q (st.backlog q ++ [link]) p := hother
  by_cases hpq : p = q
  · rw [hpq, Function.update_self, Function.update_self] at hother
    rw [hpq]
    rcases List.mem_append.mp hother with hfly | hback
    · exact List.mem_append_left _ (List.mem_of_mem_erase hfly)
    · rcases List.mem_append.mp hback with hold | hnew
      · exact List.mem_append_right _ hold
      · rw [List.mem_singleton.mp hnew]
        exact List.mem_append_left _ hlink
  · rwa [Function.update_of_ne hpq, Function.update_of_ne hpq] at hother

theorem InitInv.message (h : InitInv eps later capacity st) (hr : r < n)
    (hdone : (st.rank r).peerAddrs ≠ none) :
    InitInv eps later capacity { st with
      inFlight := Function.update st.inFlight q (.message r :: st.inFlight q) } := by
  obtain ⟨table, htable⟩ := Option.ne_none_iff_exists'.mp hdone
  refine ⟨h.reports, h.handed, h.waiting, ?_, h.received, h.gate, h.ring, h.tables⟩
  exact fun _ _ _ _ => Or.inr (h.tables r hr table htable).1

theorem afterGather_pc (ring : RankState) : (afterGather rs ring).pc = rs.pc := by
  unfold afterGather
  split <;> rfl

theorem afterGather_nextAddr (ring : RankState) : (afterGather rs ring).nextAddr = rs.nextAddr := by
  unfold afterGather
  split <;> rfl

theorem afterGather_ringRecv (ring : RankState) : (afterGather rs ring).ringRecv = rs.ringRecv := by
  unfold afterGather
  split <;> rfl

/-- What the first allgather returns with. -/
theorem holdsAddresses_of_returned {ring : RingState} (hring : RingInv (eps.calls later) ring)
    (hr : r < n) (hcalls : (ring.rank r).calls = 1) (hpc : (ring.rank r).pc = .idle) :
    HoldsAddresses eps (ring.rank r).out := by
  intro j hj k
  have hok := hring.rank r hr
  unfold RankOk at hok
  rw [hpc] at hok
  have hholds := hok 0 hcalls j hj k k.isLt
  show (ring.rank r).out (j * (eps.calls later).len 0 + k) = _
  rw [hholds]
  show eps.peerAddrs j (j * sockAddrSize + k) = _
  have hdiv : (j * sockAddrSize + k) / sockAddrSize = j := by
    rw [Nat.mul_comm, Nat.mul_add_div (by decide), Nat.div_eq_of_lt k.isLt, Nat.add_zero]
  have hmod : (j * sockAddrSize + k) % sockAddrSize = k := by
    rw [Nat.mul_comm, Nat.mul_add_mod, Nat.mod_eq_of_lt k.isLt]
  unfold Endpoints.peerAddrs
  rw [if_pos hdiv]
  congr 1
  exact Fin.ext hmod

/-- A step of the gathering keeps the invariant. -/
theorem InitInv.gather (h : InitInv eps later capacity st) {ring : RingState}
    (hpc : (st.rank r).pc = .ready) (hrecv : (st.rank r).ringRecv = some (.ring q))
    (hstep : RankStep (eps.calls later) capacity q r st.ring ring) :
    InitInv eps later capacity
      { st.setRank r (afterGather (st.rank r) (ring.rank r)) with ring := ring } := by
  have hr := hstep.lt
  -- it receives from its predecessor, as in the ring
  have hsource : q = predRank n r := by
    have heq := h.received r hr _ hrecv
    cases heq
    rfl
  rw [hsource] at hstep
  have hreach := h.ring.step ⟨r, hstep⟩
  have hpcs : ∀ p, ((st.setRank r (afterGather (st.rank r) (ring.rank r))).rank p).pc
      = (st.rank p).pc := by
    intro p
    by_cases hpr : p = r
    · rw [hpr, InitState.setRank_self, afterGather_pc]
    · rw [InitState.setRank_of_ne hpr]
  have hgate : ∀ p < n, (st.rank p).pc ≠ .ready → ring.rank p = RingState.init.rank p := by
    intro p hp hnot
    have hpr : p ≠ r := fun heq => hnot (heq ▸ hpc)
    rw [hstep.frame hpr]
    exact h.gate p hp hnot
  have hready : AllReady n st →
      AllReady n { st.setRank r (afterGather (st.rank r) (ring.rank r)) with ring := ring } := by
    intro hall p hp
    exact (hpcs p).trans (hall p hp)
  refine ⟨?_, ?_, ?_, ?_, ?_, ?_, hreach, ?_⟩
  · apply h.reports_of_move hr
    · rw [hpc]
      exact fun heq => by cases heq
    · rw [afterGather_pc, hpc]
      exact fun heq => by cases heq
  · exact h.handed_setRank hr (afterGather_nextAddr ..)
  · apply InitState.forall_setRank
      (P := fun _ rs => rs.pc = .listening ∨ rs.pc = .reported → rs.nextAddr = none) h.waiting
    rw [afterGather_pc, afterGather_nextAddr]
    exact h.waiting r hr
  · intro p hp link hlink
    exact (h.links p hp link hlink).imp_right hready
  · apply InitState.forall_setRank
      (P := fun q rs => ∀ link, rs.ringRecv = some link → link = .ring (predRank n q)) h.received
    rw [afterGather_ringRecv]
    exact h.received r hr
  · intro p hp hnot
    exact hgate p hp ((hpcs p) ▸ hnot)
  · intro p hp table htable
    have htable : ((st.setRank r (afterGather (st.rank r) (ring.rank r))).rank p).peerAddrs
        = some table := htable
    by_cases hpr : p = r
    · rw [hpr, InitState.setRank_self] at htable
      unfold afterGather at htable
      by_cases hreturned : (st.rank r).peerAddrs.isNone ∧ (ring.rank r).calls = 1 ∧
          (ring.rank r).pc = .idle
      · rw [if_pos hreturned] at htable
        cases htable
        obtain ⟨_, hcalls, hidle⟩ := hreturned
        refine ⟨hready ?_, holdsAddresses_of_returned hreach.inv hr hcalls hidle⟩
        -- all have called, so all were ready
        intro p hp
        by_contra hnot
        have hentered := hreach.inv.all_entered hr (by rw [hcalls]) hp
        rw [hgate p hp hnot] at hentered
        exact hentered.elim (fun hne => hne rfl) fun hne => hne rfl
      · rw [if_neg hreturned] at htable
        obtain ⟨hall, hholds⟩ := h.tables r hr table htable
        exact ⟨hready hall, hholds⟩
    · rw [InitState.setRank_of_ne hpr] at htable
      obtain ⟨hall, hholds⟩ := h.tables p hp table htable
      exact ⟨hready hall, hholds⟩

theorem InitInv.step (h : InitInv eps later capacity st)
    (hstep : InitStep eps later capacity st st') : InitInv eps later capacity st' := by
  cases hstep with
  | report hr hpc => exact h.report hr hpc
  | rootRead hpc hqueue => exact h.rootRead hpc hqueue
  | rootSend hpc hr hq haddr => exact h.rootSend hpc hr hq haddr
  | acceptRoot hr hpc hsent => exact h.acceptRoot hr hpc hsent
  | connectRing hr hpc hq haddr => exact h.connectRing hr hpc hq haddr
  | arrive hq hlink => exact h.arrive hlink
  | acceptRing hr hpc hbacklog => exact h.acceptRing hr hpc hbacklog
  | gather hpc hrecv hstep => exact h.gather hpc hrecv hstep
  | message hr hdone hq => exact h.message hr hdone

theorem InitReachable.inv (hn : 0 < n) (h : InitReachable eps later capacity st) :
    InitInv eps later capacity st := by
  induction h with
  | init => exact InitInv.init hn
  | step _ hstep ih => exact ih.step hstep

end Steps

/-! ## One ring -/

/-- In every state of every run of `n` ranks: the root distributes after all have reported, a rank
gets the address of its successor, accepts its predecessor, and returns with the address of every
rank. Of any reports that the root reads, a duplicate rank, a rank out of range or another number of
ranks among the first makes it distribute nothing. -/
theorem rendezvous_builds_ring (hn : 1 ≤ n) (eps : Endpoints n) (later : Calls n) (capacity : ℕ → ℕ) :
    (∀ st, InitReachable eps later capacity st →
      (∀ k, st.root.pc = .distributing k →
        st.root.c = n ∧ ∀ r < n, (st.rank r).pc ≠ .listening) ∧
      (∀ r < n, ∀ next, (st.rank r).nextAddr = some next → next = eps.listen ((r + 1) % n)) ∧
      (∀ r < n, ∀ link, (st.rank r).ringRecv = some link → link = .ring ((r + n - 1) % n)) ∧
      (∀ r < n, ∀ table, (st.rank r).peerAddrs = some table →
        ∀ j < n, ∀ k : Fin sockAddrSize, table (j * sockAddrSize + k) = eps.listen j k)) ∧
    (∀ (rootVersion : ℤ) (reports : List Report),
      (∀ info ∈ reports, info.extAddressListenRoot ≠ zeroAddr) →
      ((rootRun rootVersion RootState.init reports).pc = .distributing 0 ↔
        ∃ m : ℤ, 0 < m ∧ m ≤ (reports.length : ℤ) ∧
          Agreeing rootVersion m (reports.take m.toNat))) := by
  refine ⟨?_, fun _ reports haddr => rootRun_distributes_iff reports haddr⟩
  intro st hst
  have hinv := hst.inv hn
  refine ⟨?_, ?_, hinv.received, fun r hr table htable => (hinv.tables r hr table htable).2⟩
  · intro k hpc
    obtain ⟨seen, hread, hnodup, hlt, hmem⟩ := hinv.reports
    obtain ⟨hlen, hc, _⟩ := hread.distributing hpc hn
    refine ⟨hc, ?_⟩
    intro r hr
    have hseen : r ∈ seen := mem_of_length_eq hnodup.of_append_left
      (fun q hq => hlt q (List.mem_append_left _ hq)) hlen hr
    exact (hmem r hr).mpr (List.mem_append_left _ hseen)
  · intro r hr next hnext
    have hhanded := hinv.handed r hr
    rw [hnext] at hhanded
    by_cases hsent : r < st.root.sentTo
    · rw [if_pos hsent] at hhanded
      exact (List.cons.inj hhanded).1
    · rw [if_neg hsent] at hhanded
      cases hhanded

/-- Two ranks. -/
def sampleEndpoints : Endpoints 2 where
  version := 1
  listen r := fun _ => if r = 0 then 1 else 2
  listenRoot r := fun _ => if r = 0 then 3 else 4
  listen_inj := by decide +kernel
  listenRoot_inj := by decide +kernel
  listenRoot_ne_zero := by decide +kernel
  fits := by decide

/-- One gathering of one byte of each of the two ranks. -/
def twoRankCalls : Calls 2 where
  len _ := 1
  inPlace r _ := r == 1
  input _ _ _ := 7
  before _ _ _ := 9
  len_pos _ := Nat.one_pos
  fits _ := by decide

/-- Rank 1 has reported first; rank 0 has returned while rank 1 is still gathering. -/
theorem rendezvous_builds_ring_sample : ∃ st table,
    InitReachable sampleEndpoints twoRankCalls (fun _ => 32) st ∧
      (st.rank 0).peerAddrs = some table ∧ (st.rank 1).peerAddrs = none ∧
        table 0 = 1 ∧ table 32 = 2 := by
  have h₀ : InitReachable sampleEndpoints twoRankCalls (fun _ => 32) InitState.init := .init
  have h₁ := h₀.step (.report (r := 1) (by decide) rfl)
  have h₂ := h₁.step (.report (r := 0) (by decide) rfl)
  have h₃ := h₂.step (.rootRead rfl rfl)
  have h₄ := h₃.step (.rootRead rfl rfl)
  have h₅ := h₄.step (.rootSend (r := 0) (q := 0) rfl (by decide) (by decide) rfl)
  have h₆ := h₅.step (.rootSend (r := 1) (q := 1) rfl (by decide) (by decide) rfl)
  have h₇ := h₆.step (.acceptRoot (r := 0) (by decide) rfl rfl)
  have h₈ := h₇.step (.acceptRoot (r := 1) (by decide) rfl rfl)
  have h₉ := h₈.step (.connectRing (r := 0) (q := 1) (by decide) rfl (by decide) rfl)
  have h₁₀ := h₉.step (.connectRing (r := 1) (q := 0) (by decide) rfl (by decide) rfl)
  have h₁₁ := h₁₀.step (.arrive (q := 1) (by decide) List.mem_cons_self)
  have h₁₂ := h₁₁.step (.arrive (q := 0) (by decide) List.mem_cons_self)
  have h₁₃ := h₁₂.step (.acceptRing (r := 0) (by decide) rfl rfl)
  have h₁₄ := h₁₃.step (.acceptRing (r := 1) (by decide) rfl rfl)
  have h₁₅ := h₁₄.step (.gather (r := 0) (q := 1) rfl rfl (.enter (by decide) rfl rfl))
  have h₁₆ := h₁₅.step (.gather (r := 1) (q := 0) rfl rfl (.enter (by decide) rfl rfl))
  have h₁₇ := h₁₆.step (.gather (r := 0) (q := 1) rfl rfl
    (.send (k := 32) (by decide) rfl rfl (by decide) (by decide) (by decide)))
  have h₁₈ := h₁₇.step (.gather (r := 1) (q := 0) rfl rfl
    (.send (k := 32) (by decide) rfl rfl (by decide) (by decide) (by decide)))
  have h₁₉ := h₁₈.step (.gather (r := 0) (q := 1) rfl rfl
    (.recv (k := 32) (by decide) rfl rfl (by decide) (by decide) (by decide)))
  have htable := ((rendezvous_builds_ring (by decide) sampleEndpoints twoRankCalls _).1 _ h₁₉).2.2.2
    0 (by decide) _ rfl
  exact ⟨_, _, h₁₉, rfl, rfl, htable 0 (by decide) ⟨0, by decide⟩, htable 1 (by decide) ⟨0, by decide⟩⟩

/-- Rank 0 says that there is one rank, rank 1 that there are two. -/
def differingReports : List Report :=
  [⟨1, 0, 1, fun _ => 1, fun _ => 3⟩, ⟨1, 1, 2, fun _ => 2, fun _ => 4⟩]

/-- The root has its one report and does not read the other. -/
theorem differing_nranks_distribute : ¬ ∀ reports : List Report,
    (∃ info ∈ reports, ∃ other ∈ reports, info.nranks ≠ other.nranks) →
      ∀ k, (rootRun 1 RootState.init reports).pc ≠ .distributing k := by
  intro h
  have hdiffer : ∃ info ∈ differingReports, ∃ other ∈ differingReports,
      info.nranks ≠ other.nranks := by decide
  exact h differingReports hdiffer 0 (by decide +kernel)

end AscendShmem.UidBootstrap
