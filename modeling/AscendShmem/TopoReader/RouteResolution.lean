import AscendShmem.TopoReader.Routes

/-!
# The entries that a route joins

`Joins` says, from the flattened lists of two ranks and the first one's topology file, which two entries
the route between them leads through: over a mesh link the last entry that claims the local port and the
peer's first one on layer 0 with the remote port, otherwise the first two on one plane. `GetEidRoute`
returns the indexes of these two.
-/

namespace AscendShmem.TopoReader

open Lib

variable {platform : Platform}

/-- The flattened lists of a rank. -/
def Rank.entries (rank : Rank platform) : List (Option RankAddr) :=
  flattened platform rank.rootInfoJson rank.phyId

theorem Rank.holds (rank : Rank platform) : rank.rootInfo.Holds rank.entries :=
  holds_of_parse rank.accepted

/-! ## Which entries are joined -/

/-- An entry at this position parses, to an address with the property. -/
def ParsedAt (entries : List (Option RankAddr)) (p : RankAddr → Prop) (i : ℕ) : Prop :=
  ∃ addr, entries[i]? = some (some addr) ∧ p addr

/-- The instance of the first entry on a layer. -/
def instanceOn (entries : List (Option RankAddr)) (netLayer : UInt32) : Option String :=
  ((parsed entries).find? fun a => a.addr.levelInfo.netLayer = netLayer).map
    fun a => a.addr.levelInfo.netInstanceId

/-- The ranks are on one layer 0 instance, and a mesh link joins these ports. -/
def Linked (me peer : Rank platform) (localPort remotePort : String) : Prop :=
  (∃ name, name ≠ "" ∧ instanceOn me.entries 0 = some name ∧ instanceOn peer.entries 0 = some name) ∧
    meshPorts me.topoInfo me.rootInfo.localId peer.rootInfo.localId = some (localPort, remotePort)

/-- Two entries are joined by a mesh link. -/
def MeshJoins (me peer : Rank platform) (i j : ℕ) : Prop :=
  ∃ localPort remotePort, Linked me peer localPort remotePort ∧
    IsGreatest {k | ParsedAt me.entries (fun addr => localPort ∈ addr.ports) k} i ∧
    IsLeast {k | ParsedAt peer.entries
      (fun addr => addr.levelInfo.netLayer = 0 ∧ remotePort ∈ addr.ports) k} j

/-- Two addresses on one plane. -/
def OnePlane (mine theirs : RankAddr) : Prop :=
  mine.levelInfo.netLayer = theirs.levelInfo.netLayer ∧
    mine.levelInfo.netInstanceId = theirs.levelInfo.netInstanceId ∧
    mine.planeId = theirs.planeId ∧ mine.levelInfo.netInstanceId ≠ ""

instance (mine theirs : RankAddr) : Decidable (OnePlane mine theirs) :=
  inferInstanceAs (Decidable (_ ∧ _ ∧ _ ∧ _))

/-- Two entries are on one plane. -/
def SharePlane (me peer : Rank platform) (i j : ℕ) : Prop :=
  ParsedAt me.entries (fun mine => ParsedAt peer.entries (OnePlane mine) j) i

/-- The first two entries on one plane. -/
def PlaneJoins (me peer : Rank platform) (i j : ℕ) : Prop :=
  SharePlane me peer i j ∧
    ∀ i' j', SharePlane me peer i' j' → i < i' ∨ i = i' ∧ j ≤ j'

/-- Two entries are joined by a mesh link, or by a plane if the ranks have no mesh link. -/
def Joins (me peer : Rank platform) (i j : ℕ) : Prop :=
  MeshJoins me peer i j ∨ (¬ ∃ i' j', MeshJoins me peer i' j') ∧ PlaneJoins me peer i j

/-! ## Searches of the parsed entries -/

/-- The parsed addresses as a set. -/
def parsedSet (entries : List (Option RankAddr)) : OrderedSet SharedAddr.object :=
  ⟨parsed entries, parsed_sorted entries⟩

/-- The first parsed address with a property. -/
theorem find?_parsed {entries : List (Option RankAddr)} {p : RankAddr → Prop} [DecidablePred p]
    {a : SharedAddr} : ((parsed entries).find? fun b => p b.addr) = some a ↔
      entries[a.object]? = some (some a.addr) ∧ IsLeast {k | ParsedAt entries p k} a.object := by
  refine (OrderedSet.first_eq_some (s := parsedSet entries)).trans ?_
  constructor
  · rintro ⟨hmem, hp, hmin⟩
    have hget := mem_parsed.mp hmem
    refine ⟨hget, ⟨a.addr, hget, hp⟩, ?_⟩
    rintro k ⟨addr, hk, hpk⟩
    exact hmin ⟨k, addr⟩ (mem_parsed.mpr hk) hpk
  · rintro ⟨hget, ⟨addr, haddr, hp⟩, hmin⟩
    obtain rfl : a.addr = addr := by rw [hget] at haddr; simpa using haddr
    refine ⟨mem_parsed.mpr hget, hp, fun b hb hpb => ?_⟩
    exact hmin ⟨b.addr, mem_parsed.mp hb, hpb⟩

/-- A port is claimed by the last address with it. -/
theorem claimer_eq_some {entries : List (Option RankAddr)} {port : String} {a : SharedAddr} :
    claimer entries port = some a ↔ entries[a.object]? = some (some a.addr) ∧
      IsGreatest {k | ParsedAt entries (fun addr => port ∈ addr.ports) k} a.object := by
  refine (OrderedSet.last_eq_some (s := parsedSet entries)).trans ?_
  constructor
  · rintro ⟨hmem, hp, hmax⟩
    have hget := mem_parsed.mp hmem
    refine ⟨hget, ⟨a.addr, hget, hp⟩, ?_⟩
    rintro k ⟨addr, hk, hpk⟩
    exact hmax ⟨k, addr⟩ (mem_parsed.mpr hk) hpk
  · rintro ⟨hget, ⟨addr, haddr, hp⟩, hmax⟩
    obtain rfl : a.addr = addr := by rw [hget] at haddr; simpa using haddr
    refine ⟨mem_parsed.mpr hget, hp, fun b hb hpb => ?_⟩
    exact hmax ⟨b.addr, mem_parsed.mp hb, hpb⟩

theorem claimer_mem {entries : List (Option RankAddr)} {port : String} {a : SharedAddr}
    (h : claimer entries port = some a) : a ∈ parsed entries :=
  mem_parsed.mpr (claimer_eq_some.mp h).1

/-! ## The querier's tables -/

section Tables

variable {root : RootInfo} {entries : List (Option RankAddr)} (h : root.Holds entries)
  (hidx : Indexable entries)

include h hidx

theorem localEndpoints_eq :
    localEndpoints root = (parsed entries).map fun a => syncEndpoint (entryOf a) := by
  rw [localEndpoints, h.index hidx, List.map_map]
  rfl

theorem mem_eidIndexToRankAddr {entry : EidEntry} :
    entry ∈ root.eidIndexToRankAddr ↔ ∃ a ∈ parsed entries, entryOf a = entry := by
  rw [OrderedSet.mem_def, h.index hidx, List.mem_map]

/-- A local port resolves to its claimer. -/
theorem resolveLocalEidByPort_eq (port : String) : resolveLocalEidByPort root port
    = (claimer entries port).map fun a => (UInt32.ofNat a.object, a.addr.eidData) := by
  rw [resolveLocalEidByPort, h.ports]
  rcases hclaimer : claimer entries port with _ | a
  · rfl
  · -- no two entries share an object
    have hmem := claimer_mem hclaimer
    have hfind : ((parsed entries).map entryOf).find?
        (fun item => item.rankAddr.object = a.object) = some (entryOf a) := by
      have hfirst : (parsed entries).find? (fun b => b.object = a.object) = some a :=
        (OrderedSet.first_eq_some (s := parsedSet entries)).mpr
          ⟨hmem, rfl, fun b _ hb => le_of_eq hb.symm⟩
      rw [List.find?_map]
      exact congrArg (Option.map entryOf) hfirst
    rw [Option.map_some, Option.bind_some, h.index hidx, hfind]
    rfl

/-- A local index resolves to its address. -/
theorem resolveLocalEidByIndex_eq {a : SharedAddr} (ha : a ∈ parsed entries) :
    resolveLocalEidByIndex root (UInt32.ofNat a.object) = some a.addr.eidData := by
  have hfind : root.eidIndexToRankAddr.find (UInt32.ofNat a.object).toNat = some (entryOf a) :=
    OrderedSet.find_eq_some.mpr ⟨(mem_eidIndexToRankAddr h hidx).mpr ⟨a, ha, rfl⟩, rfl⟩
  rw [resolveLocalEidByIndex, hfind]
  rfl

/-- A remote port resolves to the first endpoint with it. -/
theorem resolveEidIndexByPort_eq (port : String) :
    resolveEidIndexByPort (localEndpoints root) port 0
      = ((parsed entries).find? fun a => a.addr.levelInfo.netLayer = 0 ∧ port ∈ a.addr.ports).map
        fun a => UInt32.ofNat a.object := by
  rw [resolveEidIndexByPort, localEndpoints_eq h hidx, List.find?_map, Option.map_map]
  rfl

end Tables

/-! ## What the querier returns -/

/-- The first result is that of the first element that has one. -/
theorem findSome?_eq_some_find? {α β : Type*} (f : α → Option β) (l : List α) (b : β) :
    l.findSome? f = some b ↔ ∃ a, l.find? (fun a => (f a).isSome) = some a ∧ f a = some b := by
  induction l with
  | nil => simp
  | cons a l ih =>
    rcases hf : f a with _ | c
    · simp [hf, ih]
    · simp [hf]

/-- The endpoints of all ranks, as `BuildSyncEndpoints` is to gather them. -/
def endpointsOf (ranks : List (Rank platform)) : List (List SyncEndpoint) :=
  ranks.map fun rank => localEndpoints rank.rootInfo

/-- The instance of a rank on a layer is that of its entries. -/
theorem netInstanceIdAt_eq {ranks : List (Rank platform)} {rank : Rank platform} {k : ℕ}
    (hk : ranks[k]? = some rank) (hidx : Indexable rank.entries) (netLayer : UInt32) :
    netInstanceIdAt (endpointsOf ranks) k netLayer = (instanceOn rank.entries netLayer).getD "" := by
  rw [netInstanceIdAt, endpointsOf, List.getElem?_map, hk, Option.map_some]
  simp only [localEndpoints_eq rank.holds hidx]
  rw [List.find?_map, Option.map_map, instanceOn]
  rfl

/-- Two ranks have the same instance, and one. -/
theorem instances_agree {mine theirs : Option String} :
    ¬ (mine.getD "" = "" ∨ mine.getD "" ≠ theirs.getD "") ↔
      ∃ name, name ≠ "" ∧ mine = some name ∧ theirs = some name := by
  rcases mine with _ | mine
  · simp
  · rcases theirs with _ | theirs
    · simp only [Option.getD_some, Option.getD_none]
      constructor
      · intro h
        exact absurd (not_ne_iff.mp (not_or.mp h).2) (not_or.mp h).1
      · rintro ⟨name, -, -, h⟩
        cases h
    · simp only [Option.getD_some, not_or, not_not, Option.some.injEq]
      constructor
      · rintro ⟨hne, rfl⟩
        exact ⟨mine, hne, rfl, rfl⟩
      · rintro ⟨name, hne, rfl, rfl⟩
        exact ⟨hne, rfl⟩

section Querier

variable {ranks : List (Rank platform)} {me peer : Rank platform} {r p : ℕ}
  (hme : ranks[r]? = some me) (hpeer : ranks[p]? = some peer)
  (hmi : Indexable me.entries) (hpi : Indexable peer.entries)

include hme hpeer hmi hpi

/-- A mesh route is one of a mesh link. -/
theorem getEidRouteMesh1D_eq_some {route : EidRoute} :
    (querier ranks (endpointsOf ranks) me r).getEidRouteMesh1D p = some route ↔
      ∃ i j addr, MeshJoins me peer i j ∧ me.entries[i]? = some (some addr) ∧
        route = ⟨UInt32.ofNat i, addr.eidData, UInt32.ofNat j⟩ := by
  have hmyId : (ranks.map fun rank => rank.rootInfo.localId)[r]? = some me.rootInfo.localId := by
    rw [List.getElem?_map, hme, Option.map_some]
  have hpeerId : (ranks.map fun rank => rank.rootInfo.localId)[p]? = some peer.rootInfo.localId := by
    rw [List.getElem?_map, hpeer, Option.map_some]
  have hends : (endpointsOf ranks)[p]? = some (localEndpoints peer.rootInfo) := by
    rw [endpointsOf, List.getElem?_map, hpeer, Option.map_some]
  simp only [TopoQuerier.getEidRouteMesh1D, querier, netInstanceIdAt_eq hme hmi,
    netInstanceIdAt_eq hpeer hpi, hmyId, hpeerId, hends, Option.bind_eq_bind, Option.bind_some,
    resolveLocalEidByPort_eq me.holds hmi, resolveEidIndexByPort_eq peer.holds hpi]
  constructor
  · intro h
    split at h
    · cases h
    · next hinst =>
      obtain ⟨ports, hports, h⟩ := Option.bind_eq_some_iff.mp h
      obtain ⟨found, hfound, h⟩ := Option.bind_eq_some_iff.mp h
      obtain ⟨a, hclaimer, rfl⟩ := Option.map_eq_some_iff.mp hfound
      obtain ⟨index, hindex, h⟩ := Option.bind_eq_some_iff.mp h
      obtain ⟨b, hfirst, rfl⟩ := Option.map_eq_some_iff.mp hindex
      obtain rfl := Option.some.inj h
      obtain ⟨hget, hlast⟩ := claimer_eq_some.mp hclaimer
      exact ⟨a.object, b.object, a.addr, ⟨ports.1, ports.2, ⟨instances_agree.mp hinst, hports⟩, hlast,
        (find?_parsed.mp hfirst).2⟩, hget, rfl⟩
  · rintro ⟨i, j, addr, ⟨localPort, remotePort, ⟨hinst, hports⟩, hlast, hfirst⟩, hget, rfl⟩
    obtain ⟨theirs, htheirs, -⟩ := hfirst.1
    have hclaimer : claimer me.entries localPort = some ⟨i, addr⟩ := claimer_eq_some.mpr ⟨hget, hlast⟩
    have hfind : ((parsed peer.entries).find? fun a =>
        a.addr.levelInfo.netLayer = 0 ∧ remotePort ∈ a.addr.ports) = some ⟨j, theirs⟩ :=
      (find?_parsed (p := fun addr : RankAddr => addr.levelInfo.netLayer = 0 ∧ remotePort ∈ addr.ports)
        (a := ⟨j, theirs⟩)).mpr ⟨htheirs, hfirst⟩
    rw [if_neg (instances_agree.mpr hinst), hports, Option.bind_some, hclaimer, Option.map_some,
      Option.bind_some, hfind]
    rfl

omit hme hpeer hmi hpi in
/-- The first pair of entries on one plane. -/
theorem findPair_eq_some {q : SharedAddr × SharedAddr} :
    ((parsed me.entries).findSome? fun a =>
      ((parsed peer.entries).find? fun b => OnePlane a.addr b.addr).map fun b => (a, b)) = some q ↔
      PlaneJoins me peer q.1.object q.2.object ∧
        me.entries[q.1.object]? = some (some q.1.addr) ∧
        peer.entries[q.2.object]? = some (some q.2.addr) := by
  -- the outer search stops at the first entry that meets any of the peer's
  let meets (mine : RankAddr) : Prop :=
    ((parsed peer.entries).find? fun b => OnePlane mine b.addr).isSome = true
  have hmeets : ∀ mine, meets mine ↔ ∃ j, ParsedAt peer.entries (OnePlane mine) j := by
    intro mine
    simp only [meets, List.find?_isSome, decide_eq_true_eq]
    constructor
    · rintro ⟨b, hb, hplane⟩
      exact ⟨b.object, b.addr, mem_parsed.mp hb, hplane⟩
    · rintro ⟨j, theirs, hget, hplane⟩
      exact ⟨⟨j, theirs⟩, mem_parsed.mpr hget, hplane⟩
  have hfirst : ∀ a, ((parsed me.entries).find? fun a =>
      (((parsed peer.entries).find? fun b => OnePlane a.addr b.addr).map fun b => (a, b)).isSome) = some a
      ↔ me.entries[a.object]? = some (some a.addr) ∧
        IsLeast {k | ParsedAt me.entries meets k} a.object := by
    intro a
    rw [← find?_parsed]
    simp only [Option.isSome_map, meets, Bool.decide_eq_true]
  rw [findSome?_eq_some_find?]
  constructor
  · rintro ⟨a, ha, hpair⟩
    obtain ⟨b, hb, rfl⟩ := Option.map_eq_some_iff.mp hpair
    obtain ⟨hmine, -, hleast⟩ := (hfirst a).mp ha
    obtain ⟨htheirs, ⟨theirs, htheirs', hplane⟩, hbelow⟩ := find?_parsed.mp hb
    refine ⟨⟨⟨a.addr, hmine, theirs, htheirs', hplane⟩, ?_⟩, hmine, htheirs⟩
    rintro i j ⟨mine, hi, hj⟩
    have hle : a.object ≤ i := hleast ⟨mine, hi, (hmeets mine).mpr ⟨j, hj⟩⟩
    rcases hle.lt_or_eq with hlt | rfl
    · exact Or.inl hlt
    · obtain rfl : a.addr = mine := by rw [hmine] at hi; simpa using hi
      exact Or.inr ⟨rfl, hbelow hj⟩
  · rintro ⟨⟨⟨mine, hi, theirs, hj, hplane⟩, hleast⟩, hmine, htheirs⟩
    obtain rfl : q.1.addr = mine := by rw [hmine] at hi; simpa using hi
    refine ⟨q.1, (hfirst q.1).mpr ⟨hmine, ⟨q.1.addr, hmine, (hmeets _).mpr ⟨_, theirs, hj, hplane⟩⟩, ?_⟩,
      Option.map_eq_some_iff.mpr ⟨q.2, find?_parsed.mpr ⟨htheirs, ⟨theirs, hj, hplane⟩, ?_⟩, rfl⟩⟩
    · rintro i ⟨mine, hi, hmeet⟩
      obtain ⟨j, hj⟩ := (hmeets mine).mp hmeet
      rcases hleast i j ⟨mine, hi, hj⟩ with hlt | ⟨rfl, -⟩
      · exact hlt.le
      · exact le_refl _
    · intro j hj
      rcases hleast q.1.object j ⟨q.1.addr, hmine, hj⟩ with hlt | ⟨-, hle⟩
      · exact absurd hlt (lt_irrefl _)
      · exact hle

/-- A plane route is one of a shared plane. -/
theorem getEidRouteClos_eq_some {route : EidRoute} :
    (querier ranks (endpointsOf ranks) me r).getEidRouteClos p = some route ↔
      ∃ i j addr, PlaneJoins me peer i j ∧ me.entries[i]? = some (some addr) ∧
        route = ⟨UInt32.ofNat i, addr.eidData, UInt32.ofNat j⟩ := by
  have hmyEnds : (endpointsOf ranks)[r]? = some (localEndpoints me.rootInfo) := by
    rw [endpointsOf, List.getElem?_map, hme, Option.map_some]
  have hends : (endpointsOf ranks)[p]? = some (localEndpoints peer.rootInfo) := by
    rw [endpointsOf, List.getElem?_map, hpeer, Option.map_some]
  -- the search over the endpoints is the search over the entries
  have hsearch : ((localEndpoints me.rootInfo).findSome? fun mine =>
      ((localEndpoints peer.rootInfo).find? fun theirs => TopoQuerier.Shares mine theirs).map
        fun theirs => (mine, theirs))
      = ((parsed me.entries).findSome? fun a =>
        ((parsed peer.entries).find? fun b => OnePlane a.addr b.addr).map fun b => (a, b)).map
        fun q => (syncEndpoint (entryOf q.1), syncEndpoint (entryOf q.2)) := by
    rw [localEndpoints_eq me.holds hmi, localEndpoints_eq peer.holds hpi, List.findSome?_map,
      List.map_findSome?]
    congr 1
    funext a
    simp only [Function.comp_apply, List.find?_map, Option.map_map]
    rfl
  simp only [TopoQuerier.getEidRouteClos, querier, hmyEnds, hends, Option.bind_eq_bind,
    Option.bind_some, hsearch]
  constructor
  · intro h
    obtain ⟨pair, hpair, h⟩ := Option.bind_eq_some_iff.mp h
    obtain ⟨q, hq, rfl⟩ := Option.map_eq_some_iff.mp hpair
    obtain ⟨hplane, hmine, htheirs⟩ := findPair_eq_some.mp hq
    obtain ⟨raw, hraw, h⟩ := Option.bind_eq_some_iff.mp h
    have hindex := resolveLocalEidByIndex_eq me.holds hmi (mem_parsed.mpr hmine)
    obtain rfl : q.1.addr.eidData = raw := Option.some.inj (hindex.symm.trans hraw)
    exact ⟨q.1.object, q.2.object, q.1.addr, hplane, hmine, (Option.some.inj h).symm⟩
  · rintro ⟨i, j, addr, hplane, hmine, rfl⟩
    obtain ⟨⟨mine, -, theirs, htheirs, -⟩, -⟩ := id hplane
    have hpair := (findPair_eq_some (q := (⟨i, addr⟩, ⟨j, theirs⟩))).mpr ⟨hplane, hmine, htheirs⟩
    have hindex := resolveLocalEidByIndex_eq me.holds hmi (a := ⟨i, addr⟩) (mem_parsed.mpr hmine)
    rw [hpair, Option.map_some, Option.bind_some]
    exact Option.bind_eq_some_iff.mpr ⟨addr.eidData, hindex, rfl⟩

/-- `GetEidRoute` returns the indexes of the two entries that are joined, with the local EID. -/
theorem getEidRoute_eq_some {route : EidRoute} :
    (querier ranks (endpointsOf ranks) me r).getEidRoute p = some route ↔
      ∃ i j addr, Joins me peer i j ∧ me.entries[i]? = some (some addr) ∧
        route = ⟨UInt32.ofNat i, addr.eidData, UInt32.ofNat j⟩ := by
  have hmesh := @getEidRouteMesh1D_eq_some _ _ _ _ _ _ hme hpeer hmi hpi
  have hclos := @getEidRouteClos_eq_some _ _ _ _ _ _ hme hpeer hmi hpi
  rw [TopoQuerier.getEidRoute]
  rcases hfirst : (querier ranks (endpointsOf ranks) me r).getEidRouteMesh1D p with _ | found
  · -- no mesh route: the planes decide
    have hnone : ¬ ∃ i j, MeshJoins me peer i j := by
      rintro ⟨i, j, hjoins⟩
      obtain ⟨localPort, remotePort, -, ⟨⟨addr, hget, -⟩, -⟩, -⟩ := id hjoins
      have hsome := hmesh.mpr ⟨i, j, addr, hjoins, hget, rfl⟩
      rw [hfirst] at hsome
      cases hsome
    refine hclos.trans ?_
    constructor
    · rintro ⟨i, j, addr, hplane, hget, rfl⟩
      exact ⟨i, j, addr, Or.inr ⟨hnone, hplane⟩, hget, rfl⟩
    · rintro ⟨i, j, addr, hjoins | ⟨-, hplane⟩, hget, rfl⟩
      · exact absurd ⟨i, j, hjoins⟩ hnone
      · exact ⟨i, j, addr, hplane, hget, rfl⟩
  · obtain ⟨i, j, addr, hjoins, hget, hfound⟩ := hmesh.mp hfirst
    constructor
    · intro h
      obtain rfl : found = route := Option.some.inj h
      exact ⟨i, j, addr, Or.inl hjoins, hget, hfound⟩
    · rintro ⟨i', j', addr', hjoins' | ⟨hnone, -⟩, hget', rfl⟩
      · have hsome := hmesh.mpr ⟨i', j', addr', hjoins', hget', rfl⟩
        rw [hfirst] at hsome
        exact hsome
      · exact absurd ⟨i, j, hjoins⟩ hnone

end Querier

end AscendShmem.TopoReader
