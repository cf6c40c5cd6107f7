import AscendShmem.TopoReader.EndpointText
import AscendShmem.TopoReader.RouteResolution

/-!
# EID indexes on all ranks

An index counts every entry of the flattened lists, while the number of slots that `PrepareOpenDevice`
checks a remote index against counts the entries that parsed. The two agree on a route exactly when not
too many entries are skipped in front of the ones that it joins.
-/

namespace AscendShmem.TopoReader

open Lib

variable {platform : Platform}

/-! ## The exchange -/

theorem le_foldl_max_start (l : List ℕ) (start : ℕ) : start ≤ l.foldl max start := by
  induction l generalizing start with
  | nil => exact le_refl _
  | cons b l ih => exact (le_max_left start b).trans (ih (max start b))

/-- A maximum is at least each element. -/
theorem le_foldl_max {l : List ℕ} {a : ℕ} (start : ℕ) (ha : a ∈ l) : a ≤ l.foldl max start := by
  induction l generalizing start with
  | nil => cases ha
  | cons b l ih =>
    rcases List.mem_cons.mp ha with rfl | ha
    · exact (le_max_right start a).trans (le_foldl_max_start l (max start a))
    · exact ih (max start b) ha

/-- A maximum is below what all are below. -/
theorem foldl_max_lt {l : List ℕ} {start bound : ℕ} (hstart : start < bound)
    (h : ∀ a ∈ l, a < bound) : l.foldl max start < bound := by
  induction l generalizing start with
  | nil => exact hstart
  | cons b l ih =>
    exact ih (max_lt hstart (h b List.mem_cons_self)) fun a ha => h a (List.mem_cons_of_mem b ha)

/-- What is decoded is what every rank has sent. -/
theorem mapM_fromMsgpack (codec : Msgpack) (lists : List (List SyncEndpoint)) {maxLen : ℕ}
    (hlt : maxLen < 2 ^ 32)
    (hmax : ∀ endpoints ∈ lists, (codec.toMsgpack endpoints).length ≤ maxLen) :
    ((lists.map codec.toMsgpack).map List.length).zipIdx.mapM (fun p =>
      if p.1 = 0 then some [] else codec.fromMsgpack (slice ((lists.map codec.toMsgpack).flatMap
        fun blob => blob ++ List.replicate (maxLen - blob.length) 0) (p.2 * maxLen) p.1))
      = some lists := by
  have hmap := mapM_eq_some
    (l := ((lists.map codec.toMsgpack).map List.length).zipIdx)
    (g := fun p => lists.getD p.2 []) (f := fun p =>
      if p.1 = 0 then some [] else codec.fromMsgpack (slice ((lists.map codec.toMsgpack).flatMap
        fun blob => blob ++ List.replicate (maxLen - blob.length) 0) (p.2 * maxLen) p.1)) ?_
  · rw [hmap]
    congr 1
    apply List.ext_getElem?
    intro i
    rw [List.getElem?_map, List.getElem?_zipIdx]
    by_cases hi : i < lists.length
    · simp [hi]
    · simp [hi]
  · rintro ⟨len, k⟩ hp
    rw [List.mem_zipIdx_iff_getElem?, List.getElem?_map, List.getElem?_map] at hp
    obtain ⟨blob, hblob, rfl⟩ := Option.map_eq_some_iff.mp hp
    obtain ⟨endpoints, hk, rfl⟩ := Option.map_eq_some_iff.mp hblob
    have hpos : (codec.toMsgpack endpoints).length ≠ 0 := by
      simpa using codec.toMsgpack_ne_nil endpoints
    have hat := bytesAt_flatMap (l := lists.map codec.toMsgpack) (n := maxLen)
      (f := fun blob => blob ++ List.replicate (maxLen - blob.length) 0) ?_
      (show (lists.map codec.toMsgpack)[k]? = some (codec.toMsgpack endpoints) by
        rw [List.getElem?_map, hk, Option.map_some])
    · have hfits := (hmax endpoints (List.mem_of_getElem? hk)).trans_lt hlt
      rw [if_neg hpos, (bytesAt_append.mp hat).1.2, codec.fromMsgpack_toMsgpack endpoints hfits,
        List.getD_eq_getElem?_getD, hk, Option.getD_some]
    · intro blob hblob
      obtain ⟨endpoints, hmem, rfl⟩ := List.mem_map.mp hblob
      have hle := hmax endpoints hmem
      rw [List.length_append, List.length_replicate]
      omega

theorem map_toMsgpack (codec : Msgpack) (ranks : List (Rank platform)) :
    (ranks.map Rank.rootInfo).map (fun root => codec.toMsgpack (localEndpoints root))
      = (endpointsOf ranks).map codec.toMsgpack := by
  rw [endpointsOf, List.map_map, List.map_map]
  rfl

/-- Every rank is sent what all ranks have. -/
theorem eq_of_buildSyncEndpoints {codec : Msgpack} {ranks : List (Rank platform)}
    {gathered : List (List SyncEndpoint)}
    (h : buildSyncEndpoints codec (ranks.map Rank.rootInfo) = some gathered) :
    gathered = endpointsOf ranks := by
  simp only [buildSyncEndpoints] at h
  split at h
  · cases h
  · next hint =>
    split at h
    · cases h
    · rw [map_toMsgpack] at h hint
      rw [mapM_fromMsgpack codec (endpointsOf ranks) (by omega) fun endpoints hmem =>
        le_foldl_max 0 (List.mem_map_of_mem (List.mem_map_of_mem hmem))] at h
      exact (Option.some.inj h).symm

/-- The endpoints of every rank fit the `int` that `allgather` takes. -/
def Gatherable (codec : Msgpack) (ranks : List (Rank platform)) : Prop :=
  ∀ endpoints ∈ endpointsOf ranks, (codec.toMsgpack endpoints).length < 2 ^ 31

/-- If the endpoints are gathered, every rank's can be. -/
theorem gatherable_of_build {codec : Msgpack} {ranks : List (Rank platform)}
    {gathered : List (List SyncEndpoint)}
    (h : buildSyncEndpoints codec (ranks.map Rank.rootInfo) = some gathered) :
    Gatherable codec ranks := by
  simp only [buildSyncEndpoints] at h
  split at h
  · cases h
  · next hint =>
    rw [map_toMsgpack] at hint
    intro endpoints hmem
    have hle := le_foldl_max 0 (List.mem_map_of_mem (f := List.length)
      (List.mem_map_of_mem (f := codec.toMsgpack) hmem))
    omega

/-- If every rank's endpoints can be gathered, they are. -/
theorem buildSyncEndpoints_of_gatherable {codec : Msgpack} {ranks : List (Rank platform)}
    (hne : ranks ≠ []) (h : Gatherable codec ranks) :
    buildSyncEndpoints codec (ranks.map Rank.rootInfo) = some (endpointsOf ranks) := by
  have hlt : (((endpointsOf ranks).map codec.toMsgpack).map List.length).foldl max 0 < 2 ^ 31 := by
    refine foldl_max_lt (by norm_num) fun len hlen => ?_
    obtain ⟨blob, hblob, rfl⟩ := List.mem_map.mp hlen
    obtain ⟨endpoints, hmem, rfl⟩ := List.mem_map.mp hblob
    exact h endpoints hmem
  have hmax : ∀ endpoints ∈ endpointsOf ranks, (codec.toMsgpack endpoints).length
      ≤ (((endpointsOf ranks).map codec.toMsgpack).map List.length).foldl max 0 := fun endpoints hmem =>
    le_foldl_max 0 (List.mem_map_of_mem (List.mem_map_of_mem hmem))
  have hpos : (((endpointsOf ranks).map codec.toMsgpack).map List.length).foldl max 0 ≠ 0 := by
    obtain ⟨rank, rest, rfl⟩ := List.exists_cons_of_ne_nil hne
    have hfirst := hmax (localEndpoints rank.rootInfo) List.mem_cons_self
    have hblob : 0 < (codec.toMsgpack (localEndpoints rank.rootInfo)).length :=
      List.length_pos_iff.mpr (codec.toMsgpack_ne_nil _)
    omega
  simp only [buildSyncEndpoints, map_toMsgpack]
  rw [if_neg (not_le.mpr hlt), if_neg hpos]
  exact mapM_fromMsgpack codec (endpointsOf ranks) (by omega) hmax

/-! ## The number of slots -/

/-- The largest number of entries that parse on one rank. -/
def mostParsed (ranks : List (Rank platform)) : ℕ :=
  (ranks.map fun rank => (parsed rank.entries).length).foldl max 0

/-- The largest count does not wrap. -/
theorem toNat_maxEidCount {ranks : List (Rank platform)}
    (hidx : ∀ rank ∈ ranks, Indexable rank.entries) :
    (maxEidCount ranks).toNat = mostParsed ranks := by
  have hgo : ∀ (start : UInt32) (l : List (Rank platform)), (∀ rank ∈ l, Indexable rank.entries) →
      ((l.map fun rank => rank.rootInfo.totalEidCount).foldl max start).toNat
        = (l.map fun rank => (parsed rank.entries).length).foldl max start.toNat := by
    intro start l
    induction l generalizing start with
    | nil => exact fun _ => rfl
    | cons rank l ih =>
      intro hl
      have hcount := rank.holds.toNat_count (hl rank List.mem_cons_self)
      have hmax : (max start rank.rootInfo.totalEidCount).toNat
          = max start.toNat (parsed rank.entries).length := by
        rw [← hcount]
        by_cases hle : start ≤ rank.rootInfo.totalEidCount
        · have hval : max start rank.rootInfo.totalEidCount = rank.rootInfo.totalEidCount := if_pos hle
          rw [hval, max_eq_right (UInt32.le_iff_toNat_le.mp hle)]
        · have hval : max start rank.rootInfo.totalEidCount = start := if_neg hle
          rw [hval, max_eq_left (not_le.mp fun h => hle (UInt32.le_iff_toNat_le.mpr h)).le]
      rw [List.map_cons, List.foldl_cons, List.map_cons, List.foldl_cons,
        ih _ fun other hmem => hl other (List.mem_cons_of_mem rank hmem), hmax]
  exact hgo 0 ranks hidx

/-! ## The loop over the peers -/

/-- An endpoint of the device is the new one or an older one. -/
theorem Device.mem_createEndpoint {device after : Device} {hcomm : Endpoint → Bool} {endpoint e : Endpoint}
    (h : device.createEndpoint hcomm endpoint = some after) (he : e ∈ after.endpoints) :
    e = endpoint ∨ e ∈ device.endpoints := by
  rw [Device.createEndpoint] at h
  split at h
  · obtain rfl := Option.some.inj h
    exact Or.inr he
  · split at h
    · obtain rfl := Option.some.inj h
      exact (OrderedSet.mem_assign.mp he).imp_right And.left
    · cases h

section Loop

variable {querier : TopoQuerier} {hcomm : Endpoint → Bool} {slots : UInt32} {peers : List ℕ}
  {device : Device}

/-- No route is rejected whose remote index is a slot. -/
theorem connectPeers_ne_remoteEid (hslot : ∀ p ∈ peers, p ≠ querier.myRank → ∀ route,
    querier.getEidRoute p = some route → route.remoteEidIndex < slots) (peer : ℕ) (index : UInt32) :
    (connectPeers querier hcomm slots peers device).2 ≠ some (.remoteEid peer index) := by
  induction peers generalizing device with
  | nil => simp [connectPeers]
  | cons p rest ih =>
    have hrest := fun q hq => hslot q (List.mem_cons_of_mem p hq)
    rw [connectPeers]
    split
    · exact ih hrest
    · next hself =>
      split
      · simp
      · next route hroute =>
        rw [if_neg (UInt32.not_le.mpr (hslot p List.mem_cons_self hself route hroute))]
        split
        · simp
        · exact ih hrest

/-- The endpoints are those of the routes. -/
theorem forall_mem_connectPeers {P : Endpoint → Prop} (hroutes : ∀ p ∈ peers, p ≠ querier.myRank →
    ∀ route, querier.getEidRoute p = some route → P ⟨route.localEidIndex, route.localEidRaw⟩)
    (hdevice : ∀ e ∈ device.endpoints, P e) :
    ∀ e ∈ (connectPeers querier hcomm slots peers device).1.endpoints, P e := by
  induction peers generalizing device with
  | nil => exact hdevice
  | cons p rest ih =>
    have hrest := fun q hq => hroutes q (List.mem_cons_of_mem p hq)
    rw [connectPeers]
    split
    · exact ih hrest hdevice
    · next hself =>
      split
      · exact hdevice
      · next route hroute =>
        split
        · exact hdevice
        · split
          · exact hdevice
          · next after hafter =>
            refine ih hrest fun e he => ?_
            rcases Device.mem_createEndpoint hafter he with rfl | he
            · exact hroutes p List.mem_cons_self hself route hroute
            · exact hdevice e he

end Loop

/-! ## Agreement -/

/-- The route's local index is registered on this rank with the EID returned, the remote one on the peer,
and both are below the number of slots. -/
structure RouteOk (me peer : Rank platform) (slots : UInt32) (route : EidRoute) : Prop where
  localRegistered : ∃ entry ∈ me.rootInfo.eidIndexToRankAddr, entry.eidIndex = route.localEidIndex ∧
    entry.rankAddr.addr.eidData = route.localEidRaw
  remoteRegistered : ∃ entry ∈ peer.rootInfo.eidIndexToRankAddr, entry.eidIndex = route.remoteEidIndex
  localSlot : route.localEidIndex < slots
  remoteSlot : route.remoteEidIndex < slots

/-- An index means the same on every rank: it is the position of its entry, and every route leads through
registered entries below the number of slots, so that `PrepareOpenDevice` rejects no route and makes
endpoints for the EIDs of their own entries only. -/
structure IndexesAgree (codec : Msgpack) (ranks : List (Rank platform)) : Prop where
  position : ∀ rank ∈ ranks, ∀ i addr, rank.entries[i]? = some (some addr) →
    ∃ entry ∈ rank.rootInfo.eidIndexToRankAddr, entry.eidIndex.toNat = i ∧ entry.rankAddr.addr = addr
  registered : ∀ rank ∈ ranks, ∀ entry ∈ rank.rootInfo.eidIndexToRankAddr,
    rank.entries[entry.eidIndex.toNat]? = some (some entry.rankAddr.addr)
  routes : ∀ gathered, buildSyncEndpoints codec (ranks.map Rank.rootInfo) = some gathered →
    ∀ (r p : ℕ) (me peer : Rank platform), r ≠ p → ranks[r]? = some me → ranks[p]? = some peer →
    ∀ route, (querier ranks gathered me r).getEidRoute p = some route →
    RouteOk me peer (maxEidCount ranks) route
  notRejected : ∀ hcomm (r : ℕ) (me : Rank platform), ranks[r]? = some me → ∀ peer index,
    (prepareOpenDevice codec hcomm ranks me r).2 ≠ some (.remoteEid peer index)
  endpoints : ∀ hcomm (r : ℕ) (me : Rank platform), ranks[r]? = some me →
    ∀ endpoint ∈ (prepareOpenDevice codec hcomm ranks me r).1.endpoints,
    ParsedAt me.entries (fun addr => addr.eidData = endpoint.eid) endpoint.eidIndex.toNat

/-- The entries in front of a position that parse, and those that are skipped. -/
def parsedBefore (entries : List (Option RankAddr)) (i : ℕ) : ℕ :=
  (entries.take i).countP Option.isSome

/-- How many entries before one are not parsed. -/
def skippedBefore (entries : List (Option RankAddr)) (i : ℕ) : ℕ :=
  (entries.take i).countP Option.isNone

/-- An entry before is parsed or skipped. -/
theorem parsedBefore_add_skippedBefore {entries : List (Option RankAddr)} {i : ℕ}
    (hi : i ≤ entries.length) : parsedBefore entries i + skippedBefore entries i = i := by
  have hsplit := (List.length_eq_countP_add_countP Option.isSome (l := entries.take i)).symm
  have hnone : (fun entry : Option RankAddr => decide ¬ entry.isSome = true) = Option.isNone := by
    funext entry
    cases entry <;> rfl
  rw [hnone, List.length_take, Nat.min_eq_left hi] at hsplit
  exact hsplit

/-- Every entry that parses has a position that fits an index; and where the endpoints can be gathered,
the entries in front of an entry that a route joins, skipped ones included, are fewer than the entries
that parse on some rank. -/
structure SkipsFit (codec : Msgpack) (ranks : List (Rank platform)) : Prop where
  indexable : ∀ rank ∈ ranks, Indexable rank.entries
  fits : Gatherable codec ranks → ∀ (r p : ℕ) (me peer : Rank platform), r ≠ p →
    ranks[r]? = some me → ranks[p]? = some peer → ∀ i j, Joins me peer i j →
    parsedBefore me.entries i + skippedBefore me.entries i < mostParsed ranks ∧
    parsedBefore peer.entries j + skippedBefore peer.entries j < mostParsed ranks

/-- Joined entries are parsed. -/
theorem parsedAt_of_joins {me peer : Rank platform} {i j : ℕ} (h : Joins me peer i j) :
    (∃ addr, me.entries[i]? = some (some addr)) ∧ ∃ addr, peer.entries[j]? = some (some addr) := by
  rcases h with ⟨_, _, -, ⟨⟨mine, hmine, -⟩, -⟩, ⟨theirs, htheirs, -⟩, -⟩ |
    ⟨-, ⟨mine, hmine, theirs, htheirs, -⟩, -⟩
  · exact ⟨⟨mine, hmine⟩, theirs, htheirs⟩
  · exact ⟨⟨mine, hmine⟩, theirs, htheirs⟩

theorem inFront_of_get {entries : List (Option RankAddr)} {i : ℕ} {entry : Option RankAddr}
    (h : entries[i]? = some entry) : parsedBefore entries i + skippedBefore entries i = i := by
  obtain ⟨hlt, -⟩ := List.getElem?_eq_some_iff.mp h
  exact parsedBefore_add_skippedBefore hlt.le

/-- Where no entry is skipped, no route is affected. -/
theorem skipsFit_of_isSome {codec : Msgpack} {ranks : List (Rank platform)}
    (hidx : ∀ rank ∈ ranks, Indexable rank.entries)
    (hall : ∀ rank ∈ ranks, ∀ entry ∈ rank.entries, entry.isSome) : SkipsFit codec ranks := by
  have hbelow : ∀ rank ∈ ranks, ∀ i entry, rank.entries[i]? = some entry →
      parsedBefore rank.entries i + skippedBefore rank.entries i < mostParsed ranks := by
    intro rank hrank i entry hget
    obtain ⟨hlt, -⟩ := List.getElem?_eq_some_iff.mp hget
    have hlen : (parsed rank.entries).length = rank.entries.length := by
      rw [length_parsed, List.countP_eq_length.mpr (hall rank hrank)]
    have hmost : (parsed rank.entries).length ≤ mostParsed ranks :=
      le_foldl_max 0 (List.mem_map.mpr ⟨rank, hrank, rfl⟩)
    rw [inFront_of_get hget]
    omega
  refine ⟨hidx, fun _ r p me peer _ hme hpeer i j hjoins => ?_⟩
  obtain ⟨⟨addr, hget⟩, theirs, htheirs⟩ := parsedAt_of_joins hjoins
  exact ⟨hbelow me (List.mem_of_getElem? hme) i _ hget,
    hbelow peer (List.mem_of_getElem? hpeer) j _ htheirs⟩

section Registered

variable {rank : Rank platform} (hidx : Indexable rank.entries) {i : ℕ} {addr : RankAddr}

include hidx

theorem toNat_ofNat_position (hget : rank.entries[i]? = some (some addr)) :
    (UInt32.ofNat i).toNat = i :=
  UInt32.toNat_ofNat_of_lt' (hidx ⟨i, addr⟩ (mem_parsed.mpr hget))

theorem registered_of_get (hget : rank.entries[i]? = some (some addr)) :
    ∃ entry ∈ rank.rootInfo.eidIndexToRankAddr,
      entry.eidIndex = UInt32.ofNat i ∧ entry.rankAddr.addr = addr :=
  ⟨entryOf ⟨i, addr⟩, (mem_eidIndexToRankAddr rank.holds hidx).mpr ⟨_, mem_parsed.mpr hget, rfl⟩,
    rfl, rfl⟩

theorem get_of_registered {entry : EidEntry} (hmem : entry ∈ rank.rootInfo.eidIndexToRankAddr) :
    rank.entries[entry.eidIndex.toNat]? = some (some entry.rankAddr.addr) := by
  obtain ⟨a, ha, rfl⟩ := (mem_eidIndexToRankAddr rank.holds hidx).mp hmem
  rw [toNat_eidIndex hidx ha]
  exact mem_parsed.mp ha

end Registered

/-- Where the joined entries fit the slots, every route is as it should be. -/
theorem SkipsFit.routeOk {codec : Msgpack} {ranks : List (Rank platform)} (h : SkipsFit codec ranks)
    {gathered : List (List SyncEndpoint)}
    (hbuild : buildSyncEndpoints codec (ranks.map Rank.rootInfo) = some gathered)
    {r p : ℕ} {me peer : Rank platform} (hne : r ≠ p) (hme : ranks[r]? = some me)
    (hpeer : ranks[p]? = some peer) {route : EidRoute}
    (hroute : (querier ranks gathered me r).getEidRoute p = some route) :
    RouteOk me peer (maxEidCount ranks) route := by
  have hmi := h.indexable me (List.mem_of_getElem? hme)
  have hpi := h.indexable peer (List.mem_of_getElem? hpeer)
  rw [eq_of_buildSyncEndpoints hbuild] at hroute
  obtain ⟨i, j, addr, hjoins, hget, rfl⟩ := (getEidRoute_eq_some hme hpeer hmi hpi).mp hroute
  obtain ⟨-, theirs, htheirs⟩ := parsedAt_of_joins hjoins
  have hfits := h.fits (gatherable_of_build hbuild) r p me peer hne hme hpeer i j hjoins
  rw [inFront_of_get hget, inFront_of_get htheirs, ← toNat_maxEidCount h.indexable] at hfits
  obtain ⟨entry, hentry, hindex, haddr⟩ := registered_of_get hmi hget
  obtain ⟨other, hother, hremote, -⟩ := registered_of_get hpi htheirs
  refine ⟨⟨entry, hentry, hindex, by rw [haddr]⟩, ⟨other, hother, hremote⟩, ?_, ?_⟩
  · rw [UInt32.lt_iff_toNat_lt, toNat_ofNat_position hmi hget]
    exact hfits.1
  · rw [UInt32.lt_iff_toNat_lt, toNat_ofNat_position hpi htheirs]
    exact hfits.2

/-- The indexes agree exactly when the skipped entries leave every joined one within the slots. -/
theorem indexesAgree_iff (codec : Msgpack) (ranks : List (Rank platform)) :
    IndexesAgree codec ranks ↔ SkipsFit codec ranks := by
  constructor
  · intro h
    have hidx : ∀ rank ∈ ranks, Indexable rank.entries := by
      intro rank hrank a ha
      obtain ⟨entry, -, hentry, -⟩ := h.position rank hrank a.object a.addr (mem_parsed.mp ha)
      rw [← hentry]
      exact entry.eidIndex.toNat_lt
    refine ⟨hidx, fun hgather r p me peer hne hme hpeer i j hjoins => ?_⟩
    have hmi := hidx me (List.mem_of_getElem? hme)
    have hpi := hidx peer (List.mem_of_getElem? hpeer)
    obtain ⟨⟨addr, hget⟩, theirs, htheirs⟩ := parsedAt_of_joins hjoins
    -- a joined pair gives a route, so its two slots are in range
    have hroute := (getEidRoute_eq_some hme hpeer hmi hpi).mpr ⟨i, j, addr, hjoins, hget, rfl⟩
    have hranks : ranks ≠ [] := List.ne_nil_of_mem (List.mem_of_getElem? hme)
    have hok := h.routes _ (buildSyncEndpoints_of_gatherable hranks hgather) r p me peer hne hme hpeer _
      hroute
    rw [inFront_of_get hget, inFront_of_get htheirs, ← toNat_maxEidCount hidx,
      ← toNat_ofNat_position hmi hget, ← toNat_ofNat_position hpi htheirs]
    exact ⟨UInt32.lt_iff_toNat_lt.mp hok.localSlot, UInt32.lt_iff_toNat_lt.mp hok.remoteSlot⟩
  · intro h
    -- an entry is registered under its position, skipped ones counted
    refine ⟨?_, fun rank hrank entry hentry => get_of_registered (h.indexable rank hrank) hentry,
      fun gathered hbuild r p me peer hne hme hpeer route hroute =>
        h.routeOk hbuild hne hme hpeer hroute, ?_, ?_⟩
    · intro rank hrank i addr hget
      have hidx := h.indexable rank hrank
      obtain ⟨entry, hentry, hindex, haddr⟩ := registered_of_get hidx hget
      exact ⟨entry, hentry, by rw [hindex, toNat_ofNat_position hidx hget], haddr⟩
    · intro hcomm r me hme peer index
      rw [prepareOpenDevice]
      split
      · simp
      · split
        · simp
        · next gathered hbuild =>
          refine connectPeers_ne_remoteEid (fun p hp hself route hroute => ?_) peer index
          have hpeer := List.getElem?_eq_getElem (List.mem_range.mp hp)
          exact (h.routeOk hbuild (Ne.symm hself) hme hpeer hroute).remoteSlot
    · intro hcomm r me hme
      rw [prepareOpenDevice]
      -- the device has no endpoints before the peers are connected
      have hnone : ∀ endpoint ∈ Device.init.endpoints,
          ParsedAt me.entries (fun addr => addr.eidData = endpoint.eid) endpoint.eidIndex.toNat :=
        fun endpoint hmem => absurd hmem (OrderedSet.not_mem_empty endpoint)
      split
      · exact hnone
      · split
        · exact hnone
        · next gathered hbuild =>
          refine forall_mem_connectPeers (fun p hp hself route hroute => ?_) hnone
          have hpeer := List.getElem?_eq_getElem (List.mem_range.mp hp)
          obtain ⟨entry, hentry, hindex, heid⟩ :=
            (h.routeOk hbuild (Ne.symm hself) hme hpeer hroute).localRegistered
          have hget := get_of_registered (h.indexable me (List.mem_of_getElem? hme)) hentry
          rw [hindex] at hget
          exact ⟨entry.rankAddr.addr, hget, heid⟩

/-! ## A skipped entry -/

/-- A platform that knows EIDs only. -/
def eidPlatform : Platform := ⟨fun _ => 0, fun _ => none, fun _ => none⟩

/-- One level with two entries, of which the first has no address. -/
def skippingDocument : Json :=
  .object [("topo_file_path", .string "topo.json"), ("rank_list", .array [.object [
    ("device_id", .unsigned 0), ("local_id", .unsigned 0), ("level_list", .array [.object [
      ("net_type", .string "CLOS"), ("net_layer", .unsigned 0), ("net_instance_id", .string "pod"),
      ("rank_addr_list", .array [.object [("plane_id", .string "plane0")],
        .object [("addr", .string "0a"), ("plane_id", .string "plane0")]])]])]])]

/-- A rank whose document has an entry that is skipped. -/
def skippingRank : Rank eidPlatform where
  rootInfoJson := skippingDocument
  phyId := 0
  topoInfo := ⟨[]⟩
  rootInfo := (parseRootInfoJson eidPlatform skippingDocument 0).get (by decide)
  accepted := (Option.some_get _).symm

/-- On two hosts with this document the route leads through index 1, and there is one slot. -/
theorem not_indexesAgree_skippingRank : ¬ IndexesAgree endpointTexts [skippingRank, skippingRank] := by
  intro h
  have hgather : Gatherable endpointTexts [skippingRank, skippingRank] := by
    unfold Gatherable
    decide +kernel
  have hroute : ((querier [skippingRank, skippingRank] (endpointsOf [skippingRank, skippingRank])
      skippingRank 0).getEidRoute 1).map EidRoute.remoteEidIndex = some 1 := by decide +kernel
  obtain ⟨route, hroute, hremote⟩ := Option.map_eq_some_iff.mp hroute
  have hok := h.routes _ (buildSyncEndpoints_of_gatherable (by simp) hgather) 0 1 skippingRank
    skippingRank (by decide) rfl rfl route hroute
  have hslot := hok.remoteSlot
  rw [hremote] at hslot
  exact absurd hslot (by decide +kernel)

end AscendShmem.TopoReader
