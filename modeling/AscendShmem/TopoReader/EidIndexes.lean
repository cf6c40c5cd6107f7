import AscendShmem.TopoReader.RootInfo

/-!
# The index of an entry

What the scan of the flattened lists has filled in behind any number of entries. As long as no entry that
parses stands at a position of 2^32 or more, the map is the list of these entries in order, each under its
position; a port belongs to the last entry that claims it.
-/

namespace AscendShmem.TopoReader

open Lib

/-- The entries that parse, with their positions. -/
def parsed (entries : List (Option RankAddr)) : List SharedAddr :=
  entries.zipIdx.filterMap fun p => p.1.map (SharedAddr.mk p.2)

/-- The addresses parsed are those of the entries. -/
theorem mem_parsed {entries : List (Option RankAddr)} {a : SharedAddr} :
    a ∈ parsed entries ↔ entries[a.object]? = some (some a.addr) := by
  simp only [parsed, List.mem_filterMap, Prod.exists, List.mem_zipIdx_iff_getElem?]
  constructor
  · rintro ⟨entry, k, hget, ha⟩
    obtain ⟨addr, rfl, rfl⟩ := Option.map_eq_some_iff.mp ha
    exact hget
  · intro hget
    exact ⟨some a.addr, a.object, hget, rfl⟩

theorem parsed_append (entries : List (Option RankAddr)) (entry : Option RankAddr) :
    parsed (entries ++ [entry])
      = parsed entries ++ (entry.map (SharedAddr.mk entries.length)).toList := by
  rw [parsed, List.zipIdx_append, List.filterMap_append, parsed]
  cases entry <;> simp

theorem object_lt_of_mem_parsed {entries : List (Option RankAddr)} {a : SharedAddr}
    (ha : a ∈ parsed entries) : a.object < entries.length := by
  obtain ⟨hlt, -⟩ := List.getElem?_eq_some_iff.mp (mem_parsed.mp ha)
  exact hlt

/-- The positions ascend. -/
theorem parsed_sorted (entries : List (Option RankAddr)) :
    (parsed entries).Pairwise fun a b => a.object < b.object := by
  induction entries using List.reverseRecOn with
  | nil => exact List.Pairwise.nil
  | append_singleton entries entry ih =>
    rw [parsed_append, List.pairwise_append]
    refine ⟨ih, ?_, fun a ha b hb => ?_⟩
    · cases entry with
      | none => exact List.Pairwise.nil
      | some addr => exact List.pairwise_singleton _ _
    · obtain ⟨addr, -, rfl⟩ := Option.map_eq_some_iff.mp (Option.mem_toList.mp hb)
      exact object_lt_of_mem_parsed ha

/-- There is an address for each entry that is parsed. -/
theorem length_parsed (entries : List (Option RankAddr)) :
    (parsed entries).length = entries.countP Option.isSome := by
  induction entries using List.reverseRecOn with
  | nil => rfl
  | append_singleton entries entry ih =>
    rw [parsed_append, List.length_append, ih, List.countP_append]
    cases entry <;> rfl

/-- Every entry that parses has a position that fits an index. -/
def Indexable (entries : List (Option RankAddr)) : Prop := ∀ a ∈ parsed entries, a.object < 2 ^ 32

/-- The first entries can be indexed if all can. -/
theorem Indexable.of_append {entries : List (Option RankAddr)} {entry : Option RankAddr}
    (h : Indexable (entries ++ [entry])) : Indexable entries := by
  intro a ha
  apply h a
  rw [parsed_append]
  exact List.mem_append_left _ ha

/-- An entry under its position. -/
def entryOf (a : SharedAddr) : EidEntry := ⟨UInt32.ofNat a.object, a⟩

theorem toNat_eidIndex {entries : List (Option RankAddr)} (h : Indexable entries) {a : SharedAddr}
    (ha : a ∈ parsed entries) : (entryOf a).eidIndex.toNat = a.object :=
  UInt32.toNat_ofNat_of_lt' (h a ha)

/-- The last entry that claims a port. -/
def claimer (entries : List (Option RankAddr)) (port : String) : Option SharedAddr :=
  (parsed entries).reverse.find? fun a => port ∈ a.addr.ports

theorem claimer_append (entries : List (Option RankAddr)) (addr : RankAddr) (port : String) :
    claimer (entries ++ [some addr]) port
      = if port ∈ addr.ports then some ⟨entries.length, addr⟩ else claimer entries port := by
  rw [claimer, parsed_append]
  by_cases hport : port ∈ addr.ports <;> simp [hport, claimer]

/-! ## The scan -/

/-- What the scan has filled in behind these entries. -/
structure Scan.Holds (scan : Scan) (entries : List (Option RankAddr)) : Prop where
  objects : scan.objects = entries.length
  eidIndex : scan.eidIndex = UInt32.ofNat entries.length
  index : Indexable entries → scan.eidIndexToRankAddr.toList = (parsed entries).map entryOf
  ports : ∀ port, scan.portsToRankAddr.find port = (claimer entries port).map (PortEntry.mk port)

theorem Scan.Holds.init : Scan.init.Holds [] := ⟨rfl, rfl, fun _ => rfl, fun _ => rfl⟩

/-- The loop over the ports of one entry. -/
theorem find_assignPorts (rankAddr : SharedAddr) (port : String) (claimed : List String)
    (ports : OrderedSet PortEntry.port) :
    (claimed.foldl (fun ports port => ports.assign ⟨port, rankAddr⟩) ports).find port
      = if port ∈ claimed then some ⟨port, rankAddr⟩ else ports.find port := by
  induction claimed generalizing ports with
  | nil => rfl
  | cons first claimed ih =>
    rw [List.foldl_cons, ih]
    by_cases hmem : port ∈ claimed
    · rw [if_pos hmem, if_pos (List.mem_cons_of_mem first hmem)]
    · rw [if_neg hmem, OrderedSet.find_assign]
      by_cases hfirst : first = port
      · subst hfirst
        rw [if_pos rfl, if_pos List.mem_cons_self]
      · rw [if_neg hfirst, if_neg fun hcons => ?_]
        rcases List.mem_cons.mp hcons with heq | hcons
        · exact hfirst heq.symm
        · exact hmem hcons

/-- One entry of the scan. -/
theorem Scan.Holds.visit {scan : Scan} {entries : List (Option RankAddr)} (h : scan.Holds entries)
    (entry : Option RankAddr) : (scan.visit entry).Holds (entries ++ [entry]) := by
  have hnext : scan.eidIndex + 1 = UInt32.ofNat (entries ++ [entry]).length := by
    rw [h.eidIndex, List.length_append, List.length_singleton, UInt32.ofNat_add]
    rfl
  have hobjects : scan.objects + 1 = (entries ++ [entry]).length := by
    rw [h.objects, List.length_append, List.length_singleton]
  cases entry with
  | none =>
    refine ⟨hobjects, hnext, fun hidx => ?_, fun port => ?_⟩
    · rw [parsed_append, Option.map_none, Option.toList_none, List.append_nil]
      exact h.index hidx.of_append
    · have hclaimer : claimer (entries ++ [none]) port = claimer entries port := by
        simp [claimer, parsed_append]
      rw [hclaimer]
      exact h.ports port
  | some addr =>
    refine ⟨hobjects, hnext, fun hidx => ?_, fun port => ?_⟩
    · -- the new position is above the positions of all entries before
      have hlast : entries.length < 2 ^ 32 := by
        apply hidx ⟨entries.length, addr⟩
        rw [parsed_append]
        simp
      have hlist := h.index hidx.of_append
      have hbelow : ∀ entry ∈ scan.eidIndexToRankAddr,
          entry.key < (EidEntry.mk scan.eidIndex ⟨scan.objects, addr⟩).key := by
        intro entry hentry
        rw [OrderedSet.mem_def, hlist] at hentry
        obtain ⟨a, ha, rfl⟩ := List.mem_map.mp hentry
        have hlt := object_lt_of_mem_parsed ha
        have hnew : (UInt32.ofNat entries.length).toNat = entries.length :=
          UInt32.toNat_ofNat_of_lt' hlast
        rw [EidEntry.key, EidEntry.key, toNat_eidIndex hidx.of_append ha, h.eidIndex, hnew]
        exact hlt
      have happend := OrderedSet.toList_assign_of_lt hbelow
      rw [parsed_append, List.map_append, ← hlist, Scan.visit]
      simp only [happend]
      rw [h.objects, h.eidIndex]
      rfl
    · rw [claimer_append, Scan.visit]
      simp only [find_assignPorts, h.ports, h.objects]
      split <;> rfl

/-- The entries of a level. -/
theorem holds_scanEntries {platform : Platform} {levelInfo : LevelInfo} (rankAddrList : List Json)
    {scan : Scan} {entries : List (Option RankAddr)} (h : scan.Holds entries) :
    (scanEntries platform levelInfo rankAddrList scan).Holds
      (entries ++ rankAddrList.map (parseRankAddr platform levelInfo)) := by
  induction rankAddrList generalizing scan entries with
  | nil => rwa [List.map_nil, List.append_nil]
  | cons rankAddrJson rest ih =>
    have hrest := ih (h.visit (parseRankAddr platform levelInfo rankAddrJson))
    rw [List.append_assoc, List.singleton_append] at hrest
    exact hrest

/-- The levels. -/
theorem holds_scanLevels {platform : Platform} {levelList : List Json} {scan out : Scan}
    {entries : List (Option RankAddr)} (h : scan.Holds entries)
    (hout : scanLevels platform levelList scan = some out) :
    out.Holds (entries ++ levelList.flatMap (levelEntries platform)) := by
  induction levelList generalizing scan entries with
  | nil =>
    obtain rfl := Option.some.inj hout
    rwa [List.flatMap_nil, List.append_nil]
  | cons levelJson rest ih =>
    rw [scanLevels] at hout
    obtain ⟨levelInfo, hinfo, hout⟩ := Option.bind_eq_some_iff.mp hout
    obtain ⟨rankAddrList, hlist, hout⟩ := Option.bind_eq_some_iff.mp hout
    have hlevel : levelEntries platform levelJson
        = rankAddrList.map (parseRankAddr platform levelInfo) := by
      rw [levelEntries, hinfo, hlist]
    -- the level itself touches neither map
    have hpush : ({ scan with levels := scan.levels ++ [levelInfo] } : Scan).Holds entries :=
      ⟨h.objects, h.eidIndex, h.index, h.ports⟩
    have hrest := ih (holds_scanEntries rankAddrList hpush) hout
    rw [List.flatMap_cons, hlevel, ← List.append_assoc]
    exact hrest

/-! ## The root info -/

/-- The maps of a root info hold these entries. -/
structure RootInfo.Holds (root : RootInfo) (entries : List (Option RankAddr)) : Prop where
  index : Indexable entries → root.eidIndexToRankAddr.toList = (parsed entries).map entryOf
  ports : ∀ port, root.portsToRankAddr.find port = (claimer entries port).map (PortEntry.mk port)
  count : root.totalEidCount = UInt32.ofNat root.eidIndexToRankAddr.toList.length
  count_ne_zero : root.totalEidCount ≠ 0

variable {platform : Platform} {rootInfoJson : Json} {phyId : UInt32} {root : RootInfo}

theorem holds_of_parse (h : parseRootInfoJson platform rootInfoJson phyId = some root) :
    root.Holds (flattened platform rootInfoJson phyId) := by
  obtain ⟨topoFilePath, -, h⟩ := Option.bind_eq_some_iff.mp h
  obtain ⟨rankList, hranks, h⟩ := Option.bind_eq_some_iff.mp h
  obtain ⟨rank, hrank, h⟩ := Option.bind_eq_some_iff.mp h
  obtain ⟨levelList, hlevels, h⟩ := Option.bind_eq_some_iff.mp h
  obtain ⟨scan, hscan, h⟩ := Option.bind_eq_some_iff.mp h
  have hflat : flattened platform rootInfoJson phyId
      = levelList.flatMap (levelEntries platform) := by
    rw [flattened, hranks, Option.bind_some, hrank, Option.bind_some, hlevels]
    rfl
  have hholds := holds_scanLevels Scan.Holds.init hscan
  rw [List.nil_append, ← hflat] at hholds
  split at h
  · cases h
  · next hcount =>
    obtain rfl := Option.some.inj h
    exact ⟨hholds.index, hholds.ports, rfl, hcount⟩

/-- The number of slots of a rank is the number of its entries that parse. -/
theorem RootInfo.Holds.toNat_count {entries : List (Option RankAddr)} (h : root.Holds entries)
    (hidx : Indexable entries) : root.totalEidCount.toNat = (parsed entries).length := by
  have hcount : root.totalEidCount = UInt32.ofNat (parsed entries).length := by
    rw [h.count, h.index hidx, List.length_map]
  -- the positions are different and below 2^32, so that there are at most 2^32 of them
  have hle : (parsed entries).length ≤ 2 ^ 32 := by
    have hnodup : ((parsed entries).map SharedAddr.object).Nodup :=
      List.pairwise_map.mpr ((parsed_sorted entries).imp fun hlt => hlt.ne)
    have hsub : (parsed entries).map SharedAddr.object ⊆ List.range (2 ^ 32) := by
      intro k hk
      obtain ⟨a, ha, rfl⟩ := List.mem_map.mp hk
      exact List.mem_range.mpr (hidx a ha)
    simpa using (List.subperm_of_subset hnodup hsub).length_le
  have hlt : (parsed entries).length < 2 ^ 32 := by
    refine lt_of_le_of_ne hle fun heq => h.count_ne_zero ?_
    rw [hcount, heq]
    rfl
  rw [hcount]
  exact UInt32.toNat_ofNat_of_lt' hlt

end AscendShmem.TopoReader
