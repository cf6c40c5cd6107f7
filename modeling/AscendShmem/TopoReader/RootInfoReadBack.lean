import AscendShmem.TopoReader.EidIndexes
import AscendShmem.TopoReader.RootInfoText

/-!
# Generated root info is read back

`ParseRootInfoJson` on the value that the text of a root info spells: every field is found under its name
and has the kind that it is asked for, so that no entry is skipped and the maps hold all of them.
-/

namespace AscendShmem.TopoReader

open Lib

variable {platform : Platform}

/-! ## Numbers and addresses -/

/-- A signed number and its word. -/
theorem toInt_cases (n : Int32) :
    n.toInt = n.toUInt32.toNat ∨ n.toInt = n.toUInt32.toNat - 2 ^ 32 := by
  have hmod : n.toInt = (n.toUInt32.toNat : ℤ).bmod (2 ^ 32) := BitVec.toInt_eq_toNat_bmod n.toBitVec
  have hlt := n.toUInt32.toNat_lt
  rw [Int.bmod_def] at hmod
  split at hmod <;> omega

/-- The word of the number. -/
theorem ofInt_toInt (n : Int32) : UInt32.ofInt n.toInt = n.toUInt32 := by
  have hcases := toInt_cases n
  have hlt := n.toUInt32.toNat_lt
  apply UInt32.toNat_inj.mp
  rw [UInt32.ofInt, UInt32.toNat_ofNat']
  omega

theorem toNat_toUInt32 {n : Int32} (hn : 0 ≤ n.toInt) : (n.toUInt32.toNat : ℤ) = n.toInt := by
  have hcases := toInt_cases n
  have hlt := n.toUInt32.toNat_lt
  omega

/-- An `int` is read as the `uint32_t` with its bits. -/
theorem tryGetUint32_intValue (n : Int32) : tryGetUint32 platform (intValue n) = some n.toUInt32 := by
  have hlow := n.le_toInt
  have hhigh := n.toInt_lt
  rw [intValue]
  split
  · have htoInt : (Int64.ofInt n.toInt).toInt = n.toInt :=
      Int64.toInt_ofInt_of_le (by omega) (by omega)
    rw [tryGetUint32, htoInt, ofInt_toInt]
  · next hnonneg =>
    have htoNat := toNat_toUInt32 (n := n) (by omega)
    rw [tryGetUint32, Option.some.injEq]
    apply UInt32.toNat_inj.mp
    rw [UInt64.toNat_toUInt32, UInt64.toNat_ofNat']
    omega

theorem stoul_hexPair (b : UInt8) : (stoul 16 (hexPair b)).map UInt64.toUInt8 = some b := by
  have hall : ∀ k : Fin 256, (stoul 16 (hexPair (UInt8.ofNat k))).map UInt64.toUInt8
      = some (UInt8.ofNat k) := by decide +kernel
  have hb := hall ⟨b.toNat, b.toNat_lt⟩
  rwa [UInt8.ofNat_toNat] at hb

theorem hexPair_digits (b : UInt8) :
    ∀ c ∈ hexPair b, EidConverter.isXdigit c = true ∧ Char.toLower c = c := by
  have hall : ∀ k : Fin 16, EidConverter.isXdigit (Nat.digitChar k) = true ∧
      Char.toLower (Nat.digitChar k) = Nat.digitChar k := by decide +kernel
  intro c hc
  have hlt := b.toNat_lt
  rcases List.mem_pair.mp hc with rfl | rfl
  · exact hall ⟨b.toNat / 16, by omega⟩
  · exact hall ⟨b.toNat % 16, by omega⟩

/-- The digits of a byte stand at twice its place. -/
theorem take_hexPairs (bytes : List UInt8) {i : ℕ} {b : UInt8} (h : bytes[i]? = some b) :
    ((bytes.flatMap hexPair).drop (i * 2)).take 2 = hexPair b := by
  induction bytes generalizing i with
  | nil => cases h
  | cons first bytes ih =>
    cases i with
    | zero =>
      obtain rfl : first = b := by simpa using h
      rfl
    | succ i =>
      have hdrop : ((first :: bytes).flatMap hexPair).drop ((i + 1) * 2)
          = (bytes.flatMap hexPair).drop (i * 2) := by
        rw [Nat.succ_mul]
        rfl
      rw [hdrop]
      exact ih (by simpa using h)

/-- There are two digits for each byte. -/
theorem length_hexPairs (bytes : List UInt8) : (bytes.flatMap hexPair).length = bytes.length * 2 := by
  induction bytes with
  | nil => rfl
  | cons b bytes ih =>
    rw [List.flatMap_cons, List.length_append, ih, List.length_cons, Nat.succ_mul, Nat.add_comm]
    rfl

/-- What `%02x` writes of the bytes, `FromPlainEid` reads. -/
theorem fromPlainEid_hexPairs (eid : EidData) :
    EidConverter.fromPlainEid (.string (String.ofList (eid.toList.flatMap hexPair))) = some eid := by
  have hlen : (eid.toList.flatMap hexPair).length = 32 := by
    rw [length_hexPairs, eid.toList_length]
  have hfilter : (eid.toList.flatMap hexPair).filter EidConverter.isXdigit
      = eid.toList.flatMap hexPair := by
    refine List.filter_eq_self.mpr fun c hc => ?_
    obtain ⟨b, -, hc⟩ := List.mem_flatMap.mp hc
    exact (hexPair_digits b c hc).1
  have hlower : (eid.toList.flatMap hexPair).map Char.toLower = eid.toList.flatMap hexPair := by
    refine (List.map_congr_left fun c hc => ?_).trans (List.map_id _)
    obtain ⟨b, -, hc⟩ := List.mem_flatMap.mp hc
    exact (hexPair_digits b c hc).2
  have hnormalized : EidConverter.normalized (eid.toList.flatMap hexPair)
      = eid.toList.flatMap hexPair := by
    rw [EidConverter.normalized, hfilter, hlower, hlen]
    rfl
  have hbytes : (List.range 16).mapM (EidConverter.hexByte (eid.toList.flatMap hexPair))
      = some eid.toList := by
    have hmap : (List.range 16).mapM (EidConverter.hexByte (eid.toList.flatMap hexPair))
        = some ((List.range 16).map fun i => eid.toList.getD i 0) := by
      refine mapM_eq_some fun i hi => ?_
      have hlt : i < eid.toList.length := by
        rw [eid.toList_length]
        exact List.mem_range.mp hi
      have hget : eid.toList[i]? = some (eid.toList.getD i 0) := by
        rw [List.getD_eq_getElem?_getD, List.getElem?_eq_getElem hlt, Option.getD_some]
      rw [EidConverter.hexByte, take_hexPairs eid.toList hget, stoul_hexPair]
    rw [hmap]
    congr 1
    apply List.ext_getElem
    · simp
    · intro i h1 h2
      simp [List.getD_eq_getElem?_getD, List.getElem?_eq_getElem h2]
  rw [EidConverter.fromPlainEid, String.toList_ofList, hnormalized, if_neg (by omega), hbytes,
    Option.bind_some, EidConverter.eidOfBytes, dif_pos eid.toList_length]
  rfl

/-! ## What is to be read back -/

/-- The address was made for this EID: by `aclshmemi_addr_set_eid`, or from a valid IPv4 address by
`aclshmemi_addr_set_ip`. -/
def MadeFor (platform : Platform) (addr : AclshmemiAddr) (eid : EidData) : Prop :=
  (∃ base, addr = aclshmemiAddrSetEid base eid) ∨
    ∃ base ip bytes, addr = aclshmemiAddrSetIp base ip ∧ platform.inetPton4 ip = some bytes ∧
      eid.toList = List.replicate 12 0 ++ bytes.toList

/-- The addresses of a rank, level after level. -/
def AclshmemiRank.addrs (rank : AclshmemiRank) : List (AclshmemiNetLayer × AclshmemiAddr) :=
  rank.levelList.flatMap fun layer => layer.addrList.map fun addr => (layer, addr)

/-- A root info as the product strategies generate it. -/
structure Generated (platform : Platform) (rootInfo : AclshmemiRootInfo) : Prop where
  plain : PlainRootInfo rootInfo
  deviceIds : (rootInfo.ranks.map AclshmemiRank.deviceId).Nodup
  deviceId_nonneg : ∀ rank ∈ rootInfo.ranks, 0 ≤ rank.deviceId.toInt
  level_nonneg : ∀ rank ∈ rootInfo.ranks, ∀ layer ∈ rank.levelList, 0 ≤ layer.level.toInt
  netType : ∀ rank ∈ rootInfo.ranks, ∀ layer ∈ rank.levelList, (netTypeFromString layer.netType).isSome
  made : ∀ rank ∈ rootInfo.ranks, ∀ source ∈ rank.addrs, ∃ eid, MadeFor platform source.2 eid
  addrs_ne_nil : ∀ rank ∈ rootInfo.ranks, rank.addrs ≠ []

/-- What is read of a level. -/
structure LevelRead (layer : AclshmemiNetLayer) (info : LevelInfo) : Prop where
  netLayer : (info.netLayer.toNat : ℤ) = layer.level.toInt
  netInstanceId : info.netInstanceId = layer.instanceId
  netType : netTypeFromString layer.netType = some info.netType
  netAttr : info.netAttr = layer.netAttr

/-- What is read of an address. -/
structure AddrRead (platform : Platform) (source : AclshmemiNetLayer × AclshmemiAddr) (addr : RankAddr) :
    Prop where
  eid : MadeFor platform source.2 addr.eidData
  addrType : rankAddrTypeFromString source.2.addrType = some addr.addrType
  planeId : addr.planeId = source.2.planeId
  ports : addr.ports = source.2.ports
  level : LevelRead source.1 addr.levelInfo

/-- The levels in order, and under every index the address at this position. -/
structure ReadBack (platform : Platform) (rank : AclshmemiRank) (root : RootInfo) : Prop where
  levels : List.Forall₂ LevelRead rank.levelList root.levels
  addrs : ∀ (i : ℕ) (source : AclshmemiNetLayer × AclshmemiAddr), rank.addrs[i]? = some source →
    ∃ entry ∈ root.eidIndexToRankAddr, entry.eidIndex.toNat = i ∧
      AddrRead platform source entry.rankAddr.addr
  noOther : ∀ entry ∈ root.eidIndexToRankAddr, entry.eidIndex.toNat < rank.addrs.length

/-! ## Levels and addresses -/

theorem tryGetStrings_strings (l : List String) :
    tryGetStrings (.array (l.map Json.string)) = some l := by
  rw [tryGetStrings, List.filterMap_map]
  exact congrArg some List.filterMap_some

/-- A level is read back. -/
theorem parseLevelInfo_value {layer : AclshmemiNetLayer} (hlevel : 0 ≤ layer.level.toInt)
    (htype : (netTypeFromString layer.netType).isSome) :
    ∃ info, parseLevelInfo platform (netLayerValue layer) = some info ∧ LevelRead layer info := by
  obtain ⟨netType, htype⟩ := Option.isSome_iff_exists.mp htype
  refine ⟨⟨layer.level.toUInt32, layer.instanceId, netType, layer.netAttr⟩, ?_,
    ⟨toNat_toUInt32 hlevel, rfl, htype, rfl⟩⟩
  have hlayer : getRequiredField (tryGetUint32 platform) (netLayerValue layer) "net_layer"
      = some layer.level.toUInt32 := tryGetUint32_intValue layer.level
  have hname : (getRequiredField tryGetString (netLayerValue layer) "net_type").bind netTypeFromString
      = some netType := htype
  rw [parseLevelInfo, hname, hlayer]
  rfl

/-- An address is converted to the EID that it was made for. -/
theorem convert_of_madeFor {addr : AclshmemiAddr} {eid : EidData} (h : MadeFor platform addr eid) :
    ∃ addrType, rankAddrTypeFromString addr.addrType = some addrType ∧
      toUpper addr.addrType = addr.addrType ∧
      EidConverter.convert platform addrType (.string addr.addr) = some eid := by
  rcases h with ⟨base, rfl⟩ | ⟨base, ip, bytes, rfl, hpton, heid⟩
  · have hupper : toUpper "EID" = "EID" := by decide
    exact ⟨.eid, rfl, hupper, fromPlainEid_hexPairs eid⟩
  · have htype : rankAddrTypeFromString "IPV4" = some .ipv4 := by decide
    have hupper : toUpper "IPV4" = "IPV4" := by decide
    have hconvert : EidConverter.fromIpv4 platform (.string ip)
        = (platform.inetPton4 ip).map fun b => (⟨List.replicate 12 0 ++ b.toList, by simp⟩ : EidData) := rfl
    refine ⟨.ipv4, htype, hupper, hconvert.trans ?_⟩
    rw [hpton]
    exact congrArg some (List.Vector.eq _ eid heid.symm)

/-- An address is read back. -/
theorem parseRankAddr_value {layer : AclshmemiNetLayer} {addr : AclshmemiAddr} {eid : EidData}
    (hmade : MadeFor platform addr eid) {info : LevelInfo} (hinfo : LevelRead layer info) :
    ∃ rankAddr, parseRankAddr platform info (addrValue addr) = some rankAddr ∧
      AddrRead platform (layer, addr) rankAddr := by
  obtain ⟨addrType, htype, hupper, hconvert⟩ := convert_of_madeFor hmade
  refine ⟨⟨addrType, eid, addr.planeId, addr.ports, info⟩, ?_, ⟨hmade, htype, rfl, rfl, hinfo⟩⟩
  have hfind : (addrValue addr).find "addr" = some (.string addr.addr) := rfl
  have htext : (addrTypeText (addrValue addr)).bind (fun text => rankAddrTypeFromString (toUpper text))
      = some addrType := by
    rw [← htype, ← congrArg rankAddrTypeFromString hupper]
    rfl
  have hplane : getRequiredField tryGetString (addrValue addr) "plane_id" = some addr.planeId := rfl
  have hports : getOptionalField tryGetStrings (addrValue addr) "ports" [] = addr.ports := by
    have hfound : ((addrValue addr).find "ports").bind tryGetStrings = some addr.ports :=
      tryGetStrings_strings addr.ports
    rw [getOptionalField, hfound, Option.getD_some]
  rw [parseRankAddr, hfind]
  simp only [Option.bind_eq_bind, Option.bind_some, htext, hconvert, hplane, hports]

/-! ## The lists -/

/-- The entry parses, to what the address says. -/
def EntryRead (platform : Platform) (source : AclshmemiNetLayer × AclshmemiAddr)
    (entry : Option RankAddr) : Prop :=
  ∃ addr, entry = some addr ∧ AddrRead platform source addr

/-- The entries of a rank's value, level after level. -/
def rankEntries (platform : Platform) (rank : AclshmemiRank) : List (Option RankAddr) :=
  (rank.levelList.map netLayerValue).flatMap (levelEntries platform)

/-- What one level is read as. -/
structure LevelParses (platform : Platform) (layer : AclshmemiNetLayer) (info : LevelInfo) : Prop where
  level : parseLevelInfo platform (netLayerValue layer) = some info
  read : LevelRead layer info
  list : getRequiredArray (netLayerValue layer) "rank_addr_list" false
    = some (layer.addrList.map addrValue)

theorem LevelParses.entries {layer : AclshmemiNetLayer} {info : LevelInfo}
    (h : LevelParses platform layer info)
    (hmade : ∀ addr ∈ layer.addrList, ∃ eid, MadeFor platform addr eid) :
    List.Forall₂ (EntryRead platform) (layer.addrList.map fun addr => (layer, addr))
      (levelEntries platform (netLayerValue layer)) := by
  rw [levelEntries, h.level, h.list]
  simp only [List.map_map]
  generalize layer.addrList = addrs at hmade
  induction addrs with
  | nil => exact .nil
  | cons addr addrs ih =>
    obtain ⟨eid, hmadeFor⟩ := hmade addr List.mem_cons_self
    obtain ⟨rankAddr, hparse, hread⟩ := parseRankAddr_value hmadeFor h.read
    exact .cons ⟨rankAddr, hparse, hread⟩ (ih fun other hother =>
      hmade other (List.mem_cons_of_mem addr hother))

/-- The entries add no level. -/
theorem levels_scanEntries (info : LevelInfo) (rankAddrList : List Json) (scan : Scan) :
    (scanEntries platform info rankAddrList scan).levels = scan.levels := by
  induction rankAddrList generalizing scan with
  | nil => rfl
  | cons rankAddrJson rest ih =>
    rw [scanEntries, ih]
    cases parseRankAddr platform info rankAddrJson <;> rfl

/-- The levels are read back. -/
theorem scanLevels_value {levels : List AclshmemiNetLayer}
    (h : ∀ layer ∈ levels, ∃ info, LevelParses platform layer info) (scan : Scan) :
    ∃ out infos, scanLevels platform (levels.map netLayerValue) scan = some out ∧
      out.levels = scan.levels ++ infos ∧ List.Forall₂ LevelRead levels infos := by
  induction levels generalizing scan with
  | nil => exact ⟨scan, [], rfl, (List.append_nil _).symm, .nil⟩
  | cons layer levels ih =>
    obtain ⟨info, hparse⟩ := h layer List.mem_cons_self
    obtain ⟨out, infos, hscan, hlevels, hread⟩ := ih
      (fun other hother => h other (List.mem_cons_of_mem layer hother))
      (scanEntries platform info (layer.addrList.map addrValue)
        { scan with levels := scan.levels ++ [info] })
    refine ⟨out, info :: infos, ?_, ?_, .cons hparse.read hread⟩
    · rw [List.map_cons, scanLevels, hparse.level, hparse.list]
      exact hscan
    · rw [hlevels, levels_scanEntries, List.append_assoc, List.singleton_append]

theorem toUInt32_inj {m n : Int32} (h : m.toUInt32 = n.toUInt32) : m = n := by
  cases m
  cases n
  exact congrArg Int32.ofUInt32 h

/-- With different device ids every rank is found. -/
theorem findRank_value {ranks : List AclshmemiRank}
    (hdistinct : (ranks.map AclshmemiRank.deviceId).Nodup) {rank : AclshmemiRank} (hrank : rank ∈ ranks) :
    findRank platform rank.deviceId.toUInt32 (ranks.map rankValue)
      = some (rank.localId.toUInt32, rankValue rank) := by
  induction ranks with
  | nil => cases hrank
  | cons first ranks ih =>
    obtain ⟨hfirst, hrest⟩ := List.nodup_cons.mp hdistinct
    have hdevice : getRequiredField (tryGetUint32 platform) (rankValue first) "device_id"
        = some first.deviceId.toUInt32 := tryGetUint32_intValue first.deviceId
    have hlocal : getRequiredField (tryGetUint32 platform) (rankValue first) "local_id"
        = some first.localId.toUInt32 := tryGetUint32_intValue first.localId
    rw [List.map_cons, findRank, hdevice, hlocal]
    simp only [Option.bind_eq_bind, Option.bind_some]
    rcases List.mem_cons.mp hrank with rfl | hrank
    · rw [if_neg (not_not.mpr rfl)]
    · have hne : first.deviceId.toUInt32 ≠ rank.deviceId.toUInt32 := by
        intro heq
        apply hfirst
        rw [toUInt32_inj heq]
        exact List.mem_map_of_mem hrank
      rw [if_pos hne]
      exact ih hrest hrank

/-! ## Reading back -/

section ReadBack

variable {rootInfo : AclshmemiRootInfo} (h : Generated platform rootInfo) {rank : AclshmemiRank}
  (hrank : rank ∈ rootInfo.ranks)

include h hrank

theorem Generated.levelParses {layer : AclshmemiNetLayer} (hlayer : layer ∈ rank.levelList) :
    ∃ info, LevelParses platform layer info := by
  obtain ⟨info, hparse, hread⟩ := @parseLevelInfo_value platform layer
    (h.level_nonneg rank hrank layer hlayer) (h.netType rank hrank layer hlayer)
  exact ⟨info, hparse, hread, rfl⟩

theorem Generated.entries : List.Forall₂ (EntryRead platform) rank.addrs (rankEntries platform rank) := by
  have hmade := h.made rank hrank
  have hlevels := fun layer (hlayer : layer ∈ rank.levelList) => h.levelParses hrank hlayer
  rw [AclshmemiRank.addrs] at hmade ⊢
  rw [rankEntries]
  generalize rank.levelList = levels at hmade hlevels
  induction levels with
  | nil => exact .nil
  | cons layer levels ih =>
    obtain ⟨info, hparse⟩ := hlevels layer List.mem_cons_self
    have hfirst := hparse.entries fun addr haddr => hmade (layer, addr)
      (List.mem_flatMap.mpr ⟨layer, List.mem_cons_self, List.mem_map.mpr ⟨addr, haddr, rfl⟩⟩)
    have hrest := ih (fun source hsource => hmade source (by
      rw [List.flatMap_cons]
      exact List.mem_append_right _ hsource))
      fun other hother => hlevels other (List.mem_cons_of_mem layer hother)
    rw [List.flatMap_cons, List.map_cons, List.flatMap_cons]
    exact List.rel_append hfirst hrest

theorem Generated.levelList : getRequiredArray (rankValue rank) "level_list" true
    = some (rank.levelList.map netLayerValue) := by
  have hne : rank.levelList ≠ [] := by
    intro hnil
    apply h.addrs_ne_nil rank hrank
    rw [AclshmemiRank.addrs, hnil]
    rfl
  obtain ⟨layer, rest, hcons⟩ := List.exists_cons_of_ne_nil hne
  have hfind : (rankValue rank).find "level_list" = some (.array (rank.levelList.map netLayerValue)) :=
    rfl
  rw [getRequiredArray, hfind, hcons]
  rfl

theorem Generated.flattened :
    flattened platform (rootInfoValue rootInfo) rank.deviceId.toUInt32 = rankEntries platform rank := by
  have hranks : getRequiredArray (rootInfoValue rootInfo) "rank_list" false
      = some (rootInfo.ranks.map rankValue) := rfl
  rw [TopoReader.flattened, hranks, Option.bind_some, findRank_value h.deviceIds hrank,
    Option.bind_some, h.levelList hrank]
  rfl

/-- Every address is parsed. -/
theorem Generated.length_parsed :
    (parsed (rankEntries platform rank)).length = rank.addrs.length := by
  have hentries := h.entries hrank
  rw [TopoReader.length_parsed, hentries.length_eq, List.countP_eq_length]
  intro entry hentry
  obtain ⟨i, hi, rfl⟩ := List.getElem_of_mem hentry
  have hsource : i < rank.addrs.length := hentries.length_eq ▸ hi
  obtain ⟨addr, haddr, -⟩ := List.Forall₂.get hentries hsource hi
  have hget : (rankEntries platform rank)[i] = some addr := haddr
  rw [hget]
  rfl

/-- At every position stands the address of the rank, parsed. -/
theorem Generated.entryRead {i : ℕ} {source : AclshmemiNetLayer × AclshmemiAddr}
    (hsource : rank.addrs[i]? = some source) :
    ∃ addr, (rankEntries platform rank)[i]? = some (some addr) ∧ AddrRead platform source addr := by
  have hentries := h.entries hrank
  obtain ⟨hi, rfl⟩ := List.getElem?_eq_some_iff.mp hsource
  have hi' : i < (rankEntries platform rank).length := hentries.length_eq ▸ hi
  obtain ⟨addr, haddr, hread⟩ := List.Forall₂.get hentries hi hi'
  refine ⟨addr, ?_, hread⟩
  rw [List.getElem?_eq_getElem hi']
  exact congrArg some haddr

theorem Generated.indexable (hcount : rank.addrs.length ≤ 2 ^ 32) :
    Indexable (rankEntries platform rank) := by
  intro a ha
  have hlt := object_lt_of_mem_parsed ha
  rw [← (h.entries hrank).length_eq] at hlt
  omega

/-- A rank with less than 2^32 addresses is parsed, and read back. -/
theorem Generated.parse (hcount : rank.addrs.length < 2 ^ 32) :
    ∃ root, parseRootInfoJson platform (rootInfoValue rootInfo) rank.deviceId.toUInt32 = some root ∧
      root.localId = rank.localId.toUInt32 ∧ ReadBack platform rank root := by
  obtain ⟨scan, infos, hscan, hlevels, hread⟩ := scanLevels_value
    (fun layer hlayer => h.levelParses hrank hlayer) Scan.init
  have hidx := h.indexable hrank hcount.le
  have hholds := holds_scanLevels Scan.Holds.init hscan
  have hlist : scan.eidIndexToRankAddr.toList = (parsed (rankEntries platform rank)).map entryOf :=
    hholds.index hidx
  have hlength : scan.eidIndexToRankAddr.toList.length = rank.addrs.length := by
    rw [hlist, List.length_map, h.length_parsed hrank]
  -- at least one address, and not so many that the count wraps
  have hne : UInt32.ofNat scan.eidIndexToRankAddr.toList.length ≠ 0 := by
    have hpos : 0 < rank.addrs.length := List.length_pos_iff.mpr (h.addrs_ne_nil rank hrank)
    have htoNat : (UInt32.ofNat rank.addrs.length).toNat = rank.addrs.length :=
      UInt32.toNat_ofNat_of_lt' hcount
    rw [hlength]
    intro hzero
    rw [hzero] at htoNat
    exact hpos.ne htoNat
  refine ⟨scan.rootInfo rootInfo.topoFilePath rank.deviceId.toUInt32 rank.localId.toUInt32, ?_, rfl,
    ⟨?_, fun i source hsource => ?_, fun entry hentry => ?_⟩⟩
  · have hpath : getRequiredField tryGetString (rootInfoValue rootInfo) "topo_file_path"
        = some rootInfo.topoFilePath := rfl
    have hranks : getRequiredArray (rootInfoValue rootInfo) "rank_list" false
        = some (rootInfo.ranks.map rankValue) := rfl
    rw [parseRootInfoJson, hpath, hranks]
    simp only [Option.bind_eq_bind, Option.bind_some, findRank_value h.deviceIds hrank,
      h.levelList hrank, hscan]
    exact if_neg hne
  · rw [Scan.rootInfo, hlevels]
    exact hread
  · obtain ⟨addr, hget, hread⟩ := h.entryRead hrank hsource
    have hmem : (⟨i, addr⟩ : SharedAddr) ∈ parsed (rankEntries platform rank) := mem_parsed.mpr hget
    refine ⟨entryOf ⟨i, addr⟩, ?_, toNat_eidIndex hidx hmem, hread⟩
    rw [OrderedSet.mem_def]
    exact hlist.symm ▸ List.mem_map_of_mem hmem
  · have hentry' : entry ∈ scan.eidIndexToRankAddr.toList := hentry
    rw [hlist] at hentry'
    obtain ⟨a, ha, rfl⟩ := List.mem_map.mp hentry'
    rw [toNat_eidIndex hidx ha, (h.entries hrank).length_eq]
    exact object_lt_of_mem_parsed ha

/-- With 2^32 addresses the count is 0. -/
theorem Generated.parse_eq_none (hcount : rank.addrs.length = 2 ^ 32) :
    parseRootInfoJson platform (rootInfoValue rootInfo) rank.deviceId.toUInt32 = none := by
  rw [Option.eq_none_iff_forall_ne_some]
  intro root hroot
  have hholds := holds_of_parse hroot
  rw [h.flattened hrank] at hholds
  have htoNat := hholds.toNat_count (h.indexable hrank hcount.le)
  rw [h.length_parsed hrank, hcount] at htoNat
  exact absurd root.totalEidCount.toNat_lt (by omega)

end ReadBack

/-- The text of a generated root info is read back for the device of every rank with less than 2^32
addresses, with the local id as a `uint32_t`. -/
theorem root_info_read_back {parse : String → Option Json} (hparse : Json.Reads parse)
    {rootInfo : AclshmemiRootInfo} (h : Generated platform rootInfo) {rank : AclshmemiRank}
    (hrank : rank ∈ rootInfo.ranks) (hcount : rank.addrs.length < 2 ^ 32) :
    ∃ json root, parse (aclshmemiRootInfoToString rootInfo) = some json ∧
      parseRootInfoJson platform json rank.deviceId.toUInt32 = some root ∧
      root.localId = rank.localId.toUInt32 ∧ ReadBack platform rank root := by
  obtain ⟨root, hroot⟩ := h.parse hrank hcount
  exact ⟨rootInfoValue rootInfo, root, hparse _ _ (spells_rootInfo h.plain), hroot⟩

/-! ## Samples -/

/-- Digits need no escapes. -/
theorem plain_hexPairs (eid : EidData) : PlainString (String.ofList (eid.toList.flatMap hexPair)) := by
  have hall : ∀ k : Fin 16, Json.Plain (Nat.digitChar k) := by decide +kernel
  intro c hc
  rw [String.toList_ofList] at hc
  obtain ⟨b, -, hc⟩ := List.mem_flatMap.mp hc
  have hlt := b.toNat_lt
  rcases List.mem_pair.mp hc with rfl | rfl
  · exact hall ⟨b.toNat / 16, by omega⟩
  · exact hall ⟨b.toNat % 16, by omega⟩

/-- An address with an EID and two ports. -/
def sampleAddr : AclshmemiAddr :=
  aclshmemiAddrSetEid ⟨"", "", ["0/0", "0/1"], "plane0"⟩ (List.Vector.replicate 16 0xa5)

/-- An address with an IP. -/
def sampleIp : AclshmemiAddr := aclshmemiAddrSetIp ⟨"", "", [], "plane1"⟩ "10.0.0.1"

/-- A platform that knows this IP. -/
def samplePlatform : Platform :=
  ⟨fun _ => 0, fun text => if text = "10.0.0.1" then some ⟨[10, 0, 0, 1], rfl⟩ else none, fun _ => none⟩

/-- One rank with one level. -/
def sampleRank (localId : Int32) (addrList : List AclshmemiAddr) : AclshmemiRank :=
  ⟨0, localId, [⟨1, "pod", "CLOS", "", addrList⟩]⟩

/-- A document of one rank. -/
def sampleInfo (localId : Int32) (addrList : List AclshmemiAddr) : AclshmemiRootInfo :=
  ⟨"2.0", "topo.json", [sampleRank localId addrList], by simp⟩

theorem addrs_sampleRank (localId : Int32) (addrList : List AclshmemiAddr) :
    (sampleRank localId addrList).addrs
      = addrList.map fun addr => (⟨1, "pod", "CLOS", "", addrList⟩, addr) := by
  rw [AclshmemiRank.addrs, sampleRank]
  exact List.append_nil _

theorem plain_sampleAddr : PlainAddr sampleAddr :=
  ⟨by simp [sampleAddr, aclshmemiAddrSetEid, PlainString, Json.Plain], plain_hexPairs _,
    by simp [sampleAddr, aclshmemiAddrSetEid, PlainString, Json.Plain],
    by simp [sampleAddr, aclshmemiAddrSetEid, PlainString, Json.Plain]⟩

theorem plain_sampleIp : PlainAddr sampleIp :=
  ⟨by simp [sampleIp, aclshmemiAddrSetIp, PlainString, Json.Plain],
    by simp [sampleIp, aclshmemiAddrSetIp, PlainString, Json.Plain],
    by simp [sampleIp, aclshmemiAddrSetIp],
    by simp [sampleIp, aclshmemiAddrSetIp, PlainString, Json.Plain]⟩

/-- The document is a generated one. -/
theorem generated_sampleInfo (localId : Int32) {addrList : List AclshmemiAddr} (hne : addrList ≠ [])
    (h : ∀ addr ∈ addrList, addr = sampleAddr ∨ addr = sampleIp) :
    Generated samplePlatform (sampleInfo localId addrList) := by
  refine ⟨⟨by simp [sampleInfo, PlainString, Json.Plain], by simp [sampleInfo, PlainString, Json.Plain],
    fun rank hrank layer hlayer => ?_⟩, by simp [sampleInfo], fun rank hrank => ?_,
    fun rank hrank layer hlayer => ?_, fun rank hrank layer hlayer => ?_, fun rank hrank source hsource => ?_,
    fun rank hrank => ?_⟩ <;> obtain rfl := List.mem_singleton.mp hrank
  · obtain rfl := List.mem_singleton.mp hlayer
    refine ⟨by simp [PlainString, Json.Plain], by simp [PlainString, Json.Plain], by simp [PlainString],
      fun addr haddr => ?_⟩
    rcases h addr haddr with rfl | rfl
    · exact plain_sampleAddr
    · exact plain_sampleIp
  · exact (by decide : (0 : ℤ) ≤ (0 : Int32).toInt)
  · obtain rfl := List.mem_singleton.mp hlayer
    exact (by decide : (0 : ℤ) ≤ (1 : Int32).toInt)
  · obtain rfl := List.mem_singleton.mp hlayer
    exact (by decide : (netTypeFromString "CLOS").isSome)
  · rw [addrs_sampleRank] at hsource
    obtain ⟨addr, haddr, rfl⟩ := List.mem_map.mp hsource
    rcases h addr haddr with rfl | rfl
    · exact ⟨_, Or.inl ⟨_, rfl⟩⟩
    · exact ⟨⟨List.replicate 12 0 ++ [10, 0, 0, 1], rfl⟩,
        Or.inr ⟨_, "10.0.0.1", ⟨[10, 0, 0, 1], rfl⟩, rfl, rfl, rfl⟩⟩
  · rw [addrs_sampleRank]
    simpa using hne

/-- One rank with both addresses. -/
theorem root_info_read_back_sample :
    ∃ json root, Json.parse (aclshmemiRootInfoToString (sampleInfo 3 [sampleAddr, sampleIp])) = some json ∧
      parseRootInfoJson samplePlatform json 0 = some root ∧
      root.localId = (3 : Int32).toUInt32 ∧
      ReadBack samplePlatform (sampleRank 3 [sampleAddr, sampleIp]) root :=
  root_info_read_back Json.reads_parse
    (generated_sampleInfo 3 (by simp) (by simp)) (List.mem_singleton.mpr rfl)
    (by rw [addrs_sampleRank]; decide)

/-- Reading back with the local id as a number, for every rank. -/
def ReadBackAsNumber (platform : Platform) (parse : String → Option Json)
    (rootInfo : AclshmemiRootInfo) : Prop :=
  ∀ rank ∈ rootInfo.ranks, ∃ json root, parse (aclshmemiRootInfoToString rootInfo) = some json ∧
    parseRootInfoJson platform json rank.deviceId.toUInt32 = some root ∧
    (root.localId.toNat : ℤ) = rank.localId.toInt ∧ ReadBack platform rank root

/-- A negative local id is read as a `uint32_t`, and 2^32 addresses are counted as none. -/
theorem not_readBackAsNumber :
    (Generated samplePlatform (sampleInfo (-1) [sampleAddr]) ∧
      ¬ ReadBackAsNumber samplePlatform Json.parse (sampleInfo (-1) [sampleAddr])) ∧
    (Generated samplePlatform (sampleInfo 0 (List.replicate (2 ^ 32) sampleAddr)) ∧
      ¬ ReadBackAsNumber samplePlatform Json.parse
        (sampleInfo 0 (List.replicate (2 ^ 32) sampleAddr))) := by
  have hone : Generated samplePlatform (sampleInfo (-1) [sampleAddr]) :=
    generated_sampleInfo (-1) (by simp) (by simp)
  have hmany : ∀ n, 0 < n → Generated samplePlatform (sampleInfo 0 (List.replicate n sampleAddr)) :=
    fun n hn => generated_sampleInfo 0 (by simpa using hn.ne')
      fun addr haddr => Or.inl (List.eq_of_mem_replicate haddr)
  have hnone : ∀ n, n = 2 ^ 32 → ¬ ReadBackAsNumber samplePlatform Json.parse
      (sampleInfo 0 (List.replicate n sampleAddr)) := by
    intro n hn hread
    have hgenerated := hmany n (by omega)
    obtain ⟨json, root, hjson, hroot, -⟩ := hread _ (List.mem_singleton.mpr rfl)
    have hvalue := Json.reads_parse _ _ (spells_rootInfo hgenerated.plain)
    obtain rfl := Option.some.inj (hjson.symm.trans hvalue)
    have hcount : (sampleRank 0 (List.replicate n sampleAddr)).addrs.length = 2 ^ 32 := by
      rw [addrs_sampleRank, List.length_map, List.length_replicate, hn]
    rw [hgenerated.parse_eq_none (List.mem_singleton.mpr rfl) hcount] at hroot
    cases hroot
  refine ⟨⟨hone, fun hread => ?_⟩, hmany _ (by norm_num), hnone _ rfl⟩
  obtain ⟨json, root, -, -, hlocal, -⟩ := hread _ (List.mem_singleton.mpr rfl)
  have hneg : ((sampleRank (-1) [sampleAddr]).localId).toInt = -1 := by decide
  omega

end AscendShmem.TopoReader
