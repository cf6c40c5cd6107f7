import AscendShmem.TopoReader.RootInfo

/-!
# The text of a root info

`aclshmemi_root_info_to_string` and the functions it is made of, with the value that each text spells.
The texts have a blank behind every colon, a comma without one behind every field, and between the
elements of a list a comma, which only in a level list has a blank behind it.
-/

namespace AscendShmem.TopoReader

open Lib

/-- `aclshmemi_addr_t` -/
structure AclshmemiAddr where
  addrType : String
  addr : String
  ports : List String
  planeId : String

/-- `aclshmemi_net_layer_t` -/
structure AclshmemiNetLayer where
  level : Int32
  instanceId : String
  netType : String
  netAttr : String
  addrList : List AclshmemiAddr

/-- `aclshmemi_rank_t` -/
structure AclshmemiRank where
  deviceId : Int32
  localId : Int32
  levelList : List AclshmemiNetLayer

/-- The number of ranks is a `size_t`. -/
structure AclshmemiRootInfo where
  version : String
  topoFilePath : String
  ranks : List AclshmemiRank
  size_lt : ranks.length < 2 ^ 64

/-! ## Texts -/

/-- A byte as `%02x`. -/
def hexPair (b : UInt8) : List Char := [(b.toNat / 16).digitChar, (b.toNat % 16).digitChar]

/-- `aclshmemi_addr_set_eid` -/
def aclshmemiAddrSetEid (addr : AclshmemiAddr) (eid : EidData) : AclshmemiAddr :=
  { addr with addrType := "EID", addr := String.ofList (eid.toList.flatMap hexPair) }

/-- `aclshmemi_addr_set_ip` -/
def aclshmemiAddrSetIp (addr : AclshmemiAddr) (ip : String) : AclshmemiAddr :=
  { addr with addrType := "IPV4", addr := ip }

/-- The loop over the elements of a list. -/
def joined (separator : String) : List String → String
  | [] => ""
  | [text] => text
  | text :: next :: rest => text ++ (separator ++ joined separator (next :: rest))

/-- A string between quotation marks. -/
def quoted (s : String) : String := "\"" ++ (s ++ "\"")

/-- `aclshmemi_addr_to_string` -/
def aclshmemiAddrToString (addr : AclshmemiAddr) : String :=
  "\x7b\"addr_type\": \"" ++ (addr.addrType ++ ("\"," ++
    ("\"addr\": \"" ++ (addr.addr ++ ("\"," ++
    ("\"plane_id\": \"" ++ (addr.planeId ++ ("\"," ++
    ("\"ports\": [" ++ (joined "," (addr.ports.map quoted) ++ "]\x7d"))))))))))

/-- `aclshmemi_net_layer_to_string` -/
def aclshmemiNetLayerToString (layer : AclshmemiNetLayer) : String :=
  "\x7b\"net_layer\": " ++ (toString layer.level.toInt ++ ("," ++
    ("\"net_instance_id\": \"" ++ (layer.instanceId ++ ("\"," ++
    ("\"net_type\": \"" ++ (layer.netType ++ ("\"," ++
    ("\"net_attr\": \"" ++ (layer.netAttr ++ ("\"," ++
    ("\"rank_addr_list\": [" ++
      (joined "," (layer.addrList.map aclshmemiAddrToString) ++ "]\x7d")))))))))))))

/-- `aclshmemi_rank_to_string` -/
def aclshmemiRankToString (rank : AclshmemiRank) : String :=
  "\x7b\"device_id\": " ++ (toString rank.deviceId.toInt ++ ("," ++
    ("\"local_id\": " ++ (toString rank.localId.toInt ++ ("," ++
    ("\"level_list\": [" ++
      (joined ", " (rank.levelList.map aclshmemiNetLayerToString) ++ "]\x7d")))))))

/-- `aclshmemi_root_info_to_string` -/
def aclshmemiRootInfoToString (rootInfo : AclshmemiRootInfo) : String :=
  "\x7b\"version\": \"" ++ (rootInfo.version ++ ("\"," ++
    ("\"topo_file_path\": \"" ++ (rootInfo.topoFilePath ++ ("\"," ++
    ("\"rank_count\": " ++ (toString rootInfo.ranks.length ++ ("," ++
    ("\"rank_list\": [" ++
      (joined "," (rootInfo.ranks.map aclshmemiRankToString) ++ "]\x7d"))))))))))

/-! ## Values -/

/-- What the text of an `int` spells. -/
def intValue (n : Int32) : Json :=
  if n.toInt < 0 then .integer (Int64.ofInt n.toInt) else .unsigned (UInt64.ofNat n.toInt.toNat)

/-- The value an address is written for. -/
def addrValue (addr : AclshmemiAddr) : Json :=
  .object [("addr_type", .string addr.addrType), ("addr", .string addr.addr),
    ("plane_id", .string addr.planeId), ("ports", .array (addr.ports.map Json.string))]

/-- The value of a level. -/
def netLayerValue (layer : AclshmemiNetLayer) : Json :=
  .object [("net_layer", intValue layer.level), ("net_instance_id", .string layer.instanceId),
    ("net_type", .string layer.netType), ("net_attr", .string layer.netAttr),
    ("rank_addr_list", .array (layer.addrList.map addrValue))]

/-- The value of a rank. -/
def rankValue (rank : AclshmemiRank) : Json :=
  .object [("device_id", intValue rank.deviceId), ("local_id", intValue rank.localId),
    ("level_list", .array (rank.levelList.map netLayerValue))]

/-- The value of a document. -/
def rootInfoValue (rootInfo : AclshmemiRootInfo) : Json :=
  .object [("version", .string rootInfo.version), ("topo_file_path", .string rootInfo.topoFilePath),
    ("rank_count", .unsigned (UInt64.ofNat rootInfo.ranks.length)),
    ("rank_list", .array (rootInfo.ranks.map rankValue))]

/-! ## Strings without escapes -/

/-- No character has to be escaped. -/
def PlainString (s : String) : Prop := ∀ c ∈ s.toList, Json.Plain c

/-- An address whose texts need no escapes. -/
structure PlainAddr (addr : AclshmemiAddr) : Prop where
  addrType : PlainString addr.addrType
  addrText : PlainString addr.addr
  ports : ∀ port ∈ addr.ports, PlainString port
  planeId : PlainString addr.planeId

/-- A level whose texts need no escapes. -/
structure PlainNetLayer (layer : AclshmemiNetLayer) : Prop where
  instanceId : PlainString layer.instanceId
  netType : PlainString layer.netType
  netAttr : PlainString layer.netAttr
  addrList : ∀ addr ∈ layer.addrList, PlainAddr addr

/-- A document whose texts need no escapes. -/
structure PlainRootInfo (rootInfo : AclshmemiRootInfo) : Prop where
  version : PlainString rootInfo.version
  topoFilePath : PlainString rootInfo.topoFilePath
  levels : ∀ rank ∈ rootInfo.ranks, ∀ layer ∈ rank.levelList, PlainNetLayer layer

/-! ## The texts spell the values -/

theorem blank_nil : Json.Blank [] := fun c hc => by cases hc

theorem blank_space : Json.Blank [' '] := by
  intro c hc
  rw [List.mem_singleton.mp hc]
  rfl

theorem spells_string {s : String} (hs : PlainString s) :
    Json.Spells ('"' :: (s.toList ++ ['"'])) (.string s) := .string hs

theorem toList_quoted (s : String) : (quoted s).toList = '"' :: (s.toList ++ ['"']) := by
  simp [quoted]

/-- Digits spell their number. -/
theorem spells_size {n : ℕ} (hn : n < 2 ^ 64) :
    Json.Spells (toString n).toList (.unsigned (UInt64.ofNat n)) := by
  have htoNat : (UInt64.ofNat n).toNat = n := UInt64.toNat_ofNat_of_lt' hn
  have hspells := Json.Spells.unsigned (UInt64.ofNat n)
  rw [htoNat] at hspells
  simpa [Nat.toString_eq_ofList_toDigits] using hspells

theorem spells_int (n : Int32) : Json.Spells (toString n.toInt).toList (intValue n) := by
  have hlow := n.le_toInt
  have hhigh := n.toInt_lt
  rw [intValue]
  split
  · next hneg =>
    have htoInt : (Int64.ofInt n.toInt).toInt = n.toInt :=
      Int64.toInt_ofInt_of_le (by omega) (by omega)
    have hspells := Json.Spells.integer (n := Int64.ofInt n.toInt) (by rw [htoInt]; exact hneg)
    obtain ⟨k, hk⟩ := Int.eq_negSucc_of_lt_zero hneg
    rw [htoInt] at hspells
    rw [hk] at hspells ⊢
    have htext : toString (Int.negSucc k) = "-" ++ toString (k + 1) := rfl
    rw [htext]
    simpa [Nat.toString_eq_ofList_toDigits] using hspells
  · next hnonneg =>
    obtain ⟨k, hk⟩ := Int.eq_ofNat_of_zero_le (not_lt.mp hnonneg)
    rw [hk] at hhigh ⊢
    exact spells_size (by omega)

/-- Elements with a comma between them, and behind it a gap. -/
theorem spellsElements_joined {α : Type} {gap : List Char} (hgap : Json.Blank gap) {separator : String}
    (hseparator : separator.toList = ',' :: gap) {text : α → String} {value : α → Json} {l : List α}
    (h : ∀ a ∈ l, Json.Spells (text a).toList (value a)) :
    Json.SpellsElements (joined separator (l.map text)).toList (l.map value) := by
  induction l with
  | nil => exact .nil
  | cons a l ih =>
    have hfirst := h a List.mem_cons_self
    have hrest := ih fun b hb => h b (List.mem_cons_of_mem a hb)
    rcases l with _ | ⟨b, l⟩
    · exact .last hfirst
    · have htext : (joined separator ((a :: b :: l).map text)).toList
          = (text a).toList ++ ',' :: (gap ++ (joined separator ((b :: l).map text)).toList) := by
        simp [joined, hseparator]
      rw [htext]
      exact .more hfirst hgap hrest

/-- The text of an address spells its value. -/
theorem spells_addr {addr : AclshmemiAddr} (h : PlainAddr addr) :
    Json.Spells (aclshmemiAddrToString addr).toList (addrValue addr) := by
  have hports : Json.SpellsElements (joined "," (addr.ports.map quoted)).toList
      (addr.ports.map Json.string) :=
    spellsElements_joined blank_nil rfl fun port hport => by
      rw [toList_quoted]
      exact spells_string (h.ports port hport)
  have hmembers : Json.SpellsMembers _ [("addr_type", .string addr.addrType), ("addr", .string addr.addr),
      ("plane_id", .string addr.planeId), ("ports", .array (addr.ports.map Json.string))] :=
    .more (by simp [Json.Plain]) blank_space (spells_string h.addrType) blank_nil
      (.more (by simp [Json.Plain]) blank_space (spells_string h.addrText) blank_nil
      (.more (by simp [Json.Plain]) blank_space (spells_string h.planeId) blank_nil
      (.last (by simp [Json.Plain]) blank_space (.array hports))))
  have hobject : Json.Spells _ (addrValue addr) := .object hmembers (by simp)
  simpa [aclshmemiAddrToString, Json.quote] using hobject

/-- The text of a level spells its value. -/
theorem spells_netLayer {layer : AclshmemiNetLayer} (h : PlainNetLayer layer) :
    Json.Spells (aclshmemiNetLayerToString layer).toList (netLayerValue layer) := by
  have haddrs : Json.SpellsElements (joined "," (layer.addrList.map aclshmemiAddrToString)).toList
      (layer.addrList.map addrValue) :=
    spellsElements_joined blank_nil rfl fun addr haddr => spells_addr (h.addrList addr haddr)
  have hmembers : Json.SpellsMembers _ [("net_layer", intValue layer.level),
      ("net_instance_id", .string layer.instanceId), ("net_type", .string layer.netType),
      ("net_attr", .string layer.netAttr), ("rank_addr_list", .array (layer.addrList.map addrValue))] :=
    .more (by simp [Json.Plain]) blank_space (spells_int layer.level) blank_nil
      (.more (by simp [Json.Plain]) blank_space (spells_string h.instanceId) blank_nil
      (.more (by simp [Json.Plain]) blank_space (spells_string h.netType) blank_nil
      (.more (by simp [Json.Plain]) blank_space (spells_string h.netAttr) blank_nil
      (.last (by simp [Json.Plain]) blank_space (.array haddrs)))))
  have hobject : Json.Spells _ (netLayerValue layer) := .object hmembers (by simp)
  simpa [aclshmemiNetLayerToString, Json.quote] using hobject

/-- The text of a rank spells its value. -/
theorem spells_rank {rank : AclshmemiRank} (h : ∀ layer ∈ rank.levelList, PlainNetLayer layer) :
    Json.Spells (aclshmemiRankToString rank).toList (rankValue rank) := by
  have hlevels : Json.SpellsElements (joined ", " (rank.levelList.map aclshmemiNetLayerToString)).toList
      (rank.levelList.map netLayerValue) :=
    spellsElements_joined blank_space rfl fun layer hlayer => spells_netLayer (h layer hlayer)
  have hmembers : Json.SpellsMembers _ [("device_id", intValue rank.deviceId),
      ("local_id", intValue rank.localId), ("level_list", .array (rank.levelList.map netLayerValue))] :=
    .more (by simp [Json.Plain]) blank_space (spells_int rank.deviceId) blank_nil
      (.more (by simp [Json.Plain]) blank_space (spells_int rank.localId) blank_nil
      (.last (by simp [Json.Plain]) blank_space (.array hlevels)))
  have hobject : Json.Spells _ (rankValue rank) := .object hmembers (by simp)
  simpa [aclshmemiRankToString, Json.quote] using hobject

/-- The text of a root info without characters to escape spells its value. -/
theorem spells_rootInfo {rootInfo : AclshmemiRootInfo} (h : PlainRootInfo rootInfo) :
    Json.Spells (aclshmemiRootInfoToString rootInfo).toList (rootInfoValue rootInfo) := by
  have hranks : Json.SpellsElements (joined "," (rootInfo.ranks.map aclshmemiRankToString)).toList
      (rootInfo.ranks.map rankValue) :=
    spellsElements_joined blank_nil rfl fun rank hrank => spells_rank (h.levels rank hrank)
  have hmembers : Json.SpellsMembers _ [("version", .string rootInfo.version),
      ("topo_file_path", .string rootInfo.topoFilePath),
      ("rank_count", .unsigned (UInt64.ofNat rootInfo.ranks.length)),
      ("rank_list", .array (rootInfo.ranks.map rankValue))] :=
    .more (by simp [Json.Plain]) blank_space (spells_string h.version) blank_nil
      (.more (by simp [Json.Plain]) blank_space (spells_string h.topoFilePath) blank_nil
      (.more (by simp [Json.Plain]) blank_space (spells_size rootInfo.size_lt) blank_nil
      (.last (by simp [Json.Plain]) blank_space (.array hranks))))
  have hobject : Json.Spells _ (rootInfoValue rootInfo) := .object hmembers (by simp)
  simpa [aclshmemiRootInfoToString, Json.quote] using hobject

end AscendShmem.TopoReader
