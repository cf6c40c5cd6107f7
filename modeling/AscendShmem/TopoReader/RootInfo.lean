import AscendShmem.Lib.Json
import AscendShmem.Lib.OrderedSet

/-!
# Root-info documents

What `TopoReader::ParseRootInfoJson` makes of a document: the entry of the rank whose device is asked
for, its levels, and its addresses, indexed over all levels. An address that does not parse is skipped
and keeps its index. A `std::shared_ptr<RankAddr>` is a `SharedAddr`, the address with the number of
`make_shared` calls before the one that made it, so that two pointers are equal exactly when these
numbers are.
-/

namespace AscendShmem.TopoReader

open Lib

/-- What the platform adds: `static_cast<uint32_t>` of a double, and `inet_pton`. -/
structure Platform where
  floatToUint32 : UInt64 → UInt32
  inetPton4 : String → Option (List.Vector UInt8 4)
  inetPton6 : String → Option (List.Vector UInt8 16)

/-- The sixteen bytes of an EID. -/
abbrev EidData := List.Vector UInt8 16

/-- `NetType` -/
inductive NetType where
  | mesh
  | clos
  | topoFileDesc
deriving DecidableEq

/-- `RankAddrType` -/
inductive RankAddrType where
  | eid
  | ipv4
  | ipv6
deriving DecidableEq

/-- `LevelInfo` -/
structure LevelInfo where
  netLayer : UInt32
  netInstanceId : String
  netType : NetType
  netAttr : String
deriving DecidableEq

/-- `RankAddr` -/
structure RankAddr where
  addrType : RankAddrType
  eidData : EidData
  planeId : String
  ports : List String
  levelInfo : LevelInfo
deriving DecidableEq

/-- A shared pointer to an address: the object, and what it points to. -/
structure SharedAddr where
  object : ℕ
  addr : RankAddr
deriving DecidableEq

/-- An element of `eidIndexToRankAddr`. -/
structure EidEntry where
  eidIndex : UInt32
  rankAddr : SharedAddr
deriving DecidableEq

/-- The entries are ordered by their index. -/
def EidEntry.key (entry : EidEntry) : ℕ := entry.eidIndex.toNat

/-- An element of `portsToRankAddr`. -/
structure PortEntry where
  port : String
  rankAddr : SharedAddr

/-- `RootInfo` -/
structure RootInfo where
  topoFilePath : String
  deviceId : UInt32
  localId : UInt32
  totalEidCount : UInt32
  levels : List LevelInfo
  eidIndexToRankAddr : OrderedSet EidEntry.key
  portsToRankAddr : OrderedSet PortEntry.port

/-! ## Fields -/

/-- `NetTypeFromString` -/
def netTypeFromString (netType : String) : Option NetType :=
  if netType = "TOPO_FILE_DESC" then some .topoFileDesc
  else if netType = "MESH" then some .mesh
  else if netType = "CLOS" then some .clos
  else none

/-- `RankAddrTypeFromString` -/
def rankAddrTypeFromString (addrType : String) : Option RankAddrType :=
  if addrType = "EID" then some .eid
  else if addrType = "IPV4" then some .ipv4
  else if addrType = "IPV6" then some .ipv6
  else none

/-- `std::isspace` -/
def isSpace (c : Char) : Bool := c = ' ' || (9 ≤ c.toNat && c.toNat ≤ 13)

/-- The value of a digit; what is no digit in base 36 has none. -/
def digitValue (c : Char) : ℕ :=
  if c.isDigit then c.toNat - 48
  else if c.isLower then c.toNat - 87
  else if c.isUpper then c.toNat - 55
  else 36

/-- The longest run of digits, and its value. -/
def stoulDigits (base : ℕ) (text : List Char) : Option ℕ :=
  let digits := text.takeWhile fun c => digitValue c < base
  if digits = [] then none
  else some (digits.foldl (fun value c => value * base + digitValue c) 0)

/-- `std::stoul` of texts without the prefix `0x`; `none` is a thrown exception. A negative number is
negated in the 64 bits. -/
def stoul (base : ℕ) (text : List Char) : Option UInt64 :=
  let number (negative : Bool) (text : List Char) := (stoulDigits base text).bind fun value =>
    if 2 ^ 64 ≤ value then none
    else some (if negative then -UInt64.ofNat value else UInt64.ofNat value)
  match text.dropWhile isSpace with
  | '-' :: rest => number true rest
  | '+' :: rest => number false rest
  | rest => number false rest

/-- `TryGet` of a `std::string`. -/
def tryGetString : Json → Option String
  | .string s => some s
  | _ => none

/-- `TryGet` of a `uint32_t`. -/
def tryGetUint32 (platform : Platform) : Json → Option UInt32
  | .string s => (stoul 10 s.toList).map UInt64.toUInt32
  | .unsigned n => some n.toUInt32
  | .integer n => some (UInt32.ofInt n.toInt)
  | .float bits => some (platform.floatToUint32 bits)
  | _ => none

/-- `TryGet` of a `std::vector<std::string>`: elements that are no strings are left out. -/
def tryGetStrings : Json → Option (List String)
  | .array elements => some (elements.filterMap tryGetString)
  | _ => none

/-- `GetRequiredField` -/
def getRequiredField {α : Type} (tryGet : Json → Option α) (obj : Json) (key : String) : Option α :=
  (obj.find key).bind tryGet

/-- The field, or what the variable held before. -/
def getOptionalField {α : Type} (tryGet : Json → Option α) (obj : Json) (key : String) (out : α) : α :=
  ((obj.find key).bind tryGet).getD out

/-- `GetRequiredArray` -/
def getRequiredArray (obj : Json) (key : String) (requireNonEmpty : Bool) : Option (List Json) :=
  match obj.find key with
  | some (.array elements) => if requireNonEmpty && elements.isEmpty then none else some elements
  | _ => none

/-- A list is read if each of its elements is. -/
theorem mapM_eq_some {α β : Type*} {f : α → Option β} {g : α → β} {l : List α}
    (h : ∀ a ∈ l, f a = some (g a)) : l.mapM f = some (l.map g) := by
  induction l with
  | nil => rfl
  | cons a l ih =>
    rw [List.mapM_cons, h a List.mem_cons_self, ih fun b hb => h b (List.mem_cons_of_mem a hb)]
    rfl

/-! ## Addresses -/

namespace EidConverter

/-- `get<int32_t>` of an integer, where it is a byte. -/
def byteOf (value : Int32) : Option UInt8 :=
  if value.toInt < 0 || 0xff < value.toInt then none else some (UInt8.ofInt value.toInt)

/-- An element of an array of bytes. -/
def byteOfElement : Json → Option UInt8
  | .unsigned n => byteOf n.toUInt32.toInt32
  | .integer n => byteOf n.toInt32
  | _ => none

/-- An EID has sixteen bytes. -/
def eidOfBytes (bytes : List UInt8) : Option EidData :=
  if h : bytes.length = 16 then some ⟨bytes, h⟩ else none

/-- `std::isxdigit` -/
def isXdigit (c : Char) : Bool :=
  c.isDigit || ('a' ≤ c && c ≤ 'f') || ('A' ≤ c && c ≤ 'F')

/-- The hex digits of a string in lower case, filled up with zeros in front. -/
def normalized (text : List Char) : List Char :=
  let digits := (text.filter isXdigit).map Char.toLower
  List.replicate (32 - digits.length) '0' ++ digits

/-- A byte from its two digits. -/
def hexByte (digits : List Char) (i : ℕ) : Option UInt8 :=
  (stoul 16 ((digits.drop (i * 2)).take 2)).map UInt64.toUInt8

/-- `FromPlainEid` -/
def fromPlainEid : Json → Option EidData
  | .array elements => (elements.mapM byteOfElement).bind eidOfBytes
  | .string s =>
    let digits := normalized s.toList
    if digits.length ≠ 32 then none
    else ((List.range 16).mapM (hexByte digits)).bind eidOfBytes
  | _ => none

/-- `FromIpv4` -/
def fromIpv4 (platform : Platform) : Json → Option EidData
  | .string s => (platform.inetPton4 s).map fun bytes => ⟨List.replicate 12 0 ++ bytes.toList, by simp⟩
  | _ => none

/-- `FromIpv6` -/
def fromIpv6 (platform : Platform) : Json → Option EidData
  | .string s => platform.inetPton6 s
  | _ => none

/-- `Convert` -/
def convert (platform : Platform) : RankAddrType → Json → Option EidData
  | .eid, addr => fromPlainEid addr
  | .ipv4, addr => fromIpv4 platform addr
  | .ipv6, addr => fromIpv6 platform addr

end EidConverter

/-! ## Levels and entries -/

variable (platform : Platform)

/-- `ParseLevelInfo` -/
def parseLevelInfo (levelJson : Json) : Option LevelInfo := do
  let netType ← (getRequiredField tryGetString levelJson "net_type").bind netTypeFromString
  let netLayer ← getRequiredField (tryGetUint32 platform) levelJson "net_layer"
  let netInstanceId ← getRequiredField tryGetString levelJson "net_instance_id"
  some ⟨netLayer, netInstanceId, netType, getOptionalField tryGetString levelJson "net_attr" ""⟩

/-- The address type as it is written, `EID` where there is none. -/
def addrTypeText (rankAddrJson : Json) : Option String :=
  match rankAddrJson.find "addr_type" with
  | some value => tryGetString value
  | none => some "EID"

/-- `std::toupper` of each character. -/
def toUpper (s : String) : String := String.ofList (s.toList.map Char.toUpper)

/-- `ParseRankAddr` -/
def parseRankAddr (levelInfo : LevelInfo) (rankAddrJson : Json) : Option RankAddr := do
  let addr ← rankAddrJson.find "addr"
  let addrType ← (addrTypeText rankAddrJson).bind fun text => rankAddrTypeFromString (toUpper text)
  let eidData ← EidConverter.convert platform addrType addr
  let planeId ← getRequiredField tryGetString rankAddrJson "plane_id"
  some ⟨addrType, eidData, planeId, getOptionalField tryGetStrings rankAddrJson "ports" [], levelInfo⟩

/-- The loops over the levels and their entries: what they have filled in, `eidIndex`, and the number of
entries visited. -/
structure Scan where
  levels : List LevelInfo
  eidIndexToRankAddr : OrderedSet EidEntry.key
  portsToRankAddr : OrderedSet PortEntry.port
  eidIndex : UInt32
  objects : ℕ

/-- The scan before the first entry. -/
def Scan.init : Scan := ⟨[], OrderedSet.empty, OrderedSet.empty, 0, 0⟩

/-- The turn of one entry; `none` is an entry that does not parse. -/
def Scan.visit (scan : Scan) : Option RankAddr → Scan
  | none => { scan with eidIndex := scan.eidIndex + 1, objects := scan.objects + 1 }
  | some addr =>
    let rankAddr : SharedAddr := ⟨scan.objects, addr⟩
    { scan with
      eidIndexToRankAddr := scan.eidIndexToRankAddr.assign ⟨scan.eidIndex, rankAddr⟩
      portsToRankAddr := addr.ports.foldl (fun ports port => ports.assign ⟨port, rankAddr⟩)
        scan.portsToRankAddr
      eidIndex := scan.eidIndex + 1
      objects := scan.objects + 1 }

/-- The loop over the addresses of a level. -/
def scanEntries (levelInfo : LevelInfo) : List Json → Scan → Scan
  | [], scan => scan
  | rankAddrJson :: rest, scan =>
    scanEntries levelInfo rest (scan.visit (parseRankAddr platform levelInfo rankAddrJson))

/-- The loop over the levels. -/
def scanLevels : List Json → Scan → Option Scan
  | [], scan => some scan
  | levelJson :: rest, scan => do
    let levelInfo ← parseLevelInfo platform levelJson
    let rankAddrList ← getRequiredArray levelJson "rank_addr_list" false
    scanLevels rest
      (scanEntries platform levelInfo rankAddrList { scan with levels := scan.levels ++ [levelInfo] })

/-- The first rank with the device, with its local id. -/
def findRank (phyId : UInt32) : List Json → Option (UInt32 × Json)
  | [] => none
  | rankJson :: rest => do
    let deviceId ← getRequiredField (tryGetUint32 platform) rankJson "device_id"
    let localId ← getRequiredField (tryGetUint32 platform) rankJson "local_id"
    if deviceId ≠ phyId then findRank phyId rest else some (localId, rankJson)

/-- What is filled in of the rank that was found. -/
def Scan.rootInfo (scan : Scan) (topoFilePath : String) (deviceId localId : UInt32) : RootInfo :=
  ⟨topoFilePath, deviceId, localId, UInt32.ofNat scan.eidIndexToRankAddr.toList.length, scan.levels,
    scan.eidIndexToRankAddr, scan.portsToRankAddr⟩

/-- `ParseRootInfoJson` -/
def parseRootInfoJson (rootInfoJson : Json) (phyId : UInt32) : Option RootInfo := do
  let topoFilePath ← getRequiredField tryGetString rootInfoJson "topo_file_path"
  let rankList ← getRequiredArray rootInfoJson "rank_list" false
  let rank ← findRank platform phyId rankList
  let levelList ← getRequiredArray rank.2 "level_list" true
  let scan ← scanLevels platform levelList Scan.init
  if (scan.rootInfo topoFilePath phyId rank.1).totalEidCount = 0 then none
  else some (scan.rootInfo topoFilePath phyId rank.1)

/-! ## The flattened lists -/

/-- The entries of a level; `none` where one does not parse. -/
def levelEntries (levelJson : Json) : List (Option RankAddr) :=
  match parseLevelInfo platform levelJson, getRequiredArray levelJson "rank_addr_list" false with
  | some levelInfo, some rankAddrList => rankAddrList.map (parseRankAddr platform levelInfo)
  | _, _ => []

/-- The entries of a rank, level after level. -/
def flattened (rootInfoJson : Json) (phyId : UInt32) : List (Option RankAddr) :=
  (((getRequiredArray rootInfoJson "rank_list" false).bind (findRank platform phyId)).bind fun rank =>
    getRequiredArray rank.2 "level_list" true).elim [] (·.flatMap (levelEntries platform))

end AscendShmem.TopoReader
