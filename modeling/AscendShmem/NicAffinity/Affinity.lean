import AscendShmem.TopoXml.TreeTags

/-!
# The NPU–NIC affinity of a virtual topology

`build_affinity_info` on the tags that the XML parser returns. A group is an outermost `<pci>` or
`<ub>` element. The NPUs of a `<pci>` group are found by the bus ids below it, those of a `<ub>`
group by their physical ids; every NPU of a group gets every NIC of it. What the driver says about
the host is a parameter: which NPUs the process sees, and their PCI addresses.
-/

namespace AscendShmem.NicAffinity

open Lib Lib.Exec TopoXml

/-- `ACLSHMEMI_MAX_NPU_COUNT` -/
def maxNpuCount : ℕ := 64
/-- `MAX_AFFINITY_GROUP_COUNT` -/
def maxAffinityGroupCount : ℕ := 16
/-- `MAX_NIC_COUNT` -/
def maxNicCount : ℕ := 64
/-- `MAX_NIC_NAME_LENGTH` -/
def maxNicNameLength : ℕ := 64

/-- The fields of `dcmi_pcie_info_all` that are read. -/
structure PcieInfo where
  domain : UInt32
  bdfBusid : UInt32
  bdfDeviceid : UInt32
  bdfFuncid : UInt32
deriving DecidableEq, Repr

/-- What the driver answers. -/
structure Hal where
  /-- `get_user_id_from_phy_id` -/
  userIdFromPhyId : ℕ → Option UInt32
  /-- `get_device_pcie_info`, with no value where the code of the call is not zero -/
  devicePcieInfo : ℕ → Option PcieInfo

/-- The driver knows a user id of the NPU. -/
def Hal.visible (hal : Hal) (phyId : ℕ) : Bool := (hal.userIdFromPhyId phyId).isSome

/-- The NPUs and NICs of one element of the topology. -/
structure AffinityGroup where
  npuIds : List ℕ
  nicIndices : List ℕ
deriving DecidableEq, Repr

/-- The NICs, the groups, and the table of which NPU goes with which NIC. -/
structure AffinityInfo where
  nicNames : List Bytes
  groups : List AffinityGroup
  affined : List (List Bool)
deriving DecidableEq, Repr

/-- The name of the root element. -/
def systemName : Bytes := ascii ['s', 'y', 's', 't', 'e', 'm']
/-- The name of an NPU element. -/
def npuName : Bytes := ascii ['n', 'p', 'u']
/-- The name of a NIC element. -/
def netName : Bytes := ascii ['n', 'e', 't']
/-- The attribute with a bus address. -/
def busidAttr : Bytes := ascii ['b', 'u', 's', 'i', 'd']
/-- The attribute with the physical id of an NPU. -/
def chipphyidAttr : Bytes := ascii ['c', 'h', 'i', 'p', 'p', 'h', 'y', 'i', 'd']
/-- The attribute with the name of a NIC. -/
def nameAttr : Bytes := ascii ['n', 'a', 'm', 'e']

/-- `aclshmemi_xml_tag_t::find_attr` -/
def findAttr (tag : XmlTag) (attrName : Bytes) : Option Bytes :=
  (tag.attrs.find? fun attr => attr.name = attrName).map XmlAttr.value

/-! ## The texts of the attributes -/

/-- `isdigit` -/
def isDigit (b : UInt8) : Bool := byte '0' ≤ b ∧ b ≤ byte '9'

/-- `std::isxdigit` -/
def isXdigit (b : UInt8) : Bool :=
  isDigit b ∨ (byte 'a' ≤ b ∧ b ≤ byte 'f') ∨ (byte 'A' ≤ b ∧ b ≤ byte 'F')

/-- `std::isalnum` -/
def isAlnum (b : UInt8) : Bool :=
  isDigit b ∨ (byte 'a' ≤ b ∧ b ≤ byte 'z') ∨ (byte 'A' ≤ b ∧ b ≤ byte 'Z')

/-- `std::tolower` -/
def toLower (b : UInt8) : UInt8 := if byte 'A' ≤ b ∧ b ≤ byte 'Z' then b + 32 else b

/-- The length of a bus address such as 0000:c1:00.0. -/
def bdfLength : ℕ := 12

/-- `0000:00:00.0` with hex digits, in lower case. -/
def normalizeBdf (value : Bytes) : Option Bytes :=
  if value.length = bdfLength ∧ value[4]? = some (byte ':') ∧ value[7]? = some (byte ':') ∧
      value[10]? = some (byte '.') ∧
      ∀ i ∈ List.range value.length, i = 4 ∨ i = 7 ∨ i = 10 ∨ value[i]?.any isXdigit then
    some (value.map toLower)
  else none

/-- The loop of `parse_phy_id`. -/
def parsePhyIdLoop : Bytes → ℕ → Option ℕ
  | [], parsed => some parsed
  | ch :: rest, parsed =>
    if isDigit ch then
      -- `(MAX_PHY_ID - digit) / 10` in `int`; a digit is at most nine
      if (maxNpuCount - 1 - (ch - byte '0').toNat) / 10 < parsed then none
      else parsePhyIdLoop rest (parsed * 10 + (ch - byte '0').toNat)
    else none

/-- `parse_phy_id` -/
def parsePhyId (value : Bytes) : Option ℕ :=
  if value = [] then none else parsePhyIdLoop value 0

/-- `is_safe_device_name` -/
def isSafeDeviceName (name : Bytes) : Bool :=
  name ≠ [] ∧ name.length < maxNicNameLength ∧ name ≠ ascii ['.'] ∧ name ≠ ascii ['.', '.'] ∧
    ∀ ch ∈ name, isAlnum ch ∨ ch = byte '_' ∨ ch = byte '-' ∨ ch = byte '.'

/-- `%0<width>x` -/
def hexText (width : ℕ) (value : UInt32) : Bytes :=
  let digits := ascii (Nat.toDigits 16 value.toNat)
  List.replicate (width - digits.length) (byte '0') ++ digits

/-- The PCI address of an NPU. -/
def formatNpuBdf (hal : Hal) (phyId : ℕ) : Option Bytes :=
  match hal.devicePcieInfo phyId with
  | none => none
  | some info =>
    let bdf := hexText 4 info.domain ++ [byte ':'] ++ hexText 2 info.bdfBusid ++ [byte ':'] ++
      hexText 2 info.bdfDeviceid ++ [byte '.'] ++ hexText 1 info.bdfFuncid
    -- `snprintf_s` fails where the text does not fit into the buffer
    if bdf.length < 32 then normalizeBdf bdf else none

/-! ## One group -/

/-- `bdf_to_npu`; a key that is present keeps its value. -/
abbrev BdfTable := List (Bytes × ℕ)

/-- The NPU of a bus address. -/
def BdfTable.find (table : BdfTable) (bdf : Bytes) : Option ℕ :=
  (table.find? fun entry => entry.1 = bdf).map Prod.snd

/-- `emplace` of an unordered map: a key that is there keeps its value. -/
def BdfTable.emplace (table : BdfTable) (bdf : Bytes) (phyId : ℕ) : BdfTable :=
  if (table.find bdf).isSome then table else table ++ [(bdf, phyId)]

/-- One turn of the loop of `build_bdf_table`. -/
def addBdf (hal : Hal) (table : BdfTable) (phyId : ℕ) : BdfTable :=
  if hal.visible phyId then
    match formatNpuBdf hal phyId with
    | none => table
    | some bdf => table.emplace bdf phyId
  else table

/-- `build_bdf_table` -/
def buildBdfTable (hal : Hal) : BdfTable := (List.range maxNpuCount).foldl (addBdf hal) []

/-- `add_unique_npu` -/
def addUniqueNpu (group : AffinityGroup) (phyId : ℕ) : AffinityGroup :=
  if phyId ∈ group.npuIds then group else { group with npuIds := group.npuIds ++ [phyId] }

/-- The last two lines of `add_unique_nic`. -/
def addUniqueNicIndex (group : AffinityGroup) (nicIndex : ℕ) : AffinityGroup :=
  if nicIndex ∈ group.nicIndices then group
  else { group with nicIndices := group.nicIndices ++ [nicIndex] }

/-- The NIC names of all groups and the group that is being built. -/
structure Building where
  nicNames : List Bytes
  group : AffinityGroup
deriving DecidableEq, Repr

/-- `add_unique_nic` -/
def addUniqueNic (st : Building) (name : Bytes) : Parse Building :=
  if isSafeDeviceName name then
    if st.nicNames.idxOf name < st.nicNames.length then
      .ok { st with group := addUniqueNicIndex st.group (st.nicNames.idxOf name) }
    else if maxNicCount ≤ st.nicNames.length then
      reject "virtual topology contains too many NICs"
    else .ok ⟨st.nicNames ++ [name], addUniqueNicIndex st.group st.nicNames.length⟩
  else reject ("invalid NIC/HCA name '" ++ text name ++ "'")

/-- A `<pci>` element of a `<pci>` group. -/
def visitPci (table : BdfTable) (rootIndex i : ℕ) (tag : XmlTag) (group : AffinityGroup) :
    Parse AffinityGroup :=
  match findAttr tag busidAttr with
  | none | some [] =>
    if i = rootIndex then .ok group else reject "<pci> in an affinity group is missing busid"
  | some busId =>
    match normalizeBdf busId with
    | none => reject ("invalid PCI busid '" ++ text busId ++ "'")
    | some normalized =>
      match table.find normalized with
      | none => .ok group
      | some npu => .ok (addUniqueNpu group npu)

/-- An `<npu>` element of a `<ub>` group. -/
def visitNpu (hal : Hal) (tag : XmlTag) (group : AffinityGroup) : Parse AffinityGroup :=
  match (findAttr tag chipphyidAttr).bind parsePhyId with
  | none => reject "<npu> in a UB affinity group has invalid chipphyid"
  | some npuId => .ok (if hal.visible npuId then addUniqueNpu group npuId else group)

/-- The NPU that an element of a group stands for. -/
def visitDevice (hal : Hal) (table : BdfTable) (pcieGroup : Bool) (rootIndex i : ℕ) (tag : XmlTag)
    (group : AffinityGroup) : Parse AffinityGroup :=
  if pcieGroup ∧ tag.name = pciName then visitPci table rootIndex i tag group
  else if ¬ pcieGroup ∧ tag.name = npuName then visitNpu hal tag group
  else .ok group

/-- The NIC that an element of a group stands for. -/
def visitNet (tag : XmlTag) (st : Building) : Parse Building :=
  if tag.name = netName then
    match findAttr tag nameAttr with
    | none | some [] => reject "<net> in an affinity group is missing name"
    | some name => addUniqueNic st name
  else .ok st

section Groups

variable (hal : Hal) (tags : List XmlTag) (table : BdfTable)

/-- One turn of the inner loop of `build_affinity_info`. -/
def visitTag (pcieGroup : Bool) (rootIndex : ℕ) (st : Building) (i : ℕ) : Parse Building := do
  let inside ← isDescendantOrSelf tags i rootIndex
  if inside then
    let tag ← read tags i
    let group ← visitDevice hal table pcieGroup rootIndex i tag st.group
    visitNet tag ⟨st.nicNames, group⟩
  else .ok st

/-- One turn of the outer loop of `build_affinity_info`. -/
def visitGroup (st : List Bytes × List AffinityGroup) (rootIndex : ℕ) :
    Parse (List Bytes × List AffinityGroup) := do
  let root ← read tags rootIndex
  let built ← (List.range' rootIndex (tags.length - rootIndex)).foldlM
    (visitTag hal tags table (root.name = pciName) rootIndex) ⟨st.1, ⟨[], []⟩⟩
  .ok (built.nicNames, st.2 ++ [built.group])

/-- One turn of the loop that collects the roots of the groups. -/
def visitRoot (roots : List ℕ) (i : ℕ) : Parse (List ℕ) := do
  let tag ← read tags i
  if ¬ isGroupTag tag ∨ tag.selfClosing then .ok roots
  else
    let nested ← hasGroupAncestor tags tag
    if nested then .ok roots
    else if maxAffinityGroupCount ≤ roots.length then
      reject "virtual topology contains too many affinity groups"
    else .ok (roots ++ [i])

end Groups

/-! ## The whole topology -/

/-- One group's share of `affined`. -/
def affineGroup (affined : List (List Bool)) (group : AffinityGroup) : List (List Bool) :=
  group.npuIds.foldl (fun affined npuId =>
    if maxNpuCount ≤ npuId then affined
    else affined.modify npuId fun row =>
      group.nicIndices.foldl (fun row nicIndex => row.set nicIndex true) row) affined

/-- The table after every group. -/
def affinedTable (nicNames : List Bytes) (groups : List AffinityGroup) : List (List Bool) :=
  groups.foldl affineGroup
    (List.replicate maxNpuCount (List.replicate nicNames.length false))

/-- `tags[i].name == "pci"` for one of the roots. -/
def hasPcieGroup (tags : List XmlTag) (roots : List ℕ) : Bool :=
  roots.any fun i => tags[i]?.any fun tag => tag.name = pciName

/-- `build_affinity_info` behind the collection of the roots. -/
def buildGroups (hal : Hal) (tags : List XmlTag) (roots : List ℕ) : Parse AffinityInfo :=
  if roots = [] then reject "virtual topology contains no <pci> or <ub> affinity group"
  else if hasPcieGroup tags roots ∧ buildBdfTable hal = [] then
    reject "failed to obtain PCI BDF information for visible NPUs"
  else do
    -- the table is empty, and not read, where no group is a `<pci>` group
    let table := if hasPcieGroup tags roots then buildBdfTable hal else []
    let st ← roots.foldlM (visitGroup hal tags table) ([], [])
    if st.1 = [] then reject "virtual topology contains no NIC"
    else .ok ⟨st.1, st.2, affinedTable st.1 st.2⟩

/-- `build_affinity_info` -/
def buildAffinityInfo (hal : Hal) (tags : List XmlTag) : Parse AffinityInfo :=
  if tags.head?.map XmlTag.name = some systemName then do
    let roots ← (List.range tags.length).foldlM (visitRoot tags) []
    buildGroups hal tags roots
  else reject "virtual topology root element must be <system>"

end AscendShmem.NicAffinity
