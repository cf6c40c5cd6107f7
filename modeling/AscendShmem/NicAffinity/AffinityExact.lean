import AscendShmem.NicAffinity.GroupElements

/-!
# The affinity builder is exact

`build_affinity_info` accepts the topologies that are `Acceptable` and no others, and then an NPU is
affined to a NIC iff one outermost group has both. The loops go over the tags in preorder; each
carries what the tags seen so far stand for.
-/

namespace AscendShmem.NicAffinity

open Lib Lib.Exec TopoXml

/-! ## The table of the affinities -/

/-- An entry of the table. -/
def cell (affined : List (List Bool)) (npu nic : ℕ) : Option Bool := affined[npu]?.bind (·[nic]?)

/-- `info.affined[npu][nic]` -/
def AffinityInfo.isAffined (info : AffinityInfo) (npu nic : ℕ) : Bool :=
  (cell info.affined npu nic).getD false

/-- Setting a list of columns sets those and keeps the others. -/
theorem getElem?_setAll (indices : List ℕ) (row : List Bool) (nic : ℕ) :
    (indices.foldl (fun row nicIndex => row.set nicIndex true) row)[nic]? =
      row[nic]?.map fun b => b || decide (nic ∈ indices) := by
  induction indices generalizing row with
  | nil => simp
  | cons index indices ih =>
    rw [List.foldl_cons, ih, List.getElem?_set]
    by_cases heq : index = nic
    · by_cases hlt : index < row.length
      · simp [heq, heq ▸ hlt]
      · simp [heq, heq ▸ hlt]
    · cases row[nic]? <;> simp [heq, Ne.symm heq]

/-- A group affines its NPUs with its NICs and keeps the other cells. -/
theorem cell_affineGroup (affined : List (List Bool)) (hlength : affined.length = maxNpuCount)
    (group : AffinityGroup) (npu nic : ℕ) :
    cell (affineGroup affined group) npu nic = (cell affined npu nic).map fun b =>
      b || decide (npu ∈ group.npuIds ∧ nic ∈ group.nicIndices) := by
  unfold affineGroup
  induction group.npuIds generalizing affined with
  | nil => simp
  | cons npuId npuIds ih =>
    rw [List.foldl_cons]
    split
    case isTrue hlarge =>
      rw [ih affined hlength]
      by_cases heq : npu = npuId
      · have hnone : affined[npu]? = none := List.getElem?_eq_none (by omega)
        simp [cell, hnone]
      · simp [heq]
    case isFalse hsmall =>
      rw [ih _ (by rw [List.length_modify, hlength])]
      unfold cell
      rw [List.getElem?_modify]
      cases affined[npu]? with
      | none => rfl
      | some row =>
        by_cases heq : npuId = npu
        · subst heq
          simp only [if_true, Option.map_eq_map, Option.map_some, Option.bind_some,
            getElem?_setAll, List.mem_cons, true_or, true_and]
          cases row[nic]? with
          | none => rfl
          | some b => by_cases hnic : nic ∈ group.nicIndices <;> simp [hnic]
        · simp [heq, Ne.symm heq]

/-- A group does not change the number of rows. -/
theorem length_affineGroup (affined : List (List Bool)) (group : AffinityGroup) :
    (affineGroup affined group).length = affined.length := by
  unfold affineGroup
  induction group.npuIds generalizing affined with
  | nil => rfl
  | cons npuId npuIds ih =>
    rw [List.foldl_cons, ih]
    split
    · rfl
    · exact List.length_modify _ _ _

/-- A cell is set exactly if some group holds its NPU and its NIC. -/
theorem cell_affinedTable (nicNames : List Bytes) (groups : List AffinityGroup) (npu nic : ℕ) :
    cell (affinedTable nicNames groups) npu nic =
      if npu < maxNpuCount ∧ nic < nicNames.length then
        some (decide (∃ group ∈ groups, npu ∈ group.npuIds ∧ nic ∈ group.nicIndices))
      else none := by
  have hfold : ∀ (groups : List AffinityGroup) (affined : List (List Bool)),
      affined.length = maxNpuCount →
      cell (groups.foldl affineGroup affined) npu nic = (cell affined npu nic).map fun b =>
        b || decide (∃ group ∈ groups, npu ∈ group.npuIds ∧ nic ∈ group.nicIndices) := by
    intro groups
    induction groups with
    | nil => intro affined _; simp
    | cons group groups ih =>
      intro affined hlength
      rw [List.foldl_cons, ih _ (by rw [length_affineGroup, hlength]),
        cell_affineGroup affined hlength]
      cases cell affined npu nic with
      | none => rfl
      | some b => simp [Bool.or_assoc]
  rw [affinedTable, hfold _ _ (List.length_replicate ..)]
  simp only [cell, List.getElem?_replicate]
  by_cases hnpu : npu < maxNpuCount
  · by_cases hnic : nic < nicNames.length
    · simp [hnpu, hnic]
    · simp [hnpu, hnic]
  · simp [hnpu]

/-! ## Positions of names -/

/-- `indices` are the positions in `names` of the names with `P`. -/
structure Indexed (names : List Bytes) (indices : List ℕ) (P : Bytes → Prop) : Prop where
  mem : ∀ name, P name → name ∈ names
  indices : ∀ nic, nic ∈ indices ↔ ∃ name, P name ∧ names.idxOf name = nic

theorem Indexed.empty (names : List Bytes) : Indexed names [] (fun _ => False) :=
  ⟨fun _ => False.elim, fun nic => by simp⟩

theorem Indexed.congr {names : List Bytes} {indices : List ℕ} {P Q : Bytes → Prop}
    (h : Indexed names indices P) (hPQ : ∀ name, P name ↔ Q name) : Indexed names indices Q := by
  rwa [show Q = P from funext fun name => propext (hPQ name).symm]

/-- Names behind the old ones do not move the old ones. -/
theorem Indexed.append {names : List Bytes} {indices : List ℕ} {P : Bytes → Prop}
    (h : Indexed names indices P) (more : List Bytes) : Indexed (names ++ more) indices P := by
  refine ⟨fun name hname => List.mem_append_left _ (h.mem name hname), fun nic => ?_⟩
  rw [h.indices nic]
  refine exists_congr fun name => and_congr_right fun hname => ?_
  rw [List.idxOf_append_of_mem (h.mem name hname)]

theorem Indexed.lt {names : List Bytes} {indices : List ℕ} {P : Bytes → Prop}
    (h : Indexed names indices P) {nic : ℕ} (hnic : nic ∈ indices) : nic < names.length := by
  obtain ⟨name, hname, rfl⟩ := (h.indices nic).mp hnic
  exact List.idxOf_lt_length_iff.mpr (h.mem name hname)

/-- At a position stands one name. -/
theorem Indexed.mem_iff {names : List Bytes} {indices : List ℕ} {P : Bytes → Prop}
    (h : Indexed names indices P) (hnodup : names.Nodup) {nic : ℕ} {name : Bytes}
    (hname : names[nic]? = some name) : nic ∈ indices ↔ P name := by
  obtain ⟨hlt, rfl⟩ := List.getElem?_eq_some_iff.mp hname
  rw [h.indices nic]
  constructor
  · intro ⟨name', hname', hindex⟩
    have hget : names[nic]? = some name' := by
      rw [← hindex]
      exact List.getElem?_idxOf (h.mem name' hname')
    rwa [Option.some.inj (hname.symm.trans hget)]
  · exact fun hP => ⟨_, hP, hnodup.idxOf_getElem nic hlt⟩

/-- The position of one more name. -/
theorem Indexed.add {names : List Bytes} {group : AffinityGroup} {P : Bytes → Prop}
    (h : Indexed names group.nicIndices P) {name : Bytes} (hname : name ∈ names) :
    Indexed names (addUniqueNicIndex group (names.idxOf name)).nicIndices
      (fun other => P other ∨ other = name) := by
  refine ⟨fun other hother => hother.elim (h.mem other) fun heq => heq ▸ hname, fun nic => ?_⟩
  have hmem : nic ∈ (addUniqueNicIndex group (names.idxOf name)).nicIndices ↔
      nic ∈ group.nicIndices ∨ nic = names.idxOf name := by
    unfold addUniqueNicIndex
    split
    case isTrue hin =>
      exact ⟨Or.inl, fun hor => hor.elim id fun heq => heq ▸ hin⟩
    case isFalse => simp
  rw [hmem, h.indices nic]
  constructor
  · rintro (⟨other, hother, hindex⟩ | rfl)
    · exact ⟨other, Or.inl hother, hindex⟩
    · exact ⟨name, Or.inr rfl, rfl⟩
  · intro ⟨other, hother, hindex⟩
    rcases hother with hother | rfl
    · exact Or.inl ⟨other, hother, hindex⟩
    · exact Or.inr hindex.symm

/-! ## One element -/

theorem npuIds_addUniqueNicIndex (group : AffinityGroup) (nicIndex : ℕ) :
    (addUniqueNicIndex group nicIndex).npuIds = group.npuIds := by
  unfold addUniqueNicIndex
  split <;> rfl

/-- The NPU is added, and no other. -/
theorem mem_addUniqueNpu (group : AffinityGroup) (npu phyId : ℕ) :
    npu ∈ (addUniqueNpu group phyId).npuIds ↔ npu ∈ group.npuIds ∨ npu = phyId := by
  unfold addUniqueNpu
  split
  case isTrue hin =>
    exact ⟨Or.inl, fun hor => hor.elim id fun heq => heq ▸ hin⟩
  case isFalse => simp

theorem nicIndices_addUniqueNpu (group : AffinityGroup) (phyId : ℕ) :
    (addUniqueNpu group phyId).nicIndices = group.nicIndices := by
  unfold addUniqueNpu
  split <;> rfl

/-- The group after an element: the NPU of the element is added, the NICs stay. -/
structure Visited (hal : Hal) (root tag : XmlTag) (old group : AffinityGroup) : Prop where
  npuIds : ∀ npu, npu ∈ group.npuIds ↔ npu ∈ old.npuIds ∨ NpuOf hal root tag npu
  nicIndices : group.nicIndices = old.nicIndices

/-- An element that stands for one NPU. -/
theorem Visited.add {hal : Hal} {root tag : XmlTag} {group : AffinityGroup} {phyId : ℕ}
    (h : ∀ npu, NpuOf hal root tag npu ↔ npu = phyId) :
    Visited hal root tag group (addUniqueNpu group phyId) :=
  ⟨fun npu => by rw [mem_addUniqueNpu, h], nicIndices_addUniqueNpu group phyId⟩

/-- An element that stands for no NPU. -/
theorem Visited.skip {hal : Hal} {root tag : XmlTag} {group : AffinityGroup}
    (h : ∀ npu, ¬ NpuOf hal root tag npu) : Visited hal root tag group group :=
  ⟨fun npu => by simp [h npu], rfl⟩

/-- The NPUs of a `<pci>` element of a `<pci>` group. -/
theorem npuOf_pci (hal : Hal) {root tag : XmlTag} (hroot : root.name = pciName)
    (htag : tag.name = pciName) (npu : ℕ) : NpuOf hal root tag npu ↔
      ∃ busId bdf, findAttr tag busidAttr = some busId ∧ normalizeBdf busId = some bdf ∧
        Owns hal bdf npu := by
  simp [NpuOf, hroot, htag]

/-- The NPUs of an `<npu>` element of a `<ub>` group. -/
theorem npuOf_npu (hal : Hal) {root tag : XmlTag} (hroot : root.name ≠ pciName)
    (htag : tag.name = npuName) (npu : ℕ) : NpuOf hal root tag npu ↔
      ∃ phyId, findAttr tag chipphyidAttr = some phyId ∧ parsePhyId phyId = some npu ∧
        hal.visible npu = true := by
  simp [NpuOf, hroot, htag]

theorem normalizeBdf_nil : normalizeBdf [] = none := by decide

/-- A pci element adds the NPU that owns its bus address. -/
theorem visitPci_exact {hal : Hal} {root tag : XmlTag} (hroot : root.name = pciName)
    (htag : tag.name = pciName) (rootIndex i : ℕ) (group : AffinityGroup) :
    Ends (visitPci (buildBdfTable hal) rootIndex i tag group)
      (fun g => Visited hal root tag group g ∧ DeviceOk root tag (i = rootIndex))
      (fun _ => ¬ DeviceOk root tag (i = rootIndex)) False := by
  have hnpu := npuOf_pci hal hroot htag
  -- an element without a bus id stands for no NPU, and only the root may go without
  have hmissing : ∀ empty : ∀ busId, findAttr tag busidAttr = some busId → busId = [],
      Ends (if i = rootIndex then .ok group
          else reject "<pci> in an affinity group is missing busid" : Parse AffinityGroup)
        (fun g => Visited hal root tag group g ∧ DeviceOk root tag (i = rootIndex))
        (fun _ => ¬ DeviceOk root tag (i = rootIndex)) False := by
    intro empty
    split
    case isTrue hi =>
      refine ⟨Visited.skip fun npu hof => ?_, ⟨fun _ _ hne => absurd hi hne,
        fun _ _ busId hbus hne => absurd (empty busId hbus) hne, fun hne => absurd hroot hne⟩⟩
      obtain ⟨busId, bdf, hbus, hnormal, _⟩ := (hnpu npu).mp hof
      rw [empty busId hbus, normalizeBdf_nil] at hnormal
      cases hnormal
    case isFalse hi =>
      intro hok
      obtain ⟨busId, hbus, hne⟩ := hok.busidGiven hroot htag hi
      exact hne (empty busId hbus)
  unfold visitPci
  split
  case h_1 hattr => exact hmissing fun busId hbus => by rw [hattr] at hbus; cases hbus
  case h_2 hattr => exact hmissing fun busId hbus => by rw [hattr] at hbus; cases hbus; rfl
  case h_3 busId hne hattr =>
    have hgiven : ∃ busId, findAttr tag busidAttr = some busId ∧ busId ≠ [] :=
      ⟨busId, hattr, hne⟩
    split
    case h_1 hinvalid =>
      intro hok
      have hsome := hok.busid hroot htag busId hattr hne
      rw [hinvalid] at hsome
      cases hsome
    case h_2 normalized hnormal =>
      have hok : DeviceOk root tag (i = rootIndex) := by
        refine ⟨fun _ _ _ => hgiven, fun _ _ busId' hbus' _ => ?_, fun hne => absurd hroot hne⟩
        rw [Option.some.inj (hbus'.symm.trans hattr), hnormal]
        rfl
      have howns : ∀ npu, NpuOf hal root tag npu ↔ Owns hal normalized npu := by
        intro npu
        rw [hnpu npu]
        constructor
        · intro ⟨busId', bdf, hbus', hbdf, howns⟩
          rw [Option.some.inj (hbus'.symm.trans hattr), hnormal] at hbdf
          rwa [Option.some.inj hbdf]
        · exact fun howns => ⟨busId, normalized, hattr, hnormal, howns⟩
      split
      case h_1 hfind =>
        refine ⟨Visited.skip fun npu hof => ?_, hok⟩
        rw [(find_buildBdfTable hal normalized npu).mpr ((howns npu).mp hof)] at hfind
        cases hfind
      case h_2 phyId hfind =>
        refine ⟨Visited.add fun npu => ?_, hok⟩
        rw [howns, ← find_buildBdfTable, hfind, Option.some.injEq, eq_comm]

/-- An npu element adds the NPU of its physical id. -/
theorem visitNpu_exact {hal : Hal} {root tag : XmlTag} (hroot : root.name ≠ pciName)
    (htag : tag.name = npuName) (isRoot : Prop) (group : AffinityGroup) :
    Ends (visitNpu hal tag group)
      (fun g => Visited hal root tag group g ∧ DeviceOk root tag isRoot)
      (fun _ => ¬ DeviceOk root tag isRoot) False := by
  have hnpu := npuOf_npu hal hroot htag
  unfold visitNpu
  split
  case h_1 hnone =>
    intro hok
    obtain ⟨phyId, hattr, hparse⟩ := hok.chipphyid hroot htag
    rw [hattr, Option.bind_some] at hnone
    rw [hnone] at hparse
    cases hparse
  case h_2 npuId hsome =>
    obtain ⟨phyId, hattr, hparse⟩ := Option.bind_eq_some_iff.mp hsome
    have hok : DeviceOk root tag isRoot :=
      ⟨fun hpci => absurd hpci hroot, fun hpci => absurd hpci hroot,
        fun _ _ => ⟨phyId, hattr, by rw [hparse]; rfl⟩⟩
    have hof : ∀ npu, NpuOf hal root tag npu ↔ npu = npuId ∧ hal.visible npuId = true := by
      intro npu
      rw [hnpu npu]
      constructor
      · intro ⟨phyId', hattr', hparse', hvisible⟩
        rw [Option.some.inj (hattr'.symm.trans hattr), hparse] at hparse'
        obtain rfl := Option.some.inj hparse'
        exact ⟨rfl, hvisible⟩
      · intro ⟨heq, hvisible⟩
        rw [heq]
        exact ⟨phyId, hattr, hparse, hvisible⟩
    by_cases hvisible : hal.visible npuId = true
    · rw [if_pos hvisible]
      exact ⟨Visited.add fun npu => by simp [hof npu, hvisible], hok⟩
    · rw [if_neg hvisible]
      exact ⟨Visited.skip fun npu => by simp [hof npu, hvisible], hok⟩

/-- An element adds the NPU it stands for under its root, if it stands for one. -/
theorem visitDevice_exact {hal : Hal} {table : BdfTable} {root tag : XmlTag}
    (htable : root.name = pciName → table = buildBdfTable hal) (rootIndex i : ℕ)
    (group : AffinityGroup) :
    Ends (visitDevice hal table (root.name = pciName) rootIndex i tag group)
      (fun g => Visited hal root tag group g ∧ DeviceOk root tag (i = rootIndex))
      (fun _ => ¬ DeviceOk root tag (i = rootIndex)) False := by
  unfold visitDevice
  by_cases hroot : root.name = pciName
  · simp only [hroot, decide_true, true_and, not_true_eq_false, false_and, if_false]
    split
    case isTrue htag =>
      rw [htable hroot]
      exact visitPci_exact hroot htag rootIndex i group
    case isFalse htag =>
      refine ⟨Visited.skip fun npu hof => ?_, ⟨fun _ hpci => absurd hpci htag,
        fun _ hpci => absurd hpci htag, fun hne => absurd hroot hne⟩⟩
      rcases hof with ⟨_, hpci, _⟩ | ⟨hne, _⟩
      · exact htag hpci
      · exact hne hroot
  · simp only [hroot, decide_false, Bool.false_eq_true, false_and, if_false, not_false_eq_true,
      true_and]
    split
    case isTrue htag => exact visitNpu_exact hroot htag _ group
    case isFalse htag =>
      refine ⟨Visited.skip fun npu hof => ?_, ⟨fun hpci => absurd hpci hroot,
        fun hpci => absurd hpci hroot, fun _ hnpu => absurd hnpu htag⟩⟩
      rcases hof with ⟨hpci, _⟩ | ⟨_, hnpu, _⟩
      · exact hroot hpci
      · exact htag hnpu

/-- The state after a `<net>` element: its name is added to the names and to the group. -/
structure Named (tag : XmlTag) (old st : Building) : Prop where
  npuIds : st.group.npuIds = old.group.npuIds
  names : ∃ more, st.nicNames = old.nicNames ++ more
  mem : ∀ name, name ∈ st.nicNames ↔ name ∈ old.nicNames ∨ NicOf tag name
  nodup : old.nicNames.Nodup → st.nicNames.Nodup
  count : old.nicNames.length ≤ maxNicCount → st.nicNames.length ≤ maxNicCount
  indexed : ∀ P, Indexed old.nicNames old.group.nicIndices P →
    Indexed st.nicNames st.group.nicIndices fun name => P name ∨ NicOf tag name

/-- A name that does not fit any more. -/
def Overfull (tag : XmlTag) (names : List Bytes) : Prop :=
  maxNicCount ≤ names.length ∧ ∃ name, NicOf tag name ∧ name ∉ names

/-- An element that is no NIC adds nothing. -/
theorem Named.skip {tag : XmlTag} {st : Building} (h : ∀ name, ¬ NicOf tag name) :
    Named tag st st where
  npuIds := rfl
  names := ⟨[], (List.append_nil _).symm⟩
  mem name := by simp [h name]
  nodup := id
  count := id
  indexed P hP := hP.congr fun name => by simp [h name]

/-- A named NIC is added once, unless there is no room. -/
theorem addUniqueNic_exact {tag : XmlTag} {name : Bytes} (htag : tag.name = netName)
    (hattr : findAttr tag nameAttr = some name) (st : Building) :
    Ends (addUniqueNic st name) (fun st' => Named tag st st' ∧ NetOk tag)
      (fun _ => ¬ NetOk tag ∨ Overfull tag st.nicNames) False := by
  have hof : ∀ other, NicOf tag other ↔ other = name := by
    intro other
    rw [NicOf, hattr, Option.some.injEq]
    exact ⟨fun hof => hof.2.symm, fun heq => ⟨htag, heq.symm⟩⟩
  unfold addUniqueNic
  split
  case isFalse hunsafe =>
    refine Or.inl fun hok => ?_
    obtain ⟨name', hattr', hsafe⟩ := hok htag
    rw [Option.some.inj (hattr'.symm.trans hattr)] at hsafe
    exact hunsafe hsafe
  case isTrue hsafe =>
    have hok : NetOk tag := fun _ => ⟨name, hattr, hsafe⟩
    split
    case isTrue hfound =>
      have hmem := List.idxOf_lt_length_iff.mp hfound
      refine ⟨⟨npuIds_addUniqueNicIndex _ _, ⟨[], (List.append_nil _).symm⟩, fun other => ?_, id, id,
        fun P hP => (hP.add hmem).congr fun other => by rw [hof]⟩, hok⟩
      rw [hof]
      exact ⟨Or.inl, fun hor => hor.elim id fun heq => heq ▸ hmem⟩
    case isFalse hmissing =>
      have hnew := mt List.idxOf_lt_length_iff.mpr hmissing
      split
      case isTrue hfull => exact Or.inr ⟨hfull, name, (hof name).mpr rfl, hnew⟩
      case isFalse hroom =>
        refine ⟨⟨npuIds_addUniqueNicIndex _ _, ⟨[name], rfl⟩, fun other => by simp [hof],
          fun hnodup => ?_, fun _ => ?_, fun P hP => ?_⟩, hok⟩
        · exact hnodup.append (List.nodup_singleton name) (by simpa using hnew)
        · rw [List.length_append, List.length_singleton]
          omega
        · have hlast : (st.nicNames ++ [name]).idxOf name = st.nicNames.length := by
            rw [List.idxOf_append_of_notMem hnew, List.idxOf_cons_self, Nat.add_zero]
          rw [← hlast]
          exact ((hP.append [name]).add (by simp)).congr fun other => by rw [hof]

theorem isSafeDeviceName_nil : isSafeDeviceName [] = false := by decide

/-- A net element adds its NIC, and is refused exactly if it is malformed or one too many. -/
theorem visitNet_exact (tag : XmlTag) (st : Building) :
    Ends (visitNet tag st) (fun st' => Named tag st st' ∧ NetOk tag)
      (fun _ => ¬ NetOk tag ∨ Overfull tag st.nicNames) False := by
  unfold visitNet
  split
  case isFalse htag =>
    exact ⟨Named.skip fun name hof => htag hof.1, fun hnet => absurd hnet htag⟩
  case isTrue htag =>
    split
    case h_1 hattr =>
      refine Or.inl fun hok => ?_
      obtain ⟨name, hattr', _⟩ := hok htag
      rw [hattr] at hattr'
      cases hattr'
    case h_2 hattr =>
      refine Or.inl fun hok => ?_
      obtain ⟨name, hattr', hsafe⟩ := hok htag
      rw [← Option.some.inj (hattr.symm.trans hattr'), isSafeDeviceName_nil] at hsafe
      cases hsafe
    case h_3 name hne hattr => exact addUniqueNic_exact htag hattr st

/-! ## One group -/

section Group

variable {hal : Hal} {tags : List XmlTag} {table : BdfTable} {root : XmlTag} {r : ℕ}

/-- Element `i` belongs to group `r`. -/
def Member (tags : List XmlTag) (r i : ℕ) (tag : XmlTag) : Prop :=
  tags[i]? = some tag ∧ Below tags i r

/-- The names that are known are names of NICs, each once. -/
structure NamesOk (tags : List XmlTag) (names : List Bytes) : Prop where
  nodup : names.Nodup
  nics : ∀ name ∈ names, Nic tags name
  count : names.length ≤ maxNicCount

/-- As many members as entries. -/
theorem encard_members {α : Type} [DecidableEq α] {l : List α} (h : l.Nodup) :
    {a | a ∈ l}.encard = l.length := by
  rw [← List.coe_toFinset, Set.encard_coe_eq_coe_finsetCard, List.toFinset_card_of_nodup h]

/-- A name too many contradicts the bound on the NICs. -/
theorem NamesOk.not_overfull {names : List Bytes} (h : NamesOk tags names) {tag : XmlTag}
    (hnic : ∀ name, NicOf tag name → Nic tags name) (hover : Overfull tag names) :
    ¬ Acceptable hal tags := by
  intro hacc
  obtain ⟨hfull, name, hname, hnew⟩ := hover
  have hsub : {x | x ∈ (name :: names)} ⊆ {name | Nic tags name} := by
    intro x hx
    rcases List.mem_cons.mp hx with rfl | hx
    · exact hnic _ hname
    · exact h.nics x hx
  have hle := (Set.encard_le_encard hsub).trans hacc.nicCount
  rw [encard_members (List.nodup_cons.mpr ⟨hnew, h.nodup⟩), List.length_cons, Nat.cast_le] at hle
  omega

/-- What the inner loop knows after the elements `done`. -/
structure Scanning (hal : Hal) (tags : List XmlTag) (root : XmlTag) (r : ℕ) (old : List Bytes)
    (done : List ℕ) (st : Building) : Prop where
  names : NamesOk tags st.nicNames
  longer : ∃ more, st.nicNames = old ++ more
  known : ∀ name ∈ st.nicNames, name ∈ old ∨ HasNic tags r name
  npuIds : ∀ npu, npu ∈ st.group.npuIds ↔ ∃ i ∈ done, ∃ tag, Member tags r i tag ∧
    NpuOf hal root tag npu
  indexed : Indexed st.nicNames st.group.nicIndices fun name => ∃ i ∈ done, ∃ tag,
    Member tags r i tag ∧ NicOf tag name
  elements : ∀ i ∈ done, ∀ tag, Member tags r i tag → DeviceOk root tag (i = r) ∧ NetOk tag

/-- One more element of the list, which satisfies `Q`. -/
theorem exists_mem_concat {done : List ℕ} {i : ℕ} (Q : ℕ → Prop) :
    (∃ j ∈ done ++ [i], Q j) ↔ (∃ j ∈ done, Q j) ∨ Q i := by
  simp [or_and_right, exists_or]

/-- What is said of the member `i`, whose tag is known. -/
theorem exists_member_iff {i : ℕ} {tag : XmlTag} (hmember : Member tags r i tag)
    (Q : XmlTag → Prop) : (∃ tag', Member tags r i tag' ∧ Q tag') ↔ Q tag := by
  constructor
  · intro ⟨tag', hmember', hQ⟩
    rwa [Option.some.inj (hmember.1.symm.trans hmember'.1)]
  · exact fun hQ => ⟨tag, hmember, hQ⟩

/-- An element outside the root adds nothing to its group. -/
theorem Scanning.outside {old : List Bytes} {done : List ℕ} {st : Building} {i : ℕ}
    (h : Scanning hal tags root r old done st) (hi : ¬ Below tags i r) :
    Scanning hal tags root r old (done ++ [i]) st where
  names := h.names
  longer := h.longer
  known := h.known
  npuIds npu := by
    rw [exists_mem_concat, h.npuIds npu]
    exact ⟨Or.inl, fun hor => hor.elim id fun ⟨tag, hmember, _⟩ => absurd hmember.2 hi⟩
  indexed := h.indexed.congr fun name => by
    rw [exists_mem_concat]
    exact ⟨Or.inl, fun hor => hor.elim id fun ⟨tag, hmember, _⟩ => absurd hmember.2 hi⟩
  elements j hj tag hmember := by
    rcases List.mem_append.mp hj with hj | hj
    · exact h.elements j hj tag hmember
    · exact absurd (List.mem_singleton.mp hj ▸ hmember.2) hi

/-- An element under the root adds its NPU and its NIC. -/
theorem Scanning.member {old : List Bytes} {done : List ℕ} {st st' : Building} {i : ℕ}
    {tag : XmlTag} {group : AffinityGroup} (h : Scanning hal tags root r old done st)
    (hout : OutermostGroup tags r) (hmember : Member tags r i tag)
    (hvisited : Visited hal root tag st.group group) (hnamed : Named tag ⟨st.nicNames, group⟩ st')
    (hdevice : DeviceOk root tag (i = r)) (hnet : NetOk tag) :
    Scanning hal tags root r old (done ++ [i]) st' where
  names := by
    refine ⟨hnamed.nodup h.names.nodup, fun name hname => ?_, hnamed.count h.names.count⟩
    rcases (hnamed.mem name).mp hname with hname | hname
    · exact h.names.nics name hname
    · exact ⟨r, hout, i, tag, hmember.1, hmember.2, hname⟩
  longer := by
    obtain ⟨more, hmore⟩ := h.longer
    obtain ⟨more', hmore'⟩ := hnamed.names
    exact ⟨more ++ more', by rw [hmore', hmore, List.append_assoc]⟩
  known name hname := by
    rcases (hnamed.mem name).mp hname with hname | hname
    · exact h.known name hname
    · exact Or.inr ⟨i, tag, hmember.1, hmember.2, hname⟩
  npuIds npu := by
    rw [hnamed.npuIds, hvisited.npuIds npu, h.npuIds npu, exists_mem_concat,
      exists_member_iff hmember fun tag => NpuOf hal root tag npu]
  indexed := by
    have hold := h.indexed
    rw [← hvisited.nicIndices] at hold
    refine (hnamed.indexed _ hold).congr fun name => ?_
    rw [exists_mem_concat, exists_member_iff hmember fun tag => NicOf tag name]
  elements j hj tag' hmember' := by
    rcases List.mem_append.mp hj with hj | hj
    · exact h.elements j hj tag' hmember'
    · rw [List.mem_singleton.mp hj] at hmember' ⊢
      rw [← Option.some.inj (hmember.1.symm.trans hmember'.1)]
      exact ⟨hdevice, hnet⟩

/-- One turn of the scan of a group. -/
theorem visitTag_exact (htree : TreeTags tags) (hroot : tags[r]? = some root)
    (hout : OutermostGroup tags r) (htable : root.name = pciName → table = buildBdfTable hal)
    {old : List Bytes} {done : List ℕ} {st : Building} {i : ℕ} (hi : i < tags.length)
    (h : Scanning hal tags root r old done st) :
    Ends (visitTag hal tags table (root.name = pciName) r st i)
      (Scanning hal tags root r old (done ++ [i])) (fun _ => ¬ Acceptable hal tags) False := by
  unfold visitTag
  refine ((isDescendantOrSelf_exact htree hi r).mono (fun _ => id) (fun _ => False.elim) id).bind
    fun inside hinside => ?_
  split
  case isFalse houtside => exact h.outside fun hbelow => houtside (hinside.mpr hbelow)
  case isTrue hin =>
    refine (Ends.read (Q := fun tag => tags[i]? = some tag) (fun _ => id)
      fun hle => absurd hi (by omega)).bind fun tag htag => ?_
    have hmember : Member tags r i tag := ⟨htag, hinside.mp hin⟩
    refine ((visitDevice_exact htable r i st.group).mono (fun _ => id) (fun _ hbad hacc => ?_)
      id).bind fun group hgroup => ?_
    · exact hbad (hacc.groups r hout root i tag hroot htag hmember.2).1
    refine (visitNet_exact tag ⟨st.nicNames, group⟩).mono (fun st' hst' => ?_)
      (fun _ hbad => ?_) id
    · exact h.member hout hmember hgroup.1 hst'.1 hgroup.2 hst'.2
    · rcases hbad with hbad | hover
      · exact fun hacc => hbad (hacc.groups r hout root i tag hroot htag hmember.2).2
      · exact h.names.not_overfull
          (fun name hname => ⟨r, hout, i, tag, htag, hmember.2, hname⟩) hover

/-! ## All groups -/

/-- What is known of a group: its NPUs and the positions of its NICs. -/
structure GroupOf (hal : Hal) (tags : List XmlTag) (names : List Bytes) (r : ℕ)
    (group : AffinityGroup) : Prop where
  npuIds : ∀ npu, npu ∈ group.npuIds ↔ HasNpu hal tags r npu
  indexed : Indexed names group.nicIndices (HasNic tags r)

/-- What the outer loop knows after the groups `done`. -/
structure Grouped (hal : Hal) (tags : List XmlTag) (done : List ℕ)
    (st : List Bytes × List AffinityGroup) : Prop where
  names : NamesOk tags st.1
  known : ∀ name ∈ st.1, ∃ r ∈ done, HasNic tags r name
  groups : List.Forall₂ (GroupOf hal tags st.1) done st.2
  elements : ∀ r ∈ done, GroupOk tags r

/-- The inner loop sees every element below its root. -/
theorem exists_visited_iff (htree : TreeTags tags) (Q : XmlTag → Prop) :
    (∃ i ∈ List.range' r (tags.length - r), ∃ tag, Member tags r i tag ∧ Q tag) ↔
      ∃ i tag, tags[i]? = some tag ∧ Below tags i r ∧ Q tag := by
  constructor
  · intro ⟨i, _, tag, hmember, hQ⟩
    exact ⟨i, tag, hmember.1, hmember.2, hQ⟩
  · intro ⟨i, tag, htag, hbelow, hQ⟩
    have hlt := (List.getElem?_eq_some_iff.mp htag).1
    have hle := Below.le htree hbelow
    exact ⟨i, List.mem_range'_1.mpr (by omega), tag, ⟨htag, hbelow⟩, hQ⟩

/-- The last element of the inner loop. -/
theorem Scanning.groupOf (htree : TreeTags tags) (hroot : tags[r]? = some root) {old : List Bytes}
    {st : Building} (h : Scanning hal tags root r old (List.range' r (tags.length - r)) st) :
    GroupOf hal tags st.nicNames r st.group ∧ GroupOk tags r := by
  refine ⟨⟨fun npu => ?_, h.indexed.congr fun name => exists_visited_iff htree _⟩, ?_⟩
  · rw [h.npuIds npu, exists_visited_iff htree fun tag => NpuOf hal root tag npu]
    constructor
    · intro ⟨i, tag, htag, hbelow, hof⟩
      exact ⟨root, i, tag, hroot, htag, hbelow, hof⟩
    · intro ⟨root', i, tag, hroot', htag, hbelow, hof⟩
      rw [Option.some.inj (hroot'.symm.trans hroot)] at hof
      exact ⟨i, tag, htag, hbelow, hof⟩
  · intro root' i tag hroot' htag hbelow
    rw [Option.some.inj (hroot'.symm.trans hroot)]
    have hlt := (List.getElem?_eq_some_iff.mp htag).1
    have hle := Below.le htree hbelow
    exact h.elements i (List.mem_range'_1.mpr (by omega)) tag ⟨htag, hbelow⟩

/-- The scan of a group finds exactly its NPUs and its NICs. -/
theorem visitGroup_exact (htree : TreeTags tags) (hout : OutermostGroup tags r)
    (htable : ∀ root, tags[r]? = some root → root.name = pciName → table = buildBdfTable hal)
    {done : List ℕ} {st : List Bytes × List AffinityGroup} (h : Grouped hal tags done st) :
    Ends (visitGroup hal tags table st r) (Grouped hal tags (done ++ [r]))
      (fun _ => ¬ Acceptable hal tags) False := by
  obtain ⟨root, hroot, _, _⟩ := hout.root
  have hr := (List.getElem?_eq_some_iff.mp hroot).1
  unfold visitGroup
  rw [read_of hroot, ok_bind]
  have hstart : Scanning hal tags root r st.1 [] ⟨st.1, ⟨[], []⟩⟩ :=
    ⟨h.names, ⟨[], (List.append_nil _).symm⟩, fun name hname => Or.inl hname, fun npu => by simp,
      (Indexed.empty st.1).congr fun name => by simp, fun i hi => absurd hi List.not_mem_nil⟩
  refine (Ends.foldlM (Scanning hal tags root r st.1) _ hstart
    fun pre i post built hsplit hbuilt => ?_).bind fun built hbuilt => ?_
  · refine visitTag_exact htree hroot hout (htable root hroot) ?_ hbuilt
    have hmem : i ∈ List.range' r (tags.length - r) := by simp [hsplit]
    have := List.mem_range'_1.mp hmem
    omega
  · obtain ⟨hgroup, hok⟩ := hbuilt.groupOf htree hroot
    obtain ⟨more, hmore⟩ := hbuilt.longer
    refine ⟨hbuilt.names, fun name hname => ?_, ?_, fun r' hr' => ?_⟩
    · rcases hbuilt.known name hname with hname | hname
      · obtain ⟨r', hr', hnic⟩ := h.known name hname
        exact ⟨r', List.mem_append_left _ hr', hnic⟩
      · exact ⟨r, by simp, hname⟩
    · refine List.rel_append (h.groups.imp fun r' group hold => ?_) (.cons hgroup .nil)
      refine ⟨hold.npuIds, ?_⟩
      rw [hmore]
      exact hold.indexed.append more
    · rcases List.mem_append.mp hr' with hr' | hr'
      · exact h.elements r' hr'
      · rwa [List.mem_singleton.mp hr']

/-! ## The roots -/

/-- The roots that are collected from the first `n` tags. -/
structure RootsOk (tags : List XmlTag) (n : ℕ) (roots : List ℕ) : Prop where
  nodup : roots.Nodup
  mem : ∀ r, r ∈ roots ↔ r < n ∧ OutermostGroup tags r
  count : roots.length ≤ maxAffinityGroupCount

/-- A tag that is no outermost group. -/
theorem RootsOk.skip {n : ℕ} {roots : List ℕ} (h : RootsOk tags n roots)
    (hnot : ¬ OutermostGroup tags n) : RootsOk tags (n + 1) roots := by
  refine ⟨h.nodup, fun r => ?_, h.count⟩
  rw [h.mem r]
  refine and_congr_left fun hout => ?_
  have hne : r ≠ n := fun heq => hnot (heq ▸ hout)
  omega

/-- One turn of the search for roots. -/
theorem visitRoot_exact (htree : TreeTags tags) {n : ℕ} (hn : n < tags.length) {roots : List ℕ}
    (h : RootsOk tags n roots) :
    Ends (visitRoot tags roots n) (RootsOk tags (n + 1)) (fun _ => ¬ Acceptable hal tags)
      False := by
  unfold visitRoot
  refine (Ends.read (Q := fun tag => tags[n]? = some tag) (fun _ => id)
    fun hle => absurd hn (by omega)).bind fun tag htag => ?_
  split
  case isTrue hno =>
    -- an outermost group is a group element with children
    refine h.skip fun hout => ?_
    obtain ⟨tag', htag', hgroup, hself⟩ := hout.root
    rw [Option.some.inj (htag'.symm.trans htag)] at hgroup hself
    rcases hno with hno | hno
    · exact hno hgroup
    · rw [hself] at hno
      cases hno
  case isFalse hyes =>
    rw [not_or, not_not, Bool.not_eq_true] at hyes
    refine ((hasGroupAncestor_exact htree htag hyes.1 hyes.2).mono (fun _ => id)
      (fun _ => False.elim) id).bind fun nested hnested => ?_
    split
    case isTrue hin => exact h.skip (hnested.mp hin)
    case isFalse hnotin =>
      have hout : OutermostGroup tags n := not_not.mp fun hnot => hnotin (hnested.mpr hnot)
      have hnew : n ∉ roots := fun hmem => absurd ((h.mem n).mp hmem).1 (lt_irrefl n)
      have hnodup : (roots ++ [n]).Nodup :=
        h.nodup.append (List.nodup_singleton n) (by simpa using hnew)
      split
      case isTrue hfull =>
        -- the table of groups is full, so the topology has more of them than are accepted
        intro hacc
        have hsub : {r | r ∈ roots ++ [n]} ⊆ {r | OutermostGroup tags r} := by
          intro r hr
          rcases List.mem_append.mp hr with hr | hr
          · exact ((h.mem r).mp hr).2
          · rwa [List.mem_singleton.mp hr]
        have hle := (Set.encard_le_encard hsub).trans hacc.groupCount
        rw [encard_members hnodup, List.length_append, List.length_singleton, Nat.cast_le]
          at hle
        omega
      case isFalse hroom =>
        refine ⟨hnodup, fun r => ?_, by rw [List.length_append, List.length_singleton]; omega⟩
        rw [List.mem_append, h.mem r, List.mem_singleton]
        constructor
        · rintro (⟨hlt, hr⟩ | rfl)
          · exact ⟨by omega, hr⟩
          · exact ⟨by omega, hout⟩
        · intro ⟨hlt, hr⟩
          rcases Nat.lt_succ_iff_lt_or_eq.mp hlt with hlt | heq
          · exact Or.inl ⟨hlt, hr⟩
          · exact Or.inr heq

end Group

/-! ## The whole topology -/

/-- The affinity of a topology: the NICs are those of the groups, each once, and an NPU is affined
to a NIC iff one outermost group has both. -/
structure IsAffinity (hal : Hal) (tags : List XmlTag) (info : AffinityInfo) : Prop where
  nodup : info.nicNames.Nodup
  nicNames : ∀ name, name ∈ info.nicNames ↔ Nic tags name
  inside : ∀ npu nic, npu < maxNpuCount → nic < info.nicNames.length →
    (cell info.affined npu nic).isSome = true
  affined : ∀ npu nic name, info.nicNames[nic]? = some name → (info.isAffined npu nic = true ↔
    ∃ r, OutermostGroup tags r ∧ HasNpu hal tags r npu ∧ HasNic tags r name)

/-- The roots found are exactly the outermost group elements. -/
theorem RootsOk.outermost_iff {tags : List XmlTag} {roots : List ℕ}
    (h : RootsOk tags tags.length roots) (r : ℕ) : r ∈ roots ↔ OutermostGroup tags r := by
  rw [h.mem r]
  refine and_iff_right_of_imp fun hout => ?_
  obtain ⟨tag, htag, _⟩ := hout.root
  exact (List.getElem?_eq_some_iff.mp htag).1

/-- With every root visited the table is that of the topology. -/
theorem Grouped.isAffinity {hal : Hal} {tags : List XmlTag} {roots : List ℕ}
    {st : List Bytes × List AffinityGroup} (h : Grouped hal tags roots st)
    (hroots : ∀ r, r ∈ roots ↔ OutermostGroup tags r) :
    IsAffinity hal tags ⟨st.1, st.2, affinedTable st.1 st.2⟩ := by
  refine ⟨h.names.nodup, fun name => ⟨h.names.nics name, fun hnic => ?_⟩, fun npu nic hnpu hnic => ?_,
    fun npu nic name hname => ?_⟩
  · obtain ⟨r, hout, hnic⟩ := hnic
    obtain ⟨k, hk, hget⟩ := List.mem_iff_getElem.mp ((hroots r).mpr hout)
    have hgroup := List.forall₂_iff_get.mp h.groups
    have := hgroup.2 k hk (hgroup.1 ▸ hk)
    rw [List.get_eq_getElem, hget] at this
    exact this.indexed.mem name hnic
  · rw [cell_affinedTable, if_pos ⟨hnpu, hnic⟩]
    rfl
  · have hnic := (List.getElem?_eq_some_iff.mp hname).1
    have hgroup := List.forall₂_iff_get.mp h.groups
    rw [AffinityInfo.isAffined, cell_affinedTable]
    constructor
    · intro hcell
      split at hcell
      case isFalse => cases hcell
      case isTrue hin =>
        rw [Option.getD_some, decide_eq_true_eq] at hcell
        obtain ⟨group, hmem, hnpu, hindex⟩ := hcell
        obtain ⟨k, hk, rfl⟩ := List.mem_iff_getElem.mp hmem
        have hk' : k < roots.length := by rw [hgroup.1]; exact hk
        have hof := hgroup.2 k hk' hk
        rw [List.get_eq_getElem, List.get_eq_getElem] at hof
        exact ⟨roots[k], (hroots _).mp (List.getElem_mem hk'), (hof.npuIds npu).mp hnpu,
          (hof.indexed.mem_iff h.names.nodup hname).mp hindex⟩
    · intro ⟨r, hout, hnpu, hhas⟩
      have hlt : npu < maxNpuCount := by
        obtain ⟨_, _, _, _, _, _, hof⟩ := hnpu
        exact hof.lt
      rw [if_pos ⟨hlt, hnic⟩, Option.getD_some, decide_eq_true_eq]
      obtain ⟨k, hk, hget⟩ := List.mem_iff_getElem.mp ((hroots r).mpr hout)
      have hk' : k < st.2.length := hgroup.1 ▸ hk
      have hof := hgroup.2 k hk hk'
      rw [List.get_eq_getElem, List.get_eq_getElem, hget] at hof
      exact ⟨st.2[k], List.getElem_mem hk', (hof.npuIds npu).mpr hnpu,
        (hof.indexed.mem_iff h.names.nodup hname).mpr hhas⟩

theorem hasPcieGroup_iff {tags : List XmlTag} {roots : List ℕ} :
    hasPcieGroup tags roots = true ↔ ∃ r ∈ roots, ∃ root, tags[r]? = some root ∧
      root.name = pciName := by
  simp [hasPcieGroup, Option.any_eq_true]

/-- The groups are exactly those of the outermost group elements. -/
theorem buildGroups_exact {hal : Hal} {tags : List XmlTag} (htree : TreeTags tags) {roots : List ℕ}
    (hroots : RootsOk tags tags.length roots)
    (hsystem : tags.head?.map XmlTag.name = some systemName) :
    Ends (buildGroups hal tags roots) (fun info => Acceptable hal tags ∧ IsAffinity hal tags info)
      (fun _ => ¬ Acceptable hal tags) False := by
  have hmem := hroots.outermost_iff
  have hset : {r | OutermostGroup tags r} = {r | r ∈ roots} := Set.ext fun r => (hmem r).symm
  unfold buildGroups
  split
  case isTrue hnil =>
    intro hacc
    -- no group
    obtain ⟨r, hout⟩ := hacc.someGroup
    have := (hmem r).mpr hout
    rw [hnil] at this
    cases this
  case isFalse hsome =>
    split
    case isTrue hno =>
      intro hacc
      -- a PCI group, and no NPU has an address
      obtain ⟨r, hr, root, hroot, hpci⟩ := hasPcieGroup_iff.mp hno.1
      exact (buildBdfTable_eq_nil_iff hal).mp hno.2
        (hacc.addresses r root ((hmem r).mp hr) hroot hpci)
    case isFalse haddresses =>
      have htable : ∀ r ∈ roots, ∀ root, tags[r]? = some root → root.name = pciName →
          (if hasPcieGroup tags roots then buildBdfTable hal else []) = buildBdfTable hal :=
        fun r hr root hroot hpci => if_pos (hasPcieGroup_iff.mpr ⟨r, hr, root, hroot, hpci⟩)
      -- the loop over the roots extends the groups by one for each
      have hstart : Grouped hal tags [] ([], []) :=
        ⟨⟨List.nodup_nil, fun _ hx => absurd hx List.not_mem_nil, Nat.zero_le _⟩,
          fun _ hx => absurd hx List.not_mem_nil, .nil, fun _ hx => absurd hx List.not_mem_nil⟩
      refine (Ends.foldlM (Grouped hal tags) roots hstart fun pre r post st hsplit hst => ?_).bind
        fun st hst => ?_
      · have hr : r ∈ roots := by simp [hsplit]
        exact visitGroup_exact htree ((hmem r).mp hr) (htable r hr) hst
      · have haffinity := hst.isAffinity hmem
        split
        case isTrue hnone =>
          intro hacc
          -- no NIC
          obtain ⟨name, hnic⟩ := hacc.someNic
          have := (haffinity.nicNames name).mpr hnic
          rw [hnone] at this
          cases this
        case isFalse hnics =>
          refine ⟨⟨hsystem, ?_, ?_, fun r root hout hroot hpci => ?_,
            fun r hout => hst.elements r ((hmem r).mpr hout), ?_, ?_⟩, haffinity⟩
          · obtain ⟨r, hr⟩ := List.exists_mem_of_ne_nil _ hsome
            exact ⟨r, (hmem r).mp hr⟩
          · rw [hset, encard_members hroots.nodup, Nat.cast_le]
            exact hroots.count
          · by_contra hnone
            exact haddresses ⟨hasPcieGroup_iff.mpr ⟨r, (hmem r).mpr hout, root, hroot, hpci⟩,
              (buildBdfTable_eq_nil_iff hal).mpr hnone⟩
          · obtain ⟨name, hname⟩ := List.exists_mem_of_ne_nil _ hnics
            exact ⟨name, hst.names.nics name hname⟩
          · have hnames : {name | Nic tags name} = {name | name ∈ st.1} :=
              Set.ext fun name => (haffinity.nicNames name).symm
            rw [hnames, encard_members hst.names.nodup, Nat.cast_le]
            exact hst.names.count

/-- On the tags of a tree the builder ends without a fault. It accepts the acceptable topologies
and no others, and what it returns is their affinity. -/
theorem buildAffinityInfo_exact {tags : List XmlTag} (htree : TreeTags tags) (hal : Hal) :
    Ends (buildAffinityInfo hal tags) (fun info => Acceptable hal tags ∧ IsAffinity hal tags info)
      (fun _ => ¬ Acceptable hal tags) False := by
  unfold buildAffinityInfo
  split
  case isFalse hsystem => exact fun hacc => hsystem hacc.system
  case isTrue hsystem =>
    have hstart : RootsOk tags 0 [] :=
      ⟨List.nodup_nil, fun r => by simp, Nat.zero_le _⟩
    refine (Ends.forRange (RootsOk tags) tags.length hstart fun n hn roots hroots =>
      visitRoot_exact htree hn hroots).bind fun roots hroots => ?_
    exact buildGroups_exact htree hroots hsystem

end AscendShmem.NicAffinity
