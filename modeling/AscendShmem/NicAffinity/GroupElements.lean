import AscendShmem.NicAffinity.Affinity

/-!
# What a topology says about NPUs and NICs

The relations that the affinity builder computes, stated on the tree alone: which elements are
outermost groups, what lies below them, and which NPU or NIC an element stands for. The walks
along the parents and the table of PCI addresses decide these relations.
-/

namespace AscendShmem.NicAffinity

open Lib Lib.Exec TopoXml

/-! ## The tree -/

/-- Tag `p` is the parent of tag `i`. -/
def ParentOf (tags : List XmlTag) (i p : ℕ) : Prop :=
  ∃ tag, tags[i]? = some tag ∧ tag.parentIndex = p

/-- Tag `i` lies below tag `r`, or is `r`. -/
abbrev Below (tags : List XmlTag) : ℕ → ℕ → Prop := Relation.ReflTransGen (ParentOf tags)

/-- Tag `r` is a group that lies in no other group. -/
structure OutermostGroup (tags : List XmlTag) (r : ℕ) : Prop where
  root : ∃ tag, tags[r]? = some tag ∧ isGroupTag tag = true ∧ tag.selfClosing = false
  outermost : ∀ a up, Relation.TransGen (ParentOf tags) r a → tags[a]? = some up →
    isGroupTag up = false

theorem ParentOf.lt {tags : List XmlTag} (h : TreeTags tags) {i p : ℕ} (hp : ParentOf tags i p) :
    p < i := by
  obtain ⟨tag, htag, hparent⟩ := hp
  have hbounds := h.parentIndex_bounds htag
  omega

theorem Below.le {tags : List XmlTag} (h : TreeTags tags) {i r : ℕ} (hb : Below tags i r) :
    r ≤ i := by
  induction hb with
  | refl => exact le_refl _
  | tail _ hp ih => exact (ParentOf.lt h hp).le.trans ih

/-- The parent that a tag names, if it names one. -/
theorem exists_parentOf_iff {tags : List XmlTag} {i : ℕ} {tag : XmlTag} (htag : tags[i]? = some tag)
    (P : ℕ → Prop) : (∃ p, ParentOf tags i p ∧ P p) ↔ ∃ p : ℕ, (p : ℤ) = tag.parentIndex ∧ P p := by
  constructor
  · intro ⟨p, ⟨tag', htag', hparent⟩, hp⟩
    rw [Option.some.inj (htag.symm.trans htag')]
    exact ⟨p, hparent.symm, hp⟩
  · intro ⟨p, hparent, hp⟩
    exact ⟨p, ⟨tag, htag, hparent.symm⟩, hp⟩

/-- `has_group_ancestor` from one ancestor on. -/
theorem groupAncestorLoop_exact {tags : List XmlTag} (h : TreeTags tags) (fuel : ℕ) (parent : ℤ)
    (hstart : -1 ≤ parent) (hbound : parent < tags.length) (hfuel : parent + 1 < fuel) :
    Ends (groupAncestorLoop tags fuel parent)
      (fun b => b = true ↔ ∃ c : ℕ, (c : ℤ) = parent ∧ ∃ a up, Below tags c a ∧
        tags[a]? = some up ∧ isGroupTag up = true)
      (fun _ => False) False := by
  induction fuel generalizing parent with
  | zero => omega
  | succ fuel ih =>
    rw [groupAncestorLoop]
    split
    case isFalse hneg =>
      refine iff_of_false Bool.false_ne_true fun hsome => ?_
      obtain ⟨c, hc, _⟩ := hsome
      omega
    case isTrue hindex =>
      lift parent to ℕ using hindex
      rw [Int.toNat_natCast]
      refine (Ends.read (Q := fun tag => tags[parent]? = some tag) (fun _ => id)
        fun hle => absurd hbound (by omega)).bind fun tag htag => ?_
      have hbounds := h.parentIndex_bounds htag
      split
      case isTrue hgroup =>
        exact iff_of_true rfl ⟨parent, rfl, parent, tag, .refl, htag, hgroup⟩
      case isFalse hgroup =>
        refine (ih _ hbounds.1 (by omega) (by omega)).imp fun b hb => hb.trans ?_
        rw [← exists_parentOf_iff htag
          (fun p => ∃ a up, Below tags p a ∧ tags[a]? = some up ∧ isGroupTag up = true)]
        constructor
        · rintro ⟨p, hp, a, up, hbelow, hup⟩
          exact ⟨parent, rfl, a, up, .head hp hbelow, hup⟩
        · rintro ⟨c, hc, a, up, hbelow, hup, hgroup'⟩
          rw [Nat.cast_inj.mp hc] at hbelow
          rcases Relation.ReflTransGen.cases_head hbelow with rfl | ⟨p, hp, hbelow⟩
          · rw [Option.some.inj (hup.symm.trans htag)] at hgroup'
            exact absurd hgroup' hgroup
          · exact ⟨p, hp, a, up, hbelow, hup, hgroup'⟩

/-- A group tag that does not close itself is outermost iff it has no group above it. -/
theorem hasGroupAncestor_exact {tags : List XmlTag} (h : TreeTags tags) {i : ℕ} {tag : XmlTag}
    (htag : tags[i]? = some tag) (hgroup : isGroupTag tag = true) (hself : tag.selfClosing = false) :
    Ends (hasGroupAncestor tags tag) (fun nested => nested = true ↔ ¬ OutermostGroup tags i)
      (fun _ => False) False := by
  have hbounds := h.parentIndex_bounds htag
  have hlength := (List.getElem?_eq_some_iff.mp htag).1
  refine (groupAncestorLoop_exact h _ _ hbounds.1 (by omega) (by push_cast; omega)).imp
    fun nested hnested => hnested.trans ?_
  rw [← exists_parentOf_iff htag
    (fun p => ∃ a up, Below tags p a ∧ tags[a]? = some up ∧ isGroupTag up = true)]
  constructor
  · intro ⟨p, hp, a, up, hbelow, hup, hup'⟩ hout
    rw [hout.outermost a up (.head' hp hbelow) hup] at hup'
    exact Bool.false_ne_true hup'
  · intro hout
    by_contra hnone
    refine hout ⟨⟨tag, htag, hgroup, hself⟩, fun a up habove hup => ?_⟩
    obtain ⟨p, hp, hbelow⟩ := Relation.TransGen.head'_iff.mp habove
    by_contra hup'
    exact hnone ⟨p, hp, a, up, hbelow, hup, by simpa using hup'⟩

/-- The walk up the parents meets the root exactly if the element is below it. -/
theorem descendantLoop_exact {tags : List XmlTag} (h : TreeTags tags) (rootIndex fuel : ℕ)
    (current : ℤ) (hstart : -1 ≤ current) (hbound : current < tags.length)
    (hfuel : current + 1 < fuel) :
    Ends (descendantLoop tags rootIndex fuel current)
      (fun b => b = true ↔ ∃ c : ℕ, (c : ℤ) = current ∧ Below tags c rootIndex)
      (fun _ => False) False := by
  induction fuel generalizing current with
  | zero => omega
  | succ fuel ih =>
    rw [descendantLoop]
    split
    case isFalse hneg =>
      refine iff_of_false Bool.false_ne_true fun hsome => ?_
      obtain ⟨c, hc, _⟩ := hsome
      omega
    case isTrue hindex =>
      lift current to ℕ using hindex
      rw [Int.toNat_natCast]
      split
      case isTrue heq =>
        exact iff_of_true rfl ⟨current, rfl, by rw [heq]⟩
      case isFalse hne =>
        refine (Ends.read (Q := fun tag => tags[current]? = some tag) (fun _ => id)
          fun hle => absurd hbound (by omega)).bind fun tag htag => ?_
        have hbounds := h.parentIndex_bounds htag
        refine (ih _ hbounds.1 (by omega) (by omega)).imp fun b hb => hb.trans ?_
        rw [← exists_parentOf_iff htag (fun p => Below tags p rootIndex)]
        constructor
        · rintro ⟨p, hp, hbelow⟩
          exact ⟨current, rfl, .head hp hbelow⟩
        · rintro ⟨c, hc, hbelow⟩
          rw [Nat.cast_inj.mp hc] at hbelow
          exact (Relation.ReflTransGen.cases_head hbelow).resolve_left hne

theorem isDescendantOrSelf_exact {tags : List XmlTag} (h : TreeTags tags) {i : ℕ}
    (hi : i < tags.length) (r : ℕ) :
    Ends (isDescendantOrSelf tags i r) (fun inside => inside = true ↔ Below tags i r)
      (fun _ => False) False := by
  refine (descendantLoop_exact h r _ _ (by omega) (by omega) (by push_cast; omega)).imp
    fun b hb => hb.trans ?_
  constructor
  · intro ⟨c, hc, hbelow⟩
    rwa [Nat.cast_inj.mp hc] at hbelow
  · exact fun hbelow => ⟨i, rfl, hbelow⟩

/-! ## The addresses of the host -/

/-- The NPU that a PCI address belongs to: the first one that the process sees with it. -/
structure Owns (hal : Hal) (bdf : Bytes) (npu : ℕ) : Prop where
  lt : npu < maxNpuCount
  visible : hal.visible npu = true
  address : formatNpuBdf hal npu = some bdf
  first : ∀ m < npu, hal.visible m = true → formatNpuBdf hal m ≠ some bdf

/-- A later entry is found only where no earlier one is. -/
theorem BdfTable.find_append (table : BdfTable) (bdf bdf' : Bytes) (npu : ℕ) :
    BdfTable.find (table ++ [(bdf', npu)]) bdf =
      (table.find bdf).or (if bdf' = bdf then some npu else none) := by
  unfold BdfTable.find
  rw [List.find?_append, List.find?_singleton]
  split <;> cases (List.find? _ table) <;> simp_all

theorem BdfTable.find_emplace (table : BdfTable) (bdf bdf' : Bytes) (npu : ℕ) :
    (table.emplace bdf' npu).find bdf =
      (table.find bdf).or (if bdf' = bdf then some npu else none) := by
  unfold BdfTable.emplace
  split
  case isTrue hsome =>
    obtain ⟨old, hold⟩ := Option.isSome_iff_exists.mp hsome
    by_cases heq : bdf' = bdf
    · rw [← heq, hold, Option.some_or]
    · rw [if_neg heq, Option.or_none]
  case isFalse => exact table.find_append bdf bdf' npu

/-- An NPU answers to an address. -/
def answersTo (hal : Hal) (bdf : Bytes) (npu : ℕ) : Bool :=
  hal.visible npu && (formatNpuBdf hal npu = some bdf)

/-- One NPU is entered under the address it answers to. -/
theorem find_addBdf (hal : Hal) (table : BdfTable) (bdf : Bytes) (npu : ℕ) :
    (addBdf hal table npu).find bdf =
      (table.find bdf).or (if answersTo hal bdf npu then some npu else none) := by
  unfold addBdf answersTo
  by_cases hvisible : hal.visible npu = true
  · rw [if_pos hvisible, hvisible, Bool.true_and]
    cases hbdf : formatNpuBdf hal npu with
    | none => simp
    | some bdf' => simp [BdfTable.find_emplace]
  · rw [if_neg hvisible]
    simp [hvisible]

/-- Of several NPUs that answer to an address the first is entered. -/
theorem find_foldl_addBdf (hal : Hal) (bdf : Bytes) (n : ℕ) :
    BdfTable.find ((List.range n).foldl (addBdf hal) []) bdf =
      (List.range n).find? (answersTo hal bdf) := by
  induction n with
  | zero => rfl
  | succ n ih =>
    rw [List.range_succ, List.foldl_append, List.foldl_cons, List.foldl_nil, find_addBdf, ih,
      List.find?_append, List.find?_singleton]

/-- The table holds exactly the owner of each address. -/
theorem find_buildBdfTable (hal : Hal) (bdf : Bytes) (npu : ℕ) :
    (buildBdfTable hal).find bdf = some npu ↔ Owns hal bdf npu := by
  rw [buildBdfTable, find_foldl_addBdf, List.find?_range_eq_some]
  unfold answersTo
  constructor
  · intro ⟨hanswers, hlt, hfirst⟩
    rw [Bool.and_eq_true, decide_eq_true_eq] at hanswers
    refine ⟨List.mem_range.mp hlt, hanswers.1, hanswers.2, fun m hm hvisible hbdf => ?_⟩
    have hnot := hfirst m hm
    simp [hvisible, hbdf] at hnot
  · intro howns
    refine ⟨by simp [howns.visible, howns.address], List.mem_range.mpr howns.lt, fun m hm => ?_⟩
    by_cases hvisible : hal.visible m = true
    · simp [hvisible, howns.first m hm hvisible]
    · simp [hvisible]

theorem buildBdfTable_eq_nil_iff (hal : Hal) :
    buildBdfTable hal = [] ↔ ¬ ∃ bdf npu, Owns hal bdf npu := by
  constructor
  · intro hnil ⟨bdf, npu, howns⟩
    have hfind := (find_buildBdfTable hal bdf npu).mpr howns
    rw [hnil] at hfind
    cases hfind
  · intro hnone
    cases htable : buildBdfTable hal with
    | nil => rfl
    | cons entry table =>
      refine absurd ⟨entry.1, entry.2, (find_buildBdfTable hal _ _).mp ?_⟩ hnone
      rw [htable]
      simp [BdfTable.find]

/-! ## What an element stands for -/

/-- An element of a group stands for an NPU: in a `<pci>` group by its bus id, in a `<ub>` group by
its physical id. -/
def NpuOf (hal : Hal) (root tag : XmlTag) (npu : ℕ) : Prop :=
  (root.name = pciName ∧ tag.name = pciName ∧ ∃ busId bdf, findAttr tag busidAttr = some busId ∧
    normalizeBdf busId = some bdf ∧ Owns hal bdf npu) ∨
  (root.name ≠ pciName ∧ tag.name = npuName ∧ ∃ phyId, findAttr tag chipphyidAttr = some phyId ∧
    parsePhyId phyId = some npu ∧ hal.visible npu = true)

/-- An element stands for a NIC. -/
def NicOf (tag : XmlTag) (name : Bytes) : Prop :=
  tag.name = netName ∧ findAttr tag nameAttr = some name

/-- The attributes by which an element of a group stands for an NPU can be read. Only the root of a
`<pci>` group may go without a bus id. -/
structure DeviceOk (root tag : XmlTag) (isRoot : Prop) : Prop where
  busidGiven : root.name = pciName → tag.name = pciName → ¬ isRoot →
    ∃ busId, findAttr tag busidAttr = some busId ∧ busId ≠ []
  busid : root.name = pciName → tag.name = pciName →
    ∀ busId, findAttr tag busidAttr = some busId → busId ≠ [] → (normalizeBdf busId).isSome = true
  chipphyid : root.name ≠ pciName → tag.name = npuName →
    ∃ phyId, findAttr tag chipphyidAttr = some phyId ∧ (parsePhyId phyId).isSome = true

/-- A NIC has a name that is safe in a path. -/
def NetOk (tag : XmlTag) : Prop :=
  tag.name = netName → ∃ name, findAttr tag nameAttr = some name ∧ isSafeDeviceName name = true

/-- A parsed physical id is within the bound. -/
theorem parsePhyIdLoop_lt {value : Bytes} {parsed npu : ℕ} (hparsed : parsed < maxNpuCount)
    (h : parsePhyIdLoop value parsed = some npu) : npu < maxNpuCount := by
  induction value generalizing parsed with
  | nil => rwa [← Option.some.inj h]
  | cons ch rest ih =>
    rw [parsePhyIdLoop] at h
    split at h
    case isFalse => cases h
    case isTrue hdigit =>
      split at h
      case isTrue => cases h
      case isFalse hfits =>
        refine ih ?_ h
        have hnine : (ch - byte '0').toNat ≤ 9 := by
          simp only [isDigit, decide_eq_true_eq] at hdigit
          have hle : (48 : UInt8) ≤ ch := hdigit.1
          have hge : ch ≤ (57 : UInt8) := hdigit.2
          have hsub : (ch - byte '0').toNat = ch.toNat - 48 := UInt8.toNat_sub_of_le _ _ hle
          rw [hsub]
          have := UInt8.le_iff_toNat_le.mp hge
          simp at this
          omega
        unfold maxNpuCount at hfits ⊢
        omega

theorem NpuOf.lt {hal : Hal} {root tag : XmlTag} {npu : ℕ} (h : NpuOf hal root tag npu) :
    npu < maxNpuCount := by
  rcases h with ⟨_, _, _, _, _, _, howns⟩ | ⟨_, _, phyId, _, hparse, _⟩
  · exact howns.lt
  · unfold parsePhyId at hparse
    split at hparse
    · cases hparse
    · exact parsePhyIdLoop_lt (by decide) hparse

/-! ## One group and the whole topology -/

/-- Below `r` stands an element for the NPU. -/
def HasNpu (hal : Hal) (tags : List XmlTag) (r npu : ℕ) : Prop :=
  ∃ root i tag, tags[r]? = some root ∧ tags[i]? = some tag ∧ Below tags i r ∧ NpuOf hal root tag npu

/-- Below `r` stands an element for the NIC. -/
def HasNic (tags : List XmlTag) (r : ℕ) (name : Bytes) : Prop :=
  ∃ i tag, tags[i]? = some tag ∧ Below tags i r ∧ NicOf tag name

/-- Some group has the NIC. -/
def Nic (tags : List XmlTag) (name : Bytes) : Prop :=
  ∃ r, OutermostGroup tags r ∧ HasNic tags r name

/-- All elements of a group can be read. -/
def GroupOk (tags : List XmlTag) (r : ℕ) : Prop :=
  ∀ root i tag, tags[r]? = some root → tags[i]? = some tag → Below tags i r →
    DeviceOk root tag (i = r) ∧ NetOk tag

/-- The topologies that have an affinity. -/
structure Acceptable (hal : Hal) (tags : List XmlTag) : Prop where
  system : tags.head?.map XmlTag.name = some systemName
  someGroup : ∃ r, OutermostGroup tags r
  groupCount : {r | OutermostGroup tags r}.encard ≤ maxAffinityGroupCount
  addresses : ∀ r root, OutermostGroup tags r → tags[r]? = some root → root.name = pciName →
    ∃ bdf npu, Owns hal bdf npu
  groups : ∀ r, OutermostGroup tags r → GroupOk tags r
  someNic : ∃ name, Nic tags name
  nicCount : {name | Nic tags name}.encard ≤ maxNicCount

end AscendShmem.NicAffinity
