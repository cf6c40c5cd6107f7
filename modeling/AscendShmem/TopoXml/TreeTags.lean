import AscendShmem.TopoXml.Safety

/-!
# The tags of an accepted text

What `parse` returns is the preorder list of one tree within the limits (`TreeTags`). The affinity
builder goes from a tag to its ancestors; a parent stands before its children, so these walks end.
-/

namespace AscendShmem.TopoXml

open Lib Lib.Exec

/-! ## The walks of the affinity builder -/

/-- The name of a pci element. -/
def pciName : Bytes := ascii ['p', 'c', 'i']
/-- The name of a ub element. -/
def ubName : Bytes := ascii ['u', 'b']

/-- `is_group_tag` -/
def isGroupTag (tag : XmlTag) : Bool := tag.name = pciName ∨ tag.name = ubName

section Walks

variable (tags : List XmlTag)

/-- The loop of `has_group_ancestor`. -/
def groupAncestorLoop : ℕ → ℤ → Parse Bool
  | 0, _ => .error .outOfFuel
  | fuel + 1, parent =>
    if 0 ≤ parent then do
      let parentTag ← read tags parent.toNat
      if isGroupTag parentTag then .ok true else groupAncestorLoop fuel parentTag.parentIndex
    else .ok false

/-- `has_group_ancestor` -/
def hasGroupAncestor (tag : XmlTag) : Parse Bool :=
  groupAncestorLoop tags (tags.length + 1) tag.parentIndex

/-- The loop of `is_descendant_or_self`. -/
def descendantLoop (rootIndex : ℕ) : ℕ → ℤ → Parse Bool
  | 0, _ => .error .outOfFuel
  | fuel + 1, current =>
    if 0 ≤ current then
      if current.toNat = rootIndex then .ok true
      else do
        let tag ← read tags current.toNat
        descendantLoop rootIndex fuel tag.parentIndex
    else .ok false

/-- `is_descendant_or_self` -/
def isDescendantOrSelf (tagIndex rootIndex : ℕ) : Parse Bool :=
  descendantLoop tags rootIndex (tags.length + 1) tagIndex

end Walks

/-! ## One tree -/

/-- The tags describe one tree. -/
structure TreeTags (tags : List XmlTag) : Prop where
  /-- the list is the preorder of a tree -/
  preorder : ∃ root children, (Forest.cons root children .nil).All ElementOk ∧
    tags = ((Forest.cons root children .nil).preorder 0 none 0).map tagOf
  /-- the first tag is the root -/
  root : ∃ tag, tags[0]? = some tag ∧ tag.parentIndex = -1 ∧ tag.depth = 0
  /-- every other tag is one level below a tag that stands before it and does not close itself -/
  parent : ∀ (i : ℕ) (tag : XmlTag), 0 < i → tags[i]? = some tag → ∃ (p : ℕ) (up : XmlTag), p < i ∧
    tags[p]? = some up ∧ tag.parentIndex = p ∧ up.selfClosing = false ∧ tag.depth = up.depth + 1
  count : tags.length ≤ maxTagEntries
  limits : ∀ tag ∈ tags, tag.name.length ≤ maxTagNameLen ∧ AttrsOk tag.attrs

/-- The tags of one tree. -/
theorem treeTags_preorder {root : Element} {children : Forest Element}
    (h : (Forest.cons root children .nil).All ElementOk) (hcount :
      (((Forest.cons root children .nil).preorder 0 none 0).map tagOf).length ≤ maxTagEntries) :
    TreeTags (((Forest.cons root children .nil).preorder 0 none 0).map tagOf) := by
  refine ⟨⟨root, children, h, rfl⟩, ⟨_, rfl, rfl, rfl⟩, ?_, hcount, ?_⟩
  · rintro i tag hi htag
    obtain ⟨i, rfl⟩ := Nat.exists_eq_succ_of_ne_zero hi.ne'
    rw [List.getElem?_map, Option.map_eq_some_iff] at htag
    obtain ⟨entry, hentry, rfl⟩ := htag
    obtain ⟨p, up, hp, hup, hparent, hdepth, below, hok, hne⟩ := Forest.hasParent_tree h hentry
    refine ⟨p, tagOf up, hp, by rw [List.getElem?_map, hup]; rfl, ?_, ?_, hdepth⟩
    · rw [tagOf, hparent, Nat.zero_add]
      rfl
    · exact Bool.eq_false_iff.mpr fun hself => hne (hok.leaf hself)
  · intro tag htag
    obtain ⟨entry, hentry, rfl⟩ := List.mem_map.mp htag
    obtain ⟨i, hi⟩ := List.mem_iff_getElem?.mp hentry
    obtain ⟨below, hok⟩ := (Forest.entryOk_preorder h 0 none 0 i hi).1
    exact ⟨hok.name, hok.attrs⟩

/-- A complete forest with one root is a tree. -/
theorem Reading.treeTags {xml : Bytes} {st : Progress} {spine : Spine Element}
    (h : Reading xml st spine) (hopen : st.openTags = []) (hroot : st.rootCount = 1) :
    TreeTags st.tags := by
  obtain ⟨done, nodes⟩ := spine
  have hnodes : nodes = [] := by
    rw [← List.length_eq_zero_iff, ← h.nodes_length, hopen, List.length_nil]
  subst hnodes
  have hone : done.count = 1 := by
    rw [← hroot, h.rootCount, Spine.rootCount, if_pos rfl, Nat.add_zero]
  obtain ⟨root, children, rfl⟩ := Forest.eq_cons_of_count hone
  have htags := h.tags
  rw [Spine.entries, Spine.entriesOf] at htags
  have hcount := h.count
  rw [htags] at hcount ⊢
  exact treeTags_preorder h.elements.1 hcount

/-- A parent index is smaller than the index; it is `-1` or an index. -/
theorem TreeTags.parentIndex_bounds {tags : List XmlTag} (h : TreeTags tags) {i : ℕ} {tag : XmlTag}
    (htag : tags[i]? = some tag) : -1 ≤ tag.parentIndex ∧ tag.parentIndex < i := by
  rcases Nat.eq_zero_or_pos i with rfl | hi
  · obtain ⟨root, hroot, hparent, _⟩ := h.root
    rw [Option.some.inj (htag.symm.trans hroot), hparent]
    exact ⟨le_refl _, by omega⟩
  · obtain ⟨p, up, hp, _, hparent, _⟩ := h.parent i tag hi htag
    rw [hparent]
    omega

/-- A walk ends with an answer. -/
abbrev Answers (walk : Parse Bool) : Prop := Ends walk (fun _ => True) (fun _ => False) False

/-- The read of an ancestor, whose parent stands before it. -/
theorem TreeTags.read_ancestor {tags : List XmlTag} (h : TreeTags tags) {current : ℤ}
    (hstart : 0 ≤ current) (hbound : current < tags.length) :
    Ends (read tags current.toNat) (fun tag => -1 ≤ tag.parentIndex ∧ tag.parentIndex < current)
      (fun _ : Bool => False) False := by
  refine Ends.read (fun tag htag => ?_) fun hle => absurd hbound (by omega)
  have hbounds := h.parentIndex_bounds htag
  rwa [Int.toNat_of_nonneg hstart] at hbounds

/-- The walk up the parents ends inside the tags. -/
theorem TreeTags.groupAncestorLoop_answers {tags : List XmlTag} (h : TreeTags tags) (fuel : ℕ)
    (parent : ℤ) (hstart : -1 ≤ parent) (hbound : parent < tags.length) (hfuel : parent + 1 < fuel) :
    Answers (groupAncestorLoop tags fuel parent) := by
  induction fuel generalizing parent with
  | zero => omega
  | succ fuel ih =>
    rw [groupAncestorLoop]
    split
    case isFalse => trivial
    case isTrue hindex =>
      refine (h.read_ancestor hindex hbound).bind fun parentTag hparent => ?_
      split
      case isTrue => trivial
      case isFalse => exact ih _ hparent.1 (by omega) (by omega)

theorem TreeTags.descendantLoop_answers {tags : List XmlTag} (h : TreeTags tags) (rootIndex fuel : ℕ)
    (current : ℤ) (hstart : -1 ≤ current) (hbound : current < tags.length)
    (hfuel : current + 1 < fuel) :
    Answers (descendantLoop tags rootIndex fuel current) := by
  induction fuel generalizing current with
  | zero => omega
  | succ fuel ih =>
    rw [descendantLoop]
    split
    case isFalse => trivial
    case isTrue hindex =>
      split
      case isTrue => trivial
      case isFalse =>
        refine (h.read_ancestor hindex hbound).bind fun tag hparent => ?_
        exact ih _ hparent.1 (by omega) (by omega)

theorem TreeTags.hasGroupAncestor_answers {tags : List XmlTag} (h : TreeTags tags) {tag : XmlTag}
    (htag : tag ∈ tags) : Answers (hasGroupAncestor tags tag) := by
  obtain ⟨i, hi⟩ := List.mem_iff_getElem?.mp htag
  have hlt := (List.getElem?_eq_some_iff.mp hi).1
  obtain ⟨hstart, hbound⟩ := h.parentIndex_bounds hi
  exact h.groupAncestorLoop_answers _ _ hstart (by omega) (by push_cast; omega)

theorem TreeTags.isDescendantOrSelf_answers {tags : List XmlTag} (h : TreeTags tags) {tagIndex : ℕ}
    (htag : tagIndex < tags.length) (rootIndex : ℕ) :
    Answers (isDescendantOrSelf tags tagIndex rootIndex) :=
  h.descendantLoop_answers rootIndex _ _ (by omega) (by omega) (by push_cast; omega)

/-! ## The whole text -/

/-- The mark is inside the text. -/
theorem skipBom_le (xml : Bytes) : skipBom xml ≤ xml.length := by
  unfold skipBom
  split
  case isTrue hbom =>
    have hlength := congrArg List.length hbom
    rw [List.length_take, List.length_cons, List.length_cons, List.length_cons, List.length_nil]
      at hlength
    omega
  case isFalse => exact Nat.zero_le _

theorem reading_start (xml : Bytes) : Reading xml ⟨skipBom xml, [], [], 0⟩ Spine.empty :=
  ⟨skipBom_le xml, rfl, rfl, rfl, ⟨trivial, by simp [Spine.empty]⟩, Nat.zero_le _, Nat.zero_le _⟩

/-- On every string the parser ends without a fault; the tags of an accepted string describe one tree,
and from each of them every walk along the parents ends without a fault. -/
theorem parse_safe (xml : Bytes) : Ends (parse xml) (fun tags => TreeTags tags ∧
    (∀ tag ∈ tags, Answers (hasGroupAncestor tags tag)) ∧
    ∀ tagIndex < tags.length, ∀ rootIndex, Answers (isDescendantOrSelf tags tagIndex rootIndex))
    (fun _ => True) False := by
  unfold parse
  split
  case isTrue => exact safe_reject _ _
  case isFalse =>
    refine (parseLoop_safe xml _ (by omega) ⟨_, reading_start xml⟩).bind ?_
    rintro st ⟨spine, hreading⟩
    split
    case h_1 back outer hopen =>
      have hback : back < st.tags.length := by
        rw [hreading.tags, List.length_map]
        exact spine.indexes_lt back (by rw [← hreading.openTags, hopen]; exact .head _)
      exact Ends.bind (Ends.read (fun _ _ => trivial) fun hle => absurd hback (by omega))
        fun tag _ => safe_reject _ _
    case h_2 hopen =>
      split
      case isTrue => exact safe_reject _ _
      case isFalse hone =>
        push Not at hone
        have htree := hreading.treeTags hopen hone.1
        exact safe_ok ⟨htree, fun tag htag => htree.hasGroupAncestor_answers htag,
          fun tagIndex hindex rootIndex => htree.isDescendantOrSelf_answers hindex rootIndex⟩

end AscendShmem.TopoXml
