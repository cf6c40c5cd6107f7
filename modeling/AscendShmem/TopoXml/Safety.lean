import AscendShmem.Lib.Forest
import AscendShmem.TopoXml.Parser

/-!
# The parser on arbitrary bytes

Each function of the parser ends, reads only inside the string and moves the position forward; what
the loop keeps is a forest that is still being read (`Reading`), the tags being its preorder list. The
walks of the affinity builder along the parents end because a parent stands before its children.
-/

namespace AscendShmem.TopoXml

open Lib Lib.Exec

/-- The run ends without a fault, and with a value in `Q` unless it rejects the text. -/
abbrev Safe {α : Type} (x : Parse α) (Q : α → Prop) : Prop := Ends x Q (fun _ => True) False

theorem safe_reject {α : Type} (message : String) (Q : α → Prop) : Safe (reject message) Q := trivial

theorem safe_ok {α : Type} {a : α} {Q : α → Prop} (h : Q a) : Safe (.ok a) Q := h

/-! ## What a tag may hold -/

/-- The attributes of a tag are within the limits and have distinct names. -/
structure AttrsOk (attrs : List XmlAttr) : Prop where
  count : attrs.length ≤ maxAttrsPerTag
  distinct : (attrs.map XmlAttr.name).Nodup
  lengths : ∀ attr ∈ attrs, attr.name.length ≤ maxAttrNameLen ∧ attr.value.length ≤ maxAttrValueLen

theorem attrsOk_nil : AttrsOk [] := ⟨Nat.zero_le _, List.nodup_nil, by simp⟩

/-- One more attribute, if there is room for it. -/
theorem AttrsOk.snoc {attrs : List XmlAttr} (h : AttrsOk attrs) (hcount : attrs.length < maxAttrsPerTag)
    {attr : XmlAttr} (hnew : attr.name ∉ attrs.map XmlAttr.name)
    (hname : attr.name.length ≤ maxAttrNameLen) (hvalue : attr.value.length ≤ maxAttrValueLen) :
    AttrsOk (attrs ++ [attr]) := by
  refine ⟨by rwa [List.length_append, List.length_singleton], ?_, ?_⟩
  · rw [List.map_append, List.map_singleton]
    exact List.nodup_append.mpr ⟨h.distinct, List.nodup_singleton _, fun a ha b hb hab =>
      hnew (by rw [← List.mem_singleton.mp hb, ← hab]; exact ha)⟩
  · intro other hother
    rcases List.mem_append.mp hother with hold | hlast
    · exact h.lengths other hold
    · rw [List.mem_singleton.mp hlast]
      exact ⟨hname, hvalue⟩

/-- What is found lies behind the start. -/
theorem findIn_bounds {pattern bytes : Bytes} {pos found : ℕ}
    (h : findIn pattern bytes pos = some found) :
    pos ≤ found ∧ found + pattern.length ≤ pos + bytes.length := by
  induction bytes generalizing pos with
  | nil =>
    rw [findIn] at h
    split at h
    case isTrue hp =>
      cases h
      rw [hp]
      exact ⟨le_refl _, le_refl _⟩
    case isFalse => cases h
  | cons b bytes ih =>
    rw [findIn] at h
    split at h
    case isTrue hp =>
      cases h
      exact ⟨le_refl _, Nat.add_le_add_left hp.length_le _⟩
    case isFalse =>
      obtain ⟨hstart, hstop⟩ := ih h
      rw [List.length_cons]
      omega

section Scan

variable (xml : Bytes)

/-! ## Positions -/

/-- Skipping ends inside the text. -/
theorem skipWhile_safe (p : UInt8 → Bool) (fuel pos : ℕ) (hfuel : xml.length < pos + fuel)
    (hpos : pos ≤ xml.length) :
    Safe (skipWhile xml p fuel pos) fun stop => pos ≤ stop ∧ stop ≤ xml.length := by
  induction fuel generalizing pos with
  | zero => omega
  | succ fuel ih =>
    rw [skipWhile]
    split
    case isFalse => exact ⟨le_refl _, hpos⟩
    case isTrue hlt =>
      refine Ends.read (fun ch _ => trivial) (fun hle => absurd hlt (by omega)) |>.bind ?_
      intro ch _
      split
      case isFalse => exact ⟨le_refl _, hpos⟩
      case isTrue =>
        refine (ih (pos + 1) (by omega) hlt).imp ?_
        rintro stop ⟨hstart, hstop⟩
        exact ⟨by omega, hstop⟩

theorem skipWhitespace_safe {pos : ℕ} (hpos : pos ≤ xml.length) :
    Safe (skipWhitespace xml pos) fun stop => pos ≤ stop ∧ stop ≤ xml.length :=
  skipWhile_safe xml isSpace _ pos (by omega) hpos

/-- A read inside the string. -/
theorem byteAt_safe {pos : ℕ} (hpos : pos < xml.length) :
    Safe (read xml pos) fun ch => xml[pos]? = some ch :=
  Ends.read (fun _ h => h) fun hle => absurd hpos (by omega)

theorem substr_safe {start : ℕ} (length : ℕ) (hstart : start ≤ xml.length) :
    Safe (substr xml start length) fun bytes => bytes.length ≤ length := by
  rw [substr, if_pos hstart]
  exact List.length_take_le _ _

/-- A comparison stays inside the text. -/
theorem compare_safe {pos : ℕ} (pattern : Bytes) (hpos : pos ≤ xml.length) :
    Safe (compare xml pos pattern) fun found =>
      found = true → pos + pattern.length ≤ xml.length := by
  rw [compare, if_pos hpos]
  intro hfound
  have hlength := congrArg List.length (of_decide_eq_true hfound)
  rw [List.length_take, List.length_drop] at hlength
  omega

/-- What is found lies inside the text. -/
theorem find_bounds {pattern : Bytes} {pos found : ℕ} (h : find xml pattern pos = some found) :
    pos ≤ found ∧ found + pattern.length ≤ xml.length := by
  rw [find] at h
  split at h
  case isTrue hpos =>
    have hbounds := findIn_bounds h
    rw [List.length_drop] at hbounds
    omega
  case isFalse => cases h

/-- Skipping past a terminator ends inside the text. -/
theorem skipPast_safe (terminator : Bytes) (pos : ℕ) (message : String) :
    Safe (skipPast xml terminator pos message) fun stop => pos ≤ stop ∧ stop ≤ xml.length := by
  rw [skipPast]
  split
  case h_1 => exact safe_reject _ _
  case h_2 last hlast =>
    have hbounds := find_bounds xml hlast
    exact ⟨by omega, hbounds.2⟩

/-- A name is within its limit. -/
theorem parseName_safe {pos : ℕ} (hpos : pos ≤ xml.length) (maxLength : ℕ) (fieldName : String) :
    Safe (parseName xml pos maxLength fieldName) fun (name, stop) =>
      pos < stop ∧ stop ≤ xml.length ∧ name.length ≤ maxLength := by
  unfold parseName
  split
  case isFalse => exact safe_reject _ _
  case isTrue hlt =>
    refine (byteAt_safe xml hlt).bind fun ch _ => ?_
    split
    case isFalse => exact safe_reject _ _
    case isTrue =>
      refine (skipWhile_safe xml isNameChar _ (pos + 1) (by omega) hlt).bind ?_
      rintro stop ⟨hstart, hstop⟩
      dsimp only
      split
      case isTrue => exact safe_reject _ _
      case isFalse hlength =>
        refine (substr_safe xml _ hpos).bind fun name hname => safe_ok ?_
        exact ⟨hstart, hstop, hname.trans (Nat.le_of_not_lt hlength)⟩

/-- The loop ends behind a closing bracket. -/
theorem skipDeclarationLoop_safe (fuel pos : ℕ) (quote : Option UInt8) (subsetDepth : ℤ)
    (hfuel : xml.length < pos + fuel) (hpos : pos ≤ xml.length) :
    Safe (skipDeclarationLoop xml fuel pos quote subsetDepth) fun stop =>
      pos < stop ∧ stop ≤ xml.length := by
  induction fuel generalizing pos quote subsetDepth with
  | zero => omega
  | succ fuel ih =>
    have hnext (hlt : pos < xml.length) (quote : Option UInt8) (subsetDepth : ℤ) :
        Safe (skipDeclarationLoop xml fuel (pos + 1) quote subsetDepth) fun stop =>
          pos < stop ∧ stop ≤ xml.length :=
      (ih (pos + 1) quote subsetDepth (by omega) hlt).imp fun stop h => ⟨by omega, h.2⟩
    rw [skipDeclarationLoop]
    split
    case isFalse => exact safe_reject _ _
    case isTrue hlt =>
      refine (byteAt_safe xml hlt).bind fun ch _ => ?_
      -- inside a quote, or by the character
      cases quote with
      | some q =>
        dsimp only
        split <;> exact hnext hlt _ _
      | none =>
        dsimp only
        split
        case isTrue => exact hnext hlt _ _
        case isFalse =>
          split
          case isTrue => exact hnext hlt _ _
          case isFalse =>
            split
            case isTrue => exact hnext hlt _ _
            case isFalse =>
              split
              case isTrue => exact safe_ok ⟨Nat.lt_succ_self pos, hlt⟩
              case isFalse => exact hnext hlt _ _

theorem skipMarkupDeclaration_safe {pos : ℕ} (hpos : pos ≤ xml.length) :
    Safe (skipMarkupDeclaration xml pos) fun stop => pos < stop ∧ stop ≤ xml.length :=
  skipDeclarationLoop_safe xml _ pos none 0 (by omega) hpos

/-! ## Attributes -/

/-- The loop ends at the quote. -/
theorem skipValue_safe (attrName : Bytes) (quote : UInt8) (fuel pos : ℕ)
    (hfuel : xml.length < pos + fuel) (hpos : pos ≤ xml.length) :
    Safe (skipValue xml attrName quote fuel pos) fun stop => pos ≤ stop ∧ stop ≤ xml.length := by
  induction fuel generalizing pos with
  | zero => omega
  | succ fuel ih =>
    rw [skipValue]
    split
    case isFalse => exact safe_ok ⟨le_refl _, hpos⟩
    case isTrue hlt =>
      refine (byteAt_safe xml hlt).bind fun ch _ => ?_
      split
      case isTrue => exact safe_ok ⟨le_refl _, hpos⟩
      case isFalse =>
        split
        case isTrue => exact safe_reject _ _
        case isFalse => exact (ih (pos + 1) (by omega) hlt).imp fun stop h => ⟨by omega, h.2⟩

/-- A value is within its limit. -/
theorem parseValue_safe (attrName : Bytes) {pos : ℕ} (hpos : pos ≤ xml.length) :
    Safe (parseValue xml attrName pos) fun (value, stop) =>
      pos < stop ∧ stop ≤ xml.length ∧ value.length ≤ maxAttrValueLen := by
  refine (skipWhitespace_safe xml hpos).bind ?_
  rintro equals ⟨hequals, _⟩
  dsimp only
  split
  case isFalse => exact safe_reject _ _
  case isTrue hlt =>
    refine (byteAt_safe xml hlt).bind fun ch _ => ?_
    split
    case isFalse => exact safe_reject _ _
    case isTrue =>
      refine (skipWhitespace_safe xml hlt).bind ?_
      rintro quoteAt ⟨hquoteAt, _⟩
      split
      case isFalse => exact safe_reject _ _
      case isTrue hlt =>
        refine (byteAt_safe xml hlt).bind fun quote _ => ?_
        split
        case isFalse => exact safe_reject _ _
        case isTrue =>
          refine (skipValue_safe xml attrName quote _ (quoteAt + 1) (by omega) hlt).bind ?_
          rintro stop ⟨hstart, _⟩
          split
          case isTrue => exact safe_reject _ _
          case isFalse hinside =>
            split
            case isTrue => exact safe_reject _ _
            case isFalse hlength =>
              refine (substr_safe xml _ hlt).bind fun value hvalue => safe_ok ?_
              exact ⟨by omega, by omega, hvalue.trans (Nat.le_of_not_lt hlength)⟩

/-- An attribute is within the limits. -/
theorem parseAttr_safe (tagName : Bytes) {attrs : List XmlAttr} (hattrs : AttrsOk attrs) {pos : ℕ}
    (hpos : pos ≤ xml.length) :
    Safe (parseAttr xml tagName attrs pos) fun (attrs, stop) =>
      AttrsOk attrs ∧ pos < stop ∧ stop ≤ xml.length := by
  unfold parseAttr
  split
  case isTrue => exact safe_reject _ _
  case isFalse hcount =>
    refine (parseName_safe xml hpos _ _).bind ?_
    rintro ⟨name, nameStop⟩ ⟨hstart, hstop, hname⟩
    dsimp only
    split
    case isTrue => exact safe_reject _ _
    case isFalse hnew =>
      refine (parseValue_safe xml name hstop).bind ?_
      rintro ⟨value, stop⟩ ⟨hstart', hstop', hvalue⟩
      exact safe_ok ⟨hattrs.snoc (Nat.lt_of_not_le hcount) hnew hname hvalue, by omega, hstop'⟩

/-- The test for a slash stays inside the text. -/
theorem closesItself_safe (pos : ℕ) (ch : UInt8) :
    Safe (closesItself xml pos ch) fun closes => closes = true → pos + 2 ≤ xml.length := by
  unfold closesItself
  split
  case isTrue hnext => exact (byteAt_safe xml hnext.2).bind fun next _ => safe_ok fun _ => hnext.2
  case isFalse => exact safe_ok fun hfalse => absurd hfalse Bool.false_ne_true

/-- The attributes of a tag are within the limits. -/
theorem parseAttrsAndEnd_safe (tagName : Bytes) (fuel : ℕ) {attrs : List XmlAttr}
    (hattrs : AttrsOk attrs) (pos : ℕ) (hfuel : xml.length < pos + fuel) (hpos : pos ≤ xml.length) :
    Safe (parseAttrsAndEnd xml tagName fuel attrs pos) fun (attrs, _, stop) =>
      AttrsOk attrs ∧ pos < stop ∧ stop ≤ xml.length := by
  induction fuel generalizing attrs pos with
  | zero => omega
  | succ fuel ih =>
    rw [parseAttrsAndEnd]
    dsimp only
    split
    case isFalse => exact safe_reject _ _
    case isTrue =>
      refine (skipWhitespace_safe xml hpos).bind ?_
      rintro start ⟨hstart, _⟩
      split
      case isFalse => exact safe_reject _ _
      case isTrue hlt =>
        refine (byteAt_safe xml hlt).bind fun ch _ => ?_
        split
        case isTrue => exact safe_ok ⟨hattrs, Nat.lt_succ_of_le hstart, hlt⟩
        case isFalse =>
          refine (closesItself_safe xml start ch).bind fun closes hstop => ?_
          split
          case isTrue hcloses => exact safe_ok ⟨hattrs, Nat.lt_of_le_of_lt hstart (Nat.lt_add_of_pos_right Nat.two_pos), hstop hcloses⟩
          case isFalse =>
            refine (parseAttr_safe xml tagName hattrs (le_of_lt hlt)).bind ?_
            rintro ⟨attrs, next⟩ ⟨hattrs, hnext, hbound⟩
            refine (ih hattrs next (by omega) hbound).imp ?_
            rintro ⟨attrs, selfClosing, stop⟩ ⟨hattrs, hstop, hbound⟩
            exact ⟨hattrs, hstart.trans_lt (hnext.trans hstop), hbound⟩

end Scan

/-! ## The tree that is read -/

/-- What an opening tag says. -/
structure Element where
  name : Bytes
  attrs : List XmlAttr
  selfClosing : Bool

/-- `-1` at the top. -/
def parentIndexOf : Option ℕ → ℤ
  | none => -1
  | some parent => parent

/-- The tag of an entry. -/
def tagOf (entry : Entry Element) : XmlTag :=
  ⟨entry.label.name, entry.label.attrs, parentIndexOf entry.parent, entry.depth,
    entry.label.selfClosing⟩

/-- The limits hold, and only an element that does not close itself has children. -/
structure ElementOk (element : Element) (children : Forest Element) : Prop where
  name : element.name.length ≤ maxTagNameLen
  attrs : AttrsOk element.attrs
  leaf : element.selfClosing = true → children = .nil

theorem parentOf_eq (openTags : OpenTags) : parentOf openTags = parentIndexOf openTags.head? := by
  cases openTags with
  | nil => rfl
  | cons back outer => rfl

/-- Between two turns of the loop the tags are the list of a forest that is still being read. -/
structure Reading (xml : Bytes) (st : Progress) (spine : Spine Element) : Prop where
  pos : st.pos ≤ xml.length
  tags : st.tags = spine.entries.map tagOf
  openTags : st.openTags = spine.indexes
  rootCount : st.rootCount = spine.rootCount
  elements : spine.All ElementOk
  oneRoot : spine.rootCount ≤ 1
  count : st.tags.length ≤ maxTagEntries

theorem Reading.moved {xml : Bytes} {st : Progress} {spine : Spine Element}
    (h : Reading xml st spine) {pos : ℕ} (hpos : pos ≤ xml.length) :
    Reading xml { st with pos := pos } spine :=
  ⟨hpos, h.tags, h.openTags, h.rootCount, h.elements, h.oneRoot, h.count⟩

theorem Reading.nodes_length {xml : Bytes} {st : Progress} {spine : Spine Element}
    (h : Reading xml st spine) : st.openTags.length = spine.nodes.length := by
  rw [h.openTags, Spine.indexes, Spine.length_indexesOf]

/-- Behind a turn that started at `pos`. -/
def Moved (xml : Bytes) (pos : ℕ) (st : Progress) : Prop :=
  pos < st.pos ∧ ∃ spine, Reading xml st spine

section Scan

variable (xml : Bytes)

/-- A closing tag closes the innermost open node. -/
theorem parseCloseTag_safe {st : Progress} {spine : Spine Element} (h : Reading xml st spine)
    (hpos : st.pos + 2 ≤ xml.length) :
    Safe (parseCloseTag xml st.pos st.tags st.openTags) fun (openTags, pos) =>
      st.pos < pos ∧ pos ≤ xml.length ∧ openTags = st.openTags.tail := by
  refine (skipWhitespace_safe xml hpos).bind ?_
  rintro nameStart ⟨hnameStart, hbound⟩
  refine (parseName_safe xml hbound _ _).bind ?_
  rintro ⟨name, nameStop⟩ ⟨hname, hnameStop, _⟩
  refine (skipWhitespace_safe xml hnameStop).bind ?_
  rintro stop ⟨hstop, _⟩
  dsimp only
  split
  case isFalse => exact safe_reject _ _
  case isTrue hlt =>
    refine (byteAt_safe xml hlt).bind fun ch _ => ?_
    split
    case isFalse => exact safe_reject _ _
    case isTrue =>
      split
      case h_1 => exact safe_reject _ _
      case h_2 openTags back outer hopen =>
        -- the innermost open tag is one of the tags
        have hback : back < st.tags.length := by
          rw [h.tags, List.length_map]
          exact spine.indexes_lt back (by rw [← h.openTags, hopen]; exact .head _)
        refine Ends.bind (Ends.read (fun _ _ => trivial) fun hle => absurd hback (by omega)) ?_
        intro openTag _
        split
        case isTrue => exact safe_ok ⟨by dsimp only; omega, hlt, (congrArg List.tail hopen).symm⟩
        case isFalse => exact safe_reject _ _

/-- An opening tag is pushed, or attached when it closes itself. -/
theorem parseOpenTag_safe {st : Progress} {spine : Spine Element} (h : Reading xml st spine)
    (hpos : st.pos < xml.length) :
    Safe (parseOpenTag xml st) fun next => st.pos < next.pos ∧ next.pos ≤ xml.length ∧
      next.rootCount = st.rootCount ∧ next.tags.length ≤ maxTagEntries ∧
      ∃ spine' : Spine Element, next.tags = spine'.entries.map tagOf ∧
        next.openTags = spine'.indexes ∧ spine'.All ElementOk ∧
        spine'.rootCount = spine.rootCount + if spine.nodes = [] then 1 else 0 := by
  refine (parseName_safe xml hpos _ _).bind ?_
  rintro ⟨name, nameStop⟩ ⟨hname, hnameStop, hlength⟩
  refine (parseAttrsAndEnd_safe xml name _ attrsOk_nil nameStop (by omega) hnameStop).bind ?_
  rintro ⟨attrs, selfClosing, stop⟩ ⟨hattrs, hstop, hbound⟩
  dsimp only at hname hnameStop hlength hattrs hstop hbound ⊢
  split
  case isTrue => exact safe_reject _ _
  case isFalse hcount =>
    have hcount' : (st.tags ++ [(⟨name, attrs, parentOf st.openTags, st.openTags.length,
        selfClosing⟩ : XmlTag)]).length ≤ maxTagEntries := by
      rw [List.length_append, List.length_singleton]
      omega
    -- the new tag is that of an element below the innermost open one
    have htag : (⟨name, attrs, parentOf st.openTags, st.openTags.length, selfClosing⟩ : XmlTag)
        = tagOf ⟨⟨name, attrs, selfClosing⟩, spine.indexes.head?, spine.nodes.length⟩ := by
      rw [tagOf, parentOf_eq, h.openTags, ← h.nodes_length, h.openTags]
    have hmoved : st.pos < stop := by omega
    split
    -- a tag that closes itself is attached as a leaf
    case isTrue hself =>
      refine safe_ok ⟨hmoved, hbound, rfl, hcount',
        spine.attach ⟨name, attrs, selfClosing⟩ .nil, ?_, ?_, ?_, spine.rootCount_attach _ _⟩
      · rw [htag, h.tags, Spine.entries_attach, List.map_append]
        rfl
      · rw [Spine.indexes_attach]
        exact h.openTags
      · exact h.elements.attach ⟨hlength, hattrs, fun _ => rfl⟩ trivial
    case isFalse hself =>
      split
      case isTrue => exact safe_reject _ _
      case isFalse =>
        refine safe_ok ⟨hmoved, hbound, rfl, hcount',
          spine.push ⟨name, attrs, selfClosing⟩, ?_, ?_, ?_, ?_⟩
        · rw [htag, h.tags, Spine.entries_push, List.map_append]
          rfl
        · rw [Spine.indexes_push, ← h.openTags, List.length_append, List.length_singleton,
            Nat.add_sub_cancel, h.tags, List.length_map]
        · exact h.elements.push fun children => ⟨hlength, hattrs, fun hclosing => absurd hclosing hself⟩
        · rw [Spine.rootCount_push, Spine.rootCount]
          split <;> omega

/-- An opening tag opens a node. -/
theorem parseElement_safe {st : Progress} {spine : Spine Element} (h : Reading xml st spine)
    (hpos : st.pos < xml.length) : Safe (parseElement xml st) (Moved xml st.pos) := by
  refine (parseOpenTag_safe xml h hpos).bind ?_
  rintro next ⟨hnext, hbound, hrootCount, hcount, spine', htags, hopen, helements, hroots⟩
  have hisRoot : st.openTags.isEmpty = true ↔ spine.nodes = [] := by
    rw [List.isEmpty_iff, ← List.length_eq_zero_iff, h.nodes_length, List.length_eq_zero_iff]
  split
  case isTrue hroot =>
    rw [if_pos (hisRoot.mp hroot), ← h.rootCount, ← hrootCount] at hroots
    dsimp only
    split
    case isTrue => exact safe_reject _ _
    case isFalse hone =>
      exact safe_ok ⟨hnext, spine', hbound, htags, hopen, hroots.symm, helements, by omega, hcount⟩
  case isFalse hroot =>
    rw [if_neg (fun hnil => hroot (hisRoot.mpr hnil)), Nat.add_zero] at hroots
    exact safe_ok ⟨hnext, spine', hbound, htags, hopen, by rw [hrootCount, h.rootCount, hroots],
      helements, hroots ▸ h.oneRoot, hcount⟩

/-! ## The loop -/

/-- The scan of a text stays inside it. -/
theorem containsNonWhitespace_safe (n i : ℕ) (h : i + n ≤ xml.length) :
    Safe (containsNonWhitespace xml n i) fun _ => True := by
  induction n generalizing i with
  | zero => trivial
  | succ n ih =>
    rw [containsNonWhitespace]
    refine (byteAt_safe xml (by omega)).bind fun ch _ => ?_
    split
    case isTrue => exact ih (i + 1) (by omega)
    case isFalse => trivial

theorem checkOutside_safe (st : Progress) {stop : ℕ} (hpos : st.pos ≤ stop)
    (hstop : stop ≤ xml.length) : Safe (checkOutside xml st stop) fun _ => True := by
  unfold checkOutside
  split
  case isTrue =>
    refine (containsNonWhitespace_safe xml (stop - st.pos) st.pos (by omega)).bind fun found _ => ?_
    split <;> trivial
  case isFalse => trivial

/-- Behind the terminator the position has moved and the forest is the same. -/
theorem Reading.skipped {st : Progress} {spine : Spine Element} (h : Reading xml st spine)
    (terminator : Bytes) (message : String) (ahead : ℕ) (hahead : 0 < ahead) :
    Safe (do
      let pos ← skipPast xml terminator (st.pos + ahead) message
      .ok { st with pos := pos }) (Moved xml st.pos) :=
  (skipPast_safe xml terminator (st.pos + ahead) message).bind fun _ hpos =>
    safe_ok ⟨by dsimp only; omega, spine, h.moved hpos.2⟩

/-- Markup keeps the tree. -/
theorem parseMarkup_safe {st : Progress} {spine : Spine Element} (h : Reading xml st spine)
    (hpos : st.pos < xml.length) : Safe (parseMarkup xml st) (Moved xml st.pos) := by
  unfold parseMarkup
  refine (compare_safe xml commentOpen h.pos).bind fun isComment _ => ?_
  split
  case isTrue => exact h.skipped xml _ _ 4 (by omega)
  case isFalse =>
    refine (compare_safe xml instructionOpen h.pos).bind fun isInstruction _ => ?_
    split
    case isTrue => exact h.skipped xml _ _ 2 (by omega)
    case isFalse =>
      refine (compare_safe xml cdataOpen h.pos).bind fun isCdata _ => ?_
      split
      case isTrue =>
        split
        case isTrue => exact safe_reject _ _
        case isFalse => exact h.skipped xml _ _ 9 (by omega)
      case isFalse =>
        refine (compare_safe xml declarationOpen h.pos).bind fun isDeclaration hdeclaration => ?_
        split
        case isTrue hfound =>
          refine (skipMarkupDeclaration_safe xml (hdeclaration hfound)).bind fun pos hmoved => ?_
          exact safe_ok ⟨by dsimp only; omega, spine, h.moved hmoved.2⟩
        case isFalse =>
          refine (compare_safe xml closeTagOpen h.pos).bind fun isCloseTag hcloseTag => ?_
          split
          case isTrue hfound =>
            refine (parseCloseTag_safe xml h (hcloseTag hfound)).bind ?_
            rintro ⟨openTags, pos⟩ ⟨hmoved, hbound, hopen⟩
            refine safe_ok ⟨hmoved, spine.close, hbound, ?_, ?_, ?_, h.elements.close, ?_, h.count⟩
            · rw [Spine.entries_close]
              exact h.tags
            · rw [Spine.indexes_close, ← h.openTags]
              exact hopen
            · rw [Spine.rootCount_close]
              exact h.rootCount
            · rw [Spine.rootCount_close]
              exact h.oneRoot
          case isFalse => exact parseElement_safe xml h hpos

/-- One turn keeps the tree, and moves on. -/
theorem parseTurn_safe {st : Progress} {spine : Spine Element} (h : Reading xml st spine) :
    Safe (parseTurn xml st) fun next => ∀ st', next = some st' → Moved xml st.pos st' := by
  unfold parseTurn
  split
  case h_1 =>
    refine (checkOutside_safe xml st h.pos (le_refl _)).bind fun _ _ => safe_ok ?_
    exact fun st' hnone => nomatch hnone
  case h_2 opening hopening =>
    obtain ⟨hstart, hstop⟩ := find_bounds xml hopening
    rw [List.length_singleton] at hstop
    refine (checkOutside_safe xml st hstart (Nat.le_of_succ_le hstop)).bind fun _ _ => ?_
    refine (parseMarkup_safe xml (h.moved (Nat.le_of_succ_le hstop)) hstop).bind ?_
    rintro next ⟨hmoved, hreading⟩
    refine safe_ok fun st' hsome => ?_
    cases hsome
    exact ⟨hstart.trans_lt hmoved, hreading⟩

theorem parseLoop_safe (fuel : ℕ) {st : Progress} (hfuel : xml.length < st.pos + fuel)
    (h : ∃ spine, Reading xml st spine) :
    Safe (parseLoop xml fuel st) fun st' => ∃ spine, Reading xml st' spine := by
  induction fuel generalizing st with
  | zero =>
    obtain ⟨spine, h⟩ := h
    exact absurd h.pos (by omega)
  | succ fuel ih =>
    rw [parseLoop]
    split
    case isFalse => exact safe_ok h
    case isTrue =>
      obtain ⟨spine, hreading⟩ := h
      refine (parseTurn_safe xml hreading).bind fun next hnext => ?_
      cases next with
      | none => exact safe_ok ⟨spine, hreading⟩
      | some st' =>
        obtain ⟨hmoved, hreading'⟩ := hnext st' rfl
        exact ih (by omega) hreading'

end Scan

end AscendShmem.TopoXml
