import AscendShmem.TopoXml.Language
import AscendShmem.TopoXml.TreeTags

/-!
# The parser reads its language

Each markup of a document is one turn of the loop, which first passes the text before it; so a
document is read by an induction on its content, one case for a markup, an empty tag and an element
(`steps_content`). What a turn does to a markup is its exact result, function by function.
-/

namespace AscendShmem.TopoXml

open Lib Lib.Exec

/-! ## Tags -/

section Tags

variable {xml rest : Bytes} {pos : ℕ}

/-- A value is read up to its quote. -/
theorem skipValue_eq {value : Bytes} {quote : UInt8} (h : Ahead xml pos (value ++ quote :: rest))
    (hquote : quote ∉ value) (hvalue : byte '<' ∉ value) (attrName : Bytes) (fuel : ℕ)
    (hfuel : value.length < fuel) :
    skipValue xml attrName quote fuel pos = .ok (pos + value.length) := by
  induction value generalizing pos fuel with
  | nil =>
    obtain ⟨fuel, rfl⟩ := Nat.exists_eq_succ_of_ne_zero hfuel.ne_bot
    rw [skipValue, if_pos h.lt, Ahead.read h, ok_bind]
    exact if_pos rfl
  | cons b value ih =>
    obtain ⟨fuel, rfl⟩ := Nat.exists_eq_succ_of_ne_zero hfuel.ne_bot
    have hnext := ih h.next (fun hmem => hquote (.tail _ hmem)) (fun hmem => hvalue (.tail _ hmem))
      fuel (Nat.lt_of_succ_lt_succ hfuel)
    have hquote' : b ≠ quote := fun hb => hquote (hb ▸ .head _)
    have hvalue' : b ≠ byte '<' := fun hb => hvalue (hb ▸ .head _)
    rw [skipValue, if_pos h.lt, h.read, ok_bind, if_neg hquote', if_neg hvalue', hnext,
      List.length_cons, Nat.add_assoc, Nat.add_comm 1]

theorem isSpace_quote {quote : UInt8} (h : quote = apostrophe ∨ quote = quotationMark) :
    isSpace quote = false := by
  rcases h with rfl | rfl <;> decide

/-- A value is read back. -/
theorem parseValue_eq {text : AttrText} (h : Ahead xml pos (text.renderValue ++ rest)) (hok : text.Ok)
    (hlength : text.value.length ≤ maxAttrValueLen) (hvalue : byte '<' ∉ text.value)
    (attrName : Bytes) :
    parseValue xml attrName pos = .ok (text.value, pos + text.renderValue.length) := by
  rw [AttrText.renderValue, List.append_assoc, List.cons_append, List.append_assoc, List.cons_append,
    List.append_assoc, List.singleton_append] at h
  have hequals := h.skip
  have hquote := hequals.next.skip
  have hclose := hquote.next.skip
  have hbehind : pos + text.afterName.length + 1 + text.beforeValue.length + 1 + text.value.length + 1
      = pos + text.renderValue.length := by
    simp only [AttrText.renderValue, List.length_append, List.length_cons, List.length_nil]
    omega
  unfold parseValue
  rw [skipWhitespace_eq h hok.afterName (stops_cons (by decide)), ok_bind]
  dsimp only
  rw [if_pos hequals.lt, hequals.read, ok_bind, if_pos rfl,
    skipWhitespace_eq hequals.next hok.beforeValue (stops_cons (isSpace_quote hok.quote)), ok_bind,
    if_pos hquote.lt, hquote.read, ok_bind, if_pos hok.quote,
    skipValue_eq hquote.next hok.value hvalue attrName _ hquote.next.fuel, ok_bind,
    if_neg (Nat.not_le.mpr hclose.lt), Nat.add_sub_cancel_left, if_neg (Nat.not_lt.mpr hlength),
    substr_eq hquote.next, ok_bind, hbehind]

theorem isNameChar_of_isSpace : ∀ b : UInt8, isSpace b = true → isNameChar b = false := by
  decide +kernel

/-- The bytes that no name begins with. -/
theorem isNameStart_other : ∀ b : UInt8, isNameStart b = true →
    isSpace b = false ∧ b ≠ byte '>' ∧ b ≠ byte '/' ∧ b ≠ byte '!' ∧ b ≠ byte '?' := by
  decide +kernel

theorem stops_renderValue {text : AttrText} (hok : text.Ok) (rest : Bytes) :
    Stops isNameChar (text.renderValue ++ rest) := by
  rw [AttrText.renderValue, List.append_assoc, List.cons_append]
  exact Stops.append (fun b hb => isNameChar_of_isSpace b (hok.afterName b hb)) (stops_cons (by decide))

/-- An attribute is read back. -/
theorem parseAttr_eq {text : AttrText} {attrs : List XmlAttr}
    (h : Ahead xml pos (text.name ++ text.renderValue ++ rest)) (hok : text.Ok)
    (hcount : attrs.length < maxAttrsPerTag) (hnew : text.name ∉ attrs.map XmlAttr.name)
    (hname : IsName text.name ∧ text.name.length ≤ maxAttrNameLen)
    (hvalue : text.value.length ≤ maxAttrValueLen ∧ byte '<' ∉ text.value) (tagName : Bytes) :
    parseAttr xml tagName attrs pos
      = .ok (attrs ++ [text.attr], pos + (text.name ++ text.renderValue).length) := by
  rw [List.append_assoc] at h
  unfold parseAttr
  rw [if_neg (Nat.not_le.mpr hcount), parseName_eq h hname.1 hname.2 (stops_renderValue hok rest),
    ok_bind]
  dsimp only
  rw [if_neg hnew, parseValue_eq h.skip hok hvalue.1 hvalue.2, ok_bind, List.length_append,
    ← Nat.add_assoc]
  rfl

/-- The end of an opening tag. -/
theorem parseAttrsAndEnd_end {spaces : Bytes} {selfClosing : Bool}
    (h : Ahead xml pos (spaces ++ (endOf selfClosing ++ rest))) (hspaces : Spaces spaces)
    (tagName : Bytes) (fuel : ℕ) (attrs : List XmlAttr) :
    parseAttrsAndEnd xml tagName (fuel + 1) attrs pos
      = .ok (attrs, selfClosing, pos + (spaces ++ endOf selfClosing).length) := by
  have hend := h.skip
  cases selfClosing with
  | false =>
    have hlt : pos < xml.length := Nat.lt_of_le_of_lt (Nat.le_add_right _ _) hend.lt
    rw [parseAttrsAndEnd, if_pos hlt, skipWhitespace_eq h hspaces (stops_cons (by decide)), ok_bind,
      if_pos hend.lt, hend.read, ok_bind, if_pos rfl, List.length_append, ← Nat.add_assoc]
    rfl
  | true =>
    have hlt : pos < xml.length := Nat.lt_of_le_of_lt (Nat.le_add_right _ _) hend.lt
    have hcloses : closesItself xml (pos + spaces.length) (byte '/') = .ok true := by
      rw [closesItself, if_pos ⟨rfl, hend.next.lt⟩, hend.next.read, ok_bind]
      rfl
    rw [parseAttrsAndEnd, if_pos hlt, skipWhitespace_eq h hspaces (stops_cons (by decide)), ok_bind,
      if_pos hend.lt, hend.read, ok_bind, if_neg (by decide), hcloses, ok_bind, if_pos rfl,
      List.length_append, ← Nat.add_assoc]
    rfl

theorem closesItself_other {ch : UInt8} (h : ch ≠ byte '/') : closesItself xml pos ch = .ok false := by
  rw [closesItself, if_neg fun hslash => h hslash.1]

/-- The attributes of a tag and its end, behind the attributes read before. -/
theorem parseAttrsAndEnd_eq {tag : TagText} {selfClosing : Bool} {texts : List AttrText}
    (h : Ahead xml pos (renderAttrs texts ++ (tag.spaces ++ (endOf selfClosing ++ rest))))
    (hspaces : Spaces tag.spaces) (htexts : ∀ text ∈ texts, text.Ok) {attrs : List XmlAttr}
    (hlabel : Label.Ok ⟨tag.name, attrs ++ texts.map AttrText.attr⟩) (fuel : ℕ)
    (hfuel : texts.length < fuel) :
    parseAttrsAndEnd xml tag.name fuel attrs pos = .ok (attrs ++ texts.map AttrText.attr, selfClosing,
      pos + (renderAttrs texts ++ (tag.spaces ++ endOf selfClosing)).length) := by
  induction texts generalizing pos attrs fuel with
  | nil =>
    obtain ⟨fuel, rfl⟩ := Nat.exists_eq_succ_of_ne_zero hfuel.ne_bot
    rw [renderAttrs, List.nil_append] at h
    rw [Nat.succ_eq_add_one, parseAttrsAndEnd_end h hspaces, List.map_nil, List.append_nil, renderAttrs,
      List.nil_append]
  | cons text more ih =>
    obtain ⟨fuel, rfl⟩ := Nat.exists_eq_succ_of_ne_zero hfuel.ne_bot
    have hok := htexts text (.head _)
    have hlabel' : Label.Ok ⟨tag.name, (attrs ++ [text.attr]) ++ more.map AttrText.attr⟩ := by
      rwa [List.append_assoc]
    have hmem : text.attr ∈ attrs ++ (text :: more).map AttrText.attr :=
      List.mem_append_right _ (.head _)
    have hname := hlabel.attrNames _ hmem
    have hvalue := hlabel.values _ hmem
    have hcount : attrs.length < maxAttrsPerTag := by
      have hcount := hlabel.count
      rw [List.length_append, List.map_cons, List.length_cons] at hcount
      omega
    have hnew : text.name ∉ attrs.map XmlAttr.name := by
      have hdistinct := hlabel.distinct
      rw [List.map_append, List.map_cons, List.map_cons] at hdistinct
      exact fun hold => (List.nodup_append.mp hdistinct).2.2 _ hold _ (.head _) rfl
    rw [renderAttrs, AttrText.render, List.append_assoc, List.append_assoc] at h
    have hattr := h.skip
    have hmore := hattr.skip
    have hread := parseAttr_eq hattr hok hcount hnew hname ⟨hvalue.1, hvalue.2.1⟩ tag.name
    have hrest := ih hmore (fun other hother => htexts other (.tail _ hother)) hlabel' fuel
      (Nat.lt_of_succ_lt_succ hfuel)
    -- the name begins with none of the bytes that end a tag
    obtain ⟨first, others, hcons, hfirst, _⟩ := hname.1
    have hother := isNameStart_other first hfirst
    rw [show text.attr.name = text.name from rfl] at hcons
    rw [hcons, List.cons_append, List.cons_append] at hattr
    have hlt : pos < xml.length := Nat.lt_of_le_of_lt (Nat.le_add_right _ _) hattr.lt
    rw [hcons, List.cons_append, List.cons_append] at h
    rw [Nat.succ_eq_add_one, parseAttrsAndEnd, if_pos hlt,
      skipWhitespace_eq h hok.before (stops_cons hother.1), ok_bind, if_pos hattr.lt, hattr.read, ok_bind,
      if_neg hother.2.1, closesItself_other hother.2.2.1, ok_bind, if_neg Bool.false_ne_true, hread,
      ok_bind]
    have hpos : pos + text.before.length + (text.name ++ text.renderValue).length
        + (renderAttrs more ++ (tag.spaces ++ endOf selfClosing)).length
        = pos + (renderAttrs (text :: more) ++ (tag.spaces ++ endOf selfClosing)).length := by
      simp only [renderAttrs, AttrText.render, List.length_append]
      omega
    rw [← hpos, List.map_cons, List.append_cons attrs text.attr (more.map AttrText.attr)]
    exact hrest

/-- The name of a tag ends before its attributes. -/
theorem stops_attrs {tag : TagText} (hok : tag.Ok) (selfClosing : Bool) (rest : Bytes) :
    Stops isNameChar (renderAttrs tag.attrs ++ (tag.spaces ++ (endOf selfClosing ++ rest))) := by
  have hattrs := hok.attrs
  have hapart := hok.apart
  cases hcons : tag.attrs with
  | nil =>
    rw [renderAttrs, List.nil_append]
    refine Stops.append (fun b hb => isNameChar_of_isSpace b (hok.spaces b hb)) ?_
    cases selfClosing with
    | false => exact stops_cons (by decide)
    | true => exact stops_cons (by decide)
  | cons text more =>
    rw [hcons] at hattrs hapart
    have hne := hapart text rfl
    have hspace := (hattrs text (.head _)).before
    rw [renderAttrs, AttrText.render]
    cases hbefore : text.before with
    | nil => exact absurd hbefore hne
    | cons b before =>
      rw [hbefore] at hspace
      exact stops_cons (isNameChar_of_isSpace b (hspace b (.head _)))

/-- Every attribute has a byte. -/
theorem length_renderAttrs (texts : List AttrText) : texts.length ≤ (renderAttrs texts).length := by
  induction texts with
  | nil => exact le_refl _
  | cons text more ih =>
    have hvalue : 0 < text.renderValue.length := by simp [AttrText.renderValue]
    rw [renderAttrs, AttrText.render, List.length_append, List.length_append, List.length_append,
      List.length_cons]
    omega

/-- Behind an opening tag. -/
def opened (st : Progress) (tag : TagText) (selfClosing : Bool) : Progress where
  pos := st.pos + (tag.render selfClosing).length
  tags := st.tags ++ [tagOf ⟨tag.element selfClosing, st.openTags.head?, st.openTags.length⟩]
  openTags := if selfClosing then st.openTags else st.tags.length :: st.openTags
  rootCount := st.rootCount

/-- An opening tag is read back. -/
theorem parseOpenTag_eq {st : Progress} {tag : TagText} {selfClosing : Bool}
    (h : Ahead xml st.pos (tag.render selfClosing ++ rest)) (hok : tag.Ok)
    (hlabel : (tag.element selfClosing).toLabel.Ok) (hroom : st.tags.length < maxTagEntries) :
    parseOpenTag xml st = .ok (opened st tag selfClosing) := by
  rw [TagText.render, List.cons_append, List.append_assoc, List.append_assoc, List.append_assoc] at h
  have hname := parseName_eq h.next hlabel.name.1 hlabel.name.2 (stops_attrs hok selfClosing rest)
    "tag name"
  have hfuel : tag.attrs.length < xml.length + 1 := by
    have hlength := h.next.skip.fuel
    have hrender := length_renderAttrs tag.attrs
    omega
  have hlabel' : Label.Ok ⟨tag.name, [] ++ tag.attrs.map AttrText.attr⟩ := hlabel
  have hattrs : parseAttrsAndEnd xml tag.name (xml.length + 1) [] (st.pos + 1 + tag.name.length)
      = .ok (tag.attrs.map AttrText.attr, selfClosing, _) :=
    parseAttrsAndEnd_eq h.next.skip hok.spaces hok.attrs hlabel' (xml.length + 1) hfuel
  have hroom' : ¬ intMax < st.tags.length := by
    rw [maxTagEntries] at hroom
    rw [intMax]
    omega
  have hpos : st.pos + 1 + tag.name.length
      + (renderAttrs tag.attrs ++ (tag.spaces ++ endOf selfClosing)).length
      = st.pos + (tag.render selfClosing).length := by
    simp only [TagText.render, List.length_append, List.length_cons]
    omega
  unfold parseOpenTag
  rw [hname, ok_bind]
  dsimp only
  rw [hattrs, ok_bind]
  dsimp only
  rw [if_neg (Nat.not_le.mpr hroom), hpos, parentOf_eq, List.length_append, List.length_singleton,
    Nat.add_sub_cancel, if_neg hroom']
  cases selfClosing with
  | false => rfl
  | true => rfl

/-- A closing tag of the innermost open tag. -/
theorem parseCloseTag_eq {name beforeName afterName : Bytes}
    (h : Ahead xml pos (renderClose beforeName name afterName ++ rest))
    (hname : IsName name ∧ name.length ≤ maxTagNameLen) (hbefore : Spaces beforeName)
    (hafter : Spaces afterName) {tags : List XmlTag} {back : ℕ} {openTag : XmlTag}
    (hback : tags[back]? = some openTag) (hopen : openTag.name = name) (outer : OpenTags) :
    parseCloseTag xml pos tags (back :: outer)
      = .ok (outer, pos + (renderClose beforeName name afterName).length) := by
  rw [renderClose, List.append_assoc, List.append_assoc, List.append_assoc, List.append_assoc] at h
  have hspaces : Ahead xml (pos + 2) (beforeName ++ (name ++ (afterName ++ ([byte '>'] ++ rest)))) :=
    h.skip
  have hread := hspaces.skip
  have hend := hread.skip.skip
  have hstop : Stops isNameChar (afterName ++ byte '>' :: rest) :=
    Stops.append (fun b hb => isNameChar_of_isSpace b (hafter b hb)) (stops_cons (by decide))
  have hstart : Stops isSpace (name ++ (afterName ++ byte '>' :: rest)) := by
    obtain ⟨first, more, rfl, hfirst, _⟩ := hname.1
    exact stops_cons (isNameStart_other first hfirst).1
  have hpos : pos + 2 + beforeName.length + name.length + afterName.length + 1
      = pos + (renderClose beforeName name afterName).length := by
    simp only [renderClose, List.length_append, List.length_singleton]
    rw [show closeTagOpen.length = 2 from rfl]
    omega
  unfold parseCloseTag
  rw [skipWhitespace_eq hspaces hbefore hstart, ok_bind, parseName_eq hread hname.1 hname.2 hstop,
    ok_bind]
  dsimp only
  rw [skipWhitespace_eq hread.skip hafter (stops_cons (by decide)), ok_bind, if_pos hend.lt,
    Ahead.read hend, ok_bind, if_pos rfl, read_of hback, ok_bind, if_pos hopen]
  exact congrArg (fun stop => Except.ok (outer, stop)) hpos

/-! ## Markup -/

/-- A pattern that is not the beginning of a text. -/
theorem not_prefix_of_clash {pattern front : Bytes} (h : ¬ pattern <+: front)
    (h' : ¬ front <+: pattern) (more : Bytes) : ¬ pattern <+: front ++ more := by
  intro hfront
  rcases List.prefix_or_prefix_of_prefix hfront (List.prefix_append front more) with hp | hp
  · exact h hp
  · exact h' hp

/-- A pattern without the byte behind a body begins the text only if it begins the body. -/
theorem prefix_of_prefix_append {pattern body more : Bytes} {b : UInt8} (hb : b ∉ pattern)
    (h : pattern <+: body ++ b :: more) : pattern <+: body := by
  have hbody : body ++ [b] <+: body ++ b :: more :=
    (List.prefix_append_right_inj body).mpr ⟨more, rfl⟩
  rcases List.prefix_or_prefix_of_prefix h hbody with hp | hp
  · rcases List.prefix_concat_iff.mp hp with heq | hp
    · exact absurd (heq ▸ List.mem_append_right body (.head _)) hb
    · exact hp
  · exact absurd (hp.subset (List.mem_append_right body (.head _))) hb

/-- A markup from its opening to its terminator. -/
theorem skipped_eq {st : Progress} {opening front body : Bytes} {last : UInt8}
    (h : Ahead xml st.pos (opening ++ (body ++ (front ++ [last]) ++ rest))) (hlast : last ∉ front)
    (hbody : ¬ (front ++ [last]) <:+: body) (message : String) :
    (do
      let pos ← skipPast xml (front ++ [last]) (st.pos + opening.length) message
      .ok { st with pos := pos } : Parse Progress)
      = .ok { st with pos := st.pos + (opening ++ (body ++ (front ++ [last]))).length } := by
  rw [skipPast_eq h.skip hlast hbody, ok_bind, @List.length_append _ opening, Nat.add_assoc]

/-- Other markup is skipped. -/
theorem parseMarkup_markup {st : Progress} {markup : Markup} {inside : Bool}
    (h : Ahead xml st.pos (markup.render ++ rest)) (hok : markup.Ok inside)
    (hinside : st.openTags = [] ↔ inside = false) :
    parseMarkup xml st = .ok { st with pos := st.pos + markup.render.length } := by
  unfold parseMarkup
  cases markup with
  | comment body =>
    rw [Markup.render, List.append_assoc] at h
    rw [compare_found h, ok_bind, if_pos rfl]
    exact @skipped_eq xml rest st commentOpen [byte '-', byte '-'] body (byte '>') h (by decide) hok _
  | instruction body =>
    rw [Markup.render, List.append_assoc] at h
    rw [compare_other h (not_prefix_of_clash (by decide) (by decide) _), ok_bind,
      if_neg Bool.false_ne_true, compare_found h, ok_bind, if_pos rfl]
    exact @skipped_eq xml rest st instructionOpen [byte '?'] body (byte '>') h (by decide) hok _
  | cdata body =>
    rw [Markup.render, List.append_assoc] at h
    have hopen : st.openTags ≠ [] := fun hnil => by
      rw [hinside.mp hnil] at hok
      exact Bool.false_ne_true hok.1
    rw [compare_other h (not_prefix_of_clash (by decide) (by decide) _), ok_bind,
      if_neg Bool.false_ne_true, compare_other h (not_prefix_of_clash (by decide) (by decide) _), ok_bind,
      if_neg Bool.false_ne_true, compare_found h, ok_bind, if_pos rfl, if_neg hopen]
    exact @skipped_eq xml rest st cdataOpen [byte ']', byte ']'] body (byte '>') h (by decide) hok.2 _
  | declaration body =>
    rw [Markup.render, List.append_assoc, List.append_assoc, List.singleton_append] at h
    obtain ⟨hdeclared, hcomment, hcdata⟩ := hok
    -- the two longer prefixes would be prefixes of the body
    have hcomment' : ¬ commentOpen <+: declarationOpen ++ (body ++ byte '>' :: rest) := fun hfront =>
      hcomment (prefix_of_prefix_append (by decide)
        ((List.prefix_append_right_inj declarationOpen).mp hfront))
    have hcdata' : ¬ cdataOpen <+: declarationOpen ++ (body ++ byte '>' :: rest) := fun hfront =>
      hcdata (prefix_of_prefix_append (by decide)
        ((List.prefix_append_right_inj declarationOpen).mp hfront))
    have hbehind : Ahead xml (st.pos + 2) (body ++ byte '>' :: rest) := h.skip
    rw [compare_other h hcomment', ok_bind, if_neg Bool.false_ne_true,
      compare_other h (not_prefix_of_clash (by decide) (by decide) _), ok_bind,
      if_neg Bool.false_ne_true, compare_other h hcdata', ok_bind, if_neg Bool.false_ne_true,
      compare_found h, ok_bind, if_pos rfl, skipMarkupDeclaration_eq hdeclared hbehind, ok_bind,
      Markup.render, List.length_append, List.length_append, List.length_singleton, Nat.add_assoc]
    rfl

/-- A closing tag, which is not one of the markups before it in the dispatch. -/
theorem parseMarkup_close {st : Progress} {name beforeName afterName : Bytes}
    (h : Ahead xml st.pos (renderClose beforeName name afterName ++ rest))
    (hname : IsName name ∧ name.length ≤ maxTagNameLen) (hbefore : Spaces beforeName)
    (hafter : Spaces afterName) {back : ℕ} {outer : OpenTags} (hopenTags : st.openTags = back :: outer)
    {openTag : XmlTag} (hback : st.tags[back]? = some openTag) (hopen : openTag.name = name) :
    parseMarkup xml st = .ok { st with
      pos := st.pos + (renderClose beforeName name afterName).length, openTags := outer } := by
  have hclose := parseCloseTag_eq h hname hbefore hafter hback hopen outer
  rw [renderClose, List.append_assoc] at h
  have hother {pattern : Bytes} (hp : ¬ pattern <+: closeTagOpen) (hp' : ¬ closeTagOpen <+: pattern) :=
    compare_other h (not_prefix_of_clash hp hp' _)
  unfold parseMarkup
  rw [hother (by decide) (by decide), ok_bind, if_neg Bool.false_ne_true, hother (by decide) (by decide),
    ok_bind, if_neg Bool.false_ne_true, hother (by decide) (by decide), ok_bind,
    if_neg Bool.false_ne_true, hother (by decide) (by decide), ok_bind, if_neg Bool.false_ne_true,
    compare_found h, ok_bind, if_pos rfl, hopenTags, hclose]
  rfl

/-- An opening tag, counted when it is a root. -/
theorem parseMarkup_open {st : Progress} {tag : TagText} {selfClosing : Bool}
    (h : Ahead xml st.pos (tag.render selfClosing ++ rest)) (hok : tag.Ok)
    (hlabel : (tag.element selfClosing).toLabel.Ok) (hroom : st.tags.length < maxTagEntries)
    (hroot : st.openTags = [] → st.rootCount = 0) :
    parseMarkup xml st = .ok { opened st tag selfClosing with
      rootCount := st.rootCount + if st.openTags = [] then 1 else 0 } := by
  have hopen := parseOpenTag_eq h hok hlabel hroom
  obtain ⟨first, more, hcons, hfirst, _⟩ := hlabel.name.1
  have hother := isNameStart_other first hfirst
  rw [show (tag.element selfClosing).toLabel.name = tag.name from rfl] at hcons
  rw [TagText.render, hcons, List.cons_append, List.cons_append, List.cons_append] at h
  have hdispatch (b : UInt8) (hb : first ≠ b) (pattern : Bytes) :
      compare xml st.pos (byte '<' :: b :: pattern) = .ok false :=
    compare_other h fun hfront =>
      hb (List.cons_prefix_cons.mp (List.cons_prefix_cons.mp hfront).2).1.symm
  have hdeclaration := hdispatch (byte '!') hother.2.2.2.1
  unfold parseMarkup
  rw [show compare xml st.pos commentOpen = .ok false from hdeclaration _, ok_bind,
    if_neg Bool.false_ne_true,
    show compare xml st.pos instructionOpen = .ok false from hdispatch (byte '?') hother.2.2.2.2 [],
    ok_bind, if_neg Bool.false_ne_true,
    show compare xml st.pos cdataOpen = .ok false from hdeclaration _, ok_bind, if_neg Bool.false_ne_true,
    show compare xml st.pos declarationOpen = .ok false from hdeclaration _, ok_bind,
    if_neg Bool.false_ne_true,
    show compare xml st.pos closeTagOpen = .ok false from hdispatch (byte '/') hother.2.2.1 [], ok_bind,
    if_neg Bool.false_ne_true, parseElement, hopen, ok_bind]
  dsimp only
  cases hst : st.openTags with
  | nil =>
    have hone : ¬ 1 < (opened st tag selfClosing).rootCount + 1 := by
      rw [show (opened st tag selfClosing).rootCount = 0 from hroot hst]
      exact Nat.lt_irrefl 1
    rw [if_pos List.isEmpty_nil, if_pos rfl, if_neg hone]
    rfl
  | cons back outer =>
    rw [List.isEmpty_cons, if_neg Bool.false_ne_true, if_neg (List.cons_ne_nil _ _)]
    rfl

/-! ## Turns -/

/-- Whitespace holds nothing else. -/
theorem containsNonWhitespace_eq {spaces : Bytes} (h : Ahead xml pos (spaces ++ rest))
    (hspaces : Spaces spaces) : containsNonWhitespace xml spaces.length pos = .ok false := by
  induction spaces generalizing pos with
  | nil => rfl
  | cons b spaces ih =>
    rw [List.length_cons, containsNonWhitespace, h.read, ok_bind, if_pos (hspaces b (.head _))]
    exact ih h.next fun c hc => hspaces c (.tail _ hc)

/-- The text before a markup. -/
theorem checkOutside_eq {st : Progress} {text : Bytes} {inside : Bool}
    (h : Ahead xml st.pos (text ++ rest)) (htext : TextOk inside text)
    (hinside : st.openTags = [] ↔ inside = false) :
    checkOutside xml st (st.pos + text.length) = .ok () := by
  unfold checkOutside
  split
  case isTrue hopen =>
    rw [hinside.mp hopen] at htext
    rw [Nat.add_sub_cancel_left, containsNonWhitespace_eq h htext, ok_bind]
    rfl
  case isFalse => rfl

theorem not_mem_of_textOk {inside : Bool} {text : Bytes} (h : TextOk inside text) :
    byte '<' ∉ text := by
  cases inside with
  | true => exact h
  | false => exact fun hmem => absurd (h _ hmem) (by decide)

/-- The loop goes from one state to the other in `n` turns. -/
def Steps (xml : Bytes) (n : ℕ) (st st' : Progress) : Prop :=
  ∀ fuel, parseLoop xml (fuel + n) st = parseLoop xml fuel st'

theorem Steps.trans {n m : ℕ} {st st' st'' : Progress} (h : Steps xml n st st')
    (h' : Steps xml m st' st'') : Steps xml (m + n) st st'' := by
  intro fuel
  rw [← Nat.add_assoc, h (fuel + m), h' fuel]

/-- A text and the markup behind it are one turn. -/
theorem steps_markup {st st' : Progress} {text bytes : Bytes} {inside : Bool}
    (h : Ahead xml st.pos (text ++ bytes)) (hbytes : bytes.head? = some (byte '<'))
    (htext : TextOk inside text) (hinside : st.openTags = [] ↔ inside = false)
    (hmarkup : parseMarkup xml { st with pos := st.pos + text.length } = .ok st') :
    Steps xml 1 st st' := by
  obtain ⟨more, rfl⟩ := List.head?_eq_some_iff.mp hbytes
  intro fuel
  have hlt : st.pos < xml.length := Nat.lt_of_le_of_lt (Nat.le_add_right _ _) h.skip.lt
  rw [parseLoop, if_pos hlt, parseTurn, find_markup h (not_mem_of_textOk htext)]
  dsimp only
  rw [checkOutside_eq h htext hinside, ok_bind, hmarkup, ok_bind, ok_bind]

/-- Behind a content: its tags are the preorder list of its elements. -/
def after (st : Progress) (content : Content) : Progress where
  pos := st.pos + content.render.length
  tags := st.tags ++ (content.elements.preorder st.tags.length st.openTags.head?
    st.openTags.length).map tagOf
  openTags := st.openTags
  rootCount := st.rootCount + if st.openTags = [] then content.elements.count else 0

/-- Markup opens with its bracket. -/
theorem head_render (markup : Markup) (more : Bytes) :
    (markup.render ++ more).head? = some (byte '<') := by
  cases markup with
  | comment body => rfl
  | instruction body => rfl
  | cdata body => rfl
  | declaration body => rfl

theorem pos_of_head {bytes : Bytes} (h : bytes.head? = some (byte '<')) : 0 < bytes.length := by
  obtain ⟨more, rfl⟩ := List.head?_eq_some_iff.mp h
  exact Nat.succ_pos _

theorem after_nil (st : Progress) : after st .nil = st := by
  simp only [after, Content.render_nil, Content.elements_nil, Forest.preorder_nil, Forest.count_nil,
    List.length_nil, List.map_nil, List.append_nil, Nat.add_zero, ite_self]

theorem after_markup (st : Progress) (text : Bytes) (markup : Markup) (more : Content) :
    after st (.markup text markup more)
      = after { st with pos := st.pos + text.length + markup.render.length } more := by
  simp only [after, Content.render_markup, Content.elements_markup, List.length_append, Nat.add_assoc]

/-- Behind a text and an opening tag. -/
def openedAt (st : Progress) (text : Bytes) (tag : TagText) (selfClosing : Bool) : Progress :=
  { opened { st with pos := st.pos + text.length } tag selfClosing with
    rootCount := st.rootCount + if st.openTags = [] then 1 else 0 }

/-- An empty element adds its tag. -/
theorem after_empty (st : Progress) (text : Bytes) (tag : TagText) (more : Content) :
    after st (.empty text tag more) = after (openedAt st text tag true) more := by
  simp only [after, openedAt, opened, Content.render_empty, Content.elements_empty,
    Forest.preorder_cons, Forest.preorder_nil, Forest.size_nil, Forest.count_cons, List.length_append, List.length_singleton, List.map_cons, List.nil_append,
    List.append_assoc, List.singleton_append, Nat.add_assoc, Nat.add_zero, if_true]
  congr 2
  split <;> omega

/-- Behind the closing tag of the innermost element. -/
def closedAt (st : Progress) (length : ℕ) : Progress :=
  { st with pos := st.pos + length, openTags := st.openTags.tail }

/-- An element adds its tag and its children. -/
theorem after_element (st : Progress) (text : Bytes) (tag : TagText) (children : Content)
    (endText beforeName afterName : Bytes) (more : Content) :
    after st (.element text tag children endText beforeName afterName more)
      = after (closedAt (after (openedAt st text tag false) children)
          (endText.length + (renderClose beforeName tag.name afterName).length)) more := by
  simp only [after, openedAt, opened, closedAt, Content.render_element, Content.elements_element,
    Forest.preorder_cons, Forest.count_cons, List.length_append, List.map_cons, List.map_append, List.append_assoc,
    List.cons_append, List.nil_append, Nat.add_assoc, Bool.false_eq_true, if_false, List.head?_cons,
    List.tail_cons, List.length_cons, List.length_nil, reduceCtorEq, List.length_map,
    Forest.length_preorder, Nat.zero_add]
  rw [Nat.add_comm 1 children.elements.size]
  congr 2
  split <;> omega

/-- A text and an opening tag are one turn. -/
theorem steps_open {st : Progress} {text : Bytes} {tag : TagText} {inside selfClosing : Bool}
    (h : Ahead xml st.pos (text ++ (tag.render selfClosing ++ rest))) (htext : TextOk inside text)
    (hok : tag.Ok) (hlabel : (tag.element selfClosing).toLabel.Ok)
    (hinside : st.openTags = [] ↔ inside = false) (hroom : st.tags.length < maxTagEntries)
    (hroot : st.openTags = [] → st.rootCount = 0) : Steps xml 1 st (openedAt st text tag selfClosing) := by
  have hbehind : Ahead xml ({ st with pos := st.pos + text.length } : Progress).pos
      (tag.render selfClosing ++ rest) := h.skip
  exact steps_markup h rfl htext hinside (parseMarkup_open hbehind hok hlabel hroom hroot)

/-- A text and the closing tag of the innermost element are one turn. -/
theorem steps_close {st : Progress} {text name beforeName afterName : Bytes}
    (h : Ahead xml st.pos (text ++ (renderClose beforeName name afterName ++ rest)))
    (htext : TextOk true text) (hname : IsName name ∧ name.length ≤ maxTagNameLen)
    (hbefore : Spaces beforeName) (hafter : Spaces afterName) {back : ℕ} {outer : OpenTags}
    (hopenTags : st.openTags = back :: outer) {openTag : XmlTag} (hback : st.tags[back]? = some openTag)
    (hopen : openTag.name = name) :
    Steps xml 1 st (closedAt st (text.length + (renderClose beforeName name afterName).length)) := by
  have hbehind : Ahead xml ({ st with pos := st.pos + text.length } : Progress).pos
      (renderClose beforeName name afterName ++ rest) := h.skip
  have hclose := parseMarkup_close hbehind hname hbefore hafter hopenTags hback hopen
  have hinside : st.openTags = [] ↔ true = false := by
    rw [hopenTags]
    exact iff_of_false (List.cons_ne_nil _ _) (by decide)
  refine steps_markup h rfl htext hinside (hclose.trans ?_)
  rw [closedAt, hopenTags, List.tail_cons, Nat.add_assoc]

/-- Content is read back, by induction on it. -/
theorem steps_content (content : Content) {inside : Bool} {st : Progress} (hok : content.Ok inside)
    (hlabels : (content.elements.map Element.toLabel).All fun label _ => label.Ok)
    (h : Ahead xml st.pos (content.render ++ rest)) (hinside : st.openTags = [] ↔ inside = false)
    (hroom : st.tags.length + content.elements.size ≤ maxTagEntries)
    (hroots : st.openTags = [] → st.rootCount + content.elements.count ≤ 1) :
    ∃ n ≤ content.render.length, Steps xml n st (after st content) := by
  induction content generalizing rest inside st with
  | nil => exact ⟨0, le_refl _, fun fuel => by rw [after_nil, Nat.add_zero]⟩
  | markup text m more ih =>
    obtain ⟨htext, hm, hmore⟩ := hok
    rw [Content.render_markup, List.append_assoc, List.append_assoc] at h
    have hturn := steps_markup h (head_render m _) htext hinside (parseMarkup_markup h.skip hm hinside)
    obtain ⟨n, hn, hsteps⟩ : ∃ n ≤ more.render.length,
        Steps xml n { st with pos := st.pos + text.length + m.render.length } _ :=
      ih hmore hlabels h.skip.skip hinside hroom hroots
    refine ⟨n + 1, ?_, after_markup st text m more ▸ hturn.trans hsteps⟩
    have hpos := pos_of_head (head_render m [])
    rw [List.append_nil] at hpos
    rw [Content.render_markup, List.length_append, List.length_append]
    omega
  | empty text tag more ih =>
    obtain ⟨htext, htag, hmore⟩ := hok
    rw [Content.render_empty, List.append_assoc, List.append_assoc] at h
    rw [Content.elements_empty, Forest.size_cons, Forest.size_nil] at hroom
    rw [Content.elements_empty, Forest.count_cons] at hroots
    have hturn := steps_open h htext htag hlabels.1 hinside (by omega)
      fun hnil => by have := hroots hnil; omega
    have hbehind : Ahead xml (openedAt st text tag true).pos (more.render ++ rest) := h.skip.skip
    have hroom' : (openedAt st text tag true).tags.length + more.elements.size ≤ maxTagEntries := by
      simp only [openedAt, opened, List.length_append, List.length_singleton]
      omega
    have hroots' : st.openTags = [] →
        (openedAt st text tag true).rootCount + more.elements.count ≤ 1 := by
      intro hnil
      have hone := hroots hnil
      simp only [openedAt, if_pos hnil]
      omega
    obtain ⟨n, hn, hsteps⟩ := ih hmore hlabels.2.2 hbehind hinside hroom' hroots'
    refine ⟨n + 1, ?_, after_empty st text tag more ▸ hturn.trans hsteps⟩
    rw [Content.render_empty, List.length_append, List.length_append, TagText.render, List.length_cons]
    omega
  | element text tag children endText beforeName afterName more ihchildren ihmore =>
    obtain ⟨htext, htag, hchildren, hendText, hbefore, hafter, hmore⟩ := hok
    rw [Content.render_element, List.append_assoc, List.append_assoc, List.append_assoc, List.append_assoc,
      List.append_assoc] at h
    rw [Content.elements_element, Forest.size_cons] at hroom
    rw [Content.elements_element, Forest.count_cons] at hroots
    have hturn := steps_open h htext htag hlabels.1 hinside (by omega)
      fun hnil => by have := hroots hnil; omega
    -- the children, below the new tag
    have hbelow : Ahead xml (openedAt st text tag false).pos (children.render ++ (endText ++
        (renderClose beforeName tag.name afterName ++ (more.render ++ rest)))) := h.skip.skip
    have hopen : (openedAt st text tag false).openTags = st.tags.length :: st.openTags := rfl
    have hinside' : (openedAt st text tag false).openTags = [] ↔ true = false :=
      iff_of_false (List.cons_ne_nil _ _) (by decide)
    have hroom' : (openedAt st text tag false).tags.length + children.elements.size ≤ maxTagEntries := by
      simp only [openedAt, opened, List.length_append, List.length_singleton]
      omega
    obtain ⟨n, hn, hsteps⟩ := ihchildren hchildren hlabels.2.1 hbelow hinside' hroom'
      fun hnil => absurd hnil (List.cons_ne_nil _ _)
    -- the closing tag finds the name of the tag
    have hclosing : Ahead xml (after (openedAt st text tag false) children).pos (endText ++
        (renderClose beforeName tag.name afterName ++ (more.render ++ rest))) := hbelow.skip
    have hback : (after (openedAt st text tag false) children).tags[st.tags.length]?
        = some (tagOf ⟨tag.element false, st.openTags.head?, st.openTags.length⟩) := by
      simp only [after, openedAt, opened]
      rw [List.getElem?_append_left (by simp), List.getElem?_append_right (le_refl _), Nat.sub_self]
      rfl
    have hclose := steps_close hclosing hendText hlabels.1.name hbefore hafter hopen hback rfl
    set closed := closedAt (after (openedAt st text tag false) children)
      (endText.length + (renderClose beforeName tag.name afterName).length) with hclosed
    have hbehind : Ahead xml closed.pos (more.render ++ rest) := by
      have hskip := hclosing.skip.skip
      rwa [Nat.add_assoc] at hskip
    have hroom'' : closed.tags.length + more.elements.size ≤ maxTagEntries := by
      simp only [hclosed, closedAt, after, openedAt, opened, List.length_append, List.length_singleton,
        List.length_map, Forest.length_preorder]
      omega
    have hroots' : st.openTags = [] → closed.rootCount + more.elements.count ≤ 1 := by
      intro hnil
      have hone := hroots hnil
      have hcount : closed.rootCount = st.rootCount + 1 := by
        simp only [hclosed, closedAt, after]
        rw [hopen, if_neg (List.cons_ne_nil _ _), openedAt, if_pos hnil]
      omega
    obtain ⟨m, hm, hmoreSteps⟩ := ihmore hmore hlabels.2.2 hbehind hinside hroom'' hroots'
    refine ⟨m + (1 + (n + 1)), ?_, ?_⟩
    · have hpos : 0 < (renderClose beforeName tag.name afterName).length := pos_of_head rfl
      rw [Content.render_element, List.length_append, List.length_append, List.length_append, List.length_append,
        List.length_append, TagText.render, List.length_cons]
      omega
    · rw [after_element]
      exact ((hturn.trans hsteps).trans hclose).trans hmoreSteps

end Tags

/-! ## Documents -/

/-- A document begins with whitespace or with markup. -/
theorem head_content {content : Content} (hok : content.Ok false) (hcount : content.elements.count = 1)
    (more : Bytes) : ∃ b bytes, content.render ++ more = b :: bytes ∧ (isSpace b = true ∨ b = byte '<') := by
  have hhead (text bytes : Bytes) (htext : Spaces text) (hbytes : bytes.head? = some (byte '<')) :
      ∃ b others, text ++ bytes = b :: others ∧ (isSpace b = true ∨ b = byte '<') := by
    cases text with
    | nil =>
      obtain ⟨others, rfl⟩ := List.head?_eq_some_iff.mp hbytes
      exact ⟨_, others, rfl, .inr rfl⟩
    | cons b text => exact ⟨b, text ++ bytes, rfl, .inl (htext b (.head _))⟩
  cases content with
  | nil => cases hcount
  | markup text m rest =>
    rw [Content.render_markup, List.append_assoc, List.append_assoc]
    exact hhead _ _ hok.1 (head_render m _)
  | empty text tag rest =>
    rw [Content.render_empty, List.append_assoc, List.append_assoc]
    exact hhead _ _ hok.1 rfl
  | element text tag children endText beforeName afterName rest =>
    rw [Content.render_element, List.append_assoc, List.append_assoc]
    exact hhead _ _ hok.1 rfl

/-- The byte order mark is skipped. -/
theorem skipBom_render {doc : Document} (hok : doc.content.Ok false)
    (hcount : doc.content.elements.count = 1) :
    skipBom doc.render = (if doc.bom then bomBytes else []).length := by
  unfold skipBom Document.render
  cases doc.bom with
  | true => rfl
  | false =>
    obtain ⟨b, bytes, hcons, hb⟩ := head_content hok hcount doc.trailing
    have hne : ¬ (b :: bytes).take 3 = [0xef, 0xbb, 0xbf] := by
      rw [List.take_succ_cons, List.cons.injEq]
      rintro ⟨rfl, _⟩
      exact absurd hb (by decide)
    rw [if_neg Bool.false_ne_true, List.nil_append, hcons, if_neg hne]
    rfl

/-- Behind the last markup. -/
theorem parseLoop_end {xml trailing : Bytes} {st : Progress} (h : Ahead xml st.pos trailing)
    (htrailing : Spaces trailing) (hopen : st.openTags = []) (fuel : ℕ) :
    parseLoop xml (fuel + 1) st = .ok st := by
  rw [parseLoop]
  split
  case isFalse => rfl
  case isTrue =>
    have htext : byte '<' ∉ trailing := fun hmem => absurd (htrailing _ hmem) (by decide)
    have hcheck : checkOutside xml st (st.pos + trailing.length) = .ok () := by
      rw [← List.append_nil trailing] at h
      exact checkOutside_eq h (show TextOk false trailing from htrailing) (iff_of_true hopen rfl)
    rw [parseTurn, find_none h htext]
    dsimp only
    rw [h.length, hcheck]
    rfl

/-- The tags of a document are the preorder list of its elements. -/
theorem parse_document {doc : Document} (hok : doc.content.Ok false) (htrailing : Spaces doc.trailing)
    (hlabels : (doc.content.elements.map Element.toLabel).All fun label _ => label.Ok)
    (hcount : doc.content.elements.count = 1) (hsize : doc.content.elements.size ≤ maxTagEntries) :
    parse doc.render = .ok ((doc.content.elements.preorder 0 none 0).map tagOf) := by
  set start : Progress := ⟨skipBom doc.render, [], [], 0⟩ with hstart
  have hahead : Ahead doc.render start.pos (doc.content.render ++ doc.trailing) := by
    have hskip : Ahead doc.render (0 + _) (doc.content.render ++ doc.trailing) :=
      (ahead_start doc.render).skip
    rwa [Nat.zero_add, ← skipBom_render hok hcount] at hskip
  have hne : doc.render ≠ [] := by
    obtain ⟨b, bytes, hcons, _⟩ := head_content hok hcount doc.trailing
    intro hnil
    have hdrop := hahead.drop
    rw [hnil, List.drop_nil, hcons] at hdrop
    cases hdrop
  obtain ⟨n, hn, hsteps⟩ := steps_content doc.content hok hlabels hahead (iff_of_true rfl rfl)
    (by rw [hstart, List.length_nil, Nat.zero_add]; exact hsize)
    (fun _ => by rw [hcount])
  have hfuel : doc.render.length + 1 = doc.render.length - n + 1 + n := by
    have hlength := hahead.fuel
    omega
  have hloop : parseLoop doc.render (doc.render.length + 1) start = .ok (after start doc.content) := by
    rw [hfuel, hsteps]
    exact parseLoop_end hahead.skip htrailing rfl _
  have htags : (doc.content.elements.preorder 0 none 0).map tagOf ≠ [] := by
    obtain ⟨root, children, hcons⟩ := Forest.eq_cons_of_count hcount
    rw [hcons]
    exact List.cons_ne_nil _ _
  have hroot : ¬ ((after start doc.content).rootCount ≠ 1 ∨ (after start doc.content).tags = []) := by
    refine not_or.mpr ⟨not_not.mpr ?_, htags⟩
    rw [after, if_pos rfl, hcount]
  unfold parse
  rw [if_neg hne, hloop, ok_bind]
  exact if_neg hroot

/-- The parser reads every tree within its limits from every way to write it. -/
theorem parse_serialised {root : Label} {children : Forest Label}
    (hsize : (Forest.cons root children .nil).size ≤ maxTagEntries)
    (hlabels : (Forest.cons root children .nil).All fun label _ => label.Ok) {doc : Document}
    (hdoc : doc.Serialises (.cons root children .nil)) :
    ∃ tags, parse doc.render = .ok tags ∧
      tags.map (fun tag => (tag.name, tag.attrs, tag.parentIndex, tag.depth))
        = ((Forest.cons root children .nil).preorder 0 none 0).map fun entry =>
          (entry.label.name, entry.label.attrs, parentIndexOf entry.parent, entry.depth) := by
  have hcount : doc.content.elements.count = 1 := by
    rw [← Forest.count_map Element.toLabel, hdoc.tree]
    rfl
  rw [← hdoc.tree, Forest.size_map] at hsize
  rw [← hdoc.tree] at hlabels ⊢
  refine ⟨_, parse_document hdoc.content hdoc.trailing hlabels hcount hsize, ?_⟩
  rw [Forest.map_preorder, List.map_map, List.map_map]
  rfl

/-- `<!D['>']>`, an element with a comment that holds a tag, and in it an empty tag. -/
def sampleDocument : Document where
  bom := true
  content := .markup [] (.declaration (ascii ['D', '[', '\'', '>', '\'', ']']))
    (.element (ascii ['\n'])
      ⟨pciName, [⟨[32], ascii ['i', 'd'], [32], [], quotationMark, ascii ['>', '\'']⟩], [9]⟩
      (.markup (ascii ['t', '>']) (.comment (ascii ['<', 'b', '>', '-']))
        (.empty [] ⟨ubName, [], []⟩ .nil)) [] [] [32] .nil)
  trailing := [10]

/-- A pci element with a ub element. -/
def sampleTree : Forest Label :=
  .cons ⟨pciName, [⟨ascii ['i', 'd'], ascii ['>', '\'']⟩]⟩ (.cons ⟨ubName, []⟩ .nil .nil) .nil

/-- The sample document serialises it. -/
theorem sample_serialises : sampleDocument.Serialises sampleTree := by
  have hdeclared : Declared 0 (ascii ['D', '[', '\'', '>', '\'', ']']) :=
    .plain (by decide +kernel) (by decide +kernel) (by decide +kernel)
      (.subset (by decide) (@Declared.quoted 1 apostrophe [byte '>'] [] (.inl rfl) (by decide +kernel) (.nil _)) (.nil _))
  have hattr : AttrText.Ok ⟨[32], ascii ['i', 'd'], [32], [], quotationMark, ascii ['>', '\'']⟩ :=
    ⟨by decide +kernel, by decide +kernel, by decide +kernel, .inr rfl, by decide +kernel⟩
  have htag : TagText.Ok ⟨pciName, [⟨[32], ascii ['i', 'd'], [32], [], quotationMark,
      ascii ['>', '\'']⟩], [9]⟩ :=
    ⟨List.forall_mem_singleton.mpr hattr, by simp, by decide +kernel⟩
  have hleaf : TagText.Ok ⟨ubName, [], []⟩ := ⟨by simp, by simp, by decide +kernel⟩
  refine ⟨rfl, ⟨by decide +kernel, ⟨hdeclared, by decide +kernel, by decide +kernel⟩, ?_⟩, by decide +kernel⟩
  exact ⟨by decide +kernel, htag, ⟨by decide +kernel, show ¬ commentClose <:+: _ by decide +kernel, by decide +kernel, hleaf, trivial⟩,
    by decide +kernel, by decide +kernel, by decide +kernel, trivial⟩

/-- The sample document. -/
theorem parse_serialised_sample : ∃ tags, parse sampleDocument.render = .ok tags ∧
    tags.map (fun tag => (tag.name, tag.attrs, tag.parentIndex, tag.depth))
      = (sampleTree.preorder 0 none 0).map fun entry =>
        (entry.label.name, entry.label.attrs, parentIndexOf entry.parent, entry.depth) := by
  have hpci : Label.Ok ⟨pciName, [⟨ascii ['i', 'd'], ascii ['>', '\'']⟩]⟩ :=
    ⟨by decide +kernel, by decide, by decide, List.forall_mem_singleton.mpr (by decide +kernel),
      List.forall_mem_singleton.mpr (by decide +kernel)⟩
  have hub : Label.Ok ⟨ubName, []⟩ :=
    ⟨by decide +kernel, by decide, by decide, List.forall_mem_nil _, List.forall_mem_nil _⟩
  have hlabels : sampleTree.All fun label _ => label.Ok :=
    ⟨hpci, ⟨hub, trivial, trivial⟩, trivial⟩
  exact parse_serialised (by decide) hlabels sample_serialises

end AscendShmem.TopoXml
