import AscendShmem.Lib.Exec

/-!
# The XML parser of the topology files

`aclshmemi_xml_parser_t::parse` on the bytes of a string. A run ends with the tags, or returns
`false` with an error text; an index outside the string or the vector of tags is a fault, and so is a
loop that does not end within the turns that the model gives it.
-/

namespace AscendShmem.TopoXml

open Lib Lib.Exec

/-- A text, byte by byte. -/
abbrev Bytes := List UInt8

/-- What a function of the parser does: a value, or `false` with an error text. -/
abbrev Parse (α : Type) := Exec Bool α

/-- `false` with an error text. -/
def reject {α : Type} (message : String) : Parse α := fail false message

/-- The byte of an ASCII character. -/
def byte (c : Char) : UInt8 := UInt8.ofNat c.toNat

/-- The bytes of characters. -/
def ascii (cs : List Char) : Bytes := cs.map byte

/-- The single quote. -/
def apostrophe : UInt8 := 39

/-- The double quote. -/
def quotationMark : UInt8 := 34

/-- A name in an error text. -/
def text (bytes : Bytes) : String := String.ofList (bytes.map fun b => Char.ofNat b.toNat)

/-- `MAX_TAG_ENTRIES` -/
def maxTagEntries : ℕ := 1024
/-- `MAX_TAG_NAME_LEN` -/
def maxTagNameLen : ℕ := 32
/-- `MAX_ATTRS_PER_TAG` -/
def maxAttrsPerTag : ℕ := 8
/-- `MAX_ATTR_NAME_LEN` -/
def maxAttrNameLen : ℕ := 48
/-- `MAX_ATTR_VALUE_LEN` -/
def maxAttrValueLen : ℕ := 64

/-- `aclshmemi_xml_attr_t` -/
structure XmlAttr where
  name : Bytes
  value : Bytes
deriving DecidableEq, Repr

/-- `aclshmemi_xml_tag_t` -/
structure XmlTag where
  name : Bytes
  attrs : List XmlAttr
  parentIndex : ℤ
  depth : ℕ
  selfClosing : Bool
deriving DecidableEq, Repr

/-! ## Characters and names -/

/-- `std::isspace` -/
def isSpace (b : UInt8) : Bool := b = 32 ∨ (9 ≤ b ∧ b ≤ 13)

/-- `is_name_start` -/
def isNameStart (b : UInt8) : Bool :=
  (byte 'A' ≤ b ∧ b ≤ byte 'Z') ∨ (byte 'a' ≤ b ∧ b ≤ byte 'z') ∨ b = byte '_' ∨ b = byte ':'

/-- `is_name_char` -/
def isNameChar (b : UInt8) : Bool :=
  isNameStart b ∨ (byte '0' ≤ b ∧ b ≤ byte '9') ∨ b = byte '-' ∨ b = byte '.'

section Scan

variable (xml : Bytes)

/-- Goes on while the byte at the position is one of `p`. -/
def skipWhile (p : UInt8 → Bool) : ℕ → ℕ → Parse ℕ
  | 0, _ => .error .outOfFuel
  | fuel + 1, pos =>
    if pos < xml.length then do
      let ch ← read xml pos
      if p ch then skipWhile p fuel (pos + 1) else .ok pos
    else .ok pos

/-- `skip_whitespace` -/
def skipWhitespace (pos : ℕ) : Parse ℕ := skipWhile xml isSpace (xml.length + 1) pos

/-- `xml.substr(start, length)` -/
def substr (start length : ℕ) : Parse Bytes :=
  if start ≤ xml.length then .ok ((xml.drop start).take length) else .error .outOfRange

/-- `xml.compare(pos, pattern.size(), pattern) == 0` -/
def compare (pos : ℕ) (pattern : Bytes) : Parse Bool :=
  if pos ≤ xml.length then .ok ((xml.drop pos).take pattern.length = pattern)
  else .error .outOfRange

/-- The first place of `pattern` in the bytes, which stand at `pos`. -/
def findIn (pattern : Bytes) : Bytes → ℕ → Option ℕ
  | [], pos => if pattern = [] then some pos else none
  | b :: bs, pos => if pattern <+: b :: bs then some pos else findIn pattern bs (pos + 1)

/-- `xml.find(pattern, pos)` -/
def find (pattern : Bytes) (pos : ℕ) : Option ℕ :=
  if pos ≤ xml.length then findIn pattern (xml.drop pos) pos else none

/-- The name and the position behind it. -/
def parseName (pos maxLength : ℕ) (fieldName : String) : Parse (Bytes × ℕ) :=
  let invalid : Parse (Bytes × ℕ) := reject ("invalid " ++ fieldName ++ " at byte " ++ toString pos)
  if pos < xml.length then do
    let ch ← read xml pos
    if isNameStart ch then do
      let start := pos
      let pos ← skipWhile xml isNameChar (xml.length + 1) (pos + 1)
      let length := pos - start
      if maxLength < length then reject (fieldName ++ " is too long at byte " ++ toString start)
      else do
        let name ← substr xml start length
        .ok (name, pos)
    else invalid
  else invalid

/-- The loop of `skip_markup_declaration`; `quote` is the quote that is open. `subset_depth` is an
`int`, which wraps at 32 bits. -/
def skipDeclarationLoop : ℕ → ℕ → Option UInt8 → ℤ → Parse ℕ
  | 0, _, _, _ => .error .outOfFuel
  | fuel + 1, pos, quote, subsetDepth =>
    if pos < xml.length then do
      let ch ← read xml pos
      let pos := pos + 1
      match quote with
      | some q =>
        if ch = q then skipDeclarationLoop fuel pos none subsetDepth
        else skipDeclarationLoop fuel pos quote subsetDepth
      | none =>
        if ch = apostrophe ∨ ch = quotationMark then
          skipDeclarationLoop fuel pos (some ch) subsetDepth
        else if ch = byte '[' then
          skipDeclarationLoop fuel pos none ((subsetDepth + 1).bmod (2 ^ 32))
        else if ch = byte ']' then
          -- a bracket that closes nothing is passed over
          skipDeclarationLoop fuel pos none (if 0 < subsetDepth then subsetDepth - 1 else subsetDepth)
        else if ch = byte '>' ∧ subsetDepth = 0 then .ok pos
        else skipDeclarationLoop fuel pos none subsetDepth
    else reject "unterminated markup declaration"

/-- `skip_markup_declaration` -/
def skipMarkupDeclaration (pos : ℕ) : Parse ℕ := skipDeclarationLoop xml (xml.length + 1) pos none 0

/-! ## Tags -/

/-- The indexes of the tags that are open, the innermost first. -/
abbrev OpenTags := List ℕ

/-- `parse_close_tag` -/
def parseCloseTag (pos : ℕ) (tags : List XmlTag) (openTags : OpenTags) : Parse (OpenTags × ℕ) := do
  let pos ← skipWhitespace xml (pos + 2)
  let (name, pos) ← parseName xml pos maxTagNameLen "closing tag name"
  let pos ← skipWhitespace xml pos
  let invalid : Parse (OpenTags × ℕ) := reject ("invalid closing tag at byte " ++ toString pos)
  if pos < xml.length then do
    let ch ← read xml pos
    if ch = byte '>' then
      match openTags with
      | [] => reject ("closing tag </" ++ text name ++ "> has no matching opening tag")
      | back :: outer => do
        let openTag ← read tags back
        if openTag.name = name then .ok (outer, pos + 1)
        else
          reject ("closing tag </" ++ text name ++ "> does not match <" ++ text openTag.name ++ ">")
    else invalid
  else invalid

/-- The loop over the value of an attribute. -/
def skipValue (attrName : Bytes) (quote : UInt8) : ℕ → ℕ → Parse ℕ
  | 0, _ => .error .outOfFuel
  | fuel + 1, pos =>
    if pos < xml.length then do
      let ch ← read xml pos
      if ch = quote then .ok pos
      else if ch = byte '<' then reject ("invalid '<' in attribute '" ++ text attrName ++ "'")
      else skipValue attrName quote fuel (pos + 1)
    else .ok pos

/-- From the `=` of an attribute to behind its value. -/
def parseValue (attrName : Bytes) (pos : ℕ) : Parse (Bytes × ℕ) := do
  let pos ← skipWhitespace xml pos
  let missing : Parse (Bytes × ℕ) := reject ("missing '=' after attribute '" ++ text attrName ++ "'")
  if pos < xml.length then do
    let ch ← read xml pos
    if ch = byte '=' then do
      let pos ← skipWhitespace xml (pos + 1)
      let unquoted : Parse (Bytes × ℕ) :=
        reject ("attribute '" ++ text attrName ++ "' must use quotes")
      if pos < xml.length then do
        let quote ← read xml pos
        if quote = apostrophe ∨ quote = quotationMark then do
          let start := pos + 1
          let pos ← skipValue xml attrName quote (xml.length + 1) start
          if xml.length ≤ pos then
            reject ("unterminated value for attribute '" ++ text attrName ++ "'")
          else if maxAttrValueLen < pos - start then
            reject ("value of attribute '" ++ text attrName ++ "' is too long")
          else do
            let value ← substr xml start (pos - start)
            .ok (value, pos + 1)
        else unquoted
      else unquoted
    else missing
  else missing

/-- One attribute behind those that `tagName` already has. -/
def parseAttr (tagName : Bytes) (attrs : List XmlAttr) (pos : ℕ) : Parse (List XmlAttr × ℕ) :=
  if maxAttrsPerTag ≤ attrs.length then reject ("too many attributes in <" ++ text tagName ++ ">")
  else do
    let (name, pos) ← parseName xml pos maxAttrNameLen "attribute name"
    if name ∈ attrs.map XmlAttr.name then
      reject ("duplicate attribute '" ++ text name ++ "' in <" ++ text tagName ++ ">")
    else do
      let (value, pos) ← parseValue xml name pos
      .ok (attrs ++ [⟨name, value⟩], pos)

/-- `ch == '/' && pos + 1 < xml.size() && xml[pos + 1] == '>'` -/
def closesItself (pos : ℕ) (ch : UInt8) : Parse Bool :=
  if ch = byte '/' ∧ pos + 1 < xml.length then do
    let next ← read xml (pos + 1)
    .ok (decide (next = byte '>'))
  else .ok false

/-- `parse_attrs_and_end`: the attributes, whether the tag closes itself, and the position. -/
def parseAttrsAndEnd (tagName : Bytes) :
    ℕ → List XmlAttr → ℕ → Parse (List XmlAttr × Bool × ℕ)
  | 0, _, _ => .error .outOfFuel
  | fuel + 1, attrs, pos =>
    let unterminated : Parse (List XmlAttr × Bool × ℕ) :=
      reject ("unterminated opening tag <" ++ text tagName ++ ">")
    if pos < xml.length then do
      let pos ← skipWhitespace xml pos
      if pos < xml.length then do
        let ch ← read xml pos
        if ch = byte '>' then .ok (attrs, false, pos + 1)
        else do
          let closes ← closesItself xml pos ch
          if closes then .ok (attrs, true, pos + 2)
          else do
            let (attrs, pos) ← parseAttr xml tagName attrs pos
            parseAttrsAndEnd tagName fuel attrs pos
      else unterminated
    else unterminated

/-- Where the parser is. -/
structure Progress where
  pos : ℕ
  tags : List XmlTag
  openTags : OpenTags
  rootCount : ℕ

/-- `open_tags.empty() ? -1 : open_tags.back()` -/
def parentOf : OpenTags → ℤ
  | [] => -1
  | back :: _ => back

/-- `std::numeric_limits<int>::max()` -/
def intMax : ℕ := 2 ^ 31 - 1

/-- `parse_open_tag` -/
def parseOpenTag (st : Progress) : Parse Progress := do
  let (name, pos) ← parseName xml (st.pos + 1) maxTagNameLen "tag name"
  let (attrs, selfClosing, pos) ← parseAttrsAndEnd xml name (xml.length + 1) [] pos
  if maxTagEntries ≤ st.tags.length then reject "XML contains too many tags"
  else
    let tags := st.tags ++ [⟨name, attrs, parentOf st.openTags, st.openTags.length, selfClosing⟩]
    if selfClosing then .ok { st with pos := pos, tags := tags }
    else if intMax < tags.length - 1 then reject "XML tag index overflow"
    else .ok { st with pos := pos, tags := tags, openTags := (tags.length - 1) :: st.openTags }

/-! ## The whole text -/

/-- Whether one of the `n` bytes from `i` on is not whitespace. -/
def containsNonWhitespace : ℕ → ℕ → Parse Bool
  | 0, _ => .ok false
  | n + 1, i => do
    let ch ← read xml i
    if isSpace ch then containsNonWhitespace n (i + 1) else .ok true

/-- Outside the root element only whitespace may stand before `stop`. -/
def checkOutside (st : Progress) (stop : ℕ) : Parse Unit :=
  if st.openTags = [] then do
    let found ← containsNonWhitespace xml (stop - st.pos) st.pos
    if found then reject "non-whitespace text exists outside the root element" else .ok ()
  else .ok ()

/-- Behind the first `terminator` from `pos` on. -/
def skipPast (terminator : Bytes) (pos : ℕ) (message : String) : Parse ℕ :=
  match find xml terminator pos with
  | none => reject message
  | some last => .ok (last + terminator.length)

/-- The opening of a comment. -/
def commentOpen : Bytes := ascii ['<', '!', '-', '-']
/-- The end of a comment. -/
def commentClose : Bytes := ascii ['-', '-', '>']
/-- The opening of a processing instruction. -/
def instructionOpen : Bytes := ascii ['<', '?']
/-- The end of a processing instruction. -/
def instructionClose : Bytes := ascii ['?', '>']
/-- The opening of a CDATA section. -/
def cdataOpen : Bytes := ascii ['<', '!', '[', 'C', 'D', 'A', 'T', 'A', '[']
/-- The end of a CDATA section. -/
def cdataClose : Bytes := ascii [']', ']', '>']
/-- The opening of a declaration. -/
def declarationOpen : Bytes := ascii ['<', '!']
/-- The opening of a closing tag. -/
def closeTagOpen : Bytes := ascii ['<', '/']

/-- An opening tag, which may be a root element. -/
def parseElement (st : Progress) : Parse Progress := do
  let isRoot := st.openTags.isEmpty
  let st ← parseOpenTag xml st
  if isRoot then
    let rootCount := st.rootCount + 1
    if 1 < rootCount then reject "XML contains multiple root elements"
    else .ok { st with rootCount := rootCount }
  else .ok st

/-- What starts with the `<` at the position. -/
def parseMarkup (st : Progress) : Parse Progress := do
  let isComment ← compare xml st.pos commentOpen
  if isComment then do
    let pos ← skipPast xml commentClose (st.pos + 4) "unterminated XML comment"
    .ok { st with pos := pos }
  else do
    let isInstruction ← compare xml st.pos instructionOpen
    if isInstruction then do
      let pos ← skipPast xml instructionClose (st.pos + 2) "unterminated processing instruction"
      .ok { st with pos := pos }
    else do
      let isCdata ← compare xml st.pos cdataOpen
      if isCdata then
        if st.openTags = [] then reject "CDATA exists outside the root element"
        else do
          let pos ← skipPast xml cdataClose (st.pos + 9) "unterminated CDATA section"
          .ok { st with pos := pos }
      else do
        let isDeclaration ← compare xml st.pos declarationOpen
        if isDeclaration then do
          let pos ← skipMarkupDeclaration xml (st.pos + 2)
          .ok { st with pos := pos }
        else do
          let isCloseTag ← compare xml st.pos closeTagOpen
          if isCloseTag then do
            let (openTags, pos) ← parseCloseTag xml st.pos st.tags st.openTags
            .ok { st with pos := pos, openTags := openTags }
          else parseElement xml st

/-- One turn of the loop, `none` where it breaks. -/
def parseTurn (st : Progress) : Parse (Option Progress) :=
  match find xml [byte '<'] st.pos with
  | none => do
    checkOutside xml st xml.length
    .ok none
  | some opening => do
    checkOutside xml st opening
    let st ← parseMarkup xml { st with pos := opening }
    .ok (some st)

/-- The loop of `parse`, turn by turn. -/
def parseLoop : ℕ → Progress → Parse Progress
  | 0, _ => .error .outOfFuel
  | fuel + 1, st =>
    if st.pos < xml.length then do
      let next ← parseTurn xml st
      match next with
      | none => .ok st
      | some st => parseLoop fuel st
    else .ok st

/-- The position behind a byte order mark. -/
def skipBom : ℕ := if xml.take 3 = [0xef, 0xbb, 0xbf] then 3 else 0

/-- `aclshmemi_xml_parser_t::parse` -/
def parse : Parse (List XmlTag) :=
  if xml = [] then reject "XML content is empty"
  else do
    let st ← parseLoop xml (xml.length + 1) ⟨skipBom xml, [], [], 0⟩
    match st.openTags with
    | back :: _ => do
      let tag ← read st.tags back
      reject ("unclosed tag <" ++ text tag.name ++ ">")
    | [] =>
      if st.rootCount ≠ 1 ∨ st.tags = [] then reject "XML does not contain one root element"
      else .ok st.tags

end Scan

end AscendShmem.TopoXml
