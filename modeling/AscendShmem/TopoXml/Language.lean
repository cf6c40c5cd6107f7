import AscendShmem.TopoXml.Safety
import AscendShmem.TopoXml.Scans

/-!
# The language of the parser

A `Document` is a tree of tags written out: with every attribute its quote and its whitespace, with
every tag the text before it, and between the tags comments, processing instructions, CDATA sections
and markup declarations. `Document.Serialises` says when it writes a tree.
-/

namespace AscendShmem.TopoXml

open Lib Lib.Exec

/-! ## Documents -/

/-- An attribute as it is written. -/
structure AttrText where
  before : Bytes
  name : Bytes
  afterName : Bytes
  beforeValue : Bytes
  quote : UInt8
  value : Bytes

/-- The attribute of the text. -/
def AttrText.attr (text : AttrText) : XmlAttr := ⟨text.name, text.value⟩

/-- From the `=` on. -/
def AttrText.renderValue (text : AttrText) : Bytes :=
  text.afterName ++ byte '=' :: (text.beforeValue ++ text.quote :: (text.value ++ [text.quote]))

/-- The bytes of an attribute. -/
def AttrText.render (text : AttrText) : Bytes := text.before ++ (text.name ++ text.renderValue)

/-- A tag as it is written, up to its end. -/
structure TagText where
  name : Bytes
  attrs : List AttrText
  spaces : Bytes

/-- The element of the tag. -/
def TagText.element (text : TagText) (selfClosing : Bool) : Element :=
  ⟨text.name, text.attrs.map AttrText.attr, selfClosing⟩

/-- The bytes of the attributes. -/
def renderAttrs : List AttrText → Bytes
  | [] => []
  | text :: more => text.render ++ renderAttrs more

/-- The end of an opening tag. -/
def endOf (selfClosing : Bool) : Bytes := if selfClosing then [byte '/', byte '>'] else [byte '>']

/-- The bytes of an opening tag. -/
def TagText.render (text : TagText) (selfClosing : Bool) : Bytes :=
  byte '<' :: (text.name ++ (renderAttrs text.attrs ++ (text.spaces ++ endOf selfClosing)))

/-- Markup that is no element. -/
inductive Markup where
  | comment (body : Bytes)
  | instruction (body : Bytes)
  | cdata (body : Bytes)
  | declaration (body : Bytes)

/-- Its bytes. -/
def Markup.render : Markup → Bytes
  | comment body => commentOpen ++ (body ++ commentClose)
  | instruction body => instructionOpen ++ (body ++ instructionClose)
  | cdata body => cdataOpen ++ (body ++ cdataClose)
  | declaration body => declarationOpen ++ (body ++ [byte '>'])

/-- A sequence of tags and other markup, each behind a text. -/
inductive Content where
  | nil
  | markup (text : Bytes) (markup : Markup) (rest : Content)
  | empty (text : Bytes) (tag : TagText) (rest : Content)
  | element (text : Bytes) (tag : TagText) (children : Content) (endText beforeName afterName : Bytes)
      (rest : Content)

/-- A closing tag. -/
def renderClose (beforeName name afterName : Bytes) : Bytes :=
  closeTagOpen ++ (beforeName ++ (name ++ (afterName ++ [byte '>'])))

namespace Content

/-- The bytes of the content. -/
def render : Content → Bytes
  | nil => []
  | markup text m rest => text ++ (m.render ++ rest.render)
  | empty text tag rest => text ++ (tag.render true ++ rest.render)
  | element text tag children endText beforeName afterName rest =>
    text ++ (tag.render false ++ (children.render ++ (endText ++
      (renderClose beforeName tag.name afterName ++ rest.render))))

/-- The elements of the content. -/
def elements : Content → Forest Element
  | nil => .nil
  | markup _ _ rest => rest.elements
  | empty _ tag rest => .cons (tag.element true) .nil rest.elements
  | element _ tag children _ _ _ rest => .cons (tag.element false) children.elements rest.elements

section Equations

variable (text : Bytes) (m : Markup) (tag : TagText) (children rest : Content)
  (endText beforeName afterName : Bytes)

@[simp] theorem render_nil : nil.render = [] := rfl

@[simp] theorem render_markup : (markup text m rest).render = text ++ (m.render ++ rest.render) := rfl

@[simp] theorem render_empty :
    (empty text tag rest).render = text ++ (tag.render true ++ rest.render) := rfl

@[simp] theorem render_element :
    (element text tag children endText beforeName afterName rest).render
      = text ++ (tag.render false ++ (children.render ++ (endText ++
        (renderClose beforeName tag.name afterName ++ rest.render)))) := rfl

@[simp] theorem elements_nil : nil.elements = .nil := rfl

@[simp] theorem elements_markup : (markup text m rest).elements = rest.elements := rfl

@[simp] theorem elements_empty :
    (empty text tag rest).elements = .cons (tag.element true) .nil rest.elements := rfl

@[simp] theorem elements_element :
    (element text tag children endText beforeName afterName rest).elements
      = .cons (tag.element false) children.elements rest.elements := rfl

end Equations

end Content

/-- A document, with what may stand around its content. -/
structure Document where
  bom : Bool
  content : Content
  trailing : Bytes

/-- The byte order mark of UTF-8. -/
def bomBytes : Bytes := [0xef, 0xbb, 0xbf]

/-- The bytes of a document. -/
def Document.render (doc : Document) : Bytes :=
  (if doc.bom then bomBytes else []) ++ (doc.content.render ++ doc.trailing)

/-! ## How a tree may be written -/

/-- Whitespace where the parser skips it, and a quote that the value does not contain. -/
structure AttrText.Ok (text : AttrText) : Prop where
  before : Spaces text.before
  afterName : Spaces text.afterName
  beforeValue : Spaces text.beforeValue
  quote : text.quote = apostrophe ∨ text.quote = quotationMark
  value : text.quote ∉ text.value

/-- The first attribute is apart from the name of the tag. -/
structure TagText.Ok (text : TagText) : Prop where
  attrs : ∀ attr ∈ text.attrs, attr.Ok
  apart : ∀ attr ∈ text.attrs.head?, attr.before ≠ []
  spaces : Spaces text.spaces

/-- Outside the root element no CDATA section. -/
def Markup.Ok (inside : Bool) : Markup → Prop
  | comment body => ¬ commentClose <:+: body
  | instruction body => ¬ instructionClose <:+: body
  | cdata body => inside = true ∧ ¬ cdataClose <:+: body
  | declaration body => Declared 0 body ∧ ¬ [byte '-', byte '-'] <+: body ∧
      ¬ ascii ['[', 'C', 'D', 'A', 'T', 'A', '['] <+: body

/-- Outside the root element a text is whitespace, inside any text without a `<`. -/
def TextOk (inside : Bool) (text : Bytes) : Prop :=
  if inside then byte '<' ∉ text else Spaces text

instance (inside : Bool) (text : Bytes) : Decidable (TextOk inside text) :=
  inferInstanceAs (Decidable (if inside then byte '<' ∉ text else Spaces text))

/-- The content is one of the grammar. -/
def Content.Ok : Bool → Content → Prop
  | _, .nil => True
  | inside, .markup text m rest => TextOk inside text ∧ m.Ok inside ∧ rest.Ok inside
  | inside, .empty text tag rest => TextOk inside text ∧ tag.Ok ∧ rest.Ok inside
  | inside, .element text tag children endText beforeName afterName rest =>
    TextOk inside text ∧ tag.Ok ∧ children.Ok true ∧ TextOk true endText ∧ Spaces beforeName ∧
      Spaces afterName ∧ rest.Ok inside

/-- What a tree says of a tag. -/
structure Label where
  name : Bytes
  attrs : List XmlAttr

/-- The name and the attributes of an element. -/
def Element.toLabel (element : Element) : Label := ⟨element.name, element.attrs⟩

/-- The names and values are within the limits of the parser. -/
structure Label.Ok (label : Label) : Prop where
  name : IsName label.name ∧ label.name.length ≤ maxTagNameLen
  count : label.attrs.length ≤ maxAttrsPerTag
  distinct : (label.attrs.map XmlAttr.name).Nodup
  attrNames : ∀ attr ∈ label.attrs, IsName attr.name ∧ attr.name.length ≤ maxAttrNameLen
  values : ∀ attr ∈ label.attrs, attr.value.length ≤ maxAttrValueLen ∧ byte '<' ∉ attr.value ∧
    ¬ (apostrophe ∈ attr.value ∧ quotationMark ∈ attr.value)

/-- The document is the tree, written out. -/
structure Document.Serialises (doc : Document) (tree : Forest Label) : Prop where
  tree : doc.content.elements.map Element.toLabel = tree
  content : doc.content.Ok false
  trailing : Spaces doc.trailing

end AscendShmem.TopoXml
