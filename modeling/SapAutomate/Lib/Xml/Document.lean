/-
Well-formed documents: the grammar of XML 1.0 as trees that carry every
character they are written with, so that a document is one value and
its text is `Document.render` of it.

`Legal` is the grammar. It asks nothing of a document type declaration
but that its angle brackets balance, and lets a document that has one
refer to entities by any name.
-/
import Mathlib.Data.List.Nodup
import SapAutomate.Lib.Xml.Event

namespace Xml

-- ================================================================== tags

/-- An attribute, with the white space before and around it. -/
structure Attr where
  pre : List Char
  name : List Char
  eqPre : List Char
  eqPost : List Char
  quote : Char
  value : List Char

/-- A start tag or empty-element tag between the brackets. -/
structure Tag where
  name : List Char
  attrs : List Attr
  pad : List Char

/-- As written. -/
def Attr.render (a : Attr) : List Char :=
  a.pre ++ (a.name ++ (a.eqPre ++ ('=' :: (a.eqPost
    ++ (a.quote :: (a.value ++ [a.quote]))))))

/-- What stands between the brackets, without a closing slash. -/
def Tag.content (t : Tag) : List Char :=
  t.name ++ (t.attrs.flatMap Attr.render ++ t.pad)

/-- Every character is white space. -/
def Blank (s : List Char) : Prop := ∀ c ∈ s, isSpace c = true

theorem Blank.not_mem {s : List Char} {c : Char} (h : Blank s)
    (hc : isSpace c = false) : c ∉ s :=
  fun hm => ne_of_class (h c hm) hc rfl

/-- Every reference is one the document may make: with a document type
declaration, also to an entity it may declare. -/
def RefsLegal (dtd : Bool) (s : List Char) : Prop :=
  (unescapeGo (fun r => if dtd && isName r then some [] else resolve r)
    s none).isSome = true

/-- Every character may occur in a document. -/
def XmlChars (s : List Char) : Prop := ∀ c ∈ s, isXmlChar c = true

instance : DecidablePred XmlChars := fun s =>
  decidable_of_iff (s.all isXmlChar = true) List.all_eq_true

structure Attr.Legal (dtd : Bool) (a : Attr) : Prop where
  pre_ne : a.pre ≠ []
  pre : Blank a.pre
  name : isName a.name = true
  eqPre : Blank a.eqPre
  eqPost : Blank a.eqPost
  quote : a.quote = '"' ∨ a.quote = '\''
  unquoted : a.quote ∉ a.value
  noMarkup : '<' ∉ a.value
  chars : XmlChars a.value
  refs : RefsLegal dtd a.value

structure Tag.Legal (dtd : Bool) (t : Tag) : Prop where
  name : isName t.name = true
  attrs : ∀ a ∈ t.attrs, a.Legal dtd
  unique : (t.attrs.map Attr.name).Nodup
  pad : Blank t.pad

-- ================================================================= nodes

/-- The content of a document, as written. -/
inductive Node where
  | elem (tag : Tag) (children : List Node) (endPad : List Char)
  | empty (tag : Tag)
  | text (s : List Char)
  | cdata (s : List Char)
  | comment (s : List Char)
  | pi (s : List Char)

namespace Node

def isText : Node → Bool
  | .text _ => true
  | _ => false

def isElem : Node → Bool
  | .elem .. => true
  | .empty _ => true
  | _ => false

/-- The qualified name of an element. -/
def name : Node → List Char
  | .elem tag .. => tag.name
  | .empty tag => tag.name
  | _ => []

/-- The content of an element. -/
def children : Node → List Node
  | .elem _ children _ => children
  | _ => []

end Node

mutual

/-- The tokens of a node. -/
def Node.tokens : Node → List Token
  | .elem tag children endPad =>
      .markup tag.content
        :: (nodesTokens children ++ [.markup ('/' :: (tag.name ++ endPad))])
  | .empty tag => [.markup (tag.content ++ ['/'])]
  | .text s => [.text s]
  | .cdata s =>
      [.markup ('!' :: '[' :: 'C' :: 'D' :: 'A' :: 'T' :: 'A' :: '['
        :: (s ++ [']', ']']))]
  | .comment s => [.markup ('!' :: '-' :: '-' :: (s ++ ['-', '-']))]
  | .pi s => [.markup ('?' :: (s ++ ['?']))]
termination_by structural n => n

def nodesTokens : List Node → List Token
  | [] => []
  | n :: ns => n.tokens ++ nodesTokens ns
termination_by structural ns => ns

end

/-- The target of a processing instruction: a name other than `xml`. -/
def PiLegal (s : List Char) : Prop :=
  ∃ target data, s = target ++ data ∧ isName target = true
    ∧ (data = [] ∨ ∃ c cs, data = c :: cs ∧ isSpace c = true)
    ∧ target.map Char.toLower ≠ ['x', 'm', 'l']

mutual

def Node.Legal (dtd : Bool) : Node → Prop
  | .elem tag children endPad =>
      tag.Legal dtd ∧ nodesLegal dtd children ∧ Blank endPad
  | .empty tag => tag.Legal dtd
  | .text s =>
      s ≠ [] ∧ '<' ∉ s ∧ ¬ [']', ']', '>'] <:+: s ∧ XmlChars s
        ∧ RefsLegal dtd s
  | .cdata s => ¬ [']', ']', '>'] <:+: s ∧ XmlChars s
  | .comment s =>
      ¬ ['-', '-'] <:+: s ∧ s.getLast? ≠ some '-' ∧ XmlChars s
  | .pi s => PiLegal s ∧ ¬ ['?', '>'] <:+: s ∧ XmlChars s
termination_by structural n => n

/-- Legal nodes, no text right behind another. -/
def nodesLegal (dtd : Bool) : List Node → Prop
  | [] => True
  | n :: ns =>
      n.Legal dtd ∧ nodesLegal dtd ns
        ∧ (n.isText = true → ∀ m, ns.head? = some m → m.isText = false)
termination_by structural ns => ns

end

-- ============================================================= documents

/-- A document. -/
structure Document where
  decl : Option Tag
  misc : List Node
  doctype : Option (List Char)
  misc' : List Node
  root : Node
  epilog : List Node

/-- A comment, a processing instruction or white space. -/
def Node.Misc : Node → Prop
  | .comment s => Node.Legal false (.comment s)
  | .pi s => Node.Legal false (.pi s)
  | .text s => Blank s
  | _ => False

/-- `VersionInfo EncodingDecl? SDDecl?`: the names the attributes of an
XML declaration may have, and the alphabet of their values. -/
structure DeclLegal (t : Tag) : Prop where
  tag : t.Legal false
  target : t.name = ['x', 'm', 'l']
  names : t.attrs.map Attr.name
    ∈ ["version".toList :: [], ["version".toList, "encoding".toList],
      ["version".toList, "standalone".toList],
      ["version".toList, "encoding".toList, "standalone".toList]]
  values : ∀ a ∈ t.attrs, a.value ≠ []
    ∧ ∀ c ∈ a.value, c.isAlphanum ∨ c = '.' ∨ c = '_' ∨ c = '-'

namespace Document

/-- The tokens of an XML declaration, if there is one. -/
def declTokens : Option Tag → List Token
  | none => []
  | some t => [.markup ('?' :: (t.content ++ ['?']))]

/-- The tokens of a document type declaration, if there is one. -/
def doctypeTokens : Option (List Char) → List Token
  | none => []
  | some s => [.markup ('!' :: 'D' :: s)]

/-- What is in front of the root element. -/
def prologTokens (d : Document) : List Token :=
  declTokens d.decl ++ (nodesTokens d.misc
    ++ (doctypeTokens d.doctype ++ nodesTokens d.misc'))

def tokens (d : Document) : List Token :=
  d.prologTokens ++ (d.root.tokens ++ nodesTokens d.epilog)

/-- The document as written. -/
def render (d : Document) : List Char := Xml.render d.tokens

structure Legal (d : Document) : Prop where
  decl : ∀ t, d.decl = some t → DeclLegal t
  misc : ∀ n ∈ d.misc, n.Misc
  doctype : ∀ s, d.doctype = some s →
    "OCTYPE".toList <+: s ∧ Complete ('!' :: 'D' :: s)
  misc' : ∀ n ∈ d.misc', n.Misc
  root : d.root.Legal d.doctype.isSome
  isElem : d.root.isElem = true
  epilog : ∀ n ∈ d.epilog, n.Misc

end Document

end Xml
