/-
The events a pull reader makes of a document when it trims no text, with the
attributes of the tags as they are written.

`TagReader.Reads` is the contract such a reader is used under for a document:
around the events of the root's tree it reports only texts and what is no
element. `lexTagReader` reads off what the lexer sees.
-/
import SapAutomate.Lib.Xml.Legal

namespace Xml

-- ================================================================ events

inductive TagEvent where
  | start (name : List Char) (attrs : List (List Char × List Char))
  | empty (name : List Char) (attrs : List (List Char × List Char))
  | «end» (name : List Char)
  | text (s : List Char)
  | cdata (s : List Char)
  /-- A comment, a processing instruction or a declaration. -/
  | other
deriving DecidableEq

/-- The names and values of a tag's attributes, as written. -/
def Tag.pairs (t : Tag) : List (List Char × List Char) :=
  t.attrs.map fun a => (a.name, a.value)

mutual

/-- The events of a node. -/
def Node.tagEvents : Node → List TagEvent
  | .elem tag children _ =>
      .start tag.name tag.pairs
        :: (nodesTagEvents children ++ [.end tag.name])
  | .empty tag => [.empty tag.name tag.pairs]
  | .text s => [.text s]
  | .cdata s => [.cdata s]
  | .comment _ => [.other]
  | .pi _ => [.other]
termination_by structural n => n

def nodesTagEvents : List Node → List TagEvent
  | [] => []
  | n :: ns => n.tagEvents ++ nodesTagEvents ns
termination_by structural ns => ns

end

/-- No tag and no CDATA section. -/
def TagEvent.isOutside : TagEvent → Bool
  | .text _ => true
  | .other => true
  | _ => false

theorem nodesTagEvents_append (ns ms : List Node) :
    nodesTagEvents (ns ++ ms) = nodesTagEvents ns ++ nodesTagEvents ms := by
  induction ns with
  | nil => rfl
  | cons n ns ih =>
      rw [List.cons_append, nodesTagEvents, nodesTagEvents, ih,
        List.append_assoc]

-- ================================================================ readers

/-- A reader as a program uses it: the events of a text up to its end or the
first error, and the replacement of references. -/
structure TagReader where
  events : List Char → List (Except String TagEvent)
  unescape : List Char → Option (List Char)

/-- The reader reports the events of the document's tree, and reads
references. -/
structure TagReader.Reads (r : TagReader) (d : Document) : Prop where
  events : ∃ pre post, (∀ e ∈ pre ++ post, e.isOutside = true)
    ∧ r.events d.render = (pre ++ (d.root.tagEvents ++ post)).map .ok
  unescape : ∀ {s t}, Xml.unescape s = some t → r.unescape s = some t

/-- The attributes behind a tag's name; the text is no longer than `fuel`. -/
def attrsFrom : Nat → List Char → List (List Char × List Char)
  | 0, _ => []
  | fuel + 1, s =>
      let s := s.dropWhile isSpace
      let rest := (s.dropWhile fun c => !isSpace c && c != '=').dropWhile isSpace
      match (rest.drop 1).dropWhile isSpace with
      | [] => []
      | q :: value =>
          (s.takeWhile fun c => !isSpace c && c != '=',
              value.takeWhile (· != q))
            :: attrsFrom fuel ((value.dropWhile (· != q)).drop 1)

/-- The attributes of a tag's content. -/
def attrsOf (content : List Char) : List (List Char × List Char) :=
  attrsFrom content.length (content.dropWhile fun c => !isSpace c)

/-- The event of a markup, by its content. -/
def classifyTag (content : List Char) : TagEvent :=
  match classify content with
  | .start name => .start name (attrsOf content)
  | .empty name => .empty name (attrsOf content.dropLast)
  | .end name => .end name
  | .cdata s => .cdata s
  | _ => .other

def rawText (s : List Char) : List TagEvent := if s = [] then [] else [.text s]

/-- The reader that reports what the lexer sees. -/
def lexTagReader : TagReader where
  events s :=
    let l := lex s
    (l.segments.flatMap (fun seg => rawText seg.text ++ [classifyTag seg.markup])
        ++ rawText l.text).map .ok
      ++ (if l.opened.isSome then [.error "unclosed markup"] else [])
  unescape := unescape

end Xml
