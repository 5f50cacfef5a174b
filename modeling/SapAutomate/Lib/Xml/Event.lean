/-
The events a pull reader makes of a lexed text: one for each markup,
and one for each text that is not all white space, trimmed of it. A
markup still open at the end of the input is an error after the events
before it; elements still open are none, the events just end.

`Reader` is such a reader as a program is given one: what it reports
for a text, and how it replaces references. `lexReader` is the one that
reports exactly what the lexer sees.
-/
import SapAutomate.Lib.Xml.Chars
import SapAutomate.Lib.Xml.Lexer
import SapAutomate.Lib.Text

namespace Xml

-- ================================================================ events

inductive Event where
  | start (name : List Char)
  | empty (name : List Char)
  | «end» (name : List Char)
  | text (s : List Char)
  | cdata (s : List Char)
  /-- A comment, a processing instruction or a declaration. -/
  | other

/-- The name a tag's content begins with. -/
def tagName (content : List Char) : List Char :=
  content.takeWhile fun c => !isSpace c

/-- The event of a markup, by its content. -/
def classify : List Char → Event
  | '/' :: cs => .end (tagName cs)
  | '!' :: '[' :: cs => .cdata (cs.drop 6).dropLast.dropLast
  | '!' :: _ => .other
  | '?' :: _ => .other
  | cs =>
      if cs.getLast? = some '/' then .empty (tagName cs.dropLast)
      else .start (tagName cs)

/-- The event of a text, none for white space. -/
def textEvents (s : List Char) : List Event :=
  if Text.trimBy isSpace s = [] then [] else [.text (Text.trimBy isSpace s)]

/-- The events of a segment. -/
def Segment.events (s : Segment) : List Event :=
  textEvents s.text ++ [classify s.markup]

/-- The events of a lexed text, without the error for an open markup. -/
def Lexed.events (l : Lexed) : List Event :=
  l.segments.flatMap Segment.events ++ textEvents l.text

/-- What a reader reports: the events, then the error if a markup is
open. -/
def Lexed.emitted (l : Lexed) (msg : String) : List (Except String Event) :=
  l.events.map .ok ++ (if l.opened.isSome then [.error msg] else [])

/-- White space is no event. -/
theorem textEvents_space {s : List Char} (h : ∀ c ∈ s, isSpace c = true) :
    textEvents s = [] := by
  unfold textEvents
  rw [if_pos (Text.trimBy_eq_nil_iff.mpr h)]

/-- The events of written tokens, behind a pending text. -/
def tokenEvents : List Char → List Token → List Event
  | text, [] => textEvents text
  | text, .text s :: ts => tokenEvents (text ++ s) ts
  | text, .markup c :: ts => textEvents text ++ classify c :: tokenEvents [] ts

/-- They are what lexing the tokens leads to. -/
theorem lexTokens_events (text : List Char) (ts : List Token) :
    (lexTokens text ts).1.flatMap Segment.events
      ++ textEvents (lexTokens text ts).2 = tokenEvents text ts := by
  induction ts generalizing text with
  | nil => rfl
  | cons t ts ih =>
      cases t with
      | text s => exact ih _
      | markup c =>
          show (textEvents text ++ [classify c])
            ++ (lexTokens [] ts).1.flatMap Segment.events
            ++ textEvents (lexTokens [] ts).2 = _
          rw [List.append_assoc, ih, List.append_assoc]
          rfl

/-- The events of a written document. -/
theorem lex_render_emitted {ts : List Token} (hts : ∀ t ∈ ts, t.Lexical)
    (msg : String) :
    (lex (render ts)).emitted msg = (tokenEvents [] ts).map .ok := by
  rw [lex_render hts]
  unfold Lexed.emitted Lexed.events
  rw [lexTokens_events]
  exact List.append_nil _

-- ================================================================ readers

/-- A reader as a program uses it: the events of a text up to its end
or the first error, and the replacement of references. -/
structure Reader where
  events : List Char → List (Except String Event)
  unescape : List Char → Option (List Char)

/-- The reader that reports what the lexer sees. -/
def lexReader : Reader where
  events s := (lex s).emitted "unclosed markup"
  unescape := unescape

end Xml
