/-
Reading the answer of the data preview (`parse_data_preview`, `local_name`,
`attr_named` of `sap-automate-adt/src/http.rs`): one pass over the events of
the XML reader, which the variables of the loop follow.
-/
import SapAutomate.Json.Value
import SapAutomate.Lib.Text
import SapAutomate.Lib.Xml.TagEvent

namespace SapAutomate.Adt

open Json Xml

/-- `TableRow`. -/
structure TableRow where
  values : Map

/-- `local_name`: what follows the last colon. -/
def localName (name : List Char) : String :=
  String.ofList (name.rtakeWhile fun c => c != ':')

/-- `attr_named`: the value of the first attribute of a local name, empty
where its references are not read. -/
def attrNamed (r : TagReader) (attrs : List (List Char × List Char))
    (target : String) : Option String :=
  (attrs.find? fun a => localName a.1 == target).map fun a =>
    String.ofList ((r.unescape a.2).getD [])

/-- The variables of `parse_data_preview`. -/
structure Preview where
  columns : List String
  rows : List TableRow
  inRow : Bool
  curCellIdx : Nat
  curRow : Map
  curCellText : String
  inCell : Bool

namespace Preview

def initial : Preview where
  columns := []
  rows := []
  inRow := false
  curCellIdx := 0
  curRow := []
  curCellText := ""
  inCell := false

/-- A tag of a column. -/
def column (p : Preview) (name : Option String) : Preview :=
  { p with columns := p.columns ++ name.toList }

/-- `cur_row.insert`, under the column at hand. -/
def put (p : Preview) (value : String) : Preview :=
  match p.columns[p.curCellIdx]? with
  | some col => { p with curRow := p.curRow.insert col (.string value) }
  | none => p

/-- `cur_cell_idx += 1`. -/
def next (p : Preview) : Preview := { p with curCellIdx := p.curCellIdx + 1 }

/-- `Event::Empty`. -/
def readEmpty (r : TagReader) (p : Preview) (name : List Char)
    (attrs : List (List Char × List Char)) : Preview :=
  if localName name = "metadata" then p.column (attrNamed r attrs "name")
  else if localName name = "cell" then
    match attrNamed r attrs "value" with
    | some value => (p.put value).next
    | none => if p.curCellIdx < p.columns.length then (p.put "").next else p
  else p

/-- `Event::Start`. -/
def readStart (r : TagReader) (p : Preview) (name : List Char)
    (attrs : List (List Char × List Char)) : Preview :=
  if localName name = "metadata" then p.column (attrNamed r attrs "name")
  else if localName name = "row" then
    { p with inRow := true, curCellIdx := 0, curRow := [] }
  else if localName name = "cell" ∧ p.inRow = true then
    { p with
      inCell := true
      curCellText := (attrNamed r attrs "value").getD "" }
  else p

/-- `Event::Text`. -/
def readText (r : TagReader) (p : Preview) (s : List Char) : Preview :=
  let trimmed := Text.trimBy Text.isWhitespace ((r.unescape s).getD [])
  if p.inCell = true ∧ trimmed ≠ [] then
    { p with curCellText := String.ofList trimmed }
  else p

/-- `Event::End`. -/
def readEnd (p : Preview) (name : List Char) : Preview :=
  if localName name = "cell" then
    let q := if p.inCell = true ∧ p.curCellIdx < p.columns.length then
        { p.put p.curCellText with curCellText := "" }
      else p
    { q.next with inCell := false }
  else if localName name = "row" then
    let q := if p.inRow = true ∧ p.curRow ≠ [] then
        { p with rows := p.rows ++ [⟨p.curRow⟩], curRow := [] }
      else p
    { q with inRow := false }
  else p

/-- An event. -/
def read (r : TagReader) (p : Preview) : TagEvent → Preview
  | .empty name attrs => p.readEmpty r name attrs
  | .start name attrs => p.readStart r name attrs
  | .text s => p.readText r s
  | .end name => p.readEnd name
  | _ => p

/-- The loop, up to the end or the first error. -/
def loop (r : TagReader) : Preview → List (Except String TagEvent) → Preview
  | p, [] => p
  | p, .ok e :: es => loop r (p.read r e) es
  | p, .error _ :: _ => p

end Preview

/-- `parse_data_preview`. -/
def parseDataPreview (r : TagReader) (text : List Char) : List TableRow :=
  (Preview.loop r .initial (r.events text)).rows

end SapAutomate.Adt
