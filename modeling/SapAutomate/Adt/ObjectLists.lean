/-
Reading lists of repository objects (`parse_nodestructure`,
`parse_search_results`, `parse_usage_references`, `map_kind` of
`sap-automate-adt/src/http.rs`): one pass over the events of the XML
reader.

A search and a usage list are read tag by tag. A package is read with a
node at hand and the field that a text belongs to, which the variables of
the loop follow.
-/
import Mathlib.Data.List.Infix
import SapAutomate.Adt.Client
import SapAutomate.Lib.Text
import SapAutomate.Lib.Xml.TagEvent

namespace SapAutomate.Adt

open Xml

/-- `PackageMember`. -/
structure PackageMember where
  name : String
  kind : AbapObjectKind
  description : Option String
  deriving DecidableEq

/-- `AdtSearchHit`, without its score, which is always 1. -/
structure AdtSearchHit where
  name : String
  kind : AbapObjectKind
  description : Option String
  package : Option String
  deriving DecidableEq

/-- `WhereUsedHit`. -/
structure WhereUsedHit where
  object : String
  kind : AbapObjectKind
  location : String
  usage : String
  deriving DecidableEq

/-- `map_kind`. -/
def mapKind (token : String) : AbapObjectKind :=
  if token = "CLAS/OC" ∨ token = "CLAS" then .class_
  else if token = "INTF/OI" ∨ token = "INTF" then .interface
  else if token = "PROG/P" ∨ token = "PROG/I" ∨ token = "PROG" then .program
  else if token = "FUGR/F" ∨ token = "FUGR" then .functionGroup
  else if token = "FUGR/FF" ∨ token = "FUNC" then .functionModule
  else if token = "DDLS/DF" ∨ token = "DDLS" then .cdsView
  else if token = "TABL/DT" ∨ token = "TABL" then .table
  else if token = "STRU/DS" ∨ token = "STRU" then .structure_
  else if token = "DEVC/K" ∨ token = "DEVC" then .package
  else .program

/-- `ends_with`. -/
def endsWith (name : List Char) (s : String) : Bool := s.toList.isSuffixOf name

/-- `contains`. -/
def containsText (key : List Char) (s : String) : Bool :=
  decide (s.toList <:+: key)

/-- `unescape`, empty where the references are not read. -/
def unescaped (r : TagReader) (s : List Char) : List Char :=
  (r.unescape s).getD []

/-- The attributes of a tag. -/
abbrev Attrs := List (List Char × List Char)

-- ============================================================ tag by tag

/-- The variables that the attributes of a tag fill. -/
structure Named where
  name : String
  kindStr : String
  description : Option String
  package : Option String
  uri : String

def Named.empty : Named := ⟨"", "", none, none, ""⟩

/-- An attribute of `parse_search_results`. -/
def Named.readFound (r : TagReader) (v : Named) (a : List Char × List Char) :
    Named :=
  let val := String.ofList (unescaped r a.2)
  if containsText a.1 "name" then { v with name := val }
  else if containsText a.1 "type" then { v with kindStr := val }
  else if containsText a.1 "description" then
    { v with description := some val }
  else if containsText a.1 "packageName" then { v with package := some val }
  else v

/-- A tag of `parse_search_results`. -/
def searchHit (r : TagReader) (name : List Char) (attrs : Attrs) :
    Option AdtSearchHit :=
  if endsWith name "objectReference" then
    let v := attrs.foldl (Named.readFound r) .empty
    if v.name = "" then none
    else some ⟨v.name, mapKind v.kindStr, v.description, v.package⟩
  else none

/-- An attribute of `parse_usage_references`. -/
def Named.readUsed (r : TagReader) (v : Named) (a : List Char × List Char) :
    Named :=
  let val := String.ofList (unescaped r a.2)
  if containsText a.1 "name" then { v with name := val }
  else if containsText a.1 "type" then { v with kindStr := val }
  else if containsText a.1 "uri" then { v with uri := val }
  else v

/-- A tag of `parse_usage_references`. -/
def usageHit (r : TagReader) (name : List Char) (attrs : Attrs) :
    Option WhereUsedHit :=
  if endsWith name "referencedObject" || endsWith name "objectReference" then
    let v := attrs.foldl (Named.readUsed r) .empty
    if v.name = "" then none
    else some ⟨v.name, mapKind v.kindStr, v.uri, "reference"⟩
  else none

/-- The loop of either, up to the end or the first error. -/
def tagLoop {α : Type} (hit : List Char → Attrs → Option α) :
    List (Except String TagEvent) → List α
  | [] => []
  | .ok (.start name attrs) :: es => (hit name attrs).toList ++ tagLoop hit es
  | .ok (.empty name attrs) :: es => (hit name attrs).toList ++ tagLoop hit es
  | .ok _ :: es => tagLoop hit es
  | .error _ :: _ => []

/-- `parse_search_results`. -/
def parseSearchResults (r : TagReader) (xml : List Char) : List AdtSearchHit :=
  tagLoop (searchHit r) (r.events xml)

/-- `parse_usage_references`. -/
def parseUsageReferences (r : TagReader) (xml : List Char) :
    List WhereUsedHit :=
  tagLoop (usageHit r) (r.events xml)

-- ============================================================== packages

/-- `CurrentField`. -/
inductive CurrentField where
  | none
  | objectType
  | objectName
  | description
  deriving DecidableEq

/-- The variables of `parse_nodestructure`. -/
structure NodeStructure where
  out : List PackageMember
  inNode : Bool
  currentField : CurrentField
  name : String
  desc : Option String
  kindStr : String

/-- A tag that holds an object. -/
def isObjectNode (name : List Char) : Bool :=
  endsWith name "SEU_ADT_REPOSITORY_OBJ_NODE" || name == "OBJECT".toList

/-- The field that a tag opens. -/
def fieldOf (name : List Char) : CurrentField :=
  if endsWith name "OBJECT_TYPE" then .objectType
  else if endsWith name "OBJECT_NAME" then .objectName
  else if endsWith name "DESCRIPTION" then .description
  else .none

/-- An attribute of the self-closing form. -/
def Named.readMember (r : TagReader) (v : Named) (a : List Char × List Char) :
    Named :=
  let val := String.ofList (unescaped r a.2)
  if containsText a.1 "name" then { v with name := val }
  else if containsText a.1 "description" then
    { v with description := some val }
  else if containsText a.1 "type" then { v with kindStr := val }
  else v

/-- A self-closing element. -/
def memberOfTag (r : TagReader) (name : List Char) (attrs : Attrs) :
    Option PackageMember :=
  if endsWith name "objectReference" || name == "OBJECT".toList then
    let v := attrs.foldl (Named.readMember r) .empty
    if v.name = "" then none
    else some ⟨v.name, mapKind v.kindStr, v.description⟩
  else none

namespace NodeStructure

def initial : NodeStructure := ⟨[], false, .none, "", none, ""⟩

/-- `Event::Start`. -/
def readStart (p : NodeStructure) (name : List Char) : NodeStructure :=
  if isObjectNode name then
    { p with inNode := true, name := "", kindStr := "", desc := none }
  else if p.inNode then { p with currentField := fieldOf name }
  else p

/-- `Event::Empty`. -/
def readEmpty (r : TagReader) (p : NodeStructure) (name : List Char)
    (attrs : Attrs) : NodeStructure :=
  { p with out := p.out ++ (memberOfTag r name attrs).toList }

/-- The text of a field. -/
def put (p : NodeStructure) (text : String) : NodeStructure :=
  match p.currentField with
  | .objectType => { p with kindStr := text }
  | .objectName => { p with name := text }
  | .description => { p with desc := some text }
  | .none => p

/-- `Event::Text`. -/
def readText (r : TagReader) (p : NodeStructure) (s : List Char) :
    NodeStructure :=
  let trimmed := Text.trimBy Text.isWhitespace (unescaped r s)
  if trimmed ≠ [] ∧ p.inNode = true then p.put (String.ofList trimmed) else p

/-- `Event::End`. -/
def readEnd (p : NodeStructure) (name : List Char) : NodeStructure :=
  if isObjectNode name then
    let q := if p.inNode = true ∧ p.name ≠ "" then
        { p with
          out := p.out ++ [⟨p.name, mapKind p.kindStr, p.desc⟩]
          name := ""
          desc := none }
      else p
    { q with inNode := false, currentField := .none }
  else { p with currentField := .none }

/-- An event. -/
def read (r : TagReader) (p : NodeStructure) : TagEvent → NodeStructure
  | .start name _ => p.readStart name
  | .empty name attrs => p.readEmpty r name attrs
  | .text s => p.readText r s
  | .end name => p.readEnd name
  | _ => p

/-- The loop, up to the end or the first error. -/
def loop (r : TagReader) :
    NodeStructure → List (Except String TagEvent) → NodeStructure
  | p, [] => p
  | p, .ok e :: es => loop r (p.read r e) es
  | p, .error _ :: _ => p

end NodeStructure

/-- `parse_nodestructure`. -/
def parseNodestructure (r : TagReader) (xml : List Char) :
    List PackageMember :=
  (NodeStructure.loop r .initial (r.events xml)).out

end SapAutomate.Adt
