/-
What the requests of ADT are to say: the object each of them is about, as
its URL, its XML or its SELECT is read by a server.

A path is read as `Url.read` does, a body by the grammar of `Xml`. The
collection of a kind is what `adt_path` has in front of the name.
-/
import SapAutomate.Adt.Http
import SapAutomate.Lib.Url
import SapAutomate.Lib.Xml.Document

namespace SapAutomate.Adt

open Interact

-- ================================================================ paths

/-- The segments in front of the name. -/
def AbapObjectKind.collection : AbapObjectKind → List String
  | .program => ["sap", "bc", "adt", "programs", "programs"]
  | .class_ => ["sap", "bc", "adt", "oo", "classes"]
  | .interface => ["sap", "bc", "adt", "oo", "interfaces"]
  | .include_ => ["sap", "bc", "adt", "programs", "includes"]
  | .functionGroup | .functionModule =>
      ["sap", "bc", "adt", "functions", "groups"]
  | .table => ["sap", "bc", "adt", "ddic", "tables"]
  | .structure_ => ["sap", "bc", "adt", "ddic", "structures"]
  | .dataElement => ["sap", "bc", "adt", "ddic", "dataelements"]
  | .domain => ["sap", "bc", "adt", "ddic", "domains"]
  | .cdsView => ["sap", "bc", "adt", "ddic", "ddl", "sources"]
  | .package => ["sap", "bc", "adt", "repository", "nodestructure"]
  | .transaction =>
      ["sap", "bc", "adt", "vit", "wb", "object_type", "trant", "object_name"]
  | .enhancementSpot | .behaviorDefinition | .serviceDefinition
  | .metadataExtension => ["sap", "bc", "adt", "objects"]

/-- The segments behind the name. -/
def AbapObjectKind.resource : AbapObjectKind → List String
  | .dataElement | .package | .transaction | .enhancementSpot
  | .behaviorDefinition | .serviceDefinition | .metadataExtension => []
  | _ => ["source", "main"]

/-- Segments as bytes. -/
def segs (l : List String) : List Url.Bytes := l.map utf8

/-- The text that is to be filled in. -/
def groupHole : String := "\x7bgroup\x7d"

/-- A function module, in its group. -/
def modulePath (group name : Url.Bytes) : List Url.Bytes :=
  segs ["sap", "bc", "adt", "functions", "groups"]
    ++ group :: utf8 "fmodules" :: name :: segs ["source", "main"]

/-- The resource of a transaction's URI. -/
def valuesPath : List String :=
  ["sap", "bc", "adt", "repository", "informationsystem", "objectproperties",
    "values"]

/-- The URI is that of this object, and of nothing else: its name is one
segment, behind the collection of its kind. That of a transaction is a
parameter. -/
def Locates (kind : AbapObjectKind) (name uri : Url.Bytes) : Prop :=
  match kind with
  | .functionModule =>
      ∃ group, group ≠ utf8 groupHole
        ∧ Url.read uri = some ⟨modulePath group name, none⟩
  | .transaction =>
      ∃ q object, Url.read uri = some ⟨segs valuesPath, some q⟩
        ∧ Url.params q = [(utf8 "uri", object)]
        ∧ Url.read object
          = some ⟨segs AbapObjectKind.transaction.collection ++ [name], none⟩
  | kind =>
      Url.read uri = some ⟨segs kind.collection ++ name :: segs kind.resource,
        none⟩

-- =========================================================== references

/-- An attribute of a tag has this value. -/
def Gives (tag : Xml.Tag) (key : String) (value : List Char) : Prop :=
  ∃ a ∈ tag.attrs, a.name = key.toList ∧ Xml.unescape a.value = some value

/-- A well-formed document with a single reference to an object. -/
def References (body uri name : List Char) : Prop :=
  ∃ (doc : Xml.Document) (root tag : Xml.Tag) (pad : List Char), doc.Legal
    ∧ doc.render = body ∧ doc.root = .elem root [.empty tag] pad
    ∧ tag.name = "adtcore:objectReference".toList
    ∧ Gives tag "adtcore:uri" uri ∧ Gives tag "adtcore:name" name

/-- The URI lies under the collection of the kind, and its last segment is
the name. -/
def Collected (kind : AbapObjectKind) (name uri : Url.Bytes) : Prop :=
  match kind with
  | .functionModule =>
      ∃ group, Url.read uri = some ⟨segs kind.collection
        ++ [group, utf8 "fmodules", name], none⟩
  | kind => Url.read uri = some ⟨segs kind.collection ++ [name], none⟩

-- ============================================================ statements

/-- The white space of ABAP SQL. -/
def isBlank (c : Char) : Bool :=
  c == ' ' || c == '\t' || c == '\n' || c == '\r'

/-- Letters, digits and underscores. -/
def isIdentifier (s : List Char) : Bool :=
  !s.isEmpty && s.all fun c => c.isAlphanum || c == '_'

/-- The name of a table, which may be in a namespace. -/
def isTableName : List Char → Bool
  | '/' :: cs =>
      isIdentifier (cs.takeWhile (· ≠ '/'))
        && isIdentifier ((cs.dropWhile (· ≠ '/')).drop 1)
  | cs => isIdentifier cs

/-- The table that a statement reads all of, where it does no more. -/
def tableRead (statement : String) : Option (List Char) :=
  match (statement.toList.splitOnP isBlank).filter (· ≠ []) with
  | [select, all, source, table] =>
      if select = "SELECT".toList ∧ all = "*".toList
          ∧ source = "FROM".toList ∧ isTableName table then some table
      else none
  | _ => none

-- ============================================================= requests

section Requests

variable (std : Std) (d : AdtDestination)

/-- The request is for the source of this object. -/
def Fetches (kind : AbapObjectKind) (name : String) (r : HttpRequest) :
    Prop :=
  ∃ p, r.url = d.url p
    ∧ Locates kind (utf8 (std.toLowercase name)) (utf8 p)

/-- The request is about the object of its call, and no other. -/
def Addresses : AdtCall → HttpRequest → Prop
  | .getProgram name, r => Fetches std d .program name r
  | .getClass name, r => Fetches std d .class_ name r
  | .getInterface name, r => Fetches std d .interface name r
  | .getInclude name, r => Fetches std d .include_ name r
  | .getCdsView name, r => Fetches std d .cdsView name r
  | .getFunctionModule group name, r =>
      ∃ p, r.url = d.url p
        ∧ Url.read (utf8 p) = some ⟨modulePath (utf8 (std.toLowercase group))
          (utf8 (std.toLowercase name)), none⟩
  | .whereUsed name kind, r =>
      ∃ p q uri, r.url = d.url p
        ∧ Url.read (utf8 p) = some ⟨segs ["sap", "bc", "adt", "repository",
          "informationsystem", "usageReferences"], some q⟩
        ∧ Url.params q = [(utf8 "uri", uri)]
        ∧ Locates kind (utf8 (std.toLowercase name)) uri
  | .activate request _, r =>
      ∃ uri, References r.body.toList uri
          (std.toLowercase request.name).toList
        ∧ Collected request.kind (utf8 (std.toLowercase request.name))
          (utf8 (String.ofList uri))
  | .getTableContents table _, r => tableRead r.body = some table.toList
  | .getPackageContents _, _ | .search _ _, _ => True

/-- The call sends this request, whatever it has been answered. -/
def Sends (c : AdtCall) (r : HttpRequest) : Prop :=
  ∃ tr k, (runCall std d c).Left tr (.ask (.send r) k)

/-- It is no fetch of a token. -/
def AboutObject (r : HttpRequest) : Prop :=
  r.url ≠ d.url "/sap/bc/adt/discovery"

end Requests

-- ============================================================ conditions

/-- What an attribute of the body holds as it is. -/
def attrSafe (name : String) : Bool :=
  name.toList.all fun c => Xml.isXmlChar c && c != '<' && c != '&' && c != '"'

/-- The kinds that are activated in their own collection. -/
def activatable : AbapObjectKind → Bool
  | .program | .class_ | .interface | .enhancementSpot | .behaviorDefinition
  | .serviceDefinition | .metadataExtension => true
  | _ => false

/-- The usages of an object of this kind and name can be asked for. -/
def Traceable (kind : AbapObjectKind) (name : Url.Bytes) : Prop :=
  match kind with
  | .functionModule | .package => False
  | .transaction => Url.Plain name ∧ 38 ∉ name ∧ 43 ∉ name
  | _ => Url.Plain name

/-- What a call asks of its names. -/
def Addressable (std : Std) : AdtCall → Prop
  | .getProgram name | .getClass name | .getInterface name
  | .getInclude name | .getCdsView name =>
      Url.Plain (utf8 (std.toLowercase name))
  | .getFunctionModule group name =>
      Url.Plain (utf8 (std.toLowercase group))
        ∧ Url.Reads (utf8 (replace (std.toLowercase name) groupHole
          (std.toLowercase group))) (utf8 (std.toLowercase name))
  | .whereUsed name kind => Traceable kind (utf8 (std.toLowercase name))
  | .activate request _ =>
      activatable request.kind = true
        ∧ Url.Plain (utf8 (std.toLowercase request.name))
        ∧ attrSafe (std.toLowercase request.name) = true
  | .getTableContents table _ => isTableName table.toList = true
  | .getPackageContents _ | .search _ _ => True

end SapAutomate.Adt
