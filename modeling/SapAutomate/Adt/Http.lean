/-
The HTTP client of ADT (`sap-automate-adt/src/http.rs`, `types.rs`,
`destination.rs`): the requests it makes, and the CSRF token it keeps.

A call is a program over `HttpIface`: a request is answered by the server,
whatever it is, and the token cell is read and written in lock sections of
their own. What the parsers of replies make of a text is left out: a call
that has one returns the text. The case mappings and the texts of status
codes are those of the libraries (`Std`).
-/
import SapAutomate.Adt.Client
import SapAutomate.Lib.Pool
import Mathlib.Data.List.DropRight

namespace SapAutomate.Adt

open Interact

/-- What the libraries say about texts and status codes. -/
structure Std where
  toLowercase : String → String
  toUppercase : String → String
  statusText : Nat → String

-- ================================================================ texts

/-- The bytes of a text. -/
def utf8 (s : String) : List UInt8 := s.toList.flatMap String.utf8EncodeChar

/-- The bytes `urlencoding::encode` leaves as they are. -/
def unreserved (b : UInt8) : Bool :=
  (65 ≤ b && b ≤ 90) || (97 ≤ b && b ≤ 122) || (48 ≤ b && b ≤ 57)
    || b == 45 || b == 95 || b == 46 || b == 126

/-- A byte in upper-case hexadecimal. -/
def upperHex (b : UInt8) : List Char :=
  [(Nat.digitChar (b.toNat / 16)).toUpper,
    (Nat.digitChar (b.toNat % 16)).toUpper]

/-- A byte of `urlencoding::encode`. -/
def encodeByte (b : UInt8) : List Char :=
  if unreserved b then [Char.ofNat b.toNat] else '%' :: upperHex b

/-- `urlencoding::encode`. -/
def urlEncode (s : String) : String :=
  String.ofList ((utf8 s).flatMap encodeByte)

/-- `TABLE` of `base64_compat`. -/
def base64Table : List Char :=
  "ABCDEFGHIJKLMNOPQRSTUVWXYZabcdefghijklmnopqrstuvwxyz0123456789+/".toList

/-- Six bits as a character. -/
def sextet (n : Nat) : Char := base64Table.getD (n % 64) '='

/-- The loop of `base64_compat::encode`. -/
def base64 : List UInt8 → List Char
  | b1 :: b2 :: b3 :: rest =>
      sextet (b1.toNat / 4) :: sextet (b1.toNat % 4 * 16 + b2.toNat / 16)
        :: sextet (b2.toNat % 16 * 4 + b3.toNat / 64) :: sextet b3.toNat
        :: base64 rest
  | [b1, b2] =>
      [sextet (b1.toNat / 4), sextet (b1.toNat % 4 * 16 + b2.toNat / 16),
        sextet (b2.toNat % 16 * 4), '=']
  | [b1] => [sextet (b1.toNat / 4), sextet (b1.toNat % 4 * 16), '=', '=']
  | [] => []

/-- `base64_compat::encode`. -/
def base64Encode (s : String) : String := String.ofList (base64 (utf8 s))

/-- `str::replace`, where the first `skip` characters belong to a match. -/
def replaceFrom (pat new : List Char) : Nat → List Char → List Char
  | _, [] => []
  | skip + 1, _ :: cs => replaceFrom pat new skip cs
  | 0, c :: cs =>
      if pat.isPrefixOf (c :: cs) then
        new ++ replaceFrom pat new (pat.length - 1) cs
      else c :: replaceFrom pat new 0 cs

/-- `str::replace`. -/
def replace (s pat new : String) : String :=
  String.ofList (replaceFrom pat.toList new.toList 0 s.toList)

/-- The number of `str::lines`. -/
def lineCount (s : String) : Nat :=
  s.toList.count '\n' + if s.toList.getLastD '\n' = '\n' then 0 else 1

-- ============================================================== objects

/-- `MAX_TABLE_ROWS`. -/
def maxTableRows : Nat := 1000

/-- `AbapObjectKind::adt_path`. -/
def AbapObjectKind.adtPath (std : Std) (kind : AbapObjectKind)
    (name : String) : String :=
  let n := std.toLowercase name
  match kind with
  | .program => "/sap/bc/adt/programs/programs/" ++ n ++ "/source/main"
  | .class_ => "/sap/bc/adt/oo/classes/" ++ n ++ "/source/main"
  | .interface => "/sap/bc/adt/oo/interfaces/" ++ n ++ "/source/main"
  | .include_ => "/sap/bc/adt/programs/includes/" ++ n ++ "/source/main"
  | .functionGroup => "/sap/bc/adt/functions/groups/" ++ n ++ "/source/main"
  | .functionModule =>
      "/sap/bc/adt/functions/groups/\x7bgroup\x7d/fmodules/" ++ n
        ++ "/source/main"
  | .table => "/sap/bc/adt/ddic/tables/" ++ n ++ "/source/main"
  | .structure_ => "/sap/bc/adt/ddic/structures/" ++ n ++ "/source/main"
  | .dataElement => "/sap/bc/adt/ddic/dataelements/" ++ n
  | .domain => "/sap/bc/adt/ddic/domains/" ++ n ++ "/source/main"
  | .cdsView => "/sap/bc/adt/ddic/ddl/sources/" ++ n ++ "/source/main"
  | .package => "/sap/bc/adt/repository/nodestructure"
  | .transaction =>
      "/sap/bc/adt/repository/informationsystem/objectproperties/values?uri="
        ++ "%2Fsap%2Fbc%2Fadt%2Fvit%2Fwb%2Fobject_type%2Ftrant%2F"
        ++ "object_name%2F" ++ n
  | .enhancementSpot | .behaviorDefinition | .serviceDefinition
  | .metadataExtension => "/sap/bc/adt/objects/" ++ n

/-- `ProgramSource`, without what is none. -/
structure ProgramSource where
  name : String
  kind : AbapObjectKind
  source : String
  active : Bool
  lineCount : Nat

/-- `CdsView`, without its annotations. -/
structure CdsView where
  name : String
  source : String
  rootEntity : String
  lineCount : Nat

-- ========================================================= destinations

/-- `AdtAuth`. -/
inductive AdtAuth where
  | basic (user password : String)
  | bearer (token : String)
  | serviceKey (path : String)
  | certificate (certPath keyPath : String)
  | mock

/-- `AdtDestination`. -/
structure AdtDestination where
  name : String
  baseUrl : String
  client : String
  language : String
  auth : AdtAuth

/-- `HttpAdtClient::url`. -/
def AdtDestination.url (d : AdtDestination) (path : String) : String :=
  String.ofList (d.baseUrl.toList.rdropWhile (· = '/')) ++ path

-- ============================================================== requests

/-- `HeaderValue`: bytes. -/
abbrev HeaderValue := List UInt8

namespace HeaderValue

/-- `HeaderValue::from_str`. -/
def fromStr (s : String) : Option HeaderValue :=
  if (utf8 s).all fun b => (32 ≤ b && b ≠ 127) || b == 9 then some (utf8 s)
  else none

/-- `HeaderValue::to_str`. -/
def toStr (v : HeaderValue) : Option String :=
  if v.all fun b => (32 ≤ b && b < 127) || b == 9 then
    some (String.ofList (v.map fun b => Char.ofNat b.toNat))
  else none

end HeaderValue

/-- `HeaderMap`, the names in lower case. -/
abbrev HeaderMap := List (String × HeaderValue)

/-- `HeaderMap::insert`. -/
def HeaderMap.insert (h : HeaderMap) (name : String) (v : HeaderValue) :
    HeaderMap := h.filter (fun x => x.1 ≠ name) ++ [(name, v)]

/-- `HeaderMap::get`. -/
def HeaderMap.get (h : HeaderMap) (name : String) : Option HeaderValue :=
  h.lookup name

/-- `CSRF_HEADER`. -/
def csrfHeader : String := "x-csrf-token"

/-- The method of a request. -/
inductive Method where
  | get
  | post
  deriving DecidableEq

/-- A request. -/
structure HttpRequest where
  method : Method
  url : String
  headers : HeaderMap
  body : String
  deriving DecidableEq

/-- A reply: its text may fail to come. -/
structure HttpReply where
  status : Nat
  headers : HeaderMap
  text : Except String String

/-- `StatusCode::is_success`. -/
def isSuccess (status : Nat) : Bool := 200 ≤ status && status < 300

/-- What a call asks the world and the cells of the client. -/
inductive HttpAsk where
  | send (r : HttpRequest)
  | serviceKeyToken (path : String)
  | readCsrf
  | writeCsrf (token : String)

/-- The interface of a call. -/
abbrev HttpIface : Iface where
  Query := HttpAsk
  Reply
    | .send _ => Except String HttpReply
    | .serviceKeyToken _ => AdtResult String
    | .readCsrf => Option String
    | .writeCsrf _ => Unit

-- =============================================================== client

section Client

variable (std : Std) (d : AdtDestination)

/-- `HeaderValue::from_str(..).map_err(..)`. -/
def headerOf (s : String) : AdtResult HeaderValue :=
  match HeaderValue.fromStr s with
  | some v => .ok v
  | none => .error (.internal "failed to parse header value")

/-- `resolve_auth_header`. -/
def resolveAuthHeader : Prog HttpIface (AdtResult (Option HeaderValue)) :=
  match d.auth with
  | .basic user password =>
      return (headerOf ("Basic " ++ base64Encode (user ++ ":" ++ password))).map
        some
  | .bearer token => return (headerOf ("Bearer " ++ token)).map some
  | .serviceKey path => do
      let token ← Prog.query (I := HttpIface) (.serviceKeyToken path)
      return token.bind fun t => (headerOf ("Bearer " ++ t)).map some
  | .certificate _ _ | .mock => return .ok none

/-- `base_headers`. -/
def baseHeaders : Prog HttpIface (AdtResult HeaderMap) :=
  match headerOf d.client, headerOf d.language with
  | .error e, _ => return .error e
  | .ok _, .error e => return .error e
  | .ok client, .ok language => do
      let h := ((HeaderMap.insert [] "accept" (utf8 "*/*")).insert
        "x-sap-client" client).insert "x-sap-language" language
      match ← resolveAuthHeader d with
      | .error e => return .error e
      | .ok none => return .ok h
      | .ok (some auth) => return .ok (h.insert "authorization" auth)

/-- A request, or the error of its having none. -/
def send (r : HttpRequest) : Prog HttpIface (AdtResult HttpReply) := do
  match ← Prog.query (I := HttpIface) (.send r) with
  | .error reason => return .error (.destinationDown d.name reason)
  | .ok reply => return .ok reply

/-- The readable token of a reply. -/
def HttpReply.csrf (reply : HttpReply) : Option String :=
  (reply.headers.get csrfHeader).bind HeaderValue.toStr

/-- The text of a reply. -/
def HttpReply.body (reply : HttpReply) : AdtResult String :=
  match reply.text with
  | .ok text => .ok text
  | .error reason => .error (.internal reason)

/-- The end of `fetch_text`: what the status says. -/
def fetched (path : String) (reply : HttpReply) : AdtResult String :=
  if reply.status = 401 ∨ reply.status = 403 then
    .error (.forbidden (path ++ " -> " ++ std.statusText reply.status))
  else if reply.status = 404 then .error (.notFound "Object" path)
  else if ¬ isSuccess reply.status then
    .error (.internal (path ++ " -> " ++ std.statusText reply.status))
  else reply.body

/-- `fetch_text`. -/
def fetchText (path : String) : Prog HttpIface (AdtResult String) := do
  match ← baseHeaders d with
  | .error e => return .error e
  | .ok headers =>
      match ← send d ⟨.get, d.url path, headers, ""⟩ with
      | .error e => return .error e
      | .ok reply =>
          match reply.csrf with
          | some token => do
              let _ ← Prog.query (I := HttpIface) (.writeCsrf token)
              return fetched std path reply
          | none => return fetched std path reply

/-- `refresh_csrf`. -/
def refreshCsrf : Prog HttpIface (AdtResult Unit) := do
  match ← baseHeaders d with
  | .error e => return .error e
  | .ok headers =>
      match ← send d ⟨.get, d.url "/sap/bc/adt/discovery",
        headers.insert csrfHeader (utf8 "Fetch"), ""⟩ with
      | .error e => return .error e
      | .ok reply =>
          match reply.csrf with
          | some token => do
              let _ ← Prog.query (I := HttpIface) (.writeCsrf token)
              return .ok ()
          | none => return .error .csrfRefresh

/-- A POST with a body, under the base headers and these. -/
def post (url : String) (headers : HeaderMap → HeaderMap) (body : String) :
    Prog HttpIface (AdtResult HttpReply) := do
  match ← baseHeaders d with
  | .error e => return .error e
  | .ok h => send d ⟨.post, url, headers h, body⟩

end Client

-- ========================================================== operations

/-- A call of the trait. -/
inductive AdtCall where
  | getProgram (name : String)
  | getClass (name : String)
  | getInterface (name : String)
  | getInclude (name : String)
  | getFunctionModule (group name : String)
  | getPackageContents (package : String)
  | getCdsView (name : String)
  | search (query : String) (maxResults : Nat)
  | whereUsed (name : String) (kind : AbapObjectKind)
  | getTableContents (table : String) (maxRows : Nat)
  | activate (request : ActivationRequest) (readOnly : Bool)

/-- What a call returns; a text is what a parser goes over. -/
inductive AdtAnswer where
  | source (s : ProgramSource)
  | cdsView (v : CdsView)
  | parsed (text : String)
  | nothing
  | outcome (o : ActivationOutcome)

section Operations

variable (std : Std) (d : AdtDestination)

/-- The source of an object, from its text. -/
def sourceOf (kind : AbapObjectKind) (name text : String) : ProgramSource where
  name := std.toUppercase name
  kind := kind
  source := text
  active := true
  lineCount := lineCount text

/-- `adt_source`. -/
def adtSource (name : String) (kind : AbapObjectKind) :
    Prog HttpIface (AdtResult AdtAnswer) := do
  let text ← fetchText std d (kind.adtPath std name)
  return text.map fun t => .source (sourceOf std kind name t)

/-- `get_function_module`. -/
def getFunctionModule (group name : String) :
    Prog HttpIface (AdtResult AdtAnswer) := do
  let text ← fetchText std d (replace
    (AbapObjectKind.functionModule.adtPath std name) "\x7bgroup\x7d"
    (std.toLowercase group))
  return text.map fun t => .source (sourceOf std .functionModule name t)

/-- The answer of `get_package_contents` to a reply. -/
def packageAnswer (package : String) (reply : HttpReply) :
    AdtResult AdtAnswer :=
  let failed := "nodestructure -> " ++ std.statusText reply.status
  if reply.status = 401 ∨ reply.status = 403 then .error (.forbidden failed)
  else if reply.status = 404 then .error (.notFound "Package" package)
  else if ¬ isSuccess reply.status then .error (.internal failed)
  else reply.body.map .parsed

/-- `get_package_contents`. -/
def getPackageContents (package : String) :
    Prog HttpIface (AdtResult AdtAnswer) := do
  let reply ← post d (d.url "/sap/bc/adt/repository/nodestructure")
    (·.insert "content-type" (utf8 "application/x-www-form-urlencoded"))
    ("parent_type=DEVC%2FK&parent_name=" ++ urlEncode package
      ++ "&withShortDescriptions=true")
  return reply.bind (packageAnswer std package)

/-- `get_cds_view`. -/
def getCdsView (name : String) : Prog HttpIface (AdtResult AdtAnswer) := do
  let text ← fetchText std d (AbapObjectKind.cdsView.adtPath std name)
  return text.map fun t =>
    .cdsView ⟨std.toUppercase name, t, name, lineCount t⟩

/-- `search`. -/
def search (query : String) (maxResults : Nat) :
    Prog HttpIface (AdtResult AdtAnswer) := do
  let text ← fetchText std d
    ("/sap/bc/adt/repository/informationsystem/search?operation=quickSearch"
      ++ "&query=" ++ urlEncode query ++ "&maxResults="
      ++ toString maxResults)
  return text.map .parsed

/-- The body of `where_used`. -/
def usageBody : String :=
  "<?xml version=\"1.0\" encoding=\"UTF-8\"?>\n"
    ++ "<usageReferences:usageReferenceRequest xmlns:usageReferences="
    ++ "\"http://www.sap.com/adt/ris/usageReferences\">\n"
    ++ "  <usageReferences:affectedObjects/>\n"
    ++ "</usageReferences:usageReferenceRequest>"

/-- The URL of `where_used`. -/
def usageUrl (name : String) (kind : AbapObjectKind) : String :=
  d.url ("/sap/bc/adt/repository/informationsystem/usageReferences?uri="
    ++ urlEncode (kind.adtPath std name))

/-- The answer of `where_used` to a reply. -/
def usageAnswer (reply : HttpReply) : AdtResult AdtAnswer :=
  if reply.status = 404 then .ok .nothing
  else if ¬ isSuccess reply.status then
    .error (.internal ("usageReferences -> " ++ std.statusText reply.status))
  else reply.body.map .parsed

/-- `where_used`. -/
def whereUsed (name : String) (kind : AbapObjectKind) :
    Prog HttpIface (AdtResult AdtAnswer) := do
  let reply ← post d (usageUrl std d name kind)
    (fun h => (h.insert "content-type" (utf8
        "application/vnd.sap.adt.repository.usagereferences.request+xml")).insert
      "accept" (utf8
        "application/vnd.sap.adt.repository.usagereferences.result+xml"))
    usageBody
  return reply.bind (usageAnswer std)

/-- The statement of `get_table_contents`. -/
def selectFrom (table : String) : String := "SELECT * FROM " ++ table ++ " "

/-- The answer of `get_table_contents` to a reply. -/
def tableAnswer (table : String) (reply : HttpReply) : AdtResult AdtAnswer :=
  if reply.status = 403 then
    .error (.dataPreviewBlocked ("ADT data preview blocked for " ++ table
      ++ "; fall back to sap.table.read"))
  else if ¬ isSuccess reply.status then
    .error (.internal ("data preview " ++ table ++ " -> "
      ++ std.statusText reply.status))
  else reply.body.map .parsed

/-- `get_table_contents`. -/
def getTableContents (table : String) (maxRows : Nat) :
    Prog HttpIface (AdtResult AdtAnswer) :=
  if maxRows = 0 ∨ maxTableRows < maxRows then
    return .error (.invalidObjectName ("max_rows must be in 1..="
      ++ toString maxTableRows))
  else do
    let reply ← post d (d.url ("/sap/bc/adt/datapreview/freestyle?rowNumber="
        ++ toString maxRows ++ "&dataAging=true"))
      (·.insert "content-type" (utf8 "text/plain; charset=utf-8"))
      (selectFrom table)
    return reply.bind (tableAnswer std table)

/-- The collection an object is activated in. -/
def activationCollection : AbapObjectKind → String
  | .program => "programs/programs"
  | .class_ => "oo/classes"
  | .interface => "oo/interfaces"
  | _ => "objects"

/-- The body of `activate`. -/
def activationBody (request : ActivationRequest) : String :=
  let name := std.toLowercase request.name
  "<?xml version=\"1.0\" encoding=\"UTF-8\"?><adtcore:objectReferences "
    ++ "xmlns:adtcore=\"http://www.sap.com/adt/core\">"
    ++ "<adtcore:objectReference adtcore:uri=\"/sap/bc/adt/"
    ++ activationCollection request.kind ++ "/" ++ name
    ++ "\" adtcore:name=\"" ++ name ++ "\"/></adtcore:objectReferences>"

/-- The answer of `activate` to a reply. -/
def activationAnswer (request : ActivationRequest) (reply : HttpReply) :
    AdtAnswer :=
  .outcome ⟨std.toUppercase request.name, request.kind,
    isSuccess reply.status, ["HTTP " ++ std.statusText reply.status]⟩

/-- `activate`, past the refresh: the token is read and sent. -/
def activateWith (request : ActivationRequest) :
    Prog HttpIface (AdtResult AdtAnswer) := do
  match ← Prog.query (I := HttpIface) .readCsrf with
  | none => return .error .csrfRefresh
  | some token =>
      match ← baseHeaders d with
      | .error e => return .error e
      | .ok h =>
          match headerOf token with
          | .error e => return .error e
          | .ok value => do
              let reply ← send d ⟨.post, d.url "/sap/bc/adt/activation",
                (h.insert csrfHeader value).insert "content-type"
                  (utf8 "application/xml"), activationBody std request⟩
              return reply.map (activationAnswer std request)

/-- `activate`. -/
def activate (request : ActivationRequest) (readOnly : Bool) :
    Prog HttpIface (AdtResult AdtAnswer) :=
  if readOnly then
    return .error (.permissionDenied ("activate(" ++ request.kind.label ++ " "
      ++ request.name ++ ") blocked: read-only mode"))
  else do
    match ← refreshCsrf d with
    | .error e => return .error e
    | .ok () => activateWith std d request

/-- What a call runs. -/
def runCall : AdtCall → Prog HttpIface (AdtResult AdtAnswer)
  | .getProgram name => adtSource std d name .program
  | .getClass name => adtSource std d name .class_
  | .getInterface name => adtSource std d name .interface
  | .getInclude name => adtSource std d name .include_
  | .getFunctionModule group name => getFunctionModule std d group name
  | .getPackageContents package => getPackageContents std d package
  | .getCdsView name => getCdsView std d name
  | .search query maxResults => search std d query maxResults
  | .whereUsed name kind => whereUsed std d name kind
  | .getTableContents table maxRows => getTableContents std d table maxRows
  | .activate request readOnly => activate std d request readOnly

end Operations

-- =========================================================== one client

/-- What the world answers at a step. -/
structure World where
  reply : HttpRequest → Except String HttpReply
  serviceKeyToken : String → AdtResult String

/-- The answers, from the world and the token cell. -/
def answer (w : World) : (q : HttpAsk) → Option String →
    HttpIface.Reply q × Option String
  | .send r, cell => (w.reply r, cell)
  | .serviceKeyToken path, cell => (w.serviceKeyToken path, cell)
  | .readCsrf, cell => (cell, cell)
  | .writeCsrf token, _ => ((), some token)

/-- A client with any number of calls under way. -/
def clientMachine (std : Std) (d : AdtDestination) :
    Machine (PoolAct AdtCall World)
      (Pool HttpIface AdtCall World (Option String) (AdtResult AdtAnswer)) :=
  poolMachine (.always answer) (runCall std d) none

end SapAutomate.Adt
