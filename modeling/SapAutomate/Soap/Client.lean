/-
The live client (`SoapRfcClient` of `sap-automate-rfc/src/soap.rs`):
`call_rfc` asks the curated catalogue about the function, validates
what will become XML names, and posts the envelope.

The catalogue and the HTTP endpoint are its environment; the texts of
HTTP errors and of a status come with their answers.
-/
import SapAutomate.Rfc.Mock
import SapAutomate.Soap.Decode
import SapAutomate.Soap.Envelope

namespace SapAutomate.Soap

open Interact Json Rfc Xml

-- ============================================================ environment

/-- `SoapRfcConfig`. -/
structure SoapRfcConfig where
  baseUrl : String
  client : String
  user : String
  password : String
  language : String
  timeoutMs : Nat

/-- A request to the endpoint, with its basic authentication. -/
structure SoapPost where
  url : String
  user : String
  password : String
  contentType : String
  soapAction : String
  body : List Char

/-- What comes of a request: no answer in time or none at all, a body
that cannot be read, or a status with the text of its `Display` and a
body. -/
inductive HttpReply where
  | timedOut
  | failed (reason : String)
  | unreadable (reason : String)
  | answered (status : Nat) (statusText : String) (text : List Char)

/-- What the client asks. -/
inductive SoapQuery where
  | metadata (function language : String)
  | post (p : SoapPost)

/-- The catalogue and the endpoint as an interface. -/
abbrev SoapIface : Iface where
  Query := SoapQuery
  Reply
    | .metadata .. => RfcResult RfcFunctionMeta
    | .post _ => HttpReply

/-- `catalogue.rfc_metadata(function, language)`. -/
def rfcMetadata (function language : String) :
    Prog SoapIface (RfcResult RfcFunctionMeta) :=
  Prog.query (I := SoapIface) (.metadata function language)

/-- Send a request. -/
def send (p : SoapPost) : Prog SoapIface HttpReply :=
  Prog.query (I := SoapIface) (.post p)

-- ================================================================= invoke

/-- `endpoint`. -/
def endpoint (cfg : SoapRfcConfig) : String :=
  String.ofList (cfg.baseUrl.toList.rdropWhile fun c => c == '/')
    ++ "/sap/bc/soap/rfc?sap-client=" ++ cfg.client

/-- The longest prefix of at most `limit` bytes of whole characters. -/
def bytePrefix : Nat → List Char → List Char
  | _, [] => []
  | limit, c :: cs =>
      if c.utf8Size ≤ limit then c :: bytePrefix (limit - c.utf8Size) cs else []

/-- The bytes of a text. -/
def byteLength (s : List Char) : Nat :=
  s.foldl (fun n c => n + c.utf8Size) 0

/-- `truncate`. -/
def truncate (s : List Char) : String :=
  if byteLength s ≤ 300 then String.ofList s
  else
    let head := bytePrefix 300 s
    String.ofList head ++ "…[+" ++ toString (byteLength s - byteLength head)
      ++ " chars]"

/-- The error for a function that is no safe name. -/
def unsafeFunction (function : String) : RfcError :=
  .invalidParameter "function" ("'" ++ function ++ "' is not a valid RFC name")

/-- The request `invoke` sends. -/
def soapPost (cfg : SoapRfcConfig) (function : String)
    (paramsXml : List Char) : SoapPost :=
  { url := endpoint cfg
    user := cfg.user
    password := cfg.password
    contentType := "text/xml; charset=utf-8"
    soapAction := "\"" ++ rfcNamespace ++ ":" ++ function ++ "\""
    body := buildEnvelope function paramsXml }

/-- What `invoke` makes of the reply. -/
def readReply (r : Reader) (cfg : SoapRfcConfig) (function : String) :
    HttpReply → RfcResult Value
  | .timedOut => .error (.timeout cfg.timeoutMs)
  | .failed reason => .error (.destinationDown cfg.baseUrl reason)
  | .unreadable reason => .error (.internal reason)
  | .answered status statusText text =>
      if status = 401 ∨ status = 403 then
        .error (.authFailed ("SOAP RFC returned HTTP " ++ statusText))
      else do
        let root ← xmlToJsonRoot r text
        match extractFault root with
        | some fault => .error (.internal ("SOAP fault: " ++ fault))
        | none =>
            if status < 200 ∨ 300 ≤ status then
              .error (.internal ("SOAP RFC " ++ function ++ " -> HTTP "
                ++ statusText ++ ": " ++ truncate text))
            else extractBodyPayload root

/-- `invoke`. -/
def invoke (r : Reader) (cfg : SoapRfcConfig) (function : String)
    (paramsXml : List Char) : Prog SoapIface (RfcResult Value) := do
  if isSafeName function then
    let reply ← send (soapPost cfg function paramsXml)
    return readReply r cfg function reply
  else
    return .error (unsafeFunction function)

-- =============================================================== call_rfc

/-- The refusal of a function that is no read. -/
def notReadOnly (function : String) : RfcError :=
  .permissionDenied ("function '" ++ function
    ++ "' modifies state; not callable in read-only mode")

/-- The refusal of a function the catalogue does not know. -/
def notCatalogued (function : String) : RfcError :=
  .permissionDenied ("function '" ++ function
    ++ "' is not in the curated read-only catalogue; refusing to call it in read-only mode")

/-- The safety gate: the error it refuses with, if it does. -/
def gate (function : String) (readOnlyMode : Bool) :
    RfcResult RfcFunctionMeta → Option RfcError
  | .ok fnMeta =>
      if readOnlyMode && !fnMeta.readOnly then some (notReadOnly function)
      else none
  | .error (.notFound _) =>
      if readOnlyMode then some (notCatalogued function) else none
  | .error e => some e

/-- In read-only mode the gate opens for declared reads only. -/
theorem gate_none {function : String} {reply : RfcResult RfcFunctionMeta}
    (h : gate function true reply = none) :
    ∃ fnMeta, reply = .ok fnMeta ∧ fnMeta.readOnly = true := by
  cases reply with
  | error e => cases e <;> cases h
  | ok fnMeta =>
      refine ⟨fnMeta, rfl, ?_⟩
      by_contra hwrite
      rw [Bool.not_eq_true] at hwrite
      simp only [gate, hwrite] at h
      cases h

/-- The reply of an executed call. -/
def callReply (cfg : SoapRfcConfig) (function : String) (outputs : Value) :
    Value :=
  .object (Map.ofEntries [("function", .string function),
    ("executed_on", .string cfg.baseUrl), ("outputs", outputs)])

/-- `SoapRfcClient::call_rfc`. -/
def soapCallRfc (r : Reader) (cfg : SoapRfcConfig) (request : RfcCallRequest)
    (readOnlyMode : Bool) : Prog SoapIface (RfcResult Value) := do
  let fnMeta ← rfcMetadata request.function cfg.language
  match gate request.function readOnlyMode fnMeta with
  | some e => return .error e
  | none =>
    match callArgs request.parameters with
    | .error e => return .error e
    | .ok args =>
      match validateKeys (.object args) with
      | .error e => return .error e
      | .ok () =>
        match ← invoke r cfg request.function (writeParams args) with
        | .error e => return .error e
        | .ok outputs => return .ok (callReply cfg request.function outputs)

/-- The client as an implementation of the trait's `call_rfc`. -/
def soapRfcClient (r : Reader) (cfg : SoapRfcConfig) (call : SapCall) :
    Prog SoapIface (RfcResult Value) :=
  soapCallRfc r cfg call.request call.readOnlyMode

end SapAutomate.Soap
