/-
Activating an object through the ADT client
(`sap-automate-adt/src/{types,error,client}.rs`). The client itself is
whoever answers `AdtIface`; the mock is one such.
-/
import SapAutomate.Json.Serde
import SapAutomate.Lib.Interact

namespace SapAutomate.Adt

open Interact Json

-- =============================================================== objects

/-- `AbapObjectKind`. -/
inductive AbapObjectKind where
  | program
  | class_
  | interface
  | include_
  | functionGroup
  | functionModule
  | table
  | structure_
  | dataElement
  | domain
  | package
  | cdsView
  | behaviorDefinition
  | serviceDefinition
  | metadataExtension
  | enhancementSpot
  | transaction
  deriving DecidableEq

namespace AbapObjectKind

/-- The name a kind is sent under. -/
def name : AbapObjectKind → String
  | .program => "program"
  | .class_ => "class"
  | .interface => "interface"
  | .include_ => "include"
  | .functionGroup => "function_group"
  | .functionModule => "function_module"
  | .table => "table"
  | .structure_ => "structure"
  | .dataElement => "data_element"
  | .domain => "domain"
  | .package => "package"
  | .cdsView => "cds_view"
  | .behaviorDefinition => "behavior_definition"
  | .serviceDefinition => "service_definition"
  | .metadataExtension => "metadata_extension"
  | .enhancementSpot => "enhancement_spot"
  | .transaction => "transaction"

/-- `AbapObjectKind::label`. -/
def label : AbapObjectKind → String
  | .program => "Program"
  | .class_ => "Class"
  | .interface => "Interface"
  | .include_ => "Include"
  | .functionGroup => "Function Group"
  | .functionModule => "Function Module"
  | .table => "Table"
  | .structure_ => "Structure"
  | .dataElement => "Data Element"
  | .domain => "Domain"
  | .package => "Package"
  | .cdsView => "CDS View"
  | .behaviorDefinition => "Behavior Definition"
  | .serviceDefinition => "Service Definition"
  | .metadataExtension => "Metadata Extension"
  | .enhancementSpot => "Enhancement Spot"
  | .transaction => "Transaction"

def ofName (s : String) : Option AbapObjectKind :=
  [program, class_, interface, include_, functionGroup, functionModule, table,
    structure_, dataElement, domain, package, cdsView, behaviorDefinition,
    serviceDefinition, metadataExtension, enhancementSpot,
    transaction].find? fun k => k.name == s

/-- A name, or an object of that one key with nothing under it. -/
def ofJson : Value → Option AbapObjectKind
  | .string s => ofName s
  | .object [(k, .null)] => ofName k
  | _ => none

theorem ofName_name (k : AbapObjectKind) : ofName k.name = some k := by
  cases k <;> rfl

end AbapObjectKind

/-- `ActivationRequest`. -/
structure ActivationRequest where
  name : String
  kind : AbapObjectKind

/-- `ActivationOutcome`. -/
structure ActivationOutcome where
  name : String
  kind : AbapObjectKind
  activated : Bool
  messages : List String

/-- `ActivationOutcome` as JSON. -/
def ActivationOutcome.toJson (o : ActivationOutcome) : Value :=
  .object (Map.ofEntries [("name", .string o.name),
    ("kind", .string o.kind.name), ("activated", .bool o.activated),
    ("messages", .array (o.messages.map .string))])

-- ================================================================ errors

/-- `AdtError`. -/
inductive AdtError where
  | timeout (timeoutMs : Nat)
  | destinationDown (destination reason : String)
  | csrfRefresh
  | rateLimited (retryAfterMs : Nat)
  | authFailed (reason : String)
  | notFound (kind name : String)
  | forbidden (reason : String)
  | invalidObjectName (name : String)
  | inactiveObject (name : String)
  | dataPreviewBlocked (reason : String)
  | permissionDenied (reason : String)
  | locked (reason : String)
  | internal (reason : String)

namespace AdtError

/-- The `Debug` text of `AdtError::code`. -/
def codeDebug : AdtError → String
  | .timeout _ => "Timeout"
  | .destinationDown .. => "DestinationDown"
  | .csrfRefresh => "CsrfRefresh"
  | .rateLimited _ => "RateLimited"
  | .authFailed _ => "AuthFailed"
  | .notFound .. => "NotFound"
  | .forbidden _ => "Forbidden"
  | .invalidObjectName _ => "InvalidObjectName"
  | .inactiveObject _ => "InactiveObject"
  | .dataPreviewBlocked _ => "DataPreviewBlocked"
  | .permissionDenied _ => "PermissionDenied"
  | .locked _ => "Locked"
  | .internal _ => "Internal"

/-- The `Display` text. -/
def display : AdtError → String
  | .timeout ms => "ADT timeout after " ++ toString ms ++ " ms"
  | .destinationDown d r =>
      "ADT destination '" ++ d ++ "' unreachable: " ++ r
  | .csrfRefresh => "CSRF token refresh required"
  | .rateLimited ms => "rate limited; retry after " ++ toString ms ++ " ms"
  | .authFailed r => "authentication failed: " ++ r
  | .notFound k n => "object not found: " ++ k ++ " '" ++ n ++ "'"
  | .forbidden r => "forbidden: " ++ r
  | .invalidObjectName n => "invalid object name '" ++ n ++ "'"
  | .inactiveObject n => "object is inactive: " ++ n
  | .dataPreviewBlocked r =>
      "data preview blocked by SAP backend policy: " ++ r
  | .permissionDenied r => "permission denied: " ++ r
  | .locked r => "object locked: " ++ r
  | .internal r => "internal: " ++ r

end AdtError

/-- `AdtResult<T>`. -/
abbrev AdtResult (α : Type) := Except AdtError α

-- ================================================================ client

/-- `AdtClient::activate` with its `AdtCallContext`. -/
structure ActivateCall where
  request : ActivationRequest
  readOnly : Bool

/-- The ADT client as an interface. -/
abbrev AdtIface : Iface := ⟨ActivateCall, fun _ => AdtResult ActivationOutcome⟩

/-- `MockAdtClient::activate`. -/
def mockActivate (request : ActivationRequest) (readOnly : Bool) :
    AdtResult ActivationOutcome :=
  if readOnly then
    .error (.permissionDenied ("activate(" ++ request.kind.label ++ " "
      ++ request.name ++ ") blocked: read-only mode"))
  else
    .ok ⟨request.name, request.kind, true,
      [request.kind.label ++ " " ++ request.name ++ " activated (mock)"]⟩

end SapAutomate.Adt
