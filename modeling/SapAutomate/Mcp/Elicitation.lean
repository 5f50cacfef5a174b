/-
The handshake and elicitation as they go over the wire
(`mcp-core/src/protocol.rs`): what a client says it can do, what a
server asks of its user, and what the user answers.
-/
import SapAutomate.Mcp.Wire

namespace SapAutomate.Mcp

open Json

-- ============================================================= handshake

/-- `Implementation`. -/
structure Implementation where
  name : String
  version : String

def Implementation.toJson (i : Implementation) : Value :=
  .object (Map.ofEntries
    [("name", .string i.name), ("version", .string i.version)])

def Implementation.ofJson (v : Value) : Option Implementation := do
  let fields ← v.structFields ["name", "version"]
  let name ← (fields "name").bind Value.asStr
  let version ← (fields "version").bind Value.asStr
  return ⟨name, version⟩

/-- `RootsCapability`. -/
structure RootsCapability where
  listChanged : Bool

def RootsCapability.ofJson (v : Value) : Option RootsCapability := do
  let fields ← v.structFields ["listChanged"]
  match fields "listChanged" with
  | none => some ⟨false⟩
  | some (.bool b) => some ⟨b⟩
  | some _ => none

/-- `ClientCapabilities`; `extra` holds the fields of no other name. -/
structure ClientCapabilities where
  sampling : Option Value
  elicitation : Option Value
  roots : Option RootsCapability
  extra : Map

namespace ClientCapabilities

/-- `ClientCapabilities::default`. -/
def default : ClientCapabilities := ⟨none, none, none, []⟩

/-- `ClientCapabilities::supports_elicitation`. -/
def supportsElicitation (c : ClientCapabilities) : Bool :=
  c.elicitation.isSome

/-- With a flattened field a struct is read from an object only. -/
def ofJson : Value → Option ClientCapabilities
  | .object m => do
      let roots ← match Value.optionField (Map.get m "roots") with
        | none => some none
        | some v => (RootsCapability.ofJson v).map some
      return {
        sampling := Value.optionField (Map.get m "sampling")
        elicitation := Value.optionField (Map.get m "elicitation")
        roots := roots
        extra := m.filter fun e =>
          !(["sampling", "elicitation", "roots"].contains e.1) }
  | _ => none

end ClientCapabilities

/-- `InitializeParams`. -/
structure InitializeParams where
  protocolVersion : String
  capabilities : ClientCapabilities
  clientInfo : Implementation

def InitializeParams.ofJson (v : Value) : Option InitializeParams := do
  let fields ← v.structFields
    ["protocolVersion", "capabilities", "clientInfo"]
  let protocolVersion ← (fields "protocolVersion").bind Value.asStr
  let capabilities ← match fields "capabilities" with
    | none => some .default
    | some c => ClientCapabilities.ofJson c
  let clientInfo ← (fields "clientInfo").bind Implementation.ofJson
  return ⟨protocolVersion, capabilities, clientInfo⟩

/-- The parameters of an `initialize` request, where they are some. -/
def Request.initializeParams (req : Request) : Option InitializeParams :=
  if req.method = "initialize" then
    InitializeParams.ofJson (req.params.getD (.object []))
  else none

-- =========================================================== elicitation

/-- `ElicitationParams`. -/
structure ElicitationParams where
  message : String
  requestedSchema : Value

namespace ElicitationParams

def toJson (p : ElicitationParams) : Value :=
  .object (Map.ofEntries
    [("message", .string p.message), ("requestedSchema", p.requestedSchema)])

def ofJson (v : Value) : Option ElicitationParams := do
  let fields ← v.structFields ["message", "requestedSchema"]
  let message ← (fields "message").bind Value.asStr
  let requestedSchema ← fields "requestedSchema"
  return ⟨message, requestedSchema⟩

theorem ofJson_toJson (p : ElicitationParams) : ofJson p.toJson = some p := by
  obtain ⟨message, schema⟩ := p
  have hnd : ([("message", Value.string message),
      ("requestedSchema", schema)].map Prod.fst).Nodup := by
    simp
  simp [ofJson, toJson, Value.structFields, Map.get_ofEntries hnd,
    Map.get_cons, Value.asStr]

end ElicitationParams

/-- `ElicitationAction`. -/
inductive ElicitationAction where
  | accept
  | decline
  | cancel
  deriving DecidableEq

namespace ElicitationAction

/-- The name an action is sent under. -/
def name : ElicitationAction → String
  | .accept => "accept"
  | .decline => "decline"
  | .cancel => "cancel"

def ofName (s : String) : Option ElicitationAction :=
  [accept, decline, cancel].find? fun a => a.name == s

/-- A name, or an object of that one key with nothing under it. -/
def ofJson : Value → Option ElicitationAction
  | .string s => ofName s
  | .object [(k, .null)] => ofName k
  | _ => none

theorem ofName_name (a : ElicitationAction) : ofName a.name = some a := by
  cases a <;> rfl

end ElicitationAction

/-- `ElicitationResult`. -/
structure ElicitationResult where
  action : ElicitationAction
  content : Option Value

namespace ElicitationResult

/-- Declined, without content. -/
def decline : ElicitationResult := ⟨.decline, none⟩

/-- Cancelled, without content. -/
def cancel : ElicitationResult := ⟨.cancel, none⟩

def fields (r : ElicitationResult) : List (String × Value) :=
  ("action", .string r.action.name) :: optField "content" r.content

def toJson (r : ElicitationResult) : Value :=
  .object (Map.ofEntries r.fields)

def ofJson (v : Value) : Option ElicitationResult := do
  let fields ← v.structFields ["action", "content"]
  let action ← (fields "action").bind ElicitationAction.ofJson
  return ⟨action, Value.optionField (fields "content")⟩

/-- A result as it is read back: content that is `null` is lost. -/
def received (r : ElicitationResult) : ElicitationResult :=
  { r with content := Value.optionField r.content }

theorem ofJson_toJson (r : ElicitationResult) :
    ofJson r.toJson = some r.received := by
  obtain ⟨action, content⟩ := r
  have hname := action.ofName_name
  have hnd : ((ElicitationResult.mk action content).fields.map
      Prod.fst).Nodup := by
    cases content with
    | none => simp [fields]
    | some c => simp [fields]
  simp only [ofJson, toJson, Value.structFields, Map.get_ofEntries hnd]
  cases content with
  | none => simp [fields, ElicitationAction.ofJson, hname, received,
      Map.get_cons]
  | some c => simp [fields, ElicitationAction.ofJson, hname, received,
      Map.get_cons]

end ElicitationResult

end SapAutomate.Mcp
