/-
The tool `sap.rfc.call` (`sap-automate-server/src/tools.rs`): the
arguments become an `RfcCallRequest`, and with `commit` the call is a
transactional write whose outcome is audited. The audit log's clock and
event ids are left to the log.

Its handler talks to the SAP client, to the audit log, and to nothing
else; `ToolIface O` leaves room for what other tools talk to.
-/
import SapAutomate.Mcp.Server
import SapAutomate.Rfc.Transaction

namespace SapAutomate.Server

open Interact Json Mcp Rfc

-- =============================================================== context

/-- `ServerContext`, as far as the tools here read it. -/
structure ServerContext where
  readOnly : Bool
  sapSystem : Option String

/-- `AuditOutcome`. -/
inductive AuditOutcome where
  | ok (summary : String)
  | declined (reason : String)
  | denied (reason : String)
  | failed (code : Int) (message : String)

/-- `AuditEntry`, without what the clock fills in. -/
structure AuditEntry where
  sessionId : Option String
  tenant : Option String
  actor : Option String
  tool : String
  sapSystem : Option String
  argumentsRedacted : Value
  outcome : AuditOutcome

/-- `AuditLog::record` as an interface. -/
def AuditIface : Iface where
  Query := AuditEntry
  Reply := fun _ => Unit

/-- What tools talk to: the SAP client, the audit log, and the rest. -/
abbrev ToolIface (O : Iface) : Iface := SapIface.sum (AuditIface.sum O)

/-- `record_write_audit`: the log redacts the arguments. -/
def recordWriteAudit {O : Iface} (ctx : ServerContext) (tool : String)
    (arguments : Value) (outcome : AuditOutcome) : Prog (AuditIface.sum O) Unit :=
  Prog.inl (Prog.query (I := AuditIface)
    { sessionId := none
      tenant := none
      actor := none
      tool := tool
      sapSystem := ctx.sapSystem
      argumentsRedacted := arguments
      outcome := outcome })

/-- `render_json`, for what serialises. -/
def renderJson (v : Value) : CallToolResult := .text (v.toJsonPretty 0)

-- ================================================================== JSON

/-- `RfcCallRequest` from JSON. -/
def rfcCallRequest (v : Value) : Option RfcCallRequest := do
  let fields ← v.structFields
    ["function", "parameters", "timeout_ms", "require_read_only_safe"]
  let function ← (fields "function").bind Value.asStr
  let timeoutMs ← match fields "timeout_ms" with
    | none => some defaultTimeoutMs
    | some t => t.asU64
  let requireReadOnlySafe ← match fields "require_read_only_safe" with
    | none => some true
    | some b => b.asBool
  return {
    function := function
    parameters := (fields "parameters").getD .null
    timeoutMs := timeoutMs
    requireReadOnlySafe := requireReadOnlySafe }

/-- `BapiRet2Severity` as JSON. -/
def severityJson : BapiRet2Severity → Value
  | .success => .string "Success"
  | .error => .string "Error"
  | .warning => .string "Warning"
  | .info => .string "Info"
  | .abort => .string "Abort"
  | .unknown c => .object [("Unknown", .string (String.ofList [c]))]

/-- `BapiRet2Message` as JSON. -/
def messageJson (m : BapiRet2Message) : Value :=
  .object (Map.ofEntries [("severity", severityJson m.severity),
    ("message_class", .string m.messageClass),
    ("message_number", .string m.messageNumber), ("text", .string m.text),
    ("parameter", .ofOption m.parameter),
    ("row", (m.row.map Value.ofInt).getD .null),
    ("field", .ofOption m.field), ("system", .ofOption m.system)])

/-- The result of a transactional write. -/
def outcomeJson (outcome : WriteOutcome) : Value :=
  .object (Map.ofEntries [("function", .string outcome.function),
    ("committed", .bool outcome.committed),
    ("rolled_back", .bool outcome.rolledBack),
    ("messages", .array (outcome.messages.map messageJson)),
    ("result", outcome.result)])

-- =============================================================== handler

/-- The tool's name. -/
def rfcCallName : String := "sap.rfc.call"

/-- The result for an error of the client. -/
def rfcCallError (e : RfcError) : CallToolResult :=
  .error ("sap.rfc.call [" ++ e.code.debug ++ "]: " ++ e.display)

/-- The audit outcome of a finished write. -/
def finishedAudit (outcome : WriteOutcome) : AuditOutcome :=
  if outcome.committed then .ok (outcome.function ++ " committed")
  else .failed 0 (outcome.function ++ " not committed (rolled_back="
    ++ (Value.bool outcome.rolledBack).toJson ++ ")")

/-- The audit outcome of a refused or failed write. -/
def failedAudit : RfcError → AuditOutcome
  | .permissionDenied r => .denied r
  | other => .failed other.code.asI32 other.display

variable {O : Iface}

/-- The handler of `tool_rfc_call`. `serdeError` is the text of the
deserialisation error for arguments that are no request. -/
def rfcCallHandler (ctx : ServerContext) (serdeError : Value → String) :
    ToolHandler (ToolIface O) := fun arguments =>
  let commit := ((arguments.get "commit").bind Value.asBool).getD false
  match rfcCallRequest arguments with
  | none => .done (.ok (.error ("sap.rfc.call: invalid arguments: "
      ++ serdeError arguments)))
  | some request =>
      if commit then do
        match ← (executeWriteBapi request ctx.readOnly).inl with
        | .ok outcome =>
            (recordWriteAudit ctx rfcCallName arguments
              (finishedAudit outcome)).inr
            return .ok (renderJson (outcomeJson outcome))
        | .error e =>
            (recordWriteAudit ctx rfcCallName arguments (failedAudit e)).inr
            return .ok (rfcCallError e)
      else do
        match ← (callRfc request ctx.readOnly).inl with
        | .ok result => return .ok (renderJson result)
        | .error e => return .ok (rfcCallError e)

/-- The description of the tool. -/
def rfcCallDescription : String :=
  "Execute an RFC function by name with a parameters object. Read-only mode (default) blocks any RFC not declared safe. Set commit=true to run it as a transactional write: the BAPI is followed by BAPI_TRANSACTION_COMMIT on success or BAPI_TRANSACTION_ROLLBACK on a BAPIRET2 error (requires --enable-writes). Errors carry structured codes (RFC_TIMEOUT, RFC_AUTH_FAILED, etc.)."

/-- A property of an input schema. -/
def property (entries : List (String × Value)) : Value :=
  .object (Map.ofEntries entries)

/-- The input schema of the tool. -/
def rfcCallSchema : Value :=
  property [("type", .string "object"),
    ("properties", property [
      ("function", property [("type", .string "string"),
        ("description", .string "RFC function name")]),
      ("parameters", property [("type", .string "object"),
        ("description", .string "Function parameter object")]),
      ("timeout_ms", property [("type", .string "integer"),
        ("minimum", .ofInt 100), ("maximum", .ofInt 600000),
        ("default", .ofInt 30000)]),
      ("require_read_only_safe", property [("type", .string "boolean"),
        ("default", .bool true)]),
      ("commit", property [("type", .string "boolean"),
        ("default", .bool false),
        ("description", .string "Run as a transactional write with automatic commit/rollback (requires --enable-writes).")])]),
    ("required", .array [.string "function"]),
    ("additionalProperties", .bool false)]

/-- `tool_rfc_call`. -/
def toolRfcCall (ctx : ServerContext) (serdeError : Value → String) :
    ToolDescriptor (ToolIface O) :=
  .new rfcCallName (some rfcCallDescription) rfcCallSchema
    (rfcCallHandler ctx serdeError)

-- ========================================================== what is asked

/-- A read-only write attempt asks nothing, and is refused. -/
theorem executeWriteBapi_readOnly (request : RfcCallRequest) :
    executeWriteBapi request true
      = .done (.error (readOnlyRefusal request.function)) := rfl

/-- A call, if it is one, made in read-only mode. -/
def CallsReadOnly : (ToolIface O).Query → Prop
  | .inl call => SapCall.readOnlyMode call = true
  | .inr _ => True

/-- In a read-only context the tool calls in read-only mode only. -/
theorem rfcCallHandler_asks {ctx : ServerContext} (h : ctx.readOnly = true)
    (serdeError : Value → String) (arguments : Value) :
    (rfcCallHandler (O := O) ctx serdeError arguments).Asks CallsReadOnly := by
  unfold rfcCallHandler
  cases hrequest : rfcCallRequest arguments with
  | none => trivial
  | some request =>
      show Prog.Asks _ (if _ then _ else _)
      rw [h, executeWriteBapi_readOnly]
      by_cases hcommit : ((arguments.get "commit").bind Value.asBool).getD false
          = true
      · rw [if_pos hcommit]
        exact ⟨trivial, fun _ => trivial⟩
      · rw [if_neg hcommit]
        refine ⟨rfl, fun r => ?_⟩
        cases r <;> trivial

end SapAutomate.Server
