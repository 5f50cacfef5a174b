/-
The protocol types (`mcp-core/src/{jsonrpc,error,protocol}.rs`):
JSON-RPC messages, the error taxonomy, tools and their results, with
the JSON they are sent as.
-/
import SapAutomate.Json.Serde

namespace SapAutomate.Mcp

open Json

-- ============================================================== messages

/-- `Id`. -/
inductive Id where
  | number (n : Int)
  | string (s : String)
  | null
  deriving DecidableEq

/-- `JSONRPC_VERSION`. -/
def jsonrpcVersion : String := "2.0"

/-- `Request`. -/
structure Request where
  jsonrpc : String
  id : Id
  method : String
  params : Option Value

/-- `Notification`. -/
structure Notification where
  jsonrpc : String
  method : String
  params : Option Value

/-- `ErrorObject`. -/
structure ErrorObject where
  code : Int
  message : String
  data : Option Value

/-- `Response`. -/
structure Response where
  jsonrpc : String
  id : Id
  result : Option Value
  error : Option ErrorObject

/-- `Response::success`. -/
def Response.success (id : Id) (result : Value) : Response :=
  ⟨jsonrpcVersion, id, some result, none⟩

/-- `Response::failure`. -/
def Response.failure (id : Id) (error : ErrorObject) : Response :=
  ⟨jsonrpcVersion, id, none, some error⟩

/-- `Message`. -/
inductive Message where
  | request (req : Request)
  | response (resp : Response)
  | notification (n : Notification)

-- ================================================================ errors

/-- `ErrorCode`. -/
inductive ErrorCode where
  | parseError
  | invalidRequest
  | methodNotFound
  | invalidParams
  | internalError
  | timeout
  | toolBusy
  | upstreamUnavailable
  | accessDenied
  | schemaViolation
  | unknownTool
  | partialResult
  | staleCache
  deriving DecidableEq

/-- `ErrorCode::as_i32`. -/
def ErrorCode.asI32 : ErrorCode → Int
  | .parseError => -32700
  | .invalidRequest => -32600
  | .methodNotFound => -32601
  | .invalidParams => -32602
  | .internalError => -32603
  | .timeout => -32100
  | .toolBusy => -32004
  | .upstreamUnavailable => -32101
  | .accessDenied => -32200
  | .schemaViolation => -32201
  | .unknownTool => -32202
  | .partialResult => -32300
  | .staleCache => -32301

/-- `Error`; `json` and `io` carry the text of the error they wrap. -/
inductive McpError where
  | json (text : String)
  | io (text : String)
  | protocol (code : Int) (message : String)
  | transportClosed
  | transport (text : String)
  | invalidResponse (text : String)
  | timeout
  | other (text : String)

/-- `Result<T>`. -/
abbrev McpResult (α : Type) := Except McpError α

namespace McpError

/-- `Error::protocol`. -/
def ofCode (code : ErrorCode) (message : String) : McpError :=
  .protocol code.asI32 message

/-- The `Display` text. -/
def display : McpError → String
  | .json t => "JSON serialisation: " ++ t
  | .io t => "I/O: " ++ t
  | .protocol code message =>
      "MCP protocol error (" ++ String.ofList (decimal code) ++ "): " ++ message
  | .transportClosed => "transport closed"
  | .transport t => "transport error: " ++ t
  | .invalidResponse t => "invalid response: " ++ t
  | .timeout => "call timed out"
  | .other t => t

/-- `error_object`. -/
def toObject : McpError → ErrorObject
  | .protocol code message => ⟨code, message, none⟩
  | .json t => ⟨ErrorCode.parseError.asI32, t, none⟩
  | .io t => ⟨ErrorCode.internalError.asI32, t, none⟩
  | e => ⟨ErrorCode.internalError.asI32, e.display, none⟩

end McpError

-- ================================================================= tools

/-- `Tool`, its input schema as the JSON it is sent as. -/
structure Tool where
  name : String
  description : Option String
  inputSchema : Value

/-- A tool as listed. -/
def Tool.toJson (t : Tool) : Value :=
  .object (Map.ofEntries
    (("name", .string t.name)
      :: (t.description.toList.map fun d => ("description", .string d))
      ++ [("inputSchema", t.inputSchema)]))

/-- `CallToolParams`. -/
structure CallToolParams where
  name : String
  arguments : Option Value

/-- `CallToolParams` from JSON. -/
def CallToolParams.ofJson (v : Value) : Option CallToolParams := do
  let fields ← v.structFields ["name", "arguments"]
  let name ← (fields "name").bind Value.asStr
  return ⟨name, Value.optionField (fields "arguments")⟩

/-- `CallToolResult`: the texts of its content, the only kind of content
a handler here returns. -/
structure CallToolResult where
  content : List String
  isError : Bool

namespace CallToolResult

/-- `CallToolResult::text`. -/
def text (s : String) : CallToolResult := ⟨[s], false⟩

/-- `CallToolResult::error`. -/
def error (s : String) : CallToolResult := ⟨[s], true⟩

/-- A result as sent. -/
def toJson (r : CallToolResult) : Value :=
  .object (Map.ofEntries
    [("content", .array (r.content.map fun t =>
      .object (Map.ofEntries [("type", .string "text"), ("text", .string t)]))),
      ("isError", .bool r.isError)])

end CallToolResult

end SapAutomate.Mcp
