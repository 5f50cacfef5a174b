/-
The server (`mcp-server/src/{registry,server}.rs`): tools are registered
with an exposure, the builder keeps those its policy allows, and a
request for a tool is answered from what was kept.

Handlers are programs over an interface `I`, whatever it is they talk
to. The methods that do not concern tools are one handler of the
server.
-/
import SapAutomate.Lib.Interact
import SapAutomate.Mcp.Protocol

namespace SapAutomate.Mcp

open Interact Json

-- ============================================================== registry

/-- `ToolExposure`. -/
inductive ToolExposure where
  | readOnly
  | writes
  deriving DecidableEq

/-- `ExposurePolicy`. -/
inductive ExposurePolicy where
  | readOnlyOnly
  | all
  deriving DecidableEq

/-- `ToolHandler::call`. -/
abbrev ToolHandler (I : Iface) := Value → Prog I (McpResult CallToolResult)

/-- `ToolDescriptor`. -/
structure ToolDescriptor (I : Iface) where
  tool : Tool
  handler : ToolHandler I
  exposure : ToolExposure

variable {I : Iface}

namespace ToolDescriptor

/-- `ToolDescriptor::new`. -/
def new (name : String) (description : Option String) (inputSchema : Value)
    (handler : ToolHandler I) : ToolDescriptor I :=
  ⟨⟨name, description, inputSchema⟩, handler, .readOnly⟩

/-- `ToolDescriptor::with_writes`. -/
def withWrites (d : ToolDescriptor I) : ToolDescriptor I :=
  { d with exposure := .writes }

/-- `ToolDescriptor::is_allowed_by`. -/
def isAllowedBy (d : ToolDescriptor I) : ExposurePolicy → Bool
  | .readOnlyOnly =>
      match d.exposure with
      | .readOnly => true
      | .writes => false
  | .all => true

end ToolDescriptor

/-- The tools by name, in some order: a `HashMap`. -/
abbrev ToolMap (I : Iface) := List (String × ToolDescriptor I)

namespace ToolMap

/-- `HashMap::get`. -/
def get (tools : ToolMap I) (name : String) : Option (ToolDescriptor I) :=
  (tools.find? fun e => e.1 == name).map Prod.snd

/-- `HashMap::insert`. -/
def insert (tools : ToolMap I) (name : String) (d : ToolDescriptor I) :
    ToolMap I :=
  tools.filter (fun e => e.1 != name) ++ [(name, d)]

end ToolMap

-- =============================================================== builder

/-- `Server`: the tools kept, and what serves the methods that do not
concern tools. `serdeError` is the text of the deserialisation error for
parameters that are no `CallToolParams`. -/
structure Server (I : Iface) where
  tools : ToolMap I
  exposure : ExposurePolicy
  others : Request → Prog I (McpResult Value)
  serdeError : Value → String

/-- `ServerBuilder`. -/
structure ServerBuilder (I : Iface) where
  tools : ToolMap I
  exposure : ExposurePolicy
  others : Request → Prog I (McpResult Value)
  serdeError : Value → String

namespace ServerBuilder

/-- `ServerBuilder::new`. -/
def new (others : Request → Prog I (McpResult Value))
    (serdeError : Value → String) : ServerBuilder I :=
  ⟨[], .readOnlyOnly, others, serdeError⟩

/-- `ServerBuilder::exposure`. -/
def withExposure (b : ServerBuilder I) (policy : ExposurePolicy) :
    ServerBuilder I :=
  { b with exposure := policy }

/-- `ServerBuilder::tool`. -/
def tool (b : ServerBuilder I) (d : ToolDescriptor I) : ServerBuilder I :=
  { b with tools := b.tools.insert d.tool.name d }

/-- Registrations one after the other. -/
def register (b : ServerBuilder I) (ds : List (ToolDescriptor I)) :
    ServerBuilder I :=
  ds.foldl tool b

/-- `ServerBuilder::build`. -/
def build (b : ServerBuilder I) : Server I :=
  { tools := b.tools.filter fun e => e.2.isAllowedBy b.exposure
    exposure := b.exposure
    others := b.others
    serdeError := b.serdeError }

end ServerBuilder

-- ============================================================== dispatch

namespace Server

variable (srv : Server I)

/-- `tools/list`. -/
def toolsList : Value :=
  .object [("tools", .array (srv.tools.map fun e => e.2.tool.toJson))]

/-- `parse_params` for a tool call. -/
def callToolParams (params : Option Value) : McpResult CallToolParams :=
  let value := params.getD (.object [])
  match CallToolParams.ofJson value with
  | some p => .ok p
  | none => .error (.ofCode .invalidParams
      ("invalid params: " ++ srv.serdeError value))

/-- The error for a tool that is not there. -/
def unknownTool (name : String) : McpError :=
  .ofCode .unknownTool ("unknown tool '" ++ name ++ "'")

/-- `tools/call`: an error of the handler becomes an error result. -/
def toolsCall (params : Option Value) : Prog I (McpResult Value) :=
  match srv.callToolParams params with
  | .error e => .done (.error e)
  | .ok p =>
      match srv.tools.get p.name with
      | none => .done (.error (unknownTool p.name))
      | some d => do
          match ← d.handler (p.arguments.getD (.object [])) with
          | .ok result => return .ok result.toJson
          | .error e => return .ok (CallToolResult.error e.display).toJson

/-- The methods that do not concern tools. -/
def otherMethods : List String :=
  ["initialize", "resources/list", "resources/read", "prompts/list",
    "prompts/get", "logging/setLevel", "completion/complete"]

/-- `handle_method`. -/
def handleMethod (req : Request) : Prog I (McpResult Value) :=
  if req.method = "ping" then .done (.ok (.object []))
  else if req.method = "tools/list" then .done (.ok srv.toolsList)
  else if req.method = "tools/call" then srv.toolsCall req.params
  else if req.method ∈ otherMethods then srv.others req
  else .done (.error (.ofCode .methodNotFound
    ("method '" ++ req.method ++ "' not supported")))

/-- `dispatch`. -/
def dispatch (req : Request) : Prog I Response := do
  match ← srv.handleMethod req with
  | .ok result => return .success req.id result
  | .error e => return .failure req.id e.toObject

/-- `dispatch_message`. -/
def dispatchMessage : Message → Prog I (Option Message)
  | .request req => do
      let response ← srv.dispatch req
      return some (.response response)
  | .notification _ => .done none
  | .response _ => .done none

/-- One message after the other. -/
def serve : List Message → Prog I (List (Option Message))
  | [] => .done []
  | m :: ms => do
      let answer ← srv.dispatchMessage m
      let answers ← serve ms
      return answer :: answers

-- =========================================================== what is asked

variable {srv} {P : I.Query → Prop}

/-- A server asks no more than its tools and other methods do: one
message. -/
theorem dispatchMessage_asks
    (htools : ∀ e ∈ srv.tools, ∀ args, (e.2.handler args).Asks P)
    (hothers : ∀ req, (srv.others req).Asks P) (m : Message) :
    (srv.dispatchMessage m).Asks P := by
  cases m with
  | response resp => trivial
  | notification n => trivial
  | request req =>
      refine Prog.asks_bind (Prog.asks_bind ?_ fun r => ?_) fun _ => trivial
      · unfold handleMethod
        by_cases hping : req.method = "ping"
        · rw [if_pos hping]
          trivial
        · rw [if_neg hping]
          by_cases hlist : req.method = "tools/list"
          · rw [if_pos hlist]
            trivial
          · rw [if_neg hlist]
            by_cases hcall : req.method = "tools/call"
            · rw [if_pos hcall]
              unfold toolsCall
              cases hparams : srv.callToolParams req.params with
              | error e => trivial
              | ok p =>
                  show Prog.Asks P (match srv.tools.get p.name with
                    | none => _
                    | some d => _)
                  cases hget : srv.tools.get p.name with
                  | none => trivial
                  | some d =>
                      obtain ⟨e, he, rfl⟩ := Option.map_eq_some_iff.mp hget
                      refine Prog.asks_bind
                        (htools e (List.mem_of_find?_eq_some he) _) fun r => ?_
                      cases r <;> trivial
            · rw [if_neg hcall]
              by_cases hother : req.method ∈ otherMethods
              · rw [if_pos hother]
                exact hothers req
              · rw [if_neg hother]
                trivial
      · cases r <;> trivial

/-- And so any run of messages. -/
theorem serve_asks
    (htools : ∀ e ∈ srv.tools, ∀ args, (e.2.handler args).Asks P)
    (hothers : ∀ req, (srv.others req).Asks P) :
    ∀ ms : List Message, (srv.serve ms).Asks P
  | [] => trivial
  | m :: ms =>
      Prog.asks_bind (dispatchMessage_asks htools hothers m) fun _ =>
        Prog.asks_bind (serve_asks htools hothers ms) fun _ => trivial

-- =============================================================== refusals

/-- A call of a tool that is not there is answered at once. -/
theorem dispatch_unknownTool {req : Request} {p : CallToolParams}
    (hmethod : req.method = "tools/call")
    (hparams : CallToolParams.ofJson (req.params.getD (.object [])) = some p)
    (hget : srv.tools.get p.name = none) :
    srv.dispatch req = .done (.failure req.id (unknownTool p.name).toObject) := by
  have hcall : srv.callToolParams req.params = .ok p := by
    unfold callToolParams
    simp only [hparams]
  have htools : srv.toolsCall req.params
      = .done (.error (unknownTool p.name)) := by
    unfold toolsCall
    rw [hcall]
    show (match srv.tools.get p.name with
      | none => _
      | some d => _) = _
    rw [hget]
  have hhandle : srv.handleMethod req
      = .done (.error (unknownTool p.name)) := by
    unfold handleMethod
    rw [hmethod, if_neg (by decide), if_neg (by decide), if_pos rfl, htools]
  unfold dispatch
  rw [hhandle]
  rfl

end Server

-- ========================================================== what is kept

/-- What the map holds was there before or has been registered. -/
theorem ServerBuilder.mem_register {b : ServerBuilder I}
    {ds : List (ToolDescriptor I)} {e : String × ToolDescriptor I}
    (he : e ∈ (b.register ds).tools) :
    e ∈ b.tools ∨ ∃ d ∈ ds, e = (d.tool.name, d) := by
  induction ds generalizing b with
  | nil => exact .inl he
  | cons d ds ih =>
      rcases ih (b := b.tool d) he with hmem | ⟨d', hd', heq⟩
      · rcases List.mem_append.mp hmem with hmem | hmem
        · exact .inl (List.mem_filter.mp hmem).1
        · exact .inr ⟨d, List.mem_cons_self .., List.mem_singleton.mp hmem⟩
      · exact .inr ⟨d', List.mem_cons_of_mem _ hd', heq⟩

theorem ServerBuilder.register_exposure (b : ServerBuilder I)
    (ds : List (ToolDescriptor I)) : (b.register ds).exposure = b.exposure := by
  induction ds generalizing b with
  | nil => rfl
  | cons d ds ih => exact ih (b.tool d)

/-- What a server keeps: tools registered and allowed, under their
names. -/
theorem ServerBuilder.mem_build {b : ServerBuilder I} (hb : b.tools = [])
    {ds : List (ToolDescriptor I)} {e : String × ToolDescriptor I}
    (he : e ∈ (b.register ds).build.tools) :
    e.2 ∈ ds ∧ e.1 = e.2.tool.name ∧ e.2.isAllowedBy b.exposure = true := by
  obtain ⟨hmem, hallowed⟩ := List.mem_filter.mp he
  rw [register_exposure] at hallowed
  rcases mem_register hmem with hmem | ⟨d, hd, rfl⟩
  · rw [hb] at hmem
    cases hmem
  · exact ⟨hd, rfl, hallowed⟩

/-- A read-only policy allows the tools that only read. -/
theorem ToolDescriptor.isAllowedBy_readOnlyOnly {d : ToolDescriptor I} :
    d.isAllowedBy .readOnlyOnly = true ↔ d.exposure = .readOnly := by
  unfold isAllowedBy
  cases d.exposure <;> simp

end SapAutomate.Mcp
