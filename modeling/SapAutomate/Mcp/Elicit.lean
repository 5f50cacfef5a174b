/-
Elicitation on the server (`mcp-server/src/elicit.rs`): a tool asks the
user, which is a request to the client under a number of the server's
own and a wait for its response.

A handler is a program over `HandlerIface O`: it elicits, and it asks
whatever else (`O`) the server's tools talk to. `served` is such a
program as a task of `run_stdio`.
-/
import SapAutomate.Lib.Requests
import SapAutomate.Mcp.Elicitation
import SapAutomate.Mcp.Server

namespace SapAutomate.Mcp

open Interact Json

/-- `mcp_server::elicit`. -/
inductive ElicitQuery where
  | elicit (message : String) (requestedSchema : Value)

abbrev ElicitIface : Iface := ⟨ElicitQuery, fun _ => ElicitationResult⟩

/-- What a handler of the server asks. -/
abbrev HandlerIface (O : Iface) : Iface := ElicitIface.sum O

/-- What a task of the server asks. -/
abbrev ServerIface (O : Iface) : Iface := AtDesk Message Response O

namespace ElicitationHandle

variable {O : Iface}

/-- `ElicitationHandle::parse_response`. -/
def parseResponse (r : Response) : ElicitationResult :=
  match r.error with
  | some _ => .cancel
  | none =>
      match r.result with
      | none => .cancel
      | some value => (ElicitationResult.ofJson value).getD .cancel

/-- The first number a server gives out. -/
def firstId : Int := 1000000

/-- The request of an elicitation. -/
def requestOf (id : Int) (p : ElicitationParams) : Request :=
  ⟨jsonrpcVersion, .number id, "elicitation/create", some p.toJson⟩

/-- `ElicitationHandle::elicit`. -/
def elicit (enabled : Bool) (message : String) (requestedSchema : Value) :
    Prog (ServerIface O) ElicitationResult :=
  if enabled then
    atDesk .fetchId fun id =>
    atDesk (.insert id) fun _ =>
    atDesk (.send (.request (requestOf id ⟨message, requestedSchema⟩)))
      fun ok =>
    if ok then
      atDesk (.await id) fun r =>
        match r with
        | some response => .done (parseResponse response)
        | none => .done .cancel
    else atDesk (.remove id) fun _ => .done .cancel
  else .done .decline

end ElicitationHandle

/-- What a handler asks, as its task does. -/
def serve {O : Iface} (enabled : Bool) :
    (q : (HandlerIface O).Query) →
      Prog (ServerIface O) ((HandlerIface O).Reply q)
  | .inl (.elicit message requestedSchema) =>
      ElicitationHandle.elicit enabled message requestedSchema
  | .inr q => .ask (.inr q) .done

/-- The task of a request: its response goes to the client, whether the
channel takes it or not. -/
def served {O : Iface} (srv : Server (HandlerIface O)) (enabled : Bool)
    (req : Request) : Prog (ServerIface O) Unit := do
  let response ← (srv.dispatch req).interp (serve enabled)
  atDesk (.send (.response response)) fun _ => .done ()

end SapAutomate.Mcp
