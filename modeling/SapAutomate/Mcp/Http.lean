/-
The HTTP transport (`mcp-transport/src/http.rs`), its `POST /mcp`: a
request that passes the checks of its origin and of its token has its
message dispatched, without elicitation (`Server::dispatch_message`), and
the reply is its response.

Handlers of requests run side by side. The body has been read as JSON; the
text for one that is no message is given. A header that is no visible
ASCII is as one that is missing.
-/
import SapAutomate.Lib.Pool
import SapAutomate.Mcp.Elicit

namespace SapAutomate.Mcp.Http

open Interact Json

/-- `HttpServerConfig`, as far as requests are checked against it. -/
structure HttpServerConfig where
  bearerToken : Option String
  allowedOrigins : List String

/-- A `POST /mcp`: two of its headers, and its body. -/
structure PostRequest where
  origin : Option String
  authorization : Option String
  body : Value

/-- What a request is answered with. -/
inductive PostReply where
  | forbidden
  | unauthorized
  | badRequest (text : String)
  | json (reply : Message)
  | accepted

/-- `check_auth`. -/
def checkAuth (expected authorization : Option String) : Bool :=
  match expected with
  | none => true
  | some token => authorization == some ("Bearer " ++ token)

/-- `check_origin`. -/
def checkOrigin (allowed : List String) (origin : Option String) : Bool :=
  if allowed.isEmpty then true
  else
    match origin with
    | none => false
    | some o => allowed.any (· == o)

variable {O : Iface}

/-- `post_handler`, for a server. -/
def postHandler (config : HttpServerConfig) (serdeError : Value → String)
    (srv : Server (HandlerIface O)) (r : PostRequest) :
    Prog (ServerIface O) PostReply :=
  if !checkOrigin config.allowedOrigins r.origin then .done .forbidden
  else if !checkAuth config.bearerToken r.authorization then
    .done .unauthorized
  else
    match Message.fromValue r.body with
    | none => .done (.badRequest (serdeError r.body))
    | some message => do
        match ← (srv.dispatchMessage message).interp (serve false) with
        | some reply => return .json reply
        | none => return .accepted

/-- Requests side by side, whatever their tools talk to. -/
def machine {W σ : Type} (world : Shared (ServerIface O) W σ) (s : σ)
    (config : HttpServerConfig) (serdeError : Value → String)
    (srv : Server (HandlerIface O)) :
    Machine (PoolAct PostRequest W)
      (Pool (ServerIface O) PostRequest W σ PostReply) :=
  poolMachine world (postHandler config serdeError srv) s

end SapAutomate.Mcp.Http
