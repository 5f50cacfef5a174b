/-
The server of the tools as one side of a session
(`sap-automate-server/src/main.rs`): what its handlers ask the user is
an elicitation of the session, and the rest is asked as before.
-/
import SapAutomate.Server.WriteTools

namespace SapAutomate.Mcp

open Interact Json

variable {I J : Iface}

/-- A tool whose handler's questions are replaced by programs. -/
def ToolDescriptor.interp (impl : (q : I.Query) → Prog J (I.Reply q))
    (d : ToolDescriptor I) : ToolDescriptor J where
  tool := d.tool
  handler arguments := (d.handler arguments).interp impl
  exposure := d.exposure

/-- And a server of such tools. -/
def Server.interp (impl : (q : I.Query) → Prog J (I.Reply q))
    (srv : Server I) : Server J where
  tools := srv.tools.map fun e => (e.1, e.2.interp impl)
  exposure := srv.exposure
  others req := (srv.others req).interp impl
  serdeError := srv.serdeError

end SapAutomate.Mcp

namespace SapAutomate.Server

open Interact Json Mcp Rfc Adt

variable {P : Iface}

/-- What the tools ask, without the user. -/
abbrev BackIface (P : Iface) : Iface :=
  SapIface.sum (AuditIface.sum (AdtIface.sum P))

/-- A question of a tool, as its session takes it. -/
def onSession : (q : (ToolIface (WriteIface P)).Query) →
    Prog (HandlerIface (BackIface P)) ((ToolIface (WriteIface P)).Reply q)
  | .inl call => .ask (.inr (.inl call)) .done
  | .inr (.inl entry) => .ask (.inr (.inr (.inl entry))) .done
  | .inr (.inr (.inl e)) => .ask (.inl e) .done
  | .inr (.inr (.inr (.inl call))) => .ask (.inr (.inr (.inr (.inl call)))) .done
  | .inr (.inr (.inr (.inr q))) => .ask (.inr (.inr (.inr (.inr q)))) .done

/-- The server of the tools on a session. -/
def sessionServer (env : Surroundings (WriteIface P)) (ctx : ServerContext)
    (texts : SerdeTexts) (readOnly : Bool) :
    Server (HandlerIface (BackIface P)) :=
  (buildServer (env.withWriteTools ctx texts) ctx readOnly).interp onSession

end SapAutomate.Server
