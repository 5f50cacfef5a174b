/-
Elicitation and the client's capability: what `run_stdio` asks of a
client that has not said it can elicit.

`run_stdio` makes its elicitation handle an enabled one before anything
is read, and `initialize` does not reach it. So whether the client is
asked is up to the tools alone: an elicitation begins with a number for
its request (`fetchId`), and a run in which none begins before the client
has advertised the capability is disciplined (`disciplined_of_meets`).
-/
import SapAutomate.Proofs.Shutdown

namespace Interact

variable {I J : Iface} {α β : Type}

theorem Prog.asks_interp {P : J.Query → Prop}
    {impl : (q : I.Query) → Prog J (I.Reply q)}
    (himpl : ∀ q, (impl q).Asks P) (p : Prog I α) : (p.interp impl).Asks P := by
  induction p with
  | done a => trivial
  | ask q k ih => exact asks_bind (himpl q) ih

end Interact

namespace SapAutomate.Mcp

open Interact Json

/-- The request is an `initialize` that advertises elicitation. -/
def Request.advertises (req : Request) : Bool :=
  match req.initializeParams with
  | some p => p.capabilities.supportsElicitation
  | none => false

namespace Stdio

variable {O : Iface} {srv : Server (HandlerIface O)}

-- =========================================================== discipline

/-- The client has advertised elicitation: some `initialize` request taken
from the input does. -/
def State.Advertised (s : State O) : Prop :=
  ∃ req ∈ s.pool.calls, req.advertises = true

/-- What task `i` has put to its handler's interface, answered. -/
def HandlerAsked (srv : Server (HandlerIface O)) (s : State O) (i : Nat)
    (xs : List (Exchange (HandlerIface O))) : Prop :=
  ∃ t p tr, s.pool.tasks[i]? = some t ∧ (srv.dispatch t.call).Left xs p
    ∧ Prog.Unfolds (serve true) xs tr ∧ tr <+: s.pool.own i

/-- A client that has not advertised elicitation is sent no request for
one, and every elicitation of a tool has come back declined. -/
structure Disciplined (srv : Server (HandlerIface O)) (s : State O) :
    Prop where
  unsent : ¬ s.Advertised → ∀ req : Request,
    .request req ∈ s.desk.outbox.accepted → req.method ≠ "elicitation/create"
  declined : ¬ s.Advertised → ∀ i xs message schema r,
    HandlerAsked srv s i xs →
    (⟨.inl (.elicit message schema), r⟩ : Exchange (HandlerIface O)) ∈ xs →
    r = .decline

/-- A handler begins an elicitation, and the client has not advertised
it. -/
def EarlyElicit (a : Act O) (s : State O) : Prop :=
  ¬ s.Advertised ∧ ∃ i w t k, a = .resume i w ∧ s.pool.tasks[i]? = some t
    ∧ t.prog = atDesk .fetchId k

-- ============================================================ the tasks

/-- What tasks send: their responses, and requests under numbers. -/
def Outgoing : (ServerIface O).Query → Prop
  | .inl (.send m) => ∀ req, m = .request req → (Message.requestNumber m).isSome
  | _ => True

theorem elicit_outgoing (message : String) (schema : Value) :
    (ElicitationHandle.elicit true message schema :
      Prog (ServerIface O) ElicitationResult).Asks Outgoing := by
  unfold ElicitationHandle.elicit
  rw [if_pos rfl]
  refine ⟨trivial, fun id => ⟨trivial, fun _ => ⟨fun _ _ => rfl, fun ok => ?_⟩⟩⟩
  cases ok with
  | false => exact ⟨trivial, fun _ => trivial⟩
  | true =>
      refine ⟨trivial, fun r => ?_⟩
      cases r with
      | none => trivial
      | some response => trivial

theorem served_outgoing (req : Request) :
    (served srv true req).Asks Outgoing := by
  have hserve : ∀ q : (HandlerIface O).Query,
      (serve true q : Prog (ServerIface O) _).Asks Outgoing := by
    intro q
    rcases q with ⟨message, schema⟩ | q'
    · exact elicit_outgoing message schema
    · exact ⟨trivial, fun _ => trivial⟩
  refine Prog.asks_bind (Prog.asks_interp hserve _) fun response => ?_
  exact ⟨fun req h => (nomatch h), fun _ => trivial⟩

/-- Where no number has been fetched, no request has been sent. -/
theorem Sound.no_request {s : State O} (h : Sound srv s)
    (hnone : s.pool.history.filterMap fetchedId = []) (req : Request) :
    .request req ∉ s.desk.outbox.accepted := by
  rw [h.recorded.accepted]
  intro hin
  obtain ⟨x, hx, hacc⟩ := List.mem_filterMap.mp hin
  rw [acceptedMsg_eq_some.mp hacc] at hx
  obtain ⟨m, hm, hmx⟩ := List.mem_map.mp hx
  obtain ⟨t, ht⟩ : ∃ t, s.pool.tasks[m.task]? = some t :=
    ⟨_, List.getElem?_eq_getElem (h.tracked.known m hm)⟩
  have hown : sent (.request req) true ∈ s.pool.own m.task :=
    Pool.mem_own.mpr ⟨m, hm, rfl, hmx⟩
  have hnumber : (Message.requestNumber (.request req)).isSome :=
    (served_outgoing t.call).asked (h.tracked.left _ t ht) _ hown req rfl
  obtain ⟨id, hid⟩ := Option.isSome_iff_exists.mp hnumber
  have hasked : id ∈ (s.pool.own m.task).filterMap
      (sentNumber Message.requestNumber) :=
    List.mem_filterMap.mpr ⟨_, hown, hid⟩
  have hfetched := (h.tracked.orderly served_orderly m.reading
    ht).now.asked.subset hasked
  have hall : id ∈ s.pool.history.filterMap fetchedId :=
    ((Pool.own_sublist_history _).filterMap _).subset hfetched
  rw [hnone] at hall
  cases hall

theorem elicited_fetched {p : ElicitationParams}
    {tr : List (Exchange (ServerIface O))} {r : ElicitationResult}
    (h : Elicited p tr r) : ∃ id, fetched id ∈ tr := by
  cases h with
  | refused id => exact ⟨id, by simp⟩
  | dropped id => exact ⟨id, by simp⟩
  | answered id r => exact ⟨id, by simp⟩

/-- Nor has an elicitation come back. -/
theorem no_elicit {s : State O}
    (hnone : s.pool.history.filterMap fetchedId = []) {i : Nat}
    {xs : List (Exchange (HandlerIface O))} (hasked : HandlerAsked srv s i xs)
    {message : String} {schema : Value} {r : ElicitationResult} :
    (⟨.inl (.elicit message schema), r⟩ : Exchange (HandlerIface O)) ∉ xs := by
  intro hx
  obtain ⟨t, p, tr, -, -, hun, hpre⟩ := hasked
  obtain ⟨tr', hel, hsub⟩ := unfolds_elicited hun hx
  obtain ⟨id, hid⟩ := elicited_fetched hel
  have hall : id ∈ s.pool.history.filterMap fetchedId :=
    List.mem_filterMap.mpr ⟨_, (Pool.own_sublist_history i).subset
      (hpre.subset (hsub _ hid)), rfl⟩
  rw [hnone] at hall
  cases hall

-- ============================================================== the run

/-- Until the client advertises elicitation, no number is fetched. -/
def Unelicited (s : State O) : Prop :=
  ¬ s.Advertised → s.pool.history.filterMap fetchedId = []

/-- What a step leaves of the requests taken and of the exchanges. -/
theorem Unelicited.frame {s s' : State O} (h : Unelicited s)
    (hcalls : s.pool.calls <+: s'.pool.calls)
    (htrace : s'.pool.trace = s.pool.trace) : Unelicited s' := by
  intro hnot
  unfold Pool.history
  rw [htrace]
  apply h
  intro hadv
  obtain ⟨req, hreq, hyes⟩ := hadv
  exact hnot ⟨req, hcalls.subset hreq, hyes⟩

theorem goOn_calls {s s' : State O} (h : s.goOn srv = some s') :
    s.pool.calls <+: s'.pool.calls ∧ s'.pool.trace = s.pool.trace := by
  rcases goOn_cases h with ⟨m, -, -, rfl⟩ | ⟨-, -, -, rfl⟩ | ⟨x, -, rfl⟩
    | ⟨-, -, rfl⟩ | ⟨-, -, rfl⟩
  · cases m with
    | request req =>
        refine ⟨?_, rfl⟩
        show s.pool.calls <+: (s.pool.spawn req (served srv true req)).calls
        rw [Pool.calls_spawn]
        exact List.prefix_append _ _
    | notification n => exact ⟨List.prefix_refl _, rfl⟩
    | response r =>
        obtain ⟨jsonrpc, id, result, error⟩ := r
        cases id <;> exact ⟨List.prefix_refl _, rfl⟩
  · exact ⟨List.prefix_refl _, rfl⟩
  · exact ⟨List.prefix_refl _, rfl⟩
  · exact ⟨List.prefix_refl _, rfl⟩
  · exact ⟨List.prefix_refl _, rfl⟩

theorem Unelicited.resume {s : State O} (h : Unelicited s) {i : Nat}
    {w : Answers O} {p : Pool (ServerIface O) Request (Answers O)
      (Desk Message Response) Unit}
    (hres : s.pool.resume (serverShared O) i w = some p)
    (hearly : ¬ EarlyElicit (.resume i w) s) :
    Unelicited { s with pool := p } := by
  intro hnot
  have hcalls : p.calls = s.pool.calls := Pool.calls_resume hres
  have hbefore : ¬ s.Advertised := by
    intro hadv
    apply hnot
    obtain ⟨req, hreq, hyes⟩ := hadv
    exact ⟨req, hcalls ▸ hreq, hyes⟩
  obtain ⟨t, q, k, r, d, ht, hprog, -, rfl⟩ := Pool.resume_eq_some.mp hres
  unfold Pool.history
  rw [List.map_append, List.map_singleton]
  have hquiet : fetchedId (⟨q, r⟩ : Exchange (ServerIface O)) = none := by
    cases hf : fetchedId (⟨q, r⟩ : Exchange (ServerIface O)) with
    | none => rfl
    | some id =>
        have hq := fetchedId_eq_some.mp hf
        cases hq
        exact absurd ⟨hbefore, i, w, t, k, rfl, ht, hprog⟩ hearly
  rw [filterMap_skip hquiet]
  exact h hbefore

theorem Unelicited.step {a : Act O} {s s' : State O} (h : Unelicited s)
    (hearly : ¬ EarlyElicit a s)
    (hstep : (machine srv).step a s = some s') : Unelicited s' := by
  cases a with
  | resume i w =>
      obtain ⟨p, hres, rfl⟩ := Option.map_eq_some_iff.mp hstep
      exact h.resume hres hearly
  | recv x =>
      obtain ⟨-, rfl⟩ := recv_cases hstep
      cases x <;> exact h
  | forward =>
      obtain ⟨m, -, ⟨-, rfl⟩ | ⟨-, rfl⟩⟩ := forward_cases hstep
      · exact h
      · exact h
  | main =>
      obtain ⟨hcalls, htrace⟩ := goOn_calls hstep
      exact h.frame hcalls htrace
  | drain =>
      rcases drain_cases hstep with ⟨m, -, -, rfl⟩ | ⟨-, -, -, rfl⟩ | ⟨-, rfl⟩
      · exact h
      · exact h
      · exact h
  | write ok =>
      obtain ⟨m, -, ⟨-, rfl⟩ | ⟨-, rfl⟩⟩ := write_cases hstep
      · exact h
      · exact h

/-- A run in which no elicitation begins before the client has advertised
it is disciplined. -/
theorem disciplined_of_meets (srv : Server (HandlerIface O))
    (as : List (Act O)) (s : State O) (hrun : (machine srv).Runs as s)
    (hmeets : (machine srv).Meets (fun a s => ¬ EarlyElicit a s) as
      (machine srv).init) :
    Disciplined srv s := by
  have hsound : Sound srv s := .reachable ⟨as, hrun⟩
  have hquiet : Unelicited s :=
    Machine.run_invariant (fun a s s' hearly h hstep => h.step hearly hstep)
      (show Unelicited (machine srv).init from fun _ => rfl) hmeets hrun
  constructor
  · intro hnot req hin
    exact absurd hin (hsound.no_request (hquiet hnot) req)
  · intro hnot i xs message schema r hasked hx
    exact absurd hx (no_elicit (hquiet hnot) hasked)

-- ================================================================= runs

/-- A tool that asks its user. -/
def askTool : ToolDescriptor (HandlerIface NoIface) :=
  .new "ask" none (.object []) fun _ =>
    .ask (.inl (.elicit "Go on?" (.object []))) fun _ =>
      .done (.ok (.error "declined"))

def askServer : Server (HandlerIface NoIface) where
  tools := [("ask", askTool)]
  exposure := .readOnlyOnly
  others _ := .done (.ok (.object []))
  serdeError _ := ""

/-- A call of that tool. -/
def callAsk : Request :=
  ⟨"2.0", .number 1, "tools/call", some (.object [("name", .string "ask")])⟩

/-- The call is the first message, and its handler goes on up to its
send. -/
def firstCall : List (Act NoIface) :=
  [.recv (.message (.request callAsk)), .forward, .main,
    .resume 0 (fun q => nomatch q), .resume 0 (fun q => nomatch q),
    .resume 0 (fun q => nomatch q)]

/-- A client that has not initialized is asked. -/
theorem elicits_without_capability :
    ¬ ∀ (as : List (Act NoIface)) (s : State NoIface),
      (machine askServer).Runs as s → Disciplined askServer s := by
  intro h
  have hnot : ∀ s : State NoIface, s.pool.calls = [callAsk] →
      ¬ s.Advertised := by
    intro s hcalls hadv
    obtain ⟨req, hreq, hyes⟩ := hadv
    rw [hcalls] at hreq
    rw [List.mem_singleton.mp hreq] at hyes
    exact absurd hyes (by decide)
  refine (h firstCall _ rfl).unsent (hnot _ rfl)
    (ElicitationHandle.requestOf 1000000 ⟨"Go on?", .object []⟩) ?_ rfl
  exact List.mem_singleton_self _

/-- An `initialize` that advertises elicitation. -/
def handshake : Request :=
  ⟨"2.0", .number 0, "initialize", some (.object [
    ("protocolVersion", .string "2025-06-18"),
    ("capabilities", .object [("elicitation", .object [])]),
    ("clientInfo", .object [("name", .string "c"), ("version", .string "1")])])⟩

/-- The handshake comes first, and then the call. -/
def afterHandshake : List (Act NoIface) :=
  [.recv (.message (.request handshake)), .forward, .main,
    .recv (.message (.request callAsk)), .forward, .main,
    .resume 1 (fun q => nomatch q)]

theorem disciplined_after_handshake :
    ∃ s, (machine askServer).Runs afterHandshake s
      ∧ Disciplined askServer s := by
  refine ⟨_, rfl, disciplined_of_meets askServer afterHandshake _ rfl ?_⟩
  unfold afterHandshake
  iterate 6
    apply Machine.meets_cons rfl
    · intro hearly
      obtain ⟨-, i, w, t, k, ha, -⟩ := hearly
      cases ha
  apply Machine.meets_cons rfl
  · intro hearly
    exact hearly.1 ⟨handshake, List.mem_cons_self .., by decide⟩
  trivial

end Stdio

end SapAutomate.Mcp
