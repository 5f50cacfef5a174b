/-
What a server lets in over HTTP, and what it never does there.

A request that fails a check is answered without a question to anything
(`postHandler_barred`); one that passes asks nothing of a client, since an
elicitation is declined at once (`serve_alone`). So a workflow that needs
the user's consent gets none, and whatever it logs is no success
(`http_gated`).
-/
import SapAutomate.Mcp.Http
import SapAutomate.Proofs.Capability
import SapAutomate.Proofs.Consent

namespace SapAutomate.Mcp.Http

open Interact Json

variable {O : Iface} {config : HttpServerConfig} {serdeError : Value → String}
  {srv : Server (HandlerIface O)}

-- ============================================================== the checks

/-- The request comes from an origin that is allowed. -/
def OriginAllowed (config : HttpServerConfig) (r : PostRequest) : Prop :=
  config.allowedOrigins = [] ∨ ∃ o ∈ config.allowedOrigins, r.origin = some o

/-- It carries the token, where there is one. -/
def Authorized (config : HttpServerConfig) (r : PostRequest) : Prop :=
  ∀ token, config.bearerToken = some token →
    r.authorization = some ("Bearer " ++ token)

/-- It passes both checks. -/
def Permitted (config : HttpServerConfig) (r : PostRequest) : Prop :=
  OriginAllowed config r ∧ Authorized config r

theorem checkOrigin_iff {r : PostRequest} :
    checkOrigin config.allowedOrigins r.origin = true
      ↔ OriginAllowed config r := by
  unfold checkOrigin OriginAllowed
  cases config.allowedOrigins with
  | nil => simp
  | cons o os =>
      cases r.origin with
      | none => simp
      | some o' =>
          show (o :: os).any (· == o') = true ↔ _
          rw [List.any_eq_true]
          constructor
          · intro ⟨x, hx, heq⟩
            exact .inr ⟨x, hx, congrArg some (beq_iff_eq.mp heq).symm⟩
          · intro h
            rcases h with hnil | ⟨x, hx, heq⟩
            · cases hnil
            · exact ⟨x, hx, beq_iff_eq.mpr (Option.some.inj heq).symm⟩

theorem checkAuth_iff {r : PostRequest} :
    checkAuth config.bearerToken r.authorization = true
      ↔ Authorized config r := by
  unfold checkAuth Authorized
  cases config.bearerToken with
  | none => simp
  | some token =>
      constructor
      · intro h token' htoken
        rw [← Option.some.inj htoken]
        exact beq_iff_eq.mp h
      · intro h
        exact beq_iff_eq.mpr (h token rfl)

/-- What a request may be answered with. -/
def PostReply.Meets (config : HttpServerConfig) (serdeError : Value → String)
    (r : PostRequest) : PostReply → Prop
  | .forbidden => ¬ OriginAllowed config r
  | .unauthorized => OriginAllowed config r ∧ ¬ Authorized config r
  | .badRequest text => Permitted config r
      ∧ Message.fromValue r.body = none ∧ text = serdeError r.body
  | .json reply => Permitted config r ∧ ∃ req response,
      Message.fromValue r.body = some (.request req)
        ∧ reply = .response response ∧ response.id = req.id
  | .accepted => Permitted config r ∧ ∃ m, Message.fromValue r.body = some m
      ∧ ∀ req, m ≠ .request req

/-- A request that is not permitted is turned away at once. -/
theorem postHandler_barred {r : PostRequest} (h : ¬ Permitted config r) :
    ∃ reply, postHandler config serdeError srv r = .done reply
      ∧ reply.Meets config serdeError r := by
  unfold postHandler
  by_cases horigin : checkOrigin config.allowedOrigins r.origin = true
  · have hauth : checkAuth config.bearerToken r.authorization = false :=
      (Bool.not_eq_true _).mp fun hauth =>
        h ⟨checkOrigin_iff.mp horigin, checkAuth_iff.mp hauth⟩
    refine ⟨.unauthorized, ?_, checkOrigin_iff.mp horigin, fun hr => ?_⟩
    · rw [horigin, hauth]
      rfl
    · rw [checkAuth_iff.mpr hr] at hauth
      cases hauth
  · refine ⟨.forbidden, ?_, fun hr => horigin (checkOrigin_iff.mpr hr)⟩
    rw [(Bool.not_eq_true _).mp horigin]
    rfl

/-- One that is permitted has its message dispatched. -/
theorem postHandler_permitted {r : PostRequest} (h : Permitted config r) :
    postHandler config serdeError srv r
      = match Message.fromValue r.body with
        | none => .done (.badRequest (serdeError r.body))
        | some message =>
            (srv.dispatchMessage message).interp (serve false) >>= fun answer =>
              match answer with
              | some reply => .done (.json reply)
              | none => .done .accepted := by
  unfold postHandler
  rw [checkOrigin_iff.mpr h.1, checkAuth_iff.mpr h.2]
  rfl

-- ========================================================= no elicitation

/-- A handler alone asks only what the tools talk to. -/
theorem serve_alone (q : (HandlerIface O).Query) :
    (serve false q : Prog (ServerIface O) _).Asks
      fun q' => ∃ q'' : O.Query, q' = Sum.inr q'' := by
  cases q with
  | inl q =>
      cases q with
      | elicit message schema => trivial
  | inr q => exact ⟨⟨q, rfl⟩, fun _ => trivial⟩

theorem postHandler_asks (r : PostRequest) :
    (postHandler config serdeError srv r).Asks
      fun q => ∃ q' : O.Query, q = Sum.inr q' := by
  by_cases h : Permitted config r
  · rw [postHandler_permitted h]
    cases Message.fromValue r.body with
    | none => trivial
    | some message =>
        refine Prog.asks_bind (Prog.asks_interp serve_alone _) fun answer => ?_
        cases answer <;> trivial
  · obtain ⟨reply, hdone, -⟩ : ∃ reply,
        postHandler config serdeError srv r = .done reply
          ∧ reply.Meets config serdeError r := postHandler_barred h
    rw [hdone]
    trivial

/-- Whatever the answers, a request ends with a reply that meets it. -/
theorem postHandler_meets (r : PostRequest) :
    (postHandler config serdeError srv r).Sat
      fun _ reply => reply.Meets config serdeError r := by
  by_cases h : Permitted config r
  · rw [postHandler_permitted h]
    cases hm : Message.fromValue r.body with
    | none => exact ⟨h, hm, rfl⟩
    | some message =>
        cases message with
        | notification n => exact ⟨h, _, hm, fun req hreq => nomatch hreq⟩
        | response response => exact ⟨h, _, hm, fun req hreq => nomatch hreq⟩
        | request req =>
            refine Prog.sat_bind.mpr (Prog.sat_of_left fun tr answer hl => ?_)
            rcases Prog.left_interp hl with ⟨xs, answer', hxs, -, heq⟩
              | ⟨xs, tr₁, tr₂, q, k, q', k', -, -, -, -, heq⟩
            · cases heq
              rcases Prog.left_bind hxs with ⟨q, k, -, heq⟩
                | ⟨xs₁, xs₂, response, -, hdone, hrest⟩
              · cases heq
              · cases (Prog.left_done.mp hrest).2
                exact ⟨h, req, response, hm, rfl, Stdio.dispatch_id hdone⟩
            · cases heq
  · obtain ⟨reply, hdone, hmeets⟩ : ∃ reply,
        postHandler config serdeError srv r = .done reply
          ∧ reply.Meets config serdeError r := postHandler_barred h
    rw [hdone]
    exact hmeets

/-- Within a question alone nothing has been asked yet. -/
theorem serve_left_ask {q : (HandlerIface O).Query}
    {tr : List (Exchange (ServerIface O))} {q' : (ServerIface O).Query}
    {k : (ServerIface O).Reply q' →
      Prog (ServerIface O) ((HandlerIface O).Reply q)}
    (h : (serve false q).Left tr (.ask q' k)) : tr = [] := by
  match q, k, h with
  | .inl (.elicit message schema), k, h => cases (Prog.left_done.mp h).2
  | .inr q, k, h =>
      rcases Prog.left_ask.mp h with ⟨htr, -⟩ | ⟨r, tr', -, h'⟩
      · exact htr
      · cases (Prog.left_done.mp h').2

/-- What a permitted request has asked are questions of its handler. -/
theorem postHandler_left {r : PostRequest} {req : Request}
    (h : Permitted config r) (hm : Message.fromValue r.body = some (.request req))
    {tr : List (Exchange (ServerIface O))} {prog : Prog (ServerIface O) PostReply}
    (hl : (postHandler config serdeError srv r).Left tr prog) :
    ∃ xs prog', (srv.dispatch req).Left xs prog'
      ∧ Prog.Unfolds (serve false) xs tr := by
  have hmessage : ∃ xs prog', (srv.dispatchMessage (.request req)).Left xs prog'
      ∧ Prog.Unfolds (serve false) xs tr := by
    rw [postHandler_permitted h, hm] at hl
    rcases Prog.left_bind hl with ⟨q, k, hask, -⟩
      | ⟨tr₁, tr₂, answer, rfl, hdone, hrest⟩
    · rcases Prog.left_interp hask with ⟨xs, a, -, -, heq⟩
        | ⟨xs, tr₁, tr₂, q', k', q'', k'', hxs, hun, rfl, hserve, -⟩
      · cases heq
      · rw [serve_left_ask hserve, List.append_nil]
        exact ⟨xs, _, hxs, hun⟩
    · have hnil : tr₂ = [] := by
        cases answer with
        | none => exact (Prog.left_done.mp hrest).1
        | some reply => exact (Prog.left_done.mp hrest).1
      rw [hnil, List.append_nil]
      rcases Prog.left_interp hdone with ⟨xs, a, hxs, hun, -⟩
        | ⟨xs, tr₃, tr₄, q', k', q'', k'', -, -, -, -, heq⟩
      · exact ⟨xs, _, hxs, hun⟩
      · cases heq
  obtain ⟨xs, prog', hxs, hun⟩ := hmessage
  rcases Prog.left_bind hxs with ⟨q, k, hask, -⟩
    | ⟨xs₁, xs₂, response, rfl, hdone, hrest⟩
  · exact ⟨xs, _, hask, hun⟩
  · rw [(Prog.left_done.mp hrest).1, List.append_nil] at hun
    exact ⟨xs₁, _, hdone, hun⟩

/-- What a handler asks alone, its task does; and an answer of the user's
is that there is none. -/
theorem unfolds_alone {xs : List (Exchange (HandlerIface O))}
    {tr : List (Exchange (ServerIface O))}
    (h : Prog.Unfolds (serve false) xs tr) :
    (∀ (q : O.Query) (r : O.Reply q),
      (⟨.inr q, r⟩ : Exchange (ServerIface O)) ∈ tr →
        (⟨.inr q, r⟩ : Exchange (HandlerIface O)) ∈ xs)
    ∧ ∀ (e : ElicitQuery) (answer : ElicitationResult),
      (⟨.inl e, answer⟩ : Exchange (HandlerIface O)) ∈ xs →
        answer = .decline := by
  induction h with
  | nil => exact ⟨fun q r hx => (nomatch hx), fun e answer hx => nomatch hx⟩
  | @cons q' r' tr xs ys h hrest ih =>
      match q', r', h with
      | .inl (.elicit message schema), r', h =>
          obtain ⟨rfl, hr⟩ := Prog.left_done.mp h
          constructor
          · intro q r hx
            exact List.mem_cons_of_mem _ (ih.1 q r hx)
          · intro e answer hx
            rcases List.mem_cons.mp hx with hx | hx
            · cases hx
              exact Prog.done.inj hr
            · exact ih.2 e answer hx
      | .inr q', r', h =>
          rcases Prog.left_ask.mp h with ⟨-, hk⟩ | ⟨r'', tr', rfl, h'⟩
          · cases hk
          · obtain ⟨rfl, hr⟩ := Prog.left_done.mp h'
            cases hr
            constructor
            · intro q r hx
              rcases List.mem_append.mp hx with hx | hx
              · cases List.mem_singleton.mp hx
                exact List.mem_cons_self
              · exact List.mem_cons_of_mem _ (ih.1 q r hx)
            · intro e answer hx
              rcases List.mem_cons.mp hx with hx | hx
              · cases hx
              · exact ih.2 e answer hx

end SapAutomate.Mcp.Http

namespace SapAutomate.Server

open Interact Json Mcp Adt Http

variable {P : Iface}

/-- A task of a workflow over HTTP logs no success. -/
theorem post_unconfirmed {config : HttpServerConfig}
    {serdeError : Value → String} {env : Surroundings (WriteIface P)}
    {ctx : ServerContext} {texts : SerdeTexts} {readOnly : Bool}
    {r : PostRequest} {req : Request} (h : Permitted config r)
    (hm : Message.fromValue r.body = some (.request req)) {name : String}
    (hname : name ∈ confirming) {arguments : Value}
    {d : ToolDescriptor (ToolIface (WriteIface P))}
    (hinv : Invokes (buildServer (env.withWriteTools ctx texts) ctx readOnly)
      req name arguments d)
    {tr : List (Exchange (ServerIface (BackIface P)))}
    {prog : Prog (ServerIface (BackIface P)) PostReply}
    (hl : (postHandler config serdeError (sessionServer env ctx texts readOnly)
      r).Left tr prog) {entry : AuditEntry} (hentry : logged entry ∈ tr) :
    entry.outcome.isOk = false := by
  obtain ⟨xs, prog', hxs, hun⟩ := postHandler_left h hm hl
  obtain ⟨hrest, hdeclined⟩ := unfolds_alone hun
  refine (Bool.not_eq_true _).mp fun hok => ?_
  obtain ⟨message, schema, answer, hasked, haction, -⟩ :=
    success_accepted hname hinv hxs (hrest _ _ hentry) hok
  -- the only answer there is, is to decline
  rw [hdeclined _ _ hasked] at haction
  cases haction

/-- In every state that requests over HTTP reach, side by side and whatever
their tools talk to: a request that is not permitted has asked nothing and
is over; none has asked anything of a client; the reply to each is what its
checks and its body make it; and where it calls a workflow that confirms
with the user, no success has been logged. -/
theorem http_gated {W σ : Type}
    (world : Shared (ServerIface (BackIface P)) W σ) (s : σ)
    (config : HttpServerConfig) (serdeError : Value → String)
    (env : Surroundings (WriteIface P)) (ctx : ServerContext)
    (texts : SerdeTexts) (readOnly : Bool)
    (p : Pool (ServerIface (BackIface P)) PostRequest W σ PostReply)
    (hp : (Http.machine world s config serdeError
      (sessionServer env ctx texts readOnly)).Reachable p) (i : Nat)
    (t : Task (ServerIface (BackIface P)) PostRequest PostReply)
    (ht : p.tasks[i]? = some t) :
    (¬ Permitted config t.call →
      p.own i = [] ∧ ∃ reply, t.prog = .done reply)
    ∧ (∀ x ∈ p.own i, ∃ q : (BackIface P).Query, x.query = Sum.inr q)
    ∧ (∀ reply, t.prog = .done reply → reply.Meets config serdeError t.call)
    ∧ ∀ req name arguments d,
      Message.fromValue t.call.body = some (.request req) →
      name ∈ confirming →
      Invokes (buildServer (env.withWriteTools ctx texts) ctx readOnly) req
        name arguments d →
      ∀ entry, logged entry ∈ p.own i → entry.outcome.isOk = false := by
  have htracked := poolMachine_tracked hp
  have hleft := htracked.left i t ht
  have hbarred : ¬ Permitted config t.call →
      p.own i = [] ∧ ∃ reply, t.prog = .done reply := by
    intro h
    obtain ⟨reply, hdone, -⟩ : ∃ reply,
        postHandler config serdeError (sessionServer env ctx texts readOnly)
            t.call = .done reply
          ∧ reply.Meets config serdeError t.call := postHandler_barred h
    rw [hdone] at hleft
    obtain ⟨hown, hprog⟩ := Prog.left_done.mp hleft
    exact ⟨hown, reply, hprog⟩
  refine ⟨hbarred, (postHandler_asks t.call).asked hleft, ?_, ?_⟩
  · intro reply hdone
    exact htracked.result ht hdone (postHandler_meets t.call)
  · intro req name arguments d hm hname hinv entry hentry
    by_cases h : Permitted config t.call
    · exact post_unconfirmed h hm hname hinv hleft hentry
    · rw [(hbarred h).1] at hentry
      cases hentry

deriving instance DecidableEq for PostRequest

/-- One origin, and a token. -/
def localConfig : HttpServerConfig := ⟨some "secret", ["http://localhost:3000"]⟩

/-- A release that is asked for over HTTP. -/
def postedRelease : PostRequest where
  origin := some "http://localhost:3000"
  authorization := some "Bearer secret"
  body := (Message.request
    (callTool releaseTransportName (.object []))).toValue

def guessedToken : PostRequest :=
  { postedRelease with authorization := some "Bearer guess" }

abbrev postMachine : Machine (PoolAct PostRequest (Answers (BackIface NoMore)))
    (Pool (ServerIface (BackIface NoMore)) PostRequest
      (Answers (BackIface NoMore)) (Desk Message Response) PostReply) :=
  Http.machine (deskShared 64 Message Response (BackIface NoMore))
    (.new ElicitationHandle.firstId) localConfig (fun _ => "") releaseServer

def postRun : List (PoolAct PostRequest (Answers (BackIface NoMore))) :=
  [.spawn postedRelease, .spawn guessedToken, .resume 0 backAnswers]

theorem postRun_ends :
    (postMachine.run postRun postMachine.init).any (fun p =>
      decide (p.tasks.map Task.call = [postedRelease, guessedToken])
        && (p.own 0).any fun x => (loggedEntry x).isSome) = true := by
  decide +kernel

theorem http_gated_release :
    ∃ p entry,
      postMachine.Runs postRun p
        ∧ p.tasks.map Task.call = [postedRelease, guessedToken]
        ∧ logged entry ∈ p.own 0 ∧ entry.outcome.isOk = false
        ∧ p.own 1 = [] := by
  obtain ⟨p, hp, hend⟩ := (Option.any_eq_true ..).mp postRun_ends
  simp only [Bool.and_eq_true, decide_eq_true_eq, List.any_eq_true] at hend
  obtain ⟨hcalls, x, hx, hlogged⟩ := hend
  obtain ⟨entry, hentry⟩ := Option.isSome_iff_exists.mp hlogged
  rw [loggedEntry_eq_some hentry] at hx
  obtain ⟨t, ht, htcall⟩ : ∃ t, p.tasks[0]? = some t ∧ t.call = postedRelease := by
    have h : (p.tasks.map Task.call)[0]? = some postedRelease := by rw [hcalls]; rfl
    rw [List.getElem?_map] at h
    exact Option.map_eq_some_iff.mp h
  obtain ⟨u, hu, hucall⟩ : ∃ u, p.tasks[1]? = some u ∧ u.call = guessedToken := by
    have h : (p.tasks.map Task.call)[1]? = some guessedToken := by rw [hcalls]; rfl
    rw [List.getElem?_map] at h
    exact Option.map_eq_some_iff.mp h
  have hgated := http_gated (deskShared 64 Message Response (BackIface NoMore))
    (.new ElicitationHandle.firstId) localConfig (fun _ => "") restSurroundings
    writeContext plainTexts false p ⟨_, hp⟩
  have hm : Message.fromValue t.call.body
      = some (.request (callTool releaseTransportName (.object []))) := by
    rw [htcall]
    exact Message.fromValue_toValue (by simp [callTool, Message.Fits, Id.Fits])
  have hguess : ¬ Permitted localConfig u.call := by
    intro h
    rw [hucall] at h
    exact absurd (h.2 "secret" rfl) (by decide)
  refine ⟨p, entry, hp, hcalls, hx, ?_, ((hgated 1 u hu).1 hguess).1⟩
  exact (hgated 0 t ht).2.2.2 _ _ _ _ hm (by simp [confirming])
    (callTool_invokes releaseTransportName (.object []) (by simp [writeTools])
      rfl) entry hx

end SapAutomate.Server
