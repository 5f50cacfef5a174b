/-
Is every write invocation audited? Requests are dispatched side by side,
in any order, over any SAP client and any answers; `session` is that
machine, and what its tasks share is the sink.

Each write tool has one lemma (`activate_run`, `purchaseOrder_run`, …):
its handler leaves one entry that agrees with its result, just where the
arguments are accepted, and none else. `abap.adt.activate` leaves none at
all, nor does `sap.rfc.call` without a commit.
-/
import SapAutomate.Proofs.AuditSecrecy
import SapAutomate.Proofs.ReadOnly
import SapAutomate.Server.WriteTools

namespace Interact

variable {I J K : Iface} {α β : Type}

namespace Prog

/-- A postcondition of the lifted program, from one of the program. -/
theorem sat_inr {p : Prog J α} {Φ : List (Exchange (I.sum J)) → α → Prop}
    (h : p.Sat fun tr a => Φ (tr.map fun x => ⟨.inr x.query, x.reply⟩) a) :
    (p.inr : Prog (I.sum J) α).Sat Φ := by
  induction p generalizing Φ with
  | done a => exact h
  | ask q k ih => exact fun r => ih r (h r)

theorem bind_assoc {γ : Type} (p : Prog I α) (f : α → Prog I β)
    (g : β → Prog I γ) : ((p >>= f) >>= g) = (p >>= fun a => f a >>= g) := by
  induction p with
  | done a => rfl
  | ask q k ih => exact congrArg (Prog.ask q) (funext ih)

/-- A program on the right keeps its questions. -/
theorem interpLeft_inr_bind (impl : (q : I.Query) → Prog J (I.Reply q))
    (p : Prog K α) (f : α → Prog (I.sum K) β) :
    (((p.inr : Prog (I.sum K) α) >>= f).interpLeft impl)
      = ((p.inr : Prog (J.sum K) α) >>= fun a => (f a).interpLeft impl) := by
  induction p with
  | done a => rfl
  | ask q k ih =>
      exact congrArg (Prog.ask (I := J.sum K) (Sum.inr q)) (funext ih)

end Prog

/-- The answers at one reading. -/
def Env.reading {W σ : Type}
    (answer : W → (q : I.Query) → σ → I.Reply q × σ) (w : W) : Env I σ where
  answer := answer w

/-- A call that runs alone, at one reading, as its program does. -/
theorem poolMachine_alone {C W σ : Type}
    (answer : W → (q : I.Query) → σ → I.Reply q × σ) (body : C → Prog I α)
    (s : σ) (c : C) (w : W) :
    ∃ p, (poolMachine (.always answer) body s).Reachable p
      ∧ p.tasks[0]? = some ⟨c, 0, .done ((body c).exec (.reading answer w)
        s).result⟩
      ∧ p.own 0 = ((body c).exec (.reading answer w) s).trace := by
  have hrun : ∀ (prog : Prog I α) (t : σ) (tr : List (Moment I W)),
      ∃ as, (poolMachine (.always answer) body s).run as
          ⟨t, [⟨c, 0, prog⟩], tr⟩
        = some ⟨(prog.exec (.reading answer w) t).state,
          [⟨c, 0, .done (prog.exec (.reading answer w) t).result⟩],
          tr ++ (prog.exec (.reading answer w) t).trace.map fun x =>
            ⟨0, w, x⟩⟩ := by
    intro prog
    induction prog with
    | done a =>
        intro t tr
        exact ⟨[], by simp⟩
    | ask q k ih =>
        intro t tr
        obtain ⟨as, has⟩ := ih (answer w q t).1 (answer w q t).2
          (tr ++ [⟨0, w, ⟨q, (answer w q t).1⟩⟩])
        refine ⟨.resume 0 w :: as, Machine.run_cons.mpr ⟨_, rfl, ?_⟩⟩
        refine Eq.trans ?_ (has.trans ?_)
        · rfl
        · rw [List.append_assoc]
          rfl
  obtain ⟨as, has⟩ := hrun (body c) s []
  refine ⟨_, ⟨.spawn c :: as, Machine.run_cons.mpr ⟨_, rfl, has⟩⟩, rfl, ?_⟩
  simp [Pool.own, List.filter_map, Function.comp_def]

end Interact

namespace SapAutomate.Mcp

open Interact Json

variable {I : Iface}

/-- The request invokes the tool registered under `name`. -/
structure Invokes (srv : Server I) (req : Request) (name : String)
    (arguments : Value) (d : ToolDescriptor I) : Prop where
  method : req.method = "tools/call"
  params : ∃ args, CallToolParams.ofJson (req.params.getD (.object []))
    = some ⟨name, args⟩ ∧ arguments = args.getD (.object [])
  registered : srv.tools.get name = some d

/-- What the caller is sent of a handler's result. -/
def sentResult : McpResult CallToolResult → CallToolResult
  | .ok result => result
  | .error e => .error e.display

/-- An invocation runs the handler, and sends what it returns. -/
theorem Invokes.dispatch {srv : Server I} {req : Request} {name : String}
    {arguments : Value} {d : ToolDescriptor I}
    (h : Invokes srv req name arguments d) :
    srv.dispatch req = (d.handler arguments >>= fun r =>
      .done (.success req.id (sentResult r).toJson)) := by
  obtain ⟨hmethod, ⟨args, hparams, rfl⟩, hget⟩ := h
  have hcall : srv.callToolParams req.params = .ok ⟨name, args⟩ := by
    unfold Server.callToolParams
    simp only [hparams]
  have htools : srv.toolsCall req.params
      = (d.handler (args.getD (.object [])) >>= fun r =>
        .done (.ok (sentResult r).toJson)) := by
    unfold Server.toolsCall
    rw [hcall]
    simp only [hget]
    show (d.handler (args.getD (.object [])) >>= _) = _
    congr 1
    funext r
    cases r <;> rfl
  have hhandle : srv.handleMethod req = srv.toolsCall req.params := by
    unfold Server.handleMethod
    rw [hmethod, if_neg (by decide), if_neg (by decide), if_pos rfl]
  unfold Server.dispatch
  rw [hhandle, htools]
  induction d.handler (args.getD (.object [])) with
  | done r => rfl
  | ask q k ih => exact congrArg (Prog.ask q) (funext ih)

/-- What is registered under names of their own is there to be found. -/
theorem ServerBuilder.mem_register_of_mem {ds : List (ToolDescriptor I)}
    (hnd : (ds.map fun d => d.tool.name).Nodup) {d : ToolDescriptor I} :
    ∀ b : ServerBuilder I, (d ∈ ds
        ∨ (d.tool.name, d) ∈ b.tools ∧ ∀ e ∈ ds, e.tool.name ≠ d.tool.name) →
      (d.tool.name, d) ∈ (b.register ds).tools := by
  induction ds with
  | nil =>
      intro b h
      rcases h with h | h
      · cases h
      · exact h.1
  | cons e ds ih =>
      intro b h
      rw [List.map_cons, List.nodup_cons] at hnd
      refine ih hnd.2 (b.tool e) ?_
      rcases h with h | ⟨hmem, hother⟩
      · rcases List.mem_cons.mp h with rfl | h
        · refine .inr ⟨List.mem_append_right _ (by simp), fun e' he' hname => ?_⟩
          exact hnd.1 (List.mem_map.mpr ⟨e', he', hname⟩)
        · exact .inl h
      · refine .inr ⟨List.mem_append_left _ (List.mem_filter.mpr ⟨hmem, ?_⟩),
          fun e' he' => hother e' (List.mem_cons_of_mem _ he')⟩
        have hne := hother e (List.mem_cons_self ..)
        simpa using Ne.symm hne

/-- And kept, where the policy allows it. -/
theorem ServerBuilder.mem_build_of_mem {b : ServerBuilder I}
    {ds : List (ToolDescriptor I)}
    (hnd : (ds.map fun d => d.tool.name).Nodup) {d : ToolDescriptor I}
    (hd : d ∈ ds) (hallowed : d.isAllowedBy b.exposure = true) :
    (d.tool.name, d) ∈ (b.register ds).build.tools := by
  refine List.mem_filter.mpr ⟨mem_register_of_mem hnd b (.inl hd), ?_⟩
  rw [register_exposure]
  exact hallowed

end SapAutomate.Mcp

namespace SapAutomate.Server

open Interact Json Mcp Rfc Adt

variable {B O P : Iface}

-- ============================================================= the machine

/-- The sink takes the entries it is given. -/
def sinkAnswer (w : (q : (B.sum (AuditIface.sum O)).Query) →
      (B.sum (AuditIface.sum O)).Reply q)
    (q : (B.sum (AuditIface.sum O)).Query) (sink : List AuditEntry) :
    (B.sum (AuditIface.sum O)).Reply q × List AuditEntry :=
  (w q, sink ++ (audited ⟨q, w q⟩).toList)

/-- The server with a SAP client, requests side by side. -/
def session (srv : Server (ToolIface O))
    (client : (q : SapIface.Query) → Prog B (SapIface.Reply q)) :
    Machine (PoolAct Request ((q : (B.sum (AuditIface.sum O)).Query) →
        (B.sum (AuditIface.sum O)).Reply q))
      (Pool (B.sum (AuditIface.sum O)) Request
        ((q : (B.sum (AuditIface.sum O)).Query) →
          (B.sum (AuditIface.sum O)).Reply q) (List AuditEntry) Response) :=
  poolMachine (.always sinkAnswer)
    (fun req => (srv.dispatch req).interpLeft client) []

-- =============================================================== agreement

/-- How a result that says "done" begins. -/
def confirmations : List String :=
  ["Purchase order confirmed (mock execution; no real BAPI fired):\n\n",
    "Customer master change confirmed (mock):\n  customer: ",
    "Transport release plan confirmed (mock):\n  transport:           "]

/-- The results that say "declined". -/
def refusals : List String :=
  ["Purchase order cancelled by user (declined elicitation).",
    "Customer master change declined; no action taken.",
    "Transport release declined; no action taken."]

/-- The outcome in the log and the result sent tell the same. -/
inductive Agrees : AuditOutcome → CallToolResult → Prop where
  | committed (summary : String) {body : Value}
      (h : body.get "committed" = some (.bool true)) :
      Agrees (.ok summary) (renderJson body)
  | confirmed (summary : String) {head : String} (h : head ∈ confirmations)
      (tail : String) : Agrees (.ok summary) (.text (head ++ tail))
  | uncommitted (message : String) {body : Value}
      (h : body.get "committed" = some (.bool false)) :
      Agrees (.failed 0 message) (renderJson body)
  | declined (reason : String) {text : String} (h : text ∈ refusals) :
      Agrees (.declined reason) (.text text)
  | cancelled (reason text : String) : Agrees (.declined reason) (.error text)
  | denied (reason text : String) : Agrees (.denied reason) (.error text)
  | failed (code : Int) (head message : String) :
      Agrees (.failed code message) (.error (head ++ message))

/-- The entry of a write. -/
def writeEntry (ctx : ServerContext) (tool : String) (arguments : Value)
    (outcome : AuditOutcome) : AuditEntry :=
  AuditEntry.recorded
    { sessionId := none
      tenant := none
      actor := none
      tool := tool
      sapSystem := ctx.sapSystem
      argumentsRedacted := arguments
      outcome := outcome }

/-- The invocation has left one entry, which agrees with the response. -/
def AuditedOnce (ctx : ServerContext) (tool : String) (arguments : Value)
    (own : List (Exchange (B.sum (AuditIface.sum O)))) (response : Response) :
    Prop :=
  ∃ outcome result,
    own.filterMap audited = [writeEntry ctx tool arguments outcome]
      ∧ response = .success response.id result.toJson
      ∧ Agrees outcome result

theorem not_auditedOnce {ctx : ServerContext} {tool : String}
    {arguments : Value} {own : List (Exchange (B.sum (AuditIface.sum O)))}
    {response : Response} (hnone : own.filterMap audited = []) :
    ¬ AuditedOnce ctx tool arguments own response := by
  rintro ⟨outcome, result, hone, -⟩
  rw [hnone] at hone
  cases hone

/-- The invocations that are audited: of a workflow, with arguments it
accepts, and of `sap.rfc.call` with a commit. -/
def auditable (texts : SerdeTexts) (tool : String) (arguments : Value) : Bool :=
  if tool = purchaseOrderName then (PoArgs.ofJson texts arguments).isSome
  else if tool = customerMasterName then (cmArgs arguments).isSome
  else if tool = releaseTransportName then (trArgs arguments).isSome
  else if tool = rfcCallName then commits arguments
  else false

-- =============================================================== handlers

/-- What the sink is given by an exchange of a handler's. -/
def sinked : Exchange (AuditIface.sum O) → Option AuditEntry
  | ⟨.inl entry, _⟩ => some (AuditEntry.recorded entry)
  | _ => none

/-- A run of a write tool: one entry that agrees with the result where
the arguments are accepted, and none else. -/
def WriteRun (ctx : ServerContext) (tool : String) (arguments : Value)
    (accepted : Bool) (tr : List (Exchange (AuditIface.sum O)))
    (r : McpResult CallToolResult) : Prop :=
  (accepted = false ∧ tr.filterMap sinked = [])
    ∨ accepted = true ∧ ∃ outcome result, r = .ok result
      ∧ tr.filterMap sinked = [writeEntry ctx tool arguments outcome]
      ∧ Agrees outcome result

section Handlers

variable (ctx : ServerContext) (texts : SerdeTexts) (arguments : Value)

/-- Activation leaves no entry. -/
theorem activate_run : (activateHandler (P := P) ctx texts arguments).Sat
    (WriteRun ctx activateName arguments false) := by
  unfold activateHandler
  cases activateArgs arguments with
  | none => exact .inl ⟨rfl, rfl⟩
  | some request =>
      intro reply
      cases reply with
      | ok outcome => exact .inl ⟨rfl, rfl⟩
      | error e => exact .inl ⟨rfl, rfl⟩

theorem purchaseOrder_run :
    (purchaseOrderHandler (P := P) ctx texts arguments).Sat
      (WriteRun ctx purchaseOrderName arguments
        (PoArgs.ofJson texts arguments).isSome) := by
  unfold purchaseOrderHandler
  cases PoArgs.ofJson texts arguments with
  | none => exact .inl ⟨rfl, rfl⟩
  | some args =>
      intro answer
      obtain ⟨action, content⟩ := answer
      cases action with
      | accept =>
          intro u
          refine .inr ⟨rfl, _, _, rfl, rfl, ?_⟩
          rw [String.append_assoc]
          exact .confirmed _ (by simp [confirmations]) _
      | decline =>
          intro u
          exact .inr ⟨rfl, _, _, rfl, rfl, .declined _ (by simp [refusals])⟩
      | cancel =>
          intro u
          exact .inr ⟨rfl, _, _, rfl, rfl, .denied _ _⟩

theorem customerMaster_run :
    (customerMasterHandler (P := P) ctx texts arguments).Sat
      (WriteRun ctx customerMasterName arguments
        (cmArgs arguments).isSome) := by
  unfold customerMasterHandler
  cases cmArgs arguments with
  | none => exact .inl ⟨rfl, rfl⟩
  | some hint =>
      intro pick
      obtain ⟨action, content⟩ := pick
      cases action with
      | decline =>
          intro u
          exact .inr ⟨rfl, _, _, rfl, rfl, .cancelled _ _⟩
      | cancel =>
          intro u
          exact .inr ⟨rfl, _, _, rfl, rfl, .cancelled _ _⟩
      | accept =>
          intro confirm
          obtain ⟨action, changes⟩ := confirm
          cases action with
          | accept =>
              intro u
              refine .inr ⟨rfl, _, _, rfl, rfl, ?_⟩
              simp only [String.append_assoc]
              exact .confirmed _ (by simp [confirmations]) _
          | decline =>
              intro u
              exact .inr ⟨rfl, _, _, rfl, rfl, .declined _ (by simp [refusals])⟩
          | cancel =>
              intro u
              exact .inr ⟨rfl, _, _, rfl, rfl, .denied _ _⟩

theorem releaseTransport_run :
    (releaseTransportHandler (P := P) ctx texts arguments).Sat
      (WriteRun ctx releaseTransportName arguments
        (trArgs arguments).isSome) := by
  unfold releaseTransportHandler
  cases trArgs arguments with
  | none => exact .inl ⟨rfl, rfl⟩
  | some initial =>
      intro answer
      obtain ⟨action, content⟩ := answer
      cases action with
      | accept =>
          show Prog.Sat (if _ then _ else _) _
          by_cases hphrase : (((content.getD .null).get "transport").bind
              Value.asStr).getD "" ≠ (((content.getD .null).get
                "confirmation_phrase").bind Value.asStr).getD ""
          · rw [if_pos hphrase]
            intro u
            exact .inr ⟨rfl, _, _, rfl, rfl, .denied _ _⟩
          · rw [if_neg hphrase]
            intro u
            refine .inr ⟨rfl, _, _, rfl, rfl, ?_⟩
            simp only [String.append_assoc]
            exact .confirmed _ (by simp [confirmations]) _
      | decline =>
          intro u
          exact .inr ⟨rfl, _, _, rfl, rfl, .declined _ (by simp [refusals])⟩
      | cancel =>
          intro u
          exact .inr ⟨rfl, _, _, rfl, rfl, .denied _ _⟩

end Handlers

-- ============================================================ sap.rfc.call

/-- What is asked of a client leaves no entry. -/
theorem client_unaudited (p : Prog B α) :
    (p.inl : Prog (B.sum (AuditIface.sum O)) α).Sat fun tr _ =>
      tr.filterMap audited = [] := by
  induction p with
  | done a => rfl
  | ask q k ih => exact fun r => ih r

/-- The outcome of a write and its result agree. -/
theorem auditOutcome_agrees (r : RfcResult WriteOutcome) :
    Agrees (auditOutcome r) (writeResult r) := by
  cases r with
  | error e =>
      have hfailed : ∀ code : Int,
          Agrees (.failed code e.display) (rfcCallError e) := by
        intro code
        exact .failed code ("sap.rfc.call [" ++ e.code.debug ++ "]: ") e.display
      cases e with
      | permissionDenied reason => exact .denied _ _
      | _ => exact hfailed _
  | ok outcome =>
      obtain ⟨function, committed, rolledBack, messages, result⟩ := outcome
      have hget : (outcomeJson ⟨function, committed, rolledBack, messages,
          result⟩).get "committed" = some (.bool committed) := by
        show Map.get (Map.ofEntries _) "committed" = _
        rw [Map.get_ofEntries (by simp)]
        rfl
      cases committed with
      | true => exact .committed _ hget
      | false => exact .uncommitted _ hget

section Call

variable {ctx : ServerContext} {serdeError : Value → String}
  {arguments : Value} (client : (q : SapIface.Query) → Prog B (SapIface.Reply q))
  (id : Id)

/-- The task of a call. -/
def callTask (ctx : ServerContext) (serdeError : Value → String)
    (arguments : Value) (client : (q : SapIface.Query) → Prog B (SapIface.Reply q))
    (id : Id) : Prog (B.sum (AuditIface.sum O)) Response :=
  (rfcCallHandler ctx serdeError arguments >>= fun r =>
    .done (.success id (sentResult r).toJson)).interpLeft client

/-- A call with a commit is audited, if it is one at all. -/
theorem callTask_commit (hcommit : commits arguments = true) :
    (callTask (O := O) ctx serdeError arguments client id).Sat
      fun tr response => tr = []
        ∨ AuditedOnce ctx rfcCallName arguments tr response := by
  cases hq : rfcCallRequest arguments with
  | none =>
      unfold callTask rfcCallHandler
      rw [hq]
      exact .inl rfl
  | some q =>
      unfold callTask
      rw [rfcCallHandler_commit _ _ hcommit hq]
      rw [Prog.bind_assoc, Prog.interpLeft_inl_bind client
        (executeWriteBapi q ctx.readOnly), Prog.sat_bind]
      refine (client_unaudited _).mono fun tr r htr => ?_
      intro u
      refine .inr ⟨auditOutcome r, writeResult r, ?_, rfl,
        auditOutcome_agrees r⟩
      rw [List.filterMap_append, htr]
      rfl

/-- The result of a call without one. -/
def callResult : RfcResult Value → CallToolResult
  | .ok result => renderJson result
  | .error e => rfcCallError e

/-- Such a call is not. -/
theorem callTask_plain (hcommit : commits arguments = false) :
    (callTask (O := O) ctx serdeError arguments client id).Sat
      fun tr _ => tr.filterMap audited = [] := by
  unfold callTask
  cases hq : rfcCallRequest arguments with
  | none =>
      unfold rfcCallHandler
      rw [hq]
      exact rfl
  | some q =>
      have hplain : ¬ commits arguments = true := by
        rw [hcommit]
        exact Bool.false_ne_true
      have hhandler : rfcCallHandler (O := O) ctx serdeError arguments
          = ((callRfc q ctx.readOnly).inl >>= fun r =>
            .done (.ok (callResult r))) := by
        unfold rfcCallHandler
        rw [hq]
        show (if commits arguments = true then _ else _) = _
        rw [if_neg hplain]
        refine congrArg _ (funext fun r => ?_)
        cases r <;> rfl
      rw [hhandler, Prog.bind_assoc, Prog.interpLeft_inl_bind client
        (callRfc q ctx.readOnly), Prog.sat_bind]
      refine (client_unaudited _).mono fun tr r htr => ?_
      cases r with
      | ok result =>
          show (tr ++ []).filterMap audited = []
          rw [List.append_nil]
          exact htr
      | error e =>
          show (tr ++ []).filterMap audited = []
          rw [List.append_nil]
          exact htr

end Call

-- ========================================================== write tools

section Server

variable (env : Surroundings (WriteIface P)) (ctx : ServerContext)
  (texts : SerdeTexts)

/-- The tools registered with `with_writes()`. -/
def writeTools : List String :=
  [activateName, purchaseOrderName, customerMasterName, releaseTransportName]

/-- They are registered under these names. -/
theorem writes_serverTools {env : Surroundings O} :
    ∀ d ∈ serverTools env ctx, d.exposure = .writes →
      ∃ name ∈ writeTools, d = (plainTool env name).withWrites := by
  have hplain : ∀ name, (plainTool env name).exposure = .writes →
      ∃ name' ∈ writeTools, plainTool env name
        = (plainTool env name').withWrites := by
    intro name h
    cases h
  have hcall : (toolRfcCall (O := O) ctx env.rfcRequestError).exposure = .writes →
      ∃ name' ∈ writeTools, toolRfcCall ctx env.rfcRequestError
        = (plainTool env name').withWrites := by
    intro h
    cases h
  have hwrites : ∀ name ∈ writeTools, (plainTool env name).withWrites.exposure
      = .writes → ∃ name' ∈ writeTools, (plainTool env name).withWrites
        = (plainTool env name').withWrites := by
    intro name hname _
    exact ⟨name, hname, rfl⟩
  have hnames : "abap.adt.activate" ∈ writeTools
      ∧ "sap.workflow.create_purchase_order" ∈ writeTools
      ∧ "sap.workflow.maintain_customer_master" ∈ writeTools
      ∧ "sap.workflow.release_transport" ∈ writeTools := by
    decide
  simp only [serverTools, ragTools, sapTools, adtTools, graphTools,
    workflowTools, List.forall_mem_append, List.forall_mem_cons,
    List.not_mem_nil, false_implies, implies_true, and_true]
  refine ⟨⟨?_, ?_, ?_, ?_, ?_⟩, ⟨?_, ?_, ?_, ?_, ?_, ?_, ?_, hcall, ?_, ?_, ?_,
    ?_, ?_, ?_⟩, ⟨?_, ?_, ?_, ?_, ?_, ?_, ?_, ?_, ?_, ?_, hwrites _ hnames.1⟩,
    ⟨?_, ?_, ?_, ?_⟩, hwrites _ hnames.2.1, hwrites _ hnames.2.2.1,
    hwrites _ hnames.2.2.2⟩
  all_goals exact hplain _

/-- The handler of a write tool runs as its name says. -/
theorem write_run {name : String} (hname : name ∈ writeTools)
    (arguments : Value) :
    (((env.withWriteTools ctx texts).body name).handler arguments).Sat
      (WriteRun ctx name arguments (auditable texts name arguments)) := by
  simp only [writeTools, List.mem_cons, List.not_mem_nil, or_false] at hname
  rcases hname with rfl | rfl | rfl | rfl
  · exact activate_run ctx texts arguments
  · exact purchaseOrder_run ctx texts arguments
  · exact customerMaster_run ctx texts arguments
  · exact releaseTransport_run ctx texts arguments

/-- A tool found is one of those registered, under its name. -/
theorem get_serverTools {env : Surroundings O} {ctx : ServerContext}
    {readOnly : Bool} {name : String}
    {d : ToolDescriptor (ToolIface O)}
    (h : (buildServer env ctx readOnly).tools.get name = some d) :
    d ∈ serverTools env ctx ∧ name = d.tool.name := by
  unfold ToolMap.get at h
  obtain ⟨e, he, rfl⟩ := Option.map_eq_some_iff.mp h
  have hname : e.1 = name := by simpa using List.find?_some he
  unfold buildServer at he
  obtain ⟨hmem, hkey, -⟩ :=
    ServerBuilder.mem_build rfl (List.mem_of_find?_eq_some he)
  exact ⟨hmem, hname ▸ hkey⟩

/-- A write tool's task. -/
theorem writeTask_run {name : String} (hname : name ∈ writeTools)
    (arguments : Value) (client : (q : SapIface.Query) →
      Prog B (SapIface.Reply q)) (id : Id) :
    (((plainTool (env.withWriteTools ctx texts) name).withWrites.handler
        arguments >>= fun r => .done (Response.success id
          (sentResult r).toJson)).interpLeft client).Sat fun tr response =>
      (auditable texts name arguments = false ∧ tr.filterMap audited = [])
        ∨ auditable texts name arguments = true
          ∧ AuditedOnce ctx name arguments tr response := by
  have hentries : ∀ tr : List (Exchange (AuditIface.sum (WriteIface P))),
      (tr.map fun x => (⟨.inr x.query, x.reply⟩
        : Exchange (B.sum (AuditIface.sum (WriteIface P))))).filterMap audited
        = tr.filterMap sinked := by
    intro tr
    rw [List.filterMap_map]
    congr 1
    funext x
    obtain ⟨q, r⟩ := x
    cases q <;> rfl
  show Prog.Sat (Prog.interpLeft client
    ((((env.withWriteTools ctx texts).body name).handler arguments).inr
      >>= _)) _
  rw [Prog.interpLeft_inr_bind, Prog.sat_bind]
  refine Prog.sat_inr ((write_run env ctx texts hname arguments).mono ?_)
  intro tr r hrun
  show _ ∨ _
  rw [List.append_nil, hentries]
  rcases hrun with hnone | ⟨haccepted, outcome, result, rfl, hone, hagrees⟩
  · exact .inl hnone
  · exact .inr ⟨haccepted, outcome, result, (hentries tr).trans hone, rfl,
      hagrees⟩

-- ============================================================== the trail

/-- The invocations that have to be audited: of a tool that writes, and
of `sap.rfc.call` where one of the exchanges with the backend counts as a
function not marked read-only that gets through. -/
def Writes (reaches : Exchange B → Prop) (name : String)
    (d : ToolDescriptor (ToolIface O))
    (own : List (Exchange (B.sum (AuditIface.sum O)))) : Prop :=
  d.exposure = .writes ∨ name = rfcCallName
    ∧ ∃ x : Exchange B, reaches x ∧ ⟨.inl x.query, x.reply⟩ ∈ own

/-- In every run, with any SAP client, the sink is given what the tasks
record, and nothing else; and a write invocation that has returned has
left one entry that agrees with its result just where it is of a workflow
whose arguments are accepted, or of `sap.rfc.call` with a commit. -/
theorem auditedOnce_iff (readOnly : Bool) (reaches : Exchange B → Prop)
    (client : (q : SapIface.Query) → Prog B (SapIface.Reply q))
    {p : Pool (B.sum (AuditIface.sum (WriteIface P))) Request
      ((q : (B.sum (AuditIface.sum (WriteIface P))).Query) →
        (B.sum (AuditIface.sum (WriteIface P))).Reply q)
      (List AuditEntry) Response}
    (h : (session (buildServer (env.withWriteTools ctx texts) ctx readOnly)
      client).Reachable p) :
    p.shared = p.trace.filterMap (fun m => audited m.exchange)
    ∧ ∀ i t response name arguments d, p.tasks[i]? = some t →
      t.prog = .done response →
      Invokes (buildServer (env.withWriteTools ctx texts) ctx readOnly) t.call
        name arguments d →
      Writes reaches name d (p.own i) →
      (AuditedOnce ctx name arguments (p.own i) response
        ↔ auditable texts name arguments = true) := by
  constructor
  · refine h.invariant (I := fun p => p.shared
      = p.trace.filterMap (fun m => audited m.exchange)) rfl ?_
    intro a p p' hp hstep
    rcases poolMachine_step hstep with ⟨req, -, rfl⟩ | ⟨i, w, t, q, k, -, -, -,
      rfl⟩
    · exact hp
    · show p.shared ++ (audited ⟨q, w q⟩).toList = _
      rw [List.filterMap_append, hp]
      cases haudited : audited (⟨q, w q⟩ : Exchange (B.sum (AuditIface.sum
          (WriteIface P)))) with
      | none => simp [sinkAnswer, haudited]
      | some entry => simp [sinkAnswer, haudited]
  · intro i t response name arguments d ht hdone hinv hwrites
    have htracked := poolMachine_tracked h
    obtain ⟨hd, hname⟩ := get_serverTools hinv.registered
    have hbody := hinv.dispatch
    rcases hwrites with hexposure | ⟨hcall, x, -, hx⟩
    · obtain ⟨name', hname', rfl⟩ := writes_serverTools ctx d hd hexposure
      have hsame : name = name' := hname
      subst hsame
      have hrun := htracked.result ht hdone (Φ := fun tr response =>
        (auditable texts name arguments = false ∧ tr.filterMap audited = [])
          ∨ auditable texts name arguments = true
            ∧ AuditedOnce ctx name arguments tr response) (by
        rw [hbody]
        exact writeTask_run env ctx texts hname' arguments client t.call.id)
      rcases hrun with ⟨hrefused, hnone⟩ | ⟨haccepted, honce⟩
      · refine iff_of_false ?_ (by rw [hrefused]; exact Bool.false_ne_true)
        exact not_auditedOnce hnone
      · exact iff_of_true honce haccepted
    · have hdcall : d = toolRfcCall ctx
          (env.withWriteTools ctx texts).rfcRequestError := by
        refine List.inj_on_of_nodup_map (serverTools_nodup
          (env.withWriteTools ctx texts) ctx) hd ?_ (hname.symm.trans hcall)
        simp [serverTools, sapTools]
      subst hcall hdcall
      have hauditable : auditable texts rfcCallName arguments
          = commits arguments := rfl
      rw [hauditable]
      cases hcommit : commits arguments with
      | true =>
          have hrun := htracked.result ht hdone (Φ := fun tr response =>
            tr = [] ∨ AuditedOnce ctx rfcCallName arguments tr response) (by
            rw [hbody]
            exact callTask_commit client t.call.id hcommit)
          rcases hrun with hnone | honce
          · rw [hnone] at hx
            cases hx
          · exact iff_of_true honce rfl
      | false =>
          have hrun := htracked.result ht hdone (Φ := fun tr _ =>
            tr.filterMap audited = []) (by
            rw [hbody]
            exact callTask_plain client t.call.id hcommit)
          exact iff_of_false (not_auditedOnce hrun) Bool.false_ne_true

/-- With writes enabled every tool is found. -/
theorem get_buildServer {env : Surroundings O} {ctx : ServerContext}
    {d : ToolDescriptor (ToolIface O)} (hd : d ∈ serverTools env ctx) :
    (buildServer env ctx false).tools.get d.tool.name = some d := by
  have hmem : (d.tool.name, d) ∈ (buildServer env ctx false).tools := by
    unfold buildServer
    exact ServerBuilder.mem_build_of_mem (serverTools_nodup env ctx) hd rfl
  cases hget : (buildServer env ctx false).tools.get d.tool.name with
  | none =>
      unfold ToolMap.get at hget
      rw [Option.map_eq_none_iff, List.find?_eq_none] at hget
      exact absurd (beq_self_eq_true d.tool.name) (hget _ hmem)
  | some d' =>
      obtain ⟨hd', hname⟩ := get_serverTools hget
      rw [List.inj_on_of_nodup_map (serverTools_nodup env ctx) hd' hd
        hname.symm]

end Server

-- ================================================================ one call

/-- Nothing more to ask. -/
abbrev NoMore : Iface := ⟨Empty, fun _ => Unit⟩

/-- A context with writes enabled. -/
def writeContext : ServerContext := ⟨false, none⟩

/-- Surroundings that do nothing. -/
def restSurroundings : Surroundings (WriteIface NoMore) where
  body _ := ⟨none, .object [], fun _ => .done (.ok (.text ""))⟩
  methods _ := .done (.ok (.object []))
  callParamsError _ := "invalid"
  rfcRequestError _ := "invalid"

def plainTexts : SerdeTexts :=
  ⟨some, fun _ => "invalid", fun _ => "invalid", fun _ => "invalid",
    fun _ => "invalid"⟩

def writeSurroundings : Surroundings (WriteIface NoMore) :=
  restSurroundings.withWriteTools writeContext plainTexts

/-- A server with writes enabled. -/
def writeServer : Server (ToolIface (WriteIface NoMore)) :=
  buildServer writeSurroundings writeContext false

/-- The client's mock as the client. -/
def askMock (q : SapIface.Query) : Prog SapIface (SapIface.Reply q) :=
  .query q

/-- The mocks answer, and the user declines whatever is asked. -/
def decliningAnswers : (q : (SapIface.sum (AuditIface.sum
    (WriteIface NoMore))).Query) →
      (SapIface.sum (AuditIface.sum (WriteIface NoMore))).Reply q
  | .inl call => (mockSapClient.answer call ()).1
  | .inr (.inl _) => ()
  | .inr (.inr (.inl _)) => ElicitationResult.decline
  | .inr (.inr (.inr (.inl call))) => mockActivate call.request call.readOnly
  | .inr (.inr (.inr (.inr q))) => nomatch q

/-- A request that calls a tool. -/
def callTool (name : String) (arguments : Value) : Request :=
  ⟨"2.0", .number 1, "tools/call",
    some (.object [("arguments", arguments), ("name", .string name)])⟩

/-- A write tool is found, and called. -/
theorem callTool_invokes (name : String) (arguments : Value)
    (hname : name ∈ writeTools) (hnull : Value.optionField (some arguments)
      = some arguments) :
    Invokes writeServer (callTool name arguments) name arguments
      (plainTool writeSurroundings name).withWrites := by
  have hmem : (plainTool writeSurroundings name).withWrites
      ∈ serverTools writeSurroundings writeContext := by
    simp only [writeTools, List.mem_cons, List.not_mem_nil, or_false] at hname
    rcases hname with rfl | rfl | rfl | rfl
    · simp [serverTools, adtTools, activateName]
    · simp [serverTools, workflowTools, purchaseOrderName]
    · simp [serverTools, workflowTools, customerMasterName]
    · simp [serverTools, workflowTools, releaseTransportName]
  have hget : writeServer.tools.get
      (plainTool writeSurroundings name).withWrites.tool.name
      = some (plainTool writeSurroundings name).withWrites := by
    unfold writeServer
    exact get_buildServer hmem
  have hparams : CallToolParams.ofJson (.object [("arguments", arguments),
      ("name", .string name)]) = some ⟨name, some arguments⟩ := by
    simp [CallToolParams.ofJson, Value.structFields, Map.get_cons,
      Value.asStr, hnull]
  constructor
  case method => rfl
  case params => exact ⟨some arguments, hparams, rfl⟩
  case registered => exact hget

/-- Its task alone, with the answers above. -/
theorem callTool_alone (name : String) (arguments : Value)
    (hname : name ∈ writeTools) (hnull : Value.optionField (some arguments)
      = some arguments) :
    ∃ p, (session writeServer askMock).Reachable p
      ∧ (∃ t response, p.tasks[0]? = some t ∧ t.prog = .done response
        ∧ t.call = callTool name arguments)
      ∧ p.own 0 = ((((plainTool writeSurroundings name).withWrites.handler
          arguments >>= fun r => .done (Response.success (.number 1)
            (sentResult r).toJson)).interpLeft askMock).exec
              (.reading sinkAnswer decliningAnswers) []).trace := by
  obtain ⟨p, hp, htask, hown⟩ := poolMachine_alone sinkAnswer
    (fun req => (writeServer.dispatch req).interpLeft askMock) []
    (callTool name arguments) decliningAnswers
  refine ⟨p, hp, ⟨_, _, htask, rfl, rfl⟩, hown.trans ?_⟩
  rw [(callTool_invokes name arguments hname hnull).dispatch]
  rfl

/-- The arguments of an activation. -/
def activation : Value :=
  .object [("kind", .string "program"), ("name", .string "ZREPORT")]

/-- An activation that succeeds leaves no entry: not every write
invocation is audited once. -/
theorem activation_unaudited :
    ¬ ∀ p, (session writeServer askMock).Reachable p →
      ∀ i t response name arguments d, p.tasks[i]? = some t →
        t.prog = .done response →
        Invokes writeServer t.call name arguments d → d.exposure = .writes →
        AuditedOnce writeContext name arguments (p.own i) response := by
  intro h
  obtain ⟨p, hp, ⟨t, response, ht, hdone, hcall⟩, hown⟩ :=
    callTool_alone activateName activation (by decide) rfl
  refine not_auditedOnce ?_ (h p hp 0 t response activateName activation _ ht
    hdone (hcall ▸ callTool_invokes _ _ (by decide) rfl) rfl)
  rw [hown]
  rfl

/-- A purchase order that the user declines. -/
theorem purchaseOrder_audited :
    ∃ p, (session writeServer askMock).Reachable p ∧ ∃ response,
      AuditedOnce writeContext purchaseOrderName (.object []) (p.own 0)
        response := by
  obtain ⟨p, hp, ⟨t, response, ht, hdone, hcall⟩, -⟩ :=
    callTool_alone purchaseOrderName (.object []) (by decide) rfl
  refine ⟨p, hp, response, ?_⟩
  exact ((auditedOnce_iff restSurroundings writeContext plainTexts false
    (fun _ => False) askMock hp).2 0 t response purchaseOrderName (.object []) _
    ht hdone (hcall ▸ callTool_invokes _ _ (by decide) rfl) (.inl rfl)).mpr rfl

end SapAutomate.Server
