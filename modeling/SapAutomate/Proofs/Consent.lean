/-
What is logged as confirmed has been confirmed by the user, across both
processes of a session.

A workflow logs a success only after an answer that accepts
(`confirming_poses`). That answer is the one the session gives its
handler; one that accepts is no failure of the session, so it is the
response to a request of this very task; and that response is what the
delegate of the client has said to the one task that handles the request
(`Joined.answered`). Neither other calls under way nor the numbers they
use come between (`success_consented`).
-/
import SapAutomate.Proofs.Correlation
import SapAutomate.Proofs.ReleaseGate
import SapAutomate.Server.OnSession

namespace Interact

variable {I J : Iface} {α β : Type}

namespace Prog

theorem interp_bind (impl : (q : I.Query) → Prog J (I.Reply q))
    (p : Prog I α) (f : α → Prog I β) :
    (p >>= f).interp impl
      = (p.interp impl >>= fun a => (f a).interp impl) := by
  induction p with
  | done a => rfl
  | ask q k ih =>
      show (impl q >>= fun r => ((k r >>= f).interp impl)) = _
      rw [interp_ask, bind_assoc]
      exact congrArg (impl q >>= ·) (funext ih)

/-- A program on the right poses its questions there. -/
theorem Poses.inr {P : List (Exchange J) → J.Query → Prop}
    {Q : List (Exchange (I.sum J)) → (I.sum J).Query → Prop}
    (hPQ : ∀ h q, P h q → Q (h.map fun x => ⟨.inr x.query, x.reply⟩) (.inr q))
    {p : Prog J α} {h : List (Exchange J)} (hp : p.Poses P h) :
    (p.inr : Prog (I.sum J) α).Poses Q
      (h.map fun x => ⟨.inr x.query, x.reply⟩) := by
  induction p generalizing h with
  | done a => trivial
  | ask q k ih =>
      refine ⟨hPQ h q hp.1, fun r => ?_⟩
      have hrest := ih r (hp.2 r)
      rw [List.map_append] at hrest
      exact hrest

/-- Each exchange of a program was posed where it stands. -/
theorem Poses.mem {P : List (Exchange I) → I.Query → Prop} {p p' : Prog I α}
    {h tr : List (Exchange I)} (hp : p.Poses P h) (hl : p.Left tr p')
    {x : Exchange I} (hx : x ∈ tr) :
    ∃ before, before ⊆ h ++ tr ∧ P before x.query := by
  induction hl generalizing h with
  | none p => cases hx
  | cons r hl ih =>
      rcases List.mem_cons.mp hx with rfl | hx
      · exact ⟨h, List.subset_append_left _ _, hp.1⟩
      · obtain ⟨before, hsub, hP⟩ := ih (hp.2 r) hx
        rw [List.append_assoc] at hsub
        exact ⟨before, hsub, hP⟩

end Prog

end Interact

namespace SapAutomate.Mcp

open Interact Json

section Interp

variable {I J : Iface}

variable (impl : (q : I.Query) → Prog J (I.Reply q)) (srv : Server I)

theorem get_interp (name : String) :
    (srv.interp impl).tools.get name
      = (srv.tools.get name).map (ToolDescriptor.interp impl) := by
  show (List.find? _ (srv.tools.map _)).map Prod.snd = _
  unfold ToolMap.get
  rw [List.find?_map, Option.map_map, Option.map_map]
  rfl

theorem toolsCall_interp (params : Option Value) :
    (srv.interp impl).toolsCall params
      = (srv.toolsCall params).interp impl := by
  have hparams : (srv.interp impl).callToolParams params
      = srv.callToolParams params := rfl
  unfold Server.toolsCall
  rw [hparams]
  cases srv.callToolParams params with
  | error e => rfl
  | ok p =>
      simp only [get_interp]
      cases srv.tools.get p.name with
      | none => rfl
      | some d =>
          show ((d.handler _).interp impl >>= _) = Prog.interp impl (_ >>= _)
          rw [Prog.interp_bind]
          refine congrArg (_ >>= ·) (funext fun r => ?_)
          cases r <;> rfl

/-- A request is dispatched as before. -/
theorem dispatch_interp (req : Request) :
    (srv.interp impl).dispatch req = (srv.dispatch req).interp impl := by
  have hlist : (srv.interp impl).toolsList = srv.toolsList := by
    unfold Server.toolsList Server.interp
    rw [List.map_map]
    rfl
  have hmethod : (srv.interp impl).handleMethod req
      = (srv.handleMethod req).interp impl := by
    unfold Server.handleMethod
    rw [hlist, toolsCall_interp]
    split
    · rfl
    · split
      · rfl
      · split
        · rfl
        · split
          · rfl
          · rfl
  show ((srv.interp impl).handleMethod req >>= _)
    = Prog.interp impl (srv.handleMethod req >>= _)
  rw [hmethod, Prog.interp_bind]
  refine congrArg (_ >>= ·) (funext fun r => ?_)
  cases r <;> rfl

end Interp

-- ======================================================== under a session

open Stdio

variable {R : Type} {O : Iface} {parse : ParseJson}
  {srv : Server (HandlerIface O)}

/-- Within an elicitation nothing but the desk is asked. -/
theorem elicit_desk {message : String} {schema : Value}
    {tr : List (Exchange (ServerIface O))}
    {p : Prog (ServerIface O) ElicitationResult}
    (h : (ElicitationHandle.elicit true message schema).Left tr p)
    {q : O.Query} {r : O.Reply q} :
    (⟨.inr q, r⟩ : Exchange (ServerIface O)) ∉ tr := by
  have hasks : (ElicitationHandle.elicit (O := O) true message schema).Asks
      fun q => ∃ q' : DeskQuery Message, q = Sum.inl q' := by
    unfold ElicitationHandle.elicit
    rw [if_pos rfl]
    refine ⟨⟨_, rfl⟩, fun id => ⟨⟨_, rfl⟩, fun _ => ⟨⟨_, rfl⟩, fun ok => ?_⟩⟩⟩
    cases ok with
    | false => exact ⟨⟨_, rfl⟩, fun _ => trivial⟩
    | true =>
        refine ⟨⟨_, rfl⟩, fun response => ?_⟩
        cases response with
        | none => trivial
        | some r => trivial
  intro hx
  obtain ⟨q', hq⟩ := hasks.asked h _ hx
  cases hq

/-- What a handler asks of the rest, its task does. -/
theorem unfolds_rest {xs : List (Exchange (HandlerIface O))}
    {tr : List (Exchange (ServerIface O))}
    (h : Prog.Unfolds (serve true) xs tr) {q : O.Query} {r : O.Reply q}
    (hx : (⟨.inr q, r⟩ : Exchange (ServerIface O)) ∈ tr) :
    (⟨.inr q, r⟩ : Exchange (HandlerIface O)) ∈ xs := by
  induction h with
  | nil => cases hx
  | @cons q' r' tr xs ys h hrest ih =>
      rcases List.mem_append.mp hx with hx | hx
      · match q', r', h with
        | .inl (.elicit message schema), r', h =>
            exact absurd hx (elicit_desk h)
        | .inr q', r', h =>
            rcases Prog.left_ask.mp h with ⟨-, hk⟩ | ⟨r'', tr', rfl, h'⟩
            · cases hk
            · obtain ⟨rfl, hr⟩ := Prog.left_done.mp h'
              cases hr
              cases List.mem_singleton.mp hx
              exact List.mem_cons_self
      · exact List.mem_cons_of_mem _ (ih hx)

/-- An answer that a handler has got is a cancellation, or the response to
a request of its task. -/
theorem unfolds_elicit {xs : List (Exchange (HandlerIface O))}
    {tr : List (Exchange (ServerIface O))}
    (h : Prog.Unfolds (serve true) xs tr) {message : String} {schema : Value}
    {answer : ElicitationResult}
    (hx : (⟨.inl (.elicit message schema), answer⟩ : Exchange (HandlerIface O))
      ∈ xs) :
    answer = .cancel ∨ ∃ id r,
      sent (.request (ElicitationHandle.requestOf id ⟨message, schema⟩)) true
          ∈ tr
        ∧ awaited id (some r) ∈ tr
        ∧ answer = ElicitationHandle.parseResponse r := by
  induction h with
  | nil => cases hx
  | @cons q' r' tr xs ys h hrest ih =>
      rcases List.mem_cons.mp hx with hx | hx
      · cases hx
        cases elicit_left h with
        | refused id => exact .inl rfl
        | dropped id => exact .inl rfl
        | answered id response => exact .inr ⟨id, response, by simp, by simp, rfl⟩
      · rcases ih hx with hcancel | ⟨id, r, hask, hgot, hanswer⟩
        · exact .inl hcancel
        · exact .inr ⟨id, r, List.mem_append_right _ hask,
            List.mem_append_right _ hgot, hanswer⟩

/-- What a task has asked of the rest, its handler has asked, and what the
handler asked before has unfolded among the exchanges of the task. -/
theorem Stdio.Sound.asked_rest {s : Stdio.State O} (h : Stdio.Sound srv s)
    {j : Nat} {t : Task (ServerIface O) Request Unit}
    (ht : s.pool.tasks[j]? = some t) {q : O.Query} {r : O.Reply q}
    (hx : (⟨.inr q, r⟩ : Exchange (ServerIface O)) ∈ s.pool.own j) :
    ∃ xs prog tr, (srv.dispatch t.call).Left xs prog
      ∧ Prog.Unfolds (serve true) xs tr ∧ tr ⊆ s.pool.own j
      ∧ (⟨.inr q, r⟩ : Exchange (HandlerIface O)) ∈ xs := by
  rcases served_left (h.tracked.left j t ht)
    with ⟨xs, tr₁, tr₂, q', k, q'', k', k'', hxs, hun, hown, hask, -⟩
      | ⟨xs, tr₁, r', hxs, hun, ⟨hown, -⟩ | ⟨ok, hown, -⟩⟩
  · refine ⟨xs, _, tr₁, hxs, hun, ?_, ?_⟩
    · rw [hown]
      exact List.subset_append_left _ _
    · rw [hown] at hx
      rcases List.mem_append.mp hx with hx | hx
      · exact unfolds_rest hun hx
      · -- within an elicitation nothing else is asked
        match q', k', hask with
        | .inr q', k', hask =>
            rcases Prog.left_ask.mp hask with ⟨rfl, -⟩ | ⟨r'', tr', -, hk⟩
            · cases hx
            · cases (Prog.left_done.mp hk).2
        | .inl (.elicit message schema), k', hask =>
            exact absurd hx (elicit_desk hask)
  · refine ⟨xs, _, tr₁, hxs, hun, ?_, ?_⟩
    · rw [hown]
      exact List.Subset.refl _
    · rw [hown] at hx
      exact unfolds_rest hun hx
  · refine ⟨xs, _, tr₁, hxs, hun, ?_, ?_⟩
    · rw [hown]
      exact List.subset_append_left _ _
    · rw [hown] at hx
      rcases List.mem_append.mp hx with hx | hx
      · exact unfolds_rest hun hx
      · cases List.mem_singleton.mp hx

end SapAutomate.Mcp

namespace SapAutomate.Server

open Interact Json Mcp Adt

variable {P : Iface}

-- ============================================================= the tools

/-- The workflows that confirm a step with the user. -/
def confirming : List String :=
  [purchaseOrderName, customerMasterName, releaseTransportName]

/-- Before a success is logged, the user has accepted; a release with the
transport typed twice. -/
def Accepted (name : String)
    (before : List (Exchange (AuditIface.sum (WriteIface P))))
    (q : (AuditIface.sum (WriteIface P)).Query) : Prop :=
  ∀ entry, q = .inl entry → AuditOutcome.isOk entry.outcome = true →
    ∃ message schema answer,
      (⟨.inr (.inl (.elicit message schema)), answer⟩
          : Exchange (AuditIface.sum (WriteIface P))) ∈ before
        ∧ ElicitationResult.action answer = .accept
        ∧ (name = releaseTransportName → typedText answer "transport"
          = typedText answer "confirmation_phrase")

variable {ctx : ServerContext} {texts : SerdeTexts} {arguments : Value}

/-- The user is asked without further ado. -/
theorem accepted_elicit {name message : String} {schema : Value}
    {before : List (Exchange (AuditIface.sum (WriteIface P)))} :
    Accepted name before (.inr (.inl (.elicit message schema))) :=
  fun _ h => nomatch h

/-- So is a failure logged. -/
theorem accepted_failure {name : String} {entry : AuditEntry}
    {before : List (Exchange (AuditIface.sum (WriteIface P)))}
    (h : entry.outcome.isOk = false) : Accepted name before (.inl entry) := by
  intro other heq hok
  obtain rfl : entry = other := Sum.inl.inj heq
  rw [h] at hok
  cases hok

theorem purchaseOrder_poses :
    (purchaseOrderHandler (P := P) ctx texts arguments).Poses
      (Accepted purchaseOrderName) [] := by
  unfold purchaseOrderHandler
  cases PoArgs.ofJson texts arguments with
  | none => trivial
  | some args =>
      refine ⟨accepted_elicit, fun answer => ?_⟩
      obtain ⟨action, content⟩ := answer
      cases action with
      | accept =>
          refine ⟨fun entry _ _ => ⟨_, _, _, List.mem_cons_self, rfl, ?_⟩,
            fun _ => trivial⟩
          intro h
          exact absurd h (by decide)
      | decline => exact ⟨accepted_failure rfl, fun _ => trivial⟩
      | cancel => exact ⟨accepted_failure rfl, fun _ => trivial⟩

theorem customerMaster_poses :
    (customerMasterHandler (P := P) ctx texts arguments).Poses
      (Accepted customerMasterName) [] := by
  unfold customerMasterHandler
  cases cmArgs arguments with
  | none => trivial
  | some hint =>
      refine ⟨accepted_elicit, fun pick => ?_⟩
      obtain ⟨action, content⟩ := pick
      cases action with
      | decline => exact ⟨accepted_failure rfl, fun _ => trivial⟩
      | cancel => exact ⟨accepted_failure rfl, fun _ => trivial⟩
      | accept =>
          refine ⟨accepted_elicit, fun confirm => ?_⟩
          obtain ⟨action, changes⟩ := confirm
          cases action with
          | accept =>
              refine ⟨fun entry _ _ => ⟨_, _, _, List.mem_cons_self, rfl, ?_⟩,
                fun _ => trivial⟩
              intro h
              exact absurd h (by decide)
          | decline => exact ⟨accepted_failure rfl, fun _ => trivial⟩
          | cancel => exact ⟨accepted_failure rfl, fun _ => trivial⟩

theorem releaseTransport_poses :
    (releaseTransportHandler (P := P) ctx texts arguments).Poses
      (Accepted releaseTransportName) [] := by
  unfold releaseTransportHandler
  cases trArgs arguments with
  | none => trivial
  | some initial =>
      refine ⟨accepted_elicit, fun answer => ?_⟩
      obtain ⟨action, content⟩ := answer
      cases action with
      | accept =>
          show Prog.Poses _ (if _ then _ else _) _
          by_cases hphrase : (((content.getD .null).get "transport").bind
              Value.asStr).getD "" ≠ (((content.getD .null).get
                "confirmation_phrase").bind Value.asStr).getD ""
          · rw [if_pos hphrase]
            exact ⟨accepted_failure rfl, fun _ => trivial⟩
          · rw [if_neg hphrase]
            exact ⟨fun entry _ _ => ⟨_, _, _, List.mem_cons_self, rfl, fun _ =>
              not_not.mp hphrase⟩, fun _ => trivial⟩
      | decline => exact ⟨accepted_failure rfl, fun _ => trivial⟩
      | cancel => exact ⟨accepted_failure rfl, fun _ => trivial⟩

/-- Each of the workflows. -/
theorem confirming_poses (env : Surroundings (WriteIface P))
    (ctx : ServerContext) (texts : SerdeTexts) {name : String}
    (hname : name ∈ confirming) (arguments : Value) :
    (((env.withWriteTools ctx texts).body name).handler arguments).Poses
      (Accepted name) [] := by
  simp only [confirming, List.mem_cons, List.not_mem_nil, or_false] at hname
  rcases hname with rfl | rfl | rfl
  · exact purchaseOrder_poses
  · exact customerMaster_poses
  · exact releaseTransport_poses

-- ======================================================== on the session

/-- An entry given to the log by a task of the session. -/
abbrev logged (entry : AuditEntry) : Exchange (ServerIface (BackIface P)) :=
  ⟨.inr (.inr (.inl entry)), ()⟩

/-- A question of a tool is one of its session. -/
theorem onSession_left {q : (ToolIface (WriteIface P)).Query}
    {r : (ToolIface (WriteIface P)).Reply q}
    {tr : List (Exchange (HandlerIface (BackIface P)))}
    (h : (onSession q).Left tr (.done r)) :
    (∀ entry : AuditEntry, (⟨.inr (.inr (.inl entry)), ()⟩
        : Exchange (HandlerIface (BackIface P))) ∈ tr →
      (⟨q, r⟩ : Exchange (ToolIface (WriteIface P))) = ⟨.inr (.inl entry), ()⟩)
    ∧ ∀ (e : ElicitQuery) (answer : ElicitationResult),
      (⟨q, r⟩ : Exchange (ToolIface (WriteIface P)))
          = ⟨.inr (.inr (.inl e)), answer⟩ →
        (⟨.inl e, answer⟩ : Exchange (HandlerIface (BackIface P))) ∈ tr := by
  match q, r, h with
  | .inl call, r, h =>
      rcases Prog.left_ask.mp h with ⟨-, hk⟩ | ⟨r', tr', rfl, h'⟩
      · cases hk
      · obtain ⟨rfl, hr⟩ := Prog.left_done.mp h'
        cases hr
        exact ⟨fun entry hx => (nomatch List.mem_singleton.mp hx),
          fun e answer heq => nomatch heq⟩
  | .inr (.inl entry), r, h =>
      rcases Prog.left_ask.mp h with ⟨-, hk⟩ | ⟨r', tr', rfl, h'⟩
      · cases hk
      · obtain ⟨rfl, hr⟩ := Prog.left_done.mp h'
        cases hr
        refine ⟨fun entry' hx => ?_, fun e answer heq => nomatch heq⟩
        cases List.mem_singleton.mp hx
        rfl
  | .inr (.inr (.inl e)), r, h =>
      rcases Prog.left_ask.mp h with ⟨-, hk⟩ | ⟨r', tr', rfl, h'⟩
      · cases hk
      · obtain ⟨rfl, hr⟩ := Prog.left_done.mp h'
        cases hr
        refine ⟨fun entry hx => (nomatch List.mem_singleton.mp hx),
          fun e' answer heq => ?_⟩
        cases heq
        exact List.mem_cons_self
  | .inr (.inr (.inr (.inl call))), r, h =>
      rcases Prog.left_ask.mp h with ⟨-, hk⟩ | ⟨r', tr', rfl, h'⟩
      · cases hk
      · obtain ⟨rfl, hr⟩ := Prog.left_done.mp h'
        cases hr
        exact ⟨fun entry hx => (nomatch List.mem_singleton.mp hx),
          fun e answer heq => nomatch heq⟩
  | .inr (.inr (.inr (.inr q))), r, h =>
      rcases Prog.left_ask.mp h with ⟨-, hk⟩ | ⟨r', tr', rfl, h'⟩
      · cases hk
      · obtain ⟨rfl, hr⟩ := Prog.left_done.mp h'
        cases hr
        exact ⟨fun entry hx => (nomatch List.mem_singleton.mp hx),
          fun e answer heq => nomatch heq⟩

/-- Within one of them nothing has been asked yet. -/
theorem onSession_left_ask {q : (ToolIface (WriteIface P)).Query}
    {tr : List (Exchange (HandlerIface (BackIface P)))}
    {q' : (HandlerIface (BackIface P)).Query}
    {k : (HandlerIface (BackIface P)).Reply q' →
      Prog (HandlerIface (BackIface P)) ((ToolIface (WriteIface P)).Reply q)}
    (h : (onSession q).Left tr (.ask q' k)) : tr = [] := by
  have hone : ∀ {α : Type} (q₀ : (HandlerIface (BackIface P)).Query)
      (f : (HandlerIface (BackIface P)).Reply q₀ → α) {k' : _ → _},
      (Prog.ask q₀ fun r => Prog.done (f r)).Left tr (.ask q' k') →
      tr = [] := by
    intro α q₀ f k' h
    rcases Prog.left_ask.mp h with ⟨htr, -⟩ | ⟨r, tr', -, h'⟩
    · exact htr
    · cases (Prog.left_done.mp h').2
  match q, k, h with
  | .inl call, k, h => exact hone _ id h
  | .inr (.inl entry), k, h => exact hone _ id h
  | .inr (.inr (.inl e)), k, h => exact hone _ id h
  | .inr (.inr (.inr (.inl call))), k, h => exact hone _ id h
  | .inr (.inr (.inr (.inr q))), k, h => exact hone _ id h

/-- The entries logged and the answers got are those of the tool. -/
theorem onSession_unfolds {xs : List (Exchange (ToolIface (WriteIface P)))}
    {tr : List (Exchange (HandlerIface (BackIface P)))}
    (h : Prog.Unfolds onSession xs tr) :
    (∀ entry : AuditEntry, (⟨.inr (.inr (.inl entry)), ()⟩
        : Exchange (HandlerIface (BackIface P))) ∈ tr →
      (⟨.inr (.inl entry), ()⟩ : Exchange (ToolIface (WriteIface P))) ∈ xs)
    ∧ ∀ (e : ElicitQuery) (answer : ElicitationResult),
      (⟨.inr (.inr (.inl e)), answer⟩ : Exchange (ToolIface (WriteIface P)))
          ∈ xs →
        (⟨.inl e, answer⟩ : Exchange (HandlerIface (BackIface P))) ∈ tr := by
  induction h with
  | nil => exact ⟨fun entry hx => (nomatch hx), fun e answer hx => nomatch hx⟩
  | cons h hrest ih =>
      obtain ⟨hlog, helicit⟩ := onSession_left h
      constructor
      · intro entry hx
        rcases List.mem_append.mp hx with hx | hx
        · rw [hlog entry hx]
          exact List.mem_cons_self
        · exact List.mem_cons_of_mem _ (ih.1 entry hx)
      · intro e answer hx
        rcases List.mem_cons.mp hx with hx | hx
        · exact List.mem_append_left _ (helicit e answer hx.symm)
        · exact List.mem_append_right _ (ih.2 e answer hx)

/-- A workflow found under its name is the one registered. -/
theorem confirming_tool {env : Surroundings (WriteIface P)} {readOnly : Bool}
    {name : String} (hname : name ∈ confirming)
    {d : ToolDescriptor (ToolIface (WriteIface P))}
    (h : (buildServer env ctx readOnly).tools.get name = some d) :
    d = (plainTool env name).withWrites := by
  obtain ⟨hd, hkey⟩ := get_serverTools h
  refine List.inj_on_of_nodup_map (serverTools_nodup env ctx) hd ?_ hkey.symm
  simp only [confirming, List.mem_cons, List.not_mem_nil, or_false] at hname
  rcases hname with rfl | rfl | rfl
  · simp [serverTools, workflowTools, purchaseOrderName]
  · simp [serverTools, workflowTools, customerMasterName]
  · simp [serverTools, workflowTools, releaseTransportName]

variable {env : Surroundings (WriteIface P)} {readOnly : Bool}

/-- Before a task of a workflow has logged a success, its handler has got
an answer that accepts. -/
theorem success_accepted {name : String} (hname : name ∈ confirming)
    {req : Request} {d : ToolDescriptor (ToolIface (WriteIface P))}
    (hinv : Invokes (buildServer (env.withWriteTools ctx texts) ctx readOnly)
      req name arguments d)
    {xs : List (Exchange (HandlerIface (BackIface P)))}
    {prog : Prog (HandlerIface (BackIface P)) Response}
    (hleft : ((sessionServer env ctx texts readOnly).dispatch req).Left xs prog)
    {entry : AuditEntry} (hentry : (⟨.inr (.inr (.inl entry)), ()⟩
      : Exchange (HandlerIface (BackIface P))) ∈ xs)
    (hok : entry.outcome.isOk = true) :
    ∃ message schema answer,
      (⟨.inl (.elicit message schema), answer⟩
          : Exchange (HandlerIface (BackIface P))) ∈ xs
        ∧ ElicitationResult.action answer = .accept
        ∧ (name = releaseTransportName → typedText answer "transport"
          = typedText answer "confirmation_phrase") := by
  -- the handler's own exchanges
  obtain ⟨ys, prog', tr, hys, hun, htr, hmem⟩ : ∃ ys prog' tr,
      ((buildServer (env.withWriteTools ctx texts) ctx readOnly).dispatch
          req).Left ys prog'
        ∧ Prog.Unfolds onSession ys tr ∧ tr = xs
        ∧ (⟨.inr (.inl entry), ()⟩ : Exchange (ToolIface (WriteIface P)))
          ∈ ys := by
    unfold sessionServer at hleft
    rw [dispatch_interp] at hleft
    rcases Prog.left_interp hleft with ⟨ys, a, hys, hun, -⟩
      | ⟨ys, tr₁, tr₂, q, k, q', k', hys, hun, rfl, hask, -⟩
    · exact ⟨ys, _, xs, hys, hun, rfl, (onSession_unfolds hun).1 entry hentry⟩
    · rw [onSession_left_ask hask, List.append_nil] at hentry ⊢
      exact ⟨ys, _, tr₁, hys, hun, rfl, (onSession_unfolds hun).1 entry hentry⟩
  subst htr
  have hposes : ((buildServer (env.withWriteTools ctx texts) ctx
      readOnly).dispatch req).Poses (fun before q =>
        ∀ q' : (AuditIface.sum (WriteIface P)).Query, q = Sum.inr q' →
          ∃ before', before = before'.map (fun x => ⟨.inr x.query, x.reply⟩)
            ∧ Accepted name before' q') [] := by
    rw [hinv.dispatch, confirming_tool hname hinv.registered, Prog.poses_bind]
    refine ⟨?_, Prog.sat_of_left fun _ _ _ => trivial⟩
    refine Prog.Poses.inr (fun before q h => ?_)
      (confirming_poses env ctx texts hname arguments)
    intro q' hq
    cases hq
    exact ⟨before, rfl, h⟩
  obtain ⟨before, hsub, hP⟩ := hposes.mem hys hmem
  obtain ⟨before', rfl, haccepted⟩ := hP _ rfl
  obtain ⟨message, schema, answer, hasked, haction, htyped⟩ :=
    haccepted entry rfl hok
  refine ⟨message, schema, answer, (onSession_unfolds hun).2 _ _ ?_, haction,
    htyped⟩
  exact hsub (List.mem_map.mpr ⟨_, hasked, rfl⟩)

/-- What is read of an answer is what was said. -/
theorem typedText_received (answer : ElicitationResult) (key : String) :
    typedText answer.received key = typedText answer key := by
  obtain ⟨action, content⟩ := answer
  cases content with
  | none => rfl
  | some v => cases v <;> rfl

/-- In every state that a session of client and server reaches, where a
task of a workflow has logged a success, the delegate of the client has
been asked this task's own question, and has accepted; a release with the
transport typed twice. -/
theorem success_consented (R : Type) (parse : ParseJson)
    (env : Surroundings (WriteIface P)) (ctx : ServerContext)
    (texts : SerdeTexts) (readOnly : Bool) (s : Session.State R (BackIface P))
    (hs : (Session.machine R parse
      (sessionServer env ctx texts readOnly)).Reachable s)
    (hleg : Session.Legible parse s) (j : Nat)
    (t : Task (ServerIface (BackIface P)) Request Unit)
    (ht : s.server.pool.tasks[j]? = some t) (name : String)
    (hname : name ∈ confirming) (arguments : Value)
    (d : ToolDescriptor (ToolIface (WriteIface P)))
    (hinv : Invokes (buildServer (env.withWriteTools ctx texts) ctx readOnly)
      t.call name arguments d)
    (entry : AuditEntry) (hentry : logged entry ∈ s.server.pool.own j)
    (hok : entry.outcome.isOk = true) :
    ∃ id p i u result,
      sent (.request (ElicitationHandle.requestOf id p)) true
          ∈ s.server.pool.own j
        ∧ s.client.pool.tasks[i]? = some u
        ∧ u.call
          = .handle (Session.requestReceived (ElicitationHandle.requestOf id p))
        ∧ Client.consulted p result ∈ s.client.pool.own i
        ∧ result.action = .accept
        ∧ (name = releaseTransportName → typedText result "transport"
          = typedText result "confirmation_phrase") := by
  have h : Session.Joined parse (sessionServer env ctx texts readOnly) s :=
    .reachable hs
  have hserver : Stdio.Sound (sessionServer env ctx texts readOnly) s.server :=
    .reachable h.server
  obtain ⟨xs, prog, tr, hleft, hun, hsub, hmem⟩ := hserver.asked_rest ht hentry
  obtain ⟨message, schema, answer, hasked, haction, htyped⟩ :=
    success_accepted hname hinv hleft hmem hok
  rcases unfolds_elicit hun hasked with hcancel | ⟨id, r, hask, hgot, hanswer⟩
  · rw [hcancel] at haction
    cases haction
  · obtain ⟨i, u, result, hu, hcall, hconsulted, -, hsaid⟩ :=
      h.answered hleg (hsub hask) (hsub hgot)
    have hsame : answer = result.received := hanswer.trans hsaid
    rw [hsame] at haction htyped
    refine ⟨id, _, i, u, result, hsub hask, hu, hcall, hconsulted, haction, ?_⟩
    rw [typedText_received, typedText_received] at htyped
    exact htyped

/-- What a task of the session has given the log. -/
def loggedEntry {P : Iface} :
    Exchange (ServerIface (BackIface P)) → Option AuditEntry
  | ⟨.inr (.inr (.inl entry)), _⟩ => some entry
  | _ => none

theorem loggedEntry_eq_some {P : Iface}
    {x : Exchange (ServerIface (BackIface P))} {entry : AuditEntry}
    (h : loggedEntry x = some entry) : x = logged entry := by
  obtain ⟨q, r⟩ := x
  cases q with
  | inl q => cases h
  | inr q =>
      cases q with
      | inl q => cases h
      | inr q =>
          cases q with
          | inl other =>
              rw [← Option.some.inj h]
              rfl
          | inr q => cases h
/-- A release, asked for and confirmed. -/
def releaseCall : Message :=
  .request (Client.requestOf 1 "tools/call"
    (callTool releaseTransportName (.object [])).params)

def releaseAsked : Message :=
  .request (ElicitationHandle.requestOf 1000000
    ⟨"Transport release is irreversible in production. Confirm details and re-enter the transport ID to proceed.",
      transportSchema none⟩)

def typedTwice : ElicitationResult :=
  ⟨.accept, some (.object [("confirmation_phrase", .string "T1"),
    ("transport", .string "T1")])⟩

def releaseAnswered : Message :=
  .response (.success (.number 1000000) typedTwice.toJson)

def parseRelease : ParseJson := fun s =>
  if s = releaseCall.text then some releaseCall.toValue
  else if s = releaseAsked.text then some releaseAsked.toValue
  else some releaseAnswered.toValue

def typing : Answers Client.DelegateIface := fun
  | .onElicit _ => typedTwice

def backAnswers : Answers (BackIface NoMore)
  | .inl _ => .error (.permissionDenied "")
  | .inr (.inl _) => ()
  | .inr (.inr (.inl call)) => mockActivate call.request call.readOnly
  | .inr (.inr (.inr q)) => nomatch q

def releaseServer : Server (HandlerIface (BackIface NoMore)) :=
  sessionServer restSurroundings writeContext plainTexts false

abbrev releaseMachine : Machine (Session.Act Unit (BackIface NoMore))
    (Session.State Unit (BackIface NoMore)) :=
  Session.machine Unit parseRelease releaseServer

/-- Up to the question. -/
def askingRun : List (Session.Act Unit (BackIface NoMore)) :=
  [.client (.spawn (.call "tools/call"
      (callTool releaseTransportName (.object [])).params fun _ => .ok ())),
    .client (.resume 0 typing), .client (.resume 0 typing),
    .client (.resume 0 typing), .client .drain, .client (.write true),
    .atServer, .server .forward, .server .main,
    .server (.resume 0 backAnswers), .server (.resume 0 backAnswers),
    .server (.resume 0 backAnswers), .server .drain, .server (.write true)]

/-- And on, once it has been read. -/
def answeringRun : List (Session.Act Unit (BackIface NoMore)) :=
  [.client (.resume 1 typing), .client (.resume 1 typing),
    .client .drain, .client (.write true), .atServer, .server .forward,
    .server .main, .server .main, .server .main,
    .server (.resume 0 backAnswers), .server (.resume 0 backAnswers)]

/-- The run, where the question is read without going through its line. -/
def releaseRun : Option (Session.State Unit (BackIface NoMore)) :=
  (releaseMachine.run askingRun releaseMachine.init).bind fun s =>
    if s.server.written = [releaseAsked] ∧ s.client.incoming = []
        ∧ s.client.reader.there = true then
      ((Client.machine Unit .halves).step
          (.recv (.message releaseAsked.received)) s.client).bind fun c =>
        releaseMachine.run answeringRun { s with client := c, toClient := [] }
    else none

theorem parseRelease_legible :
    ∀ m ∈ [releaseCall, releaseAsked, releaseAnswered],
      parseRelease m.text = some m.toValue := by
  have h₁ : releaseAnswered.text ≠ releaseCall.text := by decide +kernel
  have h₂ : releaseAnswered.text ≠ releaseAsked.text := by decide +kernel
  have h₃ : releaseAsked.text ≠ releaseCall.text := by decide +kernel
  simp [parseRelease, h₁, h₂, h₃]

/-- It is a run of the session: the line is read as it was written. -/
theorem releaseRun_runs {s : Session.State Unit (BackIface NoMore)}
    (h : releaseRun = some s) :
    releaseMachine.Runs (askingRun ++ .atClient :: answeringRun) s := by
  obtain ⟨s₁, hasking, h⟩ := Option.bind_eq_some_iff.mp h
  split at h
  · next hasked =>
      obtain ⟨hone, hnone, hthere⟩ := hasked
      obtain ⟨c, hc, hanswering⟩ := Option.bind_eq_some_iff.mp h
      have hjoined : Session.Joined parseRelease releaseServer s₁ :=
        .reachable ⟨askingRun, hasking⟩
      obtain ⟨read, rest, hwritten, hflying, -, heq⟩ := hjoined.down
      have hread : read = [] := by
        have hempty := heq hthere
        rw [hnone] at hempty
        exact List.map_eq_nil_iff.mp hempty.symm
      rw [hone, hread, List.nil_append] at hwritten
      have hpipe : Session.pipeRecv parseRelease
          (Session.closed s₁.server.writer) s₁.toClient
            = some (.message releaseAsked.received, []) := by
        rw [hflying, ← hwritten, List.map_singleton]
        exact Session.pipeRecv_lineOf _
          (parseRelease_legible releaseAsked (by simp)) ⟨by decide, by decide⟩
      exact Machine.run_append.mpr ⟨s₁, hasking,
        Machine.run_cons.mpr ⟨_, Session.step_atClient hpipe hc, hanswering⟩⟩
  · cases h

theorem releaseRun_ends :
    releaseRun.any (fun s =>
      decide (s.client.written = [releaseCall, releaseAnswered])
        && decide (s.server.written = [releaseAsked])
        && decide (s.server.pool.tasks[0]?.map Task.call
          = some (callTool releaseTransportName (.object [])))
        && (s.server.pool.own 0).any fun x =>
          (loggedEntry x).any fun entry => entry.outcome.isOk) = true := by
  decide +kernel

theorem release_consented :
    ∃ s j arguments entry,
      releaseMachine.Runs (askingRun ++ .atClient :: answeringRun) s
        ∧ logged entry ∈ s.server.pool.own j
        ∧ entry.outcome.isOk = true
        ∧ s.server.pool.tasks[j]?.map Task.call
          = some (callTool releaseTransportName arguments)
        ∧ ∃ id p i u result,
          sent (.request (ElicitationHandle.requestOf id p)) true
              ∈ s.server.pool.own j
            ∧ s.client.pool.tasks[i]? = some u
            ∧ u.call = .handle
              (Session.requestReceived (ElicitationHandle.requestOf id p))
            ∧ Client.consulted p result ∈ s.client.pool.own i
            ∧ result.action = .accept
            ∧ typedText result "transport"
              = typedText result "confirmation_phrase" := by
  obtain ⟨s, hs, hend⟩ := (Option.any_eq_true ..).mp releaseRun_ends
  simp only [Bool.and_eq_true, decide_eq_true_eq, List.any_eq_true] at hend
  obtain ⟨⟨⟨hclient, hserver⟩, hcall⟩, x, hx, hlogged⟩ := hend
  obtain ⟨entry, hentry, hok⟩ := (Option.any_eq_true ..).mp hlogged
  rw [loggedEntry_eq_some hentry] at hx
  have hrun := releaseRun_runs hs
  have hleg : Session.Legible parseRelease s := by
    intro m hm
    rw [hclient, hserver] at hm
    exact parseRelease_legible m (by simpa [or_comm, or_left_comm] using hm)
  obtain ⟨t, ht, htcall⟩ := Option.map_eq_some_iff.mp hcall
  have hinv := callTool_invokes releaseTransportName (.object [])
    (by simp [writeTools]) rfl
  rw [← htcall] at hinv
  obtain ⟨id, p, i, u, result, hask, hu, hhandled, hconsulted, haction,
      htyped⟩ := success_consented Unit parseRelease restSurroundings
    writeContext plainTexts false s ⟨_, hrun⟩ hleg 0 t ht releaseTransportName
    (by simp [confirming]) _ _ hinv entry hx hok
  exact ⟨s, 0, _, entry, hrun, hx, hok, hcall, id, p, i, u, result, hask, hu,
    hhandled, hconsulted, haction, htyped rfl⟩

end SapAutomate.Server
