/-
The tasks of `run_stdio`, one for each request: what they ask, and what
holds along every run.

A task runs its handler, each elicitation unfolded into its steps
(`Prog.Unfolds`), and then sends one response, under the request's id.
`served_left` says that of a task at any place; what the proofs need of
its exchanges is read off it.
-/
import SapAutomate.Mcp.Stdio

namespace SapAutomate.Mcp.Stdio

open Interact Json

variable {O : Iface} {srv : Server (HandlerIface O)}

-- ============================================================== one task

/-- What an elicitation has asked when it ends. -/
inductive Elicited (p : ElicitationParams) :
    List (Exchange (ServerIface O)) → ElicitationResult → Prop where
  | refused (id : Int) :
      Elicited p ([fetched id, inserted id,
          sent (.request (ElicitationHandle.requestOf id p)) false]
        ++ [removed id]) .cancel
  | dropped (id : Int) :
      Elicited p ([fetched id, inserted id,
          sent (.request (ElicitationHandle.requestOf id p)) true]
        ++ [awaited id none]) .cancel
  | answered (id : Int) (r : Response) :
      Elicited p ([fetched id, inserted id,
          sent (.request (ElicitationHandle.requestOf id p)) true]
        ++ [awaited id (some r)]) (ElicitationHandle.parseResponse r)

theorem elicit_left {message : String} {schema : Value}
    {tr : List (Exchange (ServerIface O))} {r : ElicitationResult}
    (h : (ElicitationHandle.elicit true message schema).Left tr (.done r)) :
    Elicited ⟨message, schema⟩ tr r := by
  unfold ElicitationHandle.elicit at h
  rw [if_pos rfl] at h
  rcases left_atDesk.mp h with ⟨-, hk⟩ | ⟨id, tr₁, rfl, h₁⟩
  · cases hk
  rcases left_atDesk.mp h₁ with ⟨-, hk⟩ | ⟨_, tr₂, rfl, h₂⟩
  · cases hk
  rcases left_atDesk.mp h₂ with ⟨-, hk⟩ | ⟨ok, tr₃, rfl, h₃⟩
  · cases hk
  cases ok with
  | false =>
      rcases left_atDesk.mp h₃ with ⟨-, hk⟩ | ⟨_, tr₄, rfl, h₄⟩
      · cases hk
      obtain ⟨rfl, hr⟩ := Prog.left_done.mp h₄
      cases hr
      exact .refused id
  | true =>
      rcases left_atDesk.mp h₃ with ⟨-, hk⟩ | ⟨o, tr₄, rfl, h₄⟩
      · cases hk
      cases o with
      | none =>
          obtain ⟨rfl, hr⟩ := Prog.left_done.mp h₄
          cases hr
          exact .dropped id
      | some response =>
          obtain ⟨rfl, hr⟩ := Prog.left_done.mp h₄
          cases hr
          exact .answered id response

/-- The exchanges of a handler's question: an elicitation's, or the one
question. -/
theorem serve_left {q : (HandlerIface O).Query}
    {r : (HandlerIface O).Reply q} {tr : List (Exchange (ServerIface O))}
    (h : (serve true q).Left tr (.done r)) :
    (∃ p result, Elicited p tr result)
      ∨ ∃ (q' : O.Query) (r' : O.Reply q'), tr = [⟨.inr q', r'⟩] := by
  match q, r, h with
  | .inl (.elicit message schema), r, h =>
      exact .inl ⟨⟨message, schema⟩, r, elicit_left h⟩
  | .inr q', r, h =>
      rcases Prog.left_ask.mp h with ⟨-, hk⟩ | ⟨r', tr', rfl, h'⟩
      · cases hk
      · obtain ⟨rfl, -⟩ := Prog.left_done.mp h'
        exact .inr ⟨q', r', rfl⟩

theorem elicited_closed {p : ElicitationParams}
    {tr : List (Exchange (ServerIface O))} {r : ElicitationResult}
    (h : Elicited p tr r) : Closed Message.requestNumber tr := by
  have hnumber : ∀ id, Message.requestNumber
      (.request (ElicitationHandle.requestOf id p)) = some id := fun _ => rfl
  cases h with
  | refused id =>
      exact closed_request_then (hnumber id) false (x := removed id)
        rfl rfl rfl fun e he => nomatch he
  | dropped id =>
      exact closed_request_then (hnumber id) true (x := awaited id none)
        rfl rfl rfl fun e he => nomatch he
  | answered id r =>
      exact closed_request_then (hnumber id) true (x := awaited id (some r))
        rfl rfl rfl fun e he => congrArg Prod.fst (Option.some.inj he).symm

/-- What a handler has asked keeps its numbers in order. -/
theorem unfolds_closed {xs : List (Exchange (HandlerIface O))}
    {tr : List (Exchange (ServerIface O))}
    (h : Prog.Unfolds (serve true) xs tr) :
    Closed Message.requestNumber tr := by
  induction h with
  | nil => exact ⟨orderly_nil, rfl⟩
  | cons h hrest ih =>
      refine Closed.append ?_ ih
      rcases serve_left h with ⟨p, result, hel⟩ | ⟨q', r', rfl⟩
      · exact elicited_closed hel
      · exact closed_of_quiet rfl rfl rfl rfl

theorem elicited_sent {p : ElicitationParams}
    {tr : List (Exchange (ServerIface O))} {r : ElicitationResult}
    (h : Elicited p tr r) : ∃ id, tr.filterMap sentMsg
      = [.request (ElicitationHandle.requestOf id p)] := by
  cases h with
  | refused id => exact ⟨id, rfl⟩
  | dropped id => exact ⟨id, rfl⟩
  | answered id r => exact ⟨id, rfl⟩

/-- A handler sends nothing but the requests of its elicitations. -/
theorem unfolds_sent {xs : List (Exchange (HandlerIface O))}
    {tr : List (Exchange (ServerIface O))}
    (h : Prog.Unfolds (serve true) xs tr) :
    ∀ m ∈ tr.filterMap sentMsg,
      ∃ id p, m = .request (ElicitationHandle.requestOf id p) := by
  induction h with
  | nil => simp
  | cons h hrest ih =>
      intro m hm
      rw [List.filterMap_append] at hm
      rcases List.mem_append.mp hm with hm | hm
      · rcases serve_left h with ⟨p, result, hel⟩ | ⟨q', r', rfl⟩
        · obtain ⟨id, hid⟩ := elicited_sent hel
          rw [hid] at hm
          exact ⟨id, p, List.mem_singleton.mp hm⟩
        · cases hm
      · exact ih m hm

/-- The elicitations of a handler are among its exchanges. -/
theorem unfolds_elicited {xs : List (Exchange (HandlerIface O))}
    {tr : List (Exchange (ServerIface O))}
    (h : Prog.Unfolds (serve true) xs tr) {message : String}
    {schema : Value} {r : ElicitationResult}
    (hx : (⟨.inl (.elicit message schema), r⟩ :
      Exchange (HandlerIface O)) ∈ xs) :
    ∃ tr', Elicited ⟨message, schema⟩ tr' r ∧ ∀ x ∈ tr', x ∈ tr := by
  induction h with
  | nil => cases hx
  | cons h hrest ih =>
      rcases List.mem_cons.mp hx with hx | hx
      · cases hx
        exact ⟨_, elicit_left h, fun x hin => List.mem_append_left _ hin⟩
      · obtain ⟨tr', hel, hsub⟩ := ih hx
        exact ⟨tr', hel, fun x hin => List.mem_append_right _ (hsub x hin)⟩

/-- A response carries the id of its request. -/
theorem dispatch_id {req : Request} {xs : List (Exchange (HandlerIface O))}
    {r : Response} (h : (srv.dispatch req).Left xs (.done r)) :
    r.id = req.id := by
  have hsat : (srv.dispatch req).Sat fun _ r => r.id = req.id := by
    unfold Server.dispatch
    rw [Prog.sat_bind]
    apply Prog.sat_of_left
    intro tr result _
    cases result with
    | ok value => rfl
    | error e => rfl
  exact h.sat hsat

/-- A task is within its handler, at the send of its response, or over. -/
theorem served_left {req : Request} {tr : List (Exchange (ServerIface O))}
    {prog : Prog (ServerIface O) Unit}
    (h : (served srv true req).Left tr prog) :
    (∃ xs tr₁ tr₂ q k q' k' k'', (srv.dispatch req).Left xs (.ask q k)
        ∧ Prog.Unfolds (serve true) xs tr₁ ∧ tr = tr₁ ++ tr₂
        ∧ (serve true q).Left tr₂ (.ask q' k') ∧ prog = .ask q' k'')
      ∨ ∃ xs tr₁ r, (srv.dispatch req).Left xs (.done r)
        ∧ Prog.Unfolds (serve true) xs tr₁
        ∧ ((tr = tr₁ ∧ ∃ k, prog = atDesk (.send (.response r)) k)
          ∨ ∃ ok, tr = tr₁ ++ [sent (.response r) ok] ∧ prog = .done ()) := by
  rcases Prog.left_bind h with ⟨q', k', hask, hprog⟩
    | ⟨tr₁, tr₂, r, htr, hdone, hrest⟩
  · rcases Prog.left_interp hask with ⟨xs, a, -, -, hk⟩
      | ⟨xs, tr₁, tr₂, q, k, q'', k'', hxs, hun, htr, hserve, hk⟩
    · cases hk
    · cases hk
      exact .inl ⟨xs, tr₁, tr₂, q, k, q', k'', _, hxs, hun, htr, hserve, hprog⟩
  · right
    rcases Prog.left_interp hdone with ⟨xs, a, hxs, hun, ha⟩
      | ⟨xs, tr₃, tr₄, q, k, q'', k'', -, -, -, -, hk⟩
    · cases ha
      refine ⟨xs, tr₁, r, hxs, hun, ?_⟩
      rcases left_atDesk.mp hrest with ⟨hnil, hprog⟩ | ⟨ok, tr₃, hcons, h₃⟩
      · left
        rw [hnil, List.append_nil] at htr
        exact ⟨htr, _, hprog⟩
      · right
        obtain ⟨hnil, hprog⟩ := Prog.left_done.mp h₃
        rw [hnil] at hcons
        exact ⟨ok, by rw [htr, hcons], hprog⟩
    · cases hk

/-- Every task keeps its numbers in order. -/
theorem served_orderly (req : Request) :
    (served srv true req).Sat fun tr _ =>
      Orderly Message.requestNumber tr := by
  apply Prog.sat_of_left
  intro tr a h
  rcases served_left h with ⟨xs, tr₁, tr₂, q, k, q', k', k'', -, -, -, -, hk⟩
    | ⟨xs, tr₁, r, -, hun, ⟨-, k, hk⟩ | ⟨ok, rfl, -⟩⟩
  · cases hk
  · cases hk
  · exact ((unfolds_closed hun).append
      (closed_of_quiet rfl rfl rfl rfl)).1

end SapAutomate.Mcp.Stdio
