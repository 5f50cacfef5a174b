/-
Who is answered by whom in a session.

Every response that resolves a waiter was made, on the other side, for
the request the waiter was left for. `call_correlated` is this for the
calls of the client, `elicit_correlated` for the elicitations of the
server. Each follows one response back: from the waiter to the messages
read (`Sound.got`), through the pipe to the message written (`Joined`),
to the task that sent it, to the request that task was spawned for, back
through the other pipe, and to the task that asked. A number is fetched
once, so the last task is the first.

Neither side looks at the other's numbers: a response to the server
answers a request of the server, whatever numbers the client has given
out.
-/
import SapAutomate.Proofs.OneResponse
import SapAutomate.Mcp.Equality
import SapAutomate.Proofs.SessionPipes
import SapAutomate.Proofs.StrandedCall

namespace Interact

variable {μ ρ α C : Type} {J : Iface}

-- ======================================================= under one number

/-- Lists found in lists, one by one. -/
theorem flatMap_sublist {β γ : Type} {f g : β → List γ} (l : List β)
    (h : ∀ x ∈ l, (f x).Sublist (g x)) : (l.flatMap f).Sublist (l.flatMap g) := by
  induction l with
  | nil => exact List.Sublist.refl []
  | cons x l ih =>
      rw [List.flatMap_cons, List.flatMap_cons]
      exact (h x (by simp)).append (ih fun y hy => h y (by simp [hy]))

/-- What is found by `f` is found by `g`, if `g` finds no less. -/
theorem filterMap_sublist {β γ : Type} {f g : β → Option γ} (l : List β)
    (h : ∀ x b, f x = some b → g x = some b) :
    (l.filterMap f).Sublist (l.filterMap g) := by
  induction l with
  | nil => exact List.Sublist.refl []
  | cons x l ih =>
      cases hf : f x with
      | some b =>
          rw [List.filterMap_cons_some hf, List.filterMap_cons_some (h x b hf)]
          exact ih.cons_cons b
      | none =>
          rw [List.filterMap_cons_none hf]
          exact ih.trans ((List.sublist_cons_self x l).filterMap g)

/-- What is found once is found at one place. -/
theorem index_of_nodup_filterMap {β γ : Type} {f : β → Option γ} {l : List β}
    (hnd : (l.filterMap f).Nodup) {i j : Nat} {x y : β} {b : γ}
    (hi : l[i]? = some x) (hj : l[j]? = some y) (hx : f x = some b)
    (hy : f y = some b) : i = j := by
  induction l generalizing i j with
  | nil => cases hi
  | cons z l ih =>
      have hhead : f z = some b → ∀ (n : Nat) (t : β), l[n]? = some t →
          f t ≠ some b := by
        intro hz n t ht hft
        rw [List.filterMap_cons_some hz] at hnd
        exact (List.nodup_cons.mp hnd).1
          (List.mem_filterMap.mpr ⟨t, List.mem_of_getElem? ht, hft⟩)
      have htail : (l.filterMap f).Nodup :=
        hnd.sublist ((List.sublist_cons_self z l).filterMap f)
      cases i with
      | zero =>
          cases Option.some.inj hi
          cases j with
          | zero => rfl
          | succ j => exact absurd hy (hhead hx j y hj)
      | succ i =>
          cases j with
          | zero =>
              cases Option.some.inj hj
              exact absurd hx (hhead hy i x hi)
          | succ j => exact congrArg Nat.succ (ih htail hi hj)

section

variable {number : μ → Option Int} {body : C → Prog (AtDesk μ ρ J) α}
  {p : Pool (AtDesk μ ρ J) C (Answers J) (Desk μ ρ) α}

/-- A task that has asked something keeps its numbers in order. -/
theorem Pool.Tracked.orderly_of_mem (hp : p.Tracked body)
    (hbody : ∀ c, (body c).Sat fun tr _ => Orderly number tr) {i : Nat}
    {x : Exchange (AtDesk μ ρ J)} (hx : x ∈ p.own i) :
    Orderly number (p.own i) := by
  obtain ⟨m, hm, rfl, -⟩ := Pool.mem_own.mp hx
  obtain ⟨t, ht⟩ : ∃ t, p.tasks[m.task]? = some t :=
    ⟨_, List.getElem?_eq_getElem (hp.known m hm)⟩
  exact hp.orderly hbody m.reading ht

/-- A request goes out under a number of the task's own. -/
theorem Pool.Tracked.sent_fetched (hp : p.Tracked body)
    (hbody : ∀ c, (body c).Sat fun tr _ => Orderly number tr) {i : Nat}
    {m : μ} {ok : Bool} {id : Int} (hm : sent m ok ∈ p.own i)
    (hid : number m = some id) : id ∈ (p.own i).filterMap fetchedId :=
  (hp.orderly_of_mem hbody hm).now.asked.subset
    (List.mem_filterMap.mpr ⟨_, hm, hid⟩)

/-- A response comes back under a number of the task's own. -/
theorem Pool.Tracked.got_fetched (hp : p.Tracked body)
    (hbody : ∀ c, (body c).Sat fun tr _ => Orderly number tr) {i : Nat}
    {id : Int} {r : ρ} (hr : awaited id (some r) ∈ p.own i) :
    id ∈ (p.own i).filterMap fetchedId := by
  apply (hp.orderly_of_mem hbody hr).now.got.subset
  exact List.mem_map.mpr
    ⟨(id, r), List.mem_filterMap.mpr ⟨_, hr, rfl⟩, rfl⟩

/-- Under a number, one task makes one request. -/
theorem Recorded.sent_eq (hd : Recorded p.history p.shared)
    (hp : p.Tracked body)
    (hbody : ∀ c, (body c).Sat fun tr _ => Orderly number tr) {i j : Nat}
    {m m' : μ} {ok ok' : Bool} {id : Int} (hm : sent m ok ∈ p.own i)
    (hm' : sent m' ok' ∈ p.own j) (hid : number m = some id)
    (hid' : number m' = some id) : i = j ∧ m = m' := by
  have heq : i = j := Pool.task_unique hd.distinct
    (hp.sent_fetched hbody hm hid) (hp.sent_fetched hbody hm' hid')
  refine ⟨heq, ?_⟩
  rw [← heq] at hm'
  have hnd : ((p.own i).filterMap (sentNumber number)).Nodup :=
    (hd.distinct.sublist ((Pool.own_sublist_history i).filterMap _)).sublist
      (hp.orderly_of_mem hbody hm).now.asked
  have hx := eq_of_nodup_filterMap hnd hm hm' hid hid'
  exact (Option.some.inj (congrArg sentMsg hx))

/-- All requests have numbers of their own. -/
theorem Recorded.sent_nodup (hd : Recorded p.history p.shared)
    (hp : p.Tracked body)
    (hbody : ∀ c, (body c).Sat fun tr _ => Orderly number tr) :
    (p.history.filterMap (sentNumber number)).Nodup := by
  have hall := p.perm_history (sentNumber number) hp.known
  have hfetch := p.perm_history fetchedId hp.known
  rw [← hall.nodup_iff]
  refine (hfetch.nodup_iff.mpr hd.distinct).sublist ?_
  apply flatMap_sublist
  intro i _
  cases hown : p.own i with
  | nil => exact List.Sublist.refl []
  | cons x xs =>
      have hx : x ∈ p.own i := by
        rw [hown]
        exact List.mem_cons_self ..
      rw [← hown]
      exact (hp.orderly_of_mem hbody hx).now.asked

end

end Interact

namespace SapAutomate.Mcp

open Interact Json

theorem requestNumber_eq_some {q : Request} {n : Int} :
    Message.requestNumber (.request q) = some n ↔ q.id = .number n := by
  obtain ⟨jsonrpc, id, method, params⟩ := q
  cases id <;> simp [Message.requestNumber]

theorem numberedResponse_eq_some {m : Message} {n : Int} {r : Response} :
    m.numberedResponse = some (n, r) ↔ m = .response r ∧ r.id = .number n := by
  cases m with
  | response r' =>
      obtain ⟨jsonrpc, id, result, error⟩ := r'
      cases id with
      | number k =>
          simp only [Message.numberedResponse, Option.some.injEq, Prod.mk.injEq,
            Message.response.injEq]
          constructor
          · intro h
            obtain ⟨rfl, rfl⟩ := h
            exact ⟨rfl, rfl⟩
          · intro h
            obtain ⟨rfl, hid⟩ := h
            exact ⟨Id.number.inj hid, rfl⟩
      | _ =>
          constructor
          · intro h
            cases h
          · intro h
            obtain ⟨h, hid⟩ := h
            cases h
            cases hid
  | _ =>
      constructor
      · intro h
        cases h
      · intro h
        cases h.1

theorem asRequest_eq_some {m : Message} {q : Request} :
    m.asRequest = some q ↔ m = .request q := by
  cases m <;> simp [Message.asRequest]

-- ============================================================ the client

namespace Client

variable {R : Type} {v : Spawn} {s : State R}

/-- A response that was got had been read, under its number. -/
theorem Sound.got (h : Sound v s) {i : Nat} {id : Int} {r : Response}
    (hr : awaited id (some r) ∈ s.pool.own i) :
    .response r ∈ s.incoming ∧ r.id = .number id := by
  have hhist : (id, r) ∈ s.pool.history.filterMap gotResponse :=
    List.mem_filterMap.mpr
      ⟨_, (Pool.own_sublist_history i).subset hr, rfl⟩
  have hslot := h.recorded.answered (id, r) hhist
  obtain ⟨m, hm, hnum⟩ :=
    List.mem_filterMap.mp (h.handed.resolved id r hslot)
  obtain ⟨rfl, hid⟩ := numberedResponse_eq_some.mp hnum
  exact ⟨hm, hid⟩

/-- A call that has ended well has got a response to its request, and has
done nothing else. -/
theorem Sound.call_ok (h : Sound v s) {i : Nat}
    {t : Task ClientIface (Job R) (Return R)} {r : R}
    (ht : s.pool.tasks[i]? = some t)
    (hdone : t.prog = .done (.call (.ok r))) :
    ∃ method params decode id response,
      t.call = .call method params decode
        ∧ s.pool.own i = [fetched id, inserted id,
          sent (.request (requestOf id method params)) true,
          awaited id (some response)]
        ∧ outcome decode response = .ok r := by
  rcases h.task ht with ⟨method, params, decode, hcall, hat⟩ | ⟨-, hnot⟩
  · generalize s.pool.own i = tr at hat
    rw [hdone] at hat
    generalize hp : Prog.done (Return.call (Except.ok r)) = prog at hat
    cases hat with
    | answered id response =>
        have heq := Return.call.inj (Prog.done.inj hp)
        exact ⟨method, params, decode, id, response, hcall, rfl, heq.symm⟩
    | refused id => cases Return.call.inj (Prog.done.inj hp)
    | dropped id => cases Return.call.inj (Prog.done.inj hp)
    | _ => cases hp
  · exact absurd hdone (hnot (.ok r))

/-- Only a task that answers the server sends a response, which carries
the id of the request. -/
theorem Sound.response_sent (h : Sound v s) {i : Nat} {r : Response} {ok : Bool}
    (hr : sent (.response r) ok ∈ s.pool.own i) :
    ∃ (t : Task ClientIface (Job R) (Return R)) (q : Request),
      s.pool.tasks[i]? = some t ∧ t.call = .handle q ∧ r.id = q.id := by
  obtain ⟨m, hm, rfl, -⟩ := Pool.mem_own.mp hr
  obtain ⟨t, ht⟩ : ∃ t, s.pool.tasks[m.task]? = some t :=
    ⟨_, List.getElem?_eq_getElem (h.tracked.known m hm)⟩
  have hleft := h.tracked.left m.task t ht
  have hmsg : Message.response r ∈ (s.pool.own m.task).filterMap sentMsg :=
    List.mem_filterMap.mpr ⟨_, hr, rfl⟩
  cases hcall : t.call with
  | call method params decode =>
      rw [hcall] at hleft
      generalize s.pool.own m.task = tr at hmsg hleft
      generalize t.prog = prog at hleft
      cases call_left hleft <;> simp [sentMsg] at hmsg
  | notify method params =>
      rw [hcall] at hleft
      generalize s.pool.own m.task = tr at hmsg hleft
      rcases left_atDesk.mp hleft with ⟨rfl, -⟩ | ⟨ok', tr', rfl, hrest⟩
      · cases hmsg
      · obtain ⟨rfl, -⟩ := Prog.left_done.mp hrest
        simp [sentMsg] at hmsg
  | handle q =>
      refine ⟨t, q, ht, hcall, ?_⟩
      have hsat : (body (.handle q) : Prog ClientIface (Return R)).Sat
          fun tr _ => ∀ x ∈ tr.filterMap sentMsg,
            ∃ r', x = .response r' ∧ r'.id = q.id := by
        rw [body, Prog.sat_bind]
        refine (handle_sat q).mono fun tr _ hh => ?_
        obtain ⟨r', ok', hid, htr⟩ := hh
        show ∀ x ∈ (tr ++ []).filterMap sentMsg, _
        rw [List.append_nil]
        intro x hx
        rcases htr with rfl | ⟨p, result, -, -, -, rfl⟩
        · exact ⟨r', List.mem_singleton.mp hx, hid⟩
        · exact ⟨r', List.mem_singleton.mp hx, hid⟩
      rw [← hcall] at hsat
      obtain ⟨tr, a, hall⟩ := h.tracked.branch (nonempty_reply m.reading) ht hsat
      obtain ⟨r', heq, hid⟩ := hall (.response r) (List.mem_filterMap.mpr
        ⟨_, List.mem_append_left _ hr, rfl⟩)
      cases heq
      exact hid

/-- A task for a request was spawned by a request that was read. -/
theorem Sound.handle_read (h : Sound v s) {i : Nat}
    {t : Task ClientIface (Job R) (Return R)} {q : Request}
    (ht : s.pool.tasks[i]? = some t) (hcall : t.call = .handle q) :
    .request q ∈ s.incoming := by
  have hin : q ∈ s.pool.calls.filterMap Job.answers := by
    refine List.mem_filterMap.mpr ⟨.handle q, ?_, rfl⟩
    rw [← hcall]
    exact List.mem_map_of_mem (List.mem_of_getElem? ht)
  rw [h.answers] at hin
  obtain ⟨m, hm, hq⟩ := List.mem_filterMap.mp hin
  rw [← asRequest_eq_some.mp hq]
  exact hm

/-- What a task does that answers an elicitation: it asks the delegate, and
sends what that says. -/
theorem elicitation_sat (id : Int) (p : ElicitationParams) :
    (handleServerRequest (Session.requestReceived
      (ElicitationHandle.requestOf id p))).Sat fun tr _ =>
      ∃ result ok, tr = [consulted p result,
        sent (.response (.success (.number id) result.toJson)) ok] := by
  have hparams : (Session.requestReceived
      (ElicitationHandle.requestOf id p)).params.bind
        ElicitationParams.ofJson = some p := p.ofJson_toJson
  have hmethod : (Session.requestReceived
      (ElicitationHandle.requestOf id p)).method = "elicitation/create" := rfl
  unfold handleServerRequest
  rw [if_pos hmethod, hparams]
  intro result ok
  exact ⟨result, ok, rfl⟩

theorem Sound.elicitation_answered (h : Sound v s) {i : Nat} {id : Int}
    {p : ElicitationParams} {r : Response}
    {t : Task ClientIface (Job R) (Return R)}
    (ht : s.pool.tasks[i]? = some t)
    (hcall : t.call = .handle (Session.requestReceived
      (ElicitationHandle.requestOf id p)))
    (hr : sent (.response r) true ∈ s.pool.own i) :
    ∃ result, consulted p result ∈ s.pool.own i
      ∧ r = .success (.number id) result.toJson := by
  have hsat : (body t.call : Prog ClientIface (Return R)).Sat fun tr _ =>
      ∃ result ok, tr = [consulted p result,
        sent (.response (.success (.number id) result.toJson)) ok] := by
    rw [hcall, body, Prog.sat_bind]
    refine (elicitation_sat id p).mono fun tr _ hh => ?_
    obtain ⟨result, ok, rfl⟩ := hh
    exact ⟨result, ok, rfl⟩
  obtain ⟨tr, a, result, ok, htr⟩ := h.tracked.branch
    (nonempty_reply fun _ => ElicitationResult.decline) ht hsat
  -- the response is the last of two things, so the first was done too
  cases hown : s.pool.own i with
  | nil =>
      rw [hown] at hr
      cases hr
  | cons x xs =>
      rw [hown, List.cons_append, List.cons.injEq] at htr
      refine ⟨result, ?_, ?_⟩
      · rw [htr.1]
        exact List.mem_cons_self ..
      · have hmsg : Message.response r ∈ (x :: (xs ++ tr)).filterMap sentMsg := by
          rw [hown] at hr
          exact List.mem_filterMap.mpr
            ⟨_, List.mem_append_left tr hr, rfl⟩
        rw [htr.1, htr.2] at hmsg
        exact Message.response.inj (List.mem_singleton.mp hmsg)

end Client

-- ============================================================ the server

namespace Stdio

variable {O : Iface} {srv : Server (HandlerIface O)} {s : State O}

theorem Sound.taken_read (h : Sound srv s) {m : Message} (hm : m ∈ s.taken) :
    m ∈ s.incoming := by
  rw [h.incoming]
  exact List.mem_append_left _ (List.mem_of_mem_take hm)

/-- A response that was got had been read, under its number. -/
theorem Sound.got (h : Sound srv s) {i : Nat} {id : Int} {r : Response}
    (hr : awaited id (some r) ∈ s.pool.own i) :
    .response r ∈ s.incoming ∧ r.id = .number id := by
  have hhist : (id, r) ∈ s.pool.history.filterMap gotResponse :=
    List.mem_filterMap.mpr
      ⟨_, (Pool.own_sublist_history i).subset hr, rfl⟩
  have hslot := h.recorded.answered (id, r) hhist
  obtain ⟨m, hm, hnum⟩ :=
    List.mem_filterMap.mp (h.handed.resolved id r hslot)
  obtain ⟨rfl, hid⟩ := numberedResponse_eq_some.mp hnum
  exact ⟨h.taken_read hm, hid⟩

/-- A task was spawned by a request that was read. -/
theorem Sound.request_read (h : Sound srv s) {i : Nat}
    {t : Task (ServerIface O) Request Unit} (ht : s.pool.tasks[i]? = some t) :
    .request t.call ∈ s.incoming := by
  have hin : t.call ∈ s.pool.calls :=
    List.mem_map_of_mem (List.mem_of_getElem? ht)
  rw [h.requests] at hin
  obtain ⟨m, hm, hq⟩ := List.mem_filterMap.mp hin
  rw [← asRequest_eq_some.mp hq]
  exact h.taken_read hm

/-- An elicitation under way has got nothing, and has sent no more than
its request. -/
theorem serve_left_ask {q : (HandlerIface O).Query}
    {tr : List (Exchange (ServerIface O))} {q' : (ServerIface O).Query}
    {k : (ServerIface O).Reply q' →
      Prog (ServerIface O) ((HandlerIface O).Reply q)}
    (h : (serve true q).Left tr (.ask q' k)) :
    tr.filterMap gotResponse = []
      ∧ ∀ m ∈ tr.filterMap sentMsg,
        ∃ id p, m = .request (ElicitationHandle.requestOf id p) := by
  match q, k, h with
  | .inr q, k, h =>
      rcases Prog.left_ask.mp h with ⟨rfl, -⟩ | ⟨r, tr', -, hk⟩
      · exact ⟨rfl, fun m hm => nomatch hm⟩
      · cases (Prog.left_done.mp hk).2
  | .inl (.elicit message schema), k, h =>
      have hask : (ElicitationHandle.elicit true message schema).Left tr
        (.ask q' k) := h
      unfold ElicitationHandle.elicit at hask
      rw [if_pos rfl] at hask
      rcases left_atDesk.mp hask with ⟨rfl, -⟩ | ⟨id, tr₁, rfl, h₁⟩
      · exact ⟨rfl, fun m hm => nomatch hm⟩
      rcases left_atDesk.mp h₁ with ⟨rfl, -⟩ | ⟨_, tr₂, rfl, h₂⟩
      · exact ⟨rfl, fun m hm => nomatch hm⟩
      rcases left_atDesk.mp h₂ with ⟨rfl, -⟩ | ⟨ok, tr₃, rfl, h₃⟩
      · exact ⟨rfl, fun m hm => nomatch hm⟩
      have hone : ∀ m ∈ [Message.request
          (ElicitationHandle.requestOf id ⟨message, schema⟩)],
          ∃ id p, m = .request (ElicitationHandle.requestOf id p) :=
        fun m hm => ⟨id, _, List.mem_singleton.mp hm⟩
      cases ok with
      | false =>
          rcases left_atDesk.mp h₃ with ⟨rfl, -⟩ | ⟨_, tr₄, rfl, h₄⟩
          · exact ⟨rfl, hone⟩
          · cases (Prog.left_done.mp h₄).2
      | true =>
          rcases left_atDesk.mp h₃ with ⟨rfl, -⟩ | ⟨o, tr₄, rfl, h₄⟩
          · exact ⟨rfl, hone⟩
          · cases o with
            | none => cases (Prog.left_done.mp h₄).2
            | some r => cases (Prog.left_done.mp h₄).2

/-- A response that a handler has got came back for its elicitation. -/
theorem unfolds_got {xs : List (Exchange (HandlerIface O))}
    {tr : List (Exchange (ServerIface O))}
    (h : Prog.Unfolds (serve true) xs tr) {id : Int} {r : Response}
    (hr : awaited id (some r) ∈ tr) :
    ∃ p, sent (.request (ElicitationHandle.requestOf id p)) true ∈ tr := by
  induction h with
  | nil => cases hr
  | cons h hrest ih =>
      rcases List.mem_append.mp hr with hr | hr
      · rcases serve_left h with ⟨p, result, hel⟩ | ⟨q', r', rfl⟩
        · refine ⟨p, List.mem_append_left _ ?_⟩
          have hgot := List.mem_filterMap.mpr
            ⟨_, hr, (rfl : gotResponse (awaited id (some r)) = some (id, r))⟩
          cases hel with
          | answered id' r' =>
              have heq := List.mem_singleton.mp hgot
              rw [Prod.mk.injEq] at heq
              rw [heq.1]
              simp
          | refused id' => cases hgot
          | dropped id' => cases hgot
        · cases List.mem_singleton.mp hr
      · obtain ⟨p, hp⟩ := ih hr
        exact ⟨p, List.mem_append_right _ hp⟩

/-- So it is with what a task has got. -/
theorem Sound.elicit_sent (h : Sound srv s) {i : Nat} {id : Int}
    {r : Response} (hr : awaited id (some r) ∈ s.pool.own i) :
    ∃ p, sent (.request (ElicitationHandle.requestOf id p)) true
      ∈ s.pool.own i := by
  obtain ⟨m, hm, rfl, -⟩ := Pool.mem_own.mp hr
  obtain ⟨t, ht⟩ : ∃ t, s.pool.tasks[m.task]? = some t :=
    ⟨_, List.getElem?_eq_getElem (h.tracked.known m hm)⟩
  have hhandler : ∀ {xs : List (Exchange (HandlerIface O))}
      {tr₁ tr₂ : List (Exchange (ServerIface O))},
      Prog.Unfolds (serve true) xs tr₁ →
      s.pool.own m.task = tr₁ ++ tr₂ → tr₂.filterMap gotResponse = [] →
      ∃ p, sent (.request (ElicitationHandle.requestOf id p)) true
        ∈ s.pool.own m.task := by
    intro xs tr₁ tr₂ hun hown hnone
    rw [hown] at hr ⊢
    rcases List.mem_append.mp hr with hr | hr
    · obtain ⟨p, hp⟩ := unfolds_got hun hr
      exact ⟨p, List.mem_append_left _ hp⟩
    · have hgot : (id, r) ∈ tr₂.filterMap gotResponse :=
        List.mem_filterMap.mpr ⟨_, hr, rfl⟩
      rw [hnone] at hgot
      cases hgot
  rcases served_left (h.tracked.left m.task t ht)
    with ⟨xs, tr₁, tr₂, q, k, q', k', k'', -, hun, hown, hask, -⟩
      | ⟨xs, tr₁, r', -, hun, ⟨hown, -⟩ | ⟨ok, hown, -⟩⟩
  · exact hhandler hun hown (serve_left_ask hask).1
  · rw [← List.append_nil tr₁] at hown
    exact hhandler hun hown rfl
  · exact hhandler hun hown rfl

/-- The response a task has sent is what its request was dispatched
to. -/
theorem Sound.response_made (h : Sound srv s) {i : Nat} {r : Response}
    {ok : Bool} (hr : sent (.response r) ok ∈ s.pool.own i) :
    ∃ t xs, s.pool.tasks[i]? = some t
      ∧ (srv.dispatch t.call).Left xs (.done r) := by
  obtain ⟨m, hm, rfl, -⟩ := Pool.mem_own.mp hr
  obtain ⟨t, ht⟩ : ∃ t, s.pool.tasks[m.task]? = some t :=
    ⟨_, List.getElem?_eq_getElem (h.tracked.known m hm)⟩
  have hmsg : Message.response r ∈ (s.pool.own m.task).filterMap sentMsg :=
    List.mem_filterMap.mpr ⟨_, hr, rfl⟩
  have hreq : ∀ {xs : List (Exchange (HandlerIface O))}
      {tr₁ : List (Exchange (ServerIface O))},
      Prog.Unfolds (serve true) xs tr₁ →
      Message.response r ∉ tr₁.filterMap sentMsg := by
    intro xs tr₁ hun hin
    obtain ⟨id, p, hreq⟩ := unfolds_sent hun _ hin
    cases hreq
  rcases served_left (h.tracked.left m.task t ht)
    with ⟨xs, tr₁, tr₂, q, k, q', k', k'', -, hun, hown, hask, -⟩
      | ⟨xs, tr₁, r', hxs, hun, ⟨hown, -⟩ | ⟨ok', hown, -⟩⟩
  · exfalso
    rw [hown, List.filterMap_append] at hmsg
    rcases List.mem_append.mp hmsg with hmsg | hmsg
    · exact hreq hun hmsg
    · obtain ⟨id, p, hp⟩ := (serve_left_ask hask).2 _ hmsg
      cases hp
  · rw [hown] at hmsg
    exact absurd hmsg (hreq hun)
  · rw [hown, List.filterMap_append] at hmsg
    rcases List.mem_append.mp hmsg with hmsg | hmsg
    · exact absurd hmsg (hreq hun)
    · have heq := Message.response.inj (List.mem_singleton.mp hmsg)
      rw [heq]
      exact ⟨t, xs, ht, hxs⟩

end Stdio

-- =========================================================== the session

namespace Session

variable {R : Type} {O : Iface} {parse : ParseJson}
  {srv : Server (HandlerIface O)} {s : State R O}

/-- Every message that was written is parsed as the value it was printed
from. -/
def Legible (parse : ParseJson) (s : State R O) : Prop :=
  ∀ m ∈ s.client.written ++ s.server.written,
    parse m.text = some m.toValue

/-- What the server has read, the client has written. -/
theorem Joined.from_client (h : Joined parse srv s) (hleg : Legible parse s)
    {m' : Message} (hm : m' ∈ s.server.incoming) :
    ∃ m ∈ s.client.written, m' = m.received := by
  obtain ⟨m, hw, ha⟩ := h.up.exists_written hm
  exact ⟨m, hw, arrives_received (hleg m (List.mem_append_left _ hw)) ha⟩

/-- And the other way round. -/
theorem Joined.from_server (h : Joined parse srv s) (hleg : Legible parse s)
    {m' : Message} (hm : m' ∈ s.client.incoming) :
    ∃ m ∈ s.server.written, m' = m.received := by
  obtain ⟨m, hw, ha⟩ := h.down.exists_written hm
  exact ⟨m, hw, arrives_received (hleg m (List.mem_append_right _ hw)) ha⟩

theorem request_received {m : Message} {q : Request}
    (h : .request q = m.received) :
    ∃ q', m = .request q' ∧ q = requestReceived q' := by
  cases m with
  | request q' => exact ⟨q', rfl, Message.request.inj h⟩
  | notification n => cases h
  | response r => cases h

theorem response_received {m : Message} {r : Response}
    (h : .response r = m.received) :
    ∃ r', m = .response r' ∧ r = responseReceived r' := by
  cases m with
  | response r' => exact ⟨r', rfl, Message.response.inj h⟩
  | notification n => cases h
  | request q => cases h

theorem requestNumber_received (m : Message) :
    m.received.requestNumber = m.requestNumber := by
  cases m <;> rfl

/-- Requests with numbers of their own keep them in a pipe. -/
theorem carried_nodup {written incoming : List Message} {flying : List Line}
    {there : Prop}
    (h : Carried (arrives parse) lineOf written flying incoming there)
    (hparse : ∀ m ∈ written, parse m.text = some m.toValue)
    (hnd : (written.filterMap Message.requestNumber).Nodup) :
    (incoming.filterMap Message.requestNumber).Nodup := by
  have hpre := h.received.sublist.filterMap
    fun o => o.bind Message.requestNumber
  rw [List.filterMap_map, List.filterMap_map] at hpre
  have hin : incoming.filterMap
      ((fun o => o.bind Message.requestNumber) ∘ some)
      = incoming.filterMap Message.requestNumber := rfl
  rw [hin] at hpre
  refine (hnd.sublist ?_).sublist hpre
  -- what arrives of a message has its number
  clear hpre hin h hnd
  induction written with
  | nil => exact List.Sublist.refl []
  | cons m ms ih =>
      have hrest := ih fun m' hm' => hparse m' (List.mem_cons_of_mem m hm')
      cases ha : arrives parse m with
      | none =>
          rw [List.filterMap_cons_none (by rw [Function.comp, ha]; rfl)]
          exact hrest.trans ((List.sublist_cons_self m ms).filterMap _)
      | some m' =>
          have heq := arrives_received (hparse m (by simp)) ha
          have hnum : ((fun o => o.bind Message.requestNumber)
              ∘ arrives parse) m = m.requestNumber := by
            show (arrives parse m).bind Message.requestNumber = _
            rw [ha, heq]
            exact requestNumber_received m
          cases hm : m.requestNumber with
          | none =>
              rw [List.filterMap_cons_none (hnum.trans hm),
                List.filterMap_cons_none hm]
              exact hrest
          | some n =>
              rw [List.filterMap_cons_some (hnum.trans hm),
                List.filterMap_cons_some hm]
              exact hrest.cons_cons n

/-- Accepted requests have numbers of their own. -/
theorem accepted_nodup {C α : Type} {J : Iface}
    {p : Pool (AtDesk Message Response J) C (Answers J)
      (Desk Message Response) α} {body : C → Prog _ α}
    (hd : Recorded p.history p.shared) (hp : p.Tracked body)
    (hbody : ∀ c, (body c).Sat fun tr _ =>
      Orderly Message.requestNumber tr) :
    (p.shared.outbox.accepted.filterMap Message.requestNumber).Nodup := by
  rw [hd.accepted, List.filterMap_filterMap]
  refine (hd.sent_nodup hp hbody).sublist (filterMap_sublist _ ?_)
  intro x n hn
  obtain ⟨m, hm, hnum⟩ := Option.bind_eq_some_iff.mp hn
  rw [acceptedMsg_eq_some.mp hm]
  exact hnum

/-- One task of the server for each number of a request. -/
theorem Joined.server_task (h : Joined parse srv s) (hleg : Legible parse s)
    {i j : Nat} {t u : Task (ServerIface O) Request Unit}
    (ht : s.server.pool.tasks[i]? = some t)
    (hu : s.server.pool.tasks[j]? = some u) {id : Int}
    (hid : t.call.id = .number id) (hid' : u.call.id = .number id) : i = j := by
  have hsound : Stdio.Sound srv s.server := .reachable h.server
  have hclient := Client.Sound.reachable h.client
  have hout := (Client.Outgoing.reachable h.client).written
  have hwritten : (s.client.written.filterMap
      Message.requestNumber).Nodup := by
    refine (accepted_nodup hclient.recorded hclient.tracked
      Client.body_orderly).sublist (List.Sublist.filterMap _ ?_)
    exact ((List.prefix_append _ _).trans hout).sublist.trans
      (List.take_sublist _ _)
  have hin := carried_nodup h.up
    (fun m hm => hleg m (List.mem_append_left _ hm)) hwritten
  have htaken : (s.server.pool.calls.filterMap fun q =>
      Message.requestNumber (.request q)).Nodup := by
    rw [hsound.requests, List.filterMap_filterMap]
    refine (hin.sublist (List.Sublist.filterMap _ ?_)).sublist
      (filterMap_sublist s.server.taken ?_)
    · rw [hsound.incoming]
      exact (List.take_sublist _ _).trans (List.sublist_append_left _ _)
    · intro m n hn
      obtain ⟨q, hq, hnum⟩ := Option.bind_eq_some_iff.mp hn
      rw [asRequest_eq_some.mp hq]
      exact hnum
  have hcall : ∀ {n : Nat} {w : Task (ServerIface O) Request Unit},
      s.server.pool.tasks[n]? = some w →
      s.server.pool.calls[n]? = some w.call := by
    intro n w hw
    rw [Pool.calls, List.getElem?_map, hw]
    rfl
  exact index_of_nodup_filterMap htaken (hcall ht) (hcall hu)
    (requestNumber_eq_some.mpr hid) (requestNumber_eq_some.mpr hid')

/-- One task of the client for each number of an elicitation. -/
theorem Joined.client_task (h : Joined parse srv s) (hleg : Legible parse s)
    {i j : Nat} {t u : Task Client.ClientIface (Client.Job R) (Client.Return R)}
    (ht : s.client.pool.tasks[i]? = some t)
    (hu : s.client.pool.tasks[j]? = some u) {q q' : Request} {id : Int}
    (hq : t.call = .handle q) (hq' : u.call = .handle q')
    (hid : q.id = .number id) (hid' : q'.id = .number id) : i = j := by
  have hsound := Client.Sound.reachable h.client
  have hserver : Stdio.Sound srv s.server := .reachable h.server
  have hwritten : (s.server.written.filterMap
      Message.requestNumber).Nodup := by
    refine (accepted_nodup hserver.recorded hserver.tracked
      Stdio.served_orderly).sublist (List.Sublist.filterMap _ ?_)
    exact ((List.prefix_append _ _).trans hserver.written).sublist.trans
      (List.take_sublist _ _)
  have hin := carried_nodup h.down
    (fun m hm => hleg m (List.mem_append_right _ hm)) hwritten
  have hcalls : (s.client.pool.calls.filterMap fun job =>
      job.answers.bind fun q => Message.requestNumber (.request q)).Nodup := by
    rw [← List.filterMap_filterMap, hsound.answers, List.filterMap_filterMap]
    refine hin.sublist (filterMap_sublist s.client.incoming ?_)
    intro m n hn
    obtain ⟨q, hq, hnum⟩ := Option.bind_eq_some_iff.mp hn
    rw [asRequest_eq_some.mp hq]
    exact hnum
  have hcall : ∀ {n : Nat}
      {w : Task Client.ClientIface (Client.Job R) (Client.Return R)},
      s.client.pool.tasks[n]? = some w →
      s.client.pool.calls[n]? = some w.call := by
    intro n w hw
    rw [Pool.calls, List.getElem?_map, hw]
    rfl
  have hnum : ∀ {job : Client.Job R} {q : Request}, job = .handle q →
      q.id = .number id →
      (job.answers.bind fun q => Message.requestNumber (.request q))
        = some id := by
    intro job q hjob hq
    rw [hjob]
    exact requestNumber_eq_some.mpr hq
  exact index_of_nodup_filterMap hcalls (hcall ht) (hcall hu)
    (hnum hq hid) (hnum hq' hid')

/-- Task `j` of the server was spawned for this request, as it was
received, has dispatched it to this response, and has sent that. -/
structure ServedBy (srv : Server (HandlerIface O)) (s : State R O)
    (q : Request) (r : Response) (j : Nat) : Prop where
  dispatched : ∃ t xs, s.server.pool.tasks[j]? = some t
    ∧ t.call = requestReceived q ∧ (srv.dispatch t.call).Left xs (.done r)
  sent : sent (.response r) true ∈ s.server.pool.own j

/-- In every state that a session reaches, a call that has ended well has
got the response to which the one server task for its own request has
dispatched it, and no other call has got one under its number. -/
theorem call_correlated (R : Type) (parse : ParseJson)
    (srv : Server (HandlerIface O)) (s : State R O)
    (hs : (machine R parse srv).Reachable s) (hleg : Legible parse s)
    (i : Nat) (t : Task Client.ClientIface (Client.Job R) (Client.Return R)) (r : R)
    (ht : s.client.pool.tasks[i]? = some t)
    (hdone : t.prog = .done (.call (.ok r))) :
    ∃ method params decode id response j,
      t.call = .call method params decode
        ∧ sent (.request (Client.requestOf id method params)) true
          ∈ s.client.pool.own i
        ∧ ServedBy srv s (Client.requestOf id method params) response j
        ∧ Client.outcome decode (responseReceived response) = .ok r
        ∧ (∀ j' u, s.server.pool.tasks[j']? = some u →
          u.call.id = .number id → j' = j)
        ∧ ∀ i' r', awaited id (some r') ∈ s.client.pool.own i' → i' = i := by
  have h : Joined parse srv s := .reachable hs
  have hclient := Client.Sound.reachable h.client
  have hserver : Stdio.Sound srv s.server := .reachable h.server
  obtain ⟨method, params, decode, id, response, hcall, hown, hout⟩ :=
    hclient.call_ok ht hdone
  have hgot : awaited id (some response) ∈ s.client.pool.own i := by
    rw [hown]
    simp
  have hask : sent (.request (Client.requestOf id method params)) true
      ∈ s.client.pool.own i := by
    rw [hown]
    simp
  -- the response, back to the task that sent it
  obtain ⟨hread, hid⟩ := hclient.got hgot
  obtain ⟨m, hm, hmrec⟩ := h.from_server hleg hread
  obtain ⟨made, rfl, rfl⟩ := response_received hmrec
  obtain ⟨j, hsent⟩ := Stdio.written_sent h.server hm
  obtain ⟨u, xs, hu, hmade⟩ := hserver.response_made hsent
  have huid : u.call.id = .number id := (Stdio.dispatch_id hmade).symm.trans hid
  -- the request of that task, back to the call that made it
  obtain ⟨m', hm', hrec'⟩ := h.from_client hleg (hserver.request_read hu)
  obtain ⟨q, rfl, hq⟩ := request_received hrec'
  obtain ⟨i', hsent'⟩ := Client.written_sent h.client hm'
  have hqid : q.id = .number id := by
    rw [hq] at huid
    exact huid
  have hmine := hclient.recorded.sent_eq hclient.tracked Client.body_orderly
    hsent' hask (requestNumber_eq_some.mpr hqid)
    (requestNumber_eq_some.mpr rfl)
  have hsame : q = Client.requestOf id method params :=
    Message.request.inj hmine.2
  refine ⟨method, params, decode, id, made, j, hcall, hask, ?_, hout, ?_, ?_⟩
  · exact ⟨⟨u, xs, hu, by rw [hq, hsame], hmade⟩, hsent⟩
  · intro j' w hw hwid
    exact h.server_task hleg hw hu hwid huid
  · intro n r' hr'
    exact Pool.task_unique hclient.recorded.distinct
      (hclient.tracked.got_fetched Client.body_orderly hr')
      (hclient.tracked.got_fetched Client.body_orderly hgot)

/-- A call of `ping`, and its response. -/
def pingSent : Message := .request (Client.requestOf 1 "ping" none)

def pongSent : Message := .response (.success (.number 1) (.object []))

def parsePong : ParseJson := fun s =>
  if s = pingSent.text then some pingSent.toValue else some pongSent.toValue

def declining : Answers Client.DelegateIface := fun _ => .decline

def silent : Answers Stdio.NoIface := fun q => nomatch q

/-- There and back. -/
def pongRun : List (Act Unit Stdio.NoIface) :=
  [.client (.spawn (.call "ping" none fun _ => .ok ())),
    .client (.resume 0 declining), .client (.resume 0 declining),
    .client (.resume 0 declining), .client .drain, .client (.write true),
    .atServer, .server .forward, .server .main, .server (.resume 0 silent),
    .server .drain, .server (.write true), .atClient, .client .read,
    .client .read, .client (.resume 0 declining)]

theorem pongRun_legible : ∀ m ∈ [pingSent, pongSent],
    parsePong m.text = some m.toValue := by
  have hne : pongSent.text ≠ pingSent.text := by decide
  simp [parsePong, hne]

theorem call_correlated_pong :
    ∃ s t, (machine Unit parsePong Stdio.bareServer).Runs pongRun s
      ∧ s.client.pool.tasks[0]? = some t
      ∧ t.prog = .done (.call (.ok ()))
      ∧ ∃ method params decode id response j,
        t.call = .call method params decode
          ∧ sent (.request (Client.requestOf id method params)) true
            ∈ s.client.pool.own 0
          ∧ ServedBy Stdio.bareServer s (Client.requestOf id method params)
            response j
          ∧ Client.outcome decode (responseReceived response) = .ok ()
          ∧ (∀ j' u, s.server.pool.tasks[j']? = some u →
            u.call.id = .number id → j' = j)
          ∧ ∀ i' r', awaited id (some r') ∈ s.client.pool.own i' → i' = 0 := by
  refine ⟨_, _, rfl, rfl, rfl, ?_⟩
  exact call_correlated Unit parsePong Stdio.bareServer _ ⟨pongRun, rfl⟩
    pongRun_legible 0 _ () rfl rfl

/-- The response to an elicitation, back to the task of the client that
has handled it. -/
theorem Joined.answered (h : Joined parse srv s) (hleg : Legible parse s)
    {j : Nat} {id : Int} {p : ElicitationParams} {r : Response}
    (hask : sent (.request (ElicitationHandle.requestOf id p)) true
      ∈ s.server.pool.own j)
    (hr : awaited id (some r) ∈ s.server.pool.own j) :
    ∃ i t result, s.client.pool.tasks[i]? = some t
      ∧ t.call = .handle (requestReceived (ElicitationHandle.requestOf id p))
      ∧ Client.consulted p result ∈ s.client.pool.own i
      ∧ sent (.response (.success (.number id) result.toJson)) true
        ∈ s.client.pool.own i
      ∧ ElicitationHandle.parseResponse r = result.received := by
  have hclient := Client.Sound.reachable h.client
  have hserver : Stdio.Sound srv s.server := .reachable h.server
  obtain ⟨hread, hid⟩ := hserver.got hr
  obtain ⟨m, hm, hmrec⟩ := h.from_client hleg hread
  obtain ⟨made, rfl, rfl⟩ := response_received hmrec
  obtain ⟨i, hsent⟩ := Client.written_sent h.client hm
  obtain ⟨t, q, ht, hcall, hmadeid⟩ := hclient.response_sent hsent
  have hqid : q.id = .number id := hmadeid.symm.trans hid
  -- the request of that task, back to the elicitation that made it
  obtain ⟨m', hm', hrec'⟩ := h.from_server hleg (hclient.handle_read ht hcall)
  obtain ⟨q', rfl, rfl⟩ := request_received hrec'
  obtain ⟨j', hsent'⟩ := Stdio.written_sent h.server hm'
  have hmine := hserver.recorded.sent_eq hserver.tracked Stdio.served_orderly
    hsent' hask (requestNumber_eq_some.mpr hqid)
    (requestNumber_eq_some.mpr rfl)
  have hsame : q' = ElicitationHandle.requestOf id p :=
    Message.request.inj hmine.2
  rw [hsame] at hcall
  obtain ⟨result, hasked, rfl⟩ := hclient.elicitation_answered ht hcall hsent
  refine ⟨i, t, result, ht, hcall, hasked, hsent, ?_⟩
  show (ElicitationResult.ofJson result.toJson).getD .cancel = _
  rw [ElicitationResult.ofJson_toJson]
  rfl

/-- In every state that a session reaches, a response that an elicitation
of the server has got says what the delegate has said to the one client
task for its own request, and no other task has got one under its
number. -/
theorem elicit_correlated (R : Type) (parse : ParseJson)
    (srv : Server (HandlerIface O)) (s : State R O)
    (hs : (machine R parse srv).Reachable s) (hleg : Legible parse s)
    (j : Nat) (id : Int) (r : Response)
    (hr : awaited id (some r) ∈ s.server.pool.own j) :
    ∃ p i t result,
      sent (.request (ElicitationHandle.requestOf id p)) true
          ∈ s.server.pool.own j
        ∧ s.client.pool.tasks[i]? = some t
        ∧ t.call = .handle (requestReceived (ElicitationHandle.requestOf id p))
        ∧ Client.consulted p result ∈ s.client.pool.own i
        ∧ sent (.response (.success (.number id) result.toJson)) true
          ∈ s.client.pool.own i
        ∧ ElicitationHandle.parseResponse r = result.received
        ∧ (∀ i' u q, s.client.pool.tasks[i']? = some u → u.call = .handle q →
          q.id = .number id → i' = i)
        ∧ ∀ j' r', awaited id (some r') ∈ s.server.pool.own j' → j' = j := by
  have h : Joined parse srv s := .reachable hs
  have hserver : Stdio.Sound srv s.server := .reachable h.server
  obtain ⟨p, hask⟩ := hserver.elicit_sent hr
  obtain ⟨i, t, result, ht, hcall, hasked, hsent, hanswer⟩ :=
    h.answered hleg hask hr
  refine ⟨p, i, t, result, hask, ht, hcall, hasked, hsent, hanswer, ?_, ?_⟩
  · intro i' u w hu hw hwid
    exact h.client_task hleg hu ht hw hcall hwid rfl
  · intro n r' hr'
    exact Pool.task_unique hserver.recorded.distinct
      (hserver.tracked.got_fetched Stdio.served_orderly hr')
      (hserver.tracked.got_fetched Stdio.served_orderly hr)

/-- A server that asks the user before it sets a level. -/
def askingServer : Server (HandlerIface Stdio.NoIface) where
  tools := []
  exposure := .readOnlyOnly
  others _ :=
    .ask (.inl (.elicit "sure?" .null)) fun r => .done (.ok r.toJson)
  serdeError _ := ""

def levelSent : Message :=
  .request (Client.requestOf 1 "logging/setLevel" none)

def sureSent : Message :=
  .request (ElicitationHandle.requestOf 1000000 ⟨"sure?", .null⟩)

def acceptSent : Message :=
  .response (.success (.number 1000000)
    (ElicitationResult.mk .accept none).toJson)

def parseSure : ParseJson := fun s =>
  if s = levelSent.text then some levelSent.toValue
  else if s = sureSent.text then some sureSent.toValue
  else some acceptSent.toValue

def accepting : Answers Client.DelegateIface := fun
  | .onElicit _ => ElicitationResult.mk .accept none

/-- Its question, there and back. -/
def sureRun : List (Act Unit Stdio.NoIface) :=
  [.client (.spawn (.call "logging/setLevel" none fun _ => .ok ())),
    .client (.resume 0 accepting), .client (.resume 0 accepting),
    .client (.resume 0 accepting), .client .drain, .client (.write true),
    .atServer, .server .forward, .server .main, .server (.resume 0 silent),
    .server (.resume 0 silent), .server (.resume 0 silent),
    .server .drain, .server (.write true), .atClient,
    .client (.resume 1 accepting), .client (.resume 1 accepting),
    .client .drain, .client (.write true), .atServer, .server .forward,
    .server .main, .server .main, .server .main,
    .server (.resume 0 silent)]

theorem sureRun_answered :
    ∃ s, (machine Unit parseSure askingServer).Runs sureRun s
      ∧ Legible parseSure s
      ∧ ∃ r, awaited 1000000 (some r) ∈ s.server.pool.own 0 := by
  -- one evaluation of the run, for all three
  have h : ((machine Unit parseSure askingServer).run sureRun
      (machine Unit parseSure askingServer).init).any (fun s =>
        (s.client.written ++ s.server.written).all
            (fun m => parseSure m.text = some m.toValue)
          && (s.server.pool.own 0).any
            fun x => (gotResponse x).any (·.1 = 1000000)) = true := by
    decide +kernel
  rw [Option.any_eq_true] at h
  obtain ⟨s, hrun, h⟩ := h
  simp only [Bool.and_eq_true, List.all_eq_true, List.any_eq_true,
    decide_eq_true_eq] at h
  obtain ⟨hleg, x, hx, hgot⟩ := h
  obtain ⟨⟨n, r⟩, hgot, hid⟩ := (Option.any_eq_true ..).mp hgot
  obtain rfl : n = 1000000 := of_decide_eq_true hid
  obtain rfl := gotResponse_eq_some.mp hgot
  exact ⟨s, hrun, hleg, r, hx⟩

theorem elicit_correlated_sure :
    ∃ s r, (machine Unit parseSure askingServer).Runs sureRun s
      ∧ awaited 1000000 (some r) ∈ s.server.pool.own 0
      ∧ ∃ p i t result,
        sent (.request (ElicitationHandle.requestOf 1000000 p)) true
            ∈ s.server.pool.own 0
          ∧ s.client.pool.tasks[i]? = some t
          ∧ t.call
            = .handle (requestReceived (ElicitationHandle.requestOf 1000000 p))
          ∧ Client.consulted p result ∈ s.client.pool.own i
          ∧ sent (.response (.success (.number 1000000) result.toJson)) true
            ∈ s.client.pool.own i
          ∧ ElicitationHandle.parseResponse r = result.received
          ∧ (∀ i' u q, s.client.pool.tasks[i']? = some u → u.call = .handle q →
            q.id = .number 1000000 → i' = i)
          ∧ ∀ j' r', awaited 1000000 (some r') ∈ s.server.pool.own j' →
            j' = 0 := by
  obtain ⟨s, hrun, hleg, r, hr⟩ := sureRun_answered
  exact ⟨s, r, hrun, hr, elicit_correlated Unit parseSure askingServer s
    ⟨sureRun, hrun⟩ hleg 0 1000000 r hr⟩

end Session

end SapAutomate.Mcp
