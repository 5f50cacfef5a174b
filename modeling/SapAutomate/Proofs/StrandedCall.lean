/-
Which calls are stranded when the reader is gone.

The map is cleared once. A call that has left its waiter before that is
told that the transport is closed. One that leaves it after that is
told so only if its request is refused; if the outbox still takes the
request, its waiter stays in a map that nobody reads any more. With two
tasks the outbox stays open as long as writes succeed; with one it is
open between the clearing and the end of the task.

# The argument

`LateSend` is that step. Without one, `Swept` holds: past the clearing
no call waits for a waiter that is still in the map. With one, `Held`
holds of that call from then on, since a question about a waiter that
waits is not answered, no task removes a waiter, and the reader does not
come back. So the two sides of `no_stranded_call_iff` are two inductions
over the run, one for each.
-/
import SapAutomate.Proofs.ClientCalls

namespace SapAutomate.Mcp.Client

open Interact Json

variable {R : Type} {v : Spawn}

-- =========================================================== statements

/-- The map has been cleared. -/
def ReaderPhase.pastClear : ReaderPhase → Bool
  | .cleared => true
  | .ended => true
  | _ => false

/-- Task `i` is at its waiter. -/
def Awaits (s : State R) (i : Nat) (id : Int) : Prop :=
  ∃ (t : Task ClientIface (Job R) (Return R))
    (k : Option Response → Prog ClientIface (Return R)),
    s.pool.tasks[i]? = some t ∧ t.prog = atDesk (.await id) k

/-- It waits for what nothing will ever resolve or drop. -/
def Stranded (v : Spawn) (s : State R) (i : Nat) : Prop :=
  ∃ id, Awaits s i id ∧ ∀ as s', (machine R v).run as s = some s' →
    (s'.desk.slots id).outcome = none

/-- A call that has left its waiter in the cleared map has its request
accepted. -/
def LateSend (a : Act R) (s : State R) : Prop :=
  s.reader.pastClear = true ∧ s.desk.outbox.alive = true
    ∧ ∃ (i : Nat) (w : Answers DelegateIface)
        (t : Task ClientIface (Job R) (Return R)) (id : Int)
        (method : String) (params : Option Value)
        (k : Bool → Prog ClientIface (Return R)),
      a = .resume i w ∧ s.pool.tasks[i]? = some t
        ∧ t.prog = atDesk (.send (.request (requestOf id method params))) k
        ∧ s.desk.slots id = .waiting

/-- No call waits for good, each that waits can end, and each that is
over has its response or knows that the transport is closed. -/
structure NoStrandedCall (v : Spawn) (s : State R) : Prop where
  stranded : ∀ i, ¬ Stranded v s i
  wakes : ∀ i id, Awaits s i id → ∀ w, ∃ s', (machine R v).step (.resume i w) s
      = some s' ∧ ∃ (t : Task ClientIface (Job R) (Return R))
        (r : McpResult R), s'.pool.tasks[i]? = some t
          ∧ t.prog = .done (.call r)
  ends : ∀ (i : Nat) (t : Task ClientIface (Job R) (Return R))
    (r : McpResult R), s.pool.tasks[i]? = some t →
    t.prog = .done (.call r) → r = .error .transportClosed
      ∨ ∃ method params decode id response,
        t.call = .call method params decode
          ∧ awaited id (some response) ∈ s.pool.own i
          ∧ r = outcome decode response

-- ====================================================== tasks at a question

/-- What a task asks that is no call. -/
def Minor (q : ClientIface.Query) : Prop :=
  (∃ m : Message, m.requestNumber = none ∧ q = .inl (.send m))
    ∨ ∃ p, q = .inr (.onElicit p)

theorem reply_asks (r : Response) : (reply r).Asks Minor :=
  ⟨.inl ⟨.response r, rfl, rfl⟩, fun _ => trivial⟩

theorem handle_asks (req : Request) : (handleServerRequest req).Asks Minor := by
  unfold handleServerRequest
  by_cases hmethod : req.method = "elicitation/create"
  · rw [if_pos hmethod]
    cases req.params.bind ElicitationParams.ofJson with
    | none => exact reply_asks _
    | some p => exact ⟨.inr ⟨p, rfl⟩, fun result => reply_asks _⟩
  · rw [if_neg hmethod]
    exact reply_asks _

/-- A task is a call, at one of its places, or asks for minor things. -/
theorem Sound.task {s : State R} (h : Sound v s) {i : Nat}
    {t : Task ClientIface (Job R) (Return R)}
    (ht : s.pool.tasks[i]? = some t) :
    (∃ method params decode, t.call = .call method params decode
        ∧ CallAt method params decode (s.pool.own i) t.prog)
      ∨ (t.prog.Asks Minor ∧ ∀ r, t.prog ≠ .done (.call r)) := by
  have hleft := h.tracked.left i t ht
  cases hcall : t.call with
  | call method params decode =>
      rw [hcall] at hleft
      exact .inl ⟨method, params, decode, rfl, call_left hleft⟩
  | notify method params =>
      rw [hcall] at hleft
      refine .inr ⟨Prog.Asks.left ?_ hleft, ?_⟩
      · exact ⟨.inl ⟨.notification _, rfl, rfl⟩, fun _ => trivial⟩
      · intro r hr
        rw [hr] at hleft
        rcases left_atDesk.mp hleft with ⟨-, hk⟩ | ⟨_, _, -, hk⟩
        · cases hk
        · cases (Prog.left_done.mp hk).2
  | handle req =>
      rw [hcall] at hleft
      refine .inr ⟨Prog.Asks.left ?_ hleft, ?_⟩
      · exact Prog.asks_bind (handle_asks req) fun _ => trivial
      · intro r hr
        rw [hr] at hleft
        have hsat : (body (.handle req) : Prog ClientIface (Return R)).Sat
            fun _ a => a = .handled := by
          rw [body, Prog.sat_bind]
          exact (handle_sat req).mono fun _ _ _ => rfl
        cases hleft.sat hsat

/-- A task at a waiter is a call that has left it and sent its
request. -/
theorem Sound.awaits {s : State R} (h : Sound v s) {i : Nat} {id : Int}
    (ha : Awaits s i id) : ∃ method params decode,
      s.pool.calls[i]? = some (.call method params decode)
        ∧ s.pool.own i = [fetched id, inserted id,
          sent (.request (requestOf id method params)) true] := by
  obtain ⟨t, k, ht, hprog⟩ := ha
  rcases h.task ht with ⟨method, params, decode, hcall, hat⟩ | ⟨hminor, -⟩
  · generalize s.pool.own i = tr at hat
    rw [hprog] at hat
    generalize hp : (atDesk (.await id) k : Prog ClientIface (Return R))
      = prog at hat
    cases hat with
    | waiting n k =>
        cases hp
        refine ⟨method, params, decode, ?_, rfl⟩
        rw [Pool.calls, List.getElem?_map, ht, ← hcall]
        rfl
    | _ => cases hp
  · rw [hprog] at hminor
    rcases hminor.1 with ⟨m, -, hq⟩ | ⟨p, hq⟩
    · cases hq
    · cases hq

/-- So its waiter is used. -/
theorem Sound.awaits_used {s : State R} (h : Sound v s) {i : Nat} {id : Int}
    (ha : Awaits s i id) : s.desk.slots id ≠ .unused := by
  obtain ⟨method, params, decode, -, hown⟩ := h.awaits ha
  have hin : id ∈ (s.pool.own i).filterMap insertedId := by
    rw [hown]
    exact List.mem_singleton_self id
  rw [h.recorded.used id]
  exact ((Pool.own_sublist_history i).filterMap _).subset hin

/-- A task about to send a request is a call that has left its waiter. -/
theorem Sound.sending {s : State R} (h : Sound v s) {i : Nat}
    {t : Task ClientIface (Job R) (Return R)}
    (ht : s.pool.tasks[i]? = some t) {id : Int} {method : String}
    {params : Option Value} {k : Bool → Prog ClientIface (Return R)}
    (hprog : t.prog
      = atDesk (.send (.request (requestOf id method params))) k) :
    ∃ decode, t.call = .call method params decode
      ∧ s.pool.own i = [fetched id, inserted id] := by
  rcases h.task ht with ⟨method', params', decode, hcall, hat⟩ | ⟨hminor, -⟩
  · generalize s.pool.own i = tr at hat
    generalize hp : t.prog = prog at hat
    rw [hprog] at hp
    cases hat with
    | left n k =>
        cases hp
        exact ⟨decode, hcall, rfl⟩
    | _ => cases hp
  · rw [hprog] at hminor
    rcases hminor.1 with ⟨m, hm, hq⟩ | ⟨p, hq⟩
    · cases hq
      cases hm
    · cases hq

/-- A new task is at no waiter. -/
theorem body_ne_await (job : Job R) {id : Int}
    (k : Option Response → Prog ClientIface (Return R)) :
    body job ≠ atDesk (.await id) k := by
  intro h
  cases job with
  | call method params decode => cases h
  | notify method params => cases h
  | handle req =>
      have hbody : (body (.handle req) : Prog ClientIface (Return R)).Asks
          Minor := Prog.asks_bind (handle_asks req) fun _ => trivial
      rw [h] at hbody
      rcases hbody.1 with ⟨m, -, hq⟩ | ⟨p, hq⟩
      · cases hq
      · cases hq

/-- No task removes a waiter. -/
theorem Sound.not_remove {s : State R} (h : Sound v s) {i : Nat}
    {t : Task ClientIface (Job R) (Return R)}
    (ht : s.pool.tasks[i]? = some t) {id : Int}
    (k : Unit → Prog ClientIface (Return R)) :
    t.prog ≠ atDesk (.remove id) k := by
  intro hprog
  rcases h.task ht with ⟨method, params, decode, -, hat⟩ | ⟨hminor, -⟩
  · generalize s.pool.own i = tr at hat
    generalize hp : t.prog = prog at hat
    rw [hprog] at hp
    cases hat with
    | _ => cases hp
  · rw [hprog] at hminor
    rcases hminor.1 with ⟨m, -, hq⟩ | ⟨p, hq⟩
    · cases hq
    · cases hq

-- ========================================================= after the clearing

/-- Past the clearing no call waits for a waiter that is in the map. -/
def Swept (s : State R) : Prop :=
  s.reader.pastClear = true → ∀ i id, Awaits s i id →
    s.desk.slots id ≠ .waiting

/-- Past the clearing task `i` waits for a waiter that is in the map. -/
def Held (i : Nat) (id : Int) (s : State R) : Prop :=
  s.reader.pastClear = true ∧ Awaits s i id ∧ s.desk.slots id = .waiting

/-- Outside the tasks, a step that is past the clearing either was there
before and touches no waiter, or is the clearing. -/
theorem read_pastClear {s s' : State R} (hstep : s.read v = some s')
    (hpast : s'.reader.pastClear = true) :
    s'.pool.tasks = s.pool.tasks
      ∧ ((s.reader.pastClear = true ∧ s'.desk.slots = s.desk.slots)
        ∨ ∀ id, s'.desk.slots id ≠ .waiting) := by
  rcases read_cases hstep with ⟨x, hreader, rfl⟩ | ⟨hreader, rfl⟩
    | ⟨hreader, hv, rfl⟩ | ⟨hreader, hv, rfl⟩
  · exfalso
    have hafter : (State.afterHanding (x.step s.desk).1).pastClear = true :=
      hpast
    cases hx : (x.step s.desk).1 with
    | none =>
        rw [hx] at hafter
        cases hafter
    | some y =>
        rw [hx] at hafter
        cases hafter
  · exact ⟨rfl, .inr fun id => (Desk.clear_slots s.desk id).1⟩
  · exact ⟨rfl, .inl ⟨by rw [hreader]; rfl, rfl⟩⟩
  · exact ⟨rfl, .inl ⟨by rw [hreader]; rfl, rfl⟩⟩

theorem drain_pastClear {s s' : State R} (hstep : s.drain v = some s') :
    s'.pool.tasks = s.pool.tasks ∧ s'.reader = s.reader
      ∧ s'.desk.slots = s.desk.slots := by
  rcases drain_cases hstep with ⟨m, -, -, -, rfl⟩ | ⟨-, -, rfl⟩
  · exact ⟨rfl, rfl, rfl⟩
  · exact ⟨rfl, rfl, rfl⟩

theorem write_pastClear {s s' : State R} {ok : Bool}
    (hstep : s.write v ok = some s') :
    s'.pool = s.pool ∧ (s'.reader = s.reader
      ∨ (s'.reader = .closing ∧ v = .delegate ∧ ∃ m, s.writer = .writing m)) := by
  rcases write_cases hstep with ⟨m, -, -, rfl⟩ | ⟨m, -, -, -, rfl⟩
    | ⟨m, hwriter, -, hv, rfl⟩
  · exact ⟨rfl, .inl rfl⟩
  · exact ⟨rfl, .inl rfl⟩
  · exact ⟨rfl, .inr ⟨rfl, hv, m, hwriter⟩⟩

/-- Nothing is read past the clearing, nor is a reading past it. -/
theorem recv_pastClear {s s' : State R} {x : Received}
    (hstep : (machine R v).step (.recv x) s = some s') :
    s.reader.pastClear = false ∧ s'.reader.pastClear = false := by
  have hif : (if s.canRecv v then some (s.receive x) else none) = some s' :=
    hstep
  by_cases hrecv : s.canRecv v = true
  · rw [if_pos hrecv, Option.some.injEq] at hif
    obtain ⟨hreader, -⟩ := canRecv_eq_true hrecv
    refine ⟨by rw [hreader]; rfl, ?_⟩
    rw [← hif]
    cases x with
    | eof => rfl
    | error => rfl
    | message m =>
        cases m with
        | notification n =>
            show s.reader.pastClear = false
            rw [hreader]
            rfl
        | request req =>
            show s.reader.pastClear = false
            rw [hreader]
            rfl
        | response r =>
            obtain ⟨jsonrpc, id, result, error⟩ := r
            cases id with
            | number n => rfl
            | _ =>
                show s.reader.pastClear = false
                rw [hreader]
                rfl
  · rw [if_neg hrecv] at hif
    cases hif

/-- A task that is at a waiter after a step was there before, or has just
had its request accepted. -/
theorem Sound.awaits_before {s : State R} (h : Sound v s) {j : Nat}
    {w : Answers DelegateIface} {p : Pool ClientIface (Job R)
      (Answers DelegateIface) (Desk Message Response) (Return R)}
    (hres : s.pool.resume clientShared j w = some p) {i : Nat} {id : Int}
    (ha : Awaits { s with pool := p } i id) :
    Awaits s i id ∨ (p.shared.slots = s.desk.slots
      ∧ s.desk.outbox.alive = true
      ∧ ∃ (t : Task ClientIface (Job R) (Return R)) (method : String)
          (params : Option Value) (k : Bool → Prog ClientIface (Return R)),
        i = j ∧ s.pool.tasks[i]? = some t
          ∧ t.prog = atDesk (.send (.request (requestOf id method params))) k)
    := by
  obtain ⟨method, params, decode, -, hown⟩ := (h.resume hres).awaits ha
  obtain ⟨t, q, k, r, ht, hprog, hans, hsnoc, -, hothers⟩ :=
    Pool.resume_spec hres
  by_cases hij : i = j
  · -- the last thing it has asked is whether its request is accepted
    right
    subst hij
    have hown' : p.own i = [fetched id, inserted id]
      ++ [sent (.request (requestOf id method params)) true] := hown
    rw [hsnoc] at hown'
    have hlast := List.append_inj_right' hown' rfl
    have hx : (⟨q, r⟩ : Exchange ClientIface)
        = sent (.request (requestOf id method params)) true :=
      List.head_eq_of_cons_eq hlast
    cases hx
    obtain ⟨halive, hslots⟩ := answer_send hans
    exact ⟨hslots, halive.symm, t, method, params, k, rfl, ht, hprog⟩
  · left
    obtain ⟨u, k', hu, huprog⟩ := ha
    exact ⟨u, k', (hothers i hij).2 ▸ hu, huprog⟩

/-- One step keeps the map swept, unless it is a late send. -/
theorem Swept.step {a : Act R} {s s' : State R} (h : Sound v s)
    (hs : Swept s) (hlate : ¬ LateSend a s)
    (hstep : (machine R v).step a s = some s') : Swept s' := by
  intro hpast i id ha hw
  have hold : s.reader.pastClear = true → s'.pool.tasks = s.pool.tasks →
      s'.desk.slots = s.desk.slots → False := by
    intro hp htasks hslots
    obtain ⟨t, k, ht, hprog⟩ := ha
    rw [htasks] at ht
    rw [hslots] at hw
    exact hs hp i id ⟨t, k, ht, hprog⟩ hw
  cases a with
  | spawn job =>
      have hs' : s' = s.spawn job := by
        cases job with
        | handle req => cases hstep
        | _ => exact (Option.some.inj hstep).symm
      rw [hs'] at ha hpast hw
      obtain ⟨t, k, ht, hprog⟩ := ha
      rcases getElem?_snoc.mp ht with ht | ⟨-, ht⟩
      · exact hs hpast i id ⟨t, k, ht, hprog⟩ hw
      · rw [ht] at hprog
        exact body_ne_await job k hprog
  | resume j w =>
      obtain ⟨p, hres, rfl⟩ := Option.map_eq_some_iff.mp hstep
      rcases h.awaits_before hres ha with hbefore | ⟨hslots, halive, t,
        method, params, k, rfl, ht, hprog⟩
      · -- its waiter was used, so nothing but waiting has made it wait
        have hasked := (Recorded.resume h.tracked body_orderly h.recorded
          hres).2
        rcases hasked.slots id with hsame | ⟨hnew, -⟩ | ⟨hbefore', -⟩
        · exact hs hpast i id hbefore (hsame ▸ hw)
        · exact h.awaits_used hbefore hnew
        · exact hs hpast i id hbefore hbefore'
      · apply hlate
        have hw' : s.desk.slots id = .waiting := hslots ▸ hw
        exact ⟨hpast, halive, i, w, t, id, method, params, k, rfl, ht, hprog,
          hw'⟩
  | recv x =>
      rw [(recv_pastClear hstep).2] at hpast
      cases hpast
  | read =>
      obtain ⟨htasks, ⟨hp, hslots⟩ | hnone⟩ := read_pastClear hstep hpast
      · exact hold hp htasks hslots
      · exact hnone id hw
  | drain =>
      obtain ⟨htasks, hreader, hslots⟩ := drain_pastClear hstep
      exact hold (hreader ▸ hpast) htasks hslots
  | write ok =>
      obtain ⟨hpool, hreader | ⟨hreader, -⟩⟩ := write_pastClear hstep
      · exact hold (hreader ▸ hpast) (by rw [hpool]) (by rw [State.desk, hpool])
      · rw [hreader] at hpast
        cases hpast

/-- Whatever happens, a call that is held stays so. -/
theorem Held.step {a : Act R} {s s' : State R} {i : Nat} {id : Int}
    (h : Sound v s) (hs : Held i id s)
    (hstep : (machine R v).step a s = some s') : Held i id s' := by
  obtain ⟨hpast, ⟨t, k, ht, hprog⟩, hw⟩ := hs
  cases a with
  | spawn job =>
      have hs' : s' = s.spawn job := by
        cases job with
        | handle req => cases hstep
        | _ => exact (Option.some.inj hstep).symm
      rw [hs']
      exact ⟨hpast, ⟨t, k, getElem?_snoc.mpr (.inl ht), hprog⟩, hw⟩
  | resume j w =>
      obtain ⟨p, hres, rfl⟩ := Option.map_eq_some_iff.mp hstep
      obtain ⟨u, q, k', r, hu, huprog, hans, -, -, hothers⟩ :=
        Pool.resume_spec hres
      have hne : i ≠ j := by
        -- its own question is not answered
        intro hij
        subst hij
        rw [ht, Option.some.injEq] at hu
        rw [← hu, hprog] at huprog
        cases huprog
        have hout := (answer_await hans).1
        rw [hw] at hout
        cases hout
      refine ⟨hpast, ⟨t, k, (hothers i hne).2.trans ht, hprog⟩, ?_⟩
      refine answer_waiting ?_ hans hw
      intro hq
      subst hq
      exact h.not_remove hu k' huprog
  | recv x =>
      rw [(recv_pastClear hstep).1] at hpast
      cases hpast
  | read =>
      rcases read_cases hstep with ⟨x, hreader, -⟩ | ⟨hreader, -⟩
        | ⟨-, -, rfl⟩ | ⟨-, -, rfl⟩
      · rw [hreader] at hpast
        cases hpast
      · rw [hreader] at hpast
        cases hpast
      · exact ⟨rfl, ⟨t, k, ht, hprog⟩, hw⟩
      · exact ⟨rfl, ⟨t, k, ht, hprog⟩, hw⟩
  | drain =>
      obtain ⟨htasks, hreader, hslots⟩ := drain_pastClear hstep
      exact ⟨hreader ▸ hpast, ⟨t, k, htasks ▸ ht, hprog⟩, hslots ▸ hw⟩
  | write ok =>
      obtain ⟨hpool, hreader | ⟨-, hv, m, hwriter⟩⟩ := write_pastClear hstep
      · refine ⟨hreader ▸ hpast, ⟨t, k, ?_, hprog⟩, ?_⟩
        · rw [hpool]
          exact ht
        · rw [State.desk, hpool]
          exact hw
      · rw [h.single hv m hwriter] at hpast
        cases hpast

theorem Held.run {as : List (Act R)} {s s' : State R} {i : Nat} {id : Int}
    (h : Sound v s) (hs : Held i id s)
    (hrun : (machine R v).run as s = some s') : Held i id s' := by
  have hboth : Sound v s' ∧ Held i id s' := Machine.run_invariant
    (I := fun s => Sound v s ∧ Held i id s)
    (fun _ _ _ _ h hstep => ⟨h.1.step hstep, h.2.step h.1 hstep⟩)
    ⟨h, hs⟩ (Machine.meets_true as s) hrun
  exact hboth.2

/-- A late send leaves its call held. -/
theorem LateSend.held {a : Act R} {s s' : State R} (h : Sound v s)
    (hlate : LateSend a s) (hstep : (machine R v).step a s = some s') :
    ∃ i id, Held i id s' := by
  obtain ⟨hpast, halive, i, w, t, id, method, params, k, rfl, ht, hprog, hw⟩ :=
    hlate
  have hsound := h.step hstep
  obtain ⟨p, hres, rfl⟩ := Option.map_eq_some_iff.mp hstep
  obtain ⟨u, q, k', ok, hu, huprog, hans, hsnoc, hu', -⟩ :=
    Pool.resume_spec hres
  rw [ht, Option.some.injEq] at hu
  subst hu
  rw [hprog] at huprog
  cases huprog
  obtain ⟨hok, hslots⟩ := answer_send hans
  rw [halive] at hok
  subst hok
  refine ⟨i, id, hpast, ?_, hslots ▸ hw⟩
  -- by what it has asked, the call is now at its waiter
  obtain ⟨decode, hcall, hown⟩ := h.sending ht hprog
  have hleft := hsound.tracked.left i _ hu'
  have hnow : ({ s with pool := p } : State R).pool.own i
      = [fetched id, inserted id,
        sent (.request (requestOf id method params)) true] := by
    show p.own i = _
    rw [hsnoc, hown]
    rfl
  rw [hnow] at hleft
  change (body t.call).Left _ (k true) at hleft
  rw [hcall] at hleft
  generalize htr : ([fetched id, inserted id,
    sent (.request (requestOf id method params)) true] :
      List (Exchange ClientIface)) = tr at hleft
  generalize hk : k true = prog at hleft
  cases call_left hleft with
  | waiting n k' =>
      cases htr
      exact ⟨_, k', hu', hk⟩
  | _ => cases htr

-- ============================================================= the result

/-- Where the reader is gone, a waiter waits or has its outcome. -/
theorem Sound.settled {s : State R} (h : Sound v s)
    (hended : s.reader = .ended) {i : Nat} {id : Int} (ha : Awaits s i id) :
    s.desk.slots id = .waiting
      ∨ ∃ o, (s.desk.slots id).outcome = some o := by
  have hhanded := h.handed
  rw [hended] at hhanded
  cases hs : s.desk.slots id with
  | unused => exact absurd hs (h.awaits_used ha)
  | waiting => exact .inl rfl
  | taken =>
      obtain ⟨r, hr⟩ := (hhanded.taken id).mp hs
      cases hr
  | resolved r => exact .inr ⟨some r, rfl⟩
  | dropped => exact .inr ⟨none, rfl⟩

theorem Held.stranded {s : State R} {i : Nat} {id : Int} (h : Sound v s)
    (hs : Held i id s) : Stranded v s i := by
  refine ⟨id, hs.2.1, ?_⟩
  intro as s' hrun
  rw [(hs.run h hrun).2.2]
  rfl

/-- A call whose waiter has an outcome ends. -/
theorem Sound.wake {s : State R} (h : Sound v s) {i : Nat} {id : Int}
    (ha : Awaits s i id) {o : Option Response}
    (ho : (s.desk.slots id).outcome = some o) (w : Answers DelegateIface) :
    ∃ s', (machine R v).step (.resume i w) s = some s'
      ∧ ∃ (t : Task ClientIface (Job R) (Return R)) (r : McpResult R),
        s'.pool.tasks[i]? = some t ∧ t.prog = .done (.call r) := by
  obtain ⟨method, params, decode, hcalls, hown⟩ := h.awaits ha
  obtain ⟨t, k, ht, hprog⟩ := ha
  have hans : clientShared.answer w (.inl (.await id)) s.pool.shared
      = some (o, s.desk) := by
    show (s.desk.slots id).outcome.map _ = _
    rw [ho]
    rfl
  obtain ⟨p, hres⟩ := Pool.resume_of_answer ht hprog hans
  have hsound := h.resume hres
  obtain ⟨u, q, k', r, hu, huprog, -, hsnoc, hu', -⟩ := Pool.resume_spec hres
  rw [ht, Option.some.injEq] at hu
  subst hu
  rw [hprog] at huprog
  cases huprog
  refine ⟨{ s with pool := p }, Option.map_eq_some_iff.mpr ⟨p, hres, rfl⟩,
    ⟨t.call, t.start, k r⟩, ?_⟩
  -- it has had its answer, so there is nothing left but the result
  have hcall : t.call = .call method params decode := by
    rw [Pool.calls, List.getElem?_map, ht] at hcalls
    exact Option.some.inj hcalls
  have hleft := hsound.tracked.left i _ hu'
  change (body t.call).Left (p.own i) (k r) at hleft
  rw [hcall, hsnoc, hown] at hleft
  generalize htr : ([fetched id, inserted id,
    sent (.request (requestOf id method params)) true]
      ++ [awaited id r] : List (Exchange ClientIface)) = tr at hleft
  generalize hk : k r = prog at hleft
  cases call_left hleft with
  | dropped n => exact ⟨_, hk ▸ hu', rfl⟩
  | answered n response => exact ⟨_, hk ▸ hu', rfl⟩
  | _ => cases htr

/-- What an ended call has come to. -/
theorem Sound.ends {s : State R} (h : Sound v s) {i : Nat}
    {t : Task ClientIface (Job R) (Return R)} {r : McpResult R}
    (ht : s.pool.tasks[i]? = some t) (hdone : t.prog = .done (.call r)) :
    r = .error .transportClosed
      ∨ ∃ method params decode id response,
        t.call = .call method params decode
          ∧ awaited id (some response) ∈ s.pool.own i
          ∧ r = outcome decode response := by
  rcases h.task ht with ⟨method, params, decode, hcall, hat⟩ | ⟨-, hminor⟩
  · generalize s.pool.own i = tr at hat ⊢
    generalize hp : t.prog = prog at hat
    rw [hdone] at hp
    cases hat with
    | refused id =>
        cases hp
        exact .inl rfl
    | dropped id =>
        cases hp
        exact .inl rfl
    | answered id response =>
        cases hp
        exact .inr ⟨method, params, decode, id, response, hcall,
          by simp, rfl⟩
    | _ => cases hp
  · exact absurd hdone (hminor r)

/-- When the reader is gone, no call is stranded, provided that none has
left its waiter after the clearing and had its request accepted; and
only then. -/
theorem no_stranded_call_iff (R : Type) (v : Spawn) (as : List (Act R))
    (s : State R) (hrun : (machine R v).Runs as s)
    (hended : s.reader = .ended) :
    NoStrandedCall v s
      ↔ (machine R v).Meets (fun a s => ¬ LateSend a s) as
          (machine R v).init := by
  have hsound : Sound v s := Sound.reachable ⟨as, hrun⟩
  constructor
  · intro hnone
    refine Machine.run_avoids (J := Sound v)
      (I := fun s => ∃ i id, Held i id s) (fun _ _ _ h hstep => h.step hstep)
      (fun _ _ _ h hlate hstep => hlate.held h hstep) ?_ sound_init hrun ?_
    · intro a t t' h hheld hstep
      obtain ⟨i, id, hheld⟩ := hheld
      exact ⟨i, id, hheld.step h hstep⟩
    · intro hheld
      obtain ⟨i, id, hheld⟩ := hheld
      exact hnone.stranded i (hheld.stranded hsound)
  · intro hmeets
    have hswept : Sound v s ∧ Swept s := by
      refine Machine.run_invariant (I := fun s => Sound v s ∧ Swept s) ?_ ?_
        hmeets hrun
      · intro a t t' hlate h hstep
        exact ⟨h.1.step hstep, h.2.step h.1 hlate hstep⟩
      · exact ⟨sound_init, fun hpast => nomatch hpast⟩
    have hout : ∀ i id, Awaits s i id →
        ∃ o, (s.desk.slots id).outcome = some o := by
      intro i id ha
      rcases hsound.settled hended ha with hw | ho
      · exact absurd hw (hswept.2 (by rw [hended]; rfl) i id ha)
      · exact ho
    constructor
    · intro i hstranded
      obtain ⟨id, ha, hnever⟩ := hstranded
      obtain ⟨o, ho⟩ := hout i id ha
      have hnone := hnever [] s rfl
      rw [ho] at hnone
      cases hnone
    · intro i id ha w
      obtain ⟨o, ho⟩ := hout i id ha
      exact hsound.wake ha ho w
    · intro i t r ht hdone
      exact hsound.ends ht hdone

-- ================================================================= runs

/-- The delegate of these runs. -/
def declineAll : Answers DelegateIface := fun _ => .decline

/-- `ping`, as a call that wants nothing. -/
def pingCall : Job Unit := .call "ping" none fun _ => .ok ()

/-- The transport is at its end, the map is cleared, and then a call
comes, up to its send; with one task its receiver goes after that. -/
def lateRun : Spawn → List (Act Unit)
  | .halves => [.recv .eof, .read, .read, .spawn pingCall,
      .resume 0 declineAll, .resume 0 declineAll, .resume 0 declineAll]
  | .delegate => [.recv .eof, .read, .spawn pingCall,
      .resume 0 declineAll, .resume 0 declineAll, .resume 0 declineAll, .read]

/-- Either client strands that call. -/
theorem call_stranded :
    (¬ ∀ (as : List (Act Unit)) (s : State Unit),
        (machine Unit .halves).Runs as s → s.reader = .ended →
        ∀ i, ¬ Stranded .halves s i)
      ∧ ¬ ∀ (as : List (Act Unit)) (s : State Unit),
        (machine Unit .delegate).Runs as s → s.reader = .ended →
        ∀ i, ¬ Stranded .delegate s i := by
  constructor
  · intro h
    refine h (lateRun .halves) _ rfl rfl 0 ?_
    exact Held.stranded (Sound.reachable ⟨lateRun .halves, rfl⟩)
      (show Held 0 1 _ from ⟨rfl, ⟨_, _, rfl, rfl⟩, rfl⟩)
  · intro h
    refine h (lateRun .delegate) _ rfl rfl 0 ?_
    exact Held.stranded (Sound.reachable ⟨lateRun .delegate, rfl⟩)
      (show Held 0 1 _ from ⟨rfl, ⟨_, _, rfl, rfl⟩, rfl⟩)

/-- A call that is under way when the transport ends. -/
def earlyRun : List (Act Unit) :=
  [.spawn pingCall, .resume 0 declineAll, .resume 0 declineAll,
    .resume 0 declineAll, .recv .eof, .read, .read, .resume 0 declineAll]

theorem not_lateSend {a : Act R} {s : State R}
    (h : s.reader.pastClear = false) : ¬ LateSend a s := by
  intro hlate
  rw [hlate.1] at h
  cases h

theorem no_stranded_call_early :
    ∃ s, (machine Unit .halves).Runs earlyRun s
      ∧ NoStrandedCall .halves s := by
  refine ⟨_, rfl, (no_stranded_call_iff Unit .halves earlyRun _ rfl rfl).mpr ?_⟩
  unfold earlyRun
  iterate 6
    apply Machine.meets_cons rfl (not_lateSend rfl)
  apply Machine.meets_cons rfl
  · intro hlate
    obtain ⟨-, -, i, w, t, id, method, params, k, ha, -⟩ := hlate
    cases ha
  apply Machine.meets_cons rfl
  · -- the call goes on from its waiter
    intro hlate
    obtain ⟨-, -, i, w, t, id, method, params, k, ha, ht, hprog, -⟩ := hlate
    cases ha
    cases ht
    cases hprog
  trivial

end SapAutomate.Mcp.Client
