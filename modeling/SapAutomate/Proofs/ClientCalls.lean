/-
What holds of a client along every run, whatever the transport gives it
and however its tasks are scheduled.

`Sound` is kept by every step. Its parts are those of a pool at a desk,
with the reader as the one who hands responses over: waiters hold
responses that were read under their number, and the tasks that answer
the server are, in order, those of the requests that were read.
-/
import SapAutomate.Mcp.Client

namespace SapAutomate.Mcp.Client

open Interact Json

variable {R : Type} {v : Spawn}

-- ============================================================ the bodies

/-- The delegate is asked. -/
abbrev consulted (p : ElicitationParams) (result : ElicitationResult) :
    Exchange ClientIface := ⟨.inr (.onElicit p), result⟩

/-- Where a call is, by what it has asked. -/
inductive CallAt (method : String) (params : Option Value)
    (decode : Value → Except String R) :
    List (Exchange ClientIface) → Prog ClientIface (Return R) → Prop where
  | start (k : Int → Prog ClientIface (Return R)) :
      CallAt method params decode [] (atDesk .fetchId k)
  | numbered (id : Int) (k : Unit → Prog ClientIface (Return R)) :
      CallAt method params decode [fetched id] (atDesk (.insert id) k)
  | left (id : Int) (k : Bool → Prog ClientIface (Return R)) :
      CallAt method params decode [fetched id, inserted id]
        (atDesk (.send (.request (requestOf id method params))) k)
  | refused (id : Int) :
      CallAt method params decode [fetched id, inserted id,
          sent (.request (requestOf id method params)) false]
        (.done (.call (.error .transportClosed)))
  | waiting (id : Int)
      (k : Option Response → Prog ClientIface (Return R)) :
      CallAt method params decode [fetched id, inserted id,
          sent (.request (requestOf id method params)) true]
        (atDesk (.await id) k)
  | dropped (id : Int) :
      CallAt method params decode [fetched id, inserted id,
          sent (.request (requestOf id method params)) true,
          awaited id none]
        (.done (.call (.error .transportClosed)))
  | answered (id : Int) (r : Response) :
      CallAt method params decode [fetched id, inserted id,
          sent (.request (requestOf id method params)) true,
          awaited id (some r)]
        (.done (.call (outcome decode r)))

/-- Those are all the places a call can be at. -/
theorem call_left {method : String} {params : Option Value}
    {decode : Value → Except String R} {tr : List (Exchange ClientIface)}
    {prog : Prog ClientIface (Return R)}
    (h : (body (.call method params decode)).Left tr prog) :
    CallAt method params decode tr prog := by
  simp only [body, call, atDesk_bind] at h
  rcases left_atDesk.mp h with ⟨rfl, rfl⟩ | ⟨id, tr₁, rfl, h₁⟩
  · exact .start _
  rcases left_atDesk.mp h₁ with ⟨rfl, rfl⟩ | ⟨_, tr₂, rfl, h₂⟩
  · exact .numbered id _
  rcases left_atDesk.mp h₂ with ⟨rfl, rfl⟩ | ⟨ok, tr₃, rfl, h₃⟩
  · exact .left id _
  cases ok with
  | false =>
      obtain ⟨rfl, rfl⟩ := Prog.left_done.mp h₃
      exact .refused id
  | true =>
      rcases left_atDesk.mp h₃ with ⟨rfl, rfl⟩ | ⟨r, tr₄, rfl, h₄⟩
      · exact .waiting id _
      cases r with
      | none =>
          obtain ⟨rfl, rfl⟩ := Prog.left_done.mp h₄
          exact .dropped id
      | some r =>
          obtain ⟨rfl, rfl⟩ := Prog.left_done.mp h₄
          exact .answered id r

/-- Sending what asks for no response. -/
theorem closed_send {m : Message} (hm : m.requestNumber = none) (ok : Bool) :
    Closed Message.requestNumber
      ([sent m ok] : List (Exchange ClientIface)) := by
  apply closed_of_quiet rfl rfl rfl
  simp only [List.filterMap, sentNumber, hm]

theorem reply_sat (r : Response) : (reply r).Sat fun tr _ =>
    ∃ ok, tr = [sent (.response r) ok] := by
  intro ok
  exact ⟨ok, rfl⟩

/-- What a task has asked that answers the server: nothing but, perhaps,
the delegate, and then the response goes out, under the request's id. -/
theorem handle_sat (req : Request) :
    (handleServerRequest req).Sat fun tr _ => ∃ r ok, r.id = req.id
      ∧ (tr = [sent (.response r) ok]
        ∨ ∃ p result, req.method = "elicitation/create"
          ∧ req.params.bind ElicitationParams.ofJson = some p
          ∧ r = .success req.id (ElicitationResult.toJson result)
          ∧ tr = [consulted p result, sent (.response r) ok]) := by
  unfold handleServerRequest
  by_cases hmethod : req.method = "elicitation/create"
  · rw [if_pos hmethod]
    cases hparams : req.params.bind ElicitationParams.ofJson with
    | none =>
        refine (reply_sat _).mono fun tr _ h => ?_
        obtain ⟨ok, rfl⟩ := h
        exact ⟨_, ok, rfl, .inl rfl⟩
    | some p =>
        intro result
        refine (reply_sat _).mono fun tr _ h => ?_
        obtain ⟨ok, rfl⟩ := h
        exact ⟨_, ok, rfl, .inr ⟨p, result, hmethod, rfl, rfl, rfl⟩⟩
  · rw [if_neg hmethod]
    refine (reply_sat _).mono fun tr _ h => ?_
    obtain ⟨ok, rfl⟩ := h
    exact ⟨_, ok, rfl, .inl rfl⟩

/-- Every task keeps its numbers in order. -/
theorem body_orderly (job : Job R) :
    (body job).Sat fun tr _ => Orderly Message.requestNumber tr := by
  cases job with
  | call method params decode =>
      apply Prog.sat_of_left
      intro tr a h
      have hnumber : ∀ id, Message.requestNumber
          (.request (requestOf id method params)) = some id := fun _ => rfl
      generalize hprog : Prog.done a = prog at h
      cases call_left h with
      | start k => exact orderly_nil
      | numbered id k => cases hprog
      | left id k => cases hprog
      | refused id => exact (closed_request (hnumber id) false).1
      | waiting id k => cases hprog
      | dropped id =>
          exact (closed_request_then (hnumber id) true
            (x := awaited id none) rfl rfl rfl fun e he => nomatch he).1
      | answered id r =>
          exact (closed_request_then (hnumber id) true
            (x := awaited id (some r)) rfl rfl rfl
            fun e he => congrArg Prod.fst (Option.some.inj he).symm).1
  | notify method params =>
      intro ok
      exact (closed_send rfl ok).1
  | handle req =>
      rw [body, Prog.sat_bind]
      refine (handle_sat req).mono fun tr _ h => ?_
      obtain ⟨r, ok, -, htr⟩ := h
      show Orderly Message.requestNumber (tr ++ [])
      rw [List.append_nil]
      rcases htr with rfl | ⟨p, result, -, -, -, rfl⟩
      · exact (closed_send rfl ok).1
      · have hask : Closed Message.requestNumber
            ([consulted p result] :
              List (Exchange ClientIface)) :=
          closed_of_quiet rfl rfl rfl rfl
        exact (hask.append (closed_send rfl ok)).1

-- ============================================== what a step can have done

/-- The transport is read in the loop, by the one task only when it has
nothing to write. -/
theorem canRecv_eq_true {s : State R} (h : s.canRecv v = true) :
    s.reader = .receiving ∧ (v = .delegate → s.writer = .idle) := by
  unfold State.canRecv at h
  cases hreader : s.reader with
  | receiving =>
      refine ⟨rfl, ?_⟩
      intro hv
      subst hv
      cases hwriter : s.writer with
      | idle => rfl
      | _ => simp [hreader, hwriter] at h
  | _ => simp [hreader] at h

/-- All that the reader does without the transport. -/
theorem read_cases {s s' : State R} (h : s.read v = some s') :
    (∃ x, s.reader = .handing x
        ∧ s' = { s with reader := State.afterHanding (x.step s.desk).1 }.setDesk
            (x.step s.desk).2)
      ∨ (s.reader = .closing
        ∧ s' = { s with reader := .cleared }.setDesk s.desk.clear)
      ∨ (s.reader = .cleared ∧ v = .halves ∧ s' = { s with reader := .ended })
      ∨ (s.reader = .cleared ∧ v = .delegate
        ∧ s' = { s with reader := .ended, writer := .ended }.setDesk
            { s.desk with outbox := s.desk.outbox.close }) := by
  unfold State.read at h
  cases hreader : s.reader with
  | receiving =>
      rw [hreader] at h
      cases h
  | handing x =>
      rw [hreader] at h
      exact .inl ⟨x, rfl, (Option.some.inj h).symm⟩
  | closing =>
      rw [hreader] at h
      exact .inr (.inl ⟨rfl, (Option.some.inj h).symm⟩)
  | cleared =>
      rw [hreader] at h
      cases v with
      | halves =>
          exact .inr (.inr (.inl ⟨rfl, rfl, (Option.some.inj h).symm⟩))
      | delegate =>
          exact .inr (.inr (.inr ⟨rfl, rfl, (Option.some.inj h).symm⟩))
  | ended =>
      rw [hreader] at h
      cases h

/-- All that the writer does at the outbox. -/
theorem drain_cases {s s' : State R} (h : s.drain v = some s') :
    (∃ m, s.writer = .idle ∧ (v = .delegate → s.reader = .receiving)
        ∧ s.desk.outbox.accepted[s.desk.outbox.received]? = some m
        ∧ s' = { s with writer := .writing m }.setDesk { s.desk with
            outbox := { s.desk.outbox with
              received := s.desk.outbox.received + 1 } })
      ∨ (s.writer = .closing ∧ v = .halves
        ∧ s' = { s with writer := .ended }.setDesk
            { s.desk with outbox := s.desk.outbox.close }) := by
  have hrecv : ∀ {w : State R}, (s.desk.outbox.recv.map fun a =>
      { s with writer := .writing a.1 }.setDesk
        { s.desk with outbox := a.2 }) = some w →
      ∃ m, s.desk.outbox.accepted[s.desk.outbox.received]? = some m
        ∧ w = { s with writer := .writing m }.setDesk { s.desk with
            outbox := { s.desk.outbox with
              received := s.desk.outbox.received + 1 } } := by
    intro w hw
    obtain ⟨⟨m, c⟩, ha, rfl⟩ := Option.map_eq_some_iff.mp hw
    obtain ⟨hm, rfl⟩ := Channel.recv_eq_some.mp ha
    exact ⟨m, hm, rfl⟩
  unfold State.drain at h
  cases hwriter : s.writer with
  | idle =>
      simp only [hwriter] at h
      cases v with
      | halves =>
          obtain ⟨m, hm, hs'⟩ := hrecv h
          exact .inl ⟨m, rfl, (fun hv => nomatch hv), hm, hs'⟩
      | delegate =>
          cases hreader : s.reader with
          | receiving =>
              have htake : (s.desk.outbox.recv.map fun a =>
                  { s with writer := .writing a.1 }.setDesk
                    { s.desk with outbox := a.2 }) = some s' := by
                rw [hreader] at h ⊢
                exact h
              obtain ⟨m, hm, hs'⟩ := hrecv htake
              rw [hreader] at hs'
              exact .inl ⟨m, rfl, fun _ => rfl, hm, hs'⟩
          | _ =>
              simp only [hreader] at h
              cases h
  | closing =>
      simp only [hwriter] at h
      cases v with
      | halves => exact .inr ⟨rfl, rfl, (Option.some.inj h).symm⟩
      | delegate => cases h
  | writing m =>
      simp only [hwriter] at h
      cases h
  | ended =>
      simp only [hwriter] at h
      cases h

/-- All that comes of a write. -/
theorem write_cases {s s' : State R} {ok : Bool}
    (h : s.write v ok = some s') :
    (∃ m, s.writer = .writing m ∧ ok = true
        ∧ s' = { s with writer := .idle, written := s.written ++ [m] })
      ∨ (∃ m, s.writer = .writing m ∧ ok = false ∧ v = .halves
        ∧ s' = { s with writer := .closing })
      ∨ (∃ m, s.writer = .writing m ∧ ok = false ∧ v = .delegate
        ∧ s' = { s with writer := .closing, reader := .closing }) := by
  unfold State.write at h
  cases hwriter : s.writer with
  | writing m =>
      simp only [hwriter] at h
      cases ok with
      | true => exact .inl ⟨m, rfl, rfl, (Option.some.inj h).symm⟩
      | false =>
          cases v with
          | halves =>
              exact .inr (.inl ⟨m, rfl, rfl, rfl, (Option.some.inj h).symm⟩)
          | delegate =>
              exact .inr (.inr ⟨m, rfl, rfl, rfl, (Option.some.inj h).symm⟩)
  | _ =>
      simp only [hwriter] at h
      cases h

-- =========================================================== soundness

/-- The response the reader is busy with. -/
def ReaderPhase.inHand : ReaderPhase → Option (Handover Response)
  | .handing h => some h
  | _ => none

/-- The request a task answers. -/
def Job.answers : Job R → Option Request
  | .handle req => some req
  | _ => none

/-- What every run keeps. The one task writes from within its loop. -/
structure Sound (v : Spawn) (s : State R) : Prop where
  tracked : s.pool.Tracked body
  recorded : Recorded s.pool.history s.desk
  handed : Handed (s.incoming.filterMap Message.numberedResponse)
    s.reader.inHand s.desk
  answers : s.pool.calls.filterMap Job.answers
    = s.incoming.filterMap Message.asRequest
  single : v = .delegate → ∀ m, s.writer = .writing m → s.reader = .receiving

theorem sound_init : Sound v (State.init : State R) where
  tracked := Pool.tracked_empty body _
  recorded := recorded_nil 1
  handed := handed_new 1
  answers := rfl
  single _ _ h := nomatch h

/-- The desk goes on without the tasks. -/
theorem Sound.deskStep {s s' : State R} (h : Sound v s)
    (hpool : s'.pool = { s.pool with shared := s'.desk })
    (hincoming : s'.incoming = s.incoming) (hlater : Later s.desk s'.desk)
    (hhanded : Handed (s.incoming.filterMap Message.numberedResponse)
      s'.reader.inHand s'.desk)
    (hsingle : v = .delegate → ∀ m, s'.writer = .writing m →
      s'.reader = .receiving) : Sound v s' := by
  refine ⟨?_, ?_, ?_, ?_, hsingle⟩
  · rw [hpool]
    exact ⟨h.tracked.left, h.tracked.known, h.tracked.started,
      h.tracked.after⟩
  · have hrec := h.recorded.later hlater
    rw [hpool]
    exact hrec
  · rw [hincoming]
    exact hhanded
  · rw [hincoming, ← h.answers, hpool]
    rfl

theorem Sound.spawn {s : State R} (h : Sound v s) (job : Job R)
    (hjob : job.answers = none) : Sound v (s.spawn job) where
  tracked := h.tracked.spawn job
  recorded := h.recorded
  handed := h.handed
  answers := by
    show (s.pool.spawn job (body job)).calls.filterMap Job.answers = _
    rw [Pool.calls_spawn, filterMap_skip hjob]
    exact h.answers
  single := h.single

theorem Sound.resume {s : State R} (h : Sound v s) {i : Nat}
    {w : Answers DelegateIface} {p : Pool ClientIface (Job R)
      (Answers DelegateIface) (Desk Message Response) (Return R)}
    (hres : s.pool.resume clientShared i w = some p) :
    Sound v { s with pool := p } := by
  obtain ⟨hrec, hasked⟩ :=
    Recorded.resume h.tracked body_orderly h.recorded hres
  refine ⟨?_, ?_, ?_, ?_, h.single⟩
  · exact h.tracked.resume hres
  · exact hrec
  · exact h.handed.asked hasked
  · show p.calls.filterMap Job.answers = _
    rw [Pool.calls_resume hres]
    exact h.answers

/-- A message is read. -/
theorem Sound.message {s : State R} (h : Sound v s)
    (hrecv : s.canRecv v = true) (m : Message) :
    Sound v (s.receive (.message m)) := by
  obtain ⟨hreader, hidle⟩ := canRecv_eq_true hrecv
  have hnone : Handed (s.incoming.filterMap Message.numberedResponse) none
      s.desk := by
    have := h.handed
    rwa [hreader] at this
  have hmono : Handed ((s.incoming ++ [m]).filterMap
      Message.numberedResponse) none s.desk := by
    apply hnone.mono
    intro e he
    rw [List.filterMap_append]
    exact List.mem_append_left _ he
  have hstay : Handed ((s.incoming ++ [m]).filterMap
      Message.numberedResponse) s.reader.inHand s.desk := by
    rw [hreader]
    exact hmono
  have hsingle : ∀ {r : ReaderPhase}, v = .delegate → ∀ m',
      s.writer = .writing m' → r = .receiving := by
    intro r hv m' hm'
    rw [hidle hv] at hm'
    cases hm'
  cases m with
  | notification n =>
      refine ⟨h.tracked, h.recorded, hstay, ?_, hsingle⟩
      show _ = (s.incoming ++ [Message.notification n]).filterMap _
      rw [filterMap_skip rfl]
      exact h.answers
  | request req =>
      refine ⟨h.tracked.spawn (.handle req), h.recorded, hstay, ?_, hsingle⟩
      show (s.pool.spawn (.handle req) (body (.handle req))).calls.filterMap
        Job.answers = (s.incoming ++ [Message.request req]).filterMap _
      rw [Pool.calls_spawn, filterMap_snoc, filterMap_snoc, h.answers]
      rfl
  | response r =>
      obtain ⟨jsonrpc, id, result, error⟩ := r
      have hanswers : s.pool.calls.filterMap Job.answers = (s.incoming
          ++ [Message.response ⟨jsonrpc, id, result, error⟩]).filterMap
            Message.asRequest := by
        rw [filterMap_skip rfl]
        exact h.answers
      cases id with
      | number n =>
          refine ⟨h.tracked, h.recorded, hmono.start ?_, hanswers, hsingle⟩
          rw [filterMap_snoc]
          exact List.mem_append_right _ (List.mem_singleton_self _)
      | _ => exact ⟨h.tracked, h.recorded, hstay, hanswers, hsingle⟩

/-- The reading loop is left. -/
theorem Sound.leave {s : State R} (h : Sound v s)
    (hreader : s.reader = .receiving) (w : WriterPhase)
    (hw : v = .delegate → ∀ m, w ≠ .writing m) :
    Sound v { s with reader := .closing, writer := w } where
  tracked := h.tracked
  recorded := h.recorded
  handed := by
    have := h.handed
    rwa [hreader] at this
  answers := h.answers
  single hv m hm := absurd hm (hw hv m)

theorem Sound.read {s s' : State R} (h : Sound v s)
    (hstep : s.read v = some s') : Sound v s' := by
  have hhanded := h.handed
  have hquiet : s.reader ≠ .receiving → v = .delegate → ∀ m,
      s.writer ≠ .writing m := fun hne hv m hm => hne (h.single hv m hm)
  rcases read_cases hstep with ⟨x, hreader, rfl⟩ | ⟨hreader, rfl⟩
    | ⟨hreader, hv, rfl⟩ | ⟨hreader, hv, rfl⟩
  · rw [hreader] at hhanded hquiet
    obtain ⟨hnext, hlater⟩ := Handed.step hhanded
    refine h.deskStep rfl rfl hlater ?_ ?_
    · show Handed _ (State.afterHanding (x.step s.desk).1).inHand _
      cases hx : (x.step s.desk).1 with
      | none =>
          rw [hx] at hnext
          exact hnext
      | some y =>
          rw [hx] at hnext
          exact hnext
    · intro hv m hm
      exact absurd hm (hquiet (by simp) hv m)
  · rw [hreader] at hhanded hquiet
    obtain ⟨hnext, hlater⟩ := Handed.clear hhanded
    refine h.deskStep rfl rfl hlater hnext ?_
    intro hv m hm
    exact absurd hm (hquiet (by simp) hv m)
  · rw [hreader] at hhanded
    refine h.deskStep rfl rfl ⟨rfl, rfl, fun _ => Iff.rfl, fun _ _ hr => hr⟩
      hhanded ?_
    intro hd
    rw [hv] at hd
    cases hd
  · rw [hreader] at hhanded
    obtain ⟨hnext, hlater⟩ := hhanded.outbox (c := s.desk.outbox.close) rfl
    refine h.deskStep rfl rfl hlater hnext ?_
    intro _ m hm
    cases hm

theorem Sound.drain {s s' : State R} (h : Sound v s)
    (hstep : s.drain v = some s') : Sound v s' := by
  rcases drain_cases hstep with ⟨m, -, hreader, hm, rfl⟩ | ⟨-, -, rfl⟩
  · obtain ⟨hnext, hlater⟩ := h.handed.outbox
      (c := { s.desk.outbox with received := s.desk.outbox.received + 1 }) rfl
    exact h.deskStep rfl rfl hlater hnext fun hv _ _ => hreader hv
  · obtain ⟨hnext, hlater⟩ := h.handed.outbox (c := s.desk.outbox.close) rfl
    exact h.deskStep rfl rfl hlater hnext fun _ m hm => nomatch hm

theorem Sound.write {s s' : State R} (h : Sound v s) {ok : Bool}
    (hstep : s.write v ok = some s') : Sound v s' := by
  have hstay : Later s.desk s.desk :=
    ⟨rfl, rfl, fun _ => Iff.rfl, fun _ _ hr => hr⟩
  rcases write_cases hstep with ⟨m, -, -, rfl⟩ | ⟨m, -, -, -, rfl⟩
    | ⟨m, hwriter, -, hv, rfl⟩
  · exact h.deskStep rfl rfl hstay h.handed fun _ m hm => nomatch hm
  · exact h.deskStep rfl rfl hstay h.handed fun _ m hm => nomatch hm
  · exact h.leave (h.single hv m hwriter) .closing (fun _ m hm => nomatch hm)

theorem Sound.step {a : Act R} {s s' : State R} (h : Sound v s)
    (hstep : (machine R v).step a s = some s') : Sound v s' := by
  cases a with
  | spawn job =>
      cases job with
      | handle req => cases hstep
      | call method params decode =>
          cases hstep
          exact h.spawn _ rfl
      | notify method params =>
          cases hstep
          exact h.spawn _ rfl
  | resume i w =>
      obtain ⟨p, hres, rfl⟩ := Option.map_eq_some_iff.mp hstep
      exact h.resume hres
  | recv x =>
      by_cases hrecv : s.canRecv v = true
      · have hs' : s' = s.receive x := by
          have hif := (if_pos hrecv).symm.trans hstep
          exact (Option.some.inj hif).symm
        rw [hs']
        obtain ⟨hreader, hidle⟩ := canRecv_eq_true hrecv
        have hleave : Sound v { s with reader := .closing } := by
          apply h.leave hreader s.writer
          intro hv m hm
          rw [hidle hv] at hm
          cases hm
        cases x with
        | message m => exact h.message hrecv m
        | eof => exact hleave
        | error => exact hleave
      · have hif := (if_neg hrecv).symm.trans hstep
        cases hif
  | read => exact h.read hstep
  | drain => exact h.drain hstep
  | write ok => exact h.write hstep

/-- So it holds of every reachable client. -/
theorem Sound.reachable {s : State R} (h : (machine R v).Reachable s) :
    Sound v s :=
  h.invariant sound_init fun _ _ _ hs hstep => hs.step hstep

end SapAutomate.Mcp.Client
