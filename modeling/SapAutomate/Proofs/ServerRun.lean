/-
What holds of `run_stdio` along every run, whatever it reads, however
its tasks are scheduled and whatever becomes of its writes.

`Sound` is kept by every step. Every message is in one place: what was
read is what the dispatch loop has taken, what waits for it and what the
reader holds, in that order; what was written and what the writer holds
is what the outbound channel has given out. The tasks are, in order,
those of the requests taken.
-/
import SapAutomate.Proofs.ServerTasks

namespace SapAutomate.Mcp.Stdio

open Interact Json

variable {O : Iface} {srv : Server (HandlerIface O)}

-- ============================================== what a step can have done

/-- What comes of the reader's send. -/
theorem forward_cases {s s' : State O} (h : s.forward = some s') :
    ∃ m, s.reader = .sending m
      ∧ ((s.inbound.alive = true ∧ s' = { s with
            reader := .receiving
            inbound := { s.inbound with
              accepted := s.inbound.accepted ++ [m] } })
        ∨ (s.inbound.alive = false ∧ s' = { s with reader := .ended })) := by
  unfold State.forward at h
  cases hreader : s.reader with
  | sending m =>
      simp only [hreader] at h
      obtain ⟨⟨ok, c⟩, hsend, rfl⟩ := Option.map_eq_some_iff.mp h
      refine ⟨m, rfl, ?_⟩
      rcases Channel.send_eq_some hsend with ⟨rfl, halive, rfl⟩
        | ⟨rfl, halive, rfl⟩
      · exact .inl ⟨halive, rfl⟩
      · exact .inr ⟨halive, rfl⟩
  | _ =>
      simp only [hreader] at h
      cases h

/-- All that `run_stdio` does itself. -/
theorem goOn_cases {s s' : State O} (h : s.goOn srv = some s') :
    (∃ m, s.main = .looping
        ∧ s.inbound.accepted[s.inbound.received]? = some m
        ∧ s' = { s with inbound := { s.inbound with
            received := s.inbound.received + 1 } }.dispatch srv m)
      ∨ (s.main = .looping ∧ s.inbound.queued = [] ∧ s.reader = .ended
        ∧ s' = { s with main := .joiningReader })
      ∨ (∃ x, s.main = .handing x
        ∧ s' = { s with main := State.afterHanding (x.step s.desk).1 }.setDesk
            (x.step s.desk).2)
      ∨ (s.main = .joiningReader ∧ s.reader = .ended
        ∧ s' = { s with main := .joiningWriter })
      ∨ (s.main = .joiningWriter ∧ s.writer = .ended
        ∧ s' = { s with main := .returned }) := by
  unfold State.goOn at h
  cases hmain : s.main with
  | looping =>
      rw [hmain] at h
      cases hrecv : s.inbound.recv with
      | some a =>
          obtain ⟨m, c⟩ := a
          rw [hrecv] at h
          obtain ⟨hm, rfl⟩ := Channel.recv_eq_some.mp hrecv
          exact .inl ⟨m, rfl, hm, (Option.some.inj h).symm⟩
      | none =>
          rw [hrecv] at h
          cases hreader : s.reader with
          | ended =>
              simp only [hreader] at h
              refine .inr (.inl ⟨rfl, Channel.recv_eq_none.mp hrecv, rfl, ?_⟩)
              exact (Option.some.inj h).symm
          | _ =>
              simp only [hreader] at h
              cases h
  | handing x =>
      rw [hmain] at h
      exact .inr (.inr (.inl ⟨x, rfl, (Option.some.inj h).symm⟩))
  | joiningReader =>
      rw [hmain] at h
      cases hreader : s.reader with
      | ended =>
          simp only [hreader] at h
          exact .inr (.inr (.inr (.inl ⟨rfl, rfl, (Option.some.inj h).symm⟩)))
      | _ =>
          simp only [hreader] at h
          cases h
  | joiningWriter =>
      rw [hmain] at h
      cases hwriter : s.writer with
      | ended =>
          simp only [hwriter] at h
          exact .inr (.inr (.inr (.inr ⟨rfl, rfl, (Option.some.inj h).symm⟩)))
      | _ =>
          simp only [hwriter] at h
          cases h
  | returned =>
      rw [hmain] at h
      cases h

/-- All that the writer does at the outbound channel. -/
theorem drain_cases {s s' : State O} (h : s.drain = some s') :
    (∃ m, s.writer = .idle
        ∧ s.desk.outbox.accepted[s.desk.outbox.received]? = some m
        ∧ s' = { s with writer := .writing m }.setDesk { s.desk with
            outbox := { s.desk.outbox with
              received := s.desk.outbox.received + 1 } })
      ∨ (s.writer = .idle ∧ s.desk.outbox.queued = [] ∧ s.senders = []
        ∧ s' = { s with writer := .closing })
      ∨ (s.writer = .closing ∧ s' = { s with writer := .ended }.setDesk
          { s.desk with outbox := s.desk.outbox.close }) := by
  unfold State.drain at h
  cases hwriter : s.writer with
  | idle =>
      rw [hwriter] at h
      cases hrecv : s.desk.outbox.recv with
      | some a =>
          obtain ⟨m, c⟩ := a
          rw [hrecv] at h
          obtain ⟨hm, rfl⟩ := Channel.recv_eq_some.mp hrecv
          exact .inl ⟨m, rfl, hm, (Option.some.inj h).symm⟩
      | none =>
          rw [hrecv] at h
          by_cases hnone : s.senders.isEmpty = true
          · simp only [hnone, if_true] at h
            exact .inr (.inl ⟨rfl, Channel.recv_eq_none.mp hrecv,
              List.isEmpty_iff.mp hnone, (Option.some.inj h).symm⟩)
          · simp only [hnone] at h
            cases h
  | closing =>
      rw [hwriter] at h
      exact .inr (.inr ⟨rfl, (Option.some.inj h).symm⟩)
  | writing m =>
      rw [hwriter] at h
      cases h
  | ended =>
      rw [hwriter] at h
      cases h

/-- All that comes of a write. -/
theorem write_cases {s s' : State O} {ok : Bool} (h : s.write ok = some s') :
    ∃ m, s.writer = .writing m
      ∧ ((ok = true
          ∧ s' = { s with writer := .idle, written := s.written ++ [m] })
        ∨ (ok = false ∧ s' = { s with writer := .closing })) := by
  unfold State.write at h
  cases hwriter : s.writer with
  | writing m =>
      simp only [hwriter] at h
      refine ⟨m, rfl, ?_⟩
      cases ok with
      | true => exact .inl ⟨rfl, (Option.some.inj h).symm⟩
      | false => exact .inr ⟨rfl, (Option.some.inj h).symm⟩
  | _ =>
      simp only [hwriter] at h
      cases h

-- =========================================================== soundness

/-- The response the dispatch loop is busy with. -/
def MainPhase.inHand : MainPhase → Option (Handover Response)
  | .handing h => some h
  | _ => none

/-- The loop is over. -/
def MainPhase.past : MainPhase → Bool
  | .looping => false
  | .handing _ => false
  | _ => true

/-- The message the reader holds. -/
def ReaderPhase.holding : ReaderPhase → List Message
  | .sending m => [m]
  | _ => []

/-- The messages the dispatch loop has taken. -/
def State.taken (s : State O) : List Message :=
  s.inbound.accepted.take s.inbound.received

/-- The messages the outbound channel has given out. -/
def State.drained (s : State O) : List Message :=
  s.desk.outbox.accepted.take s.desk.outbox.received

/-- What every run keeps. -/
structure Sound (srv : Server (HandlerIface O)) (s : State O) : Prop where
  tracked : s.pool.Tracked (served srv true)
  recorded : Recorded s.pool.history s.desk
  handed : Handed (s.taken.filterMap Message.numberedResponse) s.main.inHand
    s.desk
  requests : s.pool.calls = s.taken.filterMap Message.asRequest
  incoming : s.incoming = s.inbound.accepted ++ s.reader.holding
  inbound : s.inbound.alive = true
  inboundBounded : s.inbound.received ≤ s.inbound.accepted.length
  written : s.written ++ s.writer.holding <+: s.drained
  writing : s.writer.past = false → s.written ++ s.writer.holding = s.drained
  bounded : s.desk.outbox.received ≤ s.desk.outbox.accepted.length
  outbound : s.writer ≠ .ended → s.desk.outbox.alive = true
  looping : s.main.past = true → s.reader = .ended
  returned : s.main = .returned → s.writer = .ended
  emptied : s.main.past = true → s.inbound.queued = []

theorem sound_init : Sound srv (State.init : State O) where
  tracked := Pool.tracked_empty (served srv true) _
  recorded := recorded_nil _
  handed := handed_new _
  requests := rfl
  incoming := rfl
  inbound := rfl
  inboundBounded := Nat.le_refl 0
  written := List.prefix_refl []
  writing _ := rfl
  bounded := Nat.le_refl 0
  outbound _ := rfl
  looping h := nomatch h
  returned h := nomatch h
  emptied h := nomatch h

/-- One message more is taken from a list. -/
theorem take_received {β : Type} {xs : List β} {n : Nat} {x : β}
    (h : xs[n]? = some x) : xs.take (n + 1) = xs.take n ++ [x] := by
  rw [List.take_add_one, h]
  rfl

theorem Sound.resume {s : State O} (h : Sound srv s) {i : Nat}
    {w : Answers O} {p : Pool (ServerIface O) Request (Answers O)
      (Desk Message Response) Unit}
    (hres : s.pool.resume (serverShared O) i w = some p) :
    Sound srv { s with pool := p } := by
  obtain ⟨hrec, hasked⟩ :=
    Recorded.resume h.tracked served_orderly h.recorded hres
  -- what the channel has given out is not touched by what it accepts
  have hdrained : ({ s with pool := p } : State O).drained = s.drained := by
    obtain ⟨new, hnew⟩ := hasked.accepted
    show p.shared.outbox.accepted.take p.shared.outbox.received = s.drained
    rw [hasked.received, ← hnew, List.take_append_of_le_length h.bounded]
    rfl
  refine ⟨h.tracked.resume hres, hrec, h.handed.asked hasked, ?_, h.incoming,
    h.inbound, h.inboundBounded, ?_, ?_, ?_, ?_, h.looping, h.returned,
    h.emptied⟩
  · exact (Pool.calls_resume hres).trans h.requests
  · rw [hdrained]
    exact h.written
  · rw [hdrained]
    exact h.writing
  · show p.shared.outbox.received ≤ p.shared.outbox.accepted.length
    rw [hasked.received]
    exact Nat.le_trans h.bounded hasked.accepted.length_le
  · intro hne
    show p.shared.outbox.alive = true
    rw [hasked.alive]
    exact h.outbound hne

/-- A result is read. -/
theorem Sound.receive {s : State O} (h : Sound srv s)
    (hreader : s.reader = .receiving) (x : Received) :
    Sound srv (s.receive x) := by
  have hin : s.incoming = s.inbound.accepted := by
    rw [h.incoming, hreader]
    exact List.append_nil _
  have hleave : Sound srv { s with reader := .ended } :=
    { h with
      incoming := by rw [hin]; exact (List.append_nil _).symm
      looping := fun _ => rfl }
  cases x with
  | message m =>
      refine { h with incoming := ?_, looping := ?_ }
      · show s.incoming ++ [m] = s.inbound.accepted ++ [m]
        rw [hin]
      · intro hpast
        rw [h.looping hpast] at hreader
        cases hreader
  | eof => exact hleave
  | error => exact hleave

theorem Sound.forward {s s' : State O} (h : Sound srv s)
    (hstep : s.forward = some s') : Sound srv s' := by
  obtain ⟨m, hreader, ⟨-, rfl⟩ | ⟨hdead, -⟩⟩ := forward_cases hstep
  · have htaken : (s.inbound.accepted ++ [m]).take s.inbound.received
        = s.taken := List.take_append_of_le_length h.inboundBounded
    have hgoing : ¬ s.main.past = true := by
      intro hpast
      rw [h.looping hpast] at hreader
      cases hreader
    refine { h with
      handed := ?_
      requests := ?_
      incoming := ?_
      inboundBounded := ?_
      looping := fun hpast => absurd hpast hgoing
      emptied := fun hpast => absurd hpast hgoing }
    · show Handed (List.filterMap _ (List.take _ _)) _ _
      rw [htaken]
      exact h.handed
    · show _ = List.filterMap _ (List.take _ _)
      rw [htaken]
      exact h.requests
    · show s.incoming = s.inbound.accepted ++ [m] ++ []
      rw [h.incoming, hreader, List.append_nil]
      rfl
    · show s.inbound.received ≤ (s.inbound.accepted ++ [m]).length
      rw [List.length_append]
      exact Nat.le_trans h.inboundBounded (Nat.le_add_right _ _)
  · rw [h.inbound] at hdead
    cases hdead

/-- The desk goes on without the tasks. -/
theorem Sound.deskStep {s : State O} (h : Sound srv s) (main : MainPhase)
    {d : Desk Message Response} (hlater : Later s.desk d)
    (hhanded : Handed (s.taken.filterMap Message.numberedResponse)
      main.inHand d) (hout : d.outbox = s.desk.outbox)
    (hpast : main.past = true → s.reader = .ended ∧ s.inbound.queued = [])
    (hreturned : main = .returned → s.writer = .ended) :
    Sound srv ({ s with main := main }.setDesk d) where
  tracked := ⟨h.tracked.left, h.tracked.known, h.tracked.started,
    h.tracked.after⟩
  recorded := h.recorded.later hlater
  handed := hhanded
  requests := h.requests
  incoming := h.incoming
  inbound := h.inbound
  inboundBounded := h.inboundBounded
  written := by
    show _ <+: d.outbox.accepted.take d.outbox.received
    rw [hout]
    exact h.written
  writing := by
    show _ → _ = d.outbox.accepted.take d.outbox.received
    rw [hout]
    exact h.writing
  bounded := by
    show d.outbox.received ≤ d.outbox.accepted.length
    rw [hout]
    exact h.bounded
  outbound := by
    show _ → d.outbox.alive = true
    rw [hout]
    exact h.outbound
  looping hover := (hpast hover).1
  returned := hreturned
  emptied hover := (hpast hover).2

theorem later_refl (d : Desk Message Response) : Later d d :=
  ⟨rfl, rfl, fun _ => Iff.rfl, fun _ _ hr => hr⟩

/-- A message is taken from the inbound channel and dispatched. -/
theorem Sound.dispatch {s : State O} (h : Sound srv s)
    (hmain : s.main = .looping) {m : Message}
    (hm : s.inbound.accepted[s.inbound.received]? = some m) :
    Sound srv ({ s with inbound := { s.inbound with
      received := s.inbound.received + 1 } }.dispatch srv m) := by
  have htaken : s.inbound.accepted.take (s.inbound.received + 1)
      = s.taken ++ [m] := take_received hm
  have hnone : Handed (s.taken.filterMap Message.numberedResponse) none
      s.desk := by
    have := h.handed
    rwa [hmain] at this
  have hmono : Handed ((s.inbound.accepted.take
      (s.inbound.received + 1)).filterMap Message.numberedResponse) none
      s.desk := by
    rw [htaken]
    apply hnone.mono
    intro e he
    rw [List.filterMap_append]
    exact List.mem_append_left _ he
  have hbound : s.inbound.received + 1 ≤ s.inbound.accepted.length :=
    (List.getElem?_eq_some_iff.mp hm).1
  have hgoing : ¬ s.main.past = true := by
    rw [hmain]
    nofun
  have hstay : Handed ((s.inbound.accepted.take
      (s.inbound.received + 1)).filterMap Message.numberedResponse)
      s.main.inHand s.desk := by
    rw [hmain]
    exact hmono
  have hskip : m.asRequest = none → s.pool.calls = (s.inbound.accepted.take
      (s.inbound.received + 1)).filterMap Message.asRequest := by
    intro hnot
    rw [htaken, filterMap_skip hnot]
    exact h.requests
  cases m with
  | notification n =>
      exact { h with
        handed := hstay
        requests := hskip rfl
        inboundBounded := hbound
        emptied := fun hpast => absurd hpast hgoing }
  | request req =>
      have hrequests : (s.pool.spawn req (served srv true req)).calls
          = (s.inbound.accepted.take (s.inbound.received + 1)).filterMap
            Message.asRequest := by
        rw [htaken, filterMap_snoc, Pool.calls_spawn, h.requests]
        rfl
      exact { h with
        tracked := h.tracked.spawn req
        handed := hstay
        requests := hrequests
        inboundBounded := hbound
        emptied := fun hpast => absurd hpast hgoing }
  | response r =>
      obtain ⟨jsonrpc, id, result, error⟩ := r
      cases id with
      | number n =>
          refine { h with
            handed := hmono.start ?_
            requests := hskip rfl
            inboundBounded := hbound
            looping := fun hpast => nomatch hpast
            returned := fun hret => nomatch hret
            emptied := fun hpast => nomatch hpast }
          rw [htaken, filterMap_snoc]
          exact List.mem_append_right _ (List.mem_singleton_self _)
      | _ => exact { h with
          handed := hstay
          requests := hskip rfl
          inboundBounded := hbound
          emptied := fun hpast => absurd hpast hgoing }

/-- `run_stdio` goes on. -/
theorem Sound.goOn {s s' : State O} (h : Sound srv s)
    (hstep : s.goOn srv = some s') : Sound srv s' := by
  have hhanded := h.handed
  rcases goOn_cases hstep with ⟨m, hmain, hm, rfl⟩
    | ⟨hmain, hempty, hreader, rfl⟩ | ⟨x, hmain, rfl⟩
    | ⟨hmain, hreader, rfl⟩ | ⟨hmain, hwriter, rfl⟩
  · exact h.dispatch hmain hm
  · rw [hmain] at hhanded
    exact h.deskStep .joiningReader (later_refl _) hhanded rfl
      (fun _ => ⟨hreader, hempty⟩) (fun hret => nomatch hret)
  · rw [hmain] at hhanded
    obtain ⟨hnext, hlater⟩ := Handed.step hhanded
    have hout := x.step_outbox s.desk
    cases hx : (x.step s.desk).1 with
    | none =>
        rw [hx] at hnext
        exact h.deskStep .looping hlater hnext hout
          (fun hpast => nomatch hpast) (fun hret => nomatch hret)
    | some y =>
        rw [hx] at hnext
        exact h.deskStep (.handing y) hlater hnext hout
          (fun hpast => nomatch hpast) (fun hret => nomatch hret)
  · rw [hmain] at hhanded
    have hover : s.main.past = true := by rw [hmain]; rfl
    exact h.deskStep .joiningWriter (later_refl _) hhanded rfl
      (fun _ => ⟨hreader, h.emptied hover⟩) (fun hret => nomatch hret)
  · rw [hmain] at hhanded
    have hover : s.main.past = true := by rw [hmain]; rfl
    exact h.deskStep .returned (later_refl _) hhanded rfl
      (fun _ => ⟨h.looping hover, h.emptied hover⟩) (fun _ => hwriter)

theorem Sound.drain {s s' : State O} (h : Sound srv s)
    (hstep : s.drain = some s') : Sound srv s' := by
  rcases drain_cases hstep with ⟨m, hwriter, hm, rfl⟩ | ⟨hwriter, -, -, rfl⟩
    | ⟨hwriter, rfl⟩
  · have hdrained : s.desk.outbox.accepted.take (s.desk.outbox.received + 1)
        = s.drained ++ [m] := take_received hm
    have hall : s.written = s.drained := by
      have := h.writing (by rw [hwriter]; rfl)
      rw [hwriter] at this
      exact (List.append_nil _).symm.trans this
    have hnow : s.written ++ [m]
        = s.desk.outbox.accepted.take (s.desk.outbox.received + 1) := by
      rw [hdrained, hall]
    obtain ⟨hhanded, hlater⟩ := h.handed.outbox
      (c := { s.desk.outbox with received := s.desk.outbox.received + 1 }) rfl
    exact { h with
      tracked := ⟨h.tracked.left, h.tracked.known, h.tracked.started,
        h.tracked.after⟩
      recorded := h.recorded.later hlater
      handed := hhanded
      written := hnow ▸ List.prefix_refl _
      writing := fun _ => hnow
      bounded := (List.getElem?_eq_some_iff.mp hm).1
      outbound := fun _ => h.outbound (by rw [hwriter]; nofun)
      returned := fun hret => by
        have := h.returned hret
        rw [hwriter] at this
        cases this }
  · have hall := h.written
    rw [hwriter] at hall
    exact { h with
      written := hall
      writing := fun hpast => nomatch hpast
      outbound := fun _ => h.outbound (by rw [hwriter]; nofun)
      returned := fun hret => by
        have := h.returned hret
        rw [hwriter] at this
        cases this }
  · have hall := h.written
    rw [hwriter] at hall
    obtain ⟨hhanded, hlater⟩ := h.handed.outbox (c := s.desk.outbox.close) rfl
    exact { h with
      tracked := ⟨h.tracked.left, h.tracked.known, h.tracked.started,
        h.tracked.after⟩
      recorded := h.recorded.later hlater
      handed := hhanded
      written := hall
      writing := fun hpast => nomatch hpast
      outbound := fun hne => absurd rfl hne
      returned := fun _ => rfl }

theorem Sound.write {s s' : State O} (h : Sound srv s) {ok : Bool}
    (hstep : s.write ok = some s') : Sound srv s' := by
  have hnot : ∀ m, s.writer = .writing m → s.main ≠ .returned := by
    intro m hm hret
    rw [h.returned hret] at hm
    cases hm
  obtain ⟨m, hwriter, ⟨-, rfl⟩ | ⟨-, rfl⟩⟩ := write_cases hstep
  · have hall := h.writing (by rw [hwriter]; rfl)
    rw [hwriter] at hall
    have hnow : s.written ++ [m] ++ [] = s.drained := by
      rw [List.append_nil]
      exact hall
    exact { h with
      written := hnow ▸ List.prefix_refl _
      writing := fun _ => hnow
      outbound := fun _ => h.outbound (by rw [hwriter]; nofun)
      returned := fun hret => absurd hret (hnot m hwriter) }
  · have hall := h.written
    have hshort : s.written ++ [] <+: s.drained := by
      rw [List.append_nil]
      exact (List.prefix_append _ _).trans hall
    exact { h with
      written := hshort
      writing := fun hpast => nomatch hpast
      outbound := fun _ => h.outbound (by rw [hwriter]; nofun)
      returned := fun hret => absurd hret (hnot m hwriter) }

/-- The reader gets a result where it is at the transport. -/
theorem recv_eq {s : State O} (hreader : s.reader = .receiving)
    (x : Received) : (machine srv).step (.recv x) s = some (s.receive x) := by
  unfold machine
  simp only [hreader]

theorem recv_cases {x : Received} {s s' : State O}
    (h : (machine srv).step (.recv x) s = some s') :
    s.reader = .receiving ∧ s' = s.receive x := by
  cases hreader : s.reader with
  | receiving =>
      rw [recv_eq hreader] at h
      exact ⟨rfl, (Option.some.inj h).symm⟩
  | _ =>
      unfold machine at h
      simp only [hreader] at h
      cases h

theorem Sound.step {a : Act O} {s s' : State O} (h : Sound srv s)
    (hstep : (machine srv).step a s = some s') : Sound srv s' := by
  cases a with
  | resume i w =>
      obtain ⟨p, hres, rfl⟩ := Option.map_eq_some_iff.mp hstep
      exact h.resume hres
  | recv x =>
      obtain ⟨hreader, rfl⟩ := recv_cases hstep
      exact h.receive hreader x
  | forward => exact h.forward hstep
  | main => exact h.goOn hstep
  | drain => exact h.drain hstep
  | write ok => exact h.write hstep

/-- So it holds of every reachable state. -/
theorem Sound.reachable {s : State O} (h : (machine srv).Reachable s) :
    Sound srv s :=
  h.invariant sound_init fun _ _ _ hs hstep => hs.step hstep

-- ========================================================== on an input

variable {parse : ParseJson} {lines : List Line}

/-- A step on an input is one of `run_stdio`. -/
theorem core_step {a : LineAct O} {s s' : LineState O}
    (h : (stdioMachine parse srv lines).step a s = some s') :
    (machine srv).step (a.toAct (StdioReader.recv parse s.input).1) s.core
        = some s'.core
      ∧ s'.input = match a with
        | .recv => (StdioReader.recv parse s.input).2
        | _ => s.input := by
  obtain ⟨c, hc, rfl⟩ := Option.map_eq_some_iff.mp h
  refine ⟨hc, ?_⟩
  cases a <;> rfl

/-- Where nothing can happen on an input, no result can be got, and no
other step can be taken. -/
theorem core_stuck {s : LineState O}
    (h : (stdioMachine parse srv lines).Stuck s) (a : LineAct O) :
    (machine srv).step (a.toAct (StdioReader.recv parse s.input).1) s.core
      = none :=
  Option.map_eq_none_iff.mp (h a)

theorem core_reachable {s : LineState O}
    (h : (stdioMachine parse srv lines).Reachable s) :
    (machine srv).Reachable s.core :=
  h.project rfl fun _ _ _ hstep =>
    .inr ⟨_, (core_step hstep).1⟩

/-- What holds of every state of `run_stdio` holds on every input. -/
theorem Sound.onInput {s : LineState O}
    (h : (stdioMachine parse srv lines).Reachable s) : Sound srv s.core :=
  .reachable (core_reachable h)

end SapAutomate.Mcp.Stdio
