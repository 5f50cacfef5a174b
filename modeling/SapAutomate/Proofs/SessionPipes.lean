/-
What holds of the pipes of a session, and of what the client writes.

A message that gets through is the message that was written, without its
nulls (`arrives_received`). Apart from `recv`, a step of either side adds
to what it has written and leaves what it has read alone
(`client_frame`, `server_frame`); so `Joined`, an instance of `Carried`
for each direction beside the reachability of both sides, is kept by
every step of a session.

`Outgoing` is the client's part that `Sound` does not have: what it
writes is what its outbox has accepted, in that order.
-/
import SapAutomate.Lib.Pipe
import SapAutomate.Mcp.Session
import SapAutomate.Proofs.ClientCalls
import SapAutomate.Proofs.Framing
import SapAutomate.Proofs.ServerRun

namespace SapAutomate.Mcp

open Interact Json

-- ============================================================== the lines

/-- What is read of a message is the message without its nulls: one whose
numbers do not fit is not read at all. -/
theorem fromValue_eq_received {m m' : Message}
    (h : Message.fromValue m.toValue = some m') : m' = m.received := by
  by_cases hfits : m.Fits
  · rw [Message.fromValue_toValue hfits] at h
    exact (Option.some.inj h).symm
  · exfalso
    have hnum : ∀ id : Id, ¬ id.Fits → Id.ofJson id.toValue = none := by
      intro id hid
      cases id with
      | number n =>
          have hread : (Value.ofInt n).asI64 = none := by
            simp only [Value.asI64, Value.asInt_ofInt, Option.filter]
            rw [if_neg (by simpa [Id.Fits] using hid)]
          simp only [Id.toValue, Value.ofInt] at hread ⊢
          simp only [Id.ofJson, hread, Option.map_none]
      | string s => exact absurd trivial hid
      | null => exact absurd trivial hid
    cases m with
    | request r =>
        obtain ⟨hjsonrpc, hid, hmethod, hparams⟩ := r.get_fields
        have hread := hnum r.id hfits
        simp [Message.fromValue, Message.toValue, Message.fields, Value.get,
          hid, hmethod, Request.ofJson, Value.structFields, hread] at h
    | notification n => exact hfits trivial
    | response r =>
        obtain ⟨hjsonrpc, hid, hmethod, hresult, herror⟩ :=
          r.get_fields fun e => .object (Map.ofEntries e.fields)
        by_cases hr : r.id.Fits
        · have hread := Id.ofJson_toValue hr
          cases he : r.error with
          | none => exact hfits ⟨hr, fun e hnone => by rw [he] at hnone; cases hnone⟩
          | some e =>
              obtain ⟨hcode, hmessage, hdata⟩ := e.get_fields
              have hint : (Value.ofInt e.code).asI32 = none := by
                have hout : ¬ (-2147483648 ≤ e.code ∧ e.code ≤ 2147483647) :=
                  fun hin => hfits ⟨hr, fun e' he' => by
                    rw [he] at he'
                    rw [← Option.some.inj he']
                    exact hin⟩
                simp only [Value.asI32, Value.asInt_ofInt, Option.filter]
                rw [if_neg (by simpa using hout)]
              have hobj : ErrorObject.ofJson
                  (.object (Map.ofEntries e.fields)) = none := by
                simp [ErrorObject.ofJson, Value.structFields, hcode, hint]
              rw [he, Option.map_some] at herror
              simp [Message.fromValue, Message.toValue, Message.fields,
                Value.get, hid, hmethod, Response.ofJson, Value.structFields,
                hjsonrpc, herror, hread, Value.asStr, Value.optionField,
                hobj] at h
        · have hread := hnum r.id hr
          simp [Message.fromValue, Message.toValue, Message.fields, Value.get,
            hid, hmethod, Response.ofJson, Value.structFields, hread] at h

namespace Session

/-- What arrives of a message. -/
def arrives (parse : ParseJson) (m : Message) : Option Message :=
  Message.fromJson parse m.text.toList

theorem arrives_received {parse : ParseJson} {m m' : Message}
    (hparse : parse m.text = some m.toValue)
    (h : arrives parse m = some m') : m' = m.received := by
  unfold arrives Message.fromJson at h
  rw [String.ofList_toList, hparse] at h
  exact fromValue_eq_received h

/-- A line that was written is read as what arrives of its message. -/
theorem recv_lineOf (parse : ParseJson) (m : Message) (ls : List Line) :
    StdioReader.recv parse (lineOf m :: ls)
      = match arrives parse m with
        | some m' => (.message m', ls)
        | none => (.error, ls) := by
  have htrim := trimBy_line m
  have hne : m.text.toList.isEmpty = false := by
    simp [Message.text, Value.toJson]
  unfold Message.line at htrim
  rw [lineOf, StdioReader.recv]
  simp only [htrim, hne, Bool.false_eq_true, if_false]
  rfl

/-- A message that is legible is read as it was written. -/
theorem pipeRecv_lineOf {parse : ParseJson} {m : Message} {ls : List Line}
    (ended : Bool) (hparse : parse m.text = some m.toValue)
    (hfits : m.Fits) :
    pipeRecv parse ended (lineOf m :: ls)
      = some (.message m.received, ls) := by
  have harrives : arrives parse m = some m.received := by
    unfold arrives Message.fromJson
    rw [String.ofList_toList, hparse, Option.bind_some]
    exact Message.fromValue_toValue hfits
  unfold pipeRecv
  rw [recv_lineOf, harrives]

/-- What one `recv` gives: the end, or what arrives of the next message. -/
theorem pipeRecv_cases {parse : ParseJson} {ended : Bool}
    {flying flying' : List Line} {x : Received}
    (hlines : ∀ l ∈ flying, ∃ m, l = lineOf m)
    (h : pipeRecv parse ended flying = some (x, flying')) :
    (x = .eof ∧ flying = [] ∧ flying' = [])
      ∨ ∃ m, flying = lineOf m :: flying'
        ∧ ((∃ m', arrives parse m = some m' ∧ x = .message m')
          ∨ (arrives parse m = none ∧ x = .error)) := by
  unfold pipeRecv at h
  cases flying with
  | nil =>
      left
      cases ended with
      | true =>
          have heq := Option.some.inj h
          rw [Prod.mk.injEq] at heq
          exact ⟨heq.1.symm, rfl, heq.2.symm⟩
      | false => cases h
  | cons l ls =>
      right
      obtain ⟨m, rfl⟩ := hlines l (by simp)
      rw [recv_lineOf] at h
      cases ha : arrives parse m with
      | some m' =>
          rw [ha] at h
          have heq := Option.some.inj h
          rw [Prod.mk.injEq] at heq
          exact ⟨m, by rw [heq.2], .inl ⟨m', ha, heq.1.symm⟩⟩
      | none =>
          rw [ha] at h
          have heq := Option.some.inj h
          rw [Prod.mk.injEq] at heq
          exact ⟨m, by rw [heq.2], .inr ⟨ha, heq.1.symm⟩⟩

end Session

-- ============================================================ the client

namespace Client

variable {R : Type} {v : Spawn}

/-- The reading loop has not been left. -/
def ReaderPhase.there : ReaderPhase → Bool
  | .receiving => true
  | .handing _ => true
  | _ => false

/-- Without the transport, a step reads nothing and adds to what is
written. -/
theorem client_frame {a : Act R} {s s' : State R}
    (hstep : (machine R v).step a s = some s') (ha : ∀ x, a ≠ .recv x) :
    s'.incoming = s.incoming ∧ s.written <+: s'.written
      ∧ (s'.reader.there = true → s.reader.there = true) := by
  cases a with
  | spawn job =>
      cases job with
      | handle req => cases hstep
      | _ =>
          cases hstep
          exact ⟨rfl, List.prefix_refl _, id⟩
  | resume i w =>
      obtain ⟨p, -, rfl⟩ := Option.map_eq_some_iff.mp hstep
      exact ⟨rfl, List.prefix_refl _, id⟩
  | recv x => exact absurd rfl (ha x)
  | read =>
      rcases read_cases hstep with ⟨x, hreader, rfl⟩ | ⟨-, rfl⟩ | ⟨-, -, rfl⟩
        | ⟨-, -, rfl⟩
      · refine ⟨rfl, List.prefix_refl _, fun _ => ?_⟩
        rw [hreader]
        rfl
      · exact ⟨rfl, List.prefix_refl _, fun h => nomatch h⟩
      · exact ⟨rfl, List.prefix_refl _, fun h => nomatch h⟩
      · exact ⟨rfl, List.prefix_refl _, fun h => nomatch h⟩
  | drain =>
      rcases drain_cases hstep with ⟨m, -, -, -, rfl⟩ | ⟨-, -, rfl⟩
      · exact ⟨rfl, List.prefix_refl _, id⟩
      · exact ⟨rfl, List.prefix_refl _, id⟩
  | write ok =>
      rcases write_cases hstep with ⟨m, -, -, rfl⟩ | ⟨m, -, -, -, rfl⟩
        | ⟨m, -, -, -, rfl⟩
      · exact ⟨rfl, List.prefix_append _ _, id⟩
      · exact ⟨rfl, List.prefix_refl _, id⟩
      · exact ⟨rfl, List.prefix_refl _, fun h => nomatch h⟩

/-- A result of `recv` is taken in the loop: a message is kept, and
anything else ends it. -/
theorem client_recv {x : Received} {s s' : State R}
    (hstep : (machine R v).step (.recv x) s = some s') :
    s.reader.there = true ∧ s'.written = s.written
      ∧ ((∃ m, x = .message m ∧ s'.incoming = s.incoming ++ [m])
        ∨ ((∀ m, x ≠ .message m) ∧ s'.incoming = s.incoming
          ∧ s'.reader.there = false)) := by
  by_cases hrecv : s.canRecv v = true
  · have hif := (if_pos hrecv).symm.trans hstep
    rw [← Option.some.inj hif]
    have hthere : s.reader.there = true := by
      rw [(canRecv_eq_true hrecv).1]
      rfl
    refine ⟨hthere, ?_, ?_⟩
    · cases x with
      | message m =>
          cases m with
          | response r =>
              obtain ⟨jsonrpc, id, result, error⟩ := r
              cases id <;> rfl
          | _ => rfl
      | _ => rfl
    · cases x with
      | message m =>
          left
          refine ⟨m, rfl, ?_⟩
          cases m with
          | response r =>
              obtain ⟨jsonrpc, id, result, error⟩ := r
              cases id <;> rfl
          | _ => rfl
      | _ => exact .inr ⟨fun m h => (nomatch h), rfl, rfl⟩
  · have hif := (if_neg hrecv).symm.trans hstep
    cases hif

/-- The writer of the client: what it has written, and the message it
holds, are what the outbox has given out. -/
structure Outgoing (s : State R) : Prop where
  written : s.written ++ s.writer.holding
    <+: s.desk.outbox.accepted.take s.desk.outbox.received
  writing : s.writer.past = false → s.written ++ s.writer.holding
    = s.desk.outbox.accepted.take s.desk.outbox.received
  bounded : s.desk.outbox.received ≤ s.desk.outbox.accepted.length

theorem outgoing_init : Outgoing (State.init : State R) where
  written := List.prefix_refl []
  writing _ := rfl
  bounded := Nat.le_refl 0

/-- The outbox only accepts more, and the writer stays. -/
theorem Outgoing.grow {s s' : State R} (h : Outgoing s)
    (hwritten : s'.written = s.written) (hwriter : s'.writer = s.writer)
    (haccepted : s.desk.outbox.accepted <+: s'.desk.outbox.accepted)
    (hreceived : s'.desk.outbox.received = s.desk.outbox.received) :
    Outgoing s' := by
  have htake : s'.desk.outbox.accepted.take s'.desk.outbox.received
      = s.desk.outbox.accepted.take s.desk.outbox.received := by
    obtain ⟨new, hnew⟩ := haccepted
    rw [hreceived, ← hnew, List.take_append_of_le_length h.bounded]
  refine ⟨?_, ?_, ?_⟩
  · rw [htake, hwritten, hwriter]
    exact h.written
  · rw [htake, hwritten, hwriter]
    exact h.writing
  · rw [hreceived]
    exact Nat.le_trans h.bounded haccepted.length_le

/-- The writer leaves its loop, or is past it. -/
theorem Outgoing.leave {s s' : State R} (h : Outgoing s)
    (hwritten : s'.written = s.written) (hpast : s'.writer.past = true)
    (hnone : s'.writer.holding = [])
    (haccepted : s'.desk.outbox.accepted = s.desk.outbox.accepted)
    (hreceived : s'.desk.outbox.received = s.desk.outbox.received) :
    Outgoing s' := by
  refine ⟨?_, ?_, ?_⟩
  · rw [hwritten, hnone, haccepted, hreceived, List.append_nil]
    exact (List.prefix_append _ _).trans h.written
  · intro hnot
    rw [hpast] at hnot
    cases hnot
  · rw [haccepted, hreceived]
    exact h.bounded

theorem Outgoing.step {a : Act R} {s s' : State R} (h : Outgoing s)
    (hsound : Sound v s) (hstep : (machine R v).step a s = some s') :
    Outgoing s' := by
  cases a with
  | spawn job =>
      cases job with
      | handle req => cases hstep
      | _ =>
          cases hstep
          exact h.grow rfl rfl (List.prefix_refl _) rfl
  | resume i w =>
      obtain ⟨p, hres, rfl⟩ := Option.map_eq_some_iff.mp hstep
      obtain ⟨-, hasked⟩ :=
        Recorded.resume hsound.tracked body_orderly hsound.recorded hres
      exact h.grow rfl rfl hasked.accepted hasked.received
  | recv x =>
      by_cases hrecv : s.canRecv v = true
      · have hif := (if_pos hrecv).symm.trans hstep
        rw [← Option.some.inj hif]
        cases x with
        | message m =>
            cases m with
            | response r =>
                obtain ⟨jsonrpc, id, result, error⟩ := r
                cases id <;> exact h.grow rfl rfl (List.prefix_refl _) rfl
            | _ => exact h.grow rfl rfl (List.prefix_refl _) rfl
        | _ => exact h.grow rfl rfl (List.prefix_refl _) rfl
      · have hif := (if_neg hrecv).symm.trans hstep
        cases hif
  | read =>
      rcases read_cases hstep with ⟨x, -, rfl⟩ | ⟨-, rfl⟩ | ⟨-, -, rfl⟩
        | ⟨-, -, rfl⟩
      · have hbox := x.step_outbox s.desk
        refine h.grow rfl rfl ?_ ?_
        · show _ <+: (x.step s.desk).2.outbox.accepted
          exact hbox ▸ List.prefix_refl _
        · show (x.step s.desk).2.outbox.received = _
          rw [hbox]
      · exact h.grow rfl rfl (List.prefix_refl _) rfl
      · exact h.grow rfl rfl (List.prefix_refl _) rfl
      · exact h.leave rfl rfl rfl rfl rfl
  | drain =>
      rcases drain_cases hstep with ⟨m, hwriter, -, hm, rfl⟩ | ⟨-, -, rfl⟩
      · -- the message goes from the outbox to the writer
        have heq := h.writing (by rw [hwriter]; rfl)
        have hnone : s.writer.holding = [] := by rw [hwriter]; rfl
        rw [hnone, List.append_nil] at heq
        have hnext : s.written ++ [m] = s.desk.outbox.accepted.take
            (s.desk.outbox.received + 1) := by
          rw [heq, List.take_add_one, hm]
          rfl
        refine ⟨?_, fun _ => hnext, ?_⟩
        · show s.written ++ [m] <+: s.desk.outbox.accepted.take _
          rw [hnext]
          exact List.prefix_refl _
        · exact (List.getElem?_eq_some_iff.mp hm).1
      · exact h.leave rfl rfl rfl rfl rfl
  | write ok =>
      rcases write_cases hstep with ⟨m, hwriter, -, rfl⟩
        | ⟨m, -, -, -, rfl⟩ | ⟨m, -, -, -, rfl⟩
      · have hold : s.writer.holding = [m] := by rw [hwriter]; rfl
        have hpast : s.writer.past = false := by rw [hwriter]; rfl
        have hwritten := h.written
        have hwriting := h.writing hpast
        rw [hold] at hwritten hwriting
        refine ⟨?_, fun _ => ?_, h.bounded⟩
        · show s.written ++ [m] ++ [] <+: _
          rw [List.append_nil]
          exact hwritten
        · show s.written ++ [m] ++ [] = _
          rw [List.append_nil]
          exact hwriting
      · exact h.leave rfl rfl rfl rfl rfl
      · exact h.leave rfl rfl rfl rfl rfl

theorem Outgoing.reachable {s : State R} (h : (machine R v).Reachable s) :
    Outgoing s := by
  have hboth : Sound v s ∧ Outgoing s := by
    refine h.invariant (I := fun s => Sound v s ∧ Outgoing s) ?_ ?_
    · exact ⟨sound_init, outgoing_init⟩
    · intro a s s' hs hstep
      exact ⟨hs.1.step hstep, hs.2.step hs.1 hstep⟩
  exact hboth.2

/-- What was written had been sent and accepted. -/
theorem written_sent {s : State R} (h : (machine R v).Reachable s)
    {m : Message} (hm : m ∈ s.written) :
    ∃ i, sent m true ∈ s.pool.own i := by
  have hout := (Outgoing.reachable h).written
  have hacc : m ∈ s.desk.outbox.accepted :=
    List.mem_of_mem_take (hout.subset (List.mem_append_left _ hm))
  rw [(Sound.reachable h).recorded.accepted] at hacc
  obtain ⟨x, hx, hf⟩ := List.mem_filterMap.mp hacc
  obtain ⟨u, hu, rfl⟩ := List.mem_map.mp hx
  exact ⟨u.task, Pool.mem_own.mpr ⟨u, hu, rfl, acceptedMsg_eq_some.mp hf⟩⟩

end Client

-- ============================================================ the server

namespace Stdio

variable {O : Iface} {srv : Server (HandlerIface O)}

/-- The reader task has not ended. -/
def ReaderPhase.there : ReaderPhase → Bool
  | .ended => false
  | _ => true

/-- Without the transport, a step reads nothing and adds to what is
written. -/
theorem server_frame {a : Act O} {s s' : State O}
    (hstep : (machine srv).step a s = some s') (ha : ∀ x, a ≠ .recv x) :
    s'.incoming = s.incoming ∧ s.written <+: s'.written
      ∧ (s'.reader.there = true → s.reader.there = true) := by
  cases a with
  | resume i w =>
      obtain ⟨p, -, rfl⟩ := Option.map_eq_some_iff.mp hstep
      exact ⟨rfl, List.prefix_refl _, id⟩
  | recv x => exact absurd rfl (ha x)
  | forward =>
      obtain ⟨m, hreader, ⟨-, rfl⟩ | ⟨-, rfl⟩⟩ := forward_cases hstep
      · refine ⟨rfl, List.prefix_refl _, fun _ => ?_⟩
        rw [hreader]
        rfl
      · exact ⟨rfl, List.prefix_refl _, fun h => nomatch h⟩
  | main =>
      rcases goOn_cases hstep with ⟨m, -, -, rfl⟩ | ⟨-, -, -, rfl⟩
        | ⟨x, -, rfl⟩ | ⟨-, -, rfl⟩ | ⟨-, -, rfl⟩
      · cases m with
        | response r =>
            obtain ⟨jsonrpc, id, result, error⟩ := r
            cases id <;> exact ⟨rfl, List.prefix_refl _, fun h => h⟩
        | _ => exact ⟨rfl, List.prefix_refl _, fun h => h⟩
      · exact ⟨rfl, List.prefix_refl _, id⟩
      · exact ⟨rfl, List.prefix_refl _, id⟩
      · exact ⟨rfl, List.prefix_refl _, id⟩
      · exact ⟨rfl, List.prefix_refl _, id⟩
  | drain =>
      rcases drain_cases hstep with ⟨m, -, -, rfl⟩ | ⟨-, -, -, rfl⟩ | ⟨-, rfl⟩
      · exact ⟨rfl, List.prefix_refl _, id⟩
      · exact ⟨rfl, List.prefix_refl _, id⟩
      · exact ⟨rfl, List.prefix_refl _, id⟩
  | write ok =>
      obtain ⟨m, -, ⟨-, rfl⟩ | ⟨-, rfl⟩⟩ := write_cases hstep
      · exact ⟨rfl, List.prefix_append _ _, id⟩
      · exact ⟨rfl, List.prefix_refl _, id⟩

theorem server_recv {x : Received} {s s' : State O}
    (hstep : (machine srv).step (.recv x) s = some s') :
    s.reader.there = true ∧ s'.written = s.written
      ∧ ((∃ m, x = .message m ∧ s'.incoming = s.incoming ++ [m])
        ∨ ((∀ m, x ≠ .message m) ∧ s'.incoming = s.incoming
          ∧ s'.reader.there = false)) := by
  obtain ⟨hreader, rfl⟩ := recv_cases hstep
  have hthere : s.reader.there = true := by
    rw [hreader]
    rfl
  cases x with
  | message m => exact ⟨hthere, rfl, .inl ⟨m, rfl, rfl⟩⟩
  | _ => exact ⟨hthere, rfl, .inr ⟨fun m h => (nomatch h), rfl, rfl⟩⟩

/-- What was written had been sent and accepted. -/
theorem written_sent {s : State O} (h : (machine srv).Reachable s)
    {m : Message} (hm : m ∈ s.written) :
    ∃ i, sent m true ∈ s.pool.own i := by
  have hsound : Sound srv s := .reachable h
  have hacc : m ∈ s.desk.outbox.accepted :=
    List.mem_of_mem_take
      (hsound.written.subset (List.mem_append_left _ hm))
  rw [hsound.recorded.accepted] at hacc
  obtain ⟨x, hx, hf⟩ := List.mem_filterMap.mp hacc
  obtain ⟨u, hu, rfl⟩ := List.mem_map.mp hx
  exact ⟨u.task, Pool.mem_own.mpr ⟨u, hu, rfl, acceptedMsg_eq_some.mp hf⟩⟩

end Stdio

-- ============================================================ both of them

namespace Session

variable {R : Type} {O : Iface} {parse : ParseJson}
  {srv : Server (HandlerIface O)}

/-- The client reads the next line. -/
theorem step_atClient {s : State R O} {x : Received} {ls : List Line}
    {c : Client.State R}
    (hpipe : pipeRecv parse (closed s.server.writer) s.toClient = some (x, ls))
    (hc : (Client.machine R .halves).step (.recv x) s.client = some c) :
    (machine R parse srv).step .atClient s
      = some { s with client := c, toClient := ls } := by
  show ((pipeRecv _ _ _).bind _) = _
  rw [hpipe, Option.bind_some]
  show ((Client.machine R .halves).step (.recv x) s.client).map _ = _
  rw [hc]
  rfl

/-- What every run of a session keeps. -/
structure Joined (parse : ParseJson) (srv : Server (HandlerIface O))
    (s : State R O) : Prop where
  client : (Client.machine R .halves).Reachable s.client
  server : (Stdio.machine srv).Reachable s.server
  up : Carried (arrives parse) lineOf s.client.written s.toServer
    s.server.incoming (s.server.reader.there = true)
  down : Carried (arrives parse) lineOf s.server.written s.toClient
    s.client.incoming (s.client.reader.there = true)

theorem joined_init : Joined parse srv (⟨.init, .init, [], []⟩ : State R O) where
  client := ⟨[], rfl⟩
  server := ⟨[], rfl⟩
  up := .start
  down := .start

/-- What is newly written is what comes after what had been written. -/
theorem carried_grow {written written' : List Message} {flying : List Line}
    {incoming incoming' : List Message} {there there' : Prop}
    (h : Carried (arrives parse) lineOf written flying incoming there)
    (hpre : written <+: written') (hin : incoming' = incoming)
    (hthere : there' → there) :
    Carried (arrives parse) lineOf written'
      (flying ++ (written'.drop written.length).map lineOf) incoming'
      there' := by
  obtain ⟨new, rfl⟩ := hpre
  rw [List.drop_left, hin]
  exact (h.write new).weaken hthere

/-- A result of `recv` at one end of a pipe. -/
theorem carried_recv {written incoming incoming' : List Message}
    {flying flying' : List Line} {ended : Bool} {x : Received}
    {there there' : Bool}
    (h : Carried (arrives parse) lineOf written flying incoming
      (there = true))
    (hrecv : pipeRecv parse ended flying = some (x, flying'))
    (hthere : there = true)
    (hx : (∃ m, x = .message m ∧ incoming' = incoming ++ [m])
      ∨ ((∀ m, x ≠ .message m) ∧ incoming' = incoming ∧ there' = false)) :
    Carried (arrives parse) lineOf written flying' incoming'
      (there' = true) := by
  have hlines : ∀ l ∈ flying, ∃ m, l = lineOf m := by
    obtain ⟨read, rest, -, hf, -, -⟩ := h
    intro l hl
    rw [hf] at hl
    obtain ⟨m, -, rfl⟩ := List.mem_map.mp hl
    exact ⟨m, rfl⟩
  rcases pipeRecv_cases hlines hrecv with ⟨rfl, rfl, rfl⟩ | ⟨m, hfly, hm⟩
  · rcases hx with ⟨m, hm, -⟩ | ⟨-, rfl, hgone⟩
    · cases hm
    · exact h.weaken fun ht => by rw [hgone] at ht; cases ht
  · obtain ⟨m₂, hline, hok, hbad⟩ := h.next hfly
    -- the line says which message it is, so far as it is read
    have hsame : arrives parse m₂ = arrives parse m := by
      have htext : m.text.toList ++ ['\n'] = m₂.text.toList ++ ['\n'] := by
        unfold lineOf at hline
        exact Line.text.inj hline
      unfold arrives
      rw [List.append_cancel_right htext]
    rcases hx with ⟨m', rfl, rfl⟩ | ⟨hno, rfl, hgone⟩
    · rcases hm with ⟨m'', ha, hmsg⟩ | ⟨-, hmsg⟩
      · cases hmsg
        exact hok _ (hsame.trans ha) hthere
      · cases hmsg
    · exact hbad (by rw [hgone]; exact Bool.false_ne_true)

theorem Joined.step {a : Act R O} {s s' : State R O} (h : Joined parse srv s)
    (hstep : (machine R parse srv).step a s = some s') :
    Joined parse srv s' := by
  cases a with
  | client a =>
      have ha : ∀ x, a ≠ .recv x := by
        intro x hx
        subst hx
        cases hstep
      have hmap : ((Client.machine R .halves).step a s.client).map s.withClient
          = some s' := by
        cases a with
        | recv x => exact absurd rfl (ha x)
        | _ => exact hstep
      obtain ⟨c, hc, rfl⟩ := Option.map_eq_some_iff.mp hmap
      obtain ⟨hin, hpre, hthere⟩ := Client.client_frame hc ha
      refine ⟨h.client.step hc, h.server, ?_, ?_⟩
      · exact carried_grow h.up hpre rfl id
      · show Carried _ _ _ _ c.incoming _
        rw [hin]
        exact h.down.weaken hthere
  | server a =>
      have ha : ∀ x, a ≠ .recv x := by
        intro x hx
        subst hx
        cases hstep
      have hmap : ((Stdio.machine srv).step a s.server).map s.withServer
          = some s' := by
        cases a with
        | recv x => exact absurd rfl (ha x)
        | _ => exact hstep
      obtain ⟨c, hc, rfl⟩ := Option.map_eq_some_iff.mp hmap
      obtain ⟨hin, hpre, hthere⟩ := Stdio.server_frame hc ha
      refine ⟨h.client, h.server.step hc, ?_, ?_⟩
      · show Carried _ _ _ _ c.incoming _
        rw [hin]
        exact h.up.weaken hthere
      · exact carried_grow h.down hpre rfl id
  | atServer =>
      obtain ⟨⟨x, ls⟩, hrecv, hrest⟩ := Option.bind_eq_some_iff.mp hstep
      obtain ⟨c, hc, rfl⟩ := Option.map_eq_some_iff.mp hrest
      obtain ⟨hthere, hwritten, hx⟩ := Stdio.server_recv hc
      refine ⟨h.client, h.server.step hc, ?_, ?_⟩
      · exact carried_recv h.up hrecv hthere hx
      · show Carried _ _ c.written _ _ _
        rw [hwritten]
        exact h.down
  | atClient =>
      obtain ⟨⟨x, ls⟩, hrecv, hrest⟩ := Option.bind_eq_some_iff.mp hstep
      obtain ⟨c, hc, rfl⟩ := Option.map_eq_some_iff.mp hrest
      obtain ⟨hthere, hwritten, hx⟩ := Client.client_recv hc
      refine ⟨h.client.step hc, h.server, ?_, ?_⟩
      · show Carried _ _ c.written _ _ _
        rw [hwritten]
        exact h.up
      · exact carried_recv h.down hrecv hthere hx

theorem Joined.reachable {s : State R O}
    (h : (machine R parse srv).Reachable s) : Joined parse srv s :=
  h.invariant joined_init fun _ _ _ hs hstep => hs.step hstep

end Session

end SapAutomate.Mcp
