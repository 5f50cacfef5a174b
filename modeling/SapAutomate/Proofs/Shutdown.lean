/-
The end of `run_stdio`: at the end of its input, once nothing goes on any
more, has it returned?

It awaits the writer, which ends when the outbound channel has no sender
left. `outbound_tx` is dropped before, and the handlers' senders go with
them, but the elicitation handle lives as long as `run_stdio` does, and
its sender with it (`elicitHandle_mem_senders`). So the channel never
ends under the writer: the writer is past its loop only where a write has
failed (`past_iff`). That decides the matter (`shutdown_iff`).
-/
import SapAutomate.Proofs.ServerRun

namespace SapAutomate.Mcp.Stdio

open Interact Json

variable {O : Iface} {srv : Server (HandlerIface O)} {parse : ParseJson}
  {lines : List Line}

-- =========================================================== at rest

/-- The input is at its end, nothing waits to be written, and nothing can
happen: neither a handler nor `run_stdio` with its two loops can take a
step. -/
structure AtRest (parse : ParseJson) (srv : Server (HandlerIface O))
    (lines : List Line) (s : LineState O) : Prop where
  eof : s.input = []
  outbound : s.core.desk.outbox.queued = []
  stuck : (stdioMachine parse srv lines).Stuck s

/-- And yet `run_stdio` has not returned. -/
structure Deadlocked (parse : ParseJson) (srv : Server (HandlerIface O))
    (lines : List Line) (s : LineState O) : Prop where
  rest : AtRest parse srv lines s
  running : s.core.main ≠ .returned

-- ========================================================= the senders

/-- Until `run_stdio` returns there is a sender. -/
theorem elicitHandle_mem_senders {s : State O} (h : s.main ≠ .returned) :
    .elicitHandle ∈ s.senders := by
  apply List.mem_append_left
  cases hmain : s.main with
  | returned => exact absurd hmain h
  | looping => simp
  | handing x => simp
  | joiningReader => simp
  | joiningWriter => simp

/-- The channel does not end under the writer. -/
theorem Sound.senders_ne_nil {s : State O} (h : Sound srv s)
    (hwriter : s.writer = .idle) : s.senders ≠ [] := by
  have hmain : s.main ≠ .returned := by
    intro hret
    rw [h.returned hret] at hwriter
    cases hwriter
  exact List.ne_nil_of_mem (elicitHandle_mem_senders hmain)

/-- One step takes the writer past its loop if it is a write that fails,
and otherwise leaves it on the side it is on. -/
theorem Sound.past_step {a : Act O} {s s' : State O} (h : Sound srv s)
    (hstep : (machine srv).step a s = some s') :
    s'.writer.past = true ↔ s.writer.past = true ∨ a = .write false := by
  cases a with
  | resume i w =>
      obtain ⟨p, -, rfl⟩ := Option.map_eq_some_iff.mp hstep
      simp
  | recv x =>
      have hsame : s'.writer = s.writer := by
        obtain ⟨-, rfl⟩ := recv_cases hstep
        cases x <;> rfl
      rw [hsame]
      simp
  | forward =>
      obtain ⟨m, -, ⟨-, rfl⟩ | ⟨-, rfl⟩⟩ := forward_cases hstep
      · simp
      · simp
  | main =>
      have hsame : s'.writer = s.writer := by
        rcases goOn_cases hstep with ⟨m, -, -, rfl⟩ | ⟨-, -, -, rfl⟩
          | ⟨x, -, rfl⟩ | ⟨-, -, rfl⟩ | ⟨-, -, rfl⟩
        · cases m with
          | request req => rfl
          | notification n => rfl
          | response r =>
              obtain ⟨jsonrpc, id, result, error⟩ := r
              cases id <;> rfl
        · rfl
        · rfl
        · rfl
        · rfl
      rw [hsame]
      simp
  | drain =>
      rcases drain_cases hstep with ⟨m, hwriter, -, rfl⟩
        | ⟨hwriter, -, hnone, -⟩ | ⟨hwriter, rfl⟩
      · rw [hwriter]
        simp [State.setDesk, WriterPhase.past]
      · exact absurd hnone (h.senders_ne_nil hwriter)
      · rw [hwriter]
        simp [State.setDesk, WriterPhase.past]
  | write ok =>
      obtain ⟨m, hwriter, ⟨rfl, rfl⟩ | ⟨rfl, rfl⟩⟩ := write_cases hstep
      · rw [hwriter]
        simp [WriterPhase.past]
      · rw [hwriter]
        simp [WriterPhase.past]

/-- The writer is past its loop just where a write has failed. -/
theorem past_iff {as : List (LineAct O)} {s : LineState O}
    (h : (stdioMachine parse srv lines).Runs as s) :
    s.core.writer.past = true ↔ .write false ∈ as := by
  refine h.history (I := fun as s =>
    s.core.writer.past = true ↔ .write false ∈ as) ?_ ?_
  · simp [stdioMachine, State.init, WriterPhase.past]
  · intro as a s s' hruns ih hstep
    have hsound : Sound srv s.core := .onInput ⟨as, hruns⟩
    have hact : a.toAct (StdioReader.recv parse s.input).1 = .write false
        ↔ a = .write false := by
      cases a <;> simp [LineAct.toAct]
    rw [hsound.past_step (core_step hstep).1, ih, hact,
      List.mem_append, List.mem_singleton, eq_comm (a := a)]

-- ==================================================== what is held up

/-- The reader can pass its message on while the channel is empty. -/
theorem forward_eq_none {s : State O} (h : s.forward = none)
    (halive : s.inbound.alive = true) {m : Message}
    (hreader : s.reader = .sending m) : s.inbound.queued ≠ [] := by
  intro hempty
  unfold State.forward at h
  simp only [hreader] at h
  have hsend := Option.map_eq_none_iff.mp h
  unfold Channel.send at hsend
  rw [if_pos halive, hempty, if_pos (by decide)] at hsend
  cases hsend

/-- Where `run_stdio` cannot go on, it waits: for a message, for the
reader, or for the writer. -/
theorem goOn_eq_none {s : State O} (h : s.goOn srv = none) :
    (s.main = .looping ∧ s.inbound.queued = [] ∧ s.reader ≠ .ended)
      ∨ (s.main = .joiningReader ∧ s.reader ≠ .ended)
      ∨ (s.main = .joiningWriter ∧ s.writer ≠ .ended)
      ∨ s.main = .returned := by
  unfold State.goOn at h
  cases hmain : s.main with
  | looping =>
      rw [hmain] at h
      cases hrecv : s.inbound.recv with
      | some a =>
          rw [hrecv] at h
          cases h
      | none =>
          rw [hrecv] at h
          refine .inl ⟨rfl, Channel.recv_eq_none.mp hrecv, ?_⟩
          intro hreader
          simp only [hreader] at h
          cases h
  | handing x =>
      rw [hmain] at h
      cases h
  | joiningReader =>
      rw [hmain] at h
      refine .inr (.inl ⟨rfl, ?_⟩)
      intro hreader
      simp only [hreader] at h
      cases h
  | joiningWriter =>
      rw [hmain] at h
      refine .inr (.inr (.inl ⟨rfl, ?_⟩))
      intro hwriter
      simp only [hwriter] at h
      cases h
  | returned => exact .inr (.inr (.inr rfl))

/-- Where the writer can do nothing, it waits for a message or is gone. -/
theorem writer_waits {s : State O} (hdrain : s.drain = none)
    (hwrite : s.write true = none) :
    (s.writer = .idle ∧ s.desk.outbox.queued = []) ∨ s.writer = .ended := by
  cases hwriter : s.writer with
  | idle =>
      unfold State.drain at hdrain
      rw [hwriter] at hdrain
      cases hrecv : s.desk.outbox.recv with
      | some a =>
          rw [hrecv] at hdrain
          cases hdrain
      | none => exact .inl ⟨rfl, Channel.recv_eq_none.mp hrecv⟩
  | writing m =>
      unfold State.write at hwrite
      rw [hwriter] at hwrite
      cases hwrite
  | closing =>
      unfold State.drain at hdrain
      rw [hwriter] at hdrain
      cases hdrain
  | ended => exact .inr rfl

/-- Where nothing can happen, `run_stdio` has returned, or it awaits the
writer, which waits for a message. -/
theorem Sound.stuck_cases {s : LineState O} (hsound : Sound srv s.core)
    (h : (stdioMachine parse srv lines).Stuck s) :
    (s.core.main = .returned ∧ s.core.writer = .ended)
      ∨ (s.core.main = .joiningWriter ∧ s.core.writer = .idle) := by
  have hrecv : s.core.reader ≠ .receiving := by
    intro hreader
    have hno := core_stuck h .recv
    rw [LineAct.toAct, recv_eq hreader] at hno
    cases hno
  have hwriter := writer_waits (core_stuck h .drain) (core_stuck h (.write true))
  rcases goOn_eq_none (core_stuck h .main) with ⟨hmain, hempty, hreader⟩
    | ⟨hmain, hreader⟩ | ⟨hmain, hnot⟩ | hmain
  · -- the reader would have something to do
    exfalso
    cases hphase : s.core.reader with
    | receiving => exact hrecv hphase
    | sending m =>
        exact forward_eq_none (core_stuck h .forward) hsound.inbound hphase
          hempty
    | ended => exact hreader hphase
  · exact absurd (hsound.looping (by rw [hmain]; rfl)) hreader
  · rcases hwriter with ⟨hidle, -⟩ | hended
    · exact .inr ⟨hmain, hidle⟩
    · exact absurd hended hnot
  · exact .inl ⟨hmain, hsound.returned hmain⟩

-- =========================================================== shutdown

/-- A deadlock: `run_stdio` awaits the writer, the writer a message, and
the elicitation handle keeps the channel between them open. -/
theorem Deadlocked.waits {s : LineState O}
    (h : Deadlocked parse srv lines s) (hsound : Sound srv s.core) :
    s.core.main = .joiningWriter ∧ s.core.writer = .idle
      ∧ .elicitHandle ∈ s.core.senders := by
  rcases hsound.stuck_cases h.rest.stuck with ⟨hret, -⟩ | ⟨hmain, hwriter⟩
  · exact absurd hret h.running
  · exact ⟨hmain, hwriter, elicitHandle_mem_senders h.running⟩

/-- At rest there is no deadlock just where a write has failed. -/
theorem shutdown_iff (parse : ParseJson) (srv : Server (HandlerIface O))
    (lines : List Line) (as : List (LineAct O)) (s : LineState O)
    (hrun : (stdioMachine parse srv lines).Runs as s)
    (hrest : AtRest parse srv lines s) :
    ¬ Deadlocked parse srv lines s ↔ .write false ∈ as := by
  have hsound : Sound srv s.core := .onInput ⟨as, hrun⟩
  rw [← past_iff hrun]
  constructor
  · intro hfree
    have hret : s.core.main = .returned := by
      by_contra hne
      exact hfree ⟨hrest, hne⟩
    rw [hsound.returned hret]
    rfl
  · intro hpast hdead
    rw [(hdead.waits hsound).2.1] at hpast
    cases hpast

-- ================================================================= runs

/-- Nothing else is asked. -/
abbrev NoIface : Iface := ⟨Empty, fun _ => Unit⟩

/-- A server without tools. -/
def bareServer : Server (HandlerIface NoIface) where
  tools := []
  exposure := .readOnlyOnly
  others _ := .done (.ok (.object []))
  serdeError _ := ""

/-- An empty input, up to the end of the dispatch loop. -/
def emptyRun : List (LineAct NoIface) := [.recv, .main, .main]

/-- The end of that run. -/
theorem emptyRun_rest : ∃ s, (stdioMachine (fun _ => none) bareServer
      []).Runs emptyRun s
    ∧ AtRest (fun _ => none) bareServer [] s ∧ s.core.main = .joiningWriter := by
  refine ⟨_, rfl, ⟨rfl, rfl, ?_⟩, rfl⟩
  intro a
  cases a <;> rfl

/-- `run_stdio` on an empty input does not return. -/
theorem empty_input_deadlocks :
    ¬ ∀ (as : List (LineAct NoIface)) (s : LineState NoIface),
      (stdioMachine (fun _ => none) bareServer []).Runs as s →
        ¬ Deadlocked (fun _ => none) bareServer [] s := by
  intro h
  obtain ⟨s, hrun, hrest, hmain⟩ := emptyRun_rest
  apply h emptyRun s hrun
  exact ⟨hrest, by rw [hmain]; nofun⟩

theorem shutdown_empty_input :
    ∃ s, (stdioMachine (fun _ => none) bareServer []).Runs emptyRun s
      ∧ (¬ Deadlocked (fun _ => none) bareServer [] s
        ↔ .write false ∈ emptyRun) := by
  obtain ⟨s, hrun, hrest, -⟩ := emptyRun_rest
  exact ⟨s, hrun, shutdown_iff _ bareServer [] emptyRun s hrun hrest⟩

end SapAutomate.Mcp.Stdio
