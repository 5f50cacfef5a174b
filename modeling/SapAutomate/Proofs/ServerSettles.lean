/-
`run_stdio` settles: on a finite input nothing goes on for ever, whatever
the handlers ask and are answered.

The rank of a state has three parts. What is upstream of the tasks goes
down whenever a line is read, a message passed on or dispatched, and it
may leave a task more behind it. A task that goes on leaves it alone, and
may leave a message more for the writer. What the writer does leaves both
alone.
-/
import SapAutomate.Lib.Settle
import SapAutomate.Proofs.ServerRun

namespace SapAutomate.Mcp.Stdio

open Interact Json

variable {O : Iface} {srv : Server (HandlerIface O)} {parse : ParseJson}
  {lines : List Line}

-- ============================================================ the ranks

def ReaderPhase.weight : ReaderPhase → Nat
  | .receiving => 1
  | .sending _ => 6
  | .ended => 0

def MainPhase.weight : MainPhase → Nat
  | .looping => 3
  | .handing (.matching _ _) => 5
  | .handing (.delivering _ _) => 4
  | .joiningReader => 2
  | .joiningWriter => 1
  | .returned => 0

def writerWeight : WriterPhase → Nat
  | .idle => 2
  | .writing _ => 3
  | .closing => 1
  | .ended => 0

/-- What is to be done before a request has its task: a line weighs more
than a message at the reader, and that more than one in the channel. -/
def State.upstream (s : State O) : Nat :=
  s.reader.weight + 4 * s.inbound.queued.length + s.main.weight

/-- What is to be done with the messages of the tasks. -/
def State.downstream (s : State O) : Nat :=
  2 * s.desk.outbox.queued.length + writerWeight s.writer

/-- The rank of a state. -/
def rank (s : LineState O) :
    Nat × Multiset (Prog (ServerIface O) Unit) × Nat :=
  (8 * s.input.length + s.core.upstream, s.core.pool.progs,
    s.core.downstream)

/-- A rank comes before another. -/
abbrev Before :
    Nat × Multiset (Prog (ServerIface O) Unit) × Nat →
      Nat × Multiset (Prog (ServerIface O) Unit) × Nat → Prop :=
  Prod.Lex (· < ·) (Prod.Lex (Relation.CutExpand Prog.Next) (· < ·))

theorem before_wf : WellFounded (Before (O := O)) :=
  wellFounded_lt.prod_lex (Prog.next_wf.cutExpand.prod_lex wellFounded_lt)

-- ============================================================= channels

theorem queued_send {c : Channel Message} (m : Message) :
    ({ c with accepted := c.accepted ++ [m] } : Channel Message).queued.length
      ≤ c.queued.length + 1 := by
  simp only [Channel.queued, List.length_drop, List.length_append,
    List.length_singleton]
  omega

theorem queued_recv {c : Channel Message} {m : Message}
    (h : c.accepted[c.received]? = some m) :
    ({ c with received := c.received + 1 } : Channel Message).queued.length + 1
      = c.queued.length := by
  have hlt := (List.getElem?_eq_some_iff.mp h).1
  simp only [Channel.queued, List.length_drop]
  omega

-- =============================================================== steps

/-- A message takes a line off the input. -/
theorem recv_length (parse : ParseJson) (ls : List Line) :
    (StdioReader.recv parse ls).2.length ≤ ls.length
      ∧ ∀ m, (StdioReader.recv parse ls).1 = .message m →
        (StdioReader.recv parse ls).2.length < ls.length := by
  induction ls with
  | nil => exact ⟨Nat.le_refl 0, fun m hm => nomatch hm⟩
  | cons l ls ih =>
      have hshort : ls.length < (l :: ls).length := Nat.lt_succ_self _
      cases l with
      | unreadable => exact ⟨Nat.le_of_lt hshort, fun m hm => nomatch hm⟩
      | text s =>
          unfold StdioReader.recv
          by_cases hblank : (Text.trimBy Text.isWhitespace s).isEmpty = true
          · simp only [hblank, if_true]
            exact ⟨Nat.le_trans ih.1 (Nat.le_of_lt hshort),
              fun m hm => Nat.lt_trans (ih.2 m hm) hshort⟩
          · simp only [hblank]
            cases Message.fromJson parse (Text.trimBy Text.isWhitespace s) with
            | none => exact ⟨Nat.le_of_lt hshort, fun m hm => nomatch hm⟩
            | some m => exact ⟨Nat.le_of_lt hshort, fun _ _ => hshort⟩

theorem recv_before {s s' : LineState O}
    (hstep : (stdioMachine parse srv lines).step .recv s = some s') :
    Before (rank s') (rank s) := by
  obtain ⟨hcore, hinput⟩ := core_step hstep
  obtain ⟨hreader, hs'⟩ := recv_cases hcore
  have hlen := recv_length parse s.input
  apply Prod.Lex.left
  rw [hinput, hs']
  show 8 * (StdioReader.recv parse s.input).2.length + _ < _
  cases hx : (StdioReader.recv parse s.input).1 with
  | message m =>
      have hlt := hlen.2 m hx
      simp only [State.receive, State.upstream, hreader,
        ReaderPhase.weight]
      omega
  | eof =>
      have hle := hlen.1
      simp only [State.receive, State.upstream, hreader,
        ReaderPhase.weight]
      omega
  | error =>
      have hle := hlen.1
      simp only [State.receive, State.upstream, hreader,
        ReaderPhase.weight]
      omega

theorem forward_upstream {s s' : State O} (h : s.forward = some s') :
    s'.upstream < s.upstream := by
  obtain ⟨m, hreader, ⟨-, rfl⟩ | ⟨-, rfl⟩⟩ := forward_cases h
  · have hsend := queued_send (c := s.inbound) m
    simp only [State.upstream, hreader, ReaderPhase.weight]
    omega
  · simp only [State.upstream, hreader, ReaderPhase.weight]
    omega

theorem dispatch_upstream {s : State O} {m : Message}
    (hmain : s.main = .looping)
    (hm : s.inbound.accepted[s.inbound.received]? = some m) :
    ({ s with inbound := { s.inbound with
      received := s.inbound.received + 1 } }.dispatch srv m).upstream
        < s.upstream := by
  have hrecv := queued_recv hm
  cases m with
  | request req =>
      simp only [State.dispatch, State.upstream]
      omega
  | notification n =>
      simp only [State.dispatch, State.upstream]
      omega
  | response r =>
      obtain ⟨jsonrpc, id, result, error⟩ := r
      cases id with
      | number n =>
          simp only [State.dispatch, State.upstream, hmain, MainPhase.weight]
          omega
      | string t =>
          simp only [State.dispatch, State.upstream]
          omega
      | null =>
          simp only [State.dispatch, State.upstream]
          omega

theorem goOn_upstream {s s' : State O} (h : s.goOn srv = some s') :
    s'.upstream < s.upstream := by
  rcases goOn_cases h with ⟨m, hmain, hm, rfl⟩ | ⟨hmain, -, -, rfl⟩
    | ⟨x, hmain, rfl⟩ | ⟨hmain, -, rfl⟩ | ⟨hmain, -, rfl⟩
  · exact dispatch_upstream hmain hm
  · simp only [State.upstream, hmain, MainPhase.weight]
    omega
  · cases x with
    | delivering id r =>
        simp only [State.upstream, State.setDesk, State.afterHanding,
          Handover.step, hmain, MainPhase.weight]
        omega
    | matching id r =>
        cases ht : s.desk.take id with
        | none =>
            simp only [State.upstream, State.setDesk, State.afterHanding,
              Handover.step, ht, hmain, MainPhase.weight]
            omega
        | some d =>
            simp only [State.upstream, State.setDesk, State.afterHanding,
              Handover.step, ht, hmain, MainPhase.weight]
            omega
  · simp only [State.upstream, hmain, MainPhase.weight]
    omega
  · simp only [State.upstream, hmain, MainPhase.weight]
    omega

theorem drain_downstream {s s' : State O} (h : s.drain = some s') :
    s'.upstream = s.upstream ∧ s'.pool.progs = s.pool.progs
      ∧ s'.downstream < s.downstream := by
  rcases drain_cases h with ⟨m, hwriter, hm, rfl⟩ | ⟨hwriter, -, -, rfl⟩
    | ⟨hwriter, rfl⟩
  · have hrecv := queued_recv hm
    refine ⟨rfl, rfl, ?_⟩
    simp only [State.downstream, State.setDesk, hwriter, writerWeight]
    omega
  · refine ⟨rfl, rfl, ?_⟩
    show 2 * s.desk.outbox.queued.length + _ < _
    simp only [State.downstream, hwriter, writerWeight]
    omega
  · refine ⟨rfl, rfl, ?_⟩
    simp only [State.downstream, State.setDesk, hwriter, writerWeight,
      Channel.close, Channel.queued]
    omega

theorem write_downstream {s s' : State O} {ok : Bool}
    (h : s.write ok = some s') :
    s'.upstream = s.upstream ∧ s'.pool.progs = s.pool.progs
      ∧ s'.downstream < s.downstream := by
  obtain ⟨m, hwriter, ⟨-, rfl⟩ | ⟨-, rfl⟩⟩ := write_cases h
  · refine ⟨rfl, rfl, ?_⟩
    show 2 * s.desk.outbox.queued.length + _ < _
    simp only [State.downstream, hwriter, writerWeight]
    omega
  · refine ⟨rfl, rfl, ?_⟩
    show 2 * s.desk.outbox.queued.length + _ < _
    simp only [State.downstream, hwriter, writerWeight]
    omega

/-- Every step goes down. -/
theorem step_before {a : LineAct O} {s s' : LineState O}
    (hstep : (stdioMachine parse srv lines).step a s = some s') :
    Before (rank s') (rank s) := by
  obtain ⟨hcore, hinput⟩ := core_step hstep
  have hup : s'.input = s.input → s'.core.upstream < s.core.upstream →
      Before (rank s') (rank s) := by
    intro hin hlt
    apply Prod.Lex.left
    rw [hin]
    omega
  have hdown : s'.input = s.input → s'.core.upstream = s.core.upstream
      ∧ s'.core.pool.progs = s.core.pool.progs
      ∧ s'.core.downstream < s.core.downstream →
      Before (rank s') (rank s) := by
    intro hin h
    unfold rank
    rw [hin, h.1, h.2.1]
    exact .right _ (.right _ h.2.2)
  cases a with
  | recv => exact recv_before hstep
  | resume i w =>
      obtain ⟨p, hres, hp⟩ := Option.map_eq_some_iff.mp hcore
      unfold rank
      rw [hinput, ← hp]
      exact .right _ (.left _ _ (Pool.resume_progs hres))
  | forward => exact hup hinput (forward_upstream hcore)
  | main => exact hup hinput (goOn_upstream hcore)
  | drain => exact hdown hinput (drain_downstream hcore)
  | write ok => exact hdown hinput (write_downstream hcore)

-- ============================================================ settling

/-- On no input does `run_stdio` go on for ever. -/
theorem settles (parse : ParseJson) (srv : Server (HandlerIface O))
    (lines : List Line) : (stdioMachine parse srv lines).Settles :=
  Machine.settles_of_rank before_wf rank fun _ _ _ hstep => step_before hstep

/-- From any state, writes that end well lead to where nothing can
happen. -/
theorem exists_settled (s : LineState O) :
    ∃ as s', (stdioMachine parse srv lines).run as s = some s'
      ∧ (stdioMachine parse srv lines).Stuck s' ∧ .write false ∉ as := by
  obtain ⟨as, s', hrun, hstuck, has⟩ := (settles parse srv lines).exists_stuck
    (P := fun a => a ≠ .write false) (by
      intro t hnot
      obtain ⟨a, ha⟩ := not_forall.mp hnot
      obtain ⟨t', ht'⟩ := Option.ne_none_iff_exists'.mp ha
      by_cases hwrite : a = .write false
      · -- the same write could have ended well
        subst hwrite
        obtain ⟨m, hwriter, -⟩ := write_cases (core_step ht').1
        obtain ⟨c, hc⟩ : ∃ c, t.core.write true = some c := by
          unfold State.write
          rw [hwriter]
          exact ⟨_, rfl⟩
        have hgood : (stdioMachine parse srv lines).step (.write true) t
            = some ⟨c, t.input⟩ := Option.map_eq_some_iff.mpr ⟨c, hc, rfl⟩
        exact ⟨.write true, _, by simp, hgood⟩
      · exact ⟨a, t', hwrite, ht'⟩) s
  exact ⟨as, s', hrun, hstuck, fun hin => has _ hin rfl⟩

end SapAutomate.Mcp.Stdio
