/-
`Server::run_stdio` (`mcp-server/src/server.rs`): a reader task, a
writer task, the dispatch loop between them, and a task for each
request.

Each lock section and each channel operation is a step. What the reader
gets is any sequence of results of `recv`; `stdioMachine` is the same on
the lines of a given input. Whether a write ends well is up to the
output pipe.

# The senders of the outbound channel

The channel's receiver ends when no sender is left. `run_stdio` itself
has one, `outbound_tx`, until its loop is over; the elicitation handle
has one, which the loop hands to every task and keeps until it returns;
and each task has its own as long as it runs. `State.senders` is that
set.
-/
import SapAutomate.Mcp.Elicit
import SapAutomate.Mcp.Transport

namespace SapAutomate.Mcp.Stdio

open Interact Json

-- ============================================================== the state

/-- Where the reader task is: at the transport, with a message for the
dispatch loop, or gone. -/
inductive ReaderPhase where
  | receiving
  | sending (m : Message)
  | ended

/-- Where `run_stdio` is: in its loop, delivering a response, awaiting
the reader, awaiting the writer, or past its end. -/
inductive MainPhase where
  | looping
  | handing (h : Handover Response)
  | joiningReader
  | joiningWriter
  | returned

/-- The tasks of the requests with what they share, the inbound channel,
the three loops, the messages read and those written. -/
structure State (O : Iface) where
  pool : Pool (ServerIface O) Request (Answers O) (Desk Message Response) Unit
  inbound : Channel Message
  reader : ReaderPhase
  main : MainPhase
  writer : WriterPhase
  incoming : List Message
  written : List Message

/-- The capacity of either channel. -/
def channelCapacity : Nat := 64

abbrev serverShared (O : Iface) : Shared (ServerIface O) (Answers O)
    (Desk Message Response) :=
  deskShared channelCapacity Message Response O

/-- What can happen: a task goes on, the transport gives a result, the
reader passes a message on, `run_stdio` goes on, the writer goes to its
channel or past its end, a write ends well or not. -/
inductive Act (O : Iface) where
  | resume (i : Nat) (w : Answers O)
  | recv (x : Received)
  | forward
  | main
  | drain
  | write (ok : Bool)

/-- Who has a sender of the outbound channel. -/
inductive Sender where
  | outboundTx
  | elicitHandle
  | handler (i : Nat)
  deriving DecidableEq

namespace State

variable {O : Iface}

/-- `run_stdio` at its loop. -/
def init : State O where
  pool := ⟨.new ElicitationHandle.firstId, [], []⟩
  inbound := .new
  reader := .receiving
  main := .looping
  writer := .idle
  incoming := []
  written := []

abbrev desk (s : State O) : Desk Message Response := s.pool.shared

def setDesk (s : State O) (d : Desk Message Response) : State O :=
  { s with pool := { s.pool with shared := d } }

/-- Task `i` is there and has not ended. -/
def running (s : State O) (i : Nat) : Bool :=
  match s.pool.tasks[i]? with
  | some t =>
      match t.prog with
      | .done _ => false
      | .ask _ _ => true
  | none => false

/-- The live senders of the outbound channel. -/
def senders (s : State O) : List Sender :=
  (match s.main with
    | .looping => [.outboundTx, .elicitHandle]
    | .handing _ => [.outboundTx, .elicitHandle]
    | .joiningReader => [.elicitHandle]
    | .joiningWriter => [.elicitHandle]
    | .returned => [])
    ++ ((List.range s.pool.tasks.length).filter s.running).map .handler

/-- The reader gets a result. -/
def receive (s : State O) : Received → State O
  | .message m =>
      { s with reader := .sending m, incoming := s.incoming ++ [m] }
  | .eof => { s with reader := .ended }
  | .error => { s with reader := .ended }

/-- `inbound_tx.send`. -/
def forward (s : State O) : Option (State O) :=
  match s.reader with
  | .sending m =>
      (s.inbound.send channelCapacity m).map fun a =>
        { s with
          reader := if a.1 then .receiving else .ended
          inbound := a.2 }
  | _ => none

/-- One turn of the dispatch loop. -/
def dispatch (srv : Server (HandlerIface O)) (s : State O) :
    Message → State O
  | .request req => { s with pool := s.pool.spawn req (served srv true req) }
  | .notification _ => s
  | .response r =>
      match r.id with
      | .number n => { s with main := .handing (.matching n r) }
      | _ => s

/-- Where the loop is after a step with a response. -/
def afterHanding : Option (Handover Response) → MainPhase
  | some h => .handing h
  | none => .looping

/-- `run_stdio` goes on. -/
def goOn (srv : Server (HandlerIface O)) (s : State O) : Option (State O) :=
  match s.main with
  | .looping =>
      match s.inbound.recv with
      | some (m, c) => some ({ s with inbound := c }.dispatch srv m)
      | none =>
          match s.reader with
          | .ended => some { s with main := .joiningReader }
          | _ => none
  | .handing h =>
      let a := h.step s.desk
      some ({ s with main := afterHanding a.1 }.setDesk a.2)
  | .joiningReader =>
      match s.reader with
      | .ended => some { s with main := .joiningWriter }
      | _ => none
  | .joiningWriter =>
      match s.writer with
      | .ended => some { s with main := .returned }
      | _ => none
  | .returned => none

/-- `outbound_rx.recv`; past its loop, the writer closes the pipe and is
gone, with its receiver. -/
def drain (s : State O) : Option (State O) :=
  match s.writer with
  | .idle =>
      match s.desk.outbox.recv with
      | some (m, c) => some ({ s with writer := .writing m }.setDesk
          { s.desk with outbox := c })
      | none =>
          if s.senders.isEmpty then some { s with writer := .closing }
          else none
  | .closing => some ({ s with writer := .ended }.setDesk
      { s.desk with outbox := s.desk.outbox.close })
  | _ => none

/-- `writer.send`. -/
def write (ok : Bool) (s : State O) : Option (State O) :=
  match s.writer with
  | .writing m =>
      if ok then some { s with writer := .idle, written := s.written ++ [m] }
      else some { s with writer := .closing }
  | _ => none

end State

-- =========================================================== the machines

variable {O : Iface}

/-- `run_stdio` as a machine. -/
def machine (srv : Server (HandlerIface O)) : Machine (Act O) (State O) where
  init := .init
  step
    | .resume i w, s =>
        (s.pool.resume (serverShared O) i w).map fun p => { s with pool := p }
    | .recv x, s =>
        match s.reader with
        | .receiving => some (s.receive x)
        | _ => none
    | .forward, s => s.forward
    | .main, s => s.goOn srv
    | .drain, s => s.drain
    | .write ok, s => s.write ok

/-- `run_stdio` on an input, with the lines that are left of it. -/
structure LineState (O : Iface) where
  core : State O
  input : List Line

/-- The reader goes to the next line, or anything else happens. -/
inductive LineAct (O : Iface) where
  | recv
  | resume (i : Nat) (w : Answers O)
  | forward
  | main
  | drain
  | write (ok : Bool)

/-- What happens to `run_stdio` itself. -/
def LineAct.toAct (x : Received) : LineAct O → Act O
  | .recv => .recv x
  | .resume i w => .resume i w
  | .forward => .forward
  | .main => .main
  | .drain => .drain
  | .write ok => .write ok

def stdioMachine (parse : ParseJson) (srv : Server (HandlerIface O))
    (lines : List Line) : Machine (LineAct O) (LineState O) where
  init := ⟨.init, lines⟩
  step a s :=
    let r := StdioReader.recv parse s.input
    ((machine srv).step (a.toAct r.1) s.core).map fun c =>
      { core := c
        input :=
          match a with
          | .recv => r.2
          | _ => s.input }

end SapAutomate.Mcp.Stdio
