/-
The client (`mcp-client/src/lib.rs`): any number of calls side by side,
answers to the server's own requests, and the tasks that read and write
the transport.

A call numbers its request, leaves a waiter in the pending map, puts the
request into the outbox and waits for its waiter. Each of these is one
step, and so is each lock section and each channel operation of the
other tasks. What comes over the transport is any sequence of results
of `recv`; what the delegate answers is a reading of the world.

# The two ways to spawn

`Spawn.halves` is `spawn_with_halves`: a reader task and a writer task,
which know nothing of each other. `Spawn.delegate` is
`spawn_with_delegate`: one task selects between the outbox, which comes
first, and the transport. Either way the pending map is cleared once,
after the reading loop; the receiver of the outbox goes with the writer
task or with the one task.

The client itself stays: as long as a call runs, its sender of the
outbox is there.
-/
import SapAutomate.Lib.Requests
import SapAutomate.Mcp.Elicitation
import SapAutomate.Mcp.Transport

namespace SapAutomate.Mcp.Client

open Interact Json

-- ================================================================ calls

/-- `ElicitationDelegate`. -/
inductive DelegateQuery where
  | onElicit (p : ElicitationParams)

abbrev DelegateIface : Iface := ⟨DelegateQuery, fun _ => ElicitationResult⟩

abbrev ClientIface : Iface := AtDesk Message Response DelegateIface

/-- What a response makes of a call; `decode` is `serde_json::from_value`
at the type the caller wants. -/
def outcome {R : Type} (decode : Value → Except String R) (r : Response) :
    McpResult R :=
  match r.error with
  | some err => .error (.protocol err.code err.message)
  | none =>
      match r.result with
      | none => .error (.ofCode .invalidRequest "response missing result")
      | some v =>
          match decode v with
          | .ok parsed => .ok parsed
          | .error text => .error (.json text)

/-- The request of a call. -/
def requestOf (id : Int) (method : String) (params : Option Value) :
    Request := ⟨jsonrpcVersion, .number id, method, params⟩

/-- `Client::call`. -/
def call {R : Type} (method : String) (params : Option Value)
    (decode : Value → Except String R) : Prog ClientIface (McpResult R) :=
  atDesk .fetchId fun id =>
  atDesk (.insert id) fun _ =>
  atDesk (.send (.request (requestOf id method params))) fun ok =>
  if ok then
    atDesk (.await id) fun r =>
      match r with
      | some response => .done (outcome decode response)
      | none => .done (.error .transportClosed)
  else .done (.error .transportClosed)

/-- `Client::notify`. -/
def notify (method : String) (params : Option Value) :
    Prog ClientIface (McpResult Unit) :=
  atDesk (.send (.notification ⟨jsonrpcVersion, method, params⟩)) fun ok =>
    .done (if ok then .ok () else .error .transportClosed)

/-- A response goes into the outbox, whether it is accepted or not. -/
def reply (r : Response) : Prog ClientIface Unit :=
  atDesk (.send (.response r)) fun _ => .done ()

/-- `handle_server_request`. -/
def handleServerRequest (req : Request) : Prog ClientIface Unit :=
  if req.method = "elicitation/create" then
    match req.params.bind ElicitationParams.ofJson with
    | none => reply (.failure req.id
        ⟨ErrorCode.invalidParams.asI32, "invalid elicitation params", none⟩)
    | some p => .ask (.inr (.onElicit p)) fun result =>
        reply (.success req.id (ElicitationResult.toJson result))
  else reply (.failure req.id
    ⟨ErrorCode.methodNotFound.asI32,
      "method '" ++ req.method ++ "' not supported by client", none⟩)

/-- What a task of the client does. -/
inductive Job (R : Type) where
  | call (method : String) (params : Option Value)
      (decode : Value → Except String R)
  | notify (method : String) (params : Option Value)
  | handle (req : Request)

/-- What it comes to. -/
inductive Return (R : Type) where
  | call (r : McpResult R)
  | notify (r : McpResult Unit)
  | handled

def body {R : Type} : Job R → Prog ClientIface (Return R)
  | .call method params decode => do
      let r ← call method params decode
      return .call r
  | .notify method params => do
      let r ← notify method params
      return .notify r
  | .handle req => do
      let _ ← handleServerRequest req
      return .handled

-- ============================================================ the tasks

/-- `spawn_with_halves` or `spawn_with_delegate`. -/
inductive Spawn where
  | halves
  | delegate
  deriving DecidableEq

/-- Where the reading loop is: at the transport, with a response that has
a number, past the loop, past the clearing of the map, or gone. -/
inductive ReaderPhase where
  | receiving
  | handing (h : Handover Response)
  | closing
  | cleared
  | ended

/-- The client: its tasks with what they share, the two ends of the
transport, the messages read and those written. -/
structure State (R : Type) where
  pool : Pool ClientIface (Job R) (Answers DelegateIface)
    (Desk Message Response) (Return R)
  reader : ReaderPhase
  writer : WriterPhase
  incoming : List Message
  written : List Message

/-- The capacity of the outbox. -/
def outboxCapacity : Nat := 64

abbrev clientShared : Shared ClientIface (Answers DelegateIface)
    (Desk Message Response) :=
  deskShared outboxCapacity Message Response DelegateIface

/-- What can happen: a caller comes, a task goes on, the transport gives
a result, the reader goes on without it, the writer goes to the outbox or
past its end, a write ends well or not. -/
inductive Act (R : Type) where
  | spawn (job : Job R)
  | resume (i : Nat) (w : Answers DelegateIface)
  | recv (x : Received)
  | read
  | drain
  | write (ok : Bool)

namespace State

variable {R : Type}

/-- A fresh client. -/
def init : State R where
  pool := ⟨.new 1, [], []⟩
  reader := .receiving
  writer := .idle
  incoming := []
  written := []

abbrev desk (s : State R) : Desk Message Response := s.pool.shared

def setDesk (s : State R) (d : Desk Message Response) : State R :=
  { s with pool := { s.pool with shared := d } }

def spawn (s : State R) (job : Job R) : State R :=
  { s with pool := s.pool.spawn job (body job) }

/-- The reading loop can take a result of `recv`. The one task polls the
outbox first. -/
def canRecv (v : Spawn) (s : State R) : Bool :=
  match s.reader with
  | .receiving =>
      match v with
      | .halves => true
      | .delegate =>
          match s.writer with
          | .idle => s.desk.outbox.queued.isEmpty
          | _ => false
  | _ => false

/-- One turn of the reading loop. -/
def receive (s : State R) : Received → State R
  | .message m =>
      let s := { s with incoming := s.incoming ++ [m] }
      match m with
      | .response r =>
          match r.id with
          | .number n => { s with reader := .handing (.matching n r) }
          | _ => s
      | .notification _ => s
      | .request req => s.spawn (.handle req)
  | .eof => { s with reader := .closing }
  | .error => { s with reader := .closing }

/-- Where the reading loop is after a step with a response. -/
def afterHanding : Option (Handover Response) → ReaderPhase
  | some h => .handing h
  | none => .receiving

/-- The reader goes on without the transport. -/
def read (v : Spawn) (s : State R) : Option (State R) :=
  match s.reader with
  | .receiving => none
  | .handing h =>
      let a := h.step s.desk
      some ({ s with reader := afterHanding a.1 }.setDesk a.2)
  | .closing => some ({ s with reader := .cleared }.setDesk s.desk.clear)
  | .cleared =>
      match v with
      | .halves => some { s with reader := .ended }
      | .delegate => some ({ s with reader := .ended, writer := .ended }.setDesk
          { s.desk with outbox := s.desk.outbox.close })
  | .ended => none

/-- The next message of the outbox; past its loop, the writer task drops
the receiver. -/
def drain (v : Spawn) (s : State R) : Option (State R) :=
  match s.writer with
  | .idle =>
      match v, s.reader with
      | .halves, _ | .delegate, .receiving =>
          s.desk.outbox.recv.map fun a =>
            { s with writer := .writing a.1 }.setDesk
              { s.desk with outbox := a.2 }
      | .delegate, _ => none
  | .closing =>
      match v with
      | .halves => some ({ s with writer := .ended }.setDesk
          { s.desk with outbox := s.desk.outbox.close })
      | .delegate => none
  | _ => none

/-- `writer.send` or `transport.send`. -/
def write (v : Spawn) (ok : Bool) (s : State R) : Option (State R) :=
  match s.writer with
  | .writing m =>
      if ok then some { s with writer := .idle, written := s.written ++ [m] }
      else
        match v with
        | .halves => some { s with writer := .closing }
        | .delegate => some { s with writer := .closing, reader := .closing }
  | _ => none

end State

/-- The client as a machine. -/
def machine (R : Type) (v : Spawn) : Machine (Act R) (State R) where
  init := .init
  step
    | .spawn job, s =>
        match job with
        | .handle _ => none
        | _ => some (s.spawn job)
    | .resume i w, s =>
        (s.pool.resume clientShared i w).map fun p => { s with pool := p }
    | .recv x, s => if s.canRecv v then some (s.receive x) else none
    | .read, s => s.read v
    | .drain, s => s.drain v
    | .write ok, s => s.write v ok

end SapAutomate.Mcp.Client
