/-
A client (`spawn_with_halves`) and a server (`run_stdio`) joined by two
pipes, as a gateway joins them (`sap-automate-gw/src/main.rs`): each
reads the lines that the other one writes, in order and without loss.

A step is one of either side, or the next line of a pipe being read. A
pipe ends when the task that writes into it has ended and nothing is
under way any more. A write may fail, at any time: then nothing of it
gets through.
-/
import SapAutomate.Mcp.Client
import SapAutomate.Mcp.Stdio

namespace SapAutomate.Mcp.Session

open Interact Json

variable {R : Type} {O : Iface}

/-- A message as it is written: a line. -/
def lineOf (m : Message) : Line := .text (m.text.toList ++ ['\n'])

/-- The write end is dropped. -/
def closed : WriterPhase → Bool
  | .ended => true
  | _ => false

/-- What one `recv` on a pipe gives, with what is left under way. As long
as the write end is open, there is no end of it. -/
def pipeRecv (parse : ParseJson) (ended : Bool) (flying : List Line) :
    Option (Received × List Line) :=
  match StdioReader.recv parse flying with
  | (.eof, rest) => if ended then some (.eof, rest) else none
  | r => some r

/-- The two sides, and the lines under way to each. -/
structure State (R : Type) (O : Iface) where
  client : Client.State R
  server : Stdio.State O
  toServer : List Line
  toClient : List Line

/-- A step of the client or of the server without its transport, or a
line that is read. -/
inductive Act (R : Type) (O : Iface) where
  | client (a : Client.Act R)
  | server (a : Stdio.Act O)
  | atServer
  | atClient

namespace State

/-- The client goes on, and what it writes is under way. -/
def withClient (s : State R O) (c : Client.State R) : State R O :=
  { s with
    client := c
    toServer := s.toServer
      ++ (c.written.drop s.client.written.length).map lineOf }

/-- So does the server. -/
def withServer (s : State R O) (c : Stdio.State O) : State R O :=
  { s with
    server := c
    toClient := s.toClient
      ++ (c.written.drop s.server.written.length).map lineOf }

end State

/-- A session as a machine. -/
def machine (R : Type) (parse : ParseJson) (srv : Server (HandlerIface O)) :
    Machine (Act R O) (State R O) where
  init := ⟨.init, .init, [], []⟩
  step
    | .client (.recv _), _ => none
    | .client a, s =>
        ((Client.machine R .halves).step a s.client).map s.withClient
    | .server (.recv _), _ => none
    | .server a, s => ((Stdio.machine srv).step a s.server).map s.withServer
    | .atServer, s =>
        (pipeRecv parse (closed s.client.writer) s.toServer).bind fun r =>
          ((Stdio.machine srv).step (.recv r.1) s.server).map fun c =>
            { s with server := c, toServer := r.2 }
    | .atClient, s =>
        (pipeRecv parse (closed s.server.writer) s.toClient).bind fun r =>
          ((Client.machine R .halves).step (.recv r.1) s.client).map fun c =>
            { s with client := c, toClient := r.2 }

/-- A request as it is received: parameters that are `null` are lost. -/
def requestReceived (q : Request) : Request :=
  { q with params := Value.optionField q.params }

/-- A response as it is received. -/
def responseReceived (r : Response) : Response :=
  { r with
    result := Value.optionField r.result
    error := r.error.map ErrorObject.received }

end SapAutomate.Mcp.Session
