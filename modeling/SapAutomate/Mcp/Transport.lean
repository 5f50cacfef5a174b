/-
The stdio transport (`mcp-transport/src/stdio.rs`): a message is one
line of compact JSON.

`StdioReader` works on the lines that `read_line` hands it one after
the other, each with its newline; a line whose bytes are not UTF-8 is
an error of `read_line`. Parsing JSON is `serde_json`'s:
it is a parameter.
-/
import SapAutomate.Lib.Text
import SapAutomate.Mcp.Wire

namespace SapAutomate.Mcp

open Json Text

/-- `serde_json::from_slice` on a text. -/
abbrev ParseJson := String → Option Value

/-- What one `read_line` gives. -/
inductive Line where
  | text (s : List Char)
  | unreadable
  deriving DecidableEq

/-- What one `recv` gives: `Ok(Some(_))`, `Ok(None)` or `Err(_)`. -/
inductive Received where
  | message (m : Message)
  | eof
  | error

/-- `Message::from_json`. -/
def Message.fromJson (parse : ParseJson) (s : List Char) : Option Message :=
  (parse (String.ofList s)).bind Message.fromValue

/-- `StdioReader::recv`, with the lines that are left: blank ones are
skipped. -/
def StdioReader.recv (parse : ParseJson) : List Line → Received × List Line
  | [] => (.eof, [])
  | .unreadable :: ls => (.error, ls)
  | .text s :: ls =>
      let trimmed := trimBy isWhitespace s
      if trimmed.isEmpty then recv parse ls
      else
        match Message.fromJson parse trimmed with
        | some m => (.message m, ls)
        | none => (.error, ls)

/-- The results of `n` calls of `recv`. -/
def StdioReader.recvN (parse : ParseJson) : Nat → List Line → List Received
  | 0, _ => []
  | n + 1, ls =>
      let r := recv parse ls
      r.1 :: recvN parse n r.2

/-- `StdioWriter`, with what it has written. -/
structure StdioWriter where
  written : List Char
  closed : Bool

/-- `StdioWriter::send` on a pipe that takes what is written. -/
def StdioWriter.send (w : StdioWriter) (m : Message) :
    McpResult StdioWriter :=
  if w.closed then .error .transportClosed
  else .ok { w with written := w.written ++ (m.text.toList ++ ['\n']) }

/-- Messages sent one after the other. -/
def StdioWriter.sendAll (w : StdioWriter) :
    List Message → McpResult StdioWriter
  | [] => .ok w
  | m :: ms => w.send m >>= fun w => w.sendAll ms

/-- Where the task is that writes out what a channel holds: at the
channel, at a message, past its loop, or gone. -/
inductive WriterPhase where
  | idle
  | writing (m : Message)
  | closing
  | ended

namespace WriterPhase

/-- The message it holds. -/
def holding : WriterPhase → List Message
  | .writing m => [m]
  | _ => []

/-- It is past its loop. -/
def past : WriterPhase → Bool
  | .closing => true
  | .ended => true
  | _ => false

end WriterPhase

/-- The lines of a text, each with its newline; the last one may lack
it. -/
def lines : List Char → List (List Char)
  | [] => []
  | c :: cs =>
      if c = '\n' then [c] :: lines cs
      else
        match lines cs with
        | [] => [[c]]
        | l :: ls => (c :: l) :: ls

/-- What `read_line` gives for a text, again and again. -/
def linesOf (s : List Char) : List Line := (lines s).map .text

end SapAutomate.Mcp
