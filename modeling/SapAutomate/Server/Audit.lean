/-
The audit log (`sap-automate-observability/src/audit.rs`): an entry's
arguments are redacted on its way to the sink.
-/
import Mathlib.Data.List.Infix
import SapAutomate.Server.RfcCall

namespace SapAutomate.Server

open Json

/-- `SENSITIVE_SUBSTRINGS`. -/
def sensitiveSubstrings : List String :=
  ["password", "passwd", "secret", "token", "api_key", "apikey", "_pwd",
    "_pass", "credential"]

/-- One character of `str::to_lowercase`, as far as its result is ASCII:
the Kelvin sign is the one other letter that becomes a `k`. -/
def lowerChar (c : Char) : Char :=
  if c.toNat = 0x212A then 'k' else c.toLower

/-- `SENSITIVE_SUBSTRINGS.iter().any(|s| k.to_lowercase().contains(s))`. -/
def isSensitive (k : String) : Bool :=
  sensitiveSubstrings.any fun s => decide (s.toList <:+: k.toList.map lowerChar)

/-- What a sensitive value becomes. -/
def mask : Value := .string "***"

mutual

/-- `redact`. An entry put back into the map stands where it stood. -/
def redact : Value → Value
  | .object m => .object (redactFields m)
  | .array a => .array (redactItems a)
  | other => other
termination_by structural v => v

def redactItems : List Value → List Value
  | [] => []
  | v :: a => redact v :: redactItems a
termination_by structural a => a

def redactFields : List (String × Value) → List (String × Value)
  | [] => []
  | (k, v) :: m =>
      (k, if isSensitive k then mask else redact v) :: redactFields m
termination_by structural m => m

end

/-- `AuditLog::record`: what the sink is given. -/
def AuditEntry.recorded (entry : AuditEntry) : AuditEntry :=
  { entry with argumentsRedacted := redact entry.argumentsRedacted }

end SapAutomate.Server
