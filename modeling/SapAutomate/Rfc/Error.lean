/-
The RFC error taxonomy (`sap-automate-rfc/src/error.rs`): every failure
mode, its numeric code, whether a retry makes sense, and the text
`Display` gives it — callers embed that text in notes and tool results.
-/

namespace SapAutomate.Rfc

/-- `RfcErrorCode`. -/
inductive RfcErrorCode where
  | timeout
  | destinationDown
  | poolExhausted
  | circuitOpen
  | upstreamRateLimit
  | authFailed
  | notFound
  | tableBufferOverflow
  | invalidParameter
  | permissionDenied
  | schemaViolation
  | internal
  | partialBulk
  | staleMetadata
  deriving DecidableEq

namespace RfcErrorCode

/-- The discriminant, `as_i32`. -/
def asI32 : RfcErrorCode → Int
  | .timeout => -32110
  | .destinationDown => -32120
  | .poolExhausted => -32130
  | .circuitOpen => -32140
  | .upstreamRateLimit => -32150
  | .authFailed => -32210
  | .notFound => -32220
  | .tableBufferOverflow => -32230
  | .invalidParameter => -32240
  | .permissionDenied => -32250
  | .schemaViolation => -32260
  | .internal => -32299
  | .partialBulk => -32310
  | .staleMetadata => -32320

/-- `is_transient`: the code lies in the retryable range. -/
def isTransient (c : RfcErrorCode) : Bool :=
  decide (-32199 ≤ c.asI32 ∧ c.asI32 ≤ -32100)

/-- The derived `Debug` text. -/
def debug : RfcErrorCode → String
  | .timeout => "Timeout"
  | .destinationDown => "DestinationDown"
  | .poolExhausted => "PoolExhausted"
  | .circuitOpen => "CircuitOpen"
  | .upstreamRateLimit => "UpstreamRateLimit"
  | .authFailed => "AuthFailed"
  | .notFound => "NotFound"
  | .tableBufferOverflow => "TableBufferOverflow"
  | .invalidParameter => "InvalidParameter"
  | .permissionDenied => "PermissionDenied"
  | .schemaViolation => "SchemaViolation"
  | .internal => "Internal"
  | .partialBulk => "PartialBulk"
  | .staleMetadata => "StaleMetadata"

end RfcErrorCode

/-- `RfcError`. -/
inductive RfcError where
  | timeout (timeoutMs : Nat)
  | destinationDown (destination reason : String)
  | poolExhausted (cap : Nat)
  | circuitOpen (retryAfterMs : Nat)
  | authFailed (reason : String)
  | notFound (what : String)
  | tableBufferOverflow (table : String) (maxRows : Nat)
  | invalidParameter (name reason : String)
  | permissionDenied (reason : String)
  | schemaViolation (reason : String)
  | partialBulk (reason : String)
  | internal (reason : String)
  deriving DecidableEq

/-- `RfcResult<T>`. -/
abbrev RfcResult (α : Type) := Except RfcError α

namespace RfcError

/-- `RfcError::code`. -/
def code : RfcError → RfcErrorCode
  | .timeout _ => .timeout
  | .destinationDown .. => .destinationDown
  | .poolExhausted _ => .poolExhausted
  | .circuitOpen _ => .circuitOpen
  | .authFailed _ => .authFailed
  | .notFound _ => .notFound
  | .tableBufferOverflow .. => .tableBufferOverflow
  | .invalidParameter .. => .invalidParameter
  | .permissionDenied _ => .permissionDenied
  | .schemaViolation _ => .schemaViolation
  | .partialBulk _ => .partialBulk
  | .internal _ => .internal

/-- `RfcError::is_transient`. -/
def isTransient (e : RfcError) : Bool := e.code.isTransient

/-- The `Display` text. -/
def display : RfcError → String
  | .timeout ms => "RFC timeout after " ++ toString ms ++ " ms"
  | .destinationDown d r =>
      "SAP destination '" ++ d ++ "' unreachable: " ++ r
  | .poolExhausted cap =>
      "connection pool exhausted (cap=" ++ toString cap ++ ")"
  | .circuitOpen ms =>
      "circuit open until ~" ++ toString ms ++ " ms from now"
  | .authFailed r => "authentication failed: " ++ r
  | .notFound w => "not found: " ++ w
  | .tableBufferOverflow t n =>
      "table buffer overflow for '" ++ t ++ "' (max_rows="
        ++ toString n ++ ")"
  | .invalidParameter n r => "invalid parameter '" ++ n ++ "': " ++ r
  | .permissionDenied r => "permission denied: " ++ r
  | .schemaViolation r => "schema violation: " ++ r
  | .partialBulk r => "partial result: " ++ r
  | .internal r => "internal: " ++ r

/-- Only the four outage variants are retryable. -/
theorem isTransient_iff (e : RfcError) :
    e.isTransient = true
      ↔ (∃ ms, e = .timeout ms) ∨ (∃ d r, e = .destinationDown d r)
        ∨ (∃ cap, e = .poolExhausted cap) ∨ (∃ ms, e = .circuitOpen ms) := by
  cases e <;> simp [isTransient, code, RfcErrorCode.isTransient,
    RfcErrorCode.asI32]

end RfcError

end SapAutomate.Rfc
