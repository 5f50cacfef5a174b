/-
The client abstraction (`sap-automate-rfc/src/client.rs`): the request
an RFC call is made with, the catalogue metadata the safety gates read,
the metadata lookups of the `SapClient` trait, and its `call_rfc` method
as an interface.

A `SapClient` is an environment for `SapIface`: any state, any answer
to each call. Code that is generic over the trait is a program over the
interface, so what is proved of its branches holds against the mock,
the SOAP backend and an adversary alike.
-/
import SapAutomate.Lib.Interact
import SapAutomate.Json.Value
import SapAutomate.Rfc.Error

namespace SapAutomate.Rfc

open Interact Json

-- ========================================================== metadata

/-- `RfcParamDirection`. -/
inductive RfcParamDirection where
  | «import»
  | «export»
  | changing
  | tables
  deriving DecidableEq

/-- `RfcParameter`, the fields calls read. -/
structure RfcParameter where
  name : String
  direction : RfcParamDirection
  typeToken : String
  optional : Bool
  deriving DecidableEq

/-- `RfcFunctionMeta`, the fields calls and gates read. -/
structure RfcFunctionMeta where
  function : String
  parameters : List RfcParameter
  readOnly : Bool
  commitRequired : Bool
  deriving DecidableEq

/-- Metadata that carries its function's name. -/
class HasFunction (M : Type) where
  function : M → String

export HasFunction (function)

instance : HasFunction RfcFunctionMeta := ⟨fun m => m.function⟩

/-- `BulkMetadata`. -/
structure BulkMetadata (M : Type) where
  language : String
  functions : List M
  missing : List String
  deriving DecidableEq

/-- The metadata lookups of a `SapClient`, as it would answer them now. -/
structure MetadataClient (M : Type) where
  rfcMetadata : String → String → RfcResult M
  bulkRfcMetadata : List String → String → RfcResult (BulkMetadata M)

-- ============================================================= calls

/-- `RfcCallRequest`. -/
structure RfcCallRequest where
  function : String
  parameters : Value
  timeoutMs : Nat
  requireReadOnlySafe : Bool

/-- `default_timeout_ms`. -/
def defaultTimeoutMs : Nat := 30000

/-- One `call_rfc` of the trait. -/
structure SapCall where
  request : RfcCallRequest
  readOnlyMode : Bool

/-- `SapClient::call_rfc` as an interface. -/
def SapIface : Iface where
  Query := SapCall
  Reply := fun _ => RfcResult Value

/-- A `SapClient` whose behaviour depends on a state `σ`. -/
abbrev SapClient (σ : Type) := Env SapIface σ

/-- `client.call_rfc(request, read_only_mode)`. -/
def callRfc (request : RfcCallRequest) (readOnlyMode : Bool) :
    Prog SapIface (RfcResult Value) :=
  Prog.query (I := SapIface) ⟨request, readOnlyMode⟩

end SapAutomate.Rfc
