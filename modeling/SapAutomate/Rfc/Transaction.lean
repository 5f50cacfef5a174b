/-
Transactional write orchestration
(`sap-automate-rfc/src/transaction.rs`): call the business BAPI, read
its BAPIRET2, and finish the logical unit of work with
`BAPI_TRANSACTION_COMMIT` or `BAPI_TRANSACTION_ROLLBACK`.

`executeWriteBapi` is a program over the client trait. Every `?` of the
source is an explicit branch here, and `WriteRun` lists the branches:
one constructor for each way a run can go, with its exchanges and its
result. `executeWriteBapi_runs` says there are no others; everything
proved of the orchestration starts from it.
-/
import SapAutomate.Rfc.Client
import SapAutomate.Rfc.Bapiret2

namespace SapAutomate.Rfc

open Interact Json

-- ============================================================= requests

/-- `COMMIT_FN`. -/
def commitFn : String := "BAPI_TRANSACTION_COMMIT"

/-- `ROLLBACK_FN`. -/
def rollbackFn : String := "BAPI_TRANSACTION_ROLLBACK"

/-- `commit_req`: commit synchronously. -/
def commitReq : RfcCallRequest :=
  { function := commitFn
    parameters := .object [("WAIT", .string "X")]
    timeoutMs := 30000
    requireReadOnlySafe := false }

/-- `rollback_req`. -/
def rollbackReq : RfcCallRequest :=
  { function := rollbackFn
    parameters := .null
    timeoutMs := 30000
    requireReadOnlySafe := false }

/-- `note`: a synthetic message in the same list as SAP's own. -/
def note (severity : BapiRet2Severity) (text : String) : BapiRet2Message :=
  { severity := severity
    messageClass := "SAPAUTO"
    messageNumber := "000"
    text := text
    parameter := none
    row := none
    field := none
    system := none }

-- ======================================================== orchestration

/-- What `rollback` makes of the reply: whether it counts as confirmed,
and the messages. -/
def rollbackVerdict : RfcResult Value → Bool × List BapiRet2Message
  | .ok v => (!hasFailure (parseBapiret2 v), parseBapiret2 v)
  | .error e =>
      (false,
        [note .warning ("rollback could not be confirmed: " ++ e.display)])

/-- `rollback`. -/
def rollback : Prog SapIface (Bool × List BapiRet2Message) := do
  let reply ← callRfc rollbackReq false
  return rollbackVerdict reply

/-- `WriteOutcome`. -/
structure WriteOutcome where
  function : String
  committed : Bool
  rolledBack : Bool
  messages : List BapiRet2Message
  result : Value

/-- The refusal of a write in read-only mode. -/
def readOnlyRefusal (function : String) : RfcError :=
  .permissionDenied ("write workflow for '" ++ function
    ++ "' requires write mode (--enable-writes)")

/-- The refusal of a direct commit or rollback. -/
def controlRefusal : RfcError :=
  .invalidParameter "function"
    "commit/rollback are issued automatically; call the business BAPI instead"

/-- The error a request is refused with before any call. -/
def refusal (function : String) (readOnlyMode : Bool) : RfcError :=
  if readOnlyMode then readOnlyRefusal function else controlRefusal

/-- The note on a reply without BAPIRET2 rows. -/
def unconfirmedNote : BapiRet2Message :=
  note .warning "BAPI returned no BAPIRET2; outcome unconfirmed — not committed"

/-- `execute_write_bapi`. -/
def executeWriteBapi (request : RfcCallRequest) (readOnlyMode : Bool) :
    Prog SapIface (RfcResult WriteOutcome) := do
  if readOnlyMode then
    return .error (readOnlyRefusal request.function)
  if request.function = commitFn ∨ request.function = rollbackFn then
    return .error controlRefusal
  match ← callRfc request false with
  | .error e => return .error e -- `?` on the business call
  | .ok result =>
    let messages := parseBapiret2 result
    if hasFailure messages then
      let (rolledBack, rbMsgs) ← rollback
      return .ok ⟨request.function, false, rolledBack, messages ++ rbMsgs, result⟩
    if messages.isEmpty then
      let (rolledBack, rbMsgs) ← rollback
      return .ok ⟨request.function, false, rolledBack, unconfirmedNote :: rbMsgs,
        result⟩
    match ← callRfc commitReq false with
    | .error e => return .error e -- `?` on the commit
    | .ok commitResult =>
      let messages := messages ++ parseBapiret2 commitResult
      if hasFailure messages then
        let (rolledBack, rbMsgs) ← rollback
        return .ok ⟨request.function, false, rolledBack, messages ++ rbMsgs, result⟩
      return .ok ⟨request.function, true, false, messages, result⟩

-- ================================================================ runs

/-- The exchanges of a run. -/
abbrev RfcTrace := List (Exchange SapIface)

/-- A request the guards let through. -/
def Admitted (request : RfcCallRequest) (readOnlyMode : Bool) : Prop :=
  readOnlyMode = false ∧ request.function ≠ commitFn
    ∧ request.function ≠ rollbackFn

/-- A positive confirmation: at least one row, none failing. -/
def Confirmed (reply : Value) : Prop :=
  parseBapiret2 reply ≠ [] ∧ hasFailure (parseBapiret2 reply) = false

/-- The exchange of the business call. -/
def bapiSent (request : RfcCallRequest) (reply : RfcResult Value) :
    Exchange SapIface := ⟨⟨request, false⟩, reply⟩

/-- The exchange of `BAPI_TRANSACTION_COMMIT`. -/
def commitSent (reply : RfcResult Value) : Exchange SapIface :=
  ⟨⟨commitReq, false⟩, reply⟩

/-- The exchange of `BAPI_TRANSACTION_ROLLBACK`. -/
def rollbackSent (reply : RfcResult Value) : Exchange SapIface :=
  ⟨⟨rollbackReq, false⟩, reply⟩

/-- What the outcome reports when the business reply did not qualify:
its rows, or the unconfirmed note where it had none, then the
rollback's. -/
def unqualifiedMessages (v : Value) (rb : RfcResult Value) :
    List BapiRet2Message :=
  (if (parseBapiret2 v).isEmpty then [unconfirmedNote] else parseBapiret2 v)
    ++ (rollbackVerdict rb).2

/-- The runs of `executeWriteBapi request readOnlyMode`. -/
inductive WriteRun (request : RfcCallRequest) (readOnlyMode : Bool) :
    RfcTrace → RfcResult WriteOutcome → Prop where
  | refused (h : ¬ Admitted request readOnlyMode) :
      WriteRun request readOnlyMode []
        (.error (refusal request.function readOnlyMode))
  | bapiLost (e : RfcError) (h : Admitted request readOnlyMode) :
      WriteRun request readOnlyMode [bapiSent request (.error e)] (.error e)
  | unqualified (v : Value) (rb : RfcResult Value)
      (h : Admitted request readOnlyMode) (hv : ¬ Confirmed v) :
      WriteRun request readOnlyMode
        [bapiSent request (.ok v), rollbackSent rb]
        (.ok ⟨request.function, false, (rollbackVerdict rb).1,
          unqualifiedMessages v rb, v⟩)
  | commitLost (v : Value) (e : RfcError)
      (h : Admitted request readOnlyMode) (hv : Confirmed v) :
      WriteRun request readOnlyMode
        [bapiSent request (.ok v), commitSent (.error e)] (.error e)
  | commitFailed (v w : Value) (rb : RfcResult Value)
      (h : Admitted request readOnlyMode) (hv : Confirmed v)
      (hw : hasFailure (parseBapiret2 w) = true) :
      WriteRun request readOnlyMode
        [bapiSent request (.ok v), commitSent (.ok w), rollbackSent rb]
        (.ok ⟨request.function, false, (rollbackVerdict rb).1,
          parseBapiret2 v ++ parseBapiret2 w ++ (rollbackVerdict rb).2, v⟩)
  | committed (v w : Value) (h : Admitted request readOnlyMode)
      (hv : Confirmed v) (hw : hasFailure (parseBapiret2 w) = false) :
      WriteRun request readOnlyMode
        [bapiSent request (.ok v), commitSent (.ok w)]
        (.ok ⟨request.function, true, false,
          parseBapiret2 v ++ parseBapiret2 w, v⟩)

/-- A reply with rows is confirmed unless one of them fails. -/
theorem not_confirmed_iff {v : Value} :
    ¬ Confirmed v
      ↔ hasFailure (parseBapiret2 v) = true ∨ parseBapiret2 v = [] := by
  unfold Confirmed
  cases hasFailure (parseBapiret2 v) <;> simp

/-- Every branch of the orchestration is one of the listed runs. -/
theorem executeWriteBapi_runs (request : RfcCallRequest)
    (readOnlyMode : Bool) :
    (executeWriteBapi request readOnlyMode).Sat
      (WriteRun request readOnlyMode) := by
  unfold executeWriteBapi
  cases readOnlyMode with
  | true => exact .refused fun h => Bool.noConfusion h.1
  | false =>
      rw [if_neg Bool.false_ne_true]
      by_cases hctl : request.function = commitFn
          ∨ request.function = rollbackFn
      · rw [if_pos hctl]
        exact .refused fun h => hctl.elim h.2.1 h.2.2
      · rw [if_neg hctl]
        have hadm : Admitted request false :=
          ⟨rfl, fun h => hctl (.inl h), fun h => hctl (.inr h)⟩
        intro reply
        cases reply with
        | error e => exact .bapiLost e hadm
        | ok v =>
            show Prog.Sat (if hasFailure (parseBapiret2 v) then _ else _) _
            by_cases hf : hasFailure (parseBapiret2 v) = true
            · rw [if_pos hf]
              intro rb
              have hne : (parseBapiret2 v).isEmpty = false := by
                cases hp : parseBapiret2 v with
                | nil => rw [hp] at hf; cases hf
                | cons m ms => rfl
              have hrun := WriteRun.unqualified v rb hadm
                (not_confirmed_iff.mpr (.inl hf))
              unfold unqualifiedMessages at hrun
              rw [hne] at hrun
              exact hrun
            · rw [if_neg hf]
              show Prog.Sat (if (parseBapiret2 v).isEmpty then _ else _) _
              by_cases hempty : (parseBapiret2 v).isEmpty = true
              · rw [if_pos hempty]
                intro rb
                have hrun := WriteRun.unqualified v rb hadm
                  (not_confirmed_iff.mpr (.inr (List.isEmpty_iff.mp hempty)))
                unfold unqualifiedMessages at hrun
                rw [hempty] at hrun
                exact hrun
              · rw [if_neg hempty]
                have hff : hasFailure (parseBapiret2 v) = false :=
                  Bool.eq_false_iff.mpr hf
                have hc : Confirmed v :=
                  ⟨fun h => hempty (List.isEmpty_iff.mpr h), hff⟩
                intro creply
                cases creply with
                | error e => exact .commitLost v e hadm hc
                | ok w =>
                    show Prog.Sat
                      (if hasFailure (parseBapiret2 v ++ parseBapiret2 w)
                        then _ else _) _
                    rw [hasFailure_append, hff, Bool.false_or]
                    by_cases hw : hasFailure (parseBapiret2 w) = true
                    · rw [if_pos hw]
                      intro rb
                      exact .commitFailed v w rb hadm hc hw
                    · rw [if_neg hw]
                      exact .committed v w hadm hc
                        (Bool.eq_false_iff.mpr hw)

end SapAutomate.Rfc
