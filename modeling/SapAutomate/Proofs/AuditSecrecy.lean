/-
Do secrets reach the audit sink? Two write attempts whose arguments
differ only under keys that `redact` treats as sensitive, side by side.

The arguments recorded are the same (`redact_agree`), so the entries are
the same just where the outcomes are. An outcome is made of the function
and of what the client answers, and the client's errors quote the
parameters: `call_rfc` prints parameters that are no object, and
`validate_keys` names the key it refuses, wherever it stands. The mock
also answers with an echo, which decides between commit and rollback.
-/
import SapAutomate.Proofs.Forgery
import SapAutomate.Server.Audit
import SapAutomate.Soap.Client

namespace Interact

variable {I J K : Iface} {α β γ σ τ : Type}

namespace Prog

theorem inl_bind (p : Prog I α) (f : α → Prog I β) :
    ((p >>= f).inl : Prog (I.sum J) β) = (p.inl >>= fun a => (f a).inl) := by
  induction p with
  | done a => rfl
  | ask q k ih =>
      have hk : (fun r => ((k r >>= f).inl : Prog (I.sum J) β))
          = fun r => ((k r).inl >>= fun a => (f a).inl) := funext ih
      exact congrArg (Prog.ask (I := I.sum J) (Sum.inl q)) hk

/-- A program on the left, with its questions replaced. -/
theorem interpLeft_inl_bind (impl : (q : I.Query) → Prog J (I.Reply q))
    (p : Prog I α) (f : α → Prog (I.sum K) β) :
    (((p.inl : Prog (I.sum K) α) >>= f).interpLeft impl)
      = ((p.interp impl).inl >>= fun a => (f a).interpLeft impl) := by
  induction p with
  | done a => rfl
  | ask q k ih =>
      have hk : ∀ r, (((k r).inl : Prog (I.sum K) α) >>= f).interpLeft impl
          = (((k r).interp impl).inl >>= fun a => (f a).interpLeft impl) := ih
      show ((impl q).inl >>= fun r =>
          (((k r).inl : Prog (I.sum K) α) >>= f).interpLeft impl)
        = ((impl q >>= fun r => (k r).interp impl).inl
          >>= fun a => (f a).interpLeft impl)
      rw [inl_bind]
      induction impl q with
      | done r => exact hk r
      | ask q' k' ih' =>
          exact congrArg (Prog.ask (I := J.sum K) (Sum.inl q')) (funext ih')

/-- What a program on the left leaves to say of the other side. -/
theorem exec_inl_bind {δ : Type} (env : Env I σ) (world : Env J τ)
    (f : Exchange (I.sum J) → Option δ) (hf : ∀ q r, f ⟨.inl q, r⟩ = none)
    (p : Prog I α) (g : α → Prog (I.sum J) β) (s : σ) (t : τ) :
    ((p.inl >>= g).exec (env.sum world) (s, t)).trace.filterMap f
      = ((g (p.exec env s).result).exec (env.sum world)
          ((p.exec env s).state, t)).trace.filterMap f := by
  induction p generalizing s with
  | done a => rfl
  | ask q k ih =>
      have hrest := ih (env.answer q s).1 (env.answer q s).2
      exact (List.filterMap_cons_none (hf q (env.answer q s).1)).trans hrest

end Prog

end Interact

namespace SapAutomate.Server

open Interact Json Mcp Rfc Soap Xml

-- ============================================================ agreement

mutual

/-- Two values that differ only in what is stored under sensitive keys. -/
inductive Agree : Value → Value → Prop where
  | same (v : Value) : Agree v v
  | array {a b : List Value} (h : AgreeItems a b) : Agree (.array a) (.array b)
  | object {m n : Map} (h : AgreeFields m n) : Agree (.object m) (.object n)

inductive AgreeItems : List Value → List Value → Prop where
  | nil : AgreeItems [] []
  | cons {v w : Value} {a b : List Value} (hv : Agree v w)
      (h : AgreeItems a b) : AgreeItems (v :: a) (w :: b)

inductive AgreeFields : Map → Map → Prop where
  | nil : AgreeFields [] []
  | secret {k : String} (v w : Value) {m n : Map} (hk : isSensitive k = true)
      (h : AgreeFields m n) : AgreeFields ((k, v) :: m) ((k, w) :: n)
  | field {k : String} {v w : Value} {m n : Map} (hv : Agree v w)
      (h : AgreeFields m n) : AgreeFields ((k, v) :: m) ((k, w) :: n)

end

mutual

/-- They are redacted to the same. -/
theorem redact_agree : ∀ {v w : Value}, Agree v w → redact v = redact w
  | _, _, .same _ => rfl
  | _, _, .array h => congrArg Value.array (redactItems_agree h)
  | _, _, .object h => congrArg Value.object (redactFields_agree h)

theorem redactItems_agree : ∀ {a b : List Value}, AgreeItems a b →
    redactItems a = redactItems b
  | _, _, .nil => rfl
  | _, _, .cons hv h => by
      unfold redactItems
      rw [redact_agree hv, redactItems_agree h]

theorem redactFields_agree : ∀ {m n : Map}, AgreeFields m n →
    redactFields m = redactFields n
  | _, _, .nil => rfl
  | _, _, .secret v w hk h => by
      unfold redactFields
      rw [hk, redactFields_agree h]
      rfl
  | _, _, .field hv h => by
      unfold redactFields
      rw [redact_agree hv, redactFields_agree h]

end

/-- Under a key that is not sensitive they hold values that agree. -/
theorem AgreeFields.get {m n : Map} (h : AgreeFields m n) {key : String}
    (hkey : isSensitive key = false) :
    (Map.get m key = none ∧ Map.get n key = none)
      ∨ ∃ v w, Map.get m key = some v ∧ Map.get n key = some w ∧ Agree v w := by
  match m, n, h with
  | _, _, .nil => exact .inl ⟨rfl, rfl⟩
  | _, _, .secret (k := k) v w hk h =>
      have hne : k ≠ key := by
        intro heq
        rw [heq, hkey] at hk
        cases hk
      rw [Map.get_cons_ne hne, Map.get_cons_ne hne]
      exact h.get hkey
  | _, _, .field (k := k) (v := v) (w := w) hv h =>
      by_cases heq : k = key
      · subst heq
        exact .inr ⟨v, w, Map.get_cons_self .., Map.get_cons_self .., hv⟩
      · rw [Map.get_cons_ne heq, Map.get_cons_ne heq]
        exact h.get hkey
termination_by structural h

/-- They have the same keys. -/
theorem AgreeFields.containsKey {m n : Map} (h : AgreeFields m n)
    (key : String) : Map.containsKey m key = Map.containsKey n key := by
  unfold Map.containsKey
  match m, n, h with
  | _, _, .nil => rfl
  | _, _, .secret (k := k) v w hk h =>
      by_cases heq : k = key
      · subst heq
        rw [Map.get_cons_self, Map.get_cons_self]
        rfl
      · rw [Map.get_cons_ne heq, Map.get_cons_ne heq]
        exact h.containsKey key
  | _, _, .field (k := k) hv h =>
      by_cases heq : k = key
      · subst heq
        rw [Map.get_cons_self, Map.get_cons_self]
        rfl
      · rw [Map.get_cons_ne heq, Map.get_cons_ne heq]
        exact h.containsKey key
termination_by structural h

/-- Agreeing values read alike. -/
theorem Agree.readers {v w : Value} (h : Agree v w) :
    v.asStr = w.asStr ∧ v.asBool = w.asBool ∧ v.asU64 = w.asU64 := by
  cases h with
  | same => exact ⟨rfl, rfl, rfl⟩
  | array h => exact ⟨rfl, rfl, rfl⟩
  | object h => exact ⟨rfl, rfl, rfl⟩

-- ============================================================= requests

/-- Two requests that differ in parameters that agree. -/
structure AgreeRequests (q q' : RfcCallRequest) : Prop where
  function : q.function = q'.function
  parameters : Agree q.parameters q'.parameters

/-- Of two fields that agree, what a reader of values makes. -/
theorem AgreeFields.read {α : Type} {m n : Map} (h : AgreeFields m n)
    {key : String} (hkey : isSensitive key = false) (f : Value → Option α)
    (hf : ∀ v w, Agree v w → f v = f w) :
    (Map.get m key).bind f = (Map.get n key).bind f := by
  rcases h.get hkey with ⟨hm, hn⟩ | ⟨v, w, hm, hn, hv⟩
  · rw [hm, hn]
  · rw [hm, hn]
    exact hf v w hv

/-- None of the fields of a request is sensitive. -/
theorem requestFields_plain : ∀ key ∈ ["function", "parameters", "timeout_ms",
    "require_read_only_safe", "commit"], isSensitive key = false := by
  decide

theorem AgreeFields.request {m n : Map} (h : AgreeFields m n) :
    (rfcCallRequest (.object m) = none ∧ rfcCallRequest (.object n) = none)
      ∨ ∃ q q', rfcCallRequest (.object m) = some q
        ∧ rfcCallRequest (.object n) = some q' ∧ AgreeRequests q q' := by
  have hplain := requestFields_plain
  have hfunction := h.read (hplain "function" (by simp)) Value.asStr
    fun v w hv => hv.readers.1
  have hparams : Agree ((Map.get m "parameters").getD .null)
      ((Map.get n "parameters").getD .null) := by
    rcases h.get (hplain "parameters" (by simp)) with ⟨hm, hn⟩
      | ⟨v, w, hm, hn, hv⟩
    · rw [hm, hn]
      exact .same _
    · rw [hm, hn]
      exact hv
  have htimeout : (Map.get m "timeout_ms").elim (some defaultTimeoutMs)
        Value.asU64
      = (Map.get n "timeout_ms").elim (some defaultTimeoutMs)
        Value.asU64 := by
    rcases h.get (hplain "timeout_ms" (by simp)) with ⟨hm, hn⟩
      | ⟨v, w, hm, hn, hv⟩
    · rw [hm, hn]
    · rw [hm, hn, Option.elim_some, Option.elim_some]
      exact hv.readers.2.2
  have hsafe : (Map.get m "require_read_only_safe").elim (some true)
        Value.asBool
      = (Map.get n "require_read_only_safe").elim (some true)
        Value.asBool := by
    rcases h.get (hplain "require_read_only_safe" (by simp)) with ⟨hm, hn⟩
      | ⟨v, w, hm, hn, hv⟩
    · rw [hm, hn]
    · rw [hm, hn, Option.elim_some, Option.elim_some]
      exact hv.readers.2.1
  have hform : ∀ l : Map, rfcCallRequest (.object l)
      = ((Map.get l "function").bind Value.asStr).bind fun function =>
        ((Map.get l "timeout_ms").elim (some defaultTimeoutMs)
          Value.asU64).bind fun timeoutMs =>
        ((Map.get l "require_read_only_safe").elim (some true)
          Value.asBool).bind fun safe =>
        some ⟨function, (Map.get l "parameters").getD .null, timeoutMs,
          safe⟩ := by
    intro l
    unfold rfcCallRequest Value.structFields
    simp only [Option.bind_eq_bind, Option.bind_some]
    congr 1
    funext function
    cases Map.get l "timeout_ms" with
    | none => cases Map.get l "require_read_only_safe" <;> simp
    | some t => cases Map.get l "require_read_only_safe" <;> simp
  rw [hform m, hform n, ← hfunction, ← htimeout, ← hsafe]
  cases (Map.get m "function").bind Value.asStr with
  | none => exact .inl ⟨rfl, rfl⟩
  | some function =>
      cases (Map.get m "timeout_ms").elim (some defaultTimeoutMs)
          Value.asU64 with
      | none => exact .inl ⟨rfl, rfl⟩
      | some timeoutMs =>
          cases (Map.get m "require_read_only_safe").elim (some true)
              Value.asBool with
          | none => exact .inl ⟨rfl, rfl⟩
          | some safe => exact .inr ⟨_, _, rfl, rfl, rfl, hparams⟩

-- ============================================================== the sink

variable {O : Iface}

/-- The invocation asks for a commit. -/
def commits (arguments : Value) : Bool :=
  ((arguments.get "commit").bind Value.asBool).getD false

/-- What the sink is given by an exchange. -/
def audited {B : Iface} : Exchange (B.sum (AuditIface.sum O)) →
    Option AuditEntry
  | ⟨.inr (.inl entry), _⟩ => some (AuditEntry.recorded entry)
  | _ => none

/-- The audit outcome of a write attempt. -/
def auditOutcome : RfcResult WriteOutcome → AuditOutcome
  | .ok outcome => finishedAudit outcome
  | .error e => failedAudit e

/-- The entry of a write attempt. -/
def rfcCallEntry (ctx : ServerContext) (arguments : Value)
    (outcome : AuditOutcome) : AuditEntry :=
  AuditEntry.recorded
    { sessionId := none
      tenant := none
      actor := none
      tool := rfcCallName
      sapSystem := ctx.sapSystem
      argumentsRedacted := arguments
      outcome := outcome }

/-- The result of a write attempt. -/
def writeResult : RfcResult WriteOutcome → CallToolResult
  | .ok outcome => renderJson (outcomeJson outcome)
  | .error e => rfcCallError e

/-- The handler of a write attempt: the transaction, then its entry. -/
theorem rfcCallHandler_commit (ctx : ServerContext)
    (serdeError : Value → String) {arguments : Value} {q : RfcCallRequest}
    (hcommit : commits arguments = true) (hq : rfcCallRequest arguments = some q) :
    rfcCallHandler (O := O) ctx serdeError arguments
      = ((executeWriteBapi q ctx.readOnly).inl >>= fun r =>
        (recordWriteAudit ctx rfcCallName arguments (auditOutcome r)).inr
          >>= fun _ => .done (.ok (writeResult r))) := by
  unfold rfcCallHandler
  rw [hq]
  show (if commits arguments = true then _ else _) = _
  rw [if_pos hcommit]
  congr 1
  funext r
  cases r <;> rfl

section Runs

variable {σ τ : Type} (ctx : ServerContext) (serdeError : Value → String)
  (arguments : Value) (world : Env (AuditIface.sum O) τ) (t : τ)

/-- What the sink is given when the mock is called. -/
def mockEntries : List AuditEntry :=
  ((rfcCallHandler (O := O) ctx serdeError arguments).exec
    (mockSapClient.sum world) ((), t)).trace.filterMap audited

/-- What it is given when the live client is called. -/
def soapEntries (r : Reader) (cfg : SoapRfcConfig) (env : Env SoapIface σ)
    (s : σ) : List AuditEntry :=
  (((rfcCallHandler (O := O) ctx serdeError arguments).interpLeft
    (soapRfcClient r cfg)).exec (env.sum world) (s, t)).trace.filterMap audited

variable {ctx serdeError arguments}

theorem mockEntries_commit {q : RfcCallRequest}
    (hcommit : commits arguments = true)
    (hq : rfcCallRequest arguments = some q) :
    mockEntries ctx serdeError arguments world t = [rfcCallEntry ctx arguments
      (auditOutcome ((executeWriteBapi q ctx.readOnly).exec mockSapClient
        ()).result)] := by
  have hhandler := rfcCallHandler_commit (O := O) ctx serdeError hcommit hq
  unfold mockEntries
  rw [hhandler, Prog.exec_inl_bind mockSapClient world audited
    fun _ _ => rfl]
  rfl

theorem soapEntries_commit {q : RfcCallRequest} (r : Reader)
    (cfg : SoapRfcConfig) (env : Env SoapIface σ) (s : σ)
    (hcommit : commits arguments = true)
    (hq : rfcCallRequest arguments = some q) :
    soapEntries ctx serdeError arguments world t r cfg env s
      = [rfcCallEntry ctx arguments (auditOutcome
        (((executeWriteBapi q ctx.readOnly).interp (soapRfcClient r cfg)).exec
          env s).result)] := by
  have hhandler := rfcCallHandler_commit (O := O) ctx serdeError hcommit hq
  unfold soapEntries
  rw [hhandler, Prog.interpLeft_inl_bind (soapRfcClient r cfg)
    (executeWriteBapi q ctx.readOnly), Prog.exec_inl_bind env world audited
    fun _ _ => rfl]
  rfl

end Runs

-- ============================================================= outcomes

/-- A write attempt that is refused before any call. -/
def IsControl (function : String) : Prop :=
  function = commitFn ∨ function = rollbackFn

/-- What the transaction does with the reply of its call. -/
def afterBapi (f : String) (reply : RfcResult Value) :
    Prog SapIface (RfcResult WriteOutcome) :=
  match executeWriteBapi ⟨f, .null, 0, false⟩ false with
  | .done r => .done r
  | .ask _ k => k reply

/-- It does not depend on the parameters. -/
theorem executeWriteBapi_ask {q : RfcCallRequest}
    (hctl : ¬ IsControl q.function) :
    executeWriteBapi q false
      = Prog.ask (I := SapIface) ⟨q, false⟩ (afterBapi q.function) := by
  have hctl' : ¬ (q.function = commitFn ∨ q.function = rollbackFn) := hctl
  unfold afterBapi executeWriteBapi
  rw [if_neg Bool.false_ne_true, if_neg Bool.false_ne_true]
  simp only [if_neg hctl']
  rfl

theorem afterBapi_error {f : String} (hctl : ¬ IsControl f) (e : RfcError) :
    afterBapi f (.error e) = .done (.error e) := by
  have hctl' : ¬ (f = commitFn ∨ f = rollbackFn) := hctl
  unfold afterBapi executeWriteBapi
  rw [if_neg Bool.false_ne_true]
  simp only [if_neg hctl']
  rfl

/-- The error that the checks of the parameters give: the mock's. -/
def mockCheck (parameters : Value) : Option RfcError :=
  match callArgs parameters with
  | .error e => some e
  | .ok _ => none

/-- And the live client's. -/
def soapCheck (parameters : Value) : Option RfcError :=
  match callArgs parameters with
  | .error e => some e
  | .ok args =>
      match validateKeys (.object args) with
      | .error e => some e
      | .ok _ => none

/-- The checks of two requests come out alike for the audit log. -/
def ChecksAlike (check : Value → Option RfcError) (q q' : RfcCallRequest) :
    Prop :=
  (check q.parameters).map failedAudit = (check q'.parameters).map failedAudit

section Soap

variable {σ : Type} (r : Reader) (cfg : SoapRfcConfig)

/-- An environment that answers whatever is posted. -/
def AnswersEqually (env : Env SoapIface σ) : Prop :=
  ∀ p p' s, env.answer (.post p) s = env.answer (.post p') s

/-- The audit outcome of a write attempt against the live client. -/
def soapOutcome (env : Env SoapIface σ) (s : σ) (q : RfcCallRequest) :
    AuditOutcome :=
  auditOutcome (((executeWriteBapi q false).interp (soapRfcClient r cfg)).exec
    env s).result

variable {r cfg}

/-- A call whose parameters fail the checks ends with their error, unless
the gate has refused it before. -/
theorem soap_call_checked {q : RfcCallRequest} {e : RfcError}
    (hc : soapCheck q.parameters = some e) (env : Env SoapIface σ) (s : σ) :
    ((soapRfcClient r cfg ⟨q, false⟩).exec env s).result
      = .error ((gate q.function false
        (env.answer (.metadata q.function cfg.language) s).1).getD e) := by
  unfold soapRfcClient soapCallRfc rfcMetadata
  rw [Prog.bind_query, Prog.exec_ask_result]
  generalize env.answer (.metadata q.function cfg.language) s = a
  cases hg : gate q.function false a.1 with
  | some e' =>
      simp only
      rfl
  | none =>
      unfold soapCheck at hc
      cases hargs : callArgs q.parameters with
      | error e' =>
          rw [hargs] at hc
          cases hc
          simp only
          rfl
      | ok args =>
          rw [hargs] at hc
          cases hkeys : validateKeys (.object args) with
          | error e' =>
              simp only [hkeys] at hc
              cases hc
              simp only
              rw [hkeys]
              rfl
          | ok u =>
              simp only [hkeys] at hc
              cases hc

/-- What a call makes of the reply to its post. -/
def readCall (r : Reader) (cfg : SoapRfcConfig) (function : String)
    (reply : HttpReply) : Prog SoapIface (RfcResult Value) :=
  match readReply r cfg function reply with
  | .error e => .done (.error e)
  | .ok outputs => .done (.ok (callReply cfg function outputs))

/-- Calls that pass the checks cannot be told apart by what is answered. -/
theorem soap_call_alike {q q' : RfcCallRequest}
    (hfun : q.function = q'.function) (hc : soapCheck q.parameters = none)
    (hc' : soapCheck q'.parameters = none) {env : Env SoapIface σ}
    (heq : AnswersEqually env) (s : σ) :
    ((soapRfcClient r cfg ⟨q, false⟩).exec env s).result
        = ((soapRfcClient r cfg ⟨q', false⟩).exec env s).result
      ∧ ((soapRfcClient r cfg ⟨q, false⟩).exec env s).state
        = ((soapRfcClient r cfg ⟨q', false⟩).exec env s).state := by
  have hpass : ∀ {p : RfcCallRequest}, soapCheck p.parameters = none →
      ∃ args, callArgs p.parameters = .ok args
        ∧ validateKeys (.object args) = .ok () := by
    intro p hp
    unfold soapCheck at hp
    cases hargs : callArgs p.parameters with
    | error e =>
        rw [hargs] at hp
        cases hp
    | ok args =>
        rw [hargs] at hp
        cases hkeys : validateKeys (.object args) with
        | error e =>
            simp only [hkeys] at hp
            cases hp
        | ok u => exact ⟨args, rfl, hkeys⟩
  obtain ⟨args, hargs, hkeys⟩ := hpass hc
  obtain ⟨args', hargs', hkeys'⟩ := hpass hc'
  unfold soapRfcClient soapCallRfc rfcMetadata
  rw [Prog.bind_query, Prog.bind_query, Prog.exec_ask_result,
    Prog.exec_ask_result, Prog.exec_ask_state, Prog.exec_ask_state]
  simp only
  rw [← hfun]
  generalize env.answer (.metadata q.function cfg.language) s = a
  cases hg : gate q.function false a.1 with
  | some e => exact ⟨rfl, rfl⟩
  | none =>
      simp only
      rw [hargs, hargs']
      simp only
      rw [hkeys, hkeys']
      simp only
      unfold invoke send
      by_cases hsafe : isSafeName q.function = true
      · rw [if_pos hsafe, if_pos hsafe]
        have hpost := heq (soapPost cfg q.function (writeParams args))
          (soapPost cfg q.function (writeParams args')) a.2
        let after (x : HttpReply × σ) :
            Outcome SoapIface σ (RfcResult Value) :=
          (readCall r cfg q.function x.1).exec env x.2
        exact ⟨congrArg (fun x => (after x).result) hpost,
          congrArg (fun x => (after x).state) hpost⟩
      · rw [if_neg hsafe, if_neg hsafe]
        exact ⟨rfl, rfl⟩

/-- Of a write attempt that is not refused, the outcome is what comes of
its first call's reply. -/
theorem soapOutcome_eq {q : RfcCallRequest} (hctl : ¬ IsControl q.function)
    (env : Env SoapIface σ) (s : σ) :
    soapOutcome r cfg env s q = auditOutcome
      (((afterBapi q.function
          ((soapRfcClient r cfg ⟨q, false⟩).exec env s).result).interp
        (soapRfcClient r cfg)).exec env
          ((soapRfcClient r cfg ⟨q, false⟩).exec env s).state).result := by
  unfold soapOutcome
  rw [executeWriteBapi_ask hctl]
  exact congrArg auditOutcome (Prog.exec_bind_result env
    (soapRfcClient r cfg ⟨q, false⟩) (fun reply =>
      Prog.interp (I := SapIface) (soapRfcClient r cfg)
        (afterBapi q.function reply)) s)

theorem soapOutcome_checked {q : RfcCallRequest}
    (hctl : ¬ IsControl q.function) {e : RfcError}
    (hc : soapCheck q.parameters = some e) (env : Env SoapIface σ) (s : σ) :
    soapOutcome r cfg env s q = failedAudit
      ((gate q.function false
        (env.answer (.metadata q.function cfg.language) s).1).getD e) := by
  rw [soapOutcome_eq hctl, soap_call_checked hc, afterBapi_error hctl]
  rfl

/-- A refused attempt has the refusal for its outcome. -/
theorem control_refused {q : RfcCallRequest} (hctl : IsControl q.function) :
    executeWriteBapi q false = .done (.error controlRefusal) := by
  have hctl' : q.function = commitFn ∨ q.function = rollbackFn := hctl
  unfold executeWriteBapi
  rw [if_neg Bool.false_ne_true, if_pos hctl']
  rfl

/-- Checks that come out alike leave the same outcome. -/
theorem soapOutcome_alike {q q' : RfcCallRequest}
    (hfun : q.function = q'.function)
    (h : IsControl q.function ∨ ChecksAlike soapCheck q q')
    {env : Env SoapIface σ} (heq : AnswersEqually env) (s : σ) :
    soapOutcome r cfg env s q = soapOutcome r cfg env s q' := by
  by_cases hctl : IsControl q.function
  · unfold soapOutcome
    rw [control_refused hctl, control_refused (hfun ▸ hctl)]
  · have hctl' : ¬ IsControl q'.function := hfun ▸ hctl
    have halike := h.resolve_left hctl
    unfold ChecksAlike at halike
    cases hc : soapCheck q.parameters with
    | none =>
        rw [hc] at halike
        have hc' : soapCheck q'.parameters = none := by
          cases hx : soapCheck q'.parameters with
          | none => rfl
          | some e =>
              rw [hx] at halike
              cases halike
        obtain ⟨hresult, hstate⟩ := soap_call_alike hfun hc hc' heq s
        rw [soapOutcome_eq hctl, soapOutcome_eq hctl', hresult, hstate, hfun]
    | some e =>
        rw [hc] at halike
        cases hc' : soapCheck q'.parameters with
        | none =>
            rw [hc'] at halike
            cases halike
        | some e' =>
            rw [hc'] at halike
            have hsame : failedAudit e = failedAudit e' := by
              simpa using halike
            rw [soapOutcome_checked hctl hc, soapOutcome_checked hctl' hc',
              ← hfun]
            cases gate q.function false
                (env.answer (.metadata q.function cfg.language) s).1 with
            | none => exact hsame
            | some g => rfl

/-- A catalogue that knows nothing, and an endpoint that does not
answer. -/
def silentEnv : Env SoapIface Unit where
  answer
    | .metadata .., s => (.error (.notFound ""), s)
    | .post _, s => (.timedOut, s)

theorem silentEnv_answersEqually : AnswersEqually silentEnv :=
  fun _ _ _ => rfl

/-- The outcome there of an attempt that passes the checks. -/
theorem soapOutcome_silent {q : RfcCallRequest}
    (hctl : ¬ IsControl q.function) (hc : soapCheck q.parameters = none) :
    soapOutcome r cfg silentEnv () q = failedAudit
      (if isSafeName q.function then .timeout cfg.timeoutMs
        else unsafeFunction q.function) := by
  have hcall : ((soapRfcClient r cfg ⟨q, false⟩).exec silentEnv ()).result
      = .error (if isSafeName q.function then .timeout cfg.timeoutMs
        else unsafeFunction q.function) := by
    unfold soapCheck at hc
    unfold soapRfcClient soapCallRfc rfcMetadata
    rw [Prog.bind_query, Prog.exec_ask_result]
    have hgate : gate q.function false (silentEnv.answer
        (.metadata q.function cfg.language) ()).1 = none := rfl
    simp only
    rw [hgate]
    simp only
    cases hargs : callArgs q.parameters with
    | error e =>
        rw [hargs] at hc
        cases hc
    | ok args =>
        rw [hargs] at hc
        simp only
        cases hkeys : validateKeys (.object args) with
        | error e =>
            simp only [hkeys] at hc
            cases hc
        | ok u =>
            simp only
            unfold invoke send
            by_cases hsafe : isSafeName q.function = true
            · rw [if_pos hsafe, if_pos hsafe]
              rfl
            · rw [if_neg hsafe, if_neg hsafe]
              rfl
  rw [soapOutcome_eq hctl, hcall, afterBapi_error hctl]
  rfl

/-- An error of the checks reads like no other error of such a call. -/
theorem soapCheck_distinct {p : Value} {e : RfcError}
    (hc : soapCheck p = some e) (f : String) (ms : Nat) :
    failedAudit e ≠ failedAudit
      (if isSafeName f then .timeout ms else unsafeFunction f) := by
  have hform : (∃ j, e = .invalidParameter "parameters"
      ("expected object, got " ++ j)) ∨ ∃ k, e = unsafeKey k := by
    unfold soapCheck at hc
    cases hargs : callArgs p with
    | error e' =>
        rw [hargs] at hc
        cases hc
        cases p with
        | object m => cases hargs
        | null => cases hargs
        | _ =>
            cases hargs
            exact .inl ⟨_, rfl⟩
    | ok args =>
        rw [hargs] at hc
        cases hkeys : validateKeys (.object args) with
        | ok u =>
            simp only [hkeys] at hc
            cases hc
        | error e' =>
            simp only [hkeys] at hc
            cases hc
            obtain ⟨k, -, rfl⟩ := validateKeys_error _ hkeys
            exact .inr ⟨k, rfl⟩
  have htimeout : ∀ text, AuditOutcome.failed (-32240) text
      ≠ failedAudit (.timeout ms) := by
    intro text
    show AuditOutcome.failed (-32240) text ≠ .failed (-32110) _
    intro h
    injection h with hcodes
    exact absurd hcodes (by decide)
  have hunsafe : failedAudit (unsafeFunction f) = .failed (-32240)
      ("invalid parameter '" ++ "function" ++ "': "
        ++ ("'" ++ f ++ "' is not a valid RFC name")) := rfl
  rcases hform with ⟨j, rfl⟩ | ⟨k, rfl⟩
  · show AuditOutcome.failed (-32240) ("invalid parameter '" ++ "parameters"
      ++ "': " ++ ("expected object, got " ++ j)) ≠ _
    by_cases hsafe : isSafeName f = true
    · rw [if_pos hsafe]
      exact htimeout _
    · rw [if_neg hsafe, hunsafe]
      intro h
      injection h with _ htext
      have hchars := congrArg String.toList htext
      simp [String.toList_append] at hchars
  · show AuditOutcome.failed (-32240) ("invalid parameter '" ++ k ++ "': "
      ++ "invalid RFC parameter/field name (must be A-Z 0-9 _ /)") ≠ _
    by_cases hsafe : isSafeName f = true
    · rw [if_pos hsafe]
      exact htimeout _
    · rw [if_neg hsafe, hunsafe]
      intro h
      injection h with _ htext
      have hlast := congrArg (fun t => t.toList.getLast?) htext
      simp [String.toList_append, List.getLast?_cons] at hlast

end Soap

-- ============================================================ the mock

/-- The audit outcome of a write attempt against the mock. -/
def mockOutcome (q : RfcCallRequest) : AuditOutcome :=
  auditOutcome ((executeWriteBapi q false).exec mockSapClient ()).result

theorem mockOutcome_error {q : RfcCallRequest} (hctl : ¬ IsControl q.function)
    {e : RfcError} (he : mockCallRfc q false = .error e) :
    mockOutcome q = failedAudit e := by
  unfold mockOutcome
  rw [executeWriteBapi_ask hctl]
  show auditOutcome ((afterBapi q.function (mockCallRfc q false)).exec
    mockSapClient ()).result = _
  rw [he, afterBapi_error hctl]
  rfl

/-- An accepted write is committed when its parameters forge the
confirmation, and rolled back otherwise. -/
theorem mockOutcome_ok {q : RfcCallRequest} (hctl : ¬ IsControl q.function)
    (hacc : Accepts q) :
    (Forges q.parameters ∧ mockOutcome q = .ok (q.function ++ " committed"))
      ∨ (¬ Forges q.parameters ∧ mockOutcome q = .failed 0 (q.function
        ++ " not committed (rolled_back=" ++ "true" ++ ")")) := by
  have hadm : Admitted q false :=
    ⟨rfl, fun h => hctl (.inl h), fun h => hctl (.inr h)⟩
  obtain ⟨v, hv⟩ := hacc
  have hforge : Confirmed v ↔ Forges q.parameters := by
    unfold Confirmed Forges
    rw [mockCallRfc_ok hv]
  obtain ⟨w, hw, hwf⟩ := mock_commit ()
  obtain ⟨hrun, hplay⟩ := writeRun_cases mockSapClient q false ()
  unfold mockOutcome
  change (Forges q.parameters ∧ auditOutcome (writeRun mockSapClient q false
    ()).result = _) ∨ (¬ Forges q.parameters ∧ auditOutcome
    (writeRun mockSapClient q false ()).result = _)
  generalize (writeRun mockSapClient q false ()).trace = tr at hrun hplay
  generalize (writeRun mockSapClient q false ()).result = res at hrun ⊢
  cases hrun with
  | refused h => exact absurd hadm h
  | bapiLost e h =>
      obtain ⟨hbapi, -⟩ := hplay
      cases hbapi.trans hv
  | unqualified v' rb h hv' =>
      obtain ⟨hbapi, hrb, -⟩ := hplay
      cases hbapi.trans hv
      have hback : (rollbackVerdict rb).1 = true := by
        have hrb' : rb = mockCallRfc rollbackReq false := hrb
        rw [hrb']
        decide
      refine .inr ⟨fun hf => hv' (hforge.mpr hf), ?_⟩
      show finishedAudit _ = _
      unfold finishedAudit
      rw [hback]
      rfl
  | commitLost v' e h hv' =>
      obtain ⟨-, hcommit, -⟩ := hplay
      cases hcommit.trans hw
  | commitFailed v' w' rb h hv' hw' =>
      obtain ⟨-, hcommit, -⟩ := hplay
      cases hcommit.trans hw
      rw [hwf] at hw'
      cases hw'
  | committed v' w' h hv' hw' =>
      obtain ⟨hbapi, -⟩ := hplay
      cases hbapi.trans hv
      exact .inl ⟨hforge.mp hv', rfl⟩

/-- Two writes against the mock read alike in the audit log just where
they are refused at once, or the function is unknown, or the checks come
out alike and both or neither of the accepted ones forge their
confirmation. -/
def MockAlike (q q' : RfcCallRequest) : Prop :=
  IsControl q.function ∨ findFunction q.function = none
    ∨ (ChecksAlike mockCheck q q'
      ∧ (Accepts q → (Forges q.parameters ↔ Forges q'.parameters)))

/-- Parameters that agree are argument maps with the same keys, or
neither is one. -/
theorem Agree.callArgs {p p' : Value} (h : Agree p p') :
    (∃ e e', callArgs p = .error e ∧ callArgs p' = .error e')
      ∨ ∃ args args', callArgs p = .ok args ∧ callArgs p' = .ok args'
        ∧ ∀ key, Map.containsKey args key = Map.containsKey args' key := by
  cases h with
  | same =>
      cases hargs : Rfc.callArgs p with
      | error e => exact .inl ⟨e, e, rfl, rfl⟩
      | ok args => exact .inr ⟨args, args, rfl, rfl, fun _ => rfl⟩
  | array h => exact .inl ⟨_, _, rfl, rfl⟩
  | object h => exact .inr ⟨_, _, rfl, rfl, h.containsKey⟩

section Known

variable {p : RfcCallRequest} {fnMeta : RfcFunctionMeta}
  (hp : findFunction p.function = some fnMeta)

include hp

/-- A call of a known function with parameters that are no object. -/
theorem mockCallRfc_argsError {e : RfcError}
    (hargs : callArgs p.parameters = .error e) :
    mockCallRfc p false = .error e := by
  unfold mockCallRfc
  rw [hp]
  simp only [Bool.false_and, Bool.false_eq_true, if_false, hargs]

/-- One with a required parameter missing. -/
theorem mockCallRfc_missing {args : Map} {x : RfcParameter}
    (hargs : callArgs p.parameters = .ok args)
    (hmiss : missingImport fnMeta.parameters args = some x) :
    mockCallRfc p false = .error (.invalidParameter x.name
      "required import parameter missing") := by
  unfold mockCallRfc
  rw [hp]
  simp only [Bool.false_and, Bool.false_eq_true, if_false, hargs, hmiss]

/-- One with all of them. -/
theorem mockCallRfc_ok {args : Map}
    (hargs : callArgs p.parameters = .ok args)
    (hmiss : missingImport fnMeta.parameters args = none) :
    mockCallRfc p false = .ok (mockReply p.function fnMeta args) := by
  unfold mockCallRfc
  rw [hp]
  simp only [Bool.false_and, Bool.false_eq_true, if_false, hargs, hmiss]

end Known

theorem mockOutcome_alike_iff {q q' : RfcCallRequest}
    (h : AgreeRequests q q') :
    mockOutcome q = mockOutcome q' ↔ MockAlike q q' := by
  by_cases hctl : IsControl q.function
  · refine iff_of_true ?_ (.inl hctl)
    unfold mockOutcome
    rw [control_refused hctl, control_refused (h.function ▸ hctl)]
  have hctl' : ¬ IsControl q'.function := h.function ▸ hctl
  cases hfind : findFunction q.function with
  | none =>
      have hfind' : findFunction q'.function = none := h.function ▸ hfind
      refine iff_of_true ?_ (.inr (.inl hfind))
      have hq : mockCallRfc q false = .error (.notFound q.function) := by
        unfold mockCallRfc
        rw [hfind]
      have hq' : mockCallRfc q' false = .error (.notFound q'.function) := by
        unfold mockCallRfc
        rw [hfind']
      rw [mockOutcome_error hctl hq, mockOutcome_error hctl' hq', h.function]
  | some fnMeta =>
      have hfind' : findFunction q'.function = some fnMeta := h.function ▸ hfind
      have halike : MockAlike q q' ↔ ChecksAlike mockCheck q q'
          ∧ (Accepts q → (Forges q.parameters ↔ Forges q'.parameters)) := by
        unfold MockAlike
        rw [or_iff_right hctl, or_iff_right (by rw [hfind]; nofun)]
      rw [halike]
      rcases h.parameters.callArgs with ⟨e, e', hargs, hargs'⟩
        | ⟨args, args', hargs, hargs', hkeys⟩
      · have hq := mockCallRfc_argsError hfind hargs
        have hq' := mockCallRfc_argsError hfind' hargs'
        have hnot : ¬ Accepts q := by
          intro hacc
          obtain ⟨v, hv⟩ := hacc
          cases hv.symm.trans hq
        rw [mockOutcome_error hctl hq, mockOutcome_error hctl' hq']
        unfold ChecksAlike mockCheck
        rw [hargs, hargs']
        simp [hnot]
      · have hchecks : ChecksAlike mockCheck q q' := by
          unfold ChecksAlike mockCheck
          rw [hargs, hargs']
        have hmiss : missingImport fnMeta.parameters args
            = missingImport fnMeta.parameters args' := by
          unfold missingImport
          congr 1
          funext x
          rw [hkeys]
        cases hm : missingImport fnMeta.parameters args with
        | some x =>
            have hq := mockCallRfc_missing hfind hargs hm
            have hq' := mockCallRfc_missing hfind' hargs' (hmiss ▸ hm)
            have hnot : ¬ Accepts q := by
              intro hacc
              obtain ⟨v, hv⟩ := hacc
              cases hv.symm.trans hq
            refine iff_of_true ?_ ⟨hchecks, fun hacc => absurd hacc hnot⟩
            rw [mockOutcome_error hctl hq, mockOutcome_error hctl' hq']
        | none =>
            have hacc : Accepts q := ⟨_, mockCallRfc_ok hfind hargs hm⟩
            have hacc' : Accepts q' :=
              ⟨_, mockCallRfc_ok hfind' hargs' (hmiss ▸ hm)⟩
            have hgoal : mockOutcome q = mockOutcome q'
                ↔ (Forges q.parameters ↔ Forges q'.parameters) := by
              rcases mockOutcome_ok hctl hacc with ⟨hf, ho⟩ | ⟨hf, ho⟩
              · rcases mockOutcome_ok hctl' hacc' with ⟨hf', ho'⟩ | ⟨hf', ho'⟩
                · rw [ho, ho', h.function]
                  exact iff_of_true rfl (iff_of_true hf hf')
                · rw [ho, ho']
                  exact iff_of_false nofun fun hiff => hf' (hiff.mp hf)
              · rcases mockOutcome_ok hctl' hacc' with ⟨hf', ho'⟩ | ⟨hf', ho'⟩
                · rw [ho, ho']
                  exact iff_of_false nofun fun hiff => hf (hiff.mpr hf')
                · rw [ho, ho', h.function]
                  exact iff_of_true rfl (iff_of_false hf hf')
            rw [hgoal]
            exact ⟨fun hiff => ⟨hchecks, fun _ => hiff⟩,
              fun hboth => hboth.2 hacc⟩

-- ============================================================ secrecy

/-- What holds of the requests of two invocations, where they are
requests. -/
def OfRequests (R : RfcCallRequest → RfcCallRequest → Prop)
    (arguments arguments' : Value) : Prop :=
  ∀ q q', rfcCallRequest arguments = some q →
    rfcCallRequest arguments' = some q' → R q q'

/-- An invocation that is no request leaves no entry. -/
theorem entries_unrequested {σ τ : Type} {ctx : ServerContext}
    {serdeError : Value → String} {arguments : Value}
    (hnone : rfcCallRequest arguments = none)
    (world : Env (AuditIface.sum O) τ) (t : τ) :
    mockEntries ctx serdeError arguments world t = []
      ∧ ∀ r cfg (env : Env SoapIface σ) s,
        soapEntries ctx serdeError arguments world t r cfg env s = [] := by
  have hhandler : rfcCallHandler (O := O) ctx serdeError arguments
      = .done (.ok (.error ("sap.rfc.call: invalid arguments: "
        ++ serdeError arguments))) := by
    unfold rfcCallHandler
    rw [hnone]
  unfold mockEntries soapEntries
  rw [hhandler]
  exact ⟨rfl, fun _ _ _ _ => rfl⟩

/-- Invocations that agree make requests that agree, or none. -/
theorem Agree.request {v w : Value} (h : Agree v w)
    (hcommit : commits v = true) :
    commits w = true ∧ ((rfcCallRequest v = none ∧ rfcCallRequest w = none)
      ∨ ∃ q q', rfcCallRequest v = some q ∧ rfcCallRequest w = some q'
        ∧ AgreeRequests q q') := by
  cases h with
  | same =>
      refine ⟨hcommit, ?_⟩
      cases hq : rfcCallRequest v with
      | none => exact .inl ⟨rfl, rfl⟩
      | some q => exact .inr ⟨q, q, rfl, rfl, rfl, .same _⟩
  | array h => cases hcommit
  | object h =>
      refine ⟨?_, h.request⟩
      have hread := h.read (requestFields_plain "commit" (by simp))
        Value.asBool fun v w hv => hv.readers.2.1
      unfold commits Value.get at hcommit ⊢
      rw [← hread]
      exact hcommit

/-- Their entries are the same where the outcomes are. -/
theorem rfcCallEntry_inj {ctx : ServerContext} {v w : Value}
    (h : Agree v w) {o o' : AuditOutcome} :
    [rfcCallEntry ctx v o] = [rfcCallEntry ctx w o'] ↔ o = o' := by
  unfold rfcCallEntry AuditEntry.recorded
  simp only [redact_agree h]
  constructor
  · intro heq
    injection heq with hentry
    injection hentry
  · intro heq
    rw [heq]

/-- Two write attempts that differ in secrets only leave the same entries,
against the mock and against a live client whose catalogue and endpoint
answer equally, just where the client's checks come out alike. -/
theorem secrets_unaudited_iff (ctx : ServerContext) (hw : ctx.readOnly = false)
    (serdeError : Value → String) {τ : Type} (world : Env (AuditIface.sum O) τ)
    (t : τ) (r : Reader) (cfg : SoapRfcConfig) (arguments arguments' : Value)
    (h : Agree arguments arguments') (hcommit : commits arguments = true) :
    (mockEntries ctx serdeError arguments world t
        = mockEntries ctx serdeError arguments' world t
      ↔ OfRequests MockAlike arguments arguments')
    ∧ ((∀ {σ : Type} (env : Env SoapIface σ) (s : σ), AnswersEqually env →
        soapEntries ctx serdeError arguments world t r cfg env s
          = soapEntries ctx serdeError arguments' world t r cfg env s)
      ↔ OfRequests (fun q q' => IsControl q.function
        ∨ ChecksAlike soapCheck q q') arguments arguments') := by
  obtain ⟨hcommit', hrequest⟩ := h.request hcommit
  rcases hrequest with ⟨hnone, hnone'⟩ | ⟨q, q', hq, hq', hagree⟩
  · -- neither leaves an entry
    have hempty : ∀ R, OfRequests R arguments arguments' := by
      intro R q q' hq
      rw [hnone] at hq
      cases hq
    constructor
    · refine iff_of_true ?_ (hempty _)
      rw [(entries_unrequested (σ := Unit) hnone world t).1,
        (entries_unrequested (σ := Unit) hnone' world t).1]
    · refine iff_of_true ?_ (hempty _)
      intro σ env s _
      rw [(entries_unrequested hnone world t).2,
        (entries_unrequested hnone' world t).2]
  · have hof : ∀ R : RfcCallRequest → RfcCallRequest → Prop,
        OfRequests R arguments arguments' ↔ R q q' := by
      intro R
      constructor
      · intro hall
        exact hall q q' hq hq'
      · intro hR p p' hp hp'
        cases hq.symm.trans hp
        cases hq'.symm.trans hp'
        exact hR
    constructor
    · rw [hof, ← mockOutcome_alike_iff hagree,
        mockEntries_commit world t hcommit hq,
        mockEntries_commit world t hcommit' hq', hw]
      exact rfcCallEntry_inj h
    · rw [hof]
      have hentries : ∀ {σ : Type} (env : Env SoapIface σ) (s : σ),
          soapEntries ctx serdeError arguments world t r cfg env s
            = soapEntries ctx serdeError arguments' world t r cfg env s
          ↔ soapOutcome r cfg env s q = soapOutcome r cfg env s q' := by
        intro σ env s
        rw [soapEntries_commit world t r cfg env s hcommit hq,
          soapEntries_commit world t r cfg env s hcommit' hq', hw]
        exact rfcCallEntry_inj h
      constructor
      · intro hall
        by_cases hctl : IsControl q.function
        · exact .inl hctl
        · right
          have hctl' : ¬ IsControl q'.function := hagree.function ▸ hctl
          have hsilent := (hentries silentEnv ()).mp
            (hall silentEnv () silentEnv_answersEqually)
          unfold ChecksAlike
          cases hc : soapCheck q.parameters with
          | none =>
              cases hc' : soapCheck q'.parameters with
              | none => rfl
              | some e' =>
                  rw [soapOutcome_silent hctl hc,
                    soapOutcome_checked hctl' hc', hagree.function] at hsilent
                  exact absurd hsilent.symm (soapCheck_distinct hc' _ _)
          | some e =>
              cases hc' : soapCheck q'.parameters with
              | none =>
                  rw [soapOutcome_silent hctl' hc', soapOutcome_checked hctl hc]
                    at hsilent
                  exact absurd hsilent (soapCheck_distinct hc _ _)
              | some e' =>
                  rw [soapOutcome_checked hctl hc,
                    soapOutcome_checked hctl' hc'] at hsilent
                  exact congrArg some hsilent
      · intro halike σ env s heq
        exact (hentries env s).mpr
          (soapOutcome_alike hagree.function halike heq s)

-- ============================================================== attempts

/-- A purchase order whose parameters are a list with a password. -/
def listedOrder (password : String) : Value :=
  .object [("commit", .bool true), ("function", .string "BAPI_PO_CREATE1"),
    ("parameters", .array [.object [("password", .string password)]])]

theorem listedOrder_agree (p p' : String) :
    Agree (listedOrder p) (listedOrder p') :=
  .object (.field (.same _) (.field (.same _) (.field
    (.array (.cons (.object (.secret _ _ (by decide) .nil)) .nil)) .nil)))

/-- The other tools ask nothing. -/
def idleWorld : Env (AuditIface.sum ⟨Empty, fun _ => Empty⟩) Unit where
  answer
    | .inl _, s => ((), s)
    | .inr q, _ => nomatch q

/-- The password is in the audit log. -/
theorem password_audited :
    ¬ ∀ arguments arguments', Agree arguments arguments' →
      commits arguments = true →
      mockEntries ⟨false, none⟩ (fun _ => "invalid") arguments idleWorld ()
        = mockEntries ⟨false, none⟩ (fun _ => "invalid") arguments' idleWorld
          () := by
  intro h
  have hsame := h (listedOrder "hunter2") (listedOrder "swordfish")
    (listedOrder_agree _ _) rfl
  have hcommit : ∀ p, commits (listedOrder p) = true := fun p => rfl
  rw [mockEntries_commit idleWorld () (hcommit _) rfl,
    mockEntries_commit idleWorld () (hcommit _) rfl,
    rfcCallEntry_inj (listedOrder_agree _ _)] at hsame
  have houtcome : ∀ p, mockOutcome ⟨"BAPI_PO_CREATE1", .array
      [.object [("password", .string p)]], defaultTimeoutMs, true⟩
      = failedAudit (.invalidParameter "parameters" ("expected object, got "
        ++ (Value.array [.object [("password", .string p)]]).toJson)) := by
    intro p
    apply mockOutcome_error
    · intro hctl
      rcases hctl with hctl | hctl
      · have hcommitFn : "BAPI_PO_CREATE1" = commitFn := hctl
        exact absurd hcommitFn (by decide)
      · have hrollbackFn : "BAPI_PO_CREATE1" = rollbackFn := hctl
        exact absurd hrollbackFn (by decide)
    · rfl
  have hread := (houtcome "hunter2").symm.trans
    (hsame.trans (houtcome "swordfish"))
  injection hread with _ htext
  exact absurd htext (by decide)

/-- An order whose parameters are an object with a password. -/
def plainOrder (password : String) : Value :=
  .object [("commit", .bool true), ("function", .string "BAPI_PO_CREATE1"),
    ("parameters", .object [("PASSWORD", .string password),
      ("POHEADER", .object []), ("POHEADERX", .object [])])]

theorem plainOrder_unaudited :
    mockEntries ⟨false, none⟩ (fun _ => "invalid") (plainOrder "hunter2")
        idleWorld ()
      = mockEntries ⟨false, none⟩ (fun _ => "invalid")
        (plainOrder "swordfish") idleWorld () := by
  refine (secrets_unaudited_iff ⟨false, none⟩ rfl (fun _ => "invalid")
    idleWorld () lexReader ⟨"http://h", "100", "u", "p", "EN", 1000⟩
    (plainOrder "hunter2") (plainOrder "swordfish")
    (.object (.field (.same _) (.field (.same _) (.field
      (.object (.secret _ _ (by decide) (.field (.same _) (.field (.same _)
        .nil)))) .nil)))) rfl).1.mpr ?_
  intro q q' hq hq'
  cases hq
  cases hq'
  exact .inr (.inr ⟨rfl, fun _ =>
    iff_of_false (fun hf => hf.1 rfl) (fun hf => hf.1 rfl)⟩)

end SapAutomate.Server
