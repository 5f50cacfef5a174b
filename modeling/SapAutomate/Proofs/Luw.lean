/-
The logical unit of work of a transactional write: when it is closed,
when the two flags of `WriteOutcome` are truthful, and which calls are
sent in which order — each against every client.

Everything is a case analysis of `WriteRun`. A run against a client
adds one fact to its case: the replies are the client's answers, in
turn (`Prog.exec_plays`), which is what lets a property of the run be
traded for a condition on the client.

# What the orchestration misses

- A `?` on the business call or on the commit returns with the unit of
  work open; the branch next to the second one rolls back.
- The business reply must parse to rows before it counts as success;
  the replies to COMMIT and ROLLBACK need not.

The order of the calls is as designed.
-/
import SapAutomate.Rfc.Transaction

namespace SapAutomate.Rfc

open Interact Json

-- ================================================== statement vocabulary

/-- The RFC names sent, in order. -/
def rfcNames (tr : RfcTrace) : List String :=
  tr.map fun x => SapCall.request x.query |>.function

/-- The run of a write against a client in state `s`. -/
def writeRun {σ : Type} (client : SapClient σ) (request : RfcCallRequest)
    (readOnlyMode : Bool) (s : σ) :
    Outcome SapIface σ (RfcResult WriteOutcome) :=
  (executeWriteBapi request readOnlyMode).exec client s

/-- The unit of work is closed: COMMIT was sent and its reply arrived
without a failing row, or ROLLBACK was the last call sent. -/
def LuwClosed (tr : RfcTrace) : Prop :=
  (∃ v, commitSent (.ok v) ∈ tr ∧ hasFailure (parseBapiret2 v) = false)
    ∨ ∃ reply, tr.getLast? = some (rollbackSent reply)

section Answers

variable {σ : Type} (client : SapClient σ) (request : RfcCallRequest) (s : σ)

/-- The client's answer to the business call, and its state after. -/
def bapiAnswer : RfcResult Value × σ := client.answer ⟨request, false⟩ s

/-- Its answer to a COMMIT sent right after. -/
def commitAnswer : RfcResult Value × σ :=
  client.answer ⟨commitReq, false⟩ (bapiAnswer client request s).2

/-- The client answers the business call, and a COMMIT that the reply
qualifies for. -/
def AnswersEveryCall : Prop :=
  ∃ v, (bapiAnswer client request s).1 = .ok v
    ∧ (Confirmed v → ∃ w, (commitAnswer client request s).1 = .ok w)

/-- Wherever the client answers a COMMIT or a ROLLBACK of the run, the
answer parses to at least one row. -/
def ControlRepliesHaveRows : Prop :=
  ∀ v, (bapiAnswer client request s).1 = .ok v →
    (Confirmed v → ∀ w, (commitAnswer client request s).1 = .ok w →
      parseBapiret2 w ≠ []
        ∧ (hasFailure (parseBapiret2 w) = true → ∀ r,
          (client.answer ⟨rollbackReq, false⟩
            (commitAnswer client request s).2).1 = .ok r →
          parseBapiret2 r ≠ []))
    ∧ (¬ Confirmed v → ∀ r,
        (client.answer ⟨rollbackReq, false⟩
          (bapiAnswer client request s).2).1 = .ok r →
        parseBapiret2 r ≠ [])

end Answers

-- ============================================================== the runs

/-- A run is one of the listed ones, played by the client. -/
theorem writeRun_cases {σ : Type} (client : SapClient σ)
    (request : RfcCallRequest) (readOnlyMode : Bool) (s : σ) :
    WriteRun request readOnlyMode
        (writeRun client request readOnlyMode s).trace
        (writeRun client request readOnlyMode s).result
      ∧ client.Plays s (writeRun client request readOnlyMode s).trace :=
  ⟨(executeWriteBapi_runs request readOnlyMode).exec client s,
    Prog.exec_plays client _ s⟩

theorem admitted_iff (request : RfcCallRequest) (readOnlyMode : Bool) :
    ¬ Admitted request readOnlyMode
      ↔ readOnlyMode = true ∨ request.function = commitFn
        ∨ request.function = rollbackFn := by
  unfold Admitted
  cases readOnlyMode with
  | true => simp
  | false => simp only [Bool.false_eq_true, true_and, false_or]; tauto

theorem commitFn_ne_rollbackFn : commitFn ≠ rollbackFn := by decide

@[simp] theorem rfcNames_nil : rfcNames [] = [] := rfl

@[simp] theorem rfcNames_bapiSent (request : RfcCallRequest)
    (a : RfcResult Value) (tr : RfcTrace) :
    rfcNames (bapiSent request a :: tr) = request.function :: rfcNames tr :=
  rfl

@[simp] theorem rfcNames_commitSent (a : RfcResult Value) (tr : RfcTrace) :
    rfcNames (commitSent a :: tr) = commitFn :: rfcNames tr := rfl

@[simp] theorem rfcNames_rollbackSent (a : RfcResult Value) (tr : RfcTrace) :
    rfcNames (rollbackSent a :: tr) = rollbackFn :: rfcNames tr := rfl

@[simp] theorem bapiSent_inj {request : RfcCallRequest}
    {a b : RfcResult Value} :
    bapiSent request a = bapiSent request b ↔ a = b :=
  ⟨fun h => by cases h; rfl, fun h => h ▸ rfl⟩

@[simp] theorem commitSent_inj {a b : RfcResult Value} :
    commitSent a = commitSent b ↔ a = b :=
  ⟨fun h => by cases h; rfl, fun h => h ▸ rfl⟩

/-- A commit is not a rollback. -/
@[simp] theorem commitSent_ne_rollbackSent (a b : RfcResult Value) :
    commitSent a ≠ rollbackSent b := fun h =>
  commitFn_ne_rollbackFn
    (congrArg (fun x : Exchange SapIface => x.query.request.function) h)

/-- The call of an admitted request is neither control call. -/
theorem Admitted.bapiSent_ne_commitSent {request : RfcCallRequest}
    {readOnlyMode : Bool} (h : Admitted request readOnlyMode)
    (a b : RfcResult Value) : bapiSent request a ≠ commitSent b := fun he =>
  h.2.1 (congrArg (fun x : Exchange SapIface => x.query.request.function) he)

theorem Admitted.bapiSent_ne_rollbackSent {request : RfcCallRequest}
    {readOnlyMode : Bool} (h : Admitted request readOnlyMode)
    (a b : RfcResult Value) : bapiSent request a ≠ rollbackSent b := fun he =>
  h.2.2 (congrArg (fun x : Exchange SapIface => x.query.request.function) he)

-- ============================================================ LUW closure

/-- A unit of work whose last call is an unanswered one other than
ROLLBACK, with no COMMIT answered before, is open. -/
theorem not_luwClosed {tr : RfcTrace} (hlast : ∀ reply,
      tr.getLast? ≠ some (rollbackSent reply))
    (hcommit : ∀ v, commitSent (.ok v) ∉ tr) : ¬ LuwClosed tr := by
  intro hor
  rcases hor with ⟨v, hv, -⟩ | ⟨reply, hreply⟩
  · exact hcommit v hv
  · exact hlast reply hreply

/-- The unit of work of an admitted write is closed exactly when the
client answers the business call, and the COMMIT if one is due. -/
theorem luw_closed_iff {σ : Type} (client : SapClient σ)
    (request : RfcCallRequest) (readOnlyMode : Bool) (s : σ)
    (hadm : Admitted request readOnlyMode) :
    LuwClosed (writeRun client request readOnlyMode s).trace
      ↔ AnswersEveryCall client request s := by
  obtain ⟨hrun, hplay⟩ := writeRun_cases client request readOnlyMode s
  generalize (writeRun client request readOnlyMode s).trace = tr
    at hrun hplay ⊢
  generalize (writeRun client request readOnlyMode s).result = res
    at hrun ⊢
  cases hrun with
  | refused h => exact absurd hadm h
  | bapiLost e h =>
      obtain ⟨hbapi, -⟩ := hplay
      have hopen : ¬ LuwClosed [bapiSent request (.error e)] := by
        refine not_luwClosed (fun reply hl => ?_) fun v hv => ?_
        · exact h.bapiSent_ne_rollbackSent _ _ (Option.some.inj hl)
        · exact h.bapiSent_ne_commitSent _ _ (List.mem_singleton.mp hv).symm
      refine ⟨fun hc => absurd hc hopen, ?_⟩
      intro hex
      obtain ⟨v, hv, -⟩ := hex
      cases hbapi.trans hv
  | unqualified v rb h hv =>
      obtain ⟨hbapi, -⟩ := hplay
      refine ⟨fun _ => ⟨v, hbapi.symm, fun hc => absurd hc hv⟩, fun _ => ?_⟩
      exact .inr ⟨rb, rfl⟩
  | commitLost v e h hv =>
      obtain ⟨hbapi, hcommit, -⟩ := hplay
      have hopen : ¬ LuwClosed
          [bapiSent request (.ok v), commitSent (.error e)] := by
        refine not_luwClosed (fun reply hl => ?_) fun w hw => ?_
        · exact commitSent_ne_rollbackSent _ _ (Option.some.inj hl)
        · rcases List.mem_cons.mp hw with hw | hw
          · exact h.bapiSent_ne_commitSent _ _ hw.symm
          · cases List.mem_singleton.mp hw
      refine ⟨fun hc => absurd hc hopen, ?_⟩
      intro hex
      obtain ⟨v', hv', hc⟩ := hex
      cases hbapi.trans hv'
      obtain ⟨w, hw⟩ := hc hv
      cases hcommit.trans hw
  | commitFailed v w rb h hv hw =>
      obtain ⟨hbapi, hcommit, -⟩ := hplay
      refine ⟨fun _ => ⟨v, hbapi.symm, fun _ => ⟨w, hcommit.symm⟩⟩, fun _ => ?_⟩
      exact .inr ⟨rb, rfl⟩
  | committed v w h hv hw =>
      obtain ⟨hbapi, hcommit, -⟩ := hplay
      refine ⟨fun _ => ⟨v, hbapi.symm, fun _ => ⟨w, hcommit.symm⟩⟩, fun _ => ?_⟩
      exact .inl ⟨w, List.mem_cons_of_mem _ (List.mem_singleton.mpr rfl), hw⟩

/-- A confirmed `BAPI_PO_CREATE1` reply. -/
def poCreated : Value :=
  .object [("RETURN", .object [("MESSAGE", .string "PO 4500000001 created"),
    ("TYPE", .string "S")])]

/-- A purchase order as the tests send it. -/
def poRequest : RfcCallRequest :=
  { function := "BAPI_PO_CREATE1"
    parameters := .object [("POHEADER", .object [])]
    timeoutMs := 1000
    requireReadOnlySafe := true }

/-- A client that executes the purchase order and then times out. -/
def commitTimesOut : SapClient Unit where
  answer call _ :=
    if call.request.function = commitFn then (.error (.timeout 30000), ())
    else (.ok poCreated, ())

theorem poRequest_admitted : Admitted poRequest false := by
  refine ⟨rfl, ?_, ?_⟩ <;> decide

/-- The purchase order was sent and confirmed, COMMIT was lost, and
nothing rolls it back. -/
theorem luw_left_open :
    Admitted poRequest false
      ∧ rfcNames (writeRun commitTimesOut poRequest false ()).trace
        = ["BAPI_PO_CREATE1", "BAPI_TRANSACTION_COMMIT"]
      ∧ ¬ LuwClosed (writeRun commitTimesOut poRequest false ()).trace := by
  have htr : (writeRun commitTimesOut poRequest false ()).trace
      = [bapiSent poRequest (.ok poCreated),
        commitSent (.error (.timeout 30000))] := rfl
  refine ⟨poRequest_admitted, by rw [htr]; rfl, ?_⟩
  rw [htr]
  refine not_luwClosed (fun reply hl => ?_) fun v hv => ?_
  · exact commitSent_ne_rollbackSent _ _ (Option.some.inj hl)
  · rcases List.mem_cons.mp hv with hv | hv
    · exact poRequest_admitted.bapiSent_ne_commitSent _ _ hv.symm
    · cases List.mem_singleton.mp hv

/-- The condition met and the condition missed: a client that confirms
everything closes the unit of work, one that loses COMMIT does not. -/
theorem luw_closed_iff_po :
    (LuwClosed (writeRun (σ := Unit) ⟨fun _ _ => (.ok poCreated, ())⟩
        poRequest false ()).trace
      ↔ AnswersEveryCall (σ := Unit) ⟨fun _ _ => (.ok poCreated, ())⟩
          poRequest ())
      ∧ (LuwClosed (writeRun commitTimesOut poRequest false ()).trace
        ↔ AnswersEveryCall commitTimesOut poRequest ()) :=
  ⟨luw_closed_iff _ poRequest false () poRequest_admitted,
    luw_closed_iff _ poRequest false () poRequest_admitted⟩

-- ======================================================== truthful flags

/-- The flags of a result claim only what the replies said: `committed`
that both the business reply and the COMMIT reply had rows and none
failing, `rolled_back` the same of the ROLLBACK reply. -/
def Truthful (request : RfcCallRequest) (tr : RfcTrace)
    (result : RfcResult WriteOutcome) : Prop :=
  ∀ o, result = .ok o →
    (o.committed = true → ∃ v w, bapiSent request (.ok v) ∈ tr ∧ Confirmed v
      ∧ commitSent (.ok w) ∈ tr ∧ Confirmed w)
    ∧ (o.rolledBack = true →
      ∃ r, rollbackSent (.ok r) ∈ tr ∧ Confirmed r)

/-- A rollback counted as confirmed was answered without a failing
row. -/
theorem rollbackVerdict_true {rb : RfcResult Value}
    (h : (rollbackVerdict rb).1 = true) :
    ∃ r, rb = .ok r ∧ hasFailure (parseBapiret2 r) = false := by
  cases rb with
  | error e => cases h
  | ok r => exact ⟨r, rfl, by simpa [rollbackVerdict] using h⟩

/-- In a run that ends with a ROLLBACK, `rolled_back` is truthful
exactly when the ROLLBACK reply, if it arrived, had rows. -/
theorem rolledBack_truthful_iff {tr : RfcTrace} {rb : RfcResult Value}
    (hmem : ∀ r, rollbackSent (.ok r) ∈ tr ↔ rb = .ok r) :
    ((rollbackVerdict rb).1 = true →
        ∃ r, rollbackSent (.ok r) ∈ tr ∧ Confirmed r)
      ↔ ∀ r, rb = .ok r → parseBapiret2 r ≠ [] := by
  constructor
  · intro h r hr hnil
    subst hr
    have hv : (rollbackVerdict (.ok r)).1 = true := by
      show (!hasFailure (parseBapiret2 r)) = true
      rw [hnil]
      rfl
    obtain ⟨r', hr', hc⟩ := h hv
    cases (hmem r').mp hr'
    exact hc.1 hnil
  · intro h hv
    obtain ⟨r, rfl, hf⟩ := rollbackVerdict_true hv
    exact ⟨r, (hmem r).mpr rfl, h r rfl, hf⟩

/-- Membership in a trace that ends with its one ROLLBACK. -/
theorem mem_rollback_last (tr : RfcTrace) (rb : RfcResult Value)
    (h : ∀ a, rollbackSent a ∉ tr) (r : Value) :
    rollbackSent (.ok r) ∈ tr ++ [rollbackSent rb] ↔ rb = .ok r := by
  constructor
  · intro hm
    rcases List.mem_append.mp hm with hm | hm
    · exact absurd hm (h _)
    · cases List.mem_singleton.mp hm
      rfl
  · intro heq
    subst heq
    exact List.mem_append_right _ (List.mem_singleton.mpr rfl)

/-- Both flags of every write are truthful exactly when no COMMIT or
ROLLBACK of the run is answered without rows. -/
theorem outcome_truthful_iff {σ : Type} (client : SapClient σ)
    (request : RfcCallRequest) (readOnlyMode : Bool) (s : σ) :
    Truthful request (writeRun client request readOnlyMode s).trace
        (writeRun client request readOnlyMode s).result
      ↔ (Admitted request readOnlyMode →
          ControlRepliesHaveRows client request s) := by
  obtain ⟨hrun, hplay⟩ := writeRun_cases client request readOnlyMode s
  generalize (writeRun client request readOnlyMode s).trace = tr
    at hrun hplay ⊢
  generalize (writeRun client request readOnlyMode s).result = res
    at hrun ⊢
  cases hrun with
  | refused h =>
      exact ⟨fun _ ha => absurd ha h, fun _ o ho => by cases ho⟩
  | bapiLost e h =>
      obtain ⟨hbapi, -⟩ := hplay
      refine ⟨fun _ _ v hv => ?_, fun _ o ho => by cases ho⟩
      cases hbapi.trans hv
  | unqualified v rb h hv =>
      obtain ⟨hbapi, hrb, -⟩ := hplay
      have hmem := mem_rollback_last [bapiSent request (.ok v)] rb
        fun a ha =>
          h.bapiSent_ne_rollbackSent _ _ (List.mem_singleton.mp ha).symm
      have hiff := rolledBack_truthful_iff hmem
      constructor
      · intro ht _ v' hv'
        cases hbapi.trans hv'
        refine ⟨fun hc => absurd hc hv, fun _ r hr => ?_⟩
        exact hiff.mp (ht _ rfl).2 r (hrb.trans hr)
      · intro hc o ho
        cases ho
        refine ⟨fun hcom => (by cases hcom), hiff.mpr fun r hr => ?_⟩
        exact (hc h v hbapi.symm).2 hv r (hrb.symm.trans hr)
  | commitLost v e h hv =>
      obtain ⟨hbapi, hcommit, -⟩ := hplay
      refine ⟨fun _ _ v' hv' => ?_, fun _ o ho => by cases ho⟩
      cases hbapi.trans hv'
      refine ⟨fun _ w hw => ?_, fun hn => absurd hv hn⟩
      cases hcommit.trans hw
  | commitFailed v w rb h hv hw =>
      obtain ⟨hbapi, hcommit, hrb, -⟩ := hplay
      have hmem := mem_rollback_last
        [bapiSent request (.ok v), commitSent (.ok w)] rb fun a ha => by
          rcases List.mem_cons.mp ha with ha | ha
          · exact h.bapiSent_ne_rollbackSent _ _ ha.symm
          · exact commitSent_ne_rollbackSent _ _
              (List.mem_singleton.mp ha).symm
      have hiff := rolledBack_truthful_iff hmem
      have hwne : parseBapiret2 w ≠ [] := by
        intro hnil
        rw [hnil] at hw
        cases hw
      constructor
      · intro ht _ v' hv'
        cases hbapi.trans hv'
        refine ⟨fun _ w' hw' => ?_, fun hn => absurd hv hn⟩
        cases hcommit.trans hw'
        exact ⟨hwne, fun _ r hr => hiff.mp (ht _ rfl).2 r (hrb.trans hr)⟩
      · intro hc o ho
        cases ho
        refine ⟨fun hcom => (by cases hcom), hiff.mpr fun r hr => ?_⟩
        exact ((hc h v hbapi.symm).1 hv w hcommit.symm).2 hw r
          (hrb.symm.trans hr)
  | committed v w h hv hw =>
      obtain ⟨hbapi, hcommit, -⟩ := hplay
      constructor
      · intro ht _ v' hv'
        cases hbapi.trans hv'
        refine ⟨fun _ w' hw' => ?_, fun hn => absurd hv hn⟩
        cases hcommit.trans hw'
        obtain ⟨-, w', -, -, hw', hcw⟩ := (ht _ rfl).1 rfl
        rcases List.mem_cons.mp hw' with hw' | hw'
        · exact absurd hw'.symm (h.bapiSent_ne_commitSent _ _)
        · cases List.mem_singleton.mp hw'
          refine ⟨hcw.1, fun hf => ?_⟩
          rw [hw] at hf
          cases hf
      · intro hc o ho
        cases ho
        refine ⟨fun _ => ⟨v, w, List.mem_cons_self .., hv,
          List.mem_cons_of_mem _ (List.mem_singleton.mpr rfl), ?_, hw⟩,
          fun hrb => (by cases hrb)⟩
        exact ((hc h v hbapi.symm).1 hv w hcommit.symm).1

/-- A client that confirms the purchase order and answers the control
calls with an empty object. -/
def emptyControlReplies : SapClient Unit where
  answer call _ :=
    if call.request.function = commitFn ∨ call.request.function = rollbackFn
    then (.ok (.object []), ())
    else (.ok poCreated, ())

/-- The commit is reported although its reply had no row. -/
theorem committed_on_faith :
    (∃ o, (writeRun emptyControlReplies poRequest false ()).result = .ok o
        ∧ o.committed = true)
      ∧ ¬ Truthful poRequest
        (writeRun emptyControlReplies poRequest false ()).trace
        (writeRun emptyControlReplies poRequest false ()).result := by
  have htr : (writeRun emptyControlReplies poRequest false ()).trace
      = [bapiSent poRequest (.ok poCreated), commitSent (.ok (.object []))] :=
    rfl
  have hres : (writeRun emptyControlReplies poRequest false ()).result
      = .ok ⟨"BAPI_PO_CREATE1", true, false, parseBapiret2 poCreated,
        poCreated⟩ := rfl
  refine ⟨⟨_, hres, rfl⟩, fun ht => ?_⟩
  rw [htr, hres] at ht
  obtain ⟨-, w, -, -, hw, hc⟩ := (ht _ rfl).1 rfl
  rcases List.mem_cons.mp hw with hw | hw
  · exact poRequest_admitted.bapiSent_ne_commitSent _ _ hw.symm
  · cases List.mem_singleton.mp hw
    exact hc.1 rfl

-- ======================================================= the call order

/-- The business reply of a run arrived with this value. -/
def BapiReplied (request : RfcCallRequest) (tr : RfcTrace) (v : Value) :
    Prop := tr[0]? = some (bapiSent request (.ok v))

/-- The COMMIT reply of a run arrived with this value. -/
def CommitReplied (tr : RfcTrace) (w : Value) : Prop :=
  tr[1]? = some (commitSent (.ok w))

/-- The call protocol of a write: the five possible traces, and what
decides between them. -/
structure CallProtocol (request : RfcCallRequest) (readOnlyMode : Bool)
    (tr : RfcTrace) (result : RfcResult WriteOutcome) : Prop where
  shape : rfcNames tr = [] ∨ rfcNames tr = [request.function]
    ∨ rfcNames tr = [request.function, rollbackFn]
    ∨ rfcNames tr = [request.function, commitFn]
    ∨ rfcNames tr = [request.function, commitFn, rollbackFn]
  silent : rfcNames tr = [] ↔ readOnlyMode = true
    ∨ request.function = commitFn ∨ request.function = rollbackFn
  commit : commitFn ∈ rfcNames tr
    ↔ ∃ v, BapiReplied request tr v ∧ Confirmed v
  rollbackAfterBapi : rfcNames tr = [request.function, rollbackFn]
    ↔ ∃ v, BapiReplied request tr v ∧ ¬ Confirmed v
  rollbackAfterCommit : rfcNames tr = [request.function, commitFn, rollbackFn]
    ↔ ∃ w, CommitReplied tr w ∧ hasFailure (parseBapiret2 w) = true
  committed : (∃ o, result = .ok o ∧ o.committed = true)
    ↔ rfcNames tr = [request.function, commitFn]
      ∧ (∃ v, BapiReplied request tr v) ∧ ∃ w, CommitReplied tr w

/-- Every listed run follows the protocol. -/
theorem WriteRun.protocol {request : RfcCallRequest} {readOnlyMode : Bool}
    {tr : RfcTrace} {result : RfcResult WriteOutcome}
    (hrun : WriteRun request readOnlyMode tr result) :
    CallProtocol request readOnlyMode tr result := by
  have hcr : commitFn ≠ rollbackFn := commitFn_ne_rollbackFn
  cases hrun with
  | refused h =>
      have hsilent := (admitted_iff request readOnlyMode).mp h
      constructor <;> simp [BapiReplied, CommitReplied, hsilent]
  | bapiLost e h =>
      obtain ⟨hro, hc, hr⟩ := h
      constructor <;> simp [BapiReplied, CommitReplied, hro, hc, hr, hc.symm]
  | unqualified v rb h hv =>
      obtain ⟨hro, hc, hr⟩ := h
      constructor <;> simp [BapiReplied, CommitReplied, hro, hc, hr, hc.symm,
        hcr, hcr.symm, hv, (commitSent_ne_rollbackSent _ _).symm]
  | commitLost v e h hv =>
      obtain ⟨hro, hc, hr⟩ := h
      constructor <;> simp [BapiReplied, CommitReplied, hro, hc, hr, hcr, hv]
  | commitFailed v w rb h hv hw =>
      obtain ⟨hro, hc, hr⟩ := h
      constructor <;> simp [BapiReplied, CommitReplied, hro, hc, hr, hv, hw]
  | committed v w h hv hw =>
      obtain ⟨hro, hc, hr⟩ := h
      constructor <;> simp [BapiReplied, CommitReplied, hro, hc, hr, hcr, hv,
        hw]

/-- Every write follows the protocol, against every client. -/
theorem write_call_protocol {σ : Type} (client : SapClient σ)
    (request : RfcCallRequest) (readOnlyMode : Bool) (s : σ) :
    CallProtocol request readOnlyMode
      (writeRun client request readOnlyMode s).trace
      (writeRun client request readOnlyMode s).result :=
  (writeRun_cases client request readOnlyMode s).1.protocol

end SapAutomate.Rfc
