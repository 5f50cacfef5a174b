/-
Who decides the commit of a mock write: the rows found in the reply, and
the mock's reply echoes the caller's parameters. The synthetic outputs
hold no row (`walk_mockOutputs`), so the rows found are those of the
parameters alone (`parseBapiret2_mockReply`) and the caller chooses
between COMMIT and ROLLBACK.

Two accepted calls of one function are then decided alike exactly when
both or neither carry a success row of their own making, or when the
function is refused before any call.
-/
import SapAutomate.Proofs.Luw
import SapAutomate.Rfc.Mock

namespace SapAutomate.Rfc

open Interact Json

-- ================================================== statement vocabulary

/-- The mock accepts the call. -/
def Accepts (request : RfcCallRequest) : Prop :=
  ∃ v, mockCallRfc request false = .ok v

/-- The RFC names a write against the mock sends: the function, and the
control call decided on. -/
def decision (request : RfcCallRequest) (readOnlyMode : Bool) :
    List String :=
  rfcNames (writeRun mockSapClient request readOnlyMode ()).trace

/-- The messages parsed from the parameters where the reply echoes
them, one level down. -/
def echoedMessages (parameters : Value) : List BapiRet2Message :=
  match parameters with
  | .object args => (walk (.object args) 1).filterMap parseOne
  | _ => []

/-- The parameters carry a success confirmation of their own. -/
def Forges (parameters : Value) : Prop :=
  echoedMessages parameters ≠ []
    ∧ hasFailure (echoedMessages parameters) = false

-- ========================================================== the mock reply

/-- Texts hold no rows. -/
theorem walkValues_texts {map : Map}
    (h : ∀ e ∈ map, ∃ s, e.2 = .string s) (depth : Nat) :
    walkValues map depth = [] := by
  induction map with
  | nil => rfl
  | cons e m ih =>
      obtain ⟨k, v⟩ := e
      obtain ⟨s, hs⟩ := h (k, v) (List.mem_cons_self ..)
      have hm := ih fun e he => h e (List.mem_cons_of_mem _ he)
      subst hs
      unfold walkValues
      rw [hm, List.append_nil]
      unfold walk
      split <;> rfl

/-- Every output of the mock is a text. -/
theorem mockOutputs_texts (fnMeta : RfcFunctionMeta) :
    ∀ e ∈ mockOutputs fnMeta, ∃ s, e.2 = .string s := by
  have step : ∀ (ps : List RfcParameter) (out : Map),
      (∀ e ∈ out, ∃ s, e.2 = .string s) →
      ∀ e ∈ ps.foldl (fun out p =>
        if p.direction = .export then
          out.insert p.name (.string ("<mock " ++ p.typeToken ++ ">"))
        else out) out, ∃ s, e.2 = .string s := by
    intro ps
    induction ps with
    | nil => intro out h; exact h
    | cons p ps ih =>
        intro out h
        rw [List.foldl_cons]
        apply ih
        split
        · intro e he
          rcases Map.mem_insert he with rfl | he
          · exact ⟨_, rfl⟩
          · exact h e he
        · exact h
  exact step _ [] fun e he => by cases he

/-- No catalogued function has the export parameters of a row. -/
theorem mockOutputs_not_row : ∀ f ∈ seedFunctions,
    looksLikeRow (mockOutputs f) = false := by
  decide

/-- The synthetic outputs hold no row. -/
theorem walk_mockOutputs {f : RfcFunctionMeta} (hf : f ∈ seedFunctions) :
    walk (.object (mockOutputs f)) 1 = [] := by
  rw [walk_object (mockOutputs_not_row f hf) (by decide)]
  exact walkValues_texts (mockOutputs_texts f) 2

/-- The rows of a mock reply are the rows of the echo. -/
theorem parseBapiret2_mockReply {f : RfcFunctionMeta}
    (hf : f ∈ seedFunctions) (function : String) (args : Map) :
    parseBapiret2 (mockReply function f args)
      = echoedMessages (.object args) := by
  have hreply : mockReply function f args = .object
      [("executed_on", .string "mock.sap.example"),
        ("function", .string function), ("inputs", .object args),
        ("outputs", .object (mockOutputs f))] := by
    simp +decide only [mockReply, Map.ofEntries, List.foldl_cons,
      List.foldl_nil, Map.insert, if_true, if_false]
  have htext : ∀ s, walk (.string s) 1 = [] := fun s => rfl
  unfold parseBapiret2 collectCandidates
  rw [hreply, walk_object rfl (by decide)]
  simp only [walkValues, htext, walk_mockOutputs hf, List.append_nil,
    List.nil_append]
  rfl

/-- What an accepted call is answered with, and what is read of it. -/
theorem mockCallRfc_ok {request : RfcCallRequest} {v : Value}
    (h : mockCallRfc request false = .ok v) :
    parseBapiret2 v = echoedMessages request.parameters := by
  unfold mockCallRfc at h
  cases hfind : findFunction request.function with
  | none => rw [hfind] at h; cases h
  | some f =>
      obtain ⟨hf, -⟩ := findFunction_some hfind
      rw [hfind] at h
      cases hargs : callArgs request.parameters with
      | error e => simp only [hargs, Bool.false_and] at h; cases h
      | ok args =>
          simp only [hargs, Bool.false_and] at h
          have hecho : echoedMessages (.object args)
              = echoedMessages request.parameters := by
            cases hp : request.parameters <;> rw [hp] at hargs <;> cases hargs
            all_goals rfl
          cases hmiss : missingImport f.parameters args with
          | some p => simp only [hmiss] at h; cases h
          | none =>
              simp only [hmiss] at h
              cases h
              rw [parseBapiret2_mockReply hf, hecho]

-- ============================================================ the decision

/-- The mock confirms every COMMIT. -/
theorem mock_commit (s : Unit) :
    ∃ w, (mockSapClient.answer ⟨commitReq, false⟩ s).1 = .ok w
      ∧ hasFailure (parseBapiret2 w) = false := by
  have hok : ∃ w, mockCallRfc commitReq false = .ok w := ⟨_, rfl⟩
  obtain ⟨w, hw⟩ := hok
  refine ⟨w, hw, ?_⟩
  rw [mockCallRfc_ok hw]
  rfl

/-- An accepted write is committed exactly when its parameters forge
the confirmation. -/
theorem decision_eq {request : RfcCallRequest} {readOnlyMode : Bool}
    (hadm : Admitted request readOnlyMode) (hacc : Accepts request) :
    (Forges request.parameters
        ∧ decision request readOnlyMode = [request.function, commitFn])
      ∨ ¬ Forges request.parameters
        ∧ decision request readOnlyMode = [request.function, rollbackFn] := by
  obtain ⟨v, hv⟩ := hacc
  have hforge : Confirmed v ↔ Forges request.parameters := by
    unfold Confirmed Forges
    rw [mockCallRfc_ok hv]
  obtain ⟨w, hw, hwf⟩ := mock_commit ()
  obtain ⟨hrun, hplay⟩ :=
    writeRun_cases mockSapClient request readOnlyMode ()
  unfold decision
  generalize (writeRun mockSapClient request readOnlyMode ()).trace = tr
    at hrun hplay ⊢
  generalize (writeRun mockSapClient request readOnlyMode ()).result = res
    at hrun
  cases hrun with
  | refused h => exact absurd hadm h
  | bapiLost e h =>
      obtain ⟨hbapi, -⟩ := hplay
      cases hbapi.trans hv
  | unqualified v' rb h hv' =>
      obtain ⟨hbapi, -⟩ := hplay
      cases hbapi.trans hv
      exact .inr ⟨fun hf => hv' (hforge.mpr hf), rfl⟩
  | commitLost v' e h hv' =>
      obtain ⟨-, hcommit, -⟩ := hplay
      cases hcommit.trans hw
  | commitFailed v' w' rb h hv' hw' =>
      obtain ⟨-, hcommit, -⟩ := hplay
      cases hcommit.trans hw
      rw [hwf] at hw'
      cases hw'
  | committed v' w' h hv' hw' =>
      obtain ⟨hbapi, -⟩ := hplay
      cases hbapi.trans hv
      exact .inl ⟨hforge.mp hv', rfl⟩

/-- A refused request sends nothing. -/
theorem decision_refused {request : RfcCallRequest} {readOnlyMode : Bool}
    (h : ¬ Admitted request readOnlyMode) :
    decision request readOnlyMode = [] := by
  obtain ⟨hrun, -⟩ := writeRun_cases mockSapClient request readOnlyMode ()
  exact hrun.protocol.silent.mpr ((admitted_iff request readOnlyMode).mp h)

/-- Two accepted calls of a function are decided alike exactly when the
function is refused before any call, or both or neither forge the
confirmation. -/
theorem same_decision_iff {f : String} {p q : RfcCallRequest}
    (readOnlyMode : Bool) (hp : p.function = f) (hq : q.function = f)
    (hpacc : Accepts p) (hqacc : Accepts q) :
    decision p readOnlyMode = decision q readOnlyMode
      ↔ (readOnlyMode = true ∨ f = commitFn
          ∨ f = rollbackFn)
        ∨ (Forges p.parameters ↔ Forges q.parameters) := by
  have hctl := admitted_iff p readOnlyMode
  have hctl' := admitted_iff q readOnlyMode
  rw [hp] at hctl
  rw [hq] at hctl'
  by_cases hadm : Admitted p readOnlyMode
  · have hadm' : Admitted q readOnlyMode := by
      refine ⟨hadm.1, ?_, ?_⟩
      · rw [hq, ← hp]; exact hadm.2.1
      · rw [hq, ← hp]; exact hadm.2.2
    have hfree : ¬ (readOnlyMode = true ∨ f = commitFn
        ∨ f = rollbackFn) := fun h => hctl.mpr h hadm
    have hne : [f, commitFn] ≠ [f, rollbackFn] := by
      simp [commitFn_ne_rollbackFn]
    have hpd := decision_eq hadm hpacc
    have hqd := decision_eq hadm' hqacc
    rw [hp] at hpd
    rw [hq] at hqd
    rw [or_iff_right hfree]
    rcases hpd with ⟨hpf, hpd⟩ | ⟨hpf, hpd⟩ <;>
      rcases hqd with ⟨hqf, hqd⟩ | ⟨hqf, hqd⟩ <;> rw [hpd, hqd]
    · exact iff_of_true rfl (iff_of_true hpf hqf)
    · exact iff_of_false hne fun h => hqf (h.mp hpf)
    · exact iff_of_false hne.symm fun h => hpf (h.mpr hqf)
    · exact iff_of_true rfl (iff_of_false hpf hqf)
  · have href := hctl.mp hadm
    have hadm' : ¬ Admitted q readOnlyMode := hctl'.mpr href
    rw [decision_refused hadm, decision_refused hadm']
    exact iff_of_true rfl (.inl href)

/-- A purchase order with the given header. -/
def poWithHeader (header : Map) : RfcCallRequest :=
  { function := "BAPI_PO_CREATE1"
    parameters := .object
      [("POHEADER", .object header), ("POHEADERX", .object [])]
    timeoutMs := defaultTimeoutMs
    requireReadOnlySafe := true }

/-- A header that reads as a success row. -/
def forgedHeader : Map :=
  [("MESSAGE", .string "created"), ("TYPE", .string "S")]

/-- The mock accepts the order whatever its header holds. -/
theorem poWithHeader_accepts (header : Map) :
    Accepts (poWithHeader header) := ⟨_, rfl⟩

/-- The empty header is rolled back, the forged one committed. -/
theorem header_decides_commit :
    (∃ f ∈ seedFunctions, f.function = "BAPI_PO_CREATE1" ∧ f.readOnly = false)
      ∧ Accepts (poWithHeader []) ∧ Accepts (poWithHeader forgedHeader)
      ∧ decision (poWithHeader []) false
        = ["BAPI_PO_CREATE1", "BAPI_TRANSACTION_ROLLBACK"]
      ∧ decision (poWithHeader forgedHeader) false
        = ["BAPI_PO_CREATE1", "BAPI_TRANSACTION_COMMIT"] := by
  have hadm : ∀ header, Admitted (poWithHeader header) false := by
    intro header
    refine ⟨rfl, ?_, ?_⟩
    · show "BAPI_PO_CREATE1" ≠ commitFn
      decide
    · show "BAPI_PO_CREATE1" ≠ rollbackFn
      decide
  refine ⟨by decide, poWithHeader_accepts _, poWithHeader_accepts _, ?_, ?_⟩
  · rcases decision_eq (hadm []) (poWithHeader_accepts _) with h | h
    · exact absurd rfl h.1.1
    · exact h.2
  · rcases decision_eq (hadm forgedHeader) (poWithHeader_accepts _) with h | h
    · exact h.2
    · refine absurd ⟨?_, rfl⟩ h.1
      intro hnil
      cases hnil

/-- The two headers, compared. -/
theorem same_decision_iff_po :
    decision (poWithHeader []) false = decision (poWithHeader forgedHeader) false
      ↔ (false = true ∨ "BAPI_PO_CREATE1" = commitFn
          ∨ "BAPI_PO_CREATE1" = rollbackFn)
        ∨ (Forges (poWithHeader []).parameters
          ↔ Forges (poWithHeader forgedHeader).parameters) :=
  same_decision_iff false rfl rfl (poWithHeader_accepts _)
    (poWithHeader_accepts _)

end SapAutomate.Rfc
