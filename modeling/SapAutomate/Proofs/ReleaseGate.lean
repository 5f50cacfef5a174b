/-
When a transport release is confirmed (`workflow_release_transport` of
`sap-automate-server/src/tools.rs`): the user is to accept, name a transport
and type it again.

What is missing or mistyped in the answer counts as empty, and nothing
equals nothing: an answer accepted without either text passes for a
confirmation.
-/
import SapAutomate.Proofs.AuditTrail

namespace SapAutomate.Server

open Interact Json Mcp

variable {P : Iface}

/-- What the user answers, in an exchange of a write tool's. -/
def elicited : Exchange (AuditIface.sum (WriteIface P)) →
    Option ElicitationResult
  | ⟨.inr (.inl _), answer⟩ => some answer
  | _ => none

/-- The answer has a text under this key, and not the empty one. -/
def Typed (answer : ElicitationResult) (key text : String) : Prop :=
  ∃ v, answer.content = some v ∧ v.get key = some (.string text) ∧ text ≠ ""

/-- The answer is a confirmation: accepted, with a transport and the same
typed again. -/
def ConfirmsRelease (answer : ElicitationResult) : Prop :=
  answer.action = .accept ∧ ∃ text, Typed answer "transport" text
    ∧ Typed answer "confirmation_phrase" text

/-- An error, or what says that the release was declined. -/
def RefusesRelease (reply : McpResult CallToolResult) : Prop :=
  ∃ result, reply = .ok result ∧ (result.isError = true
    ∨ result = .text "Transport release declined; no action taken.")

/-- An outcome that says that it was done. -/
def AuditOutcome.isOk : AuditOutcome → Bool
  | .ok _ => true
  | _ => false

/-- The user asked, and answering so, a release is confirmed only by a
confirmation: else it is refused, and no outcome says that it was done. -/
def GatesRelease (answer : ElicitationResult) : Prop :=
  ∀ (P : Iface) (ctx : ServerContext) (texts : SerdeTexts)
    (arguments : Value),
    (releaseTransportHandler (P := P) ctx texts arguments).Sat
      fun tr reply => (∀ a ∈ tr.filterMap elicited, a = answer) →
        ¬ ConfirmsRelease answer →
        RefusesRelease reply
          ∧ ∀ entry ∈ tr.filterMap sinked, entry.outcome.isOk = false

/-- What the handler reads under a key. -/
def typedText (answer : ElicitationResult) (key : String) : String :=
  (((answer.content.getD .null).get key).bind Value.asStr).getD ""

theorem typed_of_ne {answer : ElicitationResult} {key : String}
    (h : typedText answer key ≠ "") : Typed answer key (typedText answer key) := by
  unfold typedText at h ⊢
  cases hcontent : answer.content with
  | none =>
      rw [hcontent] at h
      exact absurd rfl h
  | some v =>
      rw [hcontent, Option.getD_some] at h
      cases hget : v.get key with
      | none =>
          rw [hget] at h
          exact absurd rfl h
      | some w =>
          rw [hget] at h
          cases w with
          | string s =>
              refine ⟨v, hcontent, ?_, ?_⟩
              · rw [Option.getD_some, hget]
                rfl
              · rw [Option.getD_some, hget]
                exact h
          | null => exact absurd rfl h
          | bool b => exact absurd rfl h
          | number n => exact absurd rfl h
          | array a => exact absurd rfl h
          | object m => exact absurd rfl h

theorem Typed.text {answer : ElicitationResult} {key text : String}
    (h : Typed answer key text) : typedText answer key = text := by
  obtain ⟨v, hcontent, hget, -⟩ := h
  rw [typedText, hcontent, Option.getD_some, hget]
  rfl

theorem Typed.ne {answer : ElicitationResult} {key text : String}
    (h : Typed answer key text) : text ≠ "" := by
  obtain ⟨-, -, -, hne⟩ := h
  exact hne

/-- Whatever is answered, the release is confirmed where the two texts are
the same, and refused else. -/
theorem releaseTransport_sat {ctx : ServerContext} {texts : SerdeTexts}
    {arguments : Value}
    {Φ : List (Exchange (AuditIface.sum (WriteIface P))) →
      McpResult CallToolResult → Prop}
    (hrefused : ∀ tr reply, RefusesRelease reply →
      (∀ entry ∈ tr.filterMap sinked, entry.outcome.isOk = false) → Φ tr reply)
    (hconfirmed : ∀ tr reply answer, answer ∈ tr.filterMap elicited →
      answer.action = .accept →
      typedText answer "transport" = typedText answer "confirmation_phrase" →
      Φ tr reply) :
    (releaseTransportHandler (P := P) ctx texts arguments).Sat Φ := by
  unfold releaseTransportHandler
  cases trArgs arguments with
  | none => exact hrefused _ _ ⟨_, rfl, .inl rfl⟩ (List.forall_mem_nil _)
  | some initial =>
      intro answer
      obtain ⟨action, content⟩ := answer
      cases action with
      | accept =>
          show Prog.Sat (if _ then _ else _) _
          by_cases hphrase : (((content.getD .null).get "transport").bind
              Value.asStr).getD "" ≠ (((content.getD .null).get
                "confirmation_phrase").bind Value.asStr).getD ""
          · rw [if_pos hphrase]
            intro u
            refine hrefused _ _ ⟨_, rfl, .inl rfl⟩ ?_
            exact List.forall_mem_singleton.mpr rfl
          · rw [if_neg hphrase]
            intro u
            exact hconfirmed _ _ ⟨.accept, content⟩ List.mem_cons_self rfl
              (not_not.mp hphrase)
      | decline =>
          intro u
          refine hrefused _ _ ⟨_, rfl, .inr rfl⟩ ?_
          exact List.forall_mem_singleton.mpr rfl
      | cancel =>
          intro u
          refine hrefused _ _ ⟨_, rfl, .inl rfl⟩ ?_
          exact List.forall_mem_singleton.mpr rfl

/-- Accepted without either text, the release counts as done. -/
theorem empty_answer_confirmed {answer : ElicitationResult}
    (haccept : answer.action = .accept)
    (htransport : typedText answer "transport" = "")
    (hphrase : typedText answer "confirmation_phrase" = "") :
    ¬ GatesRelease answer := by
  intro h
  obtain ⟨action, content⟩ := answer
  change action = .accept at haccept
  subst haccept
  have hrun := h ⟨Unit, fun _ => Unit⟩ ⟨false, none⟩
    ⟨fun _ => none, fun _ => "", fun _ => "", fun _ => "", fun _ => ""⟩
    (.object []) ⟨.accept, content⟩
  change Prog.Sat (if _ then _ else _) _ at hrun
  have hequal : ¬ (((content.getD .null).get "transport").bind
      Value.asStr).getD "" ≠ (((content.getD .null).get
        "confirmation_phrase").bind Value.asStr).getD "" :=
    not_not.mpr (htransport.trans hphrase.symm)
  rw [if_neg hequal] at hrun
  have hnot : ¬ ConfirmsRelease ⟨.accept, content⟩ := by
    rintro ⟨-, text, htyped, -⟩
    exact htyped.ne (htyped.text.symm.trans htransport)
  have hall : ∀ a ∈ [(⟨.accept, content⟩ : ElicitationResult)],
      a = ⟨.accept, content⟩ := fun a ha => List.mem_singleton.mp ha
  obtain ⟨-, hno⟩ := hrun () hall hnot
  exact Bool.noConfusion (hno _ List.mem_cons_self)

/-- The gate holds exactly where the answer is not accepted, or has one of
the two texts. -/
theorem gatesRelease_iff (answer : ElicitationResult) :
    GatesRelease answer
      ↔ (answer.action = .accept →
        ∃ text, Typed answer "transport" text
          ∨ Typed answer "confirmation_phrase" text) := by
  constructor
  · intro h haccept
    by_contra hnone
    have hempty : ∀ key ∈ ["transport", "confirmation_phrase"],
        typedText answer key = "" := by
      intro key hkey
      by_contra hne
      simp only [List.mem_cons, List.not_mem_nil, or_false] at hkey
      rcases hkey with rfl | rfl
      · exact hnone ⟨_, .inl (typed_of_ne hne)⟩
      · exact hnone ⟨_, .inr (typed_of_ne hne)⟩
    exact empty_answer_confirmed haccept (hempty _ (by simp))
      (hempty _ (by simp)) h
  · intro h P ctx texts arguments
    refine releaseTransport_sat (fun tr reply hrefuses hnot _ _ =>
      ⟨hrefuses, hnot⟩) ?_
    intro tr reply answer' hmem haccept hphrase hall hconfirms
    rw [hall answer' hmem] at haccept hphrase
    -- the two texts are the same, and one is not empty
    have hne : typedText answer "transport" ≠ "" := by
      obtain ⟨text, htyped | htyped⟩ := h haccept
      · exact htyped.text.trans_ne htyped.ne
      · exact (hphrase.trans htyped.text).trans_ne htyped.ne
    have hphraseTyped : Typed answer "confirmation_phrase" _ :=
      typed_of_ne (hphrase ▸ hne)
    rw [← hphrase] at hphraseTyped
    exact absurd ⟨haccept, _, typed_of_ne hne, hphraseTyped⟩ hconfirms

/-- Accepted with nothing typed: the release is confirmed. -/
theorem nothing_confirms : ¬ ∀ answer, GatesRelease answer := by
  intro h
  have hanswer := h ⟨.accept, some (.object [])⟩
  exact empty_answer_confirmed rfl rfl rfl hanswer

end SapAutomate.Server
