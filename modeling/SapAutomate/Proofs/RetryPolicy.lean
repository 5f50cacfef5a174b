/-
What a policy says of retries (`sap-automate-rfc/src/retry.rs`), and when
they keep to it: every pause but the first is capped, so the first one has
to be within the cap, or not to be made.
-/
import SapAutomate.Rfc.Backoff

namespace SapAutomate.Rfc

variable {T : Type}

/-- A call is made again after this. -/
def Again : RfcResult T → Prop
  | .ok _ => False
  | .error e => e.isTransient = true

/-- A run that a policy allows. -/
structure MeetsPolicy (policy : BackoffPolicy) (outcomes : Nat → RfcResult T)
    (run : Retried T) : Prop where
  called : 0 < run.invocations
  bounded : run.invocations ≤ max 1 policy.maxAttempts.toNat
  again : ∀ i, i + 1 < run.invocations → Again (outcomes i)
  stops : Again (outcomes (run.invocations - 1)) →
    run.invocations = max 1 policy.maxAttempts.toNat
  result : run.result = outcomes (run.invocations - 1)
  sleeps : run.sleeps.length + 1 = run.invocations
  capped : ∀ d ∈ run.sleeps, d ≤ policy.maxDelay

/-- What the loop does from an attempt on. -/
structure LoopSpec (policy : BackoffPolicy) (outcomes : Nat → RfcResult T)
    (delay attempt : Nat) (run : Retried T) : Prop where
  called : attempt < run.invocations
  bounded : run.invocations ≤ max (attempt + 1) policy.maxAttempts.toNat
  again : ∀ i, attempt ≤ i → i + 1 < run.invocations → Again (outcomes i)
  stops : Again (outcomes (run.invocations - 1)) →
    policy.maxAttempts.toNat ≤ run.invocations
  result : run.result = outcomes (run.invocations - 1)
  sleeps : run.sleeps.length + attempt + 1 = run.invocations
  first : ∀ d ∈ run.sleeps.head?, d = delay
  capped : ∀ d ∈ run.sleeps.tail, d ≤ policy.maxDelay

theorem next_le (policy : BackoffPolicy) (delay : Nat) :
    policy.next delay ≤ policy.maxDelay := Nat.min_le_right _ _

/-- Where the first pause is within the cap, or there is none, all are. -/
theorem LoopSpec.sleeps_le {policy : BackoffPolicy}
    {outcomes : Nat → RfcResult T} {delay attempt : Nat} {run : Retried T}
    (h : LoopSpec policy outcomes delay attempt run)
    (hdelay : run.sleeps ≠ [] → delay ≤ policy.maxDelay) :
    ∀ d ∈ run.sleeps, d ≤ policy.maxDelay := by
  intro d hd
  have hfirst := h.first
  have hcapped := h.capped
  cases hlist : run.sleeps with
  | nil =>
      rw [hlist] at hd
      cases hd
  | cons d' ds =>
      rw [hlist] at hd hfirst hcapped hdelay
      rcases List.mem_cons.mp hd with rfl | hd
      · rw [hfirst d rfl]
        exact hdelay (List.cons_ne_nil _ _)
      · exact hcapped d hd

/-- A call that is the last. -/
theorem loopSpec_last {policy : BackoffPolicy} {outcomes : Nat → RfcResult T}
    {delay attempt : Nat}
    (h : Again (outcomes attempt) → policy.maxAttempts.toNat ≤ attempt + 1) :
    LoopSpec policy outcomes delay attempt
      ⟨attempt + 1, [], outcomes attempt⟩ where
  called := Nat.lt_succ_self attempt
  bounded := Nat.le_max_left _ _
  again := fun i hi hlt => absurd hlt (by dsimp only; omega)
  stops := h
  result := rfl
  sleeps := Nat.zero_add _ ▸ rfl
  first := nofun
  capped := nofun

theorem retryLoop_spec (policy : BackoffPolicy) (outcomes : Nat → RfcResult T)
    (delay attempt : Nat) :
    LoopSpec policy outcomes delay attempt
      (retryLoop policy outcomes delay attempt) := by
  fun_induction retryLoop policy outcomes delay attempt with
  | case1 delay attempt v hv =>
      rw [← hv]
      refine loopSpec_last fun hagain => ?_
      rw [hv] at hagain
      exact hagain.elim
  | case2 delay attempt e he hlast =>
      rw [← he]
      refine loopSpec_last fun hagain => ?_
      rw [he] at hagain
      refine hlast.resolve_left fun hfalse => ?_
      exact Bool.false_ne_true (hfalse.symm.trans hagain)
  | case3 delay attempt e he hmore rest ih =>
      obtain ⟨htransient, hleft⟩ := not_or.mp hmore
      constructor
      case called => exact (Nat.lt_succ_self attempt).trans ih.called
      case bounded =>
        have hbound : rest.invocations
            ≤ max (attempt + 1 + 1) policy.maxAttempts.toNat := ih.bounded
        change rest.invocations ≤ _
        omega
      case again =>
        intro i hi hlt
        rcases Nat.eq_or_lt_of_le hi with rfl | hi
        · rw [he]
          exact Bool.eq_true_of_not_eq_false htransient
        · exact ih.again i hi hlt
      case stops => exact ih.stops
      case result => exact ih.result
      case sleeps =>
        have hsleeps : rest.sleeps.length + (attempt + 1) + 1
            = rest.invocations := ih.sleeps
        change rest.sleeps.length + 1 + attempt + 1 = rest.invocations
        omega
      case first =>
        intro d hd
        exact (Option.some.inj hd).symm
      case capped => exact ih.sleeps_le fun _ => next_le policy delay

/-- Retries keep to their policy exactly when the first pause is within the
cap, or there is none. -/
theorem retryWithBackoff_meets_iff (policy : BackoffPolicy)
    (outcomes : Nat → RfcResult T) :
    MeetsPolicy policy outcomes (retryWithBackoff policy outcomes)
      ↔ policy.initial ≤ policy.maxDelay ∨ policy.maxAttempts.toNat ≤ 1
        ∨ ¬ Again (outcomes 0) := by
  have hspec := retryLoop_spec policy outcomes policy.initial 0
  have hcalled := hspec.called
  have hbounded := hspec.bounded
  have hsleeps := hspec.sleeps
  unfold retryWithBackoff
  generalize retryLoop policy outcomes policy.initial 0 = run at *
  constructor
  · intro hmeets
    by_contra hnot
    obtain ⟨hinitial, hattempts, hagain⟩ := not_or.mp hnot |>.imp_right not_or.mp
    -- the first outcome is not the last, so there is a first pause
    have hmore : 1 < run.invocations := by
      by_contra hone
      have hlast : run.invocations = 1 := by omega
      have hstops := hspec.stops
      rw [hlast] at hstops
      exact hattempts (hstops (not_not.mp hagain))
    cases hlist : run.sleeps with
    | nil =>
        rw [hlist, List.length_nil] at hsleeps
        omega
    | cons d ds =>
        have hfirst := hspec.first
        rw [hlist] at hfirst
        have hd := hmeets.capped d (hlist ▸ List.mem_cons_self)
        rw [hfirst d rfl] at hd
        exact hinitial hd
  · intro hcond
    constructor
    case called => exact hcalled
    case bounded => omega
    case again => exact fun i hi => hspec.again i (Nat.zero_le i) hi
    case stops =>
      intro hagain
      have hstops := hspec.stops hagain
      omega
    case result => exact hspec.result
    case sleeps => omega
    case capped =>
      refine hspec.sleeps_le fun hne => hcond.resolve_right ?_
      -- there is a pause, so the first outcome was not the last
      have hpos := List.length_pos_of_ne_nil hne
      rintro (hattempts | hnot)
      · omega
      · exact hnot (hspec.again 0 (Nat.le_refl 0) (by omega))

/-- The first pause may be longer than the cap. -/
theorem first_pause_uncapped :
    ¬ ∀ (policy : BackoffPolicy) (outcomes : Nat → RfcResult Unit),
      0 ≤ policy.multiplier →
      MeetsPolicy policy outcomes (retryWithBackoff policy outcomes) := by
  intro h
  have hmeets := h ⟨2, 10, 1, 1⟩ (fun _ => .error (.timeout 0)) (by decide)
  have hfirst : (retryWithBackoff ⟨2, 10, 1, 1⟩
      fun _ => (.error (.timeout 0) : RfcResult Unit)).sleeps = [10] := by
    rw [retryWithBackoff, retryLoop, retryLoop]
    rfl
  exact absurd (hmeets.capped 10 (hfirst ▸ List.mem_cons_self)) (by decide)

end SapAutomate.Rfc
