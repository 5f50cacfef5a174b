/-
Retries with a backoff (`sap-automate-rfc/src/retry.rs`): a call is made
again after a transient error, with a pause in between that is multiplied
each time, until its attempts are used up.

Durations are nanoseconds. A pause is multiplied exactly, by a rational
number, and in whole milliseconds, as the source has it.
-/
import SapAutomate.Rfc.Error
import Mathlib.Data.Rat.Floor

namespace SapAutomate.Rfc

/-- `BackoffPolicy`. -/
structure BackoffPolicy where
  maxAttempts : UInt32
  initial : Nat
  multiplier : ℚ
  maxDelay : Nat

/-- `BackoffPolicy::default`. -/
def BackoffPolicy.default : BackoffPolicy := ⟨3, 100000000, 2, 2000000000⟩

/-- `f as u64`. -/
def asU64 (q : ℚ) : Nat := min ⌊q⌋₊ 18446744073709551615

/-- The pause after this one. -/
def BackoffPolicy.next (policy : BackoffPolicy) (delay : Nat) : Nat :=
  let next := asU64 ((delay / 1000000 : Nat) * policy.multiplier)
  min (next * 1000000) policy.maxDelay

/-- What a run of `retry_with_backoff` does: how often it calls, how long
it sleeps, and what it returns. -/
structure Retried (T : Type) where
  invocations : Nat
  sleeps : List Nat
  result : RfcResult T

variable {T : Type}

/-- The loop, where the calls to come end like this; `attempt` have been
made. -/
def retryLoop (policy : BackoffPolicy) (outcomes : Nat → RfcResult T)
    (delay attempt : Nat) : Retried T :=
  match outcomes attempt with
  | .ok v => ⟨attempt + 1, [], .ok v⟩
  | .error e =>
      if e.isTransient = false ∨ policy.maxAttempts.toNat ≤ attempt + 1 then
        ⟨attempt + 1, [], .error e⟩
      else
        let rest := retryLoop policy outcomes (policy.next delay) (attempt + 1)
        { rest with sleeps := delay :: rest.sleeps }
termination_by policy.maxAttempts.toNat - attempt
decreasing_by omega

/-- `retry_with_backoff`, where the calls end like this. -/
def retryWithBackoff (policy : BackoffPolicy) (outcomes : Nat → RfcResult T) :
    Retried T :=
  retryLoop policy outcomes policy.initial 0

end SapAutomate.Rfc
