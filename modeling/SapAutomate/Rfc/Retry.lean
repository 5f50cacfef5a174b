/-
The circuit breaker (`sap-automate-rfc/src/retry.rs`): it counts
transient failures, refuses calls while it is open, and lets them
through again once it has been open long enough.

A call takes the lock twice: `tick` before the inner call decides
whether it is admitted, `complete` after it accounts for the outcome.
In between, and between `tick` and its reading of the clock for the
refusal, other calls go on. Durations are nanoseconds.
-/
import SapAutomate.Lib.Pool
import SapAutomate.Rfc.Error

namespace SapAutomate.Rfc

open Interact

/-- `CircuitState`. -/
inductive CircuitState where
  | closed
  | «open»
  | halfOpen
  deriving DecidableEq

/-- `CircuitInner`: what the lock guards. -/
structure CircuitInner where
  state : CircuitState
  failures : Nat
  openedAt : Option Nat
  deriving DecidableEq

/-- What a breaker is made with. -/
structure BreakerConfig where
  failureThreshold : Nat
  openDuration : Nat

/-- `CircuitBreaker::new`. -/
def CircuitInner.new : CircuitInner := ⟨.closed, 0, none⟩

namespace CircuitBreaker

variable {T : Type}

-- ============================================================ sections

/-- `tick`: an open breaker whose time is up is half open. -/
def tick (cfg : BreakerConfig) (now : Nat) (g : CircuitInner) :
    CircuitInner :=
  match g.state, g.openedAt with
  | .open, some opened =>
      if now - opened ≥ cfg.openDuration then { g with state := .halfOpen }
      else g
  | _, _ => g

/-- What `call` does with the outcome, under the lock. -/
def complete (cfg : BreakerConfig) (now : Nat) (result : RfcResult T)
    (g : CircuitInner) : CircuitInner :=
  match result with
  | .ok _ => { state := .closed, failures := 0, openedAt := none }
  | .error e =>
      if e.isTransient then
        let failures := (g.failures + 1) % 4294967296
        if failures ≥ cfg.failureThreshold then
          { state := .open, failures := failures, openedAt := some now }
        else { g with failures := failures }
      else g

/-- The sections of a call, its inner call, and its reading of the clock
for a refusal. -/
inductive BreakerQuery (T : Type) where
  | tick
  | now
  | run
  | complete (result : RfcResult T)

/-- What each hands back. -/
abbrev BreakerIface (T : Type) : Iface where
  Query := BreakerQuery T
  Reply
    | .tick => CircuitInner
    | .now => Nat
    | .run => RfcResult T
    | .complete _ => Unit

/-- What is outside the breaker: the clock, and how the inner call would
end now. -/
structure BreakerInstant (T : Type) where
  now : Nat
  outcome : RfcResult T

/-- What each does at an instant. -/
def answer (cfg : BreakerConfig) (w : BreakerInstant T) :
    (q : BreakerQuery T) → CircuitInner →
      (BreakerIface T).Reply q × CircuitInner
  | .tick, g => (tick cfg w.now g, tick cfg w.now g)
  | .now, g => (w.now, g)
  | .run, g => (w.outcome, g)
  | .complete result, g => ((), complete cfg w.now result g)

-- ================================================================ call

/-- The refusal: how long the breaker stays open yet, in milliseconds. -/
def refusal (cfg : BreakerConfig) (snapshot : CircuitInner) (now : Nat) :
    RfcError :=
  let remaining := match snapshot.openedAt with
    | some t => cfg.openDuration - (now - t)
    | none => cfg.openDuration
  .circuitOpen (remaining / 1000000 % 18446744073709551616)

/-- `CircuitBreaker::call`. -/
def call (cfg : BreakerConfig) : Prog (BreakerIface T) (RfcResult T) :=
  .ask .tick fun snapshot =>
    if snapshot.state = .open then
      .ask .now fun now => .done (.error (refusal cfg snapshot now))
    else
      .ask .run fun result =>
        .ask (.complete result) fun _ => .done result

/-- Any number of calls, in any interleaving. -/
def machine (T : Type) (cfg : BreakerConfig) :
    Machine (PoolAct Unit (BreakerInstant T))
      (Pool (BreakerIface T) Unit (BreakerInstant T) CircuitInner
        (RfcResult T)) :=
  poolMachine (.always (answer cfg)) (fun _ => call cfg) .new

end CircuitBreaker

end SapAutomate.Rfc
