/-
The rate limiter of the crawler (`sap-automate-ingest/src/rate_limit.rs`).

Instants and durations are in nanoseconds, and `last` is the last instant
there is. To go past it is a panic; it is under the lock, which is then
poisoned, and every later call panics where it takes it: `none`. Each call
is its locked section, and says what the clock read.
-/
import SapAutomate.Lib.Table
import Mathlib.Algebra.GroupWithZero.Nat

namespace SapAutomate.Ingest

/-- `BucketState`. -/
structure BucketState where
  nextReady : Nat
  interval : Nat

/-- `RateLimiter`. -/
structure RateLimiter where
  defaultInterval : Nat
  state : Table String BucketState
  poisoned : Bool

namespace RateLimiter

/-- `RateLimiter::new`. -/
def new (defaultInterval : Nat) : RateLimiter :=
  ⟨defaultInterval, .empty, false⟩

/-- `RateLimiter::interval_of`. -/
def intervalOf (rl : RateLimiter) (host : String) : Nat :=
  ((rl.state host).map BucketState.interval).getD rl.defaultInterval

/-- `RateLimiter::set_interval`. -/
def setInterval (rl : RateLimiter) (now : Nat) (host : String)
    (interval : Nat) : Option Unit × RateLimiter :=
  if rl.poisoned then (none, rl)
  else
    let entry := (rl.state host).getD ⟨now, interval⟩
    (some (), { rl with
      state := rl.state.insert host { entry with interval := interval } })

/-- `RateLimiter::acquire_wait`. -/
def acquireWait (last : Nat) (rl : RateLimiter) (now : Nat) (host : String) :
    Option Nat × RateLimiter :=
  if rl.poisoned then (none, rl)
  else
    let entry := (rl.state host).getD ⟨now, rl.defaultInterval⟩
    let wait := if entry.nextReady ≤ now then 0 else entry.nextReady - now
    let base := max entry.nextReady now
    if base + entry.interval ≤ last then
      (some wait, { rl with
        state := rl.state.insert host
          { entry with nextReady := base + entry.interval } })
    else
      (none, { rl with
        state := rl.state.insert host entry
        poisoned := true })

end RateLimiter

/-- A call of the limiter. -/
inductive RateCall where
  | setInterval (now : Nat) (host : String) (interval : Nat)
  | acquireWait (now : Nat) (host : String)

/-- The host of a call. -/
def RateCall.host : RateCall → String
  | .setInterval _ host _ => host
  | .acquireWait _ host => host

/-- The limiter after a call. -/
def RateLimiter.call (last : Nat) (rl : RateLimiter) : RateCall → RateLimiter
  | .setInterval now host interval => (rl.setInterval now host interval).2
  | .acquireWait now host => (rl.acquireWait last now host).2

/-- The limiter after some calls. -/
def RateLimiter.after (last : Nat) (rl : RateLimiter) (calls : List RateCall) :
    RateLimiter := calls.foldl (RateLimiter.call last) rl

/-- A slot: what the clock read, when the slot is, and the interval in force
when it was taken. -/
structure Slot where
  now : Nat
  start : Nat
  interval : Nat
  deriving DecidableEq

/-- The slot that a call takes for a host. -/
def RateLimiter.slot? (last : Nat) (rl : RateLimiter) (host : String) :
    RateCall → Option Slot
  | .setInterval _ _ _ => none
  | .acquireWait now host' =>
      if host' = host then
        (rl.acquireWait last now host).1.map fun wait =>
          ⟨now, now + wait, rl.intervalOf host⟩
      else none

/-- The slots that calls take for a host. -/
def RateLimiter.slots (last : Nat) (rl : RateLimiter) (host : String) :
    List RateCall → List Slot
  | [] => []
  | c :: calls => (rl.slot? last host c).toList
      ++ (rl.call last c).slots last host calls

end SapAutomate.Ingest
