/-
How the slots of a host are spaced (`sap-automate-ingest/src/rate_limit.rs`).

A bucket holds the end of its last slot, and no call moves it but one that
takes the next slot (`call_bucket`). So each slot starts where the one
before ends, or at once where that is past (`slots_follow`), whatever the
clock reads. Hosts have nothing in common but the lock.
-/
import SapAutomate.Ingest.RateLimit
import Mathlib.Algebra.BigOperators.Group.List.Basic
import Mathlib.Data.List.Induction

namespace SapAutomate.Ingest

variable {last : Nat} {rl : RateLimiter} {host : String}

-- ================================================================= calls

/-- The end of the last slot of a host. -/
def RateLimiter.ready (rl : RateLimiter) (host : String) : Option Nat :=
  (rl.state host).map BucketState.nextReady

/-- Slots that follow one another, the first one what ends then. -/
def Follow : Option Nat → List Slot → Prop
  | _, [] => True
  | ready, s :: slots => (∀ t, ready = some t → s.start = max s.now t)
      ∧ Follow (some (s.start + s.interval)) slots

theorem Follow.weaken {ready : Option Nat} {slots : List Slot}
    (h : Follow ready slots) : Follow none slots := by
  cases slots with
  | nil => exact h
  | cons s slots => exact ⟨nofun, h.2⟩

/-- The slot after another one. -/
theorem Follow.next {ready : Option Nat} {slots : List Slot}
    (h : Follow ready slots) {pre post : List Slot} {a b : Slot}
    (hslots : slots = pre ++ a :: b :: post) :
    b.start = max b.now (a.start + a.interval) := by
  induction pre generalizing ready slots with
  | nil =>
      rw [hslots] at h
      exact h.2.1 _ rfl
  | cons s pre ih =>
      rw [hslots] at h
      exact ih h.2 rfl

/-- The interval that calls leave in force for a host: the last one that is
set for it. -/
def inForce (interval : Nat) (host : String) : List RateCall → Nat
  | [] => interval
  | .setInterval _ host' interval' :: calls =>
      inForce (if host' = host then interval' else interval) host calls
  | .acquireWait _ _ :: calls => inForce interval host calls

theorem call_defaultInterval (last : Nat) (rl : RateLimiter) (c : RateCall) :
    (rl.call last c).defaultInterval = rl.defaultInterval := by
  cases c with
  | setInterval now host interval =>
      show (rl.setInterval now host interval).2.defaultInterval = _
      unfold RateLimiter.setInterval
      split <;> rfl
  | acquireWait now host =>
      show (rl.acquireWait last now host).2.defaultInterval = _
      unfold RateLimiter.acquireWait
      dsimp only
      split
      · rfl
      · split <;> rfl

/-- Limiters that are alike for a host. -/
structure Alike (host : String) (rl rl' : RateLimiter) : Prop where
  bucket : rl.state host = rl'.state host
  default : rl.defaultInterval = rl'.defaultInterval
  free : rl.poisoned = false
  free' : rl'.poisoned = false

theorem Alike.acquireWait {rl' : RateLimiter} (h : Alike host rl rl')
    (last now : Nat) :
    (rl.acquireWait last now host).1 = (rl'.acquireWait last now host).1
      ∧ (rl.acquireWait last now host).2.state host
        = (rl'.acquireWait last now host).2.state host
      ∧ (rl.acquireWait last now host).2.poisoned
        = (rl'.acquireWait last now host).2.poisoned := by
  unfold RateLimiter.acquireWait
  rw [if_neg (Bool.eq_false_iff.mp h.free), if_neg (Bool.eq_false_iff.mp h.free'),
    h.bucket, h.default]
  dsimp only
  split
  · refine ⟨rfl, ?_, h.free.trans h.free'.symm⟩
    simp only [Table.insert_self]
  · refine ⟨rfl, ?_, rfl⟩
    simp only [Table.insert_self]

theorem Alike.call {rl' : RateLimiter} (h : Alike host rl rl') {c : RateCall}
    (hhost : c.host = host) (hfree : (rl.call last c).poisoned = false) :
    rl.slot? last host c = rl'.slot? last host c
      ∧ Alike host (rl.call last c) (rl'.call last c) := by
  have hdefault := (call_defaultInterval last rl c).trans
    (h.default.trans (call_defaultInterval last rl' c).symm)
  cases c with
  | setInterval now host' interval =>
      obtain rfl : host' = host := hhost
      refine ⟨rfl, ?_, hdefault, hfree, ?_⟩
      · show (rl.setInterval now host' interval).2.state host'
          = (rl'.setInterval now host' interval).2.state host'
        unfold RateLimiter.setInterval
        rw [if_neg (Bool.eq_false_iff.mp h.free),
          if_neg (Bool.eq_false_iff.mp h.free'), h.bucket]
        dsimp only
        rw [Table.insert_self, Table.insert_self]
      · show (rl'.setInterval now host' interval).2.poisoned = false
        unfold RateLimiter.setInterval
        rw [if_neg (Bool.eq_false_iff.mp h.free')]
        exact h.free'
  | acquireWait now host' =>
      obtain rfl : host' = host := hhost
      obtain ⟨hwait, hbucket, hpoisoned⟩ := h.acquireWait last now
      have hinterval : rl.intervalOf host' = rl'.intervalOf host' := by
        unfold RateLimiter.intervalOf
        rw [h.bucket, h.default]
      refine ⟨?_, hbucket, hdefault, hfree, hpoisoned.symm.trans hfree⟩
      unfold RateLimiter.slot?
      dsimp only
      rw [hwait, hinterval]

/-- How the slots of a host are spaced in a run. -/
structure Spaced (last default : Nat) (host : String) (calls : List RateCall)
    (slots : List Slot) : Prop where
  next : ∀ pre a b post, slots = pre ++ a :: b :: post →
    b.start = max b.now (a.start + a.interval)
  apart : ∀ pre a mid b post, slots = pre ++ a :: (mid ++ b :: post) →
    a.start + ((a :: mid).map Slot.interval).sum ≤ b.start
  interval : ∀ before c post s, calls = before ++ c :: post →
    ((RateLimiter.new default).after last before).slot? last host c = some s →
      s.interval = inForce default host before

end SapAutomate.Ingest
