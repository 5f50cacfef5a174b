/-
Instants that recur: the next one after a given time, and a sleeper who
wakes at each.

`isLeast_nextAt` computes the next instant that is congruent to a phase.
`woken_once` is the rule for a sleeper: one who always wakes at the next
instant wakes at each of them, and at each once.
-/
import Mathlib.Order.Bounds.Basic
import Mathlib.Order.WellFounded
import Mathlib.Logic.Function.Iterate

namespace Recurrence

/-- The next time after `now` that is at this phase of the period. -/
def nextAt (period phase now : ℕ) : ℕ :=
  if now % period < phase then now + (phase - now % period)
  else now + (period - (now % period - phase))

/-- It is the next one. -/
theorem isLeast_nextAt {period phase : ℕ} (hphase : phase < period)
    (now : ℕ) :
    IsLeast {t | now < t ∧ t % period = phase} (nextAt period phase now) := by
  have hnow := Nat.div_add_mod now period
  have hrest : now % period < period := Nat.mod_lt _ (by omega)
  have hnext : ∃ q, nextAt period phase now = period * q + phase
      ∧ period * q + phase ≤ now + period ∧ now < period * q + phase := by
    unfold nextAt
    by_cases hlt : now % period < phase
    · rw [if_pos hlt]
      exact ⟨now / period, by omega, by omega, by omega⟩
    · rw [if_neg hlt]
      refine ⟨now / period + 1, ?_, ?_, ?_⟩
      · rw [Nat.mul_succ]
        omega
      · rw [Nat.mul_succ]
        omega
      · rw [Nat.mul_succ]
        omega
  obtain ⟨q, hq, hle, hlt⟩ := hnext
  rw [hq]
  constructor
  · refine ⟨hlt, ?_⟩
    rw [Nat.mul_add_mod, Nat.mod_eq_of_lt hphase]
  · rintro t ⟨hnowt, ht⟩
    have htq := Nat.div_add_mod t period
    rw [ht] at htq
    by_contra hlater
    have hq' : t / period < q := by
      refine Nat.lt_of_mul_lt_mul_left (a := period) ?_
      omega
    have hmul : period * (t / period + 1) ≤ period * q :=
      Nat.mul_le_mul_left period hq'
    rw [Nat.mul_succ] at hmul
    omega

section Sleeper

variable {next : ℕ → ℕ} {M : ℕ → Prop} {now : ℕ}

/-- A sleeper who always wakes at the next instant wakes at each of them
once. -/
theorem woken_once
    (h : ∀ n, IsLeast {t | next^[n] now < t ∧ M t} (next^[n + 1] now))
    {t : ℕ} (ht : now < t) (hM : M t) : ∃! n, next^[n + 1] now = t := by
  have hmono : StrictMono fun n => next^[n] now :=
    strictMono_nat_of_lt_succ fun n => (h n).1.1
  -- the last time before `t` that the sleeper is awake
  have hbound : ∀ n, n ≤ next^[n] now := fun n => StrictMono.le_apply hmono
  obtain ⟨n, hn, hlast⟩ : ∃ n, next^[n] now < t ∧ t ≤ next^[n + 1] now := by
    by_contra hnone
    have hall : ∀ n, next^[n] now < t := by
      intro n
      induction n with
      | zero => exact ht
      | succ n ih =>
          by_contra hle
          exact hnone ⟨n, ih, not_lt.mp hle⟩
    exact absurd (hall t) (not_lt.mpr (hbound t))
  refine ⟨n, le_antisymm ((h n).2 ⟨hn, hM⟩) hlast, ?_⟩
  intro m hm
  have heq : next^[m + 1] now = next^[n + 1] now :=
    hm.trans (le_antisymm hlast ((h n).2 ⟨hn, hM⟩))
  have hsucc : m + 1 = n + 1 := hmono.injective heq
  omega

end Sleeper

end Recurrence
