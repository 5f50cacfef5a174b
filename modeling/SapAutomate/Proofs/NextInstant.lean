/-
When `next_in` is the time to the next instant of a schedule.

A daily schedule always fires on time. An hourly one counts whole minutes,
so it fires late unless it is asked at the start of a minute; a weekly one
gives a later day the full days in between and nothing less, so it fires
late where the second of the day is already past. Once a schedule has
fired on time it goes on to do so.
-/
import SapAutomate.Scheduler.Schedule
import SapAutomate.Lib.Recurrence

namespace SapAutomate.Scheduler

open Recurrence

namespace Schedule

-- ============================================================== instants

/-- The instants of a schedule: the start of a minute of each hour, of a
minute of each day, of a minute of one day of the week. -/
def Matches : Schedule → Nat → Prop
  | .hourly minute, t => t % 3600 = minute * 60
  | .daily hour minute, t => t % 86400 = hour * 3600 + minute * 60
  | .weekly weekday hour minute, t =>
      nowDay t = weekday ∧ t % 86400 = hour * 3600 + minute * 60
  | _, _ => False

/-- An hourly, daily or weekly schedule with its fields in range. -/
def InRange : Schedule → Prop
  | .hourly minute => minute < 60
  | .daily hour minute => hour < 24 ∧ minute < 60
  | .weekly weekday hour minute =>
      1 ≤ weekday ∧ weekday ≤ 7 ∧ hour < 24 ∧ minute < 60
  | _ => False

/-- The time from one instant to the next. -/
def period : Schedule → Nat
  | .hourly _ => 3600
  | .daily _ _ => 86400
  | .weekly _ _ _ => 604800
  | _ => 0

/-- The phase of the instants in it. -/
def phase : Schedule → Nat
  | .hourly minute => minute * 60
  | .daily hour minute => hour * 3600 + minute * 60
  | .weekly weekday hour minute =>
      (weekday + 3) % 7 * 86400 + (hour * 3600 + minute * 60)
  | _ => 0

/-- A time at which `next_in` gives the next instant. -/
def OnTime : Schedule → Nat → Prop
  | .hourly _, now => now % 60 = 0
  | .weekly _ hour minute, now => now % 86400 ≤ hour * 3600 + minute * 60
  | _, _ => True

theorem InRange.phase_lt {s : Schedule} (h : s.InRange) :
    s.phase < s.period := by
  cases s with
  | hourly minute =>
      simp only [InRange, phase, period] at *
      omega
  | daily hour minute =>
      simp only [InRange, phase, period] at *
      omega
  | weekly weekday hour minute =>
      simp only [InRange, phase, period] at *
      omega
  | everyNSeconds secs => cases h
  | everyNMinutes mins => cases h
  | quarterly day hour minute => cases h

/-- The instants are those at one phase. -/
theorem InRange.matches_iff {s : Schedule} (h : s.InRange) (t : Nat) :
    s.Matches t ↔ t % s.period = s.phase := by
  cases s with
  | hourly minute => exact Iff.rfl
  | daily hour minute => exact Iff.rfl
  | weekly weekday hour minute =>
      simp only [InRange, Matches, nowDay, phase, period] at *
      omega
  | everyNSeconds secs => cases h
  | everyNMinutes mins => cases h
  | quarterly day hour minute => cases h

/-- The days to the target day: from the one to the other in the week. -/
theorem dayOffset_spec {weekday : Nat} (hlow : 1 ≤ weekday) (hhigh : weekday ≤ 7)
    (now : Nat) :
    dayOffset (nowDay now) weekday < 7
      ∧ (now / 86400 % 7 + dayOffset (nowDay now) weekday = (weekday + 3) % 7
        ∨ now / 86400 % 7 + dayOffset (nowDay now) weekday
          = (weekday + 3) % 7 + 7) := by
  unfold dayOffset nowDay
  by_cases hle : (now / 86400 + 3) % 7 + 1 ≤ weekday
  · rw [if_pos hle]
    omega
  · rw [if_neg hle]
    omega

theorem nextIn_hourly {minute : Nat} (h : minute < 60) (now : Nat) :
    now + (hourly minute).nextIn now = nextAt 3600 (minute * 60) now
      ↔ now % 60 = 0 := by
  have hmin : min minute 59 = minute := by omega
  unfold nextIn nextAt
  simp only [hmin]
  by_cases hbefore : now / 60 % 60 < minute
  · rw [if_pos hbefore, if_pos (by omega)]
    omega
  · rw [if_neg hbefore]
    -- in the middle of the minute or later, or at its start
    by_cases hlt : now % 3600 < minute * 60
    · rw [if_pos hlt]
      omega
    · rw [if_neg hlt]
      omega

theorem nextIn_daily {hour minute : Nat} (hh : hour < 24) (hm : minute < 60)
    (now : Nat) :
    now + (daily hour minute).nextIn now
      = nextAt 86400 (hour * 3600 + minute * 60) now := by
  have htarget : targetSecs hour minute = hour * 3600 + minute * 60 :=
    Nat.mod_eq_of_lt (by omega)
  unfold nextIn nextAt
  simp only [htarget]
  by_cases hlt : now % 86400 < hour * 3600 + minute * 60
  · rw [if_pos hlt, if_pos hlt]
  · rw [if_neg hlt, if_neg hlt]

/-- The week: its day and the second of the day, with the target's. -/
theorem weekly_delta {now day second offset targetDay target : Nat}
    (hday : day < 7) (hsecond : second < 86400) (htarget : target < 86400)
    (hoff : offset < 7)
    (hsum : day + offset = targetDay ∨ day + offset = targetDay + 7) :
    now + ((if offset = 0 ∧ second ≥ target then 7 else offset) * 86400
          + (target - second))
        = (if day * 86400 + second < targetDay * 86400 + target then
            now + (targetDay * 86400 + target - (day * 86400 + second))
          else now + (604800
            - (day * 86400 + second - (targetDay * 86400 + target))))
      ↔ second ≤ target := by
  by_cases hsame : offset = 0
  · by_cases hpast : second ≥ target
    · rw [if_pos ⟨hsame, hpast⟩, if_neg (by omega)]
      omega
    · rw [if_neg fun h => hpast h.2, if_pos (by omega)]
      omega
  · rw [if_neg fun h => hsame h.1]
    rcases hsum with hsum | hsum
    · rw [if_pos (by omega)]
      omega
    · rw [if_neg (by omega)]
      omega

theorem nextIn_weekly {weekday hour minute : Nat} (hlow : 1 ≤ weekday)
    (hhigh : weekday ≤ 7) (hh : hour < 24) (hm : minute < 60) (now : Nat) :
    now + (weekly weekday hour minute).nextIn now
        = nextAt 604800
          ((weekday + 3) % 7 * 86400 + (hour * 3600 + minute * 60)) now
      ↔ now % 86400 ≤ hour * 3600 + minute * 60 := by
  have htarget : targetSecs hour minute = hour * 3600 + minute * 60 :=
    Nat.mod_eq_of_lt (by omega)
  have hclamp : min (max weekday 1) 7 = weekday := by omega
  obtain ⟨hoff, hsum⟩ := dayOffset_spec hlow hhigh now
  have hnow : now % 604800 = now / 86400 % 7 * 86400 + now % 86400 := by omega
  unfold nextIn nextAt
  simp only [htarget, hclamp, hnow]
  exact weekly_delta (Nat.mod_lt _ (by omega)) (Nat.mod_lt _ (by omega))
    (by omega) hoff hsum

/-- On time, `next_in` gives the next instant, and only then. -/
theorem InRange.nextIn_eq_iff {s : Schedule} (h : s.InRange) (now : Nat) :
    now + s.nextIn now = nextAt s.period s.phase now ↔ s.OnTime now := by
  cases s with
  | hourly minute => exact nextIn_hourly h now
  | daily hour minute => exact iff_of_true (nextIn_daily h.1 h.2 now) trivial
  | weekly weekday hour minute =>
      exact nextIn_weekly h.1 h.2.1 h.2.2.1 h.2.2.2 now
  | everyNSeconds secs => cases h
  | everyNMinutes mins => cases h
  | quarterly day hour minute => cases h

/-- An instant of a schedule is a time it is on time at. -/
theorem Matches.onTime {s : Schedule} {t : Nat} (h : s.Matches t) :
    s.OnTime t := by
  cases s with
  | hourly minute =>
      simp only [Matches, OnTime] at *
      omega
  | weekly weekday hour minute => exact le_of_eq h.2
  | daily hour minute => trivial
  | everyNSeconds secs => trivial
  | everyNMinutes mins => trivial
  | quarterly day hour minute => trivial

end Schedule

-- ================================================================= sleep

/-- A schedule that can be asked for its next instant. -/
structure Cadence where
  schedule : Schedule
  inRange : schedule.InRange

namespace Cadence

open Schedule

variable (c : Cadence)

/-- The time after a sleep. -/
def wake (now : Nat) : Nat := now + c.schedule.nextIn now

/-- Whoever sleeps for `next_in` again and again wakes at the next instant
each time, after one period at most, and so at every instant once. -/
structure Punctual (now : Nat) : Prop where
  next : ∀ n, IsLeast {t | c.wake^[n] now < t ∧ c.schedule.Matches t}
    (c.wake^[n + 1] now)
  period : ∀ n, 0 < c.schedule.nextIn (c.wake^[n] now)
    ∧ c.schedule.nextIn (c.wake^[n] now) ≤ c.schedule.period
  once : ∀ t, now < t → c.schedule.Matches t → ∃! n, c.wake^[n + 1] now = t

variable {c}

theorem isLeast_iff {now t : Nat} :
    IsLeast {t | now < t ∧ c.schedule.Matches t} t
      ↔ t = nextAt c.schedule.period c.schedule.phase now := by
  have hset : {t | now < t ∧ c.schedule.Matches t}
      = {t | now < t ∧ t % c.schedule.period = c.schedule.phase} := by
    ext t
    exact and_congr_right fun _ => c.inRange.matches_iff t
  have hleast := isLeast_nextAt c.inRange.phase_lt now
  rw [hset]
  constructor
  · exact fun h => h.unique hleast
  · intro h
    exact h ▸ hleast

/-- One sleep. -/
theorem wake_isLeast_iff {now : Nat} :
    IsLeast {t | now < t ∧ c.schedule.Matches t} (c.wake now)
      ↔ c.schedule.OnTime now :=
  isLeast_iff.trans (c.inRange.nextIn_eq_iff now)

/-- Every sleep. -/
theorem iterate_onTime {now : Nat} (h : c.schedule.OnTime now) (n : Nat) :
    c.schedule.OnTime (c.wake^[n] now) := by
  induction n with
  | zero => exact h
  | succ n ih =>
      rw [Function.iterate_succ_apply']
      exact (wake_isLeast_iff.mpr ih).1.2.onTime

theorem nextAt_le {period phase : Nat} (h : phase < period) (now : Nat) :
    nextAt period phase now ≤ now + period := by
  unfold nextAt
  have hmod : now % period < period := Nat.mod_lt _ (by omega)
  by_cases hlt : now % period < phase
  · rw [if_pos hlt]
    omega
  · rw [if_neg hlt]
    omega

/-- A schedule is punctual from now on just where it is on time now. -/
theorem punctual_iff (c : Cadence) (now : Nat) :
    c.Punctual now ↔ c.schedule.OnTime now := by
  constructor
  · intro h
    exact wake_isLeast_iff.mp (h.next 0)
  · intro h
    have hnext : ∀ n, IsLeast {t | c.wake^[n] now < t ∧ c.schedule.Matches t}
        (c.wake^[n + 1] now) := by
      intro n
      rw [Function.iterate_succ_apply']
      exact wake_isLeast_iff.mpr (iterate_onTime h n)
    refine ⟨hnext, fun n => ?_, fun t ht hM => woken_once hnext ht hM⟩
    have hwake := hnext n
    rw [Function.iterate_succ_apply'] at hwake
    have hlt : c.wake^[n] now < c.wake (c.wake^[n] now) := hwake.1.1
    have hle := (isLeast_iff.mp hwake).trans_le
      (nextAt_le c.inRange.phase_lt _)
    have hwake : c.wake (c.wake^[n] now)
        = c.wake^[n] now + c.schedule.nextIn (c.wake^[n] now) := rfl
    constructor
    · omega
    · omega

/-- In the middle of a minute an hourly schedule fires late. -/
theorem hourly_mid_minute : ¬ ∀ (c : Cadence) (now : Nat), c.Punctual now := by
  intro h
  have hleast := (h ⟨.hourly 15, show 15 < 60 by decide⟩ 1830).next 0
  have hlate : (1830 + 45 * 60) % 3600 = 15 * 60 := hleast.1.2
  exact absurd hlate (by decide)

end Cadence

end SapAutomate.Scheduler
