/-
When a job fires next (`sap-automate-scheduler/src/lib.rs`): arithmetic on
the seconds since the epoch, with days of 86400 seconds and weeks of seven
days.
-/
import Mathlib.Order.Basic
import Mathlib.Algebra.GroupWithZero.Nat

namespace SapAutomate.Scheduler

/-- `Schedule`. -/
inductive Schedule where
  | everyNSeconds (secs : Nat)
  | everyNMinutes (mins : Nat)
  | hourly (minute : Nat)
  | daily (hour minute : Nat)
  | weekly (weekday hour minute : Nat)
  | quarterly (day hour minute : Nat)
  deriving DecidableEq

namespace Schedule

/-- `target_secs`: the second of the day. -/
def targetSecs (hour minute : Nat) : Nat := (hour * 3600 + minute * 60) % 86400

/-- `now_day`: 1 is Monday, 7 is Sunday. -/
def nowDay (nowSecs : Nat) : Nat := (nowSecs / 86400 + 3) % 7 + 1

/-- `day_offset`, before the target day is put off by a week. -/
def dayOffset (nowDay target : Nat) : Nat :=
  if nowDay ≤ target then target - nowDay else 7 - (nowDay - target)

/-- `Schedule::next_in`, in seconds. -/
def nextIn : Schedule → Nat → Nat
  | .everyNSeconds secs, _ => secs
  | .everyNMinutes mins, _ => mins * 60 % 2 ^ 64
  | .hourly minute, nowSecs =>
      let m := min minute 59
      let nowMin := nowSecs / 60 % 60
      let delta := if nowMin < m then m - nowMin else 60 - (nowMin - m)
      delta * 60
  | .daily hour minute, nowSecs =>
      let target := targetSecs hour minute
      let nowInDay := nowSecs % 86400
      if nowInDay < target then target - nowInDay
      else 86400 - (nowInDay - target)
  | .weekly weekday hour minute, nowSecs =>
      let target := min (max weekday 1) 7
      let targetSecs := targetSecs hour minute
      let nowInDay := nowSecs % 86400
      let offset := dayOffset (nowDay nowSecs) target
      -- on the target day but past the hour
      let offset := if offset = 0 ∧ nowInDay ≥ targetSecs then 7 else offset
      offset * 86400 + (targetSecs - nowInDay)
  | .quarterly _ _ _, _ => 90 * 86400

end Schedule

end SapAutomate.Scheduler
