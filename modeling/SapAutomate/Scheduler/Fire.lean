/-
Firing the jobs of a scheduler (`sap-automate-scheduler/src/lib.rs`): a
job that is enabled is given to the executor, and what came of it is
reported, and counted under the lock of the statistics.

`fire_once` and `fire_all_now` are programs: they ask the clocks, the
executor and the lock. So calls of either can run side by side
(`schedulerMachine`). The counters are unbounded, where those of the
source have 64 bits.
-/
import SapAutomate.Json.Value
import SapAutomate.Lib.Pool
import SapAutomate.Scheduler.Schedule

namespace SapAutomate.Scheduler

open Interact Json

/-- `ScheduledJob`. -/
structure ScheduledJob where
  name : String
  schedule : Schedule
  tool : String
  arguments : Value
  channel : Option String
  enabled : Bool

/-- `ScheduleReport`. -/
structure ScheduleReport where
  job : String
  firedAtMs : Nat
  durationMs : Nat
  ok : Bool
  summary : String
  deriving DecidableEq

/-- `SchedulerStats`. -/
structure SchedulerStats where
  jobsDeclared : Nat
  fires : Nat
  errors : Nat
  last : Option ScheduleReport
  deriving DecidableEq

/-- What a call asks: the time since the epoch, `JobExecutor::invoke`, the
time since it began, and to count a report under the lock. -/
inductive SchedulerQuery where
  | now
  | invoke (job : ScheduledJob)
  | elapsed
  | count (report : ScheduleReport)

abbrev SchedulerIface : Iface where
  Query := SchedulerQuery
  Reply
    | .now => Nat
    | .invoke _ => Except String String
    | .elapsed => Nat
    | .count _ => Unit

/-- The outcome of an invocation, as it is reported. -/
def outcomeOf : Except String String → Bool × String
  | .ok s => (true, s)
  | .error e => (false, e)

/-- The report of a firing. -/
def reportOf (job : ScheduledJob) (firedAtMs durationMs : Nat)
    (result : Except String String) : ScheduleReport where
  job := job.name
  firedAtMs := firedAtMs
  durationMs := durationMs
  ok := (outcomeOf result).1
  summary := (outcomeOf result).2

/-- `Scheduler::fire_once`. -/
def fireOnce (jobs : List ScheduledJob) (idx : Nat) :
    Prog SchedulerIface (Option ScheduleReport) :=
  match jobs[idx]? with
  | none => .done none
  | some job =>
      if job.enabled then
        .ask .now fun firedAtMs =>
        .ask (.invoke job) fun result =>
        .ask .elapsed fun durationMs =>
        .ask (.count (reportOf job firedAtMs durationMs result)) fun _ =>
        .done (some (reportOf job firedAtMs durationMs result))
      else .done none

/-- The loop of `fire_all_now` over what is left of the indices. -/
def fireEach (jobs : List ScheduledJob) :
    List Nat → Prog SchedulerIface (List ScheduleReport)
  | [] => .done []
  | idx :: rest => do
      let report ← fireOnce jobs idx
      let reports ← fireEach jobs rest
      return report.toList ++ reports

/-- A call of the scheduler. -/
inductive SchedulerCall where
  | fireOnce (idx : Nat)
  | fireAllNow

/-- `Scheduler::fire_once`, or `Scheduler::fire_all_now`: its reports. -/
def SchedulerCall.body (jobs : List ScheduledJob) :
    SchedulerCall → Prog SchedulerIface (List ScheduleReport)
  | .fireOnce idx => do
      let report ← Scheduler.fireOnce jobs idx
      return report.toList
  | .fireAllNow => fireEach jobs (List.range jobs.length)

namespace SchedulerStats

/-- `Scheduler::new`. -/
def new (jobs : List ScheduledJob) : SchedulerStats := ⟨jobs.length, 0, 0, none⟩

/-- What happens under the lock. -/
def count (s : SchedulerStats) (report : ScheduleReport) : SchedulerStats :=
  { s with
    fires := s.fires + 1
    errors := if report.ok then s.errors else s.errors + 1
    last := some report }

end SchedulerStats

/-- What clocks and executor say at a moment. -/
structure Outside where
  now : Nat
  elapsed : Nat
  invoke : ScheduledJob → Except String String

/-- A question answered: only a report that is counted changes the
statistics. -/
def schedulerAnswer (w : Outside) :
    (q : SchedulerIface.Query) → SchedulerStats →
      SchedulerIface.Reply q × SchedulerStats
  | .now, s => (w.now, s)
  | .invoke job, s => (w.invoke job, s)
  | .elapsed, s => (w.elapsed, s)
  | .count report, s => ((), s.count report)

/-- Calls side by side, over the jobs of one scheduler. -/
def schedulerMachine (jobs : List ScheduledJob) :
    Machine (PoolAct SchedulerCall Outside)
      (Pool SchedulerIface SchedulerCall Outside SchedulerStats
        (List ScheduleReport)) :=
  poolMachine (.always schedulerAnswer) (SchedulerCall.body jobs)
    (.new jobs)

end SapAutomate.Scheduler
