/-
What the statistics of a scheduler say, whatever calls run side by side.

A call fires jobs one after the other, and each firing leaves the same
four exchanges (`Firing.exchanges`); so the exchanges of a call that has
ended spell out its firings, and these are of the enabled jobs it was
for, in order (`body_fires`). The statistics are what counting the
reports of all calls one by one leaves (`scheduler_counts`): no report
is lost or counted twice, and no job that is disabled is ever given to
the executor.
-/
import SapAutomate.Scheduler.Fire

namespace SapAutomate.Scheduler

open Interact

-- =============================================================== firings

/-- A job fired: when, for how long, and what came of it. -/
structure Firing where
  job : ScheduledJob
  firedAtMs : Nat
  durationMs : Nat
  result : Except String String

namespace Firing

def report (f : Firing) : ScheduleReport :=
  reportOf f.job f.firedAtMs f.durationMs f.result

/-- What it leaves. -/
def exchanges (f : Firing) : List (Exchange SchedulerIface) :=
  [⟨.now, f.firedAtMs⟩, ⟨.invoke f.job, f.result⟩, ⟨.elapsed, f.durationMs⟩,
    ⟨.count f.report, ()⟩]

end Firing

/-- The jobs that a call is to fire. -/
def SchedulerCall.due (jobs : List ScheduledJob) :
    SchedulerCall → List ScheduledJob
  | .fireOnce idx => (jobs[idx]?).toList.filter ScheduledJob.enabled
  | .fireAllNow => jobs.filter ScheduledJob.enabled

variable {jobs : List ScheduledJob}

/-- A call of `fire_once` fires its job, if it is there and enabled. -/
theorem fireOnce_fires (jobs : List ScheduledJob) (idx : Nat) :
    (fireOnce jobs idx).Sat fun tr report => ∃ fs : List Firing,
      fs.map Firing.job = (jobs[idx]?).toList.filter ScheduledJob.enabled
        ∧ tr = fs.flatMap Firing.exchanges
        ∧ report.toList = fs.map Firing.report := by
  unfold fireOnce
  cases jobs[idx]? with
  | none => exact ⟨[], rfl, rfl, rfl⟩
  | some job =>
      show Prog.Sat (if _ then _ else _) _
      by_cases henabled : job.enabled = true
      · rw [if_pos henabled]
        intro firedAtMs result durationMs u
        refine ⟨[⟨job, firedAtMs, durationMs, result⟩], ?_, rfl, rfl⟩
        simp [henabled]
      · rw [if_neg henabled]
        refine ⟨[], ?_, rfl, rfl⟩
        simp [henabled]

/-- The loop fires those of its indices in turn. -/
theorem fireEach_fires (jobs : List ScheduledJob) (indices : List Nat) :
    (fireEach jobs indices).Sat fun tr reports => ∃ fs : List Firing,
      fs.map Firing.job = indices.flatMap (fun idx =>
          (jobs[idx]?).toList.filter ScheduledJob.enabled)
        ∧ tr = fs.flatMap Firing.exchanges
        ∧ reports = fs.map Firing.report := by
  induction indices with
  | nil => exact ⟨[], rfl, rfl, rfl⟩
  | cons idx rest ih =>
      unfold fireEach
      rw [Prog.sat_bind]
      refine (fireOnce_fires jobs idx).mono fun tr report h => ?_
      obtain ⟨fs, hjobs, rfl, hreport⟩ := h
      rw [Prog.sat_bind]
      refine ih.mono fun tr' reports h' => ?_
      obtain ⟨fs', hjobs', rfl, rfl⟩ := h'
      refine ⟨fs ++ fs', ?_, ?_, ?_⟩
      · rw [List.map_append, hjobs, hjobs', List.flatMap_cons]
      · rw [List.flatMap_append, List.append_nil]
      · rw [List.map_append, hreport]

/-- All indices are all jobs. -/
theorem range_enabled (jobs : List ScheduledJob) :
    (List.range jobs.length).flatMap (fun idx =>
        (jobs[idx]?).toList.filter ScheduledJob.enabled)
      = jobs.filter ScheduledJob.enabled := by
  induction jobs using List.reverseRecOn with
  | nil => rfl
  | append_singleton jobs job ih =>
      rw [List.length_append, List.length_singleton, List.range_succ,
        List.flatMap_append, List.filter_append, ← ih]
      congr 1
      · refine List.flatMap_congr fun idx hidx => ?_
        rw [List.getElem?_append_left (List.mem_range.mp hidx)]
      · simp

/-- What a call fires, leaves and reports. -/
theorem body_fires (jobs : List ScheduledJob) (call : SchedulerCall) :
    (call.body jobs).Sat fun tr reports => ∃ fs : List Firing,
      fs.map Firing.job = call.due jobs
        ∧ tr = fs.flatMap Firing.exchanges
        ∧ reports = fs.map Firing.report := by
  cases call with
  | fireOnce idx =>
      unfold SchedulerCall.body
      rw [Prog.sat_bind]
      refine (fireOnce_fires jobs idx).mono fun tr report h => ?_
      obtain ⟨fs, hjobs, rfl, hreport⟩ := h
      exact ⟨fs, hjobs, List.append_nil _, hreport⟩
  | fireAllNow =>
      refine (fireEach_fires jobs _).mono fun tr reports h => ?_
      rw [range_enabled] at h
      exact h

/-- A question that gives a job to the executor gives one that is declared
and enabled. -/
def InvokesEnabled (jobs : List ScheduledJob) (q : SchedulerQuery) : Prop :=
  ∀ job, q = .invoke job → job ∈ jobs ∧ job.enabled = true

theorem fireOnce_asks (jobs : List ScheduledJob) (idx : Nat) :
    (fireOnce jobs idx).Asks (InvokesEnabled jobs) := by
  unfold fireOnce
  cases hjob : jobs[idx]? with
  | none => trivial
  | some job =>
      show Prog.Asks _ (if _ then _ else _)
      by_cases henabled : job.enabled = true
      · rw [if_pos henabled]
        refine ⟨fun _ h => (nomatch h), fun _ => ⟨?_, fun _ =>
          ⟨fun _ h => (nomatch h), fun _ =>
          ⟨fun _ h => (nomatch h), fun _ => trivial⟩⟩⟩⟩
        intro job' h
        rw [← SchedulerQuery.invoke.inj h]
        exact ⟨List.mem_of_getElem? hjob, henabled⟩
      · rw [if_neg henabled]
        trivial

theorem fireEach_asks (jobs : List ScheduledJob) (indices : List Nat) :
    (fireEach jobs indices).Asks (InvokesEnabled jobs) := by
  induction indices with
  | nil => trivial
  | cons idx rest ih =>
      unfold fireEach
      exact Prog.asks_bind (fireOnce_asks jobs idx) fun _ =>
        Prog.asks_bind ih fun _ => trivial

/-- A call gives the executor no other jobs. -/
theorem body_asks (jobs : List ScheduledJob) (call : SchedulerCall) :
    (call.body jobs).Asks (InvokesEnabled jobs) := by
  cases call with
  | fireOnce idx =>
      exact Prog.asks_bind (fireOnce_asks jobs idx) fun _ => trivial
  | fireAllNow => exact fireEach_asks jobs _

-- ============================================================== counting

/-- The report that an exchange has counted. -/
def counted : Exchange SchedulerIface → Option ScheduleReport
  | ⟨.count report, _⟩ => some report
  | _ => none

abbrev SchedulerPool : Type :=
  Pool SchedulerIface SchedulerCall Outside SchedulerStats
    (List ScheduleReport)

/-- The reports counted in a run, in order. -/
def countedIn (p : SchedulerPool) : List ScheduleReport :=
  p.trace.filterMap fun m => counted m.exchange

/-- What the statistics are after these reports. -/
def statsOf (jobs : List ScheduledJob) (reports : List ScheduleReport) :
    SchedulerStats where
  jobsDeclared := jobs.length
  fires := reports.length
  errors := (reports.filter fun r => !r.ok).length
  last := reports.getLast?

theorem statsOf_snoc (jobs : List ScheduledJob) (reports : List ScheduleReport)
    (report : ScheduleReport) :
    statsOf jobs (reports ++ [report])
      = (statsOf jobs reports).count report := by
  unfold statsOf SchedulerStats.count
  cases hok : report.ok with
  | true => simp [hok]
  | false => simp [hok]

/-- What a question leaves counted. -/
theorem answer_counts (w : Outside) (q : SchedulerIface.Query)
    (reports : List ScheduleReport) :
    (schedulerAnswer w q (statsOf jobs reports)).2
      = statsOf jobs (reports
        ++ (counted ⟨q, (schedulerAnswer w q (statsOf jobs reports)).1⟩).toList) := by
  cases q with
  | count report => exact (statsOf_snoc jobs reports report).symm
  | now => simp [schedulerAnswer, counted]
  | invoke job => simp [schedulerAnswer, counted]
  | elapsed => simp [schedulerAnswer, counted]

/-- A call counts the reports it returns, and no others. -/
theorem counted_exchanges (fs : List Firing) :
    (fs.flatMap Firing.exchanges).filterMap counted = fs.map Firing.report := by
  induction fs with
  | nil => rfl
  | cons f fs ih =>
      rw [List.flatMap_cons, List.filterMap_append, ih, List.map_cons]
      rfl

/-- How many an exchange has counted: one or none. -/
def countOf (x : Exchange SchedulerIface) : Nat := (counted x).toList.length

theorem total_countOf {β : Type} (f : β → Exchange SchedulerIface)
    (xs : List β) :
    total (fun x => countOf (f x)) xs
      = (xs.filterMap fun x => counted (f x)).length := by
  induction xs with
  | nil => rfl
  | cons x xs ih =>
      rw [total_cons, ih]
      unfold countOf
      cases hx : counted (f x) with
      | none => simp [hx]
      | some report =>
          simp only [List.filterMap_cons, hx, Option.toList_some,
            List.length_cons, List.length_nil]
          omega

/-- What a call that has ended leaves: its firings. -/
theorem ended_fired {p : SchedulerPool}
    (h : p.Tracked (SchedulerCall.body jobs)) {i : Nat}
    {t : Task SchedulerIface SchedulerCall (List ScheduleReport)}
    {reports : List ScheduleReport} (ht : p.tasks[i]? = some t)
    (hdone : t.prog = .done reports) :
    ∃ fs : List Firing, fs.map Firing.job = t.call.due jobs
      ∧ p.own i = fs.flatMap Firing.exchanges
      ∧ reports = fs.map Firing.report
      ∧ (p.own i).filterMap counted = reports := by
  obtain ⟨fs, hjobs, hown, hreports⟩ :=
    h.result ht hdone (body_fires jobs t.call)
  refine ⟨fs, hjobs, hown, hreports, ?_⟩
  rw [hown, counted_exchanges, hreports]

/-- Where all calls have ended, each has counted what it was to fire. -/
theorem ended_total {p : SchedulerPool}
    (h : p.Tracked (SchedulerCall.body jobs))
    (hdone : ∀ t ∈ p.tasks, ∃ reports, t.prog = .done reports) :
    (countedIn p).length
      = total (fun t => (t.call.due jobs).length) p.tasks := by
  have hsum := p.total_own countOf h.known
  rw [total_countOf] at hsum
  rw [countedIn, ← hsum,
    ← total_zipIdx (fun t => (t.call.due jobs).length) p.tasks 0]
  refine total_congr fun ti hti => ?_
  have hget : p.tasks[ti.2]? = some ti.1 := List.mem_zipIdx_iff_getElem?.mp hti
  obtain ⟨reports, hprog⟩ := hdone ti.1 (List.mem_of_getElem? hget)
  obtain ⟨fs, hjobs, -, hreports, hcounted⟩ := ended_fired h hget hprog
  rw [total_countOf (fun x => x), hcounted, hreports, ← hjobs,
    List.length_map, List.length_map]

/-- In every run of calls side by side, the statistics are those of the
reports counted so far; what has been given to the executor is declared
and enabled; a call that has ended has fired the enabled jobs it was for,
in order, each once, and has counted and returned a report of each; and
where all have ended, there are as many fires as there were jobs to
fire. -/
theorem scheduler_counts (jobs : List ScheduledJob) (p : SchedulerPool)
    (h : (schedulerMachine jobs).Reachable p) :
    p.shared = statsOf jobs (countedIn p)
    ∧ (∀ i job result,
      (⟨.invoke job, result⟩ : Exchange SchedulerIface) ∈ p.own i →
        job ∈ jobs ∧ job.enabled = true)
    ∧ (∀ i t reports, p.tasks[i]? = some t → t.prog = .done reports →
      ∃ fs : List Firing, fs.map Firing.job = t.call.due jobs
        ∧ p.own i = fs.flatMap Firing.exchanges
        ∧ reports = fs.map Firing.report
        ∧ (p.own i).filterMap counted = reports)
    ∧ ((∀ t ∈ p.tasks, ∃ reports, t.prog = .done reports) →
      p.shared.fires
        = total (fun t => (t.call.due jobs).length) p.tasks) := by
  have htracked := poolMachine_tracked h
  have hstats : p.shared = statsOf jobs (countedIn p) := by
    refine h.invariant (I := fun p => p.shared = statsOf jobs (countedIn p))
      rfl ?_
    intro a p p' hp hstep
    rcases poolMachine_step hstep
      with ⟨call, -, rfl⟩ | ⟨i, w, t, q, k, -, -, -, rfl⟩
    · exact hp
    · show (schedulerAnswer w q p.shared).2 = statsOf jobs (countedIn _)
      unfold countedIn at hp ⊢
      rw [List.filterMap_append, hp]
      exact answer_counts w q _
  refine ⟨hstats, fun i job result hx => ?_, fun i t reports ht hdone => ?_,
    fun hdone => ?_⟩
  · obtain ⟨m, hm, rfl, -⟩ := Pool.mem_own.mp hx
    obtain ⟨t, ht⟩ : ∃ t, p.tasks[m.task]? = some t :=
      ⟨_, List.getElem?_eq_getElem (htracked.known m hm)⟩
    exact (body_asks jobs t.call).asked (htracked.left _ t ht) _ hx job rfl
  · exact ended_fired htracked ht hdone
  · rw [hstats]
    exact ended_total htracked hdone

/-- A job, and a run that fires it once while its executor is down. -/
def pollJob : ScheduledJob where
  name := "poll"
  schedule := .everyNMinutes 5
  tool := "tool_kb_search"
  arguments := .null
  channel := none
  enabled := true

def pollRun : List (PoolAct SchedulerCall Outside) :=
  .spawn (.fireOnce 0)
    :: List.replicate 4 (.resume 0 ⟨7, 3, fun _ => .error "no route"⟩)

/-- One call, of a job that fails. -/
theorem scheduler_counts_one :
    ∃ p : SchedulerPool, (schedulerMachine [pollJob]).Reachable p
      ∧ p.shared = ⟨1, 1, 1, some ⟨"poll", 7, 3, false, "no route"⟩⟩
      ∧ p.shared = statsOf [pollJob] (countedIn p)
      ∧ p.shared.fires
        = total (fun t => (t.call.due [pollJob]).length) p.tasks := by
  refine ⟨_, ⟨pollRun, rfl⟩, rfl, ?_⟩
  have h := scheduler_counts [pollJob] _ ⟨pollRun, rfl⟩
  refine ⟨h.1, h.2.2.2 ?_⟩
  intro t ht
  cases List.mem_singleton.mp ht
  exact ⟨_, rfl⟩

end SapAutomate.Scheduler
