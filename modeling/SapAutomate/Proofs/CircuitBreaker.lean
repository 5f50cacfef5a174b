/-
How far the circuit breaker isolates, over every interleaving of calls.

# Two gaps

- `complete` does not look at the state it changes: a call admitted
  while the breaker was closed, ending well while it is open, closes it
  at once (`LateSuccess`).
- A half-open breaker keeps no record of its probe: every call that
  comes while the probe is on its way is let through too
  (`SecondProbe`).

`breaker_isolates` shows that there is no third: in a run without steps
of either kind nothing is admitted while the period lasts, and there is
one probe at a time.

# The argument

While the period that began at `T` lasts the breaker is open, since a
time no earlier than `T` (`Shut`). A failure that comes late can only
move that time forward. The breaker leaves the state through `tick`, at
a reading that is late enough, and readings only grow.
-/
import SapAutomate.Rfc.Retry

namespace SapAutomate.Rfc.CircuitBreaker

open Interact

variable {T : Type} {cfg : BreakerConfig}

/-- The calls, the breaker and the exchanges so far. -/
abbrev BreakerPool (T : Type) :=
  Pool (BreakerIface T) Unit (BreakerInstant T) CircuitInner (RfcResult T)

/-- One exchange of a run. -/
abbrev BreakerMoment (T : Type) := Moment (BreakerIface T) (BreakerInstant T)

/-- A call. -/
abbrev BreakerTask (T : Type) := Task (BreakerIface T) Unit (RfcResult T)

-- ========================================================== what happens

/-- The exchange admits its call. -/
def admits : Exchange (BreakerIface T) → Prop
  | ⟨.tick, snapshot⟩ => snapshot.state ≠ .open
  | _ => False

/-- The exchange admits its call as a probe. -/
def probes : Exchange (BreakerIface T) → Bool
  | ⟨.tick, snapshot⟩ => decide (snapshot.state = .halfOpen)
  | _ => false

/-- Call `i` was admitted as a probe and has not completed. -/
def Probing (p : BreakerPool T) (i : Nat) : Prop :=
  (∃ t : BreakerTask T, p.tasks[i]? = some t ∧ ∀ a, t.prog ≠ .done a)
    ∧ ∃ x ∈ p.own i, probes x = true

/-- At most one call is in flight as a probe. -/
def OneProbe (p : BreakerPool T) : Prop :=
  ∀ i j, Probing p i → Probing p j → i = j

/-- Whatever was admitted since `s` was admitted at `opened` plus the
open duration, or later. -/
def StaysShut (cfg : BreakerConfig) (opened : Nat) (s p : BreakerPool T) :
    Prop :=
  ∀ (n : Nat) (x : BreakerMoment T), s.trace.length ≤ n →
    p.trace[n]? = some x → admits x.exchange →
    opened + cfg.openDuration ≤ x.reading.now

-- ====================================================== kinds of steps

/-- The clock does not run back. -/
def ClockStep (a : PoolAct Unit (BreakerInstant T)) (p : BreakerPool T) :
    Prop :=
  ∀ i w, a = .resume i w → ∀ x ∈ p.trace, x.reading.now ≤ w.now

/-- A call that ended well completes while the breaker is open. -/
def LateSuccess (a : PoolAct Unit (BreakerInstant T)) (p : BreakerPool T) :
    Prop :=
  p.shared.state = .open ∧ ∃ (i : Nat) (w : BreakerInstant T)
    (t : BreakerTask T) (v : T)
    (k : Unit → Prog (BreakerIface T) (RfcResult T)),
    a = .resume i w ∧ p.tasks[i]? = some t
      ∧ t.prog = .ask (.complete (.ok v)) k

/-- The period the breaker was open for is over, or was before. -/
def PeriodOver (cfg : BreakerConfig) (now : Nat) (g : CircuitInner) : Prop :=
  g.state = .halfOpen ∨ g.state = .open
    ∧ ∃ opened, g.openedAt = some opened ∧ now - opened ≥ cfg.openDuration

/-- A call asks to be admitted after the period, with a probe still on
its way. -/
def SecondProbe (cfg : BreakerConfig)
    (a : PoolAct Unit (BreakerInstant T)) (p : BreakerPool T) : Prop :=
  ∃ (i : Nat) (w : BreakerInstant T) (t : BreakerTask T)
    (k : CircuitInner → Prog (BreakerIface T) (RfcResult T)) (j : Nat),
    a = .resume i w ∧ p.tasks[i]? = some t ∧ t.prog = .ask .tick k
      ∧ PeriodOver cfg w.now p.shared ∧ Probing p j

/-- All that `tick` does. -/
theorem tick_cases (cfg : BreakerConfig) (now : Nat) (g : CircuitInner) :
    (PeriodOver cfg now g ∧ (tick cfg now g).state = .halfOpen)
      ∨ tick cfg now g = g ∧ g.state ≠ .halfOpen := by
  obtain ⟨state, failures, openedAt⟩ := g
  cases state with
  | closed => exact .inr ⟨rfl, by simp⟩
  | halfOpen => exact .inl ⟨.inl rfl, rfl⟩
  | «open» =>
      cases openedAt with
      | none => exact .inr ⟨rfl, by simp⟩
      | some opened =>
          by_cases h : now - opened ≥ cfg.openDuration
          · exact .inl ⟨.inr ⟨rfl, opened, rfl, h⟩, by simp [tick, h]⟩
          · exact .inr ⟨by simp [tick, h], by simp⟩

/-- `tick` leaves the time of the opening alone. -/
theorem tick_openedAt (cfg : BreakerConfig) (now : Nat) (g : CircuitInner) :
    (tick cfg now g).openedAt = g.openedAt := by
  unfold tick
  split
  · split
    · rfl
    · rfl
  · rfl

-- ============================================================ one probe

/-- A call is a probe after a step only if it was one before, or was
admitted as one in this step. -/
theorem Probing.step {p : BreakerPool T} {i j : Nat} {t : BreakerTask T}
    {w : BreakerInstant T} {q : BreakerQuery T}
    {k : (BreakerIface T).Reply q → Prog (BreakerIface T) (RfcResult T)}
    {r : (BreakerIface T).Reply q} {g : CircuitInner}
    (ht : p.tasks[i]? = some t) (hprog : t.prog = .ask q k)
    (h : Probing ⟨g, p.tasks.set i { t with prog := k r },
      p.trace ++ [⟨i, w, ⟨q, r⟩⟩]⟩ j) :
    Probing p j ∨ (j = i
      ∧ probes (⟨q, r⟩ : Exchange (BreakerIface T)) = true) := by
  have hi : i < p.tasks.length := (List.getElem?_eq_some_iff.mp ht).1
  obtain ⟨⟨u, hu, hnot⟩, x, hx, hprobe⟩ := h
  rw [Pool.own_snoc p] at hx
  have hbusy : ∃ t : BreakerTask T, p.tasks[j]? = some t
      ∧ ∀ a, t.prog ≠ .done a := by
    rcases (getElem?_set_eq_some hi).mp hu with hj | hj
    · exact ⟨t, by rw [hj.1]; exact ht, by simp [hprog]⟩
    · exact ⟨u, hj.2, hnot⟩
  rcases List.mem_append.mp hx with hx | hx
  · exact .inl ⟨hbusy, x, hx, hprobe⟩
  · by_cases hj : i = j
    · rw [if_pos hj, List.mem_singleton] at hx
      rw [hx] at hprobe
      exact .inr ⟨hj.symm, hprobe⟩
    · simp [hj] at hx

theorem probing_spawn {p : BreakerPool T} {j : Nat}
    {body : Prog (BreakerIface T) (RfcResult T)}
    (hknown : ∀ x ∈ p.trace, x.task < p.tasks.length)
    (h : Probing (p.spawn () body) j) : Probing p j := by
  obtain ⟨⟨u, hu, hnot⟩, x, hx, hprobe⟩ := h
  rw [Pool.own_spawn] at hx
  rcases getElem?_snoc.mp hu with hu | hu
  · exact ⟨⟨u, hu, hnot⟩, x, hx, hprobe⟩
  · obtain ⟨m, hm, hmj, -⟩ := Pool.mem_own.mp hx
    have := hknown m hm
    omega

/-- A step that admits no second probe keeps it. -/
theorem OneProbe.step {a : PoolAct Unit (BreakerInstant T)}
    {p p' : BreakerPool T}
    (hknown : ∀ x ∈ p.trace, x.task < p.tasks.length) (h : OneProbe p)
    (hsecond : ¬ SecondProbe cfg a p)
    (hstep : (machine T cfg).step a p = some p') : OneProbe p' := by
  rcases poolMachine_step hstep with hspawn | hresume
  · obtain ⟨c, -, rfl⟩ := hspawn
    intro i j hi hj
    exact h i j (probing_spawn hknown hi) (probing_spawn hknown hj)
  obtain ⟨i, w, t, q, k, rfl, ht, hprog, rfl⟩ := hresume
  -- where this step admits a probe, there was none
  have hfirst : probes ⟨q, (answer cfg w q p.shared).1⟩ = true →
      ∀ j, ¬ Probing p j := by
    intro hprobe j hj
    cases q with
    | tick =>
        apply hsecond
        refine ⟨i, w, t, k, j, rfl, ht, hprog, ?_, hj⟩
        rcases tick_cases cfg w.now p.shared with hover | hsame
        · exact hover.1
        · have hhalf := of_decide_eq_true hprobe
          simp only [answer, hsame.1] at hhalf
          exact absurd hhalf hsame.2
    | _ => cases hprobe
  intro j j' hj hj'
  rcases hj.step ht hprog with hj | hj
  · rcases hj'.step ht hprog with hj' | hj'
    · exact h j j' hj hj'
    · exact absurd hj (hfirst hj'.2 j)
  · rcases hj'.step ht hprog with hj' | hj'
    · exact absurd hj' (hfirst hj.2 j')
    · rw [hj.1, hj'.1]

-- =========================================================== the period

/-- The breaker opened at a reading of the clock. -/
def OpenedInTrace (p : BreakerPool T) : Prop :=
  ∀ opened, p.shared.openedAt = some opened →
    ∃ x ∈ p.trace, x.reading.now = opened

theorem OpenedInTrace.step {a : PoolAct Unit (BreakerInstant T)}
    {p p' : BreakerPool T} (h : OpenedInTrace p)
    (hstep : (machine T cfg).step a p = some p') : OpenedInTrace p' := by
  rcases poolMachine_step hstep with hspawn | hresume
  · obtain ⟨c, -, rfl⟩ := hspawn
    exact h
  obtain ⟨i, w, t, q, k, rfl, -, -, rfl⟩ := hresume
  intro opened hopened
  have hold : p.shared.openedAt = some opened → ∃ x ∈ p.trace
      ++ [⟨i, w, ⟨q, (answer cfg w q p.shared).1⟩⟩],
      x.reading.now = opened := by
    intro ho
    obtain ⟨x, hx, hnow⟩ := h opened ho
    exact ⟨x, List.mem_append_left _ hx, hnow⟩
  cases q with
  | tick =>
      apply hold
      rw [← tick_openedAt cfg w.now]
      exact hopened
  | now => exact hold hopened
  | run => exact hold hopened
  | complete result =>
      cases result with
      | ok v => cases hopened
      | error e =>
          simp only [answer, complete] at hopened
          split at hopened
          · split at hopened
            · -- opened in this step
              have : w.now = opened := Option.some.inj hopened
              exact ⟨_, List.mem_append_right _ (List.mem_singleton_self _),
                this⟩
            · exact hold hopened
          · exact hold hopened

/-- The period that began at `opened`: the breaker is open since then or
later, or the clock has shown its end. -/
structure Shut (cfg : BreakerConfig) (opened : Nat) (s p : BreakerPool T) :
    Prop where
  since : ∃ x ∈ p.trace, x.reading.now = opened
  lasts : (p.shared.state = .open
      ∧ ∃ o, p.shared.openedAt = some o ∧ opened ≤ o)
    ∨ ∃ x ∈ p.trace, opened + cfg.openDuration ≤ x.reading.now
  shut : StaysShut cfg opened s p
  grown : s.trace.length ≤ p.trace.length

/-- An exchange that leaves the breaker as it is and admits nothing. -/
theorem Shut.extend {opened : Nat} {s p : BreakerPool T}
    (h : Shut cfg opened s p) {x : BreakerMoment T} {g : CircuitInner}
    {ts : List (BreakerTask T)}
    (hlasts : (g.state = .open ∧ ∃ o, g.openedAt = some o ∧ opened ≤ o)
      ∨ ∃ y ∈ p.trace ++ [x], opened + cfg.openDuration ≤ y.reading.now)
    (hadmits : admits x.exchange →
      opened + cfg.openDuration ≤ x.reading.now) :
    Shut cfg opened s ⟨g, ts, p.trace ++ [x]⟩ where
  since := by
    obtain ⟨y, hy, hnow⟩ := h.since
    exact ⟨y, List.mem_append_left _ hy, hnow⟩
  lasts := hlasts
  shut := by
    intro n y hn hy ha
    rcases getElem?_snoc.mp hy with hy | hy
    · exact h.shut n y hn hy ha
    · rw [hy.2] at ha ⊢
      exact hadmits ha
  grown := by
    have := h.grown
    simp only [List.length_append, List.length_singleton]
    omega

/-- A step at a later reading, which is no late success, keeps it. -/
theorem Shut.step {opened : Nat} {a : PoolAct Unit (BreakerInstant T)}
    {s p p' : BreakerPool T} (h : Shut cfg opened s p)
    (hin : OpenedInTrace p) (hclock : ClockStep a p)
    (hlate : ¬ LateSuccess a p)
    (hstep : (machine T cfg).step a p = some p') : Shut cfg opened s p' := by
  rcases poolMachine_step hstep with hspawn | hresume
  · obtain ⟨c, -, rfl⟩ := hspawn
    exact ⟨h.since, h.lasts, h.shut, h.grown⟩
  obtain ⟨i, w, t, q, k, rfl, ht, hprog, rfl⟩ := hresume
  have hnow := hclock i w rfl
  -- what the clock has shown it shows
  have hshown : (∃ x ∈ p.trace, opened + cfg.openDuration ≤ x.reading.now) →
      opened + cfg.openDuration ≤ w.now := by
    intro hx
    obtain ⟨x, hx, hle⟩ := hx
    have := hnow x hx
    omega
  have hkeep : (∃ x ∈ p.trace, opened + cfg.openDuration ≤ x.reading.now) →
      ∃ y ∈ p.trace ++ [⟨i, w, ⟨q, (answer cfg w q p.shared).1⟩⟩],
        opened + cfg.openDuration ≤ y.reading.now := by
    intro hx
    obtain ⟨x, hx, hle⟩ := hx
    exact ⟨x, List.mem_append_left _ hx, hle⟩
  cases q with
  | now => exact h.extend (h.lasts.imp_right hkeep) fun ha => ha.elim
  | run => exact h.extend (h.lasts.imp_right hkeep) fun ha => ha.elim
  | tick =>
      rcases h.lasts with hopen | hend
      · obtain ⟨hstate, o, ho, hle⟩ := hopen
        rcases tick_cases cfg w.now p.shared with hover | hsame
        · -- the end of the period
          have hend : opened + cfg.openDuration ≤ w.now := by
            rcases hover.1 with hhalf | hover
            · rw [hstate] at hhalf
              cases hhalf
            · obtain ⟨-, o', ho', hd⟩ := hover
              rw [ho, Option.some.injEq] at ho'
              obtain ⟨x, hx, hxo⟩ := hin o ho
              have := hnow x hx
              omega
          exact h.extend (.inr ⟨_, List.mem_append_right _
            (List.mem_singleton_self _), hend⟩) fun _ => hend
        · refine h.extend (.inl ?_) fun ha => ?_
          · simp only [answer, hsame.1]
            exact ⟨hstate, o, ho, hle⟩
          · have hne : (tick cfg w.now p.shared).state ≠ .open := ha
            rw [hsame.1] at hne
            exact absurd hstate hne
      · exact h.extend (.inr (hkeep hend)) fun _ => hshown hend
  | complete result =>
      refine h.extend ?_ fun ha => ha.elim
      rcases h.lasts with hopen | hend
      · obtain ⟨hstate, o, ho, hle⟩ := hopen
        left
        cases result with
        | ok v => exact absurd ⟨hstate, i, w, t, v, k, rfl, ht, hprog⟩ hlate
        | error e =>
            simp only [answer, complete]
            split
            · split
              · -- a failure that comes late opens the breaker again
                obtain ⟨x, hx, hxo⟩ := h.since
                have := hnow x hx
                exact ⟨rfl, w.now, rfl, by omega⟩
              · exact ⟨hstate, o, ho, hle⟩
            · exact ⟨hstate, o, ho, hle⟩
      · exact .inr (hkeep hend)

-- ============================================================= isolation

/-- Once open, the breaker admits nothing before its time, and then one
probe at a time. -/
def Isolates (cfg : BreakerConfig)
    (as : List (PoolAct Unit (BreakerInstant T))) (p : BreakerPool T) :
    Prop :=
  (∀ bs cs s opened, as = bs ++ cs → (machine T cfg).Runs bs s →
      s.shared.state = .open → s.shared.openedAt = some opened →
      StaysShut cfg opened s p)
    ∧ OneProbe p

/-- It does in every run without a late success and a second probe. -/
theorem breaker_isolates (T : Type) (cfg : BreakerConfig)
    (as : List (PoolAct Unit (BreakerInstant T))) (p : BreakerPool T)
    (hrun : (machine T cfg).Runs as p)
    (hclock : (machine T cfg).Meets ClockStep as (machine T cfg).init)
    (hlate : (machine T cfg).Meets (fun a s => ¬ LateSuccess a s) as
      (machine T cfg).init)
    (hsecond : (machine T cfg).Meets (fun a s => ¬ SecondProbe cfg a s) as
      (machine T cfg).init) : Isolates cfg as p := by
  constructor
  · intro bs cs s opened has hbs hopen hat
    have hs : OpenedInTrace s := by
      refine Machine.Reachable.invariant ⟨bs, hbs⟩ ?_ ?_
      · intro o ho
        cases ho
      · exact fun a s s' h hstep => h.step hstep
    have hcs : (machine T cfg).run cs s = some p := by
      rw [has] at hrun
      obtain ⟨u, hu, hrest⟩ := Machine.run_append.mp hrun
      have : s = u := Option.some.inj (hbs.symm.trans hu)
      rw [this]
      exact hrest
    rw [has] at hclock hlate
    have hmeets := (hclock.of_append hbs).and (hlate.of_append hbs)
    -- from the opening on, step by step
    have hinv := Machine.run_invariant
      (I := fun q => OpenedInTrace q ∧ Shut cfg opened s q)
      (fun a q q' hq hI hstep => ⟨hI.1.step hstep,
        hI.2.step hI.1 hq.1 hq.2 hstep⟩)
      ⟨hs, ⟨hs opened hat, .inl ⟨hopen, opened, hat, Nat.le_refl _⟩, ?_,
        Nat.le_refl _⟩⟩ hmeets hcs
    · exact hinv.2.shut
    · intro n x hn hx
      rw [List.getElem?_eq_none hn] at hx
      cases hx
  · have hinv := Machine.run_invariant
      (I := fun q => (machine T cfg).Reachable q ∧ OneProbe q)
      (fun a q q' hq hI hstep => ⟨hI.1.step hstep,
        hI.2.step (poolMachine_tracked hI.1).known hq hstep⟩)
      ⟨⟨[], rfl⟩, ?_⟩ hsecond hrun
    · exact hinv.2
    · intro i j hi _
      obtain ⟨⟨t, ht, -⟩, -⟩ := hi
      cases ht

-- ============================================================== the gaps

/-- The clock readings of a step, checked. -/
def clockOk (a : PoolAct Unit (BreakerInstant T)) (p : BreakerPool T) :
    Bool :=
  match a with
  | .spawn _ => true
  | .resume _ w => p.trace.all fun x => decide (x.reading.now ≤ w.now)

theorem clockStep_of_clockOk {a : PoolAct Unit (BreakerInstant T)}
    {p : BreakerPool T} (h : clockOk a p = true) : ClockStep a p := by
  intro i w ha x hx
  rw [ha, clockOk] at h
  simpa using List.all_eq_true.mp h x hx

/-- The inner call fails for the moment. -/
def failing (now : Nat) : BreakerInstant Unit := ⟨now, .error (.timeout 30)⟩

/-- The inner call ends well. -/
def succeeding (now : Nat) : BreakerInstant Unit := ⟨now, .ok ()⟩

/-- Two calls are admitted, one fails and opens the breaker, the other
ends well and closes it, and a third one is admitted a moment later. -/
def lateSuccessRun : List (PoolAct Unit (BreakerInstant Unit)) :=
  [.spawn (), .resume 0 (failing 0), .spawn (), .resume 1 (failing 0),
    .resume 0 (failing 1), .resume 0 (failing 1),
    .resume 1 (succeeding 2), .resume 1 (succeeding 2),
    .spawn (), .resume 2 (succeeding 3)]

/-- The breaker opens, its time passes, and two calls are let through as
probes. -/
def secondProbeRun : List (PoolAct Unit (BreakerInstant Unit)) :=
  [.spawn (), .resume 0 (failing 0), .resume 0 (failing 0),
    .resume 0 (failing 0),
    .spawn (), .resume 1 (failing 100), .spawn (), .resume 2 (failing 100)]

/-- Either step breaks the isolation. -/
theorem breaker_does_not_isolate :
    ¬ (∀ (cfg : BreakerConfig)
          (as : List (PoolAct Unit (BreakerInstant Unit)))
          (p : BreakerPool Unit), (machine Unit cfg).Runs as p →
        (machine Unit cfg).Meets ClockStep as (machine Unit cfg).init →
        ∀ bs cs s opened, as = bs ++ cs → (machine Unit cfg).Runs bs s →
          s.shared.state = .open → s.shared.openedAt = some opened →
          StaysShut cfg opened s p)
      ∧ ¬ ∀ (cfg : BreakerConfig)
          (as : List (PoolAct Unit (BreakerInstant Unit)))
          (p : BreakerPool Unit), (machine Unit cfg).Runs as p →
        (machine Unit cfg).Meets ClockStep as (machine Unit cfg).init →
        OneProbe p := by
  constructor
  · intro h
    have hshut := h ⟨1, 100⟩ lateSuccessRun _ rfl
      (by
        unfold lateSuccessRun
        iterate 10
          apply Machine.meets_cons rfl (clockStep_of_clockOk rfl)
        trivial)
      (lateSuccessRun.take 6) (lateSuccessRun.drop 6) _ 1 rfl rfl rfl rfl
    have hlate := hshut 6 _ (by decide) rfl
      (show CircuitState.closed ≠ CircuitState.open by decide)
    exact absurd hlate (by decide)
  · intro h
    have hone := h ⟨1, 100⟩ secondProbeRun _ rfl
      (by
        unfold secondProbeRun
        iterate 8
          apply Machine.meets_cons rfl (clockStep_of_clockOk rfl)
        trivial)
    have htwo := hone 1 2
      ⟨⟨_, rfl, fun a ha => by cases ha⟩, _, List.mem_singleton_self _, rfl⟩
      ⟨⟨_, rfl, fun a ha => by cases ha⟩, _, List.mem_singleton_self _, rfl⟩
    exact absurd htwo (by decide)

/-- The breaker opens and lets one probe through when its time is up. -/
def probeRun : List (PoolAct Unit (BreakerInstant Unit)) :=
  [.spawn (), .resume 0 (failing 0), .resume 0 (failing 0),
    .resume 0 (failing 0), .spawn (), .resume 1 (succeeding 100)]

theorem not_lateSuccess {a : PoolAct Unit (BreakerInstant T)}
    {p : BreakerPool T} (h : p.shared.state ≠ .open) :
    ¬ LateSuccess a p := fun hlate => h hlate.1

theorem not_secondProbe {a : PoolAct Unit (BreakerInstant T)}
    {p : BreakerPool T}
    (h : p.trace.all (fun x => !probes x.exchange) = true) :
    ¬ SecondProbe cfg a p := by
  intro hsecond
  obtain ⟨i, w, t, k, j, -, -, -, -, -, x, hx, hprobe⟩ := hsecond
  obtain ⟨m, hm, -, rfl⟩ := Pool.mem_own.mp hx
  have := List.all_eq_true.mp h m hm
  simp [hprobe] at this

theorem breaker_isolates_probe :
    ∃ p, (machine Unit ⟨1, 100⟩).Runs probeRun p
      ∧ Isolates ⟨1, 100⟩ probeRun p := by
  refine ⟨_, rfl, breaker_isolates Unit ⟨1, 100⟩ probeRun _ rfl ?_ ?_ ?_⟩
  · unfold probeRun
    iterate 6
      apply Machine.meets_cons rfl (clockStep_of_clockOk rfl)
    trivial
  · unfold probeRun
    iterate 4
      apply Machine.meets_cons rfl (not_lateSuccess (by decide))
    apply Machine.meets_cons rfl
    · intro hlate
      obtain ⟨-, i, w, t, v, k, ha, -⟩ := hlate
      cases ha
    apply Machine.meets_cons rfl
    · -- the open breaker is asked, nothing completes
      intro hlate
      obtain ⟨-, i, w, t, v, k, ha, ht, hprog⟩ := hlate
      cases ha
      cases ht
      cases hprog
    trivial
  · unfold probeRun
    iterate 6
      apply Machine.meets_cons rfl (not_secondProbe rfl)
    trivial

end SapAutomate.Rfc.CircuitBreaker
