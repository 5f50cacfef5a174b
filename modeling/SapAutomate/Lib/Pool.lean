/-
Tasks that run side by side. A pool holds tasks, each a program over
one interface, next to a state they share; at every step one task has
its question answered, in any order. A question the shared state cannot
answer yet keeps its task waiting: that is a lock that is taken, a
channel that is full, an answer that has not come.

# What is shared with the sequential reading

The programs are those of `Interact.Prog`, so one definition of a piece
of code is read alone (`Prog.exec`) and among others (`Pool.resume`).
What a task does by itself is settled once, by `Prog.Sat` on its
program: `Tracked.result` carries it to the exchanges that the task has
made in a pool, whatever happened between them.

# The trace

The pool records who asked what, at which reading of the world, and
what was answered. `start` is the length of that record when a task was
spawned: "after" and "before" are positions in it.
-/
import Mathlib.Data.List.Induction
import SapAutomate.Lib.Interact
import SapAutomate.Lib.Machine

namespace Interact

/-- The elements of a list with one more. -/
theorem getElem?_snoc {β : Type} {l : List β} {x y : β} {n : Nat} :
    (l ++ [x])[n]? = some y
      ↔ l[n]? = some y ∨ (n = l.length ∧ y = x) := by
  rcases Nat.lt_or_ge n l.length with hn | hn
  · rw [List.getElem?_append_left hn]
    constructor
    · exact .inl
    · intro h
      rcases h with h | h
      · exact h
      · omega
  · rw [List.getElem?_append_right hn, List.getElem?_eq_none hn]
    cases hk : n - l.length with
    | zero =>
        have : n = l.length := by omega
        simp [this, eq_comm]
    | succ k =>
        have : n ≠ l.length := by omega
        simp [this]

/-- The elements of a list with one replaced. -/
theorem getElem?_set_eq_some {β : Type} {l : List β} {x y : β}
    {i n : Nat} (hi : i < l.length) :
    (l.set i x)[n]? = some y
      ↔ (n = i ∧ y = x) ∨ (n ≠ i ∧ l[n]? = some y) := by
  by_cases h : n = i
  · subst h
    simp [List.getElem?_set_self hi, eq_comm]
  · simp [h, List.getElem?_set_ne (Ne.symm h)]

/-- The sum of `f` over a list. -/
def total {β : Type} (f : β → Nat) : List β → Nat
  | [] => 0
  | x :: xs => f x + total f xs

@[simp] theorem total_nil {β : Type} (f : β → Nat) : total f [] = 0 := rfl

@[simp] theorem total_cons {β : Type} (f : β → Nat) (x : β) (xs : List β) :
    total f (x :: xs) = f x + total f xs := rfl

@[simp] theorem total_append {β : Type} (f : β → Nat) (xs ys : List β) :
    total f (xs ++ ys) = total f xs + total f ys := by
  induction xs with
  | nil => simp
  | cons x xs ih => simp [ih, Nat.add_assoc]

theorem total_congr {β : Type} {f g : β → Nat} {xs : List β}
    (h : ∀ x ∈ xs, f x = g x) : total f xs = total g xs := by
  induction xs with
  | nil => rfl
  | cons x xs ih =>
      rw [total_cons, total_cons, h x (by simp),
        ih fun y hy => h y (by simp [hy])]

theorem total_zero {β : Type} (xs : List β) :
    total (fun _ => 0) xs = 0 := by
  induction xs with
  | nil => rfl
  | cons x xs ih => simp [ih]

theorem total_zipIdx {β : Type} (f : β → Nat) (xs : List β) (k : Nat) :
    total (fun x => f x.1) (xs.zipIdx k) = total f xs := by
  induction xs generalizing k with
  | nil => rfl
  | cons x xs ih => simp [ih]

/-- One index more: its share is counted once. -/
theorem total_zipIdx_single {β : Type} (g : Nat → Nat) (c j : Nat)
    (xs : List β) (k : Nat) :
    total (fun x => g x.2 + if j = x.2 then c else 0) (xs.zipIdx k)
      = total (fun x => g x.2) (xs.zipIdx k)
        + if k ≤ j ∧ j < k + xs.length then c else 0 := by
  induction xs generalizing k with
  | nil =>
      have hno : ¬ (k ≤ j ∧ j < k + ([] : List β).length) := by
        rw [List.length_nil]
        omega
      rw [if_neg hno]
      rfl
  | cons x xs ih =>
      rw [List.zipIdx_cons, total_cons, total_cons, ih]
      by_cases hj : j = k
      · have h1 : ¬ (k + 1 ≤ j ∧ j < k + 1 + xs.length) := by omega
        have h2 : k ≤ j ∧ j < k + (x :: xs).length := by
          simp only [List.length_cons]
          omega
        simp only [hj, if_true] at h1 h2 ⊢
        rw [if_neg h1, if_pos h2]
        omega
      · have h3 : (k + 1 ≤ j ∧ j < k + 1 + xs.length)
            ↔ (k ≤ j ∧ j < k + (x :: xs).length) := by
          simp only [List.length_cons]
          omega
        simp only [hj, if_false, h3]
        omega

/-- What the tasks share: at a reading of the world, the answer to a
question with the next state, or nothing while the task has to wait. -/
structure Shared (I : Iface) (W σ : Type) where
  answer : W → (q : I.Query) → σ → Option (I.Reply q × σ)

/-- What no task has to wait for. -/
def Shared.always {I : Iface} {W σ : Type}
    (answer : W → (q : I.Query) → σ → I.Reply q × σ) : Shared I W σ where
  answer w q s := some (answer w q s)

/-- The same for one task alone: the readings of the world come in
turn. -/
def Env.alone {I : Iface} {W σ : Type}
    (answer : W → (q : I.Query) → σ → I.Reply q × σ) :
    Env I (σ × (Nat → W)) where
  answer q s :=
    let a := answer (s.2 0) q s.1
    (a.1, a.2, fun n => s.2 (n + 1))

/-- A task: the call it was spawned for, the exchanges there were by
then, and what is left of its program. -/
structure Task (I : Iface) (C α : Type) where
  call : C
  start : Nat
  prog : Prog I α

/-- One exchange of a run. -/
structure Moment (I : Iface) (W : Type) where
  task : Nat
  reading : W
  exchange : Exchange I

/-- The tasks, their shared state, and the exchanges so far. -/
structure Pool (I : Iface) (C W σ α : Type) where
  shared : σ
  tasks : List (Task I C α)
  trace : List (Moment I W)

namespace Pool

variable {I : Iface} {C W σ α : Type}

-- =============================================================== steps

/-- A new task. -/
def spawn (c : C) (body : Prog I α) (p : Pool I C W σ α) :
    Pool I C W σ α :=
  { p with tasks := p.tasks ++ [⟨c, p.trace.length, body⟩] }

/-- Answer the question task `i` is at. -/
def resume (S : Shared I W σ) (i : Nat) (w : W) (p : Pool I C W σ α) :
    Option (Pool I C W σ α) :=
  match p.tasks[i]? with
  | none => none
  | some t =>
      match t.prog with
      | .done _ => none
      | .ask q k =>
          match S.answer w q p.shared with
          | none => none
          | some (r, s) =>
              some {
                shared := s
                tasks := p.tasks.set i { t with prog := k r }
                trace := p.trace ++ [⟨i, w, ⟨q, r⟩⟩] }

/-- All that a resumed task can do. -/
theorem resume_eq_some {S : Shared I W σ} {i : Nat} {w : W}
    {p p' : Pool I C W σ α} :
    p.resume S i w = some p' ↔
      ∃ t q k r s, p.tasks[i]? = some t ∧ t.prog = .ask q k
        ∧ S.answer w q p.shared = some (r, s)
        ∧ p' = ⟨s, p.tasks.set i { t with prog := k r },
            p.trace ++ [⟨i, w, ⟨q, r⟩⟩]⟩ := by
  unfold resume
  constructor
  · intro h
    cases ht : p.tasks[i]? with
    | none => simp [ht] at h
    | some t =>
        cases hp : t.prog with
        | done a => simp [ht, hp] at h
        | ask q k =>
            cases ha : S.answer w q p.shared with
            | none => simp [ht, hp, ha] at h
            | some rs =>
                obtain ⟨r, s⟩ := rs
                simp only [ht, hp, ha, Option.some.injEq] at h
                exact ⟨t, q, k, r, s, rfl, hp, ha, h.symm⟩
  · intro h
    obtain ⟨t, q, k, r, s, ht, hp, ha, hp'⟩ := h
    simp [ht, hp, ha, hp']

/-- What the tasks were spawned for. -/
def calls (p : Pool I C W σ α) : List C := p.tasks.map (·.call)

theorem calls_spawn (c : C) (body : Prog I α) (p : Pool I C W σ α) :
    (p.spawn c body).calls = p.calls ++ [c] := by
  simp [calls, Pool.spawn]

theorem calls_resume {S : Shared I W σ} {i : Nat} {w : W}
    {p p' : Pool I C W σ α} (h : p.resume S i w = some p') :
    p'.calls = p.calls := by
  obtain ⟨t, q, k, r, s, ht, -, -, rfl⟩ := resume_eq_some.mp h
  unfold calls
  rw [List.map_set]
  obtain ⟨hi, hget⟩ := List.getElem?_eq_some_iff.mp ht
  apply List.ext_getElem?
  intro n
  by_cases hn : n = i
  · subst hn
    simp [hi, hget]
  · rw [List.getElem?_set_ne (Ne.symm hn)]

/-- A task whose question can be answered can go on. -/
theorem resume_of_answer {S : Shared I W σ} {i : Nat} {w : W}
    {p : Pool I C W σ α} {t : Task I C α} {q : I.Query}
    {k : I.Reply q → Prog I α} {r : I.Reply q} {s : σ}
    (ht : p.tasks[i]? = some t) (hprog : t.prog = .ask q k)
    (ha : S.answer w q p.shared = some (r, s)) :
    ∃ p', p.resume S i w = some p' :=
  ⟨_, resume_eq_some.mpr ⟨t, q, k, r, s, ht, hprog, ha, rfl⟩⟩

-- ================================================== a task's exchanges

/-- The exchanges of task `i`, in order. -/
def own (p : Pool I C W σ α) (i : Nat) : List (Exchange I) :=
  (p.trace.filter fun x => x.task == i).map (·.exchange)

@[simp] theorem own_spawn (c : C) (body : Prog I α) (p : Pool I C W σ α)
    (i : Nat) : (p.spawn c body).own i = p.own i := rfl

theorem own_snoc (p : Pool I C W σ α) {x : Moment I W} (s' : σ)
    (ts' : List (Task I C α)) (i : Nat) :
    (⟨s', ts', p.trace ++ [x]⟩ : Pool I C W σ α).own i
      = p.own i ++ if x.task = i then [x.exchange] else [] := by
  by_cases h : x.task = i
  · simp [own, List.filter_append, h]
  · simp [own, List.filter_append, h]

/-- What a resumed task leaves: one more exchange and a shorter program
of its own, and the other tasks as they were. -/
theorem resume_spec {S : Shared I W σ} {i : Nat} {w : W}
    {p p' : Pool I C W σ α} (h : p.resume S i w = some p') :
    ∃ (t : Task I C α) (q : I.Query) (k : I.Reply q → Prog I α)
      (r : I.Reply q),
      p.tasks[i]? = some t ∧ t.prog = .ask q k
        ∧ S.answer w q p.shared = some (r, p'.shared)
        ∧ p'.own i = p.own i ++ [⟨q, r⟩]
        ∧ p'.tasks[i]? = some { t with prog := k r }
        ∧ ∀ j, j ≠ i → p'.own j = p.own j ∧ p'.tasks[j]? = p.tasks[j]? := by
  obtain ⟨t, q, k, r, s, ht, hprog, ha, rfl⟩ := resume_eq_some.mp h
  have hi : i < p.tasks.length := (List.getElem?_eq_some_iff.mp ht).1
  refine ⟨t, q, k, r, ht, hprog, ha, ?_, ?_, ?_⟩
  · rw [own_snoc p, if_pos rfl]
  · exact List.getElem?_set_self hi
  · intro j hj
    refine ⟨?_, List.getElem?_set_ne (Ne.symm hj)⟩
    rw [own_snoc p, if_neg (Ne.symm hj), List.append_nil]

theorem mem_own {p : Pool I C W σ α} {i : Nat} {x : Exchange I} :
    x ∈ p.own i ↔ ∃ m ∈ p.trace, m.task = i ∧ m.exchange = x := by
  simp [own, and_assoc]

/-- What a task has asked adds up, over the tasks, to what was asked. -/
theorem total_own (f : Exchange I → Nat) (p : Pool I C W σ α)
    (hknown : ∀ x ∈ p.trace, x.task < p.tasks.length) :
    total (fun ti => total f (p.own ti.2)) p.tasks.zipIdx
      = total (fun x => f x.exchange) p.trace := by
  obtain ⟨s, ts, tr⟩ := p
  induction tr using List.reverseRecOn with
  | nil => simp [own, total_zero]
  | append_singleton tr x ih =>
      have hx : x.task < ts.length := hknown x (by simp)
      have hrest := ih fun y hy => hknown y (by simp [hy])
      have hsum := total_zipIdx_single
        (fun i => total f ((⟨s, ts, tr⟩ : Pool I C W σ α).own i))
        (f x.exchange) x.task ts 0
      rw [if_pos (by omega), hrest] at hsum
      rw [total_append, total_cons, total_nil, Nat.add_zero, ← hsum]
      refine total_congr fun ti _ => ?_
      rw [own_snoc ⟨s, ts, tr⟩, total_append]
      by_cases hi : x.task = ti.2
      · simp [hi]
      · simp [hi]

/-- A task's exchanges around one of them: those before it have earlier
positions. -/
theorem own_split {p : Pool I C W σ α} {n : Nat} {x : Moment I W}
    (hx : p.trace[n]? = some x) :
    ∃ pre post, p.own x.task = pre ++ x.exchange :: post
      ∧ ∀ z ∈ pre, ∃ n' y, n' < n ∧ p.trace[n']? = some y
        ∧ y.task = x.task ∧ y.exchange = z := by
  obtain ⟨hn, hget⟩ := List.getElem?_eq_some_iff.mp hx
  have hcut : p.trace = p.trace.take n ++ x :: p.trace.drop (n + 1) := by
    rw [← hget, List.getElem_cons_drop, List.take_append_drop]
  refine ⟨((p.trace.take n).filter fun y => y.task == x.task).map
      (·.exchange), ((p.trace.drop (n + 1)).filter
      fun y => y.task == x.task).map (·.exchange), ?_, ?_⟩
  · rw [own]
    conv => lhs; rw [hcut]
    simp [List.filter_append]
  · intro z hz
    obtain ⟨y, hy, rfl⟩ := List.mem_map.mp hz
    obtain ⟨hy, htask⟩ := List.mem_filter.mp hy
    obtain ⟨n', hn'⟩ := List.mem_iff_getElem?.mp hy
    rw [List.getElem?_take] at hn'
    by_cases hlt : n' < n
    · rw [if_pos hlt] at hn'
      exact ⟨n', y, hlt, hn', by simpa using htask, rfl⟩
    · simp [hlt] at hn'

/-- What the pool keeps of its tasks' pasts. A task's program is what is
left of the body it was spawned with, after its own exchanges; these
come after its start. -/
structure Tracked (body : C → Prog I α) (p : Pool I C W σ α) : Prop where
  left : ∀ (i : Nat) (t : Task I C α), p.tasks[i]? = some t →
    (body t.call).Left (p.own i) t.prog
  known : ∀ x ∈ p.trace, x.task < p.tasks.length
  started : ∀ (i : Nat) (t : Task I C α), p.tasks[i]? = some t →
    t.start ≤ p.trace.length
  after : ∀ (n : Nat) (x : Moment I W), p.trace[n]? = some x →
    ∀ t : Task I C α, p.tasks[x.task]? = some t → t.start ≤ n

/-- A pool without tasks. -/
theorem tracked_empty (body : C → Prog I α) (s : σ) :
    (⟨s, [], []⟩ : Pool I C W σ α).Tracked body where
  left := by simp
  known := by simp
  started := by simp
  after := by simp

theorem Tracked.spawn {body : C → Prog I α} {p : Pool I C W σ α}
    (h : p.Tracked body) (c : C) : (p.spawn c (body c)).Tracked body where
  left := by
    intro i t ht
    rcases getElem?_snoc.mp ht with ht | ht
    · exact h.left i t ht
    · -- the new task has made no exchange yet
      have hnone : p.own i = [] := by
        rw [own, List.map_eq_nil_iff, List.filter_eq_nil_iff]
        intro x hx
        have := h.known x hx
        simp only [beq_iff_eq]
        omega
      rw [ht.2, own_spawn, hnone]
      exact .none _
  known := by
    intro x hx
    have := h.known x hx
    simp only [Pool.spawn, List.length_append, List.length_singleton]
    omega
  started := by
    intro i t ht
    rcases getElem?_snoc.mp ht with ht | ht
    · exact h.started i t ht
    · rw [ht.2]
      exact Nat.le_refl _
  after := by
    intro n x hx t ht
    have hlt := h.known x (List.mem_of_getElem? hx)
    rcases getElem?_snoc.mp ht with ht | ht
    · exact h.after n x hx t ht
    · omega

theorem Tracked.resume {body : C → Prog I α} {S : Shared I W σ} {i : Nat}
    {w : W} {p p' : Pool I C W σ α} (h : p.Tracked body)
    (hres : p.resume S i w = some p') : p'.Tracked body := by
  obtain ⟨t, q, k, r, s, ht, hp, -, rfl⟩ := resume_eq_some.mp hres
  have hi : i < p.tasks.length := (List.getElem?_eq_some_iff.mp ht).1
  constructor
  case left =>
    intro j u hu
    rw [own_snoc p]
    rcases (getElem?_set_eq_some hi).mp hu with hj | hj
    · obtain ⟨rfl, rfl⟩ := hj
      have hleft := h.left j t ht
      rw [hp] at hleft
      rw [if_pos rfl]
      exact hleft.snoc r
    · have hne : i ≠ j := Ne.symm hj.1
      rw [if_neg hne, List.append_nil]
      exact h.left j u hj.2
  case known =>
    intro x hx
    rw [List.length_set]
    rcases List.mem_append.mp hx with hx | hx
    · exact h.known x hx
    · rw [List.mem_singleton.mp hx]
      exact hi
  case started =>
    intro j u hu
    rw [List.length_append, List.length_singleton]
    rcases (getElem?_set_eq_some hi).mp hu with hj | hj
    · have : u.start ≤ p.trace.length := by
        rw [hj.2]
        exact h.started i t ht
      omega
    · have := h.started j u hj.2
      omega
  case after =>
    intro n x hx u hu
    rcases getElem?_snoc.mp hx with hx | hx
    · rcases (getElem?_set_eq_some hi).mp hu with hj | hj
      · rw [hj.2]
        exact h.after n x hx t (by rw [hj.1]; exact ht)
      · exact h.after n x hx u hj.2
    · have : u.start ≤ p.trace.length := by
        rcases (getElem?_set_eq_some hi).mp hu with hj | hj
        · rw [hj.2]
          exact h.started i t ht
        · exact h.started x.task u hj.2
      rw [hx.1]
      exact this

/-- What holds of every branch of a body holds of every branch of what
is left of it, with the task's own exchanges before it. -/
theorem Tracked.follows {body : C → Prog I α} {p : Pool I C W σ α}
    (h : p.Tracked body) (i : Nat) (t : Task I C α)
    (ht : p.tasks[i]? = some t) (Φ : List (Exchange I) → α → Prop)
    (hΦ : (body t.call).Sat Φ) :
    t.prog.Sat fun tr a => Φ (p.own i ++ tr) a :=
  (h.left i t ht).sat hΦ

/-- What holds of every branch of a body holds of a finished task and of
its own exchanges. -/
theorem Tracked.result {body : C → Prog I α} {p : Pool I C W σ α}
    (h : p.Tracked body) {i : Nat} {t : Task I C α}
    (ht : p.tasks[i]? = some t) {a : α} (hdone : t.prog = .done a)
    {Φ : List (Exchange I) → α → Prop} (hΦ : (body t.call).Sat Φ) :
    Φ (p.own i) a := by
  have hsat := h.follows i t ht Φ hΦ
  rw [hdone] at hsat
  simpa using hsat

/-- A task on its way can still end, so its own exchanges begin a branch
of its body. -/
theorem Tracked.branch {body : C → Prog I α} {p : Pool I C W σ α}
    (h : p.Tracked body) (hI : ∀ q : I.Query, Nonempty (I.Reply q))
    {i : Nat} {t : Task I C α} (ht : p.tasks[i]? = some t)
    {Φ : List (Exchange I) → α → Prop} (hΦ : (body t.call).Sat Φ) :
    ∃ tr a, Φ (p.own i ++ tr) a :=
  (h.follows i t ht Φ hΦ).exists_branch hI

theorem Tracked.task {body : C → Prog I α} {p : Pool I C W σ α}
    (h : p.Tracked body) {n : Nat} {x : Moment I W}
    (hx : p.trace[n]? = some x) :
    ∃ t : Task I C α, p.tasks[x.task]? = some t :=
  ⟨_, List.getElem?_eq_getElem (h.known x (List.mem_of_getElem? hx))⟩

/-- An exchange of a task's own has a position after its start. -/
theorem Tracked.own_position {body : C → Prog I α} {p : Pool I C W σ α}
    (h : p.Tracked body) {i : Nat} {t : Task I C α}
    (ht : p.tasks[i]? = some t) {x : Exchange I} (hx : x ∈ p.own i) :
    ∃ n m, p.trace[n]? = some m ∧ m.task = i ∧ m.exchange = x
      ∧ t.start ≤ n := by
  obtain ⟨m, hm, hmi, hmx⟩ := mem_own.mp hx
  obtain ⟨n, hn⟩ := List.mem_iff_getElem?.mp hm
  exact ⟨n, m, hn, hmi, hmx, h.after n m hn t (by rw [hmi]; exact ht)⟩

end Pool

-- ============================================== a machine of tasks only

/-- A call comes in, or one task goes on. -/
inductive PoolAct (C W : Type) where
  | spawn (c : C)
  | resume (i : Nat) (w : W)

/-- The machine whose calls all run side by side. -/
def poolMachine {I : Iface} {C W σ α : Type} (S : Shared I W σ)
    (body : C → Prog I α) (s : σ) :
    Machine (PoolAct C W) (Pool I C W σ α) where
  init := ⟨s, [], []⟩
  step
    | .spawn c, p => some (p.spawn c (body c))
    | .resume i w, p => p.resume S i w

/-- All that a step does where no section waits. -/
theorem poolMachine_step {I : Iface} {C W σ α : Type}
    {answer : W → (q : I.Query) → σ → I.Reply q × σ} {body : C → Prog I α}
    {s : σ} {a : PoolAct C W} {p p' : Pool I C W σ α}
    (h : (poolMachine (.always answer) body s).step a p = some p') :
    (∃ c, a = .spawn c ∧ p' = p.spawn c (body c))
      ∨ ∃ i w t q k, a = .resume i w ∧ p.tasks[i]? = some t
        ∧ t.prog = .ask q k
        ∧ p' = ⟨(answer w q p.shared).2,
            p.tasks.set i { t with prog := k (answer w q p.shared).1 },
            p.trace ++ [⟨i, w, ⟨q, (answer w q p.shared).1⟩⟩]⟩ := by
  cases a with
  | spawn c => exact .inl ⟨c, rfl, (Option.some.inj h).symm⟩
  | resume i w =>
      have hres : p.resume (.always answer) i w = some p' := h
      obtain ⟨t, q, k, r, s', ht, hp, ha, rfl⟩ := Pool.resume_eq_some.mp hres
      have hrs : answer w q p.shared = (r, s') := Option.some.inj ha
      refine .inr ⟨i, w, t, q, k, rfl, ht, hp, ?_⟩
      rw [hrs]

/-- Every exchange of a run was made at a reading the run gave. -/
theorem poolMachine_readings {I : Iface} {C W σ α : Type}
    {S : Shared I W σ} {body : C → Prog I α} {s : σ}
    {as : List (PoolAct C W)} {p : Pool I C W σ α}
    (h : (poolMachine S body s).Runs as p) :
    ∀ x ∈ p.trace, ∃ i, PoolAct.resume i x.reading ∈ as := by
  induction as using List.reverseRecOn generalizing p with
  | nil =>
      rw [Machine.Runs, Machine.run_nil, Option.some.injEq] at h
      intro x hx
      rw [← h] at hx
      cases hx
  | append_singleton as a ih =>
      obtain ⟨q, hq, hstep⟩ := Machine.run_snoc.mp h
      intro x hx
      have hold : x ∈ q.trace → ∃ i, PoolAct.resume i x.reading ∈ as ++ [a] := by
        intro hmem
        obtain ⟨i, hi⟩ := ih hq x hmem
        exact ⟨i, List.mem_append_left _ hi⟩
      cases a with
      | spawn c =>
          rw [← Option.some.inj hstep] at hx
          exact hold hx
      | resume i w =>
          obtain ⟨t, q', k, r, s', -, -, -, rfl⟩ :=
            Pool.resume_eq_some.mp hstep
          rcases List.mem_append.mp hx with hx | hx
          · exact hold hx
          · rw [List.mem_singleton.mp hx]
            exact ⟨i, by simp⟩

/-- Its states keep their tasks' pasts. -/
theorem poolMachine_tracked {I : Iface} {C W σ α : Type}
    {S : Shared I W σ} {body : C → Prog I α} {s : σ}
    {p : Pool I C W σ α} (h : (poolMachine S body s).Reachable p) :
    p.Tracked body := by
  refine h.invariant (Pool.tracked_empty body s) ?_
  intro a p p' hp hstep
  cases a with
  | spawn c =>
      rw [← Option.some.inj hstep]
      exact hp.spawn c
  | resume i w => exact hp.resume hstep

end Interact
