/-
Machines: what each action does to a state, and which actions a state
allows. An action that is not allowed leaves no next state.

# The rules

- `run_invariant` carries a predicate from the first state of a run to
  its last one. Its conditional form is the one proofs cite: `Meets`
  says that every step of the run meets a condition on the action and
  on the state the action is taken in, and the predicate has to be kept
  by such steps only.
- `run_rel` carries a preorder on states along a run: what one step can
  only grow, a run can only grow.

A run is a list of actions, so that a schedule is a value that a closed
example can give and the kernel can evaluate.
-/
import Mathlib.Data.List.Induction

namespace Interact

/-- What each action does; `none` where the state does not allow it. -/
structure Machine (A S : Type) where
  init : S
  step : A → S → Option S

namespace Machine

variable {A S : Type} (M : Machine A S)

-- ================================================================ runs

/-- The state a list of actions leads to, where each is allowed. -/
def run : List A → S → Option S
  | [], s => some s
  | a :: as, s =>
      match M.step a s with
      | none => none
      | some s' => run as s'

/-- The run of `as` from the initial state ends in `s`. -/
def Runs (as : List A) (s : S) : Prop := M.run as M.init = some s

/-- Some run ends in `s`. -/
def Reachable (s : S) : Prop := ∃ as, M.Runs as s

/-- Every step of the run meets a condition on its action and on the
state before it. -/
def Meets (P : A → S → Prop) : List A → S → Prop
  | [], _ => True
  | a :: as, s => P a s ∧ ∀ s', M.step a s = some s' → Meets P as s'

/-- No action is allowed. -/
def Stuck (s : S) : Prop := ∀ a, M.step a s = none

variable {M}

@[simp] theorem run_nil (s : S) : M.run [] s = some s := rfl

/-- The first step of a run, and the rest of it. -/
theorem run_cons {a : A} {as : List A} {s s' : S} :
    M.run (a :: as) s = some s'
      ↔ ∃ t, M.step a s = some t ∧ M.run as t = some s' := by
  rw [run]
  cases M.step a s with
  | none => simp
  | some t => simp

/-- A run in two parts. -/
theorem run_append {as bs : List A} {s s' : S} :
    M.run (as ++ bs) s = some s'
      ↔ ∃ t, M.run as s = some t ∧ M.run bs t = some s' := by
  induction as generalizing s with
  | nil => simp
  | cons a as ih =>
      rw [List.cons_append, run_cons]
      constructor
      · intro h
        obtain ⟨t, ht, hrun⟩ := h
        obtain ⟨u, hu, hrest⟩ := ih.mp hrun
        exact ⟨u, run_cons.mpr ⟨t, ht, hu⟩, hrest⟩
      · intro h
        obtain ⟨u, hu, hrest⟩ := h
        obtain ⟨t, ht, hrun⟩ := run_cons.mp hu
        exact ⟨t, ht, ih.mpr ⟨u, hrun, hrest⟩⟩

/-- One more step. -/
theorem run_snoc {as : List A} {a : A} {s s' : S} :
    M.run (as ++ [a]) s = some s'
      ↔ ∃ t, M.run as s = some t ∧ M.step a t = some s' := by
  rw [run_append]
  simp only [run_cons, run_nil, Option.some.injEq, exists_eq_right]

-- =============================================================== rules

/-- What every step that meets `P` keeps, every run of such steps keeps. -/
theorem run_invariant {P : A → S → Prop} {I : S → Prop}
    (hstep : ∀ a s s', P a s → I s → M.step a s = some s' → I s')
    {as : List A} {s s' : S} (hs : I s) (hmeets : M.Meets P as s)
    (hrun : M.run as s = some s') : I s' := by
  induction as generalizing s with
  | nil =>
      rw [run_nil, Option.some.injEq] at hrun
      exact hrun ▸ hs
  | cons a as ih =>
      obtain ⟨t, ht, hrest⟩ := run_cons.mp hrun
      exact ih (hstep a s t hmeets.1 hs ht) (hmeets.2 t ht) hrest

theorem meets_cons {P : A → S → Prop} {a : A} {as : List A} {s s' : S}
    (hstep : M.step a s = some s') (ha : P a s) (has : M.Meets P as s') :
    M.Meets P (a :: as) s := by
  refine ⟨ha, fun t ht => ?_⟩
  rw [hstep, Option.some.injEq] at ht
  exact ht ▸ has

theorem Meets.and {P Q : A → S → Prop} {as : List A} {s : S}
    (hP : M.Meets P as s) (hQ : M.Meets Q as s) :
    M.Meets (fun a s => P a s ∧ Q a s) as s := by
  induction as generalizing s with
  | nil => trivial
  | cons a as ih =>
      exact ⟨⟨hP.1, hQ.1⟩, fun s' hs => ih (hP.2 s' hs) (hQ.2 s' hs)⟩

/-- The condition holds along the rest of a run too. -/
theorem Meets.of_append {P : A → S → Prop} {as bs : List A} {s t : S}
    (h : M.Meets P (as ++ bs) s) (hrun : M.run as s = some t) :
    M.Meets P bs t := by
  induction as generalizing s with
  | nil =>
      rw [run_nil, Option.some.injEq] at hrun
      exact hrun ▸ h
  | cons a as ih =>
      obtain ⟨u, hu, hrest⟩ := run_cons.mp hrun
      exact ih (h.2 u hu) hrest

theorem meets_true (as : List A) (s : S) :
    M.Meets (fun _ _ => True) as s := by
  induction as generalizing s with
  | nil => trivial
  | cons a as ih => exact ⟨trivial, fun s' _ => ih s'⟩

/-- A run that ends without what bad steps bring about, and every step
keeps, has had no bad step. -/
theorem run_avoids {Bad : A → S → Prop} {J I : S → Prop}
    (hJ : ∀ a s s', J s → M.step a s = some s' → J s')
    (hbad : ∀ a s s', J s → Bad a s → M.step a s = some s' → I s')
    (hkeep : ∀ a s s', J s → I s → M.step a s = some s' → I s')
    {as : List A} {s s' : S} (hs : J s) (hrun : M.run as s = some s')
    (hend : ¬ I s') : M.Meets (fun a s => ¬ Bad a s) as s := by
  have hlast : ∀ {as : List A} {s : S}, J s → M.run as s = some s' →
      ¬ I s := by
    intro as s hs hrun hI
    have hboth : J s' ∧ I s' := run_invariant
      (I := fun s => J s ∧ I s)
      (fun a s t _ h hstep =>
        ⟨hJ a s t h.1 hstep, hkeep a s t h.1 h.2 hstep⟩)
      ⟨hs, hI⟩ (meets_true as s) hrun
    exact hend hboth.2
  induction as generalizing s with
  | nil => trivial
  | cons a as ih =>
      obtain ⟨t, ht, hrest⟩ := run_cons.mp hrun
      have ht' : J t := hJ a s t hs ht
      apply meets_cons ht
      · intro hb
        exact hlast ht' hrest (hbad a s t hs hb ht)
      · exact ih ht' hrest

/-- What every step keeps holds of every reachable state. -/
theorem Reachable.invariant {I : S → Prop} {s : S} (h : M.Reachable s)
    (hinit : I M.init)
    (hstep : ∀ a s s', I s → M.step a s = some s' → I s') : I s := by
  obtain ⟨as, hrun⟩ := h
  exact run_invariant (fun a s s' _ => hstep a s s') hinit
    (meets_true as M.init) hrun

theorem Reachable.step {a : A} {s s' : S} (h : M.Reachable s)
    (hstep : M.step a s = some s') : M.Reachable s' := by
  obtain ⟨as, hrun⟩ := h
  exact ⟨as ++ [a], run_snoc.mpr ⟨s, hrun, hstep⟩⟩

/-- What holds of the empty run and is carried from a run to one with one
more step holds of every run. -/
theorem Runs.history {I : List A → S → Prop} {as : List A} {s : S}
    (h : M.Runs as s) (hinit : I [] M.init)
    (hstep : ∀ as a s s', M.Runs as s → I as s → M.step a s = some s' →
      I (as ++ [a]) s') : I as s := by
  induction as using List.reverseRecOn generalizing s with
  | nil =>
      rw [Runs, run_nil, Option.some.injEq] at h
      exact h ▸ hinit
  | append_singleton as a ih =>
      obtain ⟨t, ht, hlast⟩ := run_snoc.mp h
      exact hstep as a t s ht (ih ht) hlast

/-- Where each step is a step of another machine on a part of the state,
or leaves that part alone, that part is reachable there. -/
theorem Reachable.project {B T : Type} {N : Machine B T} {f : S → T} {s : S}
    (h : M.Reachable s) (hinit : f M.init = N.init)
    (hstep : ∀ a s s', M.step a s = some s' →
      f s' = f s ∨ ∃ b, N.step b (f s) = some (f s')) :
    N.Reachable (f s) := by
  apply h.invariant (I := fun s => N.Reachable (f s))
  · exact ⟨[], by rw [Runs, run_nil, hinit]⟩
  · intro a s s' hs hs'
    rcases hstep a s s' hs' with heq | ⟨b, hb⟩
    · rw [heq]
      exact hs
    · exact hs.step hb

end Machine

end Interact
