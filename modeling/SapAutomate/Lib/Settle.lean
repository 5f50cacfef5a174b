/-
Machines that settle: no run goes on for ever, so every run can be gone
on with to a state where nothing is allowed any more.

# The measure

A program has no length: how many questions it asks depends on the
answers, and there may be infinitely many of these. But it is a tree
without infinite branches, so that what is left after an answer comes
before it in a well-founded order (`Prog.next_wf`). For tasks side by
side that is an order on the multiset of their programs, of which one
step replaces one (`Pool.resume_progs`). A machine that has more to it
than its tasks puts a rank of its own before or after this
(`Machine.settles_of_rank`).
-/
import Mathlib.Data.List.Perm.Basic
import Mathlib.Logic.Hydra
import SapAutomate.Lib.Pool

namespace Interact

-- ================================================================ tasks

variable {I : Iface} {C W σ α β : Type}

/-- What a program is after one answer. -/
inductive Prog.Next : Prog I α → Prog I α → Prop where
  | answer (q : I.Query) (k : I.Reply q → Prog I α) (r : I.Reply q) :
      Next (k r) (.ask q k)

theorem Prog.next_wf : WellFounded (Prog.Next : Prog I α → Prog I α → Prop) := by
  constructor
  intro p
  induction p with
  | done a => exact ⟨_, fun p' h => nomatch h⟩
  | ask q k ih =>
      constructor
      intro p' h
      cases h with
      | answer _ _ r => exact ih r

/-- One element of a list is replaced by one that comes before it. -/
theorem cutExpand_set {r : β → β → Prop} {l : List β} {i : Nat} {x y : β}
    (hx : l[i]? = some x) (hr : r y x) :
    Relation.CutExpand r (l.set i y : Multiset β) (l : Multiset β) := by
  obtain ⟨hi, hget⟩ := List.getElem?_eq_some_iff.mp hx
  have hold : (l : Multiset β) = {x} + (l.eraseIdx i : Multiset β) := by
    apply Multiset.coe_eq_coe.mpr
    rw [← hget]
    exact (List.getElem_cons_eraseIdx_perm hi).symm
  have hnew : (l.set i y : Multiset β) = {y} + (l.eraseIdx i : Multiset β) :=
    Multiset.coe_eq_coe.mpr (List.set_perm_cons_eraseIdx hi y)
  rw [hold, hnew]
  exact Relation.cutExpand_single_add hr _

namespace Pool

/-- What is left of the tasks. -/
def progs (p : Pool I C W σ α) : Multiset (Prog I α) :=
  (p.tasks.map (·.prog) : List (Prog I α))

/-- Tasks come to an end, in whatever order they go on. -/
theorem resume_progs {S : Shared I W σ} {i : Nat} {w : W}
    {p p' : Pool I C W σ α} (h : p.resume S i w = some p') :
    Relation.CutExpand Prog.Next p'.progs p.progs := by
  obtain ⟨t, q, k, r, s, ht, hprog, -, rfl⟩ := resume_eq_some.mp h
  have hprogs : (p.tasks.map (·.prog))[i]? = some (.ask q k) := by
    rw [List.getElem?_map, ht, ← hprog]
    rfl
  unfold progs
  rw [List.map_set]
  exact cutExpand_set hprogs (.answer q k r)

end Pool

-- ============================================================= machines

namespace Machine

variable {A S : Type} {M : Machine A S}

/-- No run goes on for ever. -/
def Settles (M : Machine A S) : Prop :=
  WellFounded fun s' s => ∃ a, M.step a s = some s'

/-- Every step goes down in some well-founded order. -/
theorem settles_of_rank {r : β → β → Prop} (hr : WellFounded r)
    (rank : S → β)
    (hstep : ∀ a s s', M.step a s = some s' → r (rank s') (rank s)) :
    M.Settles :=
  Subrelation.wf (fun h => h.elim fun a ha => hstep a _ _ ha)
    (InvImage.wf rank hr)

/-- Where some allowed action meets `P` as long as any is allowed, actions
that meet `P` lead to where none is. -/
theorem Settles.exists_stuck (h : M.Settles) {P : A → Prop}
    (hP : ∀ s, ¬ M.Stuck s → ∃ a s', P a ∧ M.step a s = some s') (s : S) :
    ∃ as s', M.run as s = some s' ∧ M.Stuck s' ∧ ∀ a ∈ as, P a := by
  induction s using h.induction with
  | _ s ih =>
      by_cases hstuck : M.Stuck s
      · exact ⟨[], s, rfl, hstuck, fun a ha => nomatch ha⟩
      · obtain ⟨a, t, ha, ht⟩ := hP s hstuck
        obtain ⟨as, s', hrun, hend, has⟩ := ih t ⟨a, ht⟩
        refine ⟨a :: as, s', run_cons.mpr ⟨t, ht, hrun⟩, hend, ?_⟩
        intro b hb
        rcases List.mem_cons.mp hb with hb | hb
        · rw [hb]
          exact ha
        · exact has b hb

end Machine

end Interact
