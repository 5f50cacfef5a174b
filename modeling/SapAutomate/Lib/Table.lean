/-
Tables: what a hash map holds, read by key. The order in which a map is
gone through is no part of it.

`putAll` stores values under keys of their own, one after the other; what
is then found under a key is the last value with that key
(`putAll_apply`). `keepFirst` is the store that skips a value which looks
like the one it holds; what is then found is the first of the last run of
values that look alike (`keepFirst_spec`).
-/
import Mathlib.Data.List.Induction
import Mathlib.Logic.Function.Basic

/-- A map from keys to values. -/
abbrev Table (K V : Type) := K → Option V

namespace Table

variable {K V : Type} [DecidableEq K]

/-- A map with nothing in it. -/
def empty : Table K V := fun _ => none

/-- One entry put in, in place of another under its key. -/
def insert (m : Table K V) (k : K) (v : V) : Table K V :=
  Function.update m k (some v)

@[simp] theorem insert_self (m : Table K V) (k : K) (v : V) :
    m.insert k v k = some v := Function.update_self ..

@[simp] theorem insert_ne {k k' : K} (h : k' ≠ k) (m : Table K V) (v : V) :
    m.insert k v k' = m k' := Function.update_of_ne h ..

/-- An entry taken out. -/
def remove (m : Table K V) (k : K) : Table K V := Function.update m k none

@[simp] theorem remove_self (m : Table K V) (k : K) : m.remove k k = none :=
  Function.update_self ..

@[simp] theorem remove_ne {k k' : K} (h : k' ≠ k) (m : Table K V) :
    m.remove k k' = m k' := Function.update_of_ne h ..

/-- Values put in under their own keys. -/
def putAll (key : V → K) (m : Table K V) (vs : List V) : Table K V :=
  vs.foldl (fun m v => m.insert (key v) v) m

@[simp] theorem putAll_nil (key : V → K) (m : Table K V) :
    m.putAll key [] = m := rfl

@[simp] theorem putAll_cons (key : V → K) (m : Table K V) (v : V)
    (vs : List V) :
    m.putAll key (v :: vs) = (m.insert (key v) v).putAll key vs := rfl

/-- Under a key stands the last value that has it. -/
theorem putAll_apply (key : V → K) (m : Table K V) (vs : List V) (k : K) :
    m.putAll key vs k
      = ((vs.filter fun v => key v = k).getLast?).or (m k) := by
  induction vs generalizing m with
  | nil => rfl
  | cons v vs ih =>
      rw [putAll_cons, ih]
      by_cases hk : key v = k
      · subst hk
        rw [List.filter_cons_of_pos (by simp), insert_self]
        cases hrest : vs.filter fun v' => key v' = key v with
        | nil => rfl
        | cons w ws => rw [List.getLast?_cons_cons, List.getLast?_cons]; rfl
      · rw [List.filter_cons_of_neg (by simpa using hk),
          insert_ne (Ne.symm hk)]

-- ===================================================== keeping the first

/-- What is held after `v` is offered: a value that looks like it stays. -/
def keepFirst {β : Type} [DecidableEq β] (look : V → β) (held : Option V)
    (v : V) : Option V :=
  match held with
  | some h => if look h = look v then some h else some v
  | none => some v

/-- What is held then was held before, or has been offered. -/
theorem keepFirst_mem {β : Type} [DecidableEq β] {look : V → β}
    {held : Option V} {vs : List V} {v : V}
    (h : vs.foldl (keepFirst look) held = some v) : held = some v ∨ v ∈ vs := by
  induction vs generalizing held with
  | nil => exact .inl h
  | cons w vs ih =>
      rcases ih h with hheld | hmem
      · cases held with
        | none =>
            rw [keepFirst, Option.some.injEq] at hheld
            exact .inr (by simp [hheld])
        | some u =>
            by_cases hlook : look u = look w
            · rw [keepFirst, if_pos hlook] at hheld
              exact .inl hheld
            · rw [keepFirst, if_neg hlook, Option.some.injEq] at hheld
              exact .inr (by simp [hheld])
      · exact .inr (List.mem_cons_of_mem _ hmem)

/-- After values have been offered in turn, the first of the last run of
those that look alike is held. -/
theorem keepFirst_spec {β : Type} [DecidableEq β] (look : V → β) {vs : List V}
    (h : vs ≠ []) :
    ∃ pre v run, vs = pre ++ v :: run ∧ (∀ w ∈ run, look w = look v)
      ∧ (∀ w, pre.getLast? = some w → look w ≠ look v)
      ∧ vs.foldl (keepFirst look) none = some v := by
  induction vs using List.reverseRecOn with
  | nil => exact absurd rfl h
  | append_singleton vs x ih =>
      by_cases hvs : vs = []
      · subst hvs
        exact ⟨[], x, [], rfl, by simp, by simp, rfl⟩
      · obtain ⟨pre, v, run, heq, hrun, hpre, hheld⟩ := ih hvs
        rw [List.foldl_append, hheld]
        by_cases hlook : look v = look x
        · -- the run goes on
          refine ⟨pre, v, run ++ [x], by simp [heq], ?_, hpre,
            if_pos hlook⟩
          intro w hw
          rcases List.mem_append.mp hw with hw | hw
          · exact hrun w hw
          · rw [List.mem_singleton.mp hw, hlook]
        · -- a new run begins
          refine ⟨vs, x, [], rfl, by simp, ?_, if_neg hlook⟩
          intro w hw
          have hlast : look w = look v := by
            rw [heq, List.getLast?_append, List.getLast?_cons,
              Option.some_or, Option.some.injEq] at hw
            cases run with
            | nil =>
                rw [← hw]
                rfl
            | cons y ys =>
                refine hrun w (hw ▸ ?_)
                rw [List.getLast?_eq_some_getLast (List.cons_ne_nil y ys),
                  Option.getD_some]
                exact List.getLast_mem _
          rw [hlast]
          exact hlook

end Table
