/-
The entries of a list with the least keys, as many as are wanted: what is
chosen, what is left, and that no entry left has a lesser key than one
chosen. Which of the entries with one key are chosen is open.

To choose from lists together it is enough to choose from each first, as
many as are wanted in all (`Best.flatMap`): an entry that a list leaves
stands behind so many of its own.
-/
import Mathlib.Algebra.Order.Group.Nat
import Mathlib.Data.List.Forall2
import SapAutomate.Lib.Iteration

namespace Iteration

variable {α β κ : Type} [LinearOrder κ]

/-- `k` of the entries of a list, or all, with the least keys, in order. -/
structure Best (key : α → κ) (k : Nat) (l chosen : List α) : Prop where
  length : chosen.length = min k l.length
  sorted : chosen.Pairwise fun a b => key a ≤ key b
  rest : ∃ rest, (chosen ++ rest).Perm l
    ∧ ∀ a ∈ chosen, ∀ b ∈ rest, key a ≤ key b

variable {key : α → κ} {k : Nat} {l chosen : List α}

/-- The first of the sorted list. -/
theorem best_take (key : α → κ) (k : Nat) (l : List α) :
    Best key k l ((sortBy key l).take k) where
  length := by rw [List.length_take, (sortBy_perm key l).length_eq]
  sorted := (pairwise_sortBy key l).sublist (List.take_sublist k _)
  rest := by
    refine ⟨(sortBy key l).drop k, ?_, ?_⟩
    · rw [List.take_append_drop]
      exact sortBy_perm key l
    · have h := pairwise_sortBy key l
      rw [← List.take_append_drop k (sortBy key l)] at h
      exact (List.pairwise_append.mp h).2.2

theorem Best.mem (h : Best key k l chosen) {a : α} (ha : a ∈ chosen) :
    a ∈ l := by
  obtain ⟨rest, hperm, -⟩ := h.rest
  exact hperm.subset (List.mem_append_left _ ha)

/-- What is left stands behind all that were wanted. -/
theorem Best.full (h : Best key k l chosen) {rest : List α}
    (hperm : (chosen ++ rest).Perm l) (hrest : rest ≠ []) :
    chosen.length = k := by
  have hlen := hperm.length_eq
  rw [List.length_append] at hlen
  have hpos := List.length_pos_of_ne_nil hrest
  have hmin := h.length
  omega

/-- What lists leave that are chosen from one by one. -/
theorem exists_left {f g : β → List α} {xs : List β}
    (h : ∀ x ∈ xs, Best key k (g x) (f x)) :
    ∃ left, (xs.flatMap f ++ left).Perm (xs.flatMap g)
      ∧ ∀ b ∈ left, ∃ x ∈ xs, (f x).length = k ∧ ∀ a ∈ f x, key a ≤ key b := by
  induction xs with
  | nil => exact ⟨[], .refl _, fun b hb => nomatch hb⟩
  | cons x xs ih =>
      obtain ⟨left, hperm, hleft⟩ :=
        ih fun y hy => h y (List.mem_cons_of_mem _ hy)
      have hx := h x (List.mem_cons_self ..)
      obtain ⟨rest, hrest, hle⟩ := hx.rest
      refine ⟨rest ++ left, ?_, fun b hb => ?_⟩
      · rw [List.flatMap_cons, List.flatMap_cons]
        calc f x ++ xs.flatMap f ++ (rest ++ left)
            = f x ++ (xs.flatMap f ++ rest ++ left) := by
              simp only [List.append_assoc]
          _ |>.Perm (f x ++ (rest ++ xs.flatMap f ++ left)) :=
              (List.perm_append_comm.append_right left).append_left _
          _ |>.Perm ((f x ++ rest) ++ (xs.flatMap f ++ left)) := by
              simp only [List.append_assoc]
              exact .refl _
          _ |>.Perm (g x ++ xs.flatMap g) := hrest.append hperm
      · rcases List.mem_append.mp hb with hb | hb
        · exact ⟨x, List.mem_cons_self ..,
            hx.full hrest (List.ne_nil_of_mem hb), fun a ha => hle a ha b hb⟩
        · obtain ⟨y, hy, hfull⟩ := hleft b hb
          exact ⟨y, List.mem_cons_of_mem _ hy, hfull⟩

/-- Among the best of all, the entries below one of them are fewer than
were wanted. -/
theorem Best.countP_lt (h : Best key k l chosen) {a : α} (ha : a ∈ chosen) :
    l.countP (fun b => key b < key a) < k := by
  obtain ⟨rest, hperm, hle⟩ := h.rest
  have hrest : rest.countP (fun b => key b < key a) = 0 := by
    refine List.countP_eq_zero.mpr fun b hb => ?_
    simpa using hle a ha b hb
  have hchosen : chosen.countP (fun b => key b < key a) < chosen.length := by
    refine lt_of_le_of_ne List.countP_le_length fun hall => ?_
    have hself := List.countP_eq_length.mp hall a ha
    simp at hself
  have hmin := h.length
  rw [← hperm.countP_eq, List.countP_append, hrest]
  omega

/-- The best of the best of each are the best of all. -/
theorem Best.flatMap {f g : β → List α} {xs : List β}
    (h : Best key k (xs.flatMap f) chosen)
    (hf : ∀ x ∈ xs, Best key k (g x) (f x)) :
    Best key k (xs.flatMap g) chosen := by
  obtain ⟨left, hperm, hleft⟩ := exists_left hf
  have hlen := hperm.length_eq
  rw [List.length_append] at hlen
  have hwhole : ∀ x ∈ xs, (f x).Sublist (xs.flatMap f) := fun x hx =>
    List.sublist_flatten_of_mem (List.mem_map_of_mem hx)
  refine ⟨?_, h.sorted, ?_⟩
  · have hmin := h.length
    rcases left with _ | ⟨b, left⟩
    · rw [List.length_nil, Nat.add_zero] at hlen
      rw [hmin, hlen]
    · obtain ⟨x, hx, hfull, -⟩ := hleft b (List.mem_cons_self ..)
      have hle := (hwhole x hx).length_le
      omega
  · obtain ⟨rest, hrest, hle⟩ := h.rest
    refine ⟨rest ++ left, ?_, fun a ha b hb => ?_⟩
    · rw [← List.append_assoc]
      exact (hrest.append_right left).trans hperm
    · rcases List.mem_append.mp hb with hb | hb
      · exact hle a ha b hb
      · obtain ⟨x, hx, hfull, hbelow⟩ := hleft b hb
        by_contra hlt
        -- then all that `x` gave lie below `a`
        have hall : (f x).countP (fun c => key c < key a) = (f x).length := by
          refine List.countP_eq_length.mpr fun c hc => ?_
          simpa using (hbelow c hc).trans_lt (not_le.mp hlt)
        have hcount := (hwhole x hx).countP_le (p := fun c => key c < key a)
        have hfew := h.countP_lt ha
        omega

-- ============================================================== relations

/-- Sorting goes along with a relation that keeps the key. -/
theorem forall₂_sortBy {R : α → β → Prop} {key' : β → κ}
    (hkey : ∀ a b, R a b → key a = key' b) {l : List α} {l' : List β}
    (h : List.Forall₂ R l l') :
    List.Forall₂ R (sortBy key l) (sortBy key' l') := by
  have hinsert : ∀ {a : α} {b : β}, R a b → ∀ {l : List α} {l' : List β},
      List.Forall₂ R l l' →
      List.Forall₂ R (l.orderedInsert (fun a b => key a ≤ key b) a)
        (l'.orderedInsert (fun a b => key' a ≤ key' b) b) := by
    intro a b hab l l' hl
    induction hl with
    | nil => exact .cons hab .nil
    | @cons c d l l' hcd hl ih =>
        rw [List.orderedInsert_cons, List.orderedInsert_cons]
        by_cases hle : key a ≤ key c
        · rw [if_pos hle, if_pos (by rwa [← hkey a b hab, ← hkey c d hcd])]
          exact .cons hab (.cons hcd hl)
        · rw [if_neg hle, if_neg (by rwa [← hkey a b hab, ← hkey c d hcd])]
          exact .cons hcd ih
  induction h with
  | nil => exact .nil
  | cons hab h ih => exact hinsert hab ih

end Iteration
