/-
Nesting by depths: what comes is within the last thing before it that is
less deep (`nearest`).

Those that something may still come within are open: nothing after them is
as shallow (`opened`). Their depths increase, so what is no deeper than the
next one is at the end, and the nearest is what is left at the end then
(`opened_snoc`, `nearest_eq`).
-/
import Mathlib.Data.List.DropRight
import Mathlib.Data.List.Pairwise

namespace Nesting

variable {α : Type}

/-- The last place before, of less depth. -/
def nearest (ds : List Nat) (d : Nat) : Option Nat :=
  ((List.range ds.length).filter fun j => ds.getD j 0 < d).getLast?

/-- The places after which all is deeper. -/
def opened (ds : List Nat) : List Nat :=
  (List.range ds.length).filter fun j =>
    ∀ i < ds.length, j < i → ds.getD j 0 < ds.getD i 0

theorem mem_opened {ds : List Nat} {j : Nat} :
    j ∈ opened ds ↔ j < ds.length
      ∧ ∀ i < ds.length, j < i → ds.getD j 0 < ds.getD i 0 := by
  rw [opened, List.mem_filter, List.mem_range, decide_eq_true_eq]

theorem opened_sorted (ds : List Nat) : (opened ds).Pairwise (· < ·) :=
  List.pairwise_lt_range.filter _

/-- Depths increase over what is open. -/
theorem opened_depths (ds : List Nat) :
    (opened ds).Pairwise fun i j => ds.getD i 0 < ds.getD j 0 := by
  refine (opened_sorted ds).imp_of_mem fun hi hj hij => ?_
  exact (mem_opened.mp hi).2 _ (mem_opened.mp hj).1 hij

theorem getD_snoc_lt {ds : List Nat} {d j : Nat} (hj : j < ds.length) :
    (ds ++ [d]).getD j 0 = ds.getD j 0 := by
  rw [List.getD_eq_getElem?_getD, List.getD_eq_getElem?_getD,
    List.getElem?_append_left hj]

theorem getD_snoc_self (ds : List Nat) (d : Nat) :
    (ds ++ [d]).getD ds.length 0 = d := by
  rw [List.getD_eq_getElem?_getD, List.getElem?_concat_length]
  rfl

/-- What comes closes what is not less deep, and is open. -/
theorem opened_snoc (ds : List Nat) (d : Nat) :
    opened (ds ++ [d])
      = (opened ds).filter (fun j => ds.getD j 0 < d) ++ [ds.length] := by
  unfold opened
  rw [List.length_append, List.length_singleton, List.range_succ,
    List.filter_append, List.filter_filter]
  congr 1
  · refine List.filter_congr fun j hj => ?_
    have hj : j < ds.length := List.mem_range.mp hj
    rw [← Bool.decide_and, decide_eq_decide, getD_snoc_lt hj]
    constructor
    · intro h
      refine ⟨?_, fun i hi hji => ?_⟩
      · have hd := h ds.length (by omega) hj
        rwa [getD_snoc_self] at hd
      · have hd := h i (by omega) hji
        rwa [getD_snoc_lt hi] at hd
    · rintro ⟨hd, h⟩ i hi hji
      rcases Nat.lt_succ_iff_lt_or_eq.mp hi with hi | rfl
      · rw [getD_snoc_lt hi]
        exact h i hi hji
      · rw [getD_snoc_self]
        exact hd
  · refine List.filter_eq_self.mpr fun j hj => decide_eq_true fun i hi hji => ?_
    rw [List.mem_singleton.mp hj] at hji
    omega

/-- In a sorted list, the last one is the greatest. -/
theorem getLast?_eq {l : List Nat} (hl : l.Pairwise (· < ·)) {j : Nat}
    (hj : j ∈ l) (hle : ∀ i ∈ l, i ≤ j) : l.getLast? = some j := by
  induction l using List.reverseRecOn with
  | nil => cases hj
  | append_singleton l i _ =>
      rw [List.getLast?_concat]
      rcases List.mem_append.mp hj with hmem | hmem
      · have hlt := (List.pairwise_append.mp hl).2.2 j hmem i
          (List.mem_singleton.mpr rfl)
        have hij := hle i (List.mem_append_right _ (List.mem_singleton.mpr rfl))
        omega
      · rw [List.mem_singleton.mp hmem]

/-- The nearest is the last that is open and less deep. -/
theorem nearest_eq (ds : List Nat) (d : Nat) :
    nearest ds d
      = ((opened ds).filter fun j => ds.getD j 0 < d).getLast? := by
  have hsorted : ((List.range ds.length).filter fun j =>
      ds.getD j 0 < d).Pairwise (· < ·) := List.pairwise_lt_range.filter _
  unfold nearest
  induction hl : (List.range ds.length).filter fun j => ds.getD j 0 < d
    using List.reverseRecOn with
  | nil =>
      have hnone : (opened ds).filter (fun j => ds.getD j 0 < d) = [] := by
        rw [List.filter_eq_nil_iff]
        intro j hj hd
        have hmem : j ∈ (List.range ds.length).filter fun j =>
            ds.getD j 0 < d :=
          List.mem_filter.mpr ⟨List.mem_range.mpr (mem_opened.mp hj).1, hd⟩
        rw [hl] at hmem
        cases hmem
      rw [hnone]
  | append_singleton l j _ =>
      have hmem : ∀ i, i ∈ l ++ [j] ↔ i < ds.length ∧ ds.getD i 0 < d := by
        intro i
        rw [← hl, List.mem_filter, List.mem_range, decide_eq_true_eq]
      rw [hl] at hsorted
      have hle : ∀ i ∈ l ++ [j], i ≤ j := by
        intro i hi
        rcases List.mem_append.mp hi with hi | hi
        · exact ((List.pairwise_append.mp hsorted).2.2 i hi j
            (List.mem_singleton.mpr rfl)).le
        · exact (List.mem_singleton.mp hi).le
      obtain ⟨hj, hd⟩ := (hmem j).mp
        (List.mem_append_right _ (List.mem_singleton.mpr rfl))
      rw [List.getLast?_concat]
      refine (getLast?_eq ((opened_sorted ds).filter _) ?_ ?_).symm
      · refine List.mem_filter.mpr ⟨mem_opened.mpr ⟨hj, fun i hi hji => ?_⟩,
          decide_eq_true hd⟩
        by_contra hle'
        have hi := hle i ((hmem i).mpr ⟨hi, by omega⟩)
        omega
      · intro i hi
        obtain ⟨hi, hd⟩ := List.mem_filter.mp hi
        exact hle i ((hmem i).mpr
          ⟨(mem_opened.mp hi).1, of_decide_eq_true hd⟩)

/-- Where depths increase, what is not less deep is at the end. -/
theorem rdropWhile_eq {l : List (Nat × α)}
    (hl : (l.map Prod.fst).Pairwise (· < ·)) (d : Nat) :
    l.rdropWhile (fun e => d ≤ e.1) = l.filter fun e => e.1 < d := by
  induction l using List.reverseRecOn with
  | nil => rfl
  | append_singleton l e ih =>
      rw [List.map_append, List.pairwise_append] at hl
      by_cases he : d ≤ e.1
      · rw [List.rdropWhile_concat_pos _ _ _ (by simpa using he),
          ih hl.1, List.filter_append, List.filter_cons_of_neg (by simpa using he),
          List.filter_nil, List.append_nil]
      · rw [List.rdropWhile_concat_neg _ _ _ (by simpa using he)]
        refine (List.filter_eq_self.mpr fun x hx => ?_).symm
        rcases List.mem_append.mp hx with hx | hx
        · have hlt := hl.2.2 x.1 (List.mem_map.mpr ⟨x, hx, rfl⟩) e.1
            (List.mem_singleton.mpr rfl)
          exact decide_eq_true (by omega)
        · rw [List.mem_singleton.mp hx]
          exact decide_eq_true (by omega)

end Nesting
