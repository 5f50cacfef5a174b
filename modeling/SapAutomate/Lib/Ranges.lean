/-
Ranges of positions, each from its start to before its end: those that
tile an interval follow one another without a gap. A position of the
interval is in exactly one of them (`Tile.unique`).
-/
import Mathlib.Data.List.Basic
import Mathlib.Logic.ExistsUnique

namespace Ranges

/-- Ranges that go from one position to another, none of them empty. -/
def Tile : Nat → List (Nat × Nat) → Nat → Prop
  | a, [], b => a = b
  | a, r :: rs, b => r.1 = a ∧ r.1 < r.2 ∧ Tile r.2 rs b

theorem Tile.le {a b : Nat} {rs : List (Nat × Nat)} (h : Tile a rs b) :
    a ≤ b := by
  induction rs generalizing a with
  | nil => exact Nat.le_of_eq h
  | cons r rs ih =>
      obtain ⟨rfl, hlt, hrest⟩ := h
      exact Nat.le_trans (Nat.le_of_lt hlt) (ih hrest)

/-- Each range starts where the one before it ends. -/
theorem Tile.next {a b : Nat} {pre post : List (Nat × Nat)} {r s : Nat × Nat}
    (h : Tile a (pre ++ r :: s :: post) b) : r.2 = s.1 := by
  induction pre generalizing a with
  | nil => exact h.2.2.1.symm
  | cons _ pre ih => exact ih h.2.2

theorem Tile.last {a b : Nat} {pre : List (Nat × Nat)} {r : Nat × Nat}
    (h : Tile a (pre ++ [r]) b) : r.2 = b := by
  induction pre generalizing a with
  | nil => exact h.2.2
  | cons _ pre ih => exact ih h.2.2

theorem Tile.bounds {a b : Nat} {rs : List (Nat × Nat)} (h : Tile a rs b) :
    ∀ r ∈ rs, a ≤ r.1 ∧ r.1 < r.2 ∧ r.2 ≤ b := by
  induction rs generalizing a with
  | nil => exact nofun
  | cons s rs ih =>
      obtain ⟨rfl, hlt, hrest⟩ := h
      intro r hr
      rcases List.mem_cons.mp hr with rfl | hr
      · exact ⟨Nat.le_refl _, hlt, hrest.le⟩
      · obtain ⟨hstart, hr, hend⟩ := ih hrest r hr
        exact ⟨Nat.le_trans (Nat.le_of_lt hlt) hstart, hr, hend⟩

/-- Every position is in one range, and in no other. -/
theorem Tile.unique {a b : Nat} {rs : List (Nat × Nat)} (h : Tile a rs b)
    {i : Nat} (ha : a ≤ i) (hb : i < b) :
    ∃! k : Nat, ∃ r : Nat × Nat, rs[k]? = some r ∧ r.1 ≤ i ∧ i < r.2 := by
  induction rs generalizing a with
  | nil =>
      have hab : a = b := h
      omega
  | cons s rs ih =>
      obtain ⟨rfl, hlt, hrest⟩ := h
      rcases Nat.lt_or_ge i s.2 with hi | hi
      · refine ⟨0, ⟨s, rfl, ha, hi⟩, ?_⟩
        rintro (_ | k) ⟨r, hr, hstart, -⟩
        · rfl
        · have hmem : r ∈ rs := List.mem_of_getElem? hr
          have := (hrest.bounds r hmem).1
          omega
      · obtain ⟨k, ⟨r, hr, hin⟩, huniq⟩ := ih hrest hi
        refine ⟨k + 1, ⟨r, hr, hin⟩, ?_⟩
        rintro (_ | j) ⟨r', hr', hin'⟩
        · obtain rfl : s = r' := Option.some.inj hr'
          omega
        · rw [huniq j ⟨r', hr', hin'⟩]

end Ranges
