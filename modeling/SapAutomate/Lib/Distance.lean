/-
Distances in a graph, from a set of sources: the length of a shortest walk
(`Dist`).

A node at the distance `n + 1` has a neighbour at the distance `n`
(`Dist.pred`), and a neighbour of a node at the distance `n` that is not
nearer itself is at `n + 1` (`Dist.succ`). So the distances are found layer
by layer, and there is none after a layer that is empty (`Dist.of_le`).
-/
import Mathlib.Data.Nat.Find

namespace Distance

variable {α β : Type}

/-- A walk of some length, from a source. -/
inductive Walk (adj : α → α → Prop) (source : α → Prop) : Nat → α → Prop where
  | here {a : α} : source a → Walk adj source 0 a
  | step {n : Nat} {a b : α} :
      Walk adj source n a → adj a b → Walk adj source (n + 1) b

/-- The length of a shortest walk. -/
def Dist (adj : α → α → Prop) (source : α → Prop) (n : Nat) (a : α) : Prop :=
  Walk adj source n a ∧ ∀ m, Walk adj source m a → n ≤ m

variable {adj : α → α → Prop} {source : α → Prop}

theorem Dist.unique {n m : Nat} {a : α} (h : Dist adj source n a)
    (h' : Dist adj source m a) : n = m :=
  Nat.le_antisymm (h.2 m h'.1) (h'.2 n h.1)

/-- What a walk leads to has a distance, and no greater one. -/
theorem Walk.dist {n : Nat} {a : α} (h : Walk adj source n a) :
    ∃ m, m ≤ n ∧ Dist adj source m a := by
  classical
  have hex : ∃ m, Walk adj source m a := ⟨n, h⟩
  exact ⟨Nat.find hex, Nat.find_min' hex h, Nat.find_spec hex,
    fun m hm => Nat.find_min' hex hm⟩

/-- The sources are what is at no distance. -/
theorem dist_zero {a : α} : Dist adj source 0 a ↔ source a := by
  constructor
  · rintro ⟨hwalk, -⟩
    cases hwalk with
    | here ha => exact ha
  · exact fun ha => ⟨.here ha, fun m _ => Nat.zero_le m⟩

/-- One step before, one less. -/
theorem Dist.pred {n : Nat} {b : α} (h : Dist adj source (n + 1) b) :
    ∃ a, Dist adj source n a ∧ adj a b := by
  obtain ⟨hwalk, hmin⟩ := h
  cases hwalk with
  | @step _ a _ hwalk hab =>
      obtain ⟨m, hm, hdist⟩ := hwalk.dist
      have hle := hmin (m + 1) (.step hdist.1 hab)
      have heq : m = n := by omega
      exact ⟨a, heq ▸ hdist, hab⟩

/-- One step on, one more, unless it was nearer. -/
theorem Dist.succ {n : Nat} {a b : α} (h : Dist adj source n a) (hab : adj a b)
    (hfar : ∀ m, m ≤ n → ¬ Dist adj source m b) :
    Dist adj source (n + 1) b := by
  obtain ⟨m, hm, hdist⟩ := (Walk.step h.1 hab).dist
  have heq : m = n + 1 := by
    by_contra hne
    exact hfar m (by omega) hdist
  exact heq ▸ hdist

/-- After an empty layer there is none. -/
theorem Dist.of_le {n m : Nat} {b : α} (h : Dist adj source m b)
    (hle : n ≤ m) : ∃ a, Dist adj source n a := by
  induction m generalizing b with
  | zero =>
      have heq : n = 0 := by omega
      exact ⟨b, heq ▸ h⟩
  | succ m ih =>
      rcases Nat.lt_or_eq_of_le hle with hlt | heq
      · obtain ⟨a, ha, -⟩ := h.pred
        exact ih ha (by omega)
      · exact ⟨b, heq ▸ h⟩

/-- Two graphs with the same walks have the same distances. -/
theorem dist_congr {adj' : β → β → Prop} {source' : β → Prop} {a : α} {b : β}
    (h : ∀ m, Walk adj source m a ↔ Walk adj' source' m b) (n : Nat) :
    Dist adj source n a ↔ Dist adj' source' n b := by
  unfold Dist
  rw [h n]
  exact and_congr_right fun _ => forall_congr' fun m => by rw [h m]

end Distance
