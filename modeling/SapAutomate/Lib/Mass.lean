/-
Mass on the places of a vector: what a program puts there by adding to one
place after the other.

`Gains v v' m` says that `v'` is `v` with a mass of `m` more, wherever it
went. A step that adds to a place gains what it adds (`Gains.addAt`), and a
loop of steps gains what its steps gain together (`Gains.foldl`).
-/
import Mathlib.Algebra.BigOperators.Group.List.Basic
import Mathlib.Algebra.Order.Monoid.Defs

namespace Mass

variable {K ι : Type}

-- ================================================================ places

/-- `v[i] += x`. -/
def addAt [Add K] (v : List K) (i : Nat) (x : K) : List K :=
  v.modify i (· + x)

theorem sum_modify_add [AddCommMonoid K] {v : List K} {i : Nat}
    (hi : i < v.length) (x : K) : (addAt v i x).sum = v.sum + x := by
  unfold addAt
  induction v generalizing i with
  | nil => exact absurd hi (Nat.not_lt_zero i)
  | cons y v ih =>
      cases i with
      | zero =>
          rw [List.modify_zero_cons, List.sum_cons, List.sum_cons,
            add_right_comm]
      | succ i =>
          have hi : i < v.length := Nat.lt_of_succ_lt_succ hi
          rw [List.modify_succ_cons, List.sum_cons, List.sum_cons, ih hi,
            add_assoc]

theorem mem_addAt [Add K] {v : List K} {i : Nat} {x y : K}
    (h : y ∈ addAt v i x) : y ∈ v ∨ ∃ z ∈ v, y = z + x := by
  unfold addAt at h
  induction v generalizing i with
  | nil => simp at h
  | cons z v ih =>
      cases i with
      | zero =>
          rw [List.modify_zero_cons, List.mem_cons] at h
          rcases h with rfl | h
          · exact .inr ⟨z, List.mem_cons_self, rfl⟩
          · exact .inl (List.mem_cons_of_mem z h)
      | succ i =>
          rw [List.modify_succ_cons, List.mem_cons] at h
          rcases h with rfl | h
          · exact .inl List.mem_cons_self
          · rcases ih h with h | ⟨w, hw, rfl⟩
            · exact .inl (List.mem_cons_of_mem z h)
            · exact .inr ⟨w, List.mem_cons_of_mem z hw, rfl⟩

/-- The places of a vector, one after the other. -/
theorem sum_range_getD [AddCommMonoid K] (v : List K) :
    ((List.range v.length).map fun i => v.getD i 0).sum = v.sum := by
  refine congrArg List.sum (List.ext_getElem (by simp) fun i hi hi' => ?_)
  simp [hi']

-- ================================================================= gains

variable [AddCommMonoid K] [PartialOrder K]

/-- No place has less than nothing. -/
def Nonneg (v : List K) : Prop := ∀ x ∈ v, 0 ≤ x

theorem Nonneg.getD {p : List K} (hp : Nonneg p) (i : Nat) :
    0 ≤ p.getD i 0 := by
  rw [List.getD_eq_getElem?_getD]
  cases hi : p[i]? with
  | none => exact le_refl _
  | some x => exact hp x (List.mem_of_getElem? hi)

/-- One vector is the other with this much more on it. -/
structure Gains (v v' : List K) (m : K) : Prop where
  length : v'.length = v.length
  sum : v'.sum = v.sum + m
  nonneg : Nonneg v → Nonneg v'

namespace Gains

theorem refl (v : List K) : Gains v v 0 :=
  ⟨rfl, (add_zero _).symm, id⟩

theorem trans {v v' v'' : List K} {m m' : K} (h : Gains v v' m)
    (h' : Gains v' v'' m') : Gains v v'' (m + m') where
  length := h'.length.trans h.length
  sum := by rw [h'.sum, h.sum, add_assoc]
  nonneg := fun hv => h'.nonneg (h.nonneg hv)

theorem addAt [IsOrderedAddMonoid K] {v : List K} {i : Nat}
    (hi : i < v.length) {x : K} (hx : 0 ≤ x) : Gains v (Mass.addAt v i x) x where
  length := List.length_modify _ _ _
  sum := sum_modify_add hi x
  nonneg := fun hv y hy => by
    rcases mem_addAt hy with hy | ⟨z, hz, rfl⟩
    · exact hv y hy
    · exact add_nonneg (hv z hz) hx

/-- A loop gains what its steps gain. -/
theorem foldl {f : List K → ι → List K} {m : ι → K} {n : Nat}
    {l : List ι}
    (h : ∀ v : List K, v.length = n → ∀ i ∈ l, Gains v (f v i) (m i))
    {v : List K} (hv : v.length = n) :
    Gains v (l.foldl f v) (l.map m).sum := by
  induction l generalizing v with
  | nil => exact refl v
  | cons i l ih =>
      have hstep := h v hv i List.mem_cons_self
      have hrest := ih (fun w hw j hj => h w hw j (List.mem_cons_of_mem i hj))
        (hstep.length.trans hv)
      exact hstep.trans hrest

end Gains

/-- A vector of nothing. -/
theorem gains_replicate {n : Nat} {v : List K} {m : K}
    (h : Gains (List.replicate n 0) v m) : v.sum = m ∧ Nonneg v := by
  constructor
  · rw [h.sum, List.sum_replicate, nsmul_zero, zero_add]
  · refine h.nonneg fun x hx => ?_
    rw [List.eq_of_mem_replicate hx]

end Mass
