/-
Modularity of a labelling of the nodes of a weighted graph, and what it
gains when one node gets another label.

`agreement` sums a symmetric function over the pairs with one label; the
modularity is that of the weights less what is expected of the degrees.
Relabelling a node only changes the pairs it is in (`agreement_update`),
so the modularity changes by the difference of two attractions: of the new
label, and of the old one to which the node would stay
(`modularity_update`).
-/
import Mathlib.Algebra.BigOperators.Ring.Finset
import Mathlib.Algebra.BigOperators.Field
import Mathlib.Tactic.FieldSimp
import Mathlib.Tactic.Ring

namespace Modularity

variable {ι L K : Type} [DecidableEq L]

-- ============================================================= agreement

/-- The sum of `f` over the pairs of one label. -/
def agreement [AddCommMonoid K] (f : ι → ι → K) (ls : ι → L) (s : Finset ι) :
    K := ∑ i ∈ s, ∑ j ∈ s, if ls i = ls j then f i j else 0

/-- The sum of `f v` over the nodes of one label. -/
def towards [AddCommMonoid K] (f : ι → K) (ls : ι → L) (s : Finset ι) (l : L) :
    K := ∑ j ∈ s with ls j = l, f j

section Update

variable [DecidableEq ι]

/-- The pairs of one node, apart from the others. -/
theorem agreement_insert [CommRing K] {f : ι → ι → K}
    (hsymm : ∀ i j, f i j = f j i) (ls : ι → L) {s : Finset ι} {v : ι}
    (hv : v ∉ s) :
    agreement f ls (insert v s)
      = f v v + 2 * towards (f v) ls s (ls v) + agreement f ls s := by
  have hrow : ∑ j ∈ s, (if ls v = ls j then f v j else 0)
      = towards (f v) ls s (ls v) := by
    unfold towards
    rw [Finset.sum_filter]
    exact Finset.sum_congr rfl fun j _ => by simp only [eq_comm]
  have hcolumn : ∑ i ∈ s, (if ls i = ls v then f i v else 0)
      = towards (f v) ls s (ls v) := by
    unfold towards
    rw [Finset.sum_filter]
    exact Finset.sum_congr rfl fun i _ => by rw [hsymm i v]
  unfold agreement
  rw [Finset.sum_insert hv, Finset.sum_insert hv, if_pos rfl, hrow]
  have hrest : ∑ i ∈ s, ∑ j ∈ insert v s, (if ls i = ls j then f i j else 0)
      = ∑ i ∈ s, (if ls i = ls v then f i v else 0)
        + ∑ i ∈ s, ∑ j ∈ s, (if ls i = ls j then f i j else 0) := by
    rw [← Finset.sum_add_distrib]
    exact Finset.sum_congr rfl fun i _ => Finset.sum_insert hv
  rw [hrest, hcolumn]
  ring

theorem towards_update [AddCommMonoid K] (f : ι → K) (ls : ι → L)
    {s : Finset ι} {v : ι} (hv : v ∉ s) (l l' : L) :
    towards f (Function.update ls v l) s l' = towards f ls s l' := by
  unfold towards
  refine Finset.sum_congr (Finset.filter_congr fun j hj => ?_) fun _ _ => rfl
  have hne : j ≠ v := fun h => hv (h ▸ hj)
  rw [Function.update_of_ne hne]

theorem agreement_frame [AddCommMonoid K] (f : ι → ι → K) (ls : ι → L)
    {s : Finset ι} {v : ι} (hv : v ∉ s) (l : L) :
    agreement f (Function.update ls v l) s = agreement f ls s := by
  unfold agreement
  refine Finset.sum_congr rfl fun i hi => Finset.sum_congr rfl fun j hj => ?_
  have hi : i ≠ v := fun h => hv (h ▸ hi)
  have hj : j ≠ v := fun h => hv (h ▸ hj)
  rw [Function.update_of_ne hi, Function.update_of_ne hj]

/-- What a new label of a node adds. -/
theorem agreement_update [CommRing K] {f : ι → ι → K}
    (hsymm : ∀ i j, f i j = f j i) (ls : ι → L) {s : Finset ι} {v : ι}
    (hv : v ∈ s) (l : L) :
    agreement f (Function.update ls v l) s - agreement f ls s
      = 2 * (towards (f v) ls (s.erase v) l
        - towards (f v) ls (s.erase v) (ls v)) := by
  have hv' : v ∉ s.erase v := Finset.notMem_erase v s
  rw [← Finset.insert_erase hv, agreement_insert hsymm _ hv',
    agreement_insert hsymm _ hv', Function.update_self,
    towards_update _ _ hv', agreement_frame _ _ hv']
  simp only [Finset.erase_insert hv']
  ring

end Update

-- ============================================================ modularity

variable [Field K] (w : ι → ι → K) (s : Finset ι)

/-- The weighted degree of a node. -/
def degree (i : ι) : K := ∑ j ∈ s, w i j

/-- Half of the degrees. -/
def total : K := (∑ i ∈ s, degree w s i) / (2 : ℕ)

/-- The Newman-Girvan modularity of a labelling. -/
def modularity (ls : ι → L) : K :=
  agreement (fun i j => w i j
    - degree w s i * degree w s j / ((2 : ℕ) * total w s)) ls s
    / ((2 : ℕ) * total w s)

/-- What draws a node to a label. -/
def attraction [DecidableEq ι] (ls : ι → L) (v : ι) (l : L) : K :=
  towards (w v) ls (s.erase v) l / total w s
    - towards (degree w s) ls (s.erase v) l * degree w s v
      / ((2 : ℕ) * total w s * total w s)

variable {w s}

/-- A new label gains its attraction, less that of the old one. -/
theorem modularity_update [DecidableEq ι] (hsymm : ∀ i j, w i j = w j i)
    (hm : total w s ≠ 0) (h2 : (2 : K) ≠ 0) (ls : ι → L) {v : ι} (hv : v ∈ s)
    (l : L) :
    modularity w s (Function.update ls v l) - modularity w s ls
      = attraction w s ls v l - attraction w s ls v (ls v) := by
  have hf : ∀ i j, w i j - degree w s i * degree w s j / (2 * total w s)
      = w j i - degree w s j * degree w s i / (2 * total w s) := by
    intro i j
    rw [hsymm i j, mul_comm (degree w s i)]
  have htowards : ∀ l', towards (fun j => w v j
        - degree w s v * degree w s j / (2 * total w s)) ls (s.erase v) l'
      = towards (w v) ls (s.erase v) l'
        - towards (degree w s) ls (s.erase v) l' * degree w s v
          / (2 * total w s) := by
    intro l'
    unfold towards
    rw [Finset.sum_sub_distrib, Finset.sum_mul, Finset.sum_div]
    refine congrArg _ (Finset.sum_congr rfl fun j _ => ?_)
    rw [mul_comm (degree w s v)]
  unfold modularity attraction
  simp only [Nat.cast_ofNat]
  rw [← sub_div, agreement_update hf ls hv l]
  simp only [htowards]
  field_simp

/-- The modularity depends on the labels by what they tell apart. -/
theorem modularity_congr {L' : Type} [DecidableEq L'] {ls : ι → L}
    {ls' : ι → L'} (h : ∀ i ∈ s, ∀ j ∈ s, ls i = ls j ↔ ls' i = ls' j) :
    modularity w s ls = modularity w s ls' := by
  unfold modularity agreement
  refine congrArg (· / _) (Finset.sum_congr rfl fun i hi =>
    Finset.sum_congr rfl fun j hj => ?_)
  exact if_congr (h i hi j hj) rfl rfl

end Modularity
