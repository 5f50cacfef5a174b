/-
A walk that starts again: at each step it goes back to where it starts
with probability `alpha`, and on along an edge else.

One step brings two vectors of mass closer to each other, by the factor
`1 - alpha` (`next_closer`). So there is at most one vector that a step
leaves as it is; that there is one at all is linear algebra, since a map
that keeps vectors apart reaches them all (`exists_limit`), and none of its
places is negative (`limit_nonneg`). An iteration nears it, and how near it
is shows in how far its last step went (`near_limit`).
-/
import Mathlib.Algebra.BigOperators.Ring.Finset
import Mathlib.Algebra.Order.BigOperators.Group.Finset
import Mathlib.Algebra.Order.BigOperators.Ring.Finset
import Mathlib.LinearAlgebra.FiniteDimensional.Basic
import Mathlib.LinearAlgebra.Dimension.Constructions
import Mathlib.Logic.Function.Iterate

namespace DampedWalk

variable {ι K : Type} [Fintype ι] [Field K] [LinearOrder K]

-- =============================================================== distance

/-- How far two vectors are apart, over all places. -/
def dist (p q : ι → K) : K := ∑ i, |p i - q i|

section Distance

variable [IsStrictOrderedRing K] {p q r : ι → K}

theorem dist_nonneg : 0 ≤ dist p q :=
  Finset.sum_nonneg fun _ _ => abs_nonneg _

omit [IsStrictOrderedRing K] in
theorem dist_comm : dist p q = dist q p :=
  Finset.sum_congr rfl fun i _ => abs_sub_comm (p i) (q i)

theorem dist_triangle : dist p r ≤ dist p q + dist q r := by
  unfold dist
  rw [← Finset.sum_add_distrib]
  exact Finset.sum_le_sum fun i _ => abs_sub_le (p i) (q i) (r i)

/-- No place is further apart than the whole. -/
theorem abs_le_dist (i : ι) : |p i - q i| ≤ dist p q :=
  Finset.single_le_sum (f := fun i => |p i - q i|)
    (fun _ _ => abs_nonneg _) (Finset.mem_univ i)

theorem eq_of_dist (h : dist p q ≤ 0) : p = q := by
  funext i
  have hzero := (abs_le_dist (p := p) (q := q) i).trans h
  exact sub_eq_zero.mp (abs_nonpos_iff.mp hzero)

end Distance

-- =================================================================== walks

/-- Where a step goes on to and with what share, and where it starts. -/
structure Walk (ι K : Type) [Fintype ι] [Field K] [LinearOrder K] where
  step : ι → ι → K
  start : ι → K
  alpha : K
  step_nonneg : ∀ i j, 0 ≤ step i j
  step_sum : ∀ i, ∑ j, step i j ≤ 1
  start_nonneg : ∀ j, 0 ≤ start j
  alpha_pos : 0 < alpha
  alpha_le : alpha ≤ 1

namespace Walk

/-- What is gone on with, of a vector. -/
def along (w : Walk ι K) (p : ι → K) (j : ι) : K := ∑ i, p i * w.step i j

/-- One step. -/
def next (w : Walk ι K) (p : ι → K) (j : ι) : K :=
  w.alpha * w.start j + (1 - w.alpha) * w.along p j

/-- A step leaves it as it is. -/
def IsLimit (w : Walk ι K) (p : ι → K) : Prop := w.next p = p

variable [IsStrictOrderedRing K] (w : Walk ι K) {p q : ι → K}

theorem damping_nonneg : 0 ≤ 1 - w.alpha := sub_nonneg.mpr w.alpha_le

theorem damping_lt : 1 - w.alpha < 1 := sub_lt_self 1 w.alpha_pos

/-- Going on, mass gets no more. -/
theorem sum_along_le {p : ι → K} (hp : ∀ i, 0 ≤ p i) :
    ∑ j, w.along p j ≤ ∑ i, p i := by
  unfold along
  rw [Finset.sum_comm]
  refine Finset.sum_le_sum fun i _ => ?_
  rw [← Finset.mul_sum]
  exact mul_le_of_le_one_right (hp i) (w.step_sum i)

theorem abs_along_le (p : ι → K) (j : ι) :
    |w.along p j| ≤ w.along (fun i => |p i|) j := by
  refine (Finset.abs_sum_le_sum_abs _ _).trans (Finset.sum_le_sum fun i _ => ?_)
  rw [abs_mul, abs_of_nonneg (w.step_nonneg i j)]

omit [IsStrictOrderedRing K] in
theorem along_sub (p q : ι → K) (j : ι) :
    w.along (fun i => p i - q i) j = w.along p j - w.along q j := by
  unfold along
  rw [← Finset.sum_sub_distrib]
  exact Finset.sum_congr rfl fun i _ => sub_mul _ _ _

theorem along_nonneg (hp : ∀ i, 0 ≤ p i) (j : ι) : 0 ≤ w.along p j :=
  Finset.sum_nonneg fun i _ => mul_nonneg (hp i) (w.step_nonneg i j)

theorem next_nonneg (hp : ∀ i, 0 ≤ p i) (j : ι) : 0 ≤ w.next p j :=
  add_nonneg (mul_nonneg w.alpha_pos.le (w.start_nonneg j))
    (mul_nonneg w.damping_nonneg (w.along_nonneg hp j))

/-- A step brings two vectors closer. -/
theorem next_closer (p q : ι → K) :
    dist (w.next p) (w.next q) ≤ (1 - w.alpha) * dist p q := by
  have hplace : ∀ j, |w.next p j - w.next q j|
      ≤ (1 - w.alpha) * w.along (fun i => |p i - q i|) j := by
    intro j
    unfold next
    rw [add_sub_add_left_eq_sub, ← mul_sub, ← w.along_sub, abs_mul,
      abs_of_nonneg w.damping_nonneg]
    exact mul_le_mul_of_nonneg_left (w.abs_along_le _ j) w.damping_nonneg
  calc dist (w.next p) (w.next q)
      ≤ ∑ j, (1 - w.alpha) * w.along (fun i => |p i - q i|) j :=
        Finset.sum_le_sum fun j _ => hplace j
    _ = (1 - w.alpha) * ∑ j, w.along (fun i => |p i - q i|) j := by
        rw [Finset.mul_sum]
    _ ≤ (1 - w.alpha) * dist p q :=
        mul_le_mul_of_nonneg_left (w.sum_along_le fun i => abs_nonneg _)
          w.damping_nonneg

/-- So do several. -/
theorem iterate_closer (p q : ι → K) (n : Nat) :
    dist (w.next^[n] p) (w.next^[n] q) ≤ (1 - w.alpha) ^ n * dist p q := by
  induction n with
  | zero =>
      rw [pow_zero, one_mul]
      exact le_refl _
  | succ n ih =>
      rw [Function.iterate_succ_apply', Function.iterate_succ_apply']
      calc dist (w.next (w.next^[n] p)) (w.next (w.next^[n] q))
          ≤ (1 - w.alpha) * dist (w.next^[n] p) (w.next^[n] q) :=
            w.next_closer _ _
        _ ≤ (1 - w.alpha) * ((1 - w.alpha) ^ n * dist p q) :=
            mul_le_mul_of_nonneg_left ih w.damping_nonneg
        _ = (1 - w.alpha) ^ (n + 1) * dist p q := by rw [pow_succ', mul_assoc]

-- ================================================================== limits

variable {w}

theorem IsLimit.unique (hp : w.IsLimit p) (hq : w.IsLimit q) : p = q := by
  have hcloser := w.next_closer p q
  rw [hp, hq] at hcloser
  refine eq_of_dist ?_
  by_contra hlt
  have hshrinks : (1 - w.alpha) * dist p q < dist p q :=
    mul_lt_of_lt_one_left (not_le.mp hlt) w.damping_lt
  exact absurd hcloser (not_le.mpr hshrinks)

/-- No place of it is negative: what is negative of it gets less by a
step. -/
theorem IsLimit.nonneg (hp : w.IsLimit p) (i : ι) : 0 ≤ p i := by
  have hneg : ∀ j, max (-p j) 0
      ≤ (1 - w.alpha) * w.along (fun i => max (-p i) 0) j := by
    intro j
    have halong := w.along_nonneg (fun i => le_max_right (-p i) 0) j
    refine max_le ?_ (mul_nonneg w.damping_nonneg halong)
    have hstep : -w.along p j ≤ w.along (fun i => max (-p i) 0) j := by
      unfold along
      rw [← Finset.sum_neg_distrib]
      refine Finset.sum_le_sum fun i _ => ?_
      rw [← neg_mul]
      exact mul_le_mul_of_nonneg_right (le_max_left _ _) (w.step_nonneg i j)
    have hj : p j = w.alpha * w.start j + (1 - w.alpha) * w.along p j :=
      (congrFun hp j).symm
    rw [hj, neg_add, ← mul_neg (1 - w.alpha)]
    exact (add_le_of_nonpos_left (neg_nonpos.mpr
      (mul_nonneg w.alpha_pos.le (w.start_nonneg j)))).trans
        (mul_le_mul_of_nonneg_left hstep w.damping_nonneg)
  have hsum : ∑ j, max (-p j) 0 ≤ (1 - w.alpha) * ∑ j, max (-p j) 0 :=
    calc ∑ j, max (-p j) 0
        ≤ ∑ j, (1 - w.alpha) * w.along (fun i => max (-p i) 0) j :=
          Finset.sum_le_sum fun j _ => hneg j
      _ = (1 - w.alpha) * ∑ j, w.along (fun i => max (-p i) 0) j := by
          rw [Finset.mul_sum]
      _ ≤ (1 - w.alpha) * ∑ j, max (-p j) 0 :=
          mul_le_mul_of_nonneg_left (w.sum_along_le fun i => le_max_right _ _)
            w.damping_nonneg
  have hall : ∑ j, max (-p j) 0 ≤ 0 := by
    by_contra hlt
    exact absurd hsum (not_le.mpr
      (mul_lt_of_lt_one_left (not_le.mp hlt) w.damping_lt))
  have hi : max (-p i) 0 ≤ 0 :=
    (Finset.single_le_sum (f := fun j => max (-p j) 0)
      (fun j _ => le_max_right _ _) (Finset.mem_univ i)).trans hall
  exact neg_nonpos.mp ((le_max_left _ _).trans hi)

/-- What a step adds to a vector is linear in it. -/
def linear (w : Walk ι K) : (ι → K) →ₗ[K] ι → K where
  toFun p j := p j - (1 - w.alpha) * w.along p j
  map_add' p q := by
    funext j
    have halong : w.along (p + q) j = w.along p j + w.along q j := by
      unfold along
      rw [← Finset.sum_add_distrib]
      exact Finset.sum_congr rfl fun i _ => add_mul _ _ _
    rw [Pi.add_apply, Pi.add_apply, halong, mul_add]
    exact add_sub_add_comm _ _ _ _
  map_smul' c p := by
    funext j
    have halong : w.along (c • p) j = c * w.along p j := by
      unfold along
      rw [Finset.mul_sum]
      exact Finset.sum_congr rfl fun i _ => mul_assoc _ _ _
    rw [Pi.smul_apply, halong, RingHom.id_apply, Pi.smul_apply, smul_eq_mul,
      smul_eq_mul, mul_sub, mul_left_comm]

omit [IsStrictOrderedRing K] in
theorem isLimit_iff : w.IsLimit p
    ↔ w.linear p = fun j => w.alpha * w.start j := by
  unfold IsLimit
  constructor
  · intro h
    funext j
    exact sub_eq_iff_eq_add.mpr (congrFun h j).symm
  · intro h
    funext j
    exact (sub_eq_iff_eq_add.mp (congrFun h j)).symm

variable (w)

/-- There is one. -/
theorem exists_limit : ∃ p, w.IsLimit p := by
  have hinjective : Function.Injective w.linear := by
    refine (injective_iff_map_eq_zero w.linear).mpr fun p hp => ?_
    -- a walk that starts nowhere leaves it as it is, and nothing else
    let w₀ : Walk ι K :=
      { w with start := fun _ => 0, start_nonneg := fun _ => le_refl 0 }
    have hstart : (fun j => w₀.alpha * w₀.start j) = 0 := by
      funext j
      exact mul_zero _
    have hp₀ : w₀.IsLimit p := isLimit_iff.mpr (hp.trans hstart.symm)
    have hzero : w₀.IsLimit 0 :=
      isLimit_iff.mpr ((map_zero _).trans hstart.symm)
    exact hp₀.unique hzero
  have hsurjective := LinearMap.injective_iff_surjective.mp hinjective
  obtain ⟨p, hp⟩ := hsurjective fun j => w.alpha * w.start j
  exact ⟨p, isLimit_iff.mpr hp⟩

variable {w}

/-- An iteration nears it. -/
theorem IsLimit.iterate_near (hq : w.IsLimit q) (p : ι → K) (n : Nat) :
    dist (w.next^[n] p) q ≤ (1 - w.alpha) ^ n * dist p q := by
  have hcloser := w.iterate_closer p q n
  rwa [Function.iterate_fixed hq n] at hcloser

/-- How far it still is, from how far the last step went. -/
theorem IsLimit.near (hq : w.IsLimit q) (p : ι → K) :
    w.alpha * dist (w.next p) q ≤ (1 - w.alpha) * dist p (w.next p) := by
  have hcloser : dist (w.next p) q ≤ (1 - w.alpha) * dist p q := by
    have h := w.next_closer p q
    rwa [hq] at h
  have hsum : dist (w.next p) q ≤ (1 - w.alpha) * dist p (w.next p)
      + (1 - w.alpha) * dist (w.next p) q := by
    rw [← mul_add]
    exact hcloser.trans
      (mul_le_mul_of_nonneg_left dist_triangle w.damping_nonneg)
  calc w.alpha * dist (w.next p) q
      = dist (w.next p) q - (1 - w.alpha) * dist (w.next p) q := by
        rw [sub_mul, one_mul, sub_sub_cancel]
    _ ≤ (1 - w.alpha) * dist p (w.next p) := sub_le_iff_le_add.mpr hsum

end Walk

end DampedWalk
