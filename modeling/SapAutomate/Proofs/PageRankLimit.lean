/-
Where personalised PageRank goes (`sap-automate-graph/src/ppr.rs`).

An iteration is one step of a walk that starts again at the seeds
(`places_iterate`): along the edges by their weights, and from a node
without a way out to the seeds. So there is one vector that an iteration
leaves as it is, and the scores near it. Where the loop has stopped because
it moved too little, they are so near that the hits are in the order of
that vector, but for those that differ by less than the tolerance allows
(`multiHop_converges`).
-/
import SapAutomate.Lib.DampedWalk
import SapAutomate.Proofs.HopDistance

namespace SapAutomate.Graph

open Iteration Mass DampedWalk

variable {K : Type}

-- ================================================================= places

section Places

variable [AddCommMonoid K]

/-- A vector of `n` places, as a function of the place. -/
def places (n : Nat) (p : List K) (i : Fin n) : K := p.getD i 0

theorem getD_addAt {v : List K} {i : Nat} (hi : i < v.length) (x : K)
    (j : Nat) : (addAt v i x).getD j 0
      = v.getD j 0 + if i = j then x else 0 := by
  unfold addAt
  rw [List.getD_eq_getElem?_getD, List.getD_eq_getElem?_getD,
    List.getElem?_modify]
  by_cases hij : i = j
  · subst hij
    simp [hi]
  · simp only [hij, if_false, add_zero]
    cases v[j]? <;> rfl

theorem length_addAt (v : List K) (i : Nat) (x : K) :
    (addAt v i x).length = v.length := List.length_modify _ _ _

section Loop

variable {ι : Type} {f : List K → ι → List K} {l : List ι} {v : List K}

omit [AddCommMonoid K] in
theorem length_foldl (hlen : ∀ v i, (f v i).length = v.length) :
    (l.foldl f v).length = v.length := by
  induction l generalizing v with
  | nil => rfl
  | cons i l ih => exact ih.trans (hlen v i)

/-- What a loop has put on a place. -/
theorem getD_foldl {c : ι → K} {n j : Nat}
    (hlen : ∀ v i, (f v i).length = v.length)
    (h : ∀ v : List K, v.length = n → ∀ i ∈ l,
      (f v i).getD j 0 = v.getD j 0 + c i) (hv : v.length = n) :
    (l.foldl f v).getD j 0 = v.getD j 0 + (l.map c).sum := by
  induction l generalizing v with
  | nil => exact (add_zero _).symm
  | cons i l ih =>
      have hrest := ih (fun w hw k hk => h w hw k (List.mem_cons_of_mem i hk))
        ((hlen v i).trans hv)
      rw [List.foldl_cons, hrest, h v hv i List.mem_cons_self, List.map_cons,
        List.sum_cons, add_assoc]

end Loop

theorem sum_range_fin (n : Nat) (f : Nat → K) :
    ((List.range n).map f).sum = ∑ i : Fin n, f i := by
  rw [← Finset.sum_range, ← List.toFinset_range,
    List.sum_toFinset _ List.nodup_range]

/-- Vectors of a length that agree on their places. -/
theorem eq_of_places {n : Nat} {p q : List K} (hp : p.length = n)
    (hq : q.length = n) (h : places n p = places n q) : p = q := by
  refine List.ext_getElem (hp.trans hq.symm) fun i hi hi' => ?_
  have hplace := congrFun h ⟨i, by omega⟩
  unfold places at hplace
  simpa [hi, hi'] using hplace

@[simp] theorem places_ofFn {n : Nat} (p : Fin n → K) :
    places n (List.ofFn p) = p := by
  funext i
  simp [places]

end Places

variable [Field K] [LinearOrder K]

/-- `delta` is the distance of the places. -/
theorem delta_eq_dist {n : Nat} {p q : List K} (hp : p.length = n)
    (hq : q.length = n) : delta p q = dist (places n p) (places n q) := by
  have hsum : delta p q
      = ((List.range n).map fun i => |p.getD i 0 - q.getD i 0|).sum := by
    refine congrArg List.sum (List.ext_getElem (by simp [hp, hq])
      fun i hi hi' => ?_)
    have hi : i < n := by simpa using hi'
    simp [hp, hq, hi]
  rw [hsum, sum_range_fin]
  rfl

/-- A vector of scores, of this many nodes. -/
structure Scores (n : Nat) (p : List K) : Prop where
  length : p.length = n
  nonneg : Nonneg p

theorem Scores.of_places {n : Nat} {p : List K} (hp : p.length = n)
    (h : ∀ i, 0 ≤ places n p i) : Scores n p := by
  refine ⟨hp, fun x hx => ?_⟩
  obtain ⟨i, hi⟩ := List.mem_iff_getElem?.mp hx
  obtain ⟨hlt, rfl⟩ := List.getElem?_eq_some_iff.mp hi
  have hplace := h ⟨i, by omega⟩
  simpa [places, hlt] using hplace

-- ================================================================ one step

section Step

variable (nbs : List (List (Nat × K))) (teleport : List K)

/-- What one node's mass goes on to another with. -/
def share (i j : Nat) : K :=
  if outWeight nbs i ≤ 0 then teleport.getD j 0
  else ((nbs.getD i []).map fun x =>
    if x.1 = j then x.2 / outWeight nbs i else 0).sum

variable {nbs teleport} [IsStrictOrderedRing K] {alpha : K} {p v : List K}

omit [IsStrictOrderedRing K] in
theorem Walkable.mem (hw : Walkable nbs) {i : Nat} {x : Nat × K}
    (hx : x ∈ nbs.getD i []) : x.1 < nbs.length ∧ 0 ≤ x.2 := by
  rcases getD_nil_cases nbs i with hnil | hin
  · rw [hnil] at hx
    cases hx
  · exact ⟨hw.target _ hin x hx, hw.weight _ hin x hx⟩

theorem share_nonneg (hw : Walkable nbs) (ht : Nonneg teleport) (i j : Nat) :
    0 ≤ share nbs teleport i j := by
  unfold share
  split
  · exact ht.getD j
  · next hout =>
      refine List.sum_nonneg fun y hy => ?_
      obtain ⟨x, hx, rfl⟩ := List.mem_map.mp hy
      split
      · exact div_nonneg (hw.mem hx).2 (not_le.mp hout).le
      · exact le_refl 0

omit [LinearOrder K] [IsStrictOrderedRing K] in
/-- Spread over the places it goes to, a list is as much as it was. -/
theorem sum_spread {n : Nat} {l : List (Nat × K)} (h : ∀ x ∈ l, x.1 < n)
    (f : Nat × K → K) :
    ∑ j : Fin n, (l.map fun x => if x.1 = (j : Nat) then f x else 0).sum
      = (l.map f).sum := by
  induction l with
  | nil => simp
  | cons x l ih =>
      have hx : ∑ j : Fin n, (if x.1 = (j : Nat) then f x else 0) = f x := by
        rw [Finset.sum_eq_single ⟨x.1, h x List.mem_cons_self⟩]
        · rw [if_pos rfl]
        · intro j _ hj
          exact if_neg fun heq => hj (Fin.ext heq.symm)
        · intro hnot
          exact absurd (Finset.mem_univ _) hnot
      simp only [List.map_cons, List.sum_cons, Finset.sum_add_distrib]
      rw [hx, ih fun y hy => h y (List.mem_cons_of_mem x hy)]

omit [IsStrictOrderedRing K] in
theorem share_sum (hw : Walkable nbs) (ht : teleport.length = nbs.length)
    (hone : teleport.sum ≤ 1) (i : Nat) :
    ∑ j : Fin nbs.length, share nbs teleport i j ≤ 1 := by
  unfold share
  by_cases hout : outWeight nbs i ≤ 0
  · simp only [if_pos hout]
    rw [← sum_range_fin nbs.length fun j => teleport.getD j 0, ← ht,
      sum_range_getD]
    exact hone
  · simp only [if_neg hout]
    rw [sum_spread (fun x hx => (hw.mem hx).1) fun x => x.2 / outWeight nbs i]
    simp only [div_eq_mul_inv]
    rw [List.sum_map_mul_right]
    exact (mul_inv_cancel₀ (not_le.mp hout).ne').le

omit [IsStrictOrderedRing K] in
theorem length_distribute (i : Nat) :
    (distribute nbs alpha p v i).length = v.length := by
  unfold distribute
  split
  · rfl
  · exact length_foldl fun v x => length_addAt v _ _

omit [IsStrictOrderedRing K] in
theorem length_restart (i : Nat) :
    (restart nbs teleport alpha p v i).length = v.length := by
  unfold restart
  dsimp only
  split
  · exact (length_foldl fun v x => length_addAt v _ _).trans
      (length_addAt v _ _)
  · exact length_addAt v _ _

omit [IsStrictOrderedRing K] in
theorem length_iterate :
    (iterate nbs teleport alpha p).length = nbs.length :=
  (length_foldl fun _ i => length_restart i).trans
    ((length_foldl fun _ i => length_distribute i).trans
      List.length_replicate)

variable (teleport) in
omit [IsStrictOrderedRing K] in
theorem distribute_place (hw : Walkable nbs) (hv : v.length = nbs.length)
    (i j : Nat) : (distribute nbs alpha p v i).getD j 0 = v.getD j 0
      + if outWeight nbs i ≤ 0 then 0
        else (1 - alpha) * (p.getD i 0 * share nbs teleport i j) := by
  unfold distribute
  by_cases hout : outWeight nbs i ≤ 0
  · rw [if_pos (.inl hout), if_pos hout, add_zero]
  by_cases hzero : p.getD i 0 = 0
  · rw [if_pos (.inr hzero), if_neg hout, hzero, zero_mul, mul_zero, add_zero]
  rw [if_neg (not_or.mpr ⟨hout, hzero⟩), if_neg hout]
  have hloop := getD_foldl (j := j) (l := nbs.getD i [])
    (f := fun next (x : Nat × K) =>
      addAt next x.1 ((1 - alpha) * p.getD i 0 * (x.2 / outWeight nbs i)))
    (fun v x => length_addAt v _ _)
    (fun w hlen x hx => getD_addAt (by rw [hlen]; exact (hw.mem hx).1) _ j) hv
  refine hloop.trans ?_
  unfold share
  rw [if_neg hout, ← mul_assoc, ← List.sum_map_mul_left]
  refine congrArg (v.getD j 0 + ·) (congrArg List.sum
    (List.map_congr_left fun x _ => ?_))
  split
  · rfl
  · exact (mul_zero _).symm

omit [IsStrictOrderedRing K] in
theorem restart_place (hp : Nonneg p) (hv : v.length = nbs.length) {i j : Nat}
    (hi : i < nbs.length) (hj : j < nbs.length) :
    (restart nbs teleport alpha p v i).getD j 0
      = v.getD j 0 + ((if i = j then alpha * teleport.getD i 0 else 0)
        + if outWeight nbs i ≤ 0
          then (1 - alpha) * (p.getD i 0 * share nbs teleport i j) else 0) := by
  have hplace := getD_addAt (v := v) (by rw [hv]; exact hi)
    (alpha * teleport.getD i 0) j
  unfold restart
  dsimp only
  by_cases hout : outWeight nbs i ≤ 0
  · rw [if_pos hout]
    by_cases hpos : 0 < p.getD i 0
    · rw [if_pos ⟨hout, hpos⟩]
      have hloop := getD_foldl (j := j) (l := List.range nbs.length)
        (f := fun next k =>
          addAt next k ((1 - alpha) * p.getD i 0 * teleport.getD k 0))
        (fun v x => length_addAt v _ _)
        (fun w hlen k hk =>
          getD_addAt (by rw [hlen]; exact List.mem_range.mp hk) _ j)
        ((length_addAt v i (alpha * teleport.getD i 0)).trans hv)
      have hone : ((List.range nbs.length).map fun k => if k = j
          then (1 - alpha) * p.getD i 0 * teleport.getD k 0 else 0).sum
            = (1 - alpha) * p.getD i 0 * teleport.getD j 0 := by
        rw [sum_range_fin, Finset.sum_eq_single ⟨j, hj⟩]
        · exact if_pos rfl
        · intro k _ hk
          exact if_neg fun heq => hk (Fin.ext heq)
        · intro hnot
          exact absurd (Finset.mem_univ _) hnot
      unfold share
      rw [if_pos hout, ← mul_assoc, ← add_assoc, ← hplace, ← hone]
      exact hloop
    · have hzero : p.getD i 0 = 0 := le_antisymm (not_lt.mp hpos) (hp.getD i)
      rw [if_neg fun h => hpos h.2, hzero, zero_mul, mul_zero, add_zero]
      exact hplace
  · rw [if_neg fun h => hout h.1, if_neg hout, add_zero]
    exact hplace

omit [IsStrictOrderedRing K] in
/-- What an iteration puts on a place. -/
theorem iterate_place (hw : Walkable nbs) (hp : Nonneg p) {j : Nat}
    (hj : j < nbs.length) : (iterate nbs teleport alpha p).getD j 0
      = alpha * teleport.getD j 0 + (1 - alpha)
        * ∑ i : Fin nbs.length, p.getD i 0 * share nbs teleport i j := by
  have hlen : (List.replicate nbs.length (0 : K)).length = nbs.length :=
    List.length_replicate
  have hspread : ((List.range nbs.length).foldl (distribute nbs alpha p)
      (List.replicate nbs.length 0)).length = nbs.length :=
    (length_foldl fun _ i => length_distribute i).trans hlen
  have hgo := getD_foldl (f := distribute nbs alpha p) (j := j)
    (l := List.range nbs.length) (fun _ i => length_distribute i)
    (fun w hw' i _ => distribute_place teleport hw hw' i j) hlen
  have hback := getD_foldl (f := restart nbs teleport alpha p) (j := j)
    (l := List.range nbs.length) (fun _ i => length_restart i)
    (fun w hw' i hi => restart_place hp hw' (List.mem_range.mp hi) hj) hspread
  have hzero : (List.replicate nbs.length (0 : K)).getD j 0 = 0 := by
    simp [hj]
  -- each node's mass goes one way or the other
  have heach : ∀ i : Nat, (if outWeight nbs i ≤ 0 then 0
        else (1 - alpha) * (p.getD i 0 * share nbs teleport i j))
      + ((if i = j then alpha * teleport.getD i 0 else 0)
        + if outWeight nbs i ≤ 0
          then (1 - alpha) * (p.getD i 0 * share nbs teleport i j) else 0)
      = (if i = j then alpha * teleport.getD i 0 else 0)
        + (1 - alpha) * (p.getD i 0 * share nbs teleport i j) := by
    intro i
    by_cases hout : outWeight nbs i ≤ 0
    · rw [if_pos hout, if_pos hout, zero_add]
    · rw [if_neg hout, if_neg hout, add_zero, add_comm]
  have hstart : ((List.range nbs.length).map fun i =>
      if i = j then alpha * teleport.getD i 0 else 0).sum
        = alpha * teleport.getD j 0 := by
    rw [sum_range_fin, Finset.sum_eq_single ⟨j, hj⟩]
    · exact if_pos rfl
    · intro i _ hi
      exact if_neg fun heq => hi (Fin.ext heq)
    · intro hnot
      exact absurd (Finset.mem_univ _) hnot
  unfold iterate
  rw [hback, hgo, hzero, zero_add, ← List.sum_map_add]
  simp only [heach]
  rw [List.sum_map_add, hstart, List.sum_map_mul_left, sum_range_fin]

/-- What an iteration is about: edges that can be gone along, and no more
than one whole that is started with. -/
structure Setup (nbs : List (List (Nat × K))) (teleport : List K) (alpha : K) :
    Prop where
  walkable : Walkable nbs
  scores : Scores nbs.length teleport
  sum_le : teleport.sum ≤ 1
  alpha_pos : 0 < alpha
  alpha_le : alpha ≤ 1

/-- The walk of an iteration. -/
def Setup.walk (h : Setup nbs teleport alpha) : Walk (Fin nbs.length) K where
  step i j := share nbs teleport i j
  start := places nbs.length teleport
  alpha := alpha
  step_nonneg i j := share_nonneg h.walkable h.scores.nonneg i j
  step_sum i := share_sum h.walkable h.scores.length h.sum_le i
  start_nonneg j := h.scores.nonneg.getD j
  alpha_pos := h.alpha_pos
  alpha_le := h.alpha_le

/-- An iteration is a step of it. -/
theorem Setup.places_iterate (h : Setup nbs teleport alpha) (hp : Nonneg p) :
    places nbs.length (iterate nbs teleport alpha p)
      = h.walk.next (places nbs.length p) :=
  funext fun j => iterate_place h.walkable hp j.isLt

/-- And gives scores again. -/
theorem Setup.iterate_scores (h : Setup nbs teleport alpha)
    (hp : Scores nbs.length p) :
    Scores nbs.length (iterate nbs teleport alpha p) := by
  refine .of_places length_iterate fun i => ?_
  rw [h.places_iterate hp.nonneg]
  exact h.walk.next_nonneg (fun i => hp.nonneg.getD i) i

/-- So do several. -/
theorem Setup.run_scores (h : Setup nbs teleport alpha)
    (hp : Scores nbs.length p) (k : Nat) :
    Scores nbs.length ((iterate nbs teleport alpha)^[k] p) := by
  induction k with
  | zero => exact hp
  | succ k ih =>
      rw [Function.iterate_succ_apply']
      exact h.iterate_scores ih

theorem Setup.places_run (h : Setup nbs teleport alpha)
    (hp : Scores nbs.length p) (k : Nat) :
    places nbs.length ((iterate nbs teleport alpha)^[k] p)
      = h.walk.next^[k] (places nbs.length p) := by
  induction k with
  | zero => rfl
  | succ k ih =>
      rw [Function.iterate_succ_apply', Function.iterate_succ_apply', ← ih]
      exact h.places_iterate (h.run_scores hp k).nonneg

/-- Scores that an iteration leaves as they are. -/
structure Stationary (nbs : List (List (Nat × K))) (teleport : List K)
    (alpha : K) (limit : List K) : Prop where
  scores : Scores nbs.length limit
  fixed : iterate nbs teleport alpha limit = limit

theorem Stationary.isLimit {limit : List K}
    (h : Setup nbs teleport alpha) (hs : Stationary nbs teleport alpha limit) :
    h.walk.IsLimit (places nbs.length limit) := by
  unfold Walk.IsLimit
  rw [← h.places_iterate hs.scores.nonneg, hs.fixed]

/-- There are such, -/
theorem Setup.exists_stationary (h : Setup nbs teleport alpha) :
    ∃ limit, Stationary nbs teleport alpha limit := by
  obtain ⟨q, hq⟩ := h.walk.exists_limit
  have hplaces : places nbs.length (List.ofFn q) = q := places_ofFn q
  have hscores : Scores nbs.length (List.ofFn q) := by
    refine .of_places (List.length_ofFn) fun i => ?_
    rw [hplaces]
    exact hq.nonneg i
  refine ⟨List.ofFn q, hscores, ?_⟩
  refine eq_of_places length_iterate hscores.length ?_
  rw [h.places_iterate hscores.nonneg, hplaces]
  exact hq

/-- and no two. -/
theorem Stationary.unique {limit limit' : List K}
    (h : Setup nbs teleport alpha) (hs : Stationary nbs teleport alpha limit)
    (hs' : Stationary nbs teleport alpha limit') : limit = limit' :=
  eq_of_places hs.scores.length hs'.scores.length
    ((hs.isLimit h).unique (hs'.isLimit h))

/-- After so many iterations. -/
theorem Stationary.near_run {limit : List K} (h : Setup nbs teleport alpha)
    (hs : Stationary nbs teleport alpha limit) (hp : Scores nbs.length p)
    (k : Nat) : delta ((iterate nbs teleport alpha)^[k] p) limit
      ≤ (1 - alpha) ^ k * delta p limit := by
  rw [delta_eq_dist (h.run_scores hp k).length hs.scores.length,
    delta_eq_dist hp.length hs.scores.length, h.places_run hp k]
  exact (hs.isLimit h).iterate_near _ k

/-- After one that has moved so far. -/
theorem Stationary.near_step {limit : List K} (h : Setup nbs teleport alpha)
    (hs : Stationary nbs teleport alpha limit) (hp : Scores nbs.length p) :
    alpha * delta (iterate nbs teleport alpha p) limit
      ≤ (1 - alpha) * delta p (iterate nbs teleport alpha p) := by
  rw [delta_eq_dist (h.iterate_scores hp).length hs.scores.length,
    delta_eq_dist hp.length (h.iterate_scores hp).length,
    h.places_iterate hp.nonneg]
  exact (hs.isLimit h).near _

/-- How far the steps go. -/
theorem Setup.delta_run (h : Setup nbs teleport alpha)
    (hp : Scores nbs.length p) (k : Nat) :
    delta ((iterate nbs teleport alpha)^[k] p)
        ((iterate nbs teleport alpha)^[k + 1] p)
      ≤ (1 - alpha) ^ k * delta p (iterate nbs teleport alpha p) := by
  have hone := h.iterate_scores hp
  rw [Function.iterate_succ_apply,
    delta_eq_dist (h.run_scores hp k).length (h.run_scores hone k).length,
    delta_eq_dist hp.length hone.length, h.places_run hp k,
    h.places_run hone k]
  exact h.walk.iterate_closer _ _ k

theorem getD_delta {n : Nat} {q : List K} (hp : p.length = n)
    (hq : q.length = n) (i : Nat) : |p.getD i 0 - q.getD i 0| ≤ delta p q := by
  rw [delta_eq_dist hp hq]
  rcases Nat.lt_or_ge i n with hi | hi
  · exact abs_le_dist (p := places n p) (q := places n q) ⟨i, hi⟩
  · have hnone : ∀ v : List K, v.length = n → v.getD i 0 = 0 := by
      intro v hv
      rw [List.getD_eq_getElem?_getD, List.getElem?_eq_none (by omega)]
      rfl
    rw [hnone p hp, hnone q hq, sub_zero, abs_zero]
    exact dist_nonneg

end Step

-- ================================================================ the loop

section Loop

variable (nbs : List (List (Nat × K))) (teleport : List K) (alpha tolerance : K)

/-- The loop ends with its budget, or after the first iteration that has
moved less than the tolerance. -/
theorem iterations_spec (left : Nat) (p : List K) :
    ∃ k, k ≤ left
      ∧ iterations nbs teleport alpha tolerance left p
        = (List.range k).map (fun j => (iterate nbs teleport alpha)^[j + 1] p)
      ∧ (k < left → ∃ j, k = j + 1
        ∧ delta ((iterate nbs teleport alpha)^[j] p)
          ((iterate nbs teleport alpha)^[j + 1] p) < tolerance)
      ∧ ∀ j, j + 1 < k → tolerance
        ≤ delta ((iterate nbs teleport alpha)^[j] p)
          ((iterate nbs teleport alpha)^[j + 1] p) := by
  induction left generalizing p with
  | zero =>
      exact ⟨0, Nat.le_refl 0, rfl, fun h => absurd h (Nat.lt_irrefl 0),
        fun j h => absurd h (Nat.not_lt_zero _)⟩
  | succ left ih =>
      unfold iterations
      dsimp only
      by_cases hsmall : delta p (iterate nbs teleport alpha p) < tolerance
      · rw [if_pos hsmall]
        exact ⟨1, by omega, rfl, fun _ => ⟨0, rfl, hsmall⟩,
          fun j h => absurd h (by omega)⟩
      · rw [if_neg hsmall]
        obtain ⟨k, hk, heq, hlast, hbefore⟩ := ih (iterate nbs teleport alpha p)
        refine ⟨k + 1, by omega, ?_, fun hlt => ?_, fun j hj => ?_⟩
        · rw [heq, List.range_succ_eq_map, List.map_cons, List.map_map]
          rfl
        · obtain ⟨j, rfl, hj⟩ := hlast (by omega)
          exact ⟨j + 1, rfl, hj⟩
        · cases j with
          | zero => exact not_lt.mp hsmall
          | succ j => exact hbefore j (by omega)

end Loop

-- ============================================================= the search

section Search

variable [IsStrictOrderedRing K] (o : PprOrders K) (g : InMemoryGraph K)

theorem setup_of_seeds (hw : ∀ e ∈ g.edges, 0 ≤ e.weight) (seeds : List NodeId)
    {alpha : K} (hα₀ : 0 < alpha) (hα : alpha ≤ 1) :
    Setup (neighbours o g) (initialScores o g seeds) alpha where
  walkable := neighbours_walkable o g hw
  scores := by
    refine ⟨?_, initialScores_nonneg o g seeds⟩
    rw [initialScores_eq, List.length_map, List.length_range]
    exact (length_neighbours o g).symm
  sum_le := by
    rw [initialScores_sum, mul_one_div]
    exact div_le_one_of_le₀ (Nat.cast_le.mpr (List.toFinset_card_le _))
      (Nat.cast_nonneg _)
  alpha_pos := hα₀
  alpha_le := hα

omit [IsStrictOrderedRing K] in
/-- The vectors of a run, and where it ends. -/
theorem scoreVectors_spec (seeds : List NodeId) (cfg : PprConfig K) :
    ∃ k, k ≤ cfg.maxIterations.toNat
      ∧ scoreVectors o g seeds cfg = (List.range (k + 1)).map (fun j =>
        (iterate (neighbours o g) (initialScores o g seeds) cfg.alpha)^[j]
          (initialScores o g seeds))
      ∧ (k < cfg.maxIterations.toNat → ∃ j, k = j + 1
        ∧ delta ((iterate (neighbours o g) (initialScores o g seeds)
            cfg.alpha)^[j] (initialScores o g seeds))
          ((iterate (neighbours o g) (initialScores o g seeds)
            cfg.alpha)^[j + 1] (initialScores o g seeds)) < cfg.tolerance)
      ∧ ∀ j, j + 1 < k → cfg.tolerance
        ≤ delta ((iterate (neighbours o g) (initialScores o g seeds)
            cfg.alpha)^[j] (initialScores o g seeds))
          ((iterate (neighbours o g) (initialScores o g seeds)
            cfg.alpha)^[j + 1] (initialScores o g seeds)) := by
  obtain ⟨k, hk, heq, hlast, hbefore⟩ := iterations_spec (neighbours o g)
    (initialScores o g seeds) cfg.alpha cfg.tolerance cfg.maxIterations.toNat
    (initialScores o g seeds)
  refine ⟨k, hk, ?_, hlast, hbefore⟩
  unfold scoreVectors
  dsimp only
  rw [heq, List.range_succ_eq_map, List.map_cons, List.map_map]
  rfl

/-- The score of a node, in a vector. -/
def scoreIn (p : List K) (id : NodeId) : K :=
  p.getD ((indexOf o g id).getD 0) 0

/-- What a search approximates: a vector that an iteration leaves as it is,
and only that one. The scores near it with each iteration. Where the loop
has stopped before its budget, they are within what the tolerance allows;
and up to twice that, what comes first is what it scores highest, among the
hits and the nodes in reach that are not among them. -/
structure Approximates (cfg : PprConfig K) (seeds : List NodeId)
    (r : PprResult K) (limit : List K) : Prop where
  stationary : Stationary (neighbours o g) (initialScores o g seeds) cfg.alpha
    limit
  unique : ∀ limit', Stationary (neighbours o g) (initialScores o g seeds)
    cfg.alpha limit' → limit' = limit
  near : ∀ h ∈ r.ranked, |h.score - scoreIn o g limit h.id|
    ≤ (1 - cfg.alpha) ^ r.iterations.toNat
      * delta (initialScores o g seeds) limit
  close : r.iterations < cfg.maxIterations → ∀ h ∈ r.ranked,
    cfg.alpha * |h.score - scoreIn o g limit h.id|
      ≤ (1 - cfg.alpha) * cfg.tolerance
  ordered : r.iterations < cfg.maxIterations → r.ranked.Pairwise fun h h' =>
    cfg.alpha * (scoreIn o g limit h'.id - scoreIn o g limit h.id)
      ≤ 2 * ((1 - cfg.alpha) * cfg.tolerance)
  best : r.iterations < cfg.maxIterations → ∀ h ∈ r.ranked, ∀ d id,
    d ≤ cfg.maxHops.toNat → g.HopsTo seeds d id →
    id ∉ r.ranked.map PprHit.id →
      cfg.alpha * (scoreIn o g limit id - scoreIn o g limit h.id)
        ≤ 2 * ((1 - cfg.alpha) * cfg.tolerance)
  soon : ∀ m, m < cfg.maxIterations.toNat →
    (1 - cfg.alpha) ^ m * delta (initialScores o g seeds)
        (iterate (neighbours o g) (initialScores o g seeds) cfg.alpha
          (initialScores o g seeds)) < cfg.tolerance →
    r.iterations.toNat ≤ m + 1

/-- Two scores that are known up to an error are in order up to two. -/
theorem order_within {a b a' b' e : K} (hab : b ≤ a) (ha : |a - a'| ≤ e)
    (hb : |b - b'| ≤ e) : b' - a' ≤ 2 * e := by
  have ha' := (abs_le.mp ha).2
  have hb' := (abs_le.mp hb).1
  linarith

theorem approximates (hw : ∀ e ∈ g.edges, 0 ≤ e.weight) (cfg : PprConfig K)
    (hα₀ : 0 < cfg.alpha) (hα : cfg.alpha ≤ 1) (hmax : cfg.maxHops < unreached)
    (seeds : List NodeId) (topK : Nat) :
    ∃ limit, Approximates o g cfg seeds
      (surface (personalisedPagerank o g seeds cfg) cfg.maxHops topK) limit := by
  have hsetup := setup_of_seeds o g hw seeds hα₀ hα
  obtain ⟨limit, hs⟩ := hsetup.exists_stationary
  refine ⟨limit, ?_⟩
  by_cases hnil : seedIndices o g seeds = []
  · -- no seed is known: there are no hits
    have hempty : personalisedPagerank o g seeds cfg
        = { seeds := seeds, ranked := [], iterations := 0 } := by
      unfold personalisedPagerank
      by_cases hseeds : seeds = []
      · rw [if_pos hseeds, hseeds]
      · rw [if_neg hseeds, if_pos hnil]
    have hranked : (surface (personalisedPagerank o g seeds cfg) cfg.maxHops
        topK).ranked = [] := by
      rw [hempty]
      exact List.take_nil
    constructor
    case stationary => exact hs
    case unique => exact fun limit' hs' => hs'.unique hsetup hs
    case near =>
      intro h hh
      rw [hranked] at hh
      cases hh
    case close =>
      intro _ h hh
      rw [hranked] at hh
      cases hh
    case ordered =>
      intro _
      rw [hranked]
      exact List.Pairwise.nil
    case best =>
      intro _ h hh
      rw [hranked] at hh
      cases hh
    case soon =>
      intro m _ _
      rw [hempty]
      exact Nat.zero_le _
  · obtain ⟨k, hk, hvectors, hlast, hbefore⟩ :=
      scoreVectors_spec o g seeds cfg
    obtain ⟨all, htake, hsorted, -, hids, hhits⟩ :=
      surfaces o g seeds topK hmax
    have hiterations : (surface (personalisedPagerank o g seeds cfg)
        cfg.maxHops topK).iterations.toNat = k := by
      have hseeds : seeds ≠ [] := by
        intro h
        rw [h] at hnil
        exact hnil rfl
      have hlt : cfg.maxIterations.toNat < UInt32.size :=
        cfg.maxIterations.toNat_lt
      unfold surface personalisedPagerank
      rw [if_neg hseeds, if_neg hnil]
      show (UInt32.ofNat ((scoreVectors o g seeds cfg).length - 1)).toNat = k
      rw [hvectors, List.length_map, List.length_range, Nat.add_sub_cancel]
      exact UInt32.toNat_ofNat_of_lt (by omega)
    have hscore : ∀ id, scoreOf o g seeds cfg id = scoreIn o g
        ((iterate (neighbours o g) (initialScores o g seeds) cfg.alpha)^[k]
          (initialScores o g seeds)) id := by
      intro id
      unfold scoreOf scoreIn
      rw [hvectors, List.getLast?_map, List.getLast?_range]
      rfl
    have hrun := hsetup.run_scores hsetup.scores k
    have herror : ∀ id, |scoreOf o g seeds cfg id - scoreIn o g limit id|
        ≤ delta ((iterate (neighbours o g) (initialScores o g seeds)
          cfg.alpha)^[k] (initialScores o g seeds)) limit := by
      intro id
      rw [hscore]
      exact getD_delta hrun.length hs.scores.length _
    have hmem : ∀ h ∈ (surface (personalisedPagerank o g seeds cfg)
        cfg.maxHops topK).ranked, h ∈ all := by
      intro h hh
      rw [htake] at hh
      exact List.mem_of_mem_take hh
    -- the last step was short, so the scores are close
    have hclose : k < cfg.maxIterations.toNat →
        cfg.alpha * delta ((iterate (neighbours o g)
          (initialScores o g seeds) cfg.alpha)^[k] (initialScores o g seeds))
            limit ≤ (1 - cfg.alpha) * cfg.tolerance := by
      intro hlt
      obtain ⟨j, rfl, hj⟩ := hlast hlt
      rw [Function.iterate_succ_apply'] at hj ⊢
      exact (hs.near_step hsetup (hsetup.run_scores hsetup.scores j)).trans
        (mul_le_mul_of_nonneg_left hj.le (sub_nonneg.mpr hα))
    have horder : k < cfg.maxIterations.toNat → ∀ a ∈ all, ∀ b ∈ all,
        b.score ≤ a.score →
        cfg.alpha * (scoreIn o g limit b.id - scoreIn o g limit a.id)
          ≤ 2 * ((1 - cfg.alpha) * cfg.tolerance) := by
      intro hlt a ha b hb hab
      rw [(hhits a ha).2, (hhits b hb).2] at hab
      have hwithin := order_within hab (herror a.id) (herror b.id)
      calc cfg.alpha * (scoreIn o g limit b.id - scoreIn o g limit a.id)
          ≤ cfg.alpha * (2 * delta ((iterate (neighbours o g)
              (initialScores o g seeds) cfg.alpha)^[k]
                (initialScores o g seeds)) limit) :=
            mul_le_mul_of_nonneg_left hwithin hα₀.le
        _ = 2 * (cfg.alpha * delta ((iterate (neighbours o g)
              (initialScores o g seeds) cfg.alpha)^[k]
                (initialScores o g seeds)) limit) := mul_left_comm _ _ _
        _ ≤ 2 * ((1 - cfg.alpha) * cfg.tolerance) :=
            mul_le_mul_of_nonneg_left (hclose hlt) zero_le_two
    have hbudget : (surface (personalisedPagerank o g seeds cfg) cfg.maxHops
        topK).iterations < cfg.maxIterations →
          k < cfg.maxIterations.toNat := by
      intro h
      rw [← hiterations]
      exact UInt32.lt_iff_toNat_lt.mp h
    constructor
    case stationary => exact hs
    case unique => exact fun limit' hs' => hs'.unique hsetup hs
    case near =>
      intro h hh
      rw [hiterations, (hhits h (hmem h hh)).2]
      exact (herror h.id).trans (hs.near_run hsetup hsetup.scores k)
    case close =>
      intro hlt h hh
      rw [(hhits h (hmem h hh)).2]
      exact (mul_le_mul_of_nonneg_left (herror h.id) hα₀.le).trans
        (hclose (hbudget hlt))
    case ordered =>
      intro hlt
      rw [htake]
      refine (hsorted.sublist (List.take_sublist _ _)).imp_of_mem ?_
      intro a b ha hb hab
      exact horder (hbudget hlt) a (List.mem_of_mem_take ha) b
        (List.mem_of_mem_take hb) hab
    case best =>
      intro hlt h hh d id hd hhops hnot
      obtain ⟨h', hh', rfl⟩ := List.mem_map.mp ((hids id).mpr ⟨d, hd, hhops⟩)
      refine horder (hbudget hlt) h (hmem h hh) h' hh' ?_
      rw [htake] at hh hnot
      rw [← List.take_append_drop topK all] at hh' hsorted
      rcases List.mem_append.mp hh' with hin | hout
      · exact absurd (List.mem_map_of_mem hin) hnot
      · exact (List.pairwise_append.mp hsorted).2.2 h hh h' hout
    case soon =>
      intro m hm hsmall
      rw [hiterations]
      by_contra hgt
      have hgo := hbefore m (by omega)
      exact absurd (hgo.trans (hsetup.delta_run hsetup.scores m))
        (not_le.mpr hsmall)

/-- A search approximates the one vector that an iteration leaves as it
is. -/
theorem multiHop_converges (toLowercase : String → String)
    (hw : ∀ e ∈ g.edges, 0 ≤ e.weight) (cfg : PprConfig K)
    (hα₀ : 0 < cfg.alpha) (hα : cfg.alpha ≤ 1) (hmax : cfg.maxHops < unreached)
    (query : String) (maxSeeds topK : Nat) :
    ∃ limit, Approximates o g cfg (findSeeds toLowercase o g query maxSeeds)
      (multiHopSearch toLowercase o g query maxSeeds cfg topK) limit :=
  approximates o g hw cfg hα₀ hα hmax _ topK

end Search

theorem multiHop_converges_loopAndEdge :
    ∃ limit, Approximates PprOrders.listed loopAndEdge .default
      (findSeeds id PprOrders.listed loopAndEdge "a" 3)
      (multiHopSearch id PprOrders.listed loopAndEdge "a" 3 .default 5) limit :=
  multiHop_converges PprOrders.listed loopAndEdge id (by decide) .default
    (by decide +kernel) (by decide +kernel) (by decide) "a" 3 5

end SapAutomate.Graph
