/-
The mass of personalised PageRank (`sap-automate-graph/src/ppr.rs`).

An iteration keeps a distribution where `teleport` is one: a node with
edges out spreads `1 - alpha` of its mass over them (`distribute_gains`), a
node without gives it to the seeds, and they get `alpha` of the whole
(`restart_gains`). What `teleport` is at the start is another matter: its
share goes by how many seeds are there, and a place that is named twice is
assigned once (`initialScores_sum`).
-/
import SapAutomate.Graph.PageRank
import Mathlib.Algebra.BigOperators.Ring.List
import Mathlib.Algebra.BigOperators.Group.Finset.Piecewise
import Mathlib.Algebra.Order.BigOperators.Group.List
import Mathlib.Algebra.Order.Field.Basic
import Mathlib.Algebra.Order.Ring.Rat
import Mathlib.Algebra.Field.Rat
import Mathlib.Order.Interval.Finset.Nat

namespace SapAutomate.Graph

open Iteration Mass

variable {K : Type}

-- ================================================================= seeds

section Seeds

variable (o : PprOrders K) (g : InMemoryGraph K)

theorem indexOf_lt {id : NodeId} {i : Nat} (h : indexOf o g id = some i) :
    i < (nodeIds o g).length := (List.idxOf?_eq_some_iff.mp h).1

theorem indexOf_inj {a b : NodeId} {i : Nat} (ha : indexOf o g a = some i)
    (hb : indexOf o g b = some i) : a = b := by
  obtain ⟨_, ha, -⟩ := List.idxOf?_eq_some_iff.mp ha
  obtain ⟨_, hb, -⟩ := List.idxOf?_eq_some_iff.mp hb
  exact ha.symm.trans hb

theorem mem_nodeIds {id : NodeId} :
    id ∈ nodeIds o g ↔ id ∈ g.nodes.map Entity.id :=
  ((o.nodes.perm g.nodes).map Entity.id).mem_iff

theorem indexOf_isSome {id : NodeId} :
    (indexOf o g id).isSome ↔ id ∈ g.nodes.map Entity.id :=
  List.isSome_idxOf?.trans (mem_nodeIds o g)

theorem seedIndices_lt (seeds : List NodeId) :
    ∀ i ∈ seedIndices o g seeds, i < (nodeIds o g).length := by
  intro i hi
  obtain ⟨id, -, hid⟩ := List.mem_filterMap.mp hi
  exact indexOf_lt o g hid

/-- The seeds the graph has. -/
def knownSeeds (seeds : List NodeId) : List NodeId :=
  seeds.filter fun id => id ∈ g.nodes.map Entity.id

theorem knownSeeds_cons (id : NodeId) (seeds : List NodeId) :
    (∃ i, indexOf o g id = some i ∧ knownSeeds g (id :: seeds)
        = id :: knownSeeds g seeds)
      ∨ indexOf o g id = none ∧ knownSeeds g (id :: seeds)
        = knownSeeds g seeds := by
  unfold knownSeeds
  cases hid : indexOf o g id with
  | some i =>
      have hmem := (indexOf_isSome o g).mp (by rw [hid]; rfl)
      exact .inl ⟨i, rfl, List.filter_cons_of_pos (by simpa using hmem)⟩
  | none =>
      have hmem : ¬ id ∈ g.nodes.map Entity.id := by
        rw [← indexOf_isSome o g, hid]
        exact Bool.false_ne_true
      exact .inr ⟨rfl, List.filter_cons_of_neg (by simpa using hmem)⟩

/-- Places are named as often as seeds. -/
theorem seedIndices_nodup (seeds : List NodeId) :
    (seedIndices o g seeds).Nodup ↔ (knownSeeds g seeds).Nodup := by
  have hmem : ∀ id i, indexOf o g id = some i → ∀ seeds,
      (i ∈ seedIndices o g seeds ↔ id ∈ knownSeeds g seeds) := by
    intro id i hid seeds
    unfold seedIndices knownSeeds
    rw [List.mem_filterMap, List.mem_filter]
    constructor
    · rintro ⟨id', hid', hi⟩
      have heq := indexOf_inj o g hid hi
      subst heq
      refine ⟨hid', ?_⟩
      have hsome := (indexOf_isSome o g).mp (by rw [hid]; rfl)
      simpa using hsome
    · exact fun h => ⟨id, h.1, hid⟩
  induction seeds with
  | nil => exact ⟨fun _ => List.nodup_nil, fun _ => List.nodup_nil⟩
  | cons id seeds ih =>
      rcases knownSeeds_cons o g id seeds with ⟨i, hid, hknown⟩ | ⟨hid, hknown⟩
      · have hcons : seedIndices o g (id :: seeds)
            = i :: seedIndices o g seeds := List.filterMap_cons_some hid
        rw [hknown, hcons, List.nodup_cons, List.nodup_cons,
          hmem id i hid seeds]
        exact and_congr_right fun _ => ih
      · have hcons : seedIndices o g (id :: seeds) = seedIndices o g seeds :=
          List.filterMap_cons_none hid
        rw [hknown, hcons]
        exact ih

theorem set_places [Zero K] {is : List Nat} {n : Nat} (h : ∀ i ∈ is, i < n)
    (c : K) (v : List K) (hv : v.length = n) :
    is.foldl (fun p i => p.set i c) v
      = (List.range n).map fun i => if i ∈ is then c else v.getD i 0 := by
  induction is generalizing v with
  | nil =>
      refine List.ext_getElem (by simp [hv]) fun i hi hi' => ?_
      have hi : i < v.length := hi
      simp [hi]
  | cons j is ih =>
      have hj : j < v.length := by
        rw [hv]
        exact h j List.mem_cons_self
      rw [List.foldl_cons, ih (fun i hi => h i (List.mem_cons_of_mem j hi))
        _ (by rw [List.length_set, hv])]
      refine List.map_congr_left fun i _ => ?_
      by_cases hij : i = j
      · subst hij
        simp [hj]
      · by_cases hmem : i ∈ is
        · simp [hmem]
        · simp [hmem, hij, Ne.symm hij]

variable [Field K]

/-- Each place gets its share once. -/
theorem sum_shared {is : List Nat} {n : Nat} (h : ∀ i ∈ is, i < n) (c : K) :
    ((List.range n).map fun i => if i ∈ is then c else 0).sum
      = (is.toFinset.card : K) * c := by
  have hsub : Finset.range n ∩ is.toFinset = is.toFinset := by
    refine Finset.inter_eq_right.mpr fun i hi => ?_
    exact Finset.mem_range.mpr (h i (List.mem_toFinset.mp hi))
  have hfin : ∑ i ∈ Finset.range n, (if i ∈ is.toFinset then c else 0)
      = (is.toFinset.card : K) * c := by
    rw [Finset.sum_ite_mem, hsub, Finset.sum_const, nsmul_eq_mul]
  rw [← hfin, ← List.sum_toFinset _ (List.nodup_range), List.toFinset_range]
  refine Finset.sum_congr rfl fun i _ => ?_
  simp only [List.mem_toFinset]

theorem initialScores_eq (seeds : List NodeId) :
    initialScores o g seeds = (List.range (nodeIds o g).length).map fun i =>
      if i ∈ seedIndices o g seeds
      then 1 / ((seedIndices o g seeds).length : K) else 0 := by
  unfold initialScores
  dsimp only
  rw [set_places (seedIndices_lt o g seeds) _ _ List.length_replicate]
  refine List.map_congr_left fun i hi => ?_
  rw [List.mem_range] at hi
  simp [hi]

theorem initialScores_sum (seeds : List NodeId) :
    (initialScores o g seeds).sum
      = ((seedIndices o g seeds).toFinset.card : K)
        * (1 / ((seedIndices o g seeds).length : K)) := by
  rw [initialScores_eq, sum_shared (seedIndices_lt o g seeds)]

end Seeds

theorem getD_nil_cases (nbs : List (List (Nat × K))) (i : Nat) :
    nbs.getD i [] = [] ∨ nbs.getD i [] ∈ nbs := by
  rw [List.getD_eq_getElem?_getD]
  cases hi : nbs[i]? with
  | none => exact .inl rfl
  | some xs => exact .inr (List.mem_of_getElem? hi)

variable [Field K] [LinearOrder K]

/-- A vector of scores for this many nodes. -/
structure Distribution (n : Nat) (p : List K) : Prop where
  length : p.length = n
  nonneg : Nonneg p
  sum : p.sum = 1

/-- Edges go to nodes that are there and weigh nothing less than zero. -/
structure Walkable (nbs : List (List (Nat × K))) : Prop where
  target : ∀ xs ∈ nbs, ∀ x ∈ xs, x.1 < nbs.length
  weight : ∀ xs ∈ nbs, ∀ x ∈ xs, 0 ≤ x.2

-- ============================================================= iteration

section Iterate

variable [IsStrictOrderedRing K] {nbs : List (List (Nat × K))}
  {teleport p v : List K} {alpha : K}

/-- What is left of a node's mass for its edges. -/
theorem outgoing_nonneg (hα : alpha ≤ 1) (hp : Nonneg p) (i : Nat) :
    0 ≤ (1 - alpha) * p.getD i 0 :=
  mul_nonneg (sub_nonneg.mpr hα) (hp.getD i)

theorem distribute_gains (hw : Walkable nbs) (hα : alpha ≤ 1)
    (hp : Nonneg p) (hv : v.length = nbs.length) (i : Nat) :
    Gains v (distribute nbs alpha p v i)
      (if outWeight nbs i ≤ 0 then 0 else (1 - alpha) * p.getD i 0) := by
  unfold distribute
  by_cases hout : outWeight nbs i ≤ 0
  · rw [if_pos (.inl hout), if_pos hout]
    exact .refl v
  by_cases hzero : p.getD i 0 = 0
  · rw [if_pos (.inr hzero), if_neg hout, hzero, mul_zero]
    exact .refl v
  rw [if_neg (not_or.mpr ⟨hout, hzero⟩), if_neg hout]
  have hpos : 0 < outWeight nbs i := not_le.mp hout
  have hmem : ∀ x ∈ nbs.getD i [], x.1 < nbs.length ∧ 0 ≤ x.2 := by
    intro x hx
    rcases getD_nil_cases nbs i with hnil | hin
    · rw [hnil] at hx
      cases hx
    · exact ⟨hw.target _ hin x hx, hw.weight _ hin x hx⟩
  have hloop := Gains.foldl (f := fun next (x : Nat × K) =>
      addAt next x.1 ((1 - alpha) * p.getD i 0 * (x.2 / outWeight nbs i)))
    (m := fun x => (1 - alpha) * p.getD i 0 * (x.2 / outWeight nbs i))
    (l := nbs.getD i []) (fun w hlen x hx => by
      obtain ⟨hlt, hnonneg⟩ := hmem x hx
      exact .addAt (by omega) (mul_nonneg (outgoing_nonneg hα hp i)
        (div_nonneg hnonneg hpos.le))) hv
  -- the shares of a node's neighbours come to the whole
  have hwhole : ((nbs.getD i []).map fun x =>
      (1 - alpha) * p.getD i 0 * (x.2 / outWeight nbs i)).sum
        = (1 - alpha) * p.getD i 0 := by
    simp only [div_eq_mul_inv]
    rw [List.sum_map_mul_left, List.sum_map_mul_right]
    have hsum : ((nbs.getD i []).map fun x => x.2).sum = outWeight nbs i := rfl
    rw [hsum, mul_inv_cancel₀ hpos.ne', mul_one]
  rw [hwhole] at hloop
  exact hloop

theorem restart_gains (hα₀ : 0 ≤ alpha) (hα : alpha ≤ 1) (hp : Nonneg p)
    (ht : Distribution nbs.length teleport) (hv : v.length = nbs.length)
    {i : Nat} (hi : i < nbs.length) :
    Gains v (restart nbs teleport alpha p v i)
      (alpha * teleport.getD i 0
        + if outWeight nbs i ≤ 0 then (1 - alpha) * p.getD i 0 else 0) := by
  have hfirst : Gains v (addAt v i (alpha * teleport.getD i 0))
      (alpha * teleport.getD i 0) :=
    .addAt (by omega) (mul_nonneg hα₀ (ht.nonneg.getD i))
  unfold restart
  dsimp only
  by_cases hout : outWeight nbs i ≤ 0
  · rw [if_pos hout]
    by_cases hpos : 0 < p.getD i 0
    · rw [if_pos ⟨hout, hpos⟩]
      have hloop := Gains.foldl (f := fun next j =>
          addAt next j ((1 - alpha) * p.getD i 0 * teleport.getD j 0))
        (m := fun j => (1 - alpha) * p.getD i 0 * teleport.getD j 0)
        (l := List.range nbs.length) (fun w hlen j hj => by
          rw [List.mem_range] at hj
          exact .addAt (by omega) (mul_nonneg (outgoing_nonneg hα hp i)
            (ht.nonneg.getD j)))
        (hfirst.length.trans hv)
      have hwhole : ((List.range nbs.length).map fun j =>
          (1 - alpha) * p.getD i 0 * teleport.getD j 0).sum
            = (1 - alpha) * p.getD i 0 := by
        rw [List.sum_map_mul_left, ← ht.length, sum_range_getD, ht.sum,
          mul_one]
      rw [hwhole] at hloop
      exact hfirst.trans hloop
    · have hzero : p.getD i 0 = 0 := le_antisymm (not_lt.mp hpos) (hp.getD i)
      rw [if_neg (fun h => hpos h.2), hzero, mul_zero, add_zero]
      exact hfirst
  · rw [if_neg (fun h => hout h.1), if_neg hout, add_zero]
    exact hfirst

/-- An iteration keeps a distribution. -/
theorem iterate_distribution (hw : Walkable nbs) (hα₀ : 0 ≤ alpha)
    (hα : alpha ≤ 1) (ht : Distribution nbs.length teleport)
    (hp : Distribution nbs.length p) :
    Distribution nbs.length (iterate nbs teleport alpha p) := by
  have hspread := Gains.foldl (f := distribute nbs alpha p)
    (l := List.range nbs.length) (v := List.replicate nbs.length 0)
    (fun w hlen i _ => distribute_gains hw hα hp.nonneg hlen i)
    List.length_replicate
  have hback := Gains.foldl (f := restart nbs teleport alpha p)
    (l := List.range nbs.length)
    (fun w hlen i hi => restart_gains hα₀ hα hp.nonneg ht hlen
      (List.mem_range.mp hi))
    (hspread.length.trans List.length_replicate)
  have hall := hspread.trans hback
  obtain ⟨hsum, hnonneg⟩ := gains_replicate hall
  refine ⟨hall.length.trans List.length_replicate, hnonneg, ?_⟩
  unfold iterate
  rw [hsum, ← List.sum_map_add]
  -- each node's mass goes one way or the other
  have hplace : ∀ i, (if outWeight nbs i ≤ 0 then 0 else
        (1 - alpha) * p.getD i 0)
      + (alpha * teleport.getD i 0
        + if outWeight nbs i ≤ 0 then (1 - alpha) * p.getD i 0 else 0)
      = (1 - alpha) * p.getD i 0 + alpha * teleport.getD i 0 := by
    intro i
    by_cases hout : outWeight nbs i ≤ 0
    · rw [if_pos hout, if_pos hout, zero_add, add_comm]
    · rw [if_neg hout, if_neg hout, add_zero]
  simp only [hplace]
  rw [List.sum_map_add, List.sum_map_mul_left, List.sum_map_mul_left]
  nth_rewrite 1 [← hp.length]
  rw [← ht.length, sum_range_getD, sum_range_getD, hp.sum, ht.sum, mul_one,
    mul_one, sub_add_cancel]

/-- And so does every run of them. -/
theorem iterations_distribution (hw : Walkable nbs) (hα₀ : 0 ≤ alpha)
    (hα : alpha ≤ 1) (ht : Distribution nbs.length teleport) (tolerance : K)
    (left : Nat) (hp : Distribution nbs.length p) :
    ∀ q ∈ iterations nbs teleport alpha tolerance left p,
      Distribution nbs.length q := by
  induction left generalizing p with
  | zero =>
      intro q hq
      cases hq
  | succ left ih =>
      have hnext := iterate_distribution hw hα₀ hα ht hp
      intro q hq
      unfold iterations at hq
      dsimp only at hq
      split at hq
      · rw [List.mem_singleton.mp hq]
        exact hnext
      · rcases List.mem_cons.mp hq with rfl | hq
        · exact hnext
        · exact ih hnext q hq

end Iterate

-- ================================================================== runs

section Graph

variable [IsStrictOrderedRing K] (o : PprOrders K) (g : InMemoryGraph K)

theorem initialScores_nonneg (seeds : List NodeId) :
    Nonneg (initialScores o g seeds) := by
  rw [initialScores_eq]
  intro x hx
  obtain ⟨i, -, rfl⟩ := List.mem_map.mp hx
  split
  · exact one_div_nonneg.mpr (Nat.cast_nonneg _)
  · exact le_refl _

/-- The whole mass is shared out where no known seed comes twice. -/
theorem initialScores_sum_iff {seeds : List NodeId}
    (hne : seedIndices o g seeds ≠ []) :
    (initialScores o g seeds).sum = 1 ↔ (knownSeeds g seeds).Nodup := by
  have hlen : ((seedIndices o g seeds).length : K) ≠ 0 :=
    Nat.cast_ne_zero.mpr (mt List.length_eq_zero_iff.mp hne)
  rw [initialScores_sum, mul_one_div, div_eq_one_iff_eq hlen, Nat.cast_inj,
    ← seedIndices_nodup o g]
  exact Multiset.toFinset_card_eq_card_iff_nodup
    (m := (seedIndices o g seeds : Multiset Nat))

theorem neighbours_walkable (hw : ∀ e ∈ g.edges, 0 ≤ e.weight) :
    Walkable (neighbours o g) := by
  have hlen : (neighbours o g).length = (nodeIds o g).length :=
    List.length_map _
  have hmem : ∀ xs ∈ neighbours o g, ∀ x ∈ xs,
      x.1 < (nodeIds o g).length ∧ 0 ≤ x.2 := by
    intro xs hxs x hx
    obtain ⟨id, -, rfl⟩ := List.mem_map.mp hxs
    obtain ⟨y, hy, hx⟩ := List.mem_filterMap.mp hx
    obtain ⟨j, hj, rfl⟩ := Option.map_eq_some_iff.mp hx
    refine ⟨indexOf_lt o g hj, ?_⟩
    rw [IterOrder.mem_apply] at hy
    rw [(mem_tally.mp hy).2]
    refine List.sum_nonneg fun w hwt => ?_
    obtain ⟨z, hz, rfl⟩ := List.mem_map.mp hwt
    rcases List.mem_append.mp (List.mem_filter.mp hz).1 with hz | hz
    all_goals
      obtain ⟨e, he, rfl⟩ := List.mem_map.mp hz
      exact hw e (List.mem_filter.mp he).1
  constructor
  · rw [hlen]
    exact fun xs hxs x hx => (hmem xs hxs x hx).1
  · exact fun xs hxs x hx => (hmem xs hxs x hx).2

/-- Every vector of a run is a distribution where the first one is. -/
theorem scoreVectors_distribution (hw : ∀ e ∈ g.edges, 0 ≤ e.weight)
    {seeds : List NodeId} {cfg : PprConfig K} (hα₀ : 0 ≤ cfg.alpha)
    (hα : cfg.alpha ≤ 1) (hsum : (initialScores o g seeds).sum = 1) :
    ∀ p ∈ scoreVectors o g seeds cfg,
      Distribution (neighbours o g).length p := by
  have hfirst : Distribution (neighbours o g).length
      (initialScores o g seeds) := by
    refine ⟨?_, initialScores_nonneg o g seeds, hsum⟩
    rw [initialScores_eq, List.length_map, List.length_range]
    exact (List.length_map _).symm
  intro p hp
  rcases List.mem_cons.mp hp with rfl | hp
  · exact hfirst
  · exact iterations_distribution (neighbours_walkable o g hw) hα₀ hα hfirst
      cfg.tolerance cfg.maxIterations.toNat hfirst p hp

end Graph

/-- Mass is conserved just where no seed that is there is given twice. -/
theorem mass_conserved_iff (o : PprOrders ℚ) (g : InMemoryGraph ℚ)
    (hw : ∀ e ∈ g.edges, 0 ≤ e.weight) (seeds : List NodeId)
    (hseed : ∃ id ∈ seeds, id ∈ g.nodes.map Entity.id)
    (cfg : PprConfig ℚ) (hα₀ : 0 ≤ cfg.alpha) (hα : cfg.alpha ≤ 1) :
    (∀ p ∈ scoreVectors o g seeds cfg, (∀ x ∈ p, 0 ≤ x) ∧ p.sum = 1)
      ↔ (knownSeeds g seeds).Nodup := by
  have hne : seedIndices o g seeds ≠ [] := by
    obtain ⟨id, hid, hmem⟩ := hseed
    obtain ⟨i, hi⟩ := Option.isSome_iff_exists.mp
      ((indexOf_isSome o g).mpr hmem)
    exact List.ne_nil_of_mem (List.mem_filterMap.mpr ⟨id, hid, hi⟩)
  rw [← initialScores_sum_iff o g hne]
  constructor
  · intro h
    exact (h _ List.mem_cons_self).2
  · intro hsum p hp
    have hdist := scoreVectors_distribution o g hw hα₀ hα hsum p hp
    exact ⟨hdist.nonneg, hdist.sum⟩

/-- A loop at a node, and an edge from it. -/
def loopAndEdge : InMemoryGraph ℚ where
  nodes := [{ id := "a", label := "" }, { id := "b", label := "" }]
  edges := [⟨"a", "a", 1⟩, ⟨"a", "b", 3⟩, ⟨"b", "missing", 1⟩]
  nodup := by decide

/-- The maps as they are listed. -/
def PprOrders.listed : PprOrders ℚ := ⟨.listed, fun _ => .listed⟩

theorem mass_conserved_loopAndEdge :
    (∀ p ∈ scoreVectors .listed loopAndEdge ["a", "missing", "b"] .default,
        (∀ x ∈ p, 0 ≤ x) ∧ p.sum = 1)
      ↔ (knownSeeds loopAndEdge ["a", "missing", "b"]).Nodup :=
  mass_conserved_iff .listed loopAndEdge (by decide) ["a", "missing", "b"]
    (by decide) .default (by decide +kernel) (by decide +kernel)

/-- A seed given twice gets the share of one, and the other is lost. -/
theorem repeated_seed_loses :
    ¬ ∀ (o : PprOrders ℚ) (g : InMemoryGraph ℚ) (seeds : List NodeId)
      (cfg : PprConfig ℚ), (∀ e ∈ g.edges, 0 ≤ e.weight) →
      (∃ id ∈ seeds, id ∈ g.nodes.map Entity.id) → 0 ≤ cfg.alpha →
      cfg.alpha ≤ 1 →
      ∀ p ∈ scoreVectors o g seeds cfg, (∀ x ∈ p, 0 ≤ x) ∧ p.sum = 1 := by
  intro h
  have hsum := (h .listed loopAndEdge ["a", "a"] .default (by decide)
    (by decide) (by decide +kernel) (by decide +kernel) _
    List.mem_cons_self).2
  revert hsum
  decide +kernel

end SapAutomate.Graph
