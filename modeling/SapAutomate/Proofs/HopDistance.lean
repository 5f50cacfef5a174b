/-
The hops of personalised PageRank are distances. The loop goes layer by
layer: before the pass of depth `d` what is at most `d` away is labelled
with its distance, the rest is not, and the frontier is what is `d` away
(`Layered.pass`, and over the loop `layered_bfsLoop`).

The loop runs on places; a walk over places is one over the nodes that have
them (`walk_iff`).
-/
import SapAutomate.Graph.MultiHop
import SapAutomate.Lib.Distance
import SapAutomate.Proofs.MassConservation

namespace SapAutomate.Graph

open Iteration Distance

variable {K : Type}

-- ============================================================ the layers

section Layers

variable (nbs : List (List (Nat × K))) (seeds : List Nat)

/-- An edge between places. -/
def LeadsTo (i j : Nat) : Prop := j ∈ (nbs.getD i []).map Prod.fst

/-- The hops to a place. -/
abbrev PlaceDist (d i : Nat) : Prop := Dist (LeadsTo nbs) (· ∈ seeds) d i

/-- What is at most `d` away is labelled, and nothing else. -/
structure Layered (d : Nat) (hops : List UInt32) : Prop where
  length : hops.length = nbs.length
  near : ∀ m, m ≤ d → ∀ i, PlaceDist nbs seeds m i → (hops.getD i 0).toNat = m
  far : ∀ i, i < nbs.length → (∀ m, m ≤ d → ¬ PlaceDist nbs seeds m i) →
    hops.getD i 0 = unreached

variable {nbs seeds}

theorem getD_set (hops : List UInt32) (j i : Nat) (h : UInt32) (hj : j < hops.length) :
    (hops.set j h).getD i 0 = if i = j then h else hops.getD i 0 := by
  rw [List.getD_eq_getElem?_getD, List.getD_eq_getElem?_getD,
    List.getElem?_set]
  by_cases hij : i = j
  · rw [if_pos hij.symm, if_pos hj, if_pos hij]
    rfl
  · rw [if_neg (Ne.symm hij), if_neg hij]

theorem getD_of_le {hops : List UInt32} {i : Nat} (h : hops.length ≤ i) :
    hops.getD i 0 = 0 := by
  rw [List.getD_eq_getElem?_getD, List.getElem?_eq_none h]
  rfl

/-- A place without a label is one. -/
theorem lt_of_unreached {hops : List UInt32} {i : Nat}
    (h : hops.getD i 0 = unreached) : i < hops.length := by
  by_contra hlt
  rw [getD_of_le (by omega)] at h
  exact absurd h (by decide)

/-- The seeds are labelled. -/
theorem foldl_seeds (hops : List UInt32) (i : Nat) :
    (seeds.foldl (fun hops i => hops.set i 0) hops).getD i 0
      = if i ∈ seeds then 0 else hops.getD i 0 := by
  induction seeds generalizing hops with
  | nil => rfl
  | cons j seeds ih =>
      have hset : (hops.set j 0).getD i 0
          = if i = j then 0 else hops.getD i 0 := by
        by_cases hj : j < hops.length
        · exact getD_set hops j i 0 hj
        · rw [List.set_eq_of_length_le (by omega)]
          split
          · next h => rw [h, getD_of_le (by omega)]
          · rfl
      rw [List.foldl_cons, ih, hset]
      by_cases hij : i = j <;> by_cases hmem : i ∈ seeds <;>
        simp [hij, hmem]

theorem length_foldl_seeds (hops : List UInt32) :
    (seeds.foldl (fun hops i => hops.set i 0) hops).length = hops.length := by
  induction seeds generalizing hops with
  | nil => rfl
  | cons j seeds ih =>
      rw [List.foldl_cons, ih, List.length_set]

theorem layered_zero :
    Layered nbs seeds 0 (seeds.foldl (fun hops i => hops.set i 0)
      (List.replicate nbs.length unreached)) := by
  refine ⟨?_, ?_, ?_⟩
  · rw [length_foldl_seeds, List.length_replicate]
  · intro m hm i hi
    have hzero : m = 0 := by omega
    subst hzero
    rw [foldl_seeds, if_pos (dist_zero.mp hi)]
    rfl
  · intro i hlt hi
    rw [foldl_seeds, if_neg (fun h => hi 0 (Nat.le_refl 0) (dist_zero.mpr h))]
    simp [hlt]

/-- One neighbour. -/
theorem reach_spec {depth : UInt32} (s : List UInt32 × List Nat) (j i : Nat) :
    (reach depth s j).1.length = s.1.length
      ∧ (reach depth s j).1.getD i 0
          = (if i = j ∧ s.1.getD i 0 = unreached then depth + 1
              else s.1.getD i 0)
      ∧ (i ∈ (reach depth s j).2
          ↔ i ∈ s.2 ∨ i = j ∧ s.1.getD i 0 = unreached) := by
  unfold reach
  by_cases hj : s.1.getD j 0 = unreached
  · rw [if_pos hj]
    refine ⟨List.length_set, ?_, ?_⟩
    · rw [getD_set _ _ _ _ (lt_of_unreached hj)]
      by_cases hij : i = j
      · subst hij
        rw [if_pos rfl, if_pos ⟨rfl, hj⟩]
      · rw [if_neg hij, if_neg fun h => hij h.1]
    · rw [List.mem_append, List.mem_singleton]
      refine or_congr_right ⟨fun h => ⟨h, ?_⟩, fun h => h.1⟩
      rw [h]
      exact hj
  · rw [if_neg hj]
    have hnot : ¬ (i = j ∧ s.1.getD i 0 = unreached) := by
      rintro ⟨rfl, h⟩
      exact hj h
    exact ⟨rfl, (if_neg hnot).symm, (or_iff_left hnot).symm⟩

/-- The neighbours of a frontier, one after the other. -/
theorem foldl_reach {depth : UInt32} (hdepth : depth + 1 ≠ unreached)
    (js : List Nat) (s : List UInt32 × List Nat) (i : Nat) :
    (js.foldl (reach depth) s).1.length = s.1.length
      ∧ (js.foldl (reach depth) s).1.getD i 0
          = (if i ∈ js ∧ s.1.getD i 0 = unreached then depth + 1
              else s.1.getD i 0)
      ∧ (i ∈ (js.foldl (reach depth) s).2
          ↔ i ∈ s.2 ∨ i ∈ js ∧ s.1.getD i 0 = unreached) := by
  induction js generalizing s with
  | nil => simp
  | cons j js ih =>
      obtain ⟨hlen, hget, hmem⟩ : _ ∧ _ := @reach_spec depth s j i
      obtain ⟨hlen', hget', hmem'⟩ := ih (reach depth s j)
      rw [List.foldl_cons, hlen', hget', hmem', hlen, hget, hmem]
      refine ⟨rfl, ?_, ?_⟩
      · by_cases hij : i = j <;> by_cases hu : s.1.getD i 0 = unreached <;>
          by_cases hjs : i ∈ js <;> simp_all
      · by_cases hij : i = j <;> by_cases hu : s.1.getD i 0 = unreached <;>
          by_cases hjs : i ∈ js <;> simp_all

theorem toNat_succ {d : UInt32} (h : d.toNat + 1 < unreached.toNat) :
    (d + 1).toNat = d.toNat + 1 ∧ d + 1 ≠ unreached := by
  have hmax : unreached.toNat = 4294967295 := rfl
  have hnat : (d + 1).toNat = d.toNat + 1 := by
    rw [UInt32.toNat_add]
    show (d.toNat + 1) % 4294967296 = d.toNat + 1
    omega
  refine ⟨hnat, fun heq => ?_⟩
  rw [heq] at hnat
  omega

/-- A place without a label, among those of the graph. -/
theorem Layered.unreached_iff {d : Nat} {hops : List UInt32}
    (h : Layered nbs seeds d hops) (hd : d < unreached.toNat) {i : Nat}
    (hi : i < nbs.length) :
    hops.getD i 0 = unreached ↔ ∀ m, m ≤ d → ¬ PlaceDist nbs seeds m i := by
  constructor
  · intro hun m hm hdist
    have hnear := h.near m hm i hdist
    rw [hun] at hnear
    omega
  · exact h.far i hi

/-- A pass of the loop: from one layer to the next. -/
theorem Layered.pass (hlt : ∀ i j, LeadsTo nbs i j → j < nbs.length)
    {depth : UInt32} {hops : List UInt32} {frontier : List Nat}
    (h : Layered nbs seeds depth.toNat hops)
    (hfrontier : ∀ i, i ∈ frontier ↔ PlaceDist nbs seeds depth.toNat i)
    (hdepth : depth.toNat + 1 < unreached.toNat) :
    let s := (frontier.flatMap fun i =>
      (nbs.getD i []).map Prod.fst).foldl (reach depth) (hops, [])
    Layered nbs seeds (depth + 1).toNat s.1
      ∧ ∀ i, i ∈ s.2 ↔ PlaceDist nbs seeds (depth + 1).toNat i := by
  intro s
  obtain ⟨hnat, hne⟩ := toNat_succ hdepth
  have hfold := foldl_reach hne
    (frontier.flatMap fun i => (nbs.getD i []).map Prod.fst) (hops, [])
  -- what the pass labels is one step further
  have hnew : ∀ i, (i ∈ frontier.flatMap fun i => (nbs.getD i []).map Prod.fst)
      ∧ hops.getD i 0 = unreached ↔ PlaceDist nbs seeds (depth.toNat + 1) i := by
    intro i
    rw [List.mem_flatMap]
    constructor
    · rintro ⟨⟨a, ha, hai⟩, hun⟩
      have hi := hlt a i hai
      exact ((hfrontier a).mp ha).succ hai
        ((h.unreached_iff (by omega) hi).mp hun)
    · intro hdist
      obtain ⟨a, ha, hai⟩ := hdist.pred
      refine ⟨⟨a, (hfrontier a).mpr ha, hai⟩, ?_⟩
      refine h.far i (hlt a i hai) fun m hm hm' => ?_
      have := hm'.unique hdist
      omega
  rw [hnat]
  refine ⟨⟨?_, ?_, ?_⟩, ?_⟩
  · exact (hfold 0).1.trans h.length
  · intro m hm i hdist
    obtain ⟨-, hget, -⟩ := hfold i
    show (s.1.getD i 0).toNat = m
    rcases Nat.lt_or_eq_of_le hm with hm | rfl
    · rw [hget, if_neg]
      · exact h.near m (by omega) i hdist
      · intro hi
        have := ((hnew i).mp hi).unique hdist
        omega
    · rw [hget, if_pos ((hnew i).mpr hdist)]
      exact hnat
  · intro i hi hnone
    obtain ⟨-, hget, -⟩ := hfold i
    show s.1.getD i 0 = unreached
    rw [hget, if_neg fun hi' => hnone _ (Nat.le_refl _) ((hnew i).mp hi')]
    exact h.far i hi fun m hm => hnone m (by omega)
  · intro i
    obtain ⟨-, -, hmem⟩ := hfold i
    rw [hmem, ← hnew i]
    simp

/-- The loop labels as many layers as it may. -/
theorem layered_bfsLoop (hlt : ∀ i j, LeadsTo nbs i j → j < nbs.length)
    (left : Nat) {depth : UInt32} {hops : List UInt32} {frontier : List Nat}
    (h : Layered nbs seeds depth.toNat hops)
    (hfrontier : ∀ i, i ∈ frontier ↔ PlaceDist nbs seeds depth.toNat i)
    (hdepth : depth.toNat + left < unreached.toNat) :
    Layered nbs seeds (depth.toNat + left)
      (bfsLoop nbs left depth frontier hops) := by
  induction left generalizing depth hops frontier with
  | zero => exact h
  | succ left ih =>
      rw [bfsLoop]
      by_cases hnil : frontier = []
      · -- an empty layer: none comes after it
        rw [if_pos hnil]
        have hnone : ∀ m, depth.toNat ≤ m → ∀ i, ¬ PlaceDist nbs seeds m i := by
          intro m hm i hdist
          obtain ⟨a, ha⟩ := hdist.of_le hm
          have hmem := (hfrontier a).mpr ha
          rw [hnil] at hmem
          exact List.not_mem_nil hmem
        refine ⟨h.length, fun m hm i hdist => ?_, fun i hi hfar => ?_⟩
        · by_cases hmd : m ≤ depth.toNat
          · exact h.near m hmd i hdist
          · exact absurd hdist (hnone m (by omega) i)
        · exact h.far i hi fun m hm => hfar m (by omega)
      · rw [if_neg hnil]
        obtain ⟨hnat, -⟩ := toNat_succ (d := depth) (by omega)
        obtain ⟨hnext, hfront⟩ := h.pass hlt hfrontier (by omega)
        have hrest := ih hnext hfront (by omega)
        rw [hnat] at hrest
        rw [← Nat.add_assoc, Nat.add_right_comm]
        exact hrest

/-- `bfs_hops` labels what is within its hops, with the distance. -/
theorem layered_bfsHops (hlt : ∀ i j, LeadsTo nbs i j → j < nbs.length)
    {maxHops : UInt32} (hmax : maxHops < unreached) :
    Layered nbs seeds maxHops.toNat (bfsHops nbs seeds maxHops) := by
  have hmax : maxHops.toNat < unreached.toNat := UInt32.lt_iff_toNat_lt.mp hmax
  have hfrontier : ∀ i, i ∈ seeds
      ↔ PlaceDist nbs seeds (0 : UInt32).toNat i := fun i => dist_zero.symm
  have h := layered_bfsLoop hlt maxHops.toNat layered_zero hfrontier
    (by rw [UInt32.toNat_zero, Nat.zero_add]; exact hmax)
  rw [UInt32.toNat_zero, Nat.zero_add] at h
  exact h

end Layers

-- ============================================================= the nodes

/-- Two nodes of the graph with an edge between them, either way. -/
def InMemoryGraph.Adjacent (g : InMemoryGraph K) (a b : NodeId) : Prop :=
  (g.node a).isSome ∧ (g.node b).isSome
    ∧ ∃ e ∈ g.edges, (e.source = a ∧ e.target = b) ∨ (e.source = b ∧ e.target = a)

/-- How far a node is from the seeds the graph has. -/
def InMemoryGraph.HopsTo (g : InMemoryGraph K) (seeds : List NodeId) (d : Nat)
    (id : NodeId) : Prop :=
  Dist g.Adjacent (fun a => a ∈ seeds ∧ (g.node a).isSome) d id

section Nodes

variable (o : PprOrders K) (g : InMemoryGraph K)

theorem node_isSome {id : NodeId} :
    (g.node id).isSome ↔ ∃ i : Nat, (nodeIds o g)[i]? = some id := by
  unfold InMemoryGraph.node
  rw [List.find?_isSome, ← List.mem_iff_getElem?, mem_nodeIds, List.mem_map]
  refine exists_congr fun e => and_congr_right fun _ => ?_
  exact decide_eq_true_iff

theorem nodeIds_nodup : (nodeIds o g).Nodup :=
  ((o.nodes.perm g.nodes).map Entity.id).nodup_iff.mpr g.nodup

theorem indexOf_eq_some {id : NodeId} {i : Nat} :
    indexOf o g id = some i ↔ (nodeIds o g)[i]? = some id := by
  unfold indexOf
  rw [List.idxOf?_eq_some_iff]
  constructor
  · rintro ⟨hlt, hid, -⟩
    rw [List.getElem?_eq_getElem hlt, hid]
  · intro h
    obtain ⟨hlt, hid⟩ := List.getElem?_eq_some_iff.mp h
    refine ⟨hlt, hid, fun j hj hjd => ?_⟩
    have heq : (nodeIds o g)[j] = (nodeIds o g)[i] := by
      rw [hid]
      exact hjd
    have := (nodeIds_nodup o g).getElem_inj_iff.mp heq
    omega

theorem mem_seedIndices {seeds : List NodeId} {i : Nat} :
    i ∈ seedIndices o g seeds
      ↔ ∃ a ∈ seeds, (nodeIds o g)[i]? = some a := by
  unfold seedIndices
  rw [List.mem_filterMap]
  exact exists_congr fun a => and_congr_right fun _ => indexOf_eq_some o g

/-- What has a distance is a node. -/
theorem HopsTo.node {seeds : List NodeId} {d : Nat} {a : NodeId}
    (h : g.HopsTo seeds d a) : (g.node a).isSome := by
  cases h.1 with
  | here hseed => exact hseed.2
  | step _ hadj => exact hadj.2.1

/-- Without a seed in the graph nothing is near one. -/
theorem not_hopsTo_of_nil {seeds : List NodeId}
    (h : seedIndices o g seeds = []) {d : Nat} {id : NodeId} :
    ¬ g.HopsTo seeds d id := by
  intro hdist
  obtain ⟨a, ha⟩ := hdist.of_le (Nat.zero_le d)
  obtain ⟨hseed, hnode⟩ := dist_zero.mp ha
  obtain ⟨i, hi⟩ := (node_isSome o g).mp hnode
  have hmem := (mem_seedIndices o g).mpr ⟨a, hseed, hi⟩
  rw [h] at hmem
  exact List.not_mem_nil hmem

variable [Field K]

theorem length_neighbours : (neighbours o g).length = (nodeIds o g).length :=
  List.length_map ..

/-- The neighbours of a node, edges in either direction. -/
theorem mem_undirectedNeighbours {a b : NodeId} :
    b ∈ (g.undirectedNeighbours a).map Prod.fst
      ↔ ∃ e ∈ g.edges,
          (e.source = a ∧ e.target = b) ∨ (e.source = b ∧ e.target = a) := by
  unfold InMemoryGraph.undirectedNeighbours
  rw [tally_keys, List.mem_dedup, List.map_append, List.mem_append]
  simp only [InMemoryGraph.outbound, InMemoryGraph.inbound, List.mem_map,
    List.mem_filter, decide_eq_true_eq]
  constructor
  · rintro (⟨_, ⟨e, ⟨he, hs⟩, rfl⟩, rfl⟩ | ⟨_, ⟨e, ⟨he, ht⟩, rfl⟩, rfl⟩)
    · exact ⟨e, he, .inl ⟨hs, rfl⟩⟩
    · exact ⟨e, he, .inr ⟨rfl, ht⟩⟩
  · rintro ⟨e, he, ⟨hs, rfl⟩ | ⟨rfl, ht⟩⟩
    · exact .inl ⟨_, ⟨e, ⟨he, hs⟩, rfl⟩, rfl⟩
    · exact .inr ⟨_, ⟨e, ⟨he, ht⟩, rfl⟩, rfl⟩

/-- An edge between places is one between their nodes. -/
theorem leadsTo_iff {i j : Nat} :
    LeadsTo (neighbours o g) i j
      ↔ ∃ a b, (nodeIds o g)[i]? = some a ∧ (nodeIds o g)[j]? = some b
          ∧ g.Adjacent a b := by
  unfold LeadsTo neighbours
  rw [List.getD_eq_getElem?_getD, List.getElem?_map]
  cases ha : (nodeIds o g)[i]? with
  | none => simp
  | some a =>
      have hasome : (g.node a).isSome := (node_isSome o g).mpr ⟨i, ha⟩
      rw [Option.map_some, Option.getD_some]
      constructor
      · intro hmem
        obtain ⟨⟨_, w⟩, hx, rfl⟩ := List.mem_map.mp hmem
        obtain ⟨⟨b, w'⟩, hb, hj⟩ := List.mem_filterMap.mp hx
        obtain ⟨k, hk, heq⟩ := Option.map_eq_some_iff.mp hj
        cases heq
        have hplace := (indexOf_eq_some o g).mp hk
        refine ⟨a, b, rfl, hplace, hasome,
          (node_isSome o g).mpr ⟨_, hplace⟩, ?_⟩
        rw [← mem_undirectedNeighbours g]
        exact List.mem_map.mpr
          ⟨_, ((o.neighbours a).mem_apply).mp hb, rfl⟩
      · rintro ⟨a', b, ha', hb, -, -, hedge⟩
        cases ha'
        rw [← mem_undirectedNeighbours g] at hedge
        obtain ⟨⟨b, w⟩, hx, rfl⟩ := List.mem_map.mp hedge
        refine List.mem_map.mpr ⟨(j, w), List.mem_filterMap.mpr
          ⟨(b, w), ((o.neighbours a).mem_apply).mpr hx, ?_⟩, rfl⟩
        rw [(indexOf_eq_some o g).mpr hb]
        rfl

theorem leadsTo_lt (i j : Nat) (h : LeadsTo (neighbours o g) i j) :
    j < (neighbours o g).length := by
  obtain ⟨_, _, -, hj, -⟩ := (leadsTo_iff o g).mp h
  rw [length_neighbours]
  exact (List.getElem?_eq_some_iff.mp hj).1

/-- A walk over places is a walk over nodes. -/
theorem walk_iff (seeds : List NodeId) (m : Nat) {i : Nat} {a : NodeId}
    (ha : (nodeIds o g)[i]? = some a) :
    Walk (LeadsTo (neighbours o g)) (· ∈ seedIndices o g seeds) m i
      ↔ Walk g.Adjacent (fun a => a ∈ seeds ∧ (g.node a).isSome) m a := by
  constructor
  · intro h
    induction h generalizing a with
    | here hi =>
        obtain ⟨b, hb, hplace⟩ := (mem_seedIndices o g).mp hi
        rw [ha, Option.some.injEq] at hplace
        subst hplace
        exact .here ⟨hb, (node_isSome o g).mpr ⟨_, ha⟩⟩
    | step _ hij ih =>
        obtain ⟨b, c, hb, hc, hadj⟩ := (leadsTo_iff o g).mp hij
        rw [ha, Option.some.injEq] at hc
        subst hc
        exact .step (ih hb) hadj
  · intro h
    induction h generalizing i with
    | here hseed => exact .here ((mem_seedIndices o g).mpr ⟨_, hseed.1, ha⟩)
    | @step n b a _ hadj ih =>
        obtain ⟨j, hj⟩ := (node_isSome o g).mp hadj.1
        exact .step (ih hj) ((leadsTo_iff o g).mpr ⟨b, a, hj, ha, hadj⟩)

theorem placeDist_iff (seeds : List NodeId) (d : Nat) {i : Nat} {a : NodeId}
    (ha : (nodeIds o g)[i]? = some a) :
    PlaceDist (neighbours o g) (seedIndices o g seeds) d i
      ↔ g.HopsTo seeds d a :=
  dist_congr (fun m => walk_iff o g seeds m ha) d

/-- Every node's hops are its distance from the seeds the graph has, where
that is within the hops allowed, and `u32::MAX` elsewhere. -/
def HopsExact (seeds : List NodeId) (maxHops : UInt32) : Prop :=
  let hops := bfsHops (neighbours o g) (seedIndices o g seeds) maxHops
  hops.length = (nodeIds o g).length
    ∧ ∀ (i : Nat) (id : NodeId), (nodeIds o g)[i]? = some id →
        (∀ d, d ≤ maxHops.toNat → g.HopsTo seeds d id →
            (hops.getD i 0).toNat = d)
          ∧ ((∀ d, d ≤ maxHops.toNat → ¬ g.HopsTo seeds d id) →
            hops.getD i 0 = unreached)

theorem hopsExact (seeds : List NodeId) {maxHops : UInt32}
    (hmax : maxHops < unreached) : HopsExact o g seeds maxHops := by
  have h : Layered (neighbours o g) (seedIndices o g seeds) _ _ :=
    layered_bfsHops (leadsTo_lt o g) hmax
  refine ⟨h.length.trans (length_neighbours o g), fun i id hid => ?_⟩
  have hlt : i < (neighbours o g).length := by
    rw [length_neighbours]
    exact (List.getElem?_eq_some_iff.mp hid).1
  constructor
  · intro d hd hdist
    exact h.near d hd i ((placeDist_iff o g seeds d hid).mpr hdist)
  · intro hnone
    exact h.far i hlt fun d hd hdist =>
      hnone d hd ((placeDist_iff o g seeds d hid).mp hdist)

/-- The hops to a node are allowed just where it is that near. -/
theorem hops_le_iff (seeds : List NodeId) {maxHops : UInt32}
    (hmax : maxHops < unreached) {i : Nat} {id : NodeId}
    (hid : (nodeIds o g)[i]? = some id) :
    let h := (bfsHops (neighbours o g) (seedIndices o g seeds) maxHops).getD i 0
    (h ≤ maxHops ↔ ∃ d, d ≤ maxHops.toNat ∧ g.HopsTo seeds d id)
      ∧ (h ≤ maxHops → g.HopsTo seeds h.toNat id) := by
  intro h
  obtain ⟨hnear, hfar⟩ := (hopsExact o g seeds hmax).2 i id hid
  have hmax' : maxHops.toNat < unreached.toNat := UInt32.lt_iff_toNat_lt.mp hmax
  by_cases hex : ∃ d, d ≤ maxHops.toNat ∧ g.HopsTo seeds d id
  · obtain ⟨d, hd, hdist⟩ := hex
    have heq : h.toNat = d := hnear d hd hdist
    refine ⟨iff_of_true ?_ ⟨d, hd, hdist⟩, fun _ => heq ▸ hdist⟩
    rw [UInt32.le_iff_toNat_le, heq]
    exact hd
  · have heq : h = unreached :=
      hfar fun d hd hdist => hex ⟨d, hd, hdist⟩
    have hnot : ¬ h ≤ maxHops := by
      rw [heq, UInt32.le_iff_toNat_le]
      omega
    exact ⟨iff_of_false hnot hex, fun hle => absurd hle hnot⟩

-- =========================================================== the ranking

variable [LinearOrder K]

/-- The score of a node, in the last vector. -/
def scoreOf (seeds : List NodeId) (cfg : PprConfig K) (id : NodeId) : K :=
  (((scoreVectors o g seeds cfg).getLast?).getD []).getD
    ((indexOf o g id).getD 0) 0

/-- These hits are the best of what is near a seed: there is a list of the
nodes within the hops allowed, each once and with its distance and score,
by descending score, and they are its first `topK`. -/
def Surfaces (seeds : List NodeId) (cfg : PprConfig K) (topK : Nat)
    (ranked : List (PprHit K)) : Prop :=
  ∃ all : List (PprHit K), ranked = all.take topK
    ∧ all.Pairwise (fun a b => b.score ≤ a.score)
    ∧ (all.map PprHit.id).Nodup
    ∧ (∀ id, id ∈ all.map PprHit.id
        ↔ ∃ d, d ≤ cfg.maxHops.toNat ∧ g.HopsTo seeds d id)
    ∧ ∀ h ∈ all, g.HopsTo seeds h.hops.toNat h.id
        ∧ h.score = scoreOf o g seeds cfg h.id

/-- What is ranked: each node with its place's score and hops. -/
theorem mem_rank {p : List K} {hops : List UInt32} {h : PprHit K} :
    h ∈ rank o g p hops
      ↔ ∃ i : Nat, (nodeIds o g)[i]? = some h.id ∧ h.score = p.getD i 0
          ∧ h.hops = hops.getD i 0 := by
  unfold rank
  rw [mem_sortBy, List.mem_map]
  constructor
  · rintro ⟨⟨id, i⟩, hmem, rfl⟩
    exact ⟨i, List.mem_zipIdx_iff_getElem?.mp hmem, rfl, rfl⟩
  · rintro ⟨i, hid, hscore, hhops⟩
    refine ⟨(h.id, i), List.mem_zipIdx_iff_getElem?.mpr hid, ?_⟩
    rw [← hscore, ← hhops]

theorem rank_ids_nodup (p : List K) (hops : List UInt32) :
    ((rank o g p hops).map PprHit.id).Nodup := by
  unfold rank
  refine ((sortBy_perm _ _).map PprHit.id).nodup_iff.mpr ?_
  rw [List.map_map]
  have hids : (nodeIds o g).zipIdx.map Prod.fst = nodeIds o g :=
    List.zipIdx_map_fst 0 _
  exact (congrArg List.Nodup hids).mpr (nodeIds_nodup o g)

/-- What is left of a ranking is what is near a seed. -/
theorem surfaces (seeds : List NodeId) {cfg : PprConfig K} (topK : Nat)
    (hmax : cfg.maxHops < unreached) :
    Surfaces o g seeds cfg topK
      (surface (personalisedPagerank o g seeds cfg) cfg.maxHops topK).ranked := by
  have hempty : seedIndices o g seeds = [] →
      Surfaces o g seeds cfg topK (([] : List (PprHit K)).take topK) := by
    intro hnil
    refine ⟨[], rfl, List.Pairwise.nil, List.nodup_nil, fun id => ?_, ?_⟩
    · refine iff_of_false List.not_mem_nil ?_
      rintro ⟨d, -, hdist⟩
      exact not_hopsTo_of_nil o g hnil hdist
    · intro h hh
      cases hh
  unfold personalisedPagerank surface
  by_cases hseeds : seeds = []
  · rw [if_pos hseeds]
    refine hempty ?_
    rw [hseeds]
    rfl
  · rw [if_neg hseeds]
    by_cases hnil : seedIndices o g seeds = []
    · rw [if_pos hnil]
      exact hempty hnil
    · rw [if_neg hnil]
      refine ⟨_, rfl, ?_, ?_, fun id => ?_, fun h hh => ?_⟩
      · have hsorted := pairwise_sortBy
          (fun h : PprHit K => OrderDual.toDual h.score)
        exact (hsorted _).filter _
      · exact (rank_ids_nodup o g _ _).sublist (List.filter_sublist.map _)
      · rw [List.mem_map]
        constructor
        · rintro ⟨h, hh, rfl⟩
          obtain ⟨hmem, hle⟩ := List.mem_filter.mp hh
          obtain ⟨i, hid, -, hhops⟩ := (mem_rank o g).mp hmem
          have hle : h.hops ≤ cfg.maxHops := of_decide_eq_true hle
          rw [hhops] at hle
          exact (hops_le_iff o g seeds hmax hid).1.mp hle
        · rintro ⟨d, hd, hdist⟩
          obtain ⟨i, hid⟩ := (node_isSome o g).mp (HopsTo.node g hdist)
          have hle := (hops_le_iff o g seeds hmax hid).1.mpr ⟨d, hd, hdist⟩
          refine ⟨⟨id, _, _⟩, List.mem_filter.mpr
            ⟨(mem_rank o g).mpr ⟨i, hid, rfl, rfl⟩, ?_⟩, rfl⟩
          exact decide_eq_true hle
      · obtain ⟨hmem, hle⟩ := List.mem_filter.mp hh
        obtain ⟨i, hid, hscore, hhops⟩ := (mem_rank o g).mp hmem
        have hle : h.hops ≤ cfg.maxHops := of_decide_eq_true hle
        constructor
        · rw [hhops] at hle ⊢
          exact (hops_le_iff o g seeds hmax hid).2 hle
        · unfold scoreOf
          rw [(indexOf_eq_some o g).mpr hid]
          exact hscore

end Nodes

end SapAutomate.Graph
