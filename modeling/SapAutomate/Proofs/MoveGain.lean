/-
What the moves of community detection do to the modularity.

The gain that the code computes for a community is the attraction it has
for the node (`visit_cases`). The modularity also loses what drew the node
to the community it leaves, and the code compares the gain with zero
instead. So a move improves the partition just where the gain of the best
other community is more than what staying would gain (`StaysBehind`).
-/
import SapAutomate.Proofs.HashOrder
import SapAutomate.Lib.Modularity

namespace SapAutomate.Graph

open Iteration Modularity

variable {K : Type}

-- =============================================================== weights

/-- A graph whose edges join nodes it has. -/
structure JoinedGraph (K : Type) extends InMemoryGraph K where
  joined : ∀ e ∈ edges, e.source ∈ nodes.map Entity.id
    ∧ e.target ∈ nodes.map Entity.id

namespace InMemoryGraph

/-- The ids of the nodes. -/
def ids (g : InMemoryGraph K) : Finset NodeId :=
  (g.nodes.map Entity.id).toFinset

/-- The weight of the edges from one node to another. -/
def edgeWeight [AddCommMonoid K] (g : InMemoryGraph K) (i j : NodeId) : K :=
  ((g.edges.filter fun e => e.source = i ∧ e.target = j).map Edge.weight).sum

/-- The weight of the edges between two nodes: a loop counts twice. -/
def weightBetween [AddCommMonoid K] (g : InMemoryGraph K) (i j : NodeId) : K :=
  g.edgeWeight i j + g.edgeWeight j i

theorem weightBetween_comm [AddCommMonoid K] (g : InMemoryGraph K)
    (i j : NodeId) : g.weightBetween i j = g.weightBetween j i :=
  add_comm _ _

theorem amount_neighbours [AddCommMonoid K] (g : InMemoryGraph K)
    (i j : NodeId) :
    amount (g.outbound i ++ g.inbound i) j = g.weightBetween i j := by
  have hout : (((g.outbound i).filter fun x => x.1 = j).map Prod.snd)
      = (g.edges.filter fun e => e.source = i ∧ e.target = j).map
        Edge.weight := by
    unfold outbound
    rw [List.filter_map, List.map_map, List.filter_filter]
    congr 1
    refine List.filter_congr fun e _ => ?_
    simp [Bool.and_comm]
  have hin : (((g.inbound i).filter fun x => x.1 = j).map Prod.snd)
      = (g.edges.filter fun e => e.source = j ∧ e.target = i).map
        Edge.weight := by
    unfold inbound
    rw [List.filter_map, List.map_map, List.filter_filter]
    congr 1
    refine List.filter_congr fun e _ => ?_
    simp
  unfold amount weightBetween edgeWeight
  rw [List.filter_append, List.map_append, List.sum_append, hout, hin]

end InMemoryGraph

/-- The neighbours of a node are nodes. -/
theorem JoinedGraph.neighbour_mem (g : JoinedGraph K) {i : NodeId}
    {x : NodeId × K} (hx : x ∈ g.outbound i ++ g.inbound i) : x.1 ∈ g.ids := by
  rw [InMemoryGraph.ids, List.mem_toFinset]
  rcases List.mem_append.mp hx with hx | hx
  · obtain ⟨e, he, rfl⟩ := List.mem_map.mp hx
    exact (g.joined e (List.mem_filter.mp he).1).2
  · obtain ⟨e, he, rfl⟩ := List.mem_map.mp hx
    exact (g.joined e (List.mem_filter.mp he).1).1

theorem mem_ids {o : HashOrders K} {g : InMemoryGraph K} {n : NodeId} :
    n ∈ g.ids ↔ n ∈ sortedNodes o g := by
  rw [mem_sortedNodes, InMemoryGraph.ids, List.mem_toFinset, List.mem_map]

theorem sortedNodes_toFinset (o : HashOrders K) (g : InMemoryGraph K) :
    (sortedNodes o g).toFinset = g.ids := by
  ext n
  rw [List.mem_toFinset, mem_ids]

theorem neighboursOf_perm [Field K] (o : HashOrders K) (g : InMemoryGraph K)
    (pass : Nat) (id : NodeId) :
    (neighboursOf o g pass id).Perm (g.undirectedNeighbours id) :=
  (sortBy_perm _ _).trans (IterOrder.perm _ _)

-- ============================================================ membership

/-- Every node is in a community. -/
def Covers (g : InMemoryGraph K) (ms : Membership) : Prop :=
  ∀ n ∈ g.ids, ∃ c, ms n = some c

theorem Covers.insert {g : InMemoryGraph K} {ms : Membership}
    (h : Covers g ms) (id : NodeId) (c : UInt32) :
    Covers g (ms.insert id c) := by
  intro n hn
  by_cases hid : n = id
  · exact ⟨c, by rw [hid, Table.insert_self]⟩
  · rw [Table.insert_ne hid]
    exact h n hn

theorem initial_covers (o : HashOrders K) (g : InMemoryGraph K) :
    Covers g (initialMembership o g) := by
  intro n hn
  have hmem : n ∈ sortedNodes o g := mem_ids.mp hn
  obtain ⟨i, hi⟩ : ∃ i, (sortedNodes o g).idxOf? n = some i := by
    rw [← Option.isSome_iff_exists, List.isSome_idxOf?]
    exact hmem
  exact ⟨UInt32.ofNat i, by rw [initialMembership, hi]; rfl⟩

/-- A neighbour of the node is in this community. -/
def Near (g : InMemoryGraph K) (ms : Membership) (id : NodeId) (c : UInt32) :
    Prop :=
  ∃ x ∈ g.outbound id ++ g.inbound id, ms x.1 = some c

theorem withCommunities_some {ms : Membership} {xs : List (NodeId × K)}
    (h : ∀ x ∈ xs, ∃ c, ms x.1 = some c) :
    withCommunities ms xs
      = some (xs.map fun x => ((ms x.1).getD 0, x.2)) := by
  unfold withCommunities
  induction xs with
  | nil => rfl
  | cons x xs ih =>
      obtain ⟨c, hc⟩ := h x (List.mem_cons_self ..)
      rw [List.mapM_cons, ih fun y hy => h y (List.mem_cons_of_mem _ hy), hc]
      simp [hc]

/-- The tally of values by community. -/
theorem amount_communities [AddMonoid K] (ms : Membership) (xs : List (NodeId × K))
    (c : UInt32) :
    amount (xs.map fun x => ((ms x.1).getD 0, x.2)) c
      = ((xs.filter fun x => (ms x.1).getD 0 = c).map Prod.snd).sum := by
  unfold amount
  rw [List.filter_map, List.map_map]
  rfl

/-- In a membership of all nodes, the nodes of a community. -/
theorem filter_community {g : InMemoryGraph K} {ms : Membership}
    (h : Covers g ms) (s : Finset NodeId) (hs : s ⊆ g.ids) (c : UInt32) :
    (s.filter fun n => (ms n).getD 0 = c) = s.filter fun n => ms n = some c := by
  refine Finset.filter_congr fun n hn => ?_
  obtain ⟨c', hc'⟩ := h n (hs hn)
  rw [hc', Option.getD_some, Option.some.injEq]

/-- Another community's nodes do not have the node itself among them. -/
theorem erase_community {ms : Membership} {s : Finset NodeId} {id : NodeId}
    {cur c : UInt32} (hcur : ms id = some cur) (hc : c ≠ cur) :
    (s.filter fun n => ms n = some c)
      = (s.erase id).filter fun n => ms n = some c := by
  ext n
  rw [Finset.mem_filter, Finset.mem_filter, Finset.mem_erase]
  constructor
  · rintro ⟨hn, hms⟩
    refine ⟨⟨?_, hn⟩, hms⟩
    rintro rfl
    rw [hcur, Option.some.injEq] at hms
    exact hc hms.symm
  · rintro ⟨⟨-, hn⟩, hms⟩
    exact ⟨hn, hms⟩

/-- A candidate is taken where it gains more than the best one so far. -/
theorem pick_cases [LinearOrder K] (cur : UInt32) (gainOf : UInt32 × K → K)
    (best x : UInt32 × K) :
    (pick cur gainOf best x = best ∧ (x.1 ≠ cur → gainOf x ≤ best.2))
    ∨ x.1 ≠ cur ∧ best.2 < gainOf x
      ∧ pick cur gainOf best x = (x.1, gainOf x) := by
  unfold pick
  by_cases hcur : x.1 = cur
  · exact .inl ⟨if_pos hcur, fun hne => absurd hcur hne⟩
  · rw [if_neg hcur]
    by_cases hx : best.2 < gainOf x
    · exact .inr ⟨hcur, hx, if_pos hx⟩
    · exact .inl ⟨if_neg hx, fun _ => not_lt.mp hx⟩

-- ============================================================= numbering

/-- Memberships with the same communities. -/
def SamePartition (g : InMemoryGraph K) (ms ms' : Membership) : Prop :=
  ∀ i ∈ g.ids, ∀ j ∈ g.ids, ms i = ms j ↔ ms' i = ms' j

/-- The communities have ids of their own, so there are not more of them
than ids. -/
theorem ids_length {cs : List Community} (hnd : (cs.map Community.id).Nodup) :
    cs.length ≤ 4294967296 := by
  have hnd' : (cs.map fun c => c.id.toNat).Nodup := by
    have hmap : cs.map (fun c => c.id.toNat)
        = (cs.map Community.id).map UInt32.toNat := by
      rw [List.map_map]
      rfl
    rw [hmap]
    exact hnd.map fun _ _ h => UInt32.toNat_inj.mp h
  have hsub : (cs.map fun c => c.id.toNat).toFinset
      ⊆ Finset.range 4294967296 := by
    intro n hn
    obtain ⟨c, -, rfl⟩ := List.mem_map.mp (List.mem_toFinset.mp hn)
    exact Finset.mem_range.mpr c.id.toNat_lt
  have hcard := Finset.card_le_card hsub
  rw [List.toFinset_card_of_nodup hnd', Finset.card_range,
    List.length_map] at hcard
  exact hcard

/-- The new numbers keep communities apart. -/
theorem renumbered_same {g : InMemoryGraph K} {cs : List Community}
    {ms : Membership} (hnd : (cs.map Community.id).Nodup)
    (hall : ∀ n ∈ g.ids, ∀ c, ms n = some c → ∃ x ∈ cs, x.id = c) :
    SamePartition g ms (renumbered cs ms).membership := by
  intro i hi j hj
  show ms i = ms j ↔ (ms i).map _ = (ms j).map _
  constructor
  · intro h
    rw [h]
  · intro h
    cases hci : ms i with
    | none =>
        cases hcj : ms j with
        | none => rfl
        | some d =>
            rw [hci, hcj] at h
            cases h
    | some c =>
        cases hcj : ms j with
        | none =>
            rw [hci, hcj] at h
            cases h
        | some d =>
            rw [hci, hcj, Option.map_some, Option.map_some,
              Option.some.injEq] at h
            have hindex : ∀ b, (∃ x ∈ cs, x.id = b) →
                ∃ hlt : cs.findIdx (fun x => x.id = b) < cs.length,
                  cs[cs.findIdx fun x => x.id = b].id = b := by
              intro b hb
              obtain ⟨x, hx, hxb⟩ := hb
              have hlt := List.findIdx_lt_length_of_exists
                (p := fun x : Community => decide (x.id = b))
                ⟨x, hx, decide_eq_true hxb⟩
              exact ⟨hlt, of_decide_eq_true
                (List.findIdx_getElem (w := hlt))⟩
            obtain ⟨hltc, hc⟩ := hindex c (hall i hi c hci)
            obtain ⟨hltd, hd⟩ := hindex d (hall j hj d hcj)
            have hlen : cs.length ≤ UInt32.size := ids_length hnd
            have hsame : cs.findIdx (fun x => x.id = c)
                = cs.findIdx fun x => x.id = d := by
              have hnat := congrArg UInt32.toNat h
              rwa [UInt32.toNat_ofNat_of_lt' (hltc.trans_le hlen),
                UInt32.toNat_ofNat_of_lt' (hltd.trans_le hlen)] at hnat
            rw [Option.some.injEq, ← hc, ← hd]
            simp only [hsame]

/-- What is built has a community for each that has a node, and no two of
one id. -/
theorem build_ids (o : HashOrders K) (g : InMemoryGraph K) (ms : Membership) :
    ((bySize (buildCommunities o g ms)).map Community.id).Nodup
      ∧ ∀ n ∈ g.ids, ∀ c, ms n = some c →
        ∃ x ∈ bySize (buildCommunities o g ms), x.id = c := by
  have hperm : (bySize (buildCommunities o g ms)).Perm
      (groupsIn g (entriesOf o g ms)) :=
    (sortBy_perm _ _).trans (build_perm o g ms)
  constructor
  · exact ((hperm.map Community.id).nodup_iff).mpr (groupsIn_ids o g ms)
  · intro n hn c hc
    refine ⟨groupIn g (entriesOf o g ms) c, hperm.mem_iff.mpr ?_, rfl⟩
    exact mem_groupsIn.mpr ⟨n, mem_ids.mp hn, c, hc, rfl⟩

-- =============================================================== degrees

variable [Field K] {o : HashOrders K}

/-- The neighbours of a node, as the code has them. -/
theorem mem_neighboursOf {g : InMemoryGraph K} {pass : Nat} {id : NodeId}
    {x : NodeId × K} (h : x ∈ neighboursOf o g pass id) :
    ∃ y ∈ g.outbound id ++ g.inbound id, y.1 = x.1 :=
  (mem_tally.mp ((neighboursOf_perm o g pass id).mem_iff.mp h)).1

theorem neighboursOf_of_mem {g : InMemoryGraph K} (pass : Nat) {id : NodeId}
    {y : NodeId × K} (h : y ∈ g.outbound id ++ g.inbound id) :
    ∃ x ∈ neighboursOf o g pass id, x.1 = y.1 :=
  ⟨(y.1, amount (g.outbound id ++ g.inbound id) y.1),
    (neighboursOf_perm o g pass id).mem_iff.mpr
      (mem_tally.mpr ⟨⟨y, h, rfl⟩, rfl⟩), rfl⟩

/-- The weights to the neighbours with some property. -/
theorem sum_neighbours (o : HashOrders K) (g : JoinedGraph K) (pass : Nat)
    (id : NodeId) (p : NodeId → Prop) [DecidablePred p] :
    (((neighboursOf o g.toInMemoryGraph pass id).filter fun x =>
        p x.1).map Prod.snd).sum
      = ∑ n ∈ g.ids with p n, g.weightBetween id n := by
  rw [(((neighboursOf_perm o g.toInMemoryGraph pass id).filter _).map
    Prod.snd).sum_eq, InMemoryGraph.undirectedNeighbours,
    tally_sum _ p fun x hx => g.neighbour_mem hx]
  exact Finset.sum_congr rfl fun n _ => g.amount_neighbours id n

/-- `degree` is the weighted degree. -/
theorem degreeOf_node (o : HashOrders K) (g : JoinedGraph K) {id : NodeId}
    (hid : id ∈ g.ids) :
    degreeOf o g.toInMemoryGraph id = degree g.weightBetween g.ids id := by
  have hlookup : ∀ (ids : List NodeId) (f : NodeId → K), id ∈ ids →
      ((ids.map fun n => (n, f n)).lookup id).getD 0 = f id := by
    intro ids f hmem
    induction ids with
    | nil => cases hmem
    | cons n ids ih =>
        rw [List.map_cons, List.lookup_cons]
        by_cases hn : id = n
        · subst hn
          simp
        · have hbeq : (id == n) = false := by simpa using hn
          rw [hbeq]
          exact ih ((List.mem_cons.mp hmem).resolve_left hn)
  unfold degreeOf degrees
  rw [hlookup _ _ ((mem_ids (o := o)).mp hid)]
  have hsum := sum_neighbours o g 0 id fun _ => True
  simpa [degree] using hsum

/-- `total_weight` is half of the degrees. -/
theorem totalWeight_total (o : HashOrders K) (g : JoinedGraph K) :
    totalWeight o g.toInMemoryGraph = total g.weightBetween g.ids := by
  have hvalues : (degrees o g.toInMemoryGraph).map Prod.snd
      = (sortedNodes o g.toInMemoryGraph).map fun id =>
        ((neighboursOf o g.toInMemoryGraph 0 id).map Prod.snd).sum := by
    unfold degrees
    rw [List.map_map]
    rfl
  unfold totalWeight total
  rw [(((o.degrees.perm _).map Prod.snd)).sum_eq, hvalues,
    ← List.sum_toFinset _ (sortedNodes_nodup o g.toInMemoryGraph),
    sortedNodes_toFinset, Nat.cast_ofNat]
  refine congrArg (· / 2) (Finset.sum_congr rfl fun id _ => ?_)
  have hsum := sum_neighbours o g 0 id fun _ => True
  simpa [degree] using hsum

/-- `sigma_tot` has the degrees of the other nodes of a community. -/
theorem sigmaTot_some {g : JoinedGraph K} {ms : Membership}
    (h : Covers g.toInMemoryGraph ms) (id : NodeId) :
    ∃ sigma, sigmaTot o g.toInMemoryGraph ms id = some sigma
      ∧ ∀ c, (sigma.lookup c).getD 0
        = towards (degree g.weightBetween g.ids) ms (g.ids.erase id)
          (some c) := by
  have hnodes : ∀ x ∈ ((sortedNodes o g.toInMemoryGraph).filter
      (· ≠ id)).map (fun n => (n, degreeOf o g.toInMemoryGraph n)),
      ∃ c, ms x.1 = some c := by
    intro x hx
    obtain ⟨n, hn, rfl⟩ := List.mem_map.mp hx
    exact h n (mem_ids.mpr (List.mem_filter.mp hn).1)
  refine ⟨_, by rw [sigmaTot, withCommunities_some hnodes]; rfl, fun c => ?_⟩
  have hnd : ((sortedNodes o g.toInMemoryGraph).filter (· ≠ id)).Nodup :=
    (sortedNodes_nodup o g.toInMemoryGraph).filter _
  have hset : ((sortedNodes o g.toInMemoryGraph).filter (· ≠ id)).toFinset
      = g.ids.erase id := by
    ext n
    rw [List.mem_toFinset, List.mem_filter, Finset.mem_erase, ← mem_ids,
      and_comm]
    simp
  rw [lookup_tally, amount_communities, List.filter_map, List.map_map]
  have hsum : ((((sortedNodes o g.toInMemoryGraph).filter (· ≠ id)).filter
        fun n => (ms n).getD 0 = c).map (degreeOf o g.toInMemoryGraph)).sum
      = towards (degree g.weightBetween g.ids) ms (g.ids.erase id)
        (some c) := by
    rw [← List.sum_toFinset _ (hnd.filter _), List.toFinset_filter, hset]
    simp only [decide_eq_true_eq]
    rw [filter_community h _ (Finset.erase_subset _ _)]
    refine Finset.sum_congr rfl fun n hn => ?_
    exact degreeOf_node o g
      (Finset.mem_of_mem_erase (Finset.mem_filter.mp hn).1)
  exact hsum

-- ================================================================= visits

variable [LinearOrder K]

/-- What draws the node to this community. -/
def pull (g : InMemoryGraph K) (ms : Membership) (id : NodeId) (c : UInt32) :
    K :=
  attraction g.weightBetween g.ids ms id (some c)

/-- The community of another node that draws this one most. -/
def Best (g : InMemoryGraph K) (ms : Membership) (id : NodeId)
    (cur c : UInt32) : Prop :=
  Near g ms id c ∧ c ≠ cur ∧ 0 < pull g ms id c
    ∧ ∀ c', Near g ms id c' → c' ≠ cur → pull g ms id c' ≤ pull g ms id c

/-- The fold over the candidates: no other gains more, and it is the start
or a candidate that gains. -/
theorem foldl_pick (cur : UInt32) (gainOf : UInt32 × K → K)
    (cands : List (UInt32 × K)) :
    (∀ cand ∈ cands, cand.1 ≠ cur →
        gainOf cand ≤ (cands.foldl (pick cur gainOf) (cur, 0)).2)
    ∧ (cands.foldl (pick cur gainOf) (cur, 0) = (cur, 0)
      ∨ ∃ cand ∈ cands, cand.1 ≠ cur ∧ 0 < gainOf cand
        ∧ cands.foldl (pick cur gainOf) (cur, 0) = (cand.1, gainOf cand)) := by
  induction cands using List.reverseRecOn with
  | nil => exact ⟨fun cand h => (nomatch h), .inl rfl⟩
  | append_singleton cands x ih =>
      obtain ⟨hmax, hfold⟩ := ih
      rw [List.foldl_append, List.foldl_cons, List.foldl_nil]
      generalize cands.foldl (pick cur gainOf) (cur, 0) = best at hmax hfold
      rcases pick_cases cur gainOf best x with ⟨hkeep, hle⟩ | ⟨hne, hlt, htake⟩
      · rw [hkeep]
        constructor
        · intro cand hcand hcur
          rcases List.mem_append.mp hcand with hcand | hcand
          · exact hmax cand hcand hcur
          · rw [List.mem_singleton.mp hcand] at hcur ⊢
            exact hle hcur
        · rcases hfold with hstart | ⟨cand, hcand, hcur, hpos, hbest⟩
          · exact .inl hstart
          · exact .inr ⟨cand, List.mem_append_left _ hcand, hcur, hpos, hbest⟩
      · rw [htake]
        constructor
        · intro cand hcand hcur
          rcases List.mem_append.mp hcand with hcand | hcand
          · exact (hmax cand hcand hcur).trans (le_of_lt hlt)
          · rw [List.mem_singleton.mp hcand]
        · refine .inr ⟨x, by simp, hne, ?_, rfl⟩
          rcases hfold with hstart | ⟨cand, -, -, hpos, hbest⟩
          · rw [hstart] at hlt
            exact hlt
          · rw [hbest] at hlt
            exact hpos.trans hlt

/-- The choice of the code: to stay, where nothing else draws the node, or
the community that draws it most. -/
theorem bestCommunity_some {g : JoinedGraph K} {ms : Membership}
    (h : Covers g.toInMemoryGraph ms) (pass : Nat) {id : NodeId}
    (hid : id ∈ g.ids) {cur : UInt32} (hcur : ms id = some cur) :
    ∃ best, bestCommunity o g.toInMemoryGraph pass ms id cur = some best
      ∧ ((best = cur ∧ ∀ c, Near g.toInMemoryGraph ms id c → c ≠ cur →
          pull g.toInMemoryGraph ms id c ≤ 0)
        ∨ Best g.toInMemoryGraph ms id cur best) := by
  have hcovered : ∀ x ∈ neighboursOf o g.toInMemoryGraph pass id,
      ∃ c, ms x.1 = some c := by
    intro x hx
    obtain ⟨y, hy, hyx⟩ := mem_neighboursOf hx
    exact h x.1 (hyx ▸ g.neighbour_mem hy)
  obtain ⟨sigma, hsigma, hlookup⟩ := sigmaTot_some (o := o) h id
  let ys := (neighboursOf o g.toInMemoryGraph pass id).map fun x =>
    ((ms x.1).getD 0, x.2)
  let cands := sortBy (fun cand : UInt32 × K => cand.1.toNat)
    ((o.candidates pass id).apply (tally ys))
  let gainOf := fun cand : UInt32 × K =>
    gain (totalWeight o g.toInMemoryGraph) (degreeOf o g.toInMemoryGraph id)
      cand.2 ((sigma.lookup cand.1).getD 0)
  have hbest : bestCommunity o g.toInMemoryGraph pass ms id cur
      = some (cands.foldl (pick cur gainOf) (cur, 0)).1 := by
    unfold bestCommunity
    rw [withCommunities_some hcovered, hsigma]
    rfl
  have hmem : ∀ cand, cand ∈ cands ↔ (∃ y ∈ ys, y.1 = cand.1)
      ∧ cand.2 = amount ys cand.1 := by
    intro cand
    rw [mem_sortBy, IterOrder.mem_apply, mem_tally]
  have hnear : ∀ c, (∃ y ∈ ys, y.1 = c) ↔ Near g.toInMemoryGraph ms id c := by
    intro c
    constructor
    · rintro ⟨y, hy, rfl⟩
      obtain ⟨x, hx, rfl⟩ := List.mem_map.mp hy
      obtain ⟨z, hz, hzx⟩ := mem_neighboursOf hx
      obtain ⟨c', hc'⟩ := hcovered x hx
      exact ⟨z, hz, by rw [hzx, hc', Option.getD_some]⟩
    · rintro ⟨z, hz, hc⟩
      obtain ⟨x, hx, hxz⟩ := neighboursOf_of_mem (o := o) pass hz
      exact ⟨_, List.mem_map.mpr ⟨x, hx, rfl⟩, by rw [hxz, hc, Option.getD_some]⟩
  have hgain : ∀ cand ∈ cands, cand.1 ≠ cur →
      gainOf cand = pull g.toInMemoryGraph ms id cand.1 := by
    intro cand hcand hne
    have hweight : cand.2 = towards (g.weightBetween id) ms (g.ids.erase id)
        (some cand.1) := by
      rw [((hmem cand).mp hcand).2, amount_communities,
        sum_neighbours o g pass id fun n => (ms n).getD 0 = cand.1,
        filter_community h _ (Finset.Subset.refl _),
        erase_community hcur hne]
      rfl
    show gain _ _ _ _ = _
    rw [hweight, hlookup, degreeOf_node o g hid, totalWeight_total]
    rfl
  refine ⟨_, hbest, ?_⟩
  obtain ⟨hmax, hfold | ⟨cand, hcand, hne, hpos, hfold⟩⟩ :=
    foldl_pick cur gainOf cands
  · rw [hfold] at hmax ⊢
    refine .inl ⟨rfl, fun c hc hcne => ?_⟩
    have hin : (c, amount ys c) ∈ cands :=
      (hmem _).mpr ⟨(hnear c).mpr hc, rfl⟩
    have hgainc := hmax _ hin hcne
    rwa [hgain _ hin hcne] at hgainc
  · rw [hfold] at hmax ⊢
    refine .inr ⟨(hnear _).mp ((hmem cand).mp hcand).1, hne, ?_,
      fun c hc hcne => ?_⟩
    · rwa [hgain cand hcand hne] at hpos
    · have hin : (c, amount ys c) ∈ cands :=
        (hmem _).mpr ⟨(hnear c).mpr hc, rfl⟩
      have hgainc := hmax _ hin hcne
      rwa [hgain _ hin hcne, hgain cand hcand hne] at hgainc

/-- The visit of a node: it stays where nothing else draws it, and goes to
what draws it most. -/
theorem visit_cases {g : JoinedGraph K} {ms : Membership}
    (h : Covers g.toInMemoryGraph ms) (pass : Nat) {id : NodeId}
    (hid : id ∈ g.ids) {cur : UInt32} (hcur : ms id = some cur) :
    (visit o g.toInMemoryGraph pass ms id = some (ms, false)
      ∧ ∀ c, Near g.toInMemoryGraph ms id c → c ≠ cur →
        pull g.toInMemoryGraph ms id c ≤ 0)
    ∨ ∃ c, Best g.toInMemoryGraph ms id cur c
      ∧ visit o g.toInMemoryGraph pass ms id = some (ms.insert id c, true) := by
  unfold visit
  rw [hcur]
  by_cases hempty : (neighboursOf o g.toInMemoryGraph pass id).isEmpty = true
  · refine .inl ⟨if_pos hempty, fun c hc _ => ?_⟩
    obtain ⟨z, hz, -⟩ := hc
    obtain ⟨x, hx, -⟩ := neighboursOf_of_mem (o := o) pass hz
    rw [List.isEmpty_iff.mp hempty] at hx
    cases hx
  · obtain ⟨best, hbest, hcases⟩ := bestCommunity_some (o := o) h pass hid hcur
    have hvisit : (if (neighboursOf o g.toInMemoryGraph pass id).isEmpty = true
        then some (ms, false) else
          (bestCommunity o g.toInMemoryGraph pass ms id cur).bind fun best =>
            if best ≠ cur then some (ms.insert id best, true)
            else some (ms, false))
        = if best ≠ cur then some (ms.insert id best, true)
          else some (ms, false) := by
      rw [if_neg hempty, hbest, Option.bind_some]
    rcases hcases with ⟨rfl, hle⟩ | hmost
    · refine .inl ⟨hvisit.trans (if_neg (not_not_intro rfl)), hle⟩
    · exact .inr ⟨best, hmost, hvisit.trans (if_pos hmost.2.1)⟩

-- =================================================================== log

/-- A visit: the membership before and after it, and whether the node has
moved. -/
structure Visit where
  before : Membership
  node : NodeId
  after : Membership
  moved : Bool

/-- The visits of a pass, one after the other. -/
def visitLog (o : HashOrders K) (g : InMemoryGraph K) (pass : Nat) :
    List NodeId → Membership → List Visit
  | [], _ => []
  | id :: ids, ms =>
      match visit o g pass ms id with
      | none => []
      | some t => ⟨ms, id, t.1, t.2⟩ :: visitLog o g pass ids t.1

/-- The visits of the passes. -/
def passLog (o : HashOrders K) (g : InMemoryGraph K) :
    Nat → Nat → Membership → List Visit
  | 0, _, _ => []
  | left + 1, pass, ms =>
      visitLog o g pass (sortedNodes o g) ms
        ++ match visits o g pass (sortedNodes o g) (ms, false) with
          | some (ms', true) => passLog o g left (pass + 1) ms'
          | _ => []

/-- The visits of a call of `detect_communities`: none where there is no
weight. -/
def runLog (o : HashOrders K) (g : InMemoryGraph K) : List Visit :=
  if totalWeight o g = 0 then []
  else passLog o g 8 1 (initialMembership o g)

/-- Each visit finds what the one before has left. -/
def Leads (ms : Membership) : List Visit → Membership → Prop
  | [], ms' => ms = ms'
  | v :: vs, ms' => v.before = ms ∧ Leads v.after vs ms'

theorem Leads.append {ms ms' ms'' : Membership} {vs vs' : List Visit}
    (h : Leads ms vs ms') (h' : Leads ms' vs' ms'') :
    Leads ms (vs ++ vs') ms'' := by
  induction vs generalizing ms with
  | nil =>
      obtain rfl : ms = ms' := h
      exact h'
  | cons v vs ih => exact ⟨h.1, ih h.2⟩

/-- What a visit of a node does. -/
def Visited (g : InMemoryGraph K) (v : Visit) : Prop :=
  v.node ∈ g.ids ∧ ∃ cur, v.before v.node = some cur
    ∧ ((v.moved = false ∧ v.after = v.before
        ∧ ∀ c, Near g v.before v.node c → c ≠ cur →
          pull g v.before v.node c ≤ 0)
      ∨ v.moved = true ∧ ∃ c, Best g v.before v.node cur c
        ∧ v.after = v.before.insert v.node c)

theorem visit_visited {g : JoinedGraph K} {ms : Membership}
    (h : Covers g.toInMemoryGraph ms) (pass : Nat) {id : NodeId}
    (hid : id ∈ g.ids) :
    ∃ t, visit o g.toInMemoryGraph pass ms id = some t
      ∧ Covers g.toInMemoryGraph t.1
      ∧ Visited g.toInMemoryGraph ⟨ms, id, t.1, t.2⟩ := by
  obtain ⟨cur, hcur⟩ := h id hid
  rcases visit_cases (o := o) h pass hid hcur with ⟨hvisit, hle⟩
    | ⟨c, hbest, hvisit⟩
  · exact ⟨_, hvisit, h, hid, cur, hcur, .inl ⟨rfl, rfl, hle⟩⟩
  · exact ⟨_, hvisit, h.insert id c, hid, cur, hcur, .inr ⟨rfl, c, hbest, rfl⟩⟩

theorem visits_log {g : JoinedGraph K} (pass : Nat) (ids : List NodeId)
    (hids : ∀ id ∈ ids, id ∈ g.ids) {ms : Membership}
    (h : Covers g.toInMemoryGraph ms) (moved : Bool) :
    ∃ s, visits o g.toInMemoryGraph pass ids (ms, moved) = some s
      ∧ Covers g.toInMemoryGraph s.1
      ∧ Leads ms (visitLog o g.toInMemoryGraph pass ids ms) s.1
      ∧ ∀ v ∈ visitLog o g.toInMemoryGraph pass ids ms,
        Visited g.toInMemoryGraph v := by
  induction ids generalizing ms moved with
  | nil => exact ⟨(ms, moved), rfl, h, rfl, fun v hv => nomatch hv⟩
  | cons id ids ih =>
      have hrest : ∀ id ∈ ids, id ∈ g.ids :=
        fun id hid => hids id (List.mem_cons_of_mem _ hid)
      obtain ⟨t, hvisit, hcovers, hfirst⟩ := visit_visited (o := o) h pass
        (hids id (List.mem_cons_self ..))
      obtain ⟨s, hs, hcovers', hleads, hvisited⟩ := ih hrest hcovers
        (moved || t.2)
      refine ⟨s, ?_, hcovers', ?_, ?_⟩
      · rw [visits, hvisit]
        exact hs
      · rw [visitLog, hvisit]
        exact ⟨rfl, hleads⟩
      · rw [visitLog, hvisit]
        intro v hv
        rcases List.mem_cons.mp hv with rfl | hv
        · exact hfirst
        · exact hvisited v hv

theorem passes_log {g : JoinedGraph K} (left pass : Nat) {ms : Membership}
    (h : Covers g.toInMemoryGraph ms) :
    ∃ ms', passes o g.toInMemoryGraph left pass ms = some ms'
      ∧ Covers g.toInMemoryGraph ms'
      ∧ Leads ms (passLog o g.toInMemoryGraph left pass ms) ms'
      ∧ ∀ v ∈ passLog o g.toInMemoryGraph left pass ms,
        Visited g.toInMemoryGraph v := by
  induction left generalizing pass ms with
  | zero => exact ⟨ms, rfl, h, rfl, fun v hv => nomatch hv⟩
  | succ left ih =>
      obtain ⟨⟨ms₁, moved⟩, hs, hcovers, hleads, hvisited⟩ := visits_log
        (o := o) pass (sortedNodes o g.toInMemoryGraph)
        (fun id hid => mem_ids.mpr hid) h false
      cases moved with
      | false =>
          refine ⟨ms₁, ?_, hcovers, ?_, ?_⟩
          · rw [passes, hs]
            rfl
          · rw [passLog, hs, List.append_nil]
            exact hleads
          · rw [passLog, hs, List.append_nil]
            exact hvisited
      | true =>
          obtain ⟨ms', hms', hcovers', hleads', hvisited'⟩ := ih (pass + 1)
            hcovers
          refine ⟨ms', ?_, hcovers', ?_, ?_⟩
          · rw [passes, hs]
            exact hms'
          · rw [passLog, hs]
            exact hleads.append hleads'
          · rw [passLog, hs]
            intro v hv
            rcases List.mem_append.mp hv with hv | hv
            · exact hvisited v hv
            · exact hvisited' v hv

-- ============================================================ modularity

/-- The modularity of a membership. -/
def modularityOf (g : InMemoryGraph K) (ms : Membership) : K :=
  modularity g.weightBetween g.ids ms

/-- The community that draws a node most draws it more than its own. -/
def StaysBehind (g : InMemoryGraph K) (ms : Membership) (id : NodeId) : Prop :=
  ∀ cur c, ms id = some cur → Best g ms id cur c →
    pull g ms id cur < pull g ms id c

/-- A move improves the partition just where staying is behind. -/
theorem move_improves_iff [IsStrictOrderedRing K] {g : JoinedGraph K}
    (hm : total g.weightBetween g.ids ≠ 0) {v : Visit}
    (h : Visited g.toInMemoryGraph v) (hmoved : v.moved = true) :
    modularityOf g.toInMemoryGraph v.before
        < modularityOf g.toInMemoryGraph v.after
      ↔ StaysBehind g.toInMemoryGraph v.before v.node := by
  obtain ⟨hid, cur, hcur, ⟨hstays, -, -⟩ | ⟨-, c, hbest, hafter⟩⟩ := h
  · rw [hmoved] at hstays
    cases hstays
  · have hgain := modularity_update g.weightBetween_comm hm two_ne_zero
      v.before hid (some c)
    rw [hcur] at hgain
    have hiff : modularityOf g.toInMemoryGraph v.before
          < modularityOf g.toInMemoryGraph v.after
        ↔ pull g.toInMemoryGraph v.before v.node cur
          < pull g.toInMemoryGraph v.before v.node c := by
      rw [hafter, ← sub_pos, ← sub_pos (b := pull _ _ _ cur)]
      exact iff_of_eq (congrArg (0 < ·) hgain)
    rw [hiff]
    constructor
    · intro hlt cur' c' hcur' hbest'
      obtain rfl : cur = cur' := Option.some.inj (hcur.symm.trans hcur')
      exact hlt.trans_le (hbest'.2.2.2 c hbest.1 hbest.2.1)
    · intro hbehind
      exact hbehind cur c hcur hbest

/-- A node that stays has nothing to go to. -/
theorem staysBehind_of_unmoved {g : InMemoryGraph K} {v : Visit}
    (h : Visited g v) (hmoved : v.moved = false) :
    StaysBehind g v.before v.node := by
  obtain ⟨-, cur, hcur, ⟨-, -, hle⟩ | ⟨hmoved', -⟩⟩ := h
  · intro cur' c hcur' hbest
    obtain rfl : cur = cur' := Option.some.inj (hcur.symm.trans hcur')
    exact absurd hbest.2.2.1 (not_lt.mpr (hle c hbest.1 hbest.2.1))
  · rw [hmoved] at hmoved'
    cases hmoved'

/-- The memberships a log goes through: the first one, and what each move
leaves. -/
def stations (ms : Membership) (vs : List Visit) : List Membership :=
  ms :: (vs.filter Visit.moved).map Visit.after

/-- A log whose moves all improve climbs from station to station. -/
theorem stations_climb {g : InMemoryGraph K} {vs : List Visit}
    {ms ms' : Membership} (hleads : Leads ms vs ms')
    (hvisited : ∀ v ∈ vs, Visited g v)
    (hmoves : ∀ v ∈ vs, v.moved = true →
      modularityOf g v.before < modularityOf g v.after) :
    ((stations ms vs).Pairwise fun m m' => modularityOf g m < modularityOf g m')
      ∧ modularityOf g ms ≤ modularityOf g ms' := by
  induction vs generalizing ms with
  | nil =>
      obtain rfl : ms = ms' := hleads
      exact ⟨List.pairwise_singleton _ _, le_refl _⟩
  | cons v vs ih =>
      obtain ⟨hbefore, hleads⟩ := hleads
      obtain ⟨hclimb, hle⟩ := ih hleads
        (fun w hw => hvisited w (List.mem_cons_of_mem _ hw))
        (fun w hw => hmoves w (List.mem_cons_of_mem _ hw))
      obtain ⟨-, cur, -, ⟨hmoved, hafter, -⟩ | ⟨hmoved, -⟩⟩ := hvisited v
        (List.mem_cons_self ..)
      · have hsame : stations ms (v :: vs) = stations v.after vs := by
          unfold stations
          rw [List.filter_cons_of_neg (by rw [hmoved]; exact Bool.false_ne_true),
            hafter, hbefore]
        rw [hsame, ← hbefore, ← hafter]
        exact ⟨hclimb, hle⟩
      · have hlt := hmoves v (List.mem_cons_self ..) hmoved
        rw [hbefore] at hlt
        have hnext : stations ms (v :: vs) = ms :: stations v.after vs := by
          unfold stations
          rw [List.filter_cons_of_pos hmoved, List.map_cons]
        rw [hnext, List.pairwise_cons]
        refine ⟨⟨fun m hm => ?_, hclimb⟩, (le_of_lt hlt).trans hle⟩
        rcases List.mem_cons.mp hm with rfl | hm
        · exact hlt
        · exact hlt.trans ((List.pairwise_cons.mp hclimb).1 m hm)

-- ================================================================= calls

/-- A call returns, and what it returns has the communities that the last
visit has left. -/
theorem detect_log (o : HashOrders K) (g : JoinedGraph K) :
    ∃ ms r, detectCommunities o g.toInMemoryGraph = some r
      ∧ Leads (initialMembership o g.toInMemoryGraph)
        (runLog o g.toInMemoryGraph) ms
      ∧ SamePartition g.toInMemoryGraph ms r.membership
      ∧ ∀ v ∈ runLog o g.toInMemoryGraph, Visited g.toInMemoryGraph v := by
  by_cases h : totalWeight o g.toInMemoryGraph = 0
  · refine ⟨_, _, by rw [detectCommunities, if_pos h], ?_,
      fun i _ j _ => Iff.rfl, ?_⟩
    · rw [runLog, if_pos h]
      rfl
    · rw [runLog, if_pos h]
      exact fun v hv => nomatch hv
  · obtain ⟨ms, hms, -, hleads, hvisited⟩ := passes_log (o := o) 8 1
      (initial_covers o g.toInMemoryGraph)
    obtain ⟨hnd, hall⟩ := build_ids o g.toInMemoryGraph ms
    refine ⟨ms, renumbered (bySize (buildCommunities o g.toInMemoryGraph ms)) ms,
      ?_, ?_, renumbered_same hnd hall, ?_⟩
    · rw [detectCommunities, if_neg h, settledMembership, hms]
      rfl
    · rw [runLog, if_neg h]
      exact hleads
    · rw [runLog, if_neg h]
      exact hvisited

/-- Every move improves the partition; the one returned is no worse than
the one at the start, and no partition comes twice. -/
structure Improves (o : HashOrders K) (g : JoinedGraph K) : Prop where
  moves : ∀ v ∈ runLog o g.toInMemoryGraph, v.moved = true →
    modularityOf g.toInMemoryGraph v.before
      < modularityOf g.toInMemoryGraph v.after
  returned : ∃ r, detectCommunities o g.toInMemoryGraph = some r
    ∧ modularityOf g.toInMemoryGraph (initialMembership o g.toInMemoryGraph)
      ≤ modularityOf g.toInMemoryGraph r.membership
  fresh : (stations (initialMembership o g.toInMemoryGraph)
      (runLog o g.toInMemoryGraph)).Pairwise
    fun ms ms' => ¬ SamePartition g.toInMemoryGraph ms ms'

/-- A call only improves the partition just where, at each visit, the
community that draws the node most draws it more than its own. -/
theorem improves_iff (o : HashOrders ℚ) (g : JoinedGraph ℚ) :
    Improves o g ↔ ∀ v ∈ runLog o g.toInMemoryGraph,
      StaysBehind g.toInMemoryGraph v.before v.node := by
  obtain ⟨ms, r, hr, hleads, hsame, hvisited⟩ := detect_log o g
  have hmove : ∀ v ∈ runLog o g.toInMemoryGraph, v.moved = true →
      (modularityOf g.toInMemoryGraph v.before
          < modularityOf g.toInMemoryGraph v.after
        ↔ StaysBehind g.toInMemoryGraph v.before v.node) := by
    intro v hv hmoved
    refine move_improves_iff (fun htotal => ?_) (hvisited v hv) hmoved
    rw [← totalWeight_total o g] at htotal
    rw [runLog, if_pos htotal] at hv
    cases hv
  constructor
  · intro h v hv
    cases hmoved : v.moved with
    | true => exact (hmove v hv hmoved).mp (h.moves v hv hmoved)
    | false => exact staysBehind_of_unmoved (hvisited v hv) hmoved
  · intro h
    have hmoves : ∀ v ∈ runLog o g.toInMemoryGraph, v.moved = true →
        modularityOf g.toInMemoryGraph v.before
          < modularityOf g.toInMemoryGraph v.after :=
      fun v hv hmoved => (hmove v hv hmoved).mpr (h v hv)
    obtain ⟨hclimb, hle⟩ := stations_climb hleads hvisited hmoves
    refine ⟨hmoves, ⟨r, hr, ?_⟩, hclimb.imp fun hlt hpart => ?_⟩
    · exact hle.trans (le_of_eq (modularity_congr hsame))
    · exact absurd (modularity_congr hpart) (ne_of_lt hlt)

/-- Two edges at one node, the first twice as heavy as the second. -/
def pathOfThree : JoinedGraph ℚ where
  nodes := [{ id := "a", label := "A" }, { id := "b", label := "B" },
    { id := "c", label := "C" }]
  edges := [⟨"a", "b", 2⟩, ⟨"b", "c", 1⟩]
  nodup := by decide
  joined := by decide

/-- Of its moves, the second one is for the worse. -/
theorem second_move_loses : ¬ ∀ (o : HashOrders ℚ) (g : JoinedGraph ℚ),
    (∀ e ∈ g.edges, 0 ≤ e.weight) → 0 < totalWeight o g.toInMemoryGraph →
    Improves o g := by
  intro h
  have himproves := h .listed pathOfThree (by decide +kernel)
    (by decide +kernel)
  have hlosing : ((runLog .listed pathOfThree.toInMemoryGraph)[1]?.map fun v =>
      (v.moved, decide (modularityOf pathOfThree.toInMemoryGraph v.before
        < modularityOf pathOfThree.toInMemoryGraph v.after)))
      = some (true, false) := by
    decide +kernel
  obtain ⟨v, hv, hpair⟩ := Option.map_eq_some_iff.mp hlosing
  obtain ⟨hmoved, hworse⟩ := Prod.mk.inj hpair
  exact of_decide_eq_false hworse
    (himproves.moves v (List.mem_of_getElem? hv) hmoved)

end SapAutomate.Graph
