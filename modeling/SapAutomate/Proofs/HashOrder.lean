/-
What the orders of the hash maps do to the communities.

Wherever the passes go through a map, what comes of it is sorted by its
keys or summed up, so they end with one membership (`settled_eq`). The
list of the communities is sorted by size alone, and before that it has
the order of a map: it is determined just where no two communities are of
one size (`Determined`).
-/
import SapAutomate.Graph.Community
import Mathlib.Algebra.Field.Rat
import Mathlib.Algebra.Order.Ring.Rat

namespace SapAutomate.Graph

open Iteration

variable {K : Type}

-- ================================================================== nodes

theorem sortedNodes_eq (o o' : HashOrders K) (g : InMemoryGraph K) :
    sortedNodes o g = sortedNodes o' g := by
  unfold sortedNodes
  refine congrArg _ (sortBy_keys_eq (o.nodes.apply_perm o'.nodes g.nodes) ?_)
  exact ((o.nodes.perm g.nodes).map Entity.id).nodup_iff.mpr g.nodup

theorem sortedNodes_perm (o : HashOrders K) (g : InMemoryGraph K) :
    (sortedNodes o g).Perm (g.nodes.map Entity.id) :=
  ((sortBy_perm _ _).trans (o.nodes.perm _)).map Entity.id

theorem sortedNodes_nodup (o : HashOrders K) (g : InMemoryGraph K) :
    (sortedNodes o g).Nodup :=
  (sortedNodes_perm o g).nodup_iff.mpr g.nodup

theorem mem_sortedNodes {o : HashOrders K} {g : InMemoryGraph K} {n : NodeId} :
    n ∈ sortedNodes o g ↔ ∃ e ∈ g.nodes, e.id = n := by
  rw [(sortedNodes_perm o g).mem_iff, List.mem_map]

theorem initialMembership_eq (o o' : HashOrders K) (g : InMemoryGraph K) :
    initialMembership o g = initialMembership o' g := by
  unfold initialMembership
  rw [sortedNodes_eq o o']

theorem neighboursOf_eq [Field K] (o o' : HashOrders K) (g : InMemoryGraph K)
    (pass pass' : Nat) (id : NodeId) :
    neighboursOf o g pass id = neighboursOf o' g pass' id := by
  unfold neighboursOf
  refine sortBy_keys_eq (IterOrder.apply_perm _ _ _) ?_
  have hkeys := (((o.neighbours pass id).perm
    (g.undirectedNeighbours id)).map Prod.fst).nodup_iff
  rw [hkeys, InMemoryGraph.undirectedNeighbours, tally_keys]
  exact List.nodup_dedup _

-- ================================================================= groups

/-- The community of the entries with this id. -/
def groupIn (g : InMemoryGraph K) (es : List (NodeId × UInt32)) (c : UInt32) :
    Community :=
  communityOf g (c, (es.filter fun x => x.2 = c).map Prod.fst)

/-- The communities, as the entries are listed. -/
def groupsIn (g : InMemoryGraph K) (es : List (NodeId × UInt32)) :
    List Community :=
  ((es.map Prod.snd).dedup).map (groupIn g es)

theorem groupIn_perm (g : InMemoryGraph K) {es es' : List (NodeId × UInt32)}
    (h : es.Perm es') (c : UInt32) : groupIn g es c = groupIn g es' c := by
  have hmembers : sortBy id ((es.filter fun x => x.2 = c).map Prod.fst)
      = sortBy id ((es'.filter fun x => x.2 = c).map Prod.fst) :=
    sortBy_eq ((h.filter _).map Prod.fst) fun _ _ _ _ hab => hab
  unfold groupIn communityOf
  simp only [hmembers]

theorem groupsIn_perm (g : InMemoryGraph K) {es es' : List (NodeId × UInt32)}
    (h : es.Perm es') : (groupsIn g es).Perm (groupsIn g es') := by
  unfold groupsIn
  rw [List.map_congr_left fun c _ => groupIn_perm g h c]
  exact ((h.map Prod.snd).dedup).map _

theorem map_collect (g : InMemoryGraph K) (es : List (NodeId × UInt32)) :
    (collect es).map (communityOf g) = groupsIn g es := by
  unfold collect groupsIn
  rw [List.map_map]
  rfl

/-- What is built is the groups, in some order. -/
theorem build_perm (o : HashOrders K) (g : InMemoryGraph K) (ms : Membership) :
    (buildCommunities o g ms).Perm (groupsIn g (entriesOf o g ms)) := by
  unfold buildCommunities
  refine ((o.groups.perm _).map (communityOf g)).trans ?_
  rw [map_collect]
  exact groupsIn_perm g (o.membership.perm _)

theorem entriesOf_eq (o o' : HashOrders K) (g : InMemoryGraph K)
    (ms : Membership) : entriesOf o g ms = entriesOf o' g ms := by
  unfold entriesOf
  rw [sortedNodes_eq o o']

theorem mem_members {g : InMemoryGraph K} {es : List (NodeId × UInt32)}
    {c : UInt32} {n : NodeId} :
    n ∈ (groupIn g es c).members ↔ (n, c) ∈ es := by
  show n ∈ sortBy _ _ ↔ _
  rw [mem_sortBy, List.mem_map]
  constructor
  · rintro ⟨x, hx, rfl⟩
    obtain ⟨hmem, hc⟩ := List.mem_filter.mp hx
    have hc : x.2 = c := by simpa using hc
    rw [← hc]
    exact hmem
  · intro h
    exact ⟨(n, c), List.mem_filter.mpr ⟨h, by simp⟩, rfl⟩

theorem mem_entriesOf {o : HashOrders K} {g : InMemoryGraph K}
    {ms : Membership} {n : NodeId} {c : UInt32} :
    (n, c) ∈ entriesOf o g ms ↔ n ∈ sortedNodes o g ∧ ms n = some c := by
  unfold entriesOf
  rw [List.mem_filterMap]
  constructor
  · rintro ⟨m, hm, hmc⟩
    obtain ⟨c', hc', hpair⟩ := Option.map_eq_some_iff.mp hmc
    obtain ⟨rfl, rfl⟩ := Prod.mk.inj hpair
    exact ⟨hm, hc'⟩
  · rintro ⟨hn, hc⟩
    exact ⟨n, hn, by rw [hc]; rfl⟩

/-- A group stands for each community that has a node. -/
theorem mem_groupsIn {o : HashOrders K} {g : InMemoryGraph K}
    {ms : Membership} {x : Community} :
    x ∈ groupsIn g (entriesOf o g ms) ↔
      ∃ n ∈ sortedNodes o g, ∃ c, ms n = some c
        ∧ groupIn g (entriesOf o g ms) c = x := by
  unfold groupsIn
  rw [List.mem_map]
  constructor
  · rintro ⟨c, hc, rfl⟩
    obtain ⟨⟨n, c'⟩, hmem, rfl⟩ := List.mem_map.mp (List.mem_dedup.mp hc)
    obtain ⟨hn, hms⟩ := mem_entriesOf.mp hmem
    exact ⟨n, hn, c', hms, rfl⟩
  · rintro ⟨n, hn, c, hc, rfl⟩
    have hmem : (n, c) ∈ entriesOf o g ms := mem_entriesOf.mpr ⟨hn, hc⟩
    exact ⟨c, List.mem_dedup.mpr (List.mem_map.mpr ⟨_, hmem, rfl⟩), rfl⟩

/-- No two groups have one id. -/
theorem groupsIn_ids (o : HashOrders K) (g : InMemoryGraph K)
    (ms : Membership) :
    ((groupsIn g (entriesOf o g ms)).map Community.id).Nodup := by
  unfold groupsIn
  rw [List.map_map]
  exact (List.map_id _).symm ▸ List.nodup_dedup _

/-- No two groups have the same members. -/
theorem groupsIn_nodup (o : HashOrders K) (g : InMemoryGraph K)
    (ms : Membership) :
    ((groupsIn g (entriesOf o g ms)).map Community.members).Nodup := by
  refine List.Nodup.map_on ?_ (groupsIn_ids o g ms).of_map
  intro x hx y hy hmembers
  obtain ⟨n, hn, c, hc, rfl⟩ := mem_groupsIn.mp hx
  obtain ⟨-, -, c', -, rfl⟩ := mem_groupsIn.mp hy
  have hmem : n ∈ (groupIn g (entriesOf o g ms) c).members :=
    mem_members.mpr (mem_entriesOf.mpr ⟨hn, hc⟩)
  rw [hmembers] at hmem
  have hc' := (mem_entriesOf.mp (mem_members.mp hmem)).2
  rw [Option.some.inj (hc.symm.trans hc')]

/-- How many nodes there are in a community. -/
def communitySize (g : InMemoryGraph K) (ms : Membership) (c : UInt32) : Nat :=
  (g.nodes.filter fun e => ms e.id = some c).length

theorem members_length (o : HashOrders K) (g : InMemoryGraph K)
    (ms : Membership) (c : UInt32) :
    (groupIn g (entriesOf o g ms) c).members.length = communitySize g ms c := by
  have hfilter : ∀ ids : List NodeId,
      ((ids.filterMap fun n => (ms n).map fun c => (n, c)).filter
          fun x => x.2 = c).length
        = (ids.filter fun n => ms n = some c).length := by
    intro ids
    induction ids with
    | nil => rfl
    | cons n ids ih =>
        cases hn : ms n with
        | none => simp [hn, ih]
        | some c' =>
            by_cases hc : c' = c
            · simp [hn, hc, ih]
            · simp [hn, hc, ih]
  have hsort : (groupIn g (entriesOf o g ms) c).members.length
      = ((entriesOf o g ms).filter fun x => x.2 = c).length :=
    (sortBy_perm _ _).length_eq.trans (List.length_map _)
  rw [hsort, entriesOf, hfilter]
  rw [((sortedNodes_perm o g).filter _).length_eq, List.filter_map, List.length_map]
  rfl

/-- There are not more communities than nodes. -/
theorem built_length (o : HashOrders K) (g : InMemoryGraph K)
    (ms : Membership) : (buildCommunities o g ms).length ≤ g.nodes.length := by
  have hgroups : (groupsIn g (entriesOf o g ms)).length
      ≤ (entriesOf o g ms).length := by
    unfold groupsIn
    rw [List.length_map]
    exact (List.dedup_sublist _).length_le.trans
      (le_of_eq (List.length_map _))
  have hentries : (entriesOf o g ms).length ≤ (sortedNodes o g).length :=
    List.length_filterMap_le _ _
  have hnodes : (sortedNodes o g).length = g.nodes.length :=
    (sortedNodes_perm o g).length_eq.trans (List.length_map _)
  rw [(build_perm o g ms).length_eq, ← hnodes]
  exact hgroups.trans hentries

/-- Every map as it is listed. -/
def HashOrders.listed : HashOrders K where
  nodes := .listed
  neighbours := fun _ _ => .listed
  degrees := .listed
  candidates := fun _ _ => .listed
  membership := .listed
  groups := .listed

/-- The groups the other way round. -/
def HashOrders.flipped : HashOrders K :=
  { HashOrders.listed with groups := .reversed }

theorem build_listed (g : InMemoryGraph K) (ms : Membership) :
    buildCommunities HashOrders.listed g ms
      = groupsIn g (entriesOf HashOrders.listed g ms) :=
  map_collect g _

theorem build_flipped (g : InMemoryGraph K) (ms : Membership) :
    buildCommunities HashOrders.flipped g ms
      = (groupsIn g (entriesOf HashOrders.listed g ms)).reverse := by
  rw [← map_collect, ← List.map_reverse]
  rfl

/-- Two communities of one size come out as they went in. -/
theorem flip_shows {cs : List Community}
    (hnd : (cs.map Community.members).Nodup) {a b : Community}
    (hsize : a.members.length = b.members.length) (hsub : [a, b].Sublist cs) :
    (bySize cs).map Community.members
      ≠ (bySize cs.reverse).map Community.members := by
  intro heq
  have hab : [a, b].Sublist (bySize cs) :=
    pair_sortBy (congrArg OrderDual.toDual hsize) hsub
  have hba : [b, a].Sublist (bySize cs.reverse) :=
    pair_sortBy (congrArg OrderDual.toDual hsize.symm) (by
      simpa using hsub.reverse)
  have hnd' : ((bySize cs).map Community.members).Nodup :=
    ((sortBy_perm _ cs).map _).nodup_iff.mpr hnd
  have hswap := not_pair_swap hnd' (hab.map Community.members)
  rw [heq] at hswap
  exact hswap (hba.map Community.members)

theorem renumbered_members (cs : List Community) (ms : Membership) :
    (renumbered cs ms).communities.map Community.members
      = cs.map Community.members := by
  unfold renumbered
  rw [List.map_map]
  show cs.zipIdx.map (Community.members ∘ Prod.fst) = _
  rw [← List.map_map, List.zipIdx_map_fst]

variable [Field K]

-- ================================================================= passes

theorem degrees_eq (o o' : HashOrders K) (g : InMemoryGraph K) :
    degrees o g = degrees o' g := by
  unfold degrees
  rw [sortedNodes_eq o o']
  refine List.map_congr_left fun id _ => ?_
  rw [neighboursOf_eq o o' g 0 0 id]

theorem degreeOf_eq (o o' : HashOrders K) (g : InMemoryGraph K) :
    degreeOf o g = degreeOf o' g := by
  funext id
  unfold degreeOf
  rw [degrees_eq o o']

theorem totalWeight_eq (o o' : HashOrders K) (g : InMemoryGraph K) :
    totalWeight o g = totalWeight o' g := by
  unfold totalWeight
  rw [degrees_eq o o', ((o.degrees.apply_perm o'.degrees
    (degrees o' g)).map Prod.snd).sum_eq]

theorem sigmaTot_eq (o o' : HashOrders K) (g : InMemoryGraph K)
    (ms : Membership) (id : NodeId) :
    sigmaTot o g ms id = sigmaTot o' g ms id := by
  unfold sigmaTot
  rw [sortedNodes_eq o o', degreeOf_eq o o']

variable [LinearOrder K]

theorem bestCommunity_eq (o o' : HashOrders K) (g : InMemoryGraph K)
    (pass pass' : Nat) (ms : Membership) (id : NodeId) (cur : UInt32) :
    bestCommunity o g pass ms id cur = bestCommunity o' g pass' ms id cur := by
  unfold bestCommunity
  rw [neighboursOf_eq o o' g pass pass', sigmaTot_eq o o', totalWeight_eq o o',
    degreeOf_eq o o']
  have hcands : ∀ xs : List (UInt32 × K),
      sortBy (fun cand => cand.1.toNat)
          ((o.candidates pass id).apply (tally xs))
        = sortBy (fun cand => cand.1.toNat)
          ((o'.candidates pass' id).apply (tally xs)) := by
    intro xs
    refine sortBy_eq (IterOrder.apply_perm _ _ _) fun a ha b hb hab => ?_
    have hnd : ((tally xs).map Prod.fst).Nodup := by
      rw [tally_keys]
      exact List.nodup_dedup _
    exact List.inj_on_of_nodup_map hnd
      ((IterOrder.mem_apply _).mp ha) ((IterOrder.mem_apply _).mp hb)
      (UInt32.toNat_inj.mp hab)
  simp only [hcands]

theorem visit_eq (o o' : HashOrders K) (g : InMemoryGraph K)
    (pass pass' : Nat) (ms : Membership) (id : NodeId) :
    visit o g pass ms id = visit o' g pass' ms id := by
  unfold visit
  simp only [neighboursOf_eq o o' g pass pass' id,
    bestCommunity_eq o o' g pass pass' ms id]

theorem visits_eq (o o' : HashOrders K) (g : InMemoryGraph K)
    (pass pass' : Nat) (ids : List NodeId) (s : Membership × Bool) :
    visits o g pass ids s = visits o' g pass' ids s := by
  induction ids generalizing s with
  | nil => rfl
  | cons id ids ih =>
      unfold visits
      simp only [visit_eq o o' g pass pass', ih]

theorem passes_eq (o o' : HashOrders K) (g : InMemoryGraph K)
    (left pass pass' : Nat) (ms : Membership) :
    passes o g left pass ms = passes o' g left pass' ms := by
  induction left generalizing pass pass' ms with
  | zero => rfl
  | succ left ih =>
      unfold passes
      simp only [visits_eq o o' g pass pass', sortedNodes_eq o o',
        ih (pass + 1) (pass' + 1)]

/-- The passes end with one membership. -/
theorem settled_eq (o o' : HashOrders K) (g : InMemoryGraph K) :
    settledMembership o g = settledMembership o' g := by
  unfold settledMembership
  rw [initialMembership_eq o o']
  exact passes_eq o o' g 8 1 1 _

-- ================================================================= orders

/-- What is returned is the same in any two orders. -/
def HashIndependent (g : InMemoryGraph K) : Prop :=
  ∀ o o' : HashOrders K, detectCommunities o g = detectCommunities o' g

/-- No two communities have as many nodes. -/
def SizesDiffer (g : InMemoryGraph K) (ms : Membership) : Prop :=
  ∀ e ∈ g.nodes, ∀ e' ∈ g.nodes, ∀ c c', ms e.id = some c →
    ms e'.id = some c' → communitySize g ms c = communitySize g ms c' → c = c'

/-- A graph without weight has one node at most, and the passes over any
other end with communities that differ in size. -/
def Determined (g : InMemoryGraph K) : Prop :=
  (totalWeight HashOrders.listed g = 0 → g.nodes.length ≤ 1)
  ∧ (totalWeight HashOrders.listed g ≠ 0 →
    ∀ ms, settledMembership HashOrders.listed g = some ms → SizesDiffer g ms)

theorem detect_unweighted {o : HashOrders K} {g : InMemoryGraph K}
    (h : totalWeight HashOrders.listed g = 0) :
    detectCommunities o g = some
      ⟨buildCommunities o g (initialMembership HashOrders.listed g),
        initialMembership HashOrders.listed g⟩ := by
  unfold detectCommunities
  rw [totalWeight_eq o HashOrders.listed, if_pos h,
    initialMembership_eq o HashOrders.listed]

theorem detect_weighted {o : HashOrders K} {g : InMemoryGraph K}
    (h : totalWeight HashOrders.listed g ≠ 0) :
    detectCommunities o g = (settledMembership HashOrders.listed g).map
      fun ms => renumbered (bySize (buildCommunities o g ms)) ms := by
  unfold detectCommunities
  rw [totalWeight_eq o HashOrders.listed, if_neg h,
    settled_eq o HashOrders.listed]
  cases settledMembership HashOrders.listed g <;> rfl

/-- Nodes in communities of their own show the order of the groups. -/
theorem unweighted_shows {g : InMemoryGraph K}
    (h : totalWeight HashOrders.listed g = 0) (hind : HashIndependent g) :
    g.nodes.length ≤ 1 := by
  by_contra hmany
  have hlen : (sortedNodes HashOrders.listed g).length = g.nodes.length :=
    (sortedNodes_perm _ g).length_eq.trans (List.length_map _)
  have hnd := sortedNodes_nodup HashOrders.listed g
  obtain ⟨x, y, rest, hids⟩ : ∃ x y rest,
      sortedNodes HashOrders.listed g = x :: y :: rest := by
    cases hcases : sortedNodes HashOrders.listed g with
    | nil =>
        rw [hcases, List.length_nil] at hlen
        omega
    | cons x rest =>
        cases rest with
        | nil =>
            rw [hcases, List.length_singleton] at hlen
            omega
        | cons y rest => exact ⟨x, y, rest, rfl⟩
  have hxy : x ≠ y := by
    rw [hids, List.nodup_cons] at hnd
    exact fun heq => hnd.1 (heq ▸ List.mem_cons_self ..)
  have hx : initialMembership HashOrders.listed g x = some 0 := by
    unfold initialMembership
    rw [hids]
    simp [List.idxOf?_cons]
  have hy : initialMembership HashOrders.listed g y = some 1 := by
    unfold initialMembership
    rw [hids]
    simp [List.idxOf?_cons, hxy]
  have hmem : ∀ n c, n ∈ sortedNodes HashOrders.listed g →
      initialMembership HashOrders.listed g n = some c →
      groupIn g (entriesOf HashOrders.listed g
        (initialMembership HashOrders.listed g)) c
        ∈ groupsIn g (entriesOf HashOrders.listed g
          (initialMembership HashOrders.listed g)) :=
    fun n c hn hc => mem_groupsIn.mpr ⟨n, hn, c, hc, rfl⟩
  have hx' := hmem x 0 (by simp [hids]) hx
  have hy' := hmem y 1 (by simp [hids]) hy
  have hsame := hind HashOrders.listed HashOrders.flipped
  rw [detect_unweighted h, detect_unweighted h, build_listed,
    build_flipped] at hsame
  have hreverse := congrArg Communities.communities (Option.some.inj hsame)
  have hne : groupIn g (entriesOf HashOrders.listed g
        (initialMembership HashOrders.listed g)) 0
      ≠ groupIn g (entriesOf HashOrders.listed g
        (initialMembership HashOrders.listed g)) 1 := by
    intro heq
    have hid : (0 : UInt32) = 1 := congrArg Community.id heq
    exact absurd hid (by decide)
  have hgroups := (groupsIn_nodup HashOrders.listed g
    (initialMembership HashOrders.listed g)).of_map
  generalize groupsIn g (entriesOf HashOrders.listed g
    (initialMembership HashOrders.listed g)) = cs at *
  have hreverse : cs = cs.reverse := hreverse
  rcases pair_sublist_or hne hx' hy' with hsub | hsub
  · have hswap := not_pair_swap hgroups hsub
    rw [hreverse] at hswap
    exact hswap (by simpa using hsub.reverse)
  · have hswap := not_pair_swap hgroups hsub
    rw [hreverse] at hswap
    exact hswap (by simpa using hsub.reverse)

/-- Communities of one size show it too. -/
theorem weighted_shows {g : InMemoryGraph K}
    (h : totalWeight HashOrders.listed g ≠ 0) (hind : HashIndependent g)
    {ms : Membership} (hms : settledMembership HashOrders.listed g = some ms) :
    SizesDiffer g ms := by
  intro e he e' he' c c' hc hc' hsize
  by_contra hne
  have hmem : ∀ e ∈ g.nodes, ∀ c, ms e.id = some c →
      groupIn g (entriesOf HashOrders.listed g ms) c
        ∈ groupsIn g (entriesOf HashOrders.listed g ms) := by
    intro e he c hc
    exact mem_groupsIn.mpr ⟨e.id, mem_sortedNodes.mpr ⟨e, he, rfl⟩, c, hc, rfl⟩
  have hgroups := groupsIn_nodup HashOrders.listed g ms
  have hsame := hind HashOrders.listed HashOrders.flipped
  rw [detect_weighted h, detect_weighted h, hms, Option.map_some,
    Option.map_some, build_listed, build_flipped] at hsame
  have hmembers := congrArg (fun r => r.communities.map Community.members)
    (Option.some.inj hsame)
  simp only [renumbered_members] at hmembers
  rw [← members_length HashOrders.listed g ms c,
    ← members_length HashOrders.listed g ms c'] at hsize
  have hne' : groupIn g (entriesOf HashOrders.listed g ms) c
      ≠ groupIn g (entriesOf HashOrders.listed g ms) c' :=
    fun heq => hne (congrArg Community.id heq)
  rcases pair_sublist_or hne' (hmem e he c hc) (hmem e' he' c' hc') with
    hsub | hsub
  · exact flip_shows hgroups hsize hsub hmembers
  · exact flip_shows hgroups hsize.symm hsub hmembers

/-- What is returned does not depend on the order of any map just where
the sizes of the communities determine theirs. -/
theorem hashIndependent_iff_determined (g : InMemoryGraph K) :
    HashIndependent g ↔ Determined g := by
  constructor
  · intro hind
    exact ⟨fun h => unweighted_shows h hind,
      fun h ms hms => weighted_shows h hind hms⟩
  · intro hdet o o'
    have hbuilt : ∀ ms, (buildCommunities o g ms).Perm
        (buildCommunities o' g ms) := by
      intro ms
      have hperm := build_perm o g ms
      rw [entriesOf_eq o o'] at hperm
      exact hperm.trans (build_perm o' g ms).symm
    by_cases h : totalWeight HashOrders.listed g = 0
    · rw [detect_unweighted h, detect_unweighted h]
      have hlen := built_length o g (initialMembership HashOrders.listed g)
      rw [eq_of_perm_of_length (hbuilt _) (hlen.trans (hdet.1 h))]
    · rw [detect_weighted h, detect_weighted h]
      cases hms : settledMembership HashOrders.listed g with
      | none => rfl
      | some ms =>
          have hsizes := hdet.2 h ms hms
          have hsorted : bySize (buildCommunities o g ms)
              = bySize (buildCommunities o' g ms) := by
            refine sortBy_eq (hbuilt ms) fun x hx y hy hxy => ?_
            obtain ⟨n, hn, c, hc, rfl⟩ := mem_groupsIn.mp
              ((build_perm o g ms).mem_iff.mp hx)
            obtain ⟨n', hn', c', hc', rfl⟩ := mem_groupsIn.mp
              ((build_perm o g ms).mem_iff.mp hy)
            obtain ⟨e, he, rfl⟩ := mem_sortedNodes.mp hn
            obtain ⟨e', he', rfl⟩ := mem_sortedNodes.mp hn'
            have hlen : (groupIn g (entriesOf o g ms) c).members.length
                = (groupIn g (entriesOf o g ms) c').members.length :=
              OrderDual.toDual_inj.mp hxy
            rw [members_length, members_length] at hlen
            rw [hsizes e he e' he' c c' hc hc' hlen]
          rw [Option.map_some, Option.map_some, hsorted]

/-- Two nodes without an edge. -/
def twoNodes : InMemoryGraph ℚ where
  nodes := [{ id := "a", label := "A" }, { id := "b", label := "B" }]
  edges := []
  nodup := by decide

/-- Their communities come in the order of the groups. -/
theorem two_nodes_unordered : ¬ ∀ g : InMemoryGraph ℚ, HashIndependent g := by
  intro h
  have htotal : totalWeight HashOrders.listed twoNodes = 0 := by
    decide +kernel
  have hone := unweighted_shows htotal (h twoNodes)
  exact absurd hone (by decide)

end SapAutomate.Graph
