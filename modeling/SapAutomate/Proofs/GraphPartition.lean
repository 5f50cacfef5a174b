/-
Communities and the levels of the RAPTOR tree partition the nodes
(`sap-automate-graph/src/community.rs`, `raptor.rs`).

The visits of the passes keep a membership defined on just the nodes
(`settled_defined`), the communities built from one are its classes
(`built_partition`, `built_agrees`), and renumbering keeps them
(`renumbered_numbered`). Where there is no weight the numbers are those of
the nodes, and there is no renumbering (`initial_numbered`).
-/
import SapAutomate.Graph.Raptor
import SapAutomate.Lib.Partition
import SapAutomate.Lib.Text
import SapAutomate.Proofs.MoveGain

namespace SapAutomate.Graph

open Iteration

variable {K : Type}

/-- A membership of the nodes, and of nothing else. -/
def Defined (g : InMemoryGraph K) (ms : Membership) : Prop :=
  ∀ n, (ms n).isSome ↔ n ∈ g.nodes.map Entity.id

theorem mem_ids_map {g : InMemoryGraph K} {n : NodeId} :
    n ∈ g.ids ↔ n ∈ g.nodes.map Entity.id := List.mem_toFinset

-- =============================================================== passes

theorem initial_defined (o : HashOrders K) (g : InMemoryGraph K) :
    Defined g (initialMembership o g) := by
  intro n
  rw [initialMembership, Option.isSome_map, List.isSome_idxOf?,
    (sortedNodes_perm o g).mem_iff]

theorem Defined.insert {g : InMemoryGraph K} {ms : Membership}
    (h : Defined g ms) {id : NodeId} (hid : id ∈ g.ids) (c : UInt32) :
    Defined g (ms.insert id c) := by
  intro n
  by_cases hn : n = id
  · rw [hn, Table.insert_self]
    exact iff_of_true rfl (mem_ids_map.mp hid)
  · rw [Table.insert_ne hn]
    exact h n

/-- Visits of nodes leave a membership of the nodes. -/
theorem Leads.defined [Field K] [LinearOrder K] {g : InMemoryGraph K}
    {vs : List Visit} {ms ms' : Membership} (h : Leads ms vs ms')
    (hvs : ∀ v ∈ vs, Visited g v) (hms : Defined g ms) : Defined g ms' := by
  induction vs generalizing ms with
  | nil =>
      obtain rfl : ms = ms' := h
      exact hms
  | cons v vs ih =>
      obtain ⟨rfl, hrest⟩ := h
      refine ih hrest (fun w hw => hvs w (List.mem_cons_of_mem v hw)) ?_
      obtain ⟨hnode, -, -, ⟨-, hafter, -⟩ | ⟨-, c, -, hafter⟩⟩ :=
        hvs v List.mem_cons_self
      · rw [hafter]
        exact hms
      · rw [hafter]
        exact hms.insert hnode c

theorem settled_defined [Field K] [LinearOrder K] (o : HashOrders K)
    (g : JoinedGraph K) :
    ∃ ms, settledMembership o g.toInMemoryGraph = some ms
      ∧ Defined g.toInMemoryGraph ms := by
  obtain ⟨ms, hms, -, hleads, hvisited⟩ := passes_log (o := o) 8 1
    (initial_covers o g.toInMemoryGraph)
  exact ⟨ms, hms, hleads.defined hvisited (initial_defined o _)⟩

-- =============================================================== groups

variable {o : HashOrders K} {g : InMemoryGraph K} {ms : Membership}

theorem entriesOf_fst (h : Defined g ms) :
    (entriesOf o g ms).map Prod.fst = sortedNodes o g := by
  unfold entriesOf
  rw [List.map_filterMap]
  have hkeep : ∀ n ∈ sortedNodes o g,
      ((ms n).map fun c => (n, c)).map Prod.fst = some n := by
    intro n hn
    obtain ⟨c, hc⟩ := Option.isSome_iff_exists.mp
      ((h n).mpr ((sortedNodes_perm o g).mem_iff.mp hn))
    rw [hc]
    rfl
  rw [List.filterMap_congr hkeep, List.filterMap_some]

theorem built_members :
    (buildCommunities o g ms).map Community.members
      = ((o.groups.apply (collect (o.membership.apply
        (entriesOf o g ms)))).map Prod.snd).map (sortBy id) := by
  unfold buildCommunities
  rw [List.map_map, List.map_map]
  rfl

theorem built_partition (h : Defined g ms) :
    Partitions ((buildCommunities o g ms).map Community.members)
      (g.nodes.map Entity.id) := by
  have hperm : ((o.membership.apply (entriesOf o g ms)).map Prod.fst).Perm
      (g.nodes.map Entity.id) := by
    refine ((o.membership.perm _).map Prod.fst).trans ?_
    rw [entriesOf_fst h]
    exact sortedNodes_perm o g
  have hgroups := Partitions.collect (hperm.nodup_iff.mpr g.nodup)
  rw [built_members]
  exact ((hgroups.perm ((o.groups.perm _).map Prod.snd).symm).of_perm
    hperm).map_perm fun m => sortBy_perm id m

theorem built_ids :
    ((buildCommunities o g ms).map Community.id).Nodup :=
  ((build_perm o g ms).map Community.id).nodup_iff.mpr (groupsIn_ids o g ms)

/-- What is built has a community of each that a node is in, and a node in
it. -/
theorem built_agrees (h : Defined g ms) (n : NodeId) (c : UInt32) :
    ms n = some c ↔
      ∃ x ∈ buildCommunities o g ms, x.id = c ∧ n ∈ x.members := by
  constructor
  · intro hc
    have hn : n ∈ sortedNodes o g := (sortedNodes_perm o g).mem_iff.mpr
      ((h n).mp (by rw [hc]; rfl))
    refine ⟨groupIn g (entriesOf o g ms) c, ?_, rfl,
      mem_members.mpr (mem_entriesOf.mpr ⟨hn, hc⟩)⟩
    exact (build_perm o g ms).mem_iff.mpr
      (mem_groupsIn.mpr ⟨n, hn, c, hc, rfl⟩)
  · rintro ⟨x, hx, rfl, hn⟩
    obtain ⟨-, -, c, -, rfl⟩ :=
      mem_groupsIn.mp ((build_perm o g ms).mem_iff.mp hx)
    exact (mem_entriesOf.mp (mem_members.mp hn)).2

-- ============================================================== numbers

/-- What a result has to be. -/
structure Numbered (g : InMemoryGraph K) (cs : Communities) : Prop where
  defined : ∀ n, (cs.membership n).isSome ↔ n ∈ g.nodes.map Entity.id
  partition : Partitions (cs.communities.map Community.members)
    (g.nodes.map Entity.id)
  numbers : (cs.communities.map fun c => c.id.toNat).Perm
    (List.range cs.communities.length)
  agrees : ∀ n c, cs.membership n = some c ↔
    ∃ x ∈ cs.communities, x.id = c ∧ n ∈ x.members
  found : ∀ n x, cs.forNode n = some x ↔ x ∈ cs.communities ∧ n ∈ x.members

/-- A lookup finds the community of a node where ids tell communities
apart. -/
theorem forNode_iff {cs : Communities}
    (hnd : (cs.communities.map Community.id).Nodup)
    (hagrees : ∀ n c, cs.membership n = some c ↔
      ∃ x ∈ cs.communities, x.id = c ∧ n ∈ x.members)
    (n : NodeId) (x : Community) :
    cs.forNode n = some x ↔ x ∈ cs.communities ∧ n ∈ x.members := by
  have hsame : ∀ y ∈ cs.communities, ∀ z ∈ cs.communities, y.id = z.id →
      y = z := fun y hy z hz => List.inj_on_of_nodup_map hnd hy hz
  unfold Communities.forNode
  rw [Option.bind_eq_some_iff]
  constructor
  · rintro ⟨c, hc, hfind⟩
    have hx := List.mem_of_find?_eq_some hfind
    have hid : x.id = c := by simpa using List.find?_some hfind
    obtain ⟨y, hy, hyc, hn⟩ := (hagrees n c).mp hc
    rw [hsame x hx y hy (hid.trans hyc.symm)]
    exact ⟨hy, hn⟩
  · rintro ⟨hx, hn⟩
    refine ⟨x.id, (hagrees n x.id).mpr ⟨x, hx, rfl, hn⟩, ?_⟩
    cases hfind : cs.communities.find? fun c => c.id = x.id with
    | none =>
        have hno := List.find?_eq_none.mp hfind x hx
        simp at hno
    | some y =>
        have hy := List.mem_of_find?_eq_some hfind
        have hid : y.id = x.id := by simpa using List.find?_some hfind
        rw [hsame y hy x hx hid]

theorem toNat_nodup {cs : List Community}
    (h : (cs.map Community.id).Nodup) :
    (cs.map fun c => c.id.toNat).Nodup := by
  have hmap : cs.map (fun c => c.id.toNat)
      = (cs.map Community.id).map UInt32.toNat := by
    rw [List.map_map]
    rfl
  rw [hmap]
  exact h.map fun _ _ hab => UInt32.toNat_inj.mp hab

/-- Without renumbering, a community has the number of its first node. -/
theorem initial_numbered (o : HashOrders K) (g : InMemoryGraph K) :
    Numbered g ⟨buildCommunities o g (initialMembership o g),
      initialMembership o g⟩ := by
  have hdefined := initial_defined o g
  have hpart := built_partition (o := o) hdefined
  have hagrees := built_agrees (o := o) hdefined
  have hids : ((buildCommunities o g (initialMembership o g)).map
      Community.id).Nodup := built_ids
  have hvalue : ∀ n c, initialMembership o g n = some c ↔
      ∃ i, (sortedNodes o g).idxOf? n = some i ∧ UInt32.ofNat i = c :=
    fun n c => Option.map_eq_some_iff
  refine ⟨hdefined, hpart, ?_, hagrees, forNode_iff hids hagrees⟩
  have hrange := perm_range (toNat_nodup hids)
    (n := min (sortedNodes o g).length UInt32.size) fun i => ?_
  · rwa [List.length_map] at hrange
  rw [lt_min_iff]
  constructor
  · intro hi
    obtain ⟨x, hx, rfl⟩ := List.mem_map.mp hi
    obtain ⟨n, hn⟩ := List.exists_mem_of_ne_nil _
      (hpart.nonempty _ (List.mem_map.mpr ⟨x, hx, rfl⟩))
    obtain ⟨i, hi, hid⟩ := (hvalue n x.id).mp
      ((hagrees n x.id).mpr ⟨x, hx, rfl, hn⟩)
    obtain ⟨hlt, -⟩ := List.idxOf?_eq_some_iff.mp hi
    refine ⟨?_, x.id.toNat_lt⟩
    rw [← hid, UInt32.toNat_ofNat']
    exact (Nat.mod_le _ _).trans_lt hlt
  · rintro ⟨hi, hsize⟩
    have hindex : (sortedNodes o g).idxOf? (sortedNodes o g)[i] = some i := by
      refine List.idxOf?_eq_some_iff.mpr ⟨hi, rfl, fun j hj hji => ?_⟩
      exact absurd ((sortedNodes_nodup o g).getElem_inj_iff.mp hji)
        (Nat.ne_of_lt hj)
    obtain ⟨x, hx, hid, -⟩ := (hagrees _ _).mp
      ((hvalue _ _).mpr ⟨i, hindex, rfl⟩)
    refine List.mem_map.mpr ⟨x, hx, ?_⟩
    rw [hid, UInt32.toNat_ofNat_of_lt' hsize]

/-- A community is found by its id at its place. -/
theorem findIdx_id {cs : List Community}
    (hnd : (cs.map Community.id).Nodup) {k : Nat} (hk : k < cs.length) :
    cs.findIdx (fun x => x.id = cs[k].id) = k := by
  refine (List.findIdx_eq hk).mpr ⟨decide_eq_true rfl, fun j hj => ?_⟩
  refine decide_eq_false fun hjk => Nat.ne_of_lt hj ?_
  have hmap : ∀ i, (hi : i < cs.length) →
      (cs.map Community.id)[i]? = some cs[i].id := fun i hi => by
    rw [List.getElem?_map, List.getElem?_eq_getElem hi]
    rfl
  have hjlt : j < (cs.map Community.id).length := by
    rw [List.length_map]
    omega
  refine (List.getElem?_inj hjlt hnd).mp ?_
  rw [hmap j (by omega), hmap k hk, hjk]

theorem mem_renumbered {cs : List Community} {x : Community} :
    x ∈ (renumbered cs ms).communities ↔
      ∃ (k : Nat) (hk : k < cs.length),
        { cs[k] with id := UInt32.ofNat k } = x := by
  show x ∈ cs.zipIdx.map _ ↔ _
  rw [List.mem_map]
  constructor
  · rintro ⟨⟨c, k⟩, hc, rfl⟩
    obtain ⟨hk, hck⟩ := List.mem_zipIdx' hc
    exact ⟨k, hk, by rw [hck]⟩
  · rintro ⟨k, hk, rfl⟩
    exact ⟨(cs[k], k), List.mk_mem_zipIdx_iff_getElem?.mpr
      (List.getElem?_eq_getElem hk), rfl⟩

/-- Renumbering keeps the classes, under the numbers of their places. -/
theorem renumbered_numbered {cs : List Community}
    (hnd : (cs.map Community.id).Nodup) (hdefined : Defined g ms)
    (hpart : Partitions (cs.map Community.members) (g.nodes.map Entity.id))
    (hagrees : ∀ n c, ms n = some c ↔ ∃ x ∈ cs, x.id = c ∧ n ∈ x.members) :
    Numbered g (renumbered cs ms) := by
  have hlen : cs.length ≤ UInt32.size := ids_length hnd
  have hnumbers : (renumbered cs ms).communities.map (fun c => c.id.toNat)
      = List.range cs.length := by
    refine List.ext_getElem (by simp [renumbered]) fun k hk hk' => ?_
    have hk : k < cs.length := by simpa [renumbered] using hk
    have hvalue : (UInt32.ofNat k).toNat = k :=
      UInt32.toNat_ofNat_of_lt' (hk.trans_le hlen)
    simpa [renumbered] using hvalue
  have hlen' : (renumbered cs ms).communities.length = cs.length := by
    simp [renumbered]
  have hagrees' : ∀ n c, (renumbered cs ms).membership n = some c ↔
      ∃ x ∈ (renumbered cs ms).communities, x.id = c ∧ n ∈ x.members := by
    intro n c
    show (ms n).map _ = some c ↔ _
    rw [Option.map_eq_some_iff]
    constructor
    · rintro ⟨v, hv, rfl⟩
      obtain ⟨x, hx, rfl, hn⟩ := (hagrees n v).mp hv
      obtain ⟨k, hk, rfl⟩ := List.getElem_of_mem hx
      refine ⟨_, mem_renumbered.mpr ⟨k, hk, rfl⟩, ?_, hn⟩
      rw [findIdx_id hnd hk]
    · rintro ⟨x, hx, rfl, hn⟩
      obtain ⟨k, hk, rfl⟩ := mem_renumbered.mp hx
      refine ⟨cs[k].id, (hagrees n _).mpr
        ⟨cs[k], List.getElem_mem hk, rfl, hn⟩, ?_⟩
      rw [findIdx_id hnd hk]
  have hids : ((renumbered cs ms).communities.map Community.id).Nodup := by
    have hnat : ((renumbered cs ms).communities.map fun c =>
        c.id.toNat).Nodup := by
      rw [hnumbers]
      exact List.nodup_range
    have hmap : (renumbered cs ms).communities.map (fun c => c.id.toNat)
        = ((renumbered cs ms).communities.map Community.id).map
          UInt32.toNat := by
      rw [List.map_map]
      rfl
    rw [hmap] at hnat
    exact hnat.of_map
  refine ⟨fun n => ?_, ?_, ?_, hagrees', forNode_iff hids hagrees'⟩
  · rw [← hdefined n]
    show ((ms n).map _).isSome = true ↔ _
    rw [Option.isSome_map]
  · rw [renumbered_members]
    exact hpart
  · rw [hnumbers, hlen']

/-- Every call returns communities that are numbered. -/
theorem detect_numbered [Field K] [LinearOrder K] (o : HashOrders K)
    (g : JoinedGraph K) :
    ∃ cs, detectCommunities o g.toInMemoryGraph = some cs
      ∧ Numbered g.toInMemoryGraph cs := by
  by_cases h : totalWeight o g.toInMemoryGraph = 0
  · exact ⟨_, by rw [detectCommunities, if_pos h], initial_numbered o _⟩
  · obtain ⟨ms, hms, hdefined⟩ := settled_defined o g
    have hperm : (bySize (buildCommunities o g.toInMemoryGraph ms)).Perm
        (buildCommunities o g.toInMemoryGraph ms) := sortBy_perm _ _
    refine ⟨_, by rw [detectCommunities, if_neg h, hms]; rfl,
      renumbered_numbered ?_ hdefined ?_ fun n c => ?_⟩
    · exact (hperm.map Community.id).nodup_iff.mpr built_ids
    · exact (built_partition hdefined).perm (hperm.map Community.members).symm
    · rw [built_agrees (o := o) hdefined]
      simp only [hperm.mem_iff]

-- =============================================================== levels

/-- What a level has to be. -/
structure Levelled (g : InMemoryGraph K) (l : RaptorLevel) : Prop where
  level : ∀ n ∈ l.nodes, n.level = l.level
  partition : Partitions (l.nodes.map RaptorNode.members)
    (g.nodes.map Entity.id)
  ids : (l.nodes.map RaptorNode.id).Nodup

section Levels

variable (toUppercase : String → String) (ro : RaptorOrders)

theorem leaves_levelled (g : InMemoryGraph K) :
    Levelled g ⟨0, (ro.nodes.apply g.nodes).map leafOf⟩ := by
  have hperm := (ro.nodes.perm g.nodes).map Entity.id
  have hnd : ((ro.nodes.apply g.nodes).map Entity.id).Nodup :=
    hperm.nodup_iff.mpr g.nodup
  constructor
  · intro n hn
    obtain ⟨e, -, rfl⟩ := List.mem_map.mp hn
    rfl
  · have hsingle := (Partitions.singletons hnd).of_perm hperm
    rw [List.map_map] at hsingle
    rw [List.map_map]
    exact hsingle
  · have hmap : ((ro.nodes.apply g.nodes).map leafOf).map RaptorNode.id
        = ((ro.nodes.apply g.nodes).map Entity.id).map ("leaf:" ++ ·) := by
      rw [List.map_map, List.map_map]
      rfl
    rw [hmap]
    exact hnd.map fun _ _ h => String.append_right_inj _ |>.mp h

theorem communities_levelled {g : InMemoryGraph K} {cs : Communities}
    (h : Numbered g cs) :
    Levelled g ⟨1, cs.communities.map communityNode⟩ := by
  constructor
  · intro n hn
    obtain ⟨c, -, rfl⟩ := List.mem_map.mp hn
    rfl
  · rw [List.map_map]
    exact h.partition
  · have hmap : (cs.communities.map communityNode).map RaptorNode.id
        = (cs.communities.map fun c => c.id.toNat).map
          fun n => "community:" ++ toString n := by
      rw [List.map_map, List.map_map]
      rfl
    rw [hmap]
    refine (h.numbers.nodup_iff.mpr List.nodup_range).map fun _ _ hab => ?_
    exact Text.toString_inj
      (congrArg String.toList (String.append_right_inj _ |>.mp hab))

theorem modules_levelled (g : InMemoryGraph K) :
    Levelled g ⟨2, (ro.modules.apply (collect ((ro.nodes.apply g.nodes).map
      fun e => (e.id, moduleOf e)))).map (moduleNode toUppercase g)⟩ := by
  have hperm := (ro.nodes.perm g.nodes).map Entity.id
  have hfst : ((ro.nodes.apply g.nodes).map fun e =>
      (e.id, moduleOf e)).map Prod.fst
        = (ro.nodes.apply g.nodes).map Entity.id := by
    rw [List.map_map]
    rfl
  constructor
  · intro n hn
    obtain ⟨group, -, rfl⟩ := List.mem_map.mp hn
    rfl
  · have hnd : (((ro.nodes.apply g.nodes).map fun e =>
        (e.id, moduleOf e)).map Prod.fst).Nodup := by
      rw [hfst]
      exact hperm.nodup_iff.mpr g.nodup
    have hgroups := Partitions.collect hnd
    rw [hfst] at hgroups
    rw [List.map_map]
    exact (hgroups.perm ((ro.modules.perm _).map Prod.snd).symm).of_perm hperm
  · have hkeys : ∀ xs : List (NodeId × String),
        ((collect xs).map Prod.fst).Nodup := by
      intro xs
      unfold collect
      rw [List.map_map]
      exact (List.map_id _).symm ▸ List.nodup_dedup _
    have hmap : ∀ groups : List (String × List NodeId),
        (groups.map (moduleNode toUppercase g)).map RaptorNode.id
          = (groups.map Prod.fst).map ("module:" ++ ·) := by
      intro groups
      rw [List.map_map, List.map_map]
      rfl
    rw [hmap]
    refine List.Nodup.map (fun _ _ h => String.append_right_inj _ |>.mp h) ?_
    exact ((ro.modules.perm _).map Prod.fst).nodup_iff.mpr (hkeys _)

end Levels

/-- Communities, and each of the three levels made of them, partition the
nodes. -/
theorem detect_partitions [Field K] [LinearOrder K]
    (toUppercase : String → String) (o : HashOrders K) (ro : RaptorOrders)
    (g : JoinedGraph K) :
    ∃ cs, detectCommunities o g.toInMemoryGraph = some cs
      ∧ Numbered g.toInMemoryGraph cs
      ∧ (buildRaptorTree toUppercase ro g.toInMemoryGraph cs).levels.map
        RaptorLevel.level = [0, 1, 2]
      ∧ ∀ l ∈ (buildRaptorTree toUppercase ro g.toInMemoryGraph cs).levels,
        Levelled g.toInMemoryGraph l := by
  obtain ⟨cs, hcs, hnumbered⟩ := detect_numbered o g
  refine ⟨cs, hcs, hnumbered, rfl, fun l hl => ?_⟩
  rcases List.mem_cons.mp hl with rfl | hl
  · exact leaves_levelled ro g.toInMemoryGraph
  rcases List.mem_cons.mp hl with rfl | hl
  · exact communities_levelled hnumbered
  · obtain rfl := List.mem_singleton.mp hl
    exact modules_levelled toUppercase ro g.toInMemoryGraph

end SapAutomate.Graph
