/-
Community detection (`sap-automate-graph/src/community.rs`): nodes go, one
after the other, to the community of a neighbour that gains most, until a
pass moves none or eight passes are over; the communities are then put in
a list, by their size, and numbered.

Weights are computed with exactly, in a field `K`. Each map that is gone
through comes with an order (`HashOrders`). A lookup of a node that is no
entity is a panic: `none`.
-/
import SapAutomate.Graph.Store
import SapAutomate.Lib.Table
import Mathlib.Algebra.Field.Basic
import Mathlib.Data.List.Destutter

namespace SapAutomate.Graph

open Iteration

/-- `Community`. -/
structure Community where
  id : UInt32
  members : List NodeId
  summary : String
  deriving DecidableEq

/-- `membership`. -/
abbrev Membership := Table NodeId UInt32

/-- `Communities`. -/
structure Communities where
  communities : List Community
  membership : Membership

/-- `Communities::for_node`. -/
def Communities.forNode (cs : Communities) (id : NodeId) : Option Community :=
  (cs.membership id).bind fun cid =>
    cs.communities.find? fun c => c.id = cid

/-- How each hash map is gone through: the nodes, the neighbours of a node
in a pass (the degrees are pass 0), the degrees, the candidates for a node
in a pass, the membership, and the groups. -/
structure HashOrders (K : Type) where
  nodes : IterOrder Entity
  neighbours : Nat → NodeId → IterOrder (NodeId × K)
  degrees : IterOrder (NodeId × K)
  candidates : Nat → NodeId → IterOrder (UInt32 × K)
  membership : IterOrder (NodeId × UInt32)
  groups : IterOrder (UInt32 × List NodeId)

variable {K : Type} [Field K] [LinearOrder K] (o : HashOrders K)
  (g : InMemoryGraph K)

-- =============================================================== degrees

/-- `sorted_nodes`, by their ids. -/
def sortedNodes : List NodeId :=
  (sortBy Entity.id (o.nodes.apply g.nodes)).map Entity.id

/-- The neighbours of a node, sorted. -/
def neighboursOf (pass : Nat) (id : NodeId) : List (NodeId × K) :=
  sortBy Prod.fst
    ((o.neighbours pass id).apply (g.undirectedNeighbours id))

/-- `degree`. -/
def degrees : List (NodeId × K) :=
  (sortedNodes o g).map fun id =>
    (id, ((neighboursOf o g 0 id).map Prod.snd).sum)

/-- `*degree.get(id).unwrap_or(&0.0)`. -/
def degreeOf (id : NodeId) : K := ((degrees o g).lookup id).getD 0

/-- `total_weight`. -/
def totalWeight : K :=
  ((o.degrees.apply (degrees o g)).map Prod.snd).sum / 2

/-- Every node in its own community. -/
def initialMembership : Membership := fun id =>
  ((sortedNodes o g).idxOf? id).map UInt32.ofNat

-- ================================================================= moves

/-- The gain of a community with these edges to it and these degrees. -/
def gain (m k toC sigmaC : K) : K := toC / m - sigmaC * k / (2 * m * m)

/-- A candidate against the best one so far. -/
def pick (cur : UInt32) (gainOf : UInt32 × K → K) (best cand : UInt32 × K) :
    UInt32 × K :=
  if cand.1 = cur then best
  else if best.2 < gainOf cand then (cand.1, gainOf cand)
  else best

/-- The communities of these nodes, each with a value. -/
def withCommunities (ms : Membership) (xs : List (NodeId × K)) :
    Option (List (UInt32 × K)) :=
  xs.mapM fun x => (ms x.1).map fun c => (c, x.2)

/-- `sigma_tot`: the degrees of the other nodes, by community. -/
def sigmaTot (ms : Membership) (id : NodeId) : Option (List (UInt32 × K)) :=
  (withCommunities ms (((sortedNodes o g).filter (· ≠ id)).map fun n =>
    (n, degreeOf o g n))).map tally

/-- `best_comm`, for a node of community `cur` with these neighbours. -/
def bestCommunity (pass : Nat) (ms : Membership) (id : NodeId)
    (cur : UInt32) : Option UInt32 := do
  let toComm ← withCommunities ms (neighboursOf o g pass id)
  let sigma ← sigmaTot o g ms id
  let cands := sortBy (fun cand => cand.1.toNat)
    ((o.candidates pass id).apply (tally toComm))
  let gainOf := fun cand : UInt32 × K =>
    gain (totalWeight o g) (degreeOf o g id) cand.2
      ((sigma.lookup cand.1).getD 0)
  return (cands.foldl (pick cur gainOf) (cur, 0)).1

/-- The visit of a node: the membership after it, and whether it has
moved. -/
def visit (pass : Nat) (ms : Membership) (id : NodeId) :
    Option (Membership × Bool) := do
  let cur ← ms id
  if (neighboursOf o g pass id).isEmpty then return (ms, false)
  else do
    let best ← bestCommunity o g pass ms id cur
    if best ≠ cur then return (ms.insert id best, true)
    else return (ms, false)

/-- The visits of a pass. -/
def visits (pass : Nat) : List NodeId → Membership × Bool →
    Option (Membership × Bool)
  | [], s => some s
  | id :: ids, s => do
      let t ← visit o g pass s.1 id
      visits pass ids (t.1, s.2 || t.2)

/-- The passes: this many are left, and the next has this number. -/
def passes : Nat → Nat → Membership → Option Membership
  | 0, _, ms => some ms
  | left + 1, pass, ms => do
      let s ← visits o g pass (sortedNodes o g) (ms, false)
      if s.2 then passes left (pass + 1) s.1 else return s.1

/-- The membership the passes end with. -/
def settledMembership : Option Membership :=
  passes o g 8 1 (initialMembership o g)

-- =========================================================== communities

/-- The summary of these members. -/
def summaryOf (members : List NodeId) : String :=
  let labels := sortBy id (members.filterMap fun m =>
    (g.node m).map Entity.label)
  String.intercalate " · " (labels.destutter (· ≠ ·))

/-- The entries of a membership. -/
def entriesOf (ms : Membership) : List (NodeId × UInt32) :=
  (sortedNodes o g).filterMap fun id => (ms id).map fun c => (id, c)

/-- A group as a community. -/
def communityOf (group : UInt32 × List NodeId) : Community where
  id := group.1
  members := sortBy id group.2
  summary := summaryOf g (sortBy id group.2)

/-- `build_communities_from_membership`. -/
def buildCommunities (ms : Membership) : List Community :=
  (o.groups.apply (collect (o.membership.apply (entriesOf o g ms)))).map
    (communityOf g)

/-- Communities in the order of their sizes, the largest first. -/
def bySize (cs : List Community) : List Community :=
  sortBy (fun c => OrderDual.toDual c.members.length) cs

/-- `renumber`, of communities in that order. -/
def renumbered (cs : List Community) (ms : Membership) : Communities where
  communities := cs.zipIdx.map fun c => { c.1 with id := UInt32.ofNat c.2 }
  membership := fun id => (ms id).map fun v =>
    UInt32.ofNat (cs.findIdx fun c => c.id = v)

/-- `detect_communities`. -/
def detectCommunities : Option Communities :=
  if totalWeight o g = 0 then
    let ms := initialMembership o g
    some ⟨buildCommunities o g ms, ms⟩
  else do
    let ms ← settledMembership o g
    return renumbered (bySize (buildCommunities o g ms)) ms

end SapAutomate.Graph
