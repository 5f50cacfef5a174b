/-
Personalised PageRank (`sap-automate-graph/src/ppr.rs`): a walk that goes
back to the seeds with probability `alpha`, by power iteration, and the
hops from the seeds.

Scores are computed with exactly, in a field `K`. The nodes are numbered in
the order their map is gone through, and a vector has a place for each of
them (`PprOrders`).
-/
import SapAutomate.Graph.Store
import SapAutomate.Lib.Mass
import Mathlib.Algebra.Field.Basic
import Mathlib.Algebra.Order.Group.Unbundled.Abs
import Mathlib.Order.OrderDual

namespace SapAutomate.Graph

open Iteration Mass

/-- `PprConfig`. -/
structure PprConfig (K : Type) where
  alpha : K
  maxIterations : UInt32
  tolerance : K
  maxHops : UInt32

/-- `PprHit`. -/
structure PprHit (K : Type) where
  id : NodeId
  score : K
  hops : UInt32

/-- `PprResult`. -/
structure PprResult (K : Type) where
  seeds : List NodeId
  ranked : List (PprHit K)
  iterations : UInt32

/-- How each hash map is gone through: the nodes, and the neighbours of a
node. -/
structure PprOrders (K : Type) where
  nodes : IterOrder Entity
  neighbours : NodeId → IterOrder (NodeId × K)

variable {K : Type} [Field K] [LinearOrder K]

/-- `PprConfig::default`. -/
def PprConfig.default : PprConfig K where
  alpha := (15 : ℕ) / (100 : ℕ)
  maxIterations := 50
  tolerance := 1 / (100000 : ℕ)
  maxHops := 4

-- ============================================================= adjacency

section Adjacency

variable (o : PprOrders K) (g : InMemoryGraph K)

/-- `node_ids`. -/
def nodeIds : List NodeId := (o.nodes.apply g.nodes).map Entity.id

/-- `idx`. -/
def indexOf (id : NodeId) : Option Nat := (nodeIds o g).idxOf? id

/-- `neighbours`. -/
def neighbours : List (List (Nat × K)) :=
  (nodeIds o g).map fun id =>
    ((o.neighbours id).apply (g.undirectedNeighbours id)).filterMap fun x =>
      (indexOf o g x.1).map fun j => (j, x.2)

/-- `seed_indices`. -/
def seedIndices (seeds : List NodeId) : List Nat :=
  seeds.filterMap (indexOf o g)

/-- The vector the iteration starts with, which is `teleport` too. -/
def initialScores (seeds : List NodeId) : List K :=
  let indices := seedIndices o g seeds
  indices.foldl (fun p i => p.set i (1 / (indices.length : K)))
    (List.replicate (nodeIds o g).length 0)

end Adjacency

-- ============================================================= iteration

section Iterate

variable (nbs : List (List (Nat × K))) (teleport : List K) (alpha : K)

/-- `out_weight[i]`. -/
def outWeight (i : Nat) : K := ((nbs.getD i []).map Prod.snd).sum

/-- The mass of node `i`, along its edges. -/
def distribute (p next : List K) (i : Nat) : List K :=
  if outWeight nbs i ≤ 0 ∨ p.getD i 0 = 0 then next
  else
    let outgoing := (1 - alpha) * p.getD i 0
    (nbs.getD i []).foldl (fun next x =>
      addAt next x.1 (outgoing * (x.2 / outWeight nbs i))) next

/-- The mass node `i` gets from the seeds, and theirs from it where it has
no way out. -/
def restart (p next : List K) (i : Nat) : List K :=
  let next := addAt next i (alpha * teleport.getD i 0)
  if outWeight nbs i ≤ 0 ∧ 0 < p.getD i 0 then
    let dangling := (1 - alpha) * p.getD i 0
    (List.range nbs.length).foldl (fun next j =>
      addAt next j (dangling * teleport.getD j 0)) next
  else next

/-- One iteration. -/
def iterate (p : List K) : List K :=
  (List.range nbs.length).foldl (restart nbs teleport alpha p)
    ((List.range nbs.length).foldl (distribute nbs alpha p)
      (List.replicate nbs.length 0))

/-- `delta`. -/
def delta (p next : List K) : K :=
  ((p.zip next).map fun x => |x.1 - x.2|).sum

/-- The vectors after each iteration, where this many are left. -/
def iterations (tolerance : K) : Nat → List K → List (List K)
  | 0, _ => []
  | left + 1, p =>
      let next := iterate nbs teleport alpha p
      if delta p next < tolerance then [next]
      else next :: iterations tolerance left next

end Iterate

-- ================================================================== hops

section Hops

variable (nbs : List (List (Nat × K)))

/-- `u32::MAX`. -/
def unreached : UInt32 := 0xFFFFFFFF

/-- A neighbour of a node of the frontier. -/
def reach (depth : UInt32) (s : List UInt32 × List Nat) (j : Nat) :
    List UInt32 × List Nat :=
  if s.1.getD j 0 = unreached then (s.1.set j (depth + 1), s.2 ++ [j]) else s

/-- The loop, with this many depths left. -/
def bfsLoop : Nat → UInt32 → List Nat → List UInt32 → List UInt32
  | 0, _, _, hops => hops
  | left + 1, depth, frontier, hops =>
      if frontier = [] then hops
      else
        let s := (frontier.flatMap fun i =>
          (nbs.getD i []).map Prod.fst).foldl (reach depth) (hops, [])
        bfsLoop left (depth + 1) s.2 s.1

/-- `bfs_hops`. -/
def bfsHops (seeds : List Nat) (maxHops : UInt32) : List UInt32 :=
  bfsLoop nbs maxHops.toNat 0 seeds
    (seeds.foldl (fun hops i => hops.set i 0)
      (List.replicate nbs.length unreached))

end Hops

-- =============================================================== ranking

variable (o : PprOrders K) (g : InMemoryGraph K)

/-- The score vectors of a run: the first one, and the one after each
iteration. -/
def scoreVectors (seeds : List NodeId) (cfg : PprConfig K) : List (List K) :=
  let teleport := initialScores o g seeds
  teleport :: iterations (neighbours o g) teleport cfg.alpha cfg.tolerance
    cfg.maxIterations.toNat teleport

/-- `ranked`, from the last vector. -/
def rank (p : List K) (hops : List UInt32) : List (PprHit K) :=
  sortBy (fun h => OrderDual.toDual h.score)
    ((nodeIds o g).zipIdx.map fun x =>
      { id := x.1, score := p.getD x.2 0, hops := hops.getD x.2 0 })

/-- `personalised_pagerank`. -/
def personalisedPagerank (seeds : List NodeId) (cfg : PprConfig K) :
    PprResult K :=
  if seeds = [] then { seeds := [], ranked := [], iterations := 0 }
  else if seedIndices o g seeds = [] then
    { seeds := seeds, ranked := [], iterations := 0 }
  else
    let vectors := scoreVectors o g seeds cfg
    let hops := bfsHops (neighbours o g) (seedIndices o g seeds) cfg.maxHops
    { seeds := seeds
      ranked := rank o g (vectors.getLast?.getD []) hops
      iterations := UInt32.ofNat (vectors.length - 1) }

/-- `GraphEngine::neighborhood`, its hits by their ids. -/
def neighborhood (seeds : List NodeId) (maxHops : UInt32) (topK : Nat) :
    List (PprHit K) :=
  let cfg : PprConfig K := { PprConfig.default with maxHops := maxHops }
  let r := personalisedPagerank o g seeds cfg
  (r.ranked.filter fun h => h.hops ≤ maxHops).take topK

end SapAutomate.Graph
