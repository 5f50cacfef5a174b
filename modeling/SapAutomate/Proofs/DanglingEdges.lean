/-
Community detection of a graph whose edges may lack an end
(`sap-automate-graph/src/store.rs`, `community.rs`).

The store takes edges before their entities, and without them. A pass
looks up the community of every neighbour of every node, so it is a panic
just where an edge has one end only (`Loose`). The passes are left out
where the degrees add up to nothing.
-/
import SapAutomate.Proofs.GraphPartition

namespace SapAutomate.Graph

open Iteration

variable {K : Type}

-- ============================================================ operations

/-- An operation of the store. -/
inductive GraphOp (K : Type) where
  | addEntity (e : Entity)
  | addEdge (e : Edge K)

def GraphOp.apply (g : InMemoryGraph K) : GraphOp K → InMemoryGraph K
  | .addEntity e => g.addEntity e
  | .addEdge e => g.addEdge e

/-- The graph that operations build. -/
def builtBy (ops : List (GraphOp K)) : InMemoryGraph K :=
  ops.foldl GraphOp.apply .new

-- ================================================================== ends

/-- The ends of the edges, with their weights. -/
def InMemoryGraph.ends (g : InMemoryGraph K) : List (NodeId × K) :=
  (g.edges.map fun e => (e.source, e.weight))
    ++ g.edges.map fun e => (e.target, e.weight)

/-- All neighbours of nodes exist. -/
def Closed (g : InMemoryGraph K) : Prop :=
  ∀ id ∈ g.ids, ∀ x ∈ g.outbound id ++ g.inbound id, x.1 ∈ g.ids

variable [Field K] [LinearOrder K] {o : HashOrders K} {g : InMemoryGraph K}

end SapAutomate.Graph
