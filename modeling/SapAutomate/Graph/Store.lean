/-
The in-memory graph (`sap-automate-graph/src/store.rs`, `entity.rs`), as
far as what is built on it reads it: the entities by their ids, and the
edges in the order they were added.

The adjacency maps hold the edges of a node in that order, so they are
read off the list. Weights are elements of a type `K`.
-/
import SapAutomate.Lib.Iteration
import Mathlib.Data.String.Basic

namespace SapAutomate.Graph

open Iteration

abbrev NodeId := String

/-- `Entity`, without what only other readers use. -/
structure Entity where
  id : NodeId
  label : String
  description : Option String := none
  tags : List String := []
  deriving DecidableEq

/-- `Edge`, without its kind. -/
structure Edge (K : Type) where
  source : NodeId
  target : NodeId
  weight : K

/-- `InMemoryGraph`. -/
structure InMemoryGraph (K : Type) where
  nodes : List Entity
  edges : List (Edge K)
  nodup : (nodes.map Entity.id).Nodup

namespace InMemoryGraph

variable {K : Type}

/-- `InMemoryGraph::new`. -/
def new : InMemoryGraph K := ⟨[], [], List.nodup_nil⟩

/-- `InMemoryGraph::add_entity`. -/
def addEntity (g : InMemoryGraph K) (e : Entity) : InMemoryGraph K where
  nodes := e :: g.nodes.filter fun e' => e'.id ≠ e.id
  edges := g.edges
  nodup := by
    rw [List.map_cons, List.nodup_cons]
    constructor
    · intro hmem
      obtain ⟨e', he', hid⟩ := List.mem_map.mp hmem
      exact (of_decide_eq_true (List.mem_filter.mp he').2) hid
    · exact g.nodup.sublist (List.filter_sublist.map _)

/-- `InMemoryGraph::add_edge`. -/
def addEdge (g : InMemoryGraph K) (e : Edge K) : InMemoryGraph K where
  nodes := g.nodes
  edges := g.edges ++ [e]
  nodup := g.nodup

/-- `InMemoryGraph::node`. -/
def node (g : InMemoryGraph K) (id : NodeId) : Option Entity :=
  g.nodes.find? fun e => e.id = id

/-- `InMemoryGraph::outbound`. -/
def outbound (g : InMemoryGraph K) (id : NodeId) : List (NodeId × K) :=
  (g.edges.filter fun e => e.source = id).map fun e => (e.target, e.weight)

/-- `InMemoryGraph::inbound`. -/
def inbound (g : InMemoryGraph K) (id : NodeId) : List (NodeId × K) :=
  (g.edges.filter fun e => e.target = id).map fun e => (e.source, e.weight)

/-- The entries of `undirected_neighbours`. -/
def undirectedNeighbours [AddMonoid K] (g : InMemoryGraph K) (id : NodeId) :
    List (NodeId × K) :=
  tally (g.outbound id ++ g.inbound id)

end InMemoryGraph

end SapAutomate.Graph
