/-
The RAPTOR tree (`sap-automate-graph/src/raptor.rs`): a level of leaves, one
of communities, and one of modules, by the tags of the entities.

The case mapping of the standard library is a parameter, which only the
summaries read.
-/
import SapAutomate.Graph.Community

namespace SapAutomate.Graph

open Iteration

/-- `RaptorNode`. -/
structure RaptorNode where
  id : String
  level : Nat
  summary : String
  members : List NodeId

/-- `RaptorLevel`. -/
structure RaptorLevel where
  level : Nat
  nodes : List RaptorNode

/-- `RaptorTree`. -/
structure RaptorTree where
  levels : List RaptorLevel

/-- How each hash map is gone through: the nodes, and the groups of a
module. -/
structure RaptorOrders where
  nodes : IterOrder Entity
  modules : IterOrder (String × List NodeId)

variable {K : Type} (toUppercase : String → String) (o : RaptorOrders)
  (g : InMemoryGraph K)

/-- The node of an entity. -/
def leafOf (e : Entity) : RaptorNode where
  id := "leaf:" ++ e.id
  level := 0
  summary := e.label ++ " — " ++ e.description.getD ""
  members := [e.id]

/-- The node of a community. -/
def communityNode (c : Community) : RaptorNode where
  id := "community:" ++ toString c.id.toNat
  level := 1
  summary := "Community #" ++ toString c.id.toNat ++ " ("
    ++ toString c.members.length ++ " members): " ++ c.summary
  members := c.members

/-- The module of an entity: the first tag that names one. -/
def moduleOf (e : Entity) : String :=
  match e.tags.find? fun t => "module:".toList.isPrefixOf t.toList with
  | some t => String.ofList (t.toList.drop "module:".length)
  | none => "other"

/-- The node of a module. -/
def moduleNode (group : String × List NodeId) : RaptorNode where
  id := "module:" ++ group.1
  level := 2
  summary := "Module " ++ toUppercase group.1 ++ ": "
    ++ toString group.2.length ++ " entities — "
    ++ String.intercalate ", " (group.2.filterMap fun m =>
      (g.node m).map Entity.label)
  members := group.2

/-- `build_raptor_tree`. -/
def buildRaptorTree (communities : Communities) : RaptorTree where
  levels :=
    [{ level := 0
       nodes := (o.nodes.apply g.nodes).map leafOf },
      { level := 1
        nodes := communities.communities.map communityNode },
      { level := 2
        nodes := (o.modules.apply (collect ((o.nodes.apply g.nodes).map
          fun e => (e.id, moduleOf e)))).map (moduleNode toUppercase g) }]

end SapAutomate.Graph
