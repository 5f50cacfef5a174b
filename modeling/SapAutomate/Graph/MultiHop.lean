/-
Multi-hop search (`sap-automate-graph/src/ppr.rs`, `store.rs`): the nodes
whose text mentions a query are the seeds of a PageRank, and what is near
one of them is surfaced.

The case mapping of the standard library is a parameter.
-/
import SapAutomate.Graph.PageRank
import SapAutomate.Lib.Text
import Mathlib.Algebra.GroupWithZero.Nat

namespace SapAutomate.Graph

open Iteration

variable {K : Type} [Field K] [LinearOrder K] (toLowercase : String → String)
  (o : PprOrders K) (g : InMemoryGraph K)

/-- `hay.matches(t).count()`, where this many characters are still part of
the last match. -/
def countMatches (t : List Char) : Nat → List Char → Nat
  | _, [] => 0
  | 0, c :: hay =>
      if t.isPrefixOf (c :: hay) then countMatches t (t.length - 1) hay + 1
      else countMatches t 0 hay
  | skip + 1, _ :: hay => countMatches t skip hay

/-- `hay`. -/
def haystack (e : Entity) : List Char :=
  (toLowercase e.label).toList ++ ' ' ::
    ((toLowercase (e.description.getD "")).toList ++ ' ' ::
      (toLowercase (" ".intercalate e.tags)).toList)

/-- `terms`. -/
def queryTerms (query : String) : List (List Char) :=
  ((toLowercase query).toList.splitOnP Text.isWhitespace).filter fun t =>
    2 ≤ (t.map Char.utf8Size).sum

/-- `score`, of one entity. -/
def seedScore (terms : List (List Char)) (e : Entity) : Nat :=
  (terms.map fun t => countMatches t 0 (haystack toLowercase e)).sum

/-- `InMemoryGraph::find_seeds`. -/
def findSeeds (query : String) (maxSeeds : Nat) : List NodeId :=
  let terms := queryTerms toLowercase query
  if terms = [] then []
  else
    let scored := (o.nodes.apply g.nodes).filter fun e =>
      seedScore toLowercase terms e ≠ 0
    ((sortBy (fun e => OrderDual.toDual (seedScore toLowercase terms e))
      scored).take maxSeeds).map Entity.id

/-- What `multi_hop_search` leaves of a result. -/
def surface (r : PprResult K) (maxHops : UInt32) (topK : Nat) : PprResult K :=
  { r with ranked := (r.ranked.filter fun h => h.hops ≤ maxHops).take topK }

/-- `multi_hop_search`. -/
def multiHopSearch (query : String) (maxSeeds : Nat) (cfg : PprConfig K)
    (topK : Nat) : PprResult K :=
  let seeds := findSeeds toLowercase o g query maxSeeds
  surface (personalisedPagerank o g seeds cfg) cfg.maxHops topK

end SapAutomate.Graph
