/-
The reranker (`sap-automate-rag/src/rerank.rs`): a score for each
candidate from the terms it shares with the query, its base score and its
place, and the candidates sorted by it.
-/
import SapAutomate.Kb.Search
import Mathlib.Data.List.Infix

namespace SapAutomate.Rag

open Iteration Kb

/-- `RerankerCandidate`. -/
structure RerankerCandidate (K : Type) where
  chunkText : String
  baseScore : K

/-- `RerankedItem`. -/
structure RerankedItem (K : Type) where
  idx : Nat
  score : K

/-- `Reranker::rerank`. -/
abbrev Reranker (K : Type) :=
  String → List (RerankerCandidate K) → List (RerankedItem K)

/-- `tokens`. -/
def tokens (isAlphanumeric : Char → Bool) (text : String) : List String :=
  ((text.toList.splitOnP fun c => !isAlphanumeric c && c != '_').map
    String.ofList).filter fun t => 2 ≤ t.utf8ByteSize

/-- `str::contains`. -/
def contains (text term : String) : Bool :=
  decide (term.toList <:+: text.toList)

/-- `str::to_ascii_uppercase`. -/
def toAsciiUppercase (s : String) : String :=
  String.ofList (s.toList.map Char.toUpper)

variable {K : Type} [Field K] [LinearOrder K] (std : Std K)

/-- The tokens of a query that look like identifiers. -/
def identifiers (qTokens : List String) : List String :=
  qTokens.filter fun t =>
    3 ≤ t.utf8ByteSize && t.toList.any fun c => std.isUppercase c || c == '_'

/-- The score of a candidate at this place. -/
def candidateScore (qTokens : List String) (c : RerankerCandidate K)
    (idx : Nat) : K :=
  let bodyTokens := tokens std.isAlphanumeric c.chunkText
  let overlap : K := (qTokens.filter fun t => bodyTokens.contains t).length
  let identBonus : K := ((identifiers std qTokens).filter fun t =>
    contains c.chunkText t || contains (toAsciiUppercase c.chunkText)
      (toAsciiUppercase t)).length * ratio 1 2
  let posDecay : K := 1 / (1 + idx * ratio 1 20)
  overlap + identBonus + ratio 1 10 * c.baseScore + posDecay

/-- `MockReranker::rerank`. -/
def mockRerank : Reranker K := fun query candidates =>
  let qTokens := tokens std.isAlphanumeric query
  sortBy (fun item => OrderDual.toDual item.score)
    (candidates.zipIdx.map fun c => ⟨c.2, candidateScore std qTokens c.1 c.2⟩)

/-- It returns every place once. -/
theorem mockRerank_perm (query : String)
    (candidates : List (RerankerCandidate K)) :
    ((mockRerank std query candidates).map RerankedItem.idx).Perm
      (List.range candidates.length) := by
  refine ((sortBy_perm _ _).map _).trans ?_
  rw [List.map_map, List.range_eq_range']
  show (candidates.zipIdx.map Prod.snd).Perm _
  rw [List.zipIdx_map_snd]

end SapAutomate.Rag
