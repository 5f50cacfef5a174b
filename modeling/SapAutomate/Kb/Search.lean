/-
Searching the in-memory store (`sap-automate-kb/src/store.rs`): by the
cosine of embeddings, and by BM25 over the terms of the texts.

The chunks come in the order in which the map of them is gone through.
Scores are computed with exactly, in a field `K`; logarithm, square root
and the classes of characters are those of the standard library, given as
`Std`.
-/
import SapAutomate.Kb.Schema
import SapAutomate.Lib.Iteration
import Mathlib.Algebra.Field.Basic
import Mathlib.Algebra.GroupWithZero.Nat
import Mathlib.Data.String.Basic

namespace SapAutomate.Kb

open Iteration

/-- What the standard library says about characters and reals. -/
structure Std (K : Type) where
  isAlphanumeric : Char → Bool
  isUppercase : Char → Bool
  ln : K → K
  sqrt : K → K

/-- `SearchQuery`. -/
structure SearchQuery (K : Type) where
  text : String
  embedding : Option (List K)
  domains : List Domain
  topK : Nat

namespace SearchQuery

variable {K : Type}

/-- `SearchQuery::text`. -/
def ofText (text : String) (topK : Nat) : SearchQuery K := ⟨text, none, [], topK⟩

/-- `SearchQuery::with_domain`. -/
def withDomain (q : SearchQuery K) (d : Domain) : SearchQuery K :=
  { q with domains := q.domains ++ [d] }

/-- `SearchQuery::with_embedding`. -/
def withEmbedding (q : SearchQuery K) (e : List K) : SearchQuery K :=
  { q with embedding := some e }

/-- `want_domain`. -/
def wants (q : SearchQuery K) (d : Domain) : Bool :=
  q.domains.isEmpty || q.domains.contains d

end SearchQuery

/-- `SearchHit`. -/
structure SearchHit (K : Type) where
  chunk : Chunk K
  score : K
  deriving DecidableEq

/-- The bytes of a text. -/
def byteLen (cs : List Char) : Nat := (String.ofList cs).utf8ByteSize

/-- A character of `tokenize`: the tokens so far, and the one begun. -/
def tokenStep (isAlphanumeric : Char → Bool) (s : List String × List Char)
    (ch : Char) : List String × List Char :=
  if isAlphanumeric ch || ch = '_' then (s.1, s.2 ++ [ch.toLower])
  else if s.2.isEmpty then s
  else if 2 ≤ byteLen s.2 then (s.1 ++ [String.ofList s.2], [])
  else (s.1, [])

/-- `tokenize`. -/
def tokenize (isAlphanumeric : Char → Bool) (text : String) : List String :=
  let s := text.toList.foldl (tokenStep isAlphanumeric) ([], [])
  if 2 ≤ byteLen s.2 then s.1 ++ [String.ofList s.2] else s.1

variable {K : Type} [Field K] [LinearOrder K] (std : Std K)

/-- A decimal constant. -/
def ratio (a b : Nat) : K := a / b

/-- `cosine`. -/
def cosine (a b : List K) : K :=
  let dot := ((a.zip b).map fun x => x.1 * x.2).sum
  let na := ((a.zip b).map fun x => x.1 * x.1).sum
  let nb := ((a.zip b).map fun x => x.2 * x.2).sum
  dot / max (std.sqrt na * std.sqrt nb) (ratio 1 (10 ^ 12))

/-- The hits with the best scores, the best first. -/
def ranked (hits : List (SearchHit K)) (topK : Nat) : List (SearchHit K) :=
  (sortBy (fun h => OrderDual.toDual h.score) hits).take topK

/-- `InMemoryKb::dense_search`. -/
def denseSearch (values : List (Chunk K)) (qe : List K) (query : SearchQuery K) :
    List (SearchHit K) :=
  ranked ((values.filter fun c => query.wants c.domain).filterMap fun c =>
    c.embedding.bind fun ce =>
      if ce.length ≠ qe.length then none else some ⟨c, cosine std ce qe⟩)
    query.topK

/-- The score that BM25 gives a text of these tokens: `n` texts, of these
tokens, with so many of them on average. -/
def bm25Score (n : Nat) (docs : List (List String)) (avgDl : K)
    (queryTerms tokens : List String) : K :=
  let k1 := ratio 3 2
  let b := ratio 3 4
  queryTerms.foldl (fun score term =>
    let f : K := tokens.count term
    if f = 0 then score
    else
      let df : K := (docs.filter fun d => d.contains term).length
      let idf := std.ln ((n - df + ratio 1 2) / (df + ratio 1 2) + 1)
      let denom := f + k1 * (1 - b + b * tokens.length / avgDl)
      score + idf * (f * (k1 + 1)) / denom) 0

/-- `InMemoryKb::bm25_search`. -/
def bm25Search (values : List (Chunk K)) (query : SearchQuery K) :
    List (SearchHit K) :=
  let candidates := values.filter fun c => query.wants c.domain
  let n := candidates.length
  let queryTerms := tokenize std.isAlphanumeric query.text
  let docs := candidates.map fun c => tokenize std.isAlphanumeric c.text
  let avgDl : K := ((docs.map List.length).sum : Nat) / n
  if n = 0 then []
  else if queryTerms.isEmpty then []
  else if avgDl = 0 then []
  else
    ranked ((candidates.map fun c => (⟨c, bm25Score std n docs avgDl queryTerms
      (tokenize std.isAlphanumeric c.text)⟩ : SearchHit K)).filter fun h =>
        0 < h.score) query.topK

/-- `InMemoryKb::hybrid_search`: the dense hits, where there is an
embedding, and the sparse ones. -/
def hybridSearch (values : List (Chunk K)) (query : SearchQuery K) :
    List (SearchHit K) × List (SearchHit K) :=
  (match query.embedding with
    | some qe => denseSearch std values qe query
    | none => [],
  bm25Search std values query)

end SapAutomate.Kb
