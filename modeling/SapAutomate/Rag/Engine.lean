/-
The hybrid pipeline (`sap-automate-rag/src/lib.rs`): two rankings from the
store, fused, reranked and cut to the number that was asked for. The times
it measures are left out.
-/
import SapAutomate.Rag.Fusion
import SapAutomate.Rag.Rerank

namespace SapAutomate.Rag

open Iteration Kb

variable {K : Type}

/-- `Query`. -/
structure Query (K : Type) where
  text : String
  domain : Option Domain
  topK : Nat
  embedding : Option (List K)

/-- `HitView`. -/
structure HitView (K : Type) where
  documentId : String
  uri : String
  title : String
  snippet : String
  score : K

/-- `truncate`. -/
def truncate (s : String) (n : Nat) : String :=
  if s.toList.length ≤ n then s
  else String.ofList (s.toList.take n ++ ['…'])

/-- `HitView::from`. -/
def HitView.ofHit (h : SearchHit K) : HitView K where
  documentId := h.chunk.documentId
  uri := h.chunk.uri
  title := h.chunk.title
  snippet := truncate h.chunk.text 220
  score := h.score

/-- `RetrievalDiagnostics`. -/
structure RetrievalDiagnostics where
  denseCandidates : Nat
  sparseCandidates : Nat
  rrfOverlap : Nat
  queryTerms : List String
  reranked : Bool
  truncated : Bool

/-- `SearchResponse`, without its times. -/
structure SearchResponse (K : Type) where
  hits : List (HitView K)
  diagnostics : RetrievalDiagnostics

/-- `RagEngine`, without its store. -/
structure RagEngine (K : Type) where
  reranker : Option (Reranker K)
  rrfK : K
  candidatePool : Nat

/-- `rank_overlap`. -/
def rankOverlap (dense sparse : List (SearchHit K)) : Nat :=
  if dense.isEmpty || sparse.isEmpty then 0
  else (sparse.filter fun h =>
    (dense.map fun h => h.chunk.id).contains h.chunk.id).length

namespace RagEngine

variable [Field K] [LinearOrder K] (e : RagEngine K)

/-- `kb_query`. -/
def kbQuery (query : Query K) : SearchQuery K :=
  let q := SearchQuery.ofText query.text e.candidatePool
  let q := match query.domain with
    | some d => q.withDomain d
    | none => q
  match query.embedding with
    | some qe => q.withEmbedding qe
    | none => q

/-- A reranked item: the hit it points to, with its score and a bias by its
rank. -/
def rerankedHit (fused : List (SearchHit K)) (item : RerankedItem K)
    (rank : Nat) : Option (SearchHit K) :=
  fused[item.idx]?.map fun h =>
    { h with score := item.score + ratio 1 (10 ^ 6) * (fused.length - rank) }

/-- `reranked`. -/
def rerank (text : String) (fused : List (SearchHit K)) :
    List (SearchHit K) :=
  match e.reranker with
  | some r =>
      ((r text (fused.map fun h => ⟨h.chunk.text, h.score⟩)).zipIdx).filterMap
        fun item => rerankedHit fused item.1 item.2
  | none => fused

/-- The lists that a search goes through. -/
structure Stages (K : Type) where
  dense : List (SearchHit K)
  sparse : List (SearchHit K)
  fused : List (SearchHit K)
  reranked : List (SearchHit K)

/-- A search, up to the cut. -/
def stages (o : IterOrder (SearchHit K))
    (store : SearchQuery K → List (SearchHit K) × List (SearchHit K))
    (query : Query K) : Stages K :=
  let found := store (e.kbQuery query)
  let fused := reciprocalRankFusion o found.1 found.2 e.rrfK e.candidatePool
  ⟨found.1, found.2, fused, e.rerank query.text fused⟩

/-- `RagEngine::hybrid_search`. -/
def hybridSearch (isAlphanumeric : Char → Bool) (o : IterOrder (SearchHit K))
    (store : SearchQuery K → List (SearchHit K) × List (SearchHit K))
    (query : Query K) : SearchResponse K :=
  let s := e.stages o store query
  { hits := (s.reranked.take query.topK).map HitView.ofHit
    diagnostics :=
      { denseCandidates := s.dense.length
        sparseCandidates := s.sparse.length
        rrfOverlap := rankOverlap s.dense s.sparse
        queryTerms := tokenize isAlphanumeric query.text
        reranked := e.reranker.isSome
        truncated := decide (query.topK < s.reranked.length) } }

end RagEngine

end SapAutomate.Rag
