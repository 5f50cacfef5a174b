/-
Searching the Qdrant store (`sap-automate-kb/src/qdrant.rs`), its
`search`: a domain after the other is asked for the points nearest to a
vector, what comes back is read as chunks, and the best of all are kept.

A domain whose status is no success is passed over; a reply that does not
come, or a payload that is no chunk, ends the search. The endpoint's
replies come numbered, as those to `upsert` do, and scores are compared
exactly.
-/
import SapAutomate.Kb.Qdrant
import SapAutomate.Kb.Search

namespace SapAutomate.Json

/-- `Value::as_array`. -/
def Value.asArray : Value → Option (List Value)
  | .array items => some items
  | _ => none

end SapAutomate.Json

namespace SapAutomate.Kb

open Json

variable {K : Type}

/-- A `POST` of a search. -/
structure SearchRequest where
  url : String
  body : Value

/-- `QdrantHit`. -/
structure QdrantHit (K : Type) where
  id : Value
  score : K
  payload : Value

/-- What comes of it: no reply that can be read, a status that is no
success, or a `QdrantSearchResponse`. -/
inductive SearchReply (K : Type) where
  | failed (reason : String)
  | refused (text : String)
  | found (result : List (QdrantHit K))

/-- `chunk_from_payload`. -/
def chunkFromPayload (domain : Domain) (payload : Value) :
    Option (Chunk K) := do
  let id ← (← payload.get "chunk_id").asStr
  let documentId ← (← payload.get "document_id").asStr
  let text ← (← payload.get "text").asStr
  return {
    id := id
    documentId := documentId
    domain := domain
    ordinal := (((payload.get "ordinal").bind Value.asU64).getD 0) % 2 ^ 32
    text := text
    embedding := none
    breadcrumbs := (((payload.get "breadcrumbs").bind Value.asArray).map
      fun a => a.filterMap Value.asStr).getD []
    title := ((payload.get "title").bind Value.asStr).getD ""
    uri := ((payload.get "uri").bind Value.asStr).getD "" }

/-- The hits of a reply. -/
def readHits (domain : Domain) :
    List (QdrantHit K) → Option (List (SearchHit K))
  | [] => some []
  | h :: hs => do
      let chunk ← chunkFromPayload domain h.payload
      let rest ← readHits domain hs
      return ⟨chunk, h.score⟩ :: rest

/-- The domains that a query is for. -/
def SearchQuery.targets (query : SearchQuery K) : List Domain :=
  if query.domains.isEmpty then [.sapHelp, .abap, .bpmn, .leanix]
  else query.domains

namespace QdrantStore

/-- `QdrantStore::search_url`. -/
def searchUrl (q : QdrantStore) (domain : Domain) : String :=
  q.baseUrl ++ "/collections/" ++ domain.collection ++ "/points/search"

variable (floatJson : K → Value)

/-- The request for the points nearest to a vector. -/
def searchRequest (q : QdrantStore) (embedding : List K) (topK : Nat)
    (domain : Domain) : SearchRequest where
  url := q.searchUrl domain
  body := .object (Map.ofEntries [
    ("vector", .array (embedding.map floatJson)),
    ("limit", Value.ofInt topK),
    ("with_payload", .bool true)])

/-- The loop of `search` over the domains, from request `n`. -/
def searchEach (q : QdrantStore)
    (service : Nat → SearchRequest → SearchReply K) (embedding : List K)
    (topK : Nat) : Nat → List Domain → Except StoreError (List (SearchHit K))
  | _, [] => .ok []
  | n, domain :: rest =>
      match service n (q.searchRequest floatJson embedding topK domain) with
      | .failed reason => .error (.backend ("qdrant http: " ++ reason))
      | .refused _ => searchEach q service embedding topK (n + 1) rest
      | .found result =>
          match readHits domain result with
          | none => .error (.backend "malformed qdrant payload")
          | some hits =>
              (searchEach q service embedding topK (n + 1) rest).map
                (hits ++ ·)

variable [LinearOrder K]

/-- `QdrantStore::search`. -/
def search (q : QdrantStore) (service : Nat → SearchRequest → SearchReply K)
    (query : SearchQuery K) : Except StoreError (List (SearchHit K)) :=
  match query.embedding with
  | none => .error (.backend "qdrant search requires an embedding")
  | some embedding =>
      (q.searchEach floatJson service embedding query.topK 0
        query.targets).map (ranked · query.topK)

end QdrantStore

end SapAutomate.Kb
