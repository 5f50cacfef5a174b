/-
The Qdrant store (`sap-automate-kb/src/qdrant.rs`), its `upsert`: the
documents of a batch are kept in the store itself, and its chunks are
grouped by domain, checked and put to the endpoint, a group after the
other.

The groups are the entries of a `HashMap`, so they come in an order that
is any of those of the domains (`GroupOrder`). The digest and the text of
a float in JSON are functions that are given; the endpoint's replies come
numbered.
-/
import SapAutomate.Json.Serde
import SapAutomate.Kb.Store
import SapAutomate.Lib.Text
import Mathlib.Data.List.DropRight

namespace SapAutomate.Kb

open Json

variable {F : Type}

/-- `StoreError`. -/
inductive StoreError where
  | notFound (id : String)
  | backend (text : String)
  | serde (text : String)
  deriving DecidableEq

/-- `QdrantStore`, without its HTTP client. -/
structure QdrantStore where
  baseUrl : String
  embeddingDim : Nat
  documents : Table DocumentId Document

/-- The domains of chunks, as the map that groups them goes through
them. -/
structure GroupOrder (chunks : List (Chunk F)) where
  domains : List Domain
  nodup : domains.Nodup
  mem_iff : ∀ d, d ∈ domains ↔ ∃ c ∈ chunks, c.domain = d

/-- `by_domain`, in that order. -/
def GroupOrder.groups {chunks : List (Chunk F)} (order : GroupOrder chunks) :
    List (Domain × List (Chunk F)) :=
  order.domains.map fun d => (d, chunks.filter fun c => c.domain = d)

-- ================================================================ points

/-- `uuid_for`: the first sixteen bytes of the digest, with the marks of
version 5. -/
def uuidFor (sha256 : String → Vector UInt8 32) (id : ChunkId) : String :=
  let b := (((sha256 id).toList.take 16).modify 6 fun x => x &&& 15 ||| 80)
    |>.modify 8 fun x => x &&& 63 ||| 128
  let hex := fun (i n : Nat) => ((b.drop i).take n).flatMap Text.hexByte
  String.ofList (hex 0 4 ++ '-' :: hex 4 2 ++ '-' :: hex 6 2 ++ '-' :: hex 8 2
    ++ '-' :: hex 10 6)

variable (sha256 : String → Vector UInt8 32) (floatJson : F → Value)

/-- The point of a chunk with this vector. -/
def point (c : Chunk F) (embedding : List F) : Value :=
  .object (Map.ofEntries [
    ("id", .string (uuidFor sha256 c.id)),
    ("vector", .array (embedding.map floatJson)),
    ("payload", .object (Map.ofEntries [
      ("chunk_id", .string c.id),
      ("document_id", .string c.documentId),
      ("ordinal", Value.ofInt c.ordinal),
      ("text", .string c.text),
      ("title", .string c.title),
      ("uri", .string c.uri),
      ("breadcrumbs", .array (c.breadcrumbs.map .string))]))])

/-- A chunk without a vector. -/
def missingEmbedding (id : ChunkId) : StoreError :=
  .backend ("chunk " ++ id ++ " missing embedding")

/-- A chunk with a vector of `n` entries. -/
def wrongDim (id : ChunkId) (n dim : Nat) : StoreError :=
  .backend ("chunk " ++ id ++ " embedding dim " ++ toString n
    ++ " != configured " ++ toString dim)

/-- The check of a chunk, and its point. -/
def checkedPoint (dim : Nat) (c : Chunk F) : Except StoreError Value :=
  match c.embedding with
  | none => .error (missingEmbedding c.id)
  | some embedding =>
      if embedding.length ≠ dim then
        .error (wrongDim c.id embedding.length dim)
      else .ok (point sha256 floatJson c embedding)

/-- The points of a group. -/
def points (dim : Nat) : List (Chunk F) → Except StoreError (List Value)
  | [] => .ok []
  | c :: cs =>
      match checkedPoint sha256 floatJson dim c with
      | .error e => .error e
      | .ok p => (points dim cs).map (p :: ·)

-- ============================================================== requests

/-- A `PUT` of points. -/
structure PutRequest where
  url : String
  body : Value

/-- What comes of it: no reply, a status that is no success, or one. -/
inductive PutReply where
  | unsent (reason : String)
  | refused (text : String)
  | accepted

namespace QdrantStore

/-- `QdrantStore::new`. -/
def new (baseUrl : String) (embeddingDim : Nat) : QdrantStore where
  baseUrl := String.ofList (baseUrl.toList.rdropWhile (· == '/'))
  embeddingDim := embeddingDim
  documents := .empty

/-- `QdrantStore::upsert_url`. -/
def upsertUrl (q : QdrantStore) (domain : Domain) : String :=
  q.baseUrl ++ "/collections/" ++ domain.collection ++ "/points?wait=true"

/-- The request that puts these points. -/
def putRequest (q : QdrantStore) (domain : Domain) (ps : List Value) :
    PutRequest where
  url := q.upsertUrl domain
  body := .object (Map.ofEntries [("points", .array ps)])

/-- The loop of `upsert` over the groups, from request `n`: its result,
and the requests it makes. -/
def putGroups (q : QdrantStore) (service : Nat → PutRequest → PutReply) :
    Nat → List (Domain × List (Chunk F)) →
      Except StoreError Unit × List PutRequest
  | _, [] => (.ok (), [])
  | n, (domain, chunks) :: rest =>
      match points sha256 floatJson q.embeddingDim chunks with
      | .error e => (.error e, [])
      | .ok ps =>
          let request := q.putRequest domain ps
          match service n request with
          | .unsent reason => (.error (.backend ("qdrant http: " ++ reason)),
              [request])
          | .refused text => (.error (.backend ("upsert "
              ++ domain.collection ++ ": " ++ text)), [request])
          | .accepted =>
              let after := putGroups q service (n + 1) rest
              (after.1, request :: after.2)

/-- What `upsert` comes to. -/
structure Upserted where
  result : Except StoreError Unit
  store : QdrantStore
  sent : List PutRequest

/-- `QdrantStore::upsert`. -/
def upsert (q : QdrantStore) (service : Nat → PutRequest → PutReply)
    (batch : UpsertBatch F) (order : GroupOrder batch.chunks) : Upserted :=
  let stashed := { q with
    documents := q.documents.putAll Document.id batch.documents }
  let out := putGroups sha256 floatJson stashed service 0 order.groups
  ⟨out.1, stashed, out.2⟩

/-- `QdrantStore::get_document`. -/
def getDocument (q : QdrantStore) (id : DocumentId) : Option Document :=
  q.documents id

end QdrantStore

end SapAutomate.Kb
