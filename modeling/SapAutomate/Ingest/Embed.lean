/-
Embedding clients (`sap-automate-ingest/src/embed.rs`): what a pipeline
asks of one, and the client of an OpenAI-compatible endpoint, which makes
vectors of the endpoint's replies.

A client may answer each of its calls differently; the calls are numbered.
-/
import Mathlib.Logic.Function.Basic

namespace SapAutomate.Ingest

/-- `EmbeddingError`. -/
inductive EmbeddingError where
  | http (reason : String)
  | api (reason : String)
  | malformed (reason : String)
  deriving DecidableEq

/-- `EmbeddingClient::embed`: the answer to the call of this number, with
these texts. -/
abbrev EmbeddingClient (F : Type) :=
  Nat → List String → Except EmbeddingError (List (List F))

/-- `EmbedRequest`. -/
structure EmbedRequest where
  input : List String
  model : String

/-- `EmbedDatum`. -/
structure EmbedDatum (F : Type) where
  embedding : List F
  index : Nat

/-- What comes of a request: no reply, a status that is no success, or a
body, which is an `EmbedResponse` or an error of `serde`'s. -/
inductive EmbedReply (F : Type) where
  | unsent (reason : String)
  | refused (text : String)
  | body (parsed : Except String (List (EmbedDatum F)))

/-- `OpenAiEmbedder`, as far as it makes requests and reads replies. -/
structure OpenAiEmbedder where
  model : String
  dim : Nat

namespace OpenAiEmbedder

variable {F : Type}

/-- The request for these texts. -/
def request (e : OpenAiEmbedder) (texts : List String) : EmbedRequest :=
  ⟨texts, e.model⟩

/-- What `embed` makes of a reply: the vectors as they are listed, if all
of them have the dimension. -/
def read (e : OpenAiEmbedder) :
    EmbedReply F → Except EmbeddingError (List (List F))
  | .unsent reason => .error (.http reason)
  | .refused text => .error (.api text)
  | .body (.error reason) => .error (.malformed reason)
  | .body (.ok data) =>
      match data.find? fun d => d.embedding.length != e.dim with
      | some d => .error (.malformed ("expected dim " ++ toString e.dim
          ++ ", got " ++ toString d.embedding.length))
      | none => .ok (data.map EmbedDatum.embedding)

/-- `OpenAiEmbedder::embed`, over a service that answers its requests. -/
def embed (e : OpenAiEmbedder) (service : Nat → EmbedRequest → EmbedReply F) :
    EmbeddingClient F :=
  fun n texts => e.read (service n (e.request texts))

end OpenAiEmbedder

end SapAutomate.Ingest
