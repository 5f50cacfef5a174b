/-
The ingestion pipeline (`sap-automate-ingest/src/pipeline.rs`) over the
in-memory store: a document after the other is chunked, its chunks are
embedded in batches, and both are upserted.

`ingestDocument` is one turn of the loop. The number of the next call of
the embedding client goes along with the store.
-/
import SapAutomate.Ingest.Chunker
import SapAutomate.Ingest.Embed
import SapAutomate.Kb.Store

namespace SapAutomate.Ingest

open Kb

variable {F : Type}

-- =============================================================== batches

/-- `slice::chunks(size + 1)`. -/
def batches {α : Type} (size : Nat) : List α → List (List α)
  | [] => []
  | x :: xs => (x :: xs.take size) :: batches size (xs.drop size)
termination_by xs => xs.length
decreasing_by
  simp only [List.length_cons, List.length_drop]
  omega

theorem flatten_batches {α : Type} (size : Nat) (xs : List α) :
    (batches size xs).flatten = xs := by
  fun_induction batches size xs with
  | case1 => rfl
  | case2 x xs ih =>
      rw [List.flatten_cons, ih, List.cons_append, List.take_append_drop]

/-- A chunk with its vector. -/
def embedded (c : Chunk F) (vec : List F) : Chunk F :=
  { c with embedding := some vec }

/-- `batch.iter().cloned().zip(vectors)`: what is left over on either
side is left out. -/
def pairUp (batch : List (Chunk F)) (vectors : List (List F)) :
    List (Chunk F) :=
  List.zipWith embedded batch vectors

/-- A text a call is made with. -/
def texts (batch : List (Chunk F)) : List String := batch.map Chunk.text

/-- The embedding loop over the batches of a document, from call `n`. -/
def embedBatches (client : EmbeddingClient F) :
    Nat → List (List (Chunk F)) → Except EmbeddingError (List (Chunk F)) × Nat
  | n, [] => (.ok [], n)
  | n, batch :: rest =>
      match client n (texts batch) with
      | .error e => (.error e, n + 1)
      | .ok vectors =>
          let after := embedBatches client (n + 1) rest
          (after.1.map (pairUp batch vectors ++ ·), after.2)

-- ============================================================== pipeline

/-- `PipelineError`. -/
inductive PipelineError where
  | embedding (e : EmbeddingError)

/-- `IngestionReport`. -/
structure IngestionReport where
  documents : Nat
  chunks : Nat
  deriving DecidableEq

/-- `IngestionPipeline`, without its client and its store. -/
structure Pipeline where
  chunker : ChunkerConfig
  batchSize : Nat

/-- `IngestionPipeline::new`. -/
def Pipeline.default : Pipeline := ⟨.default, 32⟩

/-- The store, and the number of the client's next call. -/
structure IngestState (F : Type) where
  kb : InMemoryKb F
  calls : Nat

/-- How a call of `ingest`, or a turn of its loop, ends. -/
inductive IngestEnd where
  | ok (report : IngestionReport)
  | error (e : PipelineError)
  | panicked

variable (contentHash : String → String) (client : EmbeddingClient F)
  (pipeline : Pipeline)

/-- The embedding and the upsert of a document's chunks. A batch size of
zero is a panic of `slice::chunks`. -/
def storeDocument (doc : Document) (cs : List (Chunk F))
    (report : IngestionReport) (s : IngestState F) :
    IngestEnd × IngestState F :=
  match pipeline.batchSize with
  | 0 => (.panicked, s)
  | size + 1 =>
      let out := embedBatches client s.calls (batches size cs)
      match out.1 with
      | .error e => (.error (.embedding e), { s with calls := out.2 })
      | .ok es => (.ok ⟨report.documents + 1, report.chunks + cs.length⟩,
          ⟨s.kb.upsert contentHash ⟨[doc], es⟩, out.2⟩)

/-- One turn of the loop of `ingest`. -/
def ingestDocument (doc : Document) (report : IngestionReport)
    (s : IngestState F) : IngestEnd × IngestState F :=
  match chunkDocument doc pipeline.chunker with
  | none => (.panicked, s)
  | some [] => (.ok report, s)
  | some (c :: cs) => storeDocument contentHash client pipeline doc (c :: cs)
      report s

/-- The loop of `ingest`. -/
def ingestFrom (report : IngestionReport) :
    List Document → IngestState F → IngestEnd × IngestState F
  | [], s => (.ok report, s)
  | doc :: docs, s =>
      let turn := ingestDocument contentHash client pipeline doc report s
      match turn.1 with
      | .ok report => ingestFrom report docs turn.2
      | stopped => (stopped, turn.2)

/-- `IngestionPipeline::ingest`. -/
def ingest (docs : List Document) (s : IngestState F) :
    IngestEnd × IngestState F :=
  ingestFrom contentHash client pipeline ⟨0, 0⟩ docs s

end SapAutomate.Ingest
