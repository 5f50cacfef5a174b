/-
What the in-memory store holds after any sequence of upserts.

Under an id the chunks upserted are offered in turn, and one whose text
has the hash of the one held is skipped (`Indexed.insertChunks`). So the
text held is that of the last upsert, and the rest of the chunk is that
of the first upsert since the text last changed.
-/
import Mathlib.Data.Set.Function
import SapAutomate.Kb.Store

namespace SapAutomate.Kb

variable {F : Type} {contentHash : String → String}

/-- A call that puts something into the store. -/
inductive KbOp (F : Type) where
  | document (doc : Document)
  | chunk (chunk : Chunk F)
  | upsert (batch : UpsertBatch F)

namespace KbOp

/-- The store after the call. -/
def apply (contentHash : String → String) (kb : InMemoryKb F) :
    KbOp F → InMemoryKb F
  | document doc => kb.insertDocument doc
  | chunk c => kb.insertChunk contentHash c
  | upsert batch => kb.upsert contentHash batch

/-- The chunks of the call. -/
def chunks : KbOp F → List (Chunk F)
  | document _ => []
  | chunk c => [c]
  | upsert batch => batch.chunks

end KbOp

/-- The chunks of the calls with this id, in turn. -/
def upserted (ops : List (KbOp F)) (id : ChunkId) : List (Chunk F) :=
  (ops.flatMap KbOp.chunks).filter fun c => c.id = id

/-- A call offers its chunks. -/
theorem Indexed.apply {kb : InMemoryKb F} (h : kb.Indexed contentHash)
    (op : KbOp F) :
    (op.apply contentHash kb).Indexed contentHash
    ∧ ∀ id, (op.apply contentHash kb).chunks id
      = (op.chunks.filter fun c => c.id = id).foldl
        (Table.keepFirst fun c => contentHash c.text) (kb.chunks id) := by
  cases op with
  | document doc => exact ⟨h, fun _ => rfl⟩
  | chunk c => exact h.insertChunks [c]
  | upsert batch =>
      obtain ⟨hchunks, hhashes⟩ :=
        InMemoryKb.insertDocuments_chunks batch.documents kb
      have hdocs : (batch.documents.foldl InMemoryKb.insertDocument
          kb).Indexed contentHash := by
        intro id
        rw [hchunks, hhashes]
        exact h id
      have hall := hdocs.insertChunks batch.chunks
      rw [hchunks] at hall
      exact hall

/-- So does a run of calls. -/
theorem run_chunks (ops : List (KbOp F)) {kb : InMemoryKb F}
    (h : kb.Indexed contentHash) (id : ChunkId) :
    (ops.foldl (KbOp.apply contentHash) kb).chunks id
      = (upserted ops id).foldl
        (Table.keepFirst fun c => contentHash c.text) (kb.chunks id) := by
  induction ops generalizing kb with
  | nil => rfl
  | cons op ops ih =>
      obtain ⟨hindexed, hheld⟩ := Indexed.apply h op
      rw [List.foldl_cons, ih hindexed, hheld]
      unfold upserted
      rw [List.flatMap_cons, List.filter_append, List.foldl_append]

/-- Where no two of the texts have the same hash, the chunk held under an
id is the first upserted since the text last changed; its text is that of
the last upsert. -/
theorem held_firstOfText (contentHash : String → String)
    (ops : List (KbOp F)) (id : ChunkId)
    (hfree : Set.InjOn contentHash
      {text | ∃ c ∈ ops.flatMap KbOp.chunks, c.text = text})
    (hid : upserted ops id ≠ []) :
    ∃ pre c run, upserted ops id = pre ++ c :: run
      ∧ (∀ d ∈ run, d.text = c.text)
      ∧ (∀ d, pre.getLast? = some d → d.text ≠ c.text)
      ∧ (ops.foldl (KbOp.apply contentHash) .new).chunks id = some c
      ∧ (upserted ops id).getLast?.map Chunk.text = some c.text := by
  have htext : ∀ d ∈ upserted ops id,
      ∃ c ∈ ops.flatMap KbOp.chunks, c.text = d.text := by
    intro d hd
    exact ⟨d, (List.mem_filter.mp hd).1, rfl⟩
  obtain ⟨pre, c, run, heq, hrun, hpre, hheld⟩ :=
    Table.keepFirst_spec (fun c : Chunk F => contentHash c.text) hid
  have hc : c ∈ upserted ops id := by simp [heq]
  have hsame : ∀ d ∈ run, d.text = c.text := by
    intro d hd
    exact hfree (htext d (by simp [heq, hd])) (htext c hc) (hrun d hd)
  refine ⟨pre, c, run, heq, hsame, ?_, ?_, ?_⟩
  · intro d hd htexts
    exact hpre d hd (congrArg contentHash htexts)
  · rw [run_chunks ops (InMemoryKb.indexed_new contentHash)]
    exact hheld
  · rw [heq, List.getLast?_append, List.getLast?_cons, Option.some_or,
      Option.map_some]
    cases hlast : run.getLast? with
    | none => rfl
    | some d =>
        rw [Option.getD_some, hsame d (List.mem_of_getLast? hlast)]

/-- A chunk of one text under a title. -/
def titled (title text : String) : Chunk Unit where
  id := "sap_help:a#chunk-0"
  documentId := "sap_help:a"
  domain := .sapHelp
  ordinal := 0
  text := text
  embedding := none
  breadcrumbs := []
  title := title
  uri := "u"

/-- A chunk upserted again under a new title keeps the old one: what is
held is not always the last chunk upserted. -/
theorem retitled_skipped :
    ¬ ∀ contentHash : String → String, Function.Injective contentHash →
      ∀ (ops : List (KbOp Unit)) (id : ChunkId) (c : Chunk Unit),
        (upserted ops id).getLast? = some c →
        (ops.foldl (KbOp.apply contentHash) .new).chunks id = some c := by
  intro h
  have hheld := h id Function.injective_id
    [.chunk (titled "A" "t"), .chunk (titled "B" "t")] "sap_help:a#chunk-0"
    (titled "B" "t") (by decide)
  have hfirst : ([.chunk (titled "A" "t"), .chunk (titled "B" "t")].foldl
      (KbOp.apply id) .new).chunks "sap_help:a#chunk-0"
      = some (titled "A" "t") := by
    rw [run_chunks _ (InMemoryKb.indexed_new id)]
    decide
  rw [hfirst] at hheld
  exact absurd (congrArg (Option.map Chunk.title) hheld) (by decide)

/-- A chunk upserted with one text, then with another. -/
theorem rewritten_held :
    ∃ pre c run, upserted [.chunk (titled "A" "s"), .chunk (titled "B" "t")]
        "sap_help:a#chunk-0" = pre ++ c :: run
      ∧ (∀ d ∈ run, d.text = c.text)
      ∧ (∀ d, pre.getLast? = some d → d.text ≠ c.text)
      ∧ ([.chunk (titled "A" "s"), .chunk (titled "B" "t")].foldl
          (KbOp.apply id) .new).chunks "sap_help:a#chunk-0" = some c
      ∧ (upserted [.chunk (titled "A" "s"), .chunk (titled "B" "t")]
          "sap_help:a#chunk-0").getLast?.map Chunk.text = some c.text :=
  held_firstOfText id _ _ Function.injective_id.injOn (by decide)

end SapAutomate.Kb
