/-
What a document's chunks are in the store once it has been ingested
again.

The chunks that get a vector are offered to the store under their own
ids (`turn_chunks`), and nothing is taken out. So the store has just the
chunks of the last version where it had none past their number, and each
of them is there, by this version or by an earlier one (`Fits`).
-/
import SapAutomate.Ingest.Pipeline

namespace SapAutomate.Ingest

open Kb

variable {F : Type} {contentHash : String → String}
  {client : EmbeddingClient F} {pipeline : Pipeline}

-- =============================================================== vectors

theorem pairUp_ids (batch : List (Chunk F)) (vectors : List (List F)) :
    ((pairUp batch vectors).map Chunk.id).Sublist (batch.map Chunk.id) := by
  induction batch generalizing vectors with
  | nil => exact List.Sublist.refl _
  | cons c batch ih =>
      cases vectors with
      | nil => exact List.nil_sublist _
      | cons v vectors => exact (ih vectors).cons_cons _

theorem mem_pairUp {batch : List (Chunk F)} {vectors : List (List F)}
    {e : Chunk F} (he : e ∈ pairUp batch vectors) :
    ∃ c ∈ batch, ∃ v, e = embedded c v := by
  induction batch generalizing vectors with
  | nil => cases he
  | cons c batch ih =>
      cases vectors with
      | nil => cases he
      | cons v vectors =>
          rcases List.mem_cons.mp he with rfl | he
          · exact ⟨c, List.mem_cons_self .., v, rfl⟩
          · obtain ⟨c', hc', hv⟩ := ih he
            exact ⟨c', List.mem_cons_of_mem _ hc', hv⟩

/-- What the batches of a document give: some of its chunks, in order,
each with a vector. -/
theorem embedBatches_ok {bs : List (List (Chunk F))} {n : Nat}
    {es : List (Chunk F)} (h : (embedBatches client n bs).1 = .ok es) :
    (es.map Chunk.id).Sublist (bs.flatten.map Chunk.id)
    ∧ ∀ e ∈ es, ∃ c ∈ bs.flatten, ∃ v, e = embedded c v := by
  induction bs generalizing n es with
  | nil =>
      rw [← Except.ok.inj h]
      exact ⟨List.Sublist.refl _, fun e he => nomatch he⟩
  | cons batch rest ih =>
      unfold embedBatches at h
      cases hanswer : client n (texts batch) with
      | error e =>
          rw [hanswer] at h
          cases h
      | ok vectors =>
          rw [hanswer] at h
          have h : ((embedBatches client (n + 1) rest).1.map
              (pairUp batch vectors ++ ·)) = .ok es := h
          cases hrest : (embedBatches client (n + 1) rest).1 with
          | error e =>
              rw [hrest] at h
              cases h
          | ok es' =>
              rw [hrest] at h
              rw [← Except.ok.inj h, List.flatten_cons]
              obtain ⟨hsub, hmem⟩ := ih hrest
              constructor
              · rw [List.map_append, List.map_append]
                exact (pairUp_ids batch vectors).append hsub
              · intro e he
                rcases List.mem_append.mp he with he | he
                · obtain ⟨c, hc, hv⟩ := mem_pairUp he
                  exact ⟨c, List.mem_append_left _ hc, hv⟩
                · obtain ⟨c, hc, hv⟩ := hmem e he
                  exact ⟨c, List.mem_append_right _ hc, hv⟩

/-- The chunks of a document that get a vector. -/
def vectored (client : EmbeddingClient F) (pipeline : Pipeline)
    (s : IngestState F) (cs : List (Chunk F)) : List (Chunk F) :=
  match pipeline.batchSize with
  | 0 => []
  | size + 1 =>
      match (embedBatches client s.calls (batches size cs)).1 with
      | .ok es => es
      | .error _ => []

theorem vectored_spec (s : IngestState F) (cs : List (Chunk F)) :
    ((vectored client pipeline s cs).map Chunk.id).Sublist (cs.map Chunk.id)
    ∧ ∀ e ∈ vectored client pipeline s cs, ∃ c ∈ cs, ∃ v,
      e = embedded c v := by
  unfold vectored
  cases hsize : pipeline.batchSize with
  | zero => exact ⟨List.nil_sublist _, fun e he => nomatch he⟩
  | succ size =>
      simp only
      cases hout : (embedBatches client s.calls (batches size cs)).1 with
      | error e => exact ⟨List.nil_sublist _, fun e he => nomatch he⟩
      | ok es =>
          have hok := embedBatches_ok hout
          rw [flatten_batches] at hok
          exact hok

-- ================================================================= turns

/-- The store is indexed, and has chunks under the ids of their documents
and their numbers. -/
structure Sorted (contentHash : String → String) (kb : InMemoryKb F) :
    Prop where
  indexed : kb.Indexed contentHash
  owned : ∀ id c, kb.chunks id = some c → ∃ i, id = chunkId c.documentId i

theorem sorted_new : Sorted contentHash (.new : InMemoryKb F) where
  indexed := InMemoryKb.indexed_new contentHash
  owned := by
    intro id c h
    cases h

/-- What a turn does to the store: nothing, or it upserts the document
with those of its chunks that get a vector. -/
theorem turn_kb (contentHash : String → String) (client : EmbeddingClient F)
    (pipeline : Pipeline) (doc : Document) (report : IngestionReport)
    (s : IngestState F) :
    ((ingestDocument contentHash client pipeline doc report s).2.kb = s.kb
        ∧ ∀ report', (ingestDocument contentHash client pipeline doc report
          s).1 = .ok report' → chunkDocument (F := F) doc pipeline.chunker
            = some [])
    ∨ ∃ cs, chunkDocument doc pipeline.chunker = some cs
      ∧ (ingestDocument contentHash client pipeline doc report s).2.kb
        = s.kb.upsert contentHash ⟨[doc], vectored client pipeline s cs⟩ := by
  unfold ingestDocument
  cases hchunks : chunkDocument (F := F) doc pipeline.chunker with
  | none => exact .inl ⟨rfl, fun report' h => nomatch h⟩
  | some cs =>
      cases cs with
      | nil => exact .inl ⟨rfl, fun _ _ => rfl⟩
      | cons c cs =>
          unfold storeDocument vectored
          cases hsize : pipeline.batchSize with
          | zero =>
              refine .inl ⟨?_, fun report' h => ?_⟩
              · rfl
              · simp only at h
                cases h
          | succ size =>
              simp only
              cases hout : (embedBatches client s.calls
                  (batches size (c :: cs))).1 with
              | error e =>
                  refine .inl ⟨?_, fun report' h => ?_⟩
                  · rfl
                  · cases h
              | ok es =>
                  refine .inr ⟨c :: cs, rfl, ?_⟩
                  simp only [hout]

/-- An upsert offers its chunks. -/
theorem upsert_chunks {kb : InMemoryKb F} (h : kb.Indexed contentHash)
    (docs : List Document) (es : List (Chunk F)) :
    (kb.upsert contentHash ⟨docs, es⟩).Indexed contentHash
    ∧ ∀ id, (kb.upsert contentHash ⟨docs, es⟩).chunks id
      = (es.filter fun c => c.id = id).foldl
        (Table.keepFirst fun c => contentHash c.text) (kb.chunks id) := by
  obtain ⟨hch, hha⟩ := InMemoryKb.insertDocuments_chunks docs kb
  have hdocs : (docs.foldl InMemoryKb.insertDocument kb).Indexed
      contentHash := by
    intro id
    rw [hch, hha]
    exact h id
  have hall := hdocs.insertChunks es
  rw [hch] at hall
  exact hall

/-- What a turn that ends well has done to the chunks. -/
theorem turn_chunks {doc : Document} {report report' : IngestionReport}
    {s s' : IngestState F} (hs : s.kb.Indexed contentHash)
    (h : ingestDocument contentHash client pipeline doc report s
      = (.ok report', s')) :
    ∃ cs, chunkDocument doc pipeline.chunker = some cs
      ∧ ∀ id, s'.kb.chunks id
        = ((vectored client pipeline s cs).filter fun c => c.id = id).foldl
          (Table.keepFirst fun c => contentHash c.text) (s.kb.chunks id) := by
  have hturn := turn_kb contentHash client pipeline doc report s
  rw [h] at hturn
  rcases hturn with ⟨hkb, hnone⟩ | ⟨cs, hcs, hkb⟩
  · have hsub := (@vectored_spec F client pipeline s []).1
    have hempty : vectored client pipeline s [] = [] :=
      List.map_eq_nil_iff.mp (List.sublist_nil.mp hsub)
    refine ⟨[], hnone report' rfl, fun id => ?_⟩
    have hkb : s'.kb = s.kb := hkb
    rw [hempty, hkb]
    rfl
  · refine ⟨cs, hcs, fun id => ?_⟩
    have hkb : s'.kb = _ := hkb
    rw [hkb]
    exact (upsert_chunks hs [doc] _).2 id

/-- What gets a vector is a chunk of the document. -/
theorem vectored_id {doc : Document} {cs : List (Chunk F)}
    (hcs : chunkDocument doc pipeline.chunker = some cs) {s : IngestState F}
    {e : Chunk F} (he : e ∈ vectored client pipeline s cs) :
    ∃ i < cs.length, e.id = chunkId doc.id i ∧ e.documentId = doc.id
      ∧ ∃ c, cs[i]? = some c ∧ e.text = c.text := by
  obtain ⟨c, hc, v, rfl⟩ := (vectored_spec s cs).2 e he
  obtain ⟨i, hi⟩ := List.mem_iff_getElem?.mp hc
  obtain ⟨hid, hdoc⟩ := chunkDocument_get hcs hi
  exact ⟨i, (List.getElem?_eq_some_iff.mp hi).1, hid, hdoc, c, hi, rfl⟩

/-- A turn keeps the store sorted. -/
theorem Sorted.turn (client : EmbeddingClient F) (pipeline : Pipeline)
    (doc : Document) (report : IngestionReport) {s : IngestState F} (hs : Sorted contentHash s.kb) :
    Sorted contentHash
      (ingestDocument contentHash client pipeline doc report s).2.kb := by
  rcases turn_kb contentHash client pipeline doc report s with ⟨hkb, -⟩
    | ⟨cs, hcs, hkb⟩
  · rw [hkb]
    exact hs
  · rw [hkb]
    obtain ⟨hindexed, hchunks⟩ := upsert_chunks hs.indexed [doc]
      (vectored client pipeline s cs)
    refine ⟨hindexed, fun id c hc => ?_⟩
    rw [hchunks] at hc
    rcases Table.keepFirst_mem hc with hold | hnew
    · exact hs.owned id c hold
    · obtain ⟨he, hid⟩ := List.mem_filter.mp hnew
      obtain ⟨i, -, heid, hdoc, -⟩ := vectored_id hcs he
      have hid : c.id = id := by simpa using hid
      exact ⟨i, by rw [← hid, heid, hdoc]⟩

/-- A turn leaves the chunks of other documents as they were. -/
theorem turn_frame (client : EmbeddingClient F) (pipeline : Pipeline)
    (doc : Document) (report : IngestionReport) {s : IngestState F} (hs : Sorted contentHash s.kb) {d : DocumentId}
    (hd : doc.id ≠ d) (i : Nat) :
    (ingestDocument contentHash client pipeline doc report s).2.kb.chunks
      (chunkId d i) = s.kb.chunks (chunkId d i) := by
  rcases turn_kb contentHash client pipeline doc report s with ⟨hkb, -⟩
    | ⟨cs, hcs, hkb⟩
  · rw [hkb]
  · rw [hkb, (upsert_chunks hs.indexed [doc] _).2]
    have hnone : (vectored client pipeline s cs).filter
        (fun c => c.id = chunkId d i) = [] := by
      rw [List.filter_eq_nil_iff]
      intro e he hid
      obtain ⟨j, -, heid, -⟩ := vectored_id hcs he
      have hid : e.id = chunkId d i := by simpa using hid
      exact hd (chunkId_inj.mp (heid.symm.trans hid)).1
    rw [hnone]
    rfl

-- ================================================================== runs

theorem ingestFrom_cons (doc : Document) (docs : List Document)
    (report : IngestionReport) (s : IngestState F) :
    ingestFrom contentHash client pipeline report (doc :: docs) s
      = match (ingestDocument contentHash client pipeline doc report s).1 with
        | .ok report' => ingestFrom contentHash client pipeline report' docs
            (ingestDocument contentHash client pipeline doc report s).2
        | .error e => (.error e,
            (ingestDocument contentHash client pipeline doc report s).2)
        | .panicked => (.panicked,
            (ingestDocument contentHash client pipeline doc report s).2) := by
  rw [ingestFrom]
  cases (ingestDocument contentHash client pipeline doc report s).1 <;> rfl

/-- A call keeps the store sorted, however it ends. -/
theorem Sorted.from (client : EmbeddingClient F) (pipeline : Pipeline)
    (docs : List Document) (report : IngestionReport) {s : IngestState F} (hs : Sorted contentHash s.kb) :
    Sorted contentHash
      (ingestFrom contentHash client pipeline report docs s).2.kb := by
  induction docs generalizing report s with
  | nil => exact hs
  | cons doc docs ih =>
      have hturn := hs.turn client pipeline doc report
      rw [ingestFrom_cons]
      cases (ingestDocument contentHash client pipeline doc report s).1 with
      | ok report' => exact ih report' hturn
      | error e => exact hturn
      | panicked => exact hturn

/-- And leaves the chunks of other documents. -/
theorem from_frame (client : EmbeddingClient F) (pipeline : Pipeline)
    (docs : List Document) (report : IngestionReport) {s : IngestState F} (hs : Sorted contentHash s.kb) {d : DocumentId}
    (hd : ∀ doc ∈ docs, doc.id ≠ d) (i : Nat) :
    (ingestFrom contentHash client pipeline report docs s).2.kb.chunks
      (chunkId d i) = s.kb.chunks (chunkId d i) := by
  induction docs generalizing report s with
  | nil => rfl
  | cons doc docs ih =>
      have hturn := turn_frame client pipeline doc report hs (hd doc (List.mem_cons_self ..)) i
      have hsorted := hs.turn client pipeline doc report
      rw [ingestFrom_cons]
      cases (ingestDocument contentHash client pipeline doc report s).1 with
      | ok report' =>
          exact (ih report' hsorted fun doc' hdoc' =>
            hd doc' (List.mem_cons_of_mem _ hdoc')).trans hturn
      | error e => exact hturn
      | panicked => exact hturn

/-- A call that ends well, cut at one of its documents. -/
theorem from_append {pre post : List Document} {doc : Document}
    {report report' : IngestionReport} {s s' : IngestState F}
    (h : ingestFrom contentHash client pipeline report (pre ++ doc :: post) s
      = (.ok report', s')) :
    ∃ r₁ s₁ r₂ s₂,
      ingestFrom contentHash client pipeline report pre s = (.ok r₁, s₁)
      ∧ ingestDocument contentHash client pipeline doc r₁ s₁ = (.ok r₂, s₂)
      ∧ ingestFrom contentHash client pipeline r₂ post s₂
        = (.ok report', s') := by
  induction pre generalizing report s with
  | nil =>
      rw [List.nil_append, ingestFrom_cons] at h
      cases hturn : ingestDocument contentHash client pipeline doc report s with
      | mk turn s₂ =>
          rw [hturn] at h
          cases turn with
          | ok r₂ => exact ⟨report, s, r₂, s₂, rfl, hturn, h⟩
          | error e => cases h
          | panicked => cases h
  | cons doc' pre ih =>
      rw [List.cons_append, ingestFrom_cons] at h
      cases hturn : ingestDocument contentHash client pipeline doc' report
          s with
      | mk turn t =>
          rw [hturn] at h
          cases turn with
          | error e => cases h
          | panicked => cases h
          | ok r =>
              obtain ⟨r₁, s₁, r₂, s₂, hpre, hrest⟩ := ih h
              refine ⟨r₁, s₁, r₂, s₂, ?_, hrest⟩
              rw [ingestFrom_cons, hturn]
              exact hpre

/-- Calls of `ingest`, each with a pipeline of its own, over one store. -/
def ingestCalls (contentHash : String → String) (client : EmbeddingClient F)
    (calls : List (Pipeline × List Document)) : IngestState F :=
  calls.foldl (fun s call => (ingest contentHash client call.1 call.2 s).2)
    ⟨.new, 0⟩

theorem sorted_calls (contentHash : String → String)
    (client : EmbeddingClient F) (calls : List (Pipeline × List Document)) :
    Sorted contentHash (ingestCalls contentHash client calls).kb := by
  induction calls using List.reverseRecOn with
  | nil => exact sorted_new
  | append_singleton calls call ih =>
      unfold ingestCalls
      rw [List.foldl_append]
      exact ih.from client call.1 call.2 ⟨0, 0⟩

-- ============================================================ the chunks

/-- The chunks with this document id are these, by id and text. -/
def Exact (kb : InMemoryKb F) (document : DocumentId) (cs : List (Chunk F)) :
    Prop :=
  ∀ id text, (∃ c, kb.chunks id = some c ∧ c.documentId = document
      ∧ c.text = text)
    ↔ ∃ c ∈ cs, c.id = id ∧ c.text = text

/-- The store as the pipeline comes to a version of a document with these
chunks, of which `es` get a vector: it has no chunk of the document past
their number, and each of them it has with the same text, or with no text
of the same hash where the chunk gets a vector. -/
def Fits (contentHash : String → String) (kb : InMemoryKb F)
    (document : DocumentId) (cs es : List (Chunk F)) : Prop :=
  (∀ i, cs.length ≤ i → kb.chunks (chunkId document i) = none)
  ∧ ∀ c ∈ cs, (kb.chunks c.id).map Chunk.text = some c.text
    ∨ (∃ e ∈ es, e.id = c.id)
      ∧ ∀ h, kb.chunks c.id = some h →
        contentHash h.text ≠ contentHash c.text

/-- No two chunks of a document have the same id. -/
theorem chunkDocument_nodup {doc : Document} {cfg : ChunkerConfig}
    {cs : List (Chunk F)} (h : chunkDocument doc cfg = some cs) :
    (cs.map Chunk.id).Nodup := by
  rw [List.Nodup, List.pairwise_map, List.pairwise_iff_getElem]
  intro i j hi hj hij hids
  have hidi := (chunkDocument_get h (List.getElem?_eq_getElem hi)).1
  have hidj := (chunkDocument_get h (List.getElem?_eq_getElem hj)).1
  have := (chunkId_inj.mp (hidi.symm.trans (hids.trans hidj))).2
  omega

/-- Where the ids are distinct, at most one element has one of them. -/
theorem filter_id {es : List (Chunk F)} (hnd : (es.map Chunk.id).Nodup)
    (id : ChunkId) : es.filter (fun c => c.id = id) = []
      ∨ ∃ e ∈ es, e.id = id ∧ es.filter (fun c => c.id = id) = [e] := by
  induction es with
  | nil => exact .inl rfl
  | cons e es ih =>
      rw [List.map_cons, List.nodup_cons] at hnd
      by_cases hid : e.id = id
      · have hrest : es.filter (fun c => c.id = id) = [] := by
          rw [List.filter_eq_nil_iff]
          intro c hc hcid
          have hcid : c.id = id := by simpa using hcid
          exact hnd.1 (List.mem_map.mpr ⟨c, hc, hcid.trans hid.symm⟩)
        refine .inr ⟨e, List.mem_cons_self .., hid, ?_⟩
        rw [List.filter_cons_of_pos (by simpa using hid), hrest]
      · rw [List.filter_cons_of_neg (by simpa using hid)]
        rcases ih hnd.2 with hnone | ⟨e', he', hrest⟩
        · exact .inl hnone
        · exact .inr ⟨e', List.mem_cons_of_mem _ he', hrest⟩

section Last

variable {doc : Document} {cs : List (Chunk F)} {s s' : IngestState F}
  (hcs : chunkDocument doc pipeline.chunker = some cs)
  (hafter : ∀ id, s'.kb.chunks id
    = ((vectored client pipeline s cs).filter fun c => c.id = id).foldl
      (Table.keepFirst fun c => contentHash c.text) (s.kb.chunks id))

include hcs hafter

/-- Past its chunks, a turn changes nothing of a document. -/
theorem past_chunks {i : Nat} (hi : cs.length ≤ i) :
    s'.kb.chunks (chunkId doc.id i) = s.kb.chunks (chunkId doc.id i) := by
  have hnone : (vectored client pipeline s cs).filter
      (fun c => c.id = chunkId doc.id i) = [] := by
    rw [List.filter_eq_nil_iff]
    intro e he hid
    obtain ⟨j, hj, heid, -⟩ := vectored_id hcs he
    have hid : e.id = chunkId doc.id i := by simpa using hid
    have := (chunkId_inj.mp (heid.symm.trans hid)).2
    omega
  rw [hafter, hnone]
  rfl

/-- One of its chunks is there afterwards, by its text, where it fits. -/
theorem held_chunk {c : Chunk F} (hc : c ∈ cs) :
    (s'.kb.chunks c.id).map Chunk.text = some c.text
      ↔ (s.kb.chunks c.id).map Chunk.text = some c.text
        ∨ (∃ e ∈ vectored client pipeline s cs, e.id = c.id)
          ∧ ∀ h, s.kb.chunks c.id = some h →
            contentHash h.text ≠ contentHash c.text := by
  have hnd : ((vectored client pipeline s cs).map Chunk.id).Nodup :=
    (chunkDocument_nodup hcs).sublist (vectored_spec s cs).1
  rw [hafter]
  rcases filter_id hnd c.id with hnone | ⟨e, he, hid, hone⟩
  · -- no vector
    rw [hnone]
    constructor
    · exact .inl
    · intro h
      rcases h with h | ⟨⟨e, he, hid⟩, -⟩
      · exact h
      · have hmem : e ∈ (vectored client pipeline s cs).filter
            (fun c' => c'.id = c.id) :=
          List.mem_filter.mpr ⟨he, by simpa using hid⟩
        rw [hnone] at hmem
        cases hmem
  · -- a vector: the chunk is offered
    have htext : e.text = c.text := by
      obtain ⟨i, hi⟩ := List.mem_iff_getElem?.mp hc
      obtain ⟨j, -, heid, -, c', hc', hetext⟩ := vectored_id hcs he
      have hij : j = i := (chunkId_inj.mp (heid.symm.trans
        (hid.trans (chunkDocument_get hcs hi).1))).2
      rw [hij, hi, Option.some.injEq] at hc'
      rw [hetext, hc']
    rw [hone]
    show (Table.keepFirst _ (s.kb.chunks c.id) e).map Chunk.text = _ ↔ _
    cases hheld : s.kb.chunks c.id with
    | none =>
        refine iff_of_true (congrArg some htext) (.inr ⟨⟨e, he, hid⟩, ?_⟩)
        intro h hh
        cases hh
    | some h =>
        by_cases hsame : contentHash h.text = contentHash e.text
        · rw [Table.keepFirst, if_pos hsame]
          constructor
          · exact .inl
          · intro hor
            rcases hor with hor | ⟨-, hfree⟩
            · exact hor
            · exact absurd (htext ▸ hsame) (hfree h rfl)
        · rw [Table.keepFirst, if_neg hsame]
          refine iff_of_true (congrArg some htext) (.inr ⟨⟨e, he, hid⟩, ?_⟩)
          intro h' hh'
          rw [← Option.some.inj hh', ← htext]
          exact hsame

end Last

/-- After any calls, a call that ends well has left just the chunks of
the last version of a document in the store where they fit in there, as
the call came to that version. -/
theorem exact_iff_fits (contentHash : String → String)
    (client : EmbeddingClient F) (calls : List (Pipeline × List Document))
    (pipeline : Pipeline) (pre post : List Document) (last : Document)
    (hlast : ∀ doc ∈ post, doc.id ≠ last.id) {report : IngestionReport}
    {s' : IngestState F}
    (h : ingest contentHash client pipeline (pre ++ last :: post)
      (ingestCalls contentHash client calls) = (.ok report, s')) :
    ∃ cs, chunkDocument last pipeline.chunker = some cs
      ∧ (Exact s'.kb last.id cs ↔ Fits contentHash
        (ingest contentHash client pipeline pre
          (ingestCalls contentHash client calls)).2.kb last.id cs
        (vectored client pipeline (ingest contentHash client pipeline pre
          (ingestCalls contentHash client calls)).2 cs)) := by
  obtain ⟨r₁, s₁, r₂, s₂, hpre, hturn, hpost⟩ := from_append h
  have hs₁ : Sorted contentHash s₁.kb := by
    have hsorted := (sorted_calls contentHash client calls).from client
      pipeline pre ⟨0, 0⟩
    rw [hpre] at hsorted
    exact hsorted
  have hbefore : (ingest contentHash client pipeline pre
      (ingestCalls contentHash client calls)).2 = s₁ := by
    unfold ingest
    rw [hpre]
  rw [hbefore]
  obtain ⟨cs, hcs, hafter⟩ := turn_chunks hs₁.indexed hturn
  -- later documents do not matter
  have hs₂ : Sorted contentHash s₂.kb := by
    have hsorted := hs₁.turn client pipeline last r₁
    rw [hturn] at hsorted
    exact hsorted
  have hframe : ∀ i, s'.kb.chunks (chunkId last.id i)
      = s₂.kb.chunks (chunkId last.id i) := by
    intro i
    have hrest := from_frame client pipeline post r₂ hs₂ hlast i
    rw [hpost] at hrest
    exact hrest
  have hs' : Sorted contentHash s'.kb := by
    have hsorted := hs₂.from client pipeline post r₂
    rw [hpost] at hsorted
    exact hsorted
  have hid : ∀ c ∈ cs, ∃ i < cs.length, c.id = chunkId last.id i := by
    intro c hc
    obtain ⟨i, hi⟩ := List.mem_iff_getElem?.mp hc
    exact ⟨i, (List.getElem?_eq_some_iff.mp hi).1, (chunkDocument_get hcs hi).1⟩
  have hheld : ∀ c ∈ cs, (s'.kb.chunks c.id).map Chunk.text = some c.text
      ↔ (s₁.kb.chunks c.id).map Chunk.text = some c.text
        ∨ (∃ e ∈ vectored client pipeline s₁ cs, e.id = c.id)
          ∧ ∀ h, s₁.kb.chunks c.id = some h →
            contentHash h.text ≠ contentHash c.text := by
    intro c hc
    obtain ⟨i, -, hci⟩ := hid c hc
    have hsame : s'.kb.chunks c.id = s₂.kb.chunks c.id := by
      rw [hci]
      exact hframe i
    rw [hsame]
    exact held_chunk hcs hafter hc
  refine ⟨cs, hcs, ?_⟩
  constructor
  · intro hexact
    refine ⟨fun i hi => ?_, fun c hc => (hheld c hc).mp ?_⟩
    · cases hpast : s₁.kb.chunks (chunkId last.id i) with
      | none => rfl
      | some x =>
          have hx : s'.kb.chunks (chunkId last.id i) = some x := by
            rw [hframe, past_chunks hcs hafter hi, hpast]
          obtain ⟨j, hj⟩ := hs'.owned _ x hx
          have hdoc : x.documentId = last.id := (chunkId_inj.mp hj).1.symm
          obtain ⟨c, hc, hcid, -⟩ := (hexact _ x.text).mp ⟨x, hx, hdoc, rfl⟩
          obtain ⟨k, hk, hck⟩ := hid c hc
          have := (chunkId_inj.mp (hck.symm.trans hcid)).2
          omega
    · obtain ⟨x, hx, -, htext⟩ := (hexact c.id c.text).mpr ⟨c, hc, rfl, rfl⟩
      rw [hx, ← htext]
      rfl
  · intro hfits id text
    constructor
    · intro hx
      obtain ⟨x, hx, hdoc, htext⟩ := hx
      obtain ⟨i, hi⟩ := hs'.owned id x hx
      rw [hdoc] at hi
      subst hi
      rcases Nat.lt_or_ge i cs.length with hlt | hge
      · have hget := List.getElem?_eq_getElem hlt
        have hcid := (chunkDocument_get hcs hget).1
        have hmem : cs[i] ∈ cs := List.getElem_mem hlt
        have hmap := (hheld cs[i] hmem).mpr (hfits.2 cs[i] hmem)
        rw [hcid, hx, Option.map_some, Option.some.injEq, htext] at hmap
        exact ⟨cs[i], hmem, hcid, hmap.symm⟩
      · rw [hframe, past_chunks hcs hafter hge, hfits.1 i hge] at hx
        cases hx
    · intro hc
      obtain ⟨c, hc, rfl, rfl⟩ := hc
      have hmap := (hheld c hc).mpr (hfits.2 c hc)
      obtain ⟨x, hx, htext⟩ := Option.map_eq_some_iff.mp hmap
      obtain ⟨i, -, hci⟩ := hid c hc
      obtain ⟨j, hj⟩ := hs'.owned c.id x hx
      have hdoc := (chunkId_inj.mp (hci.symm.trans hj)).1
      exact ⟨x, hx, hdoc.symm, htext⟩

-- =============================================================== a note

/-- A document with this body. -/
def note (body : String) : Document :=
  .new id "sap_help:n" .sapHelp "u" "T" body

/-- A client that gives each text a vector. -/
def vectorEach : EmbeddingClient Unit := fun _ texts =>
  .ok (texts.map fun _ => [()])

/-- The one chunk of a note of one letter. -/
def noteChunk : Chunk Unit := chunkOf (note "t") .default 0 ['t']

theorem note_chunks :
    chunkDocument (F := Unit) (note "t") .default = some [noteChunk] := by
  have hend : windowEnd ['t'] 1600 0 = 1 := by
    have hcut : nextBoundary ['t'] 1 1 = 1 := by
      rw [nextBoundary, if_neg (by decide)]
    exact hcut
  have hsplit : splitText ['t'] 1600 200 = some [['t']] := by
    have hslice : slice ['t'] 0 1 = some ['t'] := by decide
    have htrim : trim ['t'] = ['t'] := by decide
    have hlen : byteLen ['t'] = 1 := by decide
    unfold splitText
    rw [splitFrom]
    simp only [hend, hslice, htrim, hlen, Nat.lt_add_one, if_true,
      Nat.le_refl]
    rfl
  have hbody : trim (note "t").body.toList = ['t'] := by decide
  unfold chunkDocument
  simp only [hbody]
  show (splitText ['t'] 1600 200).map _ = _
  rw [hsplit]
  rfl

theorem emptyNote_chunks :
    chunkDocument (F := Unit) (note "") .default = some [] := by
  unfold chunkDocument
  have hbody : trim (note "").body.toList = [] := by decide
  simp only [hbody, if_true]

/-- The store with the note in it. -/
def noted (kb : InMemoryKb Unit) : InMemoryKb Unit :=
  kb.upsert id ⟨[note "t"], [embedded noteChunk [()]]⟩

/-- A turn with the note. -/
theorem note_turn (report : IngestionReport) (s : IngestState Unit) :
    ingestDocument id vectorEach .default (note "t") report s
      = (.ok ⟨report.documents + 1, report.chunks + 1⟩,
        ⟨noted s.kb, s.calls + 1⟩) := by
  have hbatches : batches 31 [noteChunk] = [[noteChunk]] := by
    rw [batches, List.drop_nil, batches]
    rfl
  unfold ingestDocument
  rw [show Pipeline.default.chunker = .default from rfl, note_chunks]
  show storeDocument id vectorEach .default (note "t") [noteChunk] report s = _
  have hsize : Pipeline.default.batchSize = 31 + 1 := rfl
  unfold storeDocument
  rw [hsize]
  simp only [hbatches]
  rfl

/-- A note that becomes empty keeps its old chunk: the chunks in the store
are not always those of the last version. -/
theorem emptied_stale :
    ¬ ∀ (contentHash : String → String) (client : EmbeddingClient Unit)
      (calls : List (Pipeline × List Document)) (pipeline : Pipeline)
      (pre post : List Document) (last : Document) (report : IngestionReport)
      (s' : IngestState Unit) (cs : List (Chunk Unit)),
      (∀ doc ∈ post, doc.id ≠ last.id) →
      ingest contentHash client pipeline (pre ++ last :: post)
        (ingestCalls contentHash client calls) = (.ok report, s') →
      chunkDocument last pipeline.chunker = some cs →
      Exact s'.kb last.id cs := by
  intro h
  have hcalls : ingestCalls id vectorEach [(.default, [note "t"])]
      = ⟨noted .new, 1⟩ := by
    show (ingestFrom id vectorEach .default ⟨0, 0⟩ [note "t"] ⟨.new, 0⟩).2 = _
    rw [ingestFrom_cons, note_turn]
    rfl
  have hturn : ingest id vectorEach .default ([] ++ note "" :: [])
      (ingestCalls id vectorEach [(.default, [note "t"])])
      = (.ok ⟨0, 0⟩, ⟨noted .new, 1⟩) := by
    show ingestFrom id vectorEach .default ⟨0, 0⟩ [note ""] _ = _
    rw [hcalls, ingestFrom_cons]
    unfold ingestDocument
    rw [show Pipeline.default.chunker = .default from rfl, emptyNote_chunks]
    rfl
  have hexact := h id vectorEach _ .default [] [] (note "") ⟨0, 0⟩ _ []
    (by simp) hturn emptyNote_chunks
  obtain ⟨c, hc, -⟩ := (hexact "sap_help:n#chunk-0" noteChunk.text).mp
    ⟨embedded noteChunk [()], rfl, rfl, rfl⟩
  cases hc

/-- A note ingested again. -/
theorem note_again :
    ∃ cs s', chunkDocument (note "t") .default = some cs
      ∧ ingest id vectorEach .default ([] ++ note "t" :: [])
        (ingestCalls id vectorEach [(.default, [note "t"])])
        = (.ok ⟨1, 1⟩, s')
      ∧ Exact s'.kb (note "t").id cs := by
  have hcalls : ingestCalls id vectorEach [(.default, [note "t"])]
      = ⟨noted .new, 1⟩ := by
    show (ingestFrom id vectorEach .default ⟨0, 0⟩ [note "t"] ⟨.new, 0⟩).2 = _
    rw [ingestFrom_cons, note_turn]
    rfl
  have hturn : ingest id vectorEach .default ([] ++ note "t" :: [])
      (ingestCalls id vectorEach [(.default, [note "t"])])
      = (.ok ⟨1, 1⟩, ⟨noted (noted .new), 2⟩) := by
    show ingestFrom id vectorEach .default ⟨0, 0⟩ [note "t"] _ = _
    rw [hcalls, ingestFrom_cons, note_turn]
    rfl
  obtain ⟨cs, hcs, hiff⟩ := exact_iff_fits id vectorEach
    [(.default, [note "t"])] .default [] [] (note "t") (by simp) hturn
  have hone : cs = [noteChunk] :=
    Option.some.inj (hcs.symm.trans note_chunks)
  refine ⟨cs, _, hcs, hturn, hiff.mpr ?_⟩
  subst hone
  have hbefore : (ingest id vectorEach .default []
      (ingestCalls id vectorEach [(.default, [note "t"])])).2.kb
      = noted .new := by
    rw [hcalls]
    rfl
  rw [hbefore]
  constructor
  · intro i hi
    have hne : chunkId (note "t").id i ≠ noteChunk.id := by
      intro hid
      have hzero := (chunkId_inj.mp hid).2
      rw [List.length_singleton] at hi
      omega
    have hother : (embedded noteChunk [()]).id ≠ chunkId (note "t").id i :=
      Ne.symm hne
    have hframe := (upsert_chunks (InMemoryKb.indexed_new id) [note "t"]
      [embedded noteChunk [()]]).2 (chunkId (note "t").id i)
    refine hframe.trans ?_
    rw [List.filter_cons_of_neg (by simpa using hother)]
    rfl
  · intro c hc
    rw [List.mem_singleton.mp hc]
    exact .inl rfl

end SapAutomate.Ingest
