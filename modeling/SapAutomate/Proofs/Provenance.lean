/-
Where the hits of a search come from.

Whatever the calls of the pipeline were and however they ended, each
chunk of the store is the chunk of a window of a document that was
ingested (`Cut`), and the document it names is there (`Stocked`): a turn
upserts a document together with chunks of its own. A search draws on
the chunks held and no others. So each hit quotes, under the document's
own id, address and title, a stretch of its body, and that document can
be fetched (`search_grounded`).
-/
import SapAutomate.Proofs.ChunkCoverage
import SapAutomate.Proofs.HybridSearch
import SapAutomate.Proofs.Reingest

namespace SapAutomate.Ingest

open Kb

variable {F : Type}

-- =============================================================== windows

theorem dropBytes_suffix (s : List Char) (n : Nat) : dropBytes s n <:+ s := by
  fun_induction dropBytes s n with
  | case1 s => exact List.suffix_refl s
  | case2 n => exact List.suffix_refl []
  | case3 c s n ih => exact ih.trans (List.suffix_cons c s)

theorem takeBytes_isPrefix (s : List Char) (n : Nat) : takeBytes s n <+: s := by
  fun_induction takeBytes s n with
  | case1 s => exact List.nil_prefix
  | case2 n => exact List.nil_prefix
  | case3 c s n ih => exact (List.prefix_cons_inj c).mpr ih

/-- A slice is part of the text. -/
theorem infix_of_slice {s w : List Char} {a b : Nat} (h : slice s a b = some w) :
    w <:+: s := by
  unfold slice at h
  split at h
  · rw [← Option.some.inj h]
    exact (takeBytes_isPrefix _ _).isInfix.trans (dropBytes_suffix s a).isInfix
  · cases h

/-- The segment of a window. -/
theorem segment_infix {body window : List Char} {a b : Nat}
    (hslice : slice body a b = some window) :
    ∀ s ∈ if trim window = [] then [] else [trim window],
      s ≠ [] ∧ s <:+: body := by
  intro s hs
  split at hs
  · cases hs
  · next hne =>
      rw [List.mem_singleton] at hs
      rw [hs]
      exact ⟨hne, (infix_of_trim window).trans (infix_of_slice hslice)⟩

/-- What a text is split into are parts of it, and none is empty. -/
theorem splitFrom_infix (body : List Char) (target overlap start : Nat) :
    ∀ segments, splitFrom body target overlap start = some segments →
      ∀ s ∈ segments, s ≠ [] ∧ s <:+: body := by
  fun_induction splitFrom body target overlap start with
  | case1 start hlt stop hnone =>
      intro segments h
      cases h
  | case2 start hlt stop window hslice out hend =>
      intro segments h
      rw [← Option.some.inj h]
      exact segment_infix hslice
  | case3 start hlt stop window hslice out hmore ih =>
      intro segments h
      obtain ⟨rest, hrest, rfl⟩ := Option.map_eq_some_iff.mp h
      intro s hs
      rcases List.mem_append.mp hs with hs | hs
      · exact segment_infix hslice s hs
      · exact ih rest hrest s hs
  | case4 start hge =>
      intro segments h
      rw [← Option.some.inj h]
      intro s hs
      cases hs

-- ================================================================ chunks

/-- The chunk is one of the document's windows, with a vector. -/
def Cut (cfg : ChunkerConfig) (doc : Document) (c : Chunk F) : Prop :=
  ∃ i segment vec, c = embedded (chunkOf doc cfg i segment) vec
    ∧ segment ≠ [] ∧ segment <:+: doc.body.toList

/-- What a document is chunked into, once embedded, is cut from it. -/
theorem chunkDocument_cut {doc : Document} {cfg : ChunkerConfig}
    {cs : List (Chunk F)} (h : chunkDocument doc cfg = some cs) {c : Chunk F}
    (hc : c ∈ cs) (vec : List F) : Cut cfg doc (embedded c vec) := by
  unfold chunkDocument at h
  by_cases hbody : trim doc.body.toList = []
  · simp only [hbody, if_true] at h
    rw [← Option.some.inj h] at hc
    cases hc
  · simp only [hbody, if_false] at h
    obtain ⟨windows, hsplit, rfl⟩ := Option.map_eq_some_iff.mp h
    obtain ⟨i, hi⟩ := List.mem_iff_getElem?.mp hc
    rw [List.getElem?_mapIdx] at hi
    obtain ⟨w, hw, rfl⟩ := Option.map_eq_some_iff.mp hi
    obtain ⟨hne, hin⟩ := splitFrom_infix _ _ _ _ _ hsplit w (List.mem_of_getElem? hw)
    exact ⟨i, w, vec, rfl, hne, hin.trans (infix_of_trim _)⟩

-- ============================================================= the store

/-- Every chunk held is cut from a document of `docs`, each given with how
it was chunked, and the document it names is held and one of them. -/
structure Stocked (docs : List (ChunkerConfig × Document))
    (kb : InMemoryKb F) : Prop where
  cut : ∀ id c, kb.chunks id = some c → ∃ d ∈ docs, Cut d.1 d.2 c
  fetched : ∀ id c, kb.chunks id = some c →
    (kb.documents c.documentId).isSome
  known : ∀ id doc, kb.documents id = some doc →
    doc.id = id ∧ doc ∈ docs.map Prod.snd

theorem stocked_new : Stocked [] (.new : InMemoryKb F) := by
  constructor
  case cut => exact fun id c h => nomatch h
  case fetched => exact fun id c h => nomatch h
  case known => exact fun id doc h => nomatch h

theorem Stocked.mono {docs docs' : List (ChunkerConfig × Document)}
    {kb : InMemoryKb F} (h : Stocked docs kb) (hsub : docs ⊆ docs') :
    Stocked docs' kb := by
  constructor
  case cut =>
    intro id c hc
    obtain ⟨d, hd, hcut⟩ := h.cut id c hc
    exact ⟨d, hsub hd, hcut⟩
  case fetched => exact h.fetched
  case known =>
    intro id doc hdoc
    exact ⟨(h.known id doc hdoc).1,
      List.map_subset Prod.snd hsub (h.known id doc hdoc).2⟩

/-- A document upserted with chunks of its own. -/
theorem Stocked.upsert {contentHash : String → String}
    {docs : List (ChunkerConfig × Document)} {kb : InMemoryKb F}
    (h : Stocked docs kb) (hindexed : kb.Indexed contentHash)
    {d : ChunkerConfig × Document} {es : List (Chunk F)}
    (hes : ∀ e ∈ es, Cut d.1 d.2 e) :
    Stocked (docs ++ [d]) (kb.upsert contentHash ⟨[d.2], es⟩) := by
  have hchunks := (upsert_chunks hindexed [d.2] es).2
  have hdocuments : (kb.upsert contentHash ⟨[d.2], es⟩).documents
      = kb.documents.insert d.2.id d.2 :=
    InMemoryKb.insertChunks_documents es _
  have hheld : ∀ id c, (kb.upsert contentHash ⟨[d.2], es⟩).chunks id
      = some c → kb.chunks id = some c ∨ c ∈ es := by
    intro id c hc
    rw [hchunks] at hc
    rcases Table.keepFirst_mem hc with hold | hnew
    · exact .inl hold
    · exact .inr (List.mem_of_mem_filter hnew)
  constructor
  case cut =>
    intro id c hc
    rcases hheld id c hc with hold | hnew
    · obtain ⟨d', hd', hcut⟩ := h.cut id c hold
      exact ⟨d', List.mem_append_left _ hd', hcut⟩
    · exact ⟨d, by simp, hes c hnew⟩
  case fetched =>
    intro id c hc
    rw [hdocuments]
    rcases hheld id c hc with hold | hnew
    · by_cases hid : c.documentId = d.2.id
      · rw [hid, Table.insert_self]
        rfl
      · rw [Table.insert_ne hid]
        exact h.fetched id c hold
    · obtain ⟨i, segment, vec, rfl, -, -⟩ := hes c hnew
      show (kb.documents.insert d.2.id d.2 d.2.id).isSome = true
      rw [Table.insert_self]
      rfl
  case known =>
    intro id doc hdoc
    rw [hdocuments] at hdoc
    by_cases hid : id = d.2.id
    · rw [hid, Table.insert_self, Option.some.injEq] at hdoc
      rw [← hdoc, hid]
      simp
    · rw [Table.insert_ne hid] at hdoc
      obtain ⟨hkey, hmem⟩ := h.known id doc hdoc
      rw [List.map_append]
      exact ⟨hkey, List.mem_append_left _ hmem⟩

-- ================================================================== runs

variable {contentHash : String → String} {client : EmbeddingClient F}
  {pipeline : Pipeline}

theorem Stocked.turn {docs : List (ChunkerConfig × Document)}
    {s : IngestState F} (h : Stocked docs s.kb)
    (hindexed : s.kb.Indexed contentHash) (doc : Document)
    (report : IngestionReport) :
    Stocked (docs ++ [(pipeline.chunker, doc)])
      (ingestDocument contentHash client pipeline doc report s).2.kb := by
  rcases turn_kb contentHash client pipeline doc report s with ⟨hkb, -⟩
    | ⟨cs, hcs, hkb⟩
  · rw [hkb]
    exact h.mono (List.subset_append_left _ _)
  · rw [hkb]
    refine h.upsert hindexed fun e he => ?_
    obtain ⟨c, hc, vec, rfl⟩ := (vectored_spec s cs).2 e he
    exact chunkDocument_cut hcs hc vec

/-- A call, however it ends. -/
theorem Stocked.from {docs : List (ChunkerConfig × Document)}
    {s : IngestState F} (h : Stocked docs s.kb)
    (hs : Sorted contentHash s.kb) (new : List Document)
    (report : IngestionReport) :
    Stocked (docs ++ new.map fun doc => (pipeline.chunker, doc))
      (ingestFrom contentHash client pipeline report new s).2.kb := by
  induction new generalizing docs report s with
  | nil =>
      rw [List.map_nil, List.append_nil]
      exact h
  | cons doc new ih =>
      have hturn : Stocked (docs ++ [(pipeline.chunker, doc)])
          (ingestDocument contentHash client pipeline doc report s).2.kb :=
        h.turn hs.indexed doc report
      have hsorted := hs.turn client pipeline doc report
      rw [List.map_cons, List.append_cons, ingestFrom_cons]
      cases (ingestDocument contentHash client pipeline doc report s).1 with
      | ok report' => exact ih hturn hsorted report'
      | error e => exact hturn.mono (List.subset_append_left _ _)
      | panicked => exact hturn.mono (List.subset_append_left _ _)

/-- The documents of the calls, each with how its call chunks it. -/
def ingestedDocuments (calls : List (Pipeline × List Document)) :
    List (ChunkerConfig × Document) :=
  calls.flatMap fun call => call.2.map fun doc => (call.1.chunker, doc)

/-- Whatever was ingested, and however the calls ended. -/
theorem stocked_calls (contentHash : String → String)
    (client : EmbeddingClient F) (calls : List (Pipeline × List Document)) :
    Stocked (ingestedDocuments calls)
      (ingestCalls contentHash client calls).kb := by
  induction calls using List.reverseRecOn with
  | nil => exact stocked_new
  | append_singleton calls call ih =>
      have hsorted := sorted_calls contentHash client calls
      unfold ingestCalls at ih hsorted ⊢
      unfold ingestedDocuments at ih ⊢
      rw [List.foldl_append, List.flatMap_append, List.flatMap_singleton]
      exact ih.from hsorted call.2 ⟨0, 0⟩

/-- A store that is filled by calls is filled by batches. -/
theorem ingestCalls_kb (contentHash : String → String)
    (client : EmbeddingClient F) (calls : List (Pipeline × List Document)) :
    ∃ batches, (ingestCalls contentHash client calls).kb
      = kbAfter contentHash batches := by
  have hturn : ∀ (pipeline : Pipeline) (doc : Document)
      (report : IngestionReport) (s : IngestState F),
      (∃ batches, s.kb = kbAfter contentHash batches) →
      ∃ batches, (ingestDocument contentHash client pipeline doc report
        s).2.kb = kbAfter contentHash batches := by
    intro pipeline doc report s hs
    obtain ⟨batches, hs⟩ := hs
    rcases turn_kb contentHash client pipeline doc report s with ⟨hkb, -⟩
      | ⟨cs, -, hkb⟩
    · exact ⟨batches, hkb.trans hs⟩
    · refine ⟨batches ++ [⟨[doc], vectored client pipeline s cs⟩], ?_⟩
      rw [hkb, hs]
      unfold kbAfter
      rw [List.foldl_append]
      rfl
  have hcall : ∀ (pipeline : Pipeline) (docs : List Document)
      (report : IngestionReport) (s : IngestState F),
      (∃ batches, s.kb = kbAfter contentHash batches) →
      ∃ batches, (ingestFrom contentHash client pipeline report docs s).2.kb
        = kbAfter contentHash batches := by
    intro pipeline docs
    induction docs with
    | nil => exact fun _ _ hs => hs
    | cons doc docs ih =>
        intro report s hs
        have hnext := hturn pipeline doc report s hs
        rw [ingestFrom_cons]
        cases (ingestDocument contentHash client pipeline doc report s).1 with
        | ok report' => exact ih report' _ hnext
        | error e => exact hnext
        | panicked => exact hnext
  unfold ingestCalls
  induction calls using List.reverseRecOn with
  | nil => exact ⟨[], rfl⟩
  | append_singleton calls call ih =>
      rw [List.foldl_append]
      exact hcall call.1 call.2 ⟨0, 0⟩ _ ih

end SapAutomate.Ingest

namespace SapAutomate.Kb

variable {F : Type}

/-- The chunks of a store, in the order in which its map is gone
through. -/
structure Walk (kb : InMemoryKb F) where
  values : List (Chunk F)
  held : ∀ c ∈ values, kb.chunks c.id = some c
  all : ∀ c, kb.chunks c.id = some c → c ∈ values
  once : (values.map Chunk.id).Nodup

/-- A store filled by batches, gone through in some order. -/
def Walk.ofOrder (o : IterOrder (Chunk F)) (contentHash : String → String)
    (batches : List (UpsertBatch F)) : Walk (kbAfter contentHash batches) where
  values := valuesAfter o contentHash batches
  held _ hc := mem_valuesAfter.mp hc
  all _ hc := mem_valuesAfter.mpr hc
  once := valuesAfter_nodup o contentHash batches

/-- What was ingested can be gone through. -/
theorem walk_calls (contentHash : String → String)
    (client : Ingest.EmbeddingClient F)
    (calls : List (Ingest.Pipeline × List Document)) :
    Nonempty (Walk (Ingest.ingestCalls contentHash client calls).kb) := by
  obtain ⟨batches, hkb⟩ := Ingest.ingestCalls_kb contentHash client calls
  rw [hkb]
  exact ⟨.ofOrder .listed contentHash batches⟩

end SapAutomate.Kb

namespace SapAutomate.Rag

open Iteration Kb Ingest

variable {K : Type} [Field K] [LinearOrder K]

/-- A reranked hit is drawn from the chunks that were gone through. -/
theorem reranked_drawn (std : Std K) {values : List (Chunk K)}
    (hnd : (values.map Chunk.id).Nodup) {e : RagEngine K}
    (he : ∀ r, e.reranker = some r → Reranker.Permutes r)
    (o : IterOrder (SearchHit K)) (query : Query K) :
    ∀ h ∈ (e.stages o (Kb.hybridSearch std values) query).reranked,
      h.chunk ∈ values ∧ (e.kbQuery query).wants h.chunk.domain = true := by
  intro h hh
  have hdense : Drawn values (e.kbQuery query)
      (e.stages o (Kb.hybridSearch std values) query).dense := by
    show Drawn _ _ (Kb.hybridSearch std _ _).1
    unfold Kb.hybridSearch
    cases (e.kbQuery query).embedding with
    | none => exact drawn_nil _ _
    | some qe => exact denseSearch_drawn std hnd qe _
  have hsparse : Drawn values (e.kbQuery query)
      (e.stages o (Kb.hybridSearch std values) query).sparse :=
    bm25Search_drawn std hnd _
  obtain ⟨h₁, hh₁, hchunk⟩ := List.mem_map.mp
    ((rerank_perm he query.text _).mem_iff.mp (List.mem_map.mpr ⟨h, hh, rfl⟩))
  obtain ⟨h₂, hh₂, hsame⟩ := (rrf_spec o _ _ _ _).2 h₁ hh₁
  rw [← hchunk, ← hsame]
  exact (List.mem_append.mp hh₂).elim (hdense.chunk h₂) (hsparse.chunk h₂)

/-- What a search of a store filled with these documents returns: at most
as many hits as were asked for; each quotes a document of the domain asked
for, under its own id, address and title, with what comes before all of
its chunks and a stretch of its body; and the document of this id can be
fetched. -/
structure Grounded (docs : List (ChunkerConfig × Document))
    (kb : InMemoryKb K) (query : Query K) (resp : SearchResponse K) :
    Prop where
  quoted : ∀ v ∈ resp.hits, ∃ d ∈ docs, ∃ segment,
    v.documentId = d.2.id ∧ v.uri = d.2.uri ∧ v.title = d.2.title
      ∧ v.snippet = truncate (chunkPrefix d.2 d.1 ++ String.ofList segment) 220
      ∧ segment ≠ [] ∧ segment <:+: d.2.body.toList
      ∧ ∀ domain, query.domain = some domain → d.2.domain = domain
  fetched : ∀ v ∈ resp.hits, ∃ doc,
    kb.documents v.documentId = some doc ∧ doc.id = v.documentId
      ∧ doc ∈ docs.map Prod.snd
  few : resp.hits.length ≤ query.topK

/-- Whatever was ingested before, however those calls ended, and in
whatever order the map is gone through. -/
theorem search_grounded (std : Std K) (contentHash : String → String)
    (client : EmbeddingClient K) (calls : List (Pipeline × List Document))
    (w : Walk (ingestCalls contentHash client calls).kb)
    (o : IterOrder (SearchHit K)) (mock : Bool) (rrfK : K) (pool : Nat)
    (query : Query K) :
    let e : RagEngine K :=
      ⟨if mock then some (mockRerank std) else none, rrfK, pool⟩
    Grounded (ingestedDocuments calls) (ingestCalls contentHash client calls).kb
      query (e.hybridSearch std.isAlphanumeric o (Kb.hybridSearch std w.values)
        query) := by
  intro e
  have hstocked := stocked_calls contentHash client calls
  have he : ∀ r, e.reranker = some r → Reranker.Permutes r := by
    intro r hr
    cases mock with
    | true =>
        obtain rfl : mockRerank std = r := Option.some.inj hr
        exact mockRerank_perm std
    | false => cases hr
  have hits : ∀ v ∈ (e.hybridSearch std.isAlphanumeric o
      (Kb.hybridSearch std w.values) query).hits, ∃ h, v = HitView.ofHit h
        ∧ (ingestCalls contentHash client calls).kb.chunks h.chunk.id
          = some h.chunk
        ∧ (e.kbQuery query).wants h.chunk.domain = true := by
    intro v hv
    obtain ⟨h, hh, rfl⟩ := List.mem_map.mp hv
    obtain ⟨hmem, hwants⟩ :=
      reranked_drawn std w.once he o query h (List.mem_of_mem_take hh)
    exact ⟨h, rfl, w.held _ hmem, hwants⟩
  constructor
  case quoted =>
    intro v hv
    obtain ⟨h, rfl, hheld, hwants⟩ := hits v hv
    obtain ⟨d, hd, i, segment, vec, hchunk, hne, hin⟩ := hstocked.cut _ _ hheld
    have hdomain : h.chunk.domain = d.2.domain := by rw [hchunk]; rfl
    refine ⟨d, hd, segment, ?_, ?_, ?_, ?_, hne, hin, fun domain hq => ?_⟩
    · show h.chunk.documentId = _
      rw [hchunk]
      rfl
    · show h.chunk.uri = _
      rw [hchunk]
      rfl
    · show h.chunk.title = _
      rw [hchunk]
      rfl
    · show truncate h.chunk.text 220 = _
      rw [hchunk]
      rfl
    · exact hdomain.symm.trans (kbQuery_wants hq hwants)
  case fetched =>
    intro v hv
    obtain ⟨h, rfl, hheld, -⟩ := hits v hv
    obtain ⟨doc, hdoc⟩ := Option.isSome_iff_exists.mp
      (hstocked.fetched _ _ hheld)
    exact ⟨doc, hdoc, hstocked.known _ _ hdoc⟩
  case few =>
    show (List.map _ _).length ≤ _
    rw [List.length_map]
    exact List.length_take_le _ _

end SapAutomate.Rag
