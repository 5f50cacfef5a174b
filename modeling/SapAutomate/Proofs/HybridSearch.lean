/-
What a hybrid search returns.

The two rankings draw on the chunks held, each id once (`Drawn`); fusion
and reranking keep the chunks of the candidates; the cut takes the first
of them. So every hit is a chunk that is held, of the domain asked for and
of one of the rankings, and no id comes twice (`hybridSearch_sound`).
-/
import SapAutomate.Kb.Store
import SapAutomate.Proofs.FusionOrder
import SapAutomate.Rag.Engine

namespace SapAutomate.Kb

open Iteration

variable {F : Type} {contentHash : String → String}

-- ================================================================= store

/-- The store after these batches. -/
def kbAfter (contentHash : String → String) (batches : List (UpsertBatch F)) :
    InMemoryKb F :=
  batches.foldl (InMemoryKb.upsert contentHash) .new

/-- The ids of their chunks. -/
def chunkIds (batches : List (UpsertBatch F)) : List ChunkId :=
  ((batches.flatMap UpsertBatch.chunks).map Chunk.id).dedup

/-- The chunks held, in the order in which the map is gone through. -/
def valuesAfter (o : IterOrder (Chunk F)) (contentHash : String → String)
    (batches : List (UpsertBatch F)) : List (Chunk F) :=
  o.apply ((chunkIds batches).filterMap (kbAfter contentHash batches).chunks)

/-- An upsert holds chunks of the batch, under their ids, beside those it
held. -/
theorem upsert_spec (contentHash : String → String) {kb : InMemoryKb F}
    (h : kb.Keyed) (batch : UpsertBatch F) :
    (kb.upsert contentHash batch).Keyed
      ∧ ∀ id, ((kb.upsert contentHash batch).chunks id).isSome →
        (kb.chunks id).isSome ∨ id ∈ batch.chunks.map Chunk.id := by
  have hdocs := InMemoryKb.insertDocuments_chunks batch.documents kb
  unfold InMemoryKb.upsert
  have hkeyed : (batch.documents.foldl InMemoryKb.insertDocument kb).Keyed := by
    intro id c hc
    rw [hdocs.1] at hc
    exact h id c hc
  rw [← hdocs.1]
  generalize batch.documents.foldl InMemoryKb.insertDocument kb = kb' at hkeyed
  induction batch.chunks generalizing kb' with
  | nil => exact ⟨hkeyed, fun id hid => .inl hid⟩
  | cons c cs ih =>
      obtain ⟨hkeyed', hmem⟩ := ih _ (hkeyed.insertChunk c)
      refine ⟨hkeyed', fun id hid => ?_⟩
      rcases hmem id hid with hid | hid
      · rw [InMemoryKb.insertChunk_eq] at hid
        split at hid
        · exact .inl hid
        · by_cases heq : id = c.id
          · exact .inr (by simp [heq])
          · have hput : (kb'.chunks.insert c.id c id).isSome := hid
            rw [Table.insert_ne heq] at hput
            exact .inl hput
      · exact .inr (List.mem_cons_of_mem _ hid)

theorem kbAfter_spec (contentHash : String → String)
    (batches : List (UpsertBatch F)) :
    (kbAfter contentHash batches).Keyed
      ∧ ∀ id, ((kbAfter contentHash batches).chunks id).isSome →
        id ∈ chunkIds batches := by
  unfold kbAfter chunkIds
  simp only [List.mem_dedup]
  induction batches using List.reverseRecOn with
  | nil => exact ⟨InMemoryKb.keyed_new, fun id hid => by cases hid⟩
  | append_singleton batches batch ih =>
      rw [List.foldl_append, List.flatMap_append, List.map_append]
      obtain ⟨hkeyed, hmem⟩ := upsert_spec contentHash ih.1 batch
      refine ⟨hkeyed, fun id hid => List.mem_append.mpr ?_⟩
      rcases hmem id hid with hid | hid
      · exact .inl (ih.2 id hid)
      · exact .inr (by simpa using hid)

/-- The values are the chunks held, each under its id. -/
theorem mem_valuesAfter {o : IterOrder (Chunk F)}
    {batches : List (UpsertBatch F)} {c : Chunk F} :
    c ∈ valuesAfter o contentHash batches
      ↔ (kbAfter contentHash batches).chunks c.id = some c := by
  obtain ⟨hkeyed, hmem⟩ := kbAfter_spec contentHash batches
  unfold valuesAfter
  rw [o.mem_apply, List.mem_filterMap]
  constructor
  · rintro ⟨id, -, hid⟩
    rw [hkeyed id c hid]
    exact hid
  · intro hc
    exact ⟨c.id, hmem c.id (by rw [hc]; rfl), hc⟩

theorem valuesAfter_nodup (o : IterOrder (Chunk F))
    (contentHash : String → String) (batches : List (UpsertBatch F)) :
    ((valuesAfter o contentHash batches).map Chunk.id).Nodup := by
  obtain ⟨hkeyed, -⟩ := kbAfter_spec contentHash batches
  refine ((o.perm _).map Chunk.id).nodup_iff.mpr ?_
  have hids : ∀ ids : List ChunkId,
      ((ids.filterMap (kbAfter contentHash batches).chunks).map
        Chunk.id).Sublist ids := by
    intro ids
    induction ids with
    | nil => exact List.Sublist.refl _
    | cons id ids ih =>
        cases hc : (kbAfter contentHash batches).chunks id with
        | none =>
            rw [List.filterMap_cons_none hc]
            exact ih.cons _
        | some c =>
            rw [List.filterMap_cons_some hc, List.map_cons, hkeyed id c hc]
            exact ih.cons_cons _
  exact (List.nodup_dedup _).sublist (hids _)

-- ============================================================== rankings

variable {K : Type}

/-- Hits drawn from these chunks: of a domain that the query wants, each id
once. -/
structure Drawn (values : List (Chunk K)) (query : SearchQuery K)
    (hits : List (SearchHit K)) : Prop where
  chunk : ∀ h ∈ hits, h.chunk ∈ values ∧ query.wants h.chunk.domain = true
  nodup : (hits.map fun h => h.chunk.id).Nodup

theorem drawn_nil (values : List (Chunk K)) (query : SearchQuery K) :
    Drawn values query [] := ⟨nofun, List.nodup_nil⟩

theorem Drawn.sublist {values : List (Chunk K)} {query : SearchQuery K}
    {hits hits' : List (SearchHit K)} (h : Drawn values query hits)
    (hsub : hits'.Sublist hits) : Drawn values query hits' where
  chunk := fun x hx => h.chunk x (hsub.subset hx)
  nodup := h.nodup.sublist (hsub.map _)

theorem Drawn.ranked [LinearOrder K] {values : List (Chunk K)}
    {query : SearchQuery K} {hits : List (SearchHit K)}
    (h : Drawn values query hits) (n : Nat) :
    Drawn values query (ranked hits n) := by
  have hsorted : Drawn values query
      (sortBy (fun h => OrderDual.toDual h.score) hits) :=
    ⟨fun x hx => h.chunk x (mem_sortBy.mp hx),
      ((sortBy_perm _ hits).map _).nodup_iff.mpr h.nodup⟩
  exact hsorted.sublist (List.take_sublist _ _)

/-- Chunks that the query wants, some of them with a score. -/
theorem drawn_filterMap {values : List (Chunk K)}
    (hnd : (values.map Chunk.id).Nodup) (query : SearchQuery K)
    (score : Chunk K → Option (SearchHit K))
    (hscore : ∀ c h, score c = some h → h.chunk = c) :
    Drawn values query ((values.filter fun c =>
      query.wants c.domain).filterMap score) where
  chunk := by
    intro h hh
    obtain ⟨c, hc, hch⟩ := List.mem_filterMap.mp hh
    rw [hscore c h hch]
    exact List.mem_filter.mp hc
  nodup := by
    have hids : ∀ cs : List (Chunk K), ((cs.filterMap score).map
        fun h => h.chunk.id).Sublist (cs.map Chunk.id) := by
      intro cs
      induction cs with
      | nil => exact List.Sublist.refl _
      | cons c cs ih =>
          cases hc : score c with
          | none =>
              rw [List.filterMap_cons_none hc]
              exact ih.cons _
          | some h =>
              rw [List.filterMap_cons_some hc, List.map_cons, List.map_cons,
                hscore c h hc]
              exact ih.cons_cons _
    exact (hnd.sublist (List.filter_sublist.map _)).sublist (hids _)

variable [Field K] [LinearOrder K] (std : Std K) {values : List (Chunk K)}

theorem denseSearch_drawn (hnd : (values.map Chunk.id).Nodup) (qe : List K)
    (query : SearchQuery K) :
    Drawn values query (denseSearch std values qe query) := by
  refine (drawn_filterMap hnd query _ fun c h hch => ?_).ranked _
  obtain ⟨ce, -, hsome⟩ := Option.bind_eq_some_iff.mp hch
  split at hsome
  · cases hsome
  · rw [← Option.some.inj hsome]

theorem bm25Search_drawn (hnd : (values.map Chunk.id).Nodup)
    (query : SearchQuery K) :
    Drawn values query (bm25Search std values query) := by
  have hscored : ∀ score : Chunk K → K, Drawn values query
      (((values.filter fun c => query.wants c.domain).map fun c =>
        (⟨c, score c⟩ : SearchHit K)).filter fun h => 0 < h.score) := by
    intro score
    have hall := drawn_filterMap hnd query
      (fun c => some (⟨c, score c⟩ : SearchHit K))
      fun c h hch => by rw [← Option.some.inj hch]
    rw [List.filterMap_eq_map'] at hall
    exact hall.sublist List.filter_sublist
  unfold bm25Search
  dsimp only
  split
  · exact drawn_nil _ _
  · split
    · exact drawn_nil _ _
    · split
      · exact drawn_nil _ _
      · exact (hscored _).ranked _

end SapAutomate.Kb

namespace SapAutomate.Rag

open Iteration Kb

variable {K : Type}

-- ============================================================== pipeline

theorem kbQuery_wants {e : RagEngine K} {query : Query K} {d d' : Domain}
    (hd : query.domain = some d) (h : (e.kbQuery query).wants d' = true) :
    d' = d := by
  have hdomains : (e.kbQuery query).domains = [d] := by
    unfold RagEngine.kbQuery
    rw [hd]
    cases query.embedding <;> rfl
  unfold SearchQuery.wants at h
  rw [hdomains] at h
  simpa using h

variable [Field K]

/-- A reranker that returns every place once. -/
def Reranker.Permutes (r : Reranker K) : Prop :=
  ∀ text cands, ((r text cands).map RerankedItem.idx).Perm
    (List.range cands.length)

/-- Reranking permutes the candidates. -/
theorem rerank_perm {e : RagEngine K}
    (h : ∀ r, e.reranker = some r → Reranker.Permutes r) (text : String)
    (fused : List (SearchHit K)) :
    ((e.rerank text fused).map SearchHit.chunk).Perm
      (fused.map SearchHit.chunk) := by
  unfold RagEngine.rerank
  cases hr : e.reranker with
  | none => exact List.Perm.refl _
  | some r =>
      have hperm := h r hr text (fused.map fun h => ⟨h.chunk.text, h.score⟩)
      rw [List.length_map] at hperm
      have hchunks : ∀ (items : List (RerankedItem K)) (n : Nat),
          ((items.zipIdx n).filterMap fun item =>
              RagEngine.rerankedHit fused item.1 item.2).map SearchHit.chunk
            = (items.map RerankedItem.idx).filterMap fun i =>
              fused[i]?.map SearchHit.chunk := by
        intro items
        induction items with
        | nil => exact fun _ => rfl
        | cons item items ih =>
            intro n
            rw [List.zipIdx_cons, List.map_cons]
            unfold RagEngine.rerankedHit at ih ⊢
            cases hget : fused[item.idx]? with
            | none =>
                rw [List.filterMap_cons_none (by simp [hget]), ih,
                  List.filterMap_cons_none (by simp [hget])]
            | some x =>
                rw [List.filterMap_cons_some (by simp [hget]; rfl),
                  List.map_cons, ih,
                  List.filterMap_cons_some (by simp [hget]; rfl)]
      refine (List.Perm.of_eq (hchunks _ 0)).trans
        ((hperm.filterMap _).trans (List.Perm.of_eq ?_))
      have hrange : ∀ cs : List (SearchHit K),
          (List.range cs.length).filterMap (fun i =>
            cs[i]?.map SearchHit.chunk) = cs.map SearchHit.chunk := by
        intro cs
        induction cs using List.reverseRecOn with
        | nil => rfl
        | append_singleton cs c ih =>
            rw [List.length_append, List.length_singleton, List.range_succ,
              List.filterMap_append, List.map_append, ← ih]
            congr 1
            · refine List.filterMap_congr fun i hi => ?_
              rw [List.getElem?_append_left (List.mem_range.mp hi)]
            · simp
      exact hrange fused

variable [LinearOrder K]

/-- The fused hits: each id once, and the chunks of hits of the rankings. -/
theorem rrf_spec (o : IterOrder (SearchHit K)) (dense sparse : List (SearchHit K))
    (k : K) (cap : Nat) :
    ((reciprocalRankFusion o dense sparse k cap).map
        fun h => h.chunk.id).Nodup
      ∧ ∀ h ∈ reciprocalRankFusion o dense sparse k cap,
        ∃ h' ∈ dense ++ sparse, h'.chunk = h.chunk := by
  have hsorted : (sortBy (fun h : SearchHit K => OrderDual.toDual h.score)
      (o.apply (fusedHits dense sparse k))).Perm
        (fusedHits dense sparse k) := (sortBy_perm _ _).trans (o.perm _)
  constructor
  · have hall := (hsorted.map fun h => h.chunk.id).nodup_iff.mpr
      (fusedHits_nodup dense sparse k)
    exact hall.sublist ((List.take_sublist _ _).map _)
  · intro h hh
    exact (mem_fusedHits (hsorted.mem_iff.mp (List.mem_of_mem_take hh))).2

/-- What a search packs, of the stages it went through: the first of the
reranked hits; each of a chunk that is held, of the domain asked for and of
one of the rankings; each id once. -/
structure SearchSound (kb : InMemoryKb K) (query : Query K)
    (s : RagEngine.Stages K) (resp : SearchResponse K) : Prop where
  packed : resp.hits = (s.reranked.take query.topK).map HitView.ofHit
  stored : ∀ h ∈ s.reranked.take query.topK,
    kb.chunks h.chunk.id = some h.chunk
      ∧ ∀ d, query.domain = some d → h.chunk.domain = d
  once : ((s.reranked.take query.topK).map fun h => h.chunk.id).Nodup
  candidate : ∀ h ∈ s.reranked.take query.topK,
    h.chunk ∈ s.dense.map SearchHit.chunk
      ∨ h.chunk ∈ s.sparse.map SearchHit.chunk
  permuted : (s.reranked.map SearchHit.chunk).Perm
    (s.fused.map SearchHit.chunk)
  count : resp.hits.length = min query.topK s.fused.length
  truncated : resp.diagnostics.truncated = true
    ↔ resp.hits.length < s.reranked.length

/-- A search of the store after any upserts, with the mock reranker or
without one. -/
theorem hybridSearch_sound (std : Std K) (contentHash : String → String)
    (batches : List (UpsertBatch K)) (o : IterOrder (Chunk K))
    (o' : IterOrder (SearchHit K)) (mock : Bool) (rrfK : K) (pool : Nat)
    (query : Query K) :
    let e : RagEngine K :=
      ⟨if mock then some (mockRerank std) else none, rrfK, pool⟩
    let store := Kb.hybridSearch std (valuesAfter o contentHash batches)
    SearchSound (kbAfter contentHash batches) query (e.stages o' store query)
      (e.hybridSearch std.isAlphanumeric o' store query) := by
  intro e store
  have hvalues := valuesAfter_nodup o contentHash batches
  have hpermutes : ∀ r, e.reranker = some r → Reranker.Permutes r := by
    intro r hr
    cases mock with
    | true =>
        obtain rfl : mockRerank std = r := Option.some.inj hr
        exact mockRerank_perm std
    | false => cases hr
  have hdense : Drawn (valuesAfter o contentHash batches) (e.kbQuery query)
      (e.stages o' store query).dense := by
    show Drawn _ _ (Kb.hybridSearch std _ _).1
    unfold Kb.hybridSearch
    cases (e.kbQuery query).embedding with
    | none => exact drawn_nil _ _
    | some qe => exact denseSearch_drawn std hvalues qe _
  have hsparse : Drawn (valuesAfter o contentHash batches) (e.kbQuery query)
      (e.stages o' store query).sparse := bm25Search_drawn std hvalues _
  have hperm : ((e.stages o' store query).reranked.map SearchHit.chunk).Perm
      ((e.stages o' store query).fused.map SearchHit.chunk) :=
    rerank_perm hpermutes query.text _
  obtain ⟨hnodup, hfused⟩ := rrf_spec o' (e.stages o' store query).dense
    (e.stages o' store query).sparse rrfK pool
  -- a reranked hit has the chunk of a hit of one of the rankings
  have hdrawn : ∀ h ∈ (e.stages o' store query).reranked,
      ∃ h' ∈ (e.stages o' store query).dense
        ++ (e.stages o' store query).sparse, h'.chunk = h.chunk := by
    intro h hh
    obtain ⟨h₁, hh₁, hchunk⟩ := List.mem_map.mp
      (hperm.mem_iff.mp (List.mem_map.mpr ⟨h, hh, rfl⟩))
    obtain ⟨h', hh', heq⟩ := hfused h₁ hh₁
    exact ⟨h', hh', heq.trans hchunk⟩
  have hlen : (e.stages o' store query).reranked.length
      = (e.stages o' store query).fused.length := by
    simpa using hperm.length_eq
  refine ⟨rfl, fun h hh => ?_, ?_, fun h hh => ?_, hperm, ?_, ?_⟩
  · obtain ⟨h', hh', heq⟩ := hdrawn h (List.mem_of_mem_take hh)
    have hchunk := (List.mem_append.mp hh').elim (hdense.chunk h')
      (hsparse.chunk h')
    rw [heq] at hchunk
    exact ⟨mem_valuesAfter.mp hchunk.1, fun d hd => kbQuery_wants hd hchunk.2⟩
  · have hids : ((e.stages o' store query).reranked.map
        fun h => h.chunk.id).Nodup := by
      have hmap := hperm.map Chunk.id
      rw [List.map_map, List.map_map] at hmap
      exact hmap.nodup_iff.mpr hnodup
    exact hids.sublist ((List.take_sublist _ _).map _)
  · obtain ⟨h', hh', heq⟩ := hdrawn h (List.mem_of_mem_take hh)
    rcases List.mem_append.mp hh' with hmem | hmem
    · exact .inl (List.mem_map.mpr ⟨h', hmem, heq⟩)
    · exact .inr (List.mem_map.mpr ⟨h', hmem, heq⟩)
  · show (List.map _ _).length = _
    rw [List.length_map, List.length_take, hlen]
  · show decide _ = true ↔ (List.map _ _).length < _
    rw [decide_eq_true_eq, List.length_map, List.length_take]
    constructor
    · intro h
      exact (min_le_left _ _).trans_lt h
    · intro h
      exact (min_lt_iff.mp h).resolve_right (lt_irrefl _)

end SapAutomate.Rag
