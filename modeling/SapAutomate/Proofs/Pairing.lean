/-
Which chunks `ingest` stores, and with which vectors, when it asks an
OpenAI-compatible endpoint for them.

A reply lists its vectors, each with the number of its text.
`OpenAiEmbedder` reads the list and leaves the numbers aside, and the
pipeline pairs what it is given with the batch, place by place, and stops
at the shorter side. So a call does what it should where each reply lists
one vector for each text, in the order of the texts.
-/
import SapAutomate.Proofs.Reingest

namespace SapAutomate.Ingest

open Kb

variable {F : Type} {contentHash : String → String} {pipeline : Pipeline}
  {e : OpenAiEmbedder} {service : Nat → EmbedRequest → EmbedReply F}

-- ============================================================= exchanges

/-- A batch and the endpoint's reply to its texts. -/
structure EmbedExchange (F : Type) where
  batch : List (Chunk F)
  reply : EmbedReply F

namespace EmbedExchange

/-- The items of the reply. -/
def data (x : EmbedExchange F) : List (EmbedDatum F) :=
  match x.reply with
  | .body (.ok data) => data
  | _ => []

/-- The vector the reply gives the text of this number. -/
def named (x : EmbedExchange F) (i : Nat) : Option (List F) :=
  (x.data.find? fun d => d.index = i).map EmbedDatum.embedding

/-- The reply supplies one vector for each text. -/
def Complete (x : EmbedExchange F) : Prop :=
  (x.data.map EmbedDatum.index).Perm (List.range x.batch.length)

/-- The batch as its places meet those of the list. -/
def listed (x : EmbedExchange F) : List (Chunk F) :=
  pairUp x.batch (x.data.map EmbedDatum.embedding)

end EmbedExchange

/-- The exchanges over these batches, from call `n`. -/
def exchanges (e : OpenAiEmbedder)
    (service : Nat → EmbedRequest → EmbedReply F) :
    Nat → List (List (Chunk F)) → List (EmbedExchange F)
  | _, [] => []
  | n, batch :: rest =>
      ⟨batch, service n (e.request (texts batch))⟩
        :: exchanges e service (n + 1) rest

/-- Every reply can be read. -/
def Readable (e : OpenAiEmbedder) (xs : List (EmbedExchange F)) : Prop :=
  ∀ x ∈ xs, ∃ vectors, e.read x.reply = .ok vectors

/-- The batches of a document, unless they are a panic. -/
def batchesOf (pipeline : Pipeline) (doc : Document) :
    Option (List (List (Chunk F))) :=
  match chunkDocument doc pipeline.chunker, pipeline.batchSize with
  | none, _ => none
  | some [], _ => some []
  | some (_ :: _), 0 => none
  | some (c :: cs), size + 1 => some (batches size (c :: cs))

/-- The batches of these documents. -/
def plan (pipeline : Pipeline) : List Document →
    Option (List (List (Chunk F)))
  | [] => some []
  | doc :: docs =>
      (batchesOf pipeline doc).bind fun bd =>
        (plan pipeline docs).map (bd ++ ·)

theorem exchanges_append (n : Nat) (bs bs' : List (List (Chunk F))) :
    exchanges e service n (bs ++ bs')
      = exchanges e service n bs ++ exchanges e service (n + bs.length) bs' := by
  induction bs generalizing n with
  | nil => rfl
  | cons b bs ih =>
      have hlen : n + (b :: bs).length = n + 1 + bs.length := by
        rw [List.length_cons]
        omega
      rw [hlen, List.cons_append, exchanges, ih]
      rfl

/-- What can be read is the list. -/
theorem read_data {x : EmbedExchange F} {vectors : List (List F)}
    (h : e.read x.reply = .ok vectors) :
    vectors = x.data.map EmbedDatum.embedding := by
  unfold OpenAiEmbedder.read at h
  unfold EmbedExchange.data
  cases hreply : x.reply with
  | unsent reason =>
      rw [hreply] at h
      cases h
  | refused text =>
      rw [hreply] at h
      cases h
  | body parsed =>
      rw [hreply] at h
      cases parsed with
      | error reason => cases h
      | ok data =>
          simp only at h
          cases hbad : data.find? fun d => d.embedding.length != e.dim with
          | some d =>
              rw [hbad] at h
              cases h
          | none =>
              rw [hbad] at h
              exact (Except.ok.inj h).symm

/-- The loop over the batches: all replies are read, or it fails. -/
theorem embedBatches_exchanges (e : OpenAiEmbedder)
    (service : Nat → EmbedRequest → EmbedReply F) (n : Nat)
    (bs : List (List (Chunk F))) :
    (Readable e (exchanges e service n bs)
      ∧ embedBatches (e.embed service) n bs
        = (.ok ((exchanges e service n bs).flatMap EmbedExchange.listed),
          n + bs.length))
    ∨ ¬ Readable e (exchanges e service n bs)
      ∧ ∃ err, (embedBatches (e.embed service) n bs).1 = .error err := by
  induction bs generalizing n with
  | nil => exact .inl ⟨fun x hx => (nomatch hx), rfl⟩
  | cons b bs ih =>
      unfold embedBatches
      have hcall : e.embed service n (texts b)
          = e.read (service n (e.request (texts b))) := rfl
      rw [hcall]
      cases hread : e.read (service n (e.request (texts b))) with
      | error err =>
          refine .inr ⟨fun h => ?_, err, rfl⟩
          obtain ⟨vectors, hok⟩ := h _ (List.mem_cons_self ..)
          rw [hread] at hok
          cases hok
      | ok vectors =>
          have hvectors := read_data
            (x := ⟨b, service n (e.request (texts b))⟩) hread
          rcases ih (n + 1) with ⟨hall, heq⟩ | ⟨hnot, err, herr⟩
          · refine .inl ⟨?_, ?_⟩
            · intro x hx
              rcases List.mem_cons.mp hx with rfl | hx
              · exact ⟨vectors, hread⟩
              · exact hall x hx
            · rw [heq, hvectors, List.length_cons]
              have hlen : n + 1 + bs.length = n + (bs.length + 1) := by omega
              rw [hlen]
              rfl
          · refine .inr ⟨fun h => hnot fun x hx => ?_, err, ?_⟩
            · exact h x (List.mem_cons_of_mem _ hx)
            · simp only [herr]
              rfl

-- ================================================================= turns

/-- What a turn comes to: a panic where the batches are one, an error
where a reply cannot be read, and otherwise the document is stored. -/
theorem turn_exchanges (contentHash : String → String) (pipeline : Pipeline)
    (e : OpenAiEmbedder) (service : Nat → EmbedRequest → EmbedReply F)
    (doc : Document) (report : IngestionReport) (s : IngestState F) :
    (batchesOf (F := F) pipeline doc = none
      ∧ ingestDocument contentHash (e.embed service) pipeline doc report s
        = (.panicked, s))
    ∨ ∃ bd, batchesOf pipeline doc = some bd
      ∧ ((Readable e (exchanges e service s.calls bd)
          ∧ ∃ report', report'.chunks = report.chunks + bd.flatten.length
            ∧ ingestDocument contentHash (e.embed service) pipeline doc report s
              = (.ok report', ⟨if bd = [] then s.kb else
                s.kb.upsert contentHash ⟨[doc],
                  (exchanges e service s.calls bd).flatMap
                    EmbedExchange.listed⟩, s.calls + bd.length⟩))
        ∨ ¬ Readable e (exchanges e service s.calls bd)
          ∧ ∃ err s', s'.kb = s.kb
            ∧ ingestDocument contentHash (e.embed service) pipeline doc report s
              = (.error err, s')) := by
  unfold ingestDocument batchesOf
  cases hchunks : chunkDocument (F := F) doc pipeline.chunker with
  | none => exact .inl ⟨rfl, rfl⟩
  | some cs =>
      cases cs with
      | nil =>
          refine .inr ⟨[], rfl, .inl ⟨fun x hx => (nomatch hx), report, rfl, ?_⟩⟩
          rfl
      | cons c cs =>
          unfold storeDocument
          cases hsize : pipeline.batchSize with
          | zero => exact .inl ⟨rfl, rfl⟩
          | succ size =>
              refine .inr ⟨batches size (c :: cs), rfl, ?_⟩
              have hne : batches size (c :: cs) ≠ [] := by
                rw [batches]
                exact List.cons_ne_nil _ _
              have hflat := flatten_batches size (c :: cs)
              rcases embedBatches_exchanges e service s.calls
                (batches size (c :: cs)) with ⟨hall, heq⟩
                | ⟨hnot, err, herr⟩
              · refine .inl ⟨hall, ⟨report.documents + 1,
                  report.chunks + (c :: cs).length⟩, by rw [hflat], ?_⟩
                simp only [heq, if_neg hne]
              · refine .inr ⟨hnot, .embedding err, { s with
                  calls := (embedBatches (e.embed service) s.calls
                    (batches size (c :: cs))).2 }, rfl, ?_⟩
                simp only [herr]

-- ================================================================== runs

theorem readable_append {xs ys : List (EmbedExchange F)} :
    Readable e (xs ++ ys) ↔ Readable e xs ∧ Readable e ys := by
  unfold Readable
  constructor
  · intro h
    exact ⟨fun x hx => h x (List.mem_append_left _ hx),
      fun x hx => h x (List.mem_append_right _ hx)⟩
  · intro h x hx
    rcases List.mem_append.mp hx with hx | hx
    · exact h.1 x hx
    · exact h.2 x hx

/-- A call that can read all its replies ends well, and has offered the
store what the lists make of its chunks. -/
theorem run_readable (contentHash : String → String) {docs : List Document}
    {bs : List (List (Chunk F))} (hplan : plan pipeline docs = some bs) (report : IngestionReport)
    {s : IngestState F} (hread : Readable e (exchanges e service s.calls bs)) :
    ∃ report' s', ingestFrom contentHash (e.embed service) pipeline report
        docs s = (.ok report', s')
      ∧ report'.chunks = report.chunks + bs.flatten.length
      ∧ s'.calls = s.calls + bs.length
      ∧ (s.kb.Indexed contentHash → s'.kb.Indexed contentHash
        ∧ ∀ id, s'.kb.chunks id
          = (((exchanges e service s.calls bs).flatMap
              EmbedExchange.listed).filter fun c => c.id = id).foldl
            (Table.keepFirst fun c => contentHash c.text)
            (s.kb.chunks id)) := by
  induction docs generalizing bs report s with
  | nil =>
      obtain rfl : [] = bs := Option.some.inj hplan
      exact ⟨report, s, rfl, rfl, rfl, fun h => ⟨h, fun _ => rfl⟩⟩
  | cons doc docs ih =>
      obtain ⟨bd, hbd, hplan⟩ := Option.bind_eq_some_iff.mp hplan
      obtain ⟨rest, hrest, rfl⟩ := Option.map_eq_some_iff.mp hplan
      rw [exchanges_append, readable_append] at hread
      rcases turn_exchanges contentHash pipeline e service doc report s with
        ⟨hnone, -⟩ | ⟨bd', hbd', ⟨-, r, hchunks, hturn⟩ | ⟨hnot, -⟩⟩
      · rw [hbd] at hnone
        cases hnone
      · obtain rfl : bd = bd' := Option.some.inj (hbd.symm.trans hbd')
        obtain ⟨report', s', hrun, hcount, hcalls, hkb⟩ := ih hrest r
          (s := ⟨_, s.calls + bd.length⟩) hread.2
        refine ⟨report', s', ?_, ?_, ?_, ?_⟩
        · rw [ingestFrom_cons, hturn]
          exact hrun
        · rw [hcount, hchunks, List.flatten_append, List.length_append,
            Nat.add_assoc]
        · rw [hcalls, List.length_append, Nat.add_assoc]
        · intro hindexed
          rw [exchanges_append, List.flatMap_append]
          have hoffered : (if bd = [] then s.kb else
                s.kb.upsert contentHash ⟨[doc],
                  (exchanges e service s.calls bd).flatMap
                    EmbedExchange.listed⟩).Indexed contentHash
              ∧ ∀ id, (if bd = [] then s.kb else
                s.kb.upsert contentHash ⟨[doc],
                  (exchanges e service s.calls bd).flatMap
                    EmbedExchange.listed⟩).chunks id
                = (((exchanges e service s.calls bd).flatMap
                    EmbedExchange.listed).filter fun c => c.id = id).foldl
                  (Table.keepFirst fun c => contentHash c.text)
                  (s.kb.chunks id) := by
            by_cases hempty : bd = []
            · subst hempty
              exact ⟨hindexed, fun _ => rfl⟩
            · rw [if_neg hempty]
              exact upsert_chunks hindexed [doc] _
          obtain ⟨hindexed', hheld⟩ := hkb hoffered.1
          refine ⟨hindexed', fun id => ?_⟩
          rw [hheld, hoffered.2, List.filter_append, List.foldl_append]
      · obtain rfl : bd = bd' := Option.some.inj (hbd.symm.trans hbd')
        exact absurd hread.1 hnot

/-- And only such a call ends well. -/
theorem plan_of_ok {docs : List Document} {report report' : IngestionReport}
    {s s' : IngestState F}
    (h : ingestFrom contentHash (e.embed service) pipeline report docs s
      = (.ok report', s')) :
    ∃ bs, plan pipeline docs = some bs
      ∧ Readable e (exchanges e service s.calls bs) := by
  induction docs generalizing report s with
  | nil => exact ⟨[], rfl, fun x hx => nomatch hx⟩
  | cons doc docs ih =>
      rw [ingestFrom_cons] at h
      rcases turn_exchanges contentHash pipeline e service doc report s with
        ⟨-, hturn⟩ | ⟨bd, hbd, ⟨hread, r, -, hturn⟩ | ⟨-, err, t, -, hturn⟩⟩
      · rw [hturn] at h
        cases h
      · rw [hturn] at h
        obtain ⟨rest, hrest, hreadrest⟩ := ih h
        refine ⟨bd ++ rest, ?_, ?_⟩
        · rw [plan, hbd, hrest]
          rfl
        · rw [exchanges_append, readable_append]
          exact ⟨hread, hreadrest⟩
      · rw [hturn] at h
        cases h

/-- A call goes on where it has come to. -/
theorem from_append_ok {pre : List Document} {report r : IngestionReport}
    {client : EmbeddingClient F} {s s' : IngestState F}
    (h : ingestFrom contentHash client pipeline report pre s = (.ok r, s'))
    (post : List Document) :
    ingestFrom contentHash client pipeline report (pre ++ post) s
      = ingestFrom contentHash client pipeline r post s' := by
  induction pre generalizing report s with
  | nil =>
      cases h
      rfl
  | cons doc pre ih =>
      rw [ingestFrom_cons] at h
      rw [List.cons_append, ingestFrom_cons]
      cases hturn : (ingestDocument contentHash client pipeline doc report
          s).1 with
      | ok r' =>
          rw [hturn] at h
          exact ih h
      | error err =>
          rw [hturn] at h
          cases h
      | panicked =>
          rw [hturn] at h
          cases h

/-- The writes of documents counted. -/
theorem upsert_written (kb : InMemoryKb F) (doc : Document)
    (es : List (Chunk F)) :
    (kb.upsert contentHash ⟨[doc], es⟩).stats.documentsWritten
      = kb.stats.documentsWritten + 1 := by
  show (es.foldl (InMemoryKb.insertChunk contentHash)
    (kb.insertDocument doc)).stats.documentsWritten = _
  induction es using List.reverseRecOn with
  | nil => rfl
  | append_singleton es c ih =>
      rw [List.foldl_append, List.foldl_cons, List.foldl_nil,
        InMemoryKb.insertChunk_eq, ← ih]
      split <;> rfl

/-- The count of documents never goes down. -/
theorem from_written (contentHash : String → String)
    (client : EmbeddingClient F) (pipeline : Pipeline) (docs : List Document)
    (report : IngestionReport) (s : IngestState F) :
    s.kb.stats.documentsWritten
      ≤ (ingestFrom contentHash client pipeline report docs
        s).2.kb.stats.documentsWritten := by
  induction docs generalizing report s with
  | nil => exact Nat.le_refl _
  | cons doc docs ih =>
      have hturn : s.kb.stats.documentsWritten
          ≤ (ingestDocument contentHash client pipeline doc report
            s).2.kb.stats.documentsWritten := by
        rcases turn_kb contentHash client pipeline doc report s with
          ⟨hkb, -⟩ | ⟨cs, -, hkb⟩
        · rw [hkb]
        · rw [hkb, upsert_written]
          omega
      rw [ingestFrom_cons]
      cases (ingestDocument contentHash client pipeline doc report s).1 with
      | ok r => exact hturn.trans (ih r _)
      | error err => exact hturn
      | panicked => exact hturn

-- =============================================================== pairing

/-- The chunks of these documents. -/
def chunksOf (pipeline : Pipeline) (docs : List Document) : List (Chunk F) :=
  docs.flatMap fun doc => (chunkDocument doc pipeline.chunker).getD []

/-- A call that ends well has stored every chunk, with the vector the
reply gives its text, and has counted them. -/
def Stores (contentHash : String → String) (e : OpenAiEmbedder)
    (service : Nat → EmbedRequest → EmbedReply F) (pipeline : Pipeline)
    (docs : List Document) : Prop :=
  ∀ report s', ingest contentHash (e.embed service) pipeline docs ⟨.new, 0⟩
      = (.ok report, s') →
    report.chunks = (chunksOf (F := F) pipeline docs).length
    ∧ ∃ bs, plan pipeline docs = some bs
      ∧ bs.flatten = chunksOf pipeline docs
      ∧ ∀ x ∈ exchanges e service 0 bs, ∀ i c, x.batch[i]? = some c →
        ∃ v, x.named i = some v ∧ s'.kb.chunks c.id = some (embedded c v)

/-- A call that comes to a document and gets a reply that is not complete
fails there, with the store as it was before the document. -/
def Rejects (contentHash : String → String) (e : OpenAiEmbedder)
    (service : Nat → EmbedRequest → EmbedReply F) (pipeline : Pipeline)
    (docs : List Document) : Prop :=
  ∀ pre doc post bs bd, docs = pre ++ doc :: post →
    plan pipeline pre = some bs → Readable e (exchanges e service 0 bs) →
    batchesOf pipeline doc = some bd →
    (∃ x ∈ exchanges e service bs.length bd, ¬ x.Complete) →
    (∃ err, (ingest contentHash (e.embed service) pipeline docs
      ⟨.new, 0⟩).1 = .error err)
    ∧ (ingest contentHash (e.embed service) pipeline docs ⟨.new, 0⟩).2.kb
      = (ingest contentHash (e.embed service) pipeline pre ⟨.new, 0⟩).2.kb

/-- Where all replies can be read, the first place of a chunk's id in the
lists has that chunk, and the vector the reply gives its text. -/
def Ordered (e : OpenAiEmbedder)
    (service : Nat → EmbedRequest → EmbedReply F) (pipeline : Pipeline)
    (docs : List Document) : Prop :=
  ∀ bs, plan pipeline docs = some bs →
    Readable e (exchanges e service 0 bs) →
    ∀ x ∈ exchanges e service 0 bs, ∀ i c, x.batch[i]? = some c →
      ∃ v, x.named i = some v
        ∧ ((exchanges e service 0 bs).flatMap EmbedExchange.listed).find?
          (fun c' => c'.id = c.id) = some (embedded c v)

/-- Where all replies to a document's texts can be read, they are
complete. -/
def RepliesComplete (e : OpenAiEmbedder)
    (service : Nat → EmbedRequest → EmbedReply F) (pipeline : Pipeline)
    (docs : List Document) : Prop :=
  ∀ pre doc post bs bd, docs = pre ++ doc :: post →
    plan pipeline pre = some bs → Readable e (exchanges e service 0 bs) →
    batchesOf pipeline doc = some bd →
    Readable e (exchanges e service bs.length bd) →
    ∀ x ∈ exchanges e service bs.length bd, x.Complete

theorem batchesOf_flatten {doc : Document} {bd : List (List (Chunk F))}
    (h : batchesOf pipeline doc = some bd) :
    bd.flatten = (chunkDocument doc pipeline.chunker).getD [] := by
  unfold batchesOf at h
  cases hchunks : chunkDocument (F := F) doc pipeline.chunker with
  | none =>
      rw [hchunks] at h
      cases h
  | some cs =>
      rw [hchunks] at h
      cases cs with
      | nil =>
          obtain rfl : [] = bd := Option.some.inj h
          rfl
      | cons c cs =>
          cases hsize : pipeline.batchSize with
          | zero =>
              rw [hsize] at h
              cases h
          | succ size =>
              rw [hsize] at h
              obtain rfl : batches size (c :: cs) = bd := Option.some.inj h
              exact flatten_batches size (c :: cs)

theorem plan_flatten {docs : List Document} {bs : List (List (Chunk F))}
    (h : plan pipeline docs = some bs) :
    bs.flatten = chunksOf pipeline docs := by
  induction docs generalizing bs with
  | nil =>
      obtain rfl : [] = bs := Option.some.inj h
      rfl
  | cons doc docs ih =>
      obtain ⟨bd, hbd, h⟩ := Option.bind_eq_some_iff.mp h
      obtain ⟨rest, hrest, rfl⟩ := Option.map_eq_some_iff.mp h
      rw [List.flatten_append, batchesOf_flatten hbd, ih hrest]
      rfl

/-- What is listed is a chunk at some place. -/
theorem mem_listed {xs : List (EmbedExchange F)} {l : Chunk F}
    (h : l ∈ xs.flatMap EmbedExchange.listed) :
    ∃ x ∈ xs, ∃ (i : Nat) (c : Chunk F), x.batch[i]? = some c
      ∧ ∃ v, l = embedded c v := by
  obtain ⟨x, hx, hl⟩ := List.mem_flatMap.mp h
  obtain ⟨c, hc, v, rfl⟩ := mem_pairUp hl
  obtain ⟨i, hi⟩ := List.mem_iff_getElem?.mp hc
  exact ⟨x, hx, i, c, hi, v, rfl⟩

/-- Where all that is offered under an id has one text, the first is
kept. -/
theorem kept_first (contentHash : String → String) {ls : List (Chunk F)}
    (held : Table ChunkId (Chunk F))
    (h : ∀ l ∈ ls, ∃ c, held l.id = some c ∧ c.text = l.text) (id : ChunkId) :
    (ls.filter fun c => c.id = id).foldl
        (Table.keepFirst fun c => contentHash c.text) none
      = ls.find? fun c => c.id = id := by
  rw [← List.head?_filter]
  have halike : ∀ l ∈ ls.filter (fun c => c.id = id),
      ∃ c, held id = some c ∧ c.text = l.text := by
    intro l hl
    obtain ⟨hmem, hid⟩ := List.mem_filter.mp hl
    have hid : l.id = id := by simpa using hid
    exact hid ▸ h l hmem
  generalize ls.filter (fun c => c.id = id) = run at halike
  induction run using List.reverseRecOn with
  | nil => rfl
  | append_singleton run l ih =>
      rw [List.foldl_append, ih fun l' hl' =>
        halike l' (List.mem_append_left _ hl')]
      cases run with
      | nil => rfl
      | cons first run =>
          obtain ⟨c, hc, hfirst⟩ := halike first (by simp)
          obtain ⟨c', hc', hl⟩ := halike l (by simp)
          rw [hc, Option.some.injEq] at hc'
          have hsame : first.text = l.text := by
            rw [← hfirst, ← hl, hc']
          exact if_pos (congrArg contentHash hsame)

/-- The chunks are stored with their vectors where the lists are in
order. -/
theorem stores_iff_ordered (contentHash : String → String)
    (e : OpenAiEmbedder) (service : Nat → EmbedRequest → EmbedReply F)
    (pipeline : Pipeline) (docs : List Document) :
    Stores contentHash e service pipeline docs
      ↔ Ordered e service pipeline docs := by
  constructor
  · intro h bs hplan hread x hx i c hc
    obtain ⟨report', s', hrun, -, -, hkb⟩ := run_readable contentHash hplan ⟨0, 0⟩ (s := ⟨.new, 0⟩) hread
    obtain ⟨-, bs', hplan', -, hstored⟩ := h report' s' hrun
    obtain rfl : bs = bs' := Option.some.inj (hplan.symm.trans hplan')
    have hheld := (hkb (InMemoryKb.indexed_new contentHash)).2
    have hone : ∀ l ∈ (exchanges e service 0 bs).flatMap EmbedExchange.listed,
        ∃ c', s'.kb.chunks l.id = some c' ∧ c'.text = l.text := by
      intro l hl
      obtain ⟨x', hx', i', c', hc', v', rfl⟩ := mem_listed hl
      obtain ⟨v'', -, hfound⟩ := hstored x' hx' i' c' hc'
      exact ⟨embedded c' v'', hfound, rfl⟩
    have hkept := kept_first contentHash s'.kb.chunks hone c.id
    obtain ⟨v, hv, hfound⟩ := hstored x hx i c hc
    refine ⟨v, hv, ?_⟩
    rw [← hkept, ← hfound, hheld]
    rfl
  · intro h report s' hrun
    obtain ⟨bs, hplan, hread⟩ := plan_of_ok hrun
    obtain ⟨report', t, hrun', hcount, -, hkb⟩ := run_readable contentHash hplan ⟨0, 0⟩ (s := ⟨.new, 0⟩) hread
    cases hrun.symm.trans hrun'
    have hflat := plan_flatten hplan
    refine ⟨?_, bs, hplan, hflat, fun x hx i c hc => ?_⟩
    · rw [hcount, hflat, Nat.zero_add]
    · have hfirst := h bs hplan hread
      have hone : ∀ l ∈ (exchanges e service 0 bs).flatMap
          EmbedExchange.listed, ∃ c', ((exchanges e service 0 bs).flatMap
            EmbedExchange.listed).find? (fun c => c.id = l.id) = some c'
              ∧ c'.text = l.text := by
        intro l hl
        obtain ⟨x', hx', i', c', hc', v', rfl⟩ := mem_listed hl
        obtain ⟨v'', -, hfound⟩ := hfirst x' hx' i' c' hc'
        exact ⟨embedded c' v'', hfound, rfl⟩
      have hkept := kept_first contentHash (fun id => ((exchanges e service 0
        bs).flatMap EmbedExchange.listed).find? fun c => c.id = id) hone c.id
      obtain ⟨v, hv, hfound⟩ := hfirst x hx i c hc
      refine ⟨v, hv, ?_⟩
      rw [(hkb (InMemoryKb.indexed_new contentHash)).2, ← hfound, ← hkept]
      rfl

/-- Replies that are not complete are refused where there are none. -/
theorem rejects_iff_complete (contentHash : String → String)
    (e : OpenAiEmbedder) (service : Nat → EmbedRequest → EmbedReply F)
    (pipeline : Pipeline) (docs : List Document) :
    Rejects contentHash e service pipeline docs
      ↔ RepliesComplete e service pipeline docs := by
  constructor
  · intro h pre doc post bs bd hdocs hplan hread hbd hreadable x hx
    by_contra hx'
    obtain ⟨-, hkb⟩ := h pre doc post bs bd hdocs hplan hread hbd ⟨x, hx, hx'⟩
    obtain ⟨r, s₁, hpre, -, hcalls, -⟩ := run_readable contentHash hplan ⟨0, 0⟩ (s := ⟨.new, 0⟩) hread
    have hcalls : s₁.calls = bs.length := hcalls.trans (Nat.zero_add _)
    have hne : bd ≠ [] := by
      rintro rfl
      cases hx
    rcases turn_exchanges contentHash pipeline e service doc r s₁ with
      ⟨hnone, -⟩ | ⟨bd', hbd', ⟨-, r', -, hturn⟩ | ⟨hnot, -⟩⟩
    · rw [hbd] at hnone
      cases hnone
    · -- the document is stored, and counted
      unfold ingest at hkb
      rw [hdocs, from_append_ok hpre, ingestFrom_cons, hturn, hpre] at hkb
      have hlater := from_written contentHash (e.embed service) pipeline post r'
        ⟨s₁.kb.upsert contentHash ⟨[doc], (exchanges e service s₁.calls
          bd').flatMap EmbedExchange.listed⟩, s₁.calls + bd'.length⟩
      obtain rfl : bd = bd' := Option.some.inj (hbd.symm.trans hbd')
      rw [if_neg hne] at hkb
      have hsame := congrArg (fun kb => kb.stats.documentsWritten) hkb
      simp only at hsame hlater
      rw [hsame, upsert_written] at hlater
      omega
    · obtain rfl : bd = bd' := Option.some.inj (hbd.symm.trans hbd')
      rw [hcalls] at hnot
      exact hnot hreadable
  · intro h pre doc post bs bd hdocs hplan hread hbd hbad
    obtain ⟨x, hx, hx'⟩ := hbad
    obtain ⟨r, s₁, hpre, -, hcalls, -⟩ := run_readable contentHash hplan ⟨0, 0⟩ (s := ⟨.new, 0⟩) hread
    have hcalls : s₁.calls = bs.length := hcalls.trans (Nat.zero_add _)
    rcases turn_exchanges contentHash pipeline e service doc r s₁ with
      ⟨hnone, -⟩ | ⟨bd', hbd', ⟨hreadable, -⟩ | ⟨-, err, t, hkb, hturn⟩⟩
    · rw [hbd] at hnone
      cases hnone
    · obtain rfl : bd = bd' := Option.some.inj (hbd.symm.trans hbd')
      rw [hcalls] at hreadable
      exact absurd (h pre doc post bs bd hdocs hplan hread hbd hreadable x hx)
        hx'
    · unfold ingest
      rw [hdocs, from_append_ok hpre, ingestFrom_cons, hturn, hpre]
      exact ⟨⟨err, rfl⟩, hkb⟩

/-- Vectors are paired with the right chunks, and none is lost, just where
every reply that is read lists one vector for each text, in the places of
the chunks. -/
theorem paired_iff_ordered (contentHash : String → String)
    (e : OpenAiEmbedder) (service : Nat → EmbedRequest → EmbedReply F)
    (pipeline : Pipeline) (docs : List Document) :
    Stores contentHash e service pipeline docs
        ∧ Rejects contentHash e service pipeline docs
      ↔ Ordered e service pipeline docs
        ∧ RepliesComplete e service pipeline docs :=
  and_congr (stores_iff_ordered contentHash e service pipeline docs)
    (rejects_iff_complete contentHash e service pipeline docs)

-- =========================================================== a short reply

/-- An endpoint that lists nothing. -/
def emptyReplies : Nat → EmbedRequest → EmbedReply Unit :=
  fun _ _ => .body (.ok [])

/-- A note ingested with an empty reply: the call ends well, reports the
note's chunk, and has not stored it. -/
theorem short_reply_loses :
    ¬ ∀ (contentHash : String → String) (e : OpenAiEmbedder)
      (service : Nat → EmbedRequest → EmbedReply Unit) (pipeline : Pipeline)
      (docs : List Document),
      Stores contentHash e service pipeline docs
        ∧ Rejects contentHash e service pipeline docs := by
  intro h
  obtain ⟨hstores, -⟩ := h id ⟨"m", 1⟩ emptyReplies .default [note "t"]
  have hbatches : batchesOf Pipeline.default (note "t") = some [[noteChunk]] := by
    have hcut : batches 31 [noteChunk] = [[noteChunk]] := by
      rw [batches, List.drop_nil, batches]
      rfl
    unfold batchesOf
    rw [show Pipeline.default.chunker = .default from rfl, note_chunks]
    exact congrArg some hcut
  have hplan : plan Pipeline.default [note "t"] = some [[noteChunk]] := by
    rw [plan, hbatches]
    rfl
  have hread : Readable ⟨"m", 1⟩
      (exchanges ⟨"m", 1⟩ emptyReplies 0 [[noteChunk]]) := by
    intro x hx
    rw [List.mem_singleton.mp hx]
    exact ⟨[], rfl⟩
  obtain ⟨v, hv, -⟩ := (stores_iff_ordered id _ _ _ _).mp hstores _ hplan hread
    _ (List.mem_singleton.mpr rfl) 0 noteChunk rfl
  cases hv

end SapAutomate.Ingest
