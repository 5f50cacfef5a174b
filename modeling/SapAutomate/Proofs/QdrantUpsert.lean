/-
What a Qdrant upsert leaves behind when it fails on one of its chunks.

The documents are kept first and never taken back, and a group is checked
when its turn comes, after the groups before it have been put. So a
failed batch is invisible just where its documents were there already and
the group with the bad chunk comes first (`FailsFirst`).
-/
import SapAutomate.Kb.Qdrant

namespace SapAutomate.Kb

open Json

variable {F : Type} {sha256 : String → Vector UInt8 32} {floatJson : F → Value}

-- ================================================================ checks

/-- The chunk has a vector of this dimension. -/
def Dimensioned (dim : Nat) (c : Chunk F) : Prop :=
  ∃ v, c.embedding = some v ∧ v.length = dim

/-- What `upsert` fails with at this chunk. -/
def RefusedWith (dim : Nat) (c : Chunk F) (e : StoreError) : Prop :=
  (c.embedding = none ∧ e = missingEmbedding c.id)
  ∨ ∃ v, c.embedding = some v ∧ v.length ≠ dim ∧ e = wrongDim c.id v.length dim

/-- The point of a chunk that has a vector. -/
def readyPoint (sha256 : String → Vector UInt8 32) (floatJson : F → Value)
    (c : Chunk F) : Value :=
  point sha256 floatJson c (c.embedding.getD [])

theorem checkedPoint_ok {dim : Nat} {c : Chunk F} (h : Dimensioned dim c) :
    checkedPoint sha256 floatJson dim c
      = .ok (readyPoint sha256 floatJson c) := by
  obtain ⟨v, hv, hlen⟩ := h
  unfold checkedPoint readyPoint
  rw [hv]
  exact if_neg (not_not_intro hlen)

theorem checkedPoint_error (sha256 : String → Vector UInt8 32)
    (floatJson : F → Value) {dim : Nat} {c : Chunk F}
    (h : ¬ Dimensioned dim c) :
    ∃ e, checkedPoint sha256 floatJson dim c = .error e
      ∧ RefusedWith dim c e := by
  unfold checkedPoint
  cases hv : c.embedding with
  | none => exact ⟨_, rfl, .inl ⟨hv, rfl⟩⟩
  | some v =>
      have hlen : v.length ≠ dim := fun hlen => h ⟨v, hv, hlen⟩
      exact ⟨_, if_pos hlen, .inr ⟨v, hv, hlen, rfl⟩⟩

/-- A group is ready where all its chunks are. -/
theorem points_ok {dim : Nat} {cs : List (Chunk F)}
    (h : ∀ c ∈ cs, Dimensioned dim c) :
    points sha256 floatJson dim cs
      = .ok (cs.map (readyPoint sha256 floatJson)) := by
  induction cs with
  | nil => rfl
  | cons c cs ih =>
      rw [points, checkedPoint_ok (h c (List.mem_cons_self ..)),
        ih fun c' hc' => h c' (List.mem_cons_of_mem _ hc')]
      rfl

theorem points_error (sha256 : String → Vector UInt8 32)
    (floatJson : F → Value) {dim : Nat} {cs : List (Chunk F)}
    (h : ¬ ∀ c ∈ cs, Dimensioned dim c) :
    ∃ e, points sha256 floatJson dim cs = .error e
      ∧ ∃ c ∈ cs, RefusedWith dim c e := by
  induction cs with
  | nil => exact absurd (fun c hc => nomatch hc) h
  | cons c cs ih =>
      by_cases hc : Dimensioned dim c
      · have hrest : ¬ ∀ c ∈ cs, Dimensioned dim c := by
          intro hall
          apply h
          intro c' hc'
          rcases List.mem_cons.mp hc' with rfl | hc'
          · exact hc
          · exact hall c' hc'
        obtain ⟨e, he, c', hc', hrefused⟩ := ih hrest
        refine ⟨e, ?_, c', List.mem_cons_of_mem _ hc', hrefused⟩
        rw [points, checkedPoint_ok hc, he]
        rfl
      · obtain ⟨e, he, hrefused⟩ := checkedPoint_error sha256 floatJson hc
        refine ⟨e, ?_, c, List.mem_cons_self .., hrefused⟩
        rw [points, he]

-- ================================================================ groups

/-- The request that puts a group that is ready. -/
def groupRequest (sha256 : String → Vector UInt8 32) (floatJson : F → Value)
    (q : QdrantStore) (g : Domain × List (Chunk F)) : PutRequest :=
  q.putRequest g.1 (g.2.map (readyPoint sha256 floatJson))

/-- From request `n` on, these groups are ready and are accepted. -/
def Taken (sha256 : String → Vector UInt8 32) (floatJson : F → Value)
    (q : QdrantStore) (service : Nat → PutRequest → PutReply) :
    Nat → List (Domain × List (Chunk F)) → Prop
  | _, [] => True
  | n, g :: gs =>
      (∀ c ∈ g.2, Dimensioned q.embeddingDim c)
      ∧ service n (groupRequest sha256 floatJson q g) = .accepted
      ∧ Taken sha256 floatJson q service (n + 1) gs

/-- The groups that are taken come first. -/
theorem putGroups_append {q : QdrantStore}
    {service : Nat → PutRequest → PutReply} {n : Nat}
    {pre : List (Domain × List (Chunk F))}
    (h : Taken sha256 floatJson q service n pre)
    (post : List (Domain × List (Chunk F))) :
    q.putGroups sha256 floatJson service n (pre ++ post)
      = ((q.putGroups sha256 floatJson service (n + pre.length) post).1,
        pre.map (groupRequest sha256 floatJson q)
          ++ (q.putGroups sha256 floatJson service (n + pre.length) post).2) := by
  induction pre generalizing n with
  | nil => rfl
  | cons g pre ih =>
      obtain ⟨hready, haccepted, hrest⟩ := h
      obtain ⟨domain, chunks⟩ := g
      have hlen : n + ((domain, chunks) :: pre).length = n + 1 + pre.length := by
        rw [List.length_cons]
        omega
      rw [List.cons_append, QdrantStore.putGroups, points_ok hready, hlen]
      have haccepted : service n (q.putRequest domain
        (chunks.map (readyPoint sha256 floatJson))) = .accepted := haccepted
      simp only [haccepted, ih hrest]
      rfl

/-- The errors of a chunk begin like no other. -/
theorem RefusedWith.head {dim : Nat} {c : Chunk F} {text : String}
    (h : RefusedWith dim c (.backend text)) : text.toList.head? = some 'c' := by
  rcases h with ⟨-, he⟩ | ⟨v, -, -, he⟩
  · rw [StoreError.backend.inj he]
    simp
  · rw [StoreError.backend.inj he]
    simp

/-- How the loop ends: at a group with a bad chunk, after groups that are
taken, or without an error of a chunk. -/
theorem putGroups_cases (sha256 : String → Vector UInt8 32)
    (floatJson : F → Value) (q : QdrantStore)
    (service : Nat → PutRequest → PutReply) (n : Nat)
    (gs : List (Domain × List (Chunk F))) :
    (∃ pre g post, gs = pre ++ g :: post
      ∧ Taken sha256 floatJson q service n pre
      ∧ ¬ ∀ c ∈ g.2, Dimensioned q.embeddingDim c)
    ∨ ∀ e (c : Chunk F), RefusedWith q.embeddingDim c e →
      (q.putGroups sha256 floatJson service n gs).1 ≠ .error e := by
  induction gs generalizing n with
  | nil => exact .inr fun e c _ h => nomatch h
  | cons g gs ih =>
      obtain ⟨domain, chunks⟩ := g
      by_cases hready : ∀ c ∈ chunks, Dimensioned q.embeddingDim c
      · cases hreply : service n (groupRequest sha256 floatJson q
            (domain, chunks)) with
        | unsent reason =>
            refine .inr fun e c hrefused h => ?_
            rw [QdrantStore.putGroups, points_ok hready] at h
            have hreply : service n (q.putRequest domain
              (chunks.map (readyPoint sha256 floatJson))) = _ := hreply
            simp only [hreply] at h
            obtain rfl := Except.error.inj h
            have hhead := hrefused.head
            simp at hhead
        | refused text =>
            refine .inr fun e c hrefused h => ?_
            rw [QdrantStore.putGroups, points_ok hready] at h
            have hreply : service n (q.putRequest domain
              (chunks.map (readyPoint sha256 floatJson))) = _ := hreply
            simp only [hreply] at h
            obtain rfl := Except.error.inj h
            have hhead := hrefused.head
            simp at hhead
        | accepted =>
            rcases ih (n + 1) with ⟨pre, g, post, rfl, htaken, hbad⟩ | hother
            · exact .inl ⟨(domain, chunks) :: pre, g, post, rfl,
                ⟨hready, hreply, htaken⟩, hbad⟩
            · refine .inr fun e c hrefused h => ?_
              rw [QdrantStore.putGroups, points_ok hready] at h
              have hreply : service n (q.putRequest domain
                (chunks.map (readyPoint sha256 floatJson))) = _ := hreply
              simp only [hreply] at h
              exact hother e c hrefused h
      · exact .inl ⟨[], (domain, chunks), gs, rfl, trivial, hready⟩

/-- The requests do not depend on the documents kept. -/
theorem putGroups_documents (q : QdrantStore)
    (m : Table DocumentId Document) (service : Nat → PutRequest → PutReply)
    (n : Nat) (gs : List (Domain × List (Chunk F))) :
    ({ q with documents := m } : QdrantStore).putGroups sha256 floatJson
        service n gs
      = q.putGroups sha256 floatJson service n gs := by
  induction gs generalizing n with
  | nil => rfl
  | cons g gs ih =>
      obtain ⟨domain, chunks⟩ := g
      unfold QdrantStore.putGroups
      rw [ih]
      rfl

-- ================================================================= upsert

theorem upsert_eq (q : QdrantStore) (service : Nat → PutRequest → PutReply)
    (batch : UpsertBatch F) (order : GroupOrder batch.chunks) :
    q.upsert sha256 floatJson service batch order
      = ⟨(q.putGroups sha256 floatJson service 0 order.groups).1,
        { q with documents := q.documents.putAll Document.id batch.documents },
        (q.putGroups sha256 floatJson service 0 order.groups).2⟩ := by
  show QdrantStore.Upserted.mk _ _ _ = _
  rw [putGroups_documents]

/-- Nothing of a batch can be seen: neither its documents in the store,
nor a request. -/
def Invisible (q : QdrantStore) (out : QdrantStore.Upserted) : Prop :=
  (∀ id, out.store.getDocument id = q.getDocument id) ∧ out.sent = []

variable (sha256 floatJson)

/-- An upsert that fails on one of its chunks is invisible. -/
def FailsInvisibly (q : QdrantStore) (service : Nat → PutRequest → PutReply)
    (batch : UpsertBatch F) (order : GroupOrder batch.chunks) : Prop :=
  ∀ e, (∃ c ∈ batch.chunks, RefusedWith q.embeddingDim c e) →
    (q.upsert sha256 floatJson service batch order).result = .error e →
    Invisible q (q.upsert sha256 floatJson service batch order)

/-- A group with a bad chunk that the upsert comes to is the first of all,
and the documents are there already. -/
def FailsFirst (q : QdrantStore) (service : Nat → PutRequest → PutReply)
    (batch : UpsertBatch F) (order : GroupOrder batch.chunks) : Prop :=
  ∀ pre g post, order.groups = pre ++ g :: post →
    Taken sha256 floatJson q service 0 pre →
    (¬ ∀ c ∈ g.2, Dimensioned q.embeddingDim c) →
    pre = [] ∧ ∀ d, (batch.documents.filter fun d' => d'.id = d.id).getLast?
      = some d → q.documents d.id = some d

variable {sha256 floatJson}

/-- An upsert that comes to a bad chunk. -/
theorem upsert_bad {q : QdrantStore} {service : Nat → PutRequest → PutReply}
    {batch : UpsertBatch F} {order : GroupOrder batch.chunks}
    {pre post : List (Domain × List (Chunk F))} {g : Domain × List (Chunk F)}
    (hgroups : order.groups = pre ++ g :: post)
    (htaken : Taken sha256 floatJson q service 0 pre)
    (hbad : ¬ ∀ c ∈ g.2, Dimensioned q.embeddingDim c) :
    (∃ e, (∃ c ∈ batch.chunks, RefusedWith q.embeddingDim c e)
      ∧ (q.upsert sha256 floatJson service batch order).result = .error e)
    ∧ (q.upsert sha256 floatJson service batch order).sent
      = pre.map (groupRequest sha256 floatJson q) := by
  obtain ⟨e, he, c, hc, hrefused⟩ := points_error sha256 floatJson hbad
  obtain ⟨domain, chunks⟩ := g
  have hout : q.putGroups sha256 floatJson service 0 order.groups
      = (.error e, pre.map (groupRequest sha256 floatJson q)) := by
    rw [hgroups, putGroups_append htaken, QdrantStore.putGroups, he,
      List.append_nil]
  have hmem : (domain, chunks) ∈ order.groups := by
    rw [hgroups]
    simp
  have hchunk : c ∈ batch.chunks := by
    obtain ⟨d, -, hd⟩ := List.mem_map.mp hmem
    have hchunks : batch.chunks.filter (fun c => c.domain = d) = chunks :=
      congrArg Prod.snd hd
    have hfiltered : c ∈ batch.chunks.filter (fun c => c.domain = d) :=
      hchunks ▸ hc
    exact (List.mem_filter.mp hfiltered).1
  rw [upsert_eq, hout]
  exact ⟨⟨e, ⟨c, hchunk, hrefused⟩, rfl⟩, rfl⟩

/-- A failure on a chunk leaves nothing of the batch behind just where the
bad group comes first and the documents were there. -/
theorem failsInvisibly_iff_first (sha256 : String → Vector UInt8 32)
    (floatJson : F → Value) (q : QdrantStore)
    (service : Nat → PutRequest → PutReply) (batch : UpsertBatch F)
    (order : GroupOrder batch.chunks) :
    FailsInvisibly sha256 floatJson q service batch order
      ↔ FailsFirst sha256 floatJson q service batch order := by
  have hstash : ∀ id,
      (q.upsert sha256 floatJson service batch order).store.getDocument id
        = ((batch.documents.filter fun d => d.id = id).getLast?).or
          (q.documents id) :=
    fun id => Table.putAll_apply Document.id q.documents batch.documents id
  constructor
  · intro h pre g post hgroups htaken hbad
    obtain ⟨⟨e, hrefused, hresult⟩, hsent⟩ := upsert_bad hgroups htaken hbad
    obtain ⟨hdocs, hnone⟩ := h e hrefused hresult
    rw [hsent] at hnone
    refine ⟨List.map_eq_nil_iff.mp hnone, fun d hd => ?_⟩
    have hsame := hdocs d.id
    rw [hstash, hd] at hsame
    exact hsame.symm
  · intro h e hrefused hresult
    obtain ⟨c, -, hrefused⟩ := hrefused
    rcases putGroups_cases sha256 floatJson q service 0 order.groups with
      ⟨pre, g, post, hgroups, htaken, hbad⟩ | hother
    · obtain ⟨hpre, hdocs⟩ := h pre g post hgroups htaken hbad
      obtain ⟨-, hsent⟩ := upsert_bad hgroups htaken hbad
      refine ⟨fun id => ?_, by rw [hsent, hpre]; rfl⟩
      rw [hstash]
      cases hlast : (batch.documents.filter fun d => d.id = id).getLast? with
      | none => rfl
      | some d =>
          have hmem := List.mem_of_getLast? hlast
          have hid : d.id = id := by simpa using (List.mem_filter.mp hmem).2
          subst hid
          exact (hdocs d hlast).symm
    · rw [upsert_eq] at hresult
      exact absurd hresult (hother e c hrefused)

/-- A document of the help portal, and a chunk of it without a vector. -/
def helpPage : Document := .new id "sap_help:n" .sapHelp "u" "T" "t"

def bareChunk : Chunk Unit where
  id := "sap_help:n#chunk-0"
  documentId := "sap_help:n"
  domain := .sapHelp
  ordinal := 0
  text := "t"
  embedding := none
  breadcrumbs := []
  title := "T"
  uri := "u"

/-- The one group of that chunk. -/
def bareOrder : GroupOrder [bareChunk] where
  domains := [.sapHelp]
  nodup := by simp
  mem_iff := by
    intro d
    simp only [List.mem_singleton, exists_eq_left]
    exact eq_comm

/-- The upsert of both fails, and the document can be read. -/
theorem failed_upsert_visible :
    ¬ ∀ (sha256 : String → Vector UInt8 32) (floatJson : Unit → Value)
      (q : QdrantStore) (service : Nat → PutRequest → PutReply)
      (batch : UpsertBatch Unit) (order : GroupOrder batch.chunks),
      FailsInvisibly sha256 floatJson q service batch order := by
  intro h
  obtain ⟨hdocs, -⟩ := h (fun _ => .replicate 32 0) (fun _ => .null)
    (.new "http://localhost" 1) (fun _ _ => .accepted)
    ⟨[helpPage], [bareChunk]⟩ bareOrder (missingEmbedding bareChunk.id)
    ⟨bareChunk, List.mem_singleton.mpr rfl, .inl ⟨rfl, rfl⟩⟩ rfl
  have hpage : some helpPage = none := hdocs helpPage.id
  cases hpage

end SapAutomate.Kb
