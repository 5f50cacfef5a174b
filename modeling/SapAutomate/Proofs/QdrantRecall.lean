/-
What a search of the Qdrant store gives back.

A point carries its chunk in its payload, all but the vector
(`chunkFromPayload_payload`), and whatever `upsert` puts to a collection
is the point of a chunk of that domain (`upsert_sent`). So an endpoint
that answers with points put to the collection it is asked about, the
best first, has its answers read as chunks that were upserted; and these
are the best of all that the collections hold, though each was asked for
no more than are wanted (`Best.flatMap`).
-/
import Mathlib.Algebra.Order.Ring.Rat
import SapAutomate.Kb.QdrantSearch
import SapAutomate.Lib.Best
import SapAutomate.Proofs.QdrantUpsert

namespace SapAutomate.Json

theorem Value.asU64_ofInt {n : Nat} (h : n < 2 ^ 64) :
    (Value.ofInt n).asU64 = some n := by
  have htext : (Number.ofInt n).text.toList = Nat.toDigits 10 n := by
    simp [Number.ofInt, decimal]
  unfold Value.ofInt Value.asU64
  simp only [htext, all_isDigit_toDigits, ofDecimal_toDigits, if_true]
  exact if_pos h

end SapAutomate.Json

namespace SapAutomate.Kb

open Iteration Json

variable {K : Type} {sha256 : String → Vector UInt8 32} {floatJson : K → Value}

-- ================================================================ points

/-- What a point carries besides its id and its vector. -/
def payload (c : Chunk K) : Map :=
  Map.ofEntries [
    ("chunk_id", .string c.id),
    ("document_id", .string c.documentId),
    ("ordinal", Value.ofInt c.ordinal),
    ("text", .string c.text),
    ("title", .string c.title),
    ("uri", .string c.uri),
    ("breadcrumbs", .array (c.breadcrumbs.map .string))]

theorem get_payload (c : Chunk K) (key : String) :
    (Value.object (payload c)).get key = Map.get [
      ("chunk_id", .string c.id),
      ("document_id", .string c.documentId),
      ("ordinal", Value.ofInt c.ordinal),
      ("text", .string c.text),
      ("title", .string c.title),
      ("uri", .string c.uri),
      ("breadcrumbs", .array (c.breadcrumbs.map .string))] key :=
  Map.get_ofEntries (by simp) key

theorem readyPoint_payload (c : Chunk K) :
    (readyPoint sha256 floatJson c).get "payload"
      = some (.object (payload c)) := by
  unfold readyPoint point
  refine (Map.get_ofEntries ?_ "payload").trans ?_
  · simp
  · simp [Map.get_cons, payload]

/-- A chunk as it is read back: all but its vector. -/
def Chunk.recalled (c : Chunk K) : Chunk K := { c with embedding := none }

theorem chunkFromPayload_payload {c : Chunk K} (h : c.ordinal < 2 ^ 32) :
    chunkFromPayload c.domain (.object (payload c)) = some c.recalled := by
  have hbig : c.ordinal < 2 ^ 64 := h.trans (by decide)
  have hcrumbs : (c.breadcrumbs.map Value.string).filterMap Value.asStr
      = c.breadcrumbs := by
    induction c.breadcrumbs with
    | nil => rfl
    | cons b bs ih =>
        simp [Value.asStr, ih]
  unfold chunkFromPayload Chunk.recalled
  simp only [get_payload]
  simpa [Map.get_cons, Value.asStr, Value.asArray, Value.asU64_ofInt hbig,
    hcrumbs] using h

-- =============================================================== upserts

/-- A call of `upsert`: its batch, the order in which the domains come,
and how the endpoint replies. -/
structure UpsertCall (K : Type) where
  batch : UpsertBatch K
  order : GroupOrder batch.chunks
  service : Nat → PutRequest → PutReply

/-- What one call comes to. -/
def UpsertCall.run (sha256 : String → Vector UInt8 32) (floatJson : K → Value)
    (call : UpsertCall K) (q : QdrantStore) : QdrantStore.Upserted :=
  q.upsert sha256 floatJson call.service call.batch call.order

/-- The store after calls, and all that they have sent. -/
def upsertAll (sha256 : String → Vector UInt8 32) (floatJson : K → Value) :
    QdrantStore → List (UpsertCall K) → QdrantStore × List PutRequest
  | q, [] => (q, [])
  | q, call :: calls =>
      let out := call.run sha256 floatJson q
      let after := upsertAll sha256 floatJson out.store calls
      (after.1, out.sent ++ after.2)

/-- The requests of the loop put groups that are ready. -/
theorem putGroups_sent {q : QdrantStore}
    {service : Nat → PutRequest → PutReply} {r : PutRequest} {n : Nat}
    {gs : List (Domain × List (Chunk K))}
    (h : r ∈ (q.putGroups sha256 floatJson service n gs).2) :
    ∃ g ∈ gs, r = groupRequest sha256 floatJson q g := by
  induction gs generalizing n with
  | nil => cases h
  | cons g gs ih =>
      obtain ⟨domain, chunks⟩ := g
      by_cases hready : ∀ c ∈ chunks, Dimensioned q.embeddingDim c
      · rw [QdrantStore.putGroups, points_ok hready] at h
        have hfirst : groupRequest sha256 floatJson q (domain, chunks)
            = q.putRequest domain (chunks.map (readyPoint sha256 floatJson)) :=
          rfl
        simp only [← hfirst] at h
        cases hreply : service n (groupRequest sha256 floatJson q
            (domain, chunks)) with
        | unsent reason =>
            simp only [hreply] at h
            exact ⟨_, List.mem_cons_self .., List.mem_singleton.mp h⟩
        | refused text =>
            simp only [hreply] at h
            exact ⟨_, List.mem_cons_self .., List.mem_singleton.mp h⟩
        | accepted =>
            simp only [hreply] at h
            rcases List.mem_cons.mp h with h | h
            · exact ⟨_, List.mem_cons_self .., h⟩
            · obtain ⟨g, hg, hr⟩ := ih h
              exact ⟨g, List.mem_cons_of_mem _ hg, hr⟩
      · obtain ⟨e, he, -⟩ := points_error sha256 floatJson hready
        rw [QdrantStore.putGroups, he] at h
        cases h

/-- What calls send are points of their chunks, to the collections of
their domains. -/
theorem upsertAll_sent {q : QdrantStore} {calls : List (UpsertCall K)}
    {r : PutRequest} (h : r ∈ (upsertAll sha256 floatJson q calls).2) :
    ∃ call ∈ calls, ∃ d, r = groupRequest sha256 floatJson q
      (d, call.batch.chunks.filter fun c => c.domain = d) := by
  induction calls generalizing q with
  | nil => cases h
  | cons call calls ih =>
      rw [upsertAll] at h
      rcases List.mem_append.mp h with h | h
      · rw [UpsertCall.run, upsert_eq] at h
        obtain ⟨g, hg, rfl⟩ := putGroups_sent h
        obtain ⟨d, -, rfl⟩ := List.mem_map.mp hg
        exact ⟨call, List.mem_cons_self .., d, rfl⟩
      · obtain ⟨call', hcall, d, hr⟩ := ih h
        exact ⟨call', List.mem_cons_of_mem _ hcall, d, hr⟩

theorem upsertAll_baseUrl (q : QdrantStore) (calls : List (UpsertCall K)) :
    (upsertAll sha256 floatJson q calls).1.baseUrl = q.baseUrl := by
  induction calls generalizing q with
  | nil => rfl
  | cons call calls ih => exact ih _

theorem Domain.collection_injective : Function.Injective Domain.collection := by
  intro d d' h
  cases d <;> cases d' <;> first | rfl | exact absurd h (by decide)

theorem upsertUrl_inj {q : QdrantStore} {d d' : Domain}
    (h : q.upsertUrl d = q.upsertUrl d') : d = d' := by
  apply Domain.collection_injective
  unfold QdrantStore.upsertUrl at h
  have hlist := congrArg String.toList h
  simp only [String.toList_append, List.append_assoc,
    List.append_cancel_left_eq] at hlist
  exact String.toList_injective (List.append_cancel_right hlist)

-- ============================================================== endpoint

/-- The point was put to the collection of a domain. -/
def Put (q : QdrantStore) (sent : List PutRequest) (d : Domain) (p : Value) :
    Prop :=
  ∃ r ∈ sent, r.url = q.upsertUrl d
    ∧ ∃ ps, r.body.get "points" = some (.array ps) ∧ p ∈ ps

theorem Put.of_baseUrl {s q : QdrantStore} {sent : List PutRequest}
    {d : Domain} {p : Value} (h : Put s sent d p)
    (hurl : s.baseUrl = q.baseUrl) : Put q sent d p := by
  obtain ⟨r, hr, hto, hps⟩ := h
  refine ⟨r, hr, ?_, hps⟩
  rw [hto, QdrantStore.upsertUrl, QdrantStore.upsertUrl, hurl]

/-- A point that the endpoint found, with its score. -/
def foundHit (x : Value × K) : QdrantHit K where
  id := (x.1.get "id").getD .null
  score := x.2
  payload := (x.1.get "payload").getD .null

/-- A point that was put is that of a chunk upserted. -/
theorem Put.chunk {q : QdrantStore} {calls : List (UpsertCall K)}
    {d : Domain} {p : Value}
    (h : Put q (upsertAll sha256 floatJson q calls).2 d p) :
    ∃ call ∈ calls, ∃ c ∈ call.batch.chunks,
      c.domain = d ∧ p = readyPoint sha256 floatJson c := by
  obtain ⟨r, hr, hurl, ps, hps, hp⟩ := h
  obtain ⟨call, hcall, d', rfl⟩ := upsertAll_sent hr
  obtain rfl := upsertUrl_inj hurl
  have hbody : (groupRequest sha256 floatJson q (d', call.batch.chunks.filter
      fun c => c.domain = d')).body.get "points" = some (.array
        ((call.batch.chunks.filter fun c => c.domain = d').map
          (readyPoint sha256 floatJson))) := Map.get_cons_self ..
  rw [hbody] at hps
  obtain rfl := Value.array.inj (Option.some.inj hps)
  obtain ⟨c, hc, rfl⟩ := List.mem_map.mp hp
  obtain ⟨hc, hd⟩ := List.mem_filter.mp hc
  exact ⟨call, hcall, c, hc, of_decide_eq_true hd, rfl⟩

/-- A hit shows a chunk that was upserted, of one of these domains, as it
is read back. -/
def Shows (sha256 : String → Vector UInt8 32) (floatJson : K → Value)
    (calls : List (UpsertCall K)) (domains : List Domain) (x : Value × K)
    (h : SearchHit K) : Prop :=
  h.score = x.2 ∧ ∃ call ∈ calls, ∃ c ∈ call.batch.chunks,
    c.domain ∈ domains ∧ x.1 = readyPoint sha256 floatJson c
      ∧ h.chunk = c.recalled

/-- The ordinals are of 32 bits. -/
def SmallOrdinals (calls : List (UpsertCall K)) : Prop :=
  ∀ call ∈ calls, ∀ c ∈ call.batch.chunks, c.ordinal < 2 ^ 32

variable {q s : QdrantStore} {calls : List (UpsertCall K)}

/-- The points of an answer are read as the chunks they are of. -/
theorem readHits_shown (hsmall : SmallOrdinals calls) {d : Domain}
    {domains : List Domain} (hd : d ∈ domains) {best : List (Value × K)}
    (hput : ∀ x ∈ best,
      Put q (upsertAll sha256 floatJson q calls).2 d x.1) :
    ∃ hits, readHits d (best.map foundHit) = some hits
      ∧ List.Forall₂ (Shows sha256 floatJson calls domains) best hits := by
  induction best with
  | nil => exact ⟨[], rfl, .nil⟩
  | cons x best ih =>
      obtain ⟨hits, hread, hshown⟩ :=
        ih fun y hy => hput y (List.mem_cons_of_mem _ hy)
      obtain ⟨call, hcall, c, hc, rfl, hpoint⟩ :=
        (hput x (List.mem_cons_self ..)).chunk
      have hpayload : (foundHit x).payload = .object (payload c) := by
        unfold foundHit
        rw [hpoint, readyPoint_payload]
        rfl
      refine ⟨⟨c.recalled, x.2⟩ :: hits, ?_, .cons ?_ hshown⟩
      · rw [List.map_cons, readHits, hpayload,
          chunkFromPayload_payload (hsmall call hcall c hc), hread]
        rfl
      · exact ⟨rfl, call, hcall, c, hc, hd, hpoint, rfl⟩

variable [LinearOrder K]

/-- The best scores come first. -/
def closest (x : Value × K) : Kᵒᵈ := OrderDual.toDual x.2

/-- How an endpoint answers searches for the points nearest to a vector:
a collection holds points that were put to it, and the answer lists the
best of them, as many as were asked for; or the status is no success. -/
structure Serves (q : QdrantStore) (sent : List PutRequest)
    (request : Domain → SearchRequest) (topK : Nat)
    (held : Domain → List (Value × K))
    (service : Nat → SearchRequest → SearchReply K) : Prop where
  put : ∀ d, ∀ x ∈ held d, Put q sent d x.1
  answer : ∀ n d, (∃ text, service n (request d) = .refused text)
    ∨ ∃ best, Best closest topK (held d) best
      ∧ service n (request d) = .found (best.map foundHit)

/-- The domains whose status is a success, from request `n`. -/
def answered (request : Domain → SearchRequest)
    (service : Nat → SearchRequest → SearchReply K) :
    Nat → List Domain → List Domain
  | _, [] => []
  | n, d :: ds =>
      match service n (request d) with
      | .refused _ => answered request service (n + 1) ds
      | _ => d :: answered request service (n + 1) ds

-- ============================================================== searches

variable {embedding : List K} {topK : Nat}
  {held : Domain → List (Value × K)}
  {service : Nat → SearchRequest → SearchReply K}

/-- What the loop collects: of each domain that has answered, the best
points it holds. -/
theorem searchEach_found (hsmall : SmallOrdinals calls)
    (hurl : s.baseUrl = q.baseUrl)
    (hserves : Serves s (upsertAll sha256 floatJson q calls).2
      (s.searchRequest floatJson embedding topK) topK held service)
    {domains : List Domain} (n : Nat) {ds : List Domain}
    (hds : ds ⊆ domains) :
    ∃ (found : List (Domain × List (Value × K))) (hits : List (SearchHit K)),
      found.map Prod.fst
        = answered (s.searchRequest floatJson embedding topK) service n ds
      ∧ (∀ x ∈ found, Best closest topK (held x.1) x.2)
      ∧ s.searchEach floatJson service embedding topK n ds = .ok hits
      ∧ List.Forall₂ (Shows sha256 floatJson calls domains)
          (found.flatMap Prod.snd) hits := by
  induction ds generalizing n with
  | nil => exact ⟨[], [], rfl, fun x hx => (nomatch hx), rfl, .nil⟩
  | cons d ds ih =>
      obtain ⟨found, hits, hfst, hbest, hrest, hshown⟩ :=
        ih (n + 1) fun x hx => hds (List.mem_cons_of_mem _ hx)
      rcases hserves.answer n d with ⟨text, hreply⟩ | ⟨best, hd, hreply⟩
      · refine ⟨found, hits, ?_, hbest, ?_, hshown⟩
        · rw [hfst, answered, hreply]
        · rw [QdrantStore.searchEach, hreply]
          exact hrest
      · have hput : ∀ x ∈ best,
            Put q (upsertAll sha256 floatJson q calls).2 d x.1 := fun x hx =>
          (hserves.put d x (hd.mem hx)).of_baseUrl hurl
        obtain ⟨hits', hread, hshown'⟩ :=
          readHits_shown hsmall (hds (List.mem_cons_self ..)) hput
        refine ⟨(d, best) :: found, hits' ++ hits, ?_, ?_, ?_, ?_⟩
        · rw [List.map_cons, hfst, answered, hreply]
        · intro x hx
          rcases List.mem_cons.mp hx with rfl | hx
          · exact hd
          · exact hbest x hx
        · rw [QdrantStore.searchEach, hreply]
          simp only [hread, hrest]
          rfl
        · rw [List.flatMap_cons]
          exact List.rel_append hshown' hshown

/-- A search after upserts, at an endpoint that answers with points put to
the collection it is asked about: the hits are chunks that were upserted,
of the domains wanted and as they were but for their vectors; and they are
the best of all that the domains which have answered hold, the best first,
as many as are wanted. -/
theorem search_best (hsmall : SmallOrdinals calls) {query : SearchQuery K}
    (hquery : query.embedding = some embedding)
    (hserves : Serves (upsertAll sha256 floatJson q calls).1
      (upsertAll sha256 floatJson q calls).2
      ((upsertAll sha256 floatJson q calls).1.searchRequest floatJson embedding
        query.topK) query.topK held service) :
    ∃ (hits : List (SearchHit K)) (chosen : List (Value × K)),
      (upsertAll sha256 floatJson q calls).1.search floatJson service query
        = .ok hits
      ∧ Best closest query.topK
          ((answered ((upsertAll sha256 floatJson q calls).1.searchRequest
            floatJson embedding query.topK) service 0
            query.targets).flatMap held) chosen
      ∧ List.Forall₂ (Shows sha256 floatJson calls query.targets)
          chosen hits := by
  obtain ⟨found, hits, hfst, hbest, hrun, hshown⟩ :=
    searchEach_found hsmall (upsertAll_baseUrl q calls) hserves 0
      (List.Subset.refl query.targets)
  refine ⟨ranked hits query.topK,
    (sortBy closest (found.flatMap Prod.snd)).take query.topK, ?_, ?_, ?_⟩
  · unfold QdrantStore.search
    simp only [hquery, hrun]
    rfl
  · rw [← hfst, List.flatMap_map]
    exact (best_take closest query.topK _).flatMap hbest
  · refine List.forall₂_take query.topK (forall₂_sortBy ?_ hshown)
    intro x h hx
    exact congrArg OrderDual.toDual hx.1.symm

-- =========================================================== one search

/-- A chunk of one page, the digest of its id, and the text of its one
number. -/
def noteChunk : Chunk ℚ where
  id := "abap/note#0"
  documentId := "abap/note"
  domain := .abap
  ordinal := 0
  text := "SELECT SINGLE"
  embedding := some [1]
  breadcrumbs := ["ABAP"]
  title := "Note"
  uri := "https://help.sap.com/note"

def noteDigest (_ : String) : Vector UInt8 32 :=
  #v[100, 36, 171, 116, 36, 32, 208, 37, 114, 28, 85, 200, 214, 179, 122, 83,
    171, 162, 99, 37, 81, 7, 236, 202, 223, 145, 97, 255, 219, 69, 58, 190]

def oneJson (_ : ℚ) : Value := .number ⟨"1.0", by decide, by decide⟩

/-- It is upserted alone. -/
def noteCall : UpsertCall ℚ where
  batch := ⟨[], [noteChunk]⟩
  order := ⟨[.abap], by decide, fun d => by simp [noteChunk, eq_comm]⟩
  service := fun _ _ => .accepted

def notePoint : Value := readyPoint noteDigest oneJson noteChunk

def noteStore : QdrantStore := .new "http://localhost:6333" 1

/-- The collections then, and what the endpoint says of them. -/
def noteHeld : Domain → List (Value × ℚ)
  | .abap => [(notePoint, 1)]
  | _ => []

def noteService (_ : Nat) (r : SearchRequest) : SearchReply ℚ :=
  .found (if r.url = noteStore.searchUrl .abap
    then [foundHit (notePoint, 1)] else [])

def noteQuery : SearchQuery ℚ :=
  ((SearchQuery.ofText "select" 3).withDomain .abap).withEmbedding [1]

theorem noteServes : Serves (upsertAll noteDigest oneJson noteStore
      [noteCall]).1 (upsertAll noteDigest oneJson noteStore [noteCall]).2
    ((upsertAll noteDigest oneJson noteStore [noteCall]).1.searchRequest
      oneJson [1] 3) 3 noteHeld noteService where
  put := by
    intro d x hx
    cases d with
    | abap =>
        rw [List.mem_singleton.mp hx]
        exact ⟨groupRequest noteDigest oneJson noteStore (.abap, [noteChunk]),
          List.mem_singleton_self _, rfl, _, Map.get_cons_self ..,
          List.mem_singleton_self _⟩
    | sapHelp => cases hx
    | bpmn => cases hx
    | leanix => cases hx
  answer := by
    intro n d
    refine .inr ⟨noteHeld d, ?_, ?_⟩
    · have h := best_take closest 3 (noteHeld d)
      cases d <;> exact h
    · cases d with
      | abap => exact congrArg SearchReply.found (if_pos rfl)
      | sapHelp => exact congrArg SearchReply.found (if_neg (by decide))
      | bpmn => exact congrArg SearchReply.found (if_neg (by decide))
      | leanix => exact congrArg SearchReply.found (if_neg (by decide))

/-- It is found again. -/
theorem search_best_note :
    (upsertAll noteDigest oneJson noteStore [noteCall]).1.search oneJson
      noteService noteQuery = .ok [⟨noteChunk.recalled, 1⟩] := by
  have hsmall : SmallOrdinals [noteCall] := by
    intro call hcall c hc
    rw [List.mem_singleton.mp hcall] at hc
    rw [List.mem_singleton.mp hc]
    decide
  obtain ⟨hits, chosen, hrun, hbest, hshown⟩ :=
    search_best hsmall (rfl : noteQuery.embedding = some [1]) noteServes
  have hheld : Best closest 3 [(notePoint, 1)] chosen := hbest
  obtain ⟨x, rfl⟩ := List.length_eq_one_iff.mp hheld.length
  obtain rfl := List.mem_singleton.mp (hheld.mem (List.mem_singleton_self x))
  obtain ⟨h, rest, hx, hrest, rfl⟩ := List.forall₂_cons_left_iff.mp hshown
  obtain rfl := List.forall₂_nil_left_iff.mp hrest
  obtain ⟨hscore, call, hcall, c, hc, -, -, hchunk⟩ := hx
  rw [List.mem_singleton.mp hcall] at hc
  rw [List.mem_singleton.mp hc] at hchunk
  rw [hrun]
  obtain ⟨chunk, score⟩ := h
  cases hscore
  cases hchunk
  rfl

end SapAutomate.Kb
