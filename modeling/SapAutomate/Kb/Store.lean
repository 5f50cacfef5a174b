/-
The in-memory knowledge store (`sap-automate-kb/src/store.rs`).

`insert_chunk` holds a lock for each of its three sections: the hash
index, the chunks, the counters. It is a program over `KbIface`, one
question to a section, so that it is read alone (`insertChunk`) and among
other calls (`kbMachine`).
-/
import SapAutomate.Kb.Schema
import SapAutomate.Lib.Pool
import SapAutomate.Lib.Table

namespace SapAutomate.Kb

open Interact

variable {F : Type}

/-- `UpsertBatch`. -/
structure UpsertBatch (F : Type) where
  documents : List Document
  chunks : List (Chunk F)

/-- `UpsertStats`. -/
structure UpsertStats where
  chunksWritten : Nat
  chunksDedupSkipped : Nat
  documentsWritten : Nat

/-- `InMemoryKb`. -/
structure InMemoryKb (F : Type) where
  documents : Table DocumentId Document
  chunks : Table ChunkId (Chunk F)
  contentHashes : Table ChunkId String
  stats : UpsertStats

namespace InMemoryKb

/-- `InMemoryKb::new`. -/
def new : InMemoryKb F := ⟨.empty, .empty, .empty, ⟨0, 0, 0⟩⟩

/-- `InMemoryKb::insert_document`. -/
def insertDocument (kb : InMemoryKb F) (doc : Document) : InMemoryKb F :=
  { kb with
    documents := kb.documents.insert doc.id doc
    stats := { kb.stats with
      documentsWritten := kb.stats.documentsWritten + 1 } }

end InMemoryKb

-- ============================================================== sections

/-- What `insert_chunk` does under one lock: it looks for the hash and
puts it in, or counts a skip where it is there; it puts the chunk in; it
counts the write. -/
inductive KbQuery (F : Type) where
  | hashes (id : ChunkId) (hash : String)
  | chunks (chunk : Chunk F)
  | written

/-- The first section tells whether the hash was there. -/
abbrev KbIface (F : Type) : Iface where
  Query := KbQuery F
  Reply
    | .hashes _ _ => Bool
    | .chunks _ => Unit
    | .written => Unit

namespace InMemoryKb

/-- `hashes.get(&chunk.id).is_some_and(|h| h == &hash)`. -/
def hashed (kb : InMemoryKb F) (id : ChunkId) (hash : String) : Bool :=
  kb.contentHashes id == some hash

/-- A skip counted. -/
def skipped (kb : InMemoryKb F) : InMemoryKb F :=
  { kb with stats := { kb.stats with
    chunksDedupSkipped := kb.stats.chunksDedupSkipped + 1 } }

/-- A hash put in. -/
def putHash (kb : InMemoryKb F) (id : ChunkId) (hash : String) :
    InMemoryKb F :=
  { kb with contentHashes := kb.contentHashes.insert id hash }

/-- A chunk put in. -/
def putChunk (kb : InMemoryKb F) (chunk : Chunk F) : InMemoryKb F :=
  { kb with chunks := kb.chunks.insert chunk.id chunk }

/-- A write counted. -/
def countWritten (kb : InMemoryKb F) : InMemoryKb F :=
  { kb with stats := { kb.stats with
    chunksWritten := kb.stats.chunksWritten + 1 } }

/-- One section. -/
def answer : (q : (KbIface F).Query) → InMemoryKb F →
    (KbIface F).Reply q × InMemoryKb F
  | .hashes id hash, kb =>
      if kb.hashed id hash then (true, kb.skipped)
      else (false, kb.putHash id hash)
  | .chunks chunk, kb => ((), kb.putChunk chunk)
  | .written, kb => ((), kb.countWritten)

/-- The store as an environment. -/
def env : Env (KbIface F) (InMemoryKb F) where
  answer := answer

end InMemoryKb

variable (contentHash : String → String)

/-- `InMemoryKb::insert_chunk`, section by section. -/
def insertChunkBody (chunk : Chunk F) : Prog (KbIface F) Unit := do
  let skip ← Prog.query (I := KbIface F)
    (.hashes chunk.id (contentHash chunk.text))
  if skip then return ()
  else do
    let _ ← Prog.query (I := KbIface F) (.chunks chunk)
    let _ ← Prog.query (I := KbIface F) .written
    return ()

/-- Calls of `insert_chunk` side by side. -/
def kbMachine (kb : InMemoryKb F) :
    Machine (PoolAct (Chunk F) Unit)
      (Pool (KbIface F) (Chunk F) Unit (InMemoryKb F) Unit) :=
  poolMachine (.always fun _ => InMemoryKb.answer)
    (insertChunkBody contentHash) kb

namespace InMemoryKb

/-- `InMemoryKb::insert_chunk`. -/
def insertChunk (kb : InMemoryKb F) (chunk : Chunk F) : InMemoryKb F :=
  ((insertChunkBody contentHash chunk).exec env kb).state

/-- `InMemoryKb::upsert`. -/
def upsert (kb : InMemoryKb F) (batch : UpsertBatch F) : InMemoryKb F :=
  batch.chunks.foldl (insertChunk contentHash)
    (batch.documents.foldl insertDocument kb)

-- ================================================================= alone

/-- What a call does alone. -/
theorem insertChunk_eq (kb : InMemoryKb F) (chunk : Chunk F) :
    kb.insertChunk contentHash chunk
      = if kb.hashed chunk.id (contentHash chunk.text) then kb.skipped
        else ((kb.putHash chunk.id (contentHash chunk.text)).putChunk
          chunk).countWritten := by
  cases hskip : kb.hashed chunk.id (contentHash chunk.text) with
  | true =>
      show (Prog.exec env (if (answer (.hashes chunk.id
        (contentHash chunk.text)) kb).1 then _ else _)
        (answer (.hashes chunk.id (contentHash chunk.text)) kb).2).state = _
      simp only [answer, hskip, if_true]
      rfl
  | false =>
      show (Prog.exec env (if (answer (.hashes chunk.id
        (contentHash chunk.text)) kb).1 then _ else _)
        (answer (.hashes chunk.id (contentHash chunk.text)) kb).2).state = _
      simp only [answer, hskip, Bool.false_eq_true, if_false]
      rfl

/-- The hash index is that of the chunks held. -/
def Indexed (kb : InMemoryKb F) : Prop :=
  ∀ id, kb.contentHashes id = (kb.chunks id).map fun c => contentHash c.text

/-- The chunks are held under their ids. -/
def Keyed (kb : InMemoryKb F) : Prop :=
  ∀ id c, kb.chunks id = some c → c.id = id

theorem indexed_new : (new : InMemoryKb F).Indexed contentHash := fun _ => rfl

theorem keyed_new : (new : InMemoryKb F).Keyed := by
  intro id c h
  cases h

variable {contentHash}

theorem Indexed.insertChunk {kb : InMemoryKb F} (h : kb.Indexed contentHash)
    (chunk : Chunk F) : (kb.insertChunk contentHash chunk).Indexed contentHash := by
  rw [insertChunk_eq]
  by_cases hskip : kb.hashed chunk.id (contentHash chunk.text) = true
  · rw [if_pos hskip]
    exact h
  · rw [if_neg hskip]
    intro id
    show kb.contentHashes.insert _ _ id = (kb.chunks.insert _ _ id).map _
    by_cases hid : id = chunk.id
    · rw [hid, Table.insert_self, Table.insert_self]
      rfl
    · rw [Table.insert_ne hid, Table.insert_ne hid, h id]

theorem Keyed.insertChunk {kb : InMemoryKb F} (h : kb.Keyed)
    (chunk : Chunk F) : (kb.insertChunk contentHash chunk).Keyed := by
  rw [insertChunk_eq]
  by_cases hskip : kb.hashed chunk.id (contentHash chunk.text) = true
  · rw [if_pos hskip]
    exact h
  · rw [if_neg hskip]
    intro id c hc
    have hput : kb.chunks.insert chunk.id chunk id = some c := hc
    by_cases hid : id = chunk.id
    · rw [hid, Table.insert_self, Option.some.injEq] at hput
      rw [← hput, hid]
    · rw [Table.insert_ne hid] at hput
      exact h id c hput

/-- What is held under an id afterwards: the chunk given, or the one that
was there where its text has the same hash. -/
theorem Indexed.insertChunk_chunks {kb : InMemoryKb F}
    (h : kb.Indexed contentHash) (chunk : Chunk F) (id : ChunkId) :
    (kb.insertChunk contentHash chunk).chunks id
      = if id = chunk.id then
          Table.keepFirst (fun c => contentHash c.text) (kb.chunks id) chunk
        else kb.chunks id := by
  rw [insertChunk_eq]
  have hindex := h chunk.id
  by_cases hid : id = chunk.id
  · subst hid
    rw [if_pos rfl]
    cases hheld : kb.chunks chunk.id with
    | none =>
        rw [hheld] at hindex
        have hnew : ¬ kb.hashed chunk.id (contentHash chunk.text) = true := by
          simp [hashed, hindex]
        rw [if_neg hnew]
        exact Table.insert_self ..
    | some c =>
        rw [hheld] at hindex
        by_cases hsame : contentHash c.text = contentHash chunk.text
        · have hskip : kb.hashed chunk.id (contentHash chunk.text) = true := by
            simp [hashed, hindex, hsame]
          rw [if_pos hskip]
          show kb.chunks chunk.id = if _ then _ else _
          rw [if_pos hsame, hheld]
        · have hnew : ¬ kb.hashed chunk.id (contentHash chunk.text) = true := by
            simp [hashed, hindex, hsame]
          rw [if_neg hnew]
          show kb.chunks.insert chunk.id chunk chunk.id = if _ then _ else _
          rw [if_neg hsame, Table.insert_self]
  · rw [if_neg hid]
    by_cases hskip : kb.hashed chunk.id (contentHash chunk.text) = true
    · rw [if_pos hskip]
      rfl
    · rw [if_neg hskip]
      exact Table.insert_ne hid ..

/-- Documents change nothing about chunks. -/
theorem insertDocuments_chunks (docs : List Document) (kb : InMemoryKb F) :
    (docs.foldl insertDocument kb).chunks = kb.chunks
      ∧ (docs.foldl insertDocument kb).contentHashes = kb.contentHashes := by
  induction docs generalizing kb with
  | nil => exact ⟨rfl, rfl⟩
  | cons d docs ih => exact ih (kb.insertDocument d)

theorem insertChunks_documents (cs : List (Chunk F)) (kb : InMemoryKb F) :
    (cs.foldl (insertChunk contentHash) kb).documents = kb.documents := by
  induction cs generalizing kb with
  | nil => rfl
  | cons c cs ih =>
      refine (ih (kb.insertChunk contentHash c)).trans ?_
      rw [insertChunk_eq]
      split <;> rfl

/-- After a list of chunks, what is held under an id comes of those with
that id, in turn. -/
theorem Indexed.insertChunks {kb : InMemoryKb F} (h : kb.Indexed contentHash)
    (cs : List (Chunk F)) :
    (cs.foldl (InMemoryKb.insertChunk contentHash) kb).Indexed contentHash
    ∧ ∀ id, (cs.foldl (InMemoryKb.insertChunk contentHash) kb).chunks id
      = (cs.filter fun c => c.id = id).foldl
        (Table.keepFirst fun c => contentHash c.text) (kb.chunks id) := by
  induction cs generalizing kb with
  | nil => exact ⟨h, fun _ => rfl⟩
  | cons c cs ih =>
      obtain ⟨hindexed, hheld⟩ := ih (h.insertChunk c)
      refine ⟨hindexed, fun id => ?_⟩
      rw [List.foldl_cons, hheld, h.insertChunk_chunks]
      by_cases hid : c.id = id
      · rw [List.filter_cons_of_pos (by simpa using hid), if_pos hid.symm]
        rfl
      · rw [List.filter_cons_of_neg (by simpa using hid),
          if_neg (Ne.symm hid)]

end InMemoryKb

end SapAutomate.Kb
