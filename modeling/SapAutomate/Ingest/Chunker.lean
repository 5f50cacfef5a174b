/-
The document chunker (`sap-automate-ingest/src/chunker.rs`): a body is
cut into windows, near the end of a sentence or a word where there is
one, and each window becomes a chunk.

Positions are byte positions in UTF-8, as in the source. A slice that
does not lie between character boundaries, or ends before it starts, is a
panic: `none`.
-/
import SapAutomate.Kb.Schema
import SapAutomate.Lib.Text
import Mathlib.Algebra.GroupWithZero.Nat

namespace SapAutomate.Ingest

open Kb

-- ================================================================= bytes

/-- `str::len`. -/
def byteLen (s : List Char) : Nat := (s.map Char.utf8Size).sum

/-- `str::as_bytes`. -/
def asBytes (s : List Char) : List UInt8 := s.flatMap String.utf8EncodeChar

/-- `str::is_char_boundary`. -/
def isCharBoundary : List Char → Nat → Bool
  | _, 0 => true
  | [], _ + 1 => false
  | c :: s, n + 1 =>
      decide (c.utf8Size ≤ n + 1) && isCharBoundary s (n + 1 - c.utf8Size)

/-- What is left after `n` bytes. -/
def dropBytes : List Char → Nat → List Char
  | s, 0 => s
  | [], _ + 1 => []
  | c :: s, n + 1 => dropBytes s (n + 1 - c.utf8Size)

/-- The first `n` bytes. -/
def takeBytes : List Char → Nat → List Char
  | _, 0 => []
  | [], _ + 1 => []
  | c :: s, n + 1 => c :: takeBytes s (n + 1 - c.utf8Size)

/-- `&s[a..b]`. -/
def slice (s : List Char) (a b : Nat) : Option (List Char) :=
  if a ≤ b ∧ isCharBoundary s a = true ∧ isCharBoundary s b = true then
    some (takeBytes (dropBytes s a) (b - a))
  else none

/-- `while i < n && !body.is_char_boundary(i) { i += 1 }`. -/
def nextBoundary (body : List Char) (n i : Nat) : Nat :=
  if i < n ∧ isCharBoundary body i = false then nextBoundary body n (i + 1)
  else i
termination_by n - i

theorem le_nextBoundary (body : List Char) (n i : Nat) :
    i ≤ nextBoundary body n i := by
  fun_induction nextBoundary body n i with
  | case1 i h ih => omega
  | case2 i h => exact Nat.le_refl i

/-- `str::trim`. -/
def trim (s : List Char) : List Char := Text.trimBy Text.isWhitespace s

-- =============================================================== windows

/-- A byte that ends a sentence, followed by white space. -/
def endsSentence (p c : UInt8) : Bool :=
  (p == 46 || p == 63 || p == 33) && (c == 32 || c == 10)

/-- The loop of `find_sentence_end`, from `i` down. -/
def sentenceEndBefore (bytes : List UInt8) (lo : Nat) : Nat → Option Nat
  | 0 => none
  | i + 1 =>
      if i + 1 > lo + 1 then
        if endsSentence (bytes.getD (i - 1) 0) (bytes.getD i 0) then
          some (i + 1)
        else sentenceEndBefore bytes lo i
      else none

/-- `find_sentence_end`. -/
def findSentenceEnd (bytes : List UInt8) (lo hi : Nat) : Option Nat :=
  let hi := min hi bytes.length
  sentenceEndBefore bytes (min lo hi) hi

/-- The loop of `find_space`, from `i` down. -/
def spaceBefore (bytes : List UInt8) (hi : Nat) : Nat → Option Nat
  | 0 => none
  | i + 1 =>
      if bytes.getD i 0 == 32 || bytes.getD i 0 == 10 then some (i + 1)
      else if hi - i > 200 then none
      else spaceBefore bytes hi i

/-- `find_space`. -/
def findSpace (bytes : List UInt8) (hi : Nat) : Option Nat :=
  let hi := min hi bytes.length
  spaceBefore bytes hi hi

/-- The end of the window that starts at `start`. -/
def windowEnd (body : List Char) (target start : Nat) : Nat :=
  let bytes := asBytes body
  let n := byteLen body
  let stop := min (start + target) n
  let cut :=
    if stop < n then
      match findSentenceEnd bytes (max (stop - 200) (start + target / 2)) stop
        with
      | some boundary => boundary
      | none => (findSpace bytes stop).getD stop
    else stop
  nextBoundary body n cut

/-- Where the next window starts. -/
def nextStart (body : List Char) (overlap start stop : Nat) : Nat :=
  nextBoundary body (byteLen body) (start + max (stop - start - overlap) 1)

/-- The loop of `split_text`. -/
def splitFrom (body : List Char) (target overlap start : Nat) :
    Option (List (List Char)) :=
  if start < byteLen body then
    let stop := windowEnd body target start
    match slice body start stop with
    | none => none
    | some window =>
        let out := if trim window = [] then [] else [trim window]
        if byteLen body ≤ stop then some out
        else (splitFrom body target overlap
          (nextStart body overlap start stop)).map (out ++ ·)
  else some []
termination_by byteLen body - start
decreasing_by
  have hle := le_nextBoundary body (byteLen body)
    (start + max (windowEnd body target start - start - overlap) 1)
  unfold nextStart
  omega

/-- `split_text`. -/
def splitText (body : List Char) (target overlap : Nat) :
    Option (List (List Char)) :=
  splitFrom body target overlap 0

-- ================================================================ chunks

/-- `ChunkerConfig`. -/
structure ChunkerConfig where
  targetChars : Nat
  overlapChars : Nat
  contextualEnrichment : Bool

/-- `ChunkerConfig::default`. -/
def ChunkerConfig.default : ChunkerConfig := ⟨1600, 200, true⟩

/-- The loop of `document_context`: `out` is what it has so far. -/
def contextFrom (out : List Char) (sentences : Nat) : List Char → List Char
  | [] => out
  | c :: rest =>
      let out := out ++ [c]
      let sentences := if c = '.' ∨ c = '!' ∨ c = '?' then sentences + 1
        else sentences
      if sentences ≥ 2 ∨ byteLen out ≥ 280 then out
      else contextFrom out sentences rest

/-- `document_context`. -/
def documentContext (doc : Document) : String :=
  let body := trim doc.body.toList
  if body = [] then doc.title
  else String.ofList (trim (contextFrom [] 0 body))

/-- What every chunk of a document begins with. -/
def chunkPrefix (doc : Document) (cfg : ChunkerConfig) : String :=
  (if doc.breadcrumbs = [] then ""
    else String.intercalate " > " doc.breadcrumbs ++ " > ")
  ++ doc.title
  ++ (if cfg.contextualEnrichment then
      "\n" ++ ("Context: " ++ documentContext doc ++ "\n") else "")
  ++ "\n"

/-- The id of a chunk. -/
def chunkId (document : DocumentId) (idx : Nat) : ChunkId :=
  document ++ "#chunk-" ++ toString idx

variable {F : Type}

/-- The chunk of a window. -/
def chunkOf (doc : Document) (cfg : ChunkerConfig) (idx : Nat)
    (window : List Char) : Chunk F where
  id := chunkId doc.id idx
  documentId := doc.id
  domain := doc.domain
  ordinal := idx % 4294967296
  text := chunkPrefix doc cfg ++ String.ofList window
  embedding := none
  breadcrumbs := doc.breadcrumbs
  title := doc.title
  uri := doc.uri

/-- `chunk_document`. -/
def chunkDocument (doc : Document) (cfg : ChunkerConfig) :
    Option (List (Chunk F)) :=
  let body := trim doc.body.toList
  if body = [] then some []
  else (splitText body cfg.targetChars cfg.overlapChars).map
    fun windows => windows.mapIdx fun idx w => chunkOf doc cfg idx w

-- =================================================================== ids

/-- What follows the last of a separator, and what comes before it. -/
theorem append_cons_inj {α : Type} {a : α} {x x' y y' : List α} (hy : a ∉ y)
    (hy' : a ∉ y') (h : x ++ a :: y = x' ++ a :: y') : x = x' ∧ y = y' := by
  rcases List.append_eq_append_iff.mp h with ⟨z, hx, hz⟩ | ⟨z, hx, hz⟩
  · cases z with
    | nil =>
        injection hz with _ hz
        exact ⟨by rw [hx, List.append_nil], hz⟩
    | cons b z =>
        injection hz with _ hz
        exact absurd (by simp [hz]) hy
  · cases z with
    | nil =>
        injection hz with _ hz
        exact ⟨by rw [hx, List.append_nil], hz.symm⟩
    | cons b z =>
        injection hz with _ hz
        exact absurd (by simp [hz]) hy'

/-- The digits of a number have no `#` among them. -/
theorem toString_no_hash (n : Nat) : '#' ∉ (toString n).toList := by
  intro h
  rw [Text.toList_toString] at h
  have hdigit := Nat.isDigit_of_mem_toDigits (by decide) (by decide) h
  exact absurd hdigit (by decide)

/-- Neither the document nor the number of a chunk is lost in its id. -/
theorem chunkId_inj {d d' : DocumentId} {i i' : Nat} :
    chunkId d i = chunkId d' i' ↔ d = d' ∧ i = i' := by
  constructor
  · intro h
    have hchars := congrArg String.toList h
    have hform : ∀ (d : DocumentId) (i : Nat), (chunkId d i).toList
        = d.toList ++ '#' :: ("chunk-".toList ++ (toString i).toList) := by
      intro d i
      simp [chunkId, String.toList_append]
    have hrest : ∀ i : Nat, '#' ∉ "chunk-".toList ++ (toString i).toList := by
      intro i hmem
      rcases List.mem_append.mp hmem with hmem | hmem
      · exact absurd hmem (by decide)
      · exact toString_no_hash i hmem
    rw [hform, hform] at hchars
    obtain ⟨hd, hi⟩ := append_cons_inj (hrest i) (hrest i') hchars
    exact ⟨String.toList_injective hd,
      Text.toString_inj (List.append_cancel_left hi)⟩
  · intro h
    rw [h.1, h.2]

/-- The chunks of a document are those of its windows, under its id and
their numbers. -/
theorem chunkDocument_eq {doc : Document} {cfg : ChunkerConfig}
    {cs : List (Chunk F)} (h : chunkDocument doc cfg = some cs) :
    ∃ windows : List (List Char),
      cs = windows.mapIdx fun idx w => chunkOf doc cfg idx w := by
  unfold chunkDocument at h
  by_cases hbody : trim doc.body.toList = []
  · simp only [hbody, if_true] at h
    exact ⟨[], (Option.some.inj h).symm⟩
  · simp only [hbody, if_false] at h
    obtain ⟨windows, -, hw⟩ := Option.map_eq_some_iff.mp h
    exact ⟨windows, hw.symm⟩

/-- A chunk of a document, by its number. -/
theorem chunkDocument_get {doc : Document} {cfg : ChunkerConfig}
    {cs : List (Chunk F)} (h : chunkDocument doc cfg = some cs) {i : Nat}
    {c : Chunk F} (hc : cs[i]? = some c) :
    c.id = chunkId doc.id i ∧ c.documentId = doc.id := by
  obtain ⟨windows, rfl⟩ := chunkDocument_eq h
  rw [List.getElem?_mapIdx] at hc
  obtain ⟨w, -, rfl⟩ := Option.map_eq_some_iff.mp hc
  exact ⟨rfl, rfl⟩

end SapAutomate.Ingest
