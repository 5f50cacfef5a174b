/-
The chunker loses nothing (`sap-automate-ingest/src/chunker.rs`).

With targets of more than two hundred bytes the search for a blank stays
behind the start of the window. Then every window goes from an end of a
character to a later one, and the next starts in it or at its end, so the
windows cover the text (`Gapless`); and trimming takes only white space.
-/
import SapAutomate.Proofs.ChunkWindows
import Mathlib.Data.List.Nodup

namespace SapAutomate.Ingest

open Kb Text

-- ================================================================= text

/-- A character of a text, where it stands in a piece of it. -/
def StandsIn (piece pre : List Char) (c : Char) (post : List Char) : Prop :=
  ∃ l x y r, piece = x ++ c :: y ∧ pre = l ++ x ∧ post = y ++ r

/-- What is split in two places, at the first of them. -/
theorem standsIn_of_split {l piece r pre post : List Char} {c : Char}
    (h : l ++ (piece ++ r) = pre ++ c :: post) (hl : c ∉ l ∨ l.length ≤ pre.length)
    (hr : c ∉ r ∨ pre.length < l.length + piece.length) :
    StandsIn piece pre c post := by
  rcases List.append_eq_append_iff.mp h with ⟨x, rfl, hx⟩ | ⟨z, rfl, hz⟩
  · rcases List.append_eq_append_iff.mp hx with ⟨z, rfl, hz⟩ | ⟨z, rfl, hz⟩
    · -- the character is behind the piece
      exfalso
      rcases hr with hr | hr
      · exact hr (hz ▸ List.mem_append_right z List.mem_cons_self)
      · simp only [List.length_append] at hr
        omega
    · cases z with
      | nil =>
          exfalso
          rw [List.nil_append] at hz
          rcases hr with hr | hr
          · exact hr (hz ▸ List.mem_cons_self)
          · simp only [List.length_append, List.length_nil] at hr
            omega
      | cons d z =>
          obtain ⟨rfl, rfl⟩ := List.cons.inj hz
          exact ⟨l, x, z, r, rfl, rfl, rfl⟩
  · cases z with
    | nil =>
        rw [List.nil_append] at hz
        cases piece with
        | nil =>
            exfalso
            rcases hr with hr | hr
            · rw [List.nil_append] at hz
              exact hr (hz ▸ List.mem_cons_self)
            · simp only [List.length_append, List.length_nil] at hr
              omega
        | cons d piece =>
            obtain ⟨rfl, rfl⟩ := List.cons.inj hz
            exact ⟨pre, [], piece, r, rfl, (List.append_nil pre).symm, rfl⟩
    | cons d z =>
        exfalso
        obtain ⟨rfl, -⟩ := List.cons.inj hz
        rcases hl with hl | hl
        · exact hl (List.mem_append_right pre List.mem_cons_self)
        · simp only [List.length_append, List.length_cons] at hl
          omega

/-- A character that is no white space is not trimmed. -/
theorem standsIn_trim {s pre post : List Char} {c : Char}
    (h : s = pre ++ c :: post) (hc : isWhitespace c = false) :
    StandsIn (trim s) pre c post := by
  obtain ⟨l, r, hs, hl, hr⟩ := trimBy_split isWhitespace s
  refine standsIn_of_split (hs.symm.trans h) (.inl fun hm => ?_)
    (.inl fun hm => ?_)
  · rw [hl c hm] at hc
    cases hc
  · rw [hr c hm] at hc
    cases hc

theorem StandsIn.trans {s t pre post : List Char} {c : Char}
    (h : StandsIn s pre c post) (hs : ∀ x y, s = x ++ c :: y → StandsIn t x c y) :
    StandsIn t pre c post := by
  obtain ⟨l, x, y, r, hpiece, rfl, rfl⟩ := h
  obtain ⟨l', x', y', r', ht, rfl, rfl⟩ := hs x y hpiece
  exact ⟨l ++ l', x', y', r' ++ r, ht, (List.append_assoc _ _ _).symm,
    List.append_assoc _ _ _⟩

-- ============================================================== windows

/-- What a window leaves when it is trimmed. -/
def segmentOf (body : List Char) (w : Nat × Nat) : Option (List Char) :=
  (slice body w.1 w.2).bind fun s => if trim s = [] then none else some (trim s)

/-- Windows without a gap: each starts no later than what is covered ends,
and they cover the rest. -/
def Gapless (n : Nat) : Nat → List (Nat × Nat) → Prop
  | reach, [] => n ≤ reach
  | reach, w :: ws => w.1 ≤ reach ∧ Gapless n w.2 ws

theorem Gapless.covers {n reach i : Nat} {ws : List (Nat × Nat)}
    (h : Gapless n reach ws) (hi : reach ≤ i) (hn : i < n) :
    ∃ w ∈ ws, w.1 ≤ i ∧ i < w.2 := by
  induction ws generalizing reach with
  | nil => exact absurd (lt_of_lt_of_le hn h) (Nat.not_lt.mpr hi)
  | cons w ws ih =>
      obtain ⟨hle, hrest⟩ := h
      rcases Nat.lt_or_ge i w.2 with hlt | hge
      · exact ⟨w, List.mem_cons_self, hle.trans hi, hlt⟩
      · obtain ⟨w', hw', hin⟩ := ih hrest hge
        exact ⟨w', List.mem_cons_of_mem w hw', hin⟩

/-- What is covered may be more. -/
theorem Gapless.reach {n reach reach' : Nat} {ws : List (Nat × Nat)}
    (h : Gapless n reach ws) (hle : reach ≤ reach') : Gapless n reach' ws := by
  cases ws with
  | nil => exact Nat.le_trans h hle
  | cons w ws => exact ⟨h.1.trans hle, h.2⟩

/-- A window between ends of characters, not longer than the target and what
is left of a character; the next one starts where the overlap says, or at
the end of that character. -/
structure WindowOk (body : List Char) (target : Nat) (w : Nat × Nat) : Prop where
  start : AtEnd body w.1
  stop : AtEnd body w.2
  lt : w.1 < w.2
  le : w.2 ≤ w.1 + target + 3

/-- The windows of a text: in order, without a gap, each of them all right,
and their segments. -/
structure Windowed (body : List Char) (target overlap start : Nat)
    (ws : List (Nat × Nat)) : Prop where
  ok : ∀ w ∈ ws, WindowOk body target w
  from_ : ∀ w ∈ ws, start ≤ w.1
  first : ∀ w, ws.head? = some w → w.1 = start
  sorted : ws.Pairwise fun a b => a.1 < b.1
  gapless : Gapless (byteLen body) start ws
  near : List.IsChain (fun a b : Nat × Nat =>
    b.1 ≤ a.1 + max (a.2 - a.1 - overlap) 1 + 3) ws

/-- The segments of a window and of those after it. -/
theorem filterMap_window {body window : List Char} {w : Nat × Nat}
    (h : slice body w.1 w.2 = some window) (ws : List (Nat × Nat)) :
    (w :: ws).filterMap (segmentOf body)
      = (if trim window = [] then [] else [trim window])
        ++ ws.filterMap (segmentOf body) := by
  have hsegment : segmentOf body w
      = if trim window = [] then none else some (trim window) := by
    rw [segmentOf, h, Option.bind_some]
  by_cases hblank : trim window = []
  · rw [if_pos hblank] at hsegment ⊢
    rw [List.filterMap_cons_none hsegment, List.nil_append]
  · rw [if_neg hblank] at hsegment ⊢
    rw [List.filterMap_cons_some hsegment, List.singleton_append]

theorem nextStart_le {body : List Char} {start stop : Nat} (overlap : Nat)
    (hstart : start < byteLen body) (hstop : stop ≤ byteLen body) :
    nextStart body overlap start stop
      ≤ start + max (stop - start - overlap) 1 + 3 :=
  nextBoundary_le (by omega)

theorem splitFrom_windowed {body : List Char} {target overlap start : Nat}
    (htarget : 200 < target) (hstart : AtEnd body start) :
    ∃ ws, splitFrom body target overlap start
        = some (ws.filterMap (segmentOf body))
      ∧ Windowed body target overlap start ws := by
  fun_induction splitFrom body target overlap start with
  | case1 start hlt stop hnone =>
      have hwindow : WindowAt body target start := windowEnd_spec hlt
      obtain ⟨_, w, _, -, -, -, hslice⟩ := slice_some hstart hwindow.atEnd
        (hwindow.lt htarget).le
      rw [hnone] at hslice
      cases hslice
  | case2 start hlt stop window hsome out hend =>
      have hwindow : WindowAt body target start := windowEnd_spec hlt
      refine ⟨[(start, stop)], ?_, ?_⟩
      · rw [filterMap_window hsome, List.filterMap_nil, List.append_nil]
        rfl
      constructor
      case ok =>
        intro w hw
        rw [List.mem_singleton.mp hw]
        exact ⟨hstart, hwindow.atEnd, hwindow.lt htarget, hwindow.le⟩
      case from_ =>
        intro w hw
        rw [List.mem_singleton.mp hw]
      case first =>
        intro w hw
        rw [← Option.some.inj hw]
      case sorted => exact List.pairwise_singleton _ _
      case gapless => exact ⟨Nat.le_refl _, hend⟩
      case near => exact List.IsChain.singleton _
  | case3 start hlt stop window hsome out hend ih =>
      have hwindow : WindowAt body target start := windowEnd_spec hlt
      obtain ⟨hat, hmoves, hle⟩ := nextStart_spec overlap hlt hwindow.atEnd
      obtain ⟨ws, hws, hrest⟩ := ih hat
      refine ⟨(start, stop) :: ws, ?_, ?_⟩
      · rw [filterMap_window hsome, hws]
        rfl
      constructor
      case ok =>
        intro w hw
        rcases List.mem_cons.mp hw with rfl | hw
        · exact ⟨hstart, hwindow.atEnd, hwindow.lt htarget, hwindow.le⟩
        · exact hrest.ok w hw
      case from_ =>
        intro w hw
        rcases List.mem_cons.mp hw with rfl | hw
        · exact Nat.le_refl _
        · exact hmoves.le.trans (hrest.from_ w hw)
      case first =>
        intro w hw
        rw [← Option.some.inj hw]
      case sorted =>
        refine List.pairwise_cons.mpr ⟨fun w hw => ?_, hrest.sorted⟩
        exact hmoves.trans_le (hrest.from_ w hw)
      case gapless =>
        refine ⟨Nat.le_refl _, ?_⟩
        exact hrest.gapless.reach (hle (hwindow.lt htarget))
      case near =>
        cases ws with
        | nil => exact List.IsChain.singleton _
        | cons w ws =>
            refine List.IsChain.cons_cons ?_ hrest.near
            rw [hrest.first w rfl]
            exact nextStart_le overlap hlt hwindow.atEnd.le
  | case4 start hge =>
      refine ⟨[], rfl, ?_⟩
      constructor
      case ok => exact List.forall_mem_nil _
      case from_ => exact List.forall_mem_nil _
      case first =>
        intro w hw
        cases hw
      case sorted => exact List.Pairwise.nil
      case gapless => exact Nat.not_lt.mp hge
      case near => exact List.IsChain.nil

/-- What is in a window is in its slice. -/
theorem standsIn_slice {body pre post : List Char} {c : Char} {w : Nat × Nat}
    {target : Nat} (hw : WindowOk body target w) (hbody : body = pre ++ c :: post)
    (hstart : w.1 ≤ byteLen pre) (hstop : byteLen pre < w.2) :
    ∃ window, slice body w.1 w.2 = some window
      ∧ StandsIn window pre c post := by
  obtain ⟨p, window, q, hsplit, hp, hlen, hslice⟩ :=
    slice_some hw.start hw.stop hw.lt.le
  refine ⟨window, hslice, ?_⟩
  refine standsIn_of_split (hsplit.symm.trans hbody) (.inr ?_) (.inr ?_)
  · exact (prefix_length_iff (hsplit.symm.trans hbody)).mpr (by omega)
  · have hlong : (p ++ window) ++ q = pre ++ c :: post := by
      rw [List.append_assoc]
      exact hsplit.symm.trans hbody
    have hiff := prefix_length_iff hlong
    rw [byteLen_append, List.length_append] at hiff
    by_contra hno
    have := hiff.mp (Nat.not_lt.mp hno)
    omega

/-- What the chunker is to return for a text: the segments of windows that
leave no gap. -/
structure Chunked (body : List Char) (target overlap : Nat)
    (segments : List (List Char)) : Prop where
  windows : ∃ ws, segments = ws.filterMap (segmentOf body)
    ∧ Windowed body target overlap 0 ws
  substring : ∀ s ∈ segments, s <:+: body
  short : ∀ s ∈ segments, byteLen s ≤ target + 3
  all : ∀ pre c post, body = pre ++ c :: post → isWhitespace c = false →
    ∃ s ∈ segments, StandsIn s pre c post

theorem segmentOf_some {body seg : List Char} {w : Nat × Nat}
    (h : segmentOf body w = some seg) :
    ∃ window, slice body w.1 w.2 = some window ∧ seg = trim window := by
  obtain ⟨window, hslice, hseg⟩ := Option.bind_eq_some_iff.mp h
  split at hseg
  · cases hseg
  · exact ⟨window, hslice, (Option.some.inj hseg).symm⟩

theorem infix_of_trim (s : List Char) : trim s <:+: s := by
  obtain ⟨l, r, hs, -, -⟩ := trimBy_split isWhitespace s
  exact ⟨l, r, by rw [List.append_assoc]; exact hs.symm⟩

theorem byteLen_infix {a b : List Char} (h : a <:+: b) : byteLen a ≤ byteLen b := by
  obtain ⟨l, r, rfl⟩ := h
  rw [byteLen_append, byteLen_append]
  omega

theorem WindowOk.slice {body window : List Char} {target : Nat} {w : Nat × Nat}
    (h : WindowOk body target w) (hslice : slice body w.1 w.2 = some window) :
    window <:+: body ∧ byteLen window = w.2 - w.1 := by
  obtain ⟨p, window', q, hsplit, -, hlen, hslice'⟩ :=
    slice_some h.start h.stop h.lt.le
  obtain rfl : window' = window := Option.some.inj (hslice'.symm.trans hslice)
  exact ⟨⟨p, q, by rw [List.append_assoc]; exact hsplit.symm⟩, hlen⟩

theorem Windowed.chunked {body : List Char} {target overlap : Nat}
    {ws : List (Nat × Nat)} (h : Windowed body target overlap 0 ws) :
    Chunked body target overlap (ws.filterMap (segmentOf body)) := by
  have hseg : ∀ s ∈ ws.filterMap (segmentOf body),
      s <:+: body ∧ byteLen s ≤ target + 3 := by
    intro s hs
    obtain ⟨w, hw, hws⟩ := List.mem_filterMap.mp hs
    obtain ⟨window, hslice, rfl⟩ := segmentOf_some hws
    obtain ⟨hsub, hlen⟩ := (h.ok w hw).slice hslice
    have htrim := byteLen_infix (infix_of_trim window)
    have hle := (h.ok w hw).le
    exact ⟨(infix_of_trim window).trans hsub, by omega⟩
  constructor
  case windows => exact ⟨ws, rfl, h⟩
  case substring => exact fun s hs => (hseg s hs).1
  case short => exact fun s hs => (hseg s hs).2
  case all =>
    intro pre c post hbody hc
    have hin : byteLen pre < byteLen body := by
      have hpos := c.utf8Size_pos
      rw [hbody, byteLen_append, byteLen_cons]
      omega
    obtain ⟨w, hw, hstart, hstop⟩ := h.gapless.covers (Nat.zero_le _) hin
    obtain ⟨window, hslice, hstands⟩ :=
      standsIn_slice (h.ok w hw) hbody hstart hstop
    have htrimmed : StandsIn (trim window) pre c post :=
      hstands.trans fun _ _ hwindow => standsIn_trim hwindow hc
    have hne : trim window ≠ [] := by
      intro hnil
      obtain ⟨_, x, y, _, hpiece, -, -⟩ := htrimmed
      rw [hnil] at hpiece
      exact absurd hpiece.symm (by simp)
    refine ⟨trim window, List.mem_filterMap.mpr ⟨w, hw, ?_⟩, htrimmed⟩
    rw [segmentOf, hslice, Option.bind_some, if_neg hne]

theorem splitText_chunked (body : List Char) {target : Nat} (overlap : Nat)
    (htarget : 200 < target) :
    ∃ segments, splitText body target overlap = some segments
      ∧ Chunked body target overlap segments := by
  obtain ⟨ws, hws, hwindowed⟩ := splitFrom_windowed htarget (atEnd_zero body)
  exact ⟨_, hws, hwindowed.chunked⟩

-- =============================================================== chunks

variable {F : Type}

/-- What a document's chunks are to be: one for each segment, under the
numbers of their places; the ordinals are these numbers as they fit. -/
structure ChunksOf (doc : Document) (cfg : ChunkerConfig)
    (segments : List (List Char)) (cs : List (Chunk F)) : Prop where
  texts : cs.map Chunk.text
    = segments.map fun s => chunkPrefix doc cfg ++ String.ofList s
  ids : cs.map Chunk.id = (List.range segments.length).map (chunkId doc.id)
  distinct : (cs.map Chunk.id).Nodup
  ordinals : cs.map Chunk.ordinal
    = (List.range segments.length).map (· % 4294967296)

theorem mapIdx_field {α β γ : Type} (f : Nat → α → β) (g : β → γ) (h : Nat → γ)
    (hf : ∀ i a, g (f i a) = h i) (l : List α) :
    (l.mapIdx f).map g = (List.range l.length).map h := by
  refine List.ext_getElem (by simp) fun i hi hi' => ?_
  simp [hf]

theorem chunkOf_chunksOf (doc : Document) (cfg : ChunkerConfig)
    (segments : List (List Char)) :
    ChunksOf (F := F) doc cfg segments
      (segments.mapIdx fun i s => chunkOf doc cfg i s) := by
  have hids := mapIdx_field (fun i s => chunkOf (F := F) doc cfg i s) Chunk.id
    (chunkId doc.id) (fun _ _ => rfl) segments
  constructor
  case texts =>
    refine List.ext_getElem (by simp) fun i hi hi' => ?_
    simp [chunkOf]
  case ids => exact hids
  case distinct =>
    rw [hids]
    exact List.nodup_range.map fun i j h => (chunkId_inj.mp h).2
  case ordinals =>
    exact mapIdx_field (fun i s => chunkOf (F := F) doc cfg i s) Chunk.ordinal
      (· % 4294967296) (fun _ _ => rfl) segments

/-- The chunks are those of the segments, also where there are none. -/
theorem chunkDocument_some {doc : Document} {cfg : ChunkerConfig}
    {segments : List (List Char)}
    (h : splitText (trim doc.body.toList) cfg.targetChars cfg.overlapChars
      = some segments) :
    chunkDocument (F := F) doc cfg
      = some (segments.mapIdx fun i s => chunkOf doc cfg i s) := by
  unfold chunkDocument
  dsimp only
  split
  · next hempty =>
      have hzero : ¬ 0 < byteLen [] := Nat.lt_irrefl 0
      rw [hempty, splitText, splitFrom, if_neg hzero] at h
      rw [← Option.some.inj h]
      rfl
  · rw [h]
    rfl

/-- The chunks of every document, with targets of more than two hundred
bytes: nothing of its body is lost. -/
theorem chunkDocument_chunked (doc : Document) (cfg : ChunkerConfig)
    (htarget : 200 < cfg.targetChars) :
    ∃ segments cs, chunkDocument (F := F) doc cfg = some cs
      ∧ Chunked (trim doc.body.toList) cfg.targetChars cfg.overlapChars segments
      ∧ ChunksOf doc cfg segments cs
      ∧ ∀ pre c post, doc.body.toList = pre ++ c :: post →
        isWhitespace c = false → ∃ s ∈ segments, StandsIn s pre c post := by
  obtain ⟨segments, hsegments, hchunked⟩ :=
    splitText_chunked (trim doc.body.toList) cfg.overlapChars htarget
  refine ⟨segments, _, chunkDocument_some hsegments, hchunked,
    chunkOf_chunksOf doc cfg segments, ?_⟩
  intro pre c post hbody hc
  obtain ⟨l, x, y, r, hpiece, rfl, rfl⟩ := standsIn_trim hbody hc
  obtain ⟨s, hs, l', x', y', r', hs', rfl, rfl⟩ := hchunked.all x c y hpiece hc
  exact ⟨s, hs, l ++ l', x', y', r' ++ r, hs',
    (List.append_assoc _ _ _).symm, List.append_assoc _ _ _⟩

-- ============================================================= ordinals

/-- With an overlap of a whole window there is a window every few bytes. -/
theorem Windowed.many {body : List Char} {target overlap start : Nat}
    {ws : List (Nat × Nat)} (h : Windowed body target overlap start ws)
    (hoverlap : target + 3 ≤ overlap) :
    byteLen body ≤ start + 4 * ws.length + target + 3 := by
  obtain ⟨hok, -, hfirst, -, hgapless, hnear⟩ := h
  induction ws generalizing start with
  | nil =>
      have hle : byteLen body ≤ start := hgapless
      omega
  | cons w ws ih =>
      have hw := hok w List.mem_cons_self
      have hstart : w.1 = start := hfirst w rfl
      have hle := hw.le
      have hlt := hw.lt
      rw [List.length_cons]
      cases ws with
      | nil =>
          have hend : byteLen body ≤ w.2 := hgapless.2
          omega
      | cons w' ws =>
          obtain ⟨hnext, hnear⟩ := List.isChain_cons_cons.mp hnear
          have hrest : byteLen body ≤ w'.1 + 4 * (w' :: ws).length + target + 3 :=
            ih (fun x hx => hok x (List.mem_cons_of_mem w hx))
              (fun x hx => by rw [← Option.some.inj hx])
              ⟨Nat.le_refl _, hgapless.2.2⟩ hnear
          omega

/-- Where no character is white space, every window is a segment. -/
theorem segments_length {body : List Char} {target : Nat}
    (hbody : ∀ c ∈ body, isWhitespace c = false) {ws : List (Nat × Nat)}
    (hok : ∀ w ∈ ws, WindowOk body target w) :
    (ws.filterMap (segmentOf body)).length = ws.length := by
  induction ws with
  | nil => rfl
  | cons w ws ih =>
      have hw := hok w List.mem_cons_self
      obtain ⟨_, window, _, -, -, -, hslice⟩ :=
        slice_some hw.start hw.stop hw.lt.le
      obtain ⟨hsub, hlen⟩ := hw.slice hslice
      have hne : trim window ≠ [] := by
        intro hnil
        have hall := trimBy_eq_nil_iff.mp hnil
        cases window with
        | nil =>
            have hlt := hw.lt
            have hzero : byteLen [] = 0 := rfl
            omega
        | cons c window =>
            have hc := hall c List.mem_cons_self
            rw [hbody c (hsub.subset List.mem_cons_self)] at hc
            cases hc
      rw [filterMap_window hslice, if_neg hne, List.singleton_append,
        List.length_cons, List.length_cons,
        ih fun x hx => hok x (List.mem_cons_of_mem w hx)]

/-- A document of one letter, so many times. -/
def letters (n : Nat) : Document where
  id := "d"
  domain := .sapHelp
  uri := "u"
  title := "t"
  body := String.ofList (List.replicate n 'a')
  breadcrumbs := []
  contentHash := ""
  etag := none
  lastCrawled := none
  metadata := []

theorem trim_letters (n : Nat) :
    trim (letters n).body.toList = List.replicate n 'a' := by
  have hbody : (letters n).body.toList = List.replicate n 'a' :=
    String.toList_ofList
  have hletter : ∀ c ∈ List.replicate n 'a', isWhitespace c = false := by
    intro c hc
    rw [(List.mem_replicate.mp hc).2]
    decide
  rw [hbody]
  exact trimBy_eq_self_iff.mpr
    ⟨fun c hc => hletter c (List.mem_of_mem_head? hc),
      fun c hc => hletter c (List.mem_of_getLast? hc)⟩

theorem byteLen_letters (n : Nat) : byteLen (List.replicate n 'a') = n := by
  induction n with
  | zero => rfl
  | succ n ih =>
      have hone : Char.utf8Size 'a' = 1 := rfl
      rw [List.replicate_succ, byteLen_cons, ih, hone, Nat.add_comm]

/-- It has a chunk every four letters at least. -/
theorem letters_chunks (n : Nat) :
    ∃ cs : List (Chunk Unit),
      chunkDocument (letters n) ⟨201, 204, false⟩ = some cs
        ∧ n ≤ 4 * cs.length + 204
        ∧ cs.map Chunk.ordinal
          = (List.range cs.length).map (· % 4294967296) := by
  obtain ⟨ws, hws, hwindowed⟩ : ∃ ws : List (Nat × Nat),
      splitText (trim (letters n).body.toList) 201 204 = some (ws.filterMap (segmentOf (trim (letters n).body.toList)))
        ∧ Windowed (trim (letters n).body.toList) 201 204 0 ws :=
    splitFrom_windowed (by decide) (atEnd_zero _)
  have hmany := hwindowed.many (Nat.le_refl _)
  have hbody : ∀ c ∈ trim (letters n).body.toList, isWhitespace c = false := by
    intro c hc
    rw [trim_letters] at hc
    rw [(List.mem_replicate.mp hc).2]
    decide
  have hcount := segments_length hbody hwindowed.ok
  have hsize : byteLen (trim (letters n).body.toList) = n := by
    rw [trim_letters, byteLen_letters]
  refine ⟨_, chunkDocument_some hws, ?_, ?_⟩
  · rw [List.length_mapIdx, hcount]
    omega
  · rw [List.length_mapIdx]
    exact (chunkOf_chunksOf (letters n) ⟨201, 204, false⟩ _).ordinals

/-- A target and an overlap of one window, and two letters. -/
theorem letters_chunked : ∃ segments cs,
    chunkDocument (F := Unit) (letters 2) ⟨201, 204, false⟩ = some cs
      ∧ Chunked (trim (letters 2).body.toList) 201 204 segments
      ∧ ChunksOf (letters 2) ⟨201, 204, false⟩ segments cs := by
  obtain ⟨segments, cs, hcs, hchunked, hof, -⟩ :=
    chunkDocument_chunked (F := Unit) (letters 2) ⟨201, 204, false⟩ (by decide)
  exact ⟨segments, cs, hcs, hchunked, hof⟩

/-- A document of so many chunks that their ordinals do not fit. -/
theorem ordinals_wrap : ¬ ∀ (doc : Document) (cfg : ChunkerConfig),
    200 < cfg.targetChars → ∃ cs : List (Chunk Unit),
      chunkDocument doc cfg = some cs
        ∧ cs.map Chunk.ordinal = List.range cs.length := by
  intro h
  obtain ⟨cs, hcs, hmany, hwrapped⟩ := letters_chunks (2 ^ 35)
  obtain ⟨cs', hcs', hordinals⟩ :=
    h (letters (2 ^ 35)) ⟨201, 204, false⟩ (by decide)
  obtain rfl : cs = cs' := Option.some.inj (hcs.symm.trans hcs')
  rw [hordinals] at hwrapped
  have hplace := congrArg (·[4294967296]?) hwrapped
  have hlen : 4294967296 < cs.length := by omega
  simp only [List.getElem?_map, List.getElem?_range hlen, Option.map_some]
    at hplace
  exact absurd (Option.some.inj hplace) (by decide)

end SapAutomate.Ingest
