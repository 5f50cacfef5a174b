/-
The ranges of the sections tile the body
(`sap-automate-kb/src/doc_tree.rs`).

A line begins behind the newline of the one before it (`linesFrom_spec`), so
a heading's body begins no later than the next heading, and the sentinel
closes the last section at the end of the text. All of these are ends of
characters, so no slice of the body is out of range.
-/
import SapAutomate.Lib.Ranges
import SapAutomate.Proofs.HeadingTree

namespace SapAutomate.Kb

open Arena Ranges Text

-- ========================================================== boundaries

/-- A position where a character ends, or the first one. -/
def Boundary (body : List Char) (n : Nat) : Prop :=
  ∃ pre post, body = pre ++ post ∧ bytes pre = n

theorem bytes_append (a b : List Char) : bytes (a ++ b) = bytes a + bytes b := by
  rw [bytes, List.map_append, List.sum_append]
  rfl

theorem bytes_cons (c : Char) (cs : List Char) :
    bytes (c :: cs) = c.utf8Size + bytes cs := by
  rw [bytes, List.map_cons, List.sum_cons]
  rfl

theorem bytes_pos {cs : List Char} (h : cs ≠ []) : 0 < bytes cs := by
  cases cs with
  | nil => exact absurd rfl h
  | cons c cs =>
      rw [bytes_cons]
      exact Nat.add_pos_left c.utf8Size_pos _

theorem boundary_length (body : List Char) : Boundary body (bytes body) :=
  ⟨body, [], (List.append_nil _).symm, rfl⟩

theorem dropBytes_append (pre post : List Char) :
    dropBytes (bytes pre) (pre ++ post) = some post := by
  induction pre with
  | nil =>
      cases post <;> rfl
  | cons c pre ih =>
      have hpos := c.utf8Size_pos
      rw [bytes_cons, List.cons_append]
      obtain ⟨n, hn⟩ : ∃ n, c.utf8Size + bytes pre = n + 1 :=
        ⟨c.utf8Size + bytes pre - 1, by omega⟩
      rw [hn, dropBytes, if_pos (by omega)]
      have hrest : n + 1 - c.utf8Size = bytes pre := by omega
      rw [hrest, ih]

theorem takeBytes_append (pre post : List Char) :
    takeBytes (bytes pre) (pre ++ post) = some pre := by
  induction pre with
  | nil =>
      cases post <;> rfl
  | cons c pre ih =>
      have hpos := c.utf8Size_pos
      rw [bytes_cons, List.cons_append]
      obtain ⟨n, hn⟩ : ∃ n, c.utf8Size + bytes pre = n + 1 :=
        ⟨c.utf8Size + bytes pre - 1, by omega⟩
      rw [hn, takeBytes, if_pos (by omega)]
      have hrest : n + 1 - c.utf8Size = bytes pre := by omega
      rw [hrest, ih]
      rfl

/-- Of two boundaries, what comes before the first comes before the other. -/
theorem Boundary.between {body : List Char} {m n : Nat} (hm : Boundary body m)
    (hn : Boundary body n) (hle : m ≤ n) :
    ∃ pre mid post, body = pre ++ (mid ++ post) ∧ bytes pre = m
      ∧ bytes mid = n - m := by
  obtain ⟨pre, post, hbody, rfl⟩ := hm
  obtain ⟨pre', post', hbody', rfl⟩ := hn
  rw [hbody] at hbody'
  rcases List.append_eq_append_iff.mp hbody' with ⟨mid, rfl, rfl⟩ | ⟨mid, rfl, rfl⟩
  · refine ⟨pre, mid, post', hbody, rfl, ?_⟩
    rw [bytes_append]
    omega
  · rw [bytes_append] at hle ⊢
    have hnil : mid = [] := by
      by_contra hne
      have := bytes_pos hne
      omega
    subst hnil
    refine ⟨pre', [], post, ?_, ?_, ?_⟩
    · rw [hbody, List.append_nil]
      rfl
    · rfl
    · rw [bytes]
      simp

theorem getRange_some {body : List Char} {m n : Nat} (hm : Boundary body m)
    (hn : Boundary body n) (hle : m ≤ n) : ∃ slice, getRange body m n = some slice := by
  obtain ⟨pre, mid, post, rfl, rfl, hmid⟩ := hm.between hn hle
  refine ⟨mid, ?_⟩
  rw [getRange, if_pos hle, dropBytes_append, ← hmid, Option.bind_some,
    takeBytes_append]

-- =============================================================== lines

/-- A line of a text: its characters stand there, and the text ends behind
them or goes on with a newline. -/
def LineAt (body : List Char) (o : Nat) (line : List Char) : Prop :=
  ∃ pre rest, body = pre ++ (line ++ rest) ∧ bytes pre = o
    ∧ (rest = [] ∨ ∃ r, rest = '\n' :: r)

theorem linesFrom_spec (pre line cs : List Char) :
    (∀ l ∈ linesFrom (bytes pre) line cs, LineAt (pre ++ (line ++ cs)) l.1 l.2
        ∧ bytes pre ≤ l.1)
      ∧ (linesFrom (bytes pre) line cs).Pairwise fun a b =>
        a.1 + bytes a.2 + 1 ≤ b.1 := by
  induction cs generalizing pre line with
  | nil =>
      rw [linesFrom]
      split
      · exact ⟨nofun, List.Pairwise.nil⟩
      · refine ⟨fun l hl => ?_, List.pairwise_singleton _ _⟩
        rw [List.mem_singleton.mp hl]
        exact ⟨⟨pre, [], rfl, rfl, .inl rfl⟩, Nat.le_refl _⟩
  | cons c cs ih =>
      rw [linesFrom]
      by_cases hc : c = '\n'
      · rw [if_pos hc, hc]
        have hstart : bytes pre + bytes line + 1
            = bytes (pre ++ (line ++ ['\n'])) := by
          rw [bytes_append, bytes_append, bytes_cons, ← Nat.add_assoc]
          rfl
        have htext : pre ++ (line ++ '\n' :: cs)
            = pre ++ (line ++ ['\n']) ++ ([] ++ cs) := by
          simp only [List.append_assoc, List.cons_append, List.nil_append]
        obtain ⟨hlines, hsorted⟩ := ih (pre ++ (line ++ ['\n'])) []
        rw [← hstart, ← htext] at hlines
        rw [← hstart] at hsorted
        constructor
        · intro l hl
          rcases List.mem_cons.mp hl with rfl | hl
          · exact ⟨⟨pre, _, rfl, rfl, .inr ⟨cs, rfl⟩⟩, Nat.le_refl _⟩
          · obtain ⟨hat, hle⟩ := hlines l hl
            exact ⟨hat, by omega⟩
        · exact List.pairwise_cons.mpr
            ⟨fun l hl => (hlines l hl).2, hsorted⟩
      · rw [if_neg hc]
        have htext : pre ++ (line ++ c :: cs) = pre ++ (line ++ [c] ++ cs) := by
          simp only [List.append_assoc, List.cons_append, List.nil_append]
        rw [htext]
        exact ih pre (line ++ [c])

/-- A line that is not empty, with the place where what follows it starts. -/
theorem LineAt.ends {body : List Char} {o : Nat} {line : List Char}
    (h : LineAt body o line) (hline : line ≠ []) :
    Boundary body o ∧ Boundary body (min (o + bytes line + 1) (bytes body))
      ∧ o < min (o + bytes line + 1) (bytes body) := by
  obtain ⟨pre, rest, rfl, rfl, hrest⟩ := h
  have hpos := bytes_pos hline
  rw [bytes_append, bytes_append]
  refine ⟨⟨pre, _, rfl, rfl⟩, ?_, ?_⟩
  · rcases hrest with rfl | ⟨r, rfl⟩
    · have hnil : bytes ([] : List Char) = 0 := rfl
      rw [hnil, min_eq_right (by omega)]
      refine ⟨pre ++ (line ++ []), [], (List.append_nil _).symm, ?_⟩
      rw [bytes_append, bytes_append, hnil]
    · have hnewline : bytes ('\n' :: r) = 1 + bytes r := bytes_cons '\n' r
      rw [hnewline, min_eq_left (by omega)]
      refine ⟨pre ++ (line ++ ['\n']), r, ?_, ?_⟩
      · simp only [List.append_assoc, List.cons_append, List.nil_append]
      · rw [bytes_append, bytes_append, bytes_cons]
        rfl
  · exact lt_min (by omega) (by omega)

-- ============================================================ headings

/-- A line that is a heading is not empty. -/
theorem parseAtxLine_ne {line : List Char} {h : ParsedAtx}
    (hh : parseAtxLine line = some h) : line ≠ [] := by
  rintro rfl
  cases hh

theorem parseMarker_ne {line : List Char} {h : ParsedAtx}
    (hh : parseMarker line = some h) : line ≠ [] := by
  rintro rfl
  cases hh

/-- Where a heading stands in the body. -/
structure HeadingAt (body : List Char) (h : Heading) : Prop where
  marker : Boundary body h.markerStart
  body : Boundary body h.bodyStart
  lt : h.markerStart < h.bodyStart

/-- Headings in the order in which they stand. -/
structure Laid (body : List Char) (hs : List Heading) : Prop where
  at_ : ∀ h ∈ hs, HeadingAt body h
  sorted : hs.Pairwise fun a b => a.bodyStart ≤ b.markerStart

theorem Boundary.le {body : List Char} {n : Nat} (h : Boundary body n) :
    n ≤ bytes body := by
  obtain ⟨pre, post, rfl, rfl⟩ := h
  rw [bytes_append]
  exact Nat.le_add_right _ _

theorem headingsBy_laid {parse : List Char → Option ParsedAtx}
    (hparse : ∀ line h, parse line = some h → line ≠ []) (body : List Char) :
    Laid body (headingsBy parse body) := by
  obtain ⟨hlines, hsorted⟩ := linesFrom_spec [] [] body
  have hzero : bytes ([] : List Char) = 0 := rfl
  rw [hzero] at hlines hsorted
  constructor
  case at_ =>
    intro h hh
    obtain ⟨line, hline, hh⟩ := List.mem_filterMap.mp hh
    obtain ⟨parsed, hparsed, rfl⟩ := Option.map_eq_some_iff.mp hh
    obtain ⟨hstart, hbody, hlt⟩ :=
      (hlines line hline).1.ends (hparse _ _ hparsed)
    exact ⟨hstart, hbody, hlt⟩
  case sorted =>
    unfold headingsBy
    refine List.pairwise_filterMap.mpr (hsorted.imp ?_)
    intro a b hab h hh h' hh'
    obtain ⟨_, -, rfl⟩ := Option.map_eq_some_iff.mp hh
    obtain ⟨_, -, rfl⟩ := Option.map_eq_some_iff.mp hh'
    exact (min_le_left _ _).trans hab

theorem detectHeadings_laid (body : List Char) :
    Laid body (detectHeadings body) := by
  unfold detectHeadings
  split
  · exact headingsBy_laid (fun _ _ => parseMarker_ne) body
  · exact headingsBy_laid (fun _ _ => parseAtxLine_ne) body

-- ============================================================ sections

/-- Where the section of a heading ends. -/
def sectionEnd (body : List Char) (hs : List Heading) : Nat :=
  (hs.head?.map Heading.markerStart).getD (bytes body)

theorem prepare_cons {body : List Char} {h : Heading} (hdepth : h.depth ≠ 0)
    (hs : List Heading) :
    prepare body (h :: hs) = ⟨h.depth, h.title, h.markerStart, h.bodyStart,
      sectionEnd body hs⟩ :: prepare body hs := by
  unfold prepare
  cases hs with
  | nil =>
      simp [sectionEnd, hdepth]
  | cons h' hs =>
      simp [sectionEnd, hdepth]

/-- What a section says of its place. -/
structure SectionAt (body : List Char) (ps : PreparedSection) : Prop where
  start : Boundary body ps.start
  bodyStart : Boundary body ps.bodyStart
  stop : Boundary body ps.stop
  lt : ps.start < ps.bodyStart
  le : ps.bodyStart ≤ ps.stop

theorem prepare_spec {body : List Char} {hs : List Heading}
    (hlaid : Laid body hs) (hdepth : ∀ h ∈ hs, h.depth ≠ 0) :
    (∀ ps ∈ prepare body hs, SectionAt body ps)
      ∧ Tile (sectionEnd body hs)
        ((prepare body hs).map fun ps => (ps.start, ps.stop)) (bytes body) := by
  induction hs with
  | nil => exact ⟨nofun, rfl⟩
  | cons h hs ih =>
      obtain ⟨hat, hsorted⟩ := hlaid
      obtain ⟨hnext, hsorted⟩ := List.pairwise_cons.mp hsorted
      obtain ⟨hsecs, htile⟩ := ih
        ⟨fun h' hh' => hat h' (List.mem_cons_of_mem h hh'), hsorted⟩
        (fun h' hh' => hdepth h' (List.mem_cons_of_mem h hh'))
      have hself := hat h List.mem_cons_self
      have hend : Boundary body (sectionEnd body hs)
          ∧ h.bodyStart ≤ sectionEnd body hs := by
        cases hs with
        | nil => exact ⟨boundary_length body, hself.body.le⟩
        | cons h' hs =>
            have hh' : h' ∈ h :: h' :: hs :=
              List.mem_cons_of_mem h List.mem_cons_self
            exact ⟨(hat h' hh').marker, hnext h' List.mem_cons_self⟩
      rw [prepare_cons (hdepth h List.mem_cons_self), List.map_cons]
      refine ⟨fun ps hps => ?_, rfl, hself.lt.trans_le hend.2, htile⟩
      rcases List.mem_cons.mp hps with rfl | hps
      · exact ⟨hself.marker, hself.body, hend.1, hself.lt, hend.2⟩
      · exact hsecs ps hps

-- ================================================================ nodes

/-- The range of a node. -/
def NodeData.range (d : NodeData) : Nat × Nat := (d.startIndex, d.endIndex)

/-- What `assign_paths` leaves of a node. -/
def NodeData.placed (d : NodeData) : (Nat × Nat) × String × Nat :=
  (d.range, d.summary, d.approxTokens)

theorem assignPaths_placed (path : String) (f : Forest NodeData) :
    (assignPaths path f).preorder.map NodeData.placed
      = f.preorder.map NodeData.placed := by
  induction f generalizing path with
  | nil => rfl
  | snoc f d kids ihf ihk =>
      rw [assignPaths, Forest.preorder, Forest.preorder, List.map_append,
        List.map_append, List.map_cons, List.map_cons, ihf, ihk]
      rfl

theorem prepare_headings {body : List Char} {hs : List Heading}
    (hdepth : ∀ h ∈ hs, h.depth ≠ 0) :
    (prepare body hs).map (fun ps => (ps.start, ps.bodyStart))
      = hs.map fun h => (h.markerStart, h.bodyStart) := by
  induction hs with
  | nil => rfl
  | cons h hs ih =>
      rw [prepare_cons (hdepth h List.mem_cons_self), List.map_cons,
        List.map_cons, ih fun h' hh' => hdepth h' (List.mem_cons_of_mem h hh')]

/-- The ranges of the nodes, in pre-order, tile the body from the first
heading on; and each node's summary is that of the slice behind its
heading. -/
structure TilesBody (body : List Char) (ns : List NodeData) : Prop where
  count : ns.length = (detectHeadings body).length
  tile : ∀ h, (detectHeadings body).head? = some h →
    Tile h.markerStart (ns.map NodeData.range) (bytes body)
  own : ∀ h, (detectHeadings body).head? = some h →
    ∀ i, h.markerStart ≤ i → i < bytes body →
      ∃! k : Nat, ∃ d : NodeData, ns[k]? = some d
        ∧ d.startIndex ≤ i ∧ i < d.endIndex
  boundaries : ∀ d ∈ ns, Boundary body d.startIndex
    ∧ Boundary body d.endIndex ∧ d.startIndex < d.endIndex
  slices : ∀ (k : Nat) d h, ns[k]? = some d →
    (detectHeadings body)[k]? = some h →
      d.startIndex = h.markerStart ∧ Boundary body h.bodyStart
        ∧ d.startIndex < h.bodyStart ∧ h.bodyStart ≤ d.endIndex
        ∧ ∃ slice, getRange body h.bodyStart d.endIndex = some slice
          ∧ d.summary = extractSummary slice
          ∧ d.approxTokens = approxTokens slice

theorem tilesBody_of_placed {body : List Char} {ns : List NodeData}
    (hns : ns.map NodeData.placed
      = (prepare body (detectHeadings body)).map fun ps =>
        (nodeOf body ps).placed) : TilesBody body ns := by
  have hdepth := detectHeadings_depth body
  obtain ⟨hsecs, htile⟩ := prepare_spec (detectHeadings_laid body) hdepth
  have hheads := @prepare_headings body _ hdepth
  have hranges : ns.map NodeData.range
      = (prepare body (detectHeadings body)).map fun ps =>
        (ps.start, ps.stop) := by
    have hfst := congrArg (List.map Prod.fst) hns
    rwa [List.map_map, List.map_map] at hfst
  -- the section of a node, by its place
  have hsec : ∀ (k : Nat) d, ns[k]? = some d →
      ∃ ps, (prepare body (detectHeadings body))[k]? = some ps
        ∧ (nodeOf body ps).placed = d.placed := by
    intro k d hd
    have hk := congrArg (·[k]?) hns
    simp only [List.getElem?_map, hd, Option.map_some] at hk
    obtain ⟨ps, hps, heq⟩ := Option.map_eq_some_iff.mp hk.symm
    exact ⟨ps, hps, heq⟩
  have htiles : ∀ h, (detectHeadings body).head? = some h →
      Tile h.markerStart (ns.map NodeData.range) (bytes body) := by
    intro h hh
    rw [hranges]
    have hstart : sectionEnd body (detectHeadings body) = h.markerStart := by
      rw [sectionEnd, hh]
      rfl
    rwa [hstart] at htile
  constructor
  case count =>
    have hlen := congrArg List.length hns
    have hlen' := congrArg List.length hheads
    simp only [List.length_map] at hlen hlen'
    exact hlen.trans hlen'
  case tile => exact htiles
  case own =>
    intro h hh i hstart hend
    obtain ⟨k, ⟨r, hr, hin⟩, huniq⟩ := (htiles h hh).unique hstart hend
    rw [List.getElem?_map] at hr
    obtain ⟨d, hd, rfl⟩ := Option.map_eq_some_iff.mp hr
    refine ⟨k, ⟨d, hd, hin⟩, ?_⟩
    rintro j ⟨d', hd', hin'⟩
    refine huniq j ⟨d'.range, ?_, hin'⟩
    rw [List.getElem?_map, hd']
    rfl
  case boundaries =>
    intro d hd
    obtain ⟨k, hk⟩ := List.mem_iff_getElem?.mp hd
    obtain ⟨ps, hps, heq⟩ := hsec k d hk
    have hat := hsecs ps (List.mem_of_getElem? hps)
    obtain ⟨hstart, hstop⟩ := Prod.mk.inj (Prod.mk.inj heq).1
    rw [← hstart, ← hstop]
    exact ⟨hat.start, hat.stop, hat.lt.trans_le hat.le⟩
  case slices =>
    intro k d h hd hh
    obtain ⟨ps, hps, heq⟩ := hsec k d hd
    have hat := hsecs ps (List.mem_of_getElem? hps)
    have hk := congrArg (·[k]?) hheads
    simp only [List.getElem?_map, hps, hh, Option.map_some] at hk
    obtain ⟨hmarker, hbody⟩ := Prod.mk.inj (Option.some.inj hk)
    obtain ⟨hplace, hrest⟩ := Prod.mk.inj heq
    obtain ⟨hstart, hstop⟩ := Prod.mk.inj hplace
    obtain ⟨hsummary, htokens⟩ := Prod.mk.inj hrest
    obtain ⟨slice, hslice⟩ := getRange_some hat.bodyStart hat.stop hat.le
    rw [← hstart, ← hstop, ← hbody]
    refine ⟨hmarker, hat.bodyStart, hat.lt, hat.le, slice, hslice, ?_, ?_⟩
    · rw [← hsummary]
      show extractSummary ((getRange body ps.bodyStart ps.stop).getD []) = _
      rw [hslice]
      rfl
    · rw [← htokens]
      show approxTokens ((getRange body ps.bodyStart ps.stop).getD []) = _
      rw [hslice]
      rfl

/-- The sections of the tree of every document tile its body. -/
theorem buildDocumentTree_tiles (A : Allocator NodeData) (doc : Document) :
    ∃ t, buildDocumentTree A doc = some t
      ∧ TilesBody doc.body.toList t.root.children.preorder := by
  obtain ⟨t, f, ht, hroot, hnodes⟩ := buildDocumentTree_forest A doc
  refine ⟨t, ht, tilesBody_of_placed ?_⟩
  have hplaced := assignPaths_placed "" f
  rw [hnodes, List.map_map] at hplaced
  rw [hroot]
  exact hplaced

end SapAutomate.Kb
