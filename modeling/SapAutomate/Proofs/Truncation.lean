/-
What `xml_to_json_root` makes of a reply cut short: an error exactly
when the cut falls inside a markup, when no start tag is complete, or
when more than 256 elements were open. Everywhere else the end of the
input is taken for the end of every open element, and the partial tree
is returned as if it were the reply.

`scan` is what decides between the two, without the tree: it follows
the levels and nothing else. `children_scan` ties the parser to it, and
`scan_failed_iff` reads it off events that nest.
-/
import SapAutomate.Lib.Xml.Cut
import SapAutomate.Proofs.EnvelopeTree
import SapAutomate.Rfc.Transaction
import SapAutomate.Soap.Decode

namespace SapAutomate.Soap

open Json Rfc Xml

-- ============================================================== scanning

/-- How the events of an element end. -/
inductive Scan where
  | failed
  | ended
  | closed (rest : Events)

/-- Follows the events with `k` elements open inside the current one, at
a depth, up to the end of the current one. -/
def scan : Nat → Nat → Events → Scan
  | _, _, [] => .ended
  | k, depth, .ok (.start _) :: es =>
      if depth + 1 > maxXmlDepth then .failed else scan (k + 1) (depth + 1) es
  | 0, _, .ok (.end _) :: es => .closed es
  | k + 1, depth, .ok (.end _) :: es => scan k (depth - 1) es
  | k, depth, .ok (.empty _) :: es => scan k depth es
  | k, depth, .ok (.text _) :: es => scan k depth es
  | k, depth, .ok (.cdata _) :: es => scan k depth es
  | k, depth, .ok .other :: es => scan k depth es
  | _, _, .error _ :: _ => .failed

/-- Scanning an inner element, then the rest of the outer one. -/
def Scan.andThen (s : Scan) (f : Events → Scan) : Scan :=
  match s with
  | .closed rest => f rest
  | o => o

/-- With an element open, it is scanned to its end first. -/
theorem scan_split (es : Events) (j k depth : Nat) :
    scan (j + k + 1) (depth + j + 1) es
      = (scan j (depth + j + 1) es).andThen fun rest => scan k depth rest := by
  induction es generalizing j with
  | nil => cases j <;> rfl
  | cons e es ih =>
      match e with
      | .error msg => cases j <;> rfl
      | .ok (.empty n) => cases j <;> exact ih _
      | .ok (.text t) => cases j <;> exact ih _
      | .ok (.cdata t) => cases j <;> exact ih _
      | .ok .other => cases j <;> exact ih _
      | .ok (.start n) =>
          have hj : j + k + 1 + 1 = (j + 1) + k + 1 := by omega
          have hs : ∀ i, scan i (depth + j + 1) (.ok (.start n) :: es)
              = if depth + j + 1 + 1 > maxXmlDepth then .failed
                else scan (i + 1) (depth + j + 1 + 1) es := by
            intro i
            cases i <;> rfl
          rw [hs, hs]
          by_cases hd : depth + j + 1 + 1 > maxXmlDepth
          · rw [if_pos hd, if_pos hd]
            rfl
          · rw [if_neg hd, if_neg hd, hj]
            exact ih (j + 1)
      | .ok (.end n) =>
          cases j with
          | zero =>
              rw [Nat.zero_add]
              rfl
          | succ j =>
              have hj : j + 1 + k + 1 = (j + k + 1) + 1 := by omega
              rw [hj]
              exact ih j

/-- The parser ends as the scan does. -/
theorem children_scan (r : Reader) :
    ∀ (n : Nat) (es : Events), es.length ≤ n → ∀ (depth : Nat) (st : Frame),
      match scan 0 depth es with
      | .failed => ∃ e, children r depth st es = .error e
      | .ended => ∃ v, children r depth st es = .ok (v, [])
      | .closed rest => ∃ v, children r depth st es = .ok (v, rest) := by
  intro n
  induction n with
  | zero =>
      intro es hn depth st
      have hes : es = [] := List.length_eq_zero_iff.mp (by omega)
      subst hes
      exact ⟨_, rfl⟩
  | succ n ih =>
      intro es hn depth st
      cases es with
      | nil => exact ⟨_, rfl⟩
      | cons e es =>
          rw [List.length_cons] at hn
          match e with
          | .error msg => exact ⟨_, rfl⟩
          | .ok (.end m) => exact ⟨_, rfl⟩
          | .ok (.empty m) =>
              rw [children_empty]
              exact ih es (by omega) depth _
          | .ok (.text t) =>
              rw [children_text]
              exact ih es (by omega) depth _
          | .ok (.cdata t) =>
              rw [children_cdata]
              exact ih es (by omega) depth _
          | .ok .other =>
              rw [children_other]
              exact ih es (by omega) depth _
          | .ok (.start m) =>
              have hscan : scan 0 depth (.ok (.start m) :: es)
                  = if depth + 1 > maxXmlDepth then .failed
                    else scan 1 (depth + 1) es := rfl
              rw [hscan, children_start]
              by_cases hd : depth + 1 > maxXmlDepth
              · rw [if_pos hd, if_pos hd]
                exact ⟨_, rfl⟩
              · have hsplit := scan_split es 0 0 depth
                rw [Nat.add_zero] at hsplit
                rw [if_neg hd, if_neg hd, hsplit]
                have hinner := ih es (by omega) (depth + 1) .initial
                cases hs : scan 0 (depth + 1) es with
                | failed =>
                    rw [hs] at hinner
                    obtain ⟨err, herr⟩ := hinner
                    rw [herr]
                    exact ⟨_, rfl⟩
                | ended =>
                    rw [hs] at hinner
                    obtain ⟨v, hv⟩ := hinner
                    rw [hv]
                    exact ⟨_, rfl⟩
                | closed rest =>
                    rw [hs] at hinner
                    obtain ⟨v, hv⟩ := hinner
                    have hle := children_length r (depth + 1) .initial es hv
                    rw [hv]
                    exact ih rest (by omega) depth _

-- ==================================================== events that nest

/-- The first element of a prefix, taken off. -/
theorem exists_prefix_cons {e : Event} {es : List Event}
    {P : List Event → Prop} :
    (∃ l, l <+: e :: es ∧ P l) ↔ P [] ∨ ∃ l, l <+: es ∧ P (e :: l) := by
  constructor
  · intro hex
    obtain ⟨l, hl, hP⟩ := hex
    cases l with
    | nil => exact .inl hP
    | cons f l =>
        obtain ⟨rfl, hl'⟩ := List.cons_prefix_cons.mp hl
        exact .inr ⟨l, hl', hP⟩
  · intro hor
    rcases hor with hP | ⟨l, hl, hP⟩
    · exact ⟨[], List.nil_prefix, hP⟩
    · exact ⟨e :: l, List.cons_prefix_cons.mpr ⟨rfl, hl⟩, hP⟩

/-- Some prefix of the events leaves more elements open than the depth
allows. -/
def TooDeepFrom (base k : Nat) (es : List Event) : Prop :=
  ∃ l, l <+: es ∧ ∃ i, nest k l = some i ∧ maxXmlDepth < base + i

/-- A first event that keeps within the depth. -/
theorem tooDeepFrom_cons {base k k' : Nat} {e : Event} {es : List Event}
    (hk : base + k ≤ maxXmlDepth)
    (hnest : ∀ l, nest k (e :: l) = nest k' l) :
    TooDeepFrom base k (e :: es) ↔ TooDeepFrom base k' es := by
  unfold TooDeepFrom
  rw [exists_prefix_cons, or_iff_right]
  · simp only [hnest]
  · intro hex
    obtain ⟨i, hi, hlt⟩ := hex
    have hki : k = i := by
      cases k <;> exact Option.some.inj hi
    omega

/-- Events that nest are scanned to their end, unless they go too deep
or what follows fails. -/
theorem scan_failed_iff (base : Nat) (tail : Events) :
    ∀ (es : List Event) (k j : Nat), nest k es = some j →
      base + k ≤ maxXmlDepth →
      (scan k (base + k) (es.map .ok ++ tail) = .failed
        ↔ TooDeepFrom base k es ∨ scan j (base + j) tail = .failed) := by
  intro es
  induction es with
  | nil =>
      intro k j hn hk
      have hkj : k = j := by
        cases k <;> exact Option.some.inj hn
      subst hkj
      rw [or_iff_right]
      · rfl
      · intro hex
        obtain ⟨l, hl, i, hi, hlt⟩ := hex
        rw [List.prefix_nil.mp hl] at hi
        have hki : k = i := by
          cases k <;> exact Option.some.inj hi
        omega
  | cons e es ih =>
      intro k j hn hk
      have same : ∀ (hnest : ∀ l, nest k (e :: l) = nest k l)
          (hscan : ∀ rest, scan k (base + k) (.ok e :: rest)
            = scan k (base + k) rest),
          (scan k (base + k) ((e :: es).map .ok ++ tail) = .failed
            ↔ TooDeepFrom base k (e :: es)
              ∨ scan j (base + j) tail = .failed) := by
        intro hnest hscan
        rw [tooDeepFrom_cons hk hnest, List.map_cons, List.cons_append, hscan]
        rw [hnest] at hn
        exact ih k j hn hk
      cases e with
      | empty m =>
          exact same (fun l => by cases k <;> rfl) fun _ => by cases k <;> rfl
      | text t =>
          exact same (fun l => by cases k <;> rfl) fun _ => by cases k <;> rfl
      | cdata t =>
          exact same (fun l => by cases k <;> rfl) fun _ => by cases k <;> rfl
      | other =>
          exact same (fun l => by cases k <;> rfl) fun _ => by cases k <;> rfl
      | start m =>
          have hnest : ∀ l, nest k (.start m :: l) = nest (k + 1) l := by
            intro l
            cases k <;> rfl
          have hscan : scan k (base + k) (.ok (.start m) :: (es.map .ok ++ tail))
              = if base + k + 1 > maxXmlDepth then .failed
                else scan (k + 1) (base + k + 1) (es.map .ok ++ tail) := by
            cases k <;> rfl
          rw [hnest] at hn
          rw [List.map_cons, List.cons_append, hscan]
          by_cases hd : base + k + 1 > maxXmlDepth
          · rw [if_pos hd]
            refine iff_of_true rfl (.inl ⟨[.start m], ?_, k + 1, ?_, hd⟩)
            · exact List.cons_prefix_cons.mpr ⟨rfl, List.nil_prefix⟩
            · rw [hnest]
              rfl
          · rw [if_neg hd, tooDeepFrom_cons hk hnest]
            exact ih (k + 1) j hn (by omega)
      | «end» m =>
          cases k with
          | zero => cases hn
          | succ k =>
              have hnest : ∀ l, nest (k + 1) (.end m :: l) = nest k l :=
                fun _ => rfl
              have hsub : base + (k + 1) - 1 = base + k := by omega
              rw [List.map_cons, List.cons_append, tooDeepFrom_cons hk hnest]
              show scan k (base + (k + 1) - 1) _ = _ ↔ _
              rw [hsub]
              exact ih k j hn (by omega)

/-- Levels counted from below an open element. -/
theorem tooDeepFrom_shift {base j : Nat} {es : List Event}
    (h : nest 0 es = some j) :
    TooDeepFrom base 1 es ↔ TooDeepFrom (base + 1) 0 es := by
  have hprefix : ∀ l, l <+: es → ∃ i, nest 0 l = some i := by
    intro l hex
    obtain ⟨r, rfl⟩ := hex
    rw [nest_append] at h
    obtain ⟨i, hi, -⟩ := Option.bind_eq_some_iff.mp h
    exact ⟨i, hi⟩
  constructor
  · intro hex
    obtain ⟨l, hl, i, hi, hlt⟩ := hex
    obtain ⟨i', hi'⟩ := hprefix l hl
    have hadd := nest_add hi' 1
    rw [Nat.zero_add, hi] at hadd
    have hii : i = i' + 1 := Option.some.inj hadd
    exact ⟨l, hl, i', hi', by omega⟩
  · intro hex
    obtain ⟨l, hl, i, hi, hlt⟩ := hex
    have hadd := nest_add hi 1
    rw [Nat.zero_add] at hadd
    exact ⟨l, hl, i + 1, hadd, by omega⟩

/-- What opens nothing adds no level. -/
theorem tooDeepFrom_other {base k : Nat} {pre : List Event} (es : List Event)
    (hk : base + k ≤ maxXmlDepth) (hpre : ∀ e ∈ pre, e = .other) :
    TooDeepFrom base k (pre ++ es) ↔ TooDeepFrom base k es := by
  induction pre with
  | nil => exact Iff.rfl
  | cons e pre ih =>
      have he : e = .other := hpre e (List.mem_cons_self ..)
      have hnest : ∀ l, nest k (e :: l) = nest k l := by
        intro l
        rw [he]
        cases k <;> rfl
      rw [List.cons_append, tooDeepFrom_cons hk hnest]
      exact ih fun f hf => hpre f (List.mem_cons_of_mem _ hf)

-- ================================================================ the root

/-- What follows the events of a text: nothing, or one error. -/
def Tail (tail : Events) : Prop := tail = [] ∨ ∃ msg, tail = [.error msg]

/-- Without a start tag there is no root. -/
theorem rootLoop_noStart (r : Reader) {es : List Event} {tail : Events}
    (h : ∀ n, .start n ∉ es) (htail : Tail tail) :
    ∃ e, rootLoop r (es.map .ok ++ tail) = .error e := by
  induction es with
  | nil =>
      rcases htail with rfl | ⟨msg, rfl⟩
      · exact ⟨_, rfl⟩
      · exact ⟨_, rfl⟩
  | cons e es ih =>
      have ih' := ih fun n hn => h n (List.mem_cons_of_mem _ hn)
      cases e with
      | start n => exact absurd (List.mem_cons_self ..) (h n)
      | empty n => exact ih'
      | «end» n => exact ih'
      | text t => exact ih'
      | cdata t => exact ih'
      | other => exact ih'

/-- The root element fails exactly as its scan does. -/
theorem rootLoop_failed_iff (r : Reader) (n : List Char) (es : Events) :
    (∃ e, rootLoop r (.ok (.start n) :: es) = .error e)
      ↔ scan 0 1 es = .failed := by
  have hscan := children_scan r es.length es (Nat.le_refl _) 1 .initial
  rw [rootLoop_start]
  cases hs : scan 0 1 es with
  | failed =>
      rw [hs] at hscan
      obtain ⟨e, he⟩ := hscan
      rw [he]
      exact iff_of_true ⟨e, rfl⟩ rfl
  | ended =>
      rw [hs] at hscan
      obtain ⟨v, hv⟩ := hscan
      rw [hv]
      exact iff_of_false (fun ⟨_, he⟩ => (nomatch he)) fun h => (nomatch h)
  | closed rest =>
      rw [hs] at hscan
      obtain ⟨v, hv⟩ := hscan
      rw [hv]
      exact iff_of_false (fun ⟨_, he⟩ => (nomatch he)) fun h => (nomatch h)

theorem start_not_mem_textEvents (n s : List Char) :
    .start n ∉ textEvents s := by
  unfold textEvents
  split
  · exact List.not_mem_nil
  · intro h
    cases List.mem_singleton.mp h

/-- What a document cut short is lexed to: no start of an element, or
the root's start and behind it events that nest. -/
theorem cut_events_cases {d : Document} (hd : d.Legal) {p : List Char}
    (hp : d.CutBy p) :
    (∀ n, .start n ∉ (lex p).events)
      ∨ ∃ pre name inner k, (∀ e ∈ pre, e = .other)
        ∧ (lex p).events = pre ++ .start name :: inner
        ∧ nest 0 inner = some k := by
  obtain ⟨pre, es, s, hpre, ⟨t, hes⟩, hevents⟩ := hp.events hd
  have hnone : (∀ e ∈ es, e = .other) → ∀ n, .start n ∉ (lex p).events := by
    intro hother n hn
    rw [hevents] at hn
    rcases List.mem_append.mp hn with hn | hn
    · cases hother _ hn
    · exact start_not_mem_textEvents n s hn
  -- the prolog is cut, or the events go on with those of the root
  rcases List.append_eq_append_iff.mp hes with ⟨u, hu, -⟩ | ⟨u, hu, hcut⟩
  · refine .inl (hnone fun e he => hpre e ?_)
    rw [hu]
    exact List.mem_append_left _ he
  · have hpref : u <+: d.root.cutEvents := ⟨t, hcut.symm⟩
    rcases nest_cutEvents hpref with rfl | ⟨name, inner, k, rfl, hk⟩
    · rw [List.append_nil] at hu
      exact .inl (hnone (hu ▸ hpre))
    · refine .inr ⟨pre, name, inner ++ textEvents s, k, hpre, ?_, ?_⟩
      · rw [hevents, hu, List.append_assoc]
        rfl
      · rw [nest_append, hk]
        exact nest_textEvents k s

/-- The levels of a text are counted from inside the root. -/
theorem opensMoreThan_iff {p : List Char} {pre inner : List Event}
    {name : List Char} {k : Nat} (hpre : ∀ e ∈ pre, e = .other)
    (hlex : (lex p).events = pre ++ .start name :: inner)
    (hnest : nest 0 inner = some k) :
    OpensMoreThan maxXmlDepth p ↔ TooDeepFrom 1 0 inner := by
  have hfrom : OpensMoreThan maxXmlDepth p ↔ TooDeepFrom 0 0 (lex p).events := by
    unfold OpensMoreThan TooDeepFrom
    simp only [Nat.zero_add]
    constructor
    · intro hex
      obtain ⟨l, i, hl, hi, hlt⟩ := hex
      exact ⟨l, hl, i, hi, hlt⟩
    · intro hex
      obtain ⟨l, hl, i, hi, hlt⟩ := hex
      exact ⟨l, i, hl, hi, hlt⟩
  have hcons : TooDeepFrom 0 0 (.start name :: inner) ↔ TooDeepFrom 0 1 inner :=
    tooDeepFrom_cons (Nat.zero_le _) fun _ => rfl
  rw [hfrom, hlex, tooDeepFrom_other _ (Nat.zero_le _) hpre, hcons,
    tooDeepFrom_shift hnest]

/-- The end of the input fails no scan, an error does. -/
theorem scan_tail_iff (k depth : Nat) (opened : Bool) (msg : String) :
    scan k depth (if opened then [.error msg] else []) = .failed
      ↔ opened = true := by
  cases opened with
  | true => exact iff_of_true (by cases k <;> rfl) rfl
  | false => exact iff_of_false (by cases k <;> exact nofun) nofun

/-- A legal document cut before its root is complete is rejected exactly
when the cut falls inside a markup, before any start tag is complete,
or behind a place with more than 256 elements open. -/
theorem cut_reply_rejected_iff {r : Reader} (hr : r.ReadsDocuments)
    {d : Document} (hd : d.Legal) {p : List Char} (hp : d.CutBy p) :
    (∃ e, xmlToJsonRoot r p = .error e)
      ↔ CutInMarkup p ∨ NoStart p ∨ OpensMoreThan maxXmlDepth p := by
  obtain ⟨msg, hmsg⟩ := hr.events d hd p hp.isPrefix
  unfold xmlToJsonRoot
  rw [hmsg]
  unfold Lexed.emitted CutInMarkup NoStart
  rcases cut_events_cases hd hp with hno | ⟨pre, name, inner, k, hpre, hlex, hnest⟩
  · -- without a start tag, both sides hold
    have htail : Tail (if (lex p).opened.isSome then [.error msg] else []) := by
      split
      · exact .inr ⟨msg, rfl⟩
      · exact .inl rfl
    exact iff_of_true (rootLoop_noStart r hno htail) (.inr (.inl hno))
  · have hstart : ¬ ∀ n, .start n ∉ (lex p).events := by
      intro h
      refine h name ?_
      rw [hlex]
      exact List.mem_append_right _ (List.mem_cons_self ..)
    have hroot : ∀ tail : Events,
        rootLoop r ((lex p).events.map .ok ++ tail)
          = rootLoop r (.ok (.start name) :: (inner.map .ok ++ tail)) := by
      intro tail
      rw [hlex, List.map_append, List.append_assoc, rootLoop_other r _ hpre]
      rfl
    rw [hroot, rootLoop_failed_iff,
      scan_failed_iff 1 _ _ 0 k hnest (by decide), scan_tail_iff,
      opensMoreThan_iff hpre hlex hnest,
      or_iff_right_of_imp (fun h => absurd h hstart), or_comm]

/-- An element that holds a text. -/
def leaf (name text : String) : Node :=
  element name.toList (textNodes text.toList)

/-- A `RETURN` table with a success row and, behind it, an error row. -/
def twoRowReply : Document :=
  { decl := none
    misc := []
    doctype := none
    misc' := []
    root := element "r".toList [element "RETURN".toList
      [element "item".toList [leaf "TYPE" "S", leaf "MESSAGE" "ok"],
        element "item".toList [leaf "TYPE" "E", leaf "MESSAGE" "blocked"]]]
    epilog := [] }

/-- The reply, cut between the two rows. -/
def oneRowText : List Char :=
  "<r><RETURN><item><TYPE>S</TYPE><MESSAGE>ok</MESSAGE></item>".toList

theorem twoRowReply_legal : twoRowReply.Legal := by
  have hleaf : ∀ {name text : String}, isName name.toList = true →
      TextLegal text.toList text.toList → (leaf name text).Legal false :=
    fun hn ht => element_legal hn ht.nodes
  have htext : ∀ {s : String}, s.toList.all (fun c => isXmlChar c && c != '<'
      && c != '>' && c != '&') = true → TextLegal s.toList s.toList := by
    intro s hs
    have hc : ∀ c ∈ s.toList, isXmlChar c = true ∧ c ≠ '<' ∧ c ≠ '>' ∧ c ≠ '&' := by
      intro c hc
      have h := List.all_eq_true.mp hs c hc
      simp only [Bool.and_eq_true, bne_iff_ne, ne_eq] at h
      exact ⟨h.1.1.1, h.1.1.2, h.1.2, h.2⟩
    exact ⟨fun hm => (hc _ hm).2.1 rfl, fun hm => (hc _ hm).2.2.1 rfl,
      fun c h => (hc c h).1, unescapeGo_plain fun hm => (hc _ hm).2.2.2 rfl⟩
  have hrow : ∀ {a b : String}, TextLegal a.toList a.toList →
      TextLegal b.toList b.toList →
      (element "item".toList [leaf "TYPE" a, leaf "MESSAGE" b]).Legal false :=
    fun ha hb => element_legal (by decide)
      (nodesLegal_element (hleaf (by decide) ha)
        (nodesLegal_element (hleaf (by decide) hb) trivial))
  have htable : (element "RETURN".toList
      [element "item".toList [leaf "TYPE" "S", leaf "MESSAGE" "ok"],
        element "item".toList [leaf "TYPE" "E", leaf "MESSAGE" "blocked"]]).Legal
      false :=
    element_legal (by decide) (nodesLegal_element
      (hrow (htext (by decide)) (htext (by decide)))
      (nodesLegal_element (hrow (htext (by decide)) (htext (by decide))) trivial))
  exact
    { decl := fun _ ht => (nomatch ht)
      misc := fun _ hn => (nomatch hn)
      doctype := fun _ hs => (nomatch hs)
      misc' := fun _ hn => (nomatch hn)
      root := element_legal (by decide) (nodesLegal_element htable trivial)
      isElem := rfl
      epilog := fun _ hn => (nomatch hn) }

theorem oneRowText_cut : twoRowReply.CutBy oneRowText := by
  refine ⟨?_, ?_⟩ <;> decide +kernel

/-- The reply parses to a confirmation. -/
def confirms (p : List Char) : Bool :=
  match xmlToJsonRoot lexReader p with
  | .ok v => !(parseBapiret2 v).isEmpty && !hasFailure (parseBapiret2 v)
  | .error _ => false

theorem confirmed_of_confirms {p : List Char} (h : confirms p = true) :
    ∃ v, xmlToJsonRoot lexReader p = .ok v ∧ Confirmed v := by
  unfold confirms at h
  cases hv : xmlToJsonRoot lexReader p with
  | error e => rw [hv] at h; cases h
  | ok v =>
      rw [hv] at h
      simp only [Bool.and_eq_true, Bool.not_eq_true'] at h
      refine ⟨v, rfl, fun hnil => ?_, h.2⟩
      rw [hnil] at h
      cases h.1

/-- Whole, the reply does not confirm the call; cut, it does. -/
theorem cut_reply_accepted :
    twoRowReply.Legal ∧ twoRowReply.CutBy oneRowText
      ∧ lexReader.ReadsDocuments ∧ confirms twoRowReply.render = false
      ∧ ∃ v, xmlToJsonRoot lexReader oneRowText = .ok v ∧ Confirmed v :=
  ⟨twoRowReply_legal, oneRowText_cut, lexReader_reads, by decide +kernel,
    confirmed_of_confirms (by decide +kernel)⟩

/-- The cut reply, which no cause rejects. -/
theorem cut_reply_rejected_iff_oneRow :
    (∃ e, xmlToJsonRoot lexReader oneRowText = .error e)
      ↔ CutInMarkup oneRowText ∨ NoStart oneRowText
        ∨ OpensMoreThan maxXmlDepth oneRowText :=
  cut_reply_rejected_iff lexReader_reads twoRowReply_legal oneRowText_cut

end SapAutomate.Soap
