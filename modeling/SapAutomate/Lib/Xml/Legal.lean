/-
What the grammar gives the lexer: every markup of a legal document is
complete, so the document is lexed as it is written, and its events are
those of the tree.

A tag is complete because a `>` in it can only stand inside quotes
(`guarded`); a comment, a CDATA section and a processing instruction
because what would end them is excluded from their text.
-/
import SapAutomate.Lib.Xml.Document

namespace Xml

-- ======================================================== quotes and tags

/-- Every `>` stands inside quotes, having started in the given state. -/
def guarded : Option Char → List Char → Bool
  | _, [] => true
  | none, c :: cs =>
      c != '>' && guarded (if c = '"' ∨ c = '\'' then some c else none) cs
  | some q, c :: cs => guarded (if c = q then none else some q) cs

theorem quoteState_append (q : Option Char) (s t : List Char) :
    quoteState q (s ++ t) = quoteState (quoteState q s) t := by
  induction s generalizing q with
  | nil =>
      cases q <;> rfl
  | cons c s ih =>
      cases q with
      | none => exact ih _
      | some q => exact ih _

theorem guarded_append (q : Option Char) (s t : List Char) :
    guarded q (s ++ t) = (guarded q s && guarded (quoteState q s) t) := by
  induction s generalizing q with
  | nil => cases q <;> rfl
  | cons c s ih =>
      cases q with
      | none =>
          rw [List.cons_append, guarded, guarded, ih, Bool.and_assoc]
          rfl
      | some q =>
          rw [List.cons_append, guarded, guarded, ih]
          rfl

/-- At a guarded `>` a quote is open. -/
theorem guarded_split {q : Option Char} {p r : List Char}
    (h : guarded q (p ++ '>' :: r) = true) : quoteState q p ≠ none := by
  rw [guarded_append, Bool.and_eq_true] at h
  intro hq
  have h2 := h.2
  rw [hq, guarded] at h2
  cases h2

/-- Neither a quote nor a `>`. -/
def PlainTagChar (c : Char) : Prop := c ≠ '"' ∧ c ≠ '\'' ∧ c ≠ '>'

/-- Plain characters open nothing and need no guard. -/
theorem plain_tag {s : List Char} (h : ∀ c ∈ s, PlainTagChar c) :
    quoteState none s = none ∧ guarded none s = true := by
  induction s with
  | nil => exact ⟨rfl, rfl⟩
  | cons c s ih =>
      obtain ⟨h1, h2, h3⟩ := h c (List.mem_cons_self ..)
      obtain ⟨ihq, ihg⟩ := ih fun d hd => h d (List.mem_cons_of_mem _ hd)
      have hc : ¬ (c = '"' ∨ c = '\'') := fun hc => hc.elim h1 h2
      refine ⟨?_, ?_⟩
      · rw [quoteState, if_neg hc]
        exact ihq
      · rw [guarded, if_neg hc, ihg, Bool.and_true]
        simpa using h3

/-- Inside a quote, up to its end. -/
theorem quoted_tag {q : Char} {s : List Char} (h : q ∉ s) :
    quoteState (some q) (s ++ [q]) = none
      ∧ guarded (some q) (s ++ [q]) = true := by
  induction s with
  | nil =>
      refine ⟨?_, ?_⟩
      · show quoteState (if q = q then none else some q) [] = none
        rw [if_pos rfl]
        rfl
      · show guarded (if q = q then none else some q) [] = true
        rw [if_pos rfl]
        rfl
  | cons c s ih =>
      have hc : c ≠ q := (List.ne_of_not_mem_cons h).symm
      obtain ⟨ihq, ihg⟩ := ih (List.not_mem_of_not_mem_cons h)
      refine ⟨?_, ?_⟩
      · rw [List.cons_append, quoteState, if_neg hc]
        exact ihq
      · rw [List.cons_append, guarded, if_neg hc]
        exact ihg

theorem plainTagChar_of_space {c : Char} (h : isSpace c = true) :
    PlainTagChar c :=
  ⟨ne_of_class h rfl, ne_of_class h rfl, ne_of_class h rfl⟩

theorem plainTagChar_of_name {c : Char} (h : isNameChar c = true) :
    PlainTagChar c :=
  ⟨ne_of_class h rfl, ne_of_class h rfl, ne_of_class h rfl⟩

/-- Sequences that open nothing compose. -/
theorem tag_append {s t : List Char}
    (hs : quoteState none s = none ∧ guarded none s = true)
    (ht : quoteState none t = none ∧ guarded none t = true) :
    quoteState none (s ++ t) = none ∧ guarded none (s ++ t) = true := by
  rw [quoteState_append, guarded_append, hs.1, hs.2]
  exact ⟨ht.1, by rw [ht.2]; rfl⟩

/-- An attribute closes its quotes and guards its value. -/
theorem Attr.Legal.tag {dtd : Bool} {a : Attr} (h : a.Legal dtd) :
    quoteState none a.render = none ∧ guarded none a.render = true := by
  have hname : ∀ c ∈ a.name, PlainTagChar c := fun c hc =>
    plainTagChar_of_name ((isName_chars h.name).2 c hc)
  have hplain : ∀ c ∈ a.pre ++ (a.name ++ (a.eqPre ++ '=' :: a.eqPost)),
      PlainTagChar c := by
    intro c hc
    simp only [List.mem_append, List.mem_cons] at hc
    rcases hc with hc | hc | hc | rfl | hc
    · exact plainTagChar_of_space (h.pre c hc)
    · exact hname c hc
    · exact plainTagChar_of_space (h.eqPre c hc)
    · unfold PlainTagChar
      decide
    · exact plainTagChar_of_space (h.eqPost c hc)
  have hquoted : quoteState none (a.quote :: (a.value ++ [a.quote])) = none
      ∧ guarded none (a.quote :: (a.value ++ [a.quote])) = true := by
    have hne : (a.quote != '>') = true := by
      rcases h.quote with hq | hq <;> rw [hq] <;> decide
    obtain ⟨hq, hg⟩ := quoted_tag h.unquoted
    rw [quoteState, guarded, if_pos h.quote, hne]
    exact ⟨hq, hg⟩
  have hrender : a.render = (a.pre ++ (a.name ++ (a.eqPre ++ '=' :: a.eqPost)))
      ++ a.quote :: (a.value ++ [a.quote]) := by
    unfold Attr.render
    simp only [List.append_assoc, List.cons_append]
  rw [hrender]
  exact tag_append (plain_tag hplain) hquoted

/-- The content of a tag closes its quotes and guards their content. -/
theorem Tag.Legal.tag {dtd : Bool} {t : Tag} (h : t.Legal dtd) :
    quoteState none t.content = none ∧ guarded none t.content = true := by
  have hattrs : quoteState none (t.attrs.flatMap Attr.render) = none
      ∧ guarded none (t.attrs.flatMap Attr.render) = true := by
    have hall := h.attrs
    generalize t.attrs = attrs at hall
    induction attrs with
    | nil => exact ⟨rfl, rfl⟩
    | cons a attrs ih =>
        rw [List.flatMap_cons]
        exact tag_append (hall a (List.mem_cons_self ..)).tag
          (ih fun b hb => hall b (List.mem_cons_of_mem _ hb))
  unfold Tag.content
  refine tag_append (plain_tag fun c hc => ?_)
    (tag_append hattrs (plain_tag fun c hc => ?_))
  · exact plainTagChar_of_name ((isName_chars h.name).2 c hc)
  · exact plainTagChar_of_space (h.pad c hc)

/-- A markup that is neither declaration nor instruction ends at the
first `>` outside quotes. -/
theorem closes_tag {c : Char} (hbang : c ≠ '!') (hquest : c ≠ '?')
    (cs : List Char) :
    closes (c :: cs) = (quoteState none (c :: cs) == none) := by
  unfold closes
  split <;> simp_all

theorem complete_tag {c : Char} {cs : List Char} (hbang : c ≠ '!')
    (hquest : c ≠ '?')
    (h : quoteState none (c :: cs) = none ∧ guarded none (c :: cs) = true) :
    Complete (c :: cs) := by
  refine ⟨by rw [closes_tag hbang hquest, h.1]; rfl, ?_⟩
  intro p r hp
  have hopen : quoteState none p ≠ none := by
    have hg := h.2
    rw [hp] at hg
    exact guarded_split hg
  cases p with
  | nil => exact absurd rfl hopen
  | cons d p =>
      have hd : d = c := by
        rw [List.cons_append] at hp
        exact (List.cons.inj hp).1.symm
      rw [closes_tag (hd ▸ hbang) (hd ▸ hquest)]
      exact beq_eq_false_iff_ne.mpr hopen

/-- A name starts like no other markup. -/
theorem name_cons {n : List Char} (h : isName n = true) :
    ∃ c cs, n = c :: cs ∧ c ≠ '!' ∧ c ≠ '?' ∧ c ≠ '/' := by
  cases n with
  | nil => cases h
  | cons c cs =>
      have hc := (isName_chars h).2 c (List.mem_cons_self ..)
      exact ⟨c, cs, rfl, ne_of_class hc rfl, ne_of_class hc rfl,
        ne_of_class hc rfl⟩

theorem Tag.Legal.content_cons {dtd : Bool} {t : Tag} (h : t.Legal dtd) :
    ∃ c cs, t.content = c :: cs ∧ c ≠ '!' ∧ c ≠ '?' ∧ c ≠ '/' := by
  obtain ⟨c, cs, hn, hc⟩ := name_cons h.name
  refine ⟨c, cs ++ (t.attrs.flatMap Attr.render ++ t.pad), ?_, hc⟩
  unfold Tag.content
  rw [hn]
  rfl

theorem plain_slash : quoteState none ['/'] = none
    ∧ guarded none ['/'] = true := by decide

/-- A start tag is complete. -/
theorem Tag.Legal.complete_start {dtd : Bool} {t : Tag} (h : t.Legal dtd) :
    Complete t.content := by
  obtain ⟨c, cs, hcons, hbang, hquest, -⟩ := h.content_cons
  have htag := h.tag
  rw [hcons] at htag ⊢
  exact complete_tag hbang hquest htag

/-- An empty-element tag is complete. -/
theorem Tag.Legal.complete_empty {dtd : Bool} {t : Tag} (h : t.Legal dtd) :
    Complete (t.content ++ ['/']) := by
  obtain ⟨c, cs, hcons, hbang, hquest, -⟩ := h.content_cons
  have htag := tag_append h.tag plain_slash
  rw [hcons, List.cons_append] at htag ⊢
  exact complete_tag hbang hquest htag

/-- An end tag is complete, whatever plain characters it names. -/
theorem complete_end {s : List Char} (h : ∀ c ∈ s, PlainTagChar c) :
    Complete ('/' :: s) := by
  refine complete_tag (by decide) (by decide) ?_
  exact tag_append (s := ['/']) plain_slash (plain_tag h)

-- ========================================================= other markups

/-- Two ways of cutting a text: behind the end of one that stops
before the other's middle, or in its tail. -/
theorem cut_cases {s t p q : List Char} (h : s ++ t = p ++ '>' :: q)
    (ht : '>' ∉ t) : ∃ r, s = p ++ '>' :: r := by
  rcases List.append_eq_append_iff.mp h with ⟨u, hp, hu⟩ | ⟨u, hs, hu⟩
  · have hmem : '>' ∈ t := by
      rw [hu]
      exact List.mem_append_right _ (List.mem_cons_self ..)
    exact absurd hmem ht
  · cases u with
    | nil =>
        have hmem : '>' ∈ t := by
          rw [List.nil_append] at hu
          rw [← hu]
          exact List.mem_cons_self ..
        exact absurd hmem ht
    | cons c u =>
        rw [List.cons_append] at hu
        obtain ⟨rfl, -⟩ := List.cons.inj hu
        exact ⟨u, hs⟩

/-- A prefix of `a ++ s` that reaches behind `a`. -/
theorem cut_behind {a s p q : List Char} (h : a ++ s = p ++ '>' :: q)
    (ha : '>' ∉ a) : ∃ p', p = a ++ p' ∧ s = p' ++ '>' :: q := by
  rcases List.append_eq_append_iff.mp h with ⟨u, hp, hu⟩ | ⟨u, hs, hu⟩
  · exact ⟨u, hp, hu⟩
  · cases u with
    | nil =>
        rw [List.append_nil] at hs
        refine ⟨[], by rw [hs, List.append_nil], ?_⟩
        rw [List.nil_append] at hu ⊢
        exact hu.symm
    | cons c u =>
        rw [List.cons_append] at hu
        obtain ⟨rfl, -⟩ := List.cons.inj hu
        refine absurd ?_ ha
        rw [hs]
        exact List.mem_append_right _ (List.mem_cons_self ..)

/-- A comment is complete. -/
theorem complete_comment {s : List Char} (h : ¬ ['-', '-'] <:+: s) :
    Complete ('!' :: '-' :: '-' :: (s ++ ['-', '-'])) := by
  refine ⟨?_, fun p q hp => ?_⟩
  · show (decide (3 ≤ ('-' :: (s ++ ['-', '-'])).length)
      && ['-', '-'].isSuffixOf ('-' :: (s ++ ['-', '-']))) = true
    rw [Bool.and_eq_true, decide_eq_true_eq, List.isSuffixOf_iff_suffix]
    refine ⟨by simp, '-' :: s, rfl⟩
  · obtain ⟨p', rfl, hs⟩ :=
      cut_behind (a := ['!', '-', '-']) hp (by decide)
    obtain ⟨r, hr⟩ := cut_cases hs (by decide)
    show (decide (3 ≤ ('-' :: p').length)
      && ['-', '-'].isSuffixOf ('-' :: p')) = false
    by_contra hc
    rw [Bool.not_eq_false, Bool.and_eq_true, decide_eq_true_eq,
      List.isSuffixOf_iff_suffix] at hc
    obtain ⟨hlen, hsuf⟩ := hc
    have hsuf' : ['-', '-'] <:+ p' := by
      refine List.suffix_of_suffix_length_le hsuf (List.suffix_cons ..) ?_
      rw [List.length_cons] at hlen
      simp only [List.length_cons, List.length_nil]
      omega
    obtain ⟨u, rfl⟩ := hsuf'
    exact h ⟨u, '>' :: r, by rw [hr]⟩

/-- A CDATA section is complete. -/
theorem complete_cdata {s : List Char} (h : ¬ [']', ']', '>'] <:+: s) :
    Complete ('!' :: '[' :: 'C' :: 'D' :: 'A' :: 'T' :: 'A' :: '['
      :: (s ++ [']', ']'])) := by
  refine ⟨?_, fun p q hp => ?_⟩
  · show [']', ']'].isSuffixOf
      ('C' :: 'D' :: 'A' :: 'T' :: 'A' :: '[' :: (s ++ [']', ']'])) = true
    rw [List.isSuffixOf_iff_suffix]
    exact ⟨'C' :: 'D' :: 'A' :: 'T' :: 'A' :: '[' :: s, rfl⟩
  · obtain ⟨p', rfl, hs⟩ :=
      cut_behind (a := ['!', '[', 'C', 'D', 'A', 'T', 'A', '[']) hp
        (by decide)
    obtain ⟨r, hr⟩ := cut_cases hs (by decide)
    show [']', ']'].isSuffixOf ('C' :: 'D' :: 'A' :: 'T' :: 'A' :: '[' :: p')
      = false
    by_contra hc
    rw [Bool.not_eq_false, List.isSuffixOf_iff_suffix] at hc
    match p', hr, hc with
    | [], _, hc => revert hc; decide
    | [c], _, hc =>
        have hc' : [']', ']'] <:+ ['[', c] :=
          List.suffix_of_suffix_length_le hc
            ⟨['C', 'D', 'A', 'T', 'A'], rfl⟩ (Nat.le_refl 2)
        have heq := List.IsSuffix.eq_of_length hc' rfl
        exact absurd (List.cons.inj heq).1 (by decide)
    | c :: d :: p', hr, hc =>
        have hsuf : [']', ']'] <:+ c :: d :: p' := by
          refine List.suffix_of_suffix_length_le hc
            ⟨['C', 'D', 'A', 'T', 'A', '['], rfl⟩ ?_
          simp only [List.length_cons, List.length_nil]
          omega
        obtain ⟨u, hu⟩ := hsuf
        rw [← hu] at hr
        exact h ⟨u, r, by rw [hr]; simp⟩

/-- A processing instruction is complete. -/
theorem complete_pi {s : List Char} (h : ¬ ['?', '>'] <:+: s) :
    Complete ('?' :: (s ++ ['?'])) := by
  refine ⟨?_, fun p q hp => ?_⟩
  · show ['?'].isSuffixOf (s ++ ['?']) = true
    rw [List.isSuffixOf_iff_suffix]
    exact ⟨s, rfl⟩
  · obtain ⟨p', rfl, hs⟩ := cut_behind (a := ['?']) hp (by decide)
    obtain ⟨r, hr⟩ := cut_cases hs (by decide)
    show ['?'].isSuffixOf p' = false
    by_contra hc
    rw [Bool.not_eq_false, List.isSuffixOf_iff_suffix] at hc
    obtain ⟨u, rfl⟩ := hc
    exact h ⟨u, r, by rw [hr]; simp⟩

-- ======================================================= classification

/-- The name is read off a tag: what follows it starts with a space. -/
theorem tagName_append {n r : List Char} (hn : isName n = true)
    (hr : ∀ c, r.head? = some c → isSpace c = true) :
    tagName (n ++ r) = n := by
  refine (Text.span_stop (fun c hc => ?_) fun c hc => ?_).1
  · rw [isSpace_of_nameChar ((isName_chars hn).2 c hc)]
    rfl
  · rw [hr c hc]
    rfl

/-- What follows the name in a tag. -/
theorem Tag.Legal.rest_head {dtd : Bool} {t : Tag} (h : t.Legal dtd) :
    ∀ c, (t.attrs.flatMap Attr.render ++ t.pad).head? = some c →
      isSpace c = true := by
  intro c hc
  cases hattrs : t.attrs with
  | nil =>
      rw [hattrs, List.flatMap_nil, List.nil_append] at hc
      exact h.pad c (List.mem_of_head? hc)
  | cons a attrs =>
      have ha : a.Legal dtd := h.attrs a (by rw [hattrs]; exact List.mem_cons_self ..)
      obtain ⟨d, pre, hpre⟩ := List.exists_cons_of_ne_nil ha.pre_ne
      have hd : d = c := by
        rw [hattrs, List.flatMap_cons] at hc
        unfold Attr.render at hc
        rw [hpre] at hc
        exact Option.some.inj hc
      rw [← hd]
      exact ha.pre d (by rw [hpre]; exact List.mem_cons_self ..)

theorem Tag.Legal.tagName {dtd : Bool} {t : Tag} (h : t.Legal dtd) :
    Xml.tagName t.content = t.name :=
  tagName_append h.name h.rest_head

/-- A start tag does not end with a slash. -/
theorem Tag.Legal.getLast_ne {dtd : Bool} {t : Tag} (h : t.Legal dtd) :
    t.content.getLast? ≠ some '/' := by
  have hname : t.name.getLast? ≠ some '/' := by
    intro hlast
    exact not_mem_name h.name (by decide) (List.mem_of_getLast? hlast)
  have hattr : ∀ a ∈ t.attrs, a.render.getLast? ≠ some '/' := by
    intro a ha
    have hq := (h.attrs a ha).quote
    have hlast : a.render.getLast? = some a.quote := by
      unfold Attr.render
      simp only [List.getLast?_append, List.getLast?_cons]
      simp
    rw [hlast]
    rcases hq with hq | hq <;> rw [hq] <;> decide
  have hattrs : (t.attrs.flatMap Attr.render).getLast? ≠ some '/' := by
    generalize t.attrs = attrs at hattr
    induction attrs with
    | nil => decide
    | cons a attrs ih =>
        rw [List.flatMap_cons, List.getLast?_append]
        cases hl : (attrs.flatMap Attr.render).getLast? with
        | none => exact hattr a (List.mem_cons_self ..)
        | some c =>
            have hne := ih fun b hb => hattr b (List.mem_cons_of_mem _ hb)
            rw [hl] at hne
            exact hne
  have hpad : t.pad.getLast? ≠ some '/' := by
    intro hlast
    exact h.pad.not_mem rfl (List.mem_of_getLast? hlast)
  unfold Tag.content
  rw [List.getLast?_append, List.getLast?_append]
  cases hp : t.pad.getLast? with
  | some c => rw [hp] at hpad; exact hpad
  | none =>
      cases ha : (t.attrs.flatMap Attr.render).getLast? with
      | some c => rw [ha] at hattrs; exact hattrs
      | none => exact hname

/-- A tag's content is classified by its end. -/
theorem classify_tag {c : Char} (hbang : c ≠ '!') (hquest : c ≠ '?')
    (hslash : c ≠ '/') (cs : List Char) :
    classify (c :: cs) = if (c :: cs).getLast? = some '/'
      then .empty (tagName (c :: cs).dropLast)
      else .start (tagName (c :: cs)) := by
  unfold classify
  split <;> simp_all

theorem Tag.Legal.classify_start {dtd : Bool} {t : Tag} (h : t.Legal dtd) :
    classify t.content = .start t.name := by
  obtain ⟨c, cs, hcons, hbang, hquest, hslash⟩ := h.content_cons
  have hlast := h.getLast_ne
  have hname := h.tagName
  rw [hcons] at hlast hname ⊢
  rw [classify_tag hbang hquest hslash, if_neg hlast, hname]

theorem Tag.Legal.classify_empty {dtd : Bool} {t : Tag} (h : t.Legal dtd) :
    classify (t.content ++ ['/']) = .empty t.name := by
  obtain ⟨c, cs, hcons, hbang, hquest, hslash⟩ := h.content_cons
  have hname := h.tagName
  have hlast : (t.content ++ ['/']).getLast? = some '/' := by simp
  have hdrop : (t.content ++ ['/']).dropLast = t.content := by simp
  rw [hcons, List.cons_append] at hlast hdrop ⊢
  rw [classify_tag hbang hquest hslash, if_pos hlast, hdrop, ← hcons, hname]

/-- An end tag names what it ends. -/
theorem classify_end {n pad : List Char} (hn : isName n = true)
    (hpad : Blank pad) : classify ('/' :: (n ++ pad)) = .end n := by
  show Event.end (tagName (n ++ pad)) = _
  rw [tagName_append hn fun c hc => hpad c (List.mem_of_head? hc)]

theorem classify_cdata (s : List Char) :
    classify ('!' :: '[' :: 'C' :: 'D' :: 'A' :: 'T' :: 'A' :: '['
      :: (s ++ [']', ']'])) = .cdata s := by
  show Event.cdata (s ++ [']', ']']).dropLast.dropLast = _
  have hs : (s ++ [']', ']']).dropLast.dropLast = s := by
    have h1 : s ++ [']', ']'] = (s ++ [']']) ++ [']'] := by simp
    rw [h1, List.dropLast_concat, List.dropLast_concat]
  rw [hs]

end Xml
