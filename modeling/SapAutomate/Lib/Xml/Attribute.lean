/-
The first child of a root, its first attribute, and what reading a value
leaves of it.

A child that is the only one is the markup behind the root's start tag
(`only_child`), and where its attributes begin is no choice (`first_attr`).
A reference is longer than what it stands for, so a value that is read as
a text of its own size has none (`unescape_size`).
-/
import Mathlib.Algebra.GroupWithZero.Nat
import Mathlib.Algebra.Order.Group.Nat
import Mathlib.Data.List.TakeWhile
import SapAutomate.Lib.Xml.Reading

namespace Xml

-- ================================================================= sizes

/-- The bytes of some characters. -/
def size (cs : List Char) : Nat := (cs.map Char.utf8Size).sum

@[simp] theorem size_nil : size [] = 0 := rfl

@[simp] theorem size_cons (c : Char) (cs : List Char) :
    size (c :: cs) = c.utf8Size + size cs := by
  rw [size, List.map_cons, List.sum_cons, size]

@[simp] theorem size_append (cs ds : List Char) :
    size (cs ++ ds) = size cs + size ds := by
  rw [size, List.map_append, List.sum_append, size, size]

theorem length_le_size (cs : List Char) : cs.length ≤ size cs := by
  induction cs with
  | nil => exact Nat.le_refl 0
  | cons c cs ih =>
      have hpos := c.utf8Size_pos
      rw [List.length_cons, size_cons]
      omega

theorem numeral_size {base : Nat} {p : Char → Bool} {ds t : List Char}
    (h : numeral base p ds = some t) : ds ≠ [] ∧ size t ≤ 4 := by
  unfold numeral at h
  split at h
  · cases h
  · next hds =>
      dsimp only at h
      split at h
      · rw [← Option.some.inj h, size_cons, size_nil]
        refine ⟨?_, ?_⟩
        · rintro rfl
          exact hds rfl
        · exact Char.utf8Size_le_four _
      · cases h

theorem small : ∀ n < 10, (Char.ofNat n).utf8Size = 1 := by
  decide

/-- One digit stands for one byte. -/
theorem numeral_digit {d : Char} {t : List Char}
    (h : numeral 10 Char.isDigit [d] = some t) : size t = 1 := by
  unfold numeral at h
  split at h
  · cases h
  · next hds =>
      dsimp only at h
      split at h
      · have hd : d.isDigit = true := by
          simpa using hds
        have hrange := digit_range hd
        have hvalue : 10 * 0 + digitValue d < 10 := by
          rw [digitValue, if_pos hd]
          omega
        rw [← Option.some.inj h, size_cons, size_nil]
        exact small _ hvalue
      · cases h

/-- A reference is longer than what it stands for. -/
theorem resolve_size {r t : List Char} (h : resolve r = some t) :
    size t < size r + 2 := by
  unfold resolve at h
  split at h
  case h_6 ds =>
    obtain ⟨hne, hle⟩ := numeral_size h
    have hpos := length_le_size ds
    have hlen := List.length_pos_of_ne_nil hne
    simp only [size_cons]
    have hsharp : Char.utf8Size '#' = 1 := rfl
    have hx : Char.utf8Size 'x' = 1 := rfl
    omega
  case h_7 ds _ =>
    have hsharp : Char.utf8Size '#' = 1 := rfl
    rw [size_cons, hsharp]
    obtain ⟨hne, hle⟩ := numeral_size h
    match ds, hne with
    | [d], _ =>
        have hone := numeral_digit h
        omega
    | d :: e :: ds, _ =>
        have hlen := length_le_size (d :: e :: ds)
        simp only [List.length_cons] at hlen
        omega
  case h_8 => cases h
  all_goals
    rw [← Option.some.inj h]
    decide

/-- Reading a text, in a reference or in none. -/
theorem unescapeGo_size (s : List Char) :
    (∀ u, unescapeGo resolve s none = some u →
        '&' ∉ s ∧ u = s ∨ size u < size s)
      ∧ ∀ r u, unescapeGo resolve s (some r) = some u →
        size u < size s + (size r + 1) := by
  induction s with
  | nil =>
      refine ⟨fun u hu => ?_, fun r u hu => ?_⟩
      · exact .inl ⟨List.not_mem_nil, (Option.some.inj hu).symm⟩
      · cases hu
  | cons c s ih =>
      obtain ⟨ihplain, ihref⟩ := ih
      constructor
      · intro u hu
        rw [unescapeGo] at hu
        rw [size_cons]
        split at hu
        · next hc =>
            have hamp : Char.utf8Size '&' = 1 := rfl
            have hlt := ihref [] u hu
            rw [hc, hamp]
            rw [size_nil] at hlt
            exact .inr (by omega)
        · next hc =>
          obtain ⟨v, hv, rfl⟩ := Option.map_eq_some_iff.mp hu
          rcases ihplain v hv with ⟨hno, rfl⟩ | hlt
          · exact .inl ⟨List.not_mem_cons_of_ne_of_not_mem (Ne.symm hc) hno, rfl⟩
          · rw [size_cons]
            exact .inr (by omega)
      · intro r u hu
        rw [unescapeGo] at hu
        rw [size_cons]
        split at hu
        · next hc =>
            have hsemi : Char.utf8Size ';' = 1 := rfl
            obtain ⟨t, ht, hu⟩ := Option.bind_eq_some_iff.mp hu
            obtain ⟨v, hv, rfl⟩ := Option.map_eq_some_iff.mp hu
            have htable := resolve_size ht
            have hle : size v ≤ size s := by
              rcases ihplain v hv with ⟨-, rfl⟩ | hlt
              · exact Nat.le_refl _
              · exact hlt.le
            rw [size_append, hc, hsemi]
            omega
        · have hlt := ihref (r ++ [c]) u hu
          rw [size_append, size_cons, size_nil] at hlt
          omega

/-- A text without references is read as itself, and any other as a
shorter one. -/
theorem unescape_size {s u : List Char} (h : unescape s = some u) :
    '&' ∉ s ∧ u = s ∨ size u < size s :=
  (unescapeGo_size s).1 u h

-- ========================================================== attributes

/-- Where a class ends is no choice. -/
theorem span_inj {p : Char → Bool} {l m r s : List Char}
    (hl : ∀ c ∈ l, p c = true) (hm : ∀ c ∈ m, p c = true)
    (hr : ∀ c, r.head? = some c → p c = false)
    (hs : ∀ c, s.head? = some c → p c = false) (h : l ++ r = m ++ s) :
    l = m ∧ r = s := by
  have heq : l = m := by
    rw [← (Text.span_stop hl hr).1, h, (Text.span_stop hm hs).1]
  exact ⟨heq, List.append_cancel_left (heq ▸ h)⟩

/-- The first attribute of a tag that begins so. -/
theorem Tag.Legal.first_attr {dtd : Bool} {t : Tag} (ht : t.Legal dtd)
    (hne : t.attrs ≠ []) {name value tail rest : List Char}
    (hname : isName name = true) (hvalue : '"' ∉ value)
    (h : t.attrs.flatMap Attr.render ++ (t.pad ++ tail)
      = ' ' :: (name ++ '=' :: '"' :: (value ++ '"' :: rest))) :
    ∃ a as, t.attrs = a :: as ∧ a.name = name ∧ a.value = value := by
  obtain ⟨a, as, hattrs⟩ := List.exists_cons_of_ne_nil hne
  have ha : a.Legal dtd := ht.attrs a (by rw [hattrs]; exact List.mem_cons_self)
  rw [hattrs, List.flatMap_cons, Attr.render] at h
  simp only [List.append_assoc, List.cons_append, List.nil_append] at h
  have hstart : ∀ {n r : List Char}, isName n = true →
      ∀ c, (n ++ r).head? = some c → isSpace c = false := by
    intro n r hn c hc
    obtain ⟨hne, hchars⟩ := isName_chars hn
    obtain ⟨d, n', rfl⟩ := List.exists_cons_of_ne_nil hne
    rw [← Option.some.inj hc]
    exact isSpace_of_nameChar (hchars d List.mem_cons_self)
  obtain ⟨-, h⟩ := span_inj (m := [' ']) ha.pre
    (fun c hc => by rw [List.mem_singleton.mp hc]; rfl) (hstart ha.name)
    (hstart hname) h
  have heqPre : ∀ c, (a.eqPre ++ '=' :: (a.eqPost ++ a.quote :: (a.value
      ++ a.quote :: (as.flatMap Attr.render ++ (t.pad ++ tail))))).head?
        = some c → isNameChar c = false := by
    intro c hc
    cases hpre : a.eqPre with
    | nil =>
        rw [hpre] at hc
        rw [← Option.some.inj hc]
        rfl
    | cons d ds =>
        rw [hpre] at hc
        rw [← Option.some.inj hc]
        have hd := ha.eqPre d (by rw [hpre]; exact List.mem_cons_self)
        by_contra hn
        rw [isSpace_of_nameChar (Bool.not_eq_false _ ▸ hn)] at hd
        cases hd
  obtain ⟨hnames, h⟩ := span_inj (isName_chars ha.name).2
    (isName_chars hname).2 heqPre
    (fun c hc => by rw [← Option.some.inj hc]; rfl) h
  obtain ⟨-, h⟩ := span_inj (m := []) ha.eqPre (fun c hc => nomatch hc)
    (fun c hc => by rw [← Option.some.inj hc]; rfl)
    (fun c hc => by rw [← Option.some.inj hc]; rfl) h
  have h := (List.cons.inj h).2
  obtain ⟨-, h⟩ := span_inj (m := []) ha.eqPost (fun c hc => nomatch hc)
    (fun c hc => by
      rw [← Option.some.inj hc]
      rcases ha.quote with hq | hq
      · rw [hq]
        rfl
      · rw [hq]
        rfl)
    (fun c hc => by rw [← Option.some.inj hc]; rfl) h
  obtain ⟨hquote, h⟩ := List.cons.inj h
  have hunquoted := ha.unquoted
  rw [hquote] at hunquoted h
  obtain ⟨hvalues, -⟩ := span_inj (p := (· ≠ '"'))
    (fun c hc => decide_eq_true fun heq => hunquoted (heq ▸ hc))
    (fun c hc => decide_eq_true fun heq => hvalue (heq ▸ hc))
    (fun c hc => by rw [← Option.some.inj hc]; rfl)
    (fun c hc => by rw [← Option.some.inj hc]; rfl) h
  exact ⟨a, as, hattrs, hnames, hvalues⟩

-- ============================================================= children

/-- The first markup of a text, if one ends. -/
theorem lexGo_first (text m cs : List Char) :
    (lexGo text (some m) cs).segments = []
      ∨ ∃ p q, cs = p ++ '>' :: q ∧ (lexGo text (some m) cs).segments
        = ⟨text, m ++ p⟩ :: (lexGo [] none q).segments := by
  induction cs generalizing m with
  | nil => exact .inl rfl
  | cons c cs ih =>
      rw [lexGo]
      split
      · next hc =>
          refine .inr ⟨[], cs, by rw [hc.1]; rfl, ?_⟩
          rw [List.append_nil]
          rfl
      · rcases ih (m ++ [c]) with hnil | ⟨p, q, rfl, hseg⟩
        · exact .inl hnil
        · refine .inr ⟨c :: p, q, rfl, ?_⟩
          rw [hseg, List.append_assoc]
          rfl

/-- What a markup in front of the root begins with. -/
def OfProlog (m : List Char) : Prop := ∃ c cs, m = c :: cs ∧ (c = '?' ∨ c = '!')

theorem misc_ofProlog {ns : List Node} (h : ∀ n ∈ ns, n.Misc) :
    ∀ m ∈ markups (nodesTokens ns), OfProlog m := by
  induction ns with
  | nil => exact fun m hm => nomatch hm
  | cons n ns ih =>
      intro m hm
      have hn : n.Misc := h n List.mem_cons_self
      have hrest := ih fun n hn => h n (List.mem_cons_of_mem _ hn)
      rw [nodesTokens, markups, List.filterMap_append] at hm
      rcases List.mem_append.mp hm with hm | hm
      · cases n with
        | comment s =>
            rw [List.mem_singleton.mp hm]
            exact ⟨_, _, rfl, .inr rfl⟩
        | pi s =>
            rw [List.mem_singleton.mp hm]
            exact ⟨_, _, rfl, .inl rfl⟩
        | text s => cases hm
        | elem tag ch pad => cases hn
        | empty tag => cases hn
        | cdata s => cases hn
      · exact hrest m hm

theorem Document.Legal.prolog_markups {d : Document} (h : d.Legal) :
    ∀ m ∈ markups d.prologTokens, OfProlog m := by
  intro m hm
  rw [Document.prologTokens, markups, List.filterMap_append,
    List.filterMap_append, List.filterMap_append] at hm
  rcases List.mem_append.mp hm with hm | hm
  · cases hdecl : d.decl with
    | none =>
        rw [hdecl] at hm
        cases hm
    | some t =>
        rw [hdecl] at hm
        rw [List.mem_singleton.mp hm]
        exact ⟨_, _, rfl, .inl rfl⟩
  rcases List.mem_append.mp hm with hm | hm
  · exact misc_ofProlog h.misc m hm
  rcases List.mem_append.mp hm with hm | hm
  · cases hdoctype : d.doctype with
    | none =>
        rw [hdoctype] at hm
        cases hm
    | some s =>
        rw [hdoctype] at hm
        rw [List.mem_singleton.mp hm]
        exact ⟨_, _, rfl, .inr rfl⟩
  · exact misc_ofProlog h.misc' m hm

/-- The only child of a root that an XML declaration is in front of. -/
theorem Document.Legal.only_child {d : Document} (h : d.Legal)
    {root tag : Tag} {pad : List Char}
    (hroot : d.root = .elem root [.empty tag] pad) {c : Char}
    {decl start rest : List Char} (hdecl : Complete ('?' :: decl))
    (hstart : Complete (c :: start)) (hc : c ≠ '?' ∧ c ≠ '!')
    (hrender : d.render = '<' :: ('?' :: decl ++ '>' :: '<' ::
      (c :: start ++ '>' :: '<' :: rest))) :
    ∃ more, rest = tag.content ++ '/' :: '>' :: more := by
  have hmarkups : (lex d.render).segments.map Segment.markup
      = markups d.tokens := by
    rw [Document.render, lex_render h.lexical]
    exact lexTokens_markups [] d.tokens
  have hread : lex d.render = (lexGo [] (some []) rest).prepend
      [⟨[], '?' :: decl⟩, ⟨[], c :: start⟩] := by
    rw [hrender, lex, lexGo_markup hdecl, lexGo_markup hstart, lexGo,
      if_pos rfl, prepend_prepend]
    rfl
  have htokens : markups d.tokens = markups d.prologTokens
      ++ root.content :: (tag.content ++ ['/'])
        :: markups (.markup ('/' :: (root.name ++ pad))
          :: nodesTokens d.epilog) := by
    rw [Document.tokens, hroot, markups, List.filterMap_append, markups]
    rfl
  rw [htokens, hread] at hmarkups
  have hlegal := h.root
  rw [hroot] at hlegal
  obtain ⟨r, rs, hr, hbang, hquest, -⟩ := hlegal.1.content_cons
  have hprolog := h.prolog_markups
  rw [hr] at hmarkups
  change ('?' :: decl) :: (c :: start)
    :: (lexGo [] (some []) rest).segments.map Segment.markup = _ at hmarkups
  -- in front of the root there is the declaration alone
  rcases hp : markups d.prologTokens with _ | ⟨m, _ | ⟨m', ms⟩⟩
  · rw [hp] at hmarkups
    exact absurd (List.cons.inj (List.cons.inj hmarkups).1).1.symm hquest
  · rw [hp] at hmarkups
    have hchild := (List.cons.inj (List.cons.inj hmarkups).2).2
    rcases lexGo_first [] [] rest with hnil | ⟨p, q, rfl, hseg⟩
    · rw [hnil] at hchild
      cases hchild
    · rw [hseg] at hchild
      have hmarkup := (List.cons.inj hchild).1
      refine ⟨q, ?_⟩
      change p = tag.content ++ ['/'] at hmarkup
      rw [hmarkup, List.append_assoc]
      rfl
  · rw [hp] at hmarkups hprolog
    obtain ⟨e, es, he, hmisc⟩ := hprolog m' (by simp)
    have hsecond := (List.cons.inj (List.cons.inj hmarkups).2).1
    rw [he] at hsecond
    obtain rfl := (List.cons.inj hsecond).1
    exact absurd hmisc (by simp only [hc.1, hc.2, or_self, not_false_iff])

end Xml
