/-
Cutting a document into text and markup, left to right.

The lexer only knows where a markup ends: a tag at the first `>` outside
quotes, a comment at `-->`, a CDATA section at `]]>`, a processing
instruction at `?>`, a document type declaration at the balancing `>`.
It is total, and what is left at the end of the input is part of the
answer: the pending text, and the content of a markup still open.

# The two laws

- `lexGo_append`: lexing is a state machine, so lexing a text and more
  is lexing the text, then the rest from where it stopped. Prefixes of
  documents come from this one.
- `lexGo_render`: written tokens are read back, whatever follows.
-/
import Mathlib.Data.List.Basic

namespace Xml

-- ============================================================ markup ends

/-- The quote a tag's content leaves open, having started in the given
one. -/
def quoteState : Option Char → List Char → Option Char
  | q, [] => q
  | none, c :: cs =>
      quoteState (if c = '"' ∨ c = '\'' then some c else none) cs
  | some q, c :: cs => quoteState (if c = q then none else some q) cs

/-- A `>` behind this content ends the markup. -/
def closes : List Char → Bool
  | '!' :: '-' :: cs => decide (3 ≤ cs.length) && ['-', '-'].isSuffixOf cs
  | '!' :: '[' :: cs => [']', ']'].isSuffixOf cs
  | '!' :: c :: cs =>
      (c == 'D' || c == 'd') && cs.count '<' == cs.count '>'
  | ['!'] => false
  | '?' :: cs => ['?'].isSuffixOf cs
  | cs => quoteState none cs == none

/-- The content of a complete markup: `>` ends it where it is over and
nowhere before. -/
structure Complete (content : List Char) : Prop where
  ends : closes content = true
  first : ∀ p q, content = p ++ '>' :: q → closes p = false

-- ============================================================== the lexer

/-- A markup, with the text in front of it. -/
structure Segment where
  text : List Char
  markup : List Char

/-- What lexing leaves. -/
structure Lexed where
  segments : List Segment
  text : List Char
  opened : Option (List Char)

/-- More segments in front. -/
def Lexed.prepend (ss : List Segment) (l : Lexed) : Lexed :=
  { l with segments := ss ++ l.segments }

/-- Lexes with a pending text and, inside a markup, its content so far. -/
def lexGo : List Char → Option (List Char) → List Char → Lexed
  | text, m, [] => ⟨[], text, m⟩
  | text, none, c :: cs =>
      if c = '<' then lexGo text (some []) cs
      else lexGo (text ++ [c]) none cs
  | text, some m, c :: cs =>
      if c = '>' ∧ closes m = true then
        (lexGo [] none cs).prepend [⟨text, m⟩]
      else lexGo text (some (m ++ [c])) cs

/-- Lexes from the start. -/
def lex (s : List Char) : Lexed := lexGo [] none s

@[simp] theorem prepend_nil (l : Lexed) : l.prepend [] = l := rfl

theorem prepend_prepend (ss tt : List Segment) (l : Lexed) :
    (l.prepend tt).prepend ss = l.prepend (ss ++ tt) := by
  unfold Lexed.prepend
  rw [List.append_assoc]

/-- Lexing a text and more: the rest is lexed from where the text
stopped. -/
theorem lexGo_append (p q : List Char) (text : List Char)
    (m : Option (List Char)) :
    lexGo text m (p ++ q)
      = (lexGo (lexGo text m p).text (lexGo text m p).opened q).prepend
          (lexGo text m p).segments := by
  induction p generalizing text m with
  | nil => rfl
  | cons c p ih =>
      cases m with
      | none =>
          rw [List.cons_append, lexGo, lexGo]
          by_cases hc : c = '<'
          · rw [if_pos hc, if_pos hc, ih]
          · rw [if_neg hc, if_neg hc, ih]
      | some m =>
          rw [List.cons_append, lexGo, lexGo]
          by_cases hc : c = '>' ∧ closes m = true
          · rw [if_pos hc, if_pos hc, ih, prepend_prepend]
            rfl
          · rw [if_neg hc, if_neg hc, ih]

/-- The segments of a prefix come first. -/
theorem lex_segments_prefix (p q : List Char) :
    (lex p).segments <+: (lex (p ++ q)).segments := by
  unfold lex
  rw [lexGo_append]
  exact List.prefix_append ..

-- ================================================================ tokens

/-- A piece of a written document. -/
inductive Token where
  | text (s : List Char)
  | markup (content : List Char)

namespace Token

/-- As written. -/
def render : Token → List Char
  | .text s => s
  | .markup content => '<' :: (content ++ ['>'])

/-- Read back as written: no markup in a text, no early end in a
markup. -/
def Lexical : Token → Prop
  | .text s => '<' ∉ s
  | .markup content => Complete content

end Token

/-- Tokens as written. -/
def render (ts : List Token) : List Char := ts.flatMap Token.render

@[simp] theorem render_nil : render [] = [] := rfl

@[simp] theorem render_cons (t : Token) (ts : List Token) :
    render (t :: ts) = t.render ++ render ts := rfl

@[simp] theorem render_append (ts us : List Token) :
    render (ts ++ us) = render ts ++ render us := List.flatMap_append

/-- The segments of tokens, behind a pending text, and the text they
leave pending. -/
def lexTokens : List Char → List Token → List Segment × List Char
  | text, [] => ([], text)
  | text, .text s :: ts => lexTokens (text ++ s) ts
  | text, .markup c :: ts =>
      (⟨text, c⟩ :: (lexTokens [] ts).1, (lexTokens [] ts).2)

/-- A text becomes pending. -/
theorem lexGo_text {s : List Char} (hs : '<' ∉ s) (text q : List Char) :
    lexGo text none (s ++ q) = lexGo (text ++ s) none q := by
  induction s generalizing text with
  | nil => rw [List.nil_append, List.append_nil]
  | cons c s ih =>
      have hc : c ≠ '<' := (List.ne_of_not_mem_cons hs).symm
      rw [List.cons_append, lexGo, if_neg hc,
        ih (List.not_mem_of_not_mem_cons hs), List.append_assoc]
      rfl

/-- Inside a markup, while it does not end. -/
theorem lexGo_inside {c : List Char} (m text q : List Char)
    (hc : ∀ p r, c = p ++ '>' :: r → closes (m ++ p) = false) :
    lexGo text (some m) (c ++ q) = lexGo text (some (m ++ c)) q := by
  induction c generalizing m with
  | nil => rw [List.nil_append, List.append_nil]
  | cons d c ih =>
      have hd : ¬ (d = '>' ∧ closes m = true) := by
        intro hex
        obtain ⟨rfl, hm⟩ := hex
        have hfalse := hc [] c rfl
        rw [List.append_nil, hm] at hfalse
        cases hfalse
      rw [List.cons_append, lexGo, if_neg hd, ih, List.append_assoc]
      · rfl
      · intro p r hp
        have h := hc (d :: p) r (by rw [hp]; rfl)
        rw [List.append_assoc]
        exact h

/-- A complete markup becomes a segment. -/
theorem lexGo_markup {c : List Char} (hc : Complete c) (text q : List Char) :
    lexGo text none ('<' :: (c ++ '>' :: q))
      = (lexGo [] none q).prepend [⟨text, c⟩] := by
  rw [lexGo, if_pos rfl, lexGo_inside [] text _ hc.first, List.nil_append,
    lexGo, if_pos ⟨rfl, hc.ends⟩]

/-- Written tokens are read back, whatever follows. -/
theorem lexGo_render {ts : List Token} (hts : ∀ t ∈ ts, t.Lexical)
    (text q : List Char) :
    lexGo text none (render ts ++ q)
      = (lexGo (lexTokens text ts).2 none q).prepend
          (lexTokens text ts).1 := by
  induction ts generalizing text with
  | nil => rfl
  | cons t ts ih =>
      have ht : t.Lexical := hts t (List.mem_cons_self ..)
      have ih' := ih fun u hu => hts u (List.mem_cons_of_mem _ hu)
      rw [render_cons, List.append_assoc]
      cases t with
      | text s =>
          show lexGo text none (s ++ _) = _
          rw [lexGo_text ht, ih']
          rfl
      | markup c =>
          have hassoc : ('<' :: (c ++ ['>'])) ++ (render ts ++ q)
              = '<' :: (c ++ '>' :: (render ts ++ q)) := by simp
          show lexGo text none (('<' :: (c ++ ['>'])) ++ _) = _
          rw [hassoc, lexGo_markup ht, ih', prepend_prepend]
          rfl

/-- The markups of written tokens, in order. -/
def markups (ts : List Token) : List (List Char) :=
  ts.filterMap fun
    | .markup c => some c
    | .text _ => none

theorem lexTokens_markups (text : List Char) (ts : List Token) :
    (lexTokens text ts).1.map Segment.markup = markups ts := by
  induction ts generalizing text with
  | nil => rfl
  | cons t ts ih =>
      cases t with
      | text s => exact ih _
      | markup c =>
          show c :: (lexTokens [] ts).1.map Segment.markup = _
          rw [ih]
          rfl

/-- The segments and the pending text of a written document. -/
theorem lex_render {ts : List Token} (hts : ∀ t ∈ ts, t.Lexical) :
    lex (render ts) = ⟨(lexTokens [] ts).1, (lexTokens [] ts).2, none⟩ := by
  have h := lexGo_render hts [] []
  rw [List.append_nil] at h
  unfold lex
  rw [h]
  unfold Lexed.prepend lexGo
  rw [List.append_nil]

/-- Two ways of writing one document have the same markups. -/
theorem markups_eq_of_render_eq {ts us : List Token}
    (hts : ∀ t ∈ ts, t.Lexical) (hus : ∀ t ∈ us, t.Lexical)
    (h : render ts = render us) : markups ts = markups us := by
  have hlex : lex (render ts) = lex (render us) := by rw [h]
  rw [lex_render hts, lex_render hus] at hlex
  have hseg := congrArg Lexed.segments hlex
  have hmap := congrArg (List.map Segment.markup) hseg
  rwa [lexTokens_markups, lexTokens_markups] at hmap

end Xml
