/-
Documents cut short: what a reader still sees of a legal document whose
text ends before its root element is complete. The events are a prefix
of those up to the root's end tag, a text may follow, and a markup may
be open — nothing closes the root.
-/
import Mathlib.Data.List.Infix
import SapAutomate.Lib.Xml.Reading

namespace Xml

-- ================================================== statement vocabulary

namespace Document

/-- The text up to and including the root element. -/
def throughRoot (d : Document) : List Char :=
  Xml.render (d.prologTokens ++ d.root.tokens)

/-- `p` is the document's text up to a place before the root element is
complete. -/
structure CutBy (d : Document) (p : List Char) : Prop where
  isPrefix : p <+: d.render
  early : p.length < d.throughRoot.length

end Document

/-- The text ends inside a markup. -/
def CutInMarkup (p : List Char) : Prop := (lex p).opened.isSome = true

/-- The text has no complete start tag. -/
def NoStart (p : List Char) : Prop := ∀ n, .start n ∉ (lex p).events

/-- At some place of the text more than `limit` elements are open. -/
def OpensMoreThan (limit : Nat) (p : List Char) : Prop :=
  ∃ l k, l <+: (lex p).events ∧ nest 0 l = some k ∧ limit < k

-- ================================================================ the cut

/-- A text cut before its last markup is complete has only the segments
before it. -/
theorem segments_of_cut {ts : List Token} {c p : List Char}
    (hts : ∀ t ∈ ts, t.Lexical) (hc : Complete c)
    (hp : p <+: render (ts ++ [.markup c]))
    (hlen : p.length < (render (ts ++ [.markup c])).length) :
    (lex p).segments <+: (lexTokens [] ts).1 := by
  have hlast : render (ts ++ [.markup c]) = (render ts ++ '<' :: c) ++ ['>'] := by
    simp [Token.render]
  have hp' : p <+: render ts ++ '<' :: c := by
    rw [hlast] at hp hlen
    rcases List.prefix_concat_iff.mp hp with heq | hpre
    · rw [heq] at hlen
      exact absurd hlen (Nat.lt_irrefl _)
    · exact hpre
  have hseg : (lex (render ts ++ '<' :: c)).segments = (lexTokens [] ts).1 := by
    have hopen : (lexGo (lexTokens [] ts).2 none ('<' :: c)).segments = [] := by
      have hinside := lexGo_inside [] (lexTokens [] ts).2 [] hc.first
      rw [List.append_nil] at hinside
      rw [lexGo, if_pos rfl, hinside]
      rfl
    unfold lex
    rw [lexGo_render hts]
    show _ ++ (lexGo (lexTokens [] ts).2 none ('<' :: c)).segments = _
    rw [hopen, List.append_nil]
  obtain ⟨q, hq⟩ := hp'
  have h := lex_segments_prefix p q
  rw [hq, hseg] at h
  exact h

/-- The tokens of an element but the one that completes it. -/
def Node.cutTokens : Node → List Token
  | .elem tag children _ => .markup tag.content :: nodesTokens children
  | _ => []

/-- The events before an element is complete. -/
def Node.cutEvents : Node → List Event
  | .elem tag children _ => .start tag.name :: nodesEvents children
  | _ => []

/-- An element is completed by its last markup. -/
theorem tokens_eq_cut {dtd : Bool} {n : Node} (hn : n.Legal dtd)
    (helem : n.isElem = true) :
    ∃ c, Complete c ∧ n.tokens = n.cutTokens ++ [.markup c] := by
  cases n with
  | elem tag children endPad =>
      obtain ⟨htag, -, hpad⟩ := hn
      refine ⟨'/' :: (tag.name ++ endPad), complete_end fun c hc => ?_, rfl⟩
      rcases List.mem_append.mp hc with hc | hc
      · exact plainTagChar_of_name ((isName_chars htag.name).2 c hc)
      · exact plainTagChar_of_space (hpad c hc)
  | empty tag => exact ⟨_, Tag.Legal.complete_empty hn, rfl⟩
  | text s => cases helem
  | cdata s => cases helem
  | comment s => cases helem
  | pi s => cases helem

/-- The events of an incomplete element. -/
theorem tokenEvents_cut {dtd : Bool} {n : Node} (hn : n.Legal dtd)
    (helem : n.isElem = true) {text : List Char} (htext : Blank text) :
    tokenEvents text n.cutTokens = n.cutEvents := by
  cases n with
  | elem tag children endPad =>
      obtain ⟨htag, hch, -⟩ := hn
      show textEvents text ++ classify tag.content
        :: tokenEvents [] (nodesTokens children) = _
      have hnodes := tokenEvents_nodes children hch []
        (fun _ _ h => (nomatch h))
      rw [List.append_nil] at hnodes
      rw [textEvents_space htext, htag.classify_start, hnodes]
      show .start tag.name :: (nodesEvents children ++ []) = _
      rw [List.append_nil]
      rfl
  | empty tag => exact textEvents_space htext
  | text s => cases helem
  | cdata s => cases helem
  | comment s => cases helem
  | pi s => cases helem

/-- What is seen of a cut document: events of the prolog and of the
incomplete root, as far as they go, and perhaps a text. -/
theorem Document.CutBy.events {d : Document} (hd : d.Legal) {p : List Char}
    (h : d.CutBy p) :
    ∃ pre es s, (∀ e ∈ pre, e = .other) ∧ es <+: pre ++ d.root.cutEvents
      ∧ (lex p).events = es ++ textEvents s := by
  obtain ⟨c, hc, htokens⟩ := tokens_eq_cut hd.root hd.isElem
  obtain ⟨pre, text, htext, hpre, heq⟩ := hd.prolog_quiet [] blank_nil
  have hlex : ∀ t ∈ d.prologTokens ++ d.root.cutTokens, t.Lexical := by
    intro t ht
    rcases List.mem_append.mp ht with ht | ht
    · exact hd.prolog_lexical t ht
    · refine node_lexical d.root hd.root t ?_
      rw [htokens]
      exact List.mem_append_left _ ht
  have hthrough : d.throughRoot
      = Xml.render ((d.prologTokens ++ d.root.cutTokens) ++ [Token.markup c]) := by
    unfold Document.throughRoot
    rw [htokens, List.append_assoc]
  have hprefix : p <+: Xml.render
      ((d.prologTokens ++ d.root.cutTokens) ++ [Token.markup c]) := by
    have hfull : Xml.render ((d.prologTokens ++ d.root.cutTokens) ++ [Token.markup c])
        <+: d.render := by
      rw [← hthrough]
      unfold Document.throughRoot Document.render Document.tokens
      rw [render_append, render_append, render_append, ← List.append_assoc]
      exact List.prefix_append ..
    have hlen := h.early
    rw [hthrough] at hlen
    exact List.prefix_of_prefix_length_le h.isPrefix hfull (Nat.le_of_lt hlen)
  have hseg := segments_of_cut hlex hc hprefix (hthrough ▸ h.early)
  have hcut : tokenEvents [] (d.prologTokens ++ d.root.cutTokens)
      = pre ++ d.root.cutEvents := by
    rw [heq, tokenEvents_cut hd.root hd.isElem htext]
  refine ⟨pre, (lex p).segments.flatMap Segment.events, (lex p).text, hpre, ?_,
    rfl⟩
  rw [← hcut, ← lexTokens_events]
  exact (hseg.flatMap _).trans (List.prefix_append ..)

/-- The incomplete root nests, and never closes. -/
theorem nest_cutEvents {n : Node} {es : List Event} (h : es <+: n.cutEvents) :
    es = [] ∨ ∃ name inner k, es = .start name :: inner
      ∧ nest 0 inner = some k := by
  cases n with
  | elem tag children endPad =>
      obtain ⟨r, hr⟩ := h
      cases es with
      | nil => exact .inl rfl
      | cons e inner =>
          right
          have hr' : e :: (inner ++ r)
              = .start tag.name :: nodesEvents children := hr
          obtain ⟨he, hinner⟩ := List.cons.inj hr'
          have hnest := nest_nodes 0 children
          rw [← hinner, nest_append] at hnest
          obtain ⟨k, hk, -⟩ := Option.bind_eq_some_iff.mp hnest
          exact ⟨tag.name, inner, k, by rw [he], hk⟩
  | empty tag => exact .inl (List.prefix_nil.mp h)
  | text s => exact .inl (List.prefix_nil.mp h)
  | cdata s => exact .inl (List.prefix_nil.mp h)
  | comment s => exact .inl (List.prefix_nil.mp h)
  | pi s => exact .inl (List.prefix_nil.mp h)

end Xml
