/-
The events of a legal document are those of its tree, and the tags of
any part of it nest.

`Reader.ReadsDocuments` is the contract a reader is used under: it
reports of every legal document, cut anywhere, the events the lexer
sees, and it replaces the references it must.
-/
import SapAutomate.Lib.Xml.Legal

namespace Xml

-- ============================================================ lexical trees

mutual

/-- Every token of a legal node is read back as written. -/
theorem node_lexical {dtd : Bool} :
    ∀ (n : Node), n.Legal dtd → ∀ t ∈ n.tokens, t.Lexical
  | .elem tag children endPad, h, t, ht => by
      obtain ⟨htag, hch, hpad⟩ := h
      rcases List.mem_cons.mp ht with rfl | ht
      · exact htag.complete_start
      · rcases List.mem_append.mp ht with ht | ht
        · exact nodes_lexical children hch t ht
        · rw [List.mem_singleton.mp ht]
          refine complete_end fun c hc => ?_
          rcases List.mem_append.mp hc with hc | hc
          · exact plainTagChar_of_name ((isName_chars htag.name).2 c hc)
          · exact plainTagChar_of_space (hpad c hc)
  | .empty tag, h, t, ht => by
      rw [List.mem_singleton.mp ht]
      exact Tag.Legal.complete_empty h
  | .text s, h, t, ht => by
      rw [List.mem_singleton.mp ht]
      exact h.2.1
  | .cdata s, h, t, ht => by
      rw [List.mem_singleton.mp ht]
      exact complete_cdata h.1
  | .comment s, h, t, ht => by
      rw [List.mem_singleton.mp ht]
      exact complete_comment h.1
  | .pi s, h, t, ht => by
      rw [List.mem_singleton.mp ht]
      exact complete_pi h.2.1
termination_by structural n => n

theorem nodes_lexical {dtd : Bool} :
    ∀ (ns : List Node), nodesLegal dtd ns → ∀ t ∈ nodesTokens ns, t.Lexical
  | [], _, _, ht => nomatch ht
  | n :: ns, h, t, ht => by
      rcases List.mem_append.mp ht with ht | ht
      · exact node_lexical n h.1 t ht
      · exact nodes_lexical ns h.2.1 t ht
termination_by structural ns => ns

end

/-- White space and comments outside the root too. -/
theorem misc_lexical {ns : List Node} (h : ∀ n ∈ ns, n.Misc) :
    ∀ t ∈ nodesTokens ns, t.Lexical := by
  induction ns with
  | nil => intro t ht; cases ht
  | cons n ns ih =>
      intro t ht
      have hn : n.Misc := h n (List.mem_cons_self ..)
      rcases List.mem_append.mp ht with ht | ht
      · cases n with
        | comment s => exact node_lexical _ hn t ht
        | pi s => exact node_lexical _ hn t ht
        | text s =>
            rw [List.mem_singleton.mp ht]
            exact Blank.not_mem hn rfl
        | elem tag ch pad => cases hn
        | empty tag => cases hn
        | cdata s => cases hn
      · exact ih (fun m hm => h m (List.mem_cons_of_mem _ hm)) t ht

/-- No question mark ends an XML declaration early. -/
theorem DeclLegal.no_question {t : Tag} (h : DeclLegal t) :
    '?' ∉ t.content := by
  have hattr : ∀ a ∈ t.attrs, '?' ∉ a.render := by
    intro a ha hmem
    have hleg := h.tag.attrs a ha
    have hval := (h.values a ha).2
    unfold Attr.render at hmem
    simp only [List.mem_append, List.mem_cons] at hmem
    rcases hmem with hm | hm | hm | hm | hm | hm | hm | hm | hm
    · exact hleg.pre.not_mem rfl hm
    · exact not_mem_name hleg.name (by decide) hm
    · exact hleg.eqPre.not_mem rfl hm
    · revert hm; decide
    · exact hleg.eqPost.not_mem rfl hm
    · rcases hleg.quote with hq | hq <;> rw [hq] at hm <;> revert hm <;> decide
    · have hc := hval _ hm
      revert hc
      decide
    · rcases hleg.quote with hq | hq <;> rw [hq] at hm <;> revert hm <;> decide
    · cases hm
  intro hmem
  unfold Tag.content at hmem
  rcases List.mem_append.mp hmem with hm | hm
  · exact not_mem_name h.tag.name (by decide) hm
  · rcases List.mem_append.mp hm with hm | hm
    · obtain ⟨a, ha, hm⟩ := List.mem_flatMap.mp hm
      exact hattr a ha hm
    · exact h.tag.pad.not_mem rfl hm

namespace Document

theorem declTokens_lexical {o : Option Tag} (h : ∀ t, o = some t → DeclLegal t) :
    ∀ t ∈ declTokens o, t.Lexical := by
  cases o with
  | none => intro t ht; cases ht
  | some tag =>
      intro t ht
      rw [List.mem_singleton.mp ht]
      refine complete_pi fun hinf => ?_
      exact (h tag rfl).no_question (hinf.subset (List.mem_cons_self ..))

theorem doctypeTokens_lexical {o : Option (List Char)}
    (h : ∀ s, o = some s → "OCTYPE".toList <+: s ∧ Complete ('!' :: 'D' :: s)) :
    ∀ t ∈ doctypeTokens o, t.Lexical := by
  cases o with
  | none => intro t ht; cases ht
  | some s =>
      intro t ht
      rw [List.mem_singleton.mp ht]
      exact (h s rfl).2

theorem Legal.prolog_lexical {d : Document} (h : d.Legal) :
    ∀ t ∈ d.prologTokens, t.Lexical := by
  intro t ht
  rcases List.mem_append.mp ht with ht | ht
  · exact declTokens_lexical h.decl t ht
  · rcases List.mem_append.mp ht with ht | ht
    · exact misc_lexical h.misc t ht
    · rcases List.mem_append.mp ht with ht | ht
      · exact doctypeTokens_lexical h.doctype t ht
      · exact misc_lexical h.misc' t ht

/-- A legal document is read back as written. -/
theorem Legal.lexical {d : Document} (h : d.Legal) :
    ∀ t ∈ d.tokens, t.Lexical := by
  intro t ht
  rcases List.mem_append.mp ht with ht | ht
  · exact h.prolog_lexical t ht
  · rcases List.mem_append.mp ht with ht | ht
    · exact node_lexical d.root h.root t ht
    · exact misc_lexical h.epilog t ht

end Document

-- =============================================================== end tags

/-- The markup is no end tag, or the end tag of a name. -/
def EndTagLegal (c : List Char) : Prop :=
  ∀ s, c = '/' :: s → ∃ n pad, s = n ++ pad ∧ isName n = true ∧ Blank pad

/-- A markup that starts otherwise is no end tag. -/
theorem endTagLegal_of_head {c : Char} {cs : List Char} (h : c ≠ '/') :
    EndTagLegal (c :: cs) := by
  intro s hs
  obtain ⟨rfl, -⟩ := List.cons.inj hs
  exact absurd rfl h

theorem Tag.Legal.endTag {dtd : Bool} {t : Tag} (h : t.Legal dtd)
    (r : List Char) : EndTagLegal (t.content ++ r) := by
  obtain ⟨c, cs, hcons, -, -, hslash⟩ := h.content_cons
  rw [hcons]
  exact endTagLegal_of_head hslash

mutual

/-- The end tags of a legal node name names. -/
theorem node_endTag {dtd : Bool} :
    ∀ (n : Node), n.Legal dtd → ∀ c, .markup c ∈ n.tokens → EndTagLegal c
  | .elem tag children endPad, h, c, hc => by
      obtain ⟨htag, hch, hpad⟩ := h
      rcases List.mem_cons.mp hc with hc | hc
      · cases hc
        have hend := Tag.Legal.endTag htag []
        rw [List.append_nil] at hend
        exact hend
      · rcases List.mem_append.mp hc with hc | hc
        · exact nodes_endTag children hch c hc
        · cases List.mem_singleton.mp hc
          intro s hs
          exact ⟨tag.name, endPad, (List.cons.inj hs).2.symm, htag.name, hpad⟩
  | .empty tag, h, c, hc => by
      cases List.mem_singleton.mp hc
      exact Tag.Legal.endTag h _
  | .text s, _, c, hc => by cases List.mem_singleton.mp hc
  | .cdata s, _, c, hc => by
      cases List.mem_singleton.mp hc
      exact endTagLegal_of_head (by decide)
  | .comment s, _, c, hc => by
      cases List.mem_singleton.mp hc
      exact endTagLegal_of_head (by decide)
  | .pi s, _, c, hc => by
      cases List.mem_singleton.mp hc
      exact endTagLegal_of_head (by decide)
termination_by structural n => n

theorem nodes_endTag {dtd : Bool} :
    ∀ (ns : List Node), nodesLegal dtd ns → ∀ c, .markup c ∈ nodesTokens ns →
      EndTagLegal c
  | [], _, _, hc => nomatch hc
  | n :: ns, h, c, hc => by
      rcases List.mem_append.mp hc with hc | hc
      · exact node_endTag n h.1 c hc
      · exact nodes_endTag ns h.2.1 c hc
termination_by structural ns => ns

end

theorem misc_endTag {ns : List Node} (h : ∀ n ∈ ns, n.Misc) :
    ∀ c, .markup c ∈ nodesTokens ns → EndTagLegal c := by
  induction ns with
  | nil => intro c hc; cases hc
  | cons n ns ih =>
      intro c hc
      have hn : n.Misc := h n (List.mem_cons_self ..)
      rcases List.mem_append.mp hc with hc | hc
      · cases n with
        | comment s => exact node_endTag _ hn c hc
        | pi s => exact node_endTag _ hn c hc
        | text s => cases List.mem_singleton.mp hc
        | elem tag ch pad => cases hn
        | empty tag => cases hn
        | cdata s => cases hn
      · exact ih (fun m hm => h m (List.mem_cons_of_mem _ hm)) c hc

/-- Every end tag of a legal document is the end tag of a name. -/
theorem document_endTag {d : Document} (h : d.Legal) :
    ∀ c, .markup c ∈ d.tokens → EndTagLegal c := by
  intro c hc
  rcases List.mem_append.mp hc with hc | hc
  · rcases List.mem_append.mp hc with hc | hc
    · cases hd : d.decl with
      | none => rw [hd] at hc; cases hc
      | some t =>
          rw [hd] at hc
          cases List.mem_singleton.mp hc
          exact endTagLegal_of_head (by decide)
    · rcases List.mem_append.mp hc with hc | hc
      · exact misc_endTag h.misc c hc
      · rcases List.mem_append.mp hc with hc | hc
        · cases hd : d.doctype with
          | none => rw [hd] at hc; cases hc
          | some s =>
              rw [hd] at hc
              cases List.mem_singleton.mp hc
              exact endTagLegal_of_head (by decide)
        · exact misc_endTag h.misc' c hc
  · rcases List.mem_append.mp hc with hc | hc
    · exact node_endTag d.root h.root c hc
    · exact misc_endTag h.epilog c hc

-- ========================================================= events of trees

mutual

/-- The events of a node. -/
def Node.events : Node → List Event
  | .elem tag children _ =>
      .start tag.name :: (nodesEvents children ++ [.end tag.name])
  | .empty tag => [.empty tag.name]
  | .text s => textEvents s
  | .cdata s => [.cdata s]
  | .comment _ => [.other]
  | .pi _ => [.other]
termination_by structural n => n

def nodesEvents : List Node → List Event
  | [] => []
  | n :: ns => n.events ++ nodesEvents ns
termination_by structural ns => ns

end

/-- The tokens do not continue a text. -/
def Flushed (ts : List Token) : Prop := ∀ s us, ts ≠ .text s :: us

theorem flushed_markup (c : List Char) (ts : List Token) :
    Flushed (.markup c :: ts) := fun _ _ h => by cases h

/-- A text that is not continued is done. -/
theorem tokenEvents_flushed {ts : List Token} (h : Flushed ts)
    (text : List Char) :
    tokenEvents text ts = textEvents text ++ tokenEvents [] ts := by
  cases ts with
  | nil => exact (List.append_nil _).symm
  | cons t ts =>
      cases t with
      | text s => exact absurd rfl (h s ts)
      | markup c => rfl

theorem tokenEvents_markup (c : List Char) (ts : List Token) :
    tokenEvents [] (.markup c :: ts) = classify c :: tokenEvents [] ts := rfl

/-- What is no text starts with a markup. -/
theorem flushed_node {n : Node} (h : n.isText = false) (us : List Token) :
    Flushed (n.tokens ++ us) := by
  cases n with
  | text s => cases h
  | elem tag ch pad => exact flushed_markup _ _
  | empty tag => exact flushed_markup _ _
  | cdata s => exact flushed_markup _ _
  | comment s => exact flushed_markup _ _
  | pi s => exact flushed_markup _ _

mutual

/-- The tokens of a legal node give its events. -/
theorem tokenEvents_node {dtd : Bool} :
    ∀ (n : Node), n.Legal dtd → ∀ us, (n.isText = true → Flushed us) →
      tokenEvents [] (n.tokens ++ us) = n.events ++ tokenEvents [] us
  | .elem tag children endPad, h, us, _ => by
      obtain ⟨htag, hch, hpad⟩ := h
      unfold Node.tokens Node.events
      rw [List.cons_append, tokenEvents_markup, htag.classify_start,
        List.append_assoc, List.singleton_append,
        tokenEvents_nodes children hch _ (flushed_markup _ _),
        tokenEvents_markup, classify_end htag.name hpad, List.cons_append,
        List.append_assoc]
      rfl
  | .empty tag, h, us, _ => by
      unfold Node.tokens Node.events
      rw [List.singleton_append, tokenEvents_markup, Tag.Legal.classify_empty h]
      rfl
  | .text s, _, us, hus => tokenEvents_flushed (hus rfl) s
  | .cdata s, _, us, _ => by
      unfold Node.tokens Node.events
      rw [List.singleton_append, tokenEvents_markup, classify_cdata]
      rfl
  | .comment s, _, us, _ => rfl
  | .pi s, _, us, _ => rfl
termination_by structural n => n

theorem tokenEvents_nodes {dtd : Bool} :
    ∀ (ns : List Node), nodesLegal dtd ns → ∀ us, Flushed us →
      tokenEvents [] (nodesTokens ns ++ us)
        = nodesEvents ns ++ tokenEvents [] us
  | [], _, us, _ => rfl
  | n :: ns, h, us, hus => by
      obtain ⟨hn, hns, hadj⟩ := h
      have hflush : n.isText = true → Flushed (nodesTokens ns ++ us) := by
        intro htext
        cases ns with
        | nil => exact hus
        | cons m ns =>
            unfold nodesTokens
            rw [List.append_assoc]
            exact flushed_node (hadj htext m rfl) _
      unfold nodesTokens nodesEvents
      rw [List.append_assoc, tokenEvents_node n hn _ hflush,
        tokenEvents_nodes ns hns us hus, List.append_assoc]
termination_by structural ns => ns

end

/-- The content is one text that reads as `t`, or nothing for the empty
text. -/
inductive ShowsText (t : List Char) : List Node → Prop where
  | empty (h : t = []) : ShowsText t []
  | text (s : List Char) (h : unescape s = some t) : ShowsText t [.text s]

-- ==================================================== events of documents

/-- Tokens that yield nothing but `other`, behind white space. -/
def Quiet (ts : List Token) : Prop :=
  ∀ text, Blank text → ∃ es text', Blank text' ∧ (∀ e ∈ es, e = .other)
    ∧ ∀ us, tokenEvents text (ts ++ us) = es ++ tokenEvents text' us

theorem blank_nil : Blank [] := fun _ hc => nomatch hc

theorem quiet_nil : Quiet [] := fun text htext =>
  ⟨[], text, htext, fun _ he => (nomatch he), fun _ => rfl⟩

theorem Quiet.append {ts us : List Token} (ht : Quiet ts) (hu : Quiet us) :
    Quiet (ts ++ us) := by
  intro text htext
  obtain ⟨es, text', htext', hes, heq⟩ := ht text htext
  obtain ⟨fs, text'', htext'', hfs, heq'⟩ := hu text' htext'
  refine ⟨es ++ fs, text'', htext'', fun e he => ?_, fun vs => ?_⟩
  · exact (List.mem_append.mp he).elim (hes e) (hfs e)
  · rw [List.append_assoc, heq, heq', List.append_assoc]

theorem quiet_other {c : List Char} (h : classify c = .other) :
    Quiet [.markup c] := by
  intro text htext
  refine ⟨[.other], [], blank_nil, fun e he => ?_, fun us => ?_⟩
  · exact List.mem_singleton.mp he
  · show textEvents text ++ classify c :: tokenEvents [] us = _
    rw [textEvents_space htext, h]
    rfl

theorem quiet_misc {ns : List Node} (h : ∀ n ∈ ns, n.Misc) :
    Quiet (nodesTokens ns) := by
  induction ns with
  | nil => exact quiet_nil
  | cons n ns ih =>
      have hn : n.Misc := h n (List.mem_cons_self ..)
      refine Quiet.append ?_ (ih fun m hm => h m (List.mem_cons_of_mem _ hm))
      cases n with
      | comment s => exact quiet_other rfl
      | pi s => exact quiet_other rfl
      | text s =>
          intro text htext
          refine ⟨[], text ++ s, fun c hc => ?_, fun _ he => (nomatch he),
            fun _ => rfl⟩
          exact (List.mem_append.mp hc).elim (htext c) (hn c)
      | elem tag ch pad => cases hn
      | empty tag => cases hn
      | cdata s => cases hn

theorem Document.Legal.prolog_quiet {d : Document} (h : d.Legal) :
    Quiet d.prologTokens := by
  have hdecl : Quiet (declTokens d.decl) := by
    cases d.decl with
    | none => exact quiet_nil
    | some t => exact quiet_other rfl
  have hdoctype : Quiet (doctypeTokens d.doctype) := by
    cases d.doctype with
    | none => exact quiet_nil
    | some s => exact quiet_other rfl
  exact hdecl.append ((quiet_misc h.misc).append
    (hdoctype.append (quiet_misc h.misc')))

theorem isText_of_isElem {n : Node} (h : n.isElem = true) :
    n.isText = false := by
  cases n <;> first | rfl | cases h

/-- The events of a legal document: its root's, among others. -/
theorem Document.Legal.tokenEvents {d : Document} (h : d.Legal) :
    ∃ pre post, (∀ e ∈ pre, e = .other)
      ∧ Xml.tokenEvents [] d.tokens = pre ++ (d.root.events ++ post) := by
  obtain ⟨pre, text, htext, hpre, heq⟩ :=
    h.prolog_quiet [] blank_nil
  have htxt := isText_of_isElem h.isElem
  refine ⟨pre, Xml.tokenEvents [] (nodesTokens d.epilog), hpre, ?_⟩
  unfold Document.tokens
  rw [heq, tokenEvents_flushed (flushed_node htxt _), textEvents_space htext,
    List.nil_append, tokenEvents_node d.root h.root _ fun ht => by
      rw [htxt] at ht; cases ht]

-- =============================================================== readers

/-- A reader reports of every legal document, cut anywhere, what the
lexer sees, and replaces every reference that is predefined or names a
character. -/
structure Reader.ReadsDocuments (r : Reader) : Prop where
  events : ∀ d : Document, d.Legal → ∀ p, p <+: d.render →
    ∃ msg, r.events p = (lex p).emitted msg
  unescape : ∀ s t, Xml.unescape s = some t → r.unescape s = some t

theorem lexReader_reads : lexReader.ReadsDocuments :=
  ⟨fun _ _ _ _ => ⟨_, rfl⟩, fun _ _ h => h⟩

/-- What a reader reports of a whole document. -/
theorem Reader.ReadsDocuments.whole {r : Reader} (hr : r.ReadsDocuments)
    {d : Document} (h : d.Legal) :
    r.events d.render = (tokenEvents [] d.tokens).map .ok := by
  obtain ⟨msg, hmsg⟩ := hr.events d h d.render (List.prefix_refl _)
  rw [hmsg]
  exact lex_render_emitted h.lexical msg

-- =============================================================== nesting

/-- The number of elements open after the events, from a given one;
none when one too many is closed. -/
def nest : Nat → List Event → Option Nat
  | k, [] => some k
  | k, .start _ :: es => nest (k + 1) es
  | 0, .end _ :: _ => none
  | k + 1, .end _ :: es => nest k es
  | k, .empty _ :: es => nest k es
  | k, .text _ :: es => nest k es
  | k, .cdata _ :: es => nest k es
  | k, .other :: es => nest k es

theorem nest_append (k : Nat) (es fs : List Event) :
    nest k (es ++ fs) = (nest k es).bind fun j => nest j fs := by
  induction es generalizing k with
  | nil => cases k <;> rfl
  | cons e es ih =>
      cases e <;> cases k <;> first | rfl | exact ih _

/-- More elements open below make no difference. -/
theorem nest_add {k j : Nat} {es : List Event} (h : nest k es = some j)
    (i : Nat) : nest (k + i) es = some (j + i) := by
  induction es generalizing k with
  | nil => cases k <;> cases h <;> rfl
  | cons e es ih =>
      cases e with
      | start n =>
          have h' : nest (k + 1) es = some j := by cases k <;> exact h
          have hk := ih h'
          rw [Nat.add_right_comm] at hk
          show nest (k + i) (Event.start n :: es) = _
          rw [nest]
          exact hk
      | «end» n =>
          cases k with
          | zero => cases h
          | succ k =>
              rw [Nat.add_right_comm]
              exact ih h
      | empty n => exact (by rw [nest] at h ⊢; exact ih h)
      | text s => exact (by rw [nest] at h ⊢; exact ih h)
      | cdata s => exact (by rw [nest] at h ⊢; exact ih h)
      | other => exact (by rw [nest] at h ⊢; exact ih h)

theorem nest_textEvents (k : Nat) (s : List Char) :
    nest k (textEvents s) = some k := by
  unfold textEvents
  split
  · cases k <;> rfl
  · cases k <;> rfl

mutual

/-- The tags of a node nest. -/
theorem nest_node (k : Nat) : ∀ n : Node, nest k n.events = some k
  | .elem tag children _ => by
      unfold Node.events
      rw [nest, nest_append, nest_nodes (k + 1) children]
      rfl
  | .empty tag => by cases k <;> rfl
  | .text s => nest_textEvents k s
  | .cdata s => by cases k <;> rfl
  | .comment s => by cases k <;> rfl
  | .pi s => by cases k <;> rfl
termination_by structural n => n

theorem nest_nodes (k : Nat) : ∀ ns : List Node, nest k (nodesEvents ns) = some k
  | [] => by cases k <;> rfl
  | n :: ns => by
      unfold nodesEvents
      rw [nest_append, nest_node k n]
      exact nest_nodes k ns
termination_by structural ns => ns

end

end Xml
