/-
The attributes of a legal tag are read back as they are written, and with
them the events of a legal document: those of its tree, between texts and
what is no element.
-/
import SapAutomate.Lib.Xml.Reading
import SapAutomate.Lib.Xml.TagEvent

namespace Xml

-- ============================================================ attributes

/-- The first attribute, and what stands behind it. -/
theorem attrsFrom_render {dtd : Bool} {a : Attr} (h : a.Legal dtd)
    (fuel : Nat) (rest : List Char) :
    attrsFrom (fuel + 1) (a.render ++ rest)
      = (a.name, a.value) :: attrsFrom fuel rest := by
  have hquoteSpace : isSpace a.quote = false := by
    rcases h.quote with hq | hq <;> rw [hq] <;> decide
  have hnameChar : ∀ c ∈ a.name, (!isSpace c && c != '=') = true := by
    intro c hc
    have hchar := (isName_chars h.name).2 c hc
    rw [isSpace_of_nameChar hchar, Bool.not_false, Bool.true_and,
      bne_iff_ne]
    exact ne_of_class hchar rfl
  obtain ⟨n, ns, hname, -⟩ := name_cons h.name
  have hpre := Text.span_stop (p := isSpace) (l := a.pre)
    (r := a.name ++ (a.eqPre ++ '=' :: (a.eqPost
      ++ a.quote :: (a.value ++ a.quote :: rest)))) h.pre (by
      intro c hc
      rw [hname] at hc
      rw [← Option.some.inj hc]
      exact isSpace_of_nameChar ((isName_chars h.name).2 n
        (hname ▸ List.mem_cons_self)))
  have hnameSpan := Text.span_stop (p := fun c => !isSpace c && c != '=')
    (l := a.name) (r := a.eqPre ++ '=' :: (a.eqPost
      ++ a.quote :: (a.value ++ a.quote :: rest))) hnameChar (by
      intro c hc
      cases heq : a.eqPre with
      | nil =>
          rw [heq] at hc
          rw [← Option.some.inj hc]
          decide
      | cons s ss =>
          rw [heq] at hc
          rw [← Option.some.inj hc, h.eqPre s (heq ▸ List.mem_cons_self)]
          rfl)
  have heqPre := Text.span_stop (p := isSpace) (l := a.eqPre)
    (r := '=' :: (a.eqPost ++ a.quote :: (a.value ++ a.quote :: rest))) h.eqPre
    (by rintro c ⟨⟩; decide)
  have heqPost := Text.span_stop (p := isSpace) (l := a.eqPost)
    (r := a.quote :: (a.value ++ a.quote :: rest)) h.eqPost
    (by rintro c ⟨⟩; exact hquoteSpace)
  have hvalue := Text.span_stop (p := (· != a.quote)) (l := a.value)
    (r := a.quote :: rest)
    (fun c hc => bne_iff_ne.mpr fun heq => h.unquoted (heq ▸ hc))
    (by rintro c ⟨⟩; simp)
  have hwritten : a.render ++ rest = a.pre ++ (a.name ++ (a.eqPre
      ++ '=' :: (a.eqPost ++ a.quote :: (a.value ++ a.quote :: rest)))) := by
    unfold Attr.render
    simp only [List.append_assoc, List.cons_append, List.nil_append]
  rw [hwritten, attrsFrom]
  simp only [hpre.2, hnameSpan.1, hnameSpan.2, heqPre.2, List.drop_succ_cons,
    List.drop_zero, heqPost.2, hvalue.1, hvalue.2]

/-- The attributes of a tag are those it is written with. -/
theorem attrsOf_content {dtd : Bool} {t : Tag} (h : t.Legal dtd) :
    attrsOf t.content = t.pairs := by
  have hall : ∀ {attrs : List Attr} {pad : List Char} (fuel : Nat),
      (∀ a ∈ attrs, a.Legal dtd) → Blank pad → attrs.length ≤ fuel →
      attrsFrom fuel (attrs.flatMap Attr.render ++ pad)
        = attrs.map fun a => (a.name, a.value) := by
    intro attrs pad fuel hattrs hpad hfuel
    induction attrs generalizing fuel with
    | nil =>
        cases fuel with
        | zero => rfl
        | succ fuel =>
            have hnil : pad.dropWhile isSpace = [] :=
              List.dropWhile_eq_nil_iff.mpr hpad
            rw [List.flatMap_nil, List.nil_append, attrsFrom]
            simp [hnil]
    | cons a attrs ih =>
        obtain ⟨ha, hattrs⟩ := List.forall_mem_cons.mp hattrs
        obtain ⟨fuel, rfl⟩ : ∃ k, fuel = k + 1 := by
          rw [List.length_cons] at hfuel
          exact ⟨fuel - 1, by omega⟩
        rw [List.flatMap_cons, List.append_assoc, attrsFrom_render ha,
          ih fuel hattrs (Nat.le_of_succ_le_succ hfuel), List.map_cons]
  have hname : (t.name ++ (t.attrs.flatMap Attr.render ++ t.pad)).dropWhile
      (fun c => !isSpace c) = t.attrs.flatMap Attr.render ++ t.pad := by
    refine (Text.span_stop (fun c hc => ?_) fun c hc => ?_).2
    · rw [isSpace_of_nameChar ((isName_chars h.name).2 c hc)]
      rfl
    · rw [h.rest_head c hc]
      rfl
  have hlength : t.attrs.length ≤ t.content.length := by
    have hflat : ∀ attrs : List Attr,
        attrs.length ≤ (attrs.flatMap Attr.render).length := by
      intro attrs
      induction attrs with
      | nil => exact le_rfl
      | cons a attrs ih =>
          have hpos : 0 < a.render.length := by
            unfold Attr.render
            simp only [List.length_append, List.length_cons]
            omega
          rw [List.flatMap_cons, List.length_append, List.length_cons]
          omega
    have hle := hflat t.attrs
    unfold Tag.content
    simp only [List.length_append]
    omega
  unfold attrsOf
  unfold Tag.content at hlength ⊢
  rw [hname]
  exact hall _ h.attrs h.pad hlength

-- ================================================================ markups

theorem Tag.Legal.classifyTag_start {dtd : Bool} {t : Tag} (h : t.Legal dtd) :
    classifyTag t.content = .start t.name t.pairs := by
  unfold classifyTag
  rw [h.classify_start]
  exact congrArg _ (attrsOf_content h)

theorem Tag.Legal.classifyTag_empty {dtd : Bool} {t : Tag} (h : t.Legal dtd) :
    classifyTag (t.content ++ ['/']) = .empty t.name t.pairs := by
  unfold classifyTag
  rw [h.classify_empty]
  show TagEvent.empty t.name (attrsOf (t.content ++ ['/']).dropLast) = _
  rw [List.dropLast_concat, attrsOf_content h]

-- ================================================================= tokens

/-- The events of written tokens, behind a pending text. -/
def rawEvents : List Char → List Token → List TagEvent
  | text, [] => rawText text
  | text, .text s :: ts => rawEvents (text ++ s) ts
  | text, .markup c :: ts => rawText text ++ classifyTag c :: rawEvents [] ts

/-- They are what lexing the tokens leads to. -/
theorem lexTokens_rawEvents (text : List Char) (ts : List Token) :
    (lexTokens text ts).1.flatMap
        (fun seg => rawText seg.text ++ [classifyTag seg.markup])
      ++ rawText (lexTokens text ts).2 = rawEvents text ts := by
  induction ts generalizing text with
  | nil => rfl
  | cons t ts ih =>
      cases t with
      | text s => exact ih _
      | markup c =>
          show ((rawText text ++ [classifyTag c])
            ++ (lexTokens [] ts).1.flatMap _)
            ++ rawText (lexTokens [] ts).2 = _
          rw [List.append_assoc, ih, List.append_assoc]
          rfl

/-- At a markup no text is pending any more. -/
theorem rawEvents_markup (text : List Char) (ts : List Token)
    (c : List Char) (us : List Token) :
    rawEvents text (ts ++ .markup c :: us)
      = rawEvents text ts ++ rawEvents [] (.markup c :: us) := by
  induction ts generalizing text with
  | nil => rfl
  | cons t ts ih =>
      cases t with
      | text s => exact ih _
      | markup d =>
          show rawText text ++ classifyTag d :: rawEvents [] (ts ++ _) = _
          rw [ih]
          exact (List.append_assoc _ (classifyTag d :: rawEvents [] ts) _).symm

mutual

/-- The events of a legal node that is no text. -/
theorem rawEvents_node {dtd : Bool} :
    ∀ (n : Node) (text : List Char) (us : List Token), n.Legal dtd →
      n.isText = false →
      rawEvents text (n.tokens ++ us)
        = rawText text ++ (n.tagEvents ++ rawEvents [] us)
  | .elem tag ns endPad, text, us, h, _ => by
      obtain ⟨htag, hns, hpad⟩ := h
      have hend : classifyTag ('/' :: (tag.name ++ endPad)) = .end tag.name := by
        unfold classifyTag
        rw [classify_end htag.name hpad]
      have hchildren := rawEvents_nodes ns [] ('/' :: (tag.name ++ endPad)) us hns
        (fun h => absurd rfl h)
      have htokens : (Node.elem tag ns endPad).tokens ++ us
          = .markup tag.content :: (nodesTokens ns
            ++ .markup ('/' :: (tag.name ++ endPad)) :: us) := by
        simp [Node.tokens]
      rw [htokens]
      show rawText text ++ classifyTag tag.content :: rawEvents [] _ = _
      rw [hchildren, htag.classifyTag_start, hend]
      simp [Node.tagEvents, rawText]
  | .empty tag, text, us, h, _ => by
      have htag : tag.Legal dtd := h
      show rawText text ++ classifyTag (tag.content ++ ['/']) :: _ = _
      rw [htag.classifyTag_empty]
      rfl
  | .text s, _, _, _, hs => by cases hs
  | .cdata s, text, us, _, _ => by
      show rawText text ++ classifyTag _ :: _ = _
      unfold classifyTag
      rw [classify_cdata]
      rfl
  | .comment _, _, _, _, _ => rfl
  | .pi _, _, _, _, _ => rfl
termination_by structural n => n

/-- The events of legal content, up to a markup. -/
theorem rawEvents_nodes {dtd : Bool} :
    ∀ (ns : List Node) (text c : List Char) (us : List Token),
      nodesLegal dtd ns →
      (text ≠ [] → ∀ n, ns.head? = some n → n.isText = false) →
      rawEvents text (nodesTokens ns ++ .markup c :: us)
        = rawText text ++ (nodesTagEvents ns
          ++ classifyTag c :: rawEvents [] us)
  | [], _, _, _, _, _ => rfl
  | n :: ns, text, c, us, h, htext => by
      obtain ⟨hn, hns, hnext⟩ := h
      have htokens : nodesTokens (n :: ns) ++ .markup c :: us
          = n.tokens ++ (nodesTokens ns ++ .markup c :: us) := by
        simp [nodesTokens]
      rw [htokens]
      by_cases hisText : n.isText = true
      · have htextNil : text = [] := by
          by_contra hne
          rw [htext hne n rfl] at hisText
          cases hisText
        subst htextNil
        cases n with
        | text s =>
            have hs : s ≠ [] := hn.1
            show rawEvents s (nodesTokens ns ++ .markup c :: us) = _
            rw [rawEvents_nodes ns s c us hns fun _ m hm => hnext rfl m hm]
            simp [nodesTagEvents, Node.tagEvents, rawText, hs]
        | elem tag ns endPad => cases hisText
        | empty tag => cases hisText
        | cdata s => cases hisText
        | comment s => cases hisText
        | pi s => cases hisText
      · have hnot := (Bool.not_eq_true _).mp hisText
        rw [rawEvents_node n text _ hn hnot,
          rawEvents_nodes ns [] c us hns fun h => absurd rfl h]
        simp [nodesTagEvents, rawText]
termination_by structural ns => ns

end

-- ============================================================== documents

/-- Nothing outside the root is an element. -/
theorem rawEvents_outside {ts : List Token}
    (h : ∀ c, .markup c ∈ ts → (classifyTag c).isOutside = true)
    (text : List Char) : ∀ e ∈ rawEvents text ts, e.isOutside = true := by
  have hraw : ∀ s : List Char, ∀ e ∈ rawText s, e.isOutside = true := by
    intro s e he
    unfold rawText at he
    split at he
    · cases he
    · rw [List.mem_singleton.mp he]
      rfl
  induction ts generalizing text with
  | nil => exact hraw text
  | cons t ts ih =>
      have hts := ih fun c hc => h c (List.mem_cons_of_mem _ hc)
      cases t with
      | text s => exact hts _
      | markup c =>
          intro e he
          rcases List.mem_append.mp he with he | he
          · exact hraw text e he
          · rcases List.mem_cons.mp he with rfl | he
            · exact h c List.mem_cons_self
            · exact hts [] e he

theorem misc_outside {ns : List Node} (h : ∀ n ∈ ns, n.Misc) :
    ∀ c, .markup c ∈ nodesTokens ns → (classifyTag c).isOutside = true := by
  induction ns with
  | nil => exact fun c hc => by cases hc
  | cons n ns ih =>
      obtain ⟨hn, hns⟩ := List.forall_mem_cons.mp h
      intro c hc
      rcases List.mem_append.mp hc with hc | hc
      · cases n with
        | comment s => cases List.mem_singleton.mp hc; rfl
        | pi s => cases List.mem_singleton.mp hc; rfl
        | text s => cases List.mem_singleton.mp hc
        | elem tag ns endPad => cases hn
        | empty tag => cases hn
        | cdata s => cases hn
      · exact ih hns c hc

theorem Document.prolog_outside {d : Document} (h : d.Legal) :
    ∀ c, .markup c ∈ d.prologTokens → (classifyTag c).isOutside = true := by
  intro c hc
  rcases List.mem_append.mp hc with hc | hc
  · cases hdecl : d.decl with
    | none => rw [hdecl] at hc; cases hc
    | some t => rw [hdecl] at hc; cases List.mem_singleton.mp hc; rfl
  · rcases List.mem_append.mp hc with hc | hc
    · exact misc_outside h.misc c hc
    · rcases List.mem_append.mp hc with hc | hc
      · cases hdoc : d.doctype with
        | none => rw [hdoc] at hc; cases hc
        | some s => rw [hdoc] at hc; cases List.mem_singleton.mp hc; rfl
      · exact misc_outside h.misc' c hc

/-- The reader that reports what the lexer sees reports every legal
document. -/
theorem lexTagReader_reads {d : Document} (h : d.Legal) :
    lexTagReader.Reads d where
  unescape hs := hs
  events := by
    have hevents : lexTagReader.events d.render
        = (rawEvents [] d.tokens).map .ok := by
      show (_ ++ rawText (lex d.render).text).map Except.ok ++ _ = _
      unfold Document.render
      rw [lex_render h.lexical]
      exact (List.append_nil _).trans
        (congrArg _ (lexTokens_rawEvents [] d.tokens))
    obtain ⟨c, us, hroot⟩ : ∃ c us, d.root.tokens ++ nodesTokens d.epilog
        = .markup c :: us := by
      have hisElem := h.isElem
      cases hnode : d.root with
      | elem tag ns endPad => exact ⟨_, _, rfl⟩
      | empty tag => exact ⟨_, _, rfl⟩
      | text s => rw [hnode] at hisElem; cases hisElem
      | cdata s => rw [hnode] at hisElem; cases hisElem
      | comment s => rw [hnode] at hisElem; cases hisElem
      | pi s => rw [hnode] at hisElem; cases hisElem
    refine ⟨rawEvents [] d.prologTokens, rawEvents [] (nodesTokens d.epilog), ?_,
      ?_⟩
    · intro e he
      rcases List.mem_append.mp he with he | he
      · exact rawEvents_outside (Document.prolog_outside h) [] e he
      · exact rawEvents_outside (misc_outside h.epilog) [] e he
    · rw [hevents]
      unfold Document.tokens
      rw [hroot, rawEvents_markup, ← hroot,
        rawEvents_node d.root [] _ h.root (isText_of_isElem h.isElem)]
      rfl

end Xml
