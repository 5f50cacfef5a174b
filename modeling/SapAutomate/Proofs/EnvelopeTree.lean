/-
The tree of an envelope, whether its names are legal or not.

`paramsNodes` follows the writer: its tokens render to what
`write_params` writes (`render_paramsNodes`), they are lexed as written
for every safe key (`paramsNodes_lexical`), and they are legal content
when the keys written are names (`paramsNodes_legal`). The texts in it
read as the scalars they were written for (`writeScalar_legal`).
-/
import SapAutomate.Lib.Xml.Reading
import SapAutomate.Soap.Envelope

namespace SapAutomate.Soap

open Json Rfc Xml

-- ============================================================== the tree

/-- An element without attributes. -/
def element (name : List Char) (children : List Node) : Node :=
  .elem ⟨name, [], []⟩ children []

/-- The content of an element that holds a text. -/
def textNodes (s : List Char) : List Node :=
  if s = [] then [] else [.text s]

mutual

/-- The element written for a field, if one is. -/
def valueNodes (tag : List Char) : Value → List Node
  | .null => []
  | .bool b => [element tag (textNodes (writeScalar (.bool b)))]
  | .number n => [element tag (textNodes (writeScalar (.number n)))]
  | .string s => [element tag (textNodes (writeScalar (.string s)))]
  | .array items => [element tag (itemNodes items)]
  | .object m => [element tag (paramsNodes m)]
termination_by structural v => v

def itemNodes : List Value → List Node
  | [] => []
  | item :: items =>
      element "item".toList (match item with
        | .object m => paramsNodes m
        | scalar => textNodes (writeScalar scalar)) :: itemNodes items
termination_by structural items => items

def paramsNodes : List (String × Value) → List Node
  | [] => []
  | (k, v) :: m => valueNodes k.toList v ++ paramsNodes m
termination_by structural m => m

end

/-- An attribute of the envelope element. -/
def xmlnsAttr (name value : String) : Attr :=
  { pre := [' ']
    name := name.toList
    eqPre := []
    eqPost := []
    quote := '"'
    value := value.toList }

/-- The tag of the envelope element. -/
def envelopeTag : Tag :=
  { name := "soap:Envelope".toList
    attrs := [xmlnsAttr "xmlns:soap" "http://schemas.xmlsoap.org/soap/envelope/",
      xmlnsAttr "xmlns:rfc" rfcNamespace]
    pad := [] }

/-- The XML declaration. -/
def envelopeDecl : Tag :=
  { name := "xml".toList
    attrs := [xmlnsAttr "version" "1.0", xmlnsAttr "encoding" "UTF-8"]
    pad := [] }

/-- The name of the function's element. -/
def callName (function : String) : List Char :=
  "rfc:".toList ++ function.toList

/-- The envelope of a call. -/
def envelopeDocument (function : String) (params : Map) : Document :=
  { decl := some envelopeDecl
    misc := []
    doctype := none
    misc' := []
    root := .elem envelopeTag [element "soap:Body".toList
      [element (callName function) (paramsNodes params)]] []
    epilog := [] }

-- ============================================================= rendering

theorem render_element (name : List Char) (children : List Node) :
    Xml.render (element name children).tokens
      = openTag name ++ (Xml.render (nodesTokens children) ++ closeTag name) := by
  unfold element Node.tokens
  rw [render_cons, render_append]
  simp [Token.render, Tag.content, openTag, closeTag]

theorem nodesTokens_append (ns ms : List Node) :
    nodesTokens (ns ++ ms) = nodesTokens ns ++ nodesTokens ms := by
  induction ns with
  | nil => rfl
  | cons n ns ih =>
      rw [List.cons_append, nodesTokens, nodesTokens, ih, List.append_assoc]

theorem render_nodes_cons (n : Node) (ns : List Node) :
    Xml.render (nodesTokens (n :: ns))
      = Xml.render n.tokens ++ Xml.render (nodesTokens ns) := by
  rw [nodesTokens, Xml.render_append]

theorem nodesTokens_singleton (n : Node) : nodesTokens [n] = n.tokens := by
  rw [nodesTokens, nodesTokens, List.append_nil]

theorem render_singleton (n : Node) :
    Xml.render (nodesTokens [n]) = Xml.render n.tokens := by
  rw [nodesTokens_singleton]

theorem render_textNodes (s : List Char) :
    Xml.render (nodesTokens (textNodes s)) = s := by
  unfold textNodes
  by_cases hs : s = []
  · rw [if_pos hs, hs]
    rfl
  · rw [if_neg hs, render_singleton]
    exact List.append_nil s

mutual

/-- The tree renders to what `write_value` writes. -/
theorem render_valueNodes (tag : List Char) :
    ∀ v : Value, Xml.render (nodesTokens (valueNodes tag v)) = writeValue tag v
  | .null => rfl
  | .bool b => by
      unfold valueNodes writeValue
      rw [render_singleton, render_element, render_textNodes]
      rfl
  | .number n => by
      unfold valueNodes writeValue
      rw [render_singleton, render_element, render_textNodes]
      rfl
  | .string s => by
      unfold valueNodes writeValue
      rw [render_singleton, render_element, render_textNodes]
      rfl
  | .array items => by
      unfold valueNodes writeValue
      rw [render_singleton, render_element, render_itemNodes items]
  | .object m => by
      unfold valueNodes writeValue
      rw [render_singleton, render_element, render_paramsNodes m]
termination_by structural v => v

theorem render_itemNodes :
    ∀ items : List Value, Xml.render (nodesTokens (itemNodes items))
      = writeItems items
  | [] => rfl
  | item :: items => by
      unfold itemNodes writeItems
      rw [render_nodes_cons, render_element, render_itemNodes items]
      cases item with
      | object m =>
          show openTag _ ++ (Xml.render (nodesTokens (paramsNodes m)) ++ _) ++ _ = _
          rw [render_paramsNodes m, List.append_assoc, List.append_assoc]
      | null => simp only [render_textNodes, List.append_assoc]
      | bool b => simp only [render_textNodes, List.append_assoc]
      | number n => simp only [render_textNodes, List.append_assoc]
      | string s => simp only [render_textNodes, List.append_assoc]
      | array a => simp only [render_textNodes, List.append_assoc]
termination_by structural items => items

theorem render_paramsNodes :
    ∀ m : List (String × Value), Xml.render (nodesTokens (paramsNodes m))
      = writeParams m
  | [] => rfl
  | (k, v) :: m => by
      unfold paramsNodes writeParams
      rw [nodesTokens_append, Xml.render_append, render_valueNodes k.toList v,
        render_paramsNodes m]
termination_by structural m => m

end

/-- The content of the envelope element, with the brackets. -/
theorem envelopeTag_render :
    '<' :: (envelopeTag.content ++ ['>'])
      = "<soap:Envelope xmlns:soap=\"http://schemas.xmlsoap.org/soap/envelope/\" xmlns:rfc=\"".toList
        ++ (rfcNamespace.toList ++ "\">".toList) := by
  decide

/-- The declaration, with the brackets. -/
theorem envelopeDecl_render :
    Xml.render (Document.declTokens (some envelopeDecl))
      = "<?xml version=\"1.0\" encoding=\"UTF-8\"?>".toList := by
  decide

/-- A node with any tag. -/
theorem render_elem (tag : Tag) (children : List Node) :
    Xml.render (Node.elem tag children []).tokens
      = '<' :: (tag.content ++ ['>']) ++ (Xml.render (nodesTokens children)
        ++ closeTag tag.name) := by
  unfold Node.tokens closeTag
  rw [render_cons, Xml.render_append, render_cons, render_nil]
  simp only [Token.render, List.append_nil, List.cons_append]

/-- The document renders to the envelope. -/
theorem render_envelopeDocument (function : String) (params : Map) :
    (envelopeDocument function params).render
      = buildEnvelope function (writeParams params) := by
  have hroot : Xml.render (envelopeDocument function params).root.tokens
      = '<' :: (envelopeTag.content ++ ['>']) ++ (openTag "soap:Body".toList
        ++ (openTag (callName function) ++ (writeParams params
        ++ closeTag (callName function)) ++ closeTag "soap:Body".toList)
        ++ closeTag envelopeTag.name) := by
    unfold envelopeDocument
    rw [render_elem, render_singleton, render_element, render_singleton,
      render_element, render_paramsNodes]
  have hpro : (envelopeDocument function params).prologTokens
      = Document.declTokens (some envelopeDecl) := rfl
  have hepi : nodesTokens (envelopeDocument function params).epilog = [] := rfl
  unfold Document.render Document.tokens
  rw [Xml.render_append, Xml.render_append, hpro, envelopeDecl_render, hroot,
    envelopeTag_render, hepi, render_nil, List.append_nil]
  unfold buildEnvelope callName envelopeTag
  simp only [List.append_assoc]

-- ============================================ characters of the envelope

mutual

/-- Every string value, at any depth, consists of XML characters. -/
def StringsXml : Value → Prop
  | .string s => XmlChars s.toList
  | .array items => itemsXml items
  | .object m => fieldsXml m
  | _ => True
termination_by structural v => v

def itemsXml : List Value → Prop
  | [] => True
  | v :: vs => StringsXml v ∧ itemsXml vs
termination_by structural vs => vs

def fieldsXml : List (String × Value) → Prop
  | [] => True
  | (_, v) :: m => StringsXml v ∧ fieldsXml m
termination_by structural m => m

end

mutual

def decStringsXml : (v : Value) → Decidable (StringsXml v)
  | .null => .isTrue trivial
  | .bool _ => .isTrue trivial
  | .number _ => .isTrue trivial
  | .string s => inferInstanceAs (Decidable (XmlChars s.toList))
  | .array items => decItemsXml items
  | .object m => decFieldsXml m
termination_by structural v => v

def decItemsXml : (vs : List Value) → Decidable (itemsXml vs)
  | [] => .isTrue trivial
  | v :: vs =>
      have := decStringsXml v
      have := decItemsXml vs
      inferInstanceAs (Decidable (StringsXml v ∧ itemsXml vs))
termination_by structural vs => vs

def decFieldsXml : (m : List (String × Value)) → Decidable (fieldsXml m)
  | [] => .isTrue trivial
  | (_, v) :: m =>
      have := decStringsXml v
      have := decFieldsXml m
      inferInstanceAs (Decidable (StringsXml v ∧ fieldsXml m))
termination_by structural m => m

end

instance : DecidablePred StringsXml := decStringsXml
instance : DecidablePred fieldsXml := decFieldsXml

/-- A safe character is plain in a tag, no white space and no `!`. -/
theorem safeChar_plain {c : Char} (h : isSafeChar c = true) :
    PlainTagChar c ∧ isSpace c = false ∧ c ≠ '!' ∧ c ≠ '?' := by
  have hplain : PlainTagChar c :=
    ⟨ne_of_class h rfl, ne_of_class h rfl, ne_of_class h rfl⟩
  exact ⟨hplain, isSpace_of_class h rfl, ne_of_class h rfl, ne_of_class h rfl⟩

/-- Of the safe characters, only the slash is no name character. -/
theorem nameChar_of_safe {c : Char} (h : isSafeChar c = true) :
    isNameChar c = true ↔ c ≠ '/' := by
  constructor
  · intro hn
    exact ne_of_class hn rfl
  · intro hc
    unfold isSafeChar at h
    simp only [Bool.or_eq_true, beq_iff_eq] at h
    rcases h with (h | rfl) | rfl
    · exact isNameChar_of_alphanum h
    · decide
    · exact absurd rfl hc

/-- Of the safe characters, the slash and the digits start no name. -/
theorem nameStart_of_safe {c : Char} (h : isSafeChar c = true) :
    isNameStart c = true ↔ c ≠ '/' ∧ c.isDigit = false := by
  unfold isSafeChar at h
  simp only [Bool.or_eq_true, beq_iff_eq] at h
  rcases h with (h | rfl) | rfl
  · have hslash : c ≠ '/' := ne_of_class h rfl
    rw [isNameStart_of_alphanum h]
    exact ⟨fun hd => ⟨hslash, hd⟩, And.right⟩
  · decide
  · decide

/-- The key has no slash and does not start with a digit. -/
def KeyIsName (k : String) : Prop :=
  '/' ∉ k.toList ∧ ∀ c, k.toList.head? = some c → c.isDigit = false

/-- Which safe names are names. -/
theorem isName_of_safe {k : String} (h : isSafeName k = true) :
    isName k.toList = true ↔ KeyIsName k := by
  obtain ⟨hne, hsafe⟩ := isSafeName_chars h
  unfold KeyIsName
  cases hk : k.toList with
  | nil => exact absurd hk hne
  | cons c cs =>
      rw [hk] at hsafe
      have hc := hsafe c (List.mem_cons_self ..)
      unfold isName
      rw [Bool.and_eq_true, nameStart_of_safe hc, List.all_eq_true]
      constructor
      · intro hname
        obtain ⟨⟨hslash, hdigit⟩, hall⟩ := hname
        refine ⟨fun hmem => ?_, fun d hd => ?_⟩
        · rcases List.mem_cons.mp hmem with hd | hd
          · exact hslash hd.symm
          · exact ne_of_class (hall _ hd) (d := '/') rfl rfl
        · cases hd
          exact hdigit
      · intro hkey
        obtain ⟨hslash, hdigit⟩ := hkey
        refine ⟨⟨?_, hdigit c rfl⟩, fun d hd => ?_⟩
        · intro heq
          subst heq
          exact hslash (List.mem_cons_self ..)
        · refine (nameChar_of_safe (hsafe d (List.mem_cons_of_mem _ hd))).mpr ?_
          intro heq
          subst heq
          exact hslash (List.mem_cons_of_mem _ hd)

/-- Behind the prefix a leading digit is no obstacle. -/
theorem isName_callName {f : String} (h : isSafeName f = true) :
    isName (callName f) = true ↔ '/' ∉ f.toList := by
  obtain ⟨-, hsafe⟩ := isSafeName_chars h
  have hcall : callName f = 'r' :: 'f' :: 'c' :: ':' :: f.toList := rfl
  rw [hcall]
  unfold isName
  rw [Bool.and_eq_true, List.all_eq_true]
  constructor
  · intro hname hmem
    obtain ⟨-, hall⟩ := hname
    exact ne_of_class (hall '/' (by simp [hmem])) (d := '/') rfl rfl
  · intro hslash
    refine ⟨by decide, fun d hd => ?_⟩
    rcases List.mem_cons.mp hd with rfl | hd
    · decide
    · rcases List.mem_cons.mp hd with rfl | hd
      · decide
      · rcases List.mem_cons.mp hd with rfl | hd
        · decide
        · refine (nameChar_of_safe (hsafe d hd)).mpr ?_
          intro heq
          subst heq
          exact hslash hd

-- ================================================================== texts

/-- What `xml_escape` writes for a character: a reference to it, or
itself where it is none of the five. -/
theorem escapeChar_cases (c : Char) :
    (∃ r, ';' ∉ r ∧ resolve r = some [c] ∧ escapeChar c = '&' :: (r ++ [';'])
      ∧ ∀ d ∈ escapeChar c, d ≠ '<' ∧ d ≠ '>' ∧ isXmlChar d = true)
    ∨ (c ≠ '&' ∧ c ≠ '<' ∧ c ≠ '>' ∧ escapeChar c = [c]) := by
  by_cases hspecial : c = '&' ∨ c = '<' ∨ c = '>' ∨ c = '"' ∨ c = '\''
  · left
    have href : ∀ r : List Char,
        r.all (fun d => d != '<' && d != '>' && isXmlChar d) = true →
        ∀ d ∈ r, d ≠ '<' ∧ d ≠ '>' ∧ isXmlChar d = true := by
      intro r hr d hd
      have h := List.all_eq_true.mp hr d hd
      simp only [Bool.and_eq_true, bne_iff_ne, ne_eq] at h
      exact ⟨h.1.1, h.1.2, h.2⟩
    rcases hspecial with rfl | rfl | rfl | rfl | rfl
    · exact ⟨"amp".toList, by decide, rfl, rfl, href _ (by decide)⟩
    · exact ⟨"lt".toList, by decide, rfl, rfl, href _ (by decide)⟩
    · exact ⟨"gt".toList, by decide, rfl, rfl, href _ (by decide)⟩
    · exact ⟨"quot".toList, by decide, rfl, rfl, href _ (by decide)⟩
    · exact ⟨"apos".toList, by decide, rfl, rfl, href _ (by decide)⟩
  · right
    simp only [not_or] at hspecial
    obtain ⟨h1, h2, h3, h4, h5⟩ := hspecial
    refine ⟨h1, h2, h3, ?_⟩
    unfold escapeChar
    rw [if_neg h1, if_neg h2, if_neg h3, if_neg h4, if_neg h5]

/-- `xml_escape` is undone by reading its references. -/
theorem unescape_xmlEscape (s : List Char) :
    unescape (xmlEscape s) = some s := by
  induction s with
  | nil => rfl
  | cons c s ih =>
      unfold xmlEscape at ih ⊢
      rw [List.flatMap_cons]
      rcases escapeChar_cases c with ⟨r, hsemi, hr, heq, -⟩ | ⟨hamp, -, -, heq⟩
      · rw [heq, List.cons_append, List.append_assoc, List.singleton_append,
          unescape_ref r hsemi hr, ih]
        rfl
      · rw [heq, List.singleton_append, unescape_cons hamp, ih]
        rfl

/-- The characters of an escaped text: of the five, only the ampersand
is left. -/
theorem mem_xmlEscape {s : List Char} {d : Char} (h : d ∈ xmlEscape s) :
    d ≠ '<' ∧ d ≠ '>' ∧ (d ∈ s ∨ isXmlChar d = true) := by
  obtain ⟨c, hc, hd⟩ := List.mem_flatMap.mp h
  rcases escapeChar_cases c with ⟨r, -, -, -, hall⟩ | ⟨-, hlt, hgt, heq⟩
  · obtain ⟨hlt, hgt, hxml⟩ := hall d hd
    exact ⟨hlt, hgt, .inr hxml⟩
  · rw [heq, List.mem_singleton] at hd
    rw [hd]
    exact ⟨hlt, hgt, .inl hc⟩

/-- The characters of a number are ASCII. -/
theorem numberChar_range {c : Char} (h : isNumberChar c = true) :
    43 ≤ c.toNat ∧ c.toNat ≤ 57 ∨ c.toNat = 69 ∨ c.toNat = 101 := by
  unfold isNumberChar at h
  simp only [Bool.or_eq_true, beq_iff_eq] at h
  rcases h with ((((h | rfl) | rfl) | rfl) | rfl) | rfl
  · have hr := digit_range h
    omega
  all_goals decide

/-- None of them is special. -/
theorem numberChar_plain {c : Char} (h : isNumberChar c = true) :
    c ≠ '<' ∧ c ≠ '>' ∧ c ≠ '&' ∧ isXmlChar c = true := by
  have hrange := numberChar_range h
  refine ⟨ne_of_class h rfl, ne_of_class h rfl, ne_of_class h rfl, ?_⟩
  unfold isXmlChar inRanges
  simp only [List.any_cons, List.any_nil, Bool.or_eq_true,
    Bool.and_eq_true, decide_eq_true_eq]
  omega

/-- The text written for a scalar, and what it says: nothing special
in it, and its references read as the scalar's text. -/
structure TextLegal (s t : List Char) : Prop where
  noMarkup : '<' ∉ s
  noEnd : '>' ∉ s
  chars : XmlChars s
  reads : unescape s = some t

/-- The text of a scalar before escaping. -/
def scalarText : Value → List Char
  | .string s => s.toList
  | .number n => n.text.toList
  | .bool b => if b then ['X'] else []
  | _ => []

/-- What `write_scalar` writes says the text of the scalar. -/
theorem writeScalar_legal {v : Value} (h : StringsXml v) :
    TextLegal (writeScalar v) (scalarText v) := by
  have hnil : TextLegal [] [] :=
    ⟨List.not_mem_nil, List.not_mem_nil, fun _ hc => (nomatch hc), rfl⟩
  cases v with
  | string s =>
      have hs : XmlChars s.toList := h
      refine ⟨fun hm => (mem_xmlEscape hm).1 rfl,
        fun hm => (mem_xmlEscape hm).2.1 rfl, fun c hc => ?_,
        unescape_xmlEscape _⟩
      exact (mem_xmlEscape hc).2.2.elim (hs c) id
  | number n =>
      have hn : ∀ c ∈ n.text.toList, isNumberChar c = true :=
        List.all_eq_true.mp n.legal
      refine ⟨fun hm => (numberChar_plain (hn _ hm)).1 rfl,
        fun hm => (numberChar_plain (hn _ hm)).2.1 rfl,
        fun c hc => (numberChar_plain (hn c hc)).2.2.2,
        unescapeGo_plain fun hm => (numberChar_plain (hn _ hm)).2.2.1 rfl⟩
  | bool b =>
      cases b with
      | true => exact ⟨by decide, by decide, by decide, rfl⟩
      | false => exact hnil
  | null => exact hnil
  | array a => exact hnil
  | object m => exact hnil

/-- Such a text is legal content. -/
theorem TextLegal.nodes {s t : List Char} (h : TextLegal s t) :
    nodesLegal false (textNodes s) := by
  unfold textNodes
  by_cases hs : s = []
  · rw [if_pos hs]
    trivial
  · rw [if_neg hs]
    refine ⟨⟨hs, h.noMarkup, fun hinf => ?_, h.chars, ?_⟩, trivial,
      fun _ m hm => nomatch hm⟩
    · exact h.noEnd (hinf.subset (by decide))
    · unfold RefsLegal
      have hread : unescapeGo resolve s none = some t := h.reads
      simp only [Bool.false_and, Bool.false_eq_true, if_false]
      rw [hread]
      rfl

theorem showsText_textNodes {s t : List Char} (h : unescape s = some t) :
    ShowsText t (textNodes s) := by
  unfold textNodes
  by_cases hs : s = []
  · rw [if_pos hs]
    rw [hs] at h
    cases h
    exact .empty rfl
  · rw [if_neg hs]
    exact .text s h

-- ============================================================ written keys

mutual

/-- The keys an element is written for, at any depth. Nothing is written
for a null field, nor inside an array that is itself an item. -/
def writtenKeys : List (String × Value) → List String
  | [] => []
  | (k, v) :: m => valueKeys k v ++ writtenKeys m
termination_by structural m => m

/-- The keys written for a field. -/
def valueKeys (k : String) : Value → List String
  | .null => []
  | .bool _ => [k]
  | .number _ => [k]
  | .string _ => [k]
  | .array items => k :: itemKeys items
  | .object m => k :: writtenKeys m
termination_by structural v => v

def itemKeys : List Value → List String
  | [] => []
  | item :: items =>
      (match item with
        | .object m => writtenKeys m
        | _ => []) ++ itemKeys items
termination_by structural items => items

end

/-- An element with safe characters for a name is read back as
written. -/
theorem element_lexical {name : List Char} {children : List Node}
    (hne : name ≠ []) (hname : ∀ c ∈ name, PlainTagChar c ∧ c ≠ '!' ∧ c ≠ '?')
    (hch : ∀ t ∈ nodesTokens children, t.Lexical) :
    ∀ t ∈ (element name children).tokens, t.Lexical := by
  intro t ht
  rcases List.mem_cons.mp ht with rfl | ht
  · obtain ⟨c, cs, hcons⟩ := List.exists_cons_of_ne_nil hne
    have hcontent : Tag.content ⟨name, [], []⟩ = name := List.append_nil _
    have htag := plain_tag fun c hc => (hname c hc).1
    obtain ⟨-, hbang, hquest⟩ := hname c (by rw [hcons]; exact List.mem_cons_self ..)
    show Complete (Tag.content ⟨name, [], []⟩)
    rw [hcontent]
    rw [hcons] at htag ⊢
    exact complete_tag hbang hquest htag
  · rcases List.mem_append.mp ht with ht | ht
    · exact hch t ht
    · rw [List.mem_singleton.mp ht]
      refine complete_end fun c hc => ?_
      rw [List.append_nil] at hc
      exact (hname c hc).1

theorem safeName_plain {k : String} (h : isSafeName k = true) :
    ∀ c ∈ k.toList, PlainTagChar c ∧ c ≠ '!' ∧ c ≠ '?' := by
  intro c hc
  obtain ⟨hplain, -, hbang, hquest⟩ :=
    safeChar_plain ((isSafeName_chars h).2 c hc)
  exact ⟨hplain, hbang, hquest⟩

theorem textNodes_lexical {s : List Char} (h : '<' ∉ s) :
    ∀ t ∈ nodesTokens (textNodes s), t.Lexical := by
  unfold textNodes
  by_cases hs : s = []
  · rw [if_pos hs]
    intro t ht
    cases ht
  · rw [if_neg hs]
    intro t ht
    rw [List.mem_singleton.mp ht]
    exact h

theorem item_safe : isSafeName "item" = true := by decide

/-- An element with a safe name is read back as written. -/
theorem safeElement_lexical {k : String} {children : List Node}
    (hk : isSafeName k = true)
    (hch : ∀ t ∈ nodesTokens children, t.Lexical) :
    ∀ t ∈ nodesTokens [element k.toList children], t.Lexical := by
  rw [nodesTokens_singleton]
  exact element_lexical (isSafeName_chars hk).1 (safeName_plain hk) hch

mutual

/-- For safe keys the tree is read back as written. -/
theorem valueNodes_lexical {k : String} (hk : isSafeName k = true) :
    ∀ v : Value, validateKeys v = .ok () → StringsXml v →
      ∀ t ∈ nodesTokens (valueNodes k.toList v), t.Lexical
  | .null, _, _ => fun _ ht => nomatch ht
  | .bool _, _, hx => safeElement_lexical hk
      (textNodes_lexical (writeScalar_legal hx).noMarkup)
  | .number _, _, hx => safeElement_lexical hk
      (textNodes_lexical (writeScalar_legal hx).noMarkup)
  | .string _, _, hx => safeElement_lexical hk
      (textNodes_lexical (writeScalar_legal hx).noMarkup)
  | .array items, hv, hx =>
      safeElement_lexical hk (itemNodes_lexical items hv hx)
  | .object m, hv, hx =>
      safeElement_lexical hk (paramsNodes_lexical m hv hx)
termination_by structural v => v

theorem itemNodes_lexical :
    ∀ items : List Value, validateItems items = .ok () → itemsXml items →
      ∀ t ∈ nodesTokens (itemNodes items), t.Lexical
  | [], _, _ => fun _ ht => nomatch ht
  | item :: items, hv, hx => by
      obtain ⟨hvi, hvs⟩ := validateItems_cons hv
      have htext := textNodes_lexical (writeScalar_legal hx.1).noMarkup
      intro t ht
      unfold itemNodes nodesTokens at ht
      rcases List.mem_append.mp ht with ht | ht
      · refine safeElement_lexical item_safe ?_ t
          (by rw [nodesTokens_singleton]; exact ht)
        cases item with
        | object m => exact paramsNodes_lexical m hvi hx.1
        | null => exact htext
        | bool b => exact htext
        | number n => exact htext
        | string s => exact htext
        | array a => exact htext
      · exact itemNodes_lexical items hvs hx.2 t ht
termination_by structural items => items

theorem paramsNodes_lexical :
    ∀ m : List (String × Value), validateFields m = .ok () → fieldsXml m →
      ∀ t ∈ nodesTokens (paramsNodes m), t.Lexical
  | [], _, _ => fun _ ht => nomatch ht
  | (k, v) :: m, hv, hx => by
      obtain ⟨hk, hvv, hvm⟩ := validateFields_cons hv
      intro t ht
      unfold paramsNodes at ht
      rw [nodesTokens_append] at ht
      rcases List.mem_append.mp ht with ht | ht
      · exact valueNodes_lexical hk v hvv hx.1 t ht
      · exact paramsNodes_lexical m hvm hx.2 t ht
termination_by structural m => m

end

-- =============================================================== legality

theorem tag_legal {dtd : Bool} {name : List Char} (h : isName name = true) :
    Tag.Legal dtd ⟨name, [], []⟩ :=
  ⟨h, fun _ ha => (nomatch ha), List.nodup_nil, fun _ hc => (nomatch hc)⟩

theorem element_legal {name : List Char} {children : List Node}
    (hname : isName name = true) (hch : nodesLegal false children) :
    (element name children).Legal false :=
  ⟨tag_legal hname, hch, fun _ hc => (nomatch hc)⟩

/-- Elements in front of legal content. -/
theorem nodesLegal_element {name : List Char} {children ns : List Node}
    (h : (element name children).Legal false) (hns : nodesLegal false ns) :
    nodesLegal false (element name children :: ns) :=
  ⟨h, hns, fun ht => (nomatch ht)⟩

mutual

/-- With names for keys the tree is legal content. -/
theorem valueNodes_legal {k : String} {ns : List Node}
    (hns : nodesLegal false ns) :
    ∀ v : Value, StringsXml v → (∀ k' ∈ valueKeys k v, isName k'.toList = true) →
      nodesLegal false (valueNodes k.toList v ++ ns)
  | .null, _, _ => hns
  | .bool _, hx, hk =>
      nodesLegal_element (element_legal (hk k (List.mem_cons_self ..))
        (writeScalar_legal hx).nodes) hns
  | .number _, hx, hk =>
      nodesLegal_element (element_legal (hk k (List.mem_cons_self ..))
        (writeScalar_legal hx).nodes) hns
  | .string _, hx, hk =>
      nodesLegal_element (element_legal (hk k (List.mem_cons_self ..))
        (writeScalar_legal hx).nodes) hns
  | .array items, hx, hk =>
      nodesLegal_element (element_legal (hk k (List.mem_cons_self ..))
        (itemNodes_legal items hx fun k' hk' =>
          hk k' (List.mem_cons_of_mem _ hk'))) hns
  | .object m, hx, hk =>
      nodesLegal_element (element_legal (hk k (List.mem_cons_self ..))
        (paramsNodes_legal m hx fun k' hk' =>
          hk k' (List.mem_cons_of_mem _ hk'))) hns
termination_by structural v => v

theorem itemNodes_legal :
    ∀ items : List Value, itemsXml items →
      (∀ k ∈ itemKeys items, isName k.toList = true) →
      nodesLegal false (itemNodes items)
  | [], _, _ => trivial
  | item :: items, hx, hk => by
      have htext := (writeScalar_legal hx.1).nodes
      unfold itemKeys at hk
      have hrest := itemNodes_legal items hx.2 fun k hk' =>
        hk k (List.mem_append_right _ hk')
      unfold itemNodes
      refine nodesLegal_element (element_legal (by decide) ?_) hrest
      cases item with
      | object m =>
          exact paramsNodes_legal m hx.1 fun k hk' =>
            hk k (List.mem_append_left _ hk')
      | null => exact htext
      | bool b => exact htext
      | number n => exact htext
      | string s => exact htext
      | array a => exact htext
termination_by structural items => items

theorem paramsNodes_legal :
    ∀ m : List (String × Value), fieldsXml m →
      (∀ k ∈ writtenKeys m, isName k.toList = true) →
      nodesLegal false (paramsNodes m)
  | [], _, _ => trivial
  | (_, v) :: m, hx, hk =>
      valueNodes_legal (paramsNodes_legal m hx.2 fun k' hk' =>
        hk k' (List.mem_append_right _ hk')) v hx.1 fun k' hk' =>
          hk k' (List.mem_append_left _ hk')
termination_by structural m => m

end

/-- An attribute of the envelope is legal. -/
theorem xmlnsAttr_legal {dtd : Bool} {name value : String}
    (hname : isName name.toList = true)
    (hvalue : value.toList.all (fun c => isXmlChar c && c != '<' && c != '&'
      && c != '"') = true) : (xmlnsAttr name value).Legal dtd := by
  have hv : ∀ c ∈ value.toList, isXmlChar c = true ∧ c ≠ '<' ∧ c ≠ '&' ∧ c ≠ '"' := by
    intro c hc
    have h := List.all_eq_true.mp hvalue c hc
    simp only [Bool.and_eq_true, bne_iff_ne, ne_eq] at h
    exact ⟨h.1.1.1, h.1.1.2, h.1.2, h.2⟩
  refine ⟨List.cons_ne_nil _ _, fun c hc => ?_, hname,
    fun _ hc => (nomatch hc), fun _ hc => (nomatch hc), .inl rfl,
    fun hm => (hv _ hm).2.2.2 rfl, fun hm => (hv _ hm).2.1 rfl,
    fun c hc => (hv c hc).1, ?_⟩
  · rw [List.mem_singleton.mp hc]
    rfl
  · show (unescapeGo _ value.toList none).isSome = true
    rw [unescapeGo_plain fun hm => (hv _ hm).2.2.1 rfl]
    rfl

theorem envelopeTag_legal : envelopeTag.Legal false := by
  refine ⟨by decide, fun a ha => ?_, by decide, fun _ hc => (nomatch hc)⟩
  rcases List.mem_cons.mp ha with rfl | ha
  · exact xmlnsAttr_legal (by decide) (by decide)
  · rw [List.mem_singleton.mp ha]
    exact xmlnsAttr_legal (by decide) (by decide)

theorem envelopeDecl_legal : DeclLegal envelopeDecl := by
  refine ⟨⟨by decide, fun a ha => ?_, by decide, fun _ hc => (nomatch hc)⟩,
    rfl, by decide, by simp [envelopeDecl, xmlnsAttr]⟩
  rcases List.mem_cons.mp ha with rfl | ha
  · exact xmlnsAttr_legal (by decide) (by decide)
  · rw [List.mem_singleton.mp ha]
    exact xmlnsAttr_legal (by decide) (by decide)

/-- With names for its function and keys, the envelope is a legal
document. -/
theorem envelopeDocument_legal {f : String} {params : Map}
    (hf : isName (callName f) = true) (hx : fieldsXml params)
    (hk : ∀ k ∈ writtenKeys params, isName k.toList = true) :
    (envelopeDocument f params).Legal := by
  have hbody : (element "soap:Body".toList [element (callName f)
      (paramsNodes params)]).Legal false := by
    refine element_legal (by decide) ?_
    exact nodesLegal_element (element_legal hf (paramsNodes_legal params hx hk))
      trivial
  exact
    { decl := fun t ht => by cases ht; exact envelopeDecl_legal
      misc := fun _ hn => (nomatch hn)
      doctype := fun _ hs => (nomatch hs)
      misc' := fun _ hn => (nomatch hn)
      root := ⟨envelopeTag_legal, nodesLegal_element hbody trivial,
        fun _ hc => (nomatch hc)⟩
      isElem := rfl
      epilog := fun _ hn => (nomatch hn) }

/-- With safe names it is read back as written. -/
theorem envelopeDocument_lexical {f : String} {params : Map}
    (hf : isSafeName f = true) (hv : validateFields params = .ok ())
    (hx : fieldsXml params) :
    ∀ t ∈ (envelopeDocument f params).tokens, t.Lexical := by
  have hcall : ∀ c ∈ callName f, PlainTagChar c ∧ c ≠ '!' ∧ c ≠ '?' := by
    intro c hc
    rcases List.mem_append.mp hc with hc | hc
    · have hplain : ∀ d ∈ "rfc:".toList, PlainTagChar d ∧ d ≠ '!' ∧ d ≠ '?' := by
        simp [PlainTagChar]
      exact hplain c hc
    · exact safeName_plain hf c hc
  have hbodyName : ∀ c ∈ "soap:Body".toList, PlainTagChar c ∧ c ≠ '!' ∧ c ≠ '?' := by
    simp [PlainTagChar]
  have hinner : ∀ t ∈ nodesTokens [element (callName f) (paramsNodes params)],
      t.Lexical := by
    rw [nodesTokens_singleton]
    exact element_lexical (List.cons_ne_nil _ _) hcall
      (paramsNodes_lexical params hv hx)
  have hbody : ∀ t ∈ nodesTokens [element "soap:Body".toList
      [element (callName f) (paramsNodes params)]], t.Lexical := by
    rw [nodesTokens_singleton]
    exact element_lexical (by decide) hbodyName hinner
  have hend : ∀ c ∈ "soap:Envelope".toList, PlainTagChar c := by
    simp [PlainTagChar]
  intro t ht
  rcases List.mem_append.mp ht with ht | ht
  · refine Document.declTokens_lexical (o := some envelopeDecl)
      (fun t ht => ?_) t ht
    cases ht
    exact envelopeDecl_legal
  · rcases List.mem_append.mp ht with ht | ht
    · rcases List.mem_cons.mp ht with rfl | ht
      · exact envelopeTag_legal.complete_start
      · rcases List.mem_append.mp ht with ht | ht
        · exact hbody t ht
        · rw [List.mem_singleton.mp ht]
          exact complete_end hend
    · cases ht

end SapAutomate.Soap
