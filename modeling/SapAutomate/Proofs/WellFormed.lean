/-
When the envelope of a validated call is well-formed XML that shows the
call: exactly when the function's name has no slash and every key that
is written has none and does not start with a digit.

`is_safe_name` admits both. The end tag of such a key is a markup no
well-formed document has (`node_endTag`), and a text is cut into
markups in one way only (`markups_eq_of_render_eq`), so the envelope is
then no document at all. The `rfc:` prefix makes up for a digit in
front of a function; nothing makes up for a slash.
-/
import SapAutomate.Proofs.EnvelopeTree

namespace SapAutomate.Soap

open Json Rfc Xml

-- ================================================== statement vocabulary

mutual

/-- The nodes are one element for each field that is not null, named by
its key, showing its value. -/
inductive ShowsFields : Map → List Node → Prop where
  | nil : ShowsFields [] []
  | null {k : String} {m : Map} {ns : List Node} (h : ShowsFields m ns) :
      ShowsFields ((k, .null) :: m) ns
  | field {k : String} {v : Value} {m : Map} {n : Node} {ns : List Node}
      (helem : n.isElem = true) (hname : n.name = k.toList)
      (hv : ShowsValue v n.children) (h : ShowsFields m ns) :
      ShowsFields ((k, v) :: m) (n :: ns)

/-- The nodes are the content of an element for the value. -/
inductive ShowsValue : Value → List Node → Prop where
  | bool {b : Bool} {ns : List Node} (h : ShowsText (scalarText (.bool b)) ns) :
      ShowsValue (.bool b) ns
  | number {n : Number} {ns : List Node} (h : ShowsText n.text.toList ns) :
      ShowsValue (.number n) ns
  | string {s : String} {ns : List Node} (h : ShowsText s.toList ns) :
      ShowsValue (.string s) ns
  | array {items : List Value} {ns : List Node} (h : ShowsItems items ns) :
      ShowsValue (.array items) ns
  | object {m : Map} {ns : List Node} (h : ShowsFields m ns) :
      ShowsValue (.object m) ns

/-- The nodes are one `item` element for each item. An item that is
null or an array has no content. -/
inductive ShowsItems : List Value → List Node → Prop where
  | nil : ShowsItems [] []
  | blank {v : Value} {items : List Value} {n : Node} {ns : List Node}
      (hv : v = .null ∨ ∃ a, v = .array a) (helem : n.isElem = true)
      (hname : n.name = "item".toList) (hch : n.children = [])
      (h : ShowsItems items ns) : ShowsItems (v :: items) (n :: ns)
  | item {v : Value} {items : List Value} {n : Node} {ns : List Node}
      (helem : n.isElem = true) (hname : n.name = "item".toList)
      (hv : ShowsValue v n.children) (h : ShowsItems items ns) :
      ShowsItems (v :: items) (n :: ns)

end

/-- The document is an envelope whose body has one child, the
function's element, and shows the parameters there and nothing else. -/
def ShowsCall (function : String) (params : Map) (d : Document) : Prop :=
  d.root.name = "soap:Envelope".toList
    ∧ ∃ body call, d.root.children = [body]
      ∧ body.name = "soap:Body".toList ∧ body.children = [call]
      ∧ call.isElem = true ∧ call.name = callName function
      ∧ ShowsFields params call.children

/-- The text is that of a well-formed document showing the call. -/
def WellFormedCall (function : String) (params : Map) (s : List Char) : Prop :=
  ∃ d : Document, d.Legal ∧ d.render = s ∧ ShowsCall function params d

-- ============================================================ what is shown

mutual

/-- The tree shows the value. -/
theorem showsValue_of :
    ∀ (v : Value), v ≠ .null → StringsXml v →
      ∃ ns, ShowsValue v ns ∧ ∀ tag, valueNodes tag v = [element tag ns]
  | .null, h, _ => absurd rfl h
  | .bool _, _, hx =>
      ⟨_, .bool (showsText_textNodes (writeScalar_legal hx).reads), fun _ => rfl⟩
  | .number _, _, hx =>
      ⟨_, .number (showsText_textNodes (writeScalar_legal hx).reads),
        fun _ => rfl⟩
  | .string _, _, hx =>
      ⟨_, .string (showsText_textNodes (writeScalar_legal hx).reads),
        fun _ => rfl⟩
  | .array items, _, hx => ⟨_, .array (showsItems_of items hx), fun _ => rfl⟩
  | .object m, _, hx => ⟨_, .object (showsFields_of m hx), fun _ => rfl⟩
termination_by structural v => v

theorem showsItems_of :
    ∀ items : List Value, itemsXml items → ShowsItems items (itemNodes items)
  | [], _ => .nil
  | item :: items, hx => by
      have hrest := showsItems_of items hx.2
      have hread := (writeScalar_legal hx.1).reads
      unfold itemNodes
      cases item with
      | null => exact .blank (.inl rfl) rfl rfl rfl hrest
      | array a => exact .blank (.inr ⟨a, rfl⟩) rfl rfl rfl hrest
      | bool b => exact .item rfl rfl (.bool (showsText_textNodes hread)) hrest
      | number n =>
          exact .item rfl rfl (.number (showsText_textNodes hread)) hrest
      | string s =>
          exact .item rfl rfl (.string (showsText_textNodes hread)) hrest
      | object m => exact .item rfl rfl (.object (showsFields_of m hx.1)) hrest
termination_by structural items => items

/-- The tree shows the fields. -/
theorem showsFields_of :
    ∀ m : List (String × Value), fieldsXml m → ShowsFields m (paramsNodes m)
  | [], _ => .nil
  | (k, v) :: m, hx => by
      have hrest := showsFields_of m hx.2
      have hval := fun hv => showsValue_of v hv hx.1
      unfold paramsNodes
      by_cases hv : v = .null
      · rw [hv]
        exact .null hrest
      · obtain ⟨ns, hshow, hnodes⟩ := hval hv
        rw [hnodes]
        exact .field rfl rfl hshow hrest
termination_by structural m => m

end

theorem envelopeDocument_shows {f : String} {params : Map}
    (hx : fieldsXml params) :
    ShowsCall f params (envelopeDocument f params) :=
  ⟨rfl, _, _, rfl, rfl, rfl, rfl, rfl, showsFields_of params hx⟩

-- ============================================================= only names

/-- An element's end tag is among its tokens. -/
theorem endTag_element (name : List Char) (children : List Node) :
    .markup ('/' :: name) ∈ nodesTokens [element name children] := by
  have hname : Token.markup ('/' :: name) = .markup ('/' :: (name ++ [])) := by
    rw [List.append_nil]
  rw [hname, nodesTokens, nodesTokens, List.append_nil]
  exact List.mem_cons_of_mem _
    (List.mem_append_right _ (List.mem_singleton.mpr rfl))

/-- What is among the content is among the element's tokens. -/
theorem mem_tokens_of_mem {name : List Char} {children : List Node} {t : Token}
    (h : t ∈ nodesTokens children) : t ∈ (element name children).tokens :=
  List.mem_cons_of_mem _ (List.mem_append_left _ h)

theorem mem_element_of_mem {name : List Char} {children : List Node}
    {t : Token} (h : t ∈ nodesTokens children) :
    t ∈ nodesTokens [element name children] := by
  rw [nodesTokens, nodesTokens, List.append_nil]
  exact mem_tokens_of_mem h

mutual

/-- The end tag of every key written is among the tokens. -/
theorem endTag_of_valueKey {k : String} :
    ∀ (v : Value), ∀ k' ∈ valueKeys k v,
      .markup ('/' :: k'.toList) ∈ nodesTokens (valueNodes k.toList v)
  | .null, _, hk => nomatch hk
  | .bool _, _, hk => by
      rw [List.mem_singleton.mp hk]
      exact endTag_element _ _
  | .number _, _, hk => by
      rw [List.mem_singleton.mp hk]
      exact endTag_element _ _
  | .string _, _, hk => by
      rw [List.mem_singleton.mp hk]
      exact endTag_element _ _
  | .array items, k', hk => by
      rcases List.mem_cons.mp hk with rfl | hk
      · exact endTag_element _ _
      · exact mem_element_of_mem (endTag_of_itemKey items k' hk)
  | .object m, k', hk => by
      rcases List.mem_cons.mp hk with rfl | hk
      · exact endTag_element _ _
      · exact mem_element_of_mem (endTag_of_writtenKey m k' hk)
termination_by structural v => v

theorem endTag_of_itemKey :
    ∀ (items : List Value), ∀ k ∈ itemKeys items,
      .markup ('/' :: k.toList) ∈ nodesTokens (itemNodes items)
  | [], _, hk => nomatch hk
  | item :: items, k, hk => by
      unfold itemKeys at hk
      unfold itemNodes
      rcases List.mem_append.mp hk with hk | hk
      · refine List.mem_append_left _ (mem_tokens_of_mem ?_)
        cases item with
        | object m => exact endTag_of_writtenKey m k hk
        | null => cases hk
        | bool b => cases hk
        | number n => cases hk
        | string s => cases hk
        | array a => cases hk
      · exact List.mem_append_right _ (endTag_of_itemKey items k hk)
termination_by structural items => items

theorem endTag_of_writtenKey :
    ∀ (m : List (String × Value)), ∀ k ∈ writtenKeys m,
      .markup ('/' :: k.toList) ∈ nodesTokens (paramsNodes m)
  | [], _, hk => nomatch hk
  | (k', v) :: m, k, hk => by
      unfold paramsNodes
      rw [nodesTokens_append]
      rcases List.mem_append.mp hk with hk | hk
      · exact List.mem_append_left _ (endTag_of_valueKey v k hk)
      · exact List.mem_append_right _ (endTag_of_writtenKey m k hk)
termination_by structural m => m

end

mutual

/-- Every key written for validated parameters is safe. -/
theorem safe_of_valueKey {k : String} (hk : isSafeName k = true) :
    ∀ v : Value, validateKeys v = .ok () →
      ∀ k' ∈ valueKeys k v, isSafeName k' = true
  | .null, _, _, hk' => nomatch hk'
  | .bool _, _, _, hk' => List.mem_singleton.mp hk' ▸ hk
  | .number _, _, _, hk' => List.mem_singleton.mp hk' ▸ hk
  | .string _, _, _, hk' => List.mem_singleton.mp hk' ▸ hk
  | .array items, hv, k', hk' => by
      rcases List.mem_cons.mp hk' with rfl | hk'
      · exact hk
      · exact safe_of_itemKey items hv k' hk'
  | .object m, hv, k', hk' => by
      rcases List.mem_cons.mp hk' with rfl | hk'
      · exact hk
      · exact safe_of_writtenKey m hv k' hk'
termination_by structural v => v

theorem safe_of_itemKey :
    ∀ items : List Value, validateItems items = .ok () →
      ∀ k ∈ itemKeys items, isSafeName k = true
  | [], _, _, hk => nomatch hk
  | item :: items, hv, k, hk => by
      obtain ⟨hvi, hvs⟩ := validateItems_cons hv
      unfold itemKeys at hk
      rcases List.mem_append.mp hk with hk | hk
      · cases item with
        | object m => exact safe_of_writtenKey m hvi k hk
        | null => cases hk
        | bool b => cases hk
        | number n => cases hk
        | string s => cases hk
        | array a => cases hk
      · exact safe_of_itemKey items hvs k hk
termination_by structural items => items

theorem safe_of_writtenKey :
    ∀ m : List (String × Value), validateFields m = .ok () →
      ∀ k ∈ writtenKeys m, isSafeName k = true
  | [], _, _, hk => nomatch hk
  | (k', v) :: m, hv, k, hk => by
      obtain ⟨hk', hvv, hvm⟩ := validateFields_cons hv
      rcases List.mem_append.mp hk with hk | hk
      · exact safe_of_valueKey hk' v hvv k hk
      · exact safe_of_writtenKey m hvm k hk
termination_by structural m => m

end

/-- Safe characters that make a legal end tag are a name: there is no
white space among them to stand behind it. -/
theorem isName_of_endTag {s : List Char} (hs : ∀ c ∈ s, isSpace c = false)
    (h : EndTagLegal ('/' :: s)) : isName s = true := by
  obtain ⟨n, pad, hsplit, hn, hpad⟩ := h s rfl
  have hnil : pad = [] := by
    cases pad with
    | nil => rfl
    | cons c pad =>
        have hsp := hpad c (List.mem_cons_self ..)
        rw [hs c (by rw [hsplit]; simp)] at hsp
        cases hsp
  rw [hsplit, hnil, List.append_nil]
  exact hn

/-- A well-formed text of an envelope has names for its function and
keys. -/
theorem names_of_legal {f : String} {params : Map}
    (hf : isSafeName f = true) (hv : validateFields params = .ok ())
    (hx : fieldsXml params) {d : Document} (hd : d.Legal)
    (hrender : d.render = buildEnvelope f (writeParams params)) :
    isName (callName f) = true
      ∧ ∀ k ∈ writtenKeys params, isName k.toList = true := by
  have hmarkups : markups d.tokens
      = markups (envelopeDocument f params).tokens := by
    refine markups_eq_of_render_eq hd.lexical
      (envelopeDocument_lexical hf hv hx) ?_
    show d.render = (envelopeDocument f params).render
    rw [hrender, render_envelopeDocument]
  have hend : ∀ c, .markup c ∈ (envelopeDocument f params).tokens →
      EndTagLegal c := by
    intro c hc
    have hmem : c ∈ markups d.tokens := by
      rw [hmarkups]
      exact List.mem_filterMap.mpr ⟨_, hc, rfl⟩
    obtain ⟨t, ht, htc⟩ := List.mem_filterMap.mp hmem
    cases t with
    | text s => cases htc
    | markup c' =>
        rw [← Option.some.inj htc]
        exact document_endTag hd c' ht
  have hin : ∀ t ∈ nodesTokens [element (callName f) (paramsNodes params)],
      t ∈ (envelopeDocument f params).tokens := by
    intro t ht
    refine List.mem_append_right _ (List.mem_append_left _ ?_)
    refine List.mem_cons_of_mem _ (List.mem_append_left _ ?_)
    exact mem_element_of_mem ht
  have hspace : ∀ {k : String}, isSafeName k = true →
      ∀ c ∈ k.toList, isSpace c = false := fun hk c hc =>
    (safeChar_plain ((isSafeName_chars hk).2 c hc)).2.1
  refine ⟨isName_of_endTag ?_ (hend _ (hin _ (endTag_element _ _))), ?_⟩
  · intro c hc
    rcases List.mem_append.mp hc with hc | hc
    · have hprefix : ∀ d ∈ "rfc:".toList, isSpace d = false := by
        simp [isSpace]
      exact hprefix c hc
    · exact hspace hf c hc
  · intro k hk
    refine isName_of_endTag
      (hspace (safe_of_writtenKey params hv k hk)) (hend _ (hin _ ?_))
    exact mem_element_of_mem (endTag_of_writtenKey params k hk)

/-- The envelope of a validated call is well-formed XML showing the call
exactly when the function's name has no slash and every key written has
none and does not start with a digit. -/
theorem envelope_wellFormed_iff {f : String} {params : Map}
    (hf : isSafeName f = true)
    (hv : validateKeys (.object params) = .ok ())
    (hx : StringsXml (.object params)) :
    WellFormedCall f params (buildEnvelope f (writeParams params))
      ↔ '/' ∉ f.toList ∧ ∀ k ∈ writtenKeys params, KeyIsName k := by
  have hsafe := safe_of_writtenKey params hv
  constructor
  · intro hwell
    obtain ⟨d, hd, hrender, -⟩ := hwell
    obtain ⟨hcall, hkeys⟩ := names_of_legal hf hv hx hd hrender
    refine ⟨(isName_callName hf).mp hcall, fun k hk => ?_⟩
    exact (isName_of_safe (hsafe k hk)).mp (hkeys k hk)
  · intro hnames
    obtain ⟨hslash, hkeys⟩ := hnames
    refine ⟨envelopeDocument f params, ?_, render_envelopeDocument f params,
      envelopeDocument_shows hx⟩
    exact envelopeDocument_legal ((isName_callName hf).mpr hslash) hx
      fun k hk => (isName_of_safe (hsafe k hk)).mpr (hkeys k hk)

/-- A namespaced function, as the tests of `is_safe_name` admit it. -/
theorem namespaced_envelope_malformed :
    isSafeName "/SAPAPO/OM_ORDER" = true
      ∧ validateKeys (.object [("2ND_ITEM", .string "1")]) = .ok ()
      ∧ StringsXml (.object [("2ND_ITEM", .string "1")])
      ∧ ¬ WellFormedCall "/SAPAPO/OM_ORDER" []
        (buildEnvelope "/SAPAPO/OM_ORDER" (writeParams []))
      ∧ ¬ WellFormedCall "RFC_PING" [("2ND_ITEM", .string "1")]
        (buildEnvelope "RFC_PING" (writeParams [("2ND_ITEM", .string "1")])) := by
  have hv : validateKeys (.object [("2ND_ITEM", .string "1")]) = .ok () := rfl
  have hx : StringsXml (.object [("2ND_ITEM", .string "1")]) := by
    decide
  refine ⟨by decide, hv, hx, ?_, ?_⟩
  · intro hwell
    obtain ⟨d, hd, hrender, -⟩ := hwell
    have hnil : fieldsXml [] := trivial
    have hcall := (names_of_legal (by decide) rfl hnil hd hrender).1
    revert hcall
    decide
  · intro hwell
    obtain ⟨d, hd, hrender, -⟩ := hwell
    have hkey := (names_of_legal (by decide) hv hx hd hrender).2 "2ND_ITEM"
      (List.mem_cons_self ..)
    revert hkey
    decide

/-- A table read, whose names are all names. -/
theorem envelope_wellFormed_iff_readTable :
    WellFormedCall "RFC_READ_TABLE" [("QUERY_TABLE", .string "T001")]
        (buildEnvelope "RFC_READ_TABLE"
          (writeParams [("QUERY_TABLE", .string "T001")]))
      ↔ '/' ∉ "RFC_READ_TABLE".toList
        ∧ ∀ k ∈ writtenKeys [("QUERY_TABLE", .string "T001")], KeyIsName k :=
  envelope_wellFormed_iff (by decide) rfl (by decide)

end SapAutomate.Soap
