/-
When a request of ADT addresses the object of its call
(`sap-automate-adt/src/http.rs`).

Names are put into paths, attributes and statements as they are. So each
call asks something of its names (`Addressable`), and its request is about
that object, and no other, exactly when they meet it.
-/
import SapAutomate.Lib.Xml.Attribute
import SapAutomate.Proofs.CsrfToken
import SapAutomate.Proofs.ObjectPath

namespace SapAutomate.Adt

open Interact

-- ========================================================== activations

/-- The path in front of a name that is activated. -/
def activationFront (kind : AbapObjectKind) : List Char :=
  ("/sap/bc/adt/" ++ activationCollection kind ++ "/").toList

/-- An attribute, as the body has them. -/
def bodyAttr (key : String) (value : List Char) : Xml.Attr :=
  ⟨[' '], key.toList, [], [], '"', value⟩

/-- The declaration of the body. -/
def bodyDecl : Xml.Tag :=
  ⟨"xml".toList,
    [bodyAttr "version" "1.0".toList, bodyAttr "encoding" "UTF-8".toList], []⟩

/-- The root of the body. -/
def bodyRoot : Xml.Tag :=
  ⟨"adtcore:objectReferences".toList,
    [bodyAttr "xmlns:adtcore" "http://www.sap.com/adt/core".toList], []⟩

/-- The reference of the body. -/
def bodyTag (kind : AbapObjectKind) (name : List Char) : Xml.Tag :=
  ⟨"adtcore:objectReference".toList,
    [bodyAttr "adtcore:uri" (activationFront kind ++ name),
      bodyAttr "adtcore:name" name], []⟩

/-- The body as a document. -/
def bodyDoc (kind : AbapObjectKind) (name : List Char) : Xml.Document :=
  ⟨some bodyDecl, [], none, [], .elem bodyRoot [.empty (bodyTag kind name)] [],
    []⟩

/-- The body behind the name that it has first. -/
def bodyRest (name : List Char) : List Char :=
  ' ' :: ("adtcore:name".toList ++ '=' :: '"' :: (name ++ '"' :: '/' :: '>'
    :: '<' :: '/' :: (bodyRoot.name ++ ['>'])))

/-- The body behind its second bracket. -/
def bodyReference (kind : AbapObjectKind) (name : List Char) : List Char :=
  "adtcore:objectReference".toList ++ ' ' :: ("adtcore:uri".toList
    ++ '=' :: '"' :: ((activationFront kind ++ name) ++ '"' :: bodyRest name))

/-- How the pieces of the body go together. -/
theorem assembled {l₁ l₂ l₃ l₄ l₅ decl root ref uri base front coll slash key
      rest : List Char}
    (h : l₁ ++ (l₂ ++ l₃) = '<' :: (decl ++ '>' :: '<' :: (root ++ '>' :: '<' ::
      (ref ++ ' ' :: (uri ++ '=' :: '"' :: base)))))
    (hfront : front = base ++ (coll ++ slash))
    (hname : l₄ = '"' :: ' ' :: (key ++ ['=', '"'])) (hend : l₅ = '"' :: rest)
    (name : List Char) :
    l₁ ++ l₂ ++ l₃ ++ coll ++ slash ++ name ++ l₄ ++ name ++ l₅
      = '<' :: (decl ++ '>' :: '<' :: (root ++ '>' :: '<' :: (ref ++ ' ' ::
        (uri ++ '=' :: '"' :: ((front ++ name) ++ '"' ::
          (' ' :: (key ++ '=' :: '"' :: (name ++ '"' :: rest)))))))) := by
  have hall := congrArg (· ++ (coll ++ (slash ++ (name
    ++ (('"' :: ' ' :: (key ++ ['=', '"'])) ++ (name ++ '"' :: rest)))))) h
  rw [hfront, hname, hend]
  simpa only [List.append_assoc, List.cons_append, List.nil_append] using hall

theorem body_eq (std : Std) (request : ActivationRequest) :
    (activationBody std request).toList
      = '<' :: ('?' :: (bodyDecl.content ++ ['?']) ++ '>' :: '<' ::
        (bodyRoot.content ++ '>' :: '<' :: bodyReference request.kind
          (std.toLowercase request.name).toList)) := by
  have hfront : activationFront request.kind = "/sap/bc/adt/".toList
      ++ ((activationCollection request.kind).toList ++ "/".toList) := by
    rw [activationFront, String.toList_append, String.toList_append,
      List.append_assoc]
  have hhead :
      "<?xml version=\"1.0\" encoding=\"UTF-8\"?><adtcore:objectReferences ".toList
      ++ ("xmlns:adtcore=\"http://www.sap.com/adt/core\">".toList
        ++ "<adtcore:objectReference adtcore:uri=\"/sap/bc/adt/".toList)
      = '<' :: ('?' :: (bodyDecl.content ++ ['?']) ++ '>' :: '<' ::
        (bodyRoot.content ++ '>' :: '<' :: ("adtcore:objectReference".toList
          ++ ' ' :: ("adtcore:uri".toList ++ '=' :: '"'
            :: "/sap/bc/adt/".toList)))) := by
    decide +kernel
  have hname : "\" adtcore:name=\"".toList
      = '"' :: ' ' :: ("adtcore:name".toList ++ ['=', '"']) := by
    decide
  have hend : "\"/></adtcore:objectReferences>".toList
      = '"' :: '/' :: '>' :: '<' :: '/' :: (bodyRoot.name ++ ['>']) := by
    decide
  unfold activationBody
  dsimp only
  generalize std.toLowercase request.name = name
  rw [String.toList_append, String.toList_append, String.toList_append,
    String.toList_append, String.toList_append, String.toList_append,
    String.toList_append, String.toList_append]
  exact assembled hhead hfront hname hend _

theorem render_reference (decl root tag : Xml.Tag) :
    (⟨some decl, [], none, [], .elem root [.empty tag] [], []⟩ :
      Xml.Document).render
      = '<' :: ('?' :: (decl.content ++ ['?']) ++ '>' :: '<' ::
        (root.content ++ '>' :: '<' :: (tag.content ++ '/' :: '>' :: '<' ::
          '/' :: (root.name ++ ['>'])))) := by
  simp [Xml.Document.render, Xml.render, Xml.Document.tokens,
    Xml.Document.prologTokens, Xml.Document.declTokens,
    Xml.Document.doctypeTokens, Xml.nodesTokens, Xml.Node.tokens,
    Xml.Token.render]

theorem content_two (name key value key' value' rest : List Char) :
    (⟨name, [⟨[' '], key, [], [], '"', value⟩,
        ⟨[' '], key', [], [], '"', value'⟩], []⟩ : Xml.Tag).content ++ rest
      = name ++ ' ' :: (key ++ '=' :: '"' :: (value ++ '"' :: (' ' ::
        (key' ++ '=' :: '"' :: (value' ++ '"' :: rest))))) := by
  simp only [Xml.Tag.content, Xml.Attr.render, List.flatMap_cons,
    List.flatMap_nil, List.append_assoc, List.cons_append, List.nil_append]

theorem render_bodyDoc (kind : AbapObjectKind) (name : List Char) :
    (bodyDoc kind name).render
      = '<' :: ('?' :: (bodyDecl.content ++ ['?']) ++ '>' :: '<' ::
        (bodyRoot.content ++ '>' :: '<' :: bodyReference kind name)) := by
  have htag : (bodyTag kind name).content ++ '/' :: '>' :: '<' :: '/' ::
      (bodyRoot.name ++ ['>']) = bodyReference kind name :=
    content_two _ _ _ _ _ _
  rw [bodyDoc, render_reference, htag]

theorem length_utf8 (s : String) : (utf8 s).length = Xml.size s.toList := by
  rw [utf8, List.length_flatMap, Xml.size]
  congr 1
  exact List.map_congr_left fun c _ => String.length_utf8EncodeChar c

/-- The collection that the body puts the name in, as segments. -/
def activatedIn : AbapObjectKind → List String
  | .program => ["sap", "bc", "adt", "programs", "programs"]
  | .class_ => ["sap", "bc", "adt", "oo", "classes"]
  | .interface => ["sap", "bc", "adt", "oo", "interfaces"]
  | _ => ["sap", "bc", "adt", "objects"]

theorem activationFront_written (kind : AbapObjectKind) (name : List Char) :
    utf8 (String.ofList (activationFront kind ++ name))
      = Url.written (segs (activatedIn kind) ++ [utf8 (String.ofList name)]) := by
  have hfront : utf8 (String.ofList (activationFront kind))
      = Url.written (segs (activatedIn kind)) ++ [47] := by
    cases kind <;> decide
  rw [String.ofList_append]
  exact utf8_behind _ hfront

theorem activationFront_plain (kind : AbapObjectKind) :
    '"' ∉ activationFront kind ∧ '&' ∉ activationFront kind
      ∧ '<' ∉ activationFront kind ∧ Xml.XmlChars (activationFront kind) := by
  cases kind <;> decide

theorem plain_activatedIn (kind : AbapObjectKind) :
    ∀ s ∈ segs (activatedIn kind), Url.Plain s := by
  cases kind <;> decide

theorem collection_fourth {kind : AbapObjectKind}
    (h : ¬ activatable kind = true) (rest : List Url.Bytes) :
    (segs kind.collection ++ rest)[3]? ≠ some (utf8 "objects") := by
  have hfour : (segs kind.collection)[3]? ≠ some (utf8 "objects")
      ∧ 3 < (segs kind.collection).length := by
    cases kind <;> first | decide | exact absurd rfl h
  rw [List.getElem?_append_left hfour.2]
  exact hfour.1

theorem Collected.segments {kind : AbapObjectKind} {name uri : Url.Bytes}
    (h : Collected kind name uri) :
    ∃ rest, Url.read uri = some ⟨segs kind.collection ++ rest, none⟩ := by
  cases kind
  case functionModule =>
    obtain ⟨group, hread⟩ := h
    exact ⟨_, hread⟩
  all_goals exact ⟨_, h⟩

/-- The name is behind the collection of its kind, where that is the one it
is activated in. -/
theorem collected_iff (kind : AbapObjectKind) (name : Url.Bytes)
    (last : List Char) :
    Collected kind name
        (utf8 (String.ofList (activationFront kind ++ last)))
      ↔ activatable kind = true
        ∧ Url.Reads (utf8 (String.ofList last)) name := by
  rw [activationFront_written]
  by_cases hkind : activatable kind = true
  · rw [and_iff_right hkind]
    have hsame : activatedIn kind = kind.collection := by
      cases kind <;> first | rfl | cases hkind
    have hread := Url.read_around (m := []) (plain_collection kind)
      (fun s hs => nomatch hs) (x := utf8 (String.ofList last)) (v := name)
    rw [hsame, ← hread]
    cases kind <;> first | rfl | cases hkind
  · refine iff_of_false (fun h => ?_) fun h => hkind h.1
    have hin : activatedIn kind = ["sap", "bc", "adt", "objects"] := by
      cases kind <;> first | rfl | exact absurd rfl hkind
    have hplain := plain_activatedIn kind
    rw [hin] at h hplain
    have hwritten : Url.written (segs ["sap", "bc", "adt", "objects"]
        ++ [utf8 (String.ofList last)])
        = Url.written (segs ["sap", "bc", "adt", "objects"])
          ++ 47 :: utf8 (String.ofList last) := by
      rw [Url.written, List.flatMap_append, Url.written, List.flatMap_cons,
        List.flatMap_nil, List.append_nil]
    rw [hwritten] at h
    obtain ⟨rest, hread⟩ := h.segments
    obtain ⟨rest', hrest⟩ := Url.read_front hplain hread
    refine collection_fourth hkind rest ?_
    dsimp only at hrest
    rw [hrest]
    rfl

theorem bodyAttr_legal {key : String} {value : List Char}
    (hkey : Xml.isName key.toList = true) (hquote : '"' ∉ value)
    (hmarkup : '<' ∉ value) (hamp : '&' ∉ value)
    (hchars : Xml.XmlChars value) : (bodyAttr key value).Legal false where
  pre_ne := List.cons_ne_nil _ _
  pre := fun c hc => by rw [List.mem_singleton.mp hc]; rfl
  name := hkey
  eqPre := fun c hc => nomatch hc
  eqPost := fun c hc => nomatch hc
  quote := .inl rfl
  unquoted := hquote
  noMarkup := hmarkup
  chars := hchars
  refs := by
    have hplain : ∀ table, (Xml.unescapeGo table value none).isSome = true := by
      intro table
      rw [Xml.unescapeGo_plain hamp]
      rfl
    exact hplain _

theorem declValue {s : List Char}
    (h : s.all (fun c => c.isAlphanum || "._-".toList.contains c) = true) :
    ∀ c ∈ s, c.isAlphanum ∨ c = '.' ∨ c = '_' ∨ c = '-' := by
  intro c hc
  have hc := List.all_eq_true.mp h c hc
  simpa [Bool.or_eq_true] using hc

theorem bodyDecl_legal : Xml.DeclLegal bodyDecl where
  tag := {
    name := by decide
    attrs := by
      intro a ha
      simp only [bodyDecl, List.mem_cons, List.not_mem_nil, or_false] at ha
      rcases ha with rfl | rfl
      · exact bodyAttr_legal (by decide) (by decide)
          (by decide) (by decide) (by decide)
      · exact bodyAttr_legal (by decide) (by decide)
          (by decide) (by decide) (by decide)
    unique := by decide
    pad := fun c hc => nomatch hc }
  target := rfl
  names := by decide
  values := by
    intro a ha
    simp only [bodyDecl, List.mem_cons, List.not_mem_nil, or_false] at ha
    rcases ha with rfl | rfl
    · exact ⟨by decide, declValue (by decide)⟩
    · exact ⟨by decide, declValue (by decide)⟩

theorem bodyRoot_legal : bodyRoot.Legal false where
  name := by decide
  attrs := by
    intro a ha
    rw [List.mem_singleton.mp ha]
    exact bodyAttr_legal (by decide) (by decide)
      (by decide) (by decide) (by decide)
  unique := by decide
  pad := fun c hc => nomatch hc

theorem attrSafe_iff {name : String} :
    attrSafe name = true ↔ '"' ∉ name.toList ∧ '<' ∉ name.toList
      ∧ '&' ∉ name.toList ∧ Xml.XmlChars name.toList := by
  rw [attrSafe, List.all_eq_true]
  simp only [Bool.and_eq_true, bne_iff_ne]
  constructor
  · intro h
    exact ⟨fun hm => (h _ hm).2 rfl, fun hm => (h _ hm).1.1.2 rfl,
      fun hm => (h _ hm).1.2 rfl, fun c hc => (h c hc).1.1.1⟩
  · rintro ⟨hquote, hmarkup, hamp, hchars⟩ c hc
    refine ⟨⟨⟨hchars c hc, ?_⟩, ?_⟩, ?_⟩
    · rintro rfl
      exact hmarkup hc
    · rintro rfl
      exact hamp hc
    · rintro rfl
      exact hquote hc

theorem bodyDoc_legal (kind : AbapObjectKind) {name : String}
    (h : attrSafe name = true) : (bodyDoc kind name.toList).Legal := by
  obtain ⟨hquote, hmarkup, hamp, hchars⟩ := attrSafe_iff.mp h
  obtain ⟨fquote, famp, fmarkup, fchars⟩ := activationFront_plain kind
  have hname : Xml.isName "adtcore:objectReference".toList = true := by
    decide
  have htag : (bodyTag kind name.toList).Legal false := {
    name := hname
    attrs := by
      intro a ha
      rcases List.mem_cons.mp ha with rfl | ha
      · refine bodyAttr_legal (by decide) ?_ ?_ ?_ ?_
        · exact fun hm => (List.mem_append.mp hm).elim fquote hquote
        · exact fun hm => (List.mem_append.mp hm).elim fmarkup hmarkup
        · exact fun hm => (List.mem_append.mp hm).elim famp hamp
        · exact fun c hc =>
            (List.mem_append.mp hc).elim (fchars c) (hchars c)
      · rw [List.mem_singleton.mp ha]
        exact bodyAttr_legal (by decide) hquote hmarkup hamp hchars
    unique := by
      have hnames : (bodyTag kind name.toList).attrs.map Xml.Attr.name
          = ["adtcore:uri".toList, "adtcore:name".toList] := rfl
      rw [hnames]
      decide
    pad := fun c hc => nomatch hc }
  constructor
  case decl =>
    intro t ht
    rw [← Option.some.inj ht]
    exact bodyDecl_legal
  case misc => exact fun n hn => nomatch hn
  case doctype => exact fun t ht => nomatch ht
  case misc' => exact fun n hn => nomatch hn
  case root =>
    exact ⟨bodyRoot_legal, ⟨htag, trivial, fun ht => nomatch ht⟩,
      fun c hc => nomatch hc⟩
  case isElem => rfl
  case epilog => exact fun n hn => nomatch hn

/-- A value up to its quote. -/
theorem quote_split (l r : List Char) :
    ∃ r', l ++ '"' :: r = l.takeWhile (· ≠ '"') ++ '"' :: r' := by
  have hsplit : l.takeWhile (· ≠ '"') ++ l.dropWhile (· ≠ '"') = l :=
    List.takeWhile_append_dropWhile
  cases hrest : l.dropWhile (· ≠ '"') with
  | nil =>
      rw [hrest, List.append_nil] at hsplit
      exact ⟨r, by rw [hsplit]⟩
  | cons c rest =>
      have hc : c = '"' := by
        have hneg := List.head?_dropWhile_not (· ≠ '"') l
        rw [hrest] at hneg
        simpa using hneg
      refine ⟨rest ++ '"' :: r, ?_⟩
      rw [hrest, hc] at hsplit
      nth_rewrite 1 [← hsplit]
      rw [List.append_assoc, List.cons_append]

theorem not_mem_quoted {front name : List Char} (h : '"' ∉ front) :
    '"' ∉ front ++ name.takeWhile (· ≠ '"') := by
  intro hmem
  rcases List.mem_append.mp hmem with hmem | hmem
  · exact h hmem
  · simpa using List.mem_takeWhile_imp hmem

/-- Behind the name of a tag there are its attributes. -/
theorem behind_name {tag : Xml.Tag} {name l more : List Char}
    (hname : tag.name = name)
    (h : name ++ l = tag.content ++ '/' :: '>' :: more) :
    tag.attrs.flatMap Xml.Attr.render ++ (tag.pad ++ '/' :: '>' :: more)
      = l := by
  rw [Xml.Tag.content, hname, List.append_assoc, List.append_assoc] at h
  exact (List.append_cancel_left h).symm

/-- What the first attribute of the reference says. -/
theorem reference_uri {kind : AbapObjectKind} {name : List Char}
    {tag : Xml.Tag} {dtd : Bool} (htag : tag.Legal dtd) {more : List Char}
    (hname : tag.name = "adtcore:objectReference".toList)
    (hmore : bodyReference kind name = tag.content ++ '/' :: '>' :: more)
    {uri : List Char} (h : Gives tag "adtcore:uri" uri) :
    ∃ u, uri = activationFront kind ++ u
      ∧ Xml.unescape (name.takeWhile (· ≠ '"')) = some u
      ∧ '<' ∉ name.takeWhile (· ≠ '"')
      ∧ Xml.XmlChars (name.takeWhile (· ≠ '"')) := by
  obtain ⟨a, ha, hkey, hvalue⟩ := h
  obtain ⟨fquote, famp, -, -⟩ := activationFront_plain kind
  obtain ⟨rest, hrest⟩ := quote_split name (bodyRest name)
  have hattrs := behind_name hname hmore
  rw [List.append_assoc (activationFront kind), hrest,
    ← List.append_assoc (activationFront kind)] at hattrs
  have hkeyName : Xml.isName "adtcore:uri".toList = true := by decide
  obtain ⟨b, bs, hcons, hbname, hbvalue⟩ := htag.first_attr
    (List.ne_nil_of_mem ha) hkeyName (not_mem_quoted fquote) hattrs
  have hb : b ∈ tag.attrs := by
    rw [hcons]
    exact List.mem_cons_self
  obtain rfl : a = b := List.inj_on_of_nodup_map htag.unique ha hb
    (hkey.trans hbname.symm)
  rw [hbvalue, Xml.unescape_append famp] at hvalue
  obtain ⟨u, hu, rfl⟩ := Option.map_eq_some_iff.mp hvalue
  have hmarkup := (htag.attrs a ha).noMarkup
  have hchars := (htag.attrs a ha).chars
  rw [hbvalue] at hmarkup hchars
  exact ⟨u, rfl, hu, fun hm => hmarkup (List.mem_append_right _ hm),
    fun c hc => hchars c (List.mem_append_right _ hc)⟩

theorem bodyStart_complete :
    Xml.Complete ('?' :: (bodyDecl.content ++ ['?']))
      ∧ Xml.Complete ('a' :: bodyRoot.content.tail) := by
  have hroot : bodyRoot.content = 'a' :: bodyRoot.content.tail := by
    decide
  have hstart := bodyRoot_legal.complete_start
  rw [hroot] at hstart
  refine ⟨Xml.complete_pi fun hinf => ?_, hstart⟩
  exact bodyDecl_legal.no_question (hinf.subset List.mem_cons_self)

/-- The body of `activate` refers to its object exactly when the name is
safe in all that it is put into, and the collection is the right one. -/
theorem references_iff (std : Std) (request : ActivationRequest) :
    (∃ uri, References (activationBody std request).toList uri
          (std.toLowercase request.name).toList
        ∧ Collected request.kind (utf8 (std.toLowercase request.name))
          (utf8 (String.ofList uri)))
      ↔ activatable request.kind = true
        ∧ Url.Plain (utf8 (std.toLowercase request.name))
        ∧ attrSafe (std.toLowercase request.name) = true := by
  rw [body_eq]
  generalize std.toLowercase request.name = name
  constructor
  · rintro ⟨uri, ⟨doc, root, tag, pad, hlegal, hrender, hroot, hname, huri, -⟩,
      hcollected⟩
    have hstart : bodyRoot.content = 'a' :: bodyRoot.content.tail := by
      decide
    rw [hstart] at hrender
    obtain ⟨more, hmore⟩ := hlegal.only_child hroot bodyStart_complete.1
      bodyStart_complete.2 (by decide) hrender
    have hroots := hlegal.root
    rw [hroot] at hroots
    have htag : tag.Legal doc.doctype.isSome := hroots.2.1.1
    obtain ⟨u, rfl, hu, hmarkup, hchars⟩ :=
      reference_uri htag hname hmore huri
    obtain ⟨hkind, hreads⟩ := (collected_iff _ _ _).mp hcollected
    -- the sizes of the name, of what its quote leaves, and of what is read
    have hcut : name.toList.takeWhile (· ≠ '"')
        ++ name.toList.dropWhile (· ≠ '"') = name.toList :=
      List.takeWhile_append_dropWhile
    have hsize := congrArg Xml.size hcut
    rw [Xml.size_append] at hsize
    have hle : Xml.size u ≤ Xml.size (name.toList.takeWhile (· ≠ '"')) := by
      rcases Xml.unescape_size hu with ⟨-, rfl⟩ | hlt
      · exact Nat.le_refl _
      · exact hlt.le
    have hbytes := length_utf8 (String.ofList u)
    have hnameBytes := length_utf8 name
    rw [String.toList_ofList] at hbytes
    obtain ⟨-, -, hsame⟩ := Url.kept_of_length hreads.value (by omega)
    have hsameSize := congrArg List.length hsame
    rw [hbytes, hnameBytes] at hsameSize
    have hrest : name.toList.dropWhile (· ≠ '"') = [] := by
      have hlen := Xml.length_le_size (name.toList.dropWhile (· ≠ '"'))
      exact List.length_eq_zero_iff.mp (by omega)
    rw [hrest, List.append_nil] at hcut
    have hquote : '"' ∉ name.toList := by
      have hno : '"' ∉ [] ++ name.toList.takeWhile (· ≠ '"') :=
        not_mem_quoted List.not_mem_nil
      rwa [List.nil_append, hcut] at hno
    rw [hcut] at hmarkup hchars hu
    rcases Xml.unescape_size hu with ⟨hamp, rfl⟩ | hlt
    · rw [String.ofList_toList] at hreads
      exact ⟨hkind, Url.reads_self.mp hreads,
        attrSafe_iff.mpr ⟨hquote, hmarkup, hamp, hchars⟩⟩
    · omega
  · rintro ⟨hkind, hplain, hsafe⟩
    refine ⟨activationFront request.kind ++ name.toList,
      ⟨bodyDoc request.kind name.toList, _, _, _, bodyDoc_legal _ hsafe,
        render_bodyDoc _ _, rfl, rfl, ⟨_, List.mem_cons_self, rfl, ?_⟩,
        ⟨_, List.mem_cons_of_mem _ List.mem_cons_self, rfl, ?_⟩⟩, ?_⟩
    · have hamp : '&' ∉ activationFront request.kind ++ name.toList := by
        intro hmem
        rcases List.mem_append.mp hmem with hmem | hmem
        · exact (activationFront_plain request.kind).2.1 hmem
        · exact (attrSafe_iff.mp hsafe).2.2.1 hmem
      exact Xml.unescapeGo_plain hamp
    · exact Xml.unescapeGo_plain (attrSafe_iff.mp hsafe).2.2.1
    · rw [collected_iff, String.ofList_toList]
      exact ⟨hkind, Url.reads_self.mpr hplain⟩

-- ============================================================ statements

theorem isIdentifier_ne {s : List Char} (h : isIdentifier s = true) {c : Char}
    (hc : c ∈ s) : isBlank c = false := by
  rw [isIdentifier, Bool.and_eq_true] at h
  have hchar := List.all_eq_true.mp h.2 c hc
  by_contra hblank
  rw [Bool.not_eq_false] at hblank
  simp only [isBlank, Bool.or_eq_true, beq_iff_eq] at hblank
  rcases hblank with ((rfl | rfl) | rfl) | rfl <;> cases hchar

/-- The name of a table is one word. -/
theorem isTableName_blank {t : List Char} (h : isTableName t = true) :
    t ≠ [] ∧ ∀ c ∈ t, isBlank c = false := by
  unfold isTableName at h
  split at h
  · next cs =>
      rw [Bool.and_eq_true] at h
      refine ⟨List.cons_ne_nil _ _, fun c hc => ?_⟩
      rcases List.mem_cons.mp hc with rfl | hc
      · rfl
      have hsplit : cs.takeWhile (· ≠ '/') ++ cs.dropWhile (· ≠ '/') = cs :=
        List.takeWhile_append_dropWhile
      rw [← hsplit] at hc
      rcases List.mem_append.mp hc with hc | hc
      · exact isIdentifier_ne h.1 hc
      · cases hrest : cs.dropWhile (· ≠ '/') with
        | nil =>
            rw [hrest] at hc
            cases hc
        | cons d rest =>
            have hd : d = '/' := by
              have hneg := List.head?_dropWhile_not (· ≠ '/') cs
              rw [hrest] at hneg
              simpa using hneg
            rw [hrest] at h hc
            rcases List.mem_cons.mp hc with rfl | hc
            · rw [hd]
              rfl
            · exact isIdentifier_ne h.2 hc
  · refine ⟨?_, fun c hc => isIdentifier_ne h hc⟩
    rintro rfl
    cases h

/-- A word. -/
def isWord (w : List Char) : Bool := !w.isEmpty && w.all fun c => !isBlank c

theorem isWord_iff {w : List Char} :
    isWord w = true ↔ w ≠ [] ∧ ∀ c ∈ w, isBlank c = false := by
  rw [isWord, Bool.and_eq_true, Bool.not_eq_true', List.isEmpty_eq_false_iff,
    List.all_eq_true]
  simp only [Bool.not_eq_true']

/-- Words with blanks between them, and one at the end. -/
theorem words_eq {a b c t : List Char} (ha : isWord a = true)
    (hb : isWord b = true) (hc : isWord c = true) (ht : isWord t = true) :
    ((a ++ ' ' :: (b ++ ' ' :: (c ++ ' ' :: (t ++ [' '])))).splitOnP
      isBlank).filter (· ≠ []) = [a, b, c, t] := by
  obtain ⟨hane, ha⟩ := isWord_iff.mp ha
  obtain ⟨hbne, hb⟩ := isWord_iff.mp hb
  obtain ⟨hcne, hc⟩ := isWord_iff.mp hc
  obtain ⟨htne, ht⟩ := isWord_iff.mp ht
  rw [List.splitOnP_append_cons_of_forall_mem ha _ rfl,
    List.splitOnP_append_cons_of_forall_mem hb _ rfl,
    List.splitOnP_append_cons_of_forall_mem hc _ rfl,
    List.splitOnP_append_cons_of_forall_mem ht _ rfl, List.splitOnP_nil]
  simp [hane, hbne, hcne, htne]

/-- The statement reads the table exactly when it is the name of one. -/
theorem tableRead_iff (table : String) :
    tableRead (selectFrom table) = some table.toList
      ↔ isTableName table.toList = true := by
  constructor
  · intro h
    unfold tableRead at h
    split at h
    · split at h
      · next htable =>
          rw [← Option.some.inj h]
          exact htable.2.2.2
      · cases h
    · cases h
  · intro h
    obtain ⟨hne, hblank⟩ := isTableName_blank h
    have hfront : "SELECT * FROM ".toList
        = "SELECT".toList ++ ' ' :: ("*".toList ++ ' ' ::
          ("FROM".toList ++ [' '])) := by decide
    have hwords : ((selectFrom table).toList.splitOnP isBlank).filter (· ≠ [])
        = ["SELECT".toList, "*".toList, "FROM".toList, table.toList] := by
      rw [selectFrom, String.toList_append, String.toList_append, hfront]
      have hassoc : ∀ a b c t z : List Char,
          (a ++ ' ' :: (b ++ ' ' :: (c ++ [' '])) ++ t) ++ z
            = a ++ ' ' :: (b ++ ' ' :: (c ++ ' ' :: (t ++ z))) := by
        intro a b c t z
        simp only [List.append_assoc, List.cons_append, List.nil_append]
      rw [hassoc]
      exact words_eq (by decide) (by decide) (by decide)
        (isWord_iff.mpr ⟨hne, hblank⟩)
    rw [tableRead, hwords]
    exact if_pos ⟨rfl, rfl, rfl, h⟩

-- ============================================================= requests

section Requests

variable (std : Std) (d : AdtDestination)

/-- The path of the request about the object, and its body. -/
def objectRequest : AdtCall → String × String
  | .getProgram name => (AbapObjectKind.program.adtPath std name, "")
  | .getClass name => (AbapObjectKind.class_.adtPath std name, "")
  | .getInterface name => (AbapObjectKind.interface.adtPath std name, "")
  | .getInclude name => (AbapObjectKind.include_.adtPath std name, "")
  | .getCdsView name => (AbapObjectKind.cdsView.adtPath std name, "")
  | .getFunctionModule group name =>
      (replace (AbapObjectKind.functionModule.adtPath std name)
        "\x7bgroup\x7d" (std.toLowercase group), "")
  | .whereUsed name kind =>
      ("/sap/bc/adt/repository/informationsystem/usageReferences?uri="
        ++ urlEncode (kind.adtPath std name), usageBody)
  | .activate request _ =>
      ("/sap/bc/adt/activation", activationBody std request)
  | .getTableContents table maxRows =>
      ("/sap/bc/adt/datapreview/freestyle?rowNumber=" ++ toString maxRows
        ++ "&dataAging=true", selectFrom table)
  | .getPackageContents package =>
      ("/sap/bc/adt/repository/nodestructure",
        "parent_type=DEVC%2FK&parent_name=" ++ urlEncode package
          ++ "&withShortDescriptions=true")
  | .search query maxResults =>
      ("/sap/bc/adt/repository/informationsystem/search?operation=quickSearch"
        ++ "&query=" ++ urlEncode query ++ "&maxResults="
        ++ toString maxResults, "")

/-- A request with this path and body, or the fetch of a token. -/
def IsRequest (x : String × String) : HttpAsk → Prop
  | .send r => AboutObject d r → r.url = d.url x.1 ∧ r.body = x.2
  | _ => True

variable {d}

/-- A call that starts with the base headers. -/
theorem headed_requests {α : Type} {x : String × String}
    {k : AdtResult HeaderMap → Prog HttpIface α}
    (hk : ∀ a h, (k a).Poses (fun _ => IsRequest d x) h)
    (h : List HttpExchange) :
    (baseHeaders d >>= k).Poses (fun _ => IsRequest d x) h := by
  refine Prog.poses_bind.mpr ⟨?_, Prog.sat_of_left fun tr a _ => hk a (h ++ tr)⟩
  refine (baseHeaders_asks d).poses (fun _ q hq => ?_) h
  obtain ⟨path, rfl⟩ := hq
  trivial

/-- A request that is sent, and what is done with its reply. -/
theorem sent_requests {α : Type} {x : String × String} {r : HttpRequest}
    {k : AdtResult HttpReply → Prog HttpIface α} {h : List HttpExchange}
    (hr : IsRequest d x (.send r))
    (hk : ∀ a h, (k a).Poses (fun _ => IsRequest d x) h) :
    (send d r >>= k).Poses (fun _ => IsRequest d x) h := by
  refine ⟨hr, fun reply => ?_⟩
  cases reply with
  | error reason => exact hk _ _
  | ok reply => exact hk _ _

theorem fetchText_requests (path : String) (h : List HttpExchange) :
    (fetchText std d path).Poses (fun _ => IsRequest d (path, "")) h := by
  refine headed_requests (fun a h => ?_) h
  cases a with
  | error e => trivial
  | ok headers =>
      refine sent_requests (fun _ => ⟨rfl, rfl⟩) fun reply h => ?_
      cases reply with
      | error e => trivial
      | ok reply =>
          dsimp only
          split
          · exact ⟨trivial, fun _ => trivial⟩
          · trivial

theorem refreshCsrf_requests (x : String × String) (h : List HttpExchange) :
    (refreshCsrf d).Poses (fun _ => IsRequest d x) h := by
  refine headed_requests (fun a h => ?_) h
  cases a with
  | error e => trivial
  | ok headers =>
      refine sent_requests (fun hne => absurd rfl hne) fun reply h => ?_
      cases reply with
      | error e => trivial
      | ok reply =>
          dsimp only
          split
          · exact ⟨trivial, fun _ => trivial⟩
          · trivial

theorem post_requests (path body : String) (headers : HeaderMap → HeaderMap)
    (h : List HttpExchange) :
    (post d (d.url path) headers body).Poses
      (fun _ => IsRequest d (path, body)) h := by
  refine headed_requests (fun a h => ?_) h
  cases a with
  | error e => trivial
  | ok base =>
      refine ⟨fun _ => ⟨rfl, rfl⟩, fun reply => ?_⟩
      cases reply <;> trivial

theorem activateWith_requests (request : ActivationRequest)
    (h : List HttpExchange) :
    (activateWith std d request).Poses (fun _ => IsRequest d
      ("/sap/bc/adt/activation", activationBody std request)) h := by
  refine ⟨trivial, fun token => ?_⟩
  cases token with
  | none => trivial
  | some token =>
      refine headed_requests (fun a h => ?_) _
      cases a with
      | error e => trivial
      | ok base =>
          dsimp only
          split
          · trivial
          · refine ⟨fun _ => ⟨rfl, rfl⟩, fun reply => ?_⟩
            cases reply <;> trivial

/-- What follows a request asks nothing. -/
theorem then_requests {α β : Type} {x : String × String}
    {p : Prog HttpIface α} {f : α → β} {h : List HttpExchange}
    (hp : p.Poses (fun _ => IsRequest d x) h) :
    (p >>= fun a => pure (f a)).Poses (fun _ => IsRequest d x) h :=
  Prog.poses_bind.mpr ⟨hp, Prog.sat_of_left fun _ _ _ => trivial⟩

/-- Every call sends the request about its object, and fetches of tokens. -/
theorem runCall_requests (c : AdtCall) :
    (runCall std d c).Poses (fun _ => IsRequest d (objectRequest std c)) [] := by
  cases c with
  | getProgram name => exact then_requests (fetchText_requests std _ _)
  | getClass name => exact then_requests (fetchText_requests std _ _)
  | getInterface name => exact then_requests (fetchText_requests std _ _)
  | getInclude name => exact then_requests (fetchText_requests std _ _)
  | getFunctionModule group name =>
      exact then_requests (fetchText_requests std _ _)
  | getPackageContents package => exact then_requests (post_requests _ _ _ _)
  | getCdsView name => exact then_requests (fetchText_requests std _ _)
  | search query maxResults =>
      exact then_requests (fetchText_requests std _ _)
  | whereUsed name kind => exact then_requests (post_requests _ _ _ _)
  | getTableContents table maxRows =>
      show (getTableContents std d table maxRows).Poses _ _
      unfold getTableContents
      split
      · trivial
      · exact then_requests (post_requests _ _ _ _)
  | activate request readOnly =>
      show (activate std d request readOnly).Poses _ _
      unfold activate
      split
      · trivial
      · refine Prog.poses_bind.mpr ⟨refreshCsrf_requests _ _,
          Prog.sat_of_left fun tr a _ => ?_⟩
        cases a with
        | error e => trivial
        | ok u => exact activateWith_requests std request _

/-- What a call sends about its object. -/
theorem Sends.request {c : AdtCall} {r : HttpRequest}
    (hr : Sends std d c r) (hobj : AboutObject d r) :
    r.url = d.url (objectRequest std c).1
      ∧ r.body = (objectRequest std c).2 := by
  obtain ⟨tr, k, hleft⟩ := hr
  exact (runCall_requests std c).left hleft hobj

theorem url_inj {p p' : String} (h : d.url p = d.url p') : p = p' :=
  (String.append_right_inj _).mp h

end Requests

-- =========================================================== main result

/-- A request about an object is about that of its call, and no other,
exactly when the call's names are what is asked of them. -/
theorem addresses_iff (std : Std) (d : AdtDestination) {c : AdtCall}
    {r : HttpRequest} (hr : Sends std d c r) (hobj : AboutObject d r) :
    Addresses std d c r ↔ Addressable std c := by
  obtain ⟨hurl, hbody⟩ := hr.request std hobj
  have hfetch : ∀ {p : String} {P : String → Prop}, r.url = d.url p →
      ((∃ p', r.url = d.url p' ∧ P p') ↔ P p) := by
    intro p P hp
    constructor
    · rintro ⟨p', hp', hP⟩
      rwa [url_inj (hp.symm.trans hp')]
    · exact fun hP => ⟨p, hp, hP⟩
  cases c with
  | getProgram name => exact (hfetch hurl).trans (locates_iff std .program name)
  | getClass name => exact (hfetch hurl).trans (locates_iff std .class_ name)
  | getInterface name =>
      exact (hfetch hurl).trans (locates_iff std .interface name)
  | getInclude name => exact (hfetch hurl).trans (locates_iff std .include_ name)
  | getCdsView name => exact (hfetch hurl).trans (locates_iff std .cdsView name)
  | getFunctionModule group name =>
      exact (hfetch hurl).trans (module_iff std group name)
  | getPackageContents package => exact Iff.rfl
  | search query maxResults => exact Iff.rfl
  | whereUsed name kind =>
      obtain ⟨q, hq, hparams⟩ := usage_read (kind.adtPath std name)
      refine Iff.trans ?_ (locates_iff std kind name)
      constructor
      · rintro ⟨p, q', uri, hp, hq', hparams', huri⟩
        rw [← url_inj (hurl.symm.trans hp)] at hq'
        have hsame := hq.symm.trans hq'
        obtain rfl := Option.some.inj
          (Url.Ref.mk.inj (Option.some.inj hsame)).2
        have huris := hparams.symm.trans hparams'
        obtain rfl := (Prod.mk.inj (List.cons.inj huris).1).2
        exact huri
      · exact fun huri => ⟨_, q, _, hurl, hq, hparams, huri⟩
  | getTableContents table maxRows =>
      show tableRead r.body = _ ↔ _
      rw [hbody]
      exact tableRead_iff table
  | activate request readOnly =>
      show (∃ uri, References r.body.toList _ _ ∧ _) ↔ _
      rw [hbody]
      exact references_iff std request

/-- The request of `get_program` for this name. -/
def programRequest (name : String) : HttpRequest where
  method := .get
  url := (mockDestination "dev").url
    (AbapObjectKind.program.adtPath asciiStd name)
  headers := [("accept", utf8 "*/*"), ("x-sap-client", utf8 "100"),
    ("x-sap-language", utf8 "EN")]
  body := ""

theorem sends_programRequest (name : String) :
    Sends asciiStd (mockDestination "dev") (.getProgram name)
      (programRequest name) := by
  have hbase : baseHeaders (mockDestination "dev")
      = .done (.ok (programRequest name).headers) := rfl
  have hrun : ∃ k, runCall asciiStd (mockDestination "dev") (.getProgram name)
      = .ask (.send (programRequest name)) k := by
    show ∃ k, (fetchText asciiStd (mockDestination "dev") _ >>= _) = _
    unfold fetchText
    rw [hbase]
    exact ⟨_, rfl⟩
  obtain ⟨k, hk⟩ := hrun
  exact ⟨[], k, hk ▸ .none _⟩

/-- The name of a program. -/
theorem plain_program : Addresses asciiStd (mockDestination "dev")
    (.getProgram "ZFOO") (programRequest "ZFOO") :=
  (addresses_iff asciiStd (mockDestination "dev")
    (sends_programRequest "ZFOO") (by unfold AboutObject; decide)).mpr
      (show Url.Plain (utf8 (asciiStd.toLowercase "ZFOO")) by decide +kernel)

/-- A program in a namespace: each slash of its name makes a segment. -/
theorem namespace_misses : ¬ ∀ (std : Std) (d : AdtDestination) (c : AdtCall)
    (r : HttpRequest), Sends std d c r → AboutObject d r →
    Addresses std d c r := by
  intro h
  obtain ⟨p, hp, hlocates⟩ := h asciiStd (mockDestination "dev")
    (.getProgram "/NS/X") (programRequest "/NS/X")
    (sends_programRequest "/NS/X") (by unfold AboutObject; decide)
  rw [← url_inj hp] at hlocates
  have hplain := (locates_iff asciiStd .program "/NS/X").mp hlocates
  have hslash : ¬ Url.Plain (utf8 (asciiStd.toLowercase "/NS/X")) := by
    decide +kernel
  exact hslash hplain

end SapAutomate.Adt
