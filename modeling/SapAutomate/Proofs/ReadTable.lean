/-
What `RFC_READ_TABLE` sent against what is decoded.

`TableReply` is the reply on the wire: any legal document with the
names under `FIELDS` and one line per row under `DATA`, where a line is
`rowText`, the blank-padded values between delimiters. `readTable_reply`
reduces decoding it to lists of texts; the rest compares the two sides
cell by cell. They part where trimming reaches into a value: at the
front of the first column, whose blanks are data, and at the end of a
value that ends in white space other than the blank.
-/
import SapAutomate.Proofs.EnvelopeTree
import SapAutomate.Proofs.TreeValue
import SapAutomate.Soap.ReadTable

namespace SapAutomate.Soap

open Json Rfc Xml

-- ============================================================== the table

/-- A value and the blanks that pad it to its column's width. -/
structure Cell where
  value : List Char
  pad : Nat

/-- As sent. -/
def Cell.text (c : Cell) : List Char := c.value ++ List.replicate c.pad ' '

/-- The value without its trailing blanks. -/
def Cell.bare (c : Cell) : List Char := c.value.rdropWhile fun a => a == ' '

/-- The line of a row. -/
def rowText (row : List Cell) : List Char :=
  [rowDelimiter].intercalate (row.map Cell.text)

/-- Distinct names for the columns, and rows of as many values, none but
the last of which holds the delimiter. -/
structure IsTable (names : List String) (rows : List (List Cell)) : Prop where
  names_ne : names ≠ []
  distinct : names.Nodup
  named : ∀ n ∈ names, n ≠ ""
  width : ∀ row ∈ rows, row.length = names.length
  undelimited : ∀ row ∈ rows, ∀ c ∈ row.dropLast, rowDelimiter ∉ c.value

/-- The row as it should be decoded. -/
def expectedRow (names : List String) (row : List Cell) : TableRow :=
  { values := Map.ofEntries
      (names.zip (row.map fun c => .string (String.ofList c.bare))) }

-- ============================================================== the reply

/-- The child elements of a local name. -/
def childrenNamed (key : String) (n : Node) : List Node :=
  n.children.filter fun c => c.isElem && localName c.name == key

/-- One child of that name, showing the text. -/
def HasText (key : String) (t : List Char) (n : Node) : Prop :=
  ∃ leaf, childrenNamed key n = [leaf] ∧ ShowsText t leaf.children

/-- A reply that lists the names and the rows, whatever else is in it. -/
structure TableReply (names : List String) (rows : List (List Cell))
    (d : Document) : Prop where
  legal : d.Legal
  depth : nodeHeight d.root ≤ maxXmlDepth
  shows : ∃ body call fields data,
    childrenNamed "Body" d.root = [body]
      ∧ body.children.filter Node.isElem = [call]
      ∧ childrenNamed "FIELDS" call = [fields]
      ∧ childrenNamed "DATA" call = [data]
      ∧ List.Forall₂ (fun name item => HasText "FIELDNAME" name.toList item)
        names (childrenNamed "item" fields)
      ∧ List.Forall₂ (fun row item => HasText "WA" (rowText row) item)
        rows (childrenNamed "item" data)

/-- A reply decoded. -/
def readTable (r : Reader) (xml : List Char) : RfcResult (List TableRow) := do
  let root ← xmlToJsonRoot r xml
  let payload ← extractBodyPayload root
  parseReadTable payload

-- ========================================================== reading values

section Reading

variable {r : Reader}

theorem finish_ne_null (st : Frame) : st.finish ≠ .null := by
  unfold Frame.finish
  split <;> intro h <;> cases h

/-- However many children of a name there are, `as_items` lists their
values. -/
theorem asItems_get (key : String) (n : Node) :
    asItems ((childValue r n).get key)
      = (childrenNamed key n).map (childValue r) := by
  show asItems ((contentValue r n.children).get key)
    = valuesNamed r key n.children
  by_cases helem : ∃ c ∈ n.children, c.isElem = true
  · rw [get_contentValue r key helem]
    have hvals : ∀ v ∈ valuesNamed r key n.children,
        v ≠ .null ∧ ∀ a, v ≠ .array a := by
      intro v hv
      obtain ⟨c, -, rfl⟩ := List.mem_map.mp hv
      exact ⟨finish_ne_null _, finish_not_array _⟩
    match valuesNamed r key n.children, hvals with
    | [], _ => rfl
    | [v], hvals =>
        obtain ⟨hnull, harray⟩ := hvals v (List.mem_cons_self ..)
        cases v with
        | null => exact absurd rfl hnull
        | array a => exact absurd rfl (harray a)
        | bool b => rfl
        | number n => rfl
        | string s => rfl
        | object m => rfl
    | _ :: _ :: _, _ => rfl
  · have hnone : valuesNamed r key n.children = [] := by
      unfold valuesNamed
      rw [List.map_eq_nil_iff, List.filter_eq_nil_iff]
      intro c hc hkey
      rw [Bool.and_eq_true] at hkey
      exact helem ⟨c, hc, hkey.1⟩
    have hcount : (absorbNodes r .initial n.children).childCount = 0 := by
      rw [childCount_absorbNodes]
      show 0 + _ = 0
      rw [Nat.zero_add, List.countP_eq_zero]
      exact fun c hc hce => helem ⟨c, hc, hce⟩
    unfold contentValue Frame.finish
    rw [if_pos hcount, hnone]
    rfl

/-- The value of an only child. -/
theorem get_of_childrenNamed {key : String} {n leaf : Node}
    (h : childrenNamed key n = [leaf]) :
    (childValue r n).get key = some (childValue r leaf) := by
  have hmem : leaf ∈ childrenNamed key n := h ▸ List.mem_cons_self ..
  obtain ⟨hleaf, hkey⟩ := List.mem_filter.mp hmem
  rw [Bool.and_eq_true] at hkey
  show (contentValue r n.children).get key = _
  rw [get_contentValue r key ⟨leaf, hleaf, hkey.1⟩]
  show merged ((childrenNamed key n).map (childValue r)) = _
  rw [h]
  rfl

/-- A field's text, trimmed. -/
theorem fieldStr_of_hasText (hr : r.ReadsDocuments) {key : String}
    {t : String} {n : Node} (h : HasText key t.toList n) :
    fieldStr (childValue r n) key = trim t := by
  obtain ⟨leaf, hleaf, hshows⟩ := h
  have hval : childValue r leaf = .string (trim t) :=
    contentValue_text hr hshows
  unfold fieldStr
  rw [get_of_childrenNamed hleaf, hval]
  exact trim_trim t

/-- Only the elements among the children reach the map. -/
theorem absorbNodes_filter :
    ∀ (ns : List Node) (st st' : Frame),
      st.map = st'.map → st.childCount = st'.childCount →
      (absorbNodes r st ns).map
          = (absorbNodes r st' (ns.filter Node.isElem)).map
        ∧ (absorbNodes r st ns).childCount
          = (absorbNodes r st' (ns.filter Node.isElem)).childCount := by
  intro ns
  induction ns with
  | nil => intro st st' hmap hcount; exact ⟨hmap, hcount⟩
  | cons n ns ih =>
      intro st st' hmap hcount
      rw [absorbNodes_cons]
      by_cases helem : n.isElem = true
      · rw [List.filter_cons_of_pos helem, absorbNodes_cons]
        refine ih _ _ ?_ ?_
        · rw [absorbNode_elem r st helem, absorbNode_elem r st' helem]
          unfold Frame.child
          rw [hmap]
        · rw [absorbNode_elem r st helem, absorbNode_elem r st' helem]
          unfold Frame.child
          rw [hcount]
      · rw [List.filter_cons_of_neg helem]
        obtain ⟨hm, hc⟩ := absorbNode_other r st (by simpa using helem)
        exact ih _ _ (hm.trans hmap) (hc.trans hcount)

/-- An element with one child. -/
theorem childValue_of_only {n c : Node}
    (h : n.children.filter Node.isElem = [c]) :
    childValue r n = .object [(localName c.name, childValue r c)] := by
  have hc : c.isElem = true :=
    (List.mem_filter.mp (h ▸ List.mem_cons_self ..)).2
  obtain ⟨hmap, hcount⟩ := absorbNodes_filter (r := r) n.children .initial
    .initial rfl rfl
  rw [h, absorbNodes_cons, absorbNodes_nil, absorbNode_elem r .initial hc]
    at hmap hcount
  unfold childValue contentValue Frame.finish
  rw [hcount, hmap]
  rfl

-- ============================================================ the reply read

/-- The names and lines, decoded. -/
def decoded (names : List String) (rows : List (List Cell)) :
    RfcResult (List TableRow) :=
  let names := (names.map trim).filter fun s => !s.isEmpty
  if names.isEmpty then
    .error (.internal "RFC_READ_TABLE returned no FIELDS metadata")
  else
    .ok (rows.map fun row => readRow names (trim (String.ofList (rowText row))))

/-- The texts of items that show them. -/
theorem fieldStr_items (hr : r.ReadsDocuments) {α : Type} {key : String}
    (text : α → String) {xs : List α} {items : List Node}
    (h : List.Forall₂ (fun x item => HasText key (text x).toList item) xs items) :
    (items.map (childValue r)).map (fun it => fieldStr it key)
      = xs.map fun x => trim (text x) := by
  induction h with
  | nil => rfl
  | cons hx _ ih =>
      rw [List.map_cons, List.map_cons, List.map_cons, ih,
        fieldStr_of_hasText hr hx]

/-- A reply is read as the names and lines in it. -/
theorem readTable_reply (hr : r.ReadsDocuments) {names : List String}
    {rows : List (List Cell)} {d : Document} (hd : TableReply names rows d) :
    readTable r d.render = decoded names rows := by
  obtain ⟨body, call, fields, data, hbody, hcall, hfields, hdata, hnames,
    hrows⟩ := hd.shows
  have hroot : xmlToJsonRoot r d.render = .ok (childValue r d.root) := by
    have hdepth := hd.depth
    cases hd' : d.root with
    | elem tag ns endPad =>
        rw [hd'] at hdepth
        unfold nodeHeight at hdepth
        have hread := xmlToJsonRoot_document hr hd.legal hd' (by omega)
        exact hread
    | empty tag => rw [hd'] at hbody; cases hbody
    | text s => rw [hd'] at hbody; cases hbody
    | cdata s => rw [hd'] at hbody; cases hbody
    | comment s => rw [hd'] at hbody; cases hbody
    | pi s => rw [hd'] at hbody; cases hbody
  have hpayload : extractBodyPayload (childValue r d.root)
      = .ok (childValue r call) := by
    unfold extractBodyPayload
    rw [get_of_childrenNamed hbody, childValue_of_only hcall]
    rfl
  have hnames' : fieldNames (childValue r call)
      = (names.map trim).filter fun s => !s.isEmpty := by
    unfold fieldNames
    rw [get_of_childrenNamed hfields]
    show ((asItems ((childValue r fields).get "item")).map _).filter _ = _
    rw [asItems_get, fieldStr_items hr id hnames]
    rfl
  have hwas : (asItems ((childValue r data).get "item")).map
        (fun it => fieldStr it "WA")
      = rows.map fun row => trim (String.ofList (rowText row)) := by
    rw [asItems_get]
    refine fieldStr_items hr (fun row => String.ofList (rowText row)) ?_
    simpa only [String.toList_ofList] using hrows
  unfold readTable
  rw [hroot]
  show (extractBodyPayload (childValue r d.root) >>= _) = _
  rw [hpayload]
  show parseReadTable (childValue r call) = _
  unfold parseReadTable decoded
  rw [hnames', get_of_childrenNamed hdata]
  have hrows' : ∀ ns : List String,
      (asItems ((childValue r data).get "item")).map
          (fun item => readRow ns (fieldStr item "WA"))
        = rows.map fun row => readRow ns (trim (String.ofList (rowText row))) := by
    intro ns
    have hmap := congrArg (List.map (readRow ns)) hwas
    rw [List.map_map, List.map_map] at hmap
    exact hmap
  exact if_congr Iff.rfl rfl (congrArg Except.ok (hrows' _))

-- ============================================================ cell by cell

/-- The value, its trailing blanks and the padding. -/
theorem Cell.text_eq (c : Cell) :
    ∃ blanks, c.text = c.bare ++ blanks
      ∧ ∀ a ∈ blanks, Text.isWhitespace a = true := by
  refine ⟨c.value.rtakeWhile (fun a => a == ' ') ++ List.replicate c.pad ' ',
    ?_, fun a ha => ?_⟩
  · unfold text bare
    rw [← List.append_assoc, List.rdropWhile_append_rtakeWhile]
  · have hblank : a = ' ' := by
      rcases List.mem_append.mp ha with ha | ha
      · simpa using List.mem_rtakeWhile_imp ha
      · exact List.eq_of_mem_replicate ha
    rw [hblank]
    decide

theorem Cell.trimBy_text (c : Cell) :
    Text.trimBy Text.isWhitespace c.text
      = Text.trimBy Text.isWhitespace c.bare := by
  obtain ⟨blanks, htext, hblanks⟩ := c.text_eq
  rw [htext]
  exact Text.trimBy_pad (l := []) c.bare (fun _ ha => (nomatch ha)) hblanks

theorem Cell.rdropWhile_text (c : Cell) :
    c.text.rdropWhile Text.isWhitespace
      = c.bare.rdropWhile Text.isWhitespace := by
  obtain ⟨blanks, htext, hblanks⟩ := c.text_eq
  rw [htext, Text.rdropWhile_append_of_all _ hblanks]

/-- No white space ends the text. -/
def EndsPlain (s : List Char) : Prop :=
  ∀ a, s.getLast? = some a → Text.isWhitespace a = false

theorem rdropWhile_eq_self_iff {s : List Char} :
    s.rdropWhile Text.isWhitespace = s ↔ EndsPlain s := by
  constructor
  · intro h a ha
    have hne : s ≠ [] := by
      intro heq
      subst heq
      cases ha
    have hlast := List.rdropWhile_eq_self_iff.mp h hne
    rw [List.getLast?_eq_some_getLast hne] at ha
    cases ha
    simpa using hlast
  · exact Text.rdropWhile_eq_self

/-- The first value, up to its trailing blanks, neither begins nor ends
with white space, and no other ends with it. -/
def RowFaithful : List Cell → Prop
  | [] => True
  | c :: cs => Text.Trimmed Text.isWhitespace c.bare
      ∧ ∀ c' ∈ cs, EndsPlain c'.bare

/-- The values as decoded. -/
def decodedCells : List Cell → List (List Char)
  | [] => []
  | c :: cs => Text.trimBy Text.isWhitespace c.text
      :: cs.map fun c' => c'.text.rdropWhile Text.isWhitespace

theorem length_decodedCells (row : List Cell) :
    (decodedCells row).length = row.length := by
  cases row with
  | nil => rfl
  | cons c cs =>
      unfold decodedCells
      rw [List.length_cons, List.length_map, List.length_cons]

/-- Which rows survive decoding. -/
theorem decodedCells_eq_iff (row : List Cell) :
    decodedCells row = row.map Cell.bare ↔ RowFaithful row := by
  cases row with
  | nil => exact ⟨fun _ => trivial, fun _ => rfl⟩
  | cons c cs =>
      unfold decodedCells RowFaithful
      rw [List.map_cons, List.cons_eq_cons, c.trimBy_text,
        Text.trimBy_eq_self_iff, List.map_inj_left]
      refine and_congr_right fun _ => forall₂_congr fun c' _ => ?_
      rw [c'.rdropWhile_text, rdropWhile_eq_self_iff]

/-- With as many parts as names, every name finds its part. -/
theorem mapIdx_getD_eq_zip {α β γ : Type} (names : List α) {parts : List β}
    (dflt : β) (f : β → γ) (h : parts.length = names.length) :
    names.mapIdx (fun i name => (name, f (parts.getD i dflt)))
      = names.zip (parts.map f) := by
  refine List.ext_getElem ?_ fun i hi hi' => ?_
  · rw [List.length_mapIdx, List.length_zip, List.length_map, h, Nat.min_self]
  · rw [List.length_mapIdx] at hi
    have hget : parts.getD i dflt = parts[i] := by
      rw [List.getD_eq_getElem?_getD, List.getElem?_eq_getElem (h ▸ hi)]
      rfl
    rw [List.getElem_mapIdx, List.getElem_zip, List.getElem_map, hget]

/-- The parts of a line go to the names in order. -/
theorem readRow_rowText {names : List String} {row : List Cell}
    (hne : names ≠ []) (hwidth : row.length = names.length)
    (hdelim : ∀ c ∈ row.dropLast, rowDelimiter ∉ c.value) :
    readRow names (trim (String.ofList (rowText row)))
      = { values := Map.ofEntries (names.zip ((decodedCells row).map fun s =>
          Value.string (String.ofList s))) } := by
  have hparts : (Text.splitn names.length rowDelimiter
        (trim (String.ofList (rowText row))).toList).map
          (List.rdropWhile Text.isWhitespace) = decodedCells row := by
    rw [toList_trim, String.toList_ofList]
    cases row with
    | nil => exact absurd (List.length_eq_zero_iff.mp hwidth.symm) hne
    | cons c cs =>
        have hundelim : ∀ y ∈ (c.text :: cs.map Cell.text).dropLast,
            rowDelimiter ∉ y := by
          intro y hy hmem
          rw [← List.map_cons, ← List.map_dropLast] at hy
          obtain ⟨c', hc', rfl⟩ := List.mem_map.mp hy
          rcases List.mem_append.mp hmem with hmem | hmem
          · exact hdelim c' hc' hmem
          · have hblank := List.eq_of_mem_replicate hmem
            revert hblank
            decide
        have hsep : Text.isWhitespace rowDelimiter = false := by decide
        have hsplit := Text.splitn_trimBy_intercalate hsep c.text
          (cs.map Cell.text) hundelim
        rw [List.length_map] at hsplit
        rw [← hwidth, List.length_cons]
        unfold rowText decodedCells
        rw [List.map_cons, hsplit, List.map_map]
        rfl
  generalize hp : Text.splitn names.length rowDelimiter
    (trim (String.ofList (rowText row))).toList = parts at hparts
  have hlen : parts.length = names.length := by
    rw [← hwidth, ← length_decodedCells row, ← hparts, List.length_map]
  unfold readRow
  rw [hp, ← hparts, List.map_map]
  exact congrArg (fun es => TableRow.mk (Map.ofEntries es))
    (mapIdx_getD_eq_zip names [] (fun raw =>
      Value.string (String.ofList (raw.rdropWhile Text.isWhitespace))) hlen)

/-- A row is decoded as expected exactly when its values survive. -/
theorem readRow_eq_expectedRow_iff {names : List String} {row : List Cell}
    (hne : names ≠ []) (hnd : names.Nodup) (hwidth : row.length = names.length)
    (hdelim : ∀ c ∈ row.dropLast, rowDelimiter ∉ c.value) :
    readRow names (trim (String.ofList (rowText row))) = expectedRow names row
      ↔ RowFaithful row := by
  have hinj : Function.Injective fun s : List Char =>
      Value.string (String.ofList s) := by
    intro s t h
    injection h with h
    exact String.ofList_injective h
  rw [readRow_rowText hne hwidth hdelim, ← decodedCells_eq_iff]
  unfold expectedRow
  constructor
  · intro h
    injection h with h
    have hvals := Map.ofEntries_zip_inj hnd
      (by rw [List.length_map, length_decodedCells, hwidth])
      (by rw [List.length_map, hwidth]) h
    refine hinj.list_map ?_
    rw [hvals, List.map_map]
    rfl
  · intro h
    rw [h, List.map_map]
    rfl

-- ============================================================= the whole reply

/-- A decoded row has no names but those it was read for. -/
theorem mem_names_of_get_readRow {names : List String} {wa key : String}
    {v : Value} (h : (readRow names wa).values.get key = some v) :
    key ∈ names := by
  have hmem := Map.mem_of_get_ofEntries h
  obtain ⟨i, hi, heq⟩ := List.mem_mapIdx.mp hmem
  cases heq
  exact List.getElem_mem hi

/-- A row that should be decoded has every name. -/
theorem get_expectedRow {names : List String} {row : List Cell}
    (hwidth : row.length = names.length) {name : String} (h : name ∈ names) :
    ((expectedRow names row).values.get name).isSome = true := by
  obtain ⟨i, hi, rfl⟩ := List.mem_iff_getElem.mp h
  have hi' : i < row.length := by omega
  have hmem : (names[i], Value.string (String.ofList row[i].bare))
      ∈ names.zip (row.map fun c => .string (String.ofList c.bare)) := by
    refine List.mem_iff_getElem.mpr ⟨i, ?_, ?_⟩
    · rw [List.length_zip, List.length_map]
      omega
    · rw [List.getElem_zip, List.getElem_map]
  exact Map.isSome_get_ofEntries hmem

/-- Trimming keeps trimmed non-empty names. -/
theorem names_of_trimmed {names : List String} (hnamed : ∀ n ∈ names, n ≠ "")
    (h : ∀ n ∈ names, Text.Trimmed Text.isWhitespace n.toList) :
    (names.map trim).filter (fun s => !s.isEmpty) = names := by
  have hmap : names.map trim = names := by
    rw [List.map_congr_left fun n hn => trim_eq_self_iff.mpr (h n hn)]
    exact List.map_id names
  rw [hmap, List.filter_eq_self]
  intro n hn
  simpa using hnamed n hn

/-- The reply decodes to exactly its rows if and only if some name is not
all white space and, where there are rows, no name begins or ends with
white space and every row's values survive. -/
theorem readTable_inverts_iff (hr : r.ReadsDocuments) {names : List String}
    {rows : List (List Cell)} (ht : IsTable names rows) {d : Document}
    (hd : TableReply names rows d) :
    readTable r d.render = .ok (rows.map (expectedRow names))
      ↔ (∃ n ∈ names, trim n ≠ "")
        ∧ ∀ row ∈ rows, (∀ n ∈ names, Text.Trimmed Text.isWhitespace n.toList)
          ∧ RowFaithful row := by
  rw [readTable_reply hr hd]
  unfold decoded
  have hsome : ((names.map trim).filter fun s => !s.isEmpty).isEmpty = true
      ↔ ¬ ∃ n ∈ names, trim n ≠ "" := by
    rw [List.isEmpty_iff, List.filter_eq_nil_iff]
    constructor
    · intro h hex
      obtain ⟨n, hn, hne⟩ := hex
      refine h _ (List.mem_map.mpr ⟨n, hn, rfl⟩) ?_
      simpa using hne
    · intro h s hs
      obtain ⟨n, hn, rfl⟩ := List.mem_map.mp hs
      by_contra hne
      exact h ⟨n, hn, by simpa using hne⟩
  by_cases hnone : ((names.map trim).filter fun s => !s.isEmpty).isEmpty = true
  · rw [if_pos hnone]
    exact ⟨fun h => (nomatch h), fun h => absurd h.1 (hsome.mp hnone)⟩
  · have hex : ∃ n ∈ names, trim n ≠ "" := by
      by_contra h
      exact hnone (hsome.mpr h)
    rw [if_neg hnone]
    constructor
    · intro h
      injection h with h
      rw [List.map_inj_left] at h
      refine ⟨hex, fun row hrow => ?_⟩
      -- the names decoded are trimmed, and every name is one of them
      have htrimmed : ∀ n ∈ names, Text.Trimmed Text.isWhitespace n.toList := by
        intro n hn
        obtain ⟨v, hv⟩ := Option.isSome_iff_exists.mp
          (get_expectedRow (ht.width row hrow) hn)
        rw [← h row hrow] at hv
        have hmem := (List.mem_filter.mp (mem_names_of_get_readRow hv)).1
        obtain ⟨m, -, rfl⟩ := List.mem_map.mp hmem
        exact trim_eq_self_iff.mp (trim_trim m)
      have hrow' := h row hrow
      rw [names_of_trimmed ht.named htrimmed] at hrow'
      exact ⟨htrimmed, (readRow_eq_expectedRow_iff ht.names_ne ht.distinct
        (ht.width row hrow) (ht.undelimited row hrow)).mp hrow'⟩
    · intro hcond
      obtain ⟨-, h⟩ := hcond
      refine congrArg Except.ok (List.map_congr_left fun row hrow => ?_)
      obtain ⟨htrimmed, hfaithful⟩ := h row hrow
      rw [names_of_trimmed ht.named htrimmed]
      exact (readRow_eq_expectedRow_iff ht.names_ne ht.distinct
        (ht.width row hrow) (ht.undelimited row hrow)).mpr hfaithful

end Reading

-- ======================================================= replies exist

/-- Items of one field each. -/
def listing (key : String) (texts : List String) : Value :=
  .array (texts.map fun t => .object [(key, .string t)])

/-- The reply without anything else in it. -/
def replyDocument (names : List String) (rows : List (List Cell)) : Document :=
  envelopeDocument "RFC_READ_TABLE.Response"
    [("DATA", listing "WA" (rows.map fun row => String.ofList (rowText row))),
      ("FIELDS", listing "FIELDNAME" names)]

/-- The element of a listed text. -/
def listed (key t : String) : Node :=
  element "item".toList [element key.toList (textNodes (xmlEscape t.toList))]

theorem itemNodes_listing (key : String) (texts : List String) :
    itemNodes (texts.map fun t => .object [(key, .string t)])
      = texts.map (listed key) := by
  induction texts with
  | nil => rfl
  | cons t texts ih =>
      rw [List.map_cons, List.map_cons, ← ih]
      rfl

theorem itemKeys_listing {key k : String} {texts : List String}
    (h : k ∈ itemKeys (texts.map fun t => .object [(key, .string t)])) :
    k = key := by
  induction texts with
  | nil => cases h
  | cons t texts ih =>
      rcases List.mem_append.mp h with h | h
      · exact List.mem_singleton.mp h
      · exact ih h

theorem itemsXml_listing (key : String) {texts : List String}
    (h : ∀ t ∈ texts, XmlChars t.toList) :
    itemsXml (texts.map fun t => .object [(key, .string t)]) := by
  induction texts with
  | nil => trivial
  | cons t texts ih =>
      exact ⟨⟨h t (List.mem_cons_self ..), trivial⟩,
        ih fun u hu => h u (List.mem_cons_of_mem _ hu)⟩

theorem nodesHeight_listed (key : String) (texts : List String) :
    nodesHeight (texts.map (listed key)) ≤ 2 := by
  induction texts with
  | nil => exact Nat.zero_le _
  | cons t texts ih =>
      have htext : ∀ s, nodesHeight (textNodes s) = 0 := by
        intro s
        unfold textNodes
        split <;> rfl
      rw [List.map_cons]
      simp only [nodesHeight, listed, element, nodeHeight, htext]
      omega

/-- The listed elements are the items, each showing its text. -/
theorem forall₂_listed (tag : List Char) {key : String}
    (hkey : ':' ∉ key.toList) (texts : List String) :
    List.Forall₂ (fun t item => HasText key t.toList item) texts
      (childrenNamed "item" (element tag (texts.map (listed key)))) := by
  have hall : childrenNamed "item" (element tag (texts.map (listed key)))
      = texts.map (listed key) := by
    refine List.filter_eq_self.mpr fun n hn => ?_
    obtain ⟨t, -, rfl⟩ := List.mem_map.mp hn
    rfl
  rw [hall, List.forall₂_map_right_iff, List.forall₂_same]
  intro t _
  refine ⟨element key.toList (textNodes (xmlEscape t.toList)), ?_,
    showsText_textNodes (unescape_xmlEscape _)⟩
  refine List.filter_eq_self.mpr fun n hn => ?_
  rw [List.mem_singleton.mp hn]
  show (true && localName key.toList == key) = true
  rw [localName_of_plain hkey, Bool.true_and, beq_self_eq_true]

/-- Every table of XML texts has a reply. -/
theorem tableReply_replyDocument {names : List String} {rows : List (List Cell)}
    (hnames : ∀ n ∈ names, XmlChars n.toList)
    (hrows : ∀ row ∈ rows, XmlChars (rowText row)) :
    TableReply names rows (replyDocument names rows) := by
  let texts := rows.map fun row => String.ofList (rowText row)
  have htexts : ∀ t ∈ texts, XmlChars t.toList := by
    intro t ht
    obtain ⟨row, hrow, rfl⟩ := List.mem_map.mp ht
    rw [String.toList_ofList]
    exact hrows row hrow
  have hcontent : paramsNodes [("DATA", listing "WA" texts),
        ("FIELDS", listing "FIELDNAME" names)]
      = [element "DATA".toList (texts.map (listed "WA")),
        element "FIELDS".toList (names.map (listed "FIELDNAME"))] := by
    show [element "DATA".toList (itemNodes (texts.map _)),
      element "FIELDS".toList (itemNodes (names.map _))] = _
    rw [itemNodes_listing, itemNodes_listing]
  have hroot : (replyDocument names rows).root = .elem envelopeTag
      [element "soap:Body".toList [element (callName "RFC_READ_TABLE.Response")
        [element "DATA".toList (texts.map (listed "WA")),
          element "FIELDS".toList (names.map (listed "FIELDNAME"))]]] [] := by
    rw [← hcontent]
    rfl
  refine ⟨?_, ?_, ?_⟩
  · refine envelopeDocument_legal (by decide)
      ⟨itemsXml_listing _ htexts, itemsXml_listing _ hnames, trivial⟩
      fun k hk => ?_
    rcases List.mem_cons.mp hk with rfl | hk
    · decide
    · rcases List.mem_append.mp hk with hk | hk
      · rw [itemKeys_listing hk]
        decide
      · rcases List.mem_cons.mp hk with rfl | hk
        · decide
        · rcases List.mem_append.mp hk with hk | hk
          · rw [itemKeys_listing hk]
            decide
          · cases hk
  · have hwa := nodesHeight_listed "WA" texts
    have hfield := nodesHeight_listed "FIELDNAME" names
    rw [hroot]
    simp only [element, nodeHeight, nodesHeight, maxXmlDepth]
    omega
  · rw [hroot]
    refine ⟨_, _, _, _, rfl, rfl, rfl, rfl, forall₂_listed _ (by decide) names, ?_⟩
    have hwa : ':' ∉ "WA".toList := by decide
    have hlisted := forall₂_listed "DATA".toList hwa texts
    rw [List.forall₂_map_left_iff] at hlisted
    simpa only [String.toList_ofList] using hlisted

/-- One row, a leading blank in either column. -/
def blankRow : List Cell := [⟨[' ', 'x'], 0⟩, ⟨[' ', 'y'], 1⟩]

/-- The second column's survives, the first's does not. -/
theorem leading_blank_lost :
    IsTable ["A", "B"] [blankRow]
      ∧ TableReply ["A", "B"] [blankRow] (replyDocument ["A", "B"] [blankRow])
      ∧ readTable lexReader (replyDocument ["A", "B"] [blankRow]).render
        = .ok [⟨[("A", .string "x"), ("B", .string " y")]⟩]
      ∧ readTable lexReader (replyDocument ["A", "B"] [blankRow]).render
        ≠ .ok ([blankRow].map (expectedRow ["A", "B"])) := by
  have hreply : TableReply ["A", "B"] [blankRow]
      (replyDocument ["A", "B"] [blankRow]) :=
    tableReply_replyDocument (by decide) (by decide)
  have hread : readTable lexReader (replyDocument ["A", "B"] [blankRow]).render
      = .ok [⟨[("A", .string "x"), ("B", .string " y")]⟩] := by
    rw [readTable_reply lexReader_reads hreply]
    rfl
  have hexpected : expectedRow ["A", "B"] blankRow
      = ⟨[("A", .string " x"), ("B", .string " y")]⟩ := rfl
  refine ⟨⟨by decide, by decide, by decide, by decide, by decide⟩, hreply, hread,
    fun h => ?_⟩
  rw [hread, List.map_singleton, hexpected] at h
  simp at h

/-- Two company codes, padded. -/
def companies : List (List Cell) :=
  [[⟨"1000".toList, 0⟩, ⟨"ACME Berlin".toList, 5⟩],
    [⟨"2000".toList, 0⟩, ⟨"ACME Paris".toList, 6⟩]]

theorem readTable_inverts_iff_companies :
    readTable lexReader (replyDocument ["BUKRS", "BUTXT"] companies).render
        = .ok (companies.map (expectedRow ["BUKRS", "BUTXT"]))
      ↔ (∃ n ∈ ["BUKRS", "BUTXT"], trim n ≠ "")
        ∧ ∀ row ∈ companies,
          (∀ n ∈ ["BUKRS", "BUTXT"], Text.Trimmed Text.isWhitespace n.toList)
            ∧ RowFaithful row :=
  readTable_inverts_iff lexReader_reads
    ⟨by decide, by decide, by decide, by decide, by decide⟩
    (tableReply_replyDocument (by decide) (by decide))

end SapAutomate.Soap
