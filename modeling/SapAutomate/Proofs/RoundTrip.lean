/-
A call read back from its own envelope.

`normalise` says what a parameter tree should read back as: scalars as
their texts, null fields gone, empty containers as the empty text, an
array as its `item` children. `absorb_elements` and `absorb_items` say
what the parser gathers from the children the writer wrote, and
`value_reads` puts the two together: they agree on a value exactly when
no array in it has a non-empty array for an item, whose contents
`write_scalar` leaves out.
-/
import SapAutomate.Proofs.EnvelopeTree
import SapAutomate.Proofs.TreeValue

namespace SapAutomate.Soap

open Json Rfc Xml

-- ========================================================== normalisation

/-- `Value::is_null`. -/
def isNull : Value → Bool
  | .null => true
  | _ => false

theorem isNull_iff {v : Value} : isNull v = true ↔ v = .null := by
  constructor
  · intro h
    cases v with
    | null => rfl
    | bool b => cases h
    | number n => cases h
    | string s => cases h
    | array items => cases h
    | object m => cases h
  · intro h
    rw [h]
    rfl

/-- An element that holds fields: without any, it is the empty text. -/
def fieldsValue : Map → Value
  | [] => .string ""
  | e :: m => .object (e :: m)

/-- The one entry for all items. -/
def itemEntries (vs : List Value) : Map :=
  (merged vs).toList.map fun v => ("item", v)

/-- An element that holds items. -/
def itemsValue (vs : List Value) : Value := fieldsValue (itemEntries vs)

mutual

/-- What a parameter reads back as. -/
def normalise : Value → Value
  | .null => .string ""
  | .bool b => .string (if b then "X" else "")
  | .number n => .string n.text
  | .string s => .string s
  | .array items => itemsValue (normaliseItems items)
  | .object m => fieldsValue (normaliseFields m)
termination_by structural v => v

def normaliseItems : List Value → List Value
  | [] => []
  | v :: vs => normalise v :: normaliseItems vs
termination_by structural vs => vs

/-- Null fields are absent. -/
def normaliseFields : List (String × Value) → List (String × Value)
  | [] => []
  | (k, v) :: m =>
      if isNull v then normaliseFields m
      else (k, normalise v) :: normaliseFields m
termination_by structural m => m

end

mutual

/-- Every string value, at any depth, is trimmed. -/
def StringsTrimmed : Value → Prop
  | .string s => Text.Trimmed Text.isWhitespace s.toList
  | .array items => itemsTrimmed items
  | .object m => fieldsTrimmed m
  | _ => True
termination_by structural v => v

def itemsTrimmed : List Value → Prop
  | [] => True
  | v :: vs => StringsTrimmed v ∧ itemsTrimmed vs
termination_by structural vs => vs

def fieldsTrimmed : List (String × Value) → Prop
  | [] => True
  | (_, v) :: m => StringsTrimmed v ∧ fieldsTrimmed m
termination_by structural m => m

end

/-- Parameters to be read back: objects in key order, written keys XML
names without a colon, strings trimmed XML text, and with the three
elements around it no more levels than the parser allows. -/
structure Codable (params : Map) : Prop where
  wf : (Value.object params).WF
  keys : ∀ k ∈ writtenKeys params, isName k.toList = true ∧ ':' ∉ k.toList
  chars : StringsXml (.object params)
  trimmed : StringsTrimmed (.object params)
  depth : 3 + nodesHeight (paramsNodes params) ≤ maxXmlDepth

mutual

/-- No array, at any depth, has a non-empty array for an item. -/
def NoNestedArrays : Value → Prop
  | .array items => itemsFlat items
  | .object m => fieldsFlat m
  | _ => True
termination_by structural v => v

def itemsFlat : List Value → Prop
  | [] => True
  | v :: vs => ((∀ a, v = .array a → a = []) ∧ NoNestedArrays v) ∧ itemsFlat vs
termination_by structural vs => vs

def fieldsFlat : List (String × Value) → Prop
  | [] => True
  | (_, v) :: m => NoNestedArrays v ∧ fieldsFlat m
termination_by structural m => m

end

-- ======================================================= shapes of values

theorem fieldsValue_not_array (m : Map) (a : List Value) :
    fieldsValue m ≠ .array a := by
  cases m with
  | nil => exact fun h => nomatch h
  | cons e m => exact fun h => nomatch h

theorem fieldsValue_inj {m m' : Map} (h : fieldsValue m = fieldsValue m') :
    m = m' := by
  cases m with
  | nil =>
      cases m' with
      | nil => rfl
      | cons e m' => cases h
  | cons e m =>
      cases m' with
      | nil => cases h
      | cons e' m' =>
          injection h

/-- No value reads back as an array. -/
theorem normalise_not_array (v : Value) (a : List Value) :
    normalise v ≠ .array a := by
  cases v with
  | array items => exact fieldsValue_not_array _ a
  | object m => exact fieldsValue_not_array _ a
  | null => exact fun h => nomatch h
  | bool b => exact fun h => nomatch h
  | number n => exact fun h => nomatch h
  | string s => exact fun h => nomatch h

theorem normaliseItems_not_array {vs : List Value} :
    ∀ v ∈ normaliseItems vs, ∀ a, v ≠ .array a := by
  induction vs with
  | nil => exact fun _ hv => nomatch hv
  | cons w vs ih =>
      intro v hv
      rcases List.mem_cons.mp hv with rfl | hv
      · exact normalise_not_array w
      · exact ih v hv

/-- Merging loses nothing of values that are no arrays. -/
theorem merged_inj {vs ws : List Value} (hvs : ∀ v ∈ vs, ∀ a, v ≠ .array a)
    (hws : ∀ w ∈ ws, ∀ a, w ≠ .array a) (h : merged vs = merged ws) :
    vs = ws := by
  match vs, ws, hvs, hws, h with
  | [], [], _, _, _ => rfl
  | [], [_], _, _, h => cases h
  | [], _ :: _ :: _, _, _, h => cases h
  | [_], [], _, _, h => cases h
  | _ :: _ :: _, [], _, _, h => cases h
  | [v], [w], _, _, h =>
      injection h with h
      rw [h]
  | [v], w :: x :: ws, hvs, _, h =>
      injection h with h
      exact absurd h (hvs v (List.mem_cons_self ..) _)
  | v :: x :: vs, [w], _, hws, h =>
      injection h with h
      exact absurd h.symm (hws w (List.mem_cons_self ..) _)
  | v :: x :: vs, w :: y :: ws, _, _, h =>
      injection h with h
      injection h

theorem itemsValue_inj {vs ws : List Value}
    (hvs : ∀ v ∈ vs, ∀ a, v ≠ .array a) (hws : ∀ w ∈ ws, ∀ a, w ≠ .array a)
    (h : itemsValue vs = itemsValue ws) : vs = ws := by
  have hinj : Function.Injective fun v : Value => ("item", v) :=
    Prod.mk_right_injective "item"
  have hentries : itemEntries vs = itemEntries ws := fieldsValue_inj h
  have hlist : (merged vs).toList = (merged ws).toList :=
    hinj.list_map hentries
  have hmerged : merged vs = merged ws := by
    rw [← Option.head?_toList (o := merged vs), hlist, Option.head?_toList]
  exact merged_inj hvs hws hmerged

/-- Only no items at all are the empty text. -/
theorem itemsValue_eq_empty {vs : List Value} :
    itemsValue vs = .string "" ↔ vs = [] := by
  match vs with
  | [] => exact ⟨fun _ => rfl, fun _ => rfl⟩
  | [_] => exact ⟨fun h => (nomatch h), fun h => (nomatch h)⟩
  | _ :: _ :: _ => exact ⟨fun h => (nomatch h), fun h => (nomatch h)⟩

-- ==================================================== gathering the children

/-- The content of the element for a field. -/
def valueContent : Value → List Node
  | .array items => itemNodes items
  | .object m => paramsNodes m
  | v => textNodes (writeScalar v)

/-- The content of the element for an item: nothing for an array. -/
def itemContent : Value → List Node
  | .object m => paramsNodes m
  | v => textNodes (writeScalar v)

theorem itemNodes_cons (item : Value) (items : List Value) :
    itemNodes (item :: items)
      = element "item".toList (itemContent item) :: itemNodes items := by
  cases item <;> rfl

theorem valueNodes_of_isNull {v : Value} (tag : List Char)
    (h : isNull v = true) : valueNodes tag v = [] := by
  rw [isNull_iff.mp h]
  rfl

theorem valueNodes_of_not_isNull {v : Value} (tag : List Char)
    (h : ¬ isNull v = true) :
    valueNodes tag v = [element tag (valueContent v)] := by
  cases v with
  | null => exact absurd rfl h
  | bool b => rfl
  | number n => rfl
  | string s => rfl
  | array items => rfl
  | object m => rfl

section Gathering

variable (r : Reader)

/-- The fields as the parser reads them. -/
def readFields : List (String × Value) → Map
  | [] => []
  | (k, v) :: m =>
      if isNull v then readFields m
      else (k, contentValue r (valueContent v)) :: readFields m

/-- The items as the parser reads them. -/
def readItems (items : List Value) : List Value :=
  items.map fun item => contentValue r (itemContent item)

/-- An element's value joins the map. -/
theorem absorbNode_element (st : Frame) (name : List Char)
    (ns : List Node) :
    absorbNode r st (element name ns) = st.child name (contentValue r ns) :=
  rfl

/-- A key above those of the map is appended to it. -/
theorem insertMerge_of_forall_lt {m : Map} {k : String} (v : Value)
    (h : ∀ e ∈ m, e.1 < k) : insertMerge m k v = m ++ [(k, v)] := by
  have hnone : m.get k = none := Map.get_eq_none fun e he => ne_of_lt (h e he)
  unfold insertMerge
  rw [hnone]
  exact Map.insert_of_forall_lt v h

/-- Fields in ascending order are gathered as they stand. -/
theorem absorb_params :
    ∀ (m : List (String × Value)) (st : Frame), Map.Sorted m →
      (∀ k ∈ writtenKeys m, ':' ∉ k.toList) →
      (∀ e ∈ st.map, ∀ f ∈ m, e.1 < f.1) →
      absorbNodes r st (paramsNodes m)
        = { st with
            map := st.map ++ readFields r m
            childCount := st.childCount + (readFields r m).length } := by
  intro m
  induction m with
  | nil =>
      intro st _ _ _
      show st = { st with map := st.map ++ [], childCount := _ + 0 }
      rw [List.append_nil]
      rfl
  | cons e m ih =>
      obtain ⟨k, v⟩ := e
      intro st hsorted hkeys hbelow
      obtain ⟨hfirst, hrest⟩ := List.pairwise_cons.mp hsorted
      unfold paramsNodes readFields
      by_cases hnull : isNull v = true
      · rw [if_pos hnull, valueNodes_of_isNull _ hnull, List.nil_append]
        refine ih st hrest (fun k' hk' => ?_) fun e he f hf => ?_
        · exact hkeys k' (List.mem_append_right _ hk')
        · exact hbelow e he f (List.mem_cons_of_mem _ hf)
      · have hcolon : ':' ∉ k.toList := by
          refine hkeys k (List.mem_append_left _ ?_)
          cases v with
          | null => exact absurd rfl hnull
          | bool b => exact List.mem_cons_self ..
          | number n => exact List.mem_cons_self ..
          | string s => exact List.mem_cons_self ..
          | array items => exact List.mem_cons_self ..
          | object m => exact List.mem_cons_self ..
        have hchild : absorbNode r st (element k.toList (valueContent v))
            = { st with
                map := st.map ++ [(k, contentValue r (valueContent v))]
                childCount := st.childCount + 1 } := by
          rw [absorbNode_element]
          unfold Frame.child
          rw [localName_of_plain hcolon, insertMerge_of_forall_lt]
          exact fun e he => hbelow e he _ (List.mem_cons_self ..)
        have hbelow' : ∀ e ∈ st.map ++ [(k, contentValue r (valueContent v))],
            ∀ f ∈ m, e.1 < f.1 := by
          intro e he f hf
          rcases List.mem_append.mp he with he | he
          · exact hbelow e he f (List.mem_cons_of_mem _ hf)
          · rw [List.mem_singleton.mp he]
            exact hfirst f hf
        rw [if_neg hnull, valueNodes_of_not_isNull _ hnull]
        show absorbNodes r (absorbNode r st _) (paramsNodes m) = _
        rw [hchild, ih _ hrest
          (fun k' hk' => hkeys k' (List.mem_append_right _ hk')) hbelow',
          List.append_assoc, List.length_cons]
        simp only [List.singleton_append]
        congr 1
        omega

/-- The fields of an element. -/
theorem contentValue_params {m : Map} (hm : m.Sorted)
    (hkeys : ∀ k ∈ writtenKeys m, ':' ∉ k.toList) :
    contentValue r (paramsNodes m) = fieldsValue (readFields r m) := by
  unfold contentValue
  rw [absorb_params r m .initial hm hkeys fun _ he => (nomatch he)]
  unfold Frame.finish Frame.initial
  cases readFields r m with
  | nil => rfl
  | cons e es =>
      rw [if_neg (by simp)]
      rfl

/-- An item joins those gathered before. -/
theorem insertMerge_item {vs : List Value} (hvs : ∀ v ∈ vs, ∀ a, v ≠ .array a)
    (v : Value) :
    insertMerge (itemEntries vs) "item" v = itemEntries (vs ++ [v]) := by
  have hreplace : ∀ w u : Value,
      Map.insert [("item", w)] "item" u = [("item", u)] := by
    intro w u
    unfold Map.insert
    rw [if_neg (lt_irrefl _), if_pos rfl]
  rcases vs with _ | ⟨w, _ | ⟨x, vs⟩⟩
  · rfl
  · have hw := hvs w (List.mem_cons_self ..)
    cases w with
    | array a => exact absurd rfl (hw a)
    | null => exact hreplace ..
    | bool b => exact hreplace ..
    | number n => exact hreplace ..
    | string s => exact hreplace ..
    | object m => exact hreplace ..
  · exact hreplace ..

/-- Items are gathered under one key, in order. -/
theorem absorb_items :
    ∀ (items vs : List Value) (st : Frame),
      (∀ v ∈ vs, ∀ a, v ≠ .array a) → st.map = itemEntries vs →
      (absorbNodes r st (itemNodes items)).map
          = itemEntries (vs ++ readItems r items)
        ∧ (absorbNodes r st (itemNodes items)).text = st.text
        ∧ (absorbNodes r st (itemNodes items)).childCount
          = st.childCount + items.length := by
  intro items
  induction items with
  | nil =>
      intro vs st _ hmap
      refine ⟨?_, rfl, rfl⟩
      show st.map = itemEntries (vs ++ [])
      rw [List.append_nil]
      exact hmap
  | cons item items ih =>
      intro vs st hvs hmap
      have hvs' : ∀ v ∈ vs ++ [contentValue r (itemContent item)],
          ∀ a, v ≠ .array a := by
        intro v hv
        rcases List.mem_append.mp hv with hv | hv
        · exact hvs v hv
        · rw [List.mem_singleton.mp hv]
          exact finish_not_array _
      have hmap' : (st.child "item".toList
            (contentValue r (itemContent item))).map
          = itemEntries (vs ++ [contentValue r (itemContent item)]) := by
        unfold Frame.child
        rw [localName_of_plain (by decide), hmap]
        exact insertMerge_item hvs _
      obtain ⟨hmap'', htext, hcount⟩ := ih _ _ hvs' hmap'
      rw [itemNodes_cons, absorbNodes, absorbNode_element]
      refine ⟨?_, htext, ?_⟩
      · rw [hmap'', List.append_assoc]
        rfl
      · rw [hcount, List.length_cons]
        show st.childCount + 1 + _ = _
        omega

/-- The items of an element. -/
theorem contentValue_items (items : List Value) :
    contentValue r (itemNodes items) = itemsValue (readItems r items) := by
  unfold contentValue
  obtain ⟨hmap, htext, hcount⟩ := absorb_items r items [] .initial
    (fun _ hv => (nomatch hv)) rfl
  rw [List.nil_append] at hmap
  unfold Frame.finish itemsValue
  rw [hmap, htext, hcount]
  cases items with
  | nil => rfl
  | cons item items =>
      rw [if_neg (by rw [List.length_cons]; omega)]
      have hne : itemEntries (readItems r (item :: items)) ≠ [] := by
        cases items <;> exact List.cons_ne_nil _ _
      cases hentries : itemEntries (readItems r (item :: items)) with
      | nil => exact absurd hentries hne
      | cons e es => rfl

end Gathering

-- ======================================================== reading it back

section Reading

variable {r : Reader}

/-- The text written for a scalar reads as the scalar's, if trimmed. -/
theorem contentValue_scalar (hr : r.ReadsDocuments) {v : Value}
    (hx : StringsXml v)
    (ht : Text.Trimmed Text.isWhitespace (scalarText v)) :
    contentValue r (textNodes (writeScalar v))
      = .string (String.ofList (scalarText v)) := by
  rw [contentValue_text hr (showsText_textNodes (writeScalar_legal hx).reads),
    Text.trimBy_eq_self_iff.mpr ht]

/-- A number's text has no white space. -/
theorem number_trimmed (n : Number) :
    Text.Trimmed Text.isWhitespace n.text.toList := by
  have hplain : ∀ c ∈ n.text.toList, Text.isWhitespace c = false := by
    intro c hc
    have hrange := numberChar_range (List.all_eq_true.mp n.legal c hc)
    by_contra hw
    rw [Bool.not_eq_false] at hw
    unfold Text.isWhitespace at hw
    simp only [Bool.or_eq_true, Bool.and_eq_true, beq_iff_eq,
      decide_eq_true_eq] at hw
    omega
  exact ⟨fun c hc => hplain c (List.mem_of_head? hc),
    fun c hc => hplain c (List.mem_of_getLast? hc)⟩

/-- An item other than an array has the content of a field. -/
theorem item_reads {item : Value} (hne : ∀ a, item ≠ .array a)
    (h : contentValue r (valueContent item) = normalise item
      ↔ NoNestedArrays item) :
    contentValue r (itemContent item) = normalise item
      ↔ (∀ a, item = .array a → a = []) ∧ NoNestedArrays item := by
  have hcontent : itemContent item = valueContent item := by
    cases item with
    | array a => exact absurd rfl (hne a)
    | null => rfl
    | bool b => rfl
    | number n => rfl
    | string s => rfl
    | object m => rfl
  rw [hcontent, h]
  exact ⟨fun hflat => ⟨fun a ha => absurd ha (hne a), hflat⟩, And.right⟩

/-- Of an array that is an item nothing is written. -/
theorem arrayItem_reads (a : List Value) :
    contentValue r (itemContent (.array a)) = normalise (.array a)
      ↔ (∀ b, Value.array a = .array b → b = []) ∧ NoNestedArrays (.array a) := by
  show Value.string "" = itemsValue (normaliseItems a) ↔ _
  rw [eq_comm, itemsValue_eq_empty]
  cases a with
  | nil => exact ⟨fun _ => ⟨fun _ h => by cases h; rfl, trivial⟩, fun _ => rfl⟩
  | cons v vs => exact ⟨fun h => (nomatch h), fun h => (nomatch h.1 _ rfl)⟩

theorem mem_itemKeys_cons {items : List Value} {k : String} (item : Value)
    (h : k ∈ itemKeys items) : k ∈ itemKeys (item :: items) := by
  unfold itemKeys
  exact List.mem_append_right _ h

/-- A key written for an item, were it a field, is the field's or one
written for the item. -/
theorem itemKey_of_valueKey {item : Value} {k' : String} (items : List Value)
    (hne : ∀ a, item ≠ .array a) (h : k' ∈ valueKeys "" item) :
    k' = "" ∨ k' ∈ itemKeys (item :: items) := by
  cases item with
  | null => cases h
  | bool b => exact .inl (List.mem_singleton.mp h)
  | number n => exact .inl (List.mem_singleton.mp h)
  | string s => exact .inl (List.mem_singleton.mp h)
  | array a => exact absurd rfl (hne a)
  | object m =>
      rcases List.mem_cons.mp h with h | h
      · exact .inl h
      · exact .inr (List.mem_append_left _ h)

mutual

/-- A field's value reads back as it should exactly when nothing is
left out of it. -/
theorem value_reads (hr : r.ReadsDocuments) (k : String) :
    ∀ v : Value, v.WF → StringsXml v → StringsTrimmed v →
      (∀ k' ∈ valueKeys k v, ':' ∉ k'.toList) →
      (contentValue r (valueContent v) = normalise v ↔ NoNestedArrays v)
  | .null, _, hx, _, _ => by
      have h := contentValue_scalar hr hx (Text.trimBy_eq_self_iff.mp rfl)
      exact ⟨fun _ => trivial, fun _ => h⟩
  | .bool b, _, hx, _, _ => by
      have h := contentValue_scalar hr hx
        (Text.trimBy_eq_self_iff.mp (by cases b <;> rfl))
      refine ⟨fun _ => trivial, fun _ => ?_⟩
      unfold valueContent
      rw [h]
      cases b <;> rfl
  | .number n, _, hx, _, _ => by
      have h := contentValue_scalar hr hx (number_trimmed n)
      refine ⟨fun _ => trivial, fun _ => ?_⟩
      unfold valueContent
      rw [h]
      exact congrArg Value.string (String.ofList_toList ..)
  | .string s, _, hx, ht, _ => by
      have h := contentValue_scalar hr hx ht
      refine ⟨fun _ => trivial, fun _ => ?_⟩
      unfold valueContent
      rw [h]
      exact congrArg Value.string (String.ofList_toList ..)
  | .array items, hwf, hx, ht, hk => by
      have ih := items_read hr items hwf hx ht fun k' hk' =>
        hk k' (List.mem_cons_of_mem _ hk')
      unfold valueContent NoNestedArrays normalise
      rw [contentValue_items, ← ih]
      refine ⟨fun h => itemsValue_inj ?_ normaliseItems_not_array h,
        fun h => by rw [h]⟩
      intro v hv
      obtain ⟨item, -, rfl⟩ := List.mem_map.mp hv
      exact finish_not_array _
  | .object m, hwf, hx, ht, hk => by
      have hkeys : ∀ k' ∈ writtenKeys m, ':' ∉ k'.toList := fun k' hk' =>
        hk k' (List.mem_cons_of_mem _ hk')
      have ih := fields_read hr m hwf.2 hx ht hkeys
      unfold valueContent NoNestedArrays normalise
      rw [contentValue_params r hwf.1 hkeys, ← ih]
      exact ⟨fieldsValue_inj, fun h => by rw [h]⟩
termination_by structural v => v

theorem items_read (hr : r.ReadsDocuments) :
    ∀ items : List Value, Value.itemsWF items → itemsXml items →
      itemsTrimmed items → (∀ k ∈ itemKeys items, ':' ∉ k.toList) →
      (readItems r items = normaliseItems items ↔ itemsFlat items)
  | [], _, _, _, _ => ⟨fun _ => trivial, fun _ => rfl⟩
  | item :: items, hwf, hx, ht, hk => by
      have ihs := items_read hr items hwf.2 hx.2 ht.2 fun k hk' =>
        hk k (mem_itemKeys_cons item hk')
      have hitem : contentValue r (itemContent item) = normalise item
          ↔ (∀ a, item = .array a → a = []) ∧ NoNestedArrays item := by
        by_cases harray : ∃ a, item = .array a
        · obtain ⟨a, rfl⟩ := harray
          exact arrayItem_reads a
        · have hne : ∀ a, item ≠ .array a := fun a ha => harray ⟨a, ha⟩
          refine item_reads hne
            (value_reads hr "" item hwf.1 hx.1 ht.1 fun k' hk' => ?_)
          rcases itemKey_of_valueKey items hne hk' with rfl | hk'
          · decide
          · exact hk k' hk'
      unfold normaliseItems itemsFlat
      rw [← hitem, ← ihs]
      exact List.cons_eq_cons
termination_by structural items => items

theorem fields_read (hr : r.ReadsDocuments) :
    ∀ m : List (String × Value), Value.fieldsWF m → fieldsXml m →
      fieldsTrimmed m → (∀ k ∈ writtenKeys m, ':' ∉ k.toList) →
      (readFields r m = normaliseFields m ↔ fieldsFlat m)
  | [], _, _, _, _ => ⟨fun _ => trivial, fun _ => rfl⟩
  | (k, v) :: m, hwf, hx, ht, hk => by
      have ihv := value_reads hr k v hwf.1 hx.1 ht.1 fun k' hk' =>
        hk k' (List.mem_append_left _ hk')
      have ihm := fields_read hr m hwf.2 hx.2 ht.2 fun k' hk' =>
        hk k' (List.mem_append_right _ hk')
      unfold readFields normaliseFields fieldsFlat
      rw [← ihm]
      by_cases hnull : isNull v = true
      · have hflat : NoNestedArrays v := by
          rw [isNull_iff.mp hnull]
          trivial
        rw [if_pos hnull, if_pos hnull]
        exact ⟨fun h => ⟨hflat, h⟩, And.right⟩
      · rw [if_neg hnull, if_neg hnull, List.cons_eq_cons, Prod.mk_inj, ihv]
        exact ⟨fun h => ⟨h.1.2, h.2⟩, fun h => ⟨⟨rfl, h.1⟩, h.2⟩⟩
termination_by structural m => m

end

-- =========================================================== the envelope

/-- What is read back from a call's own envelope. -/
def readBack (r : Reader) (function : String) (params : Map) :
    RfcResult Value := do
  let root ← xmlToJsonRoot r (buildEnvelope function (writeParams params))
  extractBodyPayload root

/-- An element with one child. -/
theorem contentValue_single (name : List Char) (ns : List Node) :
    contentValue r [element name ns]
      = .object [(localName name, contentValue r ns)] := rfl

/-- The payload read back is the call's own content. -/
theorem readBack_eq (hr : r.ReadsDocuments) {f : String} {params : Map}
    (hd : (envelopeDocument f params).Legal)
    (hdepth : 3 + nodesHeight (paramsNodes params) ≤ maxXmlDepth) :
    readBack r f params = .ok (contentValue r (paramsNodes params)) := by
  have hheight : 1 + nodesHeight [element "soap:Body".toList
      [element (callName f) (paramsNodes params)]] ≤ maxXmlDepth := by
    simp only [element, nodesHeight, nodeHeight]
    omega
  have hread := xmlToJsonRoot_document hr hd rfl hheight
  have hbody : localName "soap:Body".toList = "Body" := by decide
  rw [render_envelopeDocument, contentValue_single, contentValue_single,
    hbody] at hread
  unfold readBack
  rw [hread]
  rfl

/-- A call reads back as its normalised parameters exactly when no
array in them, at any depth, has a non-empty array for an item. -/
theorem envelope_roundTrip_iff (hr : r.ReadsDocuments) {f : String}
    (hf : isName (callName f) = true) {params : Map} (hp : Codable params) :
    readBack r f params = .ok (normalise (.object params))
      ↔ NoNestedArrays (.object params) := by
  have hd := envelopeDocument_legal hf hp.chars fun k hk => (hp.keys k hk).1
  have hcolon : ∀ k' ∈ valueKeys "" (.object params), ':' ∉ k'.toList := by
    intro k hk
    rcases List.mem_cons.mp hk with rfl | hk
    · decide
    · exact (hp.keys k hk).2
  rw [readBack_eq hr hd hp.depth,
    ← value_reads hr "" _ hp.wf hp.chars hp.trimmed hcolon]
  exact ⟨fun h => by injection h, fun h => congrArg Except.ok h⟩

end Reading

/-- An array inside an array: its items are lost. -/
theorem nested_items_lost :
    isName (callName "Z_ROWS") = true
      ∧ Codable [("ROWS", .array [.array [.string "1"], .string "2"])]
      ∧ readBack lexReader "Z_ROWS"
          [("ROWS", .array [.array [.string "1"], .string "2"])]
        = .ok (.object [("ROWS", .object
          [("item", .array [.string "", .string "2"])])])
      ∧ readBack lexReader "Z_ROWS"
          [("ROWS", .array [.array [.string "1"], .string "2"])]
        ≠ .ok (normalise (.object
          [("ROWS", .array [.array [.string "1"], .string "2"])])) := by
  have hname : isName (callName "Z_ROWS") = true := by decide
  have hp : Codable [("ROWS", .array [.array [.string "1"], .string "2"])] :=
    { wf := ⟨List.pairwise_singleton .., ⟨⟨trivial, trivial⟩, trivial, trivial⟩,
        trivial⟩
      keys := by decide
      chars := by decide
      trimmed := ⟨⟨⟨Text.trimBy_eq_self_iff.mp (by decide), trivial⟩,
        Text.trimBy_eq_self_iff.mp (by decide), trivial⟩, trivial⟩
      depth := by decide }
  have hread := readBack_eq lexReader_reads
    (envelopeDocument_legal hname hp.chars fun k hk => (hp.keys k hk).1) hp.depth
  refine ⟨hname, hp, ?_, ?_⟩
  · rw [hread]
    rfl
  · rw [hread]
    intro h
    injection h with h
    have hflat := (value_reads lexReader_reads "" (.object _) hp.wf hp.chars
      hp.trimmed (by decide)).mp h
    exact nomatch hflat.1.1.1 _ rfl

/-- A structure in a table, a flag and an absent field. -/
theorem envelope_roundTrip_iff_options :
    readBack lexReader "RFC_READ_TABLE"
        [("NO_DATA", .bool true), ("OPTIONS",
          .array [.object [("TEXT", .string "MANDT EQ '100'")]]),
          ("ROWCOUNT", .null)]
      = .ok (normalise (.object [("NO_DATA", .bool true), ("OPTIONS",
          .array [.object [("TEXT", .string "MANDT EQ '100'")]]),
          ("ROWCOUNT", .null)]))
      ↔ NoNestedArrays (.object [("NO_DATA", .bool true), ("OPTIONS",
          .array [.object [("TEXT", .string "MANDT EQ '100'")]]),
          ("ROWCOUNT", .null)]) := by
  refine envelope_roundTrip_iff lexReader_reads (by decide) ⟨?_, ?_, ?_, ?_, ?_⟩
  · refine ⟨?_, trivial, ⟨⟨List.pairwise_singleton .., trivial, trivial⟩, trivial⟩,
      trivial, trivial⟩
    unfold Map.Sorted
    decide
  · decide
  · decide
  · exact ⟨trivial, ⟨⟨Text.trimBy_eq_self_iff.mp (by decide), trivial⟩, trivial⟩,
      trivial, trivial⟩
  · decide

end SapAutomate.Soap
