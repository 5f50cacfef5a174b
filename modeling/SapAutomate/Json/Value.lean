/-
`serde_json::Value` and its `Map`, as the crates build them: without the
`preserve_order` feature a `Map` is a `BTreeMap<String, Value>`, so
iteration is in ascending key order and `insert` replaces in place.

A map is its list of entries in iteration order. `Map.insert` keeps the
list strictly ascending, `Value.WF` says that every object of a value
is, and the readers below (`get`, `containsKey`) read any list.

Numbers are carried as the text `Display` gives them — the only thing
the crates ever do with a JSON number is print it, compare it or read
it back as an integer — with the alphabet of that text as a field.

The printers at the end are `serde_json`'s compact and pretty forms;
they reach error texts and tool results.
-/
import Mathlib.Data.List.Nodup
import Mathlib.Data.String.Basic

namespace SapAutomate.Json

-- ============================================================= values

/-- Characters of a printed JSON number. -/
def isNumberChar (c : Char) : Bool :=
  c.isDigit || c == '-' || c == '+' || c == '.' || c == 'e' || c == 'E'

/-- A JSON number, by its `Display` text. -/
structure Number where
  text : String
  ne_nil : text.toList ≠ []
  legal : text.toList.all isNumberChar = true
  deriving DecidableEq

/-- A JSON value; an object lists its entries in iteration order. -/
inductive Value where
  | null
  | bool (b : Bool)
  | number (n : Number)
  | string (s : String)
  | array (items : List Value)
  | object (fields : List (String × Value))

/-- `serde_json::Map`, in iteration order. -/
abbrev Map := List (String × Value)

-- =============================================================== maps

namespace Map

/-- `Map::get`. -/
def get : Map → String → Option Value
  | [], _ => none
  | (k, v) :: m, key => if k = key then some v else get m key

/-- `Map::contains_key`. -/
def containsKey (m : Map) (key : String) : Bool := (m.get key).isSome

/-- `Map::insert`: the entry's place in key order, replacing the value
of a key that is there. -/
def insert : Map → String → Value → Map
  | [], key, v => [(key, v)]
  | (k, w) :: m, key, v =>
      if key < k then (key, v) :: (k, w) :: m
      else if key = k then (key, v) :: m
      else (k, w) :: insert m key v

/-- A `json!` object: its entries inserted one after the other. -/
def ofEntries (entries : List (String × Value)) : Map :=
  entries.foldl (fun m e => m.insert e.1 e.2) []

/-- Entries in strictly ascending key order, as a `BTreeMap` iterates. -/
def Sorted (m : Map) : Prop := m.Pairwise fun a b => a.1 < b.1

@[simp] theorem get_nil (key : String) : get [] key = none := rfl

theorem get_cons (k : String) (v : Value) (m : Map) (key : String) :
    get ((k, v) :: m) key = if k = key then some v else get m key := rfl

@[simp] theorem get_cons_self (k : String) (v : Value) (m : Map) :
    get ((k, v) :: m) k = some v := if_pos rfl

theorem get_cons_ne {k key : String} (h : k ≠ key) (v : Value) (m : Map) :
    get ((k, v) :: m) key = get m key := if_neg h

/-- A key no entry carries is absent. -/
theorem get_eq_none {m : Map} {key : String} (h : ∀ e ∈ m, e.1 ≠ key) :
    m.get key = none := by
  induction m with
  | nil => rfl
  | cons e m ih =>
      obtain ⟨k, w⟩ := e
      rw [get_cons_ne (h _ (List.mem_cons_self ..))]
      exact ih fun e he => h e (List.mem_cons_of_mem _ he)

@[simp] theorem get_insert_self (m : Map) (key : String) (v : Value) :
    (m.insert key v).get key = some v := by
  induction m with
  | nil => exact get_cons_self ..
  | cons e m ih =>
      obtain ⟨k, w⟩ := e
      unfold insert
      split
      · exact get_cons_self ..
      · split
        · exact get_cons_self ..
        · next hne => rw [get_cons_ne fun h => hne h.symm]; exact ih

theorem get_insert_ne {key key' : String} (hne : key ≠ key') (m : Map)
    (v : Value) : (m.insert key v).get key' = m.get key' := by
  induction m with
  | nil => exact get_cons_ne hne ..
  | cons e m ih =>
      obtain ⟨k, w⟩ := e
      unfold insert
      split
      · exact get_cons_ne hne ..
      · split
        · next hk => subst hk; rw [get_cons_ne hne, get_cons_ne hne]
        · rw [get_cons, get_cons, ih]

/-- A key above every entry goes last. -/
theorem insert_of_forall_lt {m : Map} {key : String} (v : Value)
    (h : ∀ e ∈ m, e.1 < key) : m.insert key v = m ++ [(key, v)] := by
  induction m with
  | nil => rfl
  | cons e m ih =>
      obtain ⟨k, w⟩ := e
      have hk : k < key := h _ (List.mem_cons_self ..)
      unfold insert
      rw [if_neg (not_lt_of_gt hk), if_neg (ne_of_gt hk),
        ih fun e he => h e (List.mem_cons_of_mem _ he)]
      rfl

/-- The keys of an insertion: the new one and the old ones. -/
theorem mem_insert {m : Map} {key : String} {v : Value}
    {e : String × Value} (h : e ∈ m.insert key v) : e = (key, v) ∨ e ∈ m := by
  induction m with
  | nil => exact Or.inl (List.mem_singleton.mp h)
  | cons x m ih =>
      obtain ⟨k, w⟩ := x
      unfold insert at h
      split at h
      · exact List.mem_cons.mp h
      · split at h
        · rcases List.mem_cons.mp h with h | h
          · exact Or.inl h
          · exact Or.inr (List.mem_cons_of_mem _ h)
        · rcases List.mem_cons.mp h with h | h
          · exact Or.inr (h ▸ List.mem_cons_self ..)
          · exact (ih h).imp_right (List.mem_cons_of_mem _)

/-- Insertion keeps the entries in order. -/
theorem Sorted.insert {m : Map} (h : m.Sorted) (key : String) (v : Value) :
    (m.insert key v).Sorted := by
  induction m with
  | nil => exact List.pairwise_singleton ..
  | cons x m ih =>
      obtain ⟨k, w⟩ := x
      obtain ⟨hx, hm⟩ := List.pairwise_cons.mp h
      unfold Map.insert
      split
      · next hlt =>
        refine List.pairwise_cons.mpr ⟨fun e he => ?_, h⟩
        rcases List.mem_cons.mp he with rfl | he
        · exact hlt
        · exact lt_trans hlt (hx e he)
      · next hnlt =>
        split
        · next heq =>
          subst heq
          exact List.pairwise_cons.mpr ⟨hx, hm⟩
        · next hne =>
          refine List.pairwise_cons.mpr ⟨fun e he => ?_, ih hm⟩
          rcases mem_insert he with rfl | he
          · exact lt_of_le_of_ne (not_lt.mp hnlt) fun h => hne h.symm
          · exact hx e he

/-- An entry found after insertions was inserted or there before. -/
theorem get_foldl_insert {key : String} {v : Value} :
    ∀ (es : List (String × Value)) (m : Map),
      (es.foldl (fun m e => m.insert e.1 e.2) m).get key = some v →
      (key, v) ∈ es ∨ m.get key = some v := by
  intro es
  induction es with
  | nil => intro m h; exact Or.inr h
  | cons e es ih =>
      obtain ⟨k, w⟩ := e
      intro m h
      rcases ih (m.insert k w) h with h | h
      · exact Or.inl (List.mem_cons_of_mem _ h)
      · by_cases hk : k = key
        · subst hk
          rw [get_insert_self] at h
          cases h
          exact Or.inl (List.mem_cons_self ..)
        · rw [get_insert_ne hk] at h
          exact Or.inr h

/-- What is found was inserted. -/
theorem mem_of_get_ofEntries {es : List (String × Value)} {key : String}
    {v : Value} (h : (ofEntries es).get key = some v) : (key, v) ∈ es := by
  rcases get_foldl_insert es [] h with h | h
  · exact h
  · cases h

/-- A key inserted is found. -/
theorem isSome_get_ofEntries {es : List (String × Value)} {e : String × Value}
    (he : e ∈ es) : ((ofEntries es).get e.1).isSome = true := by
  have hkeep : ∀ (es : List (String × Value)) (m : Map),
      (m.get e.1).isSome = true ∨ e ∈ es →
      ((es.foldl (fun m e => m.insert e.1 e.2) m).get e.1).isSome = true := by
    intro es
    induction es with
    | nil => intro m h; exact h.elim id fun h => (nomatch h)
    | cons f es ih =>
        intro m h
        refine ih _ ?_
        by_cases hf : f.1 = e.1
        · left
          rw [← hf, get_insert_self]
          rfl
        · rw [get_insert_ne hf]
          refine h.imp_right fun h => ?_
          rcases List.mem_cons.mp h with rfl | h
          · exact absurd rfl hf
          · exact h
  exact hkeep es [] (Or.inr he)

/-- With distinct keys the map holds what the entries say. -/
theorem get_ofEntries {es : List (String × Value)}
    (hnd : (es.map Prod.fst).Nodup) (key : String) :
    (ofEntries es).get key = get es key := by
  have hfold : ∀ (es : List (String × Value)) (m : Map),
      (es.map Prod.fst).Nodup →
      (es.foldl (fun m e => m.insert e.1 e.2) m).get key
        = (get es key).or (m.get key) := by
    intro es
    induction es with
    | nil => intro m _; rfl
    | cons e es ih =>
        obtain ⟨k, w⟩ := e
        intro m hnd
        obtain ⟨hk, hnd⟩ := List.nodup_cons.mp hnd
        rw [List.foldl_cons, ih _ hnd]
        by_cases heq : k = key
        · subst heq
          have hnone : get es k = none :=
            get_eq_none fun e he h => hk (List.mem_map.mpr ⟨e, he, h⟩)
          rw [hnone, get_insert_self, get_cons_self]
          rfl
        · rw [get_insert_ne heq, get_cons_ne heq]
  have h := hfold es [] hnd
  rw [get_nil, Option.or_none] at h
  exact h

/-- Entries under distinct keys determine the values. -/
theorem ofEntries_zip_inj {keys : List String} (hnd : keys.Nodup)
    {vs ws : List Value} (hvs : vs.length = keys.length)
    (hws : ws.length = keys.length)
    (h : ofEntries (keys.zip vs) = ofEntries (keys.zip ws)) : vs = ws := by
  refine List.ext_getElem (hvs.trans hws.symm) fun i hi hi' => ?_
  have hk : i < keys.length := hvs ▸ hi
  have hmem : (keys[i], vs[i]) ∈ keys.zip vs :=
    List.mem_iff_getElem.mpr ⟨i, by rw [List.length_zip]; omega, by simp⟩
  obtain ⟨v, hv⟩ := Option.isSome_iff_exists.mp (isSome_get_ofEntries hmem)
  -- the value found is the one at the key's only place, in either list
  have hplace : ∀ {us : List Value} (hu : i < us.length),
      (keys[i], v) ∈ keys.zip us → us[i] = v := by
    intro us hu hm
    obtain ⟨j, hj, hzip⟩ := List.mem_iff_getElem.mp hm
    rw [List.getElem_zip, Prod.mk_inj] at hzip
    obtain ⟨hkey, hval⟩ := hzip
    have hij : j = i := (List.Nodup.getElem_inj_iff hnd).mp hkey
    subst hij
    exact hval
  rw [hplace hi (mem_of_get_ofEntries hv),
    hplace hi' (mem_of_get_ofEntries (h ▸ hv))]

end Map

-- ============================================================ readers

namespace Value

/-- `Value::get` with a string index: only objects have one. -/
def get : Value → String → Option Value
  | .object m, key => Map.get m key
  | _, _ => none

/-- `Value::as_str`. -/
def asStr : Value → Option String
  | .string s => some s
  | _ => none

/-- `Value::as_bool`. -/
def asBool : Value → Option Bool
  | .bool b => some b
  | _ => none

/-- `Value::as_object`. -/
def asObject : Value → Option Map
  | .object m => some m
  | _ => none

-- ======================================================= well-formedness

mutual

/-- Every object of the value is a `BTreeMap`: ascending distinct keys. -/
def WF : Value → Prop
  | .array items => itemsWF items
  | .object fields => Map.Sorted fields ∧ fieldsWF fields
  | _ => True
termination_by structural v => v

def itemsWF : List Value → Prop
  | [] => True
  | v :: vs => WF v ∧ itemsWF vs
termination_by structural vs => vs

def fieldsWF : List (String × Value) → Prop
  | [] => True
  | (_, v) :: m => WF v ∧ fieldsWF m
termination_by structural m => m

end

-- =========================================================== printing

/-- `serde_json`'s escape of one character of a string. -/
def escapeChar (c : Char) : List Char :=
  if c = '"' then ['\\', '"']
  else if c = '\\' then ['\\', '\\']
  else if c.toNat = 8 then ['\\', 'b']
  else if c.toNat = 9 then ['\\', 't']
  else if c.toNat = 10 then ['\\', 'n']
  else if c.toNat = 12 then ['\\', 'f']
  else if c.toNat = 13 then ['\\', 'r']
  else if c.toNat < 32 then
    ['\\', 'u', '0', '0', Nat.digitChar (c.toNat / 16),
      Nat.digitChar (c.toNat % 16)]
  else [c]

/-- A JSON string literal. -/
def quote (s : String) : String :=
  String.ofList ('"' :: s.toList.flatMap escapeChar ++ ['"'])

mutual

/-- The compact form, which is also `Display`. -/
def toJson : Value → String
  | .null => "null"
  | .bool b => if b then "true" else "false"
  | .number n => n.text
  | .string s => quote s
  | .array items => "[" ++ String.intercalate "," (itemsToJson items) ++ "]"
  | .object fields =>
      "\x7b" ++ String.intercalate "," (fieldsToJson fields) ++ "\x7d"
termination_by structural v => v

def itemsToJson : List Value → List String
  | [] => []
  | v :: vs => toJson v :: itemsToJson vs
termination_by structural vs => vs

def fieldsToJson : List (String × Value) → List String
  | [] => []
  | (k, v) :: m => (quote k ++ ":" ++ toJson v) :: fieldsToJson m
termination_by structural m => m

end

/-- A line break and `depth` levels of two blanks. -/
def newline (depth : Nat) : String :=
  String.ofList ('\n' :: List.replicate (2 * depth) ' ')

mutual

/-- The pretty form at a nesting depth. -/
def toJsonPretty : Value → Nat → String
  | .array (v :: vs), depth =>
      "[" ++ newline (depth + 1)
        ++ String.intercalate ("," ++ newline (depth + 1))
          (itemsToJsonPretty (v :: vs) (depth + 1))
        ++ newline depth ++ "]"
  | .object (e :: m), depth =>
      "\x7b" ++ newline (depth + 1)
        ++ String.intercalate ("," ++ newline (depth + 1))
          (fieldsToJsonPretty (e :: m) (depth + 1))
        ++ newline depth ++ "\x7d"
  | .array [], _ => "[]"
  | .object [], _ => "\x7b\x7d"
  | .null, _ => "null"
  | .bool b, _ => if b then "true" else "false"
  | .number n, _ => n.text
  | .string s, _ => quote s
termination_by structural v => v

def itemsToJsonPretty : List Value → Nat → List String
  | [], _ => []
  | v :: vs, depth => toJsonPretty v depth :: itemsToJsonPretty vs depth
termination_by structural vs => vs

def fieldsToJsonPretty : List (String × Value) → Nat → List String
  | [], _ => []
  | (k, v) :: m, depth =>
      (quote k ++ ": " ++ toJsonPretty v depth) :: fieldsToJsonPretty m depth
termination_by structural m => m

end

end Value

end SapAutomate.Json
