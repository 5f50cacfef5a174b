/-
JSON-RPC messages as JSON (`mcp-core/src/jsonrpc.rs`): what the derived
`Serialize` writes, and what `Message::from_value` reads.

A message is written field by field in the order of its declaration;
an optional field that is `None` is skipped. As a `Value` — what
`to_value` gives, and what reading the text back gives — the fields are
a map. Reading picks the variant by the keys that are there and then
visits the fields: an `id` is tried as an `i64`, as a string and as the
unit; an optional field that is missing or `null` is `None`; unknown
fields are passed over.
-/
import SapAutomate.Mcp.Protocol

namespace SapAutomate.Mcp

open Json

-- ============================================================== writing

/-- `Id`, untagged. -/
def Id.toValue : Id → Value
  | .number n => .ofInt n
  | .string s => .string s
  | .null => .null

/-- An optional field, skipped if it is none. -/
def optField (name : String) (v : Option Value) : List (String × Value) :=
  v.toList.map fun v => (name, v)

/-- The fields of a `Request`. -/
def Request.fields (r : Request) : List (String × Value) :=
  [("jsonrpc", .string r.jsonrpc), ("id", r.id.toValue),
    ("method", .string r.method)] ++ optField "params" r.params

/-- The fields of a `Notification`. -/
def Notification.fields (n : Notification) : List (String × Value) :=
  [("jsonrpc", .string n.jsonrpc), ("method", .string n.method)]
    ++ optField "params" n.params

/-- The fields of an `ErrorObject`. -/
def ErrorObject.fields (e : ErrorObject) : List (String × Value) :=
  [("code", .ofInt e.code), ("message", .string e.message)]
    ++ optField "data" e.data

/-- The fields of a `Response`, its error object given as JSON. -/
def Response.fields (r : Response) (ofError : ErrorObject → Value) :
    List (String × Value) :=
  [("jsonrpc", .string r.jsonrpc), ("id", r.id.toValue)]
    ++ optField "result" r.result ++ optField "error" (r.error.map ofError)

/-- The fields of a message: the enum is untagged. -/
def Message.fields (ofError : ErrorObject → Value) :
    Message → List (String × Value)
  | .request r => r.fields
  | .response r => r.fields ofError
  | .notification n => n.fields

/-- `serde_json::to_vec`: the compact text, fields as declared. -/
def Message.text (m : Message) : String :=
  Value.toJson (.object (m.fields fun e => .object e.fields))

/-- `serde_json::to_value`: the same as a map. -/
def Message.toValue (m : Message) : Value :=
  .object (Map.ofEntries
    (m.fields fun e => .object (Map.ofEntries e.fields)))

-- ============================================================== reading

/-- `Id` from JSON. -/
def Id.ofJson : Value → Option Id
  | .string s => some (.string s)
  | .null => some .null
  | v => v.asI64.map .number

/-- `Request` from JSON. -/
def Request.ofJson (v : Value) : Option Request := do
  let fields ← v.structFields ["jsonrpc", "id", "method", "params"]
  let jsonrpc ← (fields "jsonrpc").bind Value.asStr
  let id ← (fields "id").bind Id.ofJson
  let method ← (fields "method").bind Value.asStr
  return ⟨jsonrpc, id, method, Value.optionField (fields "params")⟩

/-- `Notification` from JSON. -/
def Notification.ofJson (v : Value) : Option Notification := do
  let fields ← v.structFields ["jsonrpc", "method", "params"]
  let jsonrpc ← (fields "jsonrpc").bind Value.asStr
  let method ← (fields "method").bind Value.asStr
  return ⟨jsonrpc, method, Value.optionField (fields "params")⟩

/-- `ErrorObject` from JSON. -/
def ErrorObject.ofJson (v : Value) : Option ErrorObject := do
  let fields ← v.structFields ["code", "message", "data"]
  let code ← (fields "code").bind Value.asI32
  let message ← (fields "message").bind Value.asStr
  return ⟨code, message, Value.optionField (fields "data")⟩

/-- `Response` from JSON. -/
def Response.ofJson (v : Value) : Option Response := do
  let fields ← v.structFields ["jsonrpc", "id", "result", "error"]
  let jsonrpc ← (fields "jsonrpc").bind Value.asStr
  let id ← (fields "id").bind Id.ofJson
  let error ← match Value.optionField (fields "error") with
    | none => some none
    | some e => (ErrorObject.ofJson e).map some
  return ⟨jsonrpc, id, Value.optionField (fields "result"), error⟩

/-- `Message::from_value`. -/
def Message.fromValue (v : Value) : Option Message :=
  let hasMethod := (v.get "method").isSome
  let hasId := (v.get "id").isSome
  if hasMethod && hasId then (Request.ofJson v).map .request
  else if hasMethod then (Notification.ofJson v).map .notification
  else (Response.ofJson v).map .response

-- ================================================== what is read back

/-- The numbers fit the fields that hold them: an `i64` in an id, an
`i32` in an error code. -/
def Id.Fits : Id → Prop
  | .number n => -9223372036854775808 ≤ n ∧ n ≤ 9223372036854775807
  | _ => True

/-- The same for a message. -/
def Message.Fits : Message → Prop
  | .request r => r.id.Fits
  | .notification _ => True
  | .response r => r.id.Fits
      ∧ ∀ e, r.error = some e → -2147483648 ≤ e.code ∧ e.code ≤ 2147483647

/-- An error object as it is read back: data that is `null` is lost. -/
def ErrorObject.received (e : ErrorObject) : ErrorObject :=
  { e with data := Value.optionField e.data }

/-- A message as it is read back: an optional field that is `null` is
lost. -/
def Message.received : Message → Message
  | .request r => .request { r with params := Value.optionField r.params }
  | .notification n =>
      .notification { n with params := Value.optionField n.params }
  | .response r =>
      .response { r with
        result := Value.optionField r.result
        error := r.error.map ErrorObject.received }

/-- The message has a field of type `Option<Value>` that holds `null`:
its parameters, its result, or the data of its error. -/
def Message.HasNull : Message → Prop
  | .request r => r.params = some .null
  | .notification n => n.params = some .null
  | .response r => r.result = some .null
      ∨ ∃ e, r.error = some e ∧ e.data = some .null

/-- The number a message asks a response under. -/
def Message.requestNumber : Message → Option Int
  | .request r =>
      match r.id with
      | .number n => some n
      | _ => none
  | _ => none

/-- The response a message is, with the number it answers. -/
def Message.numberedResponse : Message → Option (Int × Response)
  | .response r =>
      match r.id with
      | .number n => some (n, r)
      | _ => none
  | _ => none

/-- The request a message is. -/
def Message.asRequest : Message → Option Request
  | .request r => some r
  | _ => none

/-- The response a message is. -/
def Message.asResponse : Message → Option Response
  | .response r => some r
  | _ => none

theorem optionField_eq_self_iff {v : Option Value} :
    Value.optionField v = v ↔ v ≠ some .null := by
  cases v with
  | none => simp [Value.optionField]
  | some v =>
      cases v with
      | null => simp [Value.optionField]
      | _ => simp [Value.optionField]

/-- Only such messages come back changed. -/
theorem received_eq_self_iff (m : Message) :
    m.received = m ↔ ¬ m.HasNull := by
  cases m with
  | request r =>
      obtain ⟨jsonrpc, id, method, params⟩ := r
      simp [Message.received, Message.HasNull, optionField_eq_self_iff]
  | notification n =>
      obtain ⟨jsonrpc, method, params⟩ := n
      simp [Message.received, Message.HasNull, optionField_eq_self_iff]
  | response r =>
      obtain ⟨jsonrpc, id, result, error⟩ := r
      cases error with
      | none => simp [Message.received, Message.HasNull,
          optionField_eq_self_iff]
      | some e =>
          obtain ⟨code, message, data⟩ := e
          simp [Message.received, Message.HasNull, ErrorObject.received,
            optionField_eq_self_iff]

theorem Id.ofJson_toValue {id : Id} (h : id.Fits) :
    Id.ofJson id.toValue = some id := by
  cases id with
  | number n =>
      have hread := Value.asI64_ofInt h
      simp only [Id.toValue, Value.ofInt] at hread ⊢
      simp only [Id.ofJson, hread, Option.map_some]
  | string s => rfl
  | null => rfl

@[simp] theorem optField_none (name : String) : optField name none = [] :=
  rfl

@[simp] theorem optField_some (name : String) (v : Value) :
    optField name (some v) = [(name, v)] := rfl

/-- The fields of an error object, found by name. -/
theorem ErrorObject.get_fields (e : ErrorObject) :
    let m := Map.ofEntries e.fields
    Map.get m "code" = some (.ofInt e.code)
      ∧ Map.get m "message" = some (.string e.message)
      ∧ Map.get m "data" = e.data := by
  obtain ⟨code, message, data⟩ := e
  have hnd : ((ErrorObject.mk code message data).fields.map
      Prod.fst).Nodup := by
    cases data with
    | none => simp [fields]
    | some d => simp [fields]
  simp only [Map.get_ofEntries hnd]
  cases data with
  | none => simp [fields, Map.get_cons]
  | some d => simp [fields, Map.get_cons]

theorem ErrorObject.ofJson_fields {e : ErrorObject}
    (h : -2147483648 ≤ e.code ∧ e.code ≤ 2147483647) :
    ErrorObject.ofJson (.object (Map.ofEntries e.fields))
      = some e.received := by
  obtain ⟨hcode, hmessage, hdata⟩ := e.get_fields
  simp [ErrorObject.ofJson, Value.structFields, hcode, hmessage, hdata,
    Value.asI32_ofInt h, Value.asStr, ErrorObject.received]

/-- The fields of a request, found by name. -/
theorem Request.get_fields (r : Request) :
    let m := Map.ofEntries r.fields
    Map.get m "jsonrpc" = some (.string r.jsonrpc)
      ∧ Map.get m "id" = some r.id.toValue
      ∧ Map.get m "method" = some (.string r.method)
      ∧ Map.get m "params" = r.params := by
  obtain ⟨jsonrpc, id, method, params⟩ := r
  have hnd : ((Request.mk jsonrpc id method params).fields.map
      Prod.fst).Nodup := by
    cases params with
    | none => simp [fields]
    | some p => simp [fields]
  simp only [Map.get_ofEntries hnd]
  cases params with
  | none => simp [fields, Map.get_cons]
  | some p => simp [fields, Map.get_cons]

/-- The fields of a notification, found by name: it has no id. -/
theorem Notification.get_fields (n : Notification) :
    let m := Map.ofEntries n.fields
    Map.get m "jsonrpc" = some (.string n.jsonrpc)
      ∧ Map.get m "id" = none
      ∧ Map.get m "method" = some (.string n.method)
      ∧ Map.get m "params" = n.params := by
  obtain ⟨jsonrpc, method, params⟩ := n
  have hnd : ((Notification.mk jsonrpc method params).fields.map
      Prod.fst).Nodup := by
    cases params with
    | none => simp [fields]
    | some p => simp [fields]
  simp only [Map.get_ofEntries hnd]
  cases params with
  | none => simp [fields, Map.get_cons]
  | some p => simp [fields, Map.get_cons]

/-- The fields of a response, found by name: it has no method. -/
theorem Response.get_fields (r : Response) (ofError : ErrorObject → Value) :
    let m := Map.ofEntries (r.fields ofError)
    Map.get m "jsonrpc" = some (.string r.jsonrpc)
      ∧ Map.get m "id" = some r.id.toValue
      ∧ Map.get m "method" = none
      ∧ Map.get m "result" = r.result
      ∧ Map.get m "error" = r.error.map ofError := by
  obtain ⟨jsonrpc, id, result, error⟩ := r
  have hnd : (((Response.mk jsonrpc id result error).fields ofError).map
      Prod.fst).Nodup := by
    cases result with
    | none => cases error <;> simp [fields]
    | some v => cases error <;> simp [fields]
  simp only [Map.get_ofEntries hnd]
  cases result with
  | none => cases error <;> simp [fields, Map.get_cons]
  | some v => cases error <;> simp [fields, Map.get_cons]

/-- Whatever the variant, it is read as itself. -/
theorem Message.fromValue_toValue {m : Message} (h : m.Fits) :
    Message.fromValue m.toValue = some m.received := by
  cases m with
  | request r =>
      obtain ⟨hjsonrpc, hid, hmethod, hparams⟩ := r.get_fields
      have hread := Id.ofJson_toValue h
      simp [fromValue, toValue, Message.fields, Value.get, hid, hmethod,
        Request.ofJson, Value.structFields, hjsonrpc, hparams, hread,
        Value.asStr, received]
  | notification n =>
      obtain ⟨hjsonrpc, hid, hmethod, hparams⟩ := n.get_fields
      simp [fromValue, toValue, Message.fields, Value.get, hid, hmethod,
        Notification.ofJson, Value.structFields, hjsonrpc, hparams,
        Value.asStr, received]
  | response r =>
      obtain ⟨hjsonrpc, hid, hmethod, hresult, herror⟩ :=
        r.get_fields fun e => .object (Map.ofEntries e.fields)
      have hread := Id.ofJson_toValue h.1
      cases he : r.error with
      | none =>
          rw [he, Option.map_none] at herror
          simp [fromValue, toValue, Message.fields, Value.get, hid, hmethod,
            Response.ofJson, Value.structFields, hjsonrpc, hresult, herror,
            hread, Value.asStr, received, he, Value.optionField]
      | some e =>
          rw [he, Option.map_some] at herror
          have herr := ErrorObject.ofJson_fields (h.2 e he)
          simp [fromValue, toValue, Message.fields, Value.get, hid, hmethod,
            Response.ofJson, Value.structFields, hjsonrpc, hresult, herror,
            hread, Value.asStr, received, he, Value.optionField, herr]

end SapAutomate.Mcp
