/-
Decoding `RFC_READ_TABLE` (`sap-automate-rfc/src/soap.rs`): the reply
lists the field names under `FIELDS` and, under `DATA`, one line for a
row with the values in field order between delimiters.
-/
import SapAutomate.Lib.Text
import SapAutomate.Json.Value
import SapAutomate.Rfc.Error

namespace SapAutomate.Soap

open Json Rfc

/-- `ROW_DELIMITER`. -/
def rowDelimiter : Char := '|'

/-- `TableRow`. -/
structure TableRow where
  values : Map

/-- `as_items`. -/
def asItems : Option Value → List Value
  | some (.array a) => a
  | some .null => []
  | none => []
  | some other => [other]

/-- `str::trim`. -/
def trim (s : String) : String :=
  String.ofList (Text.trimBy Text.isWhitespace s.toList)

/-- `field_str`. -/
def fieldStr (item : Value) (key : String) : String :=
  trim (((item.get key).bind Value.asStr).getD "")

/-- The names `parse_read_table` finds. -/
def fieldNames (payload : Value) : List String :=
  let fieldsNode := payload.get "FIELDS"
  let items := asItems (fieldsNode.bind fun f => f.get "item")
  (items.map fun it => fieldStr it "FIELDNAME").filter fun s => !s.isEmpty

/-- One row: a name without a part reads as the empty text. -/
def readRow (names : List String) (wa : String) : TableRow :=
  let parts := Text.splitn names.length rowDelimiter wa.toList
  { values := Map.ofEntries (names.mapIdx fun i name =>
      let raw := parts.getD i []
      (name, .string (String.ofList (raw.rdropWhile Text.isWhitespace)))) }

/-- `parse_read_table`. -/
def parseReadTable (payload : Value) : RfcResult (List TableRow) :=
  let names := fieldNames payload
  if names.isEmpty then
    .error (.internal "RFC_READ_TABLE returned no FIELDS metadata")
  else
    let dataItems := asItems ((payload.get "DATA").bind fun d => d.get "item")
    .ok (dataItems.map fun item => readRow names (fieldStr item "WA"))

-- ====================================================== small lemmas

@[simp] theorem toList_trim (s : String) :
    (trim s).toList = Text.trimBy Text.isWhitespace s.toList :=
  String.toList_ofList

/-- Trimming is done once. -/
theorem trim_trim (s : String) : trim (trim s) = trim s := by
  unfold trim
  rw [String.toList_ofList, Text.trimBy_trimBy fun _ h => h]

/-- A name that trimming leaves alone. -/
theorem trim_eq_self_iff {s : String} :
    trim s = s ↔ Text.Trimmed Text.isWhitespace s.toList := by
  rw [← Text.trimBy_eq_self_iff, ← String.toList_inj, toList_trim]

end SapAutomate.Soap
