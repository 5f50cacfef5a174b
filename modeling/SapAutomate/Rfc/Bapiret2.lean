/-
The BAPIRET2 parser (`sap-automate-rfc/src/bapiret2.rs`): a reply of any
JSON shape is walked for row-shaped objects, and each row found becomes
a typed message.

The walk stops at two places. It does not look below depth 8, and it
does not descend into an object it has recognised as a row. What lies
past either is not seen by the commit decision.
-/
import SapAutomate.Json.Value

namespace SapAutomate.Rfc

open Json

-- ========================================================== severities

/-- `BapiRet2Severity`. -/
inductive BapiRet2Severity where
  | success
  | error
  | warning
  | info
  | abort
  | unknown (c : Char)
  deriving DecidableEq

namespace BapiRet2Severity

/-- `from_char`, on the ASCII-uppercased character. -/
def fromChar (c : Char) : BapiRet2Severity :=
  if c.toUpper = 'S' then .success
  else if c.toUpper = 'E' then .error
  else if c.toUpper = 'W' then .warning
  else if c.toUpper = 'I' then .info
  else if c.toUpper = 'A' then .abort
  else .unknown c.toUpper

/-- `is_failure`: an unknown severity counts as one. -/
def isFailure : BapiRet2Severity → Bool
  | .error | .abort | .unknown _ => true
  | .success | .warning | .info => false

end BapiRet2Severity

-- ============================================================ messages

/-- `BapiRet2Message`. -/
structure BapiRet2Message where
  severity : BapiRet2Severity
  messageClass : String
  messageNumber : String
  text : String
  parameter : Option String
  row : Option Int
  field : Option String
  system : Option String
  deriving DecidableEq

/-- `BapiRet2Message::is_failure`. -/
def BapiRet2Message.isFailure (m : BapiRet2Message) : Bool :=
  m.severity.isFailure

-- ============================================================== rows

/-- `first_str`: the first of the keys holding a string or a number. -/
def firstStr (obj : Map) : List String → Option String
  | [] => none
  | k :: ks =>
      match obj.get k with
      | some (.string s) => some s
      | some (.number n) => some n.text
      | _ => firstStr obj ks

/-- `str::parse::<i32>`: an optional sign, then digits, in range. -/
def parseI32 (s : String) : Option Int :=
  let digits (cs : List Char) : Option Nat :=
    if cs = [] ∨ cs.all Char.isDigit = false then none
    else some (cs.foldl (fun n c => 10 * n + (c.toNat - '0'.toNat)) 0)
  let value : Option Int :=
    match s.toList with
    | '-' :: cs => (digits cs).map fun n => -(n : Int)
    | '+' :: cs => (digits cs).map fun n => (n : Int)
    | cs => (digits cs).map fun n => (n : Int)
  value.filter fun n => decide (-2147483648 ≤ n ∧ n ≤ 2147483647)

/-- The severity `parse_one` reads off a row: the first character of
its type text, unknown when there is none. -/
def rowSeverity (obj : Map) : BapiRet2Severity :=
  match ((firstStr obj ["TYPE", "type"]).getD "").toList with
  | c :: _ => .fromChar c
  | [] => .unknown ' '

/-- `parse_one`. -/
def parseOne : Value → Option BapiRet2Message
  | .object obj => some
      { severity := rowSeverity obj
        messageClass := (firstStr obj ["ID", "id"]).getD ""
        messageNumber := (firstStr obj ["NUMBER", "number"]).getD ""
        text := (firstStr obj ["MESSAGE", "message"]).getD ""
        parameter := firstStr obj ["PARAMETER", "parameter"]
        row := (firstStr obj ["ROW", "row"]).bind parseI32
        field := firstStr obj ["FIELD", "field"]
        system := firstStr obj ["SYSTEM", "system"] }
  | _ => none

/-- The heuristic of `walk`: an object with a type key and a message
key. The comment it carries in the source also admits a `NUMBER` key in
the second place; the code does not. -/
def looksLikeRow (map : Map) : Bool :=
  (map.containsKey "TYPE" || map.containsKey "type")
    && (map.containsKey "MESSAGE" || map.containsKey "message")

/-- The depth below which `walk` does not look. -/
def maxWalkDepth : Nat := 8

mutual

/-- `walk`: the rows of `v`, in the order they are pushed. -/
def walk : Value → Nat → List Value
  | v, depth =>
      if depth > maxWalkDepth then []
      else match v with
        | .object map =>
            if looksLikeRow map then [v] else walkValues map (depth + 1)
        | .array arr => walkItems arr (depth + 1)
        | _ => []
termination_by structural v => v

def walkItems : List Value → Nat → List Value
  | [], _ => []
  | v :: vs, depth => walk v depth ++ walkItems vs depth
termination_by structural vs => vs

def walkValues : List (String × Value) → Nat → List Value
  | [], _ => []
  | (_, v) :: m, depth => walk v depth ++ walkValues m depth
termination_by structural m => m

end

/-- `collect_candidates`. -/
def collectCandidates (value : Value) : List Value := walk value 0

/-- `parse_bapiret2`. -/
def parseBapiret2 (value : Value) : List BapiRet2Message :=
  (collectCandidates value).filterMap parseOne

/-- `has_failure`. -/
def hasFailure (messages : List BapiRet2Message) : Bool :=
  messages.any BapiRet2Message.isFailure

-- ====================================================== small lemmas

@[simp] theorem hasFailure_nil : hasFailure [] = false := rfl

@[simp] theorem hasFailure_append (xs ys : List BapiRet2Message) :
    hasFailure (xs ++ ys) = (hasFailure xs || hasFailure ys) :=
  List.any_append

/-- A failing message makes the list fail. -/
theorem hasFailure_of_mem {m : BapiRet2Message}
    {messages : List BapiRet2Message} (hm : m ∈ messages)
    (hf : m.isFailure = true) : hasFailure messages = true :=
  List.any_eq_true.mpr ⟨m, hm, hf⟩

/-- Rows, not descended into, up to the depth limit. -/
theorem walk_row {map : Map} {depth : Nat} (hrow : looksLikeRow map = true)
    (hd : depth ≤ maxWalkDepth) : walk (.object map) depth = [.object map] := by
  unfold walk
  rw [if_neg (Nat.not_lt.mpr hd)]
  simp only [hrow, if_true]

theorem walk_object {map : Map} {depth : Nat}
    (hrow : looksLikeRow map = false) (hd : depth ≤ maxWalkDepth) :
    walk (.object map) depth = walkValues map (depth + 1) := by
  unfold walk
  rw [if_neg (Nat.not_lt.mpr hd)]
  simp only [hrow, Bool.false_eq_true, if_false]

theorem walk_array {arr : List Value} {depth : Nat}
    (hd : depth ≤ maxWalkDepth) :
    walk (.array arr) depth = walkItems arr (depth + 1) := by
  unfold walk
  rw [if_neg (Nat.not_lt.mpr hd)]

/-- What an item holds, the array holds. -/
theorem mem_walkItems {v w : Value} {arr : List Value} {depth : Nat}
    (hv : v ∈ arr) (hw : w ∈ walk v depth) : w ∈ walkItems arr depth := by
  induction arr with
  | nil => cases hv
  | cons x xs ih =>
      unfold walkItems
      rcases List.mem_cons.mp hv with rfl | hv
      · exact List.mem_append_left _ hw
      · exact List.mem_append_right _ (ih hv)

/-- What a field's value holds, the object's fields hold. -/
theorem mem_walkValues {k : String} {v w : Value} {map : Map} {depth : Nat}
    (hv : (k, v) ∈ map) (hw : w ∈ walk v depth) :
    w ∈ walkValues map depth := by
  induction map with
  | nil => cases hv
  | cons e m ih =>
      obtain ⟨k', x⟩ := e
      unfold walkValues
      rcases List.mem_cons.mp hv with h | hv
      · cases h
        exact List.mem_append_left _ hw
      · exact List.mem_append_right _ (ih hv)

end SapAutomate.Rfc
