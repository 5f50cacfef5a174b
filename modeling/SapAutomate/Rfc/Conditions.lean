/-
The where clauses of `RFC_READ_TABLE`, as the offline client reads them
(`parse_conditions` of `sap-automate-rfc/src/client.rs`).

Positions are byte positions in UTF-8. The operator `LIKE` is looked for in
an upper-cased copy of the clause, and the clause is cut where it stands in
the copy: a cut off a character boundary, or past the end, is a panic.
-/
import SapAutomate.Rfc.Error
import SapAutomate.Ingest.Chunker

namespace SapAutomate.Rfc

open Ingest

/-- `char::to_uppercase`, as far as a clause depends on it: the letters that
`LIKE` is written with, the blanks around it, that nothing vanishes, and that
ASCII stays ASCII. -/
structure Uppercase where
  map : Char → List Char
  ne_nil : ∀ c, map c ≠ []
  blank : map ' ' = [' ']
  blank_only : ∀ c, ' ' ∈ map c → c = ' '
  letters : ∀ c, (∀ x ∈ map c, x ∈ ['L', 'I', 'K', 'E']) →
    (c, map c) ∈ [('l', ['L']), ('L', ['L']), ('i', ['I']), ('I', ['I']),
      ('ı', ['I']), ('k', ['K']), ('K', ['K']), ('e', ['E']), ('E', ['E'])]
  ascii : ∀ c, c.toNat < 128 → byteLen (map c) = 1

/-- `str::to_uppercase`. -/
def Uppercase.apply (u : Uppercase) (s : List Char) : List Char :=
  s.flatMap u.map

/-- `str::find`. -/
def findStr (pat : List Char) : List Char → Option Nat
  | [] => if pat = [] then some 0 else none
  | c :: s =>
      if pat.isPrefixOf (c :: s) then some 0
      else (findStr pat s).map (c.utf8Size + ·)

/-- A condition: `(field, op, value)`. -/
structure Condition where
  field : List Char
  op : String
  value : List Char
  deriving DecidableEq

/-- `" LIKE "`. -/
def likeOp : List Char := [' ', 'L', 'I', 'K', 'E', ' ']

/-- `trim_matches('\'')`, of what is trimmed. -/
def literal (s : List Char) : List Char :=
  Text.trimBy (· == '\'') (Ingest.trim s)

/-- The parts around an operator of this many bytes, at this position. -/
def cutAt (trimmed : List Char) (op : String) (idx len : Nat) :
    Option Condition :=
  (slice trimmed 0 idx).bind fun f =>
    (slice trimmed (idx + len) (byteLen trimmed)).map fun v =>
      ⟨Ingest.trim f, op, literal v⟩

/-- The reason given for a clause that is refused. -/
def unsupportedClause (s : List Char) : RfcError :=
  .invalidParameter "where_conditions"
    ("unsupported clause '" ++ String.ofList s
      ++ "' (expected FIELD = 'value' or FIELD LIKE 'pattern')")

/-- `parse_conditions`, of one clause. -/
def parseClause (u : Uppercase) (s : List Char) :
    Option (RfcResult Condition) :=
  let trimmed := Ingest.trim s
  match findStr likeOp (u.apply trimmed) with
  | some idx => (cutAt trimmed "LIKE" idx 6).map .ok
  | none =>
    match findStr ['='] trimmed with
    | some idx => (cutAt trimmed "=" idx 1).map .ok
    | none => some (.error (unsupportedClause s))

/-- `parse_conditions`. -/
def parseConditions (u : Uppercase) :
    List (List Char) → Option (RfcResult (List Condition))
  | [] => some (.ok [])
  | s :: raw =>
    match parseClause u s with
    | none => none
    | some (.error e) => some (.error e)
    | some (.ok c) => (parseConditions u raw).map fun r => r.map (c :: ·)

end SapAutomate.Rfc
