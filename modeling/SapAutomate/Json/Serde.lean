/-
Between JSON and typed data, as derived `Deserialize` and `Serialize`
implementations do it: a struct is read from an object by name or from
an array by position, an integer is written in decimal.

The texts of deserialisation errors are `serde`'s own; what needs one
takes a function that gives it.
-/
import SapAutomate.Json.Value

namespace SapAutomate.Json

-- ============================================================== integers

/-- The decimal digits with their sign. -/
def decimal (i : Int) : List Char :=
  (if i < 0 then ['-'] else []) ++ Nat.toDigits 10 i.natAbs

/-- An integer as a JSON number. -/
def Number.ofInt (i : Int) : Number where
  text := String.ofList (decimal i)
  ne_nil := by
    rw [String.toList_ofList]
    exact List.append_ne_nil_of_right_ne_nil _ Nat.toDigits_ne_nil
  legal := by
    rw [String.toList_ofList, List.all_eq_true]
    intro c hc
    rcases List.mem_append.mp hc with hc | hc
    · by_cases hneg : i < 0
      · rw [if_pos hneg] at hc
        rw [List.mem_singleton.mp hc]
        rfl
      · rw [if_neg hneg] at hc
        cases hc
    · have hdigit := Nat.isDigit_of_mem_toDigits (by decide) (by decide) hc
      unfold isNumberChar
      rw [hdigit]
      rfl

/-- The value of decimal digits. -/
def ofDecimal (digits : List Char) : Nat :=
  digits.foldl (fun n c => 10 * n + (c.toNat - '0'.toNat)) 0

theorem ofDecimal_toDigits (n : Nat) : ofDecimal (Nat.toDigits 10 n) = n := by
  have h := Nat.ofDigitChars_ten_toDigits (n := n)
  rw [Nat.ofDigitChars_eq_foldl] at h
  exact h

theorem all_isDigit_toDigits (n : Nat) :
    (Nat.toDigits 10 n).all Char.isDigit = true := by
  rw [List.all_eq_true]
  intro c hc
  exact Nat.isDigit_of_mem_toDigits (by decide) (by decide) hc

namespace Value

/-- A JSON integer. -/
def ofInt (i : Int) : Value := .number (Number.ofInt i)

/-- `Value::as_u64`: only a number printed as plain digits is one. -/
def asU64 : Value → Option Nat
  | .number n =>
      if n.text.toList.all Char.isDigit then
        let k := ofDecimal n.text.toList
        if k < 2 ^ 64 then some k else none
      else none
  | _ => none

/-- An integer, as a number visited for one: plain digits, with a sign
before them unless they are zero. -/
def asInt : Value → Option Int
  | .number n =>
      match n.text.toList with
      | '-' :: ds =>
          if ds.all Char.isDigit ∧ ofDecimal ds ≠ 0 then
            some (-(ofDecimal ds : Int))
          else none
      | ds => if ds.all Char.isDigit then some (ofDecimal ds) else none
  | _ => none

/-- `i64` from JSON. -/
def asI64 (v : Value) : Option Int :=
  v.asInt.filter fun i =>
    decide (-9223372036854775808 ≤ i ∧ i ≤ 9223372036854775807)

/-- `i32` from JSON. -/
def asI32 (v : Value) : Option Int :=
  v.asInt.filter fun i => decide (-2147483648 ≤ i ∧ i ≤ 2147483647)

-- =============================================================== structs

/-- What a derived `Deserialize` finds for the fields of a struct: an
object's by name, an array's by position. -/
def structFields (names : List String) : Value → Option (String → Option Value)
  | .object m => some fun name => Map.get m name
  | .array a =>
      if a.length ≤ names.length then some fun name => a[names.idxOf name]?
      else none
  | _ => none

/-- An optional field: `null` is none. -/
def optionField : Option Value → Option Value
  | some .null => none
  | v => v

/-- An optional text. -/
def ofOption : Option String → Value
  | some s => .string s
  | none => .null

/-- An integer is read back. -/
theorem asInt_ofInt (i : Int) : (ofInt i).asInt = some i := by
  have htext : (Number.ofInt i).text.toList = decimal i := by
    simp [Number.ofInt]
  unfold ofInt asInt
  simp only [htext]
  by_cases hneg : i < 0
  · have hdec : decimal i = '-' :: Nat.toDigits 10 i.natAbs := by
      simp [decimal, hneg]
    have hne : i.natAbs ≠ 0 := by omega
    simp only [hdec, all_isDigit_toDigits, ofDecimal_toDigits]
    rw [if_pos ⟨trivial, hne⟩]
    congr 1
    omega
  · have hdec : decimal i = Nat.toDigits 10 i.natAbs := by
      simp [decimal, hneg]
    rw [hdec]
    have hall := all_isDigit_toDigits i.natAbs
    split
    · next ds hds =>
      -- digits have no sign among them
      rw [hds] at hall
      simp at hall
    · rw [if_pos hall, ofDecimal_toDigits]
      congr 1
      omega

theorem asI64_ofInt {i : Int}
    (h : -9223372036854775808 ≤ i ∧ i ≤ 9223372036854775807) :
    (ofInt i).asI64 = some i := by
  simp only [asI64, asInt_ofInt, Option.filter]
  rw [if_pos (by simpa using h)]

theorem asI32_ofInt {i : Int}
    (h : -2147483648 ≤ i ∧ i ≤ 2147483647) :
    (ofInt i).asI32 = some i := by
  simp only [asI32, asInt_ofInt, Option.filter]
  rw [if_pos (by simpa using h)]

end Value

end SapAutomate.Json
