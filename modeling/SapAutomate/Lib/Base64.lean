/-
Base64 as the standard has it: an alphabet of 64 characters, four of them
for three bytes, and one or two signs of padding for a last group of fewer.

`decode` reads it back, and refuses a group that is cut short, padding
elsewhere than at the end, and bits that are not zero beside it.
-/
import Mathlib.Data.List.Basic

namespace Base64

/-- The alphabet. -/
def alphabet : List Char :=
  "ABCDEFGHIJKLMNOPQRSTUVWXYZabcdefghijklmnopqrstuvwxyz0123456789+/".toList

/-- The six bits a character stands for. -/
def value (c : Char) : Option Nat := alphabet.idxOf? c

/-- One byte, of two characters. -/
def oneByte (a b : Char) : Option (List UInt8) := do
  let x ← value a
  let y ← value b
  if y % 16 = 0 then some [UInt8.ofNat (x * 4 + y / 16)] else none

/-- Two bytes, of three. -/
def twoBytes (a b c : Char) : Option (List UInt8) := do
  let x ← value a
  let y ← value b
  let z ← value c
  if z % 4 = 0 then
    some [UInt8.ofNat (x * 4 + y / 16), UInt8.ofNat (y % 16 * 16 + z / 4)]
  else none

/-- Three, of four. -/
def threeBytes (a b c d : Char) : Option (List UInt8) := do
  let x ← value a
  let y ← value b
  let z ← value c
  let w ← value d
  return [UInt8.ofNat (x * 4 + y / 16), UInt8.ofNat (y % 16 * 16 + z / 4),
    UInt8.ofNat (z % 4 * 64 + w)]

/-- The bytes a text stands for. -/
def decode : List Char → Option (List UInt8)
  | [] => some []
  | a :: b :: c :: d :: rest =>
      if d = '=' then
        if rest = [] then
          if c = '=' then oneByte a b else twoBytes a b c
        else none
      else do
        let bytes ← threeBytes a b c d
        let more ← decode rest
        return bytes ++ more
  | _ => none

-- ============================================================= characters

/-- A character of the alphabet, by its number. -/
def char (n : Nat) : Char := alphabet.getD n '='

theorem value_char_of_lt : ∀ n < 64, value (char n) = some n := by
  decide +kernel

theorem value_char {n : Nat} (h : n < 64) : value (char n) = some n :=
  value_char_of_lt n h

/-- The sign of padding is none of them. -/
theorem char_ne_pad {n : Nat} (h : n < 64) : char n ≠ '=' := by
  intro heq
  have hvalue := value_char h
  have hpad : value '=' = none := by decide +kernel
  rw [heq, hpad] at hvalue
  cases hvalue

theorem char_mem {n : Nat} (h : n < 64) : char n ∈ alphabet := by
  have hlen : n < alphabet.length := by
    have hall : alphabet.length = 64 := by decide +kernel
    omega
  rw [char, List.getD_eq_getElem?_getD, List.getElem?_eq_getElem hlen,
    Option.getD_some]
  exact List.getElem_mem hlen

-- ================================================================= groups

theorem ofNat_eq {b : UInt8} {n : Nat} (h : n = b.toNat) : UInt8.ofNat n = b := by
  rw [h]
  exact UInt8.ofNat_toNat

/-- A group of three bytes is read back. -/
theorem threeBytes_char (b1 b2 b3 : UInt8) :
    threeBytes (char (b1.toNat / 4)) (char (b1.toNat % 4 * 16 + b2.toNat / 16))
        (char (b2.toNat % 16 * 4 + b3.toNat / 64)) (char (b3.toNat % 64))
      = some [b1, b2, b3] := by
  have h1 := b1.toNat_lt
  have h2 := b2.toNat_lt
  have h3 := b3.toNat_lt
  have e1 : UInt8.ofNat (b1.toNat / 4 * 4
      + (b1.toNat % 4 * 16 + b2.toNat / 16) / 16) = b1 := ofNat_eq (by omega)
  have e2 : UInt8.ofNat ((b1.toNat % 4 * 16 + b2.toNat / 16) % 16 * 16
      + (b2.toNat % 16 * 4 + b3.toNat / 64) / 4) = b2 := ofNat_eq (by omega)
  have e3 : UInt8.ofNat ((b2.toNat % 16 * 4 + b3.toNat / 64) % 4 * 64
      + b3.toNat % 64) = b3 := ofNat_eq (by omega)
  unfold threeBytes
  rw [value_char (by omega), value_char (by omega), value_char (by omega),
    value_char (by omega)]
  show some [_, _, _] = _
  rw [e1, e2, e3]

/-- A last group of two. -/
theorem twoBytes_char (b1 b2 : UInt8) :
    twoBytes (char (b1.toNat / 4)) (char (b1.toNat % 4 * 16 + b2.toNat / 16))
        (char (b2.toNat % 16 * 4))
      = some [b1, b2] := by
  have h1 := b1.toNat_lt
  have h2 := b2.toNat_lt
  have e1 : UInt8.ofNat (b1.toNat / 4 * 4
      + (b1.toNat % 4 * 16 + b2.toNat / 16) / 16) = b1 := ofNat_eq (by omega)
  have e2 : UInt8.ofNat ((b1.toNat % 4 * 16 + b2.toNat / 16) % 16 * 16
      + b2.toNat % 16 * 4 / 4) = b2 := ofNat_eq (by omega)
  unfold twoBytes
  rw [value_char (by omega), value_char (by omega), value_char (by omega)]
  show (if _ then some [_, _] else none) = _
  rw [if_pos (by omega), e1, e2]

/-- A last group of one. -/
theorem oneByte_char (b1 : UInt8) :
    oneByte (char (b1.toNat / 4)) (char (b1.toNat % 4 * 16)) = some [b1] := by
  have h1 := b1.toNat_lt
  have e1 : UInt8.ofNat (b1.toNat / 4 * 4 + b1.toNat % 4 * 16 / 16) = b1 :=
    ofNat_eq (by omega)
  unfold oneByte
  rw [value_char (by omega), value_char (by omega)]
  show (if _ then some [_] else none) = _
  rw [if_pos (by omega), e1]

end Base64
