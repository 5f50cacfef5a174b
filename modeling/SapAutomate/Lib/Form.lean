/-
Forms in a query, as the URL standard serialises them: letters, digits and
a few signs as they are, a blank as a plus sign, any other byte as an
escape, and the pairs between ampersands.

Reading undoes that, whatever the names and values are
(`params_serialize`), and what is written is quiet in a URL
(`quiet_serialize`).
-/
import SapAutomate.Lib.Url
import SapAutomate.Lib.Text

namespace Url

/-- A digit in upper-case hexadecimal. -/
def upperDigit (n : Nat) : UInt8 := UInt8.ofNat (if n < 10 then 48 + n else 55 + n)

/-- A byte of a name or a value. -/
def formByte (b : UInt8) : Bytes :=
  if (48 ≤ b && b ≤ 57) || (65 ≤ b && b ≤ 90) || (97 ≤ b && b ≤ 122)
      || b == 42 || b == 45 || b == 46 || b == 95 then [b]
  else if b = 32 then [43]
  else [37, upperDigit (b.toNat / 16), upperDigit (b.toNat % 16)]

/-- A name or a value. -/
def formEncode (bs : Bytes) : Bytes := bs.flatMap formByte

/-- A pair. -/
def formPair (kv : Bytes × Bytes) : Bytes :=
  formEncode kv.1 ++ 61 :: formEncode kv.2

/-- A form. -/
def serialize (pairs : List (Bytes × Bytes)) : Bytes :=
  [(38 : UInt8)].intercalate (pairs.map formPair)

/-- A byte that ends nothing. -/
def formQuiet (b : UInt8) : Bool :=
  b != 35 && b != 38 && b != 61 && !dropped b

/-- A byte or its escape, where plus signs are blanks. -/
def formStandsFor (bs : Bytes) (b : UInt8) : Bool :=
  bs.all formQuiet && (bs.map plus == [b] && b != 37
    || bs.length == 3 && escaped (bs.map plus) == some b)

theorem formByte_of_lt : ∀ n < 256,
    formStandsFor (formByte (UInt8.ofNat n)) (UInt8.ofNat n) = true := by
  decide +kernel

theorem formStandsFor_formByte (b : UInt8) :
    formStandsFor (formByte b) b = true := by
  have h := formByte_of_lt b.toNat b.toNat_lt
  rwa [UInt8.ofNat_toNat] at h

theorem decode_formByte (b : UInt8) (w : Bytes) :
    decode ((formByte b).map plus ++ w) = b :: decode w := by
  have h := formStandsFor_formByte b
  simp only [formStandsFor, Bool.and_eq_true, Bool.or_eq_true, beq_iff_eq,
    bne_iff_ne] at h
  obtain ⟨-, ⟨heq, hne⟩ | ⟨hlen, hesc⟩⟩ := h
  · rw [heq, List.singleton_append, decode, decodeFrom]
    have hnone : escaped (b :: w) = none := by
      unfold escaped
      split
      · next heq =>
          rw [if_neg fun h => hne ((List.cons.inj heq).1.trans h)]
      · rfl
    rw [hnone]
    rfl
  · obtain ⟨p, x, y, hbs⟩ := List.length_eq_three.mp hlen
    rw [hbs] at hesc ⊢
    have hall : escaped (plus p :: plus x :: plus y :: w) = some b := hesc
    rw [List.map_cons, List.map_cons, List.map_cons, List.map_nil,
      List.cons_append, decode, decodeFrom, List.cons_append,
      List.cons_append, List.nil_append, hall]
    rfl

/-- Decoding undoes encoding. -/
theorem decode_formEncode (bs : Bytes) :
    decode ((formEncode bs).map plus) = bs := by
  have h := decode_flatMap decode_formByte bs []
  have hnil : decode [] = [] := rfl
  rw [List.append_nil, hnil, List.append_nil] at h
  rw [formEncode, List.map_flatMap]
  exact h

theorem quiet_formEncode {bs : Bytes} {b : UInt8} (hb : b ∈ formEncode bs) :
    b ≠ 35 ∧ b ≠ 38 ∧ b ≠ 61 ∧ dropped b = false := by
  obtain ⟨c, -, hb⟩ := List.mem_flatMap.mp hb
  have h := formStandsFor_formByte c
  rw [formStandsFor, Bool.and_eq_true] at h
  have hquiet := List.all_eq_true.mp h.1 b hb
  simpa [formQuiet, and_assoc] using hquiet

/-- A pair is read as itself. -/
theorem param_formPair (kv : Bytes × Bytes) : param (formPair kv) = kv := by
  have hname : ∀ b ∈ formEncode kv.1, decide (b ≠ 61) = true :=
    fun b hb => decide_eq_true (quiet_formEncode hb).2.2.1
  unfold param formPair
  rw [List.takeWhile_append_of_pos hname, List.dropWhile_append_of_pos hname,
    List.takeWhile_cons_of_neg (by decide),
    List.dropWhile_cons_of_neg (by decide), List.append_nil, List.drop_one,
    List.tail_cons, decode_formEncode, decode_formEncode]

theorem not_mem_formPair (kv : Bytes × Bytes) : 38 ∉ formPair kv := by
  intro hmem
  rcases List.mem_append.mp hmem with hmem | hmem
  · exact (quiet_formEncode hmem).2.1 rfl
  · rcases List.mem_cons.mp hmem with hmem | hmem
    · cases hmem
    · exact (quiet_formEncode hmem).2.1 rfl

/-- A form is read as what was written. -/
theorem params_serialize {pairs : List (Bytes × Bytes)} (h : pairs ≠ []) :
    params (serialize pairs) = pairs := by
  have hsplit : (serialize pairs).splitOn 38 = pairs.map formPair := by
    refine List.splitOn_intercalate 38 ?_ (by simpa using h)
    intro p hp
    obtain ⟨kv, -, rfl⟩ := List.mem_map.mp hp
    exact not_mem_formPair kv
  have hfilter : (pairs.map formPair).filter (· ≠ []) = pairs.map formPair := by
    rw [List.filter_eq_self]
    intro p hp
    obtain ⟨kv, -, rfl⟩ := List.mem_map.mp hp
    simp [formPair]
  have hparam : param ∘ formPair = id := funext param_formPair
  rw [params, hsplit, hfilter, List.map_map, hparam, List.map_id]

/-- What is written ends no URL, and nothing of it is dropped. -/
theorem quiet_serialize {pairs : List (Bytes × Bytes)} {b : UInt8}
    (hb : b ∈ serialize pairs) : b ≠ 35 ∧ dropped b = false := by
  rcases Text.mem_intercalate hb with rfl | ⟨p, hp, hb⟩
  · decide
  · obtain ⟨kv, -, rfl⟩ := List.mem_map.mp hp
    rcases List.mem_append.mp hb with hb | hb
    · exact ⟨(quiet_formEncode hb).1, (quiet_formEncode hb).2.2.2⟩
    · rcases List.mem_cons.mp hb with rfl | hb
      · decide
      · exact ⟨(quiet_formEncode hb).1, (quiet_formEncode hb).2.2.2⟩

end Url
