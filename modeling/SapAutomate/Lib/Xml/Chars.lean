/-
Characters, names and references of XML 1.0.

`unescape` reads the predefined entities and the character references;
what it does not read (an entity a DTD declares) is left to whoever
knows the declaration. The lemmas after it say how it works through a
text piece by piece.
-/
import Mathlib.Data.List.Basic

namespace Xml

-- ============================================================ characters

/-- `S`: the white space of the grammar. -/
def isSpace (c : Char) : Bool :=
  c == ' ' || c == '\t' || c == '\n' || c == '\r'

/-- The code point lies in one of the ranges. -/
def inRanges (ranges : List (Nat × Nat)) (c : Char) : Bool :=
  ranges.any fun r => r.1 ≤ c.toNat && c.toNat ≤ r.2

/-- `Char`: what may occur in a document at all. -/
def isXmlChar (c : Char) : Bool :=
  inRanges [(0x9, 0xA), (0xD, 0xD), (0x20, 0xD7FF), (0xE000, 0xFFFD),
    (0x10000, 0x10FFFF)] c

/-- `NameStartChar`. -/
def isNameStart (c : Char) : Bool :=
  inRanges [(0x3A, 0x3A), (0x41, 0x5A), (0x5F, 0x5F), (0x61, 0x7A),
    (0xC0, 0xD6), (0xD8, 0xF6), (0xF8, 0x2FF), (0x370, 0x37D),
    (0x37F, 0x1FFF), (0x200C, 0x200D), (0x2070, 0x218F), (0x2C00, 0x2FEF),
    (0x3001, 0xD7FF), (0xF900, 0xFDCF), (0xFDF0, 0xFFFD),
    (0x10000, 0xEFFFF)] c

/-- `NameChar`. -/
def isNameChar (c : Char) : Bool :=
  isNameStart c
    || inRanges [(0x2D, 0x2E), (0x30, 0x39), (0xB7, 0xB7), (0x300, 0x36F),
      (0x203F, 0x2040)] c

/-- `Name`. -/
def isName : List Char → Bool
  | [] => false
  | c :: cs => isNameStart c && cs.all isNameChar

/-- Characters that a class tells apart are different. -/
theorem ne_of_class {p : Char → Bool} {c d : Char} (hc : p c = true)
    (hd : p d = false) : c ≠ d := by
  intro heq
  rw [heq, hd] at hc
  cases hc

theorem isNameChar_of_start {c : Char} (h : isNameStart c = true) :
    isNameChar c = true := by
  unfold isNameChar
  rw [h]
  rfl

/-- A name is a sequence of name characters, one at least. -/
theorem isName_chars {n : List Char} (h : isName n = true) :
    n ≠ [] ∧ ∀ c ∈ n, isNameChar c = true := by
  cases n with
  | nil => cases h
  | cons c cs =>
      unfold isName at h
      rw [Bool.and_eq_true] at h
      refine ⟨List.cons_ne_nil _ _, fun d hd => ?_⟩
      rcases List.mem_cons.mp hd with rfl | hd
      · exact isNameChar_of_start h.1
      · exact List.all_eq_true.mp h.2 d hd

/-- A character that is no name character is in no name. -/
theorem not_mem_name {n : List Char} {d : Char} (h : isName n = true)
    (hd : isNameChar d = false) : d ∉ n := by
  intro hmem
  exact ne_of_class ((isName_chars h).2 d hmem) hd rfl

/-- A class without the four has no white space. -/
theorem isSpace_of_class {p : Char → Bool} {c : Char} (h : p c = true)
    (hp : [' ', '\t', '\n', '\r'].all (fun s => !p s) = true) :
    isSpace c = false := by
  simp only [List.all_cons, List.all_nil, Bool.and_true, Bool.and_eq_true,
    Bool.not_eq_true'] at hp
  obtain ⟨hblank, htab, hnl, hcr⟩ := hp
  unfold isSpace
  simp only [Bool.or_eq_false_iff, beq_eq_false_iff_ne]
  exact ⟨⟨⟨ne_of_class h hblank, ne_of_class h htab⟩, ne_of_class h hnl⟩,
    ne_of_class h hcr⟩

/-- White space is no part of a name. -/
theorem isSpace_of_nameChar {c : Char} (h : isNameChar c = true) :
    isSpace c = false :=
  isSpace_of_class h rfl

/-- The code points of ASCII letters and digits. -/
theorem alphanum_range {c : Char} (h : c.isAlphanum = true) :
    (48 ≤ c.toNat ∧ c.toNat ≤ 57) ∨ (65 ≤ c.toNat ∧ c.toNat ≤ 90)
      ∨ (97 ≤ c.toNat ∧ c.toNat ≤ 122) := by
  unfold Char.isAlphanum Char.isAlpha Char.isUpper Char.isLower Char.isDigit
    at h
  simp only [Bool.or_eq_true, Bool.and_eq_true, decide_eq_true_eq,
    UInt32.le_iff_toNat_le, ge_iff_le] at h
  change ((65 ≤ c.toNat ∧ c.toNat ≤ 90) ∨ (97 ≤ c.toNat ∧ c.toNat ≤ 122))
    ∨ (48 ≤ c.toNat ∧ c.toNat ≤ 57) at h
  omega

theorem digit_range {c : Char} (h : c.isDigit = true) :
    48 ≤ c.toNat ∧ c.toNat ≤ 57 := by
  unfold Char.isDigit at h
  simp only [Bool.and_eq_true, decide_eq_true_eq, UInt32.le_iff_toNat_le,
    ge_iff_le] at h
  exact h

/-- ASCII letters and digits are name characters. -/
theorem isNameChar_of_alphanum {c : Char} (h : c.isAlphanum = true) :
    isNameChar c = true := by
  have hr := alphanum_range h
  unfold isNameChar isNameStart inRanges
  simp only [List.any_cons, List.any_nil, Bool.or_eq_true, Bool.and_eq_true,
    decide_eq_true_eq]
  omega

/-- A digit starts no name, the other ASCII alphanumerics do. -/
theorem isNameStart_of_alphanum {c : Char} (h : c.isAlphanum = true) :
    isNameStart c = true ↔ c.isDigit = false := by
  have hr := alphanum_range h
  constructor
  · intro hs
    by_contra hd
    rw [Bool.not_eq_false] at hd
    have hdr := digit_range hd
    unfold isNameStart inRanges at hs
    simp only [List.any_cons, List.any_nil, Bool.or_eq_true,
      Bool.and_eq_true, decide_eq_true_eq, Bool.false_eq_true, or_false] at hs
    omega
  · intro hd
    have hnd : ¬ (48 ≤ c.toNat ∧ c.toNat ≤ 57) := by
      intro hr'
      have htrue : c.isDigit = true := by
        unfold Char.isDigit
        simp only [Bool.and_eq_true, decide_eq_true_eq,
          UInt32.le_iff_toNat_le, ge_iff_le]
        exact hr'
      rw [htrue] at hd
      cases hd
    unfold isNameStart inRanges
    simp only [List.any_cons, List.any_nil, Bool.or_eq_true,
      Bool.and_eq_true, decide_eq_true_eq]
    omega

-- ============================================================ references

/-- The value of a digit, in a base up to sixteen. -/
def digitValue (c : Char) : Nat :=
  if c.isDigit then c.toNat - 48
  else if c.isUpper then c.toNat - 55
  else c.toNat - 87

/-- The character a numeral names, if a document may hold it. -/
def numeral (base : Nat) (isDigit : Char → Bool) (ds : List Char) :
    Option (List Char) :=
  if ds.isEmpty || !ds.all isDigit then none
  else
    let n := ds.foldl (fun n d => base * n + digitValue d) 0
    if n.isValidChar ∧ isXmlChar (Char.ofNat n) then some [Char.ofNat n]
    else none

/-- Hexadecimal digits, in either case. -/
def isHexDigit (c : Char) : Bool :=
  c.isDigit || ('a' ≤ c && c ≤ 'f') || ('A' ≤ c && c ≤ 'F')

/-- What a reference stands for: a predefined entity or a character. -/
def resolve : List Char → Option (List Char)
  | ['l', 't'] => some ['<']
  | ['g', 't'] => some ['>']
  | ['a', 'm', 'p'] => some ['&']
  | ['q', 'u', 'o', 't'] => some ['"']
  | ['a', 'p', 'o', 's'] => some ['\'']
  | '#' :: 'x' :: ds => numeral 16 isHexDigit ds
  | '#' :: ds => numeral 10 Char.isDigit ds
  | _ => none

/-- Reads a text, the second argument holding the reference it is in,
if any. -/
def unescapeGo (table : List Char → Option (List Char)) :
    List Char → Option (List Char) → Option (List Char)
  | [], none => some []
  | [], some _ => none
  | c :: cs, none =>
      if c = '&' then unescapeGo table cs (some [])
      else (unescapeGo table cs none).map (c :: ·)
  | c :: cs, some r =>
      if c = ';' then
        (table r).bind fun t => (unescapeGo table cs none).map (t ++ ·)
      else unescapeGo table cs (some (r ++ [c]))

/-- The text with its references replaced, if all of them resolve. -/
def unescape (s : List Char) : Option (List Char) :=
  unescapeGo resolve s none

@[simp] theorem unescape_nil : unescape [] = some [] := rfl

/-- A plain character stands for itself. -/
theorem unescape_cons {c : Char} (hc : c ≠ '&') (cs : List Char) :
    unescape (c :: cs) = (unescape cs).map (c :: ·) := by
  unfold unescape
  rw [unescapeGo, if_neg hc]

/-- Plain characters in front stand for themselves. -/
theorem unescape_append {l : List Char} (hl : '&' ∉ l) (s : List Char) :
    unescape (l ++ s) = (unescape s).map (l ++ ·) := by
  induction l with
  | nil => simp
  | cons c l ih =>
      have hc : c ≠ '&' := (List.ne_of_not_mem_cons hl).symm
      rw [List.cons_append, unescape_cons hc,
        ih (List.not_mem_of_not_mem_cons hl), Option.map_map]
      rfl

/-- A text without ampersand stands for itself. -/
theorem unescapeGo_plain {table : List Char → Option (List Char)}
    {s : List Char} (hs : '&' ∉ s) : unescapeGo table s none = some s := by
  induction s with
  | nil => rfl
  | cons c s ih =>
      have hc : c ≠ '&' := (List.ne_of_not_mem_cons hs).symm
      rw [unescapeGo, if_neg hc, ih (List.not_mem_of_not_mem_cons hs)]
      rfl

/-- Reading a reference up to its semicolon. -/
theorem unescapeGo_ref {table : List Char → Option (List Char)}
    {name : List Char} (hn : ';' ∉ name) (r s : List Char) :
    unescapeGo table (name ++ ';' :: s) (some r)
      = (table (r ++ name)).bind fun t =>
          (unescapeGo table s none).map (t ++ ·) := by
  induction name generalizing r with
  | nil => rw [List.nil_append, List.append_nil, unescapeGo, if_pos rfl]
  | cons c name ih =>
      have hc : c ≠ ';' := (List.ne_of_not_mem_cons hn).symm
      rw [List.cons_append, unescapeGo, if_neg hc,
        ih (List.not_mem_of_not_mem_cons hn)]
      simp

/-- A reference stands for what it resolves to. -/
theorem unescape_ref (name : List Char) {t : List Char} (hn : ';' ∉ name)
    (ht : resolve name = some t) (s : List Char) :
    unescape ('&' :: (name ++ ';' :: s)) = (unescape s).map (t ++ ·) := by
  unfold unescape
  rw [unescapeGo, if_pos rfl, unescapeGo_ref hn, List.nil_append, ht]
  rfl

/-- A reference that is never closed is not read. -/
theorem unescapeGo_open {table : List Char → Option (List Char)}
    {s : List Char} (hs : ';' ∉ s) (r : List Char) :
    unescapeGo table s (some r) = none := by
  induction s generalizing r with
  | nil => rfl
  | cons c s ih =>
      have hc : c ≠ ';' := (List.ne_of_not_mem_cons hs).symm
      rw [unescapeGo, if_neg hc]
      exact ih (List.not_mem_of_not_mem_cons hs) _

/-- Plain characters behind a text stand for themselves. -/
theorem unescapeGo_append {table : List Char → Option (List Char)}
    {r : List Char} (hr : '&' ∉ r) (hr' : ';' ∉ r) (s : List Char) :
    ∀ ref, unescapeGo table (s ++ r) ref
      = (unescapeGo table s ref).map (· ++ r) := by
  induction s with
  | nil =>
      intro ref
      cases ref with
      | none => exact unescapeGo_plain hr
      | some ref => exact unescapeGo_open hr' ref
  | cons c s ih =>
      intro ref
      cases ref with
      | none =>
          rw [List.cons_append, unescapeGo, unescapeGo]
          by_cases hc : c = '&'
          · rw [if_pos hc, if_pos hc]
            exact ih _
          · rw [if_neg hc, if_neg hc, ih, Option.map_map, Option.map_map]
            rfl
      | some ref =>
          rw [List.cons_append, unescapeGo, unescapeGo]
          by_cases hc : c = ';'
          · rw [if_pos hc, if_pos hc, ih]
            cases table ref with
            | none => rfl
            | some t =>
                simp [Function.comp_def]
          · rw [if_neg hc, if_neg hc]
            exact ih _

/-- Plain characters at either end of a text. -/
theorem unescape_pad {l r : List Char} (s : List Char) (hl : '&' ∉ l)
    (hr : '&' ∉ r) (hr' : ';' ∉ r) :
    unescape (l ++ (s ++ r)) = (unescape s).map fun t => l ++ (t ++ r) := by
  have hsr : unescape (s ++ r) = (unescape s).map (· ++ r) :=
    unescapeGo_append hr hr' s none
  rw [unescape_append hl, hsr, Option.map_map]
  rfl

end Xml
