/-
Trimming and bounded splitting of sequences, as the string functions of
a standard library do them: `trimBy` drops the leading and the trailing
run of a class of elements, `splitn` cuts at the first few separators.

The elements are arbitrary. `isWhitespace` is the one class fixed here,
Unicode's `White_Space`; `hexByte` prints a byte.
-/
import Mathlib.Data.List.DropRight

namespace Text

variable {α : Type}

-- =========================================================== trimming

/-- Without the leading and the trailing run of `p`. -/
def trimBy (p : α → Bool) (s : List α) : List α :=
  (s.dropWhile p).rdropWhile p

@[simp] theorem trimBy_nil (p : α → Bool) : trimBy p [] = [] := rfl

/-- A leading run and a trailing run do not matter. -/
theorem trimBy_pad {p : α → Bool} {l r : List α} (s : List α)
    (hl : ∀ a ∈ l, p a = true) (hr : ∀ a ∈ r, p a = true) :
    trimBy p (l ++ (s ++ r)) = trimBy p s := by
  unfold trimBy
  rw [List.dropWhile_append_of_pos hl, List.dropWhile_append]
  split
  · next hs =>
    have hnil : s.dropWhile p = [] := List.isEmpty_iff.mp hs
    have hrnil : r.dropWhile p = [] := List.dropWhile_eq_nil_iff.mpr hr
    rw [hrnil, hnil]
  · unfold List.rdropWhile
    rw [List.reverse_append, List.dropWhile_append_of_pos]
    intro a ha
    exact hr a (List.mem_reverse.mp ha)

/-- What trimming removes: one run at either end. -/
theorem trimBy_split (p : α → Bool) (s : List α) :
    ∃ l r, s = l ++ (trimBy p s ++ r) ∧ (∀ a ∈ l, p a = true)
      ∧ ∀ a ∈ r, p a = true := by
  refine ⟨s.takeWhile p, (s.dropWhile p).rtakeWhile p, ?_, ?_, ?_⟩
  · unfold trimBy
    rw [List.rdropWhile_append_rtakeWhile, List.takeWhile_append_dropWhile]
  · intro a ha
    exact List.mem_takeWhile_imp ha
  · intro a ha
    exact List.mem_rtakeWhile_imp ha

/-- Only a run trims to nothing. -/
theorem trimBy_eq_nil_iff {p : α → Bool} {s : List α} :
    trimBy p s = [] ↔ ∀ a ∈ s, p a = true := by
  constructor
  · intro h a ha
    obtain ⟨l, r, hs, hl, hr⟩ := trimBy_split p s
    rw [h, List.nil_append] at hs
    rw [hs] at ha
    rcases List.mem_append.mp ha with ha | ha
    · exact hl a ha
    · exact hr a ha
  · intro h
    unfold trimBy
    rw [List.dropWhile_eq_nil_iff.mpr h]
    rfl

/-- Neither end carries an element of `p`. -/
def Trimmed (p : α → Bool) (s : List α) : Prop :=
  (∀ a, s.head? = some a → p a = false)
    ∧ ∀ a, s.getLast? = some a → p a = false

/-- No leading run: nothing is dropped. -/
theorem dropWhile_eq_self {p : α → Bool} {s : List α}
    (h : ∀ a, s.head? = some a → p a = false) : s.dropWhile p = s := by
  cases s with
  | nil => rfl
  | cons a s =>
      have ha : p a = false := h a rfl
      rw [List.dropWhile_cons_of_neg]
      rw [ha]
      exact Bool.false_ne_true

/-- No trailing run: nothing is dropped. -/
theorem rdropWhile_eq_self {p : α → Bool} {s : List α}
    (h : ∀ a, s.getLast? = some a → p a = false) : s.rdropWhile p = s := by
  rw [List.rdropWhile_eq_self_iff]
  intro hne hlast
  have hfalse := h _ (List.getLast?_eq_some_getLast hne)
  rw [hfalse] at hlast
  cases hlast

/-- Trimming leaves exactly the trimmed alone. -/
theorem trimBy_eq_self_iff {p : α → Bool} {s : List α} :
    trimBy p s = s ↔ Trimmed p s := by
  constructor
  · intro h
    have hlen : (s.dropWhile p).length = s.length := by
      have hle := (List.dropWhile_suffix p (l := s)).length_le
      have hge : (trimBy p s).length ≤ (s.dropWhile p).length :=
        (List.rdropWhile_prefix p (s.dropWhile p)).length_le
      rw [h] at hge
      omega
    have hd : s.dropWhile p = s :=
      (List.dropWhile_suffix p).eq_of_length hlen
    have hr : s.rdropWhile p = s := by
      have h' := h
      unfold trimBy at h'
      rw [hd] at h'
      exact h'
    constructor
    · intro a ha
      cases s with
      | nil => cases ha
      | cons b s =>
          cases ha
          by_contra hpa
          have hlt : (List.dropWhile p (a :: s)).length ≤ s.length := by
            rw [List.dropWhile_cons_of_pos (by simpa using hpa)]
            exact (List.dropWhile_suffix p).length_le
          rw [hd, List.length_cons] at hlt
          omega
    · intro a ha
      have hne : s ≠ [] := by
        intro hnil
        rw [hnil] at ha
        cases ha
      have hlast := List.rdropWhile_eq_self_iff.mp hr hne
      rw [List.getLast?_eq_some_getLast hne] at ha
      cases ha
      simpa using hlast
  · intro h
    unfold trimBy
    rw [dropWhile_eq_self h.1, rdropWhile_eq_self h.2]

/-- Trimming a smaller class first makes no difference. -/
theorem trimBy_trimBy {p q : α → Bool} (hpq : ∀ a, p a = true → q a = true)
    (s : List α) : trimBy q (trimBy p s) = trimBy q s := by
  obtain ⟨l, r, hs, hl, hr⟩ := trimBy_split p s
  calc trimBy q (trimBy p s)
      = trimBy q (l ++ (trimBy p s ++ r)) :=
        (trimBy_pad _ (fun a ha => hpq a (hl a ha))
          fun a ha => hpq a (hr a ha)).symm
    _ = trimBy q s := by rw [← hs]

/-- Dropping a trailing run of elements of `p` and more. -/
theorem rdropWhile_append_of_all {p : α → Bool} {r : List α} (s : List α)
    (hr : ∀ a ∈ r, p a = true) :
    (s ++ r).rdropWhile p = s.rdropWhile p := by
  unfold List.rdropWhile
  rw [List.reverse_append, List.dropWhile_append_of_pos]
  intro a ha
  exact hr a (List.mem_reverse.mp ha)

/-- The class of `char::is_whitespace`: Unicode's `White_Space`. -/
def isWhitespace (c : Char) : Bool :=
  let n := c.toNat
  (9 ≤ n && n ≤ 13) || n == 32 || n == 0x85 || n == 0xA0 || n == 0x1680
    || (0x2000 ≤ n && n ≤ 0x200A) || n == 0x2028 || n == 0x2029
    || n == 0x202F || n == 0x205F || n == 0x3000

/-- A byte in lower-case hexadecimal. -/
def hexByte (b : UInt8) : List Char :=
  [Nat.digitChar (b.toNat / 16), Nat.digitChar (b.toNat % 16)]

-- ============================================================= numbers

theorem toList_toString (n : Nat) :
    (toString n).toList = Nat.toDigits 10 n := by
  show (Nat.repr n).toList = _
  simp [Nat.repr]

theorem toString_inj {i j : Nat} (h : (toString i).toList = (toString j).toList) :
    i = j := by
  rw [toList_toString, toList_toString] at h
  calc
    i = Nat.ofDigitChars 10 (Nat.toDigits 10 i) 0 :=
      Nat.ofDigitChars_ten_toDigits.symm
    _ = Nat.ofDigitChars 10 (Nat.toDigits 10 j) 0 := by rw [h]
    _ = j := Nat.ofDigitChars_ten_toDigits

-- ============================================================== joining

/-- A dropped leading run stops at any element outside the class. -/
theorem dropWhile_append_cons {p : α → Bool} {a : α} (ha : p a = false)
    (s t : List α) : (s ++ a :: t).dropWhile p = s.dropWhile p ++ a :: t := by
  rw [List.dropWhile_append]
  split
  · next h =>
    have hnil : s.dropWhile p = [] := List.isEmpty_iff.mp h
    rw [hnil, List.dropWhile_cons_of_neg (by simp [ha]), List.nil_append]
  · rfl

/-- A dropped trailing run likewise. -/
theorem rdropWhile_append_cons {p : α → Bool} {a : α} (ha : p a = false)
    (s t : List α) :
    (s ++ a :: t).rdropWhile p = s ++ a :: t.rdropWhile p := by
  unfold List.rdropWhile
  rw [List.reverse_append, List.reverse_cons, List.append_assoc,
    List.singleton_append, dropWhile_append_cons ha]
  simp

/-- A run of a class ends in front of the first element outside it. -/
theorem span_stop {p : α → Bool} {l r : List α} (hl : ∀ a ∈ l, p a = true)
    (hr : ∀ a, r.head? = some a → p a = false) :
    (l ++ r).takeWhile p = l ∧ (l ++ r).dropWhile p = r := by
  rw [List.takeWhile_append_of_pos hl, List.dropWhile_append_of_pos hl]
  cases r with
  | nil => exact ⟨List.append_nil l, rfl⟩
  | cons a r =>
      have ha : ¬ p a = true := by
        rw [hr a rfl]
        exact Bool.false_ne_true
      rw [List.takeWhile_cons_of_neg ha, List.dropWhile_cons_of_neg ha,
        List.append_nil]
      exact ⟨rfl, rfl⟩

/-- Where an element first stands, the parts on both sides are known. -/
theorem append_cons_cancel {a : α} {x y s t : List α} (hx : a ∉ x)
    (hy : a ∉ y) (h : x ++ a :: s = y ++ a :: t) : x = y ∧ s = t := by
  induction x generalizing y with
  | nil =>
      cases y with
      | nil => exact ⟨rfl, (List.cons.inj h).2⟩
      | cons c y =>
          exact absurd ((List.cons.inj h).1 ▸ List.mem_cons_self ..) hy
  | cons b x ih =>
      cases y with
      | nil => exact absurd ((List.cons.inj h).1 ▸ List.mem_cons_self ..) hx
      | cons c y =>
          obtain ⟨rfl, hrest⟩ := List.cons.inj h
          obtain ⟨rfl, hst⟩ := ih (fun hmem => hx (List.mem_cons_of_mem _ hmem))
            (fun hmem => hy (List.mem_cons_of_mem _ hmem)) hrest
          exact ⟨rfl, hst⟩

theorem intercalate_cons (sep : α) (x : List α) {xs : List (List α)}
    (hxs : xs ≠ []) :
    [sep].intercalate (x :: xs) = x ++ sep :: [sep].intercalate xs := by
  rw [List.intercalate_cons_of_ne_nil hxs]
  simp

/-- What a joined text holds. -/
theorem mem_intercalate {sep a : α} {parts : List (List α)}
    (h : a ∈ [sep].intercalate parts) : a = sep ∨ ∃ p ∈ parts, a ∈ p := by
  induction parts with
  | nil => cases h
  | cons p parts ih =>
      by_cases hnil : parts = []
      · rw [hnil, List.intercalate_singleton] at h
        exact .inr ⟨p, List.mem_cons_self, h⟩
      · rw [intercalate_cons _ _ hnil] at h
        rcases List.mem_append.mp h with h | h
        · exact .inr ⟨p, List.mem_cons_self, h⟩
        · rcases List.mem_cons.mp h with h | h
          · exact .inl h
          · rcases ih h with h | ⟨q, hq, h⟩
            · exact .inl h
            · exact .inr ⟨q, List.mem_cons_of_mem p hq, h⟩

/-- The leading run of a joined text is that of its first part. -/
theorem dropWhile_intercalate {p : α → Bool} {sep : α}
    (hsep : p sep = false) (x : List α) (xs : List (List α)) :
    ([sep].intercalate (x :: xs)).dropWhile p
      = [sep].intercalate (x.dropWhile p :: xs) := by
  cases xs with
  | nil => rw [List.intercalate_singleton, List.intercalate_singleton]
  | cons y ys =>
      rw [intercalate_cons _ _ (List.cons_ne_nil y ys),
        intercalate_cons _ _ (List.cons_ne_nil y ys),
        dropWhile_append_cons hsep]

/-- The trailing run is that of its last part. -/
theorem rdropWhile_intercalate {p : α → Bool} {sep : α}
    (hsep : p sep = false) (xs : List (List α)) (last : List α) :
    ([sep].intercalate (xs ++ [last])).rdropWhile p
      = [sep].intercalate (xs ++ [last.rdropWhile p]) := by
  induction xs with
  | nil =>
      rw [List.nil_append, List.nil_append, List.intercalate_singleton,
        List.intercalate_singleton]
  | cons x xs ih =>
      rw [List.cons_append, List.cons_append, intercalate_cons _ _ (by simp),
        intercalate_cons _ _ (by simp), rdropWhile_append_cons hsep, ih]

-- ========================================================== splitting

variable [DecidableEq α]

/-- At most `n` parts, cut at the first separators. -/
def splitn : Nat → α → List α → List (List α)
  | 0, _, _ => []
  | 1, _, s => [s]
  | n + 2, sep, s =>
      match s.dropWhile (· != sep) with
      | [] => [s]
      | _ :: rest => s.takeWhile (· != sep) :: splitn (n + 1) sep rest

/-- Splitting undoes joining, where no part but the last contains the
separator. -/
theorem splitn_intercalate (sep : α) (xs : List (List α)) (last : List α)
    (h : ∀ x ∈ xs, sep ∉ x) :
    splitn (xs.length + 1) sep ([sep].intercalate (xs ++ [last]))
      = xs ++ [last] := by
  induction xs with
  | nil =>
      rw [List.nil_append, List.intercalate_singleton]
      rfl
  | cons x xs ih =>
      have hx : ∀ a ∈ x, (a != sep) = true := by
        intro a ha
        have hne : a ≠ sep :=
          ne_of_mem_of_not_mem ha (h x (List.mem_cons_self ..))
        simpa using hne
      have hdrop : ∀ l : List α, (sep :: l).dropWhile (· != sep) = sep :: l :=
        fun l => by simp
      have htake : ∀ l : List α, (sep :: l).takeWhile (· != sep) = [] :=
        fun l => by simp
      rw [List.cons_append, intercalate_cons _ _ (by simp), List.length_cons]
      show (match (x ++ sep :: _).dropWhile (· != sep) with
        | [] => _
        | _ :: rest => _ :: splitn (xs.length + 1) sep rest) = _
      rw [List.dropWhile_append_of_pos hx, hdrop,
        List.takeWhile_append_of_pos hx, htake, List.append_nil]
      show x :: splitn (xs.length + 1) sep _ = _
      rw [ih fun y hy => h y (List.mem_cons_of_mem _ hy)]

/-- Splitting a trimmed joined text: the first part is trimmed, the
others have lost what trailing run the caller drops anyway. -/
theorem splitn_trimBy_intercalate {p : α → Bool} {sep : α}
    (hsep : p sep = false) (x : List α) (xs : List (List α))
    (h : ∀ y ∈ (x :: xs).dropLast, sep ∉ y) :
    (splitn (xs.length + 1) sep
        (trimBy p ([sep].intercalate (x :: xs)))).map (List.rdropWhile p)
      = trimBy p x :: xs.map (List.rdropWhile p) := by
  -- the parts, the first without its leading run
  have hparts : ∃ ys last, x.dropWhile p :: xs = ys ++ [last]
      ∧ ∀ y ∈ ys, sep ∉ y := by
    refine ⟨(x.dropWhile p :: xs).dropLast,
      (x.dropWhile p :: xs).getLast (List.cons_ne_nil _ _),
      (List.dropLast_append_getLast _).symm, fun y hy hmem => ?_⟩
    cases xs with
    | nil => cases hy
    | cons z zs =>
        rcases List.mem_cons.mp hy with rfl | hy
        · exact h x (List.mem_cons_self ..) ((List.dropWhile_sublist p).mem hmem)
        · exact h y (List.mem_cons_of_mem _ hy) hmem
  obtain ⟨ys, last, hsplit, hys⟩ := hparts
  have hlen : xs.length = ys.length := by
    have hl := congrArg List.length hsplit
    rw [List.length_cons, List.length_append, List.length_singleton] at hl
    omega
  unfold trimBy
  rw [dropWhile_intercalate hsep, hsplit, rdropWhile_intercalate hsep, hlen,
    splitn_intercalate sep ys _ hys]
  have hmap := congrArg (List.map (List.rdropWhile p)) hsplit
  rw [List.map_cons] at hmap
  rw [hmap, List.map_append, List.map_append, List.map_singleton,
    List.map_singleton, List.rdropWhile_idempotent]

omit [DecidableEq α] in
/-- No part of a split text contains the separator. -/
theorem not_mem_of_mem_splitOn [BEq α] [LawfulBEq α] {sep : α} {s x : List α}
    (h : x ∈ s.splitOn sep) : sep ∉ x := by
  induction s generalizing x with
  | nil =>
      rw [List.splitOn_nil, List.mem_singleton] at h
      rw [h]
      exact List.not_mem_nil
  | cons a s ih =>
      rw [List.splitOn_cons_eq_if_modifyHead] at h
      split at h
      · rcases List.mem_cons.mp h with rfl | h
        · exact List.not_mem_nil
        · exact ih h
      · next ha =>
        obtain ⟨y, ys, hys⟩ :=
          List.exists_cons_of_ne_nil (List.splitOn_ne_nil sep s)
        rw [hys] at h ih
        rcases List.mem_cons.mp h with rfl | h
        · rw [List.mem_cons]
          rintro (rfl | hmem)
          · exact ha (beq_self_eq_true _)
          · exact ih (List.mem_cons_self ..) hmem
        · exact ih (List.mem_cons_of_mem _ h)

end Text
