/-
Texts with holes, `{{name}}`.

A text is read once, into characters and holes (`tokens`), and filled by a
partial map of names. Holes of names without braces do not overlap, so what
starts inside one is no hole, and a hole that stands across the end of a
filled piece needs only characters that no later filling changes
(`Starts.mono`).
-/
import Mathlib.Data.List.Infix
import Mathlib.Logic.Function.Basic
import SapAutomate.Lib.Text

namespace Template

/-- The hole of a name. -/
def placeholder (n : List Char) : List Char :=
  '{' :: '{' :: (n ++ ['}', '}'])

/-- A name that has no brace. -/
def BraceFree (n : List Char) : Prop := '{' ∉ n ∧ '}' ∉ n

inductive Token where
  | lit (c : Char)
  | hole (n : List Char)
deriving DecidableEq

/-- The holes and the characters of a text, of which the first `skip`
belong to a hole. -/
def tokensFrom (names : List (List Char)) : Nat → List Char → List Token
  | _, [] => []
  | skip + 1, _ :: cs => tokensFrom names skip cs
  | 0, c :: cs =>
      match names.find? fun n => (placeholder n).isPrefixOf (c :: cs) with
      | some n => .hole n :: tokensFrom names ((placeholder n).length - 1) cs
      | none => .lit c :: tokensFrom names 0 cs

def tokens (names : List (List Char)) (s : List Char) : List Token :=
  tokensFrom names 0 s

/-- What a token is filled with. -/
def Token.out (val : List Char → Option (List Char)) : Token → List Char
  | .lit c => [c]
  | .hole n => (val n).getD (placeholder n)

/-- The text, where the holes that have a value are filled. -/
def fill (val : List Char → Option (List Char)) (ts : List Token) : List Char :=
  ts.flatMap (Token.out val)

/-- How often a pattern stands in a text. -/
def occurrences (pat : List Char) : List Char → Nat
  | [] => 0
  | c :: cs =>
      (if pat.isPrefixOf (c :: cs) then 1 else 0) + occurrences pat cs

/-- An occurrence starts in the first of two texts. -/
def Starts (pat w t : List Char) : Prop :=
  ∃ w₁ w₂, w = w₁ ++ w₂ ∧ w₂ ≠ [] ∧ pat <+: w₂ ++ t

@[simp]
theorem fill_nil (val : List Char → Option (List Char)) : fill val [] = [] :=
  rfl

@[simp]
theorem fill_cons (val : List Char → Option (List Char)) (x : Token)
    (ts : List Token) : fill val (x :: ts) = x.out val ++ fill val ts :=
  List.flatMap_cons

-- =================================================================== holes

theorem placeholder_ne_nil (n : List Char) : placeholder n ≠ [] :=
  List.cons_ne_nil _ _

theorem placeholder_eq_append (n t : List Char) :
    placeholder n ++ t = '{' :: '{' :: (n ++ '}' :: '}' :: t) := by
  simp [placeholder]

/-- Past its first brace no hole has two opening braces in a row. -/
theorem suffix_opens {n q t s : List Char} (hn : BraceFree n)
    (hq : q <:+ '{' :: (n ++ ['}', '}'])) (h : q ++ t = '{' :: '{' :: s) :
    q = [] := by
  have hhead : ∀ {c : Char} {cs : List Char},
      c :: cs <:+ n ++ ['}', '}'] → c ≠ '{' := by
    rintro c cs hz rfl
    rcases List.mem_append.mp (hz.subset List.mem_cons_self) with hmem | hmem
    · exact hn.1 hmem
    · revert hmem
      decide
  rcases List.suffix_cons_iff.mp hq with rfl | hq
  · obtain ⟨c, cs, hz⟩ : ∃ c cs, n ++ ['}', '}'] = c :: cs := by
      cases n with
      | nil => exact ⟨_, _, rfl⟩
      | cons c cs => exact ⟨_, _, rfl⟩
    rw [hz] at h
    have htwo := (List.cons.inj (List.cons.inj h).2).1
    have hsuf : c :: cs <:+ n ++ ['}', '}'] := by rw [hz]
    exact absurd htwo (hhead hsuf)
  · cases q with
    | nil => rfl
    | cons c cs => exact absurd (List.cons.inj h).1 (hhead hq)

/-- Two holes at one place are of one name. -/
theorem placeholder_unique {n m t : List Char} (hn : BraceFree n)
    (hm : BraceFree m) (h : placeholder n <+: placeholder m ++ t) : n = m := by
  rw [placeholder_eq_append] at h
  obtain ⟨-, h⟩ := List.cons_prefix_cons.mp h
  obtain ⟨-, r, h⟩ := List.cons_prefix_cons.mp h
  rw [List.append_assoc] at h
  have hcut : ∀ {a : List Char}, '}' ∉ a → ∀ z : List Char,
      (a ++ '}' :: z).takeWhile (· != '}') = a := by
    intro a ha z
    have hall : ∀ c ∈ a, (c != '}') = true := fun c hc =>
      bne_iff_ne.mpr fun heq => ha (heq ▸ hc)
    exact (Text.span_stop hall (by rintro c ⟨⟩; rfl)).1
  have hword := congrArg (List.takeWhile (· != '}')) h
  rwa [List.cons_append, hcut hn.2, hcut hm.2] at hword

/-- No hole starts inside another. -/
theorem not_starts_placeholder {n m t : List Char} (hn : BraceFree n)
    (hm : BraceFree m) (hne : n ≠ m) : ¬ Starts (placeholder n) (placeholder m) t := by
  rintro ⟨w₁, w₂, hw, hw₂, hpre⟩
  have hsuf : w₂ <:+ placeholder m := ⟨w₁, hw.symm⟩
  rcases List.suffix_cons_iff.mp hsuf with rfl | hsuf
  · exact hne (placeholder_unique hn hm hpre)
  · obtain ⟨r, hr⟩ := hpre
    rw [placeholder_eq_append] at hr
    exact hw₂ (suffix_opens hm hsuf hr.symm)

/-- Of its own name the only one is the hole itself. -/
theorem not_starts_tail {n w t : List Char} (hn : BraceFree n)
    (hw : w <:+ '{' :: (n ++ ['}', '}'])) : ¬ Starts (placeholder n) w t := by
  rintro ⟨w₁, w₂, rfl, hw₂, r, hr⟩
  rw [placeholder_eq_append] at hr
  exact hw₂ (suffix_opens hn ((List.suffix_append w₁ w₂).trans hw) hr.symm)

-- ============================================================= occurrences

/-- Where none starts in a text, the occurrences are those behind it. -/
theorem occurrences_append {pat w t : List Char} (h : ¬ Starts pat w t) :
    occurrences pat (w ++ t) = occurrences pat t := by
  induction w with
  | nil => rfl
  | cons c w ih =>
      have hno : ¬ pat.isPrefixOf (c :: (w ++ t)) = true := fun hpre =>
        h ⟨[], c :: w, rfl, List.cons_ne_nil _ _,
          List.isPrefixOf_iff_prefix.mp hpre⟩
      have hih := ih fun ⟨w₁, w₂, hw, hne, hpre⟩ =>
        h ⟨c :: w₁, w₂, congrArg _ hw, hne, hpre⟩
      rw [List.cons_append, occurrences, if_neg hno, Nat.zero_add, hih]

theorem occurrences_le (pat w t : List Char) :
    occurrences pat t ≤ occurrences pat (w ++ t) := by
  induction w with
  | nil => exact le_rfl
  | cons c w ih => exact le_trans ih (Nat.le_add_left _ _)

theorem occurrences_lt {pat w t : List Char} (h : Starts pat w t) :
    occurrences pat t < occurrences pat (w ++ t) := by
  obtain ⟨w₁, w₂, rfl, hw₂, hpre⟩ := h
  obtain ⟨c, w₂, rfl⟩ := List.exists_cons_of_ne_nil hw₂
  have hone : occurrences pat (c :: w₂ ++ t) = 1 + occurrences pat (w₂ ++ t) :=
    congrArg (· + _) (if_pos (List.isPrefixOf_iff_prefix.mpr hpre))
  have hle := occurrences_le pat w₂ t
  have hle' := occurrences_le pat w₁ (c :: w₂ ++ t)
  rw [← List.append_assoc] at hle'
  omega

/-- A hole is one occurrence. -/
theorem occurrences_hole {n : List Char} (hn : BraceFree n) (t : List Char) :
    occurrences (placeholder n) (placeholder n ++ t)
      = 1 + occurrences (placeholder n) t := by
  have hpre : (placeholder n).isPrefixOf (placeholder n ++ t) = true :=
    List.isPrefixOf_iff_prefix.mpr (List.prefix_append _ _)
  have htail := occurrences_append (not_starts_tail (t := t) hn
    (List.suffix_refl _))
  rw [← htail]
  show (if (placeholder n).isPrefixOf (placeholder n ++ t) = true then 1 else 0)
    + _ = _
  rw [if_pos hpre]
  rfl

/-- The holes of a name. -/
def holes (n : List Char) (ts : List Token) : Nat := ts.count (.hole n)

/-- No filled piece, with what stands behind it, starts a hole of the name. -/
def Quiet (n : List Char) (val : List Char → Option (List Char)) :
    List Token → Prop
  | [] => True
  | x :: ts =>
      (x ≠ .hole n → ¬ Starts (placeholder n) (x.out val) (fill val ts))
        ∧ Quiet n val ts

variable {val val' : List Char → Option (List Char)} {n : List Char}

theorem holes_le (hn : BraceFree n) (hval : val n = none) (ts : List Token) :
    holes n ts ≤ occurrences (placeholder n) (fill val ts) := by
  induction ts with
  | nil => exact Nat.zero_le _
  | cons x ts ih =>
      unfold holes at ih ⊢
      rw [fill_cons]
      by_cases hx : x = .hole n
      · subst hx
        have hout : Token.out val (.hole n) = placeholder n := by
          simp [Token.out, hval]
        rw [List.count_cons_self, hout, occurrences_hole hn, Nat.add_comm]
        exact Nat.add_le_add_left ih 1
      · rw [List.count_cons_of_ne hx]
        exact le_trans ih (occurrences_le _ _ _)

/-- As many occurrences as holes means that none is new. -/
theorem quiet_iff (hn : BraceFree n) (hval : val n = none) (ts : List Token) :
    Quiet n val ts ↔ occurrences (placeholder n) (fill val ts) = holes n ts := by
  induction ts with
  | nil => exact iff_of_true trivial rfl
  | cons x ts ih =>
      unfold holes at ih ⊢
      rw [Quiet, fill_cons, ih]
      by_cases hx : x = .hole n
      · subst hx
        have hout : Token.out val (.hole n) = placeholder n := by
          simp [Token.out, hval]
        rw [List.count_cons_self, hout, occurrences_hole hn]
        constructor
        · rintro ⟨-, h⟩
          omega
        · intro h
          exact ⟨fun hne => absurd rfl hne, by omega⟩
      · rw [List.count_cons_of_ne hx]
        constructor
        · rintro ⟨hno, h⟩
          rw [occurrences_append (hno hx), h]
        · intro h
          have hle := holes_le hn hval ts
          unfold holes at hle
          have hno : ¬ Starts (placeholder n) (x.out val) (fill val ts) :=
            fun hs => by
              have hlt := occurrences_lt hs
              omega
          rw [occurrences_append hno] at h
          exact ⟨fun _ => hno, h⟩

-- ================================================================= filling

/-- The second map has the values of the first. -/
def Extends (val' val : List Char → Option (List Char)) : Prop :=
  ∀ m w, val m = some w → val' m = some w

theorem out_eq (h : Extends val' val) (x : Token) :
    x.out val' = x.out val ∨ ∃ m, x = .hole m ∧ x.out val = placeholder m := by
  cases x with
  | lit c => exact .inl rfl
  | hole m =>
      cases hm : val m with
      | none => exact .inr ⟨m, rfl, by simp [Token.out, hm]⟩
      | some w =>
          refine .inl ?_
          simp [Token.out, hm, h m w hm]

/-- What may end an occurrence stands in front whatever else is filled. -/
theorem fill_front (hn : BraceFree n) (h : Extends val' val) :
    ∀ (ts : List Token) (q : List Char), q <:+ '{' :: (n ++ ['}', '}']) →
      q <+: fill val ts → q <+: fill val' ts := by
  intro ts
  induction ts with
  | nil => exact fun q _ hpre => hpre
  | cons x ts ih =>
      intro q hq hpre
      rw [fill_cons] at hpre ⊢
      rcases out_eq h x with hout | ⟨m, -, hout⟩
      · rw [hout]
        rcases List.prefix_or_prefix_of_prefix hpre
            (List.prefix_append (x.out val) _) with hle | hle
        · exact hle.trans (List.prefix_append _ _)
        · obtain ⟨r, rfl⟩ := hle
          rw [List.prefix_append_right_inj] at hpre ⊢
          exact ih r ((List.suffix_append _ r).trans hq) hpre
      · obtain ⟨r, hr⟩ := hpre
        rw [hout, placeholder_eq_append] at hr
        rw [suffix_opens hn hq hr]
        exact List.nil_prefix

/-- An occurrence that begins in front of the filled text stays there. -/
theorem placeholder_front_mono (hn : BraceFree n) (h : Extends val' val)
    {w : List Char} (hw : w ≠ []) {ts : List Token}
    (hpre : placeholder n <+: w ++ fill val ts) :
    placeholder n <+: w ++ fill val' ts := by
  rcases List.prefix_or_prefix_of_prefix hpre (List.prefix_append w _)
    with hle | hle
  · exact hle.trans (List.prefix_append _ _)
  · obtain ⟨r, hr⟩ := hle
    rw [← hr, List.prefix_append_right_inj] at hpre ⊢
    obtain ⟨c, w, rfl⟩ := List.exists_cons_of_ne_nil hw
    have htail : w ++ r = '{' :: (n ++ ['}', '}']) := (List.cons.inj hr).2
    exact fill_front hn h ts r (htail ▸ List.suffix_append w r) hpre

theorem Starts.mono (hn : BraceFree n) (h : Extends val' val) {w : List Char}
    {ts : List Token} (hs : Starts (placeholder n) w (fill val ts)) :
    Starts (placeholder n) w (fill val' ts) := by
  obtain ⟨w₁, w₂, rfl, hw₂, hpre⟩ := hs
  exact ⟨w₁, w₂, rfl, hw₂, placeholder_front_mono hn h hw₂ hpre⟩

/-- Where filling more makes no new hole, filling less makes none. -/
theorem Quiet.anti (hn : BraceFree n) (h : Extends val' val) {ts : List Token}
    (hbr : ∀ m, .hole m ∈ ts → BraceFree m) (hq : Quiet n val' ts) :
    Quiet n val ts := by
  induction ts with
  | nil => trivial
  | cons x ts ih =>
      obtain ⟨hx, hts⟩ := hq
      refine ⟨fun hne hs => ?_, ih (fun m hm => hbr m (List.mem_cons_of_mem _ hm))
        hts⟩
      rcases out_eq h x with hout | ⟨m, rfl, hout⟩
      · refine hx hne ?_
        rw [hout]
        exact hs.mono hn h
      · rw [hout] at hs
        exact not_starts_placeholder hn (hbr m List.mem_cons_self)
          (fun heq => hne (heq ▸ rfl)) hs

-- ================================================================= reading

variable {names : List (List Char)}

theorem tokensFrom_skip (names : List (List Char)) (x t : List Char) :
    tokensFrom names x.length (x ++ t) = tokens names t := by
  induction x with
  | nil => rfl
  | cons c x ih => exact ih

/-- A hole is read as one. -/
theorem tokens_hole (hnames : ∀ m ∈ names, BraceFree m) (hmem : n ∈ names)
    (t : List Char) :
    tokens names (placeholder n ++ t) = .hole n :: tokens names t := by
  have hfind : (names.find? fun m =>
      (placeholder m).isPrefixOf (placeholder n ++ t)) = some n := by
    cases hm : names.find? fun m =>
        (placeholder m).isPrefixOf (placeholder n ++ t) with
    | none =>
        have hno := List.find?_eq_none.mp hm n hmem
        exact absurd (List.isPrefixOf_iff_prefix.mpr
          (List.prefix_append _ _)) hno
    | some m =>
        have hpre := List.find?_some hm
        exact congrArg some (placeholder_unique
          (hnames m (List.mem_of_find?_eq_some hm)) (hnames n hmem)
          (List.isPrefixOf_iff_prefix.mp hpre))
  have hskip := tokensFrom_skip names ('{' :: (n ++ ['}', '}'])) t
  have hcons : placeholder n ++ t
      = '{' :: ('{' :: (n ++ ['}', '}']) ++ t) := rfl
  unfold tokens
  rw [hcons] at hfind ⊢
  rw [tokensFrom, hfind]
  exact congrArg _ hskip

theorem tokens_lit {c : Char} {t : List Char}
    (h : ∀ m ∈ names, ¬ placeholder m <+: c :: t) :
    tokens names (c :: t) = .lit c :: tokens names t := by
  have hfind : (names.find? fun m => (placeholder m).isPrefixOf (c :: t))
      = none := List.find?_eq_none.mpr fun m hm hpre =>
    h m hm (List.isPrefixOf_iff_prefix.mp hpre)
  unfold tokens
  rw [tokensFrom, hfind]

/-- A text is empty, begins with a hole or begins with a character. -/
theorem reading_induction {P : List Char → Prop} (names : List (List Char))
    (nil : P [])
    (hole : ∀ m ∈ names, ∀ t, P t → P (placeholder m ++ t))
    (lit : ∀ c t, (∀ m ∈ names, ¬ placeholder m <+: c :: t) → P t →
      P (c :: t)) (s : List Char) : P s := by
  induction hlen : s.length using Nat.strong_induction_on generalizing s with
  | _ k ih =>
      subst hlen
      cases s with
      | nil => exact nil
      | cons c t =>
          by_cases h : ∃ m ∈ names, placeholder m <+: c :: t
          · obtain ⟨m, hm, r, hr⟩ := h
            have hlt : r.length < (c :: t).length := by
              rw [← hr, placeholder_eq_append]
              simp only [List.length_cons, List.length_append]
              omega
            rw [← hr]
            exact hole m hm r (ih _ hlt r rfl)
          · exact lit c t (fun m hm hpre => h ⟨m, hm, hpre⟩)
              (ih _ (Nat.lt_succ_self _) t rfl)

/-- With nothing filled in, the text is what it was. -/
theorem fill_tokens (hnames : ∀ m ∈ names, BraceFree m) (s : List Char) :
    fill (fun _ => none) (tokens names s) = s := by
  induction s using reading_induction names with
  | nil => rfl
  | hole m hm t ih => rw [tokens_hole hnames hm, fill_cons, ih]; rfl
  | lit c t h ih => rw [tokens_lit h, fill_cons, ih]; rfl

theorem braceFree_of_hole (hnames : ∀ m ∈ names, BraceFree m) (s : List Char) :
    ∀ m, .hole m ∈ tokens names s → BraceFree m := by
  induction s using reading_induction names with
  | nil => exact fun m hm => absurd hm List.not_mem_nil
  | hole k hk t ih =>
      intro m hm
      rw [tokens_hole hnames hk] at hm
      rcases List.mem_cons.mp hm with heq | hm
      · cases heq
        exact hnames _ hk
      · exact ih m hm
  | lit c t h ih =>
      intro m hm
      rw [tokens_lit h] at hm
      rcases List.mem_cons.mp hm with heq | hm
      · cases heq
      · exact ih m hm

/-- The occurrences in a text are the holes read. -/
theorem holes_tokens (hnames : ∀ m ∈ names, BraceFree m) (hmem : n ∈ names)
    (s : List Char) :
    holes n (tokens names s) = occurrences (placeholder n) s := by
  unfold holes
  induction s using reading_induction names with
  | nil => rfl
  | hole m hm t ih =>
      rw [tokens_hole hnames hm]
      by_cases heq : m = n
      · subst heq
        rw [List.count_cons_self, ih, occurrences_hole (hnames m hm),
          Nat.add_comm]
      · have hno := not_starts_placeholder (t := t) (hnames n hmem)
          (hnames m hm) (fun h => heq h.symm)
        rw [List.count_cons_of_ne (fun h => heq (Token.hole.inj h)), ih,
          occurrences_append hno]
  | lit c t h ih =>
      have hno : ¬ (placeholder n).isPrefixOf (c :: t) = true := fun hpre =>
        h n hmem (List.isPrefixOf_iff_prefix.mp hpre)
      rw [tokens_lit h, List.count_cons_of_ne (fun h => by cases h), ih,
        occurrences, if_neg hno, Nat.zero_add]

end Template
