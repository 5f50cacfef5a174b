/-
What the requests for business partners address. A filter is a parameter
of a form, which is read as it was written, and a literal with doubled
quotes says what was doubled (`unquote_iff`). A key is put into the path as
it is, so that the path is read as itself only where the key is plain
(`addressesEntity_iff`).
-/
import SapAutomate.Rfc.BusinessPartner

namespace SapAutomate.Rfc

open Url (Bytes)

-- ============================================================= literals

theorem doubleQuotes_cons (b : UInt8) (s : Bytes) :
    doubleQuotes (b :: s)
      = (if b = 39 then [39, 39] else [b]) ++ doubleQuotes s :=
  List.flatMap_cons ..

/-- The first byte is that of the value, and a quote has another behind. -/
theorem cons_eq_doubleQuotes {b : UInt8} {lit value : Bytes} :
    b :: lit = doubleQuotes value
      ↔ ∃ rest, b :: rest = value
        ∧ lit = if b = 39 then 39 :: doubleQuotes rest
            else doubleQuotes rest := by
  constructor
  · intro h
    cases value with
    | nil => cases h
    | cons c value =>
        rw [doubleQuotes_cons] at h
        by_cases hc : c = 39
        · rw [if_pos hc] at h
          obtain ⟨rfl, hlit⟩ := List.cons.inj h
          exact ⟨value, by rw [hc], hlit⟩
        · rw [if_neg hc] at h
          obtain ⟨rfl, hlit⟩ := List.cons.inj h
          exact ⟨value, rfl, hlit.trans (if_neg hc).symm⟩
  · rintro ⟨rest, rfl, rfl⟩
    rw [doubleQuotes_cons]
    by_cases hb : b = 39
    · rw [if_pos hb, if_pos hb, hb]
      rfl
    · rw [if_neg hb, if_neg hb]
      rfl

theorem unquoteFrom_iff (lit value : Bytes) :
    (unquoteFrom false lit = some value ↔ lit = doubleQuotes value)
      ∧ (unquoteFrom true lit = some value
          ↔ 39 :: lit = doubleQuotes value) := by
  induction lit generalizing value with
  | nil =>
      cases value with
      | nil => simp [unquoteFrom, doubleQuotes]
      | cons c value =>
          rw [doubleQuotes_cons]
          by_cases hc : c = 39
          · simp [unquoteFrom, hc]
          · simp [unquoteFrom, hc, Ne.symm hc]
  | cons b lit ih =>
      have hmap : (unquoteFrom false lit).map (b :: ·) = some value
          ↔ ∃ rest, b :: rest = value ∧ lit = doubleQuotes rest := by
        rw [Option.map_eq_some_iff]
        exact exists_congr fun rest =>
          (and_congr_left' (ih rest).1).trans and_comm
      rw [unquoteFrom, unquoteFrom]
      by_cases hb : b = 39
      · subst hb
        rw [if_pos rfl, if_pos rfl, (ih value).2, hmap]
        refine ⟨Iff.rfl, ?_⟩
        rw [cons_eq_doubleQuotes]
        refine exists_congr fun rest => and_congr_right' ?_
        rw [if_pos rfl, List.cons_inj_right]
      · rw [if_neg hb, if_neg hb, hmap]
        constructor
        · rw [cons_eq_doubleQuotes]
          exact exists_congr fun rest => and_congr_right' (by rw [if_neg hb])
        · -- a quote that is not doubled
          refine iff_of_false (by simp) fun h => ?_
          obtain ⟨rest, -, hrest⟩ := cons_eq_doubleQuotes.mp h
          rw [if_pos rfl] at hrest
          exact hb (List.cons.inj hrest).1

/-- A literal says what its quotes were doubled of. -/
theorem unquote_iff {lit value : Bytes} :
    unquote lit = some value ↔ lit = doubleQuotes value :=
  (unquoteFrom_iff lit value).1

theorem literalIn_iff {before after text value : Bytes} :
    LiteralIn before after text value
      ↔ text = before ++ doubleQuotes value ++ after := by
  unfold LiteralIn
  constructor
  · rintro ⟨lit, rfl, h⟩
    rw [unquote_iff.mp h]
  · intro h
    exact ⟨_, h, unquote_iff.mpr rfl⟩

-- ============================================================= the search

variable (config : ServiceBase)

/-- The URL of the entity set, as segments. -/
theorem entitySetUrl_written :
    entitySetUrl config
      = Url.written (config.segments ++ [bytesOf "A_BusinessPartner"]) := by
  have hname : bytesOf "/A_BusinessPartner"
      = Url.written [bytesOf "A_BusinessPartner"] := by decide
  rw [entitySetUrl, config.trimmed, hname, Url.written, Url.written,
    Url.written, List.flatMap_append]

/-- A search addresses the entity set with a filter for what is looked
for. -/
theorem addressesFilter (query : Bytes) (top : Nat) :
    AddressesFilter config query top (searchUrl config query top) := by
  have hplain : ∀ s ∈ config.segments ++ [bytesOf "A_BusinessPartner"],
      Url.Plain s := by
    intro s hs
    rcases List.mem_append.mp hs with hs | hs
    · exact config.plain s hs
    · rw [List.mem_singleton.mp hs]
      decide
  have hstrip : Url.strip (Url.serialize (searchParams query top))
      = Url.serialize (searchParams query top) :=
    Url.strip_eq_self.mpr fun b hb => (Url.quiet_serialize hb).2
  refine ⟨Url.serialize (searchParams query top), nameFilter query,
    ?_, Url.params_serialize (List.cons_ne_nil _ _), literalIn_iff.mpr rfl⟩
  rw [searchUrl, entitySetUrl_written, Url.read_query hplain, hstrip,
    if_neg fun h => (Url.quiet_serialize h).1 rfl]

-- ============================================================= the entity

/-- The segment of an entity. -/
def entitySegment (id : Bytes) : Bytes :=
  bytesOf "A_BusinessPartner('" ++ doubleQuotes id ++ bytesOf "')"

theorem businessPartnerUrl_written (id : Bytes) :
    businessPartnerUrl config id
      = Url.written (config.segments ++ [entitySegment id]) := by
  have hopen : bytesOf "A_BusinessPartner" ++ bytesOf "('"
      = bytesOf "A_BusinessPartner('" := by decide
  rw [businessPartnerUrl, entitySetUrl_written, entitySegment, ← hopen,
    Url.written, Url.written, List.flatMap_append, List.flatMap_append]
  simp only [List.flatMap_cons, List.flatMap_nil, List.append_nil,
    List.append_assoc, List.cons_append]

/-- Bytes without a percent sign escape nothing. -/
theorem noEscape_append {before : Bytes} (h : 37 ∉ before) (s : Bytes) :
    Url.NoEscape (before ++ s) ↔ Url.NoEscape s := by
  induction before with
  | nil => exact Iff.rfl
  | cons b before ih =>
      rw [List.mem_cons, not_or] at h
      have hnone : Url.escaped (b :: (before ++ s)) = none := by
        unfold Url.escaped
        split
        · next heq =>
          exact if_neg fun hb => h.1 (hb.symm.trans (List.cons.inj heq).1.symm)
        · rfl
      rw [List.cons_append, Url.noEscape_cons, ih h.2, and_iff_right hnone]

/-- An escape begins with a percent sign and two digits. -/
theorem escaped_cons (b : UInt8) (s : Bytes) :
    Url.escaped (b :: s) = none
      ↔ b = 37 → ∀ h l t, s = h :: l :: t →
          Url.hexValue h = none ∨ Url.hexValue l = none := by
  unfold Url.escaped
  match s with
  | [] => simp
  | [_] => simp
  | h :: l :: t =>
      by_cases hb : b = 37
      · cases hh : Url.hexValue h <;> cases hl : Url.hexValue l <;>
          simp [hb, hh, hl]
      · simp [hb]

/-- Two digits behind a percent sign are there with and without the quotes
doubled. -/
theorem digits_doubled {s : Bytes} :
    (∀ h l t, doubleQuotes s ++ bytesOf "')" = h :: l :: t →
        Url.hexValue h = none ∨ Url.hexValue l = none)
      ↔ ∀ h l t, s = h :: l :: t →
          Url.hexValue h = none ∨ Url.hexValue l = none := by
  have hquote : Url.hexValue 39 = none := by decide
  match s with
  | [] =>
      refine iff_of_true ?_ (by simp)
      rintro h l t heq
      obtain ⟨rfl, -⟩ := List.cons.inj heq
      exact .inl hquote
  | [a] =>
      refine iff_of_true ?_ (by simp)
      rintro h l t heq
      rw [doubleQuotes_cons] at heq
      by_cases ha : a = 39
      · rw [if_pos ha] at heq
        obtain ⟨rfl, -⟩ := List.cons.inj heq
        exact .inl hquote
      · rw [if_neg ha] at heq
        obtain ⟨-, heq⟩ := List.cons.inj heq
        obtain ⟨rfl, -⟩ := List.cons.inj heq
        exact .inr hquote
  | a :: c :: s =>
      rw [doubleQuotes_cons, doubleQuotes_cons]
      by_cases ha : a = 39
      · subst ha
        refine iff_of_true ?_ ?_
        · rintro h l t heq
          obtain ⟨rfl, -⟩ := List.cons.inj heq
          exact .inl hquote
        · rintro h l t heq
          obtain ⟨rfl, -⟩ := List.cons.inj heq
          exact .inl hquote
      · rw [if_neg ha]
        by_cases hc : c = 39
        · subst hc
          refine iff_of_true ?_ ?_
          · rintro h l t heq
            obtain ⟨-, heq⟩ := List.cons.inj heq
            obtain ⟨rfl, -⟩ := List.cons.inj heq
            exact .inr hquote
          · rintro h l t heq
            obtain ⟨-, heq⟩ := List.cons.inj heq
            obtain ⟨rfl, -⟩ := List.cons.inj heq
            exact .inr hquote
        · rw [if_neg hc]
          simp

/-- Doubled quotes make and break no escape. -/
theorem noEscape_doubled (id : Bytes) :
    Url.NoEscape (doubleQuotes id ++ bytesOf "')") ↔ Url.NoEscape id := by
  induction id with
  | nil => decide
  | cons b id ih =>
      rw [doubleQuotes_cons, Url.noEscape_cons, ← ih, escaped_cons]
      by_cases hb : b = 39
      · subst hb
        have hquotes : (37 : UInt8) ∉ [39, 39] := by decide
        rw [if_pos rfl, List.append_assoc, noEscape_append hquotes]
        exact (and_iff_right fun h => absurd h (by decide)).symm
      · rw [if_neg hb, List.append_assoc, List.singleton_append,
          Url.noEscape_cons, escaped_cons, digits_doubled]

theorem mem_doubleQuotes {s : Bytes} {b : UInt8} :
    b ∈ doubleQuotes s ↔ b ∈ s := by
  unfold doubleQuotes
  rw [List.mem_flatMap]
  constructor
  · rintro ⟨c, hc, hb⟩
    split at hb
    · next h =>
      have : b = 39 := by simpa using hb
      rw [this, ← h]
      exact hc
    · rw [List.mem_singleton.mp hb]
      exact hc
  · intro hb
    refine ⟨b, hb, ?_⟩
    split
    · next h => simp [h]
    · exact List.mem_singleton_self b

/-- The segment of an entity is plain where its key is. -/
theorem plain_entitySegment (id : Bytes) :
    Url.Plain (entitySegment id)
      ↔ (∀ b ∈ id, Url.ordinary b = true ∧ Url.dropped b = false)
        ∧ Url.NoEscape id := by
  have hescape : Url.NoEscape (entitySegment id) ↔ Url.NoEscape id := by
    rw [entitySegment, List.append_assoc, noEscape_append (by decide),
      noEscape_doubled]
  constructor
  · intro h
    have hmem : ∀ b ∈ id, b ∈ entitySegment id := fun b hb =>
      List.mem_append_left _ (List.mem_append_right _ (mem_doubleQuotes.mpr hb))
    exact ⟨fun b hb => ⟨h.ordinary b (hmem b hb), h.kept b (hmem b hb)⟩,
      hescape.mp h.unescaped⟩
  · rintro ⟨hall, hid⟩
    have hbytes : ∀ b ∈ entitySegment id,
        Url.ordinary b = true ∧ Url.dropped b = false := by
      intro b hb
      rcases List.mem_append.mp hb with hb | hb
      · rcases List.mem_append.mp hb with hb | hb
        · have hopen : ((bytesOf "A_BusinessPartner('").all fun c =>
              Url.ordinary c && !Url.dropped c) = true := by decide
          simpa using List.all_eq_true.mp hopen b hb
        · exact hall b (mem_doubleQuotes.mp hb)
      · have hclose : ((bytesOf "')").all fun c =>
            Url.ordinary c && !Url.dropped c) = true := by decide
        simpa using List.all_eq_true.mp hclose b hb
    refine ⟨fun b hb => (hbytes b hb).1, fun b hb => (hbytes b hb).2,
      hescape.mpr hid, ?_⟩
    have hlen : 3 ≤ (entitySegment id).length := by
      have hopen : 3 ≤ (bytesOf "A_BusinessPartner('").length := by decide
      rw [entitySegment, List.length_append, List.length_append]
      omega
    constructor
    · intro h
      rw [h] at hlen
      exact absurd hlen (by decide)
    · intro h
      rw [h] at hlen
      exact absurd hlen (by decide)

/-- The URL of an entity addresses it exactly where its key is plain. -/
theorem addressesEntity_iff (id : Bytes) :
    AddressesEntity config id (businessPartnerUrl config id)
      ↔ (∀ b ∈ id, Url.ordinary b = true ∧ Url.dropped b = false)
        ∧ Url.NoEscape id := by
  rw [← plain_entitySegment, ← Url.reads_self,
    ← Url.read_around config.plain (List.forall_mem_nil _),
    ← businessPartnerUrl_written]
  unfold AddressesEntity
  constructor
  · rintro ⟨v, hread, hlit⟩
    rw [literalIn_iff.mp hlit] at hread
    exact hread
  · exact fun h => ⟨entitySegment id, h, literalIn_iff.mpr rfl⟩

/-- The requests address what was asked for exactly where the key has no
slash, backslash, question mark, hash, tab or line end, and no percent sign
with two hexadecimal digits behind it. -/
theorem requests_addressed_iff (id query : Bytes) (top : Nat) :
    (AddressesEntity config id (businessPartnerUrl config id)
        ∧ AddressesFilter config query top (searchUrl config query top))
      ↔ (∀ b ∈ id, Url.ordinary b = true ∧ Url.dropped b = false)
        ∧ Url.NoEscape id := by
  rw [addressesEntity_iff, and_iff_left (addressesFilter config query top)]

/-- A service at the root of its host. -/
def rootService : ServiceBase where
  baseUrl := bytesOf "/"
  segments := []
  plain := List.forall_mem_nil _
  trimmed := by decide

/-- A question mark in a key begins a query. -/
theorem question_mark_strays :
    ¬ (AddressesEntity rootService (bytesOf "1?")
          (businessPartnerUrl rootService (bytesOf "1?"))
        ∧ AddressesFilter rootService (bytesOf "x") 1
          (searchUrl rootService (bytesOf "x") 1)) := by
  rintro ⟨h, -⟩
  exact absurd ((addressesEntity_iff rootService _).mp h) (by decide)

end SapAutomate.Rfc
