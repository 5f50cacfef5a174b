/-
What a URL says behind its authority, for the schemes of HTTP: bytes, as
its standard takes them apart.

Tabs and line ends are dropped, a backslash is a slash, and a segment that
decodes to one dot or two is a move, not a name. A server decodes each
segment, and the parameters of a form in the query.

`read_written` says what segments that are put together are read as:
each as its value (`Reads`), where none of them makes another segment, a
query or a fragment. A segment is read as itself exactly when it is plain
(`reads_self`).
-/
import Mathlib.Data.List.Forall2
import Mathlib.Data.List.Infix
import Mathlib.Data.List.TakeWhile

namespace Url

abbrev Bytes := List UInt8

-- ============================================================= decoding

/-- The value of a hexadecimal digit. -/
def hexValue (b : UInt8) : Option Nat :=
  if 48 ≤ b ∧ b ≤ 57 then some (b.toNat - 48)
  else if 65 ≤ b ∧ b ≤ 70 then some (b.toNat - 55)
  else if 97 ≤ b ∧ b ≤ 102 then some (b.toNat - 87)
  else none

/-- The byte that a percent sign and two digits stand for. -/
def escaped : Bytes → Option UInt8
  | b :: h :: l :: _ =>
      if b = 37 then do
        let x ← hexValue h
        let y ← hexValue l
        return UInt8.ofNat (16 * x + y)
      else none
  | _ => none

/-- Percent-decoding, where the first `skip` bytes belong to an escape. -/
def decodeFrom : Nat → Bytes → Bytes
  | _, [] => []
  | skip + 1, _ :: bs => decodeFrom skip bs
  | 0, b :: bs =>
      match escaped (b :: bs) with
      | some v => v :: decodeFrom 2 bs
      | none => b :: decodeFrom 0 bs

/-- Percent-decoding. -/
def decode (bs : Bytes) : Bytes := decodeFrom 0 bs

/-- Nothing is escaped. -/
def NoEscape (bs : Bytes) : Prop := ∀ t ∈ bs.tails, escaped t = none

instance : DecidablePred NoEscape := fun bs =>
  inferInstanceAs (Decidable (∀ t ∈ bs.tails, escaped t = none))

theorem escaped_length {bs : Bytes} {v : UInt8} (h : escaped bs = some v) :
    3 ≤ bs.length := by
  match bs, h with
  | _ :: _ :: _ :: bs, _ => exact Nat.le_add_left 3 bs.length

theorem length_decodeFrom_le (skip : Nat) (bs : Bytes) :
    (decodeFrom skip bs).length ≤ bs.length - skip := by
  induction bs generalizing skip with
  | nil => exact Nat.zero_le _
  | cons b bs ih =>
      cases skip with
      | succ skip =>
          have hle := ih skip
          rw [decodeFrom, List.length_cons]
          omega
      | zero =>
          rw [decodeFrom, List.length_cons]
          split
          · next v hv =>
              have hlen := escaped_length hv
              have hle := ih 2
              rw [List.length_cons] at hlen ⊢
              omega
          · have hle := ih 0
            rw [List.length_cons]
            omega

theorem length_decode_le (bs : Bytes) : (decode bs).length ≤ bs.length :=
  length_decodeFrom_le 0 bs

theorem noEscape_cons {b : UInt8} {bs : Bytes} :
    NoEscape (b :: bs) ↔ escaped (b :: bs) = none ∧ NoEscape bs := by
  rw [NoEscape, List.tails, List.forall_mem_cons]
  rfl

/-- What is not escaped stands for itself. -/
theorem decode_eq_self {bs : Bytes} (h : NoEscape bs) : decode bs = bs := by
  induction bs with
  | nil => rfl
  | cons b bs ih =>
      obtain ⟨hnone, hrest⟩ := noEscape_cons.mp h
      have htail : decodeFrom 0 bs = bs := ih hrest
      rw [decode, decodeFrom, hnone]
      dsimp only
      rw [htail]

/-- An escape makes a text shorter. -/
theorem noEscape_of_length {bs : Bytes} (h : bs.length ≤ (decode bs).length) :
    NoEscape bs := by
  induction bs with
  | nil =>
      intro t ht
      rw [List.tails, List.mem_singleton] at ht
      rw [ht]
      rfl
  | cons b bs ih =>
      rw [decode, decodeFrom] at h
      cases hesc : escaped (b :: bs) with
      | some v =>
          have hlen := escaped_length hesc
          have hle := length_decodeFrom_le 2 bs
          rw [hesc] at h
          simp only [List.length_cons] at h hlen
          omega
      | none =>
          rw [hesc] at h
          exact noEscape_cons.mpr ⟨hesc, ih (Nat.le_of_succ_le_succ h)⟩

-- =========================================================== references

/-- What is dropped from a URL: tabs and line ends. -/
def dropped (b : UInt8) : Bool := b == 9 || b == 10 || b == 13

def strip (bs : Bytes) : Bytes := bs.filter fun b => !dropped b

/-- What parts segments. -/
def isSlash (b : UInt8) : Bool := b == 47 || b == 92

/-- The segments, decoded, and the query. -/
structure Ref where
  segments : List Bytes
  query : Option Bytes

/-- What is read behind the authority, where nothing of it is a move and
there is no fragment. -/
def read (bs : Bytes) : Option Ref :=
  let text := strip bs
  let path := text.takeWhile (· ≠ 63)
  let segments := ((path.splitOnP isSlash).drop 1).map decode
  if 35 ∈ text ∨ [46] ∈ segments ∨ [46, 46] ∈ segments then none
  else some {
    segments := segments
    query := if 63 ∈ text then some ((text.dropWhile (· ≠ 63)).drop 1)
      else none }

/-- Segments put together. -/
def written (parts : List Bytes) : Bytes := parts.flatMap (47 :: ·)

/-- What makes no other segment, no query and no fragment. -/
def ordinary (b : UInt8) : Bool := !isSlash b && b != 63 && b != 35

/-- What is written is read as this. -/
structure Reads (s v : Bytes) : Prop where
  ordinary : ∀ b ∈ s, ordinary b = true
  value : decode (strip s) = v
  name : v ≠ [46] ∧ v ≠ [46, 46]

/-- A segment that is read as itself. -/
structure Plain (s : Bytes) : Prop where
  ordinary : ∀ b ∈ s, ordinary b = true
  kept : ∀ b ∈ s, dropped b = false
  unescaped : NoEscape s
  name : s ≠ [46] ∧ s ≠ [46, 46]

instance : DecidablePred Plain := fun s =>
  decidable_of_iff (s.all ordinary = true ∧ s.any dropped = false
      ∧ NoEscape s ∧ s ≠ [46] ∧ s ≠ [46, 46])
    ⟨fun ⟨ho, hk, hu, hn⟩ =>
        ⟨List.all_eq_true.mp ho, by simpa using hk, hu, hn⟩,
      fun ⟨ho, hk, hu, hn⟩ =>
        ⟨List.all_eq_true.mpr ho, by simpa using hk, hu, hn⟩⟩

/-- A plus sign of a form is a blank. -/
def plus (b : UInt8) : UInt8 := if b = 43 then 32 else b

/-- A parameter of a form: its name and its value. -/
def param (p : Bytes) : Bytes × Bytes :=
  (decode ((p.takeWhile (· ≠ 61)).map plus),
    decode (((p.dropWhile (· ≠ 61)).drop 1).map plus))

/-- The parameters of a form. -/
def params (q : Bytes) : List (Bytes × Bytes) :=
  ((q.splitOn 38).filter (· ≠ [])).map param

theorem length_strip_le (bs : Bytes) : (strip bs).length ≤ bs.length :=
  List.length_filter_le _ _

theorem strip_eq_self {bs : Bytes} :
    strip bs = bs ↔ ∀ b ∈ bs, dropped b = false := by
  rw [strip, List.filter_eq_self]
  exact forall₂_congr fun b _ => by rw [Bool.not_eq_true']

/-- What is decoded to a text as long is that text, all of it and plain. -/
theorem kept_of_length {s v : Bytes} (h : decode (strip s) = v)
    (hle : s.length ≤ v.length) : strip s = s ∧ NoEscape s ∧ v = s := by
  have hdecode := length_decode_le (strip s)
  have hlen := length_strip_le s
  rw [h] at hdecode
  have hstrip : strip s = s :=
    List.filter_sublist.eq_of_length
      (Nat.le_antisymm hlen (Nat.le_trans hle hdecode))
  rw [hstrip] at h
  have hesc : NoEscape s := noEscape_of_length (h ▸ hle)
  exact ⟨hstrip, hesc, h.symm.trans (decode_eq_self hesc)⟩

theorem reads_self {s : Bytes} : Reads s s ↔ Plain s := by
  constructor
  · rintro ⟨hord, hvalue, hname⟩
    obtain ⟨hstrip, hesc, -⟩ := kept_of_length hvalue (Nat.le_refl _)
    exact ⟨hord, strip_eq_self.mp hstrip, hesc, hname⟩
  · rintro ⟨hord, hkept, hesc, hname⟩
    refine ⟨hord, ?_, hname⟩
    rw [strip_eq_self.mpr hkept]
    exact decode_eq_self hesc

-- ============================================================= segments

theorem splitOnP_written (a : Bytes) (parts : List Bytes) :
    (a ++ written parts).splitOnP isSlash
      = a.splitOnP isSlash ++ parts.flatMap (List.splitOnP isSlash) := by
  induction parts generalizing a with
  | nil => rw [written, List.flatMap_nil, List.append_nil, List.flatMap_nil,
      List.append_nil]
  | cons s parts ih =>
      have hwritten : written (s :: parts) = 47 :: (s ++ written parts) := rfl
      rw [hwritten, List.splitOnP_append_cons _ _ rfl, ih, List.flatMap_cons]

theorem strip_append (a b : Bytes) : strip (a ++ b) = strip a ++ strip b :=
  List.filter_append _ _

theorem strip_written (parts : List Bytes) :
    strip (written parts) = written (parts.map strip) := by
  induction parts with
  | nil => rfl
  | cons s parts ih =>
      have hwritten : written (s :: parts) = [47] ++ (s ++ written parts) := rfl
      rw [hwritten, strip_append, strip_append, ih]
      rfl

/-- Two segments at least, where something parts them. -/
theorem two_le_split {s : Bytes} (h : ¬ ∀ b ∈ s, isSlash b = false) :
    2 ≤ (s.splitOnP isSlash).length := by
  simp only [not_forall, Bool.not_eq_false] at h
  obtain ⟨b, hmem, hb⟩ := h
  obtain ⟨front, rest, rfl⟩ := List.append_of_mem hmem
  rw [List.splitOnP_append_cons _ _ hb, List.length_append]
  have hfront := List.length_pos_of_ne_nil (List.splitOnP_ne_nil isSlash front)
  have hrest := List.length_pos_of_ne_nil (List.splitOnP_ne_nil isSlash rest)
  omega

theorem length_le_flatMap_split (parts : List Bytes) :
    parts.length ≤ (parts.flatMap (List.splitOnP isSlash)).length := by
  induction parts with
  | nil => exact Nat.zero_le _
  | cons s parts ih =>
      have hpos := List.length_pos_of_ne_nil (List.splitOnP_ne_nil isSlash s)
      rw [List.flatMap_cons, List.length_append, List.length_cons]
      omega

/-- As many segments as were written: nothing parts any of them. -/
theorem flatMap_split {parts vals : List Bytes}
    (hlen : vals.length = parts.length) :
    (parts.flatMap (List.splitOnP isSlash)).map decode = vals
      ↔ List.Forall₂ (fun s v => (∀ b ∈ s, isSlash b = false) ∧ decode s = v)
        parts vals := by
  induction parts generalizing vals with
  | nil =>
      obtain rfl := List.length_eq_zero_iff.mp hlen
      exact iff_of_true rfl .nil
  | cons s parts ih =>
      cases vals with
      | nil => cases hlen
      | cons v vals =>
          have hlen : vals.length = parts.length := Nat.succ.inj hlen
          rw [List.flatMap_cons, List.map_append, List.forall₂_cons, ← ih hlen]
          by_cases hs : ∀ b ∈ s, isSlash b = false
          · rw [List.splitOnP_eq_singleton hs, List.map_singleton,
              List.singleton_append, List.cons.injEq, and_iff_right hs]
          · refine iff_of_false (fun heq => ?_) fun h => hs h.1.1
            have htwo := two_le_split hs
            have hrest := length_le_flatMap_split parts
            have heq := congrArg List.length heq
            rw [List.length_append, List.length_map, List.length_map,
              List.length_cons] at heq
            omega

theorem ordinary_of_dropped {b : UInt8} (h : dropped b = true) :
    ordinary b = true := by
  simp only [dropped, Bool.or_eq_true, beq_iff_eq] at h
  rcases h with (rfl | rfl) | rfl
  · rfl
  · rfl
  · rfl

theorem ordinary_iff {b : UInt8} :
    ordinary b = true ↔ isSlash b = false ∧ b ≠ 63 ∧ b ≠ 35 := by
  rw [ordinary, Bool.and_eq_true, Bool.and_eq_true, Bool.not_eq_true',
    bne_iff_ne, bne_iff_ne, and_assoc]

theorem ordinary_strip {s : Bytes} :
    (∀ b ∈ s, ordinary b = true) ↔ ∀ b ∈ strip s, ordinary b = true := by
  constructor
  · exact fun h b hb => h b (List.mem_of_mem_filter hb)
  · intro h b hb
    cases hdrop : dropped b with
    | true => exact ordinary_of_dropped hdrop
    | false => exact h b (List.mem_filter.mpr ⟨hb, by rw [hdrop]; rfl⟩)

theorem forall₂_reads {parts vals : List Bytes}
    (hlen : vals.length = parts.length) :
    List.Forall₂ Reads parts vals
      ↔ (∀ s ∈ parts, ∀ b ∈ strip s, b ≠ 63 ∧ b ≠ 35)
        ∧ List.Forall₂ (fun s v => (∀ b ∈ s, isSlash b = false)
          ∧ decode s = v) (parts.map strip) vals
        ∧ [46] ∉ vals ∧ [46, 46] ∉ vals := by
  induction parts generalizing vals with
  | nil =>
      obtain rfl := List.length_eq_zero_iff.mp hlen
      simp
  | cons s parts ih =>
      cases vals with
      | nil => cases hlen
      | cons v vals =>
          have hreads : Reads s v ↔ (∀ b ∈ strip s, b ≠ 63 ∧ b ≠ 35)
              ∧ ((∀ b ∈ strip s, isSlash b = false) ∧ decode (strip s) = v)
              ∧ v ≠ [46] ∧ v ≠ [46, 46] := by
            constructor
            · rintro ⟨hord, hvalue, hname⟩
              have hord := ordinary_strip.mp hord
              exact ⟨fun b hb => (ordinary_iff.mp (hord b hb)).2,
                ⟨fun b hb => (ordinary_iff.mp (hord b hb)).1, hvalue⟩, hname⟩
            · rintro ⟨hends, ⟨hslash, hvalue⟩, hname⟩
              exact ⟨ordinary_strip.mpr fun b hb =>
                ordinary_iff.mpr ⟨hslash b hb, hends b hb⟩, hvalue, hname⟩
          rw [List.forall₂_cons, hreads, ih (Nat.succ.inj hlen),
            List.forall_mem_cons, List.map_cons, List.forall₂_cons,
            List.mem_cons, List.mem_cons, not_or, not_or]
          constructor
          · rintro ⟨⟨hends, hs, hdot, hdots⟩, hends', hrest, hdot', hdots'⟩
            exact ⟨⟨hends, hends'⟩, ⟨hs, hrest⟩, ⟨hdot.symm, hdot'⟩,
              hdots.symm, hdots'⟩
          · rintro ⟨⟨hends, hends'⟩, ⟨hs, hrest⟩, ⟨hdot, hdot'⟩, hdots, hdots'⟩
            exact ⟨⟨hends, hs, Ne.symm hdot, Ne.symm hdots⟩, hends', hrest,
              hdot', hdots'⟩

theorem mem_written {parts : List Bytes} {b : UInt8} (hb : b ≠ 47) :
    b ∈ written parts ↔ ∃ s ∈ parts, b ∈ s := by
  rw [written, List.mem_flatMap]
  refine exists_congr fun s => and_congr_right fun _ => ?_
  rw [List.mem_cons, or_iff_right hb]

theorem segments_written (parts : List Bytes) :
    ((written parts).splitOnP isSlash).drop 1
      = parts.flatMap (List.splitOnP isSlash) :=
  congrArg (List.drop 1) (splitOnP_written [] parts)

/-- What segments put together are read as. -/
theorem read_written {parts vals : List Bytes}
    (hlen : vals.length = parts.length) :
    read (written parts) = some ⟨vals, none⟩
      ↔ List.Forall₂ Reads parts vals := by
  have hmem : ∀ b, b ≠ 47 → (b ∈ written (parts.map strip)
      ↔ ∃ s ∈ parts, b ∈ strip s) := by
    intro b hb
    rw [mem_written hb]
    simp only [List.mem_map, exists_exists_and_eq_and]
  have hlen' : vals.length = (parts.map strip).length := by
    rw [hlen, List.length_map]
  rw [forall₂_reads hlen, ← flatMap_split hlen']
  unfold read
  dsimp only
  rw [strip_written]
  have hwhole : 63 ∉ written (parts.map strip) →
      (written (parts.map strip)).takeWhile (· ≠ 63)
        = written (parts.map strip) := by
    intro hno
    refine List.takeWhile_eq_self_iff.mpr fun b hb => decide_eq_true ?_
    rintro rfl
    exact hno hb
  constructor
  · intro h
    split at h
    · cases h
    · next hno =>
        obtain ⟨hsegs, hquery⟩ := Ref.mk.inj (Option.some.inj h)
        simp only [not_or] at hno
        have hquestion : 63 ∉ written (parts.map strip) := by
          intro hin
          rw [if_pos hin] at hquery
          cases hquery
        rw [hwhole hquestion, segments_written] at hsegs hno
        rw [hsegs] at hno
        refine ⟨fun s hs b hb => ⟨?_, ?_⟩, hsegs, hno.2⟩
        · rintro rfl
          exact hquestion ((hmem 63 (by decide)).mpr ⟨s, hs, hb⟩)
        · rintro rfl
          exact hno.1 ((hmem 35 (by decide)).mpr ⟨s, hs, hb⟩)
  · rintro ⟨hends, hsegs, hdot, hdots⟩
    have hquestion : 63 ∉ written (parts.map strip) := by
      intro hin
      obtain ⟨s, hs, hb⟩ := (hmem 63 (by decide)).mp hin
      exact (hends s hs 63 hb).1 rfl
    have hhash : 35 ∉ written (parts.map strip) := by
      intro hin
      obtain ⟨s, hs, hb⟩ := (hmem 35 (by decide)).mp hin
      exact (hends s hs 35 hb).2 rfl
    rw [hwhole hquestion, segments_written, hsegs, if_neg hquestion,
      if_neg (by simp only [hhash, hdot, hdots, or_self, not_false_iff])]

-- ============================================================== queries

theorem forall₂_self {parts : List Bytes} (h : ∀ s ∈ parts, Plain s) :
    List.Forall₂ Reads parts parts :=
  List.forall₂_same.mpr fun s hs => reads_self.mpr (h s hs)

theorem forall₂_front {l a b : List Bytes} (hl : ∀ s ∈ l, Plain s) :
    List.Forall₂ Reads (l ++ a) (l ++ b) ↔ List.Forall₂ Reads a b := by
  induction l with
  | nil => exact Iff.rfl
  | cons s l ih =>
      obtain ⟨hs, hl⟩ := List.forall_mem_cons.mp hl
      rw [List.cons_append, List.cons_append, List.forall₂_cons, ih hl,
        and_iff_right (reads_self.mpr hs)]

/-- One segment among plain ones. -/
theorem read_around {l m : List Bytes} (hl : ∀ s ∈ l, Plain s)
    (hm : ∀ s ∈ m, Plain s) {x v : Bytes} :
    read (written (l ++ x :: m)) = some ⟨l ++ v :: m, none⟩ ↔ Reads x v := by
  have hlen : (l ++ v :: m).length = (l ++ x :: m).length := by
    rw [List.length_append, List.length_append, List.length_cons,
      List.length_cons]
  rw [read_written hlen, forall₂_front hl, List.forall₂_cons,
    and_iff_left (forall₂_self hm)]

/-- Plain segments in front are read as they are, whatever follows. -/
theorem read_front {l : List Bytes} (hl : ∀ s ∈ l, Plain s) {more : Bytes}
    {r : Ref} (h : read (written l ++ 47 :: more) = some r) :
    ∃ rest, r.segments = l ++ rest := by
  obtain ⟨hends, hsegs, -⟩ := (forall₂_reads rfl).mp (forall₂_self hl)
  rw [← flatMap_split (List.length_map _).symm] at hsegs
  have hquestion : ∀ b ∈ written (l.map strip), decide (b ≠ 63) = true := by
    intro b hb
    refine decide_eq_true ?_
    rintro rfl
    obtain ⟨s, hs, hmem⟩ := (mem_written (by decide)).mp hb
    obtain ⟨t, ht, rfl⟩ := List.mem_map.mp hs
    exact (hends t ht 63 hmem).1 rfl
  have htext : strip (written l ++ 47 :: more)
      = written (l.map strip) ++ 47 :: strip more := by
    rw [strip_append, strip_written]
    rfl
  unfold read at h
  dsimp only at h
  rw [htext, List.takeWhile_append_of_pos hquestion,
    List.takeWhile_cons_of_pos (by decide),
    List.splitOnP_append_cons _ _ rfl] at h
  split at h
  · cases h
  · rw [← Option.some.inj h]
    dsimp only
    have hsplit := splitOnP_written [] (l.map strip)
    rw [List.nil_append] at hsplit
    rw [hsplit, List.append_assoc]
    refine ⟨(((strip more).takeWhile (· ≠ 63)).splitOnP isSlash).map decode,
      ?_⟩
    rw [List.splitOnP_nil, List.singleton_append, List.drop_one,
      List.tail_cons, List.map_append, hsegs]

/-- Plain segments, and a query. -/
theorem read_query {parts : List Bytes} (h : ∀ s ∈ parts, Plain s)
    (q : Bytes) :
    read (written parts ++ 63 :: q)
      = if 35 ∈ q then none else some ⟨parts, some (strip q)⟩ := by
  obtain ⟨hends, hsegs, hdot, hdots⟩ :=
    (forall₂_reads rfl).mp (forall₂_self h)
  rw [← flatMap_split (List.length_map _).symm] at hsegs
  have hquestion : ∀ b ∈ written (parts.map strip), decide (b ≠ 63) = true := by
    intro b hb
    refine decide_eq_true ?_
    rintro rfl
    obtain ⟨s, hs, hmem⟩ := (mem_written (by decide)).mp hb
    obtain ⟨t, ht, rfl⟩ := List.mem_map.mp hs
    exact (hends t ht 63 hmem).1 rfl
  have hhash : 35 ∈ written (parts.map strip) ++ 63 :: strip q ↔ 35 ∈ q := by
    rw [List.mem_append, List.mem_cons, or_iff_right, or_iff_right (by decide)]
    · rw [strip, List.mem_filter, and_iff_left (by rfl)]
    · intro hb
      obtain ⟨s, hs, hmem⟩ := (mem_written (by decide)).mp hb
      obtain ⟨t, ht, rfl⟩ := List.mem_map.mp hs
      exact (hends t ht 35 hmem).2 rfl
  have htext : strip (written parts ++ 63 :: q)
      = written (parts.map strip) ++ 63 :: strip q := by
    rw [strip_append, strip_written]
    rfl
  unfold read
  dsimp only
  rw [htext, List.takeWhile_append_of_pos hquestion,
    List.dropWhile_append_of_pos hquestion,
    List.takeWhile_cons_of_neg (by decide),
    List.dropWhile_cons_of_neg (by decide), List.append_nil,
    segments_written, hsegs,
    if_pos (List.mem_append_right _ List.mem_cons_self)]
  simp only [hhash, hdot, hdots, or_false]
  rfl

theorem decode_flatMap {enc : UInt8 → Bytes}
    (henc : ∀ b w, decode (enc b ++ w) = b :: decode w) (bs w : Bytes) :
    decode (bs.flatMap enc ++ w) = bs ++ decode w := by
  induction bs with
  | nil => rfl
  | cons b bs ih =>
      rw [List.flatMap_cons, List.append_assoc, henc, ih, List.cons_append]

/-- Bytes of a name of a parameter that stand for themselves. -/
def isKey (b : UInt8) : Bool := b != 37 && b != 38 && b != 43 && b != 61

theorem noEscape_of_key {key : Bytes} (h : ∀ b ∈ key, isKey b = true) :
    NoEscape key := by
  induction key with
  | nil => exact fun t ht => by rw [List.mem_singleton.mp ht]; rfl
  | cons b key ih =>
      refine noEscape_cons.mpr
        ⟨?_, ih fun b hb => h b (List.mem_cons_of_mem _ hb)⟩
      have hb : b ≠ 37 := by
        rintro rfl
        cases h 37 List.mem_cons_self
      unfold escaped
      split
      · next heq =>
          rw [if_neg fun h => hb ((List.cons.inj heq).1.trans h)]
      · rfl

theorem isKey_iff {b : UInt8} :
    isKey b = true ↔ b ≠ 37 ∧ b ≠ 38 ∧ b ≠ 43 ∧ b ≠ 61 := by
  simp only [isKey, Bool.and_eq_true, bne_iff_ne, and_assoc]

theorem param_key {key : Bytes} (hkey : ∀ b ∈ key, isKey b = true)
    (v : Bytes) : param (key ++ 61 :: v) = (key, decode (v.map plus)) := by
  have hname : ∀ b ∈ key, decide (b ≠ 61) = true := fun b hb =>
    decide_eq_true (isKey_iff.mp (hkey b hb)).2.2.2
  have hplus : key.map plus = key := by
    refine (List.map_congr_left fun b hb => ?_).trans (List.map_id key)
    exact if_neg (isKey_iff.mp (hkey b hb)).2.2.1
  rw [param, List.takeWhile_append_of_pos hname,
    List.dropWhile_append_of_pos hname, List.takeWhile_cons_of_neg (by decide),
    List.dropWhile_cons_of_neg (by decide), List.append_nil, hplus,
    decode_eq_self (noEscape_of_key hkey)]
  rfl

/-- A parameter, and those behind it. -/
theorem params_key {key : Bytes} (hkey : ∀ b ∈ key, isKey b = true)
    (v : Bytes) :
    params (key ++ 61 :: v)
      = (key, decode ((v.takeWhile (· ≠ 38)).map plus))
        :: params ((v.dropWhile (· ≠ 38)).drop 1) := by
  have hno : ∀ w, (38 : UInt8) ∉ w → (38 : UInt8) ∉ key ++ 61 :: w := by
    intro w hw hmem
    rcases List.mem_append.mp hmem with hmem | hmem
    · exact (isKey_iff.mp (hkey 38 hmem)).2.1 rfl
    · rcases List.mem_cons.mp hmem with hmem | hmem
      · cases hmem
      · exact hw hmem
  have hfront : (38 : UInt8) ∉ v.takeWhile (· ≠ 38) := by
    intro hmem
    have hne := List.mem_takeWhile_imp hmem
    cases hne
  have hsplit : v.takeWhile (· ≠ 38) ++ v.dropWhile (· ≠ 38) = v :=
    List.takeWhile_append_dropWhile
  have hhead : params (key ++ 61 :: v)
      = param (key ++ 61 :: v.takeWhile (· ≠ 38))
        :: params ((v.dropWhile (· ≠ 38)).drop 1) := by
    cases hrest : v.dropWhile (· ≠ 38) with
    | nil =>
        rw [hrest, List.append_nil] at hsplit
        rw [hsplit] at hfront ⊢
        rw [params, List.splitOn_eq_singleton (hno v hfront),
          List.filter_cons_of_pos (by simp)]
        rfl
    | cons b rest =>
        have hb : b = 38 := by
          have hneg := List.head?_dropWhile_not (· ≠ (38 : UInt8)) v
          rw [hrest] at hneg
          simpa using hneg
        rw [hrest, hb] at hsplit
        have hwhole : key ++ 61 :: v
            = (key ++ 61 :: v.takeWhile (· ≠ 38)) ++ 38 :: rest := by
          rw [List.append_assoc, List.cons_append, hsplit]
        rw [hwhole, params,
          List.splitOn_append_cons_self_of_not_mem (hno _ hfront),
          List.filter_cons_of_pos (by simp)]
        rfl
  rw [hhead, param_key hkey]

end Url
