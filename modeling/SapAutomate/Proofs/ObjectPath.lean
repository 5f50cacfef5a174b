/-
What the paths of ADT objects are read as (`adt_path`, `urlencoding`).

A name is put into a path as it is, so it is read as itself exactly when it
is plain; a parameter is encoded, and reading undoes that. Left as they
are: the hole of a function module's path, and a package's path, which has
no name.
-/
import SapAutomate.Adt.Addressing

namespace SapAutomate.Adt
open Interact

-- ================================================================ texts

theorem utf8_append (s t : String) : utf8 (s ++ t) = utf8 s ++ utf8 t := by
  rw [utf8, String.toList_append, List.flatMap_append]
  rfl

theorem utf8_ofList (cs : List Char) :
    utf8 (String.ofList cs) = cs.flatMap String.utf8EncodeChar := by
  rw [utf8, String.toList_ofList]

/-- A byte of `urlencoding::encode`, as bytes. -/
def encodedByte (b : UInt8) : Url.Bytes :=
  (encodeByte b).flatMap String.utf8EncodeChar

theorem utf8_urlEncode (s : String) :
    utf8 (urlEncode s) = (utf8 s).flatMap encodedByte := by
  rw [urlEncode, utf8_ofList, List.flatMap_assoc]
  rfl

/-- No byte of an encoded text is one that means something in a query. -/
def quiet (b : UInt8) : Bool :=
  b != 35 && b != 38 && b != 43 && !Url.dropped b

/-- A byte, or its escape. -/
def standsFor (bs : Url.Bytes) (b : UInt8) : Bool :=
  bs.all quiet && (bs == [b] && b != 37
    || bs.length == 3 && Url.escaped bs == some b)

theorem encodedByte_of_lt : ∀ n < 256,
    standsFor (encodedByte (UInt8.ofNat n)) (UInt8.ofNat n) = true := by
  decide +kernel

theorem standsFor_encodedByte (b : UInt8) :
    standsFor (encodedByte b) b = true := by
  have h := encodedByte_of_lt b.toNat b.toNat_lt
  rwa [UInt8.ofNat_toNat] at h

theorem decode_standsFor {bs : Url.Bytes} {b : UInt8}
    (h : standsFor bs b = true) (w : Url.Bytes) :
    Url.decode (bs ++ w) = b :: Url.decode w := by
  simp only [standsFor, Bool.and_eq_true, Bool.or_eq_true, beq_iff_eq,
    bne_iff_ne] at h
  obtain ⟨-, ⟨rfl, hne⟩ | ⟨hlen, hesc⟩⟩ := h
  · rw [List.singleton_append, Url.decode, Url.decodeFrom]
    have hnone : Url.escaped (b :: w) = none := by
      unfold Url.escaped
      split
      · next heq =>
          rw [if_neg fun h => hne ((List.cons.inj heq).1.trans h)]
      · rfl
    rw [hnone]
    rfl
  · obtain ⟨p, x, y, rfl⟩ := List.length_eq_three.mp hlen
    have hall : Url.escaped (p :: x :: y :: w) = some b := hesc
    rw [List.cons_append, Url.decode, Url.decodeFrom, List.cons_append,
      List.cons_append, List.nil_append, hall]
    rfl

/-- Decoding undoes encoding. -/
theorem decode_encoded (bs w : Url.Bytes) :
    Url.decode (bs.flatMap encodedByte ++ w) = bs ++ Url.decode w :=
  Url.decode_flatMap (fun b => decode_standsFor (standsFor_encodedByte b)) bs w

theorem quiet_encoded {bs : Url.Bytes} :
    ∀ b ∈ bs.flatMap encodedByte, quiet b = true := by
  intro b hb
  obtain ⟨c, -, hb⟩ := List.mem_flatMap.mp hb
  have h := standsFor_encodedByte c
  rw [standsFor, Bool.and_eq_true] at h
  exact List.all_eq_true.mp h.1 b hb

theorem quiet_iff {b : UInt8} :
    quiet b = true ↔ b ≠ 35 ∧ b ≠ 38 ∧ b ≠ 43 ∧ Url.dropped b = false := by
  simp only [quiet, Bool.and_eq_true, bne_iff_ne, Bool.not_eq_true', and_assoc]

-- ================================================================ paths

/-- A path, from a literal in front of the name and one behind it. -/
theorem utf8_around {a b : String} {l m : List Url.Bytes} (name : String)
    (ha : utf8 a = Url.written l ++ [47]) (hb : utf8 b = Url.written m) :
    utf8 (a ++ name ++ b) = Url.written (l ++ utf8 name :: m) := by
  rw [utf8_append, utf8_append, ha, hb, Url.written, Url.written,
    Url.written, List.flatMap_append, List.flatMap_cons]
  simp only [List.append_assoc, List.cons_append, List.nil_append]

theorem utf8_behind {a : String} {l : List Url.Bytes} (name : String)
    (ha : utf8 a = Url.written l ++ [47]) :
    utf8 (a ++ name) = Url.written (l ++ [utf8 name]) := by
  rw [utf8_append, ha, Url.written, Url.written, List.flatMap_append]
  simp only [List.append_assoc, List.flatMap_cons, List.flatMap_nil,
    List.cons_append, List.nil_append, List.append_nil]

/-- The kinds whose path is their collection, the name and the resource. -/
def pathed : AbapObjectKind → Bool
  | .functionModule | .package | .transaction => false
  | _ => true

theorem adtPath_written (std : Std) {kind : AbapObjectKind}
    (hkind : pathed kind = true) (name : String) :
    utf8 (kind.adtPath std name)
      = Url.written (segs kind.collection
        ++ utf8 (std.toLowercase name) :: segs kind.resource) := by
  cases kind
  case functionModule | package | transaction => cases hkind
  case dataElement | enhancementSpot | behaviorDefinition
      | serviceDefinition | metadataExtension =>
    exact utf8_behind _ (by decide)
  all_goals exact utf8_around _ (by decide) (by decide)

theorem plain_collection (kind : AbapObjectKind) :
    ∀ s ∈ segs kind.collection, Url.Plain s := by
  cases kind <;> decide

theorem plain_resource (kind : AbapObjectKind) :
    ∀ s ∈ segs kind.resource, Url.Plain s := by
  cases kind <;> decide

theorem locates_pathed (std : Std) {kind : AbapObjectKind}
    (hkind : pathed kind = true) (name : String) :
    Locates kind (utf8 (std.toLowercase name)) (utf8 (kind.adtPath std name))
      ↔ Url.Plain (utf8 (std.toLowercase name)) := by
  have hread : Locates kind (utf8 (std.toLowercase name))
      (utf8 (kind.adtPath std name))
      ↔ Url.read (utf8 (kind.adtPath std name))
        = some ⟨segs kind.collection
          ++ utf8 (std.toLowercase name) :: segs kind.resource, none⟩ := by
    cases kind
    case functionModule | package | transaction => cases hkind
    all_goals rfl
  rw [hread, adtPath_written std hkind,
    Url.read_around (plain_collection kind) (plain_resource kind),
    Url.reads_self]

/-- The hole of a function module's path is left. -/
theorem not_locates_module (std : Std) (name : String) :
    ¬ Locates .functionModule (utf8 (std.toLowercase name))
      (utf8 (AbapObjectKind.functionModule.adtPath std name)) := by
  rintro ⟨group, hne, hread⟩
  have hfront : ∀ s ∈ segs ["sap", "bc", "adt", "functions", "groups",
      groupHole], Url.Plain s := by decide
  have hpath : utf8 (AbapObjectKind.functionModule.adtPath std name)
      = Url.written (segs ["sap", "bc", "adt", "functions", "groups",
        groupHole]) ++ 47 :: (utf8 "fmodules/"
          ++ utf8 (std.toLowercase name ++ "/source/main")) := by
    have hlit : utf8 "/sap/bc/adt/functions/groups/\x7bgroup\x7d/fmodules/"
        = Url.written (segs ["sap", "bc", "adt", "functions", "groups",
          groupHole]) ++ 47 :: utf8 "fmodules/" := by decide
    have htext : AbapObjectKind.functionModule.adtPath std name
        = "/sap/bc/adt/functions/groups/\x7bgroup\x7d/fmodules/"
          ++ (std.toLowercase name ++ "/source/main") := String.append_assoc
    rw [htext, utf8_append, hlit, List.append_assoc, List.cons_append]
  rw [hpath] at hread
  obtain ⟨rest, hrest⟩ := Url.read_front hfront hread
  have hsplit : segs ["sap", "bc", "adt", "functions", "groups", groupHole]
      = segs ["sap", "bc", "adt", "functions", "groups"]
        ++ [utf8 groupHole] := rfl
  dsimp only at hrest
  rw [modulePath, hsplit, List.append_assoc, List.append_cancel_left_eq] at hrest
  exact hne (List.cons.inj hrest).1

/-- A package's path has no name. -/
theorem not_locates_package (std : Std) (name : String) :
    ¬ Locates .package (utf8 (std.toLowercase name))
      (utf8 (AbapObjectKind.package.adtPath std name)) := by
  intro h
  have hpath : utf8 (AbapObjectKind.package.adtPath std name)
      = Url.written (segs AbapObjectKind.package.collection) := by
    show utf8 "/sap/bc/adt/repository/nodestructure" = _
    decide
  have hself := (Url.read_written rfl).mpr
    (Url.forall₂_self (plain_collection .package))
  rw [← hpath] at hself
  have hsegs := congrArg (Option.map Url.Ref.segments) (hself.symm.trans h)
  have hlen := congrArg List.length (Option.some.inj hsegs)
  cases hlen

-- ========================================================== parameters

/-- The name of the one parameter. -/
def uriKey : Url.Bytes := utf8 "uri"

theorem uriKey_key : ∀ b ∈ uriKey, Url.isKey b = true :=
  List.all_eq_true.mp (by decide)

/-- A quiet value is the whole of the query. -/
theorem params_quiet {v : Url.Bytes} (hv : ∀ b ∈ v, quiet b = true) :
    Url.params (uriKey ++ 61 :: v) = [(uriKey, Url.decode v)] := by
  have hplus : v.map Url.plus = v := by
    refine (List.map_congr_left fun b hb => ?_).trans (List.map_id v)
    exact if_neg (quiet_iff.mp (hv b hb)).2.2.1
  have hamp : ∀ b ∈ v, decide (b ≠ 38) = true := fun b hb =>
    decide_eq_true (quiet_iff.mp (hv b hb)).2.1
  rw [Url.params_key uriKey_key, List.takeWhile_eq_self_iff.mpr hamp,
    List.dropWhile_eq_nil_iff.mpr hamp, hplus]
  rfl

theorem strip_quiet {v : Url.Bytes} (hv : ∀ b ∈ v, quiet b = true) :
    Url.strip v = v :=
  Url.strip_eq_self.mpr fun b hb => (quiet_iff.mp (hv b hb)).2.2.2

/-- The path of `where_used`, and the URI in it. -/
def usagePath : List String :=
  ["sap", "bc", "adt", "repository", "informationsystem", "usageReferences"]

theorem usage_read (text : String) :
    ∃ q, Url.read (utf8
        ("/sap/bc/adt/repository/informationsystem/usageReferences?uri="
          ++ urlEncode text)) = some ⟨segs usagePath, some q⟩
      ∧ Url.params q = [(utf8 "uri", utf8 text)] := by
  have hlit : utf8
      "/sap/bc/adt/repository/informationsystem/usageReferences?uri="
        = Url.written (segs usagePath) ++ 63 :: (uriKey ++ [61]) := by
    decide
  have hplain : ∀ s ∈ segs usagePath, Url.Plain s := by decide
  have hquiet : ∀ b ∈ (utf8 text).flatMap encodedByte, quiet b = true :=
    quiet_encoded
  have hquery : uriKey ++ 61 :: (utf8 text).flatMap encodedByte
      = (uriKey ++ [61]) ++ (utf8 text).flatMap encodedByte := by
    rw [List.append_assoc]
    rfl
  refine ⟨uriKey ++ 61 :: (utf8 text).flatMap encodedByte, ?_, ?_⟩
  · rw [utf8_append, hlit, utf8_urlEncode, List.append_assoc,
      List.cons_append, ← hquery, Url.read_query hplain]
    have hhash : 35 ∉ uriKey ++ 61 :: (utf8 text).flatMap encodedByte := by
      rw [hquery, List.mem_append]
      rintro (hmem | hmem)
      · revert hmem
        decide
      · exact (quiet_iff.mp (hquiet 35 hmem)).1 rfl
    have hstrip : Url.strip (uriKey ++ 61 :: (utf8 text).flatMap encodedByte)
        = uriKey ++ 61 :: (utf8 text).flatMap encodedByte := by
      rw [hquery, Url.strip_append, strip_quiet hquiet]
      have hkey : Url.strip (uriKey ++ [61]) = uriKey ++ [61] := by
        decide
      rw [hkey]
    rw [if_neg hhash, hstrip]
  · have hdecode := decode_encoded (utf8 text) []
    rw [List.append_nil] at hdecode
    rw [params_quiet hquiet, hdecode]
    exact congrArg (fun v => [(uriKey, v)]) (List.append_nil _)

/-- A value that is read as what was written is plain, and is all of the
query. -/
theorem plain_of_value {n : Url.Bytes}
    (h : Url.Reads (Url.decode (((Url.strip n).takeWhile (· ≠ 38)).map
      Url.plus)) n) : Url.Plain n ∧ 38 ∉ n ∧ 43 ∉ n := by
  generalize hw : (Url.strip n).takeWhile (· ≠ 38) = w at h
  have hprefix : w <+: Url.strip n := hw ▸ List.takeWhile_prefix _
  have hwlen := hprefix.length_le
  have hnlen := Url.length_strip_le n
  have hxlen := Url.length_decode_le (w.map Url.plus)
  rw [List.length_map] at hxlen
  -- what is read is as long as what was written: nothing was lost
  obtain ⟨-, -, hn⟩ := Url.kept_of_length h.value (by omega)
  have hself := h
  rw [← hn] at hself
  have hlen : n.length ≤ (Url.decode (w.map Url.plus)).length := by
    rw [← hn]
  have hesc : Url.NoEscape (w.map Url.plus) :=
    Url.noEscape_of_length (by rw [List.length_map]; omega)
  rw [Url.decode_eq_self hesc] at hn
  have hstrip : w = Url.strip n := hprefix.eq_of_length (by
    rw [Url.decode_eq_self hesc, List.length_map] at hlen
    omega)
  have hplain := Url.reads_self.mp hself
  rw [Url.strip_eq_self.mpr hplain.kept] at hstrip
  rw [hstrip] at hw hn
  refine ⟨hplain, fun hmem => ?_, fun hmem => ?_⟩
  · rw [← hw] at hmem
    have hne := List.mem_takeWhile_imp hmem
    cases hne
  · rw [hn] at hmem
    obtain ⟨b, -, hb⟩ := List.mem_map.mp hmem
    unfold Url.plus at hb
    split at hb
    · cases hb
    · next hne => exact hne hb

/-- The path of the transactions, as it is written and encoded. -/
def transactionBase : Url.Bytes :=
  utf8 "/sap/bc/adt/vit/wb/object_type/trant/object_name/"

theorem params_transaction (s : Url.Bytes) :
    Url.params ((uriKey ++ 61 :: transactionBase.flatMap encodedByte) ++ s)
      = (uriKey, transactionBase
          ++ Url.decode ((s.takeWhile (· ≠ 38)).map Url.plus))
        :: Url.params ((s.dropWhile (· ≠ 38)).drop 1) := by
  have hquiet : ∀ b ∈ transactionBase.flatMap encodedByte, quiet b = true :=
    quiet_encoded
  have hamp : ∀ b ∈ transactionBase.flatMap encodedByte,
      decide (b ≠ 38) = true := fun b hb =>
    decide_eq_true (quiet_iff.mp (hquiet b hb)).2.1
  have hplus : (transactionBase.flatMap encodedByte).map Url.plus
      = transactionBase.flatMap encodedByte := by
    refine (List.map_congr_left fun b hb => ?_).trans (List.map_id _)
    exact if_neg (quiet_iff.mp (hquiet b hb)).2.2.1
  rw [List.append_assoc, List.cons_append, Url.params_key uriKey_key,
    List.takeWhile_append_of_pos hamp, List.dropWhile_append_of_pos hamp,
    List.map_append, hplus, decode_encoded]

/-- A URI that is a parameter of its own, for a transaction. -/
theorem locates_transaction (std : Std) (name : String) :
    Locates .transaction (utf8 (std.toLowercase name))
        (utf8 (AbapObjectKind.transaction.adtPath std name))
      ↔ Url.Plain (utf8 (std.toLowercase name))
        ∧ 38 ∉ utf8 (std.toLowercase name)
        ∧ 43 ∉ utf8 (std.toLowercase name) := by
  have hlit : utf8
      ("/sap/bc/adt/repository/informationsystem/objectproperties/values?uri="
        ++ "%2Fsap%2Fbc%2Fadt%2Fvit%2Fwb%2Fobject_type%2Ftrant%2F"
        ++ "object_name%2F")
        = Url.written (segs valuesPath) ++ 63 :: (uriKey ++ 61 ::
          transactionBase.flatMap encodedByte) := by
    decide +kernel
  have hpath : utf8 (AbapObjectKind.transaction.adtPath std name)
      = Url.written (segs valuesPath) ++ 63 :: ((uriKey ++ 61 ::
        transactionBase.flatMap encodedByte)
          ++ utf8 (std.toLowercase name)) := by
    have htext := utf8_append
      ("/sap/bc/adt/repository/informationsystem/objectproperties/values?uri="
        ++ "%2Fsap%2Fbc%2Fadt%2Fvit%2Fwb%2Fobject_type%2Ftrant%2F"
        ++ "object_name%2F") (std.toLowercase name)
    rw [hlit, List.append_assoc, List.cons_append] at htext
    exact htext
  have hvalues : ∀ s ∈ segs valuesPath, Url.Plain s := by decide
  have hfront : Url.strip (uriKey ++ 61 :: transactionBase.flatMap encodedByte)
      = uriKey ++ 61 :: transactionBase.flatMap encodedByte := by
    decide
  have hhash : 35 ∉ uriKey ++ 61 :: transactionBase.flatMap encodedByte := by
    decide
  have hcollection : ∀ x, transactionBase ++ x
      = Url.written (segs AbapObjectKind.transaction.collection ++ [x]) := by
    intro x
    have hbase : transactionBase
        = Url.written (segs AbapObjectKind.transaction.collection) ++ [47] := by
      decide
    rw [hbase, Url.written, Url.written, List.flatMap_append,
      List.append_assoc, List.flatMap_cons, List.flatMap_nil, List.append_nil]
    rfl
  unfold Locates
  dsimp only
  rw [hpath]
  generalize utf8 (std.toLowercase name) = n
  rw [Url.read_query hvalues, Url.strip_append, hfront]
  constructor
  · rintro ⟨q, object, hread, hparams, hobject⟩
    split at hread
    · cases hread
    · obtain rfl := Option.some.inj (Url.Ref.mk.inj (Option.some.inj hread)).2
      rw [params_transaction] at hparams
      obtain ⟨hhead, -⟩ := List.cons.inj hparams
      obtain rfl := (Prod.mk.inj hhead).2
      rw [hcollection, Url.read_around (m := [])
        (plain_collection .transaction) (List.forall_mem_nil _)] at hobject
      exact plain_of_value hobject
  · rintro ⟨hplain, hamp, hplus⟩
    have hno : 35 ∉ (uriKey ++ 61 :: transactionBase.flatMap encodedByte)
        ++ n := by
      rw [List.mem_append]
      rintro (hmem | hmem)
      · exact hhash hmem
      · exact (Url.ordinary_iff.mp (hplain.ordinary 35 hmem)).2.2 rfl
    have hall : ∀ b ∈ n, decide (b ≠ 38) = true := by
      intro b hb
      refine decide_eq_true ?_
      rintro rfl
      exact hamp hb
    have hmap : n.map Url.plus = n := by
      refine (List.map_congr_left fun b hb => ?_).trans (List.map_id n)
      refine if_neg ?_
      rintro rfl
      exact hplus hb
    refine ⟨_, transactionBase ++ n, if_neg hno, ?_, ?_⟩
    · rw [params_transaction, Url.strip_eq_self.mpr hplain.kept,
        List.takeWhile_eq_self_iff.mpr hall, List.dropWhile_eq_nil_iff.mpr hall,
        hmap, Url.decode_eq_self hplain.unescaped]
      rfl
    · rw [hcollection, Url.read_around (m := [])
        (plain_collection .transaction) (List.forall_mem_nil _)]
      exact Url.reads_self.mpr hplain

theorem locates_iff (std : Std) (kind : AbapObjectKind) (name : String) :
    Locates kind (utf8 (std.toLowercase name)) (utf8 (kind.adtPath std name))
      ↔ Traceable kind (utf8 (std.toLowercase name)) := by
  cases kind
  case functionModule =>
    exact iff_of_false (not_locates_module std name) id
  case package => exact iff_of_false (not_locates_package std name) id
  case transaction => exact locates_transaction std name
  all_goals exact locates_pathed std rfl name

-- ========================================================== replacements

theorem prefix_append_cons {pat l b : List Char} {x : Char} (hx : x ∉ pat) :
    pat <+: l ++ x :: b ↔ pat <+: l := by
  constructor
  · intro h
    have hcut : l ++ [x] <+: l ++ x :: b := ⟨b, by rw [List.append_assoc]; rfl⟩
    rcases List.prefix_or_prefix_of_prefix h hcut with hpre | hpre
    · rcases List.prefix_concat_iff.mp hpre with rfl | hpre
      · exact absurd (List.mem_append_right _ List.mem_cons_self) hx
      · exact hpre
    · exact absurd (hpre.subset (List.mem_append_right _ List.mem_cons_self)) hx
  · exact fun h => h.trans (List.prefix_append _ _)

/-- A character that is not in the pattern parts a text. -/
theorem replaceFrom_append {pat new : List Char} (hpat : pat ≠ []) {x : Char}
    (hx : x ∉ pat) (a b : List Char) {skip : Nat} (hskip : skip ≤ a.length) :
    replaceFrom pat new skip (a ++ x :: b)
      = replaceFrom pat new skip a ++ x :: replaceFrom pat new 0 b := by
  induction a generalizing skip with
  | nil =>
      obtain rfl : skip = 0 := Nat.le_zero.mp hskip
      have hno : ¬ pat.isPrefixOf (x :: b) = true := by
        rw [List.isPrefixOf_iff_prefix]
        intro h
        have hnil := (prefix_append_cons (l := []) hx).mp h
        exact hpat (List.prefix_nil.mp hnil)
      have hcons : replaceFrom pat new 0 (x :: b)
          = x :: replaceFrom pat new 0 b := by rw [replaceFrom, if_neg hno]
      exact hcons
  | cons c a ih =>
      cases skip with
      | succ skip =>
          rw [List.cons_append, replaceFrom, replaceFrom,
            ih (Nat.le_of_succ_le_succ hskip)]
      | zero =>
          rw [List.cons_append, replaceFrom, replaceFrom]
          have hiff : pat.isPrefixOf (c :: (a ++ x :: b)) = true
              ↔ pat.isPrefixOf (c :: a) = true := by
            rw [List.isPrefixOf_iff_prefix, List.isPrefixOf_iff_prefix]
            exact prefix_append_cons (l := c :: a) hx
          by_cases hmatch : pat.isPrefixOf (c :: a) = true
          · have hlen := (List.isPrefixOf_iff_prefix.mp hmatch).length_le
            rw [List.length_cons] at hlen
            rw [if_pos (hiff.mpr hmatch), if_pos hmatch, List.append_assoc,
              ih (by omega)]
          · rw [if_neg (fun h => hmatch (hiff.mp h)), if_neg hmatch,
              ih (Nat.zero_le _), List.cons_append]

/-- The path of `get_function_module`: the group is filled in, and also for
each hole in the name. -/
theorem modulePath_written (std : Std) (group name : String) :
    utf8 (replace (AbapObjectKind.functionModule.adtPath std name)
        "\x7bgroup\x7d" (std.toLowercase group))
      = Url.written (modulePath (utf8 (std.toLowercase group))
        (utf8 (replace (std.toLowercase name) groupHole
          (std.toLowercase group)))) := by
  have hpath : (AbapObjectKind.functionModule.adtPath std name).toList
      = "/sap/bc/adt/functions/groups/\x7bgroup\x7d/fmodules".toList
        ++ '/' :: ((std.toLowercase name).toList
          ++ '/' :: "source/main".toList) := by
    have htext : AbapObjectKind.functionModule.adtPath std name
        = "/sap/bc/adt/functions/groups/\x7bgroup\x7d/fmodules/"
          ++ std.toLowercase name ++ "/source/main" := rfl
    have hlit : "/sap/bc/adt/functions/groups/\x7bgroup\x7d/fmodules/".toList
        = "/sap/bc/adt/functions/groups/\x7bgroup\x7d/fmodules".toList
          ++ ['/'] := by decide
    rw [htext, String.toList_append, String.toList_append, hlit,
      List.append_assoc, List.append_assoc]
    rfl
  have hne : "\x7bgroup\x7d".toList ≠ [] := by decide
  have hslash : '/' ∉ "\x7bgroup\x7d".toList := by decide
  have hgroup : ∀ g, replaceFrom "\x7bgroup\x7d".toList g 0
      "/sap/bc/adt/functions/groups/\x7bgroup\x7d/fmodules".toList
        = "/sap/bc/adt/functions/groups/".toList
          ++ (g ++ "/fmodules".toList) := fun g => rfl
  have hsource : ∀ g, replaceFrom "\x7bgroup\x7d".toList g 0
      "source/main".toList = "source/main".toList := fun g => rfl
  have hall : replace (AbapObjectKind.functionModule.adtPath std name)
      "\x7bgroup\x7d" (std.toLowercase group)
        = "/sap/bc/adt/functions/groups/" ++ (std.toLowercase group
          ++ ("/fmodules/" ++ replace (std.toLowercase name) groupHole
            (std.toLowercase group) ++ "/source/main")) := by
    rw [← String.toList_inj]
    simp only [replace, hpath, String.toList_ofList, String.toList_append]
    rw [replaceFrom_append hne hslash _ _ (Nat.zero_le _),
      replaceFrom_append hne hslash _ _ (Nat.zero_le _), hgroup, hsource]
    simp only [List.append_assoc]
    rfl
  have hfront : utf8 "/sap/bc/adt/functions/groups/"
      = Url.written (segs ["sap", "bc", "adt", "functions", "groups"])
        ++ [47] := by decide
  have hfmodules : utf8 "/fmodules/" = 47 :: utf8 "fmodules" ++ [47] := by
    decide
  have hresource : utf8 "/source/main"
      = Url.written (segs ["source", "main"]) := by decide
  rw [hall, utf8_append, utf8_append, utf8_append, utf8_append, hfront,
    hfmodules, hresource, modulePath]
  simp only [Url.written, List.flatMap_append, List.flatMap_cons,
    List.append_assoc, List.cons_append, List.nil_append]

/-- The request of `get_function_module` is for that module exactly when the
group is plain, and what the name becomes is read as the name. -/
theorem module_iff (std : Std) (group name : String) :
    Url.read (utf8 (replace (AbapObjectKind.functionModule.adtPath std name)
        "\x7bgroup\x7d" (std.toLowercase group)))
      = some ⟨modulePath (utf8 (std.toLowercase group))
        (utf8 (std.toLowercase name)), none⟩
      ↔ Url.Plain (utf8 (std.toLowercase group))
        ∧ Url.Reads (utf8 (replace (std.toLowercase name) groupHole
          (std.toLowercase group))) (utf8 (std.toLowercase name)) := by
  have hfront : ∀ s ∈ segs ["sap", "bc", "adt", "functions", "groups"],
      Url.Plain s := by decide
  have hfmodules : Url.Plain (utf8 "fmodules") := by decide
  have hresource : ∀ s ∈ segs ["source", "main"], Url.Plain s := by
    decide
  have hlen : ∀ g x v : Url.Bytes,
      (modulePath g v).length = (modulePath g x).length := fun g x v => rfl
  rw [modulePath_written, Url.read_written (hlen _ _ _), modulePath, modulePath,
    Url.forall₂_front hfront, List.forall₂_cons, List.forall₂_cons,
    List.forall₂_cons, Url.reads_self,
    and_iff_right (Url.reads_self.mpr hfmodules),
    and_iff_left (Url.forall₂_self hresource)]

end SapAutomate.Adt
