/-
The keys of the metrics registry, written and read back. Two series never
share a key (`seriesKey_inj`): a value is escaped so that the quote which
ends it can be told from those inside (`escape_cancel`). The reader does
not undo that, and splits at every comma (`values_plain`).
-/
import SapAutomate.Observability.Metrics
import Mathlib.Data.List.Flatten

namespace SapAutomate.Observability

/-- The characters of a name. -/
def isNameChar (c : Char) : Bool :=
  c.isAlphanum || c == '_' || c == ':'

/-- A metric's name, `[a-zA-Z_:][a-zA-Z0-9_:]*`. -/
def ValidMetricName (name : List Char) : Prop :=
  name ≠ [] ∧ (∀ c ∈ name, isNameChar c = true)
    ∧ ∀ c, name.head? = some c → c.isDigit = false

/-- A label's name, `[a-zA-Z_][a-zA-Z0-9_]*`. -/
def ValidLabelName (name : List Char) : Prop :=
  ValidMetricName name ∧ ':' ∉ name

/-- A metric's name and a set of labels. -/
structure SeriesId where
  name : List Char
  labels : Labels
  name_valid : ValidMetricName name
  labels_valid : ∀ l ∈ labels, ValidLabelName l.1
  labels_nodup : (labels.map Prod.fst).Nodup

/-- The key of a series. -/
def SeriesId.key (id : SeriesId) : List Char := seriesKey id.name id.labels

/-- What a snapshot reads in the key of a series. -/
def SeriesId.Recovered (id : SeriesId) : Prop :=
  ∀ state, ∃ point, seriesPoint id.key state = some point
    ∧ point.name = id.name
    ∧ ∀ k v, point.labels k = some v ↔ (k, v) ∈ id.labels

/-- The key does not depend on the order of the labels, is that of no other
series, and is read back. -/
structure SeriesId.Faithful (id : SeriesId) : Prop where
  order : ∀ id' : SeriesId,
    id'.name = id.name → id'.labels.Perm id.labels → id'.key = id.key
  distinct : ∀ id' : SeriesId,
    id'.key = id.key → id'.name = id.name ∧ id'.labels.Perm id.labels
  recovered : id.Recovered

-- =========================================================== escaping

/-- One character, escaped. -/
def escapeChar (c : Char) : List Char :=
  if c = '\\' then ['\\', '\\']
  else if c = '"' then ['\\', '"']
  else if c = '\n' then ['\\', 'n']
  else [c]

theorem escape_eq_flatMap (s : List Char) : escape s = s.flatMap escapeChar := by
  unfold escape replaceChar
  rw [List.flatMap_assoc, List.flatMap_assoc]
  refine List.flatMap_congr fun c _ => ?_
  unfold escapeChar
  by_cases hb : c = '\\'
  · subst hb
    decide
  · by_cases hq : c = '"'
    · subst hq
      decide
    · by_cases hn : c = '\n'
      · subst hn
        decide
      · simp [hb, hq, hn]

@[simp] theorem escape_nil : escape [] = [] := rfl

theorem escape_cons (c : Char) (s : List Char) :
    escape (c :: s) = escapeChar c ++ escape s := by
  rw [escape_eq_flatMap, escape_eq_flatMap, List.flatMap_cons]

/-- The four ways a character is escaped. -/
theorem escapeChar_cases (c : Char) :
    (c = '\\' ∧ escapeChar c = ['\\', '\\'])
      ∨ (c = '"' ∧ escapeChar c = ['\\', '"'])
      ∨ (c = '\n' ∧ escapeChar c = ['\\', 'n'])
      ∨ ((c ≠ '\\' ∧ c ≠ '"' ∧ c ≠ '\n') ∧ escapeChar c = [c]) := by
  unfold escapeChar
  split
  · next h => exact .inl ⟨h, rfl⟩
  · split
    · next h => exact .inr (.inl ⟨h, rfl⟩)
    · split
      · next h => exact .inr (.inr (.inl ⟨h, rfl⟩))
      · next hb hq hn => exact .inr (.inr (.inr ⟨⟨hb, hq, hn⟩, rfl⟩))

/-- An escaped character begins with no quote. -/
theorem escapeChar_head (c : Char) :
    ∃ a t, escapeChar c = a :: t ∧ a ≠ '"' := by
  rcases escapeChar_cases c with ⟨-, h⟩ | ⟨-, h⟩ | ⟨-, h⟩ | ⟨hc, h⟩
  · exact ⟨_, _, h, by decide⟩
  · exact ⟨_, _, h, by decide⟩
  · exact ⟨_, _, h, by decide⟩
  · exact ⟨_, _, h, hc.2.1⟩

/-- Escaped characters that begin one text are the same. -/
theorem escapeChar_cancel {c d : Char} {s t : List Char}
    (h : escapeChar c ++ s = escapeChar d ++ t) : c = d ∧ s = t := by
  rcases escapeChar_cases c with ⟨rfl, hc⟩ | ⟨rfl, hc⟩ | ⟨rfl, hc⟩ | ⟨hc', hc⟩ <;>
    rcases escapeChar_cases d with ⟨rfl, hd⟩ | ⟨rfl, hd⟩ | ⟨rfl, hd⟩ | ⟨hd', hd⟩ <;>
    simp only [hc, hd, List.cons_append, List.nil_append,
      List.cons.injEq] at h <;> grind

/-- Where an escaped value ends, its closing quote tells. -/
theorem escape_cancel {v w s t : List Char}
    (h : escape v ++ '"' :: s = escape w ++ '"' :: t) : v = w ∧ s = t := by
  induction v generalizing w with
  | nil =>
      cases w with
      | nil => exact ⟨rfl, (List.cons.inj h).2⟩
      | cons d w =>
          obtain ⟨a, u, hd, ha⟩ := escapeChar_head d
          rw [escape_cons, hd] at h
          exact absurd (List.cons.inj h).1.symm ha
  | cons c v ih =>
      cases w with
      | nil =>
          obtain ⟨a, u, hc, ha⟩ := escapeChar_head c
          rw [escape_cons, hc] at h
          exact absurd (List.cons.inj h).1 ha
      | cons d w =>
          rw [escape_cons, escape_cons, List.append_assoc,
            List.append_assoc] at h
          obtain ⟨rfl, hrest⟩ := escapeChar_cancel h
          obtain ⟨rfl, hst⟩ := ih hrest
          exact ⟨rfl, hst⟩

/-- The characters that are not read back. -/
def isSpecial (c : Char) : Bool :=
  c == '\\' || c == '"' || c == '\n'

theorem escape_eq_self_iff (v : List Char) :
    escape v = v ↔ ∀ c ∈ v, isSpecial c = false := by
  have hlen : ∀ w, (escape w).length = w.length + w.countP isSpecial := by
    intro w
    induction w with
    | nil => rfl
    | cons c w ih =>
        rw [escape_cons, List.length_append, ih, List.countP_cons,
          List.length_cons]
        have hc : (escapeChar c).length = 1 + if isSpecial c then 1 else 0 := by
          rcases escapeChar_cases c with ⟨rfl, h⟩ | ⟨rfl, h⟩ | ⟨rfl, h⟩ | ⟨hc, h⟩
          · rw [h]
            rfl
          · rw [h]
            rfl
          · rw [h]
            rfl
          · simp [h, isSpecial, hc]
        rw [hc]
        omega
  constructor
  · intro h c hc
    have hcount := hlen v
    rw [h] at hcount
    have hzero : v.countP isSpecial = 0 := by omega
    simpa using List.countP_eq_zero.mp hzero c hc
  · intro h
    rw [escape_eq_flatMap]
    calc v.flatMap escapeChar = v.flatMap fun c => [c] := by
          refine List.flatMap_congr fun c hc => ?_
          have hspecial := h c hc
          rcases escapeChar_cases c with ⟨rfl, -⟩ | ⟨rfl, -⟩ | ⟨rfl, -⟩ | ⟨-, h⟩
          · cases hspecial
          · cases hspecial
          · cases hspecial
          · exact h
      _ = v := List.flatMap_singleton' v

/-- No quote is added and none is lost. -/
theorem count_quote_escape (v : List Char) :
    (escape v).count '"' = v.count '"' := by
  induction v with
  | nil => rfl
  | cons c v ih =>
      rw [escape_cons, List.count_append, ih, List.count_cons]
      rcases escapeChar_cases c with ⟨rfl, h⟩ | ⟨rfl, h⟩ | ⟨rfl, h⟩ | ⟨hc, h⟩
      · rw [h]
        simp
      · rw [h]
        simp [Nat.add_comm]
      · rw [h]
        simp
      · rw [h]
        simp [hc]

/-- Only a value without special characters is itself again when it is
escaped and the quotes around it are taken off. -/
theorem trim_escape_iff (v : List Char) :
    Text.trimBy (· == '"') (escape v) = v ↔ ∀ c ∈ v, isSpecial c = false := by
  constructor
  · intro h
    obtain ⟨l, r, hsplit, hl, hr⟩ :=
      Text.trimBy_split (· == '"') (escape v)
    rw [h] at hsplit
    have hlnil : l = [] := by
      cases l with
      | nil => rfl
      | cons a l =>
          have ha : a = '"' := by simpa using hl a (List.mem_cons_self ..)
          cases v with
          | nil => cases hsplit
          | cons c v =>
              obtain ⟨b, t, hc, hb⟩ := escapeChar_head c
              rw [escape_cons, hc] at hsplit
              exact absurd ((List.cons.inj hsplit).1.trans ha) hb
    have hrnil : r = [] := by
      have hcount := count_quote_escape v
      rw [hsplit, hlnil, List.nil_append, List.count_append] at hcount
      have hzero : r.count '"' = 0 := by omega
      rw [List.eq_nil_iff_forall_not_mem]
      intro a ha
      have hq : a = '"' := by simpa using hr a ha
      exact List.count_eq_zero.mp hzero (hq ▸ ha)
    rw [hlnil, hrnil, List.nil_append, List.append_nil] at hsplit
    exact (escape_eq_self_iff v).mp hsplit
  · intro h
    rw [(escape_eq_self_iff v).mpr h, Text.trimBy_eq_self_iff]
    constructor
    · intro a ha
      have := h a (List.mem_of_mem_head? ha)
      simp_all [isSpecial]
    · intro a ha
      have := h a (List.mem_of_mem_getLast? ha)
      simp_all [isSpecial]

-- ============================================================= writing

/-- No character of a name delimits anything in a key. -/
theorem nameChar_ne {c : Char} (h : isNameChar c = true) :
    c ≠ '{' ∧ c ≠ '=' ∧ c ≠ ',' := by
  refine ⟨?_, ?_, ?_⟩
  · rintro rfl
    exact absurd h (by decide)
  · rintro rfl
    exact absurd h (by decide)
  · rintro rfl
    exact absurd h (by decide)

namespace SeriesId

variable (id : SeriesId)

theorem brace_not_mem_name : '{' ∉ id.name :=
  fun h => (nameChar_ne (id.name_valid.2.1 _ h)).1 rfl

/-- The labels, as they stand in the key. -/
def sorted : Labels := Iteration.sortBy Prod.fst id.labels

theorem mem_sorted {l : List Char × List Char} : l ∈ id.sorted ↔ l ∈ id.labels :=
  Iteration.mem_sortBy

theorem eq_not_mem {l : List Char × List Char} (h : l ∈ id.sorted) :
    '=' ∉ l.1 :=
  fun hc => (nameChar_ne ((id.labels_valid l (id.mem_sorted.mp h)).1.2.1 _ hc)).2.1
    rfl

theorem comma_not_mem {l : List Char × List Char} (h : l ∈ id.sorted) :
    ',' ∉ l.1 :=
  fun hc => (nameChar_ne ((id.labels_valid l (id.mem_sorted.mp h)).1.2.1 _ hc)).2.2
    rfl

theorem sorted_nodup : (id.sorted.map Prod.fst).Nodup :=
  ((Iteration.sortBy_perm Prod.fst id.labels).map Prod.fst).nodup_iff.mpr
    id.labels_nodup

theorem sorted_eq_nil : id.sorted = [] ↔ id.labels = [] := by
  have hperm : id.sorted.Perm id.labels := Iteration.sortBy_perm ..
  constructor
  · intro h
    rw [h] at hperm
    exact hperm.nil_eq.symm
  · intro h
    rw [h] at hperm
    exact hperm.eq_nil

end SeriesId

/-- The labels between the braces. -/
def keyBody (labels : Labels) : List Char :=
  [','].intercalate (labels.map labelPair)

theorem keyBody_cons (l : List Char × List Char) {labels : Labels}
    (h : labels ≠ []) :
    keyBody (l :: labels) = labelPair l ++ ',' :: keyBody labels :=
  Text.intercalate_cons _ _ (by simpa using h)

theorem keyBody_singleton (l : List Char × List Char) :
    keyBody [l] = labelPair l := List.intercalate_singleton

theorem SeriesId.key_of_nil {id : SeriesId} (h : id.labels = []) :
    id.key = id.name := by
  unfold SeriesId.key seriesKey
  rw [h]
  rfl

theorem SeriesId.key_of_ne_nil {id : SeriesId} (h : id.labels ≠ []) :
    id.key = id.name ++ '{' :: (keyBody id.sorted ++ ['}']) := by
  unfold SeriesId.key seriesKey
  rw [if_neg (by simpa using h)]
  rfl

/-- The name is what stands before the brace. -/
theorem SeriesId.takeWhile_key (id : SeriesId) :
    id.key.takeWhile (· ≠ '{') = id.name := by
  have hname : ∀ c ∈ id.name, decide (c ≠ '{') = true := fun c hc =>
    decide_eq_true (ne_of_mem_of_not_mem hc id.brace_not_mem_name)
  by_cases h : id.labels = []
  · rw [key_of_nil h]
    exact List.takeWhile_eq_self_iff.mpr hname
  · rw [key_of_ne_nil h, List.takeWhile_append_of_pos hname,
      List.takeWhile_cons_of_neg (by simp), List.append_nil]

-- ================================================= one key, one series

/-- A label that begins a text is known by it. -/
theorem labelPair_cancel {l m : List Char × List Char} {s t : List Char}
    (hl : '=' ∉ l.1) (hm : '=' ∉ m.1)
    (h : labelPair l ++ s = labelPair m ++ t) : l = m ∧ s = t := by
  unfold labelPair at h
  simp only [List.append_assoc, List.cons_append, List.nil_append] at h
  obtain ⟨hname, hvalue⟩ := Text.append_cons_cancel hl hm h
  obtain ⟨hv, hst⟩ := escape_cancel (List.cons.inj hvalue).2
  exact ⟨Prod.ext hname hv, hst⟩

/-- Labels are known by what they are written as. -/
theorem keyBody_inj {ls ms : Labels} (hls : ls ≠ []) (hms : ms ≠ [])
    (hl : ∀ l ∈ ls, '=' ∉ l.1) (hm : ∀ m ∈ ms, '=' ∉ m.1)
    (h : keyBody ls ++ ['}'] = keyBody ms ++ ['}']) : ls = ms := by
  induction ls generalizing ms with
  | nil => exact absurd rfl hls
  | cons l ls ih =>
      cases ms with
      | nil => exact absurd rfl hms
      | cons m ms =>
          have hl' : '=' ∉ l.1 := hl l (List.mem_cons_self ..)
          have hm' : '=' ∉ m.1 := hm m (List.mem_cons_self ..)
          by_cases hlnil : ls = [] <;> by_cases hmnil : ms = []
          · rw [hlnil, hmnil, keyBody_singleton, keyBody_singleton] at h
            rw [hlnil, hmnil, (labelPair_cancel hl' hm' h).1]
          · -- one ends where the other goes on
            rw [hlnil, keyBody_singleton, keyBody_cons m hmnil,
              List.append_assoc] at h
            have hrest := (labelPair_cancel hl' hm' h).2
            exact absurd (List.cons.inj hrest).1 (by decide)
          · rw [hmnil, keyBody_singleton, keyBody_cons l hlnil,
              List.append_assoc] at h
            have hrest := (labelPair_cancel hl' hm' h).2
            exact absurd (List.cons.inj hrest).1 (by decide)
          · rw [keyBody_cons l hlnil, keyBody_cons m hmnil,
              List.append_assoc, List.append_assoc] at h
            obtain ⟨rfl, hrest⟩ := labelPair_cancel hl' hm' h
            rw [ih hlnil hmnil (fun l' h' => hl l' (List.mem_cons_of_mem _ h'))
              (fun m' h' => hm m' (List.mem_cons_of_mem _ h'))
              (List.cons.inj hrest).2]

/-- No two series share a key. -/
theorem key_inj {id id' : SeriesId} (h : id.key = id'.key) :
    id.name = id'.name ∧ id.labels.Perm id'.labels := by
  have hname : id.name = id'.name := by
    rw [← id.takeWhile_key, h, id'.takeWhile_key]
  refine ⟨hname, ?_⟩
  by_cases hl : id.labels = [] <;> by_cases hl' : id'.labels = []
  · rw [hl, hl']
  · rw [SeriesId.key_of_nil hl, SeriesId.key_of_ne_nil hl', hname] at h
    exact absurd h.symm (by simp)
  · rw [SeriesId.key_of_ne_nil hl, SeriesId.key_of_nil hl', hname] at h
    exact absurd h (by simp)
  · rw [SeriesId.key_of_ne_nil hl, SeriesId.key_of_ne_nil hl', hname] at h
    have hbody := (List.cons.inj (List.append_cancel_left h)).2
    have hsorted : id.sorted = id'.sorted :=
      keyBody_inj (mt id.sorted_eq_nil.mp hl) (mt id'.sorted_eq_nil.mp hl')
        (fun _ => id.eq_not_mem) (fun _ => id'.eq_not_mem) hbody
    calc id.labels.Perm id.sorted := (Iteration.sortBy_perm ..).symm
      _ = id'.sorted := hsorted
      _ |>.Perm id'.labels := Iteration.sortBy_perm ..

/-- The order in which labels are given does not matter. -/
theorem key_perm {id id' : SeriesId} (hname : id.name = id'.name)
    (hperm : id.labels.Perm id'.labels) : id.key = id'.key := by
  have hsorted : id.sorted = id'.sorted :=
    Iteration.sortBy_keys_eq hperm id.labels_nodup
  by_cases hl : id.labels = []
  · have hl' : id'.labels = [] := (hl ▸ hperm).nil_eq.symm
    rw [SeriesId.key_of_nil hl, SeriesId.key_of_nil hl', hname]
  · have hl' : id'.labels ≠ [] := fun h => hl (h ▸ hperm).eq_nil
    rw [SeriesId.key_of_ne_nil hl, SeriesId.key_of_ne_nil hl', hname, hsorted]

-- ============================================================= reading

/-- What is read between the braces. -/
theorem parseLabels_of_ne_nil {id : SeriesId} (h : id.labels ≠ []) :
    parseLabels id.key
      = some (((keyBody id.sorted).splitOn ',').foldl addPair Table.empty) := by
  have hname : ∀ c ∈ id.name, decide (c ≠ '{') = true := fun c hc =>
    decide_eq_true (ne_of_mem_of_not_mem hc id.brace_not_mem_name)
  have hdrop : id.key.dropWhile (· ≠ '{')
      = '{' :: (keyBody id.sorted ++ ['}']) := by
    rw [SeriesId.key_of_ne_nil h, List.dropWhile_append_of_pos hname,
      List.dropWhile_cons_of_neg (by simp)]
  have hlast : (keyBody id.sorted ++ ['}']).getLast? = some '}' :=
    List.getLast?_concat ..
  unfold parseLabels
  rw [hdrop]
  simp only [hlast, List.dropLast_concat]
  rw [if_pos (by decide)]

/-- A snapshot finds the name and the labels. -/
theorem seriesPoint_key {id : SeriesId} {out : Table (List Char) (List Char)}
    (h : parseLabels id.key = some out) (state : MetricState) :
    ∃ point, seriesPoint id.key state = some point ∧ point.name = id.name
      ∧ point.labels = out := by
  unfold seriesPoint
  rw [h]
  exact ⟨_, rfl, id.takeWhile_key, rfl⟩

/-- The series is read back when its labels are. -/
theorem recovered_iff {id : SeriesId} {out : Table (List Char) (List Char)}
    (h : parseLabels id.key = some out) :
    id.Recovered ↔ ∀ k v, out k = some v ↔ (k, v) ∈ id.labels := by
  constructor
  · intro hrec
    obtain ⟨point, hpoint, -, hlabels⟩ := hrec (.ofScalar .counter)
    obtain ⟨point', hpoint', -, rfl⟩ := seriesPoint_key h (.ofScalar .counter)
    rw [hpoint, Option.some.injEq] at hpoint'
    rw [← hpoint']
    exact hlabels
  · intro hout state
    obtain ⟨point, hpoint, hname, rfl⟩ := seriesPoint_key h state
    exact ⟨point, hpoint, hname, hout⟩

/-- What is read of a value contains no comma. -/
theorem addPair_no_comma {out : Table (List Char) (List Char)}
    {pair : List Char} (hpair : ',' ∉ pair)
    (hout : ∀ k v, out k = some v → ',' ∉ v) (k v : List Char)
    (h : addPair out pair k = some v) : ',' ∉ v := by
  unfold addPair at h
  cases hdrop : pair.dropWhile (· ≠ '=') with
  | nil =>
      simp only [hdrop] at h
      exact hout k v h
  | cons c w =>
      simp only [hdrop] at h
      by_cases hk : k = pair.takeWhile (· ≠ '=')
      · rw [hk, Table.insert_self, Option.some.injEq] at h
        obtain ⟨l, r, hsplit, -, -⟩ := Text.trimBy_split (· == '"') w
        intro hcomma
        have hw : ',' ∈ w := by
          rw [hsplit, h]
          simp [hcomma]
        have hmem : ',' ∈ pair.dropWhile (· ≠ '=') := by
          rw [hdrop]
          exact List.mem_cons_of_mem _ hw
        exact hpair ((List.dropWhile_sublist _).mem hmem)
      · rw [Table.insert_ne hk] at h
        exact hout k v h

theorem foldl_addPair_no_comma {pairs : List (List Char)}
    {out : Table (List Char) (List Char)} (hpairs : ∀ p ∈ pairs, ',' ∉ p)
    (hout : ∀ k v, out k = some v → ',' ∉ v) (k v : List Char)
    (h : pairs.foldl addPair out k = some v) : ',' ∉ v := by
  induction pairs generalizing out with
  | nil => exact hout k v h
  | cons p pairs ih =>
      exact ih (fun q hq => hpairs q (List.mem_cons_of_mem _ hq))
        (addPair_no_comma (hpairs p (List.mem_cons_self ..)) hout) h

/-- A series that is read back has no comma in a value. -/
theorem no_comma_of_recovered {id : SeriesId} (h : id.Recovered) :
    ∀ l ∈ id.labels, ',' ∉ l.2 := by
  intro l hl
  have hne : id.labels ≠ [] := List.ne_nil_of_mem hl
  have hout := (recovered_iff (parseLabels_of_ne_nil hne)).mp h l.1 l.2
  refine foldl_addPair_no_comma (fun p hp => Text.not_mem_of_mem_splitOn hp) ?_
    l.1 l.2 (hout.mpr hl)
  intro k v hv
  cases hv

/-- A written label, read. -/
theorem addPair_labelPair {l : List Char × List Char} (h : '=' ∉ l.1)
    (out : Table (List Char) (List Char)) :
    addPair out (labelPair l)
      = out.insert l.1 (Text.trimBy (· == '"') (escape l.2)) := by
  have hname : ∀ c ∈ l.1, decide (c ≠ '=') = true := fun c hc =>
    decide_eq_true (ne_of_mem_of_not_mem hc h)
  have hdrop : (labelPair l).dropWhile (· ≠ '=')
      = '=' :: '"' :: (escape l.2 ++ ['"']) := by
    unfold labelPair
    rw [List.dropWhile_append_of_pos hname, List.dropWhile_cons_of_neg (by simp)]
  have htake : (labelPair l).takeWhile (· ≠ '=') = l.1 := by
    unfold labelPair
    rw [List.takeWhile_append_of_pos hname,
      List.takeWhile_cons_of_neg (by simp), List.append_nil]
  have htrim : Text.trimBy (· == '"') ('"' :: (escape l.2 ++ ['"']))
      = Text.trimBy (· == '"') (escape l.2) :=
    Text.trimBy_pad (l := ['"']) (r := ['"']) (escape l.2) (by simp) (by simp)
  unfold addPair
  simp only [hdrop, htake, htrim]

/-- Written labels with names of their own, read one after the other. -/
theorem foldl_addPair_labels {ls : Labels} (heq : ∀ l ∈ ls, '=' ∉ l.1)
    (hnd : (ls.map Prod.fst).Nodup) (out : Table (List Char) (List Char))
    (k w : List Char) :
    (ls.map labelPair).foldl addPair out k = some w
      ↔ (∃ v, (k, v) ∈ ls ∧ Text.trimBy (· == '"') (escape v) = w)
          ∨ k ∉ ls.map Prod.fst ∧ out k = some w := by
  induction ls generalizing out with
  | nil => simp
  | cons l ls ih =>
      obtain ⟨hl, hnd⟩ := List.nodup_cons.mp hnd
      rw [List.map_cons, List.foldl_cons,
        addPair_labelPair (heq l (List.mem_cons_self ..)),
        ih (fun m hm => heq m (List.mem_cons_of_mem _ hm)) hnd]
      by_cases hk : k = l.1
      · subst hk
        have hrest : ∀ v, (l.1, v) ∉ ls := fun v hv =>
          hl (List.mem_map.mpr ⟨_, hv, rfl⟩)
        rw [Table.insert_self, Option.some.injEq]
        constructor
        · rintro (⟨v, hv, -⟩ | ⟨-, hw⟩)
          · exact absurd hv (hrest v)
          · exact .inl ⟨l.2, List.mem_cons_self .., hw⟩
        · rintro (⟨v, hv, hw⟩ | ⟨hnot, -⟩)
          · rcases List.mem_cons.mp hv with hv | hv
            · refine .inr ⟨hl, ?_⟩
              rw [← hw, ← hv]
            · exact absurd hv (hrest v)
          · exact absurd (List.mem_cons_self ..) hnot
      · rw [Table.insert_ne hk]
        have hne : ∀ v, (k, v) ≠ l := fun v hv => hk (congrArg Prod.fst hv)
        simp [hk, hne]

/-- Escaping makes no comma. -/
theorem comma_not_mem_escape {v : List Char} (hv : ',' ∉ v) :
    ',' ∉ escape v := by
  intro hmem
  rw [escape_eq_flatMap, List.mem_flatMap] at hmem
  obtain ⟨c, hc, hcomma⟩ := hmem
  rcases escapeChar_cases c with ⟨-, h⟩ | ⟨-, h⟩ | ⟨-, h⟩ | ⟨-, h⟩
  · exact absurd (h ▸ hcomma) (by decide)
  · exact absurd (h ▸ hcomma) (by decide)
  · exact absurd (h ▸ hcomma) (by decide)
  · rw [h, List.mem_singleton] at hcomma
    exact hv (hcomma ▸ hc)

theorem SeriesId.comma_not_mem_pair (id : SeriesId) {l : List Char × List Char}
    (hl : l ∈ id.sorted) (hv : ',' ∉ l.2) : ',' ∉ labelPair l := by
  intro hmem
  unfold labelPair at hmem
  have hname := id.comma_not_mem hl
  exact comma_not_mem_escape hv (by simpa [hname] using hmem)

/-- Where no value has a comma, each label is read from its own part, and
its value without the quotes. -/
theorem recovered_iff_trim {id : SeriesId}
    (hcomma : ∀ l ∈ id.labels, ',' ∉ l.2) :
    id.Recovered
      ↔ ∀ l ∈ id.labels, Text.trimBy (· == '"') (escape l.2) = l.2 := by
  by_cases hnil : id.labels = []
  · have hparse : parseLabels id.key = some Table.empty := by
      have hdrop : id.key.dropWhile (· ≠ '{') = [] := by
        rw [SeriesId.key_of_nil hnil, List.dropWhile_eq_nil_iff]
        exact fun c hc =>
          decide_eq_true (ne_of_mem_of_not_mem hc id.brace_not_mem_name)
      unfold parseLabels
      rw [hdrop]
    rw [recovered_iff hparse, hnil]
    simp [Table.empty]
  · have hparts : (keyBody id.sorted).splitOn ',' = id.sorted.map labelPair := by
      refine List.splitOn_intercalate ',' ?_ ?_
      · intro p hp
        obtain ⟨l, hl, rfl⟩ := List.mem_map.mp hp
        exact id.comma_not_mem_pair hl (hcomma l (id.mem_sorted.mp hl))
      · rw [ne_eq, List.map_eq_nil_iff, id.sorted_eq_nil]
        exact hnil
    have hread := foldl_addPair_labels (fun _ => id.eq_not_mem)
      id.sorted_nodup Table.empty
    rw [recovered_iff (parseLabels_of_ne_nil hnil), hparts]
    constructor
    · intro h l hl
      have hl' := (hread l.1 _).mpr (.inl ⟨l.2, id.mem_sorted.mpr hl, rfl⟩)
      have hmem := (h l.1 _).mp hl'
      have hinj := List.inj_on_of_nodup_map id.labels_nodup hmem hl rfl
      exact congrArg Prod.snd hinj
    · intro h k v
      rw [hread k v]
      constructor
      · rintro (⟨w, hw, rfl⟩ | ⟨-, hnone⟩)
        · have hmem := id.mem_sorted.mp hw
          rw [h _ hmem]
          exact hmem
        · cases hnone
      · intro hmem
        exact .inl ⟨v, id.mem_sorted.mpr hmem, h _ hmem⟩

/-- A snapshot recovers a series exactly when no value has a comma, a quote,
a backslash or a newline. -/
theorem recovered_iff_plain (id : SeriesId) :
    id.Recovered
      ↔ ∀ l ∈ id.labels, ∀ c ∈ l.2, c ≠ ',' ∧ isSpecial c = false := by
  constructor
  · intro h l hl c hc
    have hcomma := no_comma_of_recovered h
    have htrim := (recovered_iff_trim hcomma).mp h l hl
    exact ⟨fun heq => hcomma l hl (heq ▸ hc),
      (trim_escape_iff l.2).mp htrim c hc⟩
  · intro h
    refine (recovered_iff_trim fun l hl hc => (h l hl _ hc).1 rfl).mpr ?_
    exact fun l hl => (trim_escape_iff l.2).mpr fun c hc => (h l hl c hc).2

/-- The keys of the registry are faithful exactly where no label's value has
a comma, a quote, a backslash or a newline. -/
theorem faithful_iff (id : SeriesId) :
    id.Faithful
      ↔ ∀ l ∈ id.labels, ∀ c ∈ l.2,
          c ≠ ',' ∧ c ≠ '"' ∧ c ≠ '\\' ∧ c ≠ '\n' := by
  have hplain : id.Recovered
      ↔ ∀ l ∈ id.labels, ∀ c ∈ l.2,
          c ≠ ',' ∧ c ≠ '"' ∧ c ≠ '\\' ∧ c ≠ '\n' := by
    rw [recovered_iff_plain]
    refine forall₂_congr fun l _ => forall₂_congr fun c _ => ?_
    simp only [isSpecial, Bool.or_eq_false_iff, beq_eq_false_iff_ne]
    tauto
  constructor
  · exact fun h => hplain.mp h.recovered
  · intro h
    refine ⟨fun id' hname hperm => key_perm hname hperm,
      fun id' hkey => key_inj hkey, hplain.mpr h⟩

/-- The series `x` with `a="1,2"`. -/
def commaSeries : SeriesId where
  name := ['x']
  labels := [(['a'], ['1', ',', '2'])]
  name_valid := by
    refine ⟨by decide, List.forall_mem_singleton.mpr (by decide), ?_⟩
    rintro c ⟨⟩
    rfl
  labels_valid := by
    intro l hl
    rw [List.mem_singleton.mp hl]
    refine ⟨⟨by decide, List.forall_mem_singleton.mpr (by decide), ?_⟩,
      by decide⟩
    rintro c ⟨⟩
    rfl
  labels_nodup := List.nodup_singleton _

/-- A comma cuts a value off. -/
theorem comma_not_faithful : ¬ commaSeries.Faithful := fun h =>
  no_comma_of_recovered h.recovered _ (List.mem_singleton_self _) (by decide)

end SapAutomate.Observability
