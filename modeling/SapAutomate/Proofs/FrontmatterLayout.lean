/-
What is read of a skill's file that is laid out as documented
(`split_frontmatter`, `parse_frontmatter` of
`sap-automate-skills/src/lib.rs`), for every indentation of the arguments.

The closing fence is the first line that begins with it, since no line in
front does (`cutAt_front`), and a carriage return in front of a line end
changes no line's reading (`read_pad`). What is left is how the lines of an
argument are read, which the indentation alone settles: fields of three
blanks are no argument's, and an item of four is no item.
-/
import SapAutomate.Skills.Frontmatter
import SapAutomate.Lib.Text

namespace SapAutomate.Skills

open Ingest (lines)
open Text (trimBy isWhitespace Trimmed)

-- =================================================================== layout

/-- A text that a field may hold. -/
structure Plain (s : String) : Prop where
  ne : s ≠ ""
  trimmed : Trimmed isWhitespace s.toList
  chars : ∀ c ∈ s.toList, c ≠ '"' ∧ c ≠ ',' ∧ c ≠ '[' ∧ c ≠ ']' ∧ c ≠ '\n'

/-- A skill that a file may hold. -/
structure Skill.Plain (skill : Skill) : Prop where
  name : Skills.Plain skill.name
  description : Skills.Plain skill.description
  tags : ∀ t ∈ skill.tags, Skills.Plain t
  requiresTools : ∀ t ∈ skill.requiresTools, Skills.Plain t
  arguments : ∀ a ∈ skill.arguments, Skills.Plain a.name
    ∧ ∀ d, a.description = some d → Skills.Plain d
  body : Trimmed isWhitespace skill.body.toList

/-- A key and what stands behind it. -/
def keyLine (key value : List Char) : List Char := key ++ ' ' :: value

def spaces (n : Nat) : List Char := List.replicate n ' '

/-- The entries of a list, with a blank in front of all but the first. -/
def entries : List String → List (List Char)
  | [] => []
  | t :: ts => t.toList :: ts.map fun t => ' ' :: t.toList

def listText (ts : List String) : List Char :=
  '[' :: ([','].intercalate (entries ts) ++ [']'])

def boolText (b : Bool) : List Char :=
  if b then "true".toList else "false".toList

def itemLine (n : Nat) (a : SkillArgument) : List Char :=
  spaces n ++ keyLine itemKey a.name.toList

/-- The fields of an argument. -/
def fieldLines (n : Nat) (a : SkillArgument) : List (List Char) :=
  (a.description.toList.map fun d =>
      spaces (n + 2) ++ keyLine descriptionKey d.toList)
    ++ [spaces (n + 2) ++ keyLine requiredKey (boolText a.required)]

/-- The lines of the arguments. -/
def itemLines (n : Nat) (as : List SkillArgument) : List (List Char) :=
  as.flatMap fun a => itemLine n a :: fieldLines n a

/-- The fields in front of the arguments. -/
def scalarLines (skill : Skill) : List (List Char) :=
  [keyLine nameKey skill.name.toList,
    keyLine descriptionKey skill.description.toList,
    keyLine tagsKey (listText skill.tags),
    keyLine requiresToolsKey (listText skill.requiresTools)]

/-- The lines between the fences. -/
def frontLines (n : Nat) (skill : Skill) : List (List Char) :=
  scalarLines skill
    ++ if skill.arguments = [] then []
      else argumentsKey :: itemLines n skill.arguments

/-- How a file is laid out. -/
structure Layout where
  indent : Nat
  crlf : Bool

/-- What stands in front of the newline of a line. -/
def Layout.cr (l : Layout) : List Char := if l.crlf then ['\r'] else []

/-- The file of a skill. -/
def Layout.text (l : Layout) (skill : Skill) : List Char :=
  (fence :: frontLines l.indent skill ++ [fence, []]).flatMap
      (fun line => line ++ l.cr ++ ['\n'])
    ++ (skill.body.toList ++ l.cr ++ ['\n'])

-- ==================================================================== texts

theorem stripPrefix_append (pat s : List Char) :
    stripPrefix pat (pat ++ s) = some s := by
  unfold stripPrefix
  rw [if_pos (List.isPrefixOf_iff_prefix.mpr (List.prefix_append _ _)),
    List.drop_left]

/-- Up to a newline nothing is found. -/
theorem cutAt_append {pat s : List Char} (hs : '\n' ∉ s) (t : List Char) :
    cutAt ('\n' :: pat) (s ++ t)
      = (cutAt ('\n' :: pat) t).map fun x => (s ++ x.1, x.2) := by
  induction s with
  | nil => simp
  | cons c s ih =>
      have hc : c ≠ '\n' := fun h => hs (h ▸ List.mem_cons_self)
      have hno : ¬ ('\n' :: pat).isPrefixOf (c :: (s ++ t)) = true := by
        rw [List.isPrefixOf_iff_prefix, List.cons_prefix_cons]
        exact fun h => hc h.1.symm
      rw [List.cons_append, cutAt, if_neg hno,
        ih fun h => hs (List.mem_cons_of_mem _ h), Option.map_map]
      rfl

/-- A line that may stand in front of the closing fence. -/
def Inside (line : List Char) : Prop := '\n' ∉ line ∧ line.head? ≠ some '-'

theorem not_fence {line : List Char} (h : Inside line) (t : List Char) :
    ¬ ('\n' :: fence).isPrefixOf ('\n' :: (line ++ '\n' :: t)) = true := by
  rw [List.isPrefixOf_iff_prefix, List.cons_prefix_cons]
  rintro ⟨-, hpre⟩
  cases line with
  | nil =>
      have hchar := (List.cons_prefix_cons.mp hpre).1
      revert hchar
      decide
  | cons c line =>
      have hchar : '-' = c := (List.cons_prefix_cons.mp hpre).1
      exact h.2 (congrArg some hchar.symm)

/-- The lines up to the closing fence. -/
theorem cutAt_front {rows : List (List Char)} (hne : rows ≠ [])
    (h : ∀ line ∈ rows, Inside line) (t : List Char) :
    cutAt ('\n' :: fence) (rows.flatMap (· ++ ['\n']) ++ (fence ++ t))
      = some (['\n'].intercalate rows, t) := by
  induction rows with
  | nil => exact absurd rfl hne
  | cons line rows ih =>
      obtain ⟨hline, hrows⟩ := List.forall_mem_cons.mp h
      rw [List.flatMap_cons, List.append_assoc, List.append_assoc,
        cutAt_append hline.1]
      by_cases hnil : rows = []
      · subst hnil
        have hend : cutAt ('\n' :: fence) ('\n' :: (fence ++ t))
            = some ([], t) := by
          have hpre : ('\n' :: fence).isPrefixOf ('\n' :: (fence ++ t)) = true :=
            List.isPrefixOf_iff_prefix.mpr
              (List.cons_prefix_cons.mpr ⟨rfl, List.prefix_append _ _⟩)
          rw [cutAt, if_pos hpre]
          rfl
        rw [List.intercalate_singleton]
        show (cutAt ('\n' :: fence) ('\n' :: (fence ++ t))).map _ = _
        rw [hend, Option.map_some, List.append_nil]
      · obtain ⟨next, rest, rfl⟩ := List.exists_cons_of_ne_nil hnil
        have hstep : cutAt ('\n' :: fence)
            (['\n'] ++ ((next :: rest).flatMap (· ++ ['\n']) ++ (fence ++ t)))
            = some ('\n' :: ['\n'].intercalate (next :: rest), t) := by
          have hno := not_fence (hrows next List.mem_cons_self)
            (rest.flatMap (· ++ ['\n']) ++ (fence ++ t))
          have hcons : (next :: rest).flatMap (· ++ ['\n']) ++ (fence ++ t)
              = next ++ '\n' :: (rest.flatMap (· ++ ['\n']) ++ (fence ++ t)) := by
            simp
          rw [← hcons] at hno
          rw [List.singleton_append, cutAt, if_neg hno, ih hnil hrows,
            Option.map_some]
        rw [hstep, Option.map_some, Text.intercalate_cons _ _ hnil]

/-- A line without the carriage return of its end. -/
def chomp (line : List Char) : List Char :=
  if line.getLast? = some '\r' then line.dropLast else line

theorem lines_append {s : List Char} (hs : '\n' ∉ s) (line t : List Char) :
    lines line (s ++ t) = lines (line ++ s) t := by
  induction s generalizing line with
  | nil => rw [List.nil_append, List.append_nil]
  | cons c s ih =>
      have hc : c ≠ '\n' := fun h => hs (h ▸ List.mem_cons_self)
      rw [List.cons_append, lines, ih fun h => hs (List.mem_cons_of_mem _ h),
        List.append_assoc]
      · rfl
      · exact hc

theorem lines_cons {s : List Char} (hs : '\n' ∉ s) (t : List Char) :
    lines [] (s ++ '\n' :: t) = chomp s :: lines [] t := by
  rw [lines_append hs, List.nil_append, lines]
  rfl

theorem lines_last {s : List Char} (hs : '\n' ∉ s) (hne : s ≠ []) :
    lines [] s = [s] := by
  have h := lines_append hs [] []
  rw [List.append_nil, List.nil_append] at h
  rw [h, lines, if_neg hne]

/-- A text that does not end in a blank. -/
def Closed (s : List Char) : Prop :=
  ∃ x c, s = x ++ [c] ∧ isWhitespace c = false

theorem Closed.append {s : List Char} (h : Closed s) (t : List Char) :
    Closed (t ++ s) := by
  obtain ⟨x, c, rfl, hc⟩ := h
  exact ⟨t ++ x, c, (List.append_assoc _ _ _).symm, hc⟩

theorem Closed.ne_nil {s : List Char} (h : Closed s) : s ≠ [] := by
  obtain ⟨x, c, rfl, -⟩ := h
  exact List.append_ne_nil_of_right_ne_nil x (List.cons_ne_nil c [])

theorem Closed.rdropWhile {s : List Char} (h : Closed s) :
    s.rdropWhile isWhitespace = s := by
  obtain ⟨x, c, rfl, hc⟩ := h
  exact List.rdropWhile_concat_neg _ _ _ (by simp [hc])

theorem Plain.closed {s : String} (h : Plain s) : Closed s.toList := by
  have hne : s.toList ≠ [] := fun hnil => h.ne (String.toList_eq_nil_iff.mp hnil)
  exact ⟨s.toList.dropLast, s.toList.getLast hne,
    (List.dropLast_append_getLast hne).symm,
    h.trimmed.2 _ (List.getLast?_eq_some_getLast hne)⟩

-- ================================================================== reading

/-- White space behind a line changes nothing. -/
theorem read_pad (p : Parser) {line w : List Char} (hline : Closed line)
    (hw : ∀ c ∈ w, isWhitespace c = true) : p.read (line ++ w) = p.read line := by
  have hr : (line ++ w).rdropWhile isWhitespace = line.rdropWhile isWhitespace :=
    Text.rdropWhile_append_of_all line hw
  have ht : trim (line ++ w) = trim line := by
    have hpad := Text.trimBy_pad (l := []) line (List.forall_mem_nil _) hw
    exact hpad
  have hhead : (line ++ w).head? = line.head? :=
    List.head?_append_of_ne_nil _ hline.ne_nil
  have hnil : line ++ w = [] ↔ line = [] :=
    iff_of_false (fun h => hline.ne_nil (List.append_eq_nil_iff.mp h).1)
      hline.ne_nil
  have hblanks : ∀ pat : List Char, (∀ c ∈ pat, isWhitespace c = true) →
      pat.isPrefixOf (line ++ w) = pat.isPrefixOf line := by
    intro pat hpat
    rw [Bool.eq_iff_iff, List.isPrefixOf_iff_prefix, List.isPrefixOf_iff_prefix]
    refine ⟨fun h => ?_, fun h => h.trans (List.prefix_append _ _)⟩
    rcases List.prefix_or_prefix_of_prefix h (List.prefix_append line w)
      with hle | hle
    · exact hle
    · obtain ⟨x, c, rfl, hc⟩ := hline
      have hmem := hle.subset (List.mem_append_right x (List.mem_singleton_self c))
      rw [hpat c hmem] at hc
      cases hc
  have hinner : inner (line ++ w) = inner line := by
    unfold inner
    rw [hblanks _ (List.all_eq_true.mp (by decide)),
      hblanks _ (List.all_eq_true.mp (by decide))]
  have hfield : ∀ q : Parser, q.readField (line ++ w) = q.readField line := by
    intro q
    unfold Parser.readField
    rw [hr]
  have hitem : ∀ q : Parser, q.readItem (line ++ w) = q.readItem line := by
    intro q
    unfold Parser.readItem
    simp only [hhead, hnil, ht, hfield, ne_eq]
  have harg : ∀ a : SkillArgument, a.readField (line ++ w) = a.readField line := by
    intro a
    unfold SkillArgument.readField
    rw [ht]
  unfold Parser.read
  simp only [hfield, hitem, harg, hinner]

/-- The lines of a text whose lines all end alike. -/
theorem foldl_lines {cr : List Char} (hcr : cr = [] ∨ cr = ['\r'])
    {rows : List (List Char)} (hne : rows ≠ [])
    (h : ∀ line ∈ rows, '\n' ∉ line ∧ Closed line) (p : Parser) :
    (lines [] (['\n'].intercalate (rows.map (· ++ cr)))).foldl Parser.read p
      = rows.foldl Parser.read p := by
  have hblank : ∀ c ∈ cr, isWhitespace c = true := by
    rcases hcr with rfl | rfl
    · exact List.forall_mem_nil _
    · exact List.forall_mem_singleton.mpr (by decide)
  have hnl : ∀ line ∈ rows, '\n' ∉ line ++ cr := by
    intro line hline hmem
    rcases List.mem_append.mp hmem with hmem | hmem
    · exact (h line hline).1 hmem
    · rcases hcr with rfl | rfl
      · cases hmem
      · exact absurd (List.mem_singleton.mp hmem) (by decide)
  induction rows generalizing p with
  | nil => exact absurd rfl hne
  | cons line rows ih =>
      obtain ⟨⟨hline, hclosed⟩, hrows⟩ := List.forall_mem_cons.mp h
      obtain ⟨hnline, hnrows⟩ := List.forall_mem_cons.mp hnl
      by_cases hnil : rows = []
      · subst hnil
        rw [List.map_singleton, List.intercalate_singleton, lines_last hnline
          (List.append_ne_nil_of_left_ne_nil hclosed.ne_nil cr)]
        exact read_pad p hclosed hblank
      · have hchomp : chomp (line ++ cr) = line := by
          unfold chomp
          rcases hcr with rfl | rfl
          · obtain ⟨x, c, rfl, hc⟩ := hclosed
            have hlast : ¬ (x ++ [c] ++ []).getLast? = some '\r' := by
              rw [List.append_nil, List.getLast?_concat]
              rintro ⟨⟩
              exact absurd hc (by decide)
            rw [if_neg hlast, List.append_nil]
          · rw [if_pos List.getLast?_concat, List.dropLast_concat]
        rw [List.map_cons, Text.intercalate_cons _ _
          (fun hmap => hnil (List.map_eq_nil_iff.mp hmap)), lines_cons hnline,
          hchomp, List.foldl_cons, List.foldl_cons]
        exact ih hnil hrows (p.read line) hnrows

theorem trimmed_keyLine {key v : List Char} {c : Char}
    (hkey : key.head? = some c) (hc : isWhitespace c = false) (hv : Closed v) :
    Trimmed isWhitespace (keyLine key v) := by
  obtain ⟨x, d, rfl, hd⟩ := hv
  obtain ⟨k, key, rfl⟩ : ∃ k ks, key = k :: ks := by
    cases key with
    | nil => cases hkey
    | cons k ks => exact ⟨k, ks, rfl⟩
  cases hkey
  refine ⟨?_, ?_⟩
  · rintro a ⟨⟩
    exact hc
  · intro a ha
    have hcat : keyLine (c :: key) (x ++ [d]) = (c :: key ++ ' ' :: x) ++ [d] := by
      simp [keyLine]
    rw [hcat, List.getLast?_concat] at ha
    cases ha
    exact hd

theorem trimmed_item {v : List Char} (hv : Closed v) :
    Trimmed isWhitespace (keyLine itemKey v) :=
  trimmed_keyLine (c := '-') (by decide) (by decide) hv

theorem trimmed_description {v : List Char} (hv : Closed v) :
    Trimmed isWhitespace (keyLine descriptionKey v) :=
  trimmed_keyLine (c := 'd') (by decide) (by decide) hv

theorem closed_boolText (b : Bool) : Closed (boolText b) := by
  cases b with
  | true => exact ⟨"tru".toList, 'e', by decide, by decide⟩
  | false => exact ⟨"fals".toList, 'e', by decide, by decide⟩

theorem trimmed_required (b : Bool) :
    Trimmed isWhitespace (keyLine requiredKey (boolText b)) :=
  trimmed_keyLine (c := 'r') (by decide) (by decide) (closed_boolText b)

theorem closed_keyLine (key : List Char) {v : List Char} (hv : Closed v) :
    Closed (keyLine key v) :=
  (hv.append [' ']).append key

/-- Blanks in front of a line are trimmed. -/
theorem trim_spaces (n : Nat) {s : List Char} (hs : Trimmed isWhitespace s) :
    trim (spaces n ++ s) = s := by
  have hpad := Text.trimBy_pad (r := []) s
    (fun c hc => by rw [List.eq_of_mem_replicate hc]; decide : ∀ c ∈ spaces n,
      isWhitespace c = true) (List.forall_mem_nil _)
  rw [List.append_nil] at hpad
  exact hpad.trans (Text.trimBy_eq_self_iff.mpr hs)

theorem trim_blank {s : List Char} (hs : Trimmed isWhitespace s) :
    trim (' ' :: s) = s := trim_spaces 1 hs

theorem unquote_plain {s : String} (h : Plain s) : unquote s.toList = s.toList := by
  refine Text.trimBy_eq_self_iff.mpr ⟨fun c hc => ?_, fun c hc => ?_⟩
  · exact beq_eq_false_iff_ne.mpr (h.chars c (List.mem_of_mem_head? hc)).1
  · exact beq_eq_false_iff_ne.mpr (h.chars c (List.mem_of_mem_getLast? hc)).1

theorem scalar_plain {s : String} (h : Plain s) : scalar (' ' :: s.toList) = s := by
  unfold scalar
  rw [trim_blank h.trimmed, unquote_plain h, String.ofList_toList]

-- ==================================================================== lists

theorem mem_entries {ts : List String} {e : List Char} (h : e ∈ entries ts) :
    ∃ t ∈ ts, e = t.toList ∨ e = ' ' :: t.toList := by
  cases ts with
  | nil => cases h
  | cons t ts =>
      rcases List.mem_cons.mp h with rfl | h
      · exact ⟨t, List.mem_cons_self, .inl rfl⟩
      · obtain ⟨u, hu, rfl⟩ := List.mem_map.mp h
        exact ⟨u, List.mem_cons_of_mem _ hu, .inr rfl⟩

theorem entries_char {ts : List String} (h : ∀ t ∈ ts, Plain t)
    {e : List Char} (he : e ∈ entries ts) {c : Char} (hc : c ∈ e) :
    c ≠ ',' ∧ c ≠ '[' ∧ c ≠ ']' ∧ c ≠ '\n' := by
  obtain ⟨t, ht, heq⟩ := mem_entries he
  have hplain : ∀ c ∈ t.toList, c ≠ ',' ∧ c ≠ '[' ∧ c ≠ ']' ∧ c ≠ '\n' :=
    fun c hc => ((h t ht).chars c hc).2
  rcases heq with rfl | rfl
  · exact hplain c hc
  · rcases List.mem_cons.mp hc with rfl | hc
    · decide
    · exact hplain c hc

/-- No bracket and no newline is in a list. -/
theorem joined_char {ts : List String} (h : ∀ t ∈ ts, Plain t) {c : Char}
    (hc : c ∈ [','].intercalate (entries ts)) : c ≠ '[' ∧ c ≠ ']' ∧ c ≠ '\n' := by
  rcases Text.mem_intercalate hc with rfl | ⟨e, he, hc⟩
  · decide
  · exact (entries_char h he hc).2

theorem closed_listText (ts : List String) : Closed (listText ts) :=
  ⟨'[' :: [','].intercalate (entries ts), ']', rfl, by decide⟩

theorem trimmed_listText (ts : List String) :
    Trimmed isWhitespace (listText ts) := by
  refine ⟨?_, ?_⟩
  · rintro a ⟨⟩
    decide
  · intro a ha
    have hcat : listText ts = ('[' :: [','].intercalate (entries ts)) ++ [']'] :=
      rfl
    rw [hcat, List.getLast?_concat] at ha
    cases ha
    decide

/-- A list is read back. -/
theorem parseInlineList_listText {ts : List String} (h : ∀ t ∈ ts, Plain t) :
    parseInlineList (listText ts) = ts := by
  have hopen : (listText ts).dropWhile (· == '[')
      = [','].intercalate (entries ts) ++ [']'] := by
    unfold listText
    rw [List.dropWhile_cons_of_pos (by decide)]
    refine Text.dropWhile_eq_self fun a ha => beq_eq_false_iff_ne.mpr ?_
    rcases List.mem_append.mp (List.mem_of_mem_head? ha) with hmem | hmem
    · exact (joined_char h hmem).1
    · rw [List.mem_singleton.mp hmem]
      decide
  have hclose : ([','].intercalate (entries ts) ++ [']']).rdropWhile (· == ']')
      = [','].intercalate (entries ts) := by
    rw [List.rdropWhile_concat_pos _ _ _ (by decide)]
    exact Text.rdropWhile_eq_self fun a ha => beq_eq_false_iff_ne.mpr
      (joined_char h (List.mem_of_mem_getLast? ha)).2.1
  have hentry : ∀ t ∈ ts, String.ofList (unquote (trim t.toList)) = t
      ∧ String.ofList (unquote (trim (' ' :: t.toList))) = t := by
    intro t ht
    have htrim : trim t.toList = t.toList :=
      Text.trimBy_eq_self_iff.mpr (h t ht).trimmed
    rw [trim_blank (h t ht).trimmed, htrim, unquote_plain (h t ht),
      String.ofList_toList]
    exact ⟨rfl, rfl⟩
  unfold parseInlineList
  rw [show trim (listText ts) = _ from
    Text.trimBy_eq_self_iff.mpr (trimmed_listText ts), hopen, hclose]
  cases ts with
  | nil => rfl
  | cons t ts =>
      rw [List.splitOn_intercalate ','
        (fun e he hmem => (entries_char h he hmem).1 rfl) (List.cons_ne_nil _ _)]
      have hmap : (entries (t :: ts)).map
          (fun e => String.ofList (unquote (trim e))) = t :: ts := by
        unfold entries
        rw [List.map_cons, (hentry t List.mem_cons_self).1, List.map_map]
        refine congrArg _ ((List.map_congr_left fun u hu => ?_).trans
          (List.map_id ts))
        exact (hentry u (List.mem_cons_of_mem t hu)).2
      rw [hmap, List.filter_eq_self]
      exact fun u hu => decide_eq_true (h u hu).ne

/-- A key is taken off once. -/
theorem trimStartMatches_keyLine {c : Char} (hc : c ≠ ' ') (key v : List Char) :
    trimStartMatches (c :: key) (keyLine (c :: key) v).length
        (keyLine (c :: key) v) = ' ' :: v := by
  have hlen : (keyLine (c :: key) v).length
      = (key.length + v.length) + 1 + 1 := by
    simp [keyLine]
    omega
  have hpre : (c :: key).isPrefixOf (keyLine (c :: key) v) = true :=
    List.isPrefixOf_iff_prefix.mpr (List.prefix_append _ _)
  have hno : ¬ (c :: key).isPrefixOf (' ' :: v) = true := by
    rw [List.isPrefixOf_iff_prefix, List.cons_prefix_cons]
    exact fun h => hc h.1
  rw [hlen, trimStartMatches, if_pos hpre]
  unfold keyLine
  rw [List.drop_left, trimStartMatches, if_neg hno]

theorem inlineList_listText {c : Char} (hc : c ≠ ' ') (key : List Char)
    {ts : List String} (h : ∀ t ∈ ts, Plain t) :
    inlineList (c :: key) (keyLine (c :: key) (listText ts)) = ts := by
  unfold inlineList
  rw [trimStartMatches_keyLine hc, trim_blank (trimmed_listText ts),
    parseInlineList_listText h]

-- =================================================================== fields

/-- A line that begins with a key is neither empty nor a comment. -/
theorem keyLine_opens {key : List Char} {c : Char} (v : List Char)
    (hkey : key.head? = some c) (hc : c ≠ '#') :
    ¬ (keyLine key v = [] ∨ (keyLine key v).head? = some '#') := by
  obtain ⟨ks, rfl⟩ := List.head?_eq_some_iff.mp hkey
  rintro (h | h)
  · cases h
  · exact hc (Option.some.inj h)

section Fields

variable (p : Parser)

theorem readField_name {v : String} (h : Plain v) :
    p.readField (keyLine nameKey v.toList)
      = { p with skill := { p.skill with name := v } } := by
  have hstart := keyLine_opens v.toList (rfl : nameKey.head? = some 'n')
    (by decide)
  have hkey : stripPrefix nameKey (keyLine nameKey v.toList)
      = some (' ' :: v.toList) := stripPrefix_append _ _
  unfold Parser.readField
  simp only [(closed_keyLine nameKey h.closed).rdropWhile, if_neg hstart, hkey,
    scalar_plain h]

theorem readField_description {v : String} (h : Plain v) :
    p.readField (keyLine descriptionKey v.toList)
      = { p with skill := { p.skill with description := v } } := by
  have hstart := keyLine_opens v.toList (rfl : descriptionKey.head? = some 'd')
    (by decide)
  have hname : stripPrefix nameKey (keyLine descriptionKey v.toList) = none :=
    rfl
  have hkey : stripPrefix descriptionKey (keyLine descriptionKey v.toList)
      = some (' ' :: v.toList) := stripPrefix_append _ _
  unfold Parser.readField
  simp only [(closed_keyLine descriptionKey h.closed).rdropWhile,
    if_neg hstart, hname, hkey, scalar_plain h]

theorem readField_tags {ts : List String} (h : ∀ t ∈ ts, Plain t) :
    p.readField (keyLine tagsKey (listText ts))
      = { p with skill := { p.skill with tags := ts } } := by
  have hstart := keyLine_opens (listText ts) (rfl : tagsKey.head? = some 't')
    (by decide)
  have hname : stripPrefix nameKey (keyLine tagsKey (listText ts)) = none := rfl
  have hdesc : stripPrefix descriptionKey (keyLine tagsKey (listText ts))
      = none := rfl
  have hkey : tagsKey.isPrefixOf (keyLine tagsKey (listText ts)) = true :=
    List.isPrefixOf_iff_prefix.mpr (List.prefix_append _ _)
  have hlist : inlineList tagsKey (keyLine tagsKey (listText ts)) = ts :=
    inlineList_listText (by decide) "ags:".toList h
  unfold Parser.readField
  simp only [(closed_keyLine tagsKey (closed_listText ts)).rdropWhile,
    if_neg hstart, hname, hdesc, hkey, hlist, if_true]

theorem readField_requiresTools {ts : List String} (h : ∀ t ∈ ts, Plain t) :
    p.readField (keyLine requiresToolsKey (listText ts))
      = { p with skill := { p.skill with requiresTools := ts } } := by
  have hstart := keyLine_opens (listText ts)
    (rfl : requiresToolsKey.head? = some 'r') (by decide)
  have hname : stripPrefix nameKey (keyLine requiresToolsKey (listText ts))
      = none := rfl
  have hdesc : stripPrefix descriptionKey
      (keyLine requiresToolsKey (listText ts)) = none := rfl
  have htags : tagsKey.isPrefixOf (keyLine requiresToolsKey (listText ts))
      = false := rfl
  have hkey : requiresToolsKey.isPrefixOf
      (keyLine requiresToolsKey (listText ts)) = true :=
    List.isPrefixOf_iff_prefix.mpr (List.prefix_append _ _)
  have hlist : inlineList requiresToolsKey
      (keyLine requiresToolsKey (listText ts)) = ts :=
    inlineList_listText (by decide) "equires_tools:".toList h
  unfold Parser.readField
  simp only [(closed_keyLine requiresToolsKey (closed_listText ts)).rdropWhile,
    if_neg hstart, hname, hdesc, htags, hkey, hlist, if_true,
    Bool.false_eq_true, if_false]

theorem readField_arguments :
    p.readField argumentsKey = { p with place := .arguments } := rfl

variable {p}

theorem read_fields (h : p.place = .fields) (line : List Char) :
    p.read line = p.readField line := by
  unfold Parser.read
  rw [h]

theorem read_inner {arg : SkillArgument} (h : p.place = .argument arg)
    {line : List Char} (hline : inner line = true) :
    p.read line = { p with place := .argument (arg.readField line) } := by
  unfold Parser.read
  rw [h]
  exact if_pos hline

end Fields

/-- What stands in front of the arguments. -/
theorem foldl_scalarLines {skill : Skill} (h : skill.Plain) :
    (scalarLines skill).foldl Parser.read .initial
      = { skill := { skill with arguments := [], body := "" }
          place := .fields } := by
  unfold scalarLines
  have hplace : Parser.initial.place = .fields := rfl
  simp only [List.foldl_cons, List.foldl_nil, read_fields, hplace,
    readField_name _ h.name, readField_description _ h.description,
    readField_tags _ h.tags, readField_requiresTools _ h.requiresTools]
  rfl

-- ================================================================ arguments

/-- Lines of four blanks are inner lines. -/
theorem inner_spaces (n : Nat) (s : List Char) :
    inner (spaces (n + 4) ++ s) = true := by
  have hpre : "    ".toList.isPrefixOf (spaces (n + 4) ++ s) = true := rfl
  unfold inner
  rw [hpre, Bool.true_or]

/-- An argument as it is when only its item was read. -/
def bare (a : SkillArgument) : SkillArgument := ⟨a.name, none, false⟩

/-- Where a line of the loop over the arguments leads. -/
def itemPlace (s : List Char) : Place :=
  match stripPrefix itemKey s with
  | some after => .argument ⟨scalar after, none, false⟩
  | none => .arguments

section Items

variable {p : Parser} {a : SkillArgument}

/-- An indented line is read as an item or as none, and the argument at hand
is done with. -/
theorem read_listed (h : p.place ≠ .fields) {n : Nat} {s : List Char}
    (hs : Trimmed isWhitespace s)
    (hinner : p.place ≠ .arguments → inner (spaces (n + 1) ++ s) = false) :
    p.read (spaces (n + 1) ++ s)
      = { skill := p.finish
          place := itemPlace s } := by
  have hitem : ∀ q : Parser, q.readItem (spaces (n + 1) ++ s)
      = { q with place := itemPlace s } := by
    intro q
    have hhead : (spaces (n + 1) ++ s).head? = some ' ' := rfl
    unfold Parser.readItem
    rw [if_neg (fun hno => hno.1 hhead), trim_spaces _ hs]
    unfold itemPlace
    cases stripPrefix itemKey s with
    | none => rfl
    | some after => rfl
  obtain ⟨skill, place⟩ := p
  cases place with
  | fields => exact absurd rfl h
  | arguments => exact hitem _
  | argument arg =>
      have hno := hinner (fun h => by cases h)
      unfold Parser.read
      simp only [hno, Bool.false_eq_true, if_false]
      exact hitem _

theorem read_itemLine (h : p.place ≠ .fields) (ha : Plain a.name) {n : Nat}
    (hinner : p.place ≠ .arguments → inner (itemLine (n + 1) a) = false) :
    p.read (itemLine (n + 1) a)
      = { skill := p.finish, place := .argument (bare a) } := by
  have hkey : stripPrefix itemKey (keyLine itemKey a.name.toList)
      = some (' ' :: a.name.toList) := stripPrefix_append _ _
  have hread := read_listed h (trimmed_item ha.closed) hinner
  unfold itemPlace at hread
  rw [hkey] at hread
  simp only [scalar_plain ha] at hread
  exact hread

/-- The fields of an argument, on lines that are read as such. -/
theorem foldl_fieldLines (n : Nat) (ha : ∀ d, a.description = some d → Plain d)
    (skill : Skill) :
    (fieldLines (n + 2) a).foldl Parser.read
        { skill := skill, place := .argument (bare a) }
      = { skill := skill, place := .argument a } := by
  have hdesc : ∀ (b : SkillArgument) (d : String), Plain d →
      b.readField (spaces (n + 4) ++ keyLine descriptionKey d.toList)
        = { b with description := some d } := by
    intro b d hd
    have hkey : stripPrefix descriptionKey (keyLine descriptionKey d.toList)
        = some (' ' :: d.toList) := stripPrefix_append _ _
    unfold SkillArgument.readField
    rw [trim_spaces _ (trimmed_description hd.closed)]
    simp only [hkey, scalar_plain hd]
  have hreq : ∀ (b : SkillArgument) (r : Bool),
      b.readField (spaces (n + 4) ++ keyLine requiredKey (boolText r))
        = { b with required := r } := by
    intro b r
    unfold SkillArgument.readField
    rw [trim_spaces _ (trimmed_required r)]
    cases r with
    | true => rfl
    | false => rfl
  obtain ⟨name, description, required⟩ := a
  unfold fieldLines
  cases description with
  | none =>
      simp only [Option.toList_none, List.map_nil, List.nil_append,
        List.foldl_cons, List.foldl_nil]
      rw [read_inner rfl (inner_spaces n _), hreq]
      rfl
  | some d =>
      simp only [Option.toList_some, List.map_cons, List.map_nil,
        List.cons_append, List.nil_append, List.foldl_cons, List.foldl_nil]
      rw [read_inner rfl (inner_spaces n _), hdesc _ d (ha d rfl),
        read_inner rfl (inner_spaces n _), hreq]
      rfl

end Items

-- ===================================================================== runs

section Runs

/-- An argument's lines. -/
theorem itemLines_cons (n : Nat) (a : SkillArgument) (as : List SkillArgument) :
    itemLines n (a :: as) = itemLine n a :: (fieldLines n a ++ itemLines n as) :=
  List.flatMap_cons

variable {as : List SkillArgument}
  (has : ∀ a ∈ as, Plain a.name ∧ ∀ d, a.description = some d → Plain d)

include has

/-- At two or three blanks items and fields are told apart. -/
theorem run_aligned {n : Nat} (hn : n = 0 ∨ n = 1) {p : Parser}
    (hp : p.place ≠ .fields) :
    ((itemLines (n + 2) as).foldl Parser.read p).finish
      = { p.finish with arguments := p.finish.arguments ++ as } := by
  induction as generalizing p with
  | nil => rw [List.append_nil]; rfl
  | cons a as ih =>
      obtain ⟨ha, has⟩ := List.forall_mem_cons.mp has
      have hinner : inner (itemLine (n + 2) a) = false := by
        rcases hn with rfl | rfl <;> rfl
      rw [itemLines_cons, List.foldl_cons, List.foldl_append,
        read_itemLine hp ha.1 fun _ => hinner, foldl_fieldLines n ha.2,
        ih has (fun h => by cases h)]
      simp [Parser.finish, Parser.push]

/-- At one blank no field is read as one. -/
theorem run_narrow {p : Parser} (hp : p.place ≠ .fields) :
    ((itemLines 1 as).foldl Parser.read p).finish
      = { p.finish with arguments := p.finish.arguments ++ as.map bare } := by
  induction as generalizing p with
  | nil => rw [List.map_nil, List.append_nil]; rfl
  | cons a as ih =>
      obtain ⟨ha, has⟩ := List.forall_mem_cons.mp has
      have hfields : (fieldLines 1 a).foldl Parser.read
            { skill := p.finish, place := .argument (bare a) }
          = { skill := { p.finish with
                arguments := p.finish.arguments ++ [bare a] }
              place := .arguments } := by
        obtain ⟨name, description, required⟩ := a
        unfold fieldLines
        cases description with
        | none =>
            simp only [Option.toList_none, List.map_nil, List.nil_append,
              List.foldl_cons, List.foldl_nil]
            rw [read_listed (fun h => by cases h) (trimmed_required required)
              fun _ => rfl]
            rfl
        | some d =>
            simp only [Option.toList_some, List.map_cons, List.map_nil,
              List.cons_append, List.nil_append, List.foldl_cons,
              List.foldl_nil]
            rw [read_listed (fun h => by cases h)
                (trimmed_description (ha.2 d rfl).closed) fun _ => rfl,
              read_listed (fun h => by cases h) (trimmed_required required)
                fun h => absurd rfl h]
            rfl
      rw [itemLines_cons, List.foldl_cons, List.foldl_append,
        read_itemLine hp ha.1 fun _ => rfl, hfields,
        ih has (fun h => by cases h)]
      simp [Parser.finish]

omit has in
/-- At four blanks or more an argument at hand keeps every line. -/
theorem run_wide (n : Nat) (skill : Skill) (as : List SkillArgument)
    (arg : SkillArgument) :
    ∃ arg', (itemLines (n + 4) as).foldl Parser.read
        { skill := skill, place := .argument arg }
      = { skill := skill, place := .argument arg' } := by
  have hlines : ∀ line ∈ itemLines (n + 4) as, inner line = true := by
    intro line hline
    obtain ⟨a, -, hline⟩ := List.mem_flatMap.mp hline
    rcases List.mem_cons.mp hline with rfl | hline
    · exact inner_spaces n _
    · rcases List.mem_append.mp hline with hline | hline
      · obtain ⟨d, -, rfl⟩ := List.mem_map.mp hline
        exact inner_spaces (n + 2) _
      · rw [List.mem_singleton.mp hline]
        exact inner_spaces (n + 2) _
  generalize itemLines (n + 4) as = rows at hlines
  induction rows generalizing arg with
  | nil => exact ⟨arg, rfl⟩
  | cons line rows ih =>
      obtain ⟨hline, hrows⟩ := List.forall_mem_cons.mp hlines
      rw [List.foldl_cons, read_inner rfl hline]
      exact ih _ hrows

end Runs

/-- The arguments whose lines are told apart, where items stand behind `n`
blanks. -/
def Aligned (n : Nat) (as : List SkillArgument) : Prop :=
  as = [] ∨ n = 2 ∨ n = 3
    ∨ (n = 1 ∧ ∀ a ∈ as, a.description = none ∧ a.required = false)
    ∨ (4 ≤ n ∧ as.length ≤ 1)

instance (n : Nat) (as : List SkillArgument) : Decidable (Aligned n as) :=
  inferInstanceAs (Decidable (_ ∨ _))

theorem bare_eq_iff (a : SkillArgument) :
    bare a = a ↔ a.description = none ∧ a.required = false := by
  obtain ⟨name, description, required⟩ := a
  simp [bare, eq_comm]

/-- What comes of the lines between the fences. -/
theorem read_frontLines {skill : Skill} (h : skill.Plain) {n : Nat}
    (hn : 1 ≤ n) :
    ∃ as, ((frontLines n skill).foldl Parser.read .initial).finish
        = { skill with arguments := as, body := "" }
      ∧ (as = skill.arguments ↔ Aligned n skill.arguments) := by
  unfold frontLines
  rw [List.foldl_append, foldl_scalarLines h]
  by_cases hnil : skill.arguments = []
  · rw [if_pos hnil, hnil]
    exact ⟨[], rfl, iff_of_true rfl (.inl rfl)⟩
  · rw [if_neg hnil, List.foldl_cons, read_fields rfl, readField_arguments]
    obtain rfl | rfl | rfl | ⟨m, rfl⟩ : n = 1 ∨ n = 2 ∨ n = 3 ∨ ∃ m, n = m + 4 := by
      rcases Nat.lt_or_ge n 4 with hlt | hge
      · omega
      · exact .inr (.inr (.inr ⟨n - 4, by omega⟩))
    · refine ⟨_, run_narrow h.arguments (fun hp => by cases hp), ?_⟩
      show [] ++ skill.arguments.map bare = skill.arguments ↔ _
      have hmap : skill.arguments.map bare = skill.arguments
          ↔ ∀ a ∈ skill.arguments, bare a = a := by
        constructor
        · exact fun heq => List.map_inj_left.mp (heq.trans (List.map_id _).symm)
        · exact fun hbare => (List.map_congr_left hbare).trans (List.map_id _)
      rw [List.nil_append, hmap]
      simp [Aligned, hnil, bare_eq_iff]
    · refine ⟨_, run_aligned h.arguments (.inl rfl) (fun hp => by cases hp), ?_⟩
      exact iff_of_true (List.nil_append _) (.inr (.inl rfl))
    · refine ⟨_, run_aligned h.arguments (.inr rfl) (fun hp => by cases hp), ?_⟩
      exact iff_of_true (List.nil_append _) (.inr (.inr (.inl rfl)))
    · obtain ⟨a, as, hcons⟩ := List.exists_cons_of_ne_nil hnil
      have ha := h.arguments a (hcons ▸ List.mem_cons_self)
      -- the item of the first argument is read, and no other
      rw [hcons, itemLines_cons, List.foldl_cons, List.foldl_append,
        read_itemLine (n := m + 3) (fun hp => by cases hp) ha.1
          (fun hp => absurd rfl hp), foldl_fieldLines (m + 2) ha.2]
      by_cases hone : as = []
      · subst hone
        exact ⟨[a], rfl, iff_of_true rfl
          (.inr (.inr (.inr (.inr ⟨by omega, le_rfl⟩))))⟩
      · obtain ⟨arg, hrun⟩ := run_wide m
          { skill with arguments := [], body := "" } as a
        have hlen : as.length ≠ 0 := fun h0 => hone (List.length_eq_zero_iff.mp h0)
        refine ⟨[arg], ?_, iff_of_false ?_ ?_⟩
        · exact congrArg Parser.finish hrun
        · intro heq
          exact hone (List.cons.inj heq).2.symm
        · rintro (hal | hal | hal | ⟨hal, -⟩ | ⟨-, hal⟩)
          · cases hal
          · omega
          · omega
          · omega
          · rw [List.length_cons] at hal
            omega

-- =================================================================== the file

theorem plain_newline {s : String} (h : Plain s) : '\n' ∉ s.toList :=
  fun hmem => (h.chars _ hmem).2.2.2.2 rfl

theorem listText_newline {ts : List String} (h : ∀ t ∈ ts, Plain t) :
    '\n' ∉ listText ts := by
  intro hmem
  rcases List.mem_cons.mp hmem with heq | hmem
  · exact absurd heq (by decide)
  · rcases List.mem_append.mp hmem with hmem | hmem
    · exact (joined_char h hmem).2.2 rfl
    · exact absurd (List.mem_singleton.mp hmem) (by decide)

/-- The keys of the lines, with and without blanks in front. -/
def outerKeys : List (List Char) :=
  [nameKey, descriptionKey, tagsKey, requiresToolsKey]

def innerKeys : List (List Char) := [itemKey, descriptionKey, requiredKey]

/-- A line between the fences. -/
theorem mem_frontLines {skill : Skill} (h : skill.Plain) {n : Nat}
    {line : List Char} (hline : line ∈ frontLines n skill) :
    line = argumentsKey ∨ ∃ k key v, line = spaces k ++ keyLine key v
      ∧ (k = 0 ∧ key ∈ outerKeys ∨ n ≤ k ∧ key ∈ innerKeys)
      ∧ Closed v ∧ '\n' ∉ v := by
  rcases List.mem_append.mp hline with hline | hline
  · right
    simp only [scalarLines, List.mem_cons, List.not_mem_nil, or_false] at hline
    rcases hline with rfl | rfl | rfl | rfl
    · exact ⟨0, nameKey, _, rfl, .inl ⟨rfl, by simp [outerKeys]⟩,
        h.name.closed, plain_newline h.name⟩
    · exact ⟨0, descriptionKey, _, rfl, .inl ⟨rfl, by simp [outerKeys]⟩,
        h.description.closed, plain_newline h.description⟩
    · exact ⟨0, tagsKey, _, rfl, .inl ⟨rfl, by simp [outerKeys]⟩,
        closed_listText _, listText_newline h.tags⟩
    · exact ⟨0, requiresToolsKey, _, rfl, .inl ⟨rfl, by simp [outerKeys]⟩,
        closed_listText _, listText_newline h.requiresTools⟩
  · by_cases hnil : skill.arguments = []
    · rw [if_pos hnil] at hline
      cases hline
    · rw [if_neg hnil] at hline
      rcases List.mem_cons.mp hline with rfl | hline
      · exact .inl rfl
      · right
        obtain ⟨a, ha, hline⟩ := List.mem_flatMap.mp hline
        obtain ⟨hname, hdesc⟩ := h.arguments a ha
        rcases List.mem_cons.mp hline with rfl | hline
        · exact ⟨n, itemKey, _, rfl, .inr ⟨le_rfl, by simp [innerKeys]⟩,
            hname.closed, plain_newline hname⟩
        · rcases List.mem_append.mp hline with hline | hline
          · obtain ⟨d, hd, rfl⟩ := List.mem_map.mp hline
            have hplain := hdesc d (Option.mem_toList.mp hd)
            exact ⟨n + 2, descriptionKey, _, rfl,
              .inr ⟨by omega, by simp [innerKeys]⟩, hplain.closed,
              plain_newline hplain⟩
          · rw [List.mem_singleton.mp hline]
            refine ⟨n + 2, requiredKey, _, rfl,
              .inr ⟨by omega, by simp [innerKeys]⟩, closed_boolText _, ?_⟩
            cases a.required <;> decide

/-- No such line holds a newline, ends in a blank or opens a fence. -/
theorem frontLines_inside {skill : Skill} (h : skill.Plain) {n : Nat}
    (hn : 1 ≤ n) {line : List Char} (hline : line ∈ frontLines n skill) :
    ('\n' ∉ line ∧ Closed line) ∧ line.head? ≠ some '-' := by
  have hkeys : ∀ key ∈ outerKeys ++ innerKeys, '\n' ∉ key := by
    simp only [outerKeys, innerKeys, List.cons_append, List.nil_append,
      List.forall_mem_cons, List.not_mem_nil, false_imp_iff, implies_true]
    decide
  rcases mem_frontLines h hline with rfl | ⟨k, key, v, rfl, hkey, hv, hnl⟩
  · exact ⟨⟨by decide, "arguments".toList, ':', by decide, by decide⟩, by decide⟩
  · have hmem : key ∈ outerKeys ++ innerKeys := by
      rcases hkey with ⟨-, hkey⟩ | ⟨-, hkey⟩
      · exact List.mem_append_left _ hkey
      · exact List.mem_append_right _ hkey
    refine ⟨⟨?_, (closed_keyLine key hv).append _⟩, ?_⟩
    · intro hc
      rcases List.mem_append.mp hc with hc | hc
      · exact absurd (List.eq_of_mem_replicate hc) (by decide)
      · rcases List.mem_append.mp hc with hc | hc
        · exact hkeys key hmem hc
        · rcases List.mem_cons.mp hc with hc | hc
          · exact absurd hc (by decide)
          · exact hnl hc
    · rcases hkey with ⟨rfl, hkey⟩ | ⟨hk, -⟩
      · simp only [outerKeys, List.mem_cons, List.not_mem_nil, or_false] at hkey
        rcases hkey with rfl | rfl | rfl | rfl <;>
          exact fun hhead => absurd (Option.some.inj hhead) (by decide)
      · obtain ⟨k, rfl⟩ : ∃ j, k = j + 1 := ⟨k - 1, by omega⟩
        have hhead : (spaces (k + 1) ++ keyLine key v).head? = some ' ' := rfl
        rw [hhead]
        decide

/-- What stands behind the closing fence. -/
def Layout.rest (l : Layout) (skill : Skill) : List Char :=
  l.cr ++ '\n' :: (l.cr ++ '\n' :: (skill.body.toList ++ (l.cr ++ ['\n'])))

/-- A file by its lines. -/
theorem text_eq (l : Layout) (skill : Skill) :
    l.text skill = fence ++ (l.cr ++ '\n'
      :: (((frontLines l.indent skill).map (· ++ l.cr)).flatMap (· ++ ['\n'])
        ++ (fence ++ l.rest skill))) := by
  unfold Layout.text Layout.rest
  simp [List.flatMap_map, List.flatMap_append]

theorem cr_cases (l : Layout) : l.cr = [] ∨ l.cr = ['\r'] := by
  unfold Layout.cr
  cases l.crlf with
  | false => exact .inl rfl
  | true => exact .inr rfl

/-- The body is what it was, but for the line ends around it. -/
theorem trim_rest {l : Layout} {skill : Skill}
    (h : Trimmed isWhitespace skill.body.toList) :
    trim ((stripPrefix ['\n'] (l.rest skill)).getD (l.rest skill))
      = skill.body.toList := by
  have hpad : ∀ x y : List Char, (∀ c ∈ x, isWhitespace c = true) →
      (∀ c ∈ y, isWhitespace c = true) →
      trim (x ++ (skill.body.toList ++ y)) = skill.body.toList := fun x y hx hy =>
    (Text.trimBy_pad _ hx hy).trans (Text.trimBy_eq_self_iff.mpr h)
  unfold Layout.rest
  rcases cr_cases l with hcr | hcr
  · rw [hcr]
    exact hpad ['\n'] ['\n'] (List.all_eq_true.mp (by decide))
      (List.all_eq_true.mp (by decide))
  · rw [hcr]
    exact hpad ['\r', '\n', '\r', '\n'] ['\r', '\n']
      (List.all_eq_true.mp (by decide)) (List.all_eq_true.mp (by decide))

/-- The two parts of a file. -/
theorem splitFrontmatter_text {skill : Skill} (h : skill.Plain) {l : Layout}
    (hn : 1 ≤ l.indent) :
    ∃ front body, splitFrontmatter (l.text skill) = some (front, body)
      ∧ (lines [] front).foldl Parser.read .initial
        = (frontLines l.indent skill).foldl Parser.read .initial
      ∧ trim body = skill.body.toList := by
  have hinside : ∀ line ∈ frontLines l.indent skill,
      ('\n' ∉ line ∧ Closed line) ∧ line.head? ≠ some '-' := fun _ hline =>
    frontLines_inside h hn hline
  have hne : frontLines l.indent skill ≠ [] := List.cons_ne_nil _ _
  have hcr := cr_cases l
  have hrun := foldl_lines hcr hne (fun line hline => (hinside line hline).1)
    .initial
  have htrim := trim_rest (l := l) h.body
  have hstart : (l.text skill).dropWhile isWhitespace = l.text skill := by
    rw [text_eq]
    refine Text.dropWhile_eq_self ?_
    rintro c ⟨⟩
    decide
  have hrows : ∀ row ∈ (frontLines l.indent skill).map (· ++ l.cr),
      Inside row := by
    intro row hrow
    obtain ⟨line, hline, rfl⟩ := List.mem_map.mp hrow
    obtain ⟨⟨hnl, hclosed⟩, hhead⟩ := hinside line hline
    refine ⟨fun hmem => ?_, ?_⟩
    · rcases List.mem_append.mp hmem with hmem | hmem
      · exact hnl hmem
      · rcases hcr with hcr | hcr
        · rw [hcr] at hmem
          cases hmem
        · rw [hcr] at hmem
          exact absurd (List.mem_singleton.mp hmem) (by decide)
    · rw [List.head?_append_of_ne_nil _ hclosed.ne_nil]
      exact hhead
  have hnrows : (frontLines l.indent skill).map (· ++ l.cr) ≠ [] :=
    fun hmap => hne (List.map_eq_nil_iff.mp hmap)
  unfold splitFrontmatter
  rw [hstart, text_eq, stripPrefix_append, Option.bind_some]
  rcases hcr with hlf | hcrlf
  · have hcut := cutAt_front hnrows hrows (l.rest skill)
    have hnl := stripPrefix_append ['\n']
      (((frontLines l.indent skill).map (· ++ l.cr)).flatMap (· ++ ['\n'])
        ++ (fence ++ l.rest skill))
    have hlead : l.cr ++ '\n'
        :: (((frontLines l.indent skill).map (· ++ l.cr)).flatMap (· ++ ['\n'])
          ++ (fence ++ l.rest skill))
        = ['\n'] ++ (((frontLines l.indent skill).map (· ++ l.cr)).flatMap
          (· ++ ['\n']) ++ (fence ++ l.rest skill)) := by
      rw [hlf]
      rfl
    rw [hlead, hnl, Option.getD_some, hcut, Option.map_some]
    exact ⟨_, _, rfl, hrun, htrim⟩
  · -- the rest of the fence's line is an empty line in front of the fields
    have hcut := cutAt_front (List.cons_ne_nil ['\r'] _)
      (List.forall_mem_cons.mpr ⟨⟨by decide, by decide⟩, hrows⟩) (l.rest skill)
    have hlead : l.cr ++ '\n'
        :: (((frontLines l.indent skill).map (· ++ l.cr)).flatMap (· ++ ['\n'])
          ++ (fence ++ l.rest skill))
        = (['\r'] :: (frontLines l.indent skill).map (· ++ l.cr)).flatMap
          (· ++ ['\n']) ++ (fence ++ l.rest skill) := by
      rw [List.flatMap_cons, hcrlf, List.append_assoc, List.append_assoc]
      rfl
    have hnone : ∀ t : List Char, stripPrefix ['\n'] ('\r' :: t) = none :=
      fun t => rfl
    have hfirst : ∀ t : List Char,
        lines [] (['\r'] ++ '\n' :: t) = [] :: lines [] t := fun t =>
      lines_cons (by decide) t
    rw [hlead]
    have hnl : stripPrefix ['\n']
        ((['\r'] :: (frontLines l.indent skill).map (· ++ l.cr)).flatMap
          (· ++ ['\n']) ++ (fence ++ l.rest skill)) = none := by
      rw [List.flatMap_cons]
      exact hnone _
    rw [hnl, Option.getD_none, hcut, Option.map_some]
    refine ⟨_, _, rfl, ?_, htrim⟩
    rw [Text.intercalate_cons _ _ hnrows, hfirst, List.foldl_cons]
    exact hrun

/-- A skill laid out as documented is read back exactly where its arguments'
lines are told apart. -/
theorem parseSkill_text_iff {skill : Skill} (h : skill.Plain) {l : Layout}
    (hn : 1 ≤ l.indent) :
    parseSkill (l.text skill) = .ok skill
      ↔ Aligned l.indent skill.arguments := by
  obtain ⟨front, body, hsplit, hrun, hbody⟩ := splitFrontmatter_text h hn
  obtain ⟨as, hread, hiff⟩ := read_frontLines h hn
  have hparse : parseSkill (l.text skill)
      = .ok { skill with arguments := as } := by
    have hfront : parseFrontmatter front
        = .ok { skill with arguments := as, body := "" } := by
      unfold parseFrontmatter
      simp only [hrun, hread, if_neg h.name.ne, if_neg h.description.ne]
    unfold parseSkill
    simp only [hsplit, hfront, hbody, String.ofList_toList, Except.map]
  rw [hparse, ← hiff, Except.ok.injEq]
  constructor
  · exact fun heq => congrArg Skill.arguments heq
  · intro heq
    rw [heq]

/-- The documented example's arguments, shortened. -/
def closeSkill : Skill :=
  { name := "sap.skill.close"
    description := "Investigate a period close"
    tags := ["fi", "period-close"]
    requiresTools := ["sap.docs.search"]
    arguments :=
      [⟨"company_code", some "BUKRS", true⟩, ⟨"fiscal_period", none, false⟩]
    body := "Investigate." }

/-- Its two arguments are told apart at three blanks, and not at four. -/
example : Aligned 3 closeSkill.arguments ∧ ¬ Aligned 4 closeSkill.arguments := by
  decide

theorem plain_of_check {s : String} (hne : s ≠ "")
    (htrim : trimBy isWhitespace s.toList = s.toList)
    (hchars : s.toList.all (fun c => c != '"' && c != ',' && c != '['
      && c != ']' && c != '\n') = true) : Plain s := by
  refine ⟨hne, Text.trimBy_eq_self_iff.mp htrim, fun c hc => ?_⟩
  have hall := List.all_eq_true.mp hchars c hc
  simp only [Bool.and_eq_true, bne_iff_ne, ne_eq] at hall
  exact ⟨hall.1.1.1.1, hall.1.1.1.2, hall.1.1.2, hall.1.2, hall.2⟩

theorem closeSkill_plain : closeSkill.Plain where
  name := plain_of_check (by decide) (by decide) (by decide)
  description := plain_of_check (by decide) (by decide) (by decide)
  tags := List.forall_mem_cons.mpr
    ⟨plain_of_check (by decide) (by decide) (by decide),
      List.forall_mem_singleton.mpr
        (plain_of_check (by decide) (by decide) (by decide))⟩
  requiresTools := List.forall_mem_singleton.mpr
    (plain_of_check (by decide) (by decide) (by decide))
  arguments := by
    refine List.forall_mem_cons.mpr ⟨⟨?_, ?_⟩,
      List.forall_mem_singleton.mpr ⟨?_, ?_⟩⟩
    · exact plain_of_check (by decide) (by decide) (by decide)
    · rintro d ⟨⟩
      exact plain_of_check (by decide) (by decide) (by decide)
    · exact plain_of_check (by decide) (by decide) (by decide)
    · rintro d ⟨⟩
  body := Text.trimBy_eq_self_iff.mp (by decide)

/-- At four blanks the second item is lost, and its field is the first
one's; at one blank the fields are. -/
theorem item_swallowed :
    closeSkill.Plain
      ∧ parseSkill (Layout.text ⟨4, false⟩ closeSkill)
        = .ok { closeSkill with
          arguments := [⟨"company_code", some "BUKRS", false⟩] }
      ∧ parseSkill (Layout.text ⟨1, true⟩ closeSkill)
        = .ok { closeSkill with
          arguments := [⟨"company_code", none, false⟩,
            ⟨"fiscal_period", none, false⟩] } :=
  ⟨closeSkill_plain, by decide +kernel, by decide +kernel⟩

/-- At two blanks nothing is. -/
theorem parseSkill_text_iff_close :
    parseSkill (Layout.text ⟨2, true⟩ closeSkill) = .ok closeSkill
      ↔ Aligned 2 closeSkill.arguments :=
  parseSkill_text_iff closeSkill_plain (by decide)

end SapAutomate.Skills
