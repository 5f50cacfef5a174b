/-
The rendering of a skill (`Skill::render` of `sap-automate-skills/src/lib.rs`)
beside the substitution it stands for, which fills the holes of the body all
at once.

The steps of the code agree with it as long as none of them finds a hole that
the body does not have. What an argument's step may find is settled by the
step that runs last (`Template.Quiet.anti`): a hole that a few replacements
made is still there after more of them.
-/
import SapAutomate.Lib.Template
import SapAutomate.Skills.Skill

namespace SapAutomate.Skills

open Adt Template

-- ======================================================= one replacement

variable {pat new : List Char}

theorem replaceFrom_skip (pat new x t : List Char) :
    replaceFrom pat new x.length (x ++ t) = replaceFrom pat new 0 t := by
  induction x with
  | nil => rfl
  | cons c x ih => exact ih

theorem replaceFrom_match (hpat : pat ≠ []) (t : List Char) :
    replaceFrom pat new 0 (pat ++ t) = new ++ replaceFrom pat new 0 t := by
  obtain ⟨c, cs, rfl⟩ := List.exists_cons_of_ne_nil hpat
  have hpre : (c :: cs).isPrefixOf (c :: (cs ++ t)) = true :=
    List.isPrefixOf_iff_prefix.mpr (List.prefix_append (c :: cs) t)
  rw [List.cons_append, replaceFrom, if_pos hpre]
  exact congrArg _ (replaceFrom_skip (c :: cs) new cs t)

theorem replaceFrom_quiet {w t : List Char} (h : ¬ Starts pat w t) :
    replaceFrom pat new 0 (w ++ t) = w ++ replaceFrom pat new 0 t := by
  induction w with
  | nil => rfl
  | cons c w ih =>
      have hno : ¬ pat.isPrefixOf (c :: (w ++ t)) = true := fun hpre =>
        h ⟨[], c :: w, rfl, List.cons_ne_nil _ _,
          List.isPrefixOf_iff_prefix.mp hpre⟩
      have hih := ih fun ⟨w₁, w₂, hw, hne, hpre⟩ =>
        h ⟨c :: w₁, w₂, congrArg _ hw, hne, hpre⟩
      rw [List.cons_append, replaceFrom, if_neg hno, hih, List.cons_append]

/-- The first occurrence is the first that is replaced. -/
theorem replaceFrom_starts {w t : List Char} (h : Starts pat w t) :
    ∃ w₁ w₂, w = w₁ ++ w₂ ∧ w₂ ≠ [] ∧ pat <+: w₂ ++ t
      ∧ replaceFrom pat new 0 (w ++ t)
        = w₁ ++ replaceFrom pat new 0 (w₂ ++ t) := by
  induction w with
  | nil =>
      obtain ⟨w₁, w₂, hw, hne, -⟩ := h
      exact absurd (List.append_eq_nil_iff.mp hw.symm).2 hne
  | cons c w ih =>
      by_cases hpre : pat <+: c :: w ++ t
      · exact ⟨[], c :: w, rfl, List.cons_ne_nil _ _, hpre, rfl⟩
      · have hw : Starts pat w t := by
          obtain ⟨w₁, w₂, hw, hne, hp⟩ := h
          cases w₁ with
          | nil => exact absurd ((show c :: w = w₂ from hw) ▸ hp) hpre
          | cons d w₁ => exact ⟨w₁, w₂, (List.cons.inj hw).2, hne, hp⟩
        obtain ⟨w₁, w₂, rfl, hne, hp, heq⟩ := ih hw
        have hno : ¬ pat.isPrefixOf (c :: (w₁ ++ w₂ ++ t)) = true := fun h =>
          hpre (List.isPrefixOf_iff_prefix.mp h)
        refine ⟨c :: w₁, w₂, rfl, hne, hp, ?_⟩
        rw [List.cons_append, replaceFrom, if_neg hno, heq, List.cons_append]

/-- A pattern replaced by itself. -/
theorem replaceFrom_self (hpat : pat ≠ []) (s : List Char) :
    replaceFrom pat pat 0 s = s := by
  induction hn : s.length using Nat.strong_induction_on generalizing s with
  | _ n ih =>
      subst hn
      cases s with
      | nil => rfl
      | cons c t =>
          by_cases hpre : pat <+: c :: t
          · obtain ⟨r, hr⟩ := hpre
            have hlt : r.length < (c :: t).length := by
              rw [← hr, List.length_append]
              have hpos := List.length_pos_iff.mpr hpat
              omega
            rw [← hr, replaceFrom_match hpat, ih _ hlt r rfl]
          · rw [replaceFrom, if_neg fun h =>
              hpre (List.isPrefixOf_iff_prefix.mp h),
              ih _ (Nat.lt_succ_self _) t rfl]

/-- How long a text is after its replacements. -/
theorem length_replaceFrom {n : List Char} (hn : BraceFree n)
    (new s : List Char) :
    (replaceFrom (placeholder n) new 0 s).length
        + occurrences (placeholder n) s * (placeholder n).length
      = s.length + occurrences (placeholder n) s * new.length := by
  have hmem : n ∈ [n] := List.mem_singleton_self n
  induction s using reading_induction [n] with
  | nil => simp [replaceFrom, occurrences]
  | hole m hm t ih =>
      obtain rfl := List.mem_singleton.mp hm
      rw [replaceFrom_match (placeholder_ne_nil _), occurrences_hole hn,
        List.length_append, List.length_append, Nat.add_mul, Nat.add_mul]
      omega
  | lit c t h ih =>
      have hno : ¬ (placeholder n).isPrefixOf (c :: t) = true := fun hpre =>
        h n hmem (List.isPrefixOf_iff_prefix.mp hpre)
      rw [replaceFrom, if_neg hno, occurrences, if_neg hno, Nat.zero_add,
        List.length_cons, List.length_cons]
      omega

-- ============================================================== one step

variable {val : List Char → Option (List Char)} {n : List Char}

/-- One more name has a value. -/
def more (val : List Char → Option (List Char)) (n new : List Char) :
    List Char → Option (List Char) :=
  Function.update val n (some new)

theorem extends_more (hval : val n = none) (new : List Char) :
    Extends (more val n new) val := by
  intro m w hm
  have hne : m ≠ n := by
    rintro rfl
    rw [hval] at hm
    cases hm
  unfold more
  rw [Function.update_of_ne hne, hm]

theorem out_more_self (new : List Char) :
    Token.out (more val n new) (.hole n) = new := by
  simp [Token.out, more]

theorem out_more_ne {x : Token} (hx : x ≠ .hole n) (new : List Char) :
    x.out (more val n new) = x.out val := by
  cases x with
  | lit c => rfl
  | hole m =>
      have hne : m ≠ n := fun h => hx (h ▸ rfl)
      simp [Token.out, more, hne]

theorem out_hole (hval : val n = none) :
    Token.out val (.hole n) = placeholder n := by
  simp [Token.out, hval]

/-- A step that finds no new hole fills one more name. -/
theorem replaceFrom_fill (hval : val n = none) (new : List Char)
    {ts : List Token} (h : Quiet n val ts) :
    replaceFrom (placeholder n) new 0 (fill val ts)
      = fill (more val n new) ts := by
  induction ts with
  | nil => rfl
  | cons x ts ih =>
      obtain ⟨hx, hts⟩ := h
      rw [fill_cons, fill_cons]
      by_cases heq : x = .hole n
      · subst heq
        rw [out_hole hval, replaceFrom_match (placeholder_ne_nil n), ih hts,
          out_more_self]
      · rw [replaceFrom_quiet (hx heq), ih hts, out_more_ne heq]

theorem length_fill_more (hval : val n = none) (new : List Char)
    (ts : List Token) :
    (fill (more val n new) ts).length + holes n ts * (placeholder n).length
      = (fill val ts).length + holes n ts * new.length := by
  unfold holes
  induction ts with
  | nil => simp
  | cons x ts ih =>
      rw [fill_cons, fill_cons, List.length_append, List.length_append]
      by_cases heq : x = .hole n
      · subst heq
        rw [List.count_cons_self, out_more_self, out_hole hval, Nat.add_mul,
          Nat.add_mul]
        omega
      · rw [List.count_cons_of_ne heq, out_more_ne heq]
        omega

/-- A step that does only that found no new hole, or puts each hole back
where it was. -/
theorem quiet_of_replaceFrom (hn : BraceFree n) (hval : val n = none)
    {new : List Char} {ts : List Token}
    (h : replaceFrom (placeholder n) new 0 (fill val ts)
      = fill (more val n new) ts) : new = placeholder n ∨ Quiet n val ts := by
  by_cases hlen : new.length = (placeholder n).length
  · -- both texts are as long, so they part at the first new hole
    induction ts with
    | nil => exact .inr trivial
    | cons x ts ih =>
        rw [fill_cons, fill_cons] at h
        by_cases heq : x = .hole n
        · subst heq
          rw [out_hole hval, replaceFrom_match (placeholder_ne_nil n),
            out_more_self] at h
          exact (ih (List.append_cancel_left h)).imp_right fun hts =>
            ⟨fun hne => absurd rfl hne, hts⟩
        · rw [out_more_ne heq] at h
          by_cases hs : Starts (placeholder n) (x.out val) (fill val ts)
          · obtain ⟨w₁, w₂, hw, hw₂, hpre, hcode⟩ := replaceFrom_starts hs
            obtain ⟨r, hr⟩ := placeholder_front_mono hn
              (extends_more hval new) hw₂ hpre
            obtain ⟨r', hr'⟩ := hpre
            rw [hcode, hw, List.append_assoc] at h
            have htail := List.append_cancel_left h
            rw [← hr', replaceFrom_match (placeholder_ne_nil n), ← hr] at htail
            exact .inl (List.append_inj_left htail hlen)
          · rw [replaceFrom_quiet hs] at h
            exact (ih (List.append_cancel_left h)).imp_right fun hts =>
              ⟨fun _ => hs, hts⟩
  · refine .inr ((quiet_iff hn hval ts).mpr ?_)
    have hcode := length_replaceFrom hn new (fill val ts)
    have hspec := length_fill_more hval new ts
    have hle := holes_le hn hval ts
    rw [h] at hcode
    obtain ⟨d, hd⟩ := Nat.exists_eq_add_of_le hle
    rw [hd, Nat.add_mul, Nat.add_mul] at hcode
    rcases Nat.eq_zero_or_pos d with rfl | hpos
    · rw [hd, Nat.add_zero]
    · have hmul : d * (placeholder n).length = d * new.length := by omega
      exact absurd (Nat.eq_of_mul_eq_mul_left hpos hmul).symm hlen

-- ============================================================== the whole run

/-- What the arguments of a list are filled with. -/
def valueOf (args : String → Option String) (arguments : List SkillArgument)
    (n : List Char) : Option (List Char) :=
  (arguments.find? fun arg => arg.name.toList == n).map fun arg =>
    (arg.replacement args).toList

/-- The holes that a skill's body has for its arguments. -/
def holesOf (skill : Skill) : List Token :=
  tokens (skill.arguments.map fun arg => arg.name.toList) skill.body.toList

/-- The body, where each hole of an argument of the list is filled, all of
them at once. -/
def fillAll (skill : Skill) (args : String → Option String)
    (arguments : List SkillArgument) : String :=
  String.ofList (fill (valueOf args arguments) (holesOf skill))

/-- The hole of an argument. -/
def hole (arg : SkillArgument) : String := "\x7b\x7b" ++ arg.name ++ "\x7d\x7d"

/-- How often the hole of an argument stands in a text. -/
def count (arg : SkillArgument) (s : String) : Nat :=
  occurrences (hole arg).toList s.toList

/-- Names that tell the arguments apart and have no braces. -/
structure Declared (skill : Skill) : Prop where
  nodup : (skill.arguments.map SkillArgument.name).Nodup
  braceFree : ∀ arg ∈ skill.arguments, BraceFree arg.name.toList

theorem toList_hole (arg : SkillArgument) :
    (hole arg).toList = placeholder arg.name.toList := by
  unfold hole placeholder
  rw [String.toList_append, String.toList_append]
  rfl

section Run

variable {skill : Skill} (hskill : Declared skill)
  (args : String → Option String)

include hskill

theorem name_inj {a b : SkillArgument} (ha : a ∈ skill.arguments)
    (hb : b ∈ skill.arguments) (h : a.name.toList = b.name.toList) : a = b :=
  List.inj_on_of_nodup_map hskill.nodup ha hb (String.toList_inj.mp h)

/-- The names are read from distinct arguments. -/
theorem valueOf_eq_some {l : List SkillArgument} (hl : l ⊆ skill.arguments)
    {n w : List Char} :
    valueOf args l n = some w
      ↔ ∃ arg ∈ l, arg.name.toList = n ∧ (arg.replacement args).toList = w := by
  unfold valueOf
  rw [Option.map_eq_some_iff]
  constructor
  · rintro ⟨arg, hfind, hw⟩
    have hn := List.find?_some hfind
    exact ⟨arg, List.mem_of_find?_eq_some hfind, beq_iff_eq.mp hn, hw⟩
  · rintro ⟨arg, hmem, hn, hw⟩
    have hsome : (l.find? fun arg => arg.name.toList == n).isSome = true := by
      rw [List.find?_isSome]
      exact ⟨arg, hmem, beq_iff_eq.mpr hn⟩
    obtain ⟨arg', hfind⟩ := Option.isSome_iff_exists.mp hsome
    have hbeq := List.find?_some hfind
    have hn' : arg'.name.toList = n := beq_iff_eq.mp hbeq
    have heq := name_inj hskill (hl (List.mem_of_find?_eq_some hfind)) (hl hmem)
      (hn'.trans hn.symm)
    exact ⟨arg', hfind, heq ▸ hw⟩

theorem valueOf_eq_none {l : List SkillArgument} {arg : SkillArgument}
    (hl : l ⊆ skill.arguments) (harg : arg ∈ skill.arguments) (hno : arg ∉ l) :
    valueOf args l arg.name.toList = none := by
  rw [Option.eq_none_iff_forall_ne_some]
  intro w hw
  obtain ⟨b, hb, hname, -⟩ := (valueOf_eq_some hskill args hl).mp hw
  exact hno (name_inj hskill (hl hb) harg hname ▸ hb)

theorem valueOf_extends {l l' : List SkillArgument} (hl : l ⊆ l')
    (hl' : l' ⊆ skill.arguments) :
    Extends (valueOf args l') (valueOf args l) := by
  intro n w h
  obtain ⟨arg, hmem, hn, hw⟩ :=
    (valueOf_eq_some hskill args (List.Subset.trans hl hl')).mp h
  exact (valueOf_eq_some hskill args hl').mpr ⟨arg, hl hmem, hn, hw⟩

theorem valueOf_snoc {l : List SkillArgument} {arg : SkillArgument}
    (hl : l ++ [arg] ⊆ skill.arguments) :
    valueOf args (l ++ [arg])
      = more (valueOf args l) arg.name.toList (arg.replacement args).toList := by
  obtain ⟨hdone, harg⟩ := List.append_subset.mp hl
  funext n
  unfold more
  by_cases hn : n = arg.name.toList
  · subst hn
    rw [Function.update_self]
    exact (valueOf_eq_some hskill args hl).mpr
      ⟨arg, List.mem_append_right _ (List.mem_singleton_self arg), rfl, rfl⟩
  · rw [Function.update_of_ne hn]
    refine Option.ext fun w => ?_
    rw [valueOf_eq_some hskill args hl, valueOf_eq_some hskill args hdone]
    constructor
    · rintro ⟨b, hb, hname, hw⟩
      rcases List.mem_append.mp hb with hb | hb
      · exact ⟨b, hb, hname, hw⟩
      · exact absurd (List.mem_singleton.mp hb ▸ hname.symm) hn
    · rintro ⟨b, hb, hname, hw⟩
      exact ⟨b, List.mem_append_left _ hb, hname, hw⟩

theorem names_braceFree :
    ∀ m ∈ skill.arguments.map (fun arg => arg.name.toList), BraceFree m := by
  intro m hm
  obtain ⟨arg, harg, rfl⟩ := List.mem_map.mp hm
  exact hskill.braceFree arg harg

/-- Filling makes no new hole of an argument. -/
theorem quiet_iff_count {l : List SkillArgument} {arg : SkillArgument}
    (hl : l ⊆ skill.arguments) (harg : arg ∈ skill.arguments) (hno : arg ∉ l) :
    Quiet arg.name.toList (valueOf args l) (holesOf skill)
      ↔ count arg (fillAll skill args l) = count arg skill.body := by
  have hnames := names_braceFree hskill
  rw [quiet_iff (hskill.braceFree arg harg)
    (valueOf_eq_none hskill args hl harg hno)]
  unfold holesOf count fillAll
  rw [holes_tokens hnames (List.mem_map_of_mem harg), toList_hole,
    String.toList_ofList]
  rfl

/-- The replacement of one more argument. -/
theorem replace_fillAll_iff {l : List SkillArgument} {arg : SkillArgument}
    (hl : l ++ [arg] ⊆ skill.arguments) (hno : arg ∉ l) :
    replace (fillAll skill args l) (hole arg) (arg.replacement args)
        = fillAll skill args (l ++ [arg])
      ↔ arg.replacement args = hole arg
        ∨ count arg (fillAll skill args l) = count arg skill.body := by
  obtain ⟨hdone, harg⟩ := List.append_subset.mp hl
  have harg := harg (List.mem_singleton_self arg)
  have hn := hskill.braceFree arg harg
  have hval := valueOf_eq_none hskill args hdone harg hno
  rw [← quiet_iff_count hskill args hdone harg hno]
  unfold replace fillAll
  rw [String.ofList_inj, String.toList_ofList, toList_hole,
    valueOf_snoc hskill args hl, ← String.toList_inj, toList_hole]
  constructor
  · exact quiet_of_replaceFrom hn hval
  · rintro (hself | hquiet)
    · rw [hself, replaceFrom_self (placeholder_ne_nil _)]
      have hout : ∀ x : Token, x.out (more (valueOf args l) arg.name.toList
          (placeholder arg.name.toList)) = x.out (valueOf args l) := by
        intro x
        by_cases hx : x = .hole arg.name.toList
        · subst hx
          rw [out_more_self, out_hole hval]
        · exact out_more_ne hx _
      unfold fill
      rw [show Token.out _ = _ from funext hout]
    · exact replaceFrom_fill hval _ hquiet

theorem fillAll_nil : fillAll skill args [] = skill.body := by
  have hnone : valueOf args [] = fun _ => none := rfl
  unfold fillAll holesOf
  rw [hnone, fill_tokens (names_braceFree hskill), String.ofList_toList]

omit hskill in
theorem render_snoc (l : List SkillArgument) (arg : SkillArgument) :
    ({ skill with arguments := l ++ [arg] } : Skill).render args
      = replace (({ skill with arguments := l } : Skill).render args) (hole arg)
        (arg.replacement args) := by
  unfold Skill.render
  rw [List.foldl_append]
  rfl

/-- Whatever the order of its arguments, a skill's rendering is at every step
the body with the holes of the arguments it has come to filled, exactly if
filling the holes of the others makes no new hole of an argument, unless its
value is that hole. -/
theorem render_iff :
    (∀ order done, order.Perm skill.arguments → done <+: order →
        ({ skill with arguments := done } : Skill).render args
          = fillAll skill args done)
      ↔ ∀ arg ∈ skill.arguments, arg.replacement args = hole arg
        ∨ count arg (fillAll skill args (skill.arguments.erase arg))
          = count arg skill.body := by
  have hnodup := hskill.nodup.of_map
  constructor
  · intro h arg harg
    have hperm : (skill.arguments.erase arg ++ [arg]).Perm skill.arguments :=
      List.perm_append_comm.trans (List.perm_cons_erase harg).symm
    have hall := h _ _ hperm (List.prefix_refl _)
    rw [render_snoc, h _ _ hperm (List.prefix_append _ _)] at hall
    exact (replace_fillAll_iff hskill args hperm.subset
      hnodup.not_mem_erase).mp hall
  · intro h order done hperm
    induction done using List.reverseRecOn with
    | nil => exact fun _ => (fillAll_nil hskill args).symm
    | append_singleton l arg ih =>
        intro hpre
        have hsub := List.Subset.trans hpre.subset hperm.subset
        obtain ⟨hl, harg⟩ := List.append_subset.mp hsub
        have harg := harg (List.mem_singleton_self arg)
        have hno : arg ∉ l := by
          have hnd := (hperm.nodup_iff.mpr hnodup).sublist hpre.sublist
          exact fun hm => (List.nodup_append.mp hnd).2.2 arg hm arg
            (List.mem_singleton_self arg) rfl
        rw [render_snoc, ih ((List.prefix_append l [arg]).trans hpre)]
        refine (replace_fillAll_iff hskill args hsub hno).mpr ?_
        have herase : l ⊆ skill.arguments.erase arg := by
          intro b hb
          have hne : b ≠ arg := fun heq => hno (heq ▸ hb)
          exact (List.mem_erase_of_ne hne).mpr (hl hb)
        have hothers := List.erase_subset (a := arg) (l := skill.arguments)
        refine (h arg harg).imp_right fun hcount => ?_
        rw [← quiet_iff_count hskill args hothers harg
          hnodup.not_mem_erase] at hcount
        rw [← quiet_iff_count hskill args hl harg hno]
        exact hcount.anti (hskill.braceFree arg harg)
          (valueOf_extends hskill args herase hothers)
          (braceFree_of_hole (names_braceFree hskill) _)

end Run

/-- An argument that may be left out. -/
def optional (name : String) : SkillArgument := ⟨name, none, false⟩

/-- A skill with one hole and two arguments. -/
def quoting : Skill :=
  { name := "quote"
    description := "Quotes a text"
    tags := []
    requiresTools := []
    arguments := [optional "a", optional "b"]
    body := "\x7b\x7ba\x7d\x7d" }

/-- A value of `a` that quotes the hole of `b`. -/
def quoted (name : String) : Option String :=
  if name = "a" then some "\x7b\x7bb\x7d\x7d"
  else if name = "b" then some "x" else none

theorem quoting_declared : Declared quoting where
  nodup := by decide
  braceFree := by
    intro arg harg
    simp only [quoting, List.mem_cons, List.not_mem_nil, or_false] at harg
    rcases harg with rfl | rfl <;> exact ⟨by decide, by decide⟩

/-- The value's own text is replaced, and only in one of the two orders. -/
theorem value_replaced :
    Declared quoting
      ∧ quoting.render quoted = "x"
      ∧ fillAll quoting quoted quoting.arguments = "\x7b\x7bb\x7d\x7d"
      ∧ ({ quoting with arguments := quoting.arguments.reverse } : Skill).render
        quoted = "\x7b\x7bb\x7d\x7d" :=
  ⟨quoting_declared, by decide +kernel, by decide +kernel, by decide +kernel⟩

/-- The condition, at that skill. -/
theorem render_iff_quoting :
    (∀ order done, order.Perm quoting.arguments → done <+: order →
        ({ quoting with arguments := done } : Skill).render quoted
          = fillAll quoting quoted done)
      ↔ ∀ arg ∈ quoting.arguments, arg.replacement quoted = hole arg
        ∨ count arg (fillAll quoting quoted (quoting.arguments.erase arg))
          = count arg quoting.body :=
  render_iff quoting_declared quoted

end SapAutomate.Skills
