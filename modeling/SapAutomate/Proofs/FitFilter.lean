/-
What the content filter keeps (`sap-automate-ingest/src/fit_markdown.rs`).

A block's score is more than nothing exactly when it shares a token with
the topic, whatever the other blocks are. So which blocks are kept is said
of each of them alone, and those that are kept are kept again: joined with
blank lines, they are the blocks of what they make up.
-/
import SapAutomate.Ingest.FitMarkdown
import SapAutomate.Lib.Bm25
import SapAutomate.Proofs.ChunkWindows
import Mathlib.Algebra.Order.BigOperators.Group.List
import Mathlib.Analysis.SpecialFunctions.Log.Basic

namespace SapAutomate.Ingest

open Kb Text

-- =============================================================== blocks

/-- No blank line. -/
def NoBlank (s : List Char) : Prop :=
  s.IsChain fun a b => ¬ (a = '\n' ∧ b = '\n')

/-- A block: it is not empty and trimmed, and has no blank line. -/
structure IsBlock (b : List Char) : Prop where
  ne_nil : b ≠ []
  trimmed : trim b = b
  noBlank : NoBlank b

/-- The last of a piece and the first of what comes are not both line ends. -/
def Parted (piece cs : List Char) : Prop :=
  ∀ a ∈ piece.getLast?, ∀ b ∈ cs.head?, ¬ (a = '\n' ∧ b = '\n')

theorem splitBlank_noBlank {piece : List Char} (cs : List Char)
    (hpiece : NoBlank piece) (hparted : Parted piece cs) :
    ∀ p ∈ splitBlank piece cs, NoBlank p := by
  fun_induction splitBlank piece cs with
  | case1 piece =>
      intro p hp
      rw [List.mem_singleton.mp hp]
      exact hpiece
  | case2 piece cs ih =>
      intro p hp
      rcases List.mem_cons.mp hp with rfl | hp
      · exact hpiece
      · exact ih List.IsChain.nil nofun p hp
  | case3 piece c cs hc ih =>
      refine ih ?_ ?_
      · refine List.isChain_append.mpr ⟨hpiece, List.IsChain.singleton c, ?_⟩
        exact fun a ha b hb => hparted a ha b (by simpa using hb)
      · intro a ha b hb hab
        rw [List.getLast?_concat] at ha
        obtain rfl : a = c := by simpa using ha.symm
        cases cs with
        | nil => cases hb
        | cons d cs =>
            obtain rfl : d = b := by simpa using hb
            obtain ⟨rfl, rfl⟩ := hab
            exact hc cs rfl rfl

theorem isBlock_of_mem {body b : List Char} (hb : b ∈ blocksOf body) :
    IsBlock b := by
  obtain ⟨hb, hne⟩ := List.mem_filter.mp hb
  obtain ⟨p, hp, rfl⟩ := List.mem_map.mp hb
  have hnoblank := splitBlank_noBlank body List.IsChain.nil nofun p hp
  obtain ⟨l, r, hs, -, -⟩ := trimBy_split isWhitespace p
  refine ⟨by simpa using hne, trimBy_trimBy (fun _ h => h) p, ?_⟩
  rw [hs] at hnoblank
  exact hnoblank.right_of_append.left_of_append

theorem splitBlank_cons (piece : List Char) {c : Char} {cs : List Char}
    (h : ∀ b ∈ cs.head?, ¬ (c = '\n' ∧ b = '\n')) :
    splitBlank piece (c :: cs) = splitBlank (piece ++ [c]) cs := by
  refine splitBlank.eq_3 _ c cs ?_
  rintro rest rfl rfl
  exact h '\n' rfl ⟨rfl, rfl⟩

/-- What has no blank line goes on with the piece. -/
theorem splitBlank_append {b : List Char} (piece : List Char)
    {tail : List Char} (hb : NoBlank b) (hparted : Parted b tail) :
    splitBlank piece (b ++ tail) = splitBlank (piece ++ b) tail := by
  induction b generalizing piece with
  | nil => rw [List.nil_append, List.append_nil]
  | cons c b ih =>
      have hnext : ∀ d ∈ (b ++ tail).head?, ¬ (c = '\n' ∧ d = '\n') := by
        intro d hd
        cases b with
        | nil => exact hparted c rfl d hd
        | cons e b =>
            obtain rfl : e = d := by simpa using hd
            exact (List.isChain_cons_cons.mp hb).1
      have hrest : Parted b tail := by
        intro a ha
        cases b with
        | nil => cases ha
        | cons e b => exact hparted a (by rw [List.getLast?_cons_cons]; exact ha)
      calc splitBlank piece (c :: b ++ tail)
          = splitBlank (piece ++ [c]) (b ++ tail) := splitBlank_cons piece hnext
        _ = splitBlank (piece ++ [c] ++ b) tail := ih _ hb.tail hrest
        _ = splitBlank (piece ++ c :: b) tail := by
          rw [List.append_assoc, List.singleton_append]

theorem IsBlock.parted {b : List Char} (hb : IsBlock b) (tail : List Char) :
    Parted b tail := by
  rintro a ha _ _ ⟨rfl, _⟩
  exact absurd ((trimBy_eq_self_iff.mp hb.trimmed).2 _ ha) (by decide)

theorem splitBlank_joinBlocks {bs : List (List Char)} (hne : bs ≠ [])
    (hbs : ∀ b ∈ bs, IsBlock b) : splitBlank [] (joinBlocks bs) = bs := by
  fun_induction joinBlocks bs with
  | case1 => exact absurd rfl hne
  | case2 b =>
      have hb := hbs b List.mem_cons_self
      have hsplit := splitBlank_append [] hb.noBlank (hb.parted [])
      rw [List.append_nil, List.nil_append] at hsplit
      rw [hsplit, splitBlank]
  | case3 b b' bs ih =>
      have hb := hbs b List.mem_cons_self
      rw [splitBlank_append [] hb.noBlank (hb.parted _), List.nil_append,
        splitBlank, ih (List.cons_ne_nil _ _)]
      exact fun d hd => hbs d (List.mem_cons_of_mem b hd)

/-- Blocks joined are those blocks. -/
theorem blocksOf_joinBlocks {bs : List (List Char)}
    (hbs : ∀ b ∈ bs, IsBlock b) : blocksOf (joinBlocks bs) = bs := by
  by_cases hne : bs = []
  · rw [hne]
    rfl
  · have htrim : bs.map trim = bs :=
      (List.map_congr_left fun b hb => (hbs b hb).trimmed).trans bs.map_id
    rw [blocksOf, splitBlank_joinBlocks hne hbs, htrim, List.filter_eq_self]
    exact fun b hb => decide_eq_true (hbs b hb).ne_nil

-- ================================================================ sizes

/-- The bytes of blocks, each with a blank line behind it. -/
def joinedLen (bs : List (List Char)) : Nat :=
  (bs.map fun b => byteLen b + 2).sum

theorem joinedLen_splitBlank (piece cs : List Char) :
    joinedLen (splitBlank piece cs) = byteLen piece + byteLen cs + 2 := by
  fun_induction splitBlank piece cs with
  | case1 piece => rfl
  | case2 piece cs ih =>
      have hblank : byteLen ('\n' :: '\n' :: cs) = byteLen cs + 2 := by
        rw [byteLen_cons, byteLen_cons]
        have hsize : '\n'.utf8Size = 1 := by decide
        omega
      have hcons : joinedLen (piece :: splitBlank [] cs)
          = byteLen piece + 2 + joinedLen (splitBlank [] cs) := List.sum_cons
      have hnil : byteLen [] = 0 := rfl
      omega
  | case3 piece c cs _ ih =>
      have hsingle : byteLen [c] = c.utf8Size := Nat.add_zero _
      rw [ih, byteLen_append, hsingle, byteLen_cons, Nat.add_assoc (byteLen piece)]

theorem byteLen_trim (s : List Char) : byteLen (trim s) ≤ byteLen s := by
  obtain ⟨l, r, hs, -, -⟩ := trimBy_split isWhitespace s
  have hlen : byteLen s = byteLen l + (byteLen (trim s) + byteLen r) := by
    rw [← byteLen_append, ← byteLen_append]
    exact congrArg byteLen hs
  omega

theorem joinedLen_map_trim (ps : List (List Char)) :
    joinedLen (ps.map trim) ≤ joinedLen ps := by
  rw [joinedLen, List.map_map]
  exact List.sum_le_sum fun p _ => Nat.add_le_add_right (byteLen_trim p) 2

theorem joinedLen_sublist {bs bs' : List (List Char)}
    (h : bs.Sublist bs') : joinedLen bs ≤ joinedLen bs' :=
  (h.map _).sum_le_sum fun _ _ => Nat.zero_le _

theorem byteLen_joinBlocks (bs : List (List Char)) :
    byteLen (joinBlocks bs) ≤ joinedLen bs - 2 := by
  fun_induction joinBlocks bs with
  | case1 => exact Nat.le_refl 0
  | case2 b => exact Nat.le_refl _
  | case3 b b' bs ih =>
      have hcons : joinedLen (b :: b' :: bs)
          = byteLen b + 2 + joinedLen (b' :: bs) := List.sum_cons
      have hone : 2 ≤ joinedLen (b' :: bs) := by
        have hcons' : joinedLen (b' :: bs)
            = byteLen b' + 2 + joinedLen bs := List.sum_cons
        omega
      have hsize : '\n'.utf8Size = 1 := by decide
      rw [byteLen_append, byteLen_cons, byteLen_cons]
      omega

/-- Some of a body's blocks are no longer than the body. -/
theorem byteLen_kept_le {body : List Char} {kept : List (List Char)}
    (h : kept.Sublist (blocksOf body)) :
    byteLen (joinBlocks kept) ≤ byteLen body := by
  have hkept : joinedLen kept ≤ joinedLen (splitBlank [] body) := by
    calc joinedLen kept
        ≤ joinedLen ((splitBlank [] body).map trim) :=
          joinedLen_sublist (h.trans List.filter_sublist)
      _ ≤ joinedLen (splitBlank [] body) := joinedLen_map_trim _
  have hjoin := byteLen_joinBlocks kept
  have hbody := joinedLen_splitBlank [] body
  have hnil : byteLen [] = 0 := rfl
  omega

-- =============================================================== scores

/-- The topic and a block have a token in common. -/
def SharesToken (isAlphanumeric : Char → Bool) (topic block : List Char) :
    Prop :=
  ∃ t ∈ tokens isAlphanumeric topic, t ∈ tokens isAlphanumeric block

instance (isAlphanumeric : Char → Bool) (topic block : List Char) :
    Decidable (SharesToken isAlphanumeric topic block) :=
  inferInstanceAs (Decidable (∃ t ∈ _, t ∈ _))

section Scores

variable {K : Type} [Field K] [LinearOrder K] [IsStrictOrderedRing K]

theorem blockScore_pos_iff {ln : K → K} (hln : ∀ x, 1 < x → 0 < ln x)
    (docs : List (List String)) {avgDl k1 b : K} (havg : 0 < avgDl)
    (hk1 : 0 < k1) (hb : 0 ≤ b) (hb' : b ≤ 1)
    (queryTerms doc : List String) :
    0 < blockScore ln docs avgDl queryTerms k1 b doc
      ↔ ∃ t ∈ queryTerms, t ∈ doc := by
  have hhalf : (ratio 1 2 : K) = 1 / 2 := by
    rw [ratio, Nat.cast_one, Nat.cast_ofNat]
  exact Bm25.score_pos_iff hln docs hhalf havg hk1 hb hb' queryTerms doc

/-- A block's score, for any other blocks: nothing, or what its tokens
weigh. -/
theorem bm25Scores_spec {ln : K → K} (hln : ∀ x, 1 < x → 0 < ln x)
    {k1 b : K} (hk1 : 0 < k1) (hb : 0 ≤ b) (hb' : b ≤ 1)
    (isAlphanumeric : Char → Bool) (blocks : List (List Char))
    (queryTerms : List String) :
    ∃ score : List Char → K,
      bm25Scores ln isAlphanumeric blocks queryTerms k1 b = blocks.map score
      ∧ ∀ block ∈ blocks, 0 < score block
        ↔ ∃ t ∈ queryTerms, t ∈ tokens isAlphanumeric block := by
  have hzero : List.replicate blocks.length (0 : K) = blocks.map fun _ => 0 :=
    List.map_const'.symm
  unfold bm25Scores
  dsimp only
  split
  · next hnone =>
    refine ⟨fun _ => 0, hzero, fun block hblock => ?_⟩
    refine iff_of_false (lt_irrefl 0) ?_
    rintro ⟨t, ht, -⟩
    rcases hnone with hnone | hnone
    · exact List.ne_nil_of_mem hblock (List.eq_nil_of_length_eq_zero hnone)
    · exact List.ne_nil_of_mem ht (List.isEmpty_iff.mp hnone)
  · next hsome =>
    have hlen : (0 : K) < blocks.length :=
      Nat.cast_pos.mpr (Nat.pos_of_ne_zero fun h => hsome (.inl h))
    split
    · next havg =>
      refine ⟨fun _ => 0, hzero, fun block hblock => ?_⟩
      refine iff_of_false (lt_irrefl 0) ?_
      rintro ⟨t, -, ht⟩
      -- no length is counted, so no block has a token
      have hsum := (div_eq_zero_iff.mp havg).resolve_right hlen.ne'
      have hblock' := List.mem_map_of_mem (f := List.length)
        (List.mem_map_of_mem (f := tokens isAlphanumeric) hblock)
      have hnone := List.sum_eq_zero_iff.mp (Nat.cast_eq_zero.mp hsum) _ hblock'
      exact List.ne_nil_of_mem ht (List.eq_nil_of_length_eq_zero hnone)
    · next havg =>
      refine ⟨_, List.map_map, fun block _ => ?_⟩
      have havg' := lt_of_le_of_ne
        (div_nonneg (Nat.cast_nonneg _) hlen.le) (Ne.symm havg)
      exact blockScore_pos_iff hln _ havg' hk1 hb hb' queryTerms _

-- =========================================================== what is kept

/-- What the filter keeps of a body, said of each block alone. -/
def FitConfig.Fits (cfg : FitConfig K) (isAlphanumeric : Char → Bool)
    (topic block : List Char) : Prop :=
  cfg.keepBlockChars ≤ byteLen block
    ∨ cfg.minBlockChars ≤ byteLen block ∧ SharesToken isAlphanumeric topic block

instance (cfg : FitConfig K) (isAlphanumeric : Char → Bool)
    (topic block : List Char) :
    Decidable (cfg.Fits isAlphanumeric topic block) :=
  inferInstanceAs (Decidable (_ ∨ _ ∧ _))

omit [IsStrictOrderedRing K] in
theorem keeps_iff {cfg : FitConfig K} (hmin : cfg.minScore ≤ 0)
    {isAlphanumeric : Char → Bool} {topic block : List Char} {score : K}
    (hscore : 0 < score ↔ SharesToken isAlphanumeric topic block) :
    cfg.keeps block score = true ↔ cfg.Fits isAlphanumeric topic block := by
  unfold FitConfig.keeps FitConfig.Fits
  split
  · next hkeep => exact iff_of_true rfl (.inl hkeep)
  · next hkeep =>
    rw [or_iff_right hkeep]
    split
    · next hmin' =>
      exact iff_of_false Bool.false_ne_true fun h => by omega
    · next hmin' =>
      rw [Bool.and_eq_true, decide_eq_true_iff, decide_eq_true_iff, hscore,
        and_iff_right (Nat.le_of_not_lt hmin')]
      exact and_iff_right_of_imp fun h => hmin.trans (hscore.mpr h).le

/-- The blocks of a body that the filter keeps. -/
def FitConfig.fitting (cfg : FitConfig K) (isAlphanumeric : Char → Bool)
    (topic body : List Char) : List (List Char) :=
  (blocksOf body).filter fun block => cfg.Fits isAlphanumeric topic block

theorem fitMarkdownFilter_eq {ln : K → K} (hln : ∀ x, 1 < x → 0 < ln x)
    (isAlphanumeric : Char → Bool) (body topic : List Char)
    {cfg : FitConfig K} (hmin : cfg.minScore ≤ 0) (hk1 : 0 < cfg.k1)
    (hb : 0 ≤ cfg.b) (hb' : cfg.b ≤ 1) :
    fitMarkdownFilter ln isAlphanumeric body topic cfg
      = (joinBlocks (cfg.fitting isAlphanumeric topic body),
        ⟨(blocksOf body).length,
          (cfg.fitting isAlphanumeric topic body).length, byteLen body,
          byteLen (joinBlocks (cfg.fitting isAlphanumeric topic body))⟩) := by
  obtain ⟨score, hscores, hscore⟩ := bm25Scores_spec hln hk1 hb hb'
    isAlphanumeric (blocksOf body) (tokens isAlphanumeric topic)
  have hkept : (((blocksOf body).zip ((blocksOf body).map score)).filter
      fun e => cfg.keeps e.1 e.2).map Prod.fst
      = cfg.fitting isAlphanumeric topic body := by
    rw [← List.map_prod_left_eq_zip, List.filter_map, List.map_map]
    refine (List.map_id _).trans (List.filter_congr fun block hblock => ?_)
    exact Bool.eq_iff_iff.mpr ((keeps_iff hmin (hscore block hblock)).trans
      (decide_eq_true_iff).symm)
  unfold fitMarkdownFilter
  dsimp only
  split
  · next hnone =>
    have hnil : blocksOf body = [] := List.isEmpty_iff.mp hnone
    have hfit : cfg.fitting isAlphanumeric topic body = [] := by
      rw [FitConfig.fitting, hnil, List.filter_nil]
    rw [hfit, hnil]
    rfl
  · rw [hscores, hkept]

omit [Field K] [LinearOrder K] [IsStrictOrderedRing K] in
theorem blocksOf_fitting (cfg : FitConfig K) (isAlphanumeric : Char → Bool)
    (topic body : List Char) :
    blocksOf (joinBlocks (cfg.fitting isAlphanumeric topic body))
      = cfg.fitting isAlphanumeric topic body :=
  blocksOf_joinBlocks fun _ hb => isBlock_of_mem (List.mem_of_mem_filter hb)

omit [Field K] [LinearOrder K] [IsStrictOrderedRing K] in
/-- What is kept is kept again. -/
theorem fitting_joinBlocks (cfg : FitConfig K) (isAlphanumeric : Char → Bool)
    (topic body : List Char) :
    cfg.fitting isAlphanumeric topic
        (joinBlocks (cfg.fitting isAlphanumeric topic body))
      = cfg.fitting isAlphanumeric topic body := by
  rw [FitConfig.fitting, blocksOf_fitting]
  exact List.filter_eq_self.mpr fun b hb => (List.mem_filter.mp hb).2

/-- What a filter is to return: the blocks of a body that fit, in their
order, and no more than came in. -/
structure Fitted (isAlphanumeric : Char → Bool) (body topic : List Char)
    (cfg : FitConfig K) (out : List Char × FitStats) : Prop where
  blocks : blocksOf out.1 = cfg.fitting isAlphanumeric topic body
  text : out.1 = joinBlocks (cfg.fitting isAlphanumeric topic body)
  blocksIn : out.2.blocksIn = (blocksOf body).length
  blocksOut : out.2.blocksOut = (blocksOf out.1).length
  charsIn : out.2.charsIn = byteLen body
  charsOut : out.2.charsOut = byteLen out.1
  blocks_le : out.2.blocksOut ≤ out.2.blocksIn
  chars_le : out.2.charsOut ≤ out.2.charsIn

end Scores

/-- The filter returns the blocks that fit, and returns them again of what
it returned. -/
theorem fitMarkdownFilter_fits (isAlphanumeric : Char → Bool)
    (body topic : List Char) (cfg : FitConfig ℝ) (hmin : cfg.minScore ≤ 0)
    (hk1 : 0 < cfg.k1) (hb : 0 ≤ cfg.b) (hb' : cfg.b ≤ 1) :
    Fitted isAlphanumeric body topic cfg
        (fitMarkdownFilter Real.log isAlphanumeric body topic cfg)
      ∧ (fitMarkdownFilter Real.log isAlphanumeric
          (fitMarkdownFilter Real.log isAlphanumeric body topic cfg).1
          topic cfg).1
        = (fitMarkdownFilter Real.log isAlphanumeric body topic cfg).1 := by
  have heq := fun body => fitMarkdownFilter_eq (fun _ h => Real.log_pos h)
    isAlphanumeric body topic hmin hk1 hb hb'
  have hblocks := blocksOf_fitting cfg isAlphanumeric topic body
  constructor
  · rw [heq]
    exact {
      blocks := hblocks
      text := rfl
      blocksIn := rfl
      blocksOut := congrArg List.length hblocks.symm
      charsIn := rfl
      charsOut := rfl
      blocks_le := List.length_filter_le _ _
      chars_le := byteLen_kept_le List.filter_sublist }
  · rw [heq body, heq, fitting_joinBlocks]

/-- The default keeps no block that is short. -/
theorem default_fits :
    Fitted Char.isAlphanum ['H', 'o', 'm', 'e'] ['t']
        (FitConfig.default : FitConfig ℝ)
        (fitMarkdownFilter Real.log Char.isAlphanum ['H', 'o', 'm', 'e'] ['t']
          FitConfig.default)
      ∧ (fitMarkdownFilter Real.log Char.isAlphanum ['H', 'o', 'm', 'e'] ['t']
        FitConfig.default).1 = [] := by
  have hk1 : (0 : ℝ) < (FitConfig.default : FitConfig ℝ).k1 := by
    change (0 : ℝ) < ratio 3 2
    unfold ratio
    positivity
  have hb : (0 : ℝ) ≤ (FitConfig.default : FitConfig ℝ).b := by
    change (0 : ℝ) ≤ ratio 3 4
    unfold ratio
    positivity
  have hb' : (FitConfig.default : FitConfig ℝ).b ≤ 1 := by
    change (ratio 3 4 : ℝ) ≤ 1
    rw [ratio, div_le_one (by positivity)]
    exact Nat.cast_le.mpr (by decide)
  have hfits := (fitMarkdownFilter_fits Char.isAlphanum ['H', 'o', 'm', 'e']
    ['t'] (FitConfig.default : FitConfig ℝ) (le_refl 0) hk1 hb hb').1
  exact ⟨hfits, hfits.text.trans rfl⟩

end SapAutomate.Ingest
