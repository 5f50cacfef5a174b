/-
Okapi BM25, where scores are exact: a term that a text has weighs more
than nothing, for any saturation and any part of length normalisation.
So a text has a score exactly when it shares a term with the query.
-/
import Mathlib.Algebra.Order.Field.Basic
import Mathlib.Tactic.Linarith
import Mathlib.Data.Nat.Cast.Order.Ring
import Mathlib.Tactic.Positivity

namespace Bm25

variable {K : Type} [Field K] [LinearOrder K] [IsStrictOrderedRing K]

/-- What the logarithm is taken of is more than one: no term is in more
texts than there are. -/
theorem one_lt_ratio {n df : K} (hdf : 0 ≤ df) (hle : df ≤ n) :
    1 < (n - df + 1 / 2) / (df + 1 / 2) + 1 := by
  have hnum : 0 < n - df + 1 / 2 := by linarith
  have hden : 0 < df + 1 / 2 := by linarith
  exact lt_add_of_pos_left 1 (div_pos hnum hden)

theorem denom_pos {f k1 b len avg : K} (hf : 0 < f) (hk1 : 0 < k1)
    (hb : 0 ≤ b) (hb' : b ≤ 1) (hlen : 0 ≤ len) (havg : 0 < avg) :
    0 < f + k1 * (1 - b + b * len / avg) := by
  have hnorm : 0 ≤ 1 - b + b * len / avg := by
    have hrest : 0 ≤ b * len / avg := by positivity
    linarith
  positivity

theorem weight_pos {ln : K → K} (hln : ∀ x, 1 < x → 0 < ln x)
    {n df f k1 b len avg : K} (hdf : 0 ≤ df) (hle : df ≤ n) (hf : 0 < f)
    (hk1 : 0 < k1) (hb : 0 ≤ b) (hb' : b ≤ 1) (hlen : 0 ≤ len)
    (havg : 0 < avg) :
    0 < ln ((n - df + 1 / 2) / (df + 1 / 2) + 1) * (f * (k1 + 1))
      / (f + k1 * (1 - b + b * len / avg)) := by
  have hidf := hln _ (one_lt_ratio hdf hle)
  have hdenom := denom_pos hf hk1 hb hb' hlen havg
  positivity

-- ================================================================== sums

variable {τ : Type}

theorem foldl_ge {f w : τ → K} {terms : List τ}
    (hw : ∀ t ∈ terms, f t ≠ 0 → 0 < w t) (s : K) :
    s ≤ terms.foldl (fun s t => if f t = 0 then s else s + w t) s := by
  induction terms generalizing s with
  | nil => exact le_refl s
  | cons t terms ih =>
      have hrest := ih fun u hu => hw u (List.mem_cons_of_mem t hu)
      rw [List.foldl_cons]
      by_cases hf : f t = 0
      · rw [if_pos hf]
        exact hrest s
      · rw [if_neg hf]
        have hpos := hw t List.mem_cons_self hf
        exact (le_add_of_nonneg_right hpos.le).trans (hrest _)

/-- The weights of the terms that occur, added up. -/
theorem foldl_pos_iff {f w : τ → K} {terms : List τ}
    (hw : ∀ t ∈ terms, f t ≠ 0 → 0 < w t) :
    0 < terms.foldl (fun s t => if f t = 0 then s else s + w t) 0
      ↔ ∃ t ∈ terms, f t ≠ 0 := by
  induction terms with
  | nil => simp
  | cons t terms ih =>
      have hrest := fun u hu => hw u (List.mem_cons_of_mem t hu)
      rw [List.foldl_cons, List.exists_mem_cons_iff]
      by_cases hf : f t = 0
      · rw [if_pos hf, ih hrest, or_iff_right fun h => h hf]
      · rw [if_neg hf]
        have hpos := hw t List.mem_cons_self hf
        have hge := foldl_ge hrest (0 + w t)
        rw [zero_add] at hge ⊢
        exact iff_of_true (hpos.trans_le hge) (.inl hf)

-- ================================================================ scores

/-- A text, of the tokens `doc`, has a score among other texts exactly when
it has one of the terms. -/
theorem score_pos_iff [DecidableEq τ] {ln : K → K}
    (hln : ∀ x, 1 < x → 0 < ln x) (docs : List (List τ))
    {half avg k1 b : K} (hhalf : half = 1 / 2) (havg : 0 < avg)
    (hk1 : 0 < k1) (hb : 0 ≤ b) (hb' : b ≤ 1) (terms doc : List τ) :
    0 < terms.foldl (fun s t =>
        if (doc.count t : K) = 0 then s
        else s + ln ((docs.length - (docs.filter fun d => d.contains t).length
            + half) / ((docs.filter fun d => d.contains t).length + half) + 1)
          * (doc.count t * (k1 + 1))
          / (doc.count t + k1 * (1 - b + b * doc.length / avg))) 0
      ↔ ∃ t ∈ terms, t ∈ doc := by
  subst hhalf
  refine (foldl_pos_iff fun t _ hf => ?_).trans ?_
  · have hle := List.length_filter_le (fun d => d.contains t) docs
    exact weight_pos hln (Nat.cast_nonneg _) (Nat.cast_le.mpr hle)
      (lt_of_le_of_ne (Nat.cast_nonneg _) (Ne.symm hf)) hk1 hb hb'
      (Nat.cast_nonneg _) havg
  · refine exists_congr fun t => and_congr_right fun _ => ?_
    rw [Nat.cast_ne_zero, ← Nat.pos_iff_ne_zero, List.count_pos_iff]

end Bm25
