/-
What a sparse search returns (`bm25_search`): in exact arithmetic, the
chunks of the domains asked for that share a token with the query, each
with a score that is not nothing, the best first (`SparseResult`).
-/
import SapAutomate.Lib.Bm25
import SapAutomate.Proofs.HybridSearch
import Mathlib.Analysis.SpecialFunctions.Log.Basic

namespace SapAutomate.Kb

open Iteration

/-- Two texts have a token in common. -/
def SharesToken (isAlphanumeric : Char → Bool) (a b : String) : Prop :=
  ∃ t ∈ tokenize isAlphanumeric a, t ∈ tokenize isAlphanumeric b

variable {K : Type} [Field K] [LinearOrder K] [IsStrictOrderedRing K]

-- ================================================================ scores

theorem bm25Score_pos_iff {std : Std K} (hln : ∀ x, 1 < x → 0 < std.ln x)
    (docs : List (List String)) {avgDl : K} (havg : 0 < avgDl)
    (queryTerms tokens : List String) :
    0 < bm25Score std docs.length docs avgDl queryTerms tokens
      ↔ ∃ t ∈ queryTerms, t ∈ tokens := by
  have hhalf : (ratio 1 2 : K) = 1 / 2 := by
    rw [ratio, Nat.cast_one, Nat.cast_ofNat]
  have hk1 : (0 : K) < ratio 3 2 := by unfold ratio; positivity
  have hb : (0 : K) ≤ ratio 3 4 := by unfold ratio; positivity
  have hb' : (ratio 3 4 : K) ≤ 1 := by
    rw [ratio, div_le_one (by positivity)]
    exact Nat.cast_le.mpr (by decide)
  exact Bm25.score_pos_iff hln docs hhalf havg hk1 hb hb' queryTerms tokens

-- =============================================================== results

/-- What a sparse search is to return, of the hits before they are cut. -/
structure SparseResult (isAlphanumeric : Char → Bool)
    (stored : Chunk K → Prop) (query : SearchQuery K)
    (all : List (SearchHit K)) : Prop where
  chunks : ∀ c, c ∈ all.map SearchHit.chunk ↔ stored c
    ∧ query.wants c.domain = true
    ∧ SharesToken isAlphanumeric query.text c.text
  once : (all.map fun h => h.chunk.id).Nodup
  positive : ∀ h ∈ all, 0 < h.score
  descends : all.Pairwise fun a b => b.score ≤ a.score

omit [IsStrictOrderedRing K] in
/-- No token is shared where there are none. -/
theorem sparseResult_nil {isAlphanumeric : Char → Bool}
    {values : List (Chunk K)} {query : SearchQuery K}
    (h : ∀ c ∈ values, query.wants c.domain = true →
      ¬ SharesToken isAlphanumeric query.text c.text) :
    SparseResult isAlphanumeric (· ∈ values) query [] where
  chunks := fun c => by
    refine iff_of_false List.not_mem_nil ?_
    rintro ⟨hc, hwants, hshares⟩
    exact h c hc hwants hshares
  once := List.nodup_nil
  positive := nofun
  descends := List.Pairwise.nil

omit [IsStrictOrderedRing K] in
/-- The chunks with a score that is not nothing, ranked. -/
theorem sparseResult_sorted {isAlphanumeric : Char → Bool}
    {values candidates : List (Chunk K)} {query : SearchQuery K}
    (hnd : (candidates.map Chunk.id).Nodup)
    (hmem : ∀ c, c ∈ candidates ↔ c ∈ values ∧ query.wants c.domain = true)
    (score : Chunk K → K)
    (hscore : ∀ c, 0 < score c
      ↔ SharesToken isAlphanumeric query.text c.text) :
    SparseResult isAlphanumeric (· ∈ values) query
      (sortBy (fun h : SearchHit K => OrderDual.toDual h.score)
        ((candidates.map fun c => (⟨c, score c⟩ : SearchHit K)).filter
          fun h => 0 < h.score)) where
  chunks := by
    intro c
    rw [List.mem_map]
    constructor
    · rintro ⟨h, hh, rfl⟩
      obtain ⟨hall, hpos⟩ := List.mem_filter.mp (mem_sortBy.mp hh)
      obtain ⟨c, hc, rfl⟩ := List.mem_map.mp hall
      obtain ⟨hvalue, hwants⟩ := (hmem c).mp hc
      exact ⟨hvalue, hwants, (hscore c).mp (of_decide_eq_true hpos)⟩
    · rintro ⟨hvalue, hwants, hshares⟩
      refine ⟨⟨c, score c⟩, mem_sortBy.mpr (List.mem_filter.mpr ⟨?_, ?_⟩), rfl⟩
      · exact List.mem_map_of_mem ((hmem c).mpr ⟨hvalue, hwants⟩)
      · exact decide_eq_true ((hscore c).mpr hshares)
  once := by
    refine ((sortBy_perm _ _).map _).nodup_iff.mpr ?_
    refine List.Nodup.sublist (List.filter_sublist.map _) ?_
    rw [List.map_map]
    exact hnd
  positive := by
    intro h hh
    exact of_decide_eq_true (List.mem_filter.mp (mem_sortBy.mp hh)).2
  descends := pairwise_sortBy
    (fun h : SearchHit K => OrderDual.toDual h.score) _

theorem bm25Search_result {std : Std K} (hln : ∀ x, 1 < x → 0 < std.ln x)
    {values : List (Chunk K)} (hnd : (values.map Chunk.id).Nodup)
    (query : SearchQuery K) :
    ∃ all, (∀ n, bm25Search std values { query with topK := n } = all.take n)
      ∧ SparseResult std.isAlphanumeric (· ∈ values) query all := by
  have hwants : ∀ n c, SearchQuery.wants { query with topK := n } c
      = query.wants c := fun _ _ => rfl
  unfold bm25Search
  simp only [hwants]
  generalize hcand : values.filter (fun c => query.wants c.domain) = candidates
  have hmem : ∀ c, c ∈ candidates ↔ c ∈ values
      ∧ query.wants c.domain = true := fun c => by
    rw [← hcand, List.mem_filter]
  generalize hdocs : candidates.map (fun c =>
    tokenize std.isAlphanumeric c.text) = docs
  have hlen : candidates.length = docs.length := by
    rw [← hdocs, List.length_map]
  split
  · next hn =>
      refine ⟨[], fun n => List.take_nil.symm, sparseResult_nil ?_⟩
      intro c hc hw
      have hno := List.length_eq_zero_iff.mp hn
      have hc := (hmem c).mpr ⟨hc, hw⟩
      rw [hno] at hc
      cases hc
  · split
    · next hempty =>
        refine ⟨[], fun n => List.take_nil.symm, sparseResult_nil ?_⟩
        rintro c - - ⟨t, ht, -⟩
        rw [List.isEmpty_iff.mp hempty] at ht
        cases ht
    · next hn _ =>
        have hnpos : (0 : K) < candidates.length :=
          Nat.cast_pos.mpr (Nat.pos_of_ne_zero hn)
        split
        · next havg =>
            refine ⟨[], fun n => List.take_nil.symm, sparseResult_nil ?_⟩
            rintro c hc hw ⟨t, -, ht⟩
            rw [div_eq_zero_iff, or_iff_left hnpos.ne', Nat.cast_eq_zero,
              List.sum_eq_zero_iff] at havg
            have hdoc : tokenize std.isAlphanumeric c.text ∈ docs :=
              hdocs ▸ List.mem_map_of_mem ((hmem c).mpr ⟨hc, hw⟩)
            have hnone := List.length_eq_zero_iff.mp
              (havg _ (List.mem_map_of_mem hdoc))
            rw [hnone] at ht
            cases ht
        · next havg =>
            have hpos : (0 : K) < ((docs.map List.length).sum : Nat)
                / candidates.length :=
              lt_of_le_of_ne (by positivity) (Ne.symm havg)
            generalize ((docs.map List.length).sum : Nat)
              / (candidates.length : K) = avgDl at hpos
            refine ⟨_, fun n => rfl, sparseResult_sorted ?_ hmem _ fun c => ?_⟩
            · rw [← hcand]
              exact hnd.sublist (List.filter_sublist.map _)
            · rw [hlen]
              exact bm25Score_pos_iff hln docs hpos _ _

-- ================================================================ stores

/-- The values of the map of chunks, in the order of an iteration. -/
structure InMemoryKb.Lists (kb : InMemoryKb K) (values : List (Chunk K)) :
    Prop where
  once : (values.map Chunk.id).Nodup
  values : ∀ c, c ∈ values ↔ kb.chunks c.id = some c

/-- The standard library, over the reals. -/
noncomputable def realStd (isAlphanumeric isUppercase : Char → Bool) : Std ℝ :=
  ⟨isAlphanumeric, isUppercase, Real.log, Real.sqrt⟩

/-- A sparse search of any store, and the cut: the best of the hits, as many
as are asked for or as there are. -/
theorem bm25Search_finds (isAlphanumeric isUppercase : Char → Bool)
    (kb : InMemoryKb ℝ) (values : List (Chunk ℝ)) (hlists : kb.Lists values)
    (query : SearchQuery ℝ) :
    ∃ all, SparseResult isAlphanumeric (fun c => kb.chunks c.id = some c) query
        all
      ∧ ∀ topK hits, bm25Search (realStd isAlphanumeric isUppercase) values
          { query with topK := topK } = hits →
        hits = all.take topK ∧ hits.length = min topK all.length
          ∧ ∀ a ∈ hits, ∀ b ∈ all.drop topK, b.score ≤ a.score := by
  have hln : ∀ x, 1 < x → 0 < (realStd isAlphanumeric isUppercase).ln x :=
    fun x => Real.log_pos
  obtain ⟨all, hall, hresult⟩ := bm25Search_result hln hlists.once query
  refine ⟨all, ?_, fun topK hits hhits => ?_⟩
  · exact { hresult with
      chunks := fun c => by
        rw [hresult.chunks, hlists.values]
        rfl }
  · rw [← hhits, hall]
    refine ⟨rfl, List.length_take, ?_⟩
    have hsorted := hresult.descends
    rw [← List.take_append_drop topK all, List.pairwise_append] at hsorted
    exact hsorted.2.2

omit [Field K] [LinearOrder K] [IsStrictOrderedRing K] in
/-- What upserts leave is listed. -/
theorem valuesAfter_lists (o : IterOrder (Chunk K))
    (contentHash : String → String) (batches : List (UpsertBatch K)) :
    (kbAfter contentHash batches).Lists (valuesAfter o contentHash batches) where
  once := valuesAfter_nodup o contentHash batches
  values := fun _ => mem_valuesAfter

/-- A store of one chunk. -/
theorem one_chunk_finds : ∃ all : List (SearchHit ℝ),
    SparseResult Char.isAlphanum (fun c => (kbAfter id
      [⟨[], [⟨"a", "d", .sapHelp, 0, "close the period", none, [], "t", "u"⟩]⟩]
        ).chunks c.id = some c) (.ofText "period" 5) all := by
  obtain ⟨all, h, -⟩ := bm25Search_finds Char.isAlphanum Char.isUpper _ _
    (valuesAfter_lists .listed id _) (.ofText "period" 5)
  exact ⟨all, h⟩

end SapAutomate.Kb
