/-
Reciprocal rank fusion is what its definition says
(`sap-automate-rag/src/lib.rs`): an id gets, for each ranking it is in,
the reciprocal of its rank there, and ids are ranked by what they get.
-/
import SapAutomate.Proofs.FusionOrder
import Mathlib.Algebra.Order.Field.Basic
import Mathlib.Algebra.Order.Field.Rat
import Mathlib.Tactic.Positivity
import Mathlib.Tactic.Ring

namespace SapAutomate.Rag

open Iteration Kb

variable {K : Type}

-- ================================================================ ranks

/-- The ids of a ranking. -/
def hitIds (hits : List (SearchHit K)) : List ChunkId :=
  hits.map fun h => h.chunk.id

/-- The rank of an id, the first being 0. -/
def rankOf (hits : List (SearchHit K)) (id : ChunkId) : Option Nat :=
  hits.findIdx? fun h => h.chunk.id = id

theorem rankOf_eq_none_iff {hits : List (SearchHit K)} {id : ChunkId} :
    rankOf hits id = none ↔ id ∉ hitIds hits := by
  rw [rankOf, List.findIdx?_eq_none_iff, hitIds, List.mem_map]
  constructor
  · rintro h ⟨x, hx, rfl⟩
    simpa using h x hx
  · intro h x hx
    exact decide_eq_false fun hid => h ⟨x, hx, hid⟩

section Score

variable [Field K]

/-- What an id of this rank gets. -/
def reciprocal (k : K) : Option Nat → K
  | some rank => 1 / (k + rank + 1)
  | none => 0

@[simp]
theorem reciprocal_none (k : K) : reciprocal k none = 0 := rfl

theorem reciprocal_map_succ (k : K) (r : Option Nat) (n : Nat) :
    reciprocal (k + n) (r.map (· + 1)) = reciprocal (k + (n + 1 : Nat)) r := by
  cases r with
  | none => rfl
  | some r =>
      simp only [Option.map_some, reciprocal, Nat.cast_add, Nat.cast_one]
      congr 1
      ring

/-- The contributions of a ranking that goes on from the rank `n`. -/
theorem contributed_from (k : K) {hits : List (SearchHit K)}
    (hnd : (hitIds hits).Nodup) (n : Nat) (id : ChunkId) :
    contributed ((hits.zipIdx n).map fun h => (1 / (k + h.2 + 1), h.1)) id
      = reciprocal (k + n) (rankOf hits id) := by
  induction hits generalizing n with
  | nil => rfl
  | cons h hits ih =>
      obtain ⟨hnew, hnd⟩ := List.nodup_cons.mp hnd
      have hrest := ih hnd (n + 1)
      rw [contributed, amount] at hrest ⊢
      rw [List.zipIdx_cons, List.map_cons, List.map_cons, rankOf,
        List.findIdx?_cons]
      by_cases hid : h.chunk.id = id
      · have hnone : rankOf hits id = none := by
          rw [rankOf_eq_none_iff, ← hid]
          exact hnew
        rw [hnone] at hrest
        rw [List.filter_cons_of_pos (by simpa using hid), List.map_cons,
          List.sum_cons, hrest, if_pos (decide_eq_true hid)]
        simp only [reciprocal, Nat.cast_zero, add_zero]
      · rw [List.filter_cons_of_neg (by simpa using hid), hrest,
          if_neg (by simpa using hid)]
        exact (reciprocal_map_succ k _ n).symm

theorem contributed_ranking (k : K) {hits : List (SearchHit K)}
    (hnd : (hitIds hits).Nodup) (id : ChunkId) :
    contributed (contributions k hits) id = reciprocal k (rankOf hits id) := by
  have h := contributed_from k hnd 0 id
  rwa [Nat.cast_zero, add_zero] at h

theorem contributed_append (xs ys : List (K × SearchHit K)) (id : ChunkId) :
    contributed (xs ++ ys) id = contributed xs id + contributed ys id := by
  simp only [contributed, amount, List.map_append, List.filter_append,
    List.sum_append]

/-- The score of an id: the sum over the rankings it is in. -/
theorem rankSum_eq (k : K) {dense sparse : List (SearchHit K)}
    (hdense : (hitIds dense).Nodup) (hsparse : (hitIds sparse).Nodup)
    (id : ChunkId) :
    rankSum dense sparse k id
      = reciprocal k (rankOf dense id) + reciprocal k (rankOf sparse id) := by
  rw [rankSum, contributed_append, contributed_ranking k hdense,
    contributed_ranking k hsparse]

end Score

-- ============================================================ dominance

section Dominance

variable [Field K] [LinearOrder K] [IsStrictOrderedRing K]

theorem reciprocal_pos {k : K} (hk : 1 ≤ k) (rank : Nat) :
    0 < reciprocal k (some rank) := by
  have hk : 0 < k := zero_lt_one.trans_le hk
  unfold reciprocal
  positivity

theorem reciprocal_anti {k : K} (hk : 1 ≤ k) {r r' : Nat} (h : r ≤ r') :
    reciprocal k (some r') ≤ reciprocal k (some r) := by
  have hk : 0 < k := zero_lt_one.trans_le hk
  have hcast : (r : K) ≤ r' := Nat.cast_le.mpr h
  refine one_div_le_one_div_of_le (by positivity) ?_
  gcongr

/-- Two ranks give more than one that is not better than both. -/
theorem reciprocal_lt_add {k : K} (hk : 1 ≤ k) {i j r : Nat}
    (h : min i j ≤ r) :
    reciprocal k (some r) < reciprocal k (some i) + reciprocal k (some j) := by
  rcases min_le_iff.mp h with hi | hj
  · calc reciprocal k (some r) ≤ reciprocal k (some i) := reciprocal_anti hk hi
      _ < _ := lt_add_of_pos_right _ (reciprocal_pos hk j)
  · calc reciprocal k (some r) ≤ reciprocal k (some j) := reciprocal_anti hk hj
      _ < _ := lt_add_of_pos_left _ (reciprocal_pos hk i)

end Dominance

-- ================================================================ fusion

variable [Field K] [LinearOrder K]

/-- The fused hits before the cap. -/
def fusedRanking (o : IterOrder (SearchHit K)) (dense sparse : List (SearchHit K))
    (k : K) : List (SearchHit K) :=
  sortBy (fun h => OrderDual.toDual h.score) (o.apply (fusedHits dense sparse k))

theorem fusedRanking_perm (o : IterOrder (SearchHit K))
    (dense sparse : List (SearchHit K)) (k : K) :
    (fusedRanking o dense sparse k).Perm (fusedHits dense sparse k) :=
  (sortBy_perm _ _).trans (o.perm _)

theorem fusedRanking_descends (o : IterOrder (SearchHit K))
    (dense sparse : List (SearchHit K)) (k : K) :
    (fusedRanking o dense sparse k).Pairwise fun a b => b.score ≤ a.score :=
  pairwise_sortBy (fun h : SearchHit K => OrderDual.toDual h.score) _

omit [Field K] in
/-- What has more comes first. -/
theorem sublist_of_score_lt {hits : List (SearchHit K)}
    (hsorted : hits.Pairwise fun a b => b.score ≤ a.score)
    {a b : SearchHit K} (ha : a ∈ hits) (hb : b ∈ hits)
    (h : b.score < a.score) : [a, b].Sublist hits := by
  obtain ⟨l, r, rfl⟩ := List.append_of_mem ha
  have hl := (List.pairwise_append.mp hsorted).2.2
  have hbr : b ∈ r := by
    rcases List.mem_append.mp hb with hb | hb
    · exact absurd (hl b hb a List.mem_cons_self) (not_le.mpr h)
    · rcases List.mem_cons.mp hb with rfl | hb
      · exact absurd h (lt_irrefl _)
      · exact hb
  exact ((List.singleton_sublist.mpr hbr).cons_cons a).trans
    (List.sublist_append_right l _)

/-- An id in both rankings, and one in only one of them, at a rank that is
not better than the best of the other id's. -/
def Dominates (dense sparse : List (SearchHit K)) (id id' : ChunkId) : Prop :=
  ∃ i j, rankOf dense id = some i ∧ rankOf sparse id = some j
    ∧ ∃ r, min i j ≤ r ∧ (rankOf dense id' = some r ∧ rankOf sparse id' = none
      ∨ rankOf dense id' = none ∧ rankOf sparse id' = some r)

/-- What fusion is to be, of the hits before the cap. -/
structure Fuses (dense sparse : List (SearchHit K)) (k : K)
    (all : List (SearchHit K)) : Prop where
  once : (hitIds all).Nodup
  union : ∀ id, id ∈ hitIds all ↔ id ∈ hitIds dense ∨ id ∈ hitIds sparse
  chunk : ∀ h ∈ all, ∃ h' ∈ dense ++ sparse, h'.chunk = h.chunk
  score : ∀ h ∈ all, h.score = reciprocal k (rankOf dense h.chunk.id)
    + reciprocal k (rankOf sparse h.chunk.id)
  descends : all.Pairwise fun a b => b.score ≤ a.score
  dominates : ∀ a ∈ all, ∀ b ∈ all,
    Dominates dense sparse a.chunk.id b.chunk.id →
      b.score < a.score ∧ [a, b].Sublist all

theorem fusedRanking_fuses [IsStrictOrderedRing K] (o : IterOrder (SearchHit K))
    {dense sparse : List (SearchHit K)} {k : K}
    (hdense : (hitIds dense).Nodup) (hsparse : (hitIds sparse).Nodup)
    (hk : 1 ≤ k) : Fuses dense sparse k (fusedRanking o dense sparse k) := by
  have hperm := fusedRanking_perm o dense sparse k
  have hids : (hitIds (fusedRanking o dense sparse k)).Perm
      (rankedIds dense sparse) := (hperm.map _).trans (fusedHits_ids _ _ _)
  have hscore : ∀ h ∈ fusedRanking o dense sparse k,
      h.score = reciprocal k (rankOf dense h.chunk.id)
        + reciprocal k (rankOf sparse h.chunk.id) := by
    intro h hh
    rw [← rankSum_eq k hdense hsparse]
    exact (mem_fusedHits (hperm.mem_iff.mp hh)).1
  constructor
  case once => exact hids.nodup_iff.mpr (List.nodup_dedup _)
  case union =>
    intro id
    rw [hids.mem_iff, rankedIds, List.mem_dedup, List.map_append,
      List.mem_append]
    rfl
  case chunk => exact fun h hh => (mem_fusedHits (hperm.mem_iff.mp hh)).2
  case score => exact hscore
  case descends => exact fusedRanking_descends o dense sparse k
  case dominates =>
    rintro a ha b hb ⟨i, j, hi, hj, r, hr, hb'⟩
    have hlt : b.score < a.score := by
      rw [hscore a ha, hscore b hb, hi, hj]
      rcases hb' with ⟨hd, hs⟩ | ⟨hd, hs⟩
      · rw [hd, hs, reciprocal_none, add_zero]
        exact reciprocal_lt_add hk hr
      · rw [hd, hs, reciprocal_none, zero_add]
        exact reciprocal_lt_add hk hr
    exact ⟨hlt, sublist_of_score_lt
      (fusedRanking_descends o dense sparse k) ha hb hlt⟩

/-- The cap keeps the first of the fused hits, and these are what fusion is
to be; the rankings the other way round give each id the same score. -/
theorem reciprocalRankFusion_fuses (o o' : IterOrder (SearchHit ℚ))
    (dense sparse : List (SearchHit ℚ)) (k : ℚ)
    (hdense : (hitIds dense).Nodup) (hsparse : (hitIds sparse).Nodup)
    (hk : 1 ≤ k) :
    ∃ all swapped : List (SearchHit ℚ),
      (∀ cap, reciprocalRankFusion o dense sparse k cap = all.take cap)
        ∧ (∀ cap, reciprocalRankFusion o' sparse dense k cap
          = swapped.take cap)
        ∧ Fuses dense sparse k all
        ∧ (hitIds swapped).Perm (hitIds all)
        ∧ ∀ a ∈ all, ∀ b ∈ swapped, a.chunk.id = b.chunk.id →
          a.score = b.score := by
  have hfuses := fusedRanking_fuses o hdense hsparse hk
  have hswapped := fusedRanking_fuses o' hsparse hdense hk
  refine ⟨_, _, fun _ => rfl, fun _ => rfl, hfuses, ?_, ?_⟩
  · refine (List.perm_ext_iff_of_nodup hswapped.once hfuses.once).mpr
      fun id => ?_
    rw [hswapped.union, hfuses.union, or_comm]
  · intro a ha b hb hid
    rw [hfuses.score a ha, hswapped.score b hb, hid, add_comm]

/-- One id of both rankings, and one of the first alone. -/
theorem consensus_fuses : ∃ all,
    Fuses [hitOf "a", hitOf "b"] [hitOf "b"] (60 : ℚ) all
      ∧ ∀ cap, reciprocalRankFusion .listed [hitOf "a", hitOf "b"]
        [hitOf "b"] 60 cap = all.take cap := by
  obtain ⟨all, -, hcap, -, hfuses, -⟩ := reciprocalRankFusion_fuses .listed
    .listed [hitOf "a", hitOf "b"] [hitOf "b"] 60 (by decide) (by decide)
    (by decide)
  exact ⟨all, hfuses, hcap⟩

end SapAutomate.Rag
