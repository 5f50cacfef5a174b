/-
Reciprocal rank fusion (`sap-automate-rag/src/lib.rs`): what two rankings
say about a chunk is summed up in a map by its id, and the sums are ranked.
-/
import SapAutomate.Kb.Search

namespace SapAutomate.Rag

open Iteration Kb

variable {K : Type} [Field K]

/-- The hits of a ranking, each with what its rank contributes. -/
def contributions (k : K) (hits : List (SearchHit K)) :
    List (K × SearchHit K) :=
  hits.zipIdx.map fun h => (1 / (k + h.2 + 1), h.1)

/-- `fused_scores.entry(id)`: a contribution added to the entry with this
id, or a new entry. -/
def fuseInto (m : List (K × SearchHit K)) (x : K × SearchHit K) :
    List (K × SearchHit K) :=
  if m.any fun e => e.2.chunk.id = x.2.chunk.id then
    m.map fun e => if e.2.chunk.id = x.2.chunk.id then (e.1 + x.1, e.2) else e
  else m ++ [x]

/-- `fused_scores`. -/
def fusedScores (dense sparse : List (SearchHit K)) (k : K) :
    List (K × SearchHit K) :=
  (contributions k dense ++ contributions k sparse).foldl fuseInto []

/-- The hits of the map, each with its sum as its score. -/
def fusedHits (dense sparse : List (SearchHit K)) (k : K) :
    List (SearchHit K) :=
  (fusedScores dense sparse k).map fun e => { e.2 with score := e.1 }

/-- `reciprocal_rank_fusion`, with the map gone through in this order. -/
def reciprocalRankFusion [LinearOrder K] (o : IterOrder (SearchHit K))
    (dense sparse : List (SearchHit K)) (k : K) (cap : Nat) :
    List (SearchHit K) :=
  ranked (o.apply (fusedHits dense sparse k)) cap

-- ================================================================ entries

/-- What the contributions to an id come to. -/
def contributed (xs : List (K × SearchHit K)) (id : ChunkId) : K :=
  amount (xs.map fun x => (x.2.chunk.id, x.1)) id

theorem contributed_snoc (xs : List (K × SearchHit K)) (x : K × SearchHit K)
    (id : ChunkId) :
    contributed (xs ++ [x]) id
      = if x.2.chunk.id = id then contributed xs id + x.1
        else contributed xs id := by
  unfold contributed amount
  rw [List.map_append, List.filter_append, List.map_append, List.sum_append]
  by_cases hid : x.2.chunk.id = id
  · simp [hid]
  · simp [hid]

/-- The map holds each id once, with the sum of its contributions and a hit
that made one. -/
structure Fused (m xs : List (K × SearchHit K)) : Prop where
  nodup : (m.map fun e => e.2.chunk.id).Nodup
  ids : ∀ id, (∃ e ∈ m, e.2.chunk.id = id) ↔ ∃ x ∈ xs, x.2.chunk.id = id
  score : ∀ e ∈ m, e.1 = contributed xs e.2.chunk.id
  hit : ∀ e ∈ m, ∃ x ∈ xs, x.2 = e.2

theorem Fused.fuseInto {m xs : List (K × SearchHit K)} (h : Fused m xs)
    (x : K × SearchHit K) : Fused (fuseInto m x) (xs ++ [x]) := by
  unfold Rag.fuseInto
  by_cases hany : m.any (fun e => e.2.chunk.id = x.2.chunk.id) = true
  · rw [if_pos hany]
    obtain ⟨e₀, he₀, hid₀⟩ := List.any_eq_true.mp hany
    have hid₀ : e₀.2.chunk.id = x.2.chunk.id := of_decide_eq_true hid₀
    have hhit : ∀ e : K × SearchHit K,
        (if e.2.chunk.id = x.2.chunk.id then (e.1 + x.1, e.2) else e).2
          = e.2 := by
      intro e
      split <;> rfl
    refine ⟨?_, fun id => ?_, ?_, ?_⟩
    · rw [List.map_map]
      have hids : ((fun e : K × SearchHit K => e.2.chunk.id) ∘ fun e =>
          if e.2.chunk.id = x.2.chunk.id then (e.1 + x.1, e.2) else e)
          = fun e => e.2.chunk.id := by
        funext e
        exact congrArg (fun h => h.chunk.id) (hhit e)
      rw [hids]
      exact h.nodup
    · constructor
      · rintro ⟨e, he, rfl⟩
        obtain ⟨e', he', rfl⟩ := List.mem_map.mp he
        obtain ⟨y, hy, hid⟩ := (h.ids e'.2.chunk.id).mp ⟨e', he', rfl⟩
        rw [hhit e']
        exact ⟨y, List.mem_append_left _ hy, hid⟩
      · rintro ⟨y, hy, rfl⟩
        obtain ⟨e, he, hid⟩ : ∃ e ∈ m, e.2.chunk.id = y.2.chunk.id := by
          rcases List.mem_append.mp hy with hy | hy
          · exact (h.ids _).mpr ⟨y, hy, rfl⟩
          · rw [List.mem_singleton.mp hy]
            exact ⟨e₀, he₀, hid₀⟩
        refine ⟨_, List.mem_map.mpr ⟨e, he, rfl⟩, ?_⟩
        rw [hhit e]
        exact hid
    · intro e he
      obtain ⟨e', he', rfl⟩ := List.mem_map.mp he
      rw [hhit e', contributed_snoc, ← h.score e' he']
      by_cases hid : e'.2.chunk.id = x.2.chunk.id
      · rw [if_pos hid, if_pos hid.symm]
      · rw [if_neg hid, if_neg (Ne.symm hid)]
    · intro e he
      obtain ⟨e', he', rfl⟩ := List.mem_map.mp he
      rw [hhit e']
      obtain ⟨y, hy, heq⟩ := h.hit e' he'
      exact ⟨y, List.mem_append_left _ hy, heq⟩
  · rw [if_neg hany]
    have hnew : ∀ e ∈ m, e.2.chunk.id ≠ x.2.chunk.id := by
      intro e he hid
      exact hany (List.any_eq_true.mpr ⟨e, he, decide_eq_true hid⟩)
    have hnone : contributed xs x.2.chunk.id = 0 := by
      refine amount_of_notMem fun y hy => ?_
      obtain ⟨z, hz, rfl⟩ := List.mem_map.mp hy
      intro hid
      obtain ⟨e, he, heq⟩ := (h.ids _).mpr ⟨z, hz, hid⟩
      exact hnew e he heq
    refine ⟨?_, fun id => ?_, ?_, ?_⟩
    · rw [List.map_append, List.nodup_append]
      refine ⟨h.nodup, List.nodup_singleton _, ?_⟩
      intro id hid id' hid' heq
      obtain ⟨e, he, rfl⟩ := List.mem_map.mp hid
      exact hnew e he (heq.trans (List.mem_singleton.mp hid'))
    · have hids := h.ids id
      simp only [List.mem_append, List.mem_singleton, or_and_right,
        exists_or, exists_eq_left]
      rw [hids]
    · intro e he
      rw [contributed_snoc]
      rcases List.mem_append.mp he with he | he
      · rw [if_neg (Ne.symm (hnew e he))]
        exact h.score e he
      · rw [List.mem_singleton.mp he, if_pos rfl, hnone, zero_add]
    · intro e he
      rcases List.mem_append.mp he with he | he
      · obtain ⟨y, hy, heq⟩ := h.hit e he
        exact ⟨y, List.mem_append_left _ hy, heq⟩
      · exact ⟨e, List.mem_append_right _ he, rfl⟩

theorem fused_spec (dense sparse : List (SearchHit K)) (k : K) :
    Fused (fusedScores dense sparse k)
      (contributions k dense ++ contributions k sparse) := by
  unfold fusedScores
  induction contributions k dense ++ contributions k sparse using
    List.reverseRecOn with
  | nil => exact ⟨List.nodup_nil, fun id => Iff.rfl, nofun, nofun⟩
  | append_singleton xs x ih =>
      rw [List.foldl_append]
      exact ih.fuseInto x

theorem mem_contributions {k : K} {hits : List (SearchHit K)}
    {h : SearchHit K} : (∃ x ∈ contributions k hits, x.2 = h) ↔ h ∈ hits := by
  unfold contributions
  constructor
  · rintro ⟨x, hx, rfl⟩
    obtain ⟨y, hy, rfl⟩ := List.mem_map.mp hx
    exact (List.mem_zipIdx' hy).2 ▸ List.getElem_mem _
  · intro hmem
    obtain ⟨i, hi, rfl⟩ := List.mem_iff_getElem.mp hmem
    exact ⟨_, List.mem_map.mpr ⟨(hits[i], i), List.mem_zipIdx_iff_getElem?.mpr
      (by simp [hi]), rfl⟩, rfl⟩

end SapAutomate.Rag
