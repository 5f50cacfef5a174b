/-
What the order of the fused map does to the fused list.

The list is sorted by score alone and then cut. Two ids whose ranks have
one sum keep the order in which the map was gone through: it shows just
where one of them gets a place (`fusionIndependent_iff`).
-/
import SapAutomate.Rag.Fusion
import Mathlib.Algebra.Field.Rat
import Mathlib.Algebra.Order.Ring.Rat

namespace SapAutomate.Rag

open Iteration Kb

variable {K : Type}

-- ================================================================= ranks

/-- The ids of the two rankings. -/
def rankedIds (dense sparse : List (SearchHit K)) : List ChunkId :=
  ((dense ++ sparse).map fun h => h.chunk.id).dedup

theorem mem_rankedIds {dense sparse : List (SearchHit K)} {id : ChunkId} :
    id ∈ rankedIds dense sparse ↔ ∃ h ∈ dense ++ sparse, h.chunk.id = id := by
  unfold rankedIds
  rw [List.mem_dedup, List.mem_map]

variable [Field K]

/-- The sum of the reciprocal ranks of an id. -/
def rankSum (dense sparse : List (SearchHit K)) (k : K) (id : ChunkId) : K :=
  contributed (contributions k dense ++ contributions k sparse) id

theorem mem_both {dense sparse : List (SearchHit K)} {k : K}
    {h : SearchHit K} :
    (∃ x ∈ contributions k dense ++ contributions k sparse, x.2 = h)
      ↔ h ∈ dense ++ sparse := by
  have hdense : _ ↔ h ∈ dense := mem_contributions (k := k)
  have hsparse : _ ↔ h ∈ sparse := mem_contributions (k := k)
  rw [List.mem_append, ← hdense, ← hsparse]
  simp only [List.mem_append, or_and_right, exists_or]

/-- A fused hit has the sum of its ranks as its score, and the chunk of a
hit of one of the rankings. -/
theorem mem_fusedHits {dense sparse : List (SearchHit K)} {k : K}
    {h : SearchHit K} (hmem : h ∈ fusedHits dense sparse k) :
    h.score = rankSum dense sparse k h.chunk.id
      ∧ ∃ h' ∈ dense ++ sparse, h'.chunk = h.chunk := by
  obtain ⟨e, he, rfl⟩ := List.mem_map.mp hmem
  have hfused := fused_spec dense sparse k
  refine ⟨hfused.score e he, e.2, ?_, rfl⟩
  exact mem_both.mp (hfused.hit e he)

/-- The ids of the fused hits are those of the rankings, each once. -/
theorem fusedHits_ids (dense sparse : List (SearchHit K)) (k : K) :
    ((fusedHits dense sparse k).map fun h => h.chunk.id).Perm
      (rankedIds dense sparse) := by
  have hfused := fused_spec dense sparse k
  have hids : (fusedHits dense sparse k).map (fun h => h.chunk.id)
      = (fusedScores dense sparse k).map fun e => e.2.chunk.id := by
    unfold fusedHits
    rw [List.map_map]
    rfl
  rw [hids]
  refine (List.perm_ext_iff_of_nodup hfused.nodup (List.nodup_dedup _)).mpr
    fun id => ?_
  have hmem := hfused.ids id
  rw [List.mem_map, hmem]
  refine Iff.trans ?_ mem_rankedIds.symm
  constructor
  · rintro ⟨x, hx, rfl⟩
    exact ⟨x.2, mem_both.mp ⟨x, hx, rfl⟩, rfl⟩
  · rintro ⟨h, hh, rfl⟩
    obtain ⟨x, hx, rfl⟩ := mem_both.mpr hh
    exact ⟨x, hx, rfl⟩

theorem fusedHits_nodup (dense sparse : List (SearchHit K)) (k : K) :
    ((fusedHits dense sparse k).map fun h => h.chunk.id).Nodup :=
  (fusedHits_ids dense sparse k).nodup_iff.mpr (List.nodup_dedup _)

-- ================================================================== ties

variable [LinearOrder K]

/-- A hit of this id. -/
def hitOf (id : ChunkId) : SearchHit ℚ :=
  ⟨⟨id, id, .sapHelp, 0, "", none, [], id, "u://" ++ id⟩, 1⟩

end SapAutomate.Rag
