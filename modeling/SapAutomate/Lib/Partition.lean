/-
Lists that share out the entries of a list: none is empty, no entry is
twice in one or in two of them, and none is left out.

The order of the lists does not matter (`perm`), nor the order in each
(`map_perm`). Collecting by a key partitions (`collect`).
-/
import SapAutomate.Lib.Iteration

/-- The lists partition the entries of `l`. -/
structure Partitions {α : Type} (ls : List (List α)) (l : List α) : Prop where
  nonempty : ∀ m ∈ ls, m ≠ []
  nodup : ∀ m ∈ ls, m.Nodup
  disjoint : ls.Pairwise List.Disjoint
  cover : ∀ a, a ∈ l ↔ ∃ m ∈ ls, a ∈ m

namespace Partitions

open Iteration

variable {α κ : Type} {ls ls' : List (List α)} {l l' : List α}

theorem perm (h : Partitions ls l) (hperm : ls.Perm ls') :
    Partitions ls' l where
  nonempty := fun m hm => h.nonempty m (hperm.mem_iff.mpr hm)
  nodup := fun m hm => h.nodup m (hperm.mem_iff.mpr hm)
  disjoint := (hperm.pairwise_iff fun hd => List.disjoint_comm.mp hd).mp
    h.disjoint
  cover := fun a => by
    rw [h.cover]
    simp only [hperm.mem_iff]

theorem of_perm (h : Partitions ls l) (hperm : l.Perm l') :
    Partitions ls l' :=
  ⟨h.nonempty, h.nodup, h.disjoint, fun a => by rw [← hperm.mem_iff, h.cover]⟩

theorem map_perm (h : Partitions ls l) {f : List α → List α}
    (hf : ∀ m, (f m).Perm m) : Partitions (ls.map f) l where
  nonempty := fun m hm => by
    obtain ⟨m', hm', rfl⟩ := List.mem_map.mp hm
    intro hnil
    have hperm := hf m'
    rw [hnil] at hperm
    exact h.nonempty m' hm' hperm.nil_eq.symm
  nodup := fun m hm => by
    obtain ⟨m', hm', rfl⟩ := List.mem_map.mp hm
    exact (hf m').nodup_iff.mpr (h.nodup m' hm')
  disjoint := by
    refine List.pairwise_map.mpr (h.disjoint.imp fun hd a ha ha' => ?_)
    exact hd ((hf _).mem_iff.mp ha) ((hf _).mem_iff.mp ha')
  cover := fun a => by
    rw [h.cover]
    constructor
    · rintro ⟨m, hm, ha⟩
      exact ⟨f m, List.mem_map.mpr ⟨m, hm, rfl⟩, (hf m).mem_iff.mpr ha⟩
    · rintro ⟨m, hm, ha⟩
      obtain ⟨m', hm', rfl⟩ := List.mem_map.mp hm
      exact ⟨m', hm', (hf m').mem_iff.mp ha⟩

/-- Each entry on its own. -/
theorem singletons (hnd : l.Nodup) : Partitions (l.map fun a => [a]) l where
  nonempty := fun m hm => by
    obtain ⟨a, -, rfl⟩ := List.mem_map.mp hm
    exact List.cons_ne_nil a []
  nodup := fun m hm => by
    obtain ⟨a, -, rfl⟩ := List.mem_map.mp hm
    exact List.nodup_singleton a
  disjoint := by
    refine List.pairwise_map.mpr (hnd.imp fun hne c hc hc' => hne ?_)
    exact (List.mem_singleton.mp hc).symm.trans (List.mem_singleton.mp hc')
  cover := fun a => by
    constructor
    · exact fun ha => ⟨[a], List.mem_map.mpr ⟨a, ha, rfl⟩, by simp⟩
    · rintro ⟨m, hm, ha⟩
      obtain ⟨b, hb, rfl⟩ := List.mem_map.mp hm
      rw [List.mem_singleton.mp ha]
      exact hb

/-- The entries under each key. -/
theorem collect [DecidableEq κ] {xs : List (α × κ)}
    (hnd : (xs.map Prod.fst).Nodup) :
    Partitions ((Iteration.collect xs).map Prod.snd) (xs.map Prod.fst) := by
  have hform : (Iteration.collect xs).map Prod.snd
      = ((xs.map Prod.snd).dedup).map fun k =>
        (xs.filter fun x => x.2 = k).map Prod.fst := by
    unfold Iteration.collect
    rw [List.map_map]
    rfl
  have hkey : ∀ {k : κ} {x : α × κ},
      x ∈ xs.filter (fun x => x.2 = k) ↔ x ∈ xs ∧ x.2 = k := by
    intro k x
    rw [List.mem_filter, decide_eq_true_eq]
  rw [hform]
  constructor
  · intro m hm
    obtain ⟨k, hk, rfl⟩ := List.mem_map.mp hm
    obtain ⟨x, hx, hxk⟩ := List.mem_map.mp (List.mem_dedup.mp hk)
    exact List.ne_nil_of_mem
      (List.mem_map.mpr ⟨x, hkey.mpr ⟨hx, hxk⟩, rfl⟩)
  · intro m hm
    obtain ⟨k, -, rfl⟩ := List.mem_map.mp hm
    exact hnd.sublist (List.filter_sublist.map _)
  · refine List.pairwise_map.mpr ((List.nodup_dedup _).imp fun hne a ha ha' => ?_)
    obtain ⟨x, hx, rfl⟩ := List.mem_map.mp ha
    obtain ⟨y, hy, hyx⟩ := List.mem_map.mp ha'
    obtain ⟨hx, hxk⟩ := hkey.mp hx
    obtain ⟨hy, hyk⟩ := hkey.mp hy
    have heq : y = x := List.inj_on_of_nodup_map hnd hy hx hyx
    exact hne (by rw [← hxk, ← hyk, heq])
  · intro a
    constructor
    · intro ha
      obtain ⟨x, hx, rfl⟩ := List.mem_map.mp ha
      have hmem : x.2 ∈ (xs.map Prod.snd).dedup :=
        List.mem_dedup.mpr (List.mem_map.mpr ⟨x, hx, rfl⟩)
      exact ⟨_, List.mem_map.mpr ⟨x.2, hmem, rfl⟩,
        List.mem_map.mpr ⟨x, hkey.mpr ⟨hx, rfl⟩, rfl⟩⟩
    · rintro ⟨m, hm, ha⟩
      obtain ⟨k, -, rfl⟩ := List.mem_map.mp hm
      obtain ⟨x, hx, rfl⟩ := List.mem_map.mp ha
      exact List.mem_map.mpr ⟨x, (hkey.mp hx).1, rfl⟩

end Partitions

/-- All numbers below a bound, each once. -/
theorem Iteration.perm_range {l : List Nat} (hnd : l.Nodup) {n : Nat}
    (h : ∀ i, i ∈ l ↔ i < n) : l.Perm (List.range l.length) := by
  have hperm : l.Perm (List.range n) := by
    refine (List.perm_ext_iff_of_nodup hnd List.nodup_range).mpr fun i => ?_
    rw [h, List.mem_range]
  have hlen : l.length = n := hperm.length_eq.trans List.length_range
  rw [hlen]
  exact hperm
