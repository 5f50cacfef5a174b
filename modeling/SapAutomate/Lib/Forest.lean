/-
Forests, as they grow by pushes at the end: an empty one, or one with a
last tree, which is a label over a forest.

The rightmost path (`spine`) is the last tree, the last of its children,
and so on. A node grafted under the first `k` of it comes last in the
pre-order (`preorder_graft`), and its parent is the `k`th of them
(`parents_graft`).
-/
import Mathlib.Data.List.Basic
import Mathlib.Data.List.Range

/-- A forest. -/
inductive Forest (α : Type) where
  | nil
  | snoc (front : Forest α) (label : α) (children : Forest α)

namespace Forest

variable {α β : Type}

/-- The number of nodes. -/
def size : Forest α → Nat
  | nil => 0
  | snoc f _ kids => f.size + (1 + kids.size)

/-- The number of nodes without children. -/
def leaves : Forest α → Nat
  | nil => 0
  | snoc f _ nil => f.leaves + 1
  | snoc f _ (snoc g b kids) => f.leaves + (snoc g b kids).leaves

/-- The labels in pre-order. -/
def preorder : Forest α → List α
  | nil => []
  | snoc f a kids => f.preorder ++ a :: kids.preorder

/-- The trees, from the first. -/
def trees : Forest α → List (α × Forest α)
  | nil => []
  | snoc f a kids => f.trees ++ [(a, kids)]

/-- The same forest under other labels. -/
def map (g : α → β) : Forest α → Forest β
  | nil => nil
  | snoc f a kids => snoc (f.map g) (g a) (kids.map g)

/-- The places in the pre-order of the nodes of the rightmost path, where
the first node has place `base`. -/
def spine (base : Nat) : Forest α → List Nat
  | nil => []
  | snoc f _ kids => (base + f.size) :: kids.spine (base + f.size + 1)

/-- The places of the parents, in pre-order: `parent` is that of the trees
themselves. -/
def parents (base : Nat) (parent : Option Nat) : Forest α → List (Option Nat)
  | nil => []
  | snoc f _ kids => f.parents base parent
      ++ parent :: kids.parents (base + f.size + 1) (some (base + f.size))

/-- A node more, under the first `k` nodes of the rightmost path. -/
def graft : Nat → Forest α → α → Forest α
  | 0, f, x => snoc f x nil
  | _ + 1, nil, _ => nil
  | k + 1, snoc f a kids, x => snoc f a (kids.graft k x)

/-- The longest way down. -/
def height : Forest α → Nat
  | nil => 0
  | snoc f _ kids => max f.height (kids.height + 1)

theorem length_preorder (f : Forest α) : f.preorder.length = f.size := by
  induction f with
  | nil => rfl
  | snoc f a kids ihf ihk =>
      rw [preorder, List.length_append, List.length_cons, ihf, ihk, size]
      omega

theorem height_le_size (f : Forest α) : f.height ≤ f.size := by
  induction f with
  | nil => exact Nat.le_refl 0
  | snoc f a kids ihf ihk =>
      rw [height, size]
      omega

@[simp] theorem preorder_map (g : α → β) (f : Forest α) :
    (f.map g).preorder = f.preorder.map g := by
  induction f with
  | nil => rfl
  | snoc f a kids ihf ihk =>
      rw [map, preorder, preorder, ihf, ihk, List.map_append, List.map_cons]

@[simp] theorem size_map (g : α → β) (f : Forest α) :
    (f.map g).size = f.size := by
  induction f with
  | nil => rfl
  | snoc f a kids ihf ihk => rw [map, size, size, ihf, ihk]

@[simp] theorem parents_map (g : α → β) (f : Forest α) (base : Nat)
    (parent : Option Nat) :
    (f.map g).parents base parent = f.parents base parent := by
  induction f generalizing base parent with
  | nil => rfl
  | snoc f a kids ihf ihk =>
      rw [map, parents, parents, ihf, ihk, size_map]

-- =============================================================== parents

theorem mem_parents {f : Forest α} {base : Nat} {parent : Option Nat}
    {q : Option Nat} (hq : q ∈ f.parents base parent) :
    q = parent ∨ ∃ i, q = some (base + i) ∧ i < f.size := by
  induction f generalizing base parent with
  | nil => cases hq
  | snoc f a kids ihf ihk =>
      rw [parents] at hq
      rcases List.mem_append.mp hq with hq | hq
      · rcases ihf hq with h | ⟨i, rfl, hi⟩
        · exact .inl h
        · exact .inr ⟨i, rfl, by rw [size]; omega⟩
      rcases List.mem_cons.mp hq with h | hq
      · exact .inl h
      rcases ihk hq with rfl | ⟨i, rfl, hi⟩
      · exact .inr ⟨f.size, rfl, by rw [size]; omega⟩
      · refine .inr ⟨f.size + 1 + i, ?_, by rw [size]; omega⟩
        congr 1
        omega

/-- The trees of a forest that is not empty have a parent. -/
theorem parent_mem {f : Forest α} (hf : f ≠ nil) (base : Nat)
    (parent : Option Nat) : parent ∈ f.parents base parent := by
  cases f with
  | nil => exact absurd rfl hf
  | snoc f a kids => exact List.mem_append_right _ List.mem_cons_self

theorem leaves_snoc (f : Forest α) (a : α) (kids : Forest α) :
    (f.snoc a kids).leaves
      = f.leaves + ((if kids.size = 0 then 1 else 0) + kids.leaves) := by
  cases kids with
  | nil => rfl
  | snoc g b kids =>
      rw [leaves, if_neg (by rw [size]; omega), Nat.zero_add]

theorem front_mem_parents {f kids : Forest α} {a : α} {base : Nat}
    {parent : Option Nat} (hp : ∀ i, parent = some i → i < base) {i : Nat}
    (hi : i < f.size) :
    some (base + i) ∈ (f.snoc a kids).parents base parent
      ↔ some (base + i) ∈ f.parents base parent := by
  rw [parents, List.mem_append, List.mem_cons, or_iff_left]
  rintro (h | h)
  · have hlt := hp _ h.symm
    omega
  · rcases mem_parents h with h | ⟨j, h, -⟩
    · have heq := Option.some.inj h
      omega
    · have heq := Option.some.inj h
      omega

theorem kids_mem_parents {f kids : Forest α} {a : α} {base : Nat}
    {parent : Option Nat} (hp : ∀ i, parent = some i → i < base) (i : Nat) :
    some (base + (f.size + i)) ∈ (f.snoc a kids).parents base parent
      ↔ some (base + (f.size + i))
        ∈ kids.parents (base + f.size + 1) (some (base + f.size)) := by
  rw [parents, List.mem_append, List.mem_cons, or_iff_right, or_iff_right]
  · intro h
    have hlt := hp _ h.symm
    omega
  · intro h
    rcases mem_parents h with h | ⟨j, h, hj⟩
    · have hlt := hp _ h.symm
      omega
    · have heq := Option.some.inj h
      omega

theorem last_mem_parents {f kids : Forest α} {a : α} {base : Nat}
    {parent : Option Nat} (hp : ∀ i, parent = some i → i < base) :
    some (base + (f.size + 0)) ∈ (f.snoc a kids).parents base parent
      ↔ kids.size ≠ 0 := by
  rw [kids_mem_parents hp 0]
  constructor
  · intro h hzero
    cases kids with
    | nil => cases h
    | snoc g b kids =>
        rw [size] at hzero
        omega
  · intro hne
    refine parent_mem ?_ _ _
    rintro rfl
    exact hne rfl

theorem leaves_pos {f : Forest α} (hf : f ≠ nil) : 0 < f.leaves := by
  induction f with
  | nil => exact absurd rfl hf
  | snoc f a kids _ ihk =>
      rw [leaves_snoc]
      cases kids with
      | nil =>
          have hsize : (nil : Forest α).size = 0 := rfl
          rw [if_pos hsize]
          omega
      | snoc g b kids =>
          have hpos := ihk (fun h => nomatch h)
          omega

/-- The leaves are the nodes that are no parents. -/
theorem leaves_eq (f : Forest α) {base : Nat} {parent : Option Nat}
    (hp : ∀ i, parent = some i → i < base) :
    f.leaves = ((List.range f.size).filter fun i =>
      some (base + i) ∉ f.parents base parent).length := by
  induction f generalizing base parent with
  | nil => rfl
  | snoc f a kids ihf ihk =>
      have hlast : ∀ i, some (base + f.size) = some i →
          i < base + f.size + 1 := by
        intro i hi
        rw [← Option.some.inj hi]
        omega
      have hbelow := ihk hlast
      rw [leaves_snoc, size, List.range_add, List.filter_append,
        List.length_append, ihf hp, hbelow, List.filter_map,
        List.length_map, Nat.add_comm 1 kids.size, List.range_succ_eq_map]
      congr 1
      · refine congrArg List.length (List.filter_congr fun i hi => ?_)
        rw [decide_eq_decide, front_mem_parents hp (List.mem_range.mp hi)]
      · rw [List.filter_cons, List.filter_map, apply_ite List.length,
          List.length_cons, List.length_map]
        have hrest : ((List.range kids.size).filter fun i =>
            some (base + f.size + 1 + i)
              ∉ kids.parents (base + f.size + 1) (some (base + f.size)))
            = (List.range kids.size).filter fun i =>
              some (base + (f.size + i.succ))
                ∉ (f.snoc a kids).parents base parent := by
          refine List.filter_congr fun i _ => ?_
          have hplace : base + f.size + 1 + i = base + (f.size + i.succ) := by
            omega
          rw [decide_eq_decide, kids_mem_parents hp i.succ, hplace]
        rw [hrest]
        simp only [Function.comp_def]
        by_cases hzero : kids.size = 0
        · have hno : some (base + (f.size + 0))
              ∉ (f.snoc a kids).parents base parent :=
            fun h => (last_mem_parents hp).mp h hzero
          rw [if_pos hzero, if_pos (decide_eq_true hno), Nat.add_comm]
        · have hyes := (last_mem_parents (f := f) (a := a) hp).mpr hzero
          rw [if_neg hzero, if_neg (by simpa using hyes), Nat.zero_add]

-- ================================================================ grafts

/-- The parent of a node under the first `k` of a path. -/
def parentOf (parent : Option Nat) (path : List Nat) : Nat → Option Nat
  | 0 => parent
  | k + 1 => path[k]?

theorem parentOf_cons (parent : Option Nat) (i : Nat) (path : List Nat)
    (k : Nat) :
    parentOf parent (i :: path) (k + 1) = parentOf (some i) path k := by
  cases k with
  | zero => rfl
  | succ k => rfl

theorem preorder_graft {f : Forest α} {k base : Nat}
    (hk : k ≤ (f.spine base).length) (x : α) :
    (f.graft k x).preorder = f.preorder ++ [x] := by
  induction f generalizing k base with
  | nil =>
      obtain rfl : k = 0 := Nat.le_zero.mp hk
      rfl
  | snoc f a kids _ ih =>
      cases k with
      | zero => rfl
      | succ k =>
          rw [graft, preorder, preorder, ih (Nat.le_of_succ_le_succ hk),
            List.append_assoc, List.cons_append]

/-- A graft ends the rightmost path. -/
theorem spine_graft {f : Forest α} {k base : Nat}
    (hk : k ≤ (f.spine base).length) (x : α) :
    (f.graft k x).spine base = (f.spine base).take k ++ [base + f.size] := by
  induction f generalizing k base with
  | nil =>
      obtain rfl : k = 0 := Nat.le_zero.mp hk
      rfl
  | snoc f a kids _ ih =>
      cases k with
      | zero => rfl
      | succ k =>
          rw [graft, spine, spine, ih (Nat.le_of_succ_le_succ hk), size,
            List.take_succ_cons, List.cons_append]
          have hend : base + f.size + 1 + kids.size
              = base + (f.size + (1 + kids.size)) := by omega
          rw [hend]

theorem parents_graft {f : Forest α} {k base : Nat}
    (hk : k ≤ (f.spine base).length) (parent : Option Nat) (x : α) :
    (f.graft k x).parents base parent
      = f.parents base parent ++ [parentOf parent (f.spine base) k] := by
  induction f generalizing k base parent with
  | nil =>
      obtain rfl : k = 0 := Nat.le_zero.mp hk
      rfl
  | snoc f a kids _ ih =>
      cases k with
      | zero => rfl
      | succ k =>
          rw [graft, parents, parents, spine, parentOf_cons,
            ih (Nat.le_of_succ_le_succ hk), List.append_assoc,
            List.cons_append]

end Forest
