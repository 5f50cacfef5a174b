/-
Paths tell the nodes of a document's tree apart
(`sap-automate-kb/src/doc_tree.rs`).

The path of a sibling begins with what its parent gives, and then has its
number; what is under it goes on with a dot. So the digits behind what the
parent gives say which sibling a path is at or under (`Under.inj`), and
`find`, which compares whole paths, finds the node of each.
-/
import SapAutomate.Proofs.HeadingTree
import Mathlib.Data.List.Nodup

namespace SapAutomate.Kb

open Arena Text

-- ================================================================ paths

/-- A path at, or under, the sibling of this place. -/
def Under (path : List Char) (k : Nat) (s : List Char) : Prop :=
  ∃ rest, s = path ++ ((toString (k + 1)).toList ++ rest)
    ∧ (rest = [] ∨ ∃ r, rest = '.' :: r)

theorem toString_digits (n : Nat) :
    ∀ c ∈ (toString n).toList, c.isDigit = true := by
  intro c hc
  rw [toList_toString] at hc
  exact Nat.isDigit_of_mem_toDigits (by decide) (by decide) hc

/-- The digits are those of the number. -/
theorem takeWhile_digits (n : Nat) {rest : List Char}
    (h : rest = [] ∨ ∃ r, rest = '.' :: r) :
    ((toString n).toList ++ rest).takeWhile Char.isDigit
      = (toString n).toList := by
  have hrest : rest.takeWhile Char.isDigit = [] := by
    rcases h with rfl | ⟨r, rfl⟩
    · rfl
    · exact List.takeWhile_cons_of_neg (by decide)
  rw [List.takeWhile_append_of_pos (toString_digits n), hrest, List.append_nil]

theorem Under.inj {path s : List Char} {k k' : Nat} (h : Under path k s)
    (h' : Under path k' s) : k = k' := by
  obtain ⟨rest, rfl, hrest⟩ := h
  obtain ⟨rest', heq, hrest'⟩ := h'
  have heq := List.append_cancel_left heq
  have hdigits := congrArg (List.takeWhile Char.isDigit) heq
  rw [takeWhile_digits _ hrest, takeWhile_digits _ hrest'] at hdigits
  exact Nat.succ_injective (toString_inj hdigits)

theorem Under.self (path : String) (k : Nat) :
    Under path.toList k (path ++ toString (k + 1)).toList := by
  refine ⟨[], ?_, .inl rfl⟩
  rw [String.toList_append, List.append_nil]

/-- What is under a child is under its parent, and longer. -/
theorem Under.child {path : String} {k j : Nat} {s : List Char}
    (h : Under (path ++ toString (k + 1) ++ ".").toList j s) :
    Under path.toList k s ∧ s ≠ (path ++ toString (k + 1)).toList := by
  obtain ⟨rest, rfl, -⟩ := h
  have hdot : ".".toList = ['.'] := rfl
  rw [String.toList_append, String.toList_append, hdot]
  constructor
  · refine ⟨'.' :: ((toString (j + 1)).toList ++ rest), ?_, .inr ⟨_, rfl⟩⟩
    simp only [List.append_assoc, List.cons_append, List.nil_append]
  · intro h
    have hlen := congrArg List.length h
    simp only [List.length_append, List.length_cons, List.length_nil] at hlen
    omega

theorem Under.ne_nil {path : List Char} {k : Nat} {s : List Char}
    (h : Under path k s) : s ≠ [] := by
  obtain ⟨rest, rfl, -⟩ := h
  rw [toList_toString]
  intro hnil
  have hdigits := (List.append_eq_nil_iff.mp
    (List.append_eq_nil_iff.mp hnil).2).1
  exact Nat.toDigits_ne_nil hdigits

/-- The paths of siblings and of what is under them. -/
theorem assignPaths_under (path : String) (f : Forest NodeData) :
    ∀ d ∈ (assignPaths path f).preorder,
      ∃ k < width f, Under path.toList k d.path.toList := by
  induction f generalizing path with
  | nil => exact nofun
  | snoc f d kids ihf ihk =>
      intro e he
      rw [assignPaths, Forest.preorder] at he
      rw [width]
      rcases List.mem_append.mp he with he | he
      · obtain ⟨k, hk, hunder⟩ := ihf path e he
        exact ⟨k, hk.trans (Nat.lt_succ_self _), hunder⟩
      · refine ⟨width f, Nat.lt_succ_self _, ?_⟩
        rcases List.mem_cons.mp he with rfl | he
        · exact .self path (width f)
        · obtain ⟨j, -, hunder⟩ := ihk _ e he
          exact hunder.child.1

theorem assignPaths_nodup (path : String) (f : Forest NodeData) :
    ((assignPaths path f).preorder.map NodeData.path).Nodup := by
  induction f generalizing path with
  | nil => exact List.nodup_nil
  | snoc f d kids ihf ihk =>
      rw [assignPaths, Forest.preorder, List.map_append, List.map_cons]
      have hkids := assignPaths_under (path ++ toString (width f + 1) ++ ".") kids
      refine List.nodup_append.mpr ⟨ihf path, List.nodup_cons.mpr ⟨?_, ihk _⟩, ?_⟩
      · intro hmem
        obtain ⟨e, he, heq⟩ := List.mem_map.mp hmem
        obtain ⟨j, -, hunder⟩ := hkids e he
        exact hunder.child.2 (congrArg String.toList heq)
      · intro p hp q hq heq
        obtain ⟨e, he, rfl⟩ := List.mem_map.mp hp
        obtain ⟨k, hk, hunder⟩ := assignPaths_under path f e he
        have hlast : Under path.toList (width f) q.toList := by
          rcases List.mem_cons.mp hq with rfl | hq
          · exact .self path (width f)
          · obtain ⟨e', he', rfl⟩ := List.mem_map.mp hq
            obtain ⟨j, -, hunder'⟩ := hkids e' he'
            exact hunder'.child.1
        rw [heq] at hunder
        exact hk.ne (hunder.inj hlast)

-- ================================================================= find

/-- The nodes of a forest, in the order in which they are visited. -/
def nodesOf : Forest NodeData → List DocTreeNode
  | .nil => []
  | .snoc f d kids => nodesOf f ++ ⟨d, kids⟩ :: nodesOf kids

/-- The nodes that `visit` goes through. -/
def DocTreeNode.visited (n : DocTreeNode) : List DocTreeNode :=
  n :: nodesOf n.children

theorem nodesOf_data (f : Forest NodeData) :
    (nodesOf f).map DocTreeNode.data = f.preorder := by
  induction f with
  | nil => rfl
  | snoc f d kids ihf ihk =>
      rw [nodesOf, List.map_append, List.map_cons, ihf, ihk, Forest.preorder]

theorem findIn_eq (path : String) (f : Forest NodeData) :
    findIn path f = (nodesOf f).find? fun n => n.data.path = path := by
  induction f with
  | nil => rfl
  | snoc f d kids ihf ihk =>
      rw [findIn, nodesOf, List.find?_append, ihf]
      by_cases hpath : d.path = path
      · rw [if_pos hpath, List.find?_cons_of_pos (by simpa using hpath)]
      · rw [if_neg hpath, List.find?_cons_of_neg (by simpa using hpath), ihk]

/-- `find` finds the first node, of those visited, that has the path. -/
theorem DocTreeNode.find_eq (n : DocTreeNode) (path : String) :
    n.find path = n.visited.find? fun n => n.data.path = path := by
  rw [find, visited]
  by_cases hpath : n.data.path = path
  · rw [if_pos hpath, List.find?_cons_of_pos (by simpa using hpath)]
  · rw [if_neg hpath, List.find?_cons_of_neg (by simpa using hpath), findIn_eq]

/-- Paths that tell nodes apart, and `find` that goes by them. -/
structure PathsName (root : DocTreeNode) : Prop where
  unique : (root.visited.map fun n => n.data.path).Nodup
  found : ∀ n ∈ root.visited, root.find n.data.path = some n
  notFound : ∀ path, (∀ n ∈ root.visited, n.data.path ≠ path) →
    root.find path = none

theorem pathsName_of_nodup {root : DocTreeNode}
    (h : (root.visited.map fun n => n.data.path).Nodup) : PathsName root where
  unique := h
  found := by
    intro n hn
    rw [DocTreeNode.find_eq]
    cases hfind : root.visited.find? fun m => m.data.path = n.data.path with
    | none =>
        have hno := List.find?_eq_none.mp hfind n hn
        exact absurd (decide_eq_true rfl) hno
    | some m =>
        have hpath : m.data.path = n.data.path := by
          simpa using List.find?_some hfind
        exact congrArg some (List.inj_on_of_nodup_map h
          (List.mem_of_find?_eq_some hfind) hn hpath)
  notFound := by
    intro path hpath
    rw [DocTreeNode.find_eq, List.find?_eq_none]
    intro n hn
    simpa using hpath n hn

/-- The root has the empty path, and no other node has it. -/
theorem rootOf_pathsName (doc : Document) (f : Forest NodeData) :
    PathsName (rootOf doc (assignPaths "" f)) := by
  refine pathsName_of_nodup ?_
  have hpaths : (rootOf doc (assignPaths "" f)).visited.map
      (fun n => n.data.path)
        = "" :: (assignPaths "" f).preorder.map NodeData.path := by
    rw [DocTreeNode.visited, List.map_cons, ← nodesOf_data, List.map_map]
    rfl
  rw [hpaths]
  refine List.nodup_cons.mpr ⟨fun hmem => ?_, assignPaths_nodup "" f⟩
  obtain ⟨d, hd, hempty⟩ := List.mem_map.mp hmem
  obtain ⟨k, -, hunder⟩ := assignPaths_under "" f d hd
  rw [hempty] at hunder
  exact hunder.ne_nil rfl

/-- Every node of the tree of a document is found by its path, and nothing
is by another one. -/
theorem buildDocumentTree_paths (A : Allocator NodeData) (doc : Document) :
    ∃ t, buildDocumentTree A doc = some t ∧ PathsName t.root := by
  obtain ⟨t, f, ht, hroot, -⟩ := buildDocumentTree_forest A doc
  refine ⟨t, ht, ?_⟩
  rw [hroot]
  exact rootOf_pathsName doc f

end SapAutomate.Kb
