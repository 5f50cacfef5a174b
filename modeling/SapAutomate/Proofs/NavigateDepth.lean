/-
How deep `sap.kb.navigate` goes (`sap-automate-server/src/tools.rs`).

Where the depth is used up, the children are still rendered, without what
is under them: so an answer goes one level deeper than it was asked to
(`outline_answer`), and honours its depth exactly where there is nothing
there.
-/
import SapAutomate.Server.Navigate

namespace SapAutomate.Server

open Json Kb

-- ============================================================== outlines

/-- What an answer and a tree have in common of a node: its path, its title,
its summary and its tokens. -/
abbrev Entry := List (Option Value)

def treeEntry (n : DocTreeNode) : Entry :=
  [some (.string n.data.path), some (.string n.data.title),
    some (.string n.data.summary), some (.ofInt n.data.approxTokens)]

/-- The nodes of a tree in pre-order, each with its level, down to a level
below this one. -/
def treeOutline (level : Nat) : Nat → DocTreeNode → List (Nat × Entry)
  | 0, n => [(level, treeEntry n)]
  | below + 1, n => (level, treeEntry n)
      :: n.childNodes.flatMap (treeOutline (level + 1) below)

/-- The same of an answer. -/
def answerEntry (v : Value) : Entry :=
  [v.get "path", v.get "title", v.get "summary", v.get "approx_tokens"]

/-- What an answer lists as children. -/
def childValues (v : Value) : List Value :=
  match v.get "children" with
  | some (.array vs) => vs
  | _ => []

def answerOutline (level : Nat) : Nat → Value → List (Nat × Entry)
  | 0, v => [(level, answerEntry v)]
  | below + 1, v => (level, answerEntry v)
      :: (childValues v).flatMap (answerOutline (level + 1) below)

theorem get_object {es : List (String × Value)}
    (hnd : (es.map Prod.fst).Nodup) (key : String) :
    (Value.object (Map.ofEntries es)).get key = Map.get es key :=
  Map.get_ofEntries hnd key

theorem briefJson_get (n : DocTreeNode) (key : String) :
    (briefJson n).get key = Map.get [("path", .string n.data.path),
      ("title", .string n.data.title), ("summary", .string n.data.summary),
      ("approx_tokens", .ofInt n.data.approxTokens),
      ("child_count", .ofInt n.childNodes.length)] key :=
  get_object (by simp) key

theorem nodeJson_get (n : DocTreeNode) (children : List Value) (key : String) :
    (nodeJson n children).get key = Map.get [("path", .string n.data.path),
      ("depth", .ofInt n.data.depth), ("title", .string n.data.title),
      ("summary", .string n.data.summary),
      ("start_index", .ofInt n.data.startIndex),
      ("end_index", .ofInt n.data.endIndex),
      ("approx_tokens", .ofInt n.data.approxTokens),
      ("children", .array children)] key :=
  get_object (by simp) key

theorem childValues_node (n : DocTreeNode) (vs : List Value) :
    childValues (nodeJson n vs) = vs := by
  have hget : (nodeJson n vs).get "children" = some (.array vs) := by
    rw [nodeJson_get]
    simp [Map.get]
  unfold childValues
  rw [hget]

theorem answerEntry_node (n : DocTreeNode) (vs : List Value) :
    answerEntry (nodeJson n vs) = treeEntry n := by
  simp [answerEntry, treeEntry, nodeJson_get, Map.get]

theorem answerEntry_brief (n : DocTreeNode) :
    answerEntry (briefJson n) = treeEntry n := by
  simp [answerEntry, treeEntry, briefJson_get, Map.get]

theorem childValues_brief (n : DocTreeNode) : childValues (briefJson n) = [] := by
  have hget : (briefJson n).get "children" = none := by
    rw [briefJson_get]
    simp [Map.get]
  unfold childValues
  rw [hget]

/-- A node that is rendered briefly is listed without its children. -/
theorem answerOutline_brief (level below : Nat) (n : DocTreeNode) :
    answerOutline level below (briefJson n) = [(level, treeEntry n)] := by
  cases below with
  | zero => rw [answerOutline, answerEntry_brief]
  | succ below =>
      rw [answerOutline, answerEntry_brief, childValues_brief, List.flatMap_nil]

theorem answerOutline_node (level below : Nat) (n : DocTreeNode)
    (vs : List Value) :
    answerOutline level (below + 1) (nodeJson n vs) = (level, treeEntry n)
      :: vs.flatMap (answerOutline (level + 1) below) := by
  rw [answerOutline, answerEntry_node, childValues_node]

theorem serialize_zero (depth level : Nat) (n : DocTreeNode) :
    answerOutline level 0 (serializeNodeBounded depth n)
      = [(level, treeEntry n)] := by
  cases depth with
  | zero => rw [serializeNodeBounded, answerOutline, answerEntry_node]
  | succ depth => rw [serializeNodeBounded, answerOutline, answerEntry_node]

/-- An answer lists one level more than it was asked for. -/
theorem outline_answer (depth below level : Nat) (n : DocTreeNode) :
    answerOutline level below (serializeNodeBounded depth n)
      = treeOutline level (min below (depth + 1)) n := by
  induction depth generalizing below level n with
  | zero =>
      cases below with
      | zero => exact serialize_zero 0 level n
      | succ below =>
          have hmin : min (below + 1) (0 + 1) = 0 + 1 := by omega
          rw [hmin, serializeNodeBounded, answerOutline_node, treeOutline,
            List.flatMap_map]
          simp only [answerOutline_brief, treeOutline]
  | succ depth ih =>
      cases below with
      | zero => exact serialize_zero (depth + 1) level n
      | succ below =>
          have hmin : min (below + 1) (depth + 1 + 1)
              = min below (depth + 1) + 1 := by omega
          rw [hmin, serializeNodeBounded, answerOutline_node, treeOutline,
            List.flatMap_map]
          simp only [ih]

-- ================================================================ depths

/-- The answer lists the node and what is under it down to so many levels,
each once, in the order of the source, and nothing that is deeper. -/
def Honours (n : DocTreeNode) (depth : Nat) (v : Value) : Prop :=
  ∃ node, v.get "node" = some node
    ∧ ∀ below, answerOutline 0 below node = treeOutline 0 (min below depth) n

theorem mem_trees_height {f : Forest NodeData} {t : NodeData × Forest NodeData}
    (ht : t ∈ f.trees) : t.2.height + 1 ≤ f.height := by
  induction f with
  | nil => cases ht
  | snoc f a kids ihf _ =>
      rw [Forest.height]
      rcases List.mem_append.mp ht with ht | ht
      · exact (ihf ht).trans (le_max_left _ _)
      · rw [List.mem_singleton.mp ht]
        exact le_max_right _ _

theorem exists_height {f : Forest NodeData} (hf : 0 < f.height) :
    ∃ t ∈ f.trees, t.2.height + 1 = f.height := by
  induction f with
  | nil => exact absurd hf (by decide)
  | snoc f a kids ihf _ =>
      rw [Forest.height] at hf ⊢
      rcases le_total (kids.height + 1) f.height with hle | hle
      · rw [max_eq_left hle]
        obtain ⟨t, ht, heq⟩ := ihf (by omega)
        exact ⟨t, List.mem_append_left _ ht, heq⟩
      · rw [max_eq_right hle]
        exact ⟨(a, kids), List.mem_append_right _ List.mem_cons_self, rfl⟩

/-- Below the last level there is nothing to list. -/
theorem outline_levels {below level : Nat} {n : DocTreeNode}
    (h : n.children.height ≤ below) :
    treeOutline level (below + 1) n = treeOutline level below n := by
  induction below generalizing level n with
  | zero =>
      have hnone : n.childNodes = [] := by
        unfold DocTreeNode.childNodes
        rw [List.map_eq_nil_iff, List.eq_nil_iff_forall_not_mem]
        intro t ht
        have := mem_trees_height ht
        omega
      rw [treeOutline, treeOutline, hnone, List.flatMap_nil]
  | succ below ih =>
      have hkids : n.childNodes.flatMap (treeOutline (level + 1) (below + 1))
          = n.childNodes.flatMap (treeOutline (level + 1) below) := by
        refine List.flatMap_congr fun c hc => ih ?_
        obtain ⟨t, ht, rfl⟩ := List.mem_map.mp hc
        have := mem_trees_height ht
        dsimp only
        omega
      rw [treeOutline, hkids, treeOutline]

/-- A level is listed where there is one. -/
theorem outline_reaches {below level : Nat} {n : DocTreeNode}
    (h : below ≤ n.children.height) :
    ∃ e ∈ treeOutline level below n, e.1 = level + below := by
  induction below generalizing level n with
  | zero => exact ⟨_, List.mem_singleton_self _, rfl⟩
  | succ below ih =>
      obtain ⟨t, ht, heq⟩ := exists_height (f := n.children) (by omega)
      obtain ⟨e, he, hlevel⟩ : ∃ e ∈ treeOutline (level + 1) below ⟨t.1, t.2⟩,
          e.1 = level + 1 + below := by
        refine ih ?_
        dsimp only
        omega
      refine ⟨e, List.mem_cons_of_mem _ (List.mem_flatMap.mpr
        ⟨_, List.mem_map_of_mem ht, he⟩), ?_⟩
      omega

theorem outline_level_le {below level : Nat} {n : DocTreeNode}
    {e : Nat × Entry} (he : e ∈ treeOutline level below n) :
    e.1 ≤ level + below := by
  induction below generalizing level n with
  | zero =>
      rw [List.mem_singleton.mp he]
      exact Nat.le_refl _
  | succ below ih =>
      rcases List.mem_cons.mp he with rfl | he
      · exact Nat.le_add_right _ _
      · obtain ⟨c, -, he⟩ := List.mem_flatMap.mp he
        have := ih he
        omega

theorem honours_answer_iff (t : DocumentTree) (depth : Nat) (n : DocTreeNode) :
    Honours n depth (navigateAnswer t depth n) ↔ n.children.height ≤ depth := by
  have hnode : (navigateAnswer t depth n).get "node"
      = some (serializeNodeBounded depth n) := by
    unfold navigateAnswer
    rw [get_object (by simp)]
    simp [Map.get]
  constructor
  · rintro ⟨node, hget, hall⟩
    rw [hnode] at hget
    obtain rfl := Option.some.inj hget
    by_contra hdeep
    have hsame := hall (depth + 1)
    rw [outline_answer, min_self, min_eq_right (Nat.le_succ depth)] at hsame
    obtain ⟨e, he, hlevel⟩ : ∃ e ∈ treeOutline 0 (depth + 1) n,
        e.1 = 0 + (depth + 1) := outline_reaches (by omega)
    rw [hsame] at he
    have := outline_level_le he
    omega
  · intro hheight
    refine ⟨_, hnode, fun below => ?_⟩
    rw [outline_answer]
    rcases Nat.lt_or_ge depth below with hlt | hle
    · rw [min_eq_right hlt, min_eq_right hlt.le]
      exact outline_levels hheight
    · rw [min_eq_left hle, min_eq_left (by omega)]

theorem navigate_eq {t : DocumentTree} {path : Option String} {n : DocTreeNode}
    (h : navigateNode t path = some n) (depth : Nat) :
    navigate t path depth = .ok (navigateAnswer t depth n) := by
  unfold navigate
  rw [h]

/-- An answer honours its depth exactly where the node has nothing one level
deeper. -/
theorem navigate_honours_iff (t : DocumentTree) (path : Option String)
    (depth : Nat) (n : DocTreeNode) (h : navigateNode t path = some n) :
    (∃ v, navigate t path depth = .ok v ∧ Honours n depth v)
      ↔ n.children.height ≤ depth := by
  rw [← honours_answer_iff t, navigate_eq h]
  constructor
  · rintro ⟨v, hv, hhonours⟩
    rwa [Except.ok.inj hv]
  · exact fun hhonours => ⟨_, rfl, hhonours⟩

/-- The tree of a document of two headings, the second under the first. -/
def twoLevels : DocumentTree where
  documentId := "d"
  root := ⟨⟨"", 0, "t", "", 0, 9, 2⟩, .snoc .nil ⟨"1", 1, "A", "", 0, 4, 0⟩
    (.snoc .nil ⟨"1.1", 2, "B", "", 4, 9, 0⟩ .nil)⟩
  leafCount := 1
  maxDepth := 2

/-- Asked for two levels, it is answered with them. -/
theorem both_levels_honoured : ∃ v, navigate twoLevels none 2 = .ok v
    ∧ Honours twoLevels.root 2 v :=
  (navigate_honours_iff twoLevels none 2 twoLevels.root rfl).mpr (by decide)

/-- Asked for the children of the root, it is answered with theirs too. -/
theorem root_goes_deeper : ¬ ∀ (t : DocumentTree) (path : Option String)
    (depth : Nat) (n : DocTreeNode), navigateNode t path = some n →
    ∃ v, navigate t path depth = .ok v ∧ Honours n depth v := by
  intro h
  obtain ⟨v, hv, hhonours⟩ := h twoLevels none 1 twoLevels.root rfl
  rw [navigate_eq (n := twoLevels.root) rfl] at hv
  rw [← Except.ok.inj hv] at hhonours
  exact absurd ((honours_answer_iff twoLevels 1 twoLevels.root).mp hhonours)
    (by decide)

end SapAutomate.Server
