/-
The tree of a document nests its headings
(`sap-automate-kb/src/doc_tree.rs`).

After each section, the buffers hold a forest whose rightmost path is the
headings that are still open, and the stack is pointers down that path
(`Nested`). What is popped is what the next heading closes, so it is put
under the nearest one before it of less depth, and the push moves only
buffers that no pointer left on the stack is to (`step_nested`).
-/
import SapAutomate.Kb.DocTree

namespace SapAutomate.Kb

open Arena Nesting

-- ============================================================= headings

/-- What a heading and a node share. -/
def Heading.key (h : Heading) : Nat × String × Nat :=
  (h.depth, h.title, h.markerStart)

def PreparedSection.key (ps : PreparedSection) : Nat × String × Nat :=
  (ps.depth, ps.title, ps.start)

def NodeData.key (d : NodeData) : Nat × String × Nat :=
  (d.depth, d.title, d.startIndex)

theorem withTitle_depth {depth : Nat} {title : List Char} {h : ParsedAtx}
    (hh : withTitle depth title = some h) : h.depth = depth := by
  unfold withTitle at hh
  split at hh
  · cases hh
  · rw [← Option.some.inj hh]

theorem parseAtxLine_depth {line : List Char} {h : ParsedAtx}
    (hh : parseAtxLine line = some h) : h.depth ≠ 0 := by
  unfold parseAtxLine at hh
  obtain ⟨depth, -, hh⟩ := Option.bind_eq_some_iff.mp hh
  dsimp only at hh
  split at hh
  · cases hh
  · next hdepth =>
      split at hh
      · cases hh
      · rw [withTitle_depth hh]
        exact hdepth

theorem parseMarker_depth {line : List Char} {h : ParsedAtx}
    (hh : parseMarker line = some h) : h.depth ≠ 0 := by
  unfold parseMarker at hh
  dsimp only at hh
  split at hh
  · rw [withTitle_depth hh]
    exact Nat.one_ne_zero
  · obtain ⟨⟨depth, rest⟩, -, hh⟩ := Option.bind_eq_some_iff.mp hh
    dsimp only at hh
    split at hh
    · cases hh
    · next hdepth =>
        split at hh
        · cases hh
        · rw [withTitle_depth hh]
          exact hdepth

theorem headingsBy_depth {parse : List Char → Option ParsedAtx}
    (hparse : ∀ line h, parse line = some h → h.depth ≠ 0)
    {body : List Char} : ∀ h ∈ headingsBy parse body, h.depth ≠ 0 := by
  intro h hh
  obtain ⟨line, -, hline⟩ := List.mem_filterMap.mp hh
  obtain ⟨h', hh', rfl⟩ := Option.map_eq_some_iff.mp hline
  exact hparse line.2 h' hh'

/-- No heading has the depth of the root. -/
theorem detectHeadings_depth (body : List Char) :
    ∀ h ∈ detectHeadings body, h.depth ≠ 0 := by
  unfold detectHeadings
  split
  · exact headingsBy_depth fun _ _ => parseMarker_depth
  · exact headingsBy_depth fun _ _ => parseAtxLine_depth

theorem zip_tail_fst {α : Type} (l : List α) (z : α) :
    ((l ++ [z]).zip (l ++ [z]).tail).map Prod.fst = l := by
  induction l with
  | nil => rfl
  | cons x l ih =>
      cases l with
      | nil => rfl
      | cons y l =>
          rw [List.cons_append, List.tail_cons, List.cons_append,
            List.zip_cons_cons, List.map_cons]
          exact congrArg (x :: ·) ih

/-- Every heading is a section. -/
theorem prepare_keys {body : List Char} {hs : List Heading}
    (hdepth : ∀ h ∈ hs, h.depth ≠ 0) :
    (prepare body hs).map PreparedSection.key = hs.map Heading.key := by
  unfold prepare
  dsimp only
  rw [List.map_filterMap]
  generalize (⟨0, "", bytes body, bytes body⟩ : Heading) = z
  have hkeys := zip_tail_fst hs z
  generalize (hs ++ [z]).zip (hs ++ [z]).tail = ws at hkeys ⊢
  subst hkeys
  rw [List.map_map, ← List.filterMap_eq_map]
  refine List.filterMap_congr fun w hw => ?_
  have hne := hdepth w.1 (List.mem_map.mpr ⟨w, hw, rfl⟩)
  rw [if_neg hne]
  rfl

-- ================================================================= loop

/-- The depths of some sections. -/
def depthsOf (secs : List PreparedSection) : List Nat :=
  secs.map PreparedSection.depth

/-- The places that the parents of some headings have to have. -/
def nesting (ds : List Nat) : List (Option Nat) :=
  (List.range ds.length).map fun i => nearest (ds.take i) (ds.getD i 0)

theorem nesting_snoc (ds : List Nat) (d : Nat) :
    nesting (ds ++ [d]) = nesting ds ++ [nearest ds d] := by
  unfold nesting
  rw [List.length_append, List.length_singleton, List.range_succ,
    List.map_append, List.map_singleton, getD_snoc_self, List.take_left]
  congr 1
  refine List.map_congr_left fun i hi => ?_
  have hi : i < ds.length := List.mem_range.mp hi
  rw [getD_snoc_lt hi, List.take_append_of_le_length hi.le]

/-- What the loop has made of some sections. -/
structure Nested (body : List Char) (secs : List PreparedSection) (s : Build)
    (f : Forest NodeData) : Prop where
  holds : ∃ A, Holds s.heap (.vec s.roots) f A
  path : OnPath s.heap s.roots f (s.stack.map Prod.snd)
  preorder : f.preorder = secs.map (nodeOf body)
  spine : f.spine 0 = opened (depthsOf secs)
  depths : s.stack.map Prod.fst
    = (opened (depthsOf secs)).map fun j => (depthsOf secs).getD j 0
  parents : f.parents 0 none = nesting (depthsOf secs)
  maxDepth : s.maxDepth = (depthsOf secs).foldl max 0

theorem start_nested (body : List Char) :
    Nested body [] .start .nil :=
  ⟨⟨[], .none⟩, trivial, rfl, rfl, rfl, rfl, rfl⟩

theorem parentOf_eq {path : List Nat} {k : Nat} (hk : k ≤ path.length) :
    Forest.parentOf none path k = (path.take k).getLast? := by
  cases k with
  | zero => rfl
  | succ k =>
      rw [Forest.parentOf, List.take_add_one, List.getElem?_eq_getElem hk,
        Option.toList_some, List.getLast?_concat]

/-- What is open and less deep is the first of what is open. -/
theorem opened_take (ds : List Nat) (d : Nat) :
    (opened ds).filter (fun j => ds.getD j 0 < d)
      = (opened ds).take
        ((opened ds).filter fun j => ds.getD j 0 < d).length := by
  have hsorted : (((opened ds).map fun j =>
      (ds.getD j 0, j)).map Prod.fst).Pairwise (· < ·) := by
    rw [List.map_map]
    exact List.pairwise_map.mpr (opened_depths ds)
  have hpre := List.rdropWhile_prefix (fun e : Nat × Nat => decide (d ≤ e.1))
    (l := (opened ds).map fun j => (ds.getD j 0, j))
  rw [rdropWhile_eq hsorted, List.filter_map] at hpre
  have hmap := hpre.map Prod.snd
  rw [List.map_map, List.map_map] at hmap
  have hid : ∀ l : List Nat,
      l.map (Prod.snd ∘ fun j => (ds.getD j 0, j)) = l := List.map_id
  rw [hid, hid] at hmap
  exact List.prefix_iff_eq_take.mp hmap

/-- A section more: it is under the nearest less deep one. -/
theorem step_nested (A : Allocator NodeData) {body : List Char}
    {secs : List PreparedSection} {s : Build} {f : Forest NodeData}
    (h : Nested body secs s f) (ps : PreparedSection) :
    ∃ s' k p, s.step A body ps = some s' ∧ k ≤ s.stack.length
      ∧ s'.stack = s.stack.take k ++ [(ps.depth, p)]
      ∧ Nested body (secs ++ [ps]) s' (f.graft k (nodeOf body ps)) := by
  obtain ⟨⟨B, hholds⟩, hpath, hpre, hspine, hdepths, hparents, hmax⟩ := h
  have hsorted : (s.stack.map Prod.fst).Pairwise (· < ·) := by
    rw [hdepths]
    exact List.pairwise_map.mpr (opened_depths _)
  -- the stack that is left, and what is left open
  have hpop := rdropWhile_eq hsorted ps.depth
  generalize hkept : s.stack.rdropWhile (fun e => ps.depth ≤ e.1) = kept
    at hpop
  have hfst : kept.map Prod.fst
      = ((opened (depthsOf secs)).filter fun j =>
        (depthsOf secs).getD j 0 < ps.depth).map fun j =>
          (depthsOf secs).getD j 0 := by
    have hcomm := List.filter_map (f := Prod.fst)
      (p := fun d : Nat => decide (d < ps.depth)) (l := s.stack)
    rw [hpop]
    refine hcomm.symm.trans ?_
    rw [hdepths, List.filter_map]
    rfl
  have hlen : kept.length = ((opened (depthsOf secs)).filter fun j =>
      (depthsOf secs).getD j 0 < ps.depth).length := by
    have hmap := congrArg List.length hfst
    rwa [List.length_map, List.length_map] at hmap
  have htake : (opened (depthsOf secs)).filter (fun j =>
      (depthsOf secs).getD j 0 < ps.depth)
        = (f.spine 0).take kept.length := by
    rw [hspine, hlen]
    exact opened_take _ _
  obtain ⟨popped, happ⟩ := List.rdropWhile_prefix
    (fun e : Nat × Ptr => decide (ps.depth ≤ e.1)) (l := s.stack)
  rw [hkept] at happ
  have hstack : kept.length ≤ s.stack.length
      ∧ kept = s.stack.take kept.length := by
    rw [← happ, List.take_left, List.length_append]
    exact ⟨Nat.le_add_right _ _, rfl⟩
  have hkeptPath : OnPath s.heap s.roots f (kept.map Prod.snd) := by
    rw [← happ, List.map_append] at hpath
    exact hpath.left
  have hk : kept.length ≤ (f.spine 0).length := by
    have hle := hkeptPath.length_le 0
    rwa [List.length_map] at hle
  have hsize : f.size = secs.length := by
    rw [← Forest.length_preorder, hpre, List.length_map]
  have hdsLen : (depthsOf secs).length = secs.length := List.length_map _
  -- what is grafted, wherever the buffers lie
  have hnested : ∀ (heap : Heap NodeData) (roots : Option Addr) (p : Ptr)
      (B' : List Addr),
      Holds heap (.vec roots) (f.graft kept.length (nodeOf body ps)) B' →
      OnPath heap roots (f.graft kept.length (nodeOf body ps))
        (kept.map Prod.snd ++ [p]) →
      Nested body (secs ++ [ps])
        ⟨heap, roots, kept ++ [(ps.depth, p)], max s.maxDepth ps.depth⟩
        (f.graft kept.length (nodeOf body ps)) := by
    intro heap roots p B' hB' hpath'
    have hds : depthsOf (secs ++ [ps]) = depthsOf secs ++ [ps.depth] := by
      rw [depthsOf, List.map_append]
      rfl
    constructor
    case holds => exact ⟨B', hB'⟩
    case path =>
      rw [List.map_append]
      exact hpath'
    case preorder =>
      rw [Forest.preorder_graft hk, hpre, List.map_append]
      rfl
    case spine =>
      rw [Forest.spine_graft hk, hds, opened_snoc, htake, hsize, hdsLen,
        Nat.zero_add]
    case depths =>
      rw [hds, opened_snoc, List.map_append, List.map_append, hfst]
      congr 1
      · refine List.map_congr_left fun j hj => ?_
        have hj := (mem_opened.mp (List.mem_filter.mp hj).1).1
        exact (getD_snoc_lt hj).symm
      · rw [List.map_singleton, List.map_singleton, getD_snoc_self]
    case parents =>
      rw [Forest.parents_graft hk, hparents, hds, nesting_snoc,
        parentOf_eq hk, ← htake, nearest_eq]
    case maxDepth =>
      rw [hds, List.foldl_append, ← hmax]
      rfl
  unfold Build.step
  rw [hkept]
  dsimp only
  cases hlast : kept.getLast? with
  | none =>
      obtain rfl : kept = [] := List.getLast?_eq_none_iff.mp hlast
      obtain ⟨h', a, B', b, hpush, hB', -, hb, cs, hcs⟩ :=
        push_holds A hholds (nodeOf body ps)
      have hptr : h'.lastPtr a = some (a, cs.length) := by
        rw [Heap.lastPtr, hb, Option.map_some, hcs, List.length_append,
          List.length_singleton, Nat.add_sub_cancel]
      refine ⟨_, 0, _, ?_, hstack.1, rfl,
        hnested h' (some a) (a, cs.length) B' hB' ?_⟩
      · simp only [hpush, hptr, Option.bind_eq_bind, Option.bind_some,
          Option.pure_def]
      · refine ⟨rfl, b, ⟨nodeOf body ps, none⟩, hb, ?_, ?_, rfl, trivial⟩
        · rw [hcs, List.length_append, List.length_singleton]
        · rw [hcs, List.getElem?_concat_length]
  | some parent =>
      obtain ⟨front, rfl⟩ : ∃ front, kept = front ++ [parent] :=
        ⟨_, (List.dropLast_append_getLast? parent hlast).symm⟩
      have hfront : (front ++ [parent]).length
          = (front.map Prod.snd).length + 1 := by
        rw [List.length_append, List.length_map, List.length_singleton]
      rw [List.map_append, List.map_singleton] at hkeptPath
      obtain ⟨h', p', B', hpush, hB', -, hpath'⟩ :=
        pushUnder_holds A hholds hkeptPath (nodeOf body ps)
      rw [← hfront] at hB' hpath'
      refine ⟨_, _, _, ?_, hstack.1, congrArg (· ++ _) hstack.2,
        hnested h' s.roots p' B' hB' ?_⟩
      · simp only [hpush, Option.bind_eq_bind, Option.bind_some,
          Option.pure_def]
      · rw [List.map_append, List.map_singleton, List.append_assoc]
        exact hpath'

theorem Nested.size_eq {body : List Char} {secs : List PreparedSection}
    {s : Build} {f : Forest NodeData} (h : Nested body secs s f) :
    f.size = secs.length := by
  rw [← Forest.length_preorder, h.preorder, List.length_map]

/-- The nodes that are loaded are those of the forest. -/
theorem Nested.load {body : List Char} {secs : List PreparedSection}
    {s : Build} {f : Forest NodeData} (h : Nested body secs s f) :
    s.heap.load (secs.length + 1) s.roots = some f := by
  obtain ⟨A, hholds⟩ := h.holds
  have hheight : f.height ≤ secs.length := by
    rw [← h.size_eq]
    exact f.height_le_size
  exact hholds.load hheight

theorem buildSections_append (A : Allocator NodeData) {body : List Char}
    {s s' : Build} {xs ys : List PreparedSection}
    (hs : buildSections A body s xs = some s') :
    buildSections A body s (xs ++ ys) = buildSections A body s' ys := by
  induction xs generalizing s with
  | nil => rw [← Option.some.inj hs, List.nil_append]
  | cons x xs ih =>
      obtain ⟨s₁, hs₁, hs⟩ := Option.bind_eq_some_iff.mp hs
      rw [List.cons_append, buildSections, hs₁]
      exact ih hs

/-- The loop never reads a node that has moved. -/
theorem run_nested (A : Allocator NodeData) (body : List Char)
    (secs : List PreparedSection) :
    ∃ s f, buildSections A body .start secs = some s
      ∧ Nested body secs s f := by
  induction secs using List.reverseRecOn with
  | nil => exact ⟨_, _, rfl, start_nested body⟩
  | append_singleton secs ps ih =>
      obtain ⟨s, f, hs, hf⟩ := ih
      obtain ⟨s', k, p, hs', -, -, hf'⟩ := step_nested A hf ps
      refine ⟨s', _, ?_, hf'⟩
      rw [buildSections_append A hs, buildSections, hs']
      rfl

-- ============================================================= pointers

/-- The pointers of the stack are down the rightmost path of the live nodes,
and each of them denotes the node of the heading at its place. -/
structure Live (body : List Char) (secs : List PreparedSection)
    (s : Build) : Prop where
  nodes : ∃ f, s.heap.load (secs.length + 1) s.roots = some f
    ∧ f.preorder = secs.map (nodeOf body)
    ∧ f.spine 0 = opened (depthsOf secs)
    ∧ OnPath s.heap s.roots f (s.stack.map Prod.snd)
    ∧ s.stack.length = (f.spine 0).length
    ∧ ∀ (k : Nat) (e : Nat × Ptr), s.stack[k]? = some e →
        ∃ c i ps, s.heap.read e.2 = some c ∧ (f.spine 0)[k]? = some i
          ∧ secs[i]? = some ps ∧ c.label = nodeOf body ps ∧ e.1 = ps.depth

theorem Nested.live {body : List Char} {secs : List PreparedSection}
    {s : Build} {f : Forest NodeData} (h : Nested body secs s f) :
    Live body secs s := by
  refine ⟨f, h.load, h.preorder, h.spine, h.path, ?_, fun k e hk => ?_⟩
  · have hlen := congrArg List.length h.depths
    rwa [List.length_map, List.length_map, ← h.spine] at hlen
  · obtain ⟨c, i, hc, hi, hlabel⟩ := h.path.reads 0
      (show (s.stack.map Prod.snd)[k]? = some e.2 by
        rw [List.getElem?_map, hk, Option.map_some])
    rw [h.preorder, List.getElem?_map] at hlabel
    obtain ⟨ps, hps, hnode⟩ := Option.map_eq_some_iff.mp hlabel
    rw [Nat.zero_add] at hi
    refine ⟨c, i, ps, hc, hi, hps, hnode.symm, ?_⟩
    have hdepth := congrArg (·[k]?) h.depths
    simp only [List.getElem?_map, ← h.spine, hk, hi, Option.map_some] at hdepth
    rw [Option.some.inj hdepth, depthsOf, List.getD_eq_getElem?_getD,
      List.getElem?_map, hps]
    rfl

/-- A section pops the stack and pushes one pointer, to its node; those it
leaves denote what they did. -/
structure Keeps (body : List Char) (ps : PreparedSection)
    (s s' : Build) : Prop where
  stack : ∃ k p, s'.stack = s.stack.take k ++ [(ps.depth, p)]
    ∧ (∀ e ∈ s.stack.take k, (s'.heap.read e.2).map Cell.label
        = (s.heap.read e.2).map Cell.label)
    ∧ (s'.heap.read p).map Cell.label = some (nodeOf body ps)

theorem step_keeps (A : Allocator NodeData) {body : List Char}
    {secs : List PreparedSection} {s : Build} {f : Forest NodeData}
    (h : Nested body secs s f) (ps : PreparedSection) :
    ∃ s' g, s.step A body ps = some s' ∧ Nested body (secs ++ [ps]) s' g
      ∧ Keeps body ps s s' := by
  obtain ⟨s', k, p, hs', hk, hstack, hg⟩ := step_nested A h ps
  have hlen : ((s.stack.take k).map Prod.snd).length = k := by
    rw [List.length_map, List.length_take_of_le hk]
  have hleft : OnPath s.heap s.roots f ((s.stack.take k).map Prod.snd) := by
    have hpath := h.path
    rw [← List.take_append_drop k s.stack, List.map_append] at hpath
    exact hpath.left
  have hpath := hg.path
  rw [hstack, List.map_append, List.map_singleton] at hpath
  nth_rewrite 1 [← hlen] at hpath
  obtain ⟨hkept, hnew⟩ := hleft.graft_reads hpath
  refine ⟨s', _, hs', hg, ⟨k, p, hstack, fun e he => ?_, hnew⟩⟩
  exact hkept e.2 (List.mem_map.mpr ⟨e, he, rfl⟩)

-- ================================================================ paths

theorem assignPaths_size (path : String) (f : Forest NodeData) :
    (assignPaths path f).size = f.size := by
  induction f generalizing path with
  | nil => rfl
  | snoc f d kids ihf ihk =>
      rw [assignPaths, Forest.size, Forest.size, ihf, ihk]

theorem assignPaths_keys (path : String) (f : Forest NodeData) :
    (assignPaths path f).preorder.map NodeData.key
      = f.preorder.map NodeData.key := by
  induction f generalizing path with
  | nil => rfl
  | snoc f d kids ihf ihk =>
      rw [assignPaths, Forest.preorder, Forest.preorder, List.map_append,
        List.map_append, List.map_cons, List.map_cons, ihf, ihk]
      rfl

theorem assignPaths_parents (path : String) (f : Forest NodeData)
    (base : Nat) (parent : Option Nat) :
    (assignPaths path f).parents base parent = f.parents base parent := by
  induction f generalizing path base parent with
  | nil => rfl
  | snoc f d kids ihf ihk =>
      rw [assignPaths, Forest.parents, Forest.parents, ihf, ihk,
        assignPaths_size]

-- ================================================================= tree

/-- The tree of a node. -/
def DocTreeNode.tree (n : DocTreeNode) : Forest NodeData :=
  Forest.nil.snoc n.data n.children

theorem DocTreeNode.tree_size (n : DocTreeNode) : n.tree.size = n.count := by
  rw [tree, Forest.size, Forest.size, Nat.zero_add, count]

theorem countLeavesTotal_eq (n : DocTreeNode) :
    countLeavesTotal n = n.tree.leaves := by
  have hone : countLeaves n = n.tree.leaves := by
    unfold countLeaves DocTreeNode.tree
    split
    · next hkids =>
        rw [hkids]
        rfl
    · next hkids =>
        rw [hkids, Forest.leaves, Forest.leaves, Nat.zero_add]
  have hne : n.tree ≠ .nil := by
    intro h
    cases h
  rw [countLeavesTotal, hone]
  exact max_eq_left (Forest.leaves_pos hne)

/-- The tree nests the headings: they are its nodes, in their order, each
under the nearest before it of less depth; and what is counted is so. -/
structure NestsHeadings (doc : Document) (t : DocumentTree) : Prop where
  keys : t.root.children.preorder.map NodeData.key
    = (detectHeadings doc.body.toList).map Heading.key
  parents : t.root.children.parents 0 none
    = nesting ((detectHeadings doc.body.toList).map Heading.depth)
  nodeCount : t.nodeCount = t.root.tree.preorder.length
  leafCount : t.leafCount = ((List.range t.nodeCount).filter fun i =>
    some i ∉ t.root.tree.parents 0 none).length
  maxDepth : t.maxDepth = (t.root.tree.preorder.map NodeData.depth).foldl max 0

theorem foldl_max_cons (ds : List Nat) :
    (0 :: ds).foldl max 0 = ds.foldl max 0 := by
  rw [List.foldl_cons, max_self]

/-- What is made of the nodes of the headings nests the headings. -/
theorem Nested.nestsHeadings {doc : Document} {s : Build}
    {f : Forest NodeData}
    (h : Nested doc.body.toList
      (prepare doc.body.toList (detectHeadings doc.body.toList)) s f)
    (id : String) {leaves : Nat}
    (hleaves : leaves = (rootOf doc (assignPaths "" f)).tree.leaves) :
    NestsHeadings doc ⟨id, rootOf doc (assignPaths "" f), leaves,
      s.maxDepth⟩ := by
  have hkeys : (assignPaths "" f).preorder.map NodeData.key
      = (detectHeadings doc.body.toList).map Heading.key := by
    rw [assignPaths_keys, h.preorder,
      ← prepare_keys (detectHeadings_depth doc.body.toList), List.map_map]
    rfl
  have hdepths : depthsOf
      (prepare doc.body.toList (detectHeadings doc.body.toList))
        = (detectHeadings doc.body.toList).map Heading.depth := by
    have hmap := congrArg (List.map Prod.fst)
      (@prepare_keys doc.body.toList _
        (detectHeadings_depth doc.body.toList))
    rwa [List.map_map, List.map_map] at hmap
  constructor
  case keys => exact hkeys
  case parents =>
    rw [← hdepths, ← h.parents]
    exact assignPaths_parents "" f 0 none
  case nodeCount =>
    rw [Forest.length_preorder, DocTreeNode.tree_size]
    rfl
  case leafCount =>
    have hnone : ∀ i, (none : Option Nat) = some i → i < 0 :=
      fun i hi => nomatch hi
    dsimp only
    rw [hleaves, Forest.leaves_eq _ hnone, DocTreeNode.tree_size,
      DocumentTree.nodeCount]
    simp only [Nat.zero_add]
  case maxDepth =>
    have hmap := congrArg (List.map Prod.fst) hkeys
    rw [List.map_map, List.map_map] at hmap
    have hall : (rootOf doc (assignPaths "" f)).tree.preorder.map
        NodeData.depth = 0 :: (detectHeadings doc.body.toList).map
          Heading.depth := congrArg (0 :: ·) hmap
    rw [hall, foldl_max_cons, ← hdepths]
    exact h.maxDepth

/-- What is built: a root over the nodes of the sections, in their order. -/
theorem buildDocumentTree_forest (A : Allocator NodeData) (doc : Document) :
    ∃ t f, buildDocumentTree A doc = some t
      ∧ t.root = rootOf doc (assignPaths "" f)
      ∧ f.preorder = (prepare doc.body.toList
        (detectHeadings doc.body.toList)).map (nodeOf doc.body.toList) := by
  unfold buildDocumentTree
  dsimp only
  split
  · next hempty =>
      refine ⟨_, .nil, rfl, rfl, ?_⟩
      rw [List.isEmpty_iff.mp hempty]
      rfl
  · obtain ⟨s, f, hs, hf⟩ := run_nested A doc.body.toList
      (prepare doc.body.toList (detectHeadings doc.body.toList))
    simp only [hs, hf.load, Option.bind_eq_bind, Option.bind_some,
      Option.pure_def]
    exact ⟨_, f, rfl, rfl, hf.preorder⟩

/-- The tree of every document nests its headings, wherever its nodes come
to lie; and no pointer that is read is to a node that has moved. -/
theorem buildDocumentTree_nests (A : Allocator NodeData) (doc : Document) :
    ∃ t, buildDocumentTree A doc = some t ∧ NestsHeadings doc t
      ∧ ∀ m, ∃ s, buildSections A doc.body.toList .start
          ((prepare doc.body.toList
            (detectHeadings doc.body.toList)).take m) = some s
        ∧ Live doc.body.toList ((prepare doc.body.toList
            (detectHeadings doc.body.toList)).take m) s
        ∧ ∀ ps, (prepare doc.body.toList
            (detectHeadings doc.body.toList))[m]? = some ps →
          ∃ s', s.step A doc.body.toList ps = some s'
            ∧ Keeps doc.body.toList ps s s' := by
  obtain ⟨t, ht, hnests⟩ : ∃ t, buildDocumentTree A doc = some t
      ∧ NestsHeadings doc t := by
    unfold buildDocumentTree
    dsimp only
    split
    · next hempty =>
        refine ⟨_, rfl, ?_⟩
        have hnone : detectHeadings doc.body.toList = [] :=
          List.isEmpty_iff.mp hempty
        have hstart := start_nested doc.body.toList
        have hsecs : prepare doc.body.toList
            (detectHeadings doc.body.toList) = [] := by
          rw [hnone]
          rfl
        rw [← hsecs] at hstart
        exact hstart.nestsHeadings doc.id rfl
    · obtain ⟨s, f, hs, hf⟩ := run_nested A doc.body.toList
        (prepare doc.body.toList (detectHeadings doc.body.toList))
      simp only [hs, hf.load, Option.bind_eq_bind, Option.bind_some,
        Option.pure_def]
      exact ⟨_, rfl, hf.nestsHeadings doc.id (countLeavesTotal_eq _)⟩
  refine ⟨t, ht, hnests, fun m => ?_⟩
  obtain ⟨s, f, hs, hf⟩ := run_nested A doc.body.toList
    ((prepare doc.body.toList (detectHeadings doc.body.toList)).take m)
  refine ⟨s, hs, hf.live, fun ps _ => ?_⟩
  obtain ⟨s', -, hs', -, hkeeps⟩ := step_keeps A hf ps
  exact ⟨s', hs', hkeeps⟩

end SapAutomate.Kb
