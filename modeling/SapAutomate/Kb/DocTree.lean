/-
The tree of a document (`sap-automate-kb/src/doc_tree.rs`): its headings,
in one of two dialects, and the nodes made of them, through a stack of raw
pointers to those that are still open.

Offsets are in bytes. Nodes lie in the buffers of growable vectors
(`Arena`), so a pointer to one that has moved is a pointer to nothing, and
reading through it is undefined: `none`. Depths of numbered headings are
counted as released code counts, modulo 2^32.
-/
import SapAutomate.Kb.Schema
import SapAutomate.Lib.Arena
import SapAutomate.Lib.Nesting
import SapAutomate.Lib.Text
import Mathlib.Algebra.GroupWithZero.Nat

namespace SapAutomate.Kb

open Arena Text

-- ================================================================ nodes

/-- `DocTreeNode`, without its children. -/
structure NodeData where
  path : String
  depth : Nat
  title : String
  summary : String
  startIndex : Nat
  endIndex : Nat
  approxTokens : Nat
  deriving DecidableEq

/-- `DocTreeNode`. -/
structure DocTreeNode where
  data : NodeData
  children : Forest NodeData

/-- `DocTreeNode::count`. -/
def DocTreeNode.count (n : DocTreeNode) : Nat := 1 + n.children.size

/-- The direct children. -/
def DocTreeNode.childNodes (n : DocTreeNode) : List DocTreeNode :=
  n.children.trees.map fun t => ⟨t.1, t.2⟩

/-- The loop of `find`: the first of the children where the path is found. -/
def findIn (path : String) : Forest NodeData → Option DocTreeNode
  | .nil => none
  | .snoc f d kids => (findIn path f).or
      (if d.path = path then some ⟨d, kids⟩ else findIn path kids)

/-- `DocTreeNode::find`. -/
def DocTreeNode.find (n : DocTreeNode) (path : String) : Option DocTreeNode :=
  if n.data.path = path then some n else findIn path n.children

/-- `DocumentTree`. -/
structure DocumentTree where
  documentId : String
  root : DocTreeNode
  leafCount : Nat
  maxDepth : Nat

/-- `DocumentTree::node_count`. -/
def DocumentTree.nodeCount (t : DocumentTree) : Nat := t.root.count

/-- `count_leaves`. -/
def countLeaves (n : DocTreeNode) : Nat :=
  match n.children with
  | .nil => 1
  | .snoc f d kids => (f.snoc d kids).leaves

/-- `count_leaves_total`. -/
def countLeavesTotal (n : DocTreeNode) : Nat := max (countLeaves n) 1

-- ================================================================ texts

/-- The bytes of some characters. -/
def bytes (cs : List Char) : Nat := (cs.map Char.utf8Size).sum

/-- The characters past so many bytes, where one ends there. -/
def dropBytes : Nat → List Char → Option (List Char)
  | 0, cs => some cs
  | _ + 1, [] => none
  | n + 1, c :: cs =>
      if c.utf8Size ≤ n + 1 then dropBytes (n + 1 - c.utf8Size) cs else none

/-- The characters of so many bytes, where one ends there. -/
def takeBytes : Nat → List Char → Option (List Char)
  | 0, _ => some []
  | _ + 1, [] => none
  | n + 1, c :: cs =>
      if c.utf8Size ≤ n + 1 then
        (takeBytes (n + 1 - c.utf8Size) cs).map (c :: ·)
      else none

/-- `str::get`, of a range. -/
def getRange (cs : List Char) (start stop : Nat) : Option (List Char) :=
  if start ≤ stop then (dropBytes start cs).bind (takeBytes (stop - start))
  else none

/-- The loop of `extract_summary`. -/
def summaryFrom (sentences len : Nat) : List Char → List Char
  | [] => []
  | c :: cs =>
      let sentences' :=
        if c = '.' ∨ c = '!' ∨ c = '?' then sentences + 1 else sentences
      if 2 ≤ sentences' ∨ 280 ≤ len + c.utf8Size then [c]
      else c :: summaryFrom sentences' (len + c.utf8Size) cs

/-- `extract_summary`. -/
def extractSummary (body : List Char) : String :=
  String.ofList
    (trimBy isWhitespace (summaryFrom 0 0 (trimBy isWhitespace body)))

/-- `(len / 4) as u32`. -/
def approxTokens (body : List Char) : Nat := bytes body / 4 % 2 ^ 32

-- ============================================================= headings

/-- `Heading`. -/
structure Heading where
  depth : Nat
  title : String
  markerStart : Nat
  bodyStart : Nat

/-- `PreparedSection`. -/
structure PreparedSection where
  depth : Nat
  title : String
  start : Nat
  bodyStart : Nat
  stop : Nat

/-- `ParsedAtx`. -/
structure ParsedAtx where
  depth : Nat
  title : String

/-- A title that is not empty. -/
def withTitle (depth : Nat) (title : List Char) : Option ParsedAtx :=
  if title.isEmpty then none else some ⟨depth, String.ofList title⟩

/-- The hashes a line begins with, not more than six. -/
def hashes : Nat → List Char → Option Nat
  | depth, '#' :: cs => if 6 < depth + 1 then none else hashes (depth + 1) cs
  | depth, _ => some depth

/-- A space or a tab comes. -/
def startsBlank (cs : List Char) : Bool :=
  cs.head? == some ' ' || cs.head? == some '\t'

/-- `parse_atx_line`. -/
def parseAtxLine (line : List Char) : Option ParsedAtx := do
  let trimmed := line.dropWhile isWhitespace
  let depth ← hashes 0 trimmed
  if depth = 0 then none
  else
    let rest := trimmed.drop depth
    if ¬ startsBlank rest then none
    else withTitle depth (trimBy isWhitespace
      ((trimBy isWhitespace rest).rdropWhile (· = '#')))

/-- The groups of digits and a dot a line begins with: so many so far, and
whether digits have come that wait for a dot. -/
def numberedFrom (depth : Nat) (digits : Bool) :
    List Char → Option (Nat × List Char)
  | [] => if digits then none else some (depth, [])
  | c :: cs =>
      if c.isDigit then numberedFrom depth true cs
      else if digits then
        if c = '.' then numberedFrom ((depth + 1) % 2 ^ 32) false cs else none
      else some (depth, c :: cs)

/-- `parse_numbered`. -/
def parseNumbered (line : List Char) : Option ParsedAtx := do
  let (depth, rest) ← numberedFrom 0 false line
  if depth = 0 then none
  else if ¬ startsBlank rest then none
  else withTitle depth (trimBy isWhitespace rest)

/-- A line of `detect_section_markers`. -/
def parseMarker (line : List Char) : Option ParsedAtx :=
  let trimmed := line.dropWhile isWhitespace
  if "SECTION:".toList.isPrefixOf trimmed then
    withTitle 1 (trimBy isWhitespace (trimmed.drop "SECTION:".length))
  else parseNumbered trimmed

/-- The lines from a byte on, with their first bytes. -/
def linesFrom (start : Nat) (line : List Char) :
    List Char → List (Nat × List Char)
  | [] => if line.isEmpty then [] else [(start, line)]
  | c :: cs =>
      if c = '\n' then
        (start, line) :: linesFrom (start + bytes line + 1) [] cs
      else linesFrom start (line ++ [c]) cs

/-- The headings that lines are, in a dialect. -/
def headingsBy (parse : List Char → Option ParsedAtx) (body : List Char) :
    List Heading :=
  (linesFrom 0 [] body).filterMap fun line =>
    (parse line.2).map fun h => {
      depth := h.depth
      title := h.title
      markerStart := line.1
      bodyStart := min (line.1 + bytes line.2 + 1) (bytes body) }

/-- `detect_atx_headings`. -/
def detectAtxHeadings (body : List Char) : List Heading :=
  headingsBy parseAtxLine body

/-- `detect_section_markers`. -/
def detectSectionMarkers (body : List Char) : List Heading :=
  headingsBy parseMarker body

/-- `detect_headings`. -/
def detectHeadings (body : List Char) : List Heading :=
  if (detectAtxHeadings body).isEmpty then detectSectionMarkers body
  else detectAtxHeadings body

/-- `prepared`: each section with its end, where the next one begins. -/
def prepare (body : List Char) (headings : List Heading) :
    List PreparedSection :=
  let sections := headings ++ [⟨0, "", bytes body, bytes body⟩]
  (sections.zip sections.tail).filterMap fun w =>
    if w.1.depth = 0 then none
    else some ⟨w.1.depth, w.1.title, w.1.markerStart, w.1.bodyStart,
      w.2.markerStart⟩

-- ============================================================== building

/-- The node of a section, with no path yet. -/
def nodeOf (body : List Char) (ps : PreparedSection) : NodeData :=
  let slice := (getRange body ps.bodyStart ps.stop).getD []
  { path := ""
    depth := ps.depth
    title := ps.title
    summary := extractSummary slice
    startIndex := ps.start
    endIndex := ps.stop
    approxTokens := approxTokens slice }

/-- The state of the loop: the nodes, where `roots` lie, the stack with its
top at the end, and `max_depth`. -/
structure Build where
  heap : Heap NodeData
  roots : Option Addr
  stack : List (Nat × Ptr)
  maxDepth : Nat

/-- Before the loop. -/
def Build.start : Build := ⟨.empty, none, [], 0⟩

/-- A section: what is not less deep is popped, and the node is pushed to
the children of the top, or to the roots. -/
def Build.step (A : Allocator NodeData) (body : List Char) (s : Build)
    (ps : PreparedSection) : Option Build :=
  let stack := s.stack.rdropWhile fun e => ps.depth ≤ e.1
  let maxDepth := max s.maxDepth ps.depth
  match stack.getLast? with
  | some parent => do
      let (heap, child) ← s.heap.pushUnder A parent.2 (nodeOf body ps)
      return ⟨heap, s.roots, stack ++ [(ps.depth, child)], maxDepth⟩
  | none => do
      let (heap, roots) ← s.heap.push A s.roots (nodeOf body ps)
      let root ← heap.lastPtr roots
      return ⟨heap, some roots, stack ++ [(ps.depth, root)], maxDepth⟩

/-- The loop. -/
def buildSections (A : Allocator NodeData) (body : List Char) :
    Build → List PreparedSection → Option Build
  | s, [] => some s
  | s, ps :: rest => do
      let s' ← s.step A body ps
      buildSections A body s' rest

/-- The trees of a forest, side by side. -/
def width : Forest NodeData → Nat
  | .nil => 0
  | .snoc f _ _ => width f + 1

/-- `assign_paths`, of siblings whose paths begin so. -/
def assignPaths (path : String) : Forest NodeData → Forest NodeData
  | .nil => .nil
  | .snoc f d kids =>
      let p := path ++ toString (width f + 1)
      (assignPaths path f).snoc { d with path := p }
        (assignPaths (p ++ ".") kids)

/-- The root of a document. -/
def rootOf (doc : Document) (children : Forest NodeData) : DocTreeNode where
  data := {
    path := ""
    depth := 0
    title := doc.title
    summary := extractSummary doc.body.toList
    startIndex := 0
    endIndex := bytes doc.body.toList
    approxTokens := approxTokens doc.body.toList }
  children := children

/-- `build_document_tree`. -/
def buildDocumentTree (A : Allocator NodeData) (doc : Document) :
    Option DocumentTree :=
  let body := doc.body.toList
  let headings := detectHeadings body
  if headings.isEmpty then
    some {
      documentId := doc.id
      root := rootOf doc .nil
      leafCount := 1
      maxDepth := 0 }
  else do
    let sections := prepare body headings
    let s ← buildSections A body .start sections
    let roots ← s.heap.load (sections.length + 1) s.roots
    let root := rootOf doc (assignPaths "" roots)
    return {
      documentId := doc.id
      root := root
      leafCount := countLeavesTotal root
      maxDepth := s.maxDepth }

end SapAutomate.Kb
