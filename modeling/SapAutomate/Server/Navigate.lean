/-
The tool `sap.kb.navigate` (`sap-automate-server/src/tools.rs`): a node of
the tree of a document, with so many levels of what is under it.

The tree comes from the store; its errors and those of the arguments come
with their texts.
-/
import SapAutomate.Json.Serde
import SapAutomate.Kb.DocTree
import SapAutomate.Server.RfcCall

namespace SapAutomate.Server

open Json Kb Mcp

/-- `KbNavigateArgs`. -/
structure KbNavigateArgs where
  documentId : String
  path : Option String
  depth : Nat

/-- `default_navigate_depth`. -/
def defaultNavigateDepth : Nat := 1

/-- A `u32`. -/
def asU32 (v : Value) : Option Nat :=
  v.asU64.bind fun n => if n < 2 ^ 32 then some n else none

/-- `KbNavigateArgs` from JSON. -/
def KbNavigateArgs.ofJson (v : Value) : Option KbNavigateArgs := do
  let fields ← v.structFields ["document_id", "path", "depth"]
  let documentId ← (fields "document_id").bind Value.asStr
  let path ← match Value.optionField (fields "path") with
    | none => some none
    | some p => p.asStr.map some
  let depth ← match fields "depth" with
    | none => some defaultNavigateDepth
    | some d => asU32 d
  return ⟨documentId, path, depth⟩

/-- A node that is rendered without what is under it. -/
def briefJson (n : DocTreeNode) : Value :=
  .object (Map.ofEntries [("path", .string n.data.path),
    ("title", .string n.data.title), ("summary", .string n.data.summary),
    ("approx_tokens", .ofInt n.data.approxTokens),
    ("child_count", .ofInt n.childNodes.length)])

/-- A node with its children as they are rendered. -/
def nodeJson (n : DocTreeNode) (children : List Value) : Value :=
  .object (Map.ofEntries [("path", .string n.data.path),
    ("depth", .ofInt n.data.depth), ("title", .string n.data.title),
    ("summary", .string n.data.summary),
    ("start_index", .ofInt n.data.startIndex),
    ("end_index", .ofInt n.data.endIndex),
    ("approx_tokens", .ofInt n.data.approxTokens),
    ("children", .array children)])

/-- `serialize_node_bounded`. -/
def serializeNodeBounded : Nat → DocTreeNode → Value
  | 0, n => nodeJson n (n.childNodes.map briefJson)
  | depth + 1, n => nodeJson n (n.childNodes.map (serializeNodeBounded depth))

/-- The node of a path; no path, or an empty one, is the root. -/
def navigateNode (t : DocumentTree) (path : Option String) :
    Option DocTreeNode :=
  let path := path.getD ""
  if path.isEmpty then some t.root else t.root.find path

/-- What a node is answered with. -/
def navigateAnswer (t : DocumentTree) (depth : Nat) (n : DocTreeNode) : Value :=
  .object (Map.ofEntries [("document_id", .string t.documentId),
    ("max_depth", .ofInt t.maxDepth), ("leaf_count", .ofInt t.leafCount),
    ("node", serializeNodeBounded depth n)])

/-- The text for a path that no node has. -/
def pathNotFound (t : DocumentTree) (path : String) : String :=
  "sap.kb.navigate: path '" ++ path ++ "' not found in document tree (max_depth="
    ++ toString t.maxDepth ++ ", leaf_count=" ++ toString t.leafCount ++ ")"

/-- The answer to a path and a depth, or the text of an error. -/
def navigate (t : DocumentTree) (path : Option String) (depth : Nat) :
    Except String Value :=
  match navigateNode t path with
  | some n => .ok (navigateAnswer t depth n)
  | none => .error (pathNotFound t (path.getD ""))

/-- The handler of `tool_kb_navigate`. -/
def kbNavigate (getDocumentTree : String → Except String (Option DocumentTree))
    (serdeError : Value → String) (arguments : Value) : CallToolResult :=
  match KbNavigateArgs.ofJson arguments with
  | none => .error ("sap.kb.navigate: invalid arguments: "
      ++ serdeError arguments)
  | some args =>
      match getDocumentTree args.documentId with
      | .error e => .error ("sap.kb.navigate: " ++ e)
      | .ok none => .error ("sap.kb.navigate: document '" ++ args.documentId
          ++ "' not found")
      | .ok (some t) =>
          match navigate t args.path args.depth with
          | .ok v => renderJson v
          | .error text => .error text

end SapAutomate.Server
