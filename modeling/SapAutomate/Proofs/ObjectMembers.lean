/-
What the readers of repository lists make of a document
(`parse_search_results`, `parse_usage_references`, `parse_nodestructure`
of `sap-automate-adt/src/http.rs`).

A search and a usage list show the tags of the document, in its order,
each by the last of its attributes of a kind (`searchResults_tags`). A
package shows the nodes of the tree, however deep they stand, each by the
last text of its fields, in whatever order these come
(`nodestructure_members`): between two nodes nothing of one is left for
the next, which is what `Idle` says.
-/
import SapAutomate.Adt.ObjectLists
import SapAutomate.Proofs.PreviewRows

namespace SapAutomate.Adt

open Xml

-- ================================================================== tags

mutual

/-- The tags of a tree, in the order of the document. -/
def tagsOf : Node → List (List Char × Attrs)
  | .elem tag children _ => (tag.name, tag.pairs) :: nodesTags children
  | .empty tag => [(tag.name, tag.pairs)]
  | _ => []
termination_by structural n => n

def nodesTags : List Node → List (List Char × Attrs)
  | [] => []
  | n :: ns => tagsOf n ++ nodesTags ns
termination_by structural ns => ns

end

section Tags

variable {α : Type} (hit : List Char → Attrs → Option α)

/-- What an event adds. -/
def eventHits : TagEvent → List α
  | .start name attrs => (hit name attrs).toList
  | .empty name attrs => (hit name attrs).toList
  | _ => []

theorem tagLoop_ok (es : List TagEvent) :
    tagLoop hit (es.map .ok) = es.flatMap (eventHits hit) := by
  induction es with
  | nil => rfl
  | cons e es ih =>
      rw [List.flatMap_cons, ← ih]
      cases e <;> rfl

mutual

theorem eventHits_tree : ∀ n : Node,
    n.tagEvents.flatMap (eventHits hit)
      = (tagsOf n).filterMap fun t => hit t.1 t.2
  | .elem tag children endPad => by
      rw [Node.tagEvents, tagsOf, List.flatMap_cons, List.flatMap_append,
        eventHits_trees children, List.filterMap_cons]
      show (hit tag.name tag.pairs).toList ++ (_ ++ []) = _
      rw [List.append_nil]
      cases hit tag.name tag.pairs <;> rfl
  | .empty tag => by
      rw [Node.tagEvents, tagsOf, List.filterMap_cons]
      show (hit tag.name tag.pairs).toList ++ [] = _
      cases hit tag.name tag.pairs <;> rfl
  | .text _ => rfl
  | .cdata _ => rfl
  | .comment _ => rfl
  | .pi _ => rfl

theorem eventHits_trees : ∀ ns : List Node,
    (nodesTagEvents ns).flatMap (eventHits hit)
      = (nodesTags ns).filterMap fun t => hit t.1 t.2
  | [] => rfl
  | n :: ns => by
      rw [nodesTagEvents, nodesTags, List.flatMap_append,
        List.filterMap_append, eventHits_tree n, eventHits_trees ns]

end

theorem eventHits_outside {es : List TagEvent}
    (h : ∀ e ∈ es, e.isOutside = true) :
    es.flatMap (eventHits hit) = [] := by
  refine List.flatMap_eq_nil_iff.mpr fun e he => ?_
  have hout := h e he
  cases e with
  | start name attrs => cases hout
  | empty name attrs => cases hout
  | «end» name => rfl
  | text s => rfl
  | cdata s => rfl
  | other => rfl

/-- The loop goes through the tags of the document. -/
theorem tagLoop_document {r : TagReader} {d : Document} (hr : r.Reads d) :
    tagLoop hit (r.events d.render)
      = (tagsOf d.root).filterMap fun t => hit t.1 t.2 := by
  obtain ⟨pre, post, hout, hevents⟩ := hr.events
  rw [hevents, tagLoop_ok, List.flatMap_append, List.flatMap_append,
    eventHits_outside hit fun e he => hout e (List.mem_append_left _ he),
    eventHits_outside hit fun e he => hout e (List.mem_append_right _ he),
    eventHits_tree hit, List.append_nil]
  rfl

end Tags

-- ============================================================ attributes

/-- The value of the last attribute whose key is of a kind. -/
def lastValue (r : TagReader) (isKey : List Char → Bool) (attrs : Attrs) :
    Option String :=
  ((attrs.filter fun a => isKey a.1).getLast?).map fun a =>
    String.ofList (unescaped r a.2)

/-- One attribute more. -/
theorem lastValue_snoc (r : TagReader) (isKey : List Char → Bool)
    (attrs : Attrs) (a : List Char × List Char) :
    lastValue r isKey (attrs ++ [a])
      = if isKey a.1 then some (String.ofList (unescaped r a.2))
        else lastValue r isKey attrs := by
  unfold lastValue
  rw [List.filter_append]
  by_cases ha : isKey a.1 = true
  · simp [ha]
  · simp [ha]

def isNameKey (key : List Char) : Bool := containsText key "name"

def isTypeKey (key : List Char) : Bool :=
  !containsText key "name" && containsText key "type"

/-- What an attribute is to a search: a description where it is neither a
name nor a type, and so on. -/
def isDescriptionKey (key : List Char) : Bool :=
  !containsText key "name" && !containsText key "type"
    && containsText key "description"

def isPackageKey (key : List Char) : Bool :=
  !containsText key "name" && !containsText key "type"
    && !containsText key "description" && containsText key "packageName"

def isUriKey (key : List Char) : Bool :=
  !containsText key "name" && !containsText key "type"
    && containsText key "uri"

/-- What a tag of a search shows. -/
def foundBy (r : TagReader) (t : List Char × Attrs) : Option AdtSearchHit :=
  let name := (lastValue r isNameKey t.2).getD ""
  if endsWith t.1 "objectReference" ∧ name ≠ "" then
    some {
      name := name
      kind := mapKind ((lastValue r isTypeKey t.2).getD "")
      description := lastValue r isDescriptionKey t.2
      package := lastValue r isPackageKey t.2 }
  else none

/-- What a tag of a usage list shows. -/
def usedBy (r : TagReader) (t : List Char × Attrs) : Option WhereUsedHit :=
  let name := (lastValue r isNameKey t.2).getD ""
  if (endsWith t.1 "referencedObject" ∨ endsWith t.1 "objectReference")
      ∧ name ≠ "" then
    some {
      object := name
      kind := mapKind ((lastValue r isTypeKey t.2).getD "")
      location := (lastValue r isUriKey t.2).getD ""
      usage := "reference" }
  else none

theorem readFound_attrs (r : TagReader) (attrs : Attrs) :
    attrs.foldl (Named.readFound r) .empty
      = ⟨(lastValue r isNameKey attrs).getD "",
        (lastValue r isTypeKey attrs).getD "",
        lastValue r isDescriptionKey attrs, lastValue r isPackageKey attrs,
        ""⟩ := by
  induction attrs using List.reverseRecOn with
  | nil => rfl
  | append_singleton attrs a ih =>
      rw [List.foldl_append, ih]
      simp only [lastValue_snoc, List.foldl_cons, List.foldl_nil,
        Named.readFound]
      unfold isNameKey isTypeKey isDescriptionKey isPackageKey
      by_cases hname : containsText a.1 "name" = true
      · simp [hname]
      · by_cases htype : containsText a.1 "type" = true
        · simp [hname, htype]
        · by_cases hdesc : containsText a.1 "description" = true
          · simp [hname, htype, hdesc]
          · by_cases hpkg : containsText a.1 "packageName" = true
            · simp [hname, htype, hdesc, hpkg]
            · simp [hname, htype, hdesc, hpkg]

theorem readUsed_attrs (r : TagReader) (attrs : Attrs) :
    attrs.foldl (Named.readUsed r) .empty
      = ⟨(lastValue r isNameKey attrs).getD "",
        (lastValue r isTypeKey attrs).getD "", none, none,
        (lastValue r isUriKey attrs).getD ""⟩ := by
  induction attrs using List.reverseRecOn with
  | nil => rfl
  | append_singleton attrs a ih =>
      rw [List.foldl_append, ih]
      simp only [lastValue_snoc, List.foldl_cons, List.foldl_nil,
        Named.readUsed]
      unfold isNameKey isTypeKey isUriKey
      by_cases hname : containsText a.1 "name" = true
      · simp [hname]
      · by_cases htype : containsText a.1 "type" = true
        · simp [hname, htype]
        · by_cases huri : containsText a.1 "uri" = true
          · simp [hname, htype, huri]
          · simp [hname, htype, huri]

theorem searchHit_eq (r : TagReader) (name : List Char) (attrs : Attrs) :
    searchHit r name attrs = foundBy r (name, attrs) := by
  unfold searchHit foundBy
  rw [readFound_attrs]
  by_cases hend : endsWith name "objectReference" = true
  · by_cases hname : (lastValue r isNameKey attrs).getD "" = ""
    · simp [hend, hname]
    · simp [hend, hname]
  · simp [hend]

theorem usageHit_eq (r : TagReader) (name : List Char) (attrs : Attrs) :
    usageHit r name attrs = usedBy r (name, attrs) := by
  unfold usageHit usedBy
  rw [readUsed_attrs]
  by_cases hend : (endsWith name "referencedObject"
      || endsWith name "objectReference") = true
  · have hor := Bool.or_eq_true_iff.mp hend
    by_cases hname : (lastValue r isNameKey attrs).getD "" = ""
    · simp [hend, hname]
    · simp [hend, hor, hname]
  · have hor : ¬ (endsWith name "referencedObject" = true
        ∨ endsWith name "objectReference" = true) := fun h =>
      hend (Bool.or_eq_true_iff.mpr h)
    simp [hend, hor]

/-- Of every document that is read, a search and a usage list are its tags
of the right names, in order: each that has a name, by the last attribute
of every kind. -/
theorem searchResults_tags (r : TagReader) (d : Document) (hr : r.Reads d) :
    parseSearchResults r d.render = (tagsOf d.root).filterMap (foundBy r)
    ∧ parseUsageReferences r d.render
      = (tagsOf d.root).filterMap (usedBy r) := by
  constructor
  · unfold parseSearchResults
    rw [tagLoop_document _ hr]
    exact congrArg (List.filterMap · _) (funext fun t => searchHit_eq r t.1 t.2)
  · unfold parseUsageReferences
    rw [tagLoop_document _ hr]
    exact congrArg (List.filterMap · _) (funext fun t => usageHit_eq r t.1 t.2)

/-- A document of one root. -/
def plainDocument (root : Node) : Document where
  decl := none
  misc := []
  doctype := none
  misc' := []
  root := root
  epilog := []

theorem plainDocument_legal {root : Node} (hroot : root.Legal false)
    (helem : root.isElem = true) : (plainDocument root).Legal where
  decl := fun _ h => by cases h
  misc := List.forall_mem_nil _
  doctype := fun _ h => by cases h
  misc' := List.forall_mem_nil _
  isElem := helem
  epilog := List.forall_mem_nil _
  root := hroot

theorem nodesLegal_cons {dtd : Bool} {n : Node} {ns : List Node}
    (hn : n.Legal dtd) (hnot : n.isText = false) (hns : nodesLegal dtd ns) :
    nodesLegal dtd (n :: ns) :=
  ⟨hn, hns, fun h => by rw [hnot] at h; cases h⟩

theorem plainElem_legal {name : String} {ns : List Node}
    (hname : isName name.toList = true) (hns : nodesLegal false ns) :
    (Node.elem (plainTag name []) ns []).Legal false :=
  ⟨plainTag_legal hname (List.forall_mem_nil _) List.nodup_nil, hns,
    List.forall_mem_nil _⟩

/-- A class that a search has found. -/
def foundClass : Node :=
  .elem (plainTag "a:objectReferences" [])
    [.empty (plainTag "a:objectReference"
      [("a:type", "CLAS/OC"), ("a:name", "ZCL_A"), ("a:packageName", "ZP")])]
    []

theorem searchResults_tags_one :
    parseSearchResults lexTagReader (plainDocument foundClass).render
      = [⟨"ZCL_A", .class_, none, some "ZP"⟩] := by
  have hchars : ∀ a ∈ [("a:type", "CLAS/OC"), ("a:name", "ZCL_A"),
      ("a:packageName", "ZP")], isName (String.toList a.1) = true
        ∧ (String.toList a.2).all (fun c => isXmlChar c && c != '<'
          && c != '"' && c != '&') = true := by decide
  have hlegal : foundClass.Legal false := plainElem_legal (by decide)
    (nodesLegal_cons (n := .empty _)
      (plainTag_legal (by decide) hchars (by decide)) rfl trivial)
  exact (searchResults_tags lexTagReader _ (lexTagReader_reads
    (plainDocument_legal hlegal rfl))).1.trans (by decide)

-- ============================================================== packages

/-- The text of a node, where it is not blank. -/
def textOf (r : TagReader) : Node → Option String
  | .text s =>
      let trimmed := Text.trimBy Text.isWhitespace (unescaped r s)
      if trimmed = [] then none else some (String.ofList trimmed)
  | _ => none

/-- The texts of the fields of a kind. -/
def fieldTexts (r : TagReader) (f : CurrentField) : List Node → List String
  | [] => []
  | .elem tag children _ :: ns =>
      (if fieldOf tag.name = f then children.filterMap (textOf r) else [])
        ++ fieldTexts r f ns
  | _ :: ns => fieldTexts r f ns

/-- The member that a node shows, by the last text of its fields. -/
def memberOf (r : TagReader) (ns : List Node) : Option PackageMember :=
  let name := ((fieldTexts r .objectName ns).getLast?).getD ""
  if name = "" then none
  else some {
    name := name
    kind := mapKind (((fieldTexts r .objectType ns).getLast?).getD "")
    description := (fieldTexts r .description ns).getLast? }

/-- The members of the self-closing form among these nodes. -/
def emptyMembers (r : TagReader) : List Node → List PackageMember
  | [] => []
  | .empty tag :: ns =>
      (memberOfTag r tag.name tag.pairs).toList ++ emptyMembers r ns
  | _ :: ns => emptyMembers r ns

mutual

/-- The members of a tree. -/
def membersOf (r : TagReader) : Node → List PackageMember
  | .elem tag ns _ =>
      if isObjectNode tag.name then emptyMembers r ns ++ (memberOf r ns).toList
      else nodesMembers r ns
  | .empty tag => (memberOfTag r tag.name tag.pairs).toList
  | _ => []
termination_by structural n => n

def nodesMembers (r : TagReader) : List Node → List PackageMember
  | [] => []
  | n :: ns => membersOf r n ++ nodesMembers r ns
termination_by structural ns => ns

end

/-- No element. -/
def Leaf : Node → Prop
  | .elem _ _ _ => False
  | .empty _ => False
  | _ => True

/-- What may stand in a node: fields, which hold no elements, and what is
no field. -/
def InNode : Node → Prop
  | .elem tag ns _ => isObjectNode tag.name = false ∧ ∀ n ∈ ns, Leaf n
  | _ => True

mutual

/-- The nodes of a tree hold their fields and no other nodes. -/
def Flat : Node → Prop
  | .elem tag ns _ =>
      if isObjectNode tag.name then ∀ n ∈ ns, InNode n else nodesFlat ns
  | _ => True
termination_by structural n => n

def nodesFlat : List Node → Prop
  | [] => True
  | n :: ns => Flat n ∧ nodesFlat ns
termination_by structural ns => ns

end

namespace NodeStructure

section Run

variable {r : TagReader}

/-- Reading several events. -/
def run (r : TagReader) (p : NodeStructure) (es : List TagEvent) :
    NodeStructure :=
  es.foldl (read r) p

theorem run_append (p : NodeStructure) (es fs : List TagEvent) :
    run r p (es ++ fs) = run r (run r p es) fs := List.foldl_append

theorem loop_ok (p : NodeStructure) (es : List TagEvent) :
    loop r p (es.map .ok) = run r p es := by
  induction es generalizing p with
  | nil => rfl
  | cons e es ih => exact ih (p.read r e)

theorem run_elem (p : NodeStructure) (tag : Tag) (ns : List Node)
    (endPad : List Char) :
    run r p (Node.elem tag ns endPad).tagEvents
      = (run r (p.readStart tag.name) (nodesTagEvents ns)).readEnd tag.name := by
  unfold Node.tagEvents
  show run r (p.readStart tag.name) (nodesTagEvents ns ++ [_]) = _
  rw [run_append]
  rfl

theorem run_nodes_cons (p : NodeStructure) (n : Node) (ns : List Node) :
    run r p (nodesTagEvents (n :: ns))
      = run r (run r p n.tagEvents) (nodesTagEvents ns) :=
  run_append p n.tagEvents (nodesTagEvents ns)

/-- The texts of a field, one over the other. -/
def puts (p : NodeStructure) (texts : List String) : NodeStructure :=
  match p.currentField with
  | .objectType => { p with kindStr := texts.getLast?.getD p.kindStr }
  | .objectName => { p with name := texts.getLast?.getD p.name }
  | .description => { p with desc := texts.getLast?.or p.desc }
  | .none => p

theorem puts_nil (p : NodeStructure) : p.puts [] = p := by
  obtain ⟨out, inNode, field, name, desc, kindStr⟩ := p
  cases field <;> rfl

theorem puts_cons (p : NodeStructure) (text : String) (texts : List String) :
    p.puts (text :: texts) = (p.put text).puts texts := by
  unfold puts put
  cases hf : p.currentField with
  | none => simp [hf]
  | objectType => simp [List.getLast?_cons]
  | objectName => simp [List.getLast?_cons]
  | description =>
      cases hlast : texts.getLast? <;> simp [List.getLast?_cons, hlast]

theorem put_inNode (p : NodeStructure) (text : String) :
    (p.put text).inNode = p.inNode := by
  unfold put
  cases p.currentField <;> rfl

/-- The content of a field. -/
theorem run_leaves {ns : List Node} (h : ∀ n ∈ ns, Leaf n)
    {p : NodeStructure} (hin : p.inNode = true) :
    run r p (nodesTagEvents ns) = p.puts (ns.filterMap (textOf r)) := by
  induction ns generalizing p with
  | nil => exact (puts_nil p).symm
  | cons n ns ih =>
      obtain ⟨hn, hns⟩ := List.forall_mem_cons.mp h
      rw [run_nodes_cons, List.filterMap_cons]
      cases n with
      | elem tag ns' endPad => cases hn
      | empty tag => cases hn
      | cdata s => exact ih hns hin
      | comment s => exact ih hns hin
      | pi s => exact ih hns hin
      | text s =>
          by_cases hnil : Text.trimBy Text.isWhitespace (unescaped r s) = []
          · have htext : textOf r (.text s) = none := if_pos hnil
            have hread : p.readText r s = p := if_neg fun h => h.1 hnil
            rw [htext]
            show run r (p.readText r s) _ = _
            rw [hread]
            exact ih hns hin
          · have htext : textOf r (.text s) = some (String.ofList
                (Text.trimBy Text.isWhitespace (unescaped r s))) := if_neg hnil
            have hread : p.readText r s = p.put (String.ofList
                (Text.trimBy Text.isWhitespace (unescaped r s))) :=
              if_pos ⟨hnil, hin⟩
            rw [htext]
            show run r (p.readText r s) _ = _
            rw [hread, ih hns ((put_inNode p _).trans hin)]
            exact (puts_cons p _ _).symm

/-- What the nodes inside a node leave: the last text of each field, and
the members of the self-closing form. -/
def gathered (r : TagReader) (p : NodeStructure) (ns : List Node) :
    NodeStructure :=
  { p with
    out := p.out ++ emptyMembers r ns
    name := (fieldTexts r .objectName ns).getLast?.getD p.name
    kindStr := (fieldTexts r .objectType ns).getLast?.getD p.kindStr
    desc := (fieldTexts r .description ns).getLast?.or p.desc }

/-- A field: its last text is kept. -/
theorem run_field {tag : Tag} {children : List Node} {endPad : List Char}
    (h : InNode (.elem tag children endPad)) {p : NodeStructure}
    (hin : p.inNode = true) :
    run r p (Node.elem tag children endPad).tagEvents
      = { ({ p with currentField := fieldOf tag.name } : NodeStructure).puts
          (children.filterMap (textOf r)) with currentField := .none } := by
  obtain ⟨hnot, hleaves⟩ := h
  have hstart : p.readStart tag.name
      = { p with currentField := fieldOf tag.name } := by
    unfold readStart
    rw [hnot, hin]
    rfl
  have hend : ∀ q : NodeStructure,
      q.readEnd tag.name = { q with currentField := .none } := by
    intro q
    unfold readEnd
    rw [hnot]
    rfl
  rw [run_elem, hstart, hend, run_leaves hleaves]
  exact hin

/-- The content of a node. -/
theorem run_inNode {ns : List Node} (h : ∀ n ∈ ns, InNode n)
    {p : NodeStructure} (hin : p.inNode = true)
    (hfield : p.currentField = .none) :
    run r p (nodesTagEvents ns) = gathered r p ns := by
  induction ns generalizing p with
  | nil =>
      unfold gathered
      simp [fieldTexts, emptyMembers, nodesTagEvents, run]
  | cons n ns ih =>
      obtain ⟨hn, hns⟩ := List.forall_mem_cons.mp h
      rw [run_nodes_cons]
      cases n with
      | text s =>
          -- outside a field no text is kept
          have hread : p.readText r s = p := by
            unfold readText put
            rw [hfield]
            exact ite_self _
          show run r (p.readText r s) _ = _
          rw [hread]
          exact ih hns hin hfield
      | cdata s => exact ih hns hin hfield
      | comment s => exact ih hns hin hfield
      | pi s => exact ih hns hin hfield
      | empty tag =>
          have hrest := ih hns (p := p.readEmpty r tag.name tag.pairs) hin
            hfield
          show run r (p.readEmpty r tag.name tag.pairs) _ = _
          rw [hrest]
          unfold gathered readEmpty
          simp [fieldTexts, emptyMembers]
      | elem tag children endPad =>
          rw [run_field hn hin, ih hns ?_ rfl]
          · unfold gathered puts
            cases hkind : fieldOf tag.name <;>
              simp [fieldTexts, emptyMembers, hkind, hfield,
                List.getLast?_append, Option.getD_or, Option.or_assoc]
          · unfold puts
            cases hkind : fieldOf tag.name <;> exact hin

/-- No node at hand. -/
structure Idle (p : NodeStructure) : Prop where
  inNode : p.inNode = false
  currentField : p.currentField = .none

/-- A node, from its start to its end. -/
theorem run_node {tag : Tag} {ns : List Node} {endPad : List Char}
    (hname : isObjectNode tag.name = true) (h : ∀ n ∈ ns, InNode n)
    {p : NodeStructure} (hp : p.Idle) :
    (run r p (Node.elem tag ns endPad).tagEvents).Idle
      ∧ (run r p (Node.elem tag ns endPad).tagEvents).out
        = p.out ++ (emptyMembers r ns ++ (memberOf r ns).toList) := by
  have hcontent := run_inNode (r := r) h (p := p.readStart tag.name)
    (by unfold readStart; rw [if_pos hname])
    (by unfold readStart; rw [if_pos hname]; exact hp.currentField)
  rw [run_elem, hcontent]
  unfold readEnd gathered memberOf readStart
  rw [if_pos hname, if_pos hname]
  refine ⟨⟨by simp, by simp⟩, ?_⟩
  by_cases hempty : (fieldTexts r .objectName ns).getLast?.getD "" = ""
  · simp [hempty]
  · simp [hempty]

mutual

/-- A tree adds its members, and leaves no node at hand. -/
theorem run_tree : ∀ (n : Node) (p : NodeStructure), Flat n → p.Idle →
    (run r p n.tagEvents).Idle
      ∧ (run r p n.tagEvents).out = p.out ++ membersOf r n
  | .elem tag ns endPad, p, hflat, hp => by
      unfold Flat at hflat
      unfold membersOf
      by_cases hname : isObjectNode tag.name = true
      · rw [if_pos hname] at hflat ⊢
        exact run_node hname hflat hp
      · rw [if_neg hname] at hflat ⊢
        have hstart : p.readStart tag.name = p := by
          unfold readStart
          rw [if_neg hname, hp.inNode]
          rfl
        obtain ⟨hidle, hout⟩ := run_trees ns p hflat hp
        rw [run_elem, hstart]
        unfold readEnd
        rw [if_neg hname]
        exact ⟨⟨hidle.inNode, rfl⟩, hout⟩
  | .empty tag, p, _, hp => ⟨⟨hp.inNode, hp.currentField⟩, rfl⟩
  | .text s, p, _, hp => by
      have hread : p.readText r s = p :=
        if_neg fun h => by
          rw [hp.inNode] at h
          cases h.2
      show (p.readText r s).Idle ∧ (p.readText r s).out = p.out ++ []
      rw [hread, List.append_nil]
      exact ⟨hp, rfl⟩
  | .cdata _, p, _, hp => ⟨hp, (List.append_nil _).symm⟩
  | .comment _, p, _, hp => ⟨hp, (List.append_nil _).symm⟩
  | .pi _, p, _, hp => ⟨hp, (List.append_nil _).symm⟩

theorem run_trees : ∀ (ns : List Node) (p : NodeStructure), nodesFlat ns →
    p.Idle → (run r p (nodesTagEvents ns)).Idle
      ∧ (run r p (nodesTagEvents ns)).out = p.out ++ nodesMembers r ns
  | [], p, _, hp => ⟨hp, (List.append_nil _).symm⟩
  | n :: ns, p, hflat, hp => by
      obtain ⟨hidle, hout⟩ := run_tree n p hflat.1 hp
      obtain ⟨hidle', hout'⟩ := run_trees ns _ hflat.2 hidle
      rw [run_nodes_cons]
      refine ⟨hidle', ?_⟩
      rw [hout', hout, nodesMembers, List.append_assoc]

end

/-- Outside the root nothing is added. -/
theorem run_outside {es : List TagEvent} (h : ∀ e ∈ es, e.isOutside = true)
    {p : NodeStructure} (hp : p.inNode = false) : run r p es = p := by
  induction es with
  | nil => rfl
  | cons e es ih =>
      obtain ⟨he, hes⟩ := List.forall_mem_cons.mp h
      have hread : p.read r e = p := by
        cases e with
        | start name attrs => cases he
        | empty name attrs => cases he
        | «end» name => cases he
        | cdata s => cases he
        | other => rfl
        | text s =>
            refine if_neg fun h => ?_
            rw [hp] at h
            cases h.2
      show run r (p.read r e) es = p
      rw [hread]
      exact ih hes

end Run

end NodeStructure

/-- Of every document that is read and whose nodes hold nothing but their
fields, a package's members are those of the tree, in order: however deep
the nodes stand, whatever stands between them, and in whatever order their
fields come. -/
theorem nodestructure_members (r : TagReader) (d : Document) (hr : r.Reads d)
    (hflat : Flat d.root) :
    parseNodestructure r d.render = membersOf r d.root := by
  obtain ⟨pre, post, hout, hevents⟩ := hr.events
  have hidle : NodeStructure.initial.Idle := ⟨rfl, rfl⟩
  obtain ⟨hidle', htree⟩ := NodeStructure.run_tree d.root _ hflat hidle
  unfold parseNodestructure
  rw [hevents, NodeStructure.loop_ok, NodeStructure.run_append,
    NodeStructure.run_outside (fun e he => hout e (List.mem_append_left _ he))
      hidle.inNode, NodeStructure.run_append,
    NodeStructure.run_outside (fun e he => hout e (List.mem_append_right _ he))
      hidle'.inNode, htree]
  rfl

def fieldNode (name text : String) : Node :=
  .elem (plainTag name []) [.text text.toList] []

theorem fieldNode_legal {name text : String}
    (hname : isName name.toList = true)
    (htext : (Node.text text.toList).Legal false) :
    (fieldNode name text).Legal false :=
  plainElem_legal hname ⟨htext, trivial, fun _ m hm => by cases hm⟩

/-- A package of a class and a program, whose fields come in two orders. -/
def packageRoot : Node :=
  .elem (plainTag "asx:values" [])
    [.elem (plainTag "SEU_ADT_REPOSITORY_OBJ_NODE" [])
        [fieldNode "OBJECT_TYPE" "CLAS/OC", fieldNode "OBJECT_NAME" " ZCL_A ",
          fieldNode "DESCRIPTION" "Alpha"] [],
      .elem (plainTag "SEU_ADT_REPOSITORY_OBJ_NODE" [])
        [fieldNode "OBJECT_NAME" "ZREP", fieldNode "OBJECT_TYPE" "PROG/P"] []]
    []

theorem plainText_legal {t : String} (hne : t.toList ≠ [])
    (hall : t.toList.all (fun c => isXmlChar c && c != '<' && c != '&'
      && c != ']') = true) : (Node.text t.toList).Legal false := by
  have hchars : ∀ c ∈ t.toList,
      isXmlChar c = true ∧ c ≠ '<' ∧ c ≠ '&' ∧ c ≠ ']' := by
    intro c hc
    have h := List.all_eq_true.mp hall c hc
    simp only [Bool.and_eq_true, bne_iff_ne, ne_eq] at h
    exact ⟨h.1.1.1, h.1.1.2, h.1.2, h.2⟩
  refine ⟨hne, fun hm => (hchars _ hm).2.1 rfl, ?_,
    fun c hc => (hchars c hc).1, ?_⟩
  · intro hclose
    exact (hchars ']' (hclose.subset (List.mem_cons_self ..))).2.2.2 rfl
  · unfold RefsLegal
    rw [unescapeGo_plain fun hm => (hchars _ hm).2.2.1 rfl]
    rfl

theorem packageRoot_legal : packageRoot.Legal false := by
  have hfield : ∀ {name text : String}, isName name.toList = true →
      text.toList ≠ [] → text.toList.all (fun c => isXmlChar c && c != '<'
        && c != '&' && c != ']') = true → (fieldNode name text).Legal false :=
    fun hname hne hall => fieldNode_legal hname (plainText_legal hne hall)
  refine plainElem_legal (by decide) (nodesLegal_cons ?_ rfl
    (nodesLegal_cons ?_ rfl trivial))
  · exact plainElem_legal (by decide)
      (nodesLegal_cons (hfield (by decide) (by decide) (by decide)) rfl
      (nodesLegal_cons (hfield (by decide) (by decide) (by decide)) rfl
      (nodesLegal_cons (hfield (by decide) (by decide) (by decide)) rfl
        trivial)))
  · exact plainElem_legal (by decide)
      (nodesLegal_cons (hfield (by decide) (by decide) (by decide)) rfl
      (nodesLegal_cons (hfield (by decide) (by decide) (by decide)) rfl
        trivial))

/-- Its members. -/
theorem nodestructure_members_two :
    parseNodestructure lexTagReader (plainDocument packageRoot).render
      = [⟨"ZCL_A", .class_, some "Alpha"⟩, ⟨"ZREP", .program, none⟩] := by
  have hfield : ∀ {name text : String}, isObjectNode name.toList = false →
      InNode (fieldNode name text) := fun hname =>
    ⟨hname, List.forall_mem_singleton.mpr trivial⟩
  have hflat : Flat packageRoot := by
    refine ⟨?_, ?_, trivial⟩
    · exact List.forall_mem_cons.mpr ⟨hfield (by decide),
        List.forall_mem_cons.mpr ⟨hfield (by decide),
          List.forall_mem_singleton.mpr (hfield (by decide))⟩⟩
    · exact List.forall_mem_cons.mpr ⟨hfield (by decide),
        List.forall_mem_singleton.mpr (hfield (by decide))⟩
  exact (nodestructure_members lexTagReader _ (lexTagReader_reads
    (plainDocument_legal packageRoot_legal rfl)) hflat).trans (by decide)

end SapAutomate.Adt
