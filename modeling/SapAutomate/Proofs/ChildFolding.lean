/-
What the parser of replies keeps of an element's children
(`parse_children`, `insert_merge` of `sap-automate-rfc/src/soap.rs`): all of
them, under their local names and in order, at every depth.

`Folded` says what the JSON of a tree is to be, without the parser's frames.
No element's value is an array, so an array under a name is always one that
was folded (`get_insertMerge_self`).
-/
import SapAutomate.Proofs.TreeValue
import SapAutomate.Proofs.Truncation

namespace SapAutomate.Soap

open Json Rfc Xml

/-- What a node adds to the text of the element it is in. -/
def nodeText (r : Reader) : Node → List Char
  | .text s =>
      if Text.trimBy isSpace s = [] then []
      else (r.unescape (Text.trimBy isSpace s)).getD []
  | .cdata s => s
  | _ => []

/-- The values of the elements of a local name, in order. -/
def named (key : String) (ns : List Node) (vs : List Value) : List Value :=
  (ns.zip vs).filterMap fun x =>
    if localName x.1.name = key then some x.2 else none

/-- The JSON of an element: the empty text of an empty-element tag, the text
of one without elements, and else, under each local name, the values of the
elements of that name: one by itself, several as an array. -/
inductive Folded (r : Reader) : Node → Value → Prop where
  | empty (tag : Tag) : Folded r (.empty tag) (.string "")
  | text (tag : Tag) {ns : List Node} (endPad : List Char)
      (h : ∀ n ∈ ns, n.isElem = false) :
      Folded r (.elem tag ns endPad) (.string (String.ofList
        (Text.trimBy Text.isWhitespace (ns.flatMap (nodeText r)))))
  | children (tag : Tag) {ns : List Node} (endPad : List Char)
      {vs : List Value} {m : Map}
      (hvs : List.Forall₂ (Folded r) (ns.filter Node.isElem) vs)
      (hne : vs ≠ [])
      (hm : ∀ key, Map.get m key
        = merged (named key (ns.filter Node.isElem) vs)) :
      Folded r (.elem tag ns endPad) (.object m)

-- ================================================================= values

/-- Without elements the text is gathered, and nothing else. -/
theorem absorbNodes_text (r : Reader) {ns : List Node}
    (h : ∀ n ∈ ns, n.isElem = false) (st : Frame) :
    absorbNodes r st ns
      = { st with text := st.text ++ ns.flatMap (nodeText r) } := by
  induction ns generalizing st with
  | nil =>
      rw [absorbNodes_nil, List.flatMap_nil, List.append_nil]
  | cons n ns ih =>
      obtain ⟨hn, hns⟩ := List.forall_mem_cons.mp h
      have hone : absorbNode r st n
          = { st with text := st.text ++ nodeText r n } := by
        cases n with
        | elem tag ns endPad => cases hn
        | empty tag => cases hn
        | text s =>
            unfold absorbNode
            by_cases hs : Text.trimBy isSpace s = []
            · rw [if_pos hs, show nodeText r (.text s) = [] from if_pos hs,
                List.append_nil]
            · rw [if_neg hs, Frame.addText,
                show nodeText r (.text s) = _ from if_neg hs]
              cases r.unescape (Text.trimBy isSpace s) with
              | none => exact (congrArg (fun t => { st with text := t })
                  (List.append_nil st.text)).symm
              | some t => rfl
        | cdata s => rfl
        | comment s => exact (congrArg (fun t => { st with text := t })
            (List.append_nil st.text)).symm
        | pi s => exact (congrArg (fun t => { st with text := t })
            (List.append_nil st.text)).symm
      rw [absorbNodes_cons, hone, ih hns, List.flatMap_cons,
        List.append_assoc]

/-- The values of a name, of the elements with what they are read as. -/
theorem named_childValue (r : Reader) (key : String) (ns : List Node) :
    named key (ns.filter Node.isElem)
        ((ns.filter Node.isElem).map (childValue r))
      = valuesNamed r key ns := by
  unfold named valuesNamed
  induction ns with
  | nil => rfl
  | cons n ns ih =>
      by_cases helem : n.isElem = true
      · rw [List.filter_cons_of_pos helem, List.map_cons, List.zip_cons_cons]
        by_cases hname : localName n.name = key
        · simp only [List.filterMap_cons, if_pos hname]
          rw [ih, List.filter_cons_of_pos (by simp [helem, hname]),
            List.map_cons]
        · simp only [List.filterMap_cons, if_neg hname]
          rw [ih, List.filter_cons_of_neg (by simp [hname])]
      · rw [List.filter_cons_of_neg helem, ih,
          List.filter_cons_of_neg (by simp [helem])]

mutual

/-- An element is read as it is to be folded. -/
theorem folded_node (r : Reader) :
    ∀ n : Node, n.isElem = true → Folded r n (childValue r n)
  | .elem tag ns endPad, _ => by
      have hvs := folded_nodes r ns
      by_cases helem : ∃ n ∈ ns, n.isElem = true
      · have hcount : (absorbNodes r .initial ns).childCount ≠ 0 := by
          rw [childCount_absorbNodes]
          have hpos : 0 < ns.countP Node.isElem :=
            List.countP_pos_iff.mpr helem
          exact Nat.ne_of_gt (Nat.lt_of_lt_of_le hpos (Nat.le_add_left _ _))
        have hvalue : childValue r (.elem tag ns endPad)
            = .object (absorbNodes r .initial ns).map := if_neg hcount
        rw [hvalue]
        refine .children tag endPad hvs ?_ fun key => ?_
        · obtain ⟨n, hn, hisElem⟩ := helem
          exact List.ne_nil_of_mem (List.mem_map_of_mem
            (List.mem_filter.mpr ⟨hn, hisElem⟩))
        · rw [named_childValue]
          exact get_absorbNodes r key ns .initial [] (List.forall_mem_nil _) rfl
      · have hnone : ∀ n ∈ ns, n.isElem = false := fun n hn =>
          Bool.eq_false_of_not_eq_true fun h => helem ⟨n, hn, h⟩
        have hvalue : childValue r (.elem tag ns endPad) = .string
            (String.ofList (Text.trimBy Text.isWhitespace
              (ns.flatMap (nodeText r)))) := by
          show (absorbNodes r .initial ns).finish = _
          rw [absorbNodes_text r hnone]
          rfl
        rw [hvalue]
        exact .text tag endPad hnone
  | .empty tag, _ => .empty tag
  | .text _, h => by cases h
  | .cdata _, h => by cases h
  | .comment _, h => by cases h
  | .pi _, h => by cases h
termination_by structural n => n

/-- Elements are, each of them. -/
theorem folded_nodes (r : Reader) :
    ∀ ns : List Node, List.Forall₂ (Folded r) (ns.filter Node.isElem)
      ((ns.filter Node.isElem).map (childValue r))
  | [] => .nil
  | n :: ns => by
      have hns := folded_nodes r ns
      by_cases helem : n.isElem = true
      · rw [List.filter_cons_of_pos helem, List.map_cons]
        exact .cons (folded_node r n helem) hns
      · rw [List.filter_cons_of_neg helem]
        exact hns
termination_by structural ns => ns

end

-- ================================================================== depth

mutual

/-- A node that is too deep is an error. -/
theorem children_node_deep (r : Reader) :
    ∀ (n : Node) (depth : Nat) (st : Frame) (rest : Events),
      maxXmlDepth < depth + nodeHeight n → depth ≤ maxXmlDepth →
      children r depth st (n.events.map .ok ++ rest) = .error tooDeep
  | .elem tag ns endPad, depth, st, rest, hd, hdepth => by
      unfold nodeHeight at hd
      have hevents : (Node.elem tag ns endPad).events.map Except.ok ++ rest
          = .ok (.start tag.name) :: ((nodesEvents ns).map .ok
            ++ (.ok (.end tag.name) :: rest)) := by
        simp [Node.events]
      rw [hevents, children_start]
      by_cases hnext : depth + 1 > maxXmlDepth
      · rw [if_pos hnext]
      · rw [if_neg hnext, children_nodes_deep r ns (depth + 1) .initial _
          (by omega) (by omega)]
  | .empty _, _, _, _, hd, hdepth => by
      unfold nodeHeight at hd
      omega
  | .text _, _, _, _, hd, hdepth => by
      unfold nodeHeight at hd
      omega
  | .cdata _, _, _, _, hd, hdepth => by
      unfold nodeHeight at hd
      omega
  | .comment _, _, _, _, hd, hdepth => by
      unfold nodeHeight at hd
      omega
  | .pi _, _, _, _, hd, hdepth => by
      unfold nodeHeight at hd
      omega
termination_by structural n => n

/-- Content with one is. -/
theorem children_nodes_deep (r : Reader) :
    ∀ (ns : List Node) (depth : Nat) (st : Frame) (rest : Events),
      maxXmlDepth < depth + nodesHeight ns → depth ≤ maxXmlDepth →
      children r depth st ((nodesEvents ns).map .ok ++ rest)
        = .error tooDeep
  | [], _, _, _, hd, hdepth => by
      unfold nodesHeight at hd
      omega
  | n :: ns, depth, st, rest, hd, hdepth => by
      unfold nodesHeight at hd
      unfold nodesEvents
      rw [List.map_append, List.append_assoc]
      by_cases hn : maxXmlDepth < depth + nodeHeight n
      · exact children_node_deep r n depth st _ hn hdepth
      · rw [children_node r n depth st _ (by omega)]
        exact children_nodes_deep r ns depth _ rest (by omega) hdepth
termination_by structural ns => ns

end

/-- A document whose root is open is read as the folded tree, or is too
deep. -/
theorem children_kept {r : Reader} (hr : r.ReadsDocuments) {d : Document}
    (hd : d.Legal) {tag : Tag} {ns : List Node} {endPad : List Char}
    (hroot : d.root = .elem tag ns endPad) :
    (nodeHeight d.root ≤ maxXmlDepth →
        ∃ v, xmlToJsonRoot r d.render = .ok v ∧ Folded r d.root v)
      ∧ (maxXmlDepth < nodeHeight d.root →
        xmlToJsonRoot r d.render = .error tooDeep) := by
  have hheight : nodeHeight d.root = nodesHeight ns + 1 := by
    rw [hroot]
    rfl
  constructor
  · intro hle
    refine ⟨contentValue r ns,
      xmlToJsonRoot_document hr hd hroot (by omega), ?_⟩
    rw [hroot]
    exact folded_node r (.elem tag ns endPad) rfl
  · intro hlt
    obtain ⟨pre, post, hpre, hevents⟩ := hd.tokenEvents
    have hsplit : ((d.root.events ++ post).map .ok : Events)
        = .ok (.start tag.name) :: ((nodesEvents ns).map .ok
          ++ (.ok (.end tag.name) :: post.map .ok)) := by
      rw [hroot]
      simp [Node.events]
    unfold xmlToJsonRoot
    rw [hr.whole hd, hevents, List.map_append, rootLoop_other r _ hpre,
      hsplit, rootLoop_start, children_nodes_deep r ns 1 .initial _
        (by omega) (by decide)]
    rfl

/-- The folded reply of two rows, which are under one name. -/
theorem children_kept_twoRow :
    ∃ v, xmlToJsonRoot lexReader twoRowReply.render = .ok v
      ∧ Folded lexReader twoRowReply.root v :=
  (children_kept lexReader_reads twoRowReply_legal rfl).1
    (by decide +kernel)

end SapAutomate.Soap
