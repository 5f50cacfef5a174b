/-
What the parser makes of a whole legal document: `contentValue`, a
function of the tree. The parser's own recursion goes over events;
`children_nodes` says that it computes the same, as long as the tree is
no deeper than the parser allows.

Below it, what `insert_merge` gathers under a key: the values of the
children of that name, in order (`get_absorbNodes`).
-/
import SapAutomate.Lib.Xml.Reading
import SapAutomate.Soap.Decode

namespace SapAutomate.Soap

open Json Rfc Xml

-- ================================================================ the value

mutual

/-- What a node adds to the element it is in. -/
def absorbNode (r : Reader) (st : Frame) : Node → Frame
  | .elem tag ns _ => st.child tag.name (absorbNodes r .initial ns).finish
  | .empty tag => st.child tag.name (.string "")
  | .text s =>
      if Text.trimBy isSpace s = [] then st
      else st.addText r (Text.trimBy isSpace s)
  | .cdata s => st.addCdata s
  | .comment _ => st
  | .pi _ => st
termination_by structural n => n

def absorbNodes (r : Reader) (st : Frame) : List Node → Frame
  | [] => st
  | n :: ns => absorbNodes r (absorbNode r st n) ns
termination_by structural ns => ns

end

theorem absorbNodes_nil (r : Reader) (st : Frame) :
    absorbNodes r st [] = st := rfl

theorem absorbNodes_cons (r : Reader) (st : Frame) (n : Node)
    (ns : List Node) :
    absorbNodes r st (n :: ns) = absorbNodes r (absorbNode r st n) ns := rfl

/-- The value of an element with this content. -/
def contentValue (r : Reader) (ns : List Node) : Value :=
  (absorbNodes r .initial ns).finish

mutual

/-- The levels of elements, empty-element tags apart. -/
def nodeHeight : Node → Nat
  | .elem _ ns _ => nodesHeight ns + 1
  | _ => 0
termination_by structural n => n

def nodesHeight : List Node → Nat
  | [] => 0
  | n :: ns => max (nodeHeight n) (nodesHeight ns)
termination_by structural ns => ns

end

-- =========================================================== the recursion

mutual

/-- The loop takes in a node. -/
theorem children_node (r : Reader) :
    ∀ (n : Node) (depth : Nat) (st : Frame) (rest : Events),
      depth + nodeHeight n ≤ maxXmlDepth →
      children r depth st (n.events.map .ok ++ rest)
        = children r depth (absorbNode r st n) rest
  | .elem tag ns endPad, depth, st, rest, hd => by
      unfold nodeHeight at hd
      have hdepth : ¬ depth + 1 > maxXmlDepth := by omega
      have hinner := children_nodes r ns (depth + 1) .initial
        (.ok (.end tag.name) :: rest) (by omega)
      have hevents : (Node.elem tag ns endPad).events.map Except.ok ++ rest
          = .ok (.start tag.name) :: ((nodesEvents ns).map .ok
            ++ (.ok (.end tag.name) :: rest)) := by
        simp [Node.events]
      rw [hevents, children_start, if_neg hdepth, hinner, children_end]
      rfl
  | .empty tag, depth, st, rest, _ => children_empty r depth st rest tag.name
  | .text s, depth, st, rest, _ => by
      unfold Node.events textEvents absorbNode
      by_cases hs : Text.trimBy isSpace s = []
      · rw [if_pos hs, if_pos hs]
        rfl
      · rw [if_neg hs, if_neg hs]
        exact children_text r depth st rest _
  | .cdata s, depth, st, rest, _ => children_cdata r depth st rest s
  | .comment _, depth, st, rest, _ => children_other r depth st rest
  | .pi _, depth, st, rest, _ => children_other r depth st rest
termination_by structural n => n

/-- The loop takes in the content of an element. -/
theorem children_nodes (r : Reader) :
    ∀ (ns : List Node) (depth : Nat) (st : Frame) (rest : Events),
      depth + nodesHeight ns ≤ maxXmlDepth →
      children r depth st ((nodesEvents ns).map .ok ++ rest)
        = children r depth (absorbNodes r st ns) rest
  | [], _, _, _, _ => rfl
  | n :: ns, depth, st, rest, hd => by
      unfold nodesHeight at hd
      unfold nodesEvents absorbNodes
      rw [List.map_append, List.append_assoc,
        children_node r n depth st _ (by omega),
        children_nodes r ns depth _ rest (by omega)]
termination_by structural ns => ns

end

/-- A whole document is read as the value of its root's content. -/
theorem xmlToJsonRoot_document {r : Reader} (hr : r.ReadsDocuments)
    {d : Document} (hd : d.Legal) {tag : Tag} {ns : List Node}
    {endPad : List Char} (hroot : d.root = .elem tag ns endPad)
    (hdepth : 1 + nodesHeight ns ≤ maxXmlDepth) :
    xmlToJsonRoot r d.render = .ok (contentValue r ns) := by
  obtain ⟨pre, post, hpre, hevents⟩ := hd.tokenEvents
  have hsplit : ((d.root.events ++ post).map .ok : Events)
      = .ok (.start tag.name) :: ((nodesEvents ns).map .ok
        ++ (.ok (.end tag.name) :: post.map .ok)) := by
    rw [hroot]
    simp [Node.events]
  unfold xmlToJsonRoot
  rw [hr.whole hd, hevents, List.map_append, rootLoop_other r _ hpre, hsplit,
    rootLoop_start, children_nodes r ns 1 .initial _ hdepth, children_end]
  rfl

-- ============================================================ text content

theorem isWhitespace_of_space {c : Char} (h : isSpace c = true) :
    Text.isWhitespace c = true := by
  unfold isSpace at h
  simp only [Bool.or_eq_true, beq_iff_eq] at h
  rcases h with ((rfl | rfl) | rfl) | rfl <;> decide

/-- An element that holds a text has the text, trimmed, for its value:
what the reader trims off beforehand would go anyway. -/
theorem contentValue_text {r : Reader} (hr : r.ReadsDocuments)
    {t : List Char} {ns : List Node} (h : ShowsText t ns) :
    contentValue r ns
      = .string (String.ofList (Text.trimBy Text.isWhitespace t)) := by
  cases h with
  | empty ht =>
      rw [ht]
      rfl
  | text s hs =>
      obtain ⟨l, m, hsplit, hl, hm⟩ := Text.trimBy_split isSpace s
      have hplain : ∀ {d : Char} {u : List Char},
          (∀ c ∈ u, isSpace c = true) → isSpace d = false → d ∉ u := by
        intro d u hu hd hmem
        have hsp := hu d hmem
        rw [hd] at hsp
        cases hsp
      have hread : unescape (l ++ (Text.trimBy isSpace s ++ m)) = some t := by
        rw [← hsplit]
        exact hs
      rw [unescape_pad _ (hplain hl (by decide)) (hplain hm (by decide))
        (hplain hm (by decide))] at hread
      obtain ⟨u, hu, rfl⟩ := Option.map_eq_some_iff.mp hread
      rw [Text.trimBy_pad u (fun a ha => isWhitespace_of_space (hl a ha))
        fun a ha => isWhitespace_of_space (hm a ha)]
      unfold contentValue absorbNodes absorbNodes absorbNode
      by_cases hnil : Text.trimBy isSpace s = []
      · rw [hnil] at hu
        cases hu
        rw [if_pos hnil]
        rfl
      · rw [if_neg hnil]
        unfold Frame.addText
        rw [hr.unescape _ _ hu]
        rfl

-- ========================================================= gathered values

/-- A name without a prefix is its own local name. -/
theorem localName_of_plain {k : String} (h : ':' ∉ k.toList) :
    localName k.toList = k := by
  unfold localName
  have hall : k.toList.rtakeWhile (fun c => c != ':') = k.toList := by
    rw [List.rtakeWhile_eq_self_iff]
    intro c hc
    have hne : c ≠ ':' := fun heq => h (heq ▸ hc)
    simpa using hne
  rw [hall, String.ofList_toList]

/-- The value of a child element. -/
def childValue (r : Reader) (n : Node) : Value := contentValue r n.children

/-- The values of the child elements of a local name, in order. -/
def valuesNamed (r : Reader) (key : String) (ns : List Node) : List Value :=
  (ns.filter fun n => n.isElem && localName n.name == key).map (childValue r)

/-- What `insert_merge` makes of the values for one key. -/
def merged : List Value → Option Value
  | [] => none
  | [v] => some v
  | vs => some (.array vs)

/-- No element's value is an array. -/
theorem finish_not_array (st : Frame) (a : List Value) :
    st.finish ≠ .array a := by
  unfold Frame.finish
  split <;> intro h <;> cases h

theorem get_insertMerge_ne {m : Map} {k key : String} (h : k ≠ key)
    (v : Value) : (insertMerge m k v).get key = m.get key := by
  unfold insertMerge
  split <;> exact Map.get_insert_ne h ..

/-- A value joins those gathered before. -/
theorem get_insertMerge_self {m : Map} {k : String} {vs : List Value}
    (hvs : ∀ v ∈ vs, ∀ a, v ≠ .array a) (hm : m.get k = merged vs)
    (v : Value) : (insertMerge m k v).get k = merged (vs ++ [v]) := by
  unfold insertMerge
  match vs, hm, hvs with
  | [], hm, _ =>
      rw [hm]
      exact Map.get_insert_self ..
  | [w], hm, hvs =>
      have hw := hvs w (List.mem_cons_self ..)
      rw [hm]
      cases w with
      | array a => exact absurd rfl (hw a)
      | null => exact Map.get_insert_self ..
      | bool b => exact Map.get_insert_self ..
      | number n => exact Map.get_insert_self ..
      | string s => exact Map.get_insert_self ..
      | object o => exact Map.get_insert_self ..
  | w :: x :: vs, hm, _ =>
      rw [hm]
      exact Map.get_insert_self ..

/-- An element is taken in as a child, anything else leaves the map. -/
theorem absorbNode_elem (r : Reader) (st : Frame) {n : Node}
    (h : n.isElem = true) :
    absorbNode r st n = st.child n.name (childValue r n) := by
  cases n with
  | elem tag ns endPad => rfl
  | empty tag => rfl
  | text s => cases h
  | cdata s => cases h
  | comment s => cases h
  | pi s => cases h

theorem absorbNode_other (r : Reader) (st : Frame) {n : Node}
    (h : n.isElem = false) :
    (absorbNode r st n).map = st.map
      ∧ (absorbNode r st n).childCount = st.childCount := by
  cases n with
  | elem tag ns endPad => cases h
  | empty tag => cases h
  | text s =>
      unfold absorbNode
      split
      · exact ⟨rfl, rfl⟩
      · unfold Frame.addText
        split <;> exact ⟨rfl, rfl⟩
  | cdata s => exact ⟨rfl, rfl⟩
  | comment s => exact ⟨rfl, rfl⟩
  | pi s => exact ⟨rfl, rfl⟩

/-- Under a key the map holds the values of the children so named. -/
theorem get_absorbNodes (r : Reader) (key : String) :
    ∀ (ns : List Node) (st : Frame) (vs : List Value),
      (∀ v ∈ vs, ∀ a, v ≠ .array a) → st.map.get key = merged vs →
      (absorbNodes r st ns).map.get key = merged (vs ++ valuesNamed r key ns) := by
  intro ns
  induction ns with
  | nil =>
      intro st vs _ hm
      rw [show valuesNamed r key [] = [] from rfl, List.append_nil]
      exact hm
  | cons n ns ih =>
      intro st vs hvs hm
      unfold absorbNodes
      by_cases helem : n.isElem = true
      · rw [absorbNode_elem r st helem]
        by_cases hname : localName n.name = key
        · have hnamed : valuesNamed r key (n :: ns)
              = childValue r n :: valuesNamed r key ns := by
            simp [valuesNamed, helem, hname]
          have hget : (st.child n.name (childValue r n)).map.get key
              = merged (vs ++ [childValue r n]) := by
            unfold Frame.child
            rw [hname]
            exact get_insertMerge_self hvs hm _
          have hvs' : ∀ v ∈ vs ++ [childValue r n], ∀ a, v ≠ .array a := by
            intro v hv
            rcases List.mem_append.mp hv with hv | hv
            · exact hvs v hv
            · rw [List.mem_singleton.mp hv]
              exact finish_not_array _
          rw [ih _ _ hvs' hget, hnamed, List.append_assoc]
          rfl
        · have hnamed : valuesNamed r key (n :: ns) = valuesNamed r key ns := by
            simp [valuesNamed, hname]
          rw [ih _ vs hvs (by
            unfold Frame.child
            rw [get_insertMerge_ne hname]
            exact hm), hnamed]
      · have hother : n.isElem = false := by simpa using helem
        have hnamed : valuesNamed r key (n :: ns) = valuesNamed r key ns := by
          simp [valuesNamed, hother]
        rw [ih _ vs hvs (by
          rw [(absorbNode_other r st hother).1]
          exact hm), hnamed]

/-- The children counted are the elements. -/
theorem childCount_absorbNodes (r : Reader) :
    ∀ (ns : List Node) (st : Frame),
      (absorbNodes r st ns).childCount
        = st.childCount + ns.countP Node.isElem := by
  intro ns
  induction ns with
  | nil => intro st; rfl
  | cons n ns ih =>
      intro st
      unfold absorbNodes
      rw [ih]
      by_cases helem : n.isElem = true
      · rw [absorbNode_elem r st helem, List.countP_cons_of_pos helem]
        show st.childCount + 1 + _ = _
        omega
      · have hother : n.isElem = false := by simpa using helem
        rw [(absorbNode_other r st hother).2, List.countP_cons_of_neg helem]

/-- What an element holds under a key. -/
theorem get_contentValue (r : Reader) (key : String) {ns : List Node}
    (h : ∃ n ∈ ns, n.isElem = true) :
    (contentValue r ns).get key = merged (valuesNamed r key ns) := by
  have hcount := childCount_absorbNodes r ns .initial
  have hpos : 0 < ns.countP Node.isElem := List.countP_pos_iff.mpr h
  have hne : ¬ (absorbNodes r .initial ns).childCount = 0 := by
    rw [hcount]
    show ¬ 0 + _ = 0
    omega
  unfold contentValue Frame.finish
  rw [if_neg hne]
  show Map.get (absorbNodes r .initial ns).map key = _
  have hget := get_absorbNodes r key ns .initial []
    (fun _ hv => (nomatch hv)) rfl
  rw [hget, List.nil_append]

end SapAutomate.Soap
