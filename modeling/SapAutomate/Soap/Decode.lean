/-
Reading a reply (`sap-automate-rfc/src/soap.rs`): the events of an XML
reader become JSON — a text-only element a string, an element with
children an object, repeated children an array — and the payload is
taken out of the SOAP body.

The reader is a parameter. The end of its events is `Eof`, which
`parse_children` takes like an `End`.

`parse_children` and its loop call each other; both are given fuel here
and `children` is the loop with enough of it: the equations after it
are the loop's branches, and mention no fuel.
-/
import SapAutomate.Json.Value
import SapAutomate.Lib.Xml.Event
import SapAutomate.Rfc.Error

namespace SapAutomate.Soap

open Json Rfc Xml

-- ============================================================ one element

/-- What the reader reports, up to its end or its first error. -/
abbrev Events := List (Except String Event)

/-- `MAX_XML_DEPTH`. -/
def maxXmlDepth : Nat := 256

/-- `local_name`: what follows the last colon. -/
def localName (qname : List Char) : String :=
  String.ofList (qname.rtakeWhile fun c => c != ':')

/-- `insert_merge`: a repeated key folds to an array. -/
def insertMerge (map : Map) (key : String) (val : Value) : Map :=
  match map.get key with
  | some (.array arr) => map.insert key (.array (arr ++ [val]))
  | some prev => map.insert key (.array [prev, val])
  | none => map.insert key val

/-- The variables of `parse_children`'s loop. -/
structure Frame where
  map : Map
  text : List Char
  childCount : Nat

namespace Frame

/-- Before the loop. -/
def initial : Frame := ⟨[], [], 0⟩

/-- A child element. -/
def child (st : Frame) (qname : List Char) (val : Value) : Frame :=
  { st with
    map := insertMerge st.map (localName qname) val
    childCount := st.childCount + 1 }

/-- A text, dropped when its references cannot be replaced. -/
def addText (st : Frame) (r : Reader) (t : List Char) : Frame :=
  match r.unescape t with
  | some s => { st with text := st.text ++ s }
  | none => st

/-- A CDATA section. -/
def addCdata (st : Frame) (t : List Char) : Frame :=
  { st with text := st.text ++ t }

/-- After the loop. -/
def finish (st : Frame) : Value :=
  if st.childCount = 0 then
    .string (String.ofList (Text.trimBy Text.isWhitespace st.text))
  else .object st.map

end Frame

/-- The error for an element too deep. -/
def tooDeep : RfcError := .internal "XML nesting exceeds 256 levels"

/-- The error for an error of the reader. -/
def xmlError (e : String) : RfcError := .internal ("XML parse: " ++ e)

mutual

/-- `parse_children`: the value of the element whose start was just
consumed, and the events after it. -/
def parseChildren (r : Reader) :
    Nat → Nat → Events → RfcResult (Value × Events)
  | 0, _, _ => .error (.internal "out of fuel")
  | fuel + 1, depth, es =>
      if depth > maxXmlDepth then .error tooDeep
      else childrenLoop r fuel depth .initial es
termination_by structural fuel => fuel

/-- The loop of `parse_children`. -/
def childrenLoop (r : Reader) :
    Nat → Nat → Frame → Events → RfcResult (Value × Events)
  | 0, _, _, _ => .error (.internal "out of fuel")
  | _ + 1, _, st, [] => .ok (st.finish, [])
  | fuel + 1, depth, st, e :: es =>
      match e with
      | .ok (.start n) =>
          match parseChildren r fuel (depth + 1) es with
          | .error err => .error err
          | .ok (child, rest) => childrenLoop r fuel depth (st.child n child) rest
      | .ok (.empty n) =>
          childrenLoop r fuel depth (st.child n (.string "")) es
      | .ok (.text t) => childrenLoop r fuel depth (st.addText r t) es
      | .ok (.cdata t) => childrenLoop r fuel depth (st.addCdata t) es
      | .ok (.end _) => .ok (st.finish, es)
      | .ok .other => childrenLoop r fuel depth st es
      | .error msg => .error (xmlError msg)
termination_by structural fuel => fuel

end

/-- The loop, with enough fuel for its events. -/
def children (r : Reader) (depth : Nat) (st : Frame) (es : Events) :
    RfcResult (Value × Events) :=
  childrenLoop r (2 * es.length + 1) depth st es

-- ========================================================== the document

/-- The loop of `xml_to_json_root`. -/
def rootLoop (r : Reader) : Events → RfcResult Value
  | [] => .error (.internal "empty SOAP response")
  | .ok (.start _) :: es =>
      (parseChildren r (2 * es.length + 2) 1 es).map Prod.fst
  | .ok _ :: es => rootLoop r es
  | .error msg :: _ => .error (xmlError msg)

/-- `xml_to_json_root`. -/
def xmlToJsonRoot (r : Reader) (xml : List Char) : RfcResult Value :=
  rootLoop r (r.events xml)

/-- `extract_body_payload`: the value of the body's first key. -/
def extractBodyPayload (root : Value) : RfcResult Value :=
  match (root.get "Body").bind Value.asObject with
  | none => .error (.internal "SOAP response has no Body")
  | some [] => .error (.internal "SOAP Body is empty")
  | some ((_, payload) :: _) => .ok payload

/-- `extract_fault`. -/
def extractFault (root : Value) : Option String :=
  (root.get "Body").bind fun body =>
    body.asObject.bind fun m =>
      (m.get "Fault").map fun fault =>
        ((fault.get "faultstring").bind Value.asStr).getD "unknown SOAP fault"

-- ================================================================= fuel

/-- More fuel than the events need makes no difference, and what is
left over is no longer than what there was. -/
theorem childrenLoop_stable (r : Reader) :
    ∀ (n : Nat) (es : Events), es.length ≤ n → ∀ (f g depth : Nat) (st : Frame),
      2 * es.length + 1 ≤ f → 2 * es.length + 1 ≤ g →
      childrenLoop r f depth st es = childrenLoop r g depth st es
        ∧ ∀ v rest, childrenLoop r f depth st es = .ok (v, rest) →
          rest.length ≤ es.length := by
  intro n
  induction n with
  | zero =>
      intro es hn f g depth st hf hg
      have hes : es = [] := List.length_eq_zero_iff.mp (by omega)
      subst hes
      obtain ⟨f, rfl⟩ : ∃ f', f = f' + 1 := ⟨f - 1, by omega⟩
      obtain ⟨g, rfl⟩ : ∃ g', g = g' + 1 := ⟨g - 1, by omega⟩
      refine ⟨rfl, fun v rest h => ?_⟩
      cases h
      exact Nat.le_refl _
  | succ n ih =>
      intro es hn f g depth st hf hg
      obtain ⟨f, rfl⟩ : ∃ f', f = f' + 1 := ⟨f - 1, by omega⟩
      obtain ⟨g, rfl⟩ : ∃ g', g = g' + 1 := ⟨g - 1, by omega⟩
      cases es with
      | nil =>
          refine ⟨rfl, fun v rest h => ?_⟩
          cases h
          exact Nat.le_refl _
      | cons e es =>
          rw [List.length_cons] at hn hf hg
          -- the next step of the loop, and its leftovers
          have step : ∀ st', childrenLoop r f depth st' es
                = childrenLoop r g depth st' es
              ∧ ∀ v rest, childrenLoop r f depth st' es = .ok (v, rest) →
                rest.length ≤ (e :: es).length := by
            intro st'
            obtain ⟨heq, hlen⟩ := ih es (by omega) f g depth st' (by omega)
              (by omega)
            refine ⟨heq, fun v rest h => ?_⟩
            have hle := hlen v rest h
            rw [List.length_cons]
            omega
          unfold childrenLoop
          match e with
          | .error msg => exact ⟨rfl, fun v rest h => (nomatch h)⟩
          | .ok (.empty n) => exact step _
          | .ok (.text t) => exact step _
          | .ok (.cdata t) => exact step _
          | .ok .other => exact step _
          | .ok (.end _) =>
              refine ⟨rfl, fun v rest h => ?_⟩
              cases h
              rw [List.length_cons]
              omega
          | .ok (.start n) =>
              obtain ⟨f, rfl⟩ : ∃ f', f = f' + 1 := ⟨f - 1, by omega⟩
              obtain ⟨g, rfl⟩ : ∃ g', g = g' + 1 := ⟨g - 1, by omega⟩
              obtain ⟨heq, hlen⟩ := ih es (by omega) f g (depth + 1) .initial
                (by omega) (by omega)
              simp only [parseChildren]
              by_cases hd : depth + 1 > maxXmlDepth
              · rw [if_pos hd, if_pos hd]
                exact ⟨rfl, fun v rest h => (nomatch h)⟩
              · rw [if_neg hd, if_neg hd, ← heq]
                cases hinner : childrenLoop r f (depth + 1) .initial es with
                | error err => exact ⟨rfl, fun v rest h => (nomatch h)⟩
                | ok p =>
                    obtain ⟨child, mid⟩ := p
                    have hmid : mid.length ≤ es.length := hlen child mid hinner
                    obtain ⟨heq', hlen'⟩ := ih mid (by omega) (f + 1) (g + 1)
                      depth (st.child n child) (by omega) (by omega)
                    refine ⟨heq', fun v rest h => ?_⟩
                    have hle := hlen' v rest h
                    rw [List.length_cons]
                    omega

-- ============================================================ the branches

section Branches

variable (r : Reader) (depth : Nat) (st : Frame) (es : Events)

/-- Any sufficient fuel gives the loop. -/
theorem childrenLoop_eq {f : Nat} (hf : 2 * es.length + 1 ≤ f) :
    childrenLoop r f depth st es = children r depth st es :=
  (childrenLoop_stable r es.length es (Nat.le_refl _) f _ depth st hf
    (Nat.le_refl _)).1

/-- The events after an element are among those after its start. -/
theorem children_length {v : Value} {rest : Events}
    (h : children r depth st es = .ok (v, rest)) :
    rest.length ≤ es.length :=
  (childrenLoop_stable r es.length es (Nat.le_refl _) _ _ depth st
    (Nat.le_refl _) (Nat.le_refl _)).2 v rest h

theorem children_end (n : List Char) :
    children r depth st (.ok (.end n) :: es) = .ok (st.finish, es) := rfl

theorem children_empty (n : List Char) :
    children r depth st (.ok (.empty n) :: es)
      = children r depth (st.child n (.string "")) es :=
  childrenLoop_eq r depth _ es (by rw [List.length_cons]; omega)

theorem children_text (t : List Char) :
    children r depth st (.ok (.text t) :: es)
      = children r depth (st.addText r t) es :=
  childrenLoop_eq r depth _ es (by rw [List.length_cons]; omega)

theorem children_cdata (t : List Char) :
    children r depth st (.ok (.cdata t) :: es)
      = children r depth (st.addCdata t) es :=
  childrenLoop_eq r depth _ es (by rw [List.length_cons]; omega)

theorem children_other :
    children r depth st (.ok .other :: es) = children r depth st es :=
  childrenLoop_eq r depth _ es (by rw [List.length_cons]; omega)

/-- A child element: its own value first, then the rest. -/
theorem children_start (n : List Char) :
    children r depth st (.ok (.start n) :: es)
      = if depth + 1 > maxXmlDepth then .error tooDeep
        else match children r (depth + 1) .initial es with
          | .error err => .error err
          | .ok (child, rest) => children r depth (st.child n child) rest := by
  have hlen : 2 * (.ok (.start n) :: es).length + 1
      = (2 * es.length + 1) + 1 + 1 := by
    rw [List.length_cons]
    omega
  show childrenLoop r (2 * (_ :: es).length + 1) depth st _ = _
  rw [hlen]
  unfold childrenLoop
  simp only [parseChildren]
  by_cases hd : depth + 1 > maxXmlDepth
  · rw [if_pos hd, if_pos hd]
  · rw [if_neg hd, if_neg hd]
    show (match children r (depth + 1) .initial es with
      | .error err => _
      | .ok (child, rest) => _) = _
    cases hinner : children r (depth + 1) .initial es with
    | error err => rfl
    | ok p =>
        obtain ⟨child, rest⟩ := p
        have hle := children_length r (depth + 1) .initial es hinner
        exact childrenLoop_eq r depth _ rest (by omega)

/-- The root element is one level deep. -/
theorem rootLoop_start (n : List Char) :
    rootLoop r (.ok (.start n) :: es)
      = (children r 1 .initial es).map Prod.fst := by
  unfold rootLoop parseChildren
  rw [if_neg (by decide)]
  rfl

/-- What stands in front of the root is skipped. -/
theorem rootLoop_other {pre : List Event} (hpre : ∀ e ∈ pre, e = .other) :
    rootLoop r (pre.map .ok ++ es) = rootLoop r es := by
  induction pre with
  | nil => rfl
  | cons e pre ih =>
      rw [hpre e (List.mem_cons_self ..)]
      exact ih fun f hf => hpre f (List.mem_cons_of_mem _ hf)

end Branches

end SapAutomate.Soap
