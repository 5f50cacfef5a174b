/-
Rendering a call (`sap-automate-rfc/src/soap.rs`): the parameters
become the child elements of the function's element in a SOAP envelope,
every key an element name, every scalar an escaped text.

Strings under construction are lists of characters. `validate_keys`
guards the names; it is run by `call_rfc` before anything is rendered.
-/
import SapAutomate.Json.Value
import SapAutomate.Rfc.Error

namespace SapAutomate.Soap

open Json Rfc

-- ============================================================= rendering

/-- `RFC_NAMESPACE`. -/
def rfcNamespace : String := "urn:sap-com:document:sap:rfc:functions"

/-- One character of `xml_escape`. -/
def escapeChar (c : Char) : List Char :=
  if c = '&' then "&amp;".toList
  else if c = '<' then "&lt;".toList
  else if c = '>' then "&gt;".toList
  else if c = '"' then "&quot;".toList
  else if c = '\'' then "&apos;".toList
  else [c]

/-- `xml_escape`. -/
def xmlEscape (s : List Char) : List Char := s.flatMap escapeChar

/-- `<tag>`. -/
def openTag (tag : List Char) : List Char := '<' :: (tag ++ ['>'])

/-- `</tag>`. -/
def closeTag (tag : List Char) : List Char := '<' :: '/' :: (tag ++ ['>'])

/-- `write_scalar`: what is no scalar leaves nothing. -/
def writeScalar : Value → List Char
  | .string s => xmlEscape s.toList
  | .number n => n.text.toList
  | .bool b => if b then ['X'] else []
  | _ => []

mutual

/-- `write_value`. -/
def writeValue (tag : List Char) : Value → List Char
  | .null => []
  | .bool b => openTag tag ++ ((if b then ['X'] else []) ++ closeTag tag)
  | .number n => openTag tag ++ (n.text.toList ++ closeTag tag)
  | .string s => openTag tag ++ (xmlEscape s.toList ++ closeTag tag)
  | .array items => openTag tag ++ (writeItems items ++ closeTag tag)
  | .object m => openTag tag ++ (writeParams m ++ closeTag tag)
termination_by structural v => v

/-- The `item` elements of an array. -/
def writeItems : List Value → List Char
  | [] => []
  | item :: items =>
      openTag "item".toList
        ++ ((match item with
          | .object m => writeParams m
          | scalar => writeScalar scalar)
        ++ (closeTag "item".toList ++ writeItems items))
termination_by structural items => items

/-- `write_params`. -/
def writeParams : List (String × Value) → List Char
  | [] => []
  | (k, v) :: m => writeValue k.toList v ++ writeParams m
termination_by structural m => m

end

/-- `build_envelope`. -/
def buildEnvelope (function : String) (paramsXml : List Char) : List Char :=
  "<?xml version=\"1.0\" encoding=\"UTF-8\"?>".toList
    ++ ("<soap:Envelope xmlns:soap=\"http://schemas.xmlsoap.org/soap/envelope/\" xmlns:rfc=\"".toList
    ++ (rfcNamespace.toList ++ ("\">".toList
    ++ (openTag "soap:Body".toList
    ++ (openTag ("rfc:".toList ++ function.toList) ++ (paramsXml
    ++ (closeTag ("rfc:".toList ++ function.toList)
    ++ (closeTag "soap:Body".toList
    ++ closeTag "soap:Envelope".toList))))))))

-- ============================================================ validation

/-- The alphabet of `is_safe_name`. -/
def isSafeChar (c : Char) : Bool := c.isAlphanum || c == '_' || c == '/'

/-- `is_safe_name`. -/
def isSafeName (s : String) : Bool :=
  !s.isEmpty && decide (s.utf8ByteSize ≤ 60) && s.toList.all isSafeChar

/-- The error for a key that is no safe name. -/
def unsafeKey (k : String) : RfcError :=
  .invalidParameter k
    "invalid RFC parameter/field name (must be A-Z 0-9 _ /)"

mutual

/-- `validate_keys`. -/
def validateKeys : Value → RfcResult Unit
  | .object m => validateFields m
  | .array a => validateItems a
  | _ => .ok ()
termination_by structural v => v

def validateItems : List Value → RfcResult Unit
  | [] => .ok ()
  | item :: a => do
      validateKeys item
      validateItems a
termination_by structural a => a

def validateFields : List (String × Value) → RfcResult Unit
  | [] => .ok ()
  | (k, val) :: m =>
      if isSafeName k then do
        validateKeys val
        validateFields m
      else .error (unsafeKey k)
termination_by structural m => m

end

-- ====================================================== small lemmas

/-- A safe name: characters of the alphabet, one at least. -/
theorem isSafeName_chars {s : String} (h : isSafeName s = true) :
    s.toList ≠ [] ∧ ∀ c ∈ s.toList, isSafeChar c = true := by
  unfold isSafeName at h
  rw [Bool.and_eq_true, Bool.and_eq_true] at h
  obtain ⟨⟨hne, -⟩, hall⟩ := h
  refine ⟨fun hnil => ?_, fun c hc => List.all_eq_true.mp hall c hc⟩
  have hs : s = "" := String.toList_inj.mp hnil
  rw [hs] at hne
  revert hne
  decide

/-- The first step of a sequence that succeeds has succeeded. -/
theorem bind_ok {a b : RfcResult Unit} (h : (a >>= fun _ => b) = .ok ()) :
    a = .ok () ∧ b = .ok () := by
  cases a with
  | error e => cases h
  | ok u => exact ⟨rfl, h⟩

/-- Validated fields: every key is safe, every value is validated. -/
theorem validateFields_cons {k : String} {v : Value} {m : Map}
    (h : validateFields ((k, v) :: m) = .ok ()) :
    isSafeName k = true ∧ validateKeys v = .ok () ∧ validateFields m = .ok () := by
  unfold validateFields at h
  by_cases hk : isSafeName k = true
  · rw [if_pos hk] at h
    exact ⟨hk, bind_ok h⟩
  · rw [if_neg hk] at h
    cases h

theorem validateItems_cons {v : Value} {a : List Value}
    (h : validateItems (v :: a) = .ok ()) :
    validateKeys v = .ok () ∧ validateItems a = .ok () := by
  unfold validateItems at h
  exact bind_ok h

mutual

/-- Every rejection names a key that is not safe. -/
theorem validateKeys_error :
    ∀ (v : Value) {e : RfcError}, validateKeys v = .error e →
      ∃ k, isSafeName k = false ∧ e = unsafeKey k
  | .object m, _, h => validateFields_error m h
  | .array a, _, h => validateItems_error a h
  | .null, _, h => nomatch h
  | .bool _, _, h => nomatch h
  | .number _, _, h => nomatch h
  | .string _, _, h => nomatch h
termination_by structural v => v

theorem validateItems_error :
    ∀ (a : List Value) {e : RfcError}, validateItems a = .error e →
      ∃ k, isSafeName k = false ∧ e = unsafeKey k
  | [], _, h => nomatch h
  | v :: a, e, h => by
      unfold validateItems at h
      cases hv : validateKeys v with
      | error e' =>
          rw [hv] at h
          cases h
          exact validateKeys_error v hv
      | ok u =>
          rw [hv] at h
          exact validateItems_error a h
termination_by structural a => a

theorem validateFields_error :
    ∀ (m : List (String × Value)) {e : RfcError}, validateFields m = .error e →
      ∃ k, isSafeName k = false ∧ e = unsafeKey k
  | [], _, h => nomatch h
  | (k, v) :: m, e, h => by
      unfold validateFields at h
      by_cases hk : isSafeName k = true
      · rw [if_pos hk] at h
        cases hv : validateKeys v with
        | error e' =>
            rw [hv] at h
            cases h
            exact validateKeys_error v hv
        | ok u =>
            rw [hv] at h
            exact validateFields_error m h
      · rw [if_neg hk] at h
        cases h
        exact ⟨k, by simpa using hk, rfl⟩
termination_by structural m => m

end

end SapAutomate.Soap
