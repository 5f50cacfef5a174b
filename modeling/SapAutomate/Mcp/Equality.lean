/-
Values and messages can be compared: a run that is given in full can be
checked by evaluation.
-/
import SapAutomate.Mcp.Protocol
namespace SapAutomate.Json

mutual
/-- Whether two values are the same. -/
def Value.decEq : (v w : Value) → Decidable (v = w)
  | .null, w => match w with
      | .null => isTrue rfl
      | .bool _ | .number _ | .string _ | .array _ | .object _ =>
          isFalse nofun
  | .bool b, w => match w with
      | .bool c => decidable_of_iff (b = c) (by simp)
      | .null | .number _ | .string _ | .array _ | .object _ => isFalse nofun
  | .number n, w => match w with
      | .number m => decidable_of_iff (n = m) (by simp)
      | .null | .bool _ | .string _ | .array _ | .object _ => isFalse nofun
  | .string s, w => match w with
      | .string t => decidable_of_iff (s = t) (by simp)
      | .null | .bool _ | .number _ | .array _ | .object _ => isFalse nofun
  | .array vs, w => match w with
      | .array ws =>
          have := Value.decEqItems vs ws
          decidable_of_iff (vs = ws) (by simp)
      | .null | .bool _ | .number _ | .string _ | .object _ => isFalse nofun
  | .object m, w => match w with
      | .object m' =>
          have := Value.decEqFields m m'
          decidable_of_iff (m = m') (by simp)
      | .null | .bool _ | .number _ | .string _ | .array _ => isFalse nofun

/-- The same for lists of values. -/
def Value.decEqItems : (vs ws : List Value) → Decidable (vs = ws)
  | [], [] => isTrue rfl
  | [], _ :: _ => isFalse (List.cons_ne_nil _ _).symm
  | _ :: _, [] => isFalse (List.cons_ne_nil _ _)
  | v :: vs, w :: ws =>
      have := Value.decEq v w
      have := Value.decEqItems vs ws
      decidable_of_iff (v = w ∧ vs = ws) (by simp)

/-- And for the entries of objects. -/
def Value.decEqFields : (m m' : Map) → Decidable (m = m')
  | [], [] => isTrue rfl
  | [], _ :: _ => isFalse (List.cons_ne_nil _ _).symm
  | _ :: _, [] => isFalse (List.cons_ne_nil _ _)
  | (k, v) :: m, (k', v') :: m' =>
      have := Value.decEq v v'
      have := Value.decEqFields m m'
      decidable_of_iff ((k = k' ∧ v = v') ∧ m = m') (by simp)
end

instance : DecidableEq Value := Value.decEq

end SapAutomate.Json

namespace SapAutomate.Mcp

deriving instance DecidableEq for Request
deriving instance DecidableEq for Notification
deriving instance DecidableEq for ErrorObject
deriving instance DecidableEq for Response
deriving instance DecidableEq for Message

end SapAutomate.Mcp
