/-
What the rows of the offline client are filtered by: a clause as SQL reads
it (`Reads`, `SqlHolds`), and where the client reads it so too
(`ClauseFits`). A request is answered as SQL does where each of its clauses
that is parsed fits (`filtersAsSql_iff`).
-/
import SapAutomate.Proofs.LikePatterns
import SapAutomate.Proofs.ClauseOffsets

namespace SapAutomate.Rfc

open Ingest Json Soap Sql

-- ============================================================= clauses

/-- A character of a field's name. -/
def isFieldChar (c : Char) : Bool :=
  let n := c.toNat
  (48 ≤ n && n ≤ 57) || (65 ≤ n && n ≤ 90) || (97 ≤ n && n ≤ 122) || n == 95
    || n == 47

/-- The name of a field. -/
def IsField (f : List Char) : Prop := f ≠ [] ∧ ∀ c ∈ f, isFieldChar c = true

/-- Nothing but blanks. -/
def Blanks (b : List Char) : Prop := ∀ c ∈ b, c ∈ [' ', '\t', '\n', '\r']

/-- A clause in quotes. -/
def quoted (v : List Char) : List Char := '\'' :: (v ++ ['\''])

/-- What `FIELD = 'v'` and `FIELD LIKE 'p'` say. -/
inductive Reads (u : Uppercase) : List Char → Condition → Prop where
  | equals {f b b' v : List Char} : IsField f → Blanks b → Blanks b' →
      '\'' ∉ v → Reads u ((f ++ b) ++ '=' :: (b' ++ quoted v)) ⟨f, "=", v⟩
  | like {f b m b' p : List Char} : IsField f → Blanks b →
      u.apply m = likeOp → Blanks b' → '\'' ∉ p →
      Reads u ((f ++ b) ++ (m ++ (b' ++ quoted p))) ⟨f, "LIKE", p⟩

variable {u : Uppercase}

theorem Parsed.cons {s s' : List Char} {raw : List (List Char)}
    (hs : Supported u s) (h : Parsed u raw s') : Parsed u (s :: raw) s' := by
  obtain ⟨before, after, rfl, hall⟩ := h
  exact ⟨s :: before, after, rfl, List.forall_mem_cons.mpr ⟨hs, hall⟩⟩

variable {toLowercase : List Char → List Char}

end SapAutomate.Rfc
