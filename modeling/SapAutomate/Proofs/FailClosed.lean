/-
What the commit decision sees of a reply: a failing row anywhere the
walk looks makes `parse_bapiret2` report a failure, and a write whose
business call was so answered never sends COMMIT.

Where the walk looks is `RowAt`: the path from the reply to the row
passes through at most eight values, and through no object that is
itself row-shaped. Both bounds are the walk's own, and so is the
preference of `TYPE` over `type` in a row that carries both. Rows past
one of the three are silent.
-/
import SapAutomate.Proofs.Luw

namespace SapAutomate.Rfc

open Interact Json

-- ============================================== where a row can be found

/-- `w` occurs in the value, at any depth. -/
inductive Inside (w : Value) : Value → Prop where
  | here : Inside w w
  | field {k : String} {x : Value} {m : Map} (hx : (k, x) ∈ m)
      (h : Inside w x) : Inside w (.object m)
  | item {x : Value} {a : List Value} (hx : x ∈ a) (h : Inside w x) :
      Inside w (.array a)

/-- `w` occurs at the given depth below values that are not rows. -/
inductive RowAt (w : Value) : Nat → Value → Prop where
  | here : RowAt w 0 w
  | field {k : String} {x : Value} {m : Map} {d : Nat}
      (hm : looksLikeRow m = false) (hx : (k, x) ∈ m) (h : RowAt w d x) :
      RowAt w (d + 1) (.object m)
  | item {x : Value} {a : List Value} {d : Nat} (hx : x ∈ a)
      (h : RowAt w d x) : RowAt w (d + 1) (.array a)

/-- A row at some depth occurs in the value. -/
theorem RowAt.inside {w v : Value} {d : Nat} (h : RowAt w d v) :
    Inside w v := by
  induction h with
  | here => exact .here
  | field hm hx h ih => exact .field hx ih
  | item hx h ih => exact .item hx ih

/-- The type text names no success: its first character, if any, is
none of S, W, I in either case. -/
def FailingType (s : String) : Prop :=
  ∀ c, s.toList.head? = some c → c.toUpper ≠ 'S' ∧ c.toUpper ≠ 'W'
    ∧ c.toUpper ≠ 'I'

/-- The object holds a failing type string under one of the two keys. -/
def HasFailingType (m : Map) : Prop :=
  ∃ s, (m.get "TYPE" = some (.string s) ∨ m.get "type" = some (.string s))
    ∧ FailingType s

/-- The object holds a failing type string where it is read: under
`TYPE`, or under `type` when `TYPE` is no string. -/
def ReadsFailingType (m : Map) : Prop :=
  ∃ s, FailingType s ∧ (m.get "TYPE" = some (.string s)
    ∨ (∀ t, m.get "TYPE" ≠ some (.string t)) ∧ m.get "type" = some (.string s))

-- ========================================================== severities

/-- A failing type character has a failing severity. -/
theorem fromChar_isFailure {c : Char} (hs : c.toUpper ≠ 'S')
    (hw : c.toUpper ≠ 'W') (hi : c.toUpper ≠ 'I') :
    (BapiRet2Severity.fromChar c).isFailure = true := by
  unfold BapiRet2Severity.fromChar
  rw [if_neg hs, if_neg hw, if_neg hi]
  split
  · rfl
  · split <;> rfl

/-- Upper-casing leaves digits alone. -/
theorem toUpper_digit {c : Char} (h : c.isDigit = true) : c.toUpper = c := by
  unfold Char.toUpper
  rw [dif_neg]
  intro hlow
  have h9 : c.val ≤ '9'.val := by
    unfold Char.isDigit at h
    simp only [Bool.and_eq_true, decide_eq_true_eq] at h
    exact h.2
  exact absurd (UInt32.le_trans hlow.1 h9) (by decide)

/-- No printed number starts like a success. -/
theorem number_failingType (n : Number) : FailingType n.text := by
  intro c hc
  have hnum : isNumberChar c = true :=
    List.all_eq_true.mp n.legal c (List.mem_of_mem_head? hc)
  unfold isNumberChar at hnum
  simp only [Bool.or_eq_true, beq_iff_eq] at hnum
  rcases hnum with ((((hd | rfl) | rfl) | rfl) | rfl) | rfl
  · rw [toUpper_digit hd]
    refine ⟨?_, ?_, ?_⟩ <;> rintro rfl <;> cases hd
  all_goals decide

/-- A row that reads a failing type has a failing severity. -/
theorem rowSeverity_isFailure {m : Map} (h : ReadsFailingType m) :
    (rowSeverity m).isFailure = true := by
  have key : ∀ t, FailingType t → firstStr m ["TYPE", "type"] = some t →
      (rowSeverity m).isFailure = true := by
    intro t ht hread
    unfold rowSeverity
    rw [hread, Option.getD_some]
    cases htl : t.toList with
    | nil => rfl
    | cons c cs =>
        obtain ⟨hs, hw, hi⟩ := ht c (by rw [htl]; rfl)
        exact fromChar_isFailure hs hw hi
  obtain ⟨s, hs, htype⟩ := h
  rcases htype with htype | ⟨hno, htype⟩
  · exact key s hs (by unfold firstStr; rw [htype])
  · cases hT : m.get "TYPE" with
    | none => exact key s hs (by simp only [firstStr, hT, htype])
    | some v =>
        cases v with
        | string t => exact absurd hT (hno t)
        | number n =>
            exact key n.text (number_failingType n)
              (by unfold firstStr; rw [hT])
        | null => exact key s hs (by simp only [firstStr, hT, htype])
        | bool b => exact key s hs (by simp only [firstStr, hT, htype])
        | array a => exact key s hs (by simp only [firstStr, hT, htype])
        | object o => exact key s hs (by simp only [firstStr, hT, htype])

-- ============================================================== the walk

/-- The walk pushes every row it can reach. -/
theorem mem_walk_of_rowAt {m : Map} (hrow : looksLikeRow m = true)
    {v : Value} {d : Nat} (h : RowAt (.object m) d v) :
    ∀ depth, depth + d ≤ maxWalkDepth → Value.object m ∈ walk v depth := by
  induction h with
  | here =>
      intro depth hd
      rw [walk_row hrow (by omega)]
      exact List.mem_singleton.mpr rfl
  | field hm hx h ih =>
      intro depth hd
      rw [walk_object hm (by omega)]
      exact mem_walkValues hx (ih (depth + 1) (by omega))
  | item hx h ih =>
      intro depth hd
      rw [walk_array (by omega)]
      exact mem_walkItems hx (ih (depth + 1) (by omega))

/-- A key with an entry is contained. -/
theorem containsKey_of_get {m : Map} {k : String} {v : Value}
    (h : m.get k = some v) : m.containsKey k = true := by
  unfold Map.containsKey
  rw [h]
  rfl

/-- A failing type and a message key make a row. -/
theorem looksLikeRow_of {m : Map} (htype : ReadsFailingType m)
    (hmsg : m.containsKey "MESSAGE" = true ∨ m.containsKey "message" = true) :
    looksLikeRow m = true := by
  have hty : m.containsKey "TYPE" = true ∨ m.containsKey "type" = true := by
    obtain ⟨s, -, h | ⟨-, h⟩⟩ := htype
    · exact .inl (containsKey_of_get h)
    · exact .inr (containsKey_of_get h)
  unfold looksLikeRow
  simp only [Bool.and_eq_true, Bool.or_eq_true]
  exact ⟨hty, hmsg⟩

/-- The message of a row the walk reaches is among those parsed. -/
theorem parseBapiret2_failing {v : Value} {m : Map} {d : Nat}
    (hat : RowAt (.object m) d v) (hd : d ≤ maxWalkDepth)
    (htype : ReadsFailingType m)
    (hmsg : m.containsKey "MESSAGE" = true ∨ m.containsKey "message" = true) :
    ∃ msg ∈ parseBapiret2 v, msg.isFailure = true := by
  have hmem : Value.object m ∈ collectCandidates v :=
    mem_walk_of_rowAt (looksLikeRow_of htype hmsg) hat 0 (by omega)
  exact ⟨_, List.mem_filterMap.mpr ⟨_, hmem, rfl⟩, rowSeverity_isFailure htype⟩

-- ===================================================== the commit decision

/-- A reply with a failing message is not committed. -/
theorem commit_not_sent {σ : Type} (client : SapClient σ)
    (request : RfcCallRequest) (readOnlyMode : Bool) (s : σ) {v : Value}
    (hv : (bapiAnswer client request s).1 = .ok v)
    (hf : hasFailure (parseBapiret2 v) = true) :
    commitFn ∉ rfcNames (writeRun client request readOnlyMode s).trace := by
  obtain ⟨hrun, hplay⟩ := writeRun_cases client request readOnlyMode s
  have hproto := hrun.protocol
  intro hsent
  obtain ⟨v', hrep, hc⟩ := hproto.commit.mp hsent
  generalize (writeRun client request readOnlyMode s).trace = tr at hplay hrep
  cases tr with
  | nil => cases hrep
  | cons x xs =>
      obtain ⟨hx, -⟩ := hplay
      cases hrep
      cases hx.trans hv
      rw [hc.2] at hf
      cases hf

/-- A failing row the walk reaches blocks the commit. -/
theorem failing_row_blocks_commit {v : Value} {m : Map} {d : Nat}
    (hat : RowAt (.object m) d v) (hd : d ≤ maxWalkDepth)
    (htype : ReadsFailingType m)
    (hmsg : m.containsKey "MESSAGE" = true ∨ m.containsKey "message" = true) :
    (∃ msg ∈ parseBapiret2 v, msg.isFailure = true)
      ∧ ∀ (σ : Type) (client : SapClient σ) (request : RfcCallRequest)
          (readOnlyMode : Bool) (s : σ),
        (bapiAnswer client request s).1 = .ok v →
        commitFn ∉ rfcNames (writeRun client request readOnlyMode s).trace := by
  have hfail := parseBapiret2_failing hat hd htype hmsg
  refine ⟨hfail, fun σ client request readOnlyMode s hv => ?_⟩
  obtain ⟨msg, hmem, hmf⟩ := hfail
  exact commit_not_sent client request readOnlyMode s hv
    (hasFailure_of_mem hmem hmf)

/-- The fields of a blocked vendor's error row. -/
def vendorBlocked : Map :=
  [("ID", .string "06"), ("MESSAGE", .string "Vendor 1 blocked"),
    ("NUMBER", .string "055"), ("TYPE", .string "E")]

/-- The error row in a `RETURN` table, two levels down. -/
theorem failing_row_blocks_commit_vendor :
    (∃ msg ∈ parseBapiret2
        (.object [("RETURN", .array [.object vendorBlocked])]),
        msg.isFailure = true)
      ∧ ∀ (σ : Type) (client : SapClient σ) (request : RfcCallRequest)
          (readOnlyMode : Bool) (s : σ),
        (bapiAnswer client request s).1
          = .ok (.object [("RETURN", .array [.object vendorBlocked])]) →
        commitFn ∉ rfcNames (writeRun client request readOnlyMode s).trace :=
  failing_row_blocks_commit (d := 2) (m := vendorBlocked)
    (.field rfl (List.mem_singleton.mpr rfl)
      (.item (List.mem_singleton.mpr rfl) .here))
    (by decide)
    ⟨"E", by intro c hc; cases hc; decide, .inl rfl⟩ (.inl rfl)

/-- The error row under nine arrays. -/
def buriedRow : Value :=
  .array [.array [.array [.array [.array [.array [.array [.array [.array
    [.object vendorBlocked]]]]]]]]]

/-- The error row in the detail of a success row. -/
def nestedRow : Value :=
  .object [("DETAIL", .object vendorBlocked), ("MESSAGE", .string "done"),
    ("TYPE", .string "S")]

/-- A row with a success under `TYPE` and an error under `type`. -/
def twoTypes : Map :=
  [("MESSAGE", .string "Vendor 1 blocked"), ("TYPE", .string "S"),
    ("type", .string "E")]

theorem failingType_E : FailingType "E" := by
  intro c hc
  cases hc
  decide

/-- Three replies with a failing row inside and no failing message:
below the depth limit, inside a row, and behind the other type key. -/
theorem hidden_failures :
    (Inside (.object vendorBlocked) buriedRow ∧ HasFailingType vendorBlocked
        ∧ vendorBlocked.containsKey "MESSAGE" = true
        ∧ ¬ ∃ msg ∈ parseBapiret2 buriedRow, msg.isFailure = true)
      ∧ (Inside (.object vendorBlocked) nestedRow
        ∧ ¬ ∃ msg ∈ parseBapiret2 nestedRow, msg.isFailure = true)
      ∧ Inside (.object twoTypes) (.object twoTypes) ∧ HasFailingType twoTypes
        ∧ twoTypes.containsKey "MESSAGE" = true
        ∧ ¬ ∃ msg ∈ parseBapiret2 (.object twoTypes), msg.isFailure = true := by
  have hitem : ∀ {w x : Value}, Inside w x → Inside w (.array [x]) :=
    fun h => .item (List.mem_singleton.mpr rfl) h
  refine ⟨⟨?_, ⟨"E", .inl rfl, failingType_E⟩, rfl, ?_⟩, ⟨?_, ?_⟩, .here,
    ⟨"E", .inr rfl, failingType_E⟩, rfl, ?_⟩
  · exact hitem (hitem (hitem (hitem (hitem (hitem (hitem (hitem (hitem
      .here))))))))
  · have h : parseBapiret2 buriedRow = [] := rfl
    rw [h]
    simp
  · exact .field (List.mem_cons_self ..) .here
  · have h : (parseBapiret2 nestedRow).any BapiRet2Message.isFailure
        = false := rfl
    simpa using h
  · have h : (parseBapiret2 (.object twoTypes)).any BapiRet2Message.isFailure
        = false := rfl
    simpa using h

end SapAutomate.Rfc
