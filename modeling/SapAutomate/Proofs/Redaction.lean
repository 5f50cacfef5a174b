/-
What `redact` makes of a value
(`sap-automate-observability/src/audit.rs`), told by the paths into it: the
value under the first sensitive key of a path is masked, and where a path
has none, what is there keeps its shape. The loop over a map's keys, which
puts each entry back, changes the entries where they stand.
-/
import SapAutomate.Server.Audit

namespace SapAutomate.Server

open Json

-- ================================================================ the loop

/-- `Map::remove`, without what it returns. -/
def removeKey (m : Map) (key : String) : Map := m.filter fun e => e.1 ≠ key

/-- What the loop does at a key. -/
def redactAt (m : Map) (k : String) : Map :=
  if isSensitive k then m.insert k mask
  else
    match m.get k with
    | some v => (removeKey m k).insert k (redact v)
    | none => m

/-- Smaller keys are passed over. -/
theorem insert_append {pre : Map} (post : Map) {k : String} (v : Value)
    (hpre : ∀ e ∈ pre, e.1 < k) :
    (pre ++ post).insert k v = pre ++ Map.insert post k v := by
  induction pre with
  | nil => rfl
  | cons e pre ih =>
      obtain ⟨he, hrest⟩ := List.forall_mem_cons.mp hpre
      rw [List.cons_append, Map.insert, if_neg he.asymm, if_neg he.ne', ih hrest]
      rfl

theorem insert_between {pre post : Map} {k : String} (v : Value)
    (hpre : ∀ e ∈ pre, e.1 < k) (hpost : ∀ e ∈ post, k < e.1) :
    (pre ++ post).insert k v = pre ++ (k, v) :: post := by
  rw [insert_append post v hpre]
  cases post with
  | nil => rfl
  | cons e post =>
      exact congrArg (pre ++ ·) (if_pos (hpost e List.mem_cons_self))

theorem insert_over {pre post : Map} {k : String} (w v : Value)
    (hpre : ∀ e ∈ pre, e.1 < k) :
    (pre ++ (k, w) :: post).insert k v = pre ++ (k, v) :: post := by
  rw [insert_append _ v hpre]
  exact congrArg (pre ++ ·) ((if_neg (lt_irrefl k)).trans (if_pos rfl))

theorem get_over {pre post : Map} {k : String} (v : Value)
    (hpre : ∀ e ∈ pre, e.1 < k) :
    (pre ++ (k, v) :: post).get k = some v := by
  induction pre with
  | nil => exact if_pos rfl
  | cons e pre ih =>
      obtain ⟨he, hrest⟩ := List.forall_mem_cons.mp hpre
      exact (if_neg he.ne).trans (ih hrest)

theorem removeKey_over {pre post : Map} {k : String} (v : Value)
    (hpre : ∀ e ∈ pre, e.1 < k) (hpost : ∀ e ∈ post, k < e.1) :
    removeKey (pre ++ (k, v) :: post) k = pre ++ post := by
  have hkept : ∀ e ∈ pre ++ post, decide (e.1 ≠ k) = true := by
    intro e he
    rcases List.mem_append.mp he with he | he
    · exact decide_eq_true (hpre e he).ne
    · exact decide_eq_true (hpost e he).ne'
  rw [removeKey, List.filter_append, List.filter_cons_of_neg (by simp),
    ← List.filter_append, List.filter_eq_self.mpr hkept]

/-- An entry is changed where it stands. -/
theorem redactAt_over {pre post : Map} {k : String} (v : Value)
    (hpre : ∀ e ∈ pre, e.1 < k) (hpost : ∀ e ∈ post, k < e.1) :
    redactAt (pre ++ (k, v) :: post) k
      = pre ++ (k, if isSensitive k then mask else redact v) :: post := by
  unfold redactAt
  split
  · exact insert_over v mask hpre
  · rw [get_over v hpre]
    dsimp only
    rw [removeKey_over v hpre hpost, insert_between _ hpre hpost]

theorem redactAt_foldl {m pre : Map} (hm : m.Sorted)
    (hpre : ∀ e ∈ pre, ∀ e' ∈ m, e.1 < e'.1) :
    (m.map Prod.fst).foldl redactAt (pre ++ m) = pre ++ redactFields m := by
  induction m generalizing pre with
  | nil => rfl
  | cons e m ih =>
      obtain ⟨k, v⟩ := e
      obtain ⟨hpost, hrest⟩ := List.pairwise_cons.mp hm
      have hbefore : ∀ e ∈ pre, e.1 < k := fun e he =>
        hpre e he (k, v) List.mem_cons_self
      rw [List.map_cons, List.foldl_cons, redactAt_over v hbefore hpost,
        redactFields, List.append_cons pre _ m,
        List.append_cons pre _ (redactFields m)]
      refine ih hrest fun e he e' he' => ?_
      rcases List.mem_append.mp he with he | he
      · exact hpre e he e' (List.mem_cons_of_mem _ he')
      · rw [List.mem_singleton.mp he]
        exact hpost e' he'

/-- The loop over the keys of a map, as the source has it. -/
theorem redact_object {m : Map} (hm : m.Sorted) :
    redact (.object m) = .object ((m.map Prod.fst).foldl redactAt m) := by
  have hloop := redactAt_foldl hm (List.forall_mem_nil _)
  rw [List.nil_append, List.nil_append] at hloop
  rw [hloop, redact]

-- ================================================================== paths

/-- A way into a value. -/
inductive Step
  | key (k : String)
  | index (i : Nat)
  deriving DecidableEq

def valueUnder : Value → Step → Option Value
  | .object m, .key k => Map.get m k
  | .array a, .index i => a[i]?
  | _, _ => none

/-- What stands at the end of a path. -/
def valueAt (v : Value) (path : List Step) : Option Value :=
  path.foldlM valueUnder v

/-- A step under a sensitive key. -/
def Step.secret : Step → Bool
  | .key k => isSensitive k
  | .index _ => false

/-- The same but for what they hold: the same keys, as many items, or the
same leaf. -/
def SameShape : Value → Value → Prop
  | .object m, .object n => m.map Prod.fst = n.map Prod.fst
  | .array a, .array b => a.length = b.length
  | v, w => v = w

/-- What a redacted value is to be. -/
structure Redacted (v w : Value) : Prop where
  masks : ∀ path s u, (∀ t ∈ path, Step.secret t = false) → s.secret = true →
    valueAt v (path ++ [s]) = some u → valueAt w (path ++ [s]) = some mask
  keeps : ∀ path, (∀ t ∈ path, Step.secret t = false) →
    (valueAt v path = none ∧ valueAt w path = none)
      ∨ ∃ a b, valueAt v path = some a ∧ valueAt w path = some b
        ∧ SameShape a b

theorem redactItems_eq (a : List Value) : redactItems a = a.map redact := by
  induction a with
  | nil => rfl
  | cons v a ih => rw [redactItems, List.map_cons, ih]

theorem redactFields_keys (m : Map) :
    (redactFields m).map Prod.fst = m.map Prod.fst := by
  induction m with
  | nil => rfl
  | cons e m ih => rw [redactFields, List.map_cons, List.map_cons, ih]

theorem redactFields_get (m : Map) (k : String) :
    Map.get (redactFields m) k
      = (m.get k).map fun v => if isSensitive k then mask else redact v := by
  induction m with
  | nil => rfl
  | cons e m ih =>
      obtain ⟨key, v⟩ := e
      rw [redactFields, Map.get_cons, Map.get_cons]
      split
      · next h =>
        rw [h]
        rfl
      · exact ih

theorem valueUnder_redact (v : Value) (s : Step) :
    valueUnder (redact v) s
      = (valueUnder v s).map fun u => if s.secret then mask else redact u := by
  cases v with
  | object m =>
      cases s with
      | key k => exact redactFields_get m k
      | index i => rfl
  | array a =>
      cases s with
      | key k => rfl
      | index i =>
          change (redactItems a)[i]? = (a[i]?).map redact
          rw [redactItems_eq, List.getElem?_map]
  | _ => cases s <;> rfl

theorem valueAt_redact (v : Value) {path : List Step}
    (h : ∀ t ∈ path, Step.secret t = false) :
    valueAt (redact v) path = (valueAt v path).map redact := by
  induction path generalizing v with
  | nil => rfl
  | cons s path ih =>
      obtain ⟨hs, hrest⟩ := List.forall_mem_cons.mp h
      change (valueUnder (redact v) s).bind (valueAt · path)
        = ((valueUnder v s).bind (valueAt · path)).map redact
      rw [valueUnder_redact, hs]
      cases valueUnder v s with
      | none => rfl
      | some u => exact ih u hrest

theorem sameShape_redact (v : Value) : SameShape v (redact v) := by
  cases v with
  | object m => exact (redactFields_keys m).symm
  | array a =>
      change a.length = (redactItems a).length
      rw [redactItems_eq, List.length_map]
  | _ => rfl

-- ================================================================== twice

mutual

theorem redact_redact : ∀ v, redact (redact v) = redact v
  | .object m => congrArg Value.object (redactFields_redactFields m)
  | .array a => congrArg Value.array (redactItems_redactItems a)
  | .null => rfl
  | .bool _ => rfl
  | .number _ => rfl
  | .string _ => rfl

theorem redactItems_redactItems :
    ∀ a, redactItems (redactItems a) = redactItems a
  | [] => rfl
  | v :: a => by
      rw [redactItems, redactItems, redact_redact v, redactItems_redactItems a]

theorem redactFields_redactFields :
    ∀ m, redactFields (redactFields m) = redactFields m
  | [] => rfl
  | (k, v) :: m => by
      rw [redactFields, redactFields, redactFields_redactFields m]
      split
      · rfl
      · rw [redact_redact v]

end

/-- Redaction masks what is sensitive and nothing else, once and for
all. -/
theorem redact_redacted (v : Value) :
    Redacted v (redact v) ∧ redact (redact v) = redact v := by
  refine ⟨⟨fun path s u hpath hs hu => ?_, fun path hpath => ?_⟩, redact_redact v⟩
  · unfold valueAt at hu ⊢
    rw [List.foldlM_append, ← valueAt] at hu ⊢
    rw [valueAt_redact v hpath]
    cases hat : valueAt v path with
    | none =>
        rw [hat] at hu
        cases hu
    | some w =>
        rw [hat] at hu
        change (valueUnder w s).bind some = some u at hu
        obtain ⟨u', hu', -⟩ := Option.bind_eq_some_iff.mp hu
        change (valueUnder (redact w) s).bind some = some mask
        rw [valueUnder_redact, hu', hs]
        rfl
  · rw [valueAt_redact v hpath]
    cases hat : valueAt v path with
    | none => exact .inl ⟨rfl, rfl⟩
    | some a => exact .inr ⟨a, redact a, rfl, rfl, sameShape_redact a⟩

end SapAutomate.Server
