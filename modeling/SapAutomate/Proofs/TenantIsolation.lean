/-
Whose entries `assemble` returns.

The episodic tier is filtered by tenant. The working tier is not: whatever
was appended last to the session comes back (`recent_eq`), so the memory
assembled for a tenant is its own just where no other tenant's entry is
among the last eight of the session.
-/
import SapAutomate.Proofs.WorkingRing

namespace SapAutomate.Memory

-- ============================================================== sessions

/-- The entry a write appends to this session. -/
def MemoryOp.appends (sessionId : String) : MemoryOp → Option MemoryEntry
  | .append s entry => if s = sessionId then some entry else none
  | .record _ _ => none

/-- The entries appended to a session, in turn. -/
def appended (sessionId : String) (ops : List MemoryOp) : List MemoryEntry :=
  ops.filterMap (MemoryOp.appends sessionId)

theorem appended_snoc (s : String) (ops : List MemoryOp) (op : MemoryOp) :
    appended s (ops ++ [op]) = appended s ops ++ (op.appends s).toList := by
  unfold appended
  rw [List.filterMap_append]
  cases h : op.appends s with
  | none => simp [h]
  | some entry => simp [h]

/-- The memory after these writes. -/
def afterWrites (ops : List MemoryOp) : MemoryManager :=
  ops.foldl MemoryManager.apply .new

theorem afterWrites_snoc (ops : List MemoryOp) (op : MemoryOp) :
    afterWrites (ops ++ [op]) = (afterWrites ops).apply op := by
  unfold afterWrites
  rw [List.foldl_append]
  rfl

/-- What a session's queue holds: the last 64 entries, the latest last. -/
theorem sessions_spec (ops : List MemoryOp) :
    (afterWrites ops).working.cap = 64
      ∧ ∀ s, (((afterWrites ops).working.sessions s).getD []).reverse
        = (appended s ops).reverse.take 64 := by
  induction ops using List.reverseRecOn with
  | nil => exact ⟨rfl, fun _ => rfl⟩
  | append_singleton ops op ih =>
      obtain ⟨hcap, hqueue⟩ := ih
      rw [afterWrites_snoc]
      simp only [appended_snoc]
      cases op with
      | record entry tags =>
          refine ⟨hcap, fun s => (hqueue s).trans ?_⟩
          simp [MemoryOp.appends]
      | append sessionId entry =>
          refine ⟨hcap, fun s => ?_⟩
          show (((afterWrites ops).working.sessions.insert sessionId _ s).getD
            []).reverse = _
          by_cases hs : s = sessionId
          · subst hs
            have hlen : (((afterWrites ops).working.sessions s).getD []).length
                ≤ 64 := by
              rw [← List.length_reverse, hqueue s, List.length_take]
              omega
            have hlast : ((MemoryOp.append s entry).appends s).toList
                = [entry] := by
              simp [MemoryOp.appends]
            rw [Table.insert_self, Option.getD_some, hcap,
              pushed_reverse (by omega) hlen, hqueue s, hlast,
              List.reverse_append]
            show (entry :: List.take 64 _).take 64 = (entry :: _).take 64
            rw [List.take_succ_cons, List.take_succ_cons, List.take_take]
            rfl
          · have hlast : ((MemoryOp.append sessionId entry).appends s).toList
                = [] := by
              simp [MemoryOp.appends, Ne.symm hs]
            rw [Table.insert_ne hs, hqueue s, hlast, List.append_nil]

/-- `recent` returns the last entries appended, whoever appended them. -/
theorem recent_eq (ops : List MemoryOp) (s : String) {limit : Nat}
    (hlimit : limit ≤ 64) :
    (afterWrites ops).working.recent s limit
      = (appended s ops).reverse.take limit := by
  have hqueue := (sessions_spec ops).2 s
  have hrecent : (afterWrites ops).working.recent s limit
      = ((((afterWrites ops).working.sessions s).getD []).reverse).take
        limit := by
    unfold WorkingMemory.recent
    cases (afterWrites ops).working.sessions s with
    | none => simp
    | some q => rfl
  rw [hrecent, hqueue, List.take_take, Nat.min_eq_left hlimit]

-- ============================================================= isolation

/-- An entry that this tenant may read. -/
def ReadableBy (t : String) (e : MemoryEntry) : Prop :=
  ∀ t', e.tenant = some t' → t' = t

/-- What is assembled for a tenant has no other tenant's entry in it. -/
def Isolated (m : MemoryManager) (sessionId : String) (tag : Option String)
    (t : String) : Prop :=
  ∀ e ∈ m.assemble sessionId tag (some t), ReadableBy t e

/-- The episodic tier returns what the tenant may read. -/
theorem lookupTag_readable (m : EpisodicMemory) (tag t : String)
    (limit : Nat) : ∀ e ∈ m.lookupTag tag (some t) limit, ReadableBy t e := by
  intro e he
  unfold EpisodicMemory.lookupTag at he
  have hreadable := (List.mem_filter.mp
    (List.mem_of_mem_take (List.mem_reverse.mp he))).2
  intro t' ht'
  unfold EpisodicMemory.readable at hreadable
  rw [ht'] at hreadable
  exact (eq_of_beq hreadable).symm

/-- The memory assembled for a tenant is isolated just where the last eight
entries appended to the session are entries it may read. -/
theorem isolated_iff (ops : List MemoryOp) (s : String) (tag : Option String)
    (t : String) :
    Isolated (afterWrites ops) s tag t
      ↔ ∀ e ∈ (appended s ops).reverse.take 8, ReadableBy t e := by
  unfold Isolated MemoryManager.assemble
  rw [recent_eq ops s (by omega)]
  constructor
  · intro h e he
    exact h e (List.mem_append_left _ he)
  · intro h e he
    rcases List.mem_append.mp he with he | he
    · exact h e he
    · cases tag with
      | none => cases he
      | some tag => exact lookupTag_readable _ tag t 8 e he

/-- What another tenant has appended to the session comes back. -/
theorem working_leaks :
    ¬ ∀ (ops : List MemoryOp) (s : String) (tag : Option String) (t : String),
      Isolated (afterWrites ops) s tag t := by
  intro h
  have hleak := h
    [.append "S1" ((MemoryEntry.new .working "user_turn" .null 0).withTenant
      "T2")] "S1" none "T1" _ (List.mem_cons_self ..) "T2" rfl
  exact absurd hleak (by decide)

end SapAutomate.Memory
