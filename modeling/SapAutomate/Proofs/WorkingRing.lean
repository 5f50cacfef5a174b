/-
What the working tier recalls (`WorkingMemory` of
`sap-automate-memory/src/lib.rs`): the last entries appended to a session
since it was cleared, as many as there is room for.

The queue keeps that room only where it has any (`after_spec`): the derived
`default` has none, is never full, and loses nothing.
-/
import SapAutomate.Memory.Manager
import Mathlib.Data.List.Induction

namespace SapAutomate.Memory

/-- The public constructors. -/
inductive Constructor where
  | new
  | withCapacity (cap : Nat)
  | default
  deriving DecidableEq

/-- What they build. -/
def Constructor.memory : Constructor → WorkingMemory
  | .new => .new
  | .withCapacity cap => .withCapacity cap
  | .default => .default

/-- A write to the working tier. -/
inductive WorkingOp where
  | append (sessionId : String) (entry : MemoryEntry)
  | clear (sessionId : String)

/-- The session it is about. -/
def WorkingOp.session : WorkingOp → String
  | .append s _ => s
  | .clear s => s

namespace WorkingMemory

/-- What it does. -/
def apply (m : WorkingMemory) : WorkingOp → WorkingMemory
  | .append s entry => m.append s entry
  | .clear s => m.clear s

/-- The memory after these writes. -/
def after (m : WorkingMemory) (ops : List WorkingOp) : WorkingMemory :=
  ops.foldl apply m

/-- The entries held for a session, the oldest first. -/
def held (m : WorkingMemory) (s : String) : List MemoryEntry :=
  (m.sessions s).getD []

end WorkingMemory

/-- A write's part in what has been appended to a session since it was
cleared. -/
def sinceStep (s : String) (entries : List MemoryEntry) :
    WorkingOp → List MemoryEntry
  | .append s' entry => if s' = s then entries ++ [entry] else entries
  | .clear s' => if s' = s then [] else entries

/-- The entries appended to a session since it was last cleared. -/
def since (s : String) (ops : List WorkingOp) : List MemoryEntry :=
  ops.foldl (sinceStep s) []

/-- A memory built so and written to so is a bounded ring: it recalls the
latest entries, holds no more than there is room for, and each session is as
it would be without the others. -/
structure Ring (c : Constructor) (ops : List WorkingOp) : Prop where
  recent : ∀ s n, (c.memory.after ops).recent s n
    = (since s ops).reverse.take (min n c.memory.cap)
  bounded : ∀ s, ((c.memory.after ops).held s).length ≤ max 1 c.memory.cap
  apart : ∀ s, (c.memory.after ops).sessions s
    = (c.memory.after (ops.filter fun op => op.session = s)).sessions s

-- ================================================================= queue

/-- A queue that loses its front when full holds the last entries. -/
theorem pushed_reverse {cap : Nat} (hcap : 0 < cap) {q : List MemoryEntry}
    (hq : q.length ≤ cap) (e : MemoryEntry) :
    (WorkingMemory.pushed cap q e).reverse = (e :: q.reverse).take cap := by
  obtain ⟨n, rfl⟩ : ∃ n, cap = n + 1 := ⟨cap - 1, by omega⟩
  unfold WorkingMemory.pushed
  rw [List.reverse_append, List.take_succ_cons]
  show e :: _ = e :: _
  refine congrArg (e :: ·) ?_
  by_cases hfull : q.length = n + 1
  · rw [if_pos hfull, ← List.dropLast_reverse, List.dropLast_eq_take,
      List.length_reverse, hfull]
    rfl
  · rw [if_neg hfull]
    have hlen : q.reverse.length ≤ n := by
      rw [List.length_reverse]
      omega
    exact (List.take_of_length_le hlen).symm

/-- Whatever was taken before makes no difference to what is taken. -/
theorem take_cons_take (e : MemoryEntry) (es : List MemoryEntry) (n : Nat) :
    (e :: es.take n).take n = (e :: es).take n := by
  cases n with
  | zero => rfl
  | succ n =>
      rw [List.take_succ_cons, List.take_succ_cons, List.take_take,
        Nat.min_eq_left (Nat.le_succ n)]

theorem recent_eq_held (m : WorkingMemory) (s : String) (n : Nat) :
    m.recent s n = (m.held s).reverse.take n := by
  unfold WorkingMemory.recent WorkingMemory.held
  cases m.sessions s with
  | none => simp
  | some q => rfl

-- ================================================================ writes

namespace WorkingMemory

variable (m : WorkingMemory)

theorem after_snoc (ops : List WorkingOp) (op : WorkingOp) :
    m.after (ops ++ [op]) = (m.after ops).apply op := by
  unfold after
  rw [List.foldl_append]
  rfl

/-- What a write leaves of its own session. -/
theorem apply_session (op : WorkingOp) :
    (m.apply op).sessions op.session
      = match op with
        | .append s entry => some (pushed m.cap (m.held s) entry)
        | .clear _ => none := by
  cases op with
  | append s entry => exact Table.insert_self ..
  | clear s => exact Table.remove_self ..

/-- It leaves the others alone. -/
theorem apply_other {op : WorkingOp} {s : String} (h : op.session ≠ s) :
    (m.apply op).sessions s = m.sessions s := by
  cases op with
  | append s' entry => exact Table.insert_ne (Ne.symm h) ..
  | clear s' => exact Table.remove_ne (Ne.symm h) _

@[simp] theorem apply_cap (op : WorkingOp) : (m.apply op).cap = m.cap := by
  cases op with
  | append s entry => rfl
  | clear s => rfl

@[simp] theorem after_cap (ops : List WorkingOp) : (m.after ops).cap = m.cap := by
  induction ops using List.reverseRecOn with
  | nil => rfl
  | append_singleton ops op ih => rw [after_snoc, apply_cap, ih]

/-- A session is as it would be without the others. -/
theorem after_apart (s : String) (ops : List WorkingOp) :
    (m.after ops).sessions s
      = (m.after (ops.filter fun op => op.session = s)).sessions s := by
  induction ops using List.reverseRecOn with
  | nil => rfl
  | append_singleton ops op ih =>
      rw [after_snoc, List.filter_append]
      by_cases hs : op.session = s
      · subst hs
        have hheld : (m.after ops).held op.session
            = (m.after (ops.filter fun op' => op'.session = op.session)).held
              op.session := congrArg (Option.getD · []) ih
        rw [List.filter_cons_of_pos (by simp), List.filter_nil, after_snoc,
          apply_session, apply_session]
        cases op with
        | append s entry =>
            dsimp only
            rw [after_cap, after_cap]
            exact congrArg (fun q => some (pushed m.cap q entry)) hheld
        | clear s => rfl
      · rw [apply_other _ hs, List.filter_cons_of_neg (by simpa using hs),
          List.filter_nil, List.append_nil, ih]

end WorkingMemory

theorem since_snoc (s : String) (ops : List WorkingOp) (op : WorkingOp) :
    since s (ops ++ [op]) = sinceStep s (since s ops) op := by
  unfold since
  rw [List.foldl_append]
  rfl

theorem sinceStep_other {s : String} {op : WorkingOp} (h : op.session ≠ s)
    (entries : List MemoryEntry) : sinceStep s entries op = entries := by
  cases op with
  | append s' entry => exact if_neg h
  | clear s' => exact if_neg h

/-- Where there is room, the last entries are held. -/
theorem after_spec {m : WorkingMemory} (hcap : 0 < m.cap)
    (hempty : m.sessions = .empty) (s : String) (ops : List WorkingOp) :
    ((m.after ops).held s).reverse = (since s ops).reverse.take m.cap := by
  induction ops using List.reverseRecOn with
  | nil =>
      show ((m.sessions s).getD []).reverse = _
      rw [hempty]
      simp [since, Table.empty]
  | append_singleton ops op ih =>
      rw [WorkingMemory.after_snoc, since_snoc]
      by_cases hs : op.session = s
      · subst hs
        unfold WorkingMemory.held
        rw [WorkingMemory.apply_session]
        cases op with
        | append s entry =>
            change ((m.after ops).held s).reverse
              = (since s ops).reverse.take m.cap at ih
            have hlen : ((m.after ops).held s).length ≤ m.cap := by
              rw [← List.length_reverse, ih, List.length_take]
              exact Nat.min_le_left _ _
            show (WorkingMemory.pushed (m.after ops).cap
              ((m.after ops).held s) entry).reverse = _
            rw [WorkingMemory.after_cap, pushed_reverse hcap hlen, ih,
              take_cons_take]
            show _ = ((if s = s then _ else _ : List MemoryEntry).reverse).take _
            rw [if_pos rfl, List.reverse_append]
            rfl
        | clear s =>
            show _ = ((if s = s then _ else _ : List MemoryEntry).reverse).take _
            rw [if_pos rfl]
            simp
      · unfold WorkingMemory.held
        rw [WorkingMemory.apply_other _ hs, sinceStep_other hs]
        exact ih

-- ================================================================== ring

/-- A write that appends. -/
def WorkingOp.Appends (op : WorkingOp) : Prop := ∃ s entry, op = .append s entry

/-- Where there is room, the memory is a ring. -/
theorem ring_of_room {c : Constructor} (hcap : 0 < c.memory.cap)
    (ops : List WorkingOp) : Ring c ops := by
  have hempty : c.memory.sessions = .empty := by
    cases c with
    | new => rfl
    | withCapacity cap => rfl
    | default => rfl
  refine ⟨fun s n => ?_, fun s => ?_, fun s =>
    WorkingMemory.after_apart _ s ops⟩
  · rw [recent_eq_held, after_spec hcap hempty s ops, List.take_take]
  · rw [← List.length_reverse, after_spec hcap hempty s ops,
      List.length_take]
    omega

/-- A memory to which nothing is appended holds nothing. -/
theorem held_unwritten {m : WorkingMemory} (hempty : m.sessions = .empty)
    {ops : List WorkingOp} (hops : ∀ op ∈ ops, ¬ op.Appends) (s : String) :
    (m.after ops).held s = [] ∧ since s ops = [] := by
  induction ops using List.reverseRecOn with
  | nil =>
      refine ⟨?_, rfl⟩
      show (m.sessions s).getD [] = []
      rw [hempty]
      rfl
  | append_singleton ops op ih =>
      obtain ⟨hheld, hsince⟩ := ih fun op' hop' =>
        hops op' (List.mem_append_left _ hop')
      rw [WorkingMemory.after_snoc, since_snoc, hsince]
      cases op with
      | append s' entry =>
          exact absurd ⟨s', entry, rfl⟩ (hops _ (by simp))
      | clear s' =>
          refine ⟨?_, ite_self []⟩
          by_cases hs : s' = s
          · subst hs
            show (((m.after ops).sessions.remove s') s').getD [] = []
            rw [Table.remove_self]
            rfl
          · show (((m.after ops).sessions.remove s') s).getD [] = []
            rw [Table.remove_ne (Ne.symm hs)]
            exact hheld

/-- All along a run the memory is a ring exactly where it is not the derived
default, or nothing is appended to it. -/
theorem ring_iff (c : Constructor) (ops : List WorkingOp) :
    (∀ run, run <+: ops → Ring c run)
      ↔ c ≠ .default ∨ ∀ op ∈ ops, ¬ op.Appends := by
  constructor
  · intro h
    by_contra hnot
    obtain ⟨hdefault, hops⟩ := not_or.mp hnot
    rw [not_not] at hdefault
    subst hdefault
    obtain ⟨op, hop, s, entry, rfl⟩ : ∃ op ∈ ops, op.Appends := by
      simpa using hops
    obtain ⟨run, rest, rfl⟩ := List.append_of_mem hop
    have hring := h (run ++ [.append s entry]) ⟨rest, by simp⟩
    -- there is no room, but the entry is recalled
    have hrecent := hring.recent s 1
    rw [recent_eq_held, WorkingMemory.after_snoc] at hrecent
    have hheld : ((Constructor.default.memory.after run).apply
        (.append s entry)).held s
        = WorkingMemory.pushed 0
          ((Constructor.default.memory.after run).held s) entry := by
      have hcap : (Constructor.default.memory.after run).cap = 0 :=
        WorkingMemory.after_cap _ run
      rw [← hcap]
      exact congrArg (Option.getD · []) (WorkingMemory.apply_session _
        (.append s entry))
    rw [hheld, WorkingMemory.pushed, List.reverse_append] at hrecent
    cases hrecent
  · rintro (hc | hops) run hrun
    · refine ring_of_room ?_ run
      cases c with
      | new => decide
      | withCapacity cap =>
          exact Nat.lt_of_lt_of_le Nat.zero_lt_one (Nat.le_max_right cap 1)
      | default => exact absurd rfl hc
    · have hempty : c.memory.sessions = .empty := by
        cases c with
        | new => rfl
        | withCapacity cap => rfl
        | default => rfl
      have hrun' : ∀ op ∈ run, ¬ op.Appends := fun op hop =>
        hops op (hrun.subset hop)
      refine ⟨fun s n => ?_, fun s => ?_, fun s =>
        WorkingMemory.after_apart _ s run⟩
      · obtain ⟨hheld, hsince⟩ := held_unwritten hempty hrun' s
        rw [recent_eq_held, hheld, hsince]
        simp
      · rw [(held_unwritten hempty hrun' s).1]
        exact Nat.zero_le _

/-- The derived default is never full: two entries are held and recalled. -/
theorem default_unbounded :
    ¬ ∀ (c : Constructor) (ops : List WorkingOp), Ring c ops := by
  intro h
  have hbounded := (h .default
    [.append "S1" (.new .working "k0" .null 0),
      .append "S1" (.new .working "k1" .null 0)]).bounded "S1"
  exact absurd hbounded (by decide)

end SapAutomate.Memory
