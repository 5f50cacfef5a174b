/-
What the episodic tier recalls by tag (`EpisodicMemory` of
`sap-automate-memory/src/lib.rs`).

The index has the place of an entry under a tag as often as the tag stands
in the entry's list (`index_spec`), so the last entries with the tag are
recalled just where no entry that is visible has it twice.
-/
import SapAutomate.Memory.Manager
import Mathlib.Data.List.Induction

namespace SapAutomate.Memory

/-- An entry and the tags it is recorded with. -/
structure Episode where
  entry : MemoryEntry
  tags : List String

namespace EpisodicMemory

/-- The memory after these have been recorded. -/
def after (log : List Episode) : EpisodicMemory :=
  log.foldl (fun m r => m.record r.entry r.tags) .new

end EpisodicMemory

/-- An entry that a tenant sees: its own, a public one, or any without a
tenant. -/
def Visible (tenant : Option String) (e : MemoryEntry) : Prop :=
  tenant = none ∨ e.tenant = none ∨ e.tenant = tenant

instance (tenant : Option String) (e : MemoryEntry) :
    Decidable (Visible tenant e) := by
  unfold Visible
  infer_instance

/-- The entries recorded with a tag that a tenant sees, in turn. -/
def tagged (log : List Episode) (tag : String) (tenant : Option String) :
    List MemoryEntry :=
  (log.filter fun r => tag ∈ r.tags ∧ Visible tenant r.entry).map Episode.entry

/-- The most recent of them are recalled, at most as many as asked for, in
the order they were recorded in. -/
def RecallExact (log : List Episode) (tag : String) (tenant : Option String) :
    Prop :=
  ∀ limit, (EpisodicMemory.after log).lookupTag tag tenant limit
    = ((tagged log tag tenant).reverse.take limit).reverse

-- ================================================================= index

/-- What the memory holds of an entry under a tag: as often as the tag is
in its list. -/
def Episode.copies (tag : String) (r : Episode) : List MemoryEntry :=
  List.replicate (r.tags.count tag) r.entry

theorem foldl_indexed (idx : Nat) (tags : List String)
    (byTag : Table String (List Nat)) (tag : String) :
    ((tags.foldl (EpisodicMemory.indexed idx) byTag) tag).getD []
      = (byTag tag).getD [] ++ List.replicate (tags.count tag) idx := by
  induction tags generalizing byTag with
  | nil => simp
  | cons t tags ih =>
      rw [List.foldl_cons, ih]
      unfold EpisodicMemory.indexed
      by_cases ht : tag = t
      · subst ht
        rw [Table.insert_self, Option.getD_some, List.count_cons_self,
          List.append_assoc, List.replicate_succ]
        rfl
      · rw [Table.insert_ne ht, List.count_cons_of_ne (Ne.symm ht)]

theorem after_snoc (log : List Episode) (r : Episode) :
    EpisodicMemory.after (log ++ [r])
      = (EpisodicMemory.after log).record r.entry r.tags := by
  unfold EpisodicMemory.after
  rw [List.foldl_append]
  rfl

/-- The log is what was recorded, and the index under a tag leads to the
copies, in turn. -/
theorem index_spec (log : List Episode) (tag : String) :
    (EpisodicMemory.after log).entries = log.map Episode.entry
      ∧ (((EpisodicMemory.after log).byTag tag).getD []).filterMap
          (fun i => (EpisodicMemory.after log).entries[i]?)
        = log.flatMap (Episode.copies tag)
      ∧ ∀ i ∈ ((EpisodicMemory.after log).byTag tag).getD [],
          i < log.length := by
  induction log using List.reverseRecOn with
  | nil => exact ⟨rfl, rfl, fun i hi => absurd hi List.not_mem_nil⟩
  | append_singleton log r ih =>
      obtain ⟨hentries, hindex, hlt⟩ := ih
      rw [after_snoc]
      unfold EpisodicMemory.record
      dsimp only
      rw [foldl_indexed, hentries]
      rw [hentries] at hindex
      have hlen : (log.map Episode.entry).length = log.length :=
        List.length_map ..
      have hlog : (log ++ [r]).map Episode.entry
          = log.map Episode.entry ++ [r.entry] := List.map_append
      refine ⟨hlog.symm, ?_, ?_⟩
      · rw [List.filterMap_append, List.flatMap_append]
        refine congrArg₂ (· ++ ·) ?_ ?_
        · -- the indices before are those of entries before
          refine (List.filterMap_congr fun i hi => ?_).trans hindex
          exact List.getElem?_append_left (hlen ▸ hlt i hi)
        · have hlast : (log.map Episode.entry
              ++ [r.entry])[(log.map Episode.entry).length]?
              = some r.entry := List.getElem?_concat_length
          rw [List.filterMap_replicate_of_some hlast, List.flatMap_singleton]
          rfl
      · intro i hi
        rw [List.length_append, List.length_singleton]
        rcases List.mem_append.mp hi with hi | hi
        · exact Nat.lt_succ_of_lt (hlt i hi)
        · rw [List.eq_of_mem_replicate hi, hlen]
          exact Nat.lt_succ_self _

theorem readable_iff (tenant : Option String) (e : MemoryEntry) :
    EpisodicMemory.readable tenant e = true ↔ Visible tenant e := by
  unfold EpisodicMemory.readable Visible
  cases tenant with
  | none => simp
  | some t =>
      cases he : e.tenant with
      | none => simp
      | some t' =>
          simp only [beq_iff_eq, Option.some.injEq, reduceCtorEq, false_or]
          exact eq_comm

/-- What is recalled: the last of the copies that are visible. -/
theorem lookupTag_eq (log : List Episode) (tag : String)
    (tenant : Option String) (limit : Nat) :
    (EpisodicMemory.after log).lookupTag tag tenant limit
      = (((log.flatMap (Episode.copies tag)).filter
          fun e => Visible tenant e).reverse.take limit).reverse := by
  have hfilter : EpisodicMemory.readable tenant
      = fun e => decide (Visible tenant e) := by
    funext e
    rw [Bool.eq_iff_iff, readable_iff, decide_eq_true_iff]
  unfold EpisodicMemory.lookupTag
  rw [List.filterMap_reverse, (index_spec log tag).2.1, List.filter_reverse,
    hfilter]

-- ================================================================ copies

/-- One visible entry's part in either. -/
theorem copies_visible (tag : String) (tenant : Option String) (r : Episode) :
    (r.copies tag).filter (fun e => Visible tenant e)
      = if Visible tenant r.entry then r.copies tag else [] := by
  unfold Episode.copies
  rw [List.filter_replicate]
  simp

theorem tagged_cons (r : Episode) (log : List Episode) (tag : String)
    (tenant : Option String) :
    tagged (r :: log) tag tenant
      = (if tag ∈ r.tags ∧ Visible tenant r.entry then [r.entry] else [])
        ++ tagged log tag tenant := by
  unfold tagged
  by_cases h : tag ∈ r.tags ∧ Visible tenant r.entry
  · rw [List.filter_cons_of_pos (by simpa using h), if_pos h]
    rfl
  · rw [List.filter_cons_of_neg (by simpa using h), if_neg h]
    rfl

/-- Where no visible entry has a tag twice, the copies are the entries. -/
theorem visible_copies {log : List Episode} {tag : String}
    {tenant : Option String}
    (h : ∀ r ∈ log, Visible tenant r.entry → r.tags.count tag ≤ 1) :
    (log.flatMap (Episode.copies tag)).filter (fun e => Visible tenant e)
      = tagged log tag tenant := by
  induction log with
  | nil => rfl
  | cons r log ih =>
      obtain ⟨hr, hlog⟩ := List.forall_mem_cons.mp h
      rw [List.flatMap_cons, List.filter_append, ih hlog, tagged_cons,
        copies_visible]
      refine congrArg (· ++ _) ?_
      by_cases hvisible : Visible tenant r.entry
      · rw [if_pos hvisible, Episode.copies]
        by_cases hmem : tag ∈ r.tags
        · have hone : r.tags.count tag = 1 :=
            Nat.le_antisymm (hr hvisible) (List.count_pos_iff.mpr hmem)
          rw [if_pos ⟨hmem, hvisible⟩, hone]
          rfl
        · rw [if_neg fun h => hmem h.1, List.count_eq_zero.mpr hmem]
          rfl
      · rw [if_neg hvisible, if_neg fun h => hvisible h.2]

/-- There are no fewer copies than entries, and more where one is twice. -/
theorem length_copies (log : List Episode) (tag : String)
    (tenant : Option String) :
    (tagged log tag tenant).length
        ≤ ((log.flatMap (Episode.copies tag)).filter
          fun e => Visible tenant e).length
      ∧ ((tagged log tag tenant).length
          = ((log.flatMap (Episode.copies tag)).filter
            fun e => Visible tenant e).length →
        ∀ r ∈ log, Visible tenant r.entry → r.tags.count tag ≤ 1) := by
  induction log with
  | nil => exact ⟨Nat.le_refl _, fun _ => List.forall_mem_nil _⟩
  | cons r log ih =>
      obtain ⟨hle, heq⟩ := ih
      rw [List.flatMap_cons, List.filter_append, tagged_cons, copies_visible,
        List.length_append, List.length_append]
      by_cases hvisible : Visible tenant r.entry
      · have hcopies : (r.copies tag).length = r.tags.count tag :=
          List.length_replicate
        rw [if_pos hvisible, hcopies]
        by_cases hmem : tag ∈ r.tags
        · have hpos := List.count_pos_iff.mpr hmem
          rw [if_pos ⟨hmem, hvisible⟩, List.length_singleton]
          refine ⟨by omega, fun hlen => List.forall_mem_cons.mpr ⟨fun _ => ?_,
            heq ?_⟩⟩
          · omega
          · omega
        · have hzero := List.count_eq_zero.mpr hmem
          rw [if_neg fun h => hmem h.1, List.length_nil]
          refine ⟨by omega, fun hlen => List.forall_mem_cons.mpr ⟨fun _ => ?_,
            heq ?_⟩⟩
          · omega
          · omega
      · rw [if_neg hvisible, if_neg fun h => hvisible h.2]
        refine ⟨by simpa using hle, fun hlen => List.forall_mem_cons.mpr
          ⟨fun h => absurd h hvisible, heq (by simpa using hlen)⟩⟩

/-- Recall by a tag is exact just where no entry that the tenant sees was
recorded with the tag twice. -/
theorem recallExact_iff (log : List Episode) (tag : String)
    (tenant : Option String) :
    RecallExact log tag tenant
      ↔ ∀ r ∈ log, Visible tenant r.entry → r.tags.count tag ≤ 1 := by
  constructor
  · intro h
    refine (length_copies log tag tenant).2 ?_
    -- as many as there are copies
    have hall := congrArg List.length (h ((log.flatMap
      (Episode.copies tag)).filter fun e => Visible tenant e).length)
    rw [lookupTag_eq, List.length_reverse, List.length_reverse,
      List.length_take, List.length_take, List.length_reverse,
      List.length_reverse, Nat.min_self] at hall
    have hle := (length_copies log tag tenant).1
    omega
  · intro h limit
    rw [lookupTag_eq, visible_copies h]

/-- An entry recorded with a tag twice is recalled twice, and takes the
place of another. -/
theorem repeated_tag_crowds :
    ¬ ∀ (log : List Episode) (tag : String) (tenant : Option String),
      RecallExact log tag tenant := by
  intro h
  have hrecall := h [⟨.new .episodic "po1" .null 0, ["po"]⟩,
    ⟨.new .episodic "po2" .null 0, ["po", "po"]⟩] "po" none 2
  have hkeys := congrArg (List.map MemoryEntry.key) hrecall
  exact absurd hkeys (by decide)

end SapAutomate.Memory
