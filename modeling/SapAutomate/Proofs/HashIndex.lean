/-
The hash index of the in-memory store and its chunks, under any
interleaving of `insert_chunk`.

A call goes through its sections in a row (`KbStep`, the steps there are).
Between the first and the second the index is ahead of the chunks, for
every call that is there. It is behind for good where a call puts its
chunk in after a later one has put in its own: `StaleWrite`. Without such
a step, each hash in the index is that of the chunk held, or of one that
is still to come (`Ahead`).
-/
import SapAutomate.Kb.Store

namespace SapAutomate.Kb

open Interact

variable {F : Type} (contentHash : String → String)

abbrev KbPool (F : Type) :=
  Pool (KbIface F) (Chunk F) Unit (InMemoryKb F) Unit

abbrev KbTask (F : Type) := Task (KbIface F) (Chunk F) Unit

-- ================================================================ phases

/-- What is left once the chunk is in. -/
def afterChunk : Prog (KbIface F) Unit :=
  .ask .written fun _ => .done ()

/-- What is left once the hash is in. -/
def afterHash (chunk : Chunk F) : Prog (KbIface F) Unit :=
  .ask (.chunks chunk) fun _ => afterChunk

/-- The calls are before, between or past their sections. -/
def Phased (p : KbPool F) : Prop :=
  ∀ t ∈ p.tasks, t.prog = insertChunkBody contentHash t.call
    ∨ t.prog = afterHash t.call ∨ t.prog = afterChunk ∨ t.prog = .done ()

/-- Task `i` goes on to `prog`, and leaves the store as `kb`. -/
def KbNext (p : KbPool F) (i : Nat) (t : KbTask F)
    (prog : Prog (KbIface F) Unit) (kb : InMemoryKb F) (p' : KbPool F) : Prop :=
  p'.shared = kb ∧ p'.tasks = p.tasks.set i { t with prog := prog }

/-- The steps there are. -/
inductive KbStep (a : PoolAct (Chunk F) Unit) (p p' : KbPool F) : Prop where
  | spawn (c : Chunk F)
      (h : p' = p.spawn c (insertChunkBody contentHash c))
  | skip (i : Nat) (t : KbTask F) (ha : a = .resume i ())
      (ht : p.tasks[i]? = some t)
      (hprog : t.prog = insertChunkBody contentHash t.call)
      (hskip : p.shared.hashed t.call.id (contentHash t.call.text) = true)
      (h : KbNext p i t (.done ()) p.shared.skipped p')
  | hash (i : Nat) (t : KbTask F) (ha : a = .resume i ())
      (ht : p.tasks[i]? = some t)
      (hprog : t.prog = insertChunkBody contentHash t.call)
      (h : KbNext p i t (afterHash t.call)
        (p.shared.putHash t.call.id (contentHash t.call.text)) p')
  | chunk (i : Nat) (t : KbTask F) (ha : a = .resume i ())
      (ht : p.tasks[i]? = some t) (hprog : t.prog = afterHash t.call)
      (h : KbNext p i t afterChunk (p.shared.putChunk t.call) p')
  | count (i : Nat) (t : KbTask F) (ha : a = .resume i ())
      (ht : p.tasks[i]? = some t) (hprog : t.prog = afterChunk)
      (h : KbNext p i t (.done ()) p.shared.countWritten p')

variable {contentHash}

/-- There are no others. -/
theorem kbStep {kb : InMemoryKb F} {a : PoolAct (Chunk F) Unit}
    {p p' : KbPool F} (hphased : Phased contentHash p)
    (hstep : (kbMachine contentHash kb).step a p = some p') :
    KbStep contentHash a p p' := by
  rcases poolMachine_step hstep with ⟨c, -, hp'⟩
    | ⟨i, w, t, q, k, ha, ht, hprog, hp'⟩
  · exact .spawn c hp'
  have hmem : t ∈ p.tasks := List.mem_of_getElem? ht
  rcases hphased t hmem with hstart | hhash | hchunk | hdone
  · -- before the first section
    have hask := hprog.symm.trans hstart
    obtain ⟨rfl, hk⟩ := Prog.ask.inj hask
    have hk := eq_of_heq hk
    cases hskip : p.shared.hashed t.call.id (contentHash t.call.text) with
    | true =>
        refine .skip i t ha ht hstart hskip ?_
        rw [hp', hk]
        constructor
        · show (InMemoryKb.answer _ _).2 = _
          simp only [InMemoryKb.answer, hskip, if_true]
        · show p.tasks.set i _ = _
          simp only [InMemoryKb.answer, hskip, if_true]
          rfl
    | false =>
        refine .hash i t ha ht hstart ?_
        rw [hp', hk]
        constructor
        · show (InMemoryKb.answer _ _).2 = _
          simp only [InMemoryKb.answer, hskip, Bool.false_eq_true, if_false]
        · show p.tasks.set i _ = _
          simp only [InMemoryKb.answer, hskip, Bool.false_eq_true, if_false]
          rfl
  · have hask := hprog.symm.trans hhash
    obtain ⟨rfl, hk⟩ := Prog.ask.inj hask
    have hk := eq_of_heq hk
    refine .chunk i t ha ht hhash ?_
    rw [hp', hk]
    exact ⟨rfl, rfl⟩
  · have hask := hprog.symm.trans hchunk
    obtain ⟨rfl, hk⟩ := Prog.ask.inj hask
    have hk := eq_of_heq hk
    refine .count i t ha ht hchunk ?_
    rw [hp', hk]
    exact ⟨rfl, rfl⟩
  · rw [hdone] at hprog
    cases hprog

-- ============================================================= invariant

/-- The call has returned. -/
def returned (t : KbTask F) : Bool :=
  match t.prog with
  | .done _ => true
  | .ask _ _ => false

/-- A call between its first section and its second, with this id and
hash. -/
def Ahead (contentHash : String → String) (p : KbPool F) (id : ChunkId)
    (hash : String) : Prop :=
  ∃ (j : Nat) (t : KbTask F), p.tasks[j]? = some t ∧ t.prog = afterHash t.call ∧ t.call.id = id
    ∧ contentHash t.call.text = hash

/-- A call puts its chunk in where the index has another hash for its id,
and no other call is to put in a chunk with that one. -/
def StaleWrite (contentHash : String → String)
    (a : PoolAct (Chunk F) Unit) (p : KbPool F) : Prop :=
  ∃ (i : Nat) (t : KbTask F) (hash : String), a = .resume i () ∧ p.tasks[i]? = some t
    ∧ t.prog = afterHash t.call ∧ p.shared.contentHashes t.call.id = some hash
    ∧ hash ≠ contentHash t.call.text
    ∧ ∀ (j : Nat) (u : KbTask F), j ≠ i → p.tasks[j]? = some u → u.prog = afterHash u.call →
      u.call.id = t.call.id → contentHash u.call.text ≠ hash

/-- What holds in every run without stale writes. -/
structure Agreeing (contentHash : String → String) (p : KbPool F) : Prop where
  phased : Phased contentHash p
  hashed : ∀ id, (p.shared.chunks id).isSome = true →
    (p.shared.contentHashes id).isSome = true
  ahead : ∀ id hash, p.shared.contentHashes id = some hash →
    Ahead contentHash p id hash
      ∨ (p.shared.chunks id).map (fun c => contentHash c.text) = some hash
  entered : ∀ t ∈ p.tasks, t.prog = afterHash t.call →
    (p.shared.contentHashes t.call.id).isSome = true
  counted : p.shared.stats.chunksWritten + p.shared.stats.chunksDedupSkipped
    = p.tasks.countP returned

theorem agreeing_init : Agreeing contentHash (⟨.new, [], []⟩ : KbPool F) where
  phased := by
    intro t ht
    cases ht
  hashed := by
    intro id h
    cases h
  ahead := by
    intro id hash h
    cases h
  entered := by
    intro t ht
    cases ht
  counted := rfl

/-- The tasks after a step: the one that went on, and the others. -/
theorem KbNext.tasks {p p' : KbPool F} {i : Nat} {t : KbTask F}
    {prog : Prog (KbIface F) Unit} {kb : InMemoryKb F}
    (h : KbNext p i t prog kb p') (ht : p.tasks[i]? = some t) {j : Nat}
    {u : KbTask F} : p'.tasks[j]? = some u
      ↔ (j = i ∧ u = { t with prog := prog })
        ∨ (j ≠ i ∧ p.tasks[j]? = some u) := by
  rw [h.2]
  exact getElem?_set_eq_some (List.getElem?_eq_some_iff.mp ht).1

/-- The phases after a step. -/
theorem KbNext.phased {p p' : KbPool F} {i : Nat} {t : KbTask F}
    {prog : Prog (KbIface F) Unit} {kb : InMemoryKb F}
    (h : KbNext p i t prog kb p') (hphased : Phased contentHash p)
    (hprog : prog = afterHash t.call ∨ prog = afterChunk ∨ prog = .done ()) :
    Phased contentHash p' := by
  intro u hu
  rw [h.2] at hu
  rcases List.mem_or_eq_of_mem_set hu with hu | rfl
  · exact hphased u hu
  · exact .inr hprog

/-- The calls returned after a step: one more where the task has. -/
theorem KbNext.counted {p p' : KbPool F} {i : Nat} {t : KbTask F}
    {prog : Prog (KbIface F) Unit} {kb : InMemoryKb F}
    (h : KbNext p i t prog kb p') (ht : p.tasks[i]? = some t)
    (hnot : returned t = false) :
    p'.tasks.countP returned = p.tasks.countP returned
      + if returned { t with prog := prog } then 1 else 0 := by
  obtain ⟨hi, hget⟩ := List.getElem?_eq_some_iff.mp ht
  rw [h.2, List.countP_set hi, hget, hnot]
  simp

/-- Whoever is ahead stays ahead while another task goes on. -/
theorem KbNext.ahead {p p' : KbPool F} {i : Nat} {t : KbTask F}
    {prog : Prog (KbIface F) Unit} {kb : InMemoryKb F}
    (h : KbNext p i t prog kb p') (ht : p.tasks[i]? = some t)
    (hnot : t.prog ≠ afterHash t.call) {id : ChunkId} {hash : String}
    (ha : Ahead contentHash p id hash) : Ahead contentHash p' id hash := by
  obtain ⟨j, u, hu, hprog, hrest⟩ := ha
  refine ⟨j, u, (h.tasks ht).mpr (.inr ⟨?_, hu⟩), hprog, hrest⟩
  rintro rfl
  rw [ht, Option.some.injEq] at hu
  exact hnot (hu ▸ hprog)

theorem start_ne_afterHash (c : Chunk F) :
    insertChunkBody contentHash c ≠ afterHash c := by
  intro h
  have hquery := (Prog.ask.inj h).1
  cases hquery

theorem afterChunk_ne_afterHash (c : Chunk F) :
    (afterChunk : Prog (KbIface F) Unit) ≠ afterHash c := by
  intro h
  have hquery := (Prog.ask.inj h).1
  cases hquery

/-- A step that is no stale write keeps it. -/
theorem Agreeing.step {kb : InMemoryKb F} {a : PoolAct (Chunk F) Unit}
    {p p' : KbPool F} (hp : Agreeing contentHash p)
    (hfresh : ¬ StaleWrite contentHash a p)
    (hstep : (kbMachine contentHash kb).step a p = some p') :
    Agreeing contentHash p' := by
  rcases kbStep hp.phased hstep with ⟨c, rfl⟩ | ⟨i, t, ha, ht, hprog, hskip, h⟩
    | ⟨i, t, ha, ht, hprog, h⟩ | ⟨i, t, ha, ht, hprog, h⟩
    | ⟨i, t, ha, ht, hprog, h⟩
  · -- a new call
    constructor
    case phased =>
      intro t ht
      rcases List.mem_append.mp ht with ht | ht
      · exact hp.phased t ht
      · rw [List.mem_singleton.mp ht]
        exact .inl rfl
    case hashed => exact hp.hashed
    case ahead =>
      intro id hash hhash
      rcases hp.ahead id hash hhash with ⟨j, t, ht, hrest⟩ | hheld
      · exact .inl ⟨j, t, getElem?_snoc.mpr (.inl ht), hrest⟩
      · exact .inr hheld
    case entered =>
      intro t ht hprog
      rcases List.mem_append.mp ht with ht | ht
      · exact hp.entered t ht hprog
      · rw [List.mem_singleton.mp ht] at hprog
        exact absurd hprog (start_ne_afterHash c)
    case counted =>
      show _ = (p.tasks ++ [_]).countP returned
      rw [List.countP_append, ← hp.counted]
      rfl
  · -- a skip
    have hnot : t.prog ≠ afterHash t.call := by
      rw [hprog]
      exact start_ne_afterHash t.call
    constructor
    case phased => exact h.phased hp.phased (.inr (.inr rfl))
    case hashed =>
      rw [h.1]
      exact hp.hashed
    case ahead =>
      rw [h.1]
      intro id hash hhash
      rcases hp.ahead id hash hhash with hah | hheld
      · exact .inl (h.ahead ht hnot hah)
      · exact .inr hheld
    case entered =>
      intro u hu huprog
      obtain ⟨j, hj⟩ := List.mem_iff_getElem?.mp hu
      rw [h.1]
      rcases (h.tasks ht).mp hj with ⟨-, rfl⟩ | ⟨-, hj⟩
      · cases huprog
      · exact hp.entered u (List.mem_of_getElem? hj) huprog
    case counted =>
      have hone := h.counted ht (by unfold returned; rw [hprog]; rfl)
      have hall := hp.counted
      rw [h.1, hone]
      show p.shared.stats.chunksWritten
        + (p.shared.stats.chunksDedupSkipped + 1) = _
      simp only [returned, if_true]
      omega
  · -- a hash goes in
    have hnot : t.prog ≠ afterHash t.call := by
      rw [hprog]
      exact start_ne_afterHash t.call
    have hinto : ∀ id, p'.shared.contentHashes id
        = p.shared.contentHashes.insert t.call.id
          (contentHash t.call.text) id := by
      intro id
      rw [h.1]
      rfl
    have hkept : ∀ id, (p.shared.contentHashes id).isSome = true →
        (p'.shared.contentHashes id).isSome = true := by
      intro id hid
      rw [hinto]
      by_cases hsame : id = t.call.id
      · rw [hsame, Table.insert_self]
        rfl
      · rw [Table.insert_ne hsame]
        exact hid
    constructor
    case phased => exact h.phased hp.phased (.inl rfl)
    case hashed =>
      intro id hid
      rw [h.1] at hid
      exact hkept id (hp.hashed id hid)
    case ahead =>
      intro id hash hhash
      rw [hinto] at hhash
      by_cases hsame : id = t.call.id
      · -- the call is ahead itself
        rw [hsame, Table.insert_self, Option.some.injEq] at hhash
        exact .inl ⟨i, _, (h.tasks ht).mpr (.inl ⟨rfl, rfl⟩), rfl, hsame.symm,
          hhash⟩
      · rw [Table.insert_ne hsame] at hhash
        rcases hp.ahead id hash hhash with hah | hheld
        · exact .inl (h.ahead ht hnot hah)
        · refine .inr ?_
          rw [h.1]
          exact hheld
    case entered =>
      intro u hu huprog
      obtain ⟨j, hj⟩ := List.mem_iff_getElem?.mp hu
      rcases (h.tasks ht).mp hj with ⟨-, rfl⟩ | ⟨-, hj⟩
      · rw [hinto, Table.insert_self]
        rfl
      · exact hkept _ (hp.entered u (List.mem_of_getElem? hj) huprog)
    case counted =>
      have hone := h.counted ht (by unfold returned; rw [hprog]; rfl)
      have hall := hp.counted
      rw [h.1, hone]
      exact hall
  · -- a chunk goes in
    have hinto : ∀ id, p'.shared.chunks id
        = p.shared.chunks.insert t.call.id t.call id := by
      intro id
      rw [h.1]
      rfl
    have hhashes : p'.shared.contentHashes = p.shared.contentHashes := by
      rw [h.1]
      rfl
    have hentered := hp.entered t (List.mem_of_getElem? ht) hprog
    constructor
    case phased => exact h.phased hp.phased (.inr (.inl rfl))
    case hashed =>
      intro id hid
      rw [hhashes]
      rw [hinto] at hid
      by_cases hsame : id = t.call.id
      · rw [hsame]
        exact hentered
      · rw [Table.insert_ne hsame] at hid
        exact hp.hashed id hid
    case ahead =>
      intro id hash hhash
      rw [hhashes] at hhash
      by_cases hsame : id = t.call.id
      · subst hsame
        by_cases hown : hash = contentHash t.call.text
        · refine .inr ?_
          rw [hinto, Table.insert_self, hown]
          rfl
        · -- the chunk that the index is about is still to come
          refine .inl ?_
          by_contra hnone
          refine hfresh ⟨i, t, hash, ha, ht, hprog, hhash, hown, ?_⟩
          intro j u hj hu huprog huid huhash
          exact hnone ⟨j, u, (h.tasks ht).mpr (.inr ⟨hj, hu⟩), huprog, huid,
            huhash⟩
      · rcases hp.ahead id hash hhash with ⟨j, u, hu, huprog, huid, huhash⟩
          | hheld
        · have hj : j ≠ i := by
            rintro rfl
            rw [ht, Option.some.injEq] at hu
            exact hsame (huid.symm.trans (by rw [hu]))
          exact .inl ⟨j, u, (h.tasks ht).mpr (.inr ⟨hj, hu⟩), huprog, huid,
            huhash⟩
        · refine .inr ?_
          rw [hinto, Table.insert_ne hsame]
          exact hheld
    case entered =>
      intro u hu huprog
      obtain ⟨j, hj⟩ := List.mem_iff_getElem?.mp hu
      rw [hhashes]
      rcases (h.tasks ht).mp hj with ⟨-, rfl⟩ | ⟨-, hj⟩
      · exact absurd huprog (afterChunk_ne_afterHash t.call)
      · exact hp.entered u (List.mem_of_getElem? hj) huprog
    case counted =>
      have hone := h.counted ht (by unfold returned; rw [hprog]; rfl)
      have hall := hp.counted
      rw [h.1, hone]
      exact hall
  · -- a write is counted
    have hnot : t.prog ≠ afterHash t.call := by
      rw [hprog]
      exact afterChunk_ne_afterHash t.call
    constructor
    case phased => exact h.phased hp.phased (.inr (.inr rfl))
    case hashed =>
      rw [h.1]
      exact hp.hashed
    case ahead =>
      rw [h.1]
      intro id hash hhash
      rcases hp.ahead id hash hhash with hah | hheld
      · exact .inl (h.ahead ht hnot hah)
      · exact .inr hheld
    case entered =>
      intro u hu huprog
      obtain ⟨j, hj⟩ := List.mem_iff_getElem?.mp hu
      rw [h.1]
      rcases (h.tasks ht).mp hj with ⟨-, rfl⟩ | ⟨-, hj⟩
      · cases huprog
      · exact hp.entered u (List.mem_of_getElem? hj) huprog
    case counted =>
      have hone := h.counted ht (by unfold returned; rw [hprog]; rfl)
      have hall := hp.counted
      rw [h.1, hone]
      show p.shared.stats.chunksWritten + 1
        + p.shared.stats.chunksDedupSkipped = _
      simp only [returned, if_true]
      omega

-- ================================================================== runs

/-- No call is in progress. -/
def Quiet (p : KbPool F) : Prop := ∀ t ∈ p.tasks, returned t = true

/-- The index is that of the chunks held, and the counters count the
calls. -/
def IndexAgrees (contentHash : String → String) (p : KbPool F) : Prop :=
  (∀ id, (p.shared.contentHashes id).isSome = (p.shared.chunks id).isSome)
  ∧ (∀ id c, p.shared.chunks id = some c →
    p.shared.contentHashes id = some (contentHash c.text))
  ∧ p.shared.stats.chunksWritten + p.shared.stats.chunksDedupSkipped
    = p.tasks.length

/-- Where no call is in progress nobody is ahead. -/
theorem Agreeing.quiet {p : KbPool F} (hp : Agreeing contentHash p)
    (hquiet : Quiet p) : IndexAgrees contentHash p := by
  have hheld : ∀ id hash, p.shared.contentHashes id = some hash →
      (p.shared.chunks id).map (fun c => contentHash c.text) = some hash := by
    intro id hash hhash
    rcases hp.ahead id hash hhash with ⟨j, t, ht, hprog, -⟩ | hheld
    · have hret := hquiet t (List.mem_of_getElem? ht)
      unfold returned at hret
      rw [hprog] at hret
      cases hret
    · exact hheld
  refine ⟨fun id => ?_, fun id c hc => ?_, ?_⟩
  · cases hhash : p.shared.contentHashes id with
    | none =>
        cases hchunk : p.shared.chunks id with
        | none => rfl
        | some c =>
            have hsome := hp.hashed id (by rw [hchunk]; rfl)
            rw [hhash] at hsome
            cases hsome
    | some hash =>
        have hmap := hheld id hash hhash
        cases hchunk : p.shared.chunks id with
        | none =>
            rw [hchunk] at hmap
            cases hmap
        | some c => rfl
  · have hsome := hp.hashed id (by rw [hc]; rfl)
    obtain ⟨hash, hhash⟩ := Option.isSome_iff_exists.mp hsome
    have hmap := hheld id hash hhash
    rw [hc, Option.map_some, Option.some.injEq] at hmap
    rw [hhash, hmap]
  · rw [hp.counted, List.countP_eq_length]
    exact hquiet

/-- In every run without stale writes, whenever no call is in progress
the index agrees with the chunks and the counters with the calls. -/
theorem indexAgrees_of_meets (contentHash : String → String)
    {as : List (PoolAct (Chunk F) Unit)} {p : KbPool F}
    (hrun : (kbMachine contentHash .new).Runs as p)
    (hmeets : (kbMachine contentHash .new).Meets
      (fun a s => ¬ StaleWrite contentHash a s) as
      (kbMachine contentHash .new).init)
    (hquiet : Quiet p) : IndexAgrees contentHash p := by
  have hp : Agreeing contentHash p :=
    Machine.run_invariant (fun a s s' hfresh hs hstep => hs.step hfresh hstep)
      agreeing_init hmeets hrun
  exact hp.quiet hquiet

/-- A chunk of one text. -/
def version (text : String) : Chunk Unit where
  id := "abap:z#chunk-0"
  documentId := "abap:z"
  domain := .abap
  ordinal := 0
  text := text
  embedding := none
  breadcrumbs := []
  title := "z"
  uri := "u"

/-- A call that is not between its sections writes nothing stale. -/
theorem not_staleWrite_of_prog {a : PoolAct (Chunk F) Unit} {p : KbPool F}
    (h : ∀ i t, a = .resume i () → p.tasks[i]? = some t →
      t.prog ≠ afterHash t.call) : ¬ StaleWrite contentHash a p := by
  rintro ⟨i, t, hash, ha, ht, hprog, -⟩
  exact h i t ha ht hprog

/-- Nor does one whose hash is in the index. -/
theorem not_staleWrite_of_own {i : Nat} {p : KbPool F}
    (h : ∀ t, p.tasks[i]? = some t →
      p.shared.contentHashes t.call.id = some (contentHash t.call.text)) :
    ¬ StaleWrite contentHash (.resume i ()) p := by
  rintro ⟨j, t, hash, ha, ht, -, hhash, hne, -⟩
  obtain rfl : i = j := by
    injection ha
  rw [h t ht, Option.some.injEq] at hhash
  exact hne hhash.symm

/-- One call. -/
def oneCall : List (PoolAct (Chunk Unit) Unit) :=
  [.spawn (version "v1"), .resume 0 (), .resume 0 (), .resume 0 ()]

theorem oneCall_agrees :
    ∃ p, (kbMachine id .new).Runs oneCall p ∧ IndexAgrees id p := by
  have hmeets : (kbMachine id .new).Meets
      (fun a s => ¬ StaleWrite id a s) oneCall
      (kbMachine (F := Unit) id .new).init := by
    refine Machine.meets_cons rfl (not_staleWrite_of_prog ?_) ?_
    · intro i t ha
      cases ha
    refine Machine.meets_cons rfl (not_staleWrite_of_prog ?_) ?_
    · intro i t ha ht
      cases ha
      rw [← Option.some.inj ht]
      exact start_ne_afterHash _
    refine Machine.meets_cons rfl (not_staleWrite_of_own ?_) ?_
    · intro t ht
      rw [← Option.some.inj ht]
      rfl
    refine Machine.meets_cons rfl (not_staleWrite_of_prog ?_) trivial
    intro i t ha ht
    cases ha
    rw [← Option.some.inj ht]
    exact afterChunk_ne_afterHash _
  obtain ⟨p, hrun, hquiet⟩ : ∃ p : KbPool Unit,
      (kbMachine id .new).Runs oneCall p ∧ p.tasks.all returned = true :=
    ⟨_, rfl, rfl⟩
  exact ⟨p, hrun, indexAgrees_of_meets id hrun hmeets
    (List.all_eq_true.mp hquiet)⟩

/-- Two writers of one id: the second overtakes the first. -/
def overtaking : List (PoolAct (Chunk Unit) Unit) :=
  [.spawn (version "v1"), .spawn (version "v2"), .resume 0 (), .resume 1 (),
    .resume 1 (), .resume 0 (), .resume 1 (), .resume 0 ()]

/-- The index then has the hash of the second, and the store the chunk of
the first. -/
theorem overtaking_disagrees :
    ¬ ∀ (as : List (PoolAct (Chunk Unit) Unit)) (p : KbPool Unit),
      (kbMachine id .new).Runs as p → Quiet p → IndexAgrees id p := by
  intro h
  obtain ⟨p, hrun, hquiet, hindex, hchunk⟩ : ∃ p : KbPool Unit,
      (kbMachine id .new).Runs overtaking p ∧ p.tasks.all returned = true
        ∧ p.shared.contentHashes "abap:z#chunk-0" = some "v2"
        ∧ p.shared.chunks "abap:z#chunk-0" = some (version "v1") :=
    ⟨_, rfl, rfl, rfl, rfl⟩
  have hagrees := (h overtaking p hrun
    (List.all_eq_true.mp hquiet)).2.1 _ _ hchunk
  rw [hindex] at hagrees
  exact absurd hagrees (by decide)

end SapAutomate.Kb
