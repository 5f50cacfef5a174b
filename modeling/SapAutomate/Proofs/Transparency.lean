/-
What the metadata cache changes of the client it decorates, where the
client's answers are fixed: the order of a bulk answer, and nothing
else.

# The argument

Over a fixed client every answer taken from the cache is the client's
own (`fixed_agrees`): a hit was stored before (`Served`), what is
stored was fetched before (`stored_fetched`), and the client answered
then as it does now. So a finished lookup, among whatever other calls,
has the client's result (`finished_rfcMetadata`), a bulk lookup up to
the order: the names that were fresh come first. A lookup from a
reachable state is such a call (`poolMachine_call`).
-/
import SapAutomate.Rfc.Mock
import SapAutomate.Proofs.MetadataCache

namespace SapAutomate.Rfc.MetadataCache

open Interact

variable {M : Type} [HasFunction M] {ttl : Nat}

-- ======================================================= a fixed client

/-- What the client knows of the functions asked for, in order. -/
def known (inner : MetadataClient M) (l : String) (fs : List String) :
    List M :=
  fs.filterMap fun f => (inner.rfcMetadata f l).toOption

/-- The names it does not know. -/
def unknown (inner : MetadataClient M) (l : String) (fs : List String) :
    List String :=
  fs.filter fun f => (inner.rfcMetadata f l).toOption.isNone

/-- Its metadata carries the name asked for, and a bulk lookup is
answered name by name. -/
structure NameByName (inner : MetadataClient M) : Prop where
  named : ∀ f l m, inner.rfcMetadata f l = .ok m → function m = f
  bulk : ∀ fs l, inner.bulkRfcMetadata fs l
    = .ok ⟨l, known inner l fs, unknown inner l fs⟩

theorem mockBulkLoop_eq (l : String) (fs : List String)
    (out : List RfcFunctionMeta) (missing : List String) :
    mockBulkLoop fs out missing = (out ++ known mockMetadataClient l fs,
      missing ++ unknown mockMetadataClient l fs) := by
  induction fs generalizing out missing with
  | nil => simp [mockBulkLoop, known, unknown]
  | cons f fs ih =>
      cases hf : findFunction f with
      | none =>
          simp [mockBulkLoop, hf, ih, known, unknown, mockMetadataClient,
            mockRfcMetadata, Except.toOption]
      | some m =>
          simp [mockBulkLoop, hf, ih, known, unknown, mockMetadataClient,
            mockRfcMetadata, Except.toOption]

/-- The mock is such a client. -/
theorem mock_nameByName : NameByName mockMetadataClient where
  named := by
    intro f l m h
    simp only [mockMetadataClient, mockRfcMetadata] at h
    cases hf : findFunction f with
    | none => simp [hf] at h
    | some m' =>
        simp only [hf, Except.ok.injEq] at h
        rw [← h]
        exact (findFunction_some hf).2
  bulk := by
    intro fs l
    simp [mockMetadataClient, mockBulkRfcMetadata, mockBulkLoop_eq l]

/-- The client's own answers in a trace are those of the instant. -/
def answered (x : CacheMoment M) : Prop :=
  match x.exchange with
  | ⟨.innerMetadata f l, r⟩ => r = x.reading.inner.rfcMetadata f l
  | ⟨.innerBulk fs l, r⟩ => r = x.reading.inner.bulkRfcMetadata fs l
  | _ => True

theorem reachable_answered {p : CachePool M}
    (h : (machine M ttl).Reachable p) : ∀ x ∈ p.trace, answered x := by
  apply h.invariant
  · intro x hx
    cases hx
  intro a s s' hs hstep
  rcases poolMachine_step hstep with hspawn | hresume
  · obtain ⟨c, -, rfl⟩ := hspawn
    exact hs
  · obtain ⟨i, w, t, q, k, -, -, -, rfl⟩ := hresume
    intro x hx
    rcases List.mem_append.mp hx with hx | hx
    · exact hs x hx
    · rw [List.mem_singleton.mp hx]
      cases q <;> trivial

/-- Over a fixed client every entry is the client's own answer. -/
theorem reachable_agrees {inner : MetadataClient M}
    (hinner : NameByName inner) {p : CachePool M}
    (h : (machine M ttl).Reachable p)
    (hfixed : ∀ x ∈ p.trace, x.reading.inner = inner) {key : CacheKey}
    {e : Entry M} (he : p.shared.entries.lookup key = some e) :
    inner.rfcMetadata key.1 key.2 = .ok e.meta := by
  obtain ⟨n, y, hy, -⟩ := (reachable_kept h).1.stored key e he
  obtain ⟨n', z, t, -, hz, -, hfetch, -, -⟩ :=
    stored_fetched h hy.at_n hy.exchange
  have hmem := List.mem_of_getElem? hz
  have ha := reachable_answered h z hmem
  unfold answered at ha
  rw [hfixed z hmem] at ha
  generalize z.exchange = x at hfetch ha
  obtain ⟨q, r⟩ := x
  cases q with
  | innerMetadata f l =>
      cases r with
      | error err => exact hfetch.elim
      | ok m =>
          obtain ⟨rfl, rfl⟩ := hfetch
          exact ha.symm
  | innerBulk fs l =>
      cases r with
      | error err => exact hfetch.elim
      | ok b =>
          obtain ⟨hm, rfl⟩ := hfetch
          have hb : (.ok b : RfcResult (BulkMetadata M)) = _ := ha
          rw [hinner.bulk fs l, Except.ok.injEq] at hb
          rw [hb] at hm
          -- one of the functions known is the one whose name was asked
          obtain ⟨f, -, hf⟩ := List.mem_filterMap.mp hm
          cases hr : inner.rfcMetadata f l with
          | error err => simp [hr, Except.toOption] at hf
          | ok m =>
              simp only [hr, Except.toOption, Option.some.injEq] at hf
              rw [← hf, hinner.named f l m hr]
              exact hr
  | _ => exact hfetch.elim

-- ======================================================= a bulk lookup

/-- The first loop's readings: each name at the instant of its turn. -/
def readings (ttl : Nat) (c : MetadataCache M) (l : String) :
    (Nat → Instant M) → List String → List (String × Option M)
  | _, [] => []
  | clock, f :: fs =>
      (f, c.getFresh ttl (clock 0).now (f, l))
        :: readings ttl c l (fun n => clock (n + 1)) fs

/-- The names that were fresh. -/
def fresh : List (String × Option M) → List String
  | [] => []
  | (_, none) :: os => fresh os
  | (f, some _) :: os => f :: fresh os

omit [HasFunction M] in
theorem map_fst_readings (c : MetadataCache M) (l : String)
    (clock : Nat → Instant M) (fs : List String) :
    (readings ttl c l clock fs).map Prod.fst = fs := by
  induction fs generalizing clock with
  | nil => rfl
  | cons f fs ih => simp [readings, ih]

omit [HasFunction M] in
theorem mem_readings {c : MetadataCache M} {l f : String} {m : M}
    {clock : Nat → Instant M} {fs : List String}
    (h : (f, some m) ∈ readings ttl c l clock fs) :
    ∃ e, c.entries.lookup (f, l) = some e ∧ e.meta = m := by
  induction fs generalizing clock with
  | nil => cases h
  | cons g fs ih =>
      rcases List.mem_cons.mp h with h | h
      · simp only [Prod.mk.injEq] at h
        rw [h.1]
        exact getFresh_some h.2.symm
      · exact ih h

section Alone

variable {α : Type} (c : MetadataCache M) (clock : Nat → Instant M)
  (q : CacheQuery M) (k : (CacheIface M).Reply q → Prog (CacheIface M) α)

omit [HasFunction M] in
/-- A section run alone, and what comes after it. -/
theorem inSection_exec_result :
    ((inSection q >>= k).exec (.alone (answer ttl)) (c, clock)).result
      = ((k (answer ttl (clock 0) q c).1).exec (.alone (answer ttl))
          ((answer ttl (clock 0) q c).2, fun n => clock (n + 1))).result :=
  rfl

omit [HasFunction M] in
theorem inSection_exec_state :
    ((inSection q >>= k).exec (.alone (answer ttl)) (c, clock)).state
      = ((k (answer ttl (clock 0) q c).1).exec (.alone (answer ttl))
          ((answer ttl (clock 0) q c).2, fun n => clock (n + 1))).state :=
  rfl

end Alone

omit [HasFunction M] in
/-- The loop, run alone: it leaves the cache as it is. -/
theorem splitHits_exec (ttl : Nat) (c : MetadataCache M) (l : String)
    (clock : Nat → Instant M) (fs : List String) (hits : List M)
    (toFetch : List String) :
    let o := (splitHits l fs hits toFetch).exec (.alone (answer ttl)) (c, clock)
    o.result = (hits ++ found (readings ttl c l clock fs),
        toFetch ++ missed (readings ttl c l clock fs))
      ∧ o.state = (c, fun n => clock (n + fs.length)) := by
  induction fs generalizing clock hits toFetch with
  | nil => simp [splitHits, readings, missed]
  | cons f fs ih =>
      have hshift : (fun n => clock (n + (f :: fs).length))
          = fun n => clock (n + fs.length + 1) := rfl
      dsimp only
      rw [splitHits, inSection_exec_result, inSection_exec_state, hshift]
      simp only [answer, readings]
      cases hget : c.getFresh ttl (clock 0).now (f, l) with
      | none =>
          have h := ih (fun n => clock (n + 1)) hits (toFetch ++ [f])
          simpa [missed] using h
      | some m =>
          have h := ih (fun n => clock (n + 1)) (hits ++ [m]) toFetch
          simpa [missed] using h

omit [HasFunction M] in
/-- Over fixed answers: what was fresh is known, what was not is still
to be asked. -/
theorem known_readings {inner : MetadataClient M} {l : String}
    {os : List (String × Option M)}
    (h : ∀ f m, (f, some m) ∈ os → inner.rfcMetadata f l = .ok m) :
    found os = known inner l (fresh os)
      ∧ unknown inner l (missed os) = unknown inner l (os.map Prod.fst)
      ∧ (fresh os ++ missed os).Perm (os.map Prod.fst) := by
  induction os with
  | nil => exact ⟨rfl, rfl, .nil⟩
  | cons o os ih =>
      obtain ⟨f, o⟩ := o
      obtain ⟨hfound, hunknown, hperm⟩ :=
        ih fun f m hm => h f m (List.mem_cons_of_mem _ hm)
      cases o with
      | none =>
          refine ⟨hfound, ?_, ?_⟩
          · simp only [missed, List.map_cons, unknown, List.filter_cons]
            simp only [unknown] at hunknown
            rw [hunknown]
          · simp only [fresh, missed, List.map_cons]
            exact List.perm_middle.trans (hperm.cons f)
      | some m =>
          have hok := h f m (by simp)
          refine ⟨?_, ?_, hperm.cons f⟩
          · simp [found_some, fresh, known, hok, Except.toOption, hfound]
          · simpa [missed, unknown, hok, Except.toOption] using hunknown

-- ======================================================== transparency

/-- Lookups through the cache, in every state it can reach over a fixed
client: a single one is the client's own; a bulk one is the client's own
up to the order, which puts the names that are fresh first. -/
theorem cache_transparent_up_to_order (inner : MetadataClient M)
    (hinner : NameByName inner) (ttl : Nat)
    (as : List (PoolAct CacheCall (Instant M))) (p : CachePool M)
    (hrun : (machine M ttl).Runs as p)
    (hfixed : ∀ i w, PoolAct.resume i w ∈ as → w.inner = inner)
    (clock : Nat → Instant M) (hclock : ∀ n, (clock n).inner = inner) :
    (∀ f l, ((rfcMetadata ttl f l).exec (.alone (answer ttl))
        (p.shared, clock)).result = inner.rfcMetadata f l)
      ∧ ∀ fs l, ∃ b b',
        ((bulkRfcMetadata fs l).exec (.alone (answer ttl))
            (p.shared, clock)).result = .ok b
          ∧ inner.bulkRfcMetadata fs l = .ok b'
          ∧ b.language = b'.language ∧ b.missing = b'.missing
          ∧ b.functions.Perm b'.functions
          ∧ b.functions
            = known inner l (fresh (readings ttl p.shared l clock fs))
              ++ known inner l (missed (readings ttl p.shared l clock fs)) := by
  have hagree : ∀ f l e, p.shared.entries.lookup (f, l) = some e →
      inner.rfcMetadata f l = .ok e.meta := by
    intro f l e he
    refine reachable_agrees hinner ⟨as, hrun⟩ (fun x hx => ?_) he
    obtain ⟨i, hi⟩ := poolMachine_readings hrun x hx
    exact hfixed i x.reading hi
  constructor
  · intro f l
    unfold rfcMetadata
    by_cases h0 : ttl = 0
    · simp only [h0, if_true]
      show (clock 1).inner.rfcMetadata f l = _
      rw [hclock]
    · simp only [h0, if_false]
      rw [inSection_exec_result]
      simp only [answer]
      cases hget : p.shared.getFresh ttl (clock 0).now (f, l) with
      | some m =>
          obtain ⟨e, he, rfl⟩ := getFresh_some hget
          exact (hagree f l e he).symm
      | none =>
          dsimp only
          rw [inSection_exec_result, inSection_exec_result]
          simp only [answer, hclock]
          cases inner.rfcMetadata f l with
          | error e => rfl
          | ok m => rfl
  · intro fs l
    have hread : ∀ f m, (f, some m) ∈ readings ttl p.shared l clock fs →
        inner.rfcMetadata f l = .ok m := by
      intro f m hm
      obtain ⟨e, he, rfl⟩ := mem_readings hm
      exact hagree f l e he
    obtain ⟨hfound, hunknown, hperm⟩ := known_readings hread
    rw [map_fst_readings] at hunknown hperm
    obtain ⟨hres, hstate⟩ := splitHits_exec ttl p.shared l clock fs
      [] []
    rw [List.nil_append, List.nil_append] at hres
    rw [bulkRfcMetadata, Prog.exec_bind_result, hres, hstate]
    generalize readings ttl p.shared l clock fs = os at *
    refine ⟨⟨l, known inner l (fresh os) ++ known inner l (missed os),
      unknown inner l fs⟩, ⟨l, known inner l fs, unknown inner l fs⟩, ?_,
      hinner.bulk fs l, rfl, rfl, ?_, rfl⟩
    · dsimp only
      rw [inSection_exec_result]
      cases hm : missed os with
      | nil =>
          rw [← hunknown, hm, ← hfound]
          simp [known, unknown]
      | cons n ns =>
          simp only [List.isEmpty_cons, Bool.false_eq_true, if_false]
          rw [inSection_exec_result]
          simp only [answer, hclock, hinner.bulk]
          rw [← hm, Prog.exec_bind_result, hunknown, hfound]
          rfl
    · have := hperm.filterMap fun f => (inner.rfcMetadata f l).toOption
      rwa [List.filterMap_append] at this

/-- One function looked up over the mock. -/
def systemInfoCached : List (PoolAct CacheCall (Instant RfcFunctionMeta)) :=
  [.spawn (.rfcMetadata "RFC_SYSTEM_INFO" "EN"),
    .resume 0 ⟨0, mockMetadataClient⟩,
    .resume 0 ⟨0, mockMetadataClient⟩,
    .resume 0 ⟨0, mockMetadataClient⟩,
    .resume 0 ⟨0, mockMetadataClient⟩]

/-- The names in a bulk answer. -/
def bulkNames : RfcResult (BulkMetadata RfcFunctionMeta) → List String
  | .error _ => []
  | .ok b => b.functions.map function

/-- The second name of the list is in the cache: it comes first. -/
theorem bulk_order_differs :
    ¬ ∀ (ttl : Nat) (as : List (PoolAct CacheCall (Instant RfcFunctionMeta)))
        (p : CachePool RfcFunctionMeta),
      (machine RfcFunctionMeta ttl).Runs as p →
      (∀ i w, PoolAct.resume i w ∈ as → w.inner = mockMetadataClient) →
      ∀ (clock : Nat → Instant RfcFunctionMeta) (fs : List String)
        (l : String), (∀ n, (clock n).inner = mockMetadataClient) →
        ((bulkRfcMetadata fs l).exec (.alone (answer ttl))
            (p.shared, clock)).result
          = mockMetadataClient.bulkRfcMetadata fs l := by
  intro h
  have heq := h 60 systemInfoCached _ rfl (by simp [systemInfoCached])
    (fun _ => ⟨1, mockMetadataClient⟩)
    ["BAPI_PO_CREATE1", "RFC_SYSTEM_INFO"] "EN" fun _ => rfl
  exact absurd (congrArg bulkNames heq) (by decide)

theorem cache_transparent_up_to_order_mock :
    ∃ p, (machine RfcFunctionMeta 60).Runs systemInfoCached p
      ∧ ((rfcMetadata 60 "RFC_SYSTEM_INFO" "EN").exec (.alone (answer 60))
          (p.shared, fun _ => ⟨1, mockMetadataClient⟩)).result
        = mockMetadataClient.rfcMetadata "RFC_SYSTEM_INFO" "EN" :=
  ⟨_, rfl, (cache_transparent_up_to_order mockMetadataClient
    mock_nameByName 60 systemInfoCached _ rfl (by simp [systemInfoCached])
    (fun _ => ⟨1, mockMetadataClient⟩) fun _ => rfl).1
      "RFC_SYSTEM_INFO" "EN"⟩

end SapAutomate.Rfc.MetadataCache
