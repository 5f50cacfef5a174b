/-
The metadata cache over whole runs: any number of calls, their sections
in any order, any readings of the clock, an inner client that may
change its answers between two of them.

# What the cache keeps to

`freshness_and_accounting` holds of every such run, and so of those
where one call follows another: what a lookup yields was handed out by
the inner client in an exchange of its own, or comes from an entry that
an earlier lookup of the pair stored no longer ago than the time to
live; entries come from successful answers only; the counters add up.

# Where it does not

`store` runs in a section of its own, after the inner client has
answered. An invalidation between the two leaves nothing behind in the
cache, but it cannot recall the answer: the lookup stores it all the
same (`stale_store_outlives_invalidation`). This is the only way, as
`invalidation_final` shows: where no step puts back what was fetched
before an invalidation that has run since (`StaleStore`), a lookup that
starts after an invalidation yields only what the inner client handed
out after it.
-/
import SapAutomate.Proofs.CacheTrace

namespace SapAutomate.Rfc.MetadataCache

open Interact

variable {M : Type} [HasFunction M] {ttl : Nat}

/-- The calls, the cache and the exchanges so far. -/
abbrev CachePool (M : Type) :=
  Pool (CacheIface M) CacheCall (Instant M) (MetadataCache M)
    (CacheReturn M)

/-- A call in such a pool. -/
abbrev CacheTask (M : Type) := Task (CacheIface M) CacheCall (CacheReturn M)

omit [HasFunction M] in
theorem reply_nonempty (q : CacheQuery M) :
    Nonempty ((CacheIface M).Reply q) := by
  cases q with
  | getFresh key => exact ⟨none⟩
  | store key m => exact ⟨()⟩
  | count a b => exact ⟨()⟩
  | invalidateAll => exact ⟨()⟩
  | readStats => exact ⟨⟨0, 0, 0, 0⟩⟩
  | readEntries => exact ⟨0⟩
  | innerMetadata f l => exact ⟨.error (.internal "")⟩
  | innerBulk fs l => exact ⟨.error (.internal "")⟩

/-- Entries and answers from the cache, in every reachable state. -/
theorem reachable_kept {p : CachePool M}
    (h : (machine M ttl).Reachable p) :
    Kept ttl p.trace p.shared ∧ Served ttl p.trace := by
  apply h.invariant
  · exact ⟨kept_new ttl, fun k x key m hx => by cases hx⟩
  intro a s s' hs hstep
  rcases poolMachine_step hstep with hspawn | hresume
  · obtain ⟨c, -, rfl⟩ := hspawn
    exact hs
  · obtain ⟨i, w, t, q, k, -, -, -, rfl⟩ := hresume
    exact ⟨hs.1.answer i w q, hs.2.answer hs.1 i w q⟩

-- ================================================ freshness, accounting

/-- The clock never runs back. -/
def ClockRuns (tr : List (CacheMoment M)) : Prop :=
  tr.Pairwise fun x y => x.reading.now ≤ y.reading.now

instance (tr : List (CacheMoment M)) : Decidable (ClockRuns tr) :=
  inferInstanceAs (Decidable (List.Pairwise _ tr))

omit [HasFunction M] in
theorem ClockRuns.now_le {tr : List (CacheMoment M)} (h : ClockRuns tr)
    {n k : Nat} {x y : CacheMoment M} (hnk : n < k) (hx : tr[n]? = some x)
    (hy : tr[k]? = some y) : x.reading.now ≤ y.reading.now := by
  obtain ⟨hn, rfl⟩ := List.getElem?_eq_some_iff.mp hx
  obtain ⟨hk, rfl⟩ := List.getElem?_eq_some_iff.mp hy
  exact List.pairwise_iff_getElem.mp h n k hn hk hnk

/-- The inner client's metadata carries a requested name. -/
def Named (tr : List (CacheMoment M)) : Prop :=
  ∀ x ∈ tr, named x.exchange

/-- `m` was handed to call `i` by the inner client. -/
def FromInner (p : CachePool M) (i : Nat) (m : M) : Prop :=
  ∃ x ∈ p.trace, x.task = i ∧ m ∈ produced x.exchange

/-- Call `i` was given `m` from the cache for a pair it looks up, and an
earlier lookup of the pair had stored it no longer than the time to live
before. -/
def FromCache (ttl : Nat) (p : CachePool M) (i : Nat) (m : M) : Prop :=
  ∃ k x n y key, p.trace[k]? = some x ∧ x.task = i
    ∧ x.exchange = ⟨.getFresh key, some m⟩
    ∧ StoredAt p.trace key m n k y
    ∧ (∃ t : CacheTask M, p.tasks[y.task]? = some t ∧ t.call.looksUp key)
    ∧ y.reading.now ≤ x.reading.now ∧ x.reading.now ≤ y.reading.now + ttl

/-- What a stored entry comes from: a successful answer of the inner
client to the call that stored it, before it did. -/
theorem stored_fetched {p : CachePool M}
    (h : (machine M ttl).Reachable p) {n : Nat} {y : CacheMoment M}
    (hy : p.trace[n]? = some y) {key : CacheKey} {m : M}
    (hstore : y.exchange = ⟨.store key m, ()⟩) :
    ∃ n' z t, n' < n ∧ p.trace[n']? = some z ∧ z.task = y.task
      ∧ isFetchOf key m z.exchange ∧ p.tasks[y.task]? = some t
      ∧ (named z.exchange → t.call.looksUp key) := by
  have htracked := poolMachine_tracked h
  obtain ⟨t, ht⟩ := htracked.task hy
  obtain ⟨pre, post, hown, hpre⟩ := Pool.own_split hy
  obtain ⟨tr, a, hdoes⟩ :=
    htracked.branch reply_nonempty ht (body_does ttl t.call)
  rw [hown, hstore, List.append_assoc, List.cons_append] at hdoes
  obtain ⟨x, hx, hfetch, hlooks⟩ := hdoes.store
  obtain ⟨n', z, hn', hz, htask, rfl⟩ := hpre x hx
  exact ⟨n', z, t, hn', hz, htask, hfetch, ht, hlooks⟩

theorem freshness_and_accounting (ttl : Nat) (p : CachePool M)
    (h : (machine M ttl).Reachable p) (hclock : ClockRuns p.trace)
    (hnamed : Named p.trace) :
    -- what a lookup yields, and where it has it from
    (∀ (i : Nat) (t : CacheTask M) (a : CacheReturn M),
        p.tasks[i]? = some t → t.prog = .done a →
        ∀ m ∈ a.metas, FromInner p i m ∨ FromCache ttl p i m)
      -- without a time to live nothing is kept and nothing is served
      ∧ (ttl = 0 → p.shared.entries.keys = []
          ∧ ∀ x ∈ p.trace, ∀ key m,
            x.exchange ≠ ⟨.getFresh key, some m⟩)
      -- only what the inner client has handed out is kept
      ∧ (∀ key e, p.shared.entries.lookup key = some e →
          ∃ x ∈ p.trace, isFetchOf key e.meta x.exchange)
      -- every name looked up is one hit or one miss
      ∧ ((∀ t ∈ p.tasks, ∃ a, t.prog = .done a) →
          p.shared.stats.hits + p.shared.stats.misses
            = total (fun t => t.call.names.length) p.tasks) := by
  have htracked := poolMachine_tracked h
  obtain ⟨hkept, hserved⟩ := reachable_kept h
  refine ⟨?_, ?_, ?_, ?_⟩
  · intro i t a ht hdone m hm
    have hdoes := htracked.result ht hdone (body_does ttl t.call)
    obtain ⟨e, he, hme⟩ := hdoes.brought m hm
    obtain ⟨k, x, hx, hxi, rfl, -⟩ := htracked.own_position ht he
    by_cases hinner : m ∈ produced x.exchange
    · exact .inl ⟨x, List.mem_of_getElem? hx, hxi, hinner⟩
    · -- taken, but not from the inner client: a hit
      obtain ⟨key, hhit⟩ : ∃ key, x.exchange = ⟨.getFresh key, some m⟩ := by
        generalize x.exchange = e at hme hinner
        obtain ⟨q, r⟩ := e
        cases q with
        | getFresh key =>
            cases r with
            | none => simp [taken, produced] at hme
            | some m' =>
                have : m = m' := by simpa [taken] using hme
                exact ⟨key, by rw [this]⟩
        | _ => exact absurd hme hinner
      obtain ⟨-, n, y, hy, hage⟩ := hserved k x key m hx hhit
      obtain ⟨n', z, t', -, hz, -, -, ht', hlooks⟩ :=
        stored_fetched h hy.at_n hy.exchange
      have hnow := hclock.now_le hy.before hy.at_n hx
      refine .inr ⟨k, x, n, y, key, hx, hxi, hhit, hy, ?_, hnow, ?_⟩
      · exact ⟨t', ht', hlooks (hnamed z (List.mem_of_getElem? hz))⟩
      · omega
  · intro h0
    constructor
    · apply List.eq_nil_iff_forall_not_mem.mpr
      intro key hkey
      have hsome := AList.lookup_isSome.mpr (AList.mem_keys.mpr hkey)
      rw [hkept.off h0 key] at hsome
      cases hsome
    · intro x hx key m hhit
      obtain ⟨k, hk⟩ := List.mem_iff_getElem?.mp hx
      exact (hserved k x key m hk hhit).1 h0
  · intro key e he
    obtain ⟨n, y, hy, -⟩ := hkept.stored key e he
    obtain ⟨n', z, t, -, hz, -, hfetch, -, -⟩ :=
      stored_fetched h hy.at_n hy.exchange
    exact ⟨z, List.mem_of_getElem? hz, hfetch⟩
  · intro hall
    rw [hkept.counted, ← Pool.total_own counts p htracked.known,
      ← total_zipIdx (fun t : CacheTask M => t.call.names.length) p.tasks 0]
    refine total_congr fun ti hti => ?_
    have ht := List.mk_mem_zipIdx_iff_getElem?.mp hti
    obtain ⟨a, ha⟩ := hall ti.1 (List.mem_of_getElem? ht)
    exact (htracked.result ht ha (body_does ttl ti.1.call)).counted

-- ========================================================= invalidation

/-- The inner client handed out `m` after position `c`. -/
def ProducedAfter (tr : List (CacheMoment M)) (c : Nat) (m : M) : Prop :=
  ∃ (n : Nat) (y : CacheMoment M), c < n ∧ tr[n]? = some y
    ∧ m ∈ produced y.exchange

/-- The exchange at position `c` is an invalidation. -/
def InvalidatedAt (tr : List (CacheMoment M)) (c : Nat) : Prop :=
  ∃ x : CacheMoment M, tr[c]? = some x ∧ isInvalidate x.exchange = true

/-- A lookup that starts after an invalidation yields only what the
inner client has handed out after it. -/
def InvalidationFinal (p : CachePool M) : Prop :=
  ∀ (i : Nat) (t : CacheTask M) (a : CacheReturn M),
    p.tasks[i]? = some t → t.prog = .done a → ∀ m ∈ a.metas,
      ∀ c, InvalidatedAt p.trace c → c < t.start →
        ProducedAfter p.trace c m

/-- The step stores what its call fetched before an invalidation that
has run since. -/
def StaleStore (ttl : Nat) (a : PoolAct CacheCall (Instant M))
    (p : CachePool M) : Prop :=
  ttl ≠ 0 ∧ ∃ (i : Nat) (w : Instant M) (t : CacheTask M) (key : CacheKey)
    (m : M) (k : Unit → Prog (CacheIface M) (CacheReturn M))
    (n c : Nat) (x : CacheMoment M),
    a = .resume i w ∧ p.tasks[i]? = some t ∧ t.prog = .ask (.store key m) k
      ∧ p.trace[n]? = some x ∧ x.task = i ∧ isInner x.exchange = true
      ∧ InvalidatedAt p.trace c ∧ n < c

omit [HasFunction M] in
theorem ProducedAfter.append {tr : List (CacheMoment M)} {c : Nat} {m : M}
    (h : ProducedAfter tr c m) (y : CacheMoment M) :
    ProducedAfter (tr ++ [y]) c m := by
  obtain ⟨n, x, hcn, hx, hm⟩ := h
  exact ⟨n, x, hcn, getElem?_snoc.mpr (.inl hx), hm⟩

omit [HasFunction M] in
theorem invalidatedAt_snoc {tr : List (CacheMoment M)} {c : Nat}
    {y : CacheMoment M} :
    InvalidatedAt (tr ++ [y]) c ↔ InvalidatedAt tr c
      ∨ c = tr.length ∧ isInvalidate y.exchange = true := by
  unfold InvalidatedAt
  constructor
  · intro h
    obtain ⟨x, hx, hinv⟩ := h
    rcases getElem?_snoc.mp hx with hx | hx
    · exact .inl ⟨x, hx, hinv⟩
    · obtain ⟨rfl, rfl⟩ := hx
      exact .inr ⟨rfl, hinv⟩
  · intro h
    rcases h with h | h
    · obtain ⟨x, hx, hinv⟩ := h
      exact ⟨x, getElem?_snoc.mpr (.inl hx), hinv⟩
    · exact ⟨y, getElem?_snoc.mpr (.inr ⟨h.1, rfl⟩), h.2⟩

/-- What is in the cache, and what it has served, was handed out after
every invalidation before. -/
structure Recalled (p : CachePool M) : Prop where
  entries : ∀ key e, p.shared.entries.lookup key = some e →
    ∀ c, InvalidatedAt p.trace c → ProducedAfter p.trace c e.meta
  served : ∀ (k : Nat) (x : CacheMoment M) (key : CacheKey) (m : M),
    p.trace[k]? = some x → x.exchange = ⟨.getFresh key, some m⟩ →
    ∀ c < k, InvalidatedAt p.trace c → ProducedAfter p.trace c m

omit [HasFunction M] in
/-- An exchange that leaves the entries alone, and is no invalidation;
where it is a hit, the cache had the entry. -/
theorem Recalled.extend {p : CachePool M} (h : Recalled p) {i : Nat}
    {w : Instant M} {e : CacheExchange M} {c' : MetadataCache M}
    {ts : List (CacheTask M)} (hinv : isInvalidate e = false)
    (hentries : c'.entries = p.shared.entries)
    (hhit : ∀ key m, e = ⟨.getFresh key, some m⟩ →
      ∃ en, p.shared.entries.lookup key = some en ∧ en.meta = m) :
    Recalled ⟨c', ts, p.trace ++ [⟨i, w, e⟩]⟩ where
  entries := by
    intro key en hen c hc
    rw [hentries] at hen
    rcases invalidatedAt_snoc.mp hc with hc | hc
    · exact (h.entries key en hen c hc).append _
    · rw [hinv] at hc
      cases hc.2
  served := by
    intro k x key m hx hserved c hck hc
    rcases invalidatedAt_snoc.mp hc with hc | hc
    · rcases getElem?_snoc.mp hx with hx | hx
      · exact (h.served k x key m hx hserved c hck hc).append _
      · obtain ⟨rfl, rfl⟩ := hx
        obtain ⟨en, hen, rfl⟩ := hhit key m hserved
        exact (h.entries key en hen c hc).append _
    · rw [hinv] at hc
      cases hc.2

omit [HasFunction M] in
theorem getFresh_some {now : Nat} {key : CacheKey} {c : MetadataCache M}
    {m : M} (h : c.getFresh ttl now key = some m) :
    ∃ e, c.entries.lookup key = some e ∧ e.meta = m := by
  unfold getFresh at h
  cases he : c.entries.lookup key with
  | none => simp [he] at h
  | some e =>
      simp only [he] at h
      by_cases hage : ttl = 0 ∨ now - e.cachedAt ≤ ttl
      · rw [if_pos hage, Option.some.injEq] at h
        exact ⟨e, rfl, h⟩
      · rw [if_neg hage] at h
        cases h

omit [HasFunction M] in
/-- An invalidation is no answer of the inner client. -/
theorem isInner_of_isInvalidate {x : CacheExchange M}
    (h : isInvalidate x = true) : isInner x = false := by
  obtain ⟨q, r⟩ := x
  cases q <;> simp_all [isInvalidate, isInner]

/-- What a call is about to store, where that is not stale. -/
theorem store_producedAfter {p : CachePool M}
    (hr : (machine M ttl).Reachable p) (h0 : ttl ≠ 0) {i : Nat}
    {w : Instant M} {t : CacheTask M} (ht : p.tasks[i]? = some t)
    {key : CacheKey} {m : M}
    {k : Unit → Prog (CacheIface M) (CacheReturn M)}
    (hprog : t.prog = .ask (.store key m) k)
    (hstale : ¬ StaleStore ttl (.resume i w) p) {c : Nat}
    (hc : InvalidatedAt p.trace c) : ProducedAfter p.trace c m := by
  -- the call's own answer of the inner client is what it stores
  have htracked := poolMachine_tracked hr
  have hsat := htracked.follows i t ht _ (body_does ttl t.call)
  rw [hprog] at hsat
  obtain ⟨tr, a, hdoes⟩ := (hsat ()).exists_branch reply_nonempty
  obtain ⟨e, he, hfetch, -⟩ := hdoes.store
  obtain ⟨n, z, hz, hzi, rfl, -⟩ := htracked.own_position ht he
  have hmem := isFetchOf_mem_produced hfetch
  have hinner := isInner_of_mem_produced hmem
  rcases Nat.lt_trichotomy c n with hlt | heq | hgt
  · exact ⟨n, z, hlt, hz, hmem⟩
  · obtain ⟨x, hx, hinv⟩ := hc
    rw [heq, hz, Option.some.injEq] at hx
    rw [← hx] at hinv
    rw [isInner_of_isInvalidate hinv] at hinner
    cases hinner
  · exact absurd ⟨h0, i, w, t, key, m, k, n, c, z, rfl, ht, hprog, hz, hzi,
      hinner, hc, hgt⟩ hstale

/-- A step that puts nothing stale back keeps it. -/
theorem Recalled.step {a : PoolAct CacheCall (Instant M)}
    {p p' : CachePool M} (hr : (machine M ttl).Reachable p)
    (h : Recalled p) (hstale : ¬ StaleStore ttl a p)
    (hstep : (machine M ttl).step a p = some p') : Recalled p' := by
  rcases poolMachine_step hstep with hspawn | hresume
  · obtain ⟨c, -, rfl⟩ := hspawn
    exact ⟨h.entries, h.served⟩
  obtain ⟨i, w, t, q, k, rfl, ht, hprog, rfl⟩ := hresume
  cases q with
  | getFresh key =>
      refine h.extend rfl rfl ?_
      intro key' m heq
      simp only [Exchange.mk.injEq, CacheQuery.getFresh.injEq] at heq
      obtain ⟨rfl, hm⟩ := heq
      exact getFresh_some (eq_of_heq hm)
  | count a b => exact h.extend rfl rfl (by simp)
  | readStats => exact h.extend rfl rfl (by simp)
  | readEntries => exact h.extend rfl rfl (by simp)
  | innerMetadata f l => exact h.extend rfl rfl (by simp)
  | innerBulk fs l => exact h.extend rfl rfl (by simp)
  | invalidateAll =>
      constructor
      case entries =>
        intro key e he
        simp [answer, invalidateAll] at he
      case served =>
        intro k x key m hx hserved c hck hc
        rcases getElem?_snoc.mp hx with hx | hx
        · have hk : k < p.trace.length :=
            (List.getElem?_eq_some_iff.mp hx).1
          rcases invalidatedAt_snoc.mp hc with hc | hc
          · exact (h.served k x key m hx hserved c hck hc).append _
          · omega
        · rw [hx.2] at hserved
          simp at hserved
  | store key m =>
      by_cases h0 : ttl = 0
      · exact h.extend rfl (by simp [answer, store, h0]) (by simp)
      constructor
      case served =>
        intro k x key' m' hx hserved c hck hc
        rcases invalidatedAt_snoc.mp hc with hc | hc
        · rcases getElem?_snoc.mp hx with hx | hx
          · exact (h.served k x key' m' hx hserved c hck hc).append _
          · rw [hx.2] at hserved
            simp at hserved
        · simp [isInvalidate] at hc
      case entries =>
        intro key' e he c hc
        have hold : InvalidatedAt p.trace c := by
          rcases invalidatedAt_snoc.mp hc with hold | hnew
          · exact hold
          · simp [isInvalidate] at hnew
        simp only [answer, store, h0, if_false] at he
        by_cases hkey : key' = key
        · rw [hkey, AList.lookup_insert, Option.some.injEq] at he
          rw [← he]
          exact (store_producedAfter hr h0 ht hprog hstale hold).append _
        · rw [AList.lookup_insert_ne hkey] at he
          exact (h.entries key' e he c hold).append _

/-- Where nothing stale is put back, invalidation is final. -/
theorem invalidation_final (ttl : Nat)
    (as : List (PoolAct CacheCall (Instant M))) (p : CachePool M)
    (hrun : (machine M ttl).Runs as p)
    (hstale : (machine M ttl).Meets (fun a s => ¬ StaleStore ttl a s) as
      (machine M ttl).init) : InvalidationFinal p := by
  have hinv : (machine M ttl).Reachable p ∧ Recalled p := by
    apply Machine.run_invariant (M := machine M ttl)
      (I := fun s => (machine M ttl).Reachable s ∧ Recalled s) ?_ ?_
      hstale hrun
    · intro a s s' ha hs hstep
      exact ⟨hs.1.step hstep, hs.2.step hs.1 ha hstep⟩
    · refine ⟨⟨[], rfl⟩, ⟨?_, ?_⟩⟩
      · intro key e he
        simp [machine, poolMachine, MetadataCache.new] at he
      · intro k x key m hx
        cases hx
  obtain ⟨hr, hrec⟩ := hinv
  have htracked := poolMachine_tracked hr
  intro i t a ht hdone m hm c hc hstart
  have hdoes := htracked.result ht hdone (body_does ttl t.call)
  obtain ⟨e, he, hme⟩ := hdoes.brought m hm
  obtain ⟨n, x, hx, -, rfl, hle⟩ := htracked.own_position ht he
  generalize hex : x.exchange = e at hme
  obtain ⟨q, r⟩ := e
  cases q with
  | getFresh key =>
      cases r with
      | none => simp [taken, produced] at hme
      | some m' =>
          have : m = m' := by simpa [taken] using hme
          subst this
          exact hrec.served n x key m hx hex c (by omega) hc
  | _ => exact ⟨n, x, by omega, hx, by rw [hex]; exact hme⟩

-- ======================================================== a stale store

/-- A function as it is before a transport import. -/
def shipped : RfcFunctionMeta := ⟨"Z_POST", [], true, false⟩

/-- The same function after it. -/
def imported : RfcFunctionMeta := ⟨"Z_POST", [], false, true⟩

/-- A catalogue of one function. -/
def onlyFunction (m : RfcFunctionMeta) : MetadataClient RfcFunctionMeta where
  rfcMetadata f _ :=
    if f = m.function then .ok m else .error (.notFound f)
  bulkRfcMetadata fs l :=
    .ok ⟨l, (fs.filter (· == m.function)).map fun _ => m,
      fs.filter (· != m.function)⟩

/-- The import runs, and the cache is invalidated, while a lookup has its
answer and has not stored it yet. -/
def importDuringLookup :
    List (PoolAct CacheCall (Instant RfcFunctionMeta)) :=
  [.spawn (.rfcMetadata "Z_POST" "EN"),
    .resume 0 ⟨0, onlyFunction shipped⟩,
    .resume 0 ⟨0, onlyFunction shipped⟩,
    .resume 0 ⟨0, onlyFunction shipped⟩,
    .spawn .invalidateAll,
    .resume 1 ⟨1, onlyFunction imported⟩,
    .resume 0 ⟨1, onlyFunction imported⟩,
    .spawn (.rfcMetadata "Z_POST" "EN"),
    .resume 2 ⟨2, onlyFunction imported⟩,
    .resume 2 ⟨2, onlyFunction imported⟩]

/-- The old metadata is stored after the invalidation and served to a
lookup that starts after it. -/
theorem stale_store_outlives_invalidation :
    ¬ ∀ (ttl : Nat) (as : List (PoolAct CacheCall (Instant RfcFunctionMeta)))
        (p : CachePool RfcFunctionMeta),
      (machine RfcFunctionMeta ttl).Runs as p → InvalidationFinal p := by
  intro h
  have hfinal := h 60 importDuringLookup _ rfl
  obtain ⟨n, y, hn, hy, hm⟩ := hfinal 2 _ _ rfl rfl shipped (by decide)
    3 ⟨_, rfl, rfl⟩ (by decide)
  -- the exchanges after the invalidation are a store, a hit, a count
  rcases n with _ | _ | _ | _ | _ | _ | _ | n
  case succ.succ.succ.succ.succ.succ.succ => cases hy
  all_goals
    cases hy
    first
      | (cases hm; done)
      | omega

omit [HasFunction M] in
/-- Where only the first exchange can be an invalidation nothing stale is
at hand. -/
theorem not_staleStore_of_tail {a : PoolAct CacheCall (Instant M)}
    {p : CachePool M}
    (h : p.trace.tail.all (fun x => !isInvalidate x.exchange) = true) :
    ¬ StaleStore ttl a p := by
  intro hstale
  obtain ⟨-, i, w, t, key, m, k, n, c, x, -, -, -, -, -, -, hc, hnc⟩ := hstale
  obtain ⟨y, hy, hinv⟩ := hc
  cases c with
  | zero => omega
  | succ c =>
      have hmem : y ∈ p.trace.tail := by
        rw [← List.getElem?_tail] at hy
        exact List.mem_of_getElem? hy
      have := List.all_eq_true.mp h y hmem
      simp [hinv] at this

/-- A lookup after an import, and one more that is served from the
cache. -/
def importBeforeLookup :
    List (PoolAct CacheCall (Instant RfcFunctionMeta)) :=
  [.spawn .invalidateAll,
    .resume 0 ⟨0, onlyFunction imported⟩,
    .spawn (.rfcMetadata "Z_POST" "EN"),
    .resume 1 ⟨1, onlyFunction imported⟩,
    .resume 1 ⟨1, onlyFunction imported⟩,
    .resume 1 ⟨1, onlyFunction imported⟩,
    .resume 1 ⟨1, onlyFunction imported⟩,
    .spawn (.rfcMetadata "Z_POST" "EN"),
    .resume 2 ⟨61, onlyFunction imported⟩,
    .resume 2 ⟨61, onlyFunction imported⟩]

theorem invalidation_final_import :
    ∃ p, (machine RfcFunctionMeta 60).Runs importBeforeLookup p
      ∧ InvalidationFinal p := by
  refine ⟨_, rfl, invalidation_final 60 importBeforeLookup _ rfl ?_⟩
  iterate 10
    apply Machine.meets_cons rfl (not_staleStore_of_tail rfl)
  trivial

/-- The exchanges of that run. -/
def importBeforeLookupTrace : List (CacheMoment RfcFunctionMeta) :=
  let first : Instant RfcFunctionMeta := ⟨1, onlyFunction imported⟩
  let last : Instant RfcFunctionMeta := ⟨61, onlyFunction imported⟩
  [⟨0, ⟨0, onlyFunction imported⟩, ⟨.invalidateAll, ()⟩⟩,
    ⟨1, first, ⟨.getFresh ("Z_POST", "EN"), none⟩⟩,
    ⟨1, first, ⟨.count 0 1, ()⟩⟩,
    ⟨1, first, ⟨.innerMetadata "Z_POST" "EN", .ok imported⟩⟩,
    ⟨1, first, ⟨.store ("Z_POST", "EN") imported, ()⟩⟩,
    ⟨2, last, ⟨.getFresh ("Z_POST", "EN"), some imported⟩⟩,
    ⟨2, last, ⟨.count 1 0, ()⟩⟩]

theorem freshness_and_accounting_import :
    ∃ p, (machine RfcFunctionMeta 60).Runs importBeforeLookup p
      ∧ (FromInner p 2 imported ∨ FromCache 60 p 2 imported)
      ∧ p.shared.stats.hits + p.shared.stats.misses = 2 := by
  have hnamed : Named importBeforeLookupTrace := by
    simp [Named, importBeforeLookupTrace, named, function, imported]
  have h := freshness_and_accounting 60 _ ⟨importBeforeLookup, rfl⟩
    (by show ClockRuns importBeforeLookupTrace; decide) hnamed
  refine ⟨_, rfl, h.1 2 _ _ rfl rfl imported (by decide), h.2.2.2 ?_⟩
  intro t ht
  rcases List.mem_cons.mp ht with rfl | ht
  · exact ⟨_, rfl⟩
  rcases List.mem_cons.mp ht with rfl | ht
  · exact ⟨_, rfl⟩
  rcases List.mem_cons.mp ht with rfl | ht
  · exact ⟨_, rfl⟩
  cases ht

end SapAutomate.Rfc.MetadataCache
