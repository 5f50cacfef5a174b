/-
What the calls of the metadata cache do, as traces.

# One inversion lemma

`Does` lists the ways a call can go: the exchanges it makes, in order,
with what it returns. `body_does` says that these are all the ways, and
every fact about a call by itself is read off its constructors — which
exchange brought the metadata it yields (`Does.brought`), that what it
stores it has fetched before (`Does.fetched_before`), and how many
names it counts (`Does.counted`).

# One invariant of the shared state

`Kept` ties each entry to the exchange that stored it: that exchange is
in the trace, it read the clock the entry shows, and no invalidation
came after it. `Served` is what follows for the answers given from the
cache.
-/
import SapAutomate.Rfc.MetadataCache

namespace SapAutomate.Rfc.MetadataCache

open Interact

variable {M : Type}

-- ========================================================== exchanges

/-- An exchange of the cache's. -/
abbrev CacheExchange (M : Type) := Exchange (CacheIface M)

/-- The metadata that the inner client hands out in an exchange. -/
def produced : CacheExchange M → List M
  | ⟨.innerMetadata _ _, .ok m⟩ => [m]
  | ⟨.innerBulk _ _, .ok b⟩ => b.functions
  | _ => []

/-- An answer of the inner client. -/
def isInner : CacheExchange M → Bool
  | ⟨.innerMetadata _ _, _⟩ => true
  | ⟨.innerBulk _ _, _⟩ => true
  | _ => false

/-- An invalidation. -/
def isInvalidate : CacheExchange M → Bool
  | ⟨.invalidateAll, _⟩ => true
  | _ => false

/-- The hits and misses that an exchange adds to the statistics. -/
def counts : CacheExchange M → Nat
  | ⟨.count h m, _⟩ => h + m
  | _ => 0

/-- Metadata taken in an exchange, from the cache or the inner client. -/
def taken : CacheExchange M → List M
  | ⟨.getFresh _, some m⟩ => [m]
  | x => produced x

theorem isInner_of_mem_produced {x : CacheExchange M} {m : M}
    (h : m ∈ produced x) : isInner x = true := by
  obtain ⟨q, r⟩ := x
  cases q <;> simp_all [produced, isInner]

/-- Where a list in two parts is cut at an element its first part does
not have. -/
theorem append_eq_cut {β : Type} {xs ys pre post : List β} {s : β}
    (h : xs ++ ys = pre ++ s :: post) (hs : s ∉ xs) :
    ∃ mid, pre = xs ++ mid ∧ ys = mid ++ s :: post := by
  rcases List.append_eq_append_iff.mp h with h | h
  · obtain ⟨mid, hpre, hys⟩ := h
    exact ⟨mid, hpre, hys⟩
  · obtain ⟨mid, hxs, hpost⟩ := h
    cases mid with
    | nil => exact ⟨[], by simpa using hxs.symm, by simpa using hpost.symm⟩
    | cons y mid =>
        rw [List.cons_append] at hpost
        have : y = s := (List.cons.inj hpost).1.symm
        exact absurd (by simp [hxs, this]) hs

-- ========================================================= bulk lookups

/-- The exchanges of the first loop: one reading for each name. -/
def lookups (language : String) :
    List (String × Option M) → List (CacheExchange M)
  | [] => []
  | (f, o) :: fs => ⟨.getFresh (f, language), o⟩ :: lookups language fs

/-- What was fresh. -/
def found (fs : List (String × Option M)) : List M :=
  fs.filterMap (·.2)

/-- The names that were not. -/
def missed : List (String × Option M) → List String
  | [] => []
  | (f, none) :: fs => f :: missed fs
  | (_, some _) :: fs => missed fs

@[simp] theorem found_nil : found ([] : List (String × Option M)) = [] :=
  rfl

@[simp] theorem found_some (f : String) (m : M)
    (fs : List (String × Option M)) :
    found ((f, some m) :: fs) = m :: found fs := rfl

@[simp] theorem found_none (f : String) (fs : List (String × Option M)) :
    found ((f, none) :: fs) = found fs := rfl

/-- Every name is one or the other. -/
theorem length_found_missed (fs : List (String × Option M)) :
    (found fs).length + (missed fs).length = fs.length := by
  induction fs with
  | nil => rfl
  | cons x fs ih =>
      obtain ⟨f, o⟩ := x
      cases o with
      | none =>
          simp only [found_none, missed, List.length_cons]
          omega
      | some m =>
          simp only [found_some, missed, List.length_cons]
          omega

theorem missed_subset {os : List (String × Option M)} {f : String}
    (h : f ∈ missed os) : f ∈ os.map Prod.fst := by
  induction os with
  | nil => simp [missed] at h
  | cons o os ih =>
      obtain ⟨g, o⟩ := o
      cases o with
      | none =>
          rcases List.mem_cons.mp h with hf | hf
          · simp [hf]
          · exact List.mem_cons_of_mem _ (ih hf)
      | some m => exact List.mem_cons_of_mem _ (ih h)

theorem mem_taken_lookups {l : String} {os : List (String × Option M)}
    {m : M} (h : m ∈ found os) : ∃ x ∈ lookups l os, m ∈ taken x := by
  induction os with
  | nil => simp at h
  | cons o os ih =>
      obtain ⟨f, o⟩ := o
      cases o with
      | none =>
          obtain ⟨x, hx, hm⟩ := ih h
          exact ⟨x, by simp [lookups, hx], hm⟩
      | some m' =>
          rcases List.mem_cons.mp h with hm | hm
          · exact ⟨⟨.getFresh (f, l), some m'⟩, by simp [lookups],
              by simp [taken, hm]⟩
          · obtain ⟨x, hx, hm⟩ := ih hm
            exact ⟨x, by simp [lookups, hx], hm⟩

@[simp] theorem total_counts_lookups (l : String)
    (os : List (String × Option M)) : total counts (lookups l os) = 0 := by
  induction os with
  | nil => rfl
  | cons o os ih => simpa [lookups, counts] using ih

theorem store_notMem_lookups (l : String) (os : List (String × Option M))
    (key : CacheKey) (m : M) (r : Unit) :
    (⟨.store key m, r⟩ : CacheExchange M) ∉ lookups l os := by
  induction os with
  | nil => simp [lookups]
  | cons o os ih => simp [lookups, ih]

/-- The exchanges of the second loop. -/
def stores [HasFunction M] (language : String) (ms : List M) :
    List (CacheExchange M) :=
  ms.map fun m => ⟨.store (function m, language) m, ()⟩

theorem splitHits_sat (language : String) (fs : List String)
    (hits : List M) (toFetch : List String) :
    (splitHits language fs hits toFetch).Sat fun tr r =>
      ∃ os : List (String × Option M), os.map Prod.fst = fs
        ∧ tr = lookups language os
        ∧ r = (hits ++ found os, toFetch ++ missed os) := by
  induction fs generalizing hits toFetch with
  | nil => exact ⟨[], rfl, rfl, by simp [missed]⟩
  | cons f fs ih =>
      intro o
      cases o with
      | none =>
          refine (ih hits (toFetch ++ [f])).mono fun tr r h => ?_
          obtain ⟨os, hos, htr, hr⟩ := h
          exact ⟨(f, none) :: os, by simp [hos], by simp [lookups, htr],
            by simp [hr, missed]⟩
      | some m =>
          refine (ih (hits ++ [m]) toFetch).mono fun tr r h => ?_
          obtain ⟨os, hos, htr, hr⟩ := h
          exact ⟨(f, some m) :: os, by simp [hos], by simp [lookups, htr],
            by simp [hr, missed]⟩

section Calls

variable [HasFunction M]

theorem storeAll_sat (language : String) (ms : List M) :
    (storeAll language ms).Sat fun tr _ => tr = stores language ms := by
  induction ms with
  | nil => rfl
  | cons m ms ih =>
      intro r
      refine ih.mono fun tr _ h => ?_
      rw [h]
      rfl

-- ======================================================== all the ways

/-- All that a call can do: the exchanges it makes and what it returns. -/
inductive Does (ttl : Nat) :
    CacheCall → List (CacheExchange M) → CacheReturn M → Prop where
  /-- Without a time to live the inner client is asked. -/
  | direct (h : ttl = 0) (f l : String) (r : RfcResult M) :
      Does ttl (.rfcMetadata f l)
        [⟨.count 0 1, ()⟩, ⟨.innerMetadata f l, r⟩] (.rfcMetadata r)
  | hit (h : ttl ≠ 0) (f l : String) (m : M) :
      Does ttl (.rfcMetadata f l)
        [⟨.getFresh (f, l), some m⟩, ⟨.count 1 0, ()⟩]
        (.rfcMetadata (.ok m))
  | failed (h : ttl ≠ 0) (f l : String) (e : RfcError) :
      Does ttl (.rfcMetadata f l)
        [⟨.getFresh (f, l), none⟩, ⟨.count 0 1, ()⟩,
          ⟨.innerMetadata f l, .error e⟩] (.rfcMetadata (.error e))
  | fetched (h : ttl ≠ 0) (f l : String) (m : M) :
      Does ttl (.rfcMetadata f l)
        [⟨.getFresh (f, l), none⟩, ⟨.count 0 1, ()⟩,
          ⟨.innerMetadata f l, .ok m⟩, ⟨.store (f, l) m, ()⟩]
        (.rfcMetadata (.ok m))
  /-- Every name of a bulk lookup was fresh. -/
  | bulkHits (l : String) (os : List (String × Option M))
      (h : missed os = []) :
      Does ttl (.bulkRfcMetadata (os.map Prod.fst) l)
        (lookups l os
          ++ [⟨.count (found os).length (missed os).length, ()⟩])
        (.bulkRfcMetadata (.ok ⟨l, found os, []⟩))
  | bulkFailed (l : String) (os : List (String × Option M)) (e : RfcError) :
      Does ttl (.bulkRfcMetadata (os.map Prod.fst) l)
        (lookups l os
          ++ [⟨.count (found os).length (missed os).length, ()⟩,
            ⟨.innerBulk (missed os) l, .error e⟩])
        (.bulkRfcMetadata (.error e))
  | bulkFetched (l : String) (os : List (String × Option M))
      (b : BulkMetadata M) :
      Does ttl (.bulkRfcMetadata (os.map Prod.fst) l)
        (lookups l os
          ++ [⟨.count (found os).length (missed os).length, ()⟩,
            ⟨.innerBulk (missed os) l, .ok b⟩] ++ stores l b.functions)
        (.bulkRfcMetadata (.ok ⟨l, found os ++ b.functions, b.missing⟩))
  | invalidated : Does ttl .invalidateAll [⟨.invalidateAll, ()⟩] .invalidated
  | stats (s : CacheStats) (n : Nat) :
      Does ttl .stats [⟨.readStats, s⟩, ⟨.readEntries, n⟩]
        (.stats { s with entries := n })
  | tool (s : CacheStats) (n : Nat) :
      Does ttl .tool
        [⟨.readStats, s⟩, ⟨.readEntries, n⟩, ⟨.invalidateAll, ()⟩] (.tool n)

theorem rfcMetadata_sat (ttl : Nat) (f l : String) :
    (rfcMetadata (M := M) ttl f l).Sat fun tr r =>
      Does ttl (.rfcMetadata f l) tr (.rfcMetadata r) := by
  by_cases h : ttl = 0
  · simp only [rfcMetadata, h, if_true]
    intro _ r
    exact .direct rfl f l r
  · simp only [rfcMetadata, h, if_false]
    intro o
    cases o with
    | some m =>
        intro _
        exact .hit h f l m
    | none =>
        intro _ r
        cases r with
        | error e => exact .failed h f l e
        | ok m =>
            intro _
            exact .fetched h f l m

theorem bulkRfcMetadata_sat (ttl : Nat) (fs : List String) (l : String) :
    (bulkRfcMetadata (M := M) fs l).Sat fun tr r =>
      Does ttl (.bulkRfcMetadata fs l) tr (.bulkRfcMetadata r) := by
  unfold bulkRfcMetadata
  rw [Prog.sat_bind]
  refine (splitHits_sat l fs [] []).mono fun tr r h => ?_
  obtain ⟨os, rfl, rfl, rfl⟩ := h
  simp only [List.nil_append]
  intro _
  cases hm : missed os with
  | nil =>
      have : Does ttl _ _ _ := .bulkHits l os hm
      rw [hm] at this
      simpa using this
  | cons n ns =>
      simp only [List.isEmpty_cons, Bool.false_eq_true, if_false]
      intro r
      cases r with
      | error e =>
          have : Does ttl _ _ _ := .bulkFailed l os e
          rw [hm] at this
          simpa using this
      | ok b =>
          simp only [Prog.done_bind, Prog.sat_bind]
          refine (storeAll_sat l b.functions).mono fun tr _ h => ?_
          have : Does ttl _ _ _ := .bulkFetched l os b
          rw [hm] at this
          simpa [h] using this

/-- Those are all the ways. -/
theorem body_does (ttl : Nat) (c : CacheCall) :
    (body (M := M) ttl c).Sat (Does ttl c) := by
  cases c with
  | rfcMetadata f l =>
      rw [body, Prog.sat_bind]
      refine (rfcMetadata_sat ttl f l).mono fun tr r h => ?_
      simpa using h
  | bulkRfcMetadata fs l =>
      rw [body, Prog.sat_bind]
      refine (bulkRfcMetadata_sat ttl fs l).mono fun tr r h => ?_
      simpa using h
  | invalidateAll => exact fun _ => .invalidated
  | stats => exact fun s n => .stats s n
  | tool => exact fun s n _ => .tool s n

-- ========================================================= call by call

/-- What a call yields it has taken, from the cache or the inner
client. -/
theorem Does.brought {ttl : Nat} {c : CacheCall}
    {tr : List (CacheExchange M)} {a : CacheReturn M} (h : Does ttl c tr a) :
    ∀ m ∈ a.metas, ∃ x ∈ tr, m ∈ taken x := by
  intro m hm
  cases h with
  | direct h f l r =>
      cases r with
      | error e => simp [CacheReturn.metas] at hm
      | ok m' =>
          exact ⟨⟨.innerMetadata f l, .ok m'⟩, by simp,
            by simpa [CacheReturn.metas, taken, produced] using hm⟩
  | hit h f l m' =>
      exact ⟨⟨.getFresh (f, l), some m'⟩, by simp,
        by simpa [CacheReturn.metas, taken] using hm⟩
  | failed h f l e => simp [CacheReturn.metas] at hm
  | fetched h f l m' =>
      exact ⟨⟨.innerMetadata f l, .ok m'⟩, by simp,
        by simpa [CacheReturn.metas, taken, produced] using hm⟩
  | bulkHits l os h =>
      obtain ⟨x, hx, hmx⟩ := mem_taken_lookups (l := l) hm
      exact ⟨x, by simp [hx], hmx⟩
  | bulkFailed l os e => simp [CacheReturn.metas] at hm
  | bulkFetched l os b =>
      rcases List.mem_append.mp hm with hm | hm
      · obtain ⟨x, hx, hmx⟩ := mem_taken_lookups (l := l) hm
        exact ⟨x, by simp [hx], hmx⟩
      · exact ⟨⟨.innerBulk (missed os) l, .ok b⟩, by simp,
          by simpa [taken, produced] using hm⟩
  | invalidated => simp [CacheReturn.metas] at hm
  | stats s n => simp [CacheReturn.metas] at hm
  | tool s n => simp [CacheReturn.metas] at hm

@[simp] theorem total_counts_stores (l : String) (ms : List M) :
    total counts (stores l ms) = 0 := by
  induction ms with
  | nil => rfl
  | cons m ms ih => simpa [stores, counts] using ih

/-- A call counts each name it looks up once. -/
theorem Does.counted {ttl : Nat} {c : CacheCall}
    {tr : List (CacheExchange M)} {a : CacheReturn M} (h : Does ttl c tr a) :
    total counts tr = c.names.length := by
  cases h with
  | direct | hit | failed | fetched => simp [counts, CacheCall.names]
  | bulkHits l os h =>
      have := length_found_missed os
      simpa [counts, CacheCall.names] using this
  | bulkFailed l os e =>
      have := length_found_missed os
      simpa [counts, CacheCall.names] using this
  | bulkFetched l os b =>
      have := length_found_missed os
      simpa [counts, CacheCall.names] using this
  | invalidated | stats | tool => simp [counts, CacheCall.names]

-- ================================================== what is stored, when

/-- The inner answer that metadata stored under a key comes from. -/
def isFetchOf (key : CacheKey) (m : M) : CacheExchange M → Prop
  | ⟨.innerMetadata f l, .ok m'⟩ => m' = m ∧ key = (f, l)
  | ⟨.innerBulk _ l, .ok b⟩ => m ∈ b.functions ∧ key = (function m, l)
  | _ => False

/-- The metadata an exchange hands out carries a name that was asked. -/
def named : CacheExchange M → Prop
  | ⟨.innerMetadata f _, .ok m⟩ => function m = f
  | ⟨.innerBulk fs _, .ok b⟩ => ∀ m ∈ b.functions, function m ∈ fs
  | _ => True

theorem isFetchOf_mem_produced {key : CacheKey} {m : M} {x : CacheExchange M}
    (h : isFetchOf key m x) : m ∈ produced x := by
  obtain ⟨q, r⟩ := x
  cases q with
  | innerMetadata f l =>
      cases r with
      | error e => exact h.elim
      | ok m' => simp [produced, h.1]
  | innerBulk fs l =>
      cases r with
      | error e => exact h.elim
      | ok b => exact h.1
  | _ => exact h.elim

/-- What a call stores it has fetched before, under that key; with
names as they were asked, the key is one the call looks up. -/
theorem Does.store {ttl : Nat} {c : CacheCall}
    {pre post : List (CacheExchange M)} {key : CacheKey} {m : M} {r : Unit}
    {a : CacheReturn M}
    (h : Does ttl c (pre ++ ⟨.store key m, r⟩ :: post) a) :
    ∃ x ∈ pre, isFetchOf key m x ∧ (named x → c.looksUp key) := by
  generalize htr : pre ++ (⟨.store key m, r⟩ : CacheExchange M) :: post = tr
    at h
  have hin : (⟨.store key m, r⟩ : CacheExchange M) ∈ tr := by simp [← htr]
  cases h with
  | direct h f l r => simp at hin
  | hit h f l m' => simp at hin
  | failed h f l e => simp at hin
  | fetched h f l m' =>
      let asked : List (CacheExchange M) := [⟨.getFresh (f, l), none⟩,
        ⟨.count 0 1, ()⟩, ⟨.innerMetadata f l, .ok m'⟩]
      obtain ⟨mid, hpre, hmid⟩ :=
        append_eq_cut (show asked ++ _ = _ from htr.symm) (by simp [asked])
      have hstore : (⟨.store key m, r⟩ : CacheExchange M)
          ∈ [⟨.store (f, l) m', ()⟩] := by rw [hmid]; simp
      simp only [List.mem_singleton, Exchange.mk.injEq,
        CacheQuery.store.injEq] at hstore
      refine ⟨⟨.innerMetadata f l, .ok m'⟩, by simp [hpre, asked], ?_, ?_⟩
      · exact ⟨hstore.1.2.symm, hstore.1.1⟩
      · exact fun _ => hstore.1.1
  | bulkHits l os h => simp [store_notMem_lookups] at hin
  | bulkFailed l os e => simp [store_notMem_lookups] at hin
  | bulkFetched l os b =>
      obtain ⟨mid, hpre, hmid⟩ := append_eq_cut htr.symm
        (by simp [store_notMem_lookups])
      have hstore : (⟨.store key m, r⟩ : CacheExchange M)
          ∈ stores l b.functions := by rw [hmid]; simp
      obtain ⟨m', hm', heq⟩ := List.mem_map.mp hstore
      simp only [Exchange.mk.injEq, CacheQuery.store.injEq] at heq
      obtain ⟨⟨rfl, rfl⟩, -⟩ := heq
      refine ⟨⟨.innerBulk (missed os) l, .ok b⟩, by simp [hpre], ?_, ?_⟩
      · exact ⟨hm', rfl⟩
      · exact fun hn => ⟨missed_subset (hn m' hm'), rfl⟩
  | invalidated => simp at hin
  | stats s n => simp at hin
  | tool s n => simp at hin

end Calls

-- ==================================================== the shared state

/-- One exchange of a run of the cache. -/
abbrev CacheMoment (M : Type) := Moment (CacheIface M) (Instant M)

/-- The exchange at position `n` stored `m` under `key`, and nothing was
invalidated between it and position `k`. -/
structure StoredAt (tr : List (CacheMoment M)) (key : CacheKey) (m : M)
    (n k : Nat) (x : CacheMoment M) : Prop where
  at_n : tr[n]? = some x
  exchange : x.exchange = ⟨.store key m, ()⟩
  before : n < k
  kept : ∀ n' y, n < n' → n' < k → tr[n']? = some y →
    isInvalidate y.exchange = false

theorem StoredAt.append {tr : List (CacheMoment M)} {key : CacheKey} {m : M}
    {n k : Nat} {x : CacheMoment M} (h : StoredAt tr key m n k x)
    (hk : k ≤ tr.length) (y : CacheMoment M) :
    StoredAt (tr ++ [y]) key m n k x where
  at_n := getElem?_snoc.mpr (.inl h.at_n)
  exchange := h.exchange
  before := h.before
  kept := by
    intro n' z hn hn' hz
    rcases getElem?_snoc.mp hz with hz | hz
    · exact h.kept n' z hn hn' hz
    · omega

/-- One exchange more, where it is no invalidation. -/
theorem StoredAt.extend {tr : List (CacheMoment M)} {key : CacheKey} {m : M}
    {n : Nat} {x : CacheMoment M} (h : StoredAt tr key m n tr.length x)
    {y : CacheMoment M} (hy : isInvalidate y.exchange = false) :
    StoredAt (tr ++ [y]) key m n (tr ++ [y]).length x where
  at_n := getElem?_snoc.mpr (.inl h.at_n)
  exchange := h.exchange
  before := by
    have := h.before
    simp only [List.length_append, List.length_singleton]
    omega
  kept := by
    intro n' z hn _ hz
    rcases getElem?_snoc.mp hz with hz | hz
    · have hlt : n' < tr.length := (List.getElem?_eq_some_iff.mp hz).1
      exact h.kept n' z hn hlt hz
    · rw [hz.2]
      exact hy

/-- What the exchanges so far say of the cache: where its entries come
from, that there are none without a time to live, and how its counters
add up. -/
structure Kept (ttl : Nat) (tr : List (CacheMoment M))
    (c : MetadataCache M) : Prop where
  stored : ∀ key e, c.entries.lookup key = some e →
    ∃ n x, StoredAt tr key e.meta n tr.length x
      ∧ x.reading.now = e.cachedAt
  off : ttl = 0 → ∀ key, c.entries.lookup key = none
  counted : c.stats.hits + c.stats.misses
    = total (fun x => counts x.exchange) tr

theorem kept_new (ttl : Nat) : Kept ttl [] (MetadataCache.new M) where
  stored := by simp [MetadataCache.new]
  off := by simp [MetadataCache.new]
  counted := rfl

/-- An exchange that leaves the entries alone, and is no invalidation. -/
theorem Kept.extend {ttl : Nat} {tr : List (CacheMoment M)}
    {c c' : MetadataCache M} (h : Kept ttl tr c) {y : CacheMoment M}
    (hy : isInvalidate y.exchange = false) (hc : c'.entries = c.entries)
    (hcounts : c'.stats.hits + c'.stats.misses
      = c.stats.hits + c.stats.misses + counts y.exchange) :
    Kept ttl (tr ++ [y]) c' where
  stored := by
    intro key e he
    rw [hc] at he
    obtain ⟨n, x, hx, hnow⟩ := h.stored key e he
    exact ⟨n, x, hx.extend hy, hnow⟩
  off := by
    intro h0 key
    rw [hc]
    exact h.off h0 key
  counted := by
    rw [hcounts, h.counted]
    simp

/-- Every section keeps it. -/
theorem Kept.answer {ttl : Nat} {tr : List (CacheMoment M)}
    {c : MetadataCache M} (h : Kept ttl tr c) (i : Nat) (w : Instant M)
    (q : CacheQuery M) :
    Kept ttl (tr ++ [⟨i, w, ⟨q, (MetadataCache.answer ttl w q c).1⟩⟩])
      (MetadataCache.answer ttl w q c).2 := by
  cases q with
  | getFresh key => exact h.extend rfl rfl rfl
  | count a b =>
      refine h.extend rfl rfl ?_
      simp only [MetadataCache.answer, count, counts]
      omega
  | readStats => exact h.extend rfl rfl rfl
  | readEntries => exact h.extend rfl rfl rfl
  | innerMetadata f l => exact h.extend rfl rfl rfl
  | innerBulk fs l => exact h.extend rfl rfl rfl
  | invalidateAll =>
      constructor
      case stored =>
        intro key e he
        simp [MetadataCache.answer, invalidateAll] at he
      case off => simp [MetadataCache.answer, invalidateAll]
      case counted =>
        simpa [MetadataCache.answer, invalidateAll, counts] using h.counted
  | store key m =>
      by_cases h0 : ttl = 0
      · refine h.extend rfl ?_ ?_
        · simp [MetadataCache.answer, store, h0]
        · simp [MetadataCache.answer, store, h0, counts]
      · constructor
        case stored =>
          intro key' e he
          simp only [MetadataCache.answer, store, h0, if_false] at he
          by_cases hkey : key' = key
          · -- the entry just made
            rw [hkey, AList.lookup_insert, Option.some.injEq] at he
            refine ⟨tr.length, _, ⟨getElem?_snoc.mpr (.inr ⟨rfl, rfl⟩), ?_,
              by simp, ?_⟩, ?_⟩
            · rw [← he, hkey]
            · intro n' y hn hn' _
              simp only [List.length_append, List.length_singleton] at hn'
              omega
            · rw [← he]
          · rw [AList.lookup_insert_ne hkey] at he
            obtain ⟨n, x, hx, hnow⟩ := h.stored key' e he
            exact ⟨n, x, hx.extend rfl, hnow⟩
        case off => exact fun h0' => absurd h0' h0
        case counted =>
          simpa [MetadataCache.answer, store, h0, counts] using h.counted

/-- Every answer from the cache was stored before, no longer ago than
the time to live, and not invalidated since. -/
def Served (ttl : Nat) (tr : List (CacheMoment M)) : Prop :=
  ∀ (k : Nat) (x : CacheMoment M) (key : CacheKey) (m : M),
    tr[k]? = some x → x.exchange = ⟨.getFresh key, some m⟩ →
    ttl ≠ 0 ∧ ∃ n y, StoredAt tr key m n k y
      ∧ x.reading.now - y.reading.now ≤ ttl

theorem Served.answer {ttl : Nat} {tr : List (CacheMoment M)}
    {c : MetadataCache M} (h : Served ttl tr) (hkept : Kept ttl tr c)
    (i : Nat) (w : Instant M) (q : CacheQuery M) :
    Served ttl (tr ++ [⟨i, w, ⟨q, (MetadataCache.answer ttl w q c).1⟩⟩]) := by
  intro k x key m hx hserved
  rcases getElem?_snoc.mp hx with hx | hx
  · have hk : k < tr.length := (List.getElem?_eq_some_iff.mp hx).1
    obtain ⟨hne, n, y, hy, hage⟩ := h k x key m hx hserved
    exact ⟨hne, n, y, hy.append (by omega) _, hage⟩
  · obtain ⟨rfl, rfl⟩ := hx
    -- a hit: the entry the map holds, and its age
    cases q with
    | getFresh key' =>
        simp only [Exchange.mk.injEq, CacheQuery.getFresh.injEq] at hserved
        obtain ⟨rfl, hm⟩ := hserved
        replace hm := eq_of_heq hm
        simp only [MetadataCache.answer, getFresh] at hm
        cases he : c.entries.lookup key' with
        | none => simp [he] at hm
        | some e =>
            simp only [he] at hm
            by_cases h0 : ttl = 0
            · simp [hkept.off h0 key'] at he
            · simp only [h0, false_or] at hm
              by_cases hage : w.now - e.cachedAt ≤ ttl
              · rw [if_pos hage, Option.some.injEq] at hm
                obtain ⟨n, y, hy, hnow⟩ := hkept.stored key' e he
                refine ⟨h0, n, y, ?_, ?_⟩
                · rw [hm] at hy
                  exact hy.append (Nat.le_refl _) _
                · rw [hnow]
                  exact hage
              · simp [hage] at hm
    | _ => simp at hserved

end SapAutomate.Rfc.MetadataCache
