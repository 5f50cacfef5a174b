/-
The metadata cache (`sap-automate-rfc/src/metadata_cache.rs`): a
decorator over a `SapClient` that keeps the answers to `rfc_metadata`
and `bulk_rfc_metadata` by function and language for a time to live.

# Sections

The cache never holds a lock across a call to the inner client. Its
methods are programs over `CacheIface`: each question is one section
under a lock, or one call of the inner client, and between two of them
anything can happen. `answer` is what a section does; it reads the
clock and the inner client from the `Instant` it happens at, so a clock
may read anything and the inner client may change its answers.

Of the metadata it keeps the cache reads the function's name only; the
rest is generic. The counters are `u64` in the source; here they do not
overflow.
-/
import Mathlib.Data.List.AList
import SapAutomate.Lib.Pool
import SapAutomate.Rfc.Client

namespace SapAutomate.Rfc

open Interact

-- =============================================================== state

/-- `CacheStats`. -/
structure CacheStats where
  hits : Nat
  misses : Nat
  evictions : Nat
  entries : Nat
  deriving DecidableEq

/-- `Entry`. -/
structure Entry (M : Type) where
  «meta» : M
  cachedAt : Nat

/-- The key of an entry: function and language. -/
abbrev CacheKey := String × String

/-- What the two locks of a `MetadataCache` guard. -/
structure MetadataCache (M : Type) where
  entries : AList fun _ : CacheKey => Entry M
  stats : CacheStats

/-- `MetadataCache::new`: no entry, and the default statistics. -/
def MetadataCache.new (M : Type) : MetadataCache M where
  entries := ∅
  stats := ⟨0, 0, 0, 0⟩

/-- What is outside the cache when a section runs: the clock, and the
inner client. -/
structure Instant (M : Type) where
  now : Nat
  inner : MetadataClient M

-- ============================================================ sections

/-- The sections of the cache's methods. -/
inductive CacheQuery (M : Type) where
  | getFresh (key : CacheKey)
  | store (key : CacheKey) («meta» : M)
  | count (hits misses : Nat)
  | invalidateAll
  | readStats
  | readEntries
  | innerMetadata (function language : String)
  | innerBulk (functions : List String) (language : String)

/-- What each section hands back. -/
abbrev CacheIface (M : Type) : Iface where
  Query := CacheQuery M
  Reply
    | .getFresh _ => Option M
    | .store .. => Unit
    | .count .. => Unit
    | .invalidateAll => Unit
    | .readStats => CacheStats
    | .readEntries => Nat
    | .innerMetadata .. => RfcResult M
    | .innerBulk .. => RfcResult (BulkMetadata M)

namespace MetadataCache

variable {M : Type}

/-- `get_fresh`: an entry no older than the time to live. -/
def getFresh (ttl now : Nat) (key : CacheKey) (c : MetadataCache M) :
    Option M :=
  match c.entries.lookup key with
  | none => none
  | some e =>
      if ttl = 0 ∨ now - e.cachedAt ≤ ttl then some e.meta else none

/-- `store`: nothing is kept without a time to live. -/
def store (ttl now : Nat) (key : CacheKey) («meta» : M)
    (c : MetadataCache M) : MetadataCache M :=
  if ttl = 0 then c
  else { c with entries := c.entries.insert key ⟨«meta», now⟩ }

/-- `stats.hits += hits; stats.misses += misses`. -/
def count (hits misses : Nat) (c : MetadataCache M) : MetadataCache M :=
  { c with stats := { c.stats with
      hits := c.stats.hits + hits
      misses := c.stats.misses + misses } }

/-- `invalidate_all`: the write lock is held while the statistics are
brought up to date. -/
def invalidateAll (c : MetadataCache M) : MetadataCache M where
  entries := ∅
  stats := { c.stats with
    evictions := c.stats.evictions + c.entries.keys.length }

/-- What a section does at an instant. -/
def answer (ttl : Nat) (at' : Instant M) :
    (q : CacheQuery M) → MetadataCache M →
      (CacheIface M).Reply q × MetadataCache M
  | .getFresh key, c => (c.getFresh ttl at'.now key, c)
  | .store key m, c => ((), c.store ttl at'.now key m)
  | .count h m, c => ((), c.count h m)
  | .invalidateAll, c => ((), c.invalidateAll)
  | .readStats, c => (c.stats, c)
  | .readEntries, c => (c.entries.keys.length, c)
  | .innerMetadata f l, c => (at'.inner.rfcMetadata f l, c)
  | .innerBulk fs l, c => (at'.inner.bulkRfcMetadata fs l, c)

-- ============================================================= methods

section Methods

variable [HasFunction M]

/-- One section as a program. -/
def inSection (q : CacheQuery M) :
    Prog (CacheIface M) ((CacheIface M).Reply q) :=
  Prog.query (I := CacheIface M) q

/-- `MetadataCache::stats`: the counters, then the number of entries
under the other lock. -/
def statsCall : Prog (CacheIface M) CacheStats := do
  let s ← inSection .readStats
  let n ← inSection .readEntries
  pure { s with entries := n }

/-- `MetadataCache::rfc_metadata`. -/
def rfcMetadata (ttl : Nat) (function language : String) :
    Prog (CacheIface M) (RfcResult M) := do
  let key := (function, language)
  if ttl = 0 then
    inSection (.count 0 1)
    inSection (.innerMetadata function language)
  else
    match ← inSection (.getFresh key) with
    | some m =>
        inSection (.count 1 0)
        pure (.ok m)
    | none =>
        inSection (.count 0 1)
        match ← inSection (.innerMetadata function language) with
        | .error e => pure (.error e)
        | .ok m =>
            inSection (.store key m)
            pure (.ok m)

/-- The first loop of `bulk_rfc_metadata`: what is fresh, and what is to
be fetched. -/
def splitHits (language : String) :
    List String → List M → List String →
      Prog (CacheIface M) (List M × List String)
  | [], hits, toFetch => pure (hits, toFetch)
  | f :: fs, hits, toFetch => do
      match ← inSection (.getFresh (f, language)) with
      | some m => splitHits language fs (hits ++ [m]) toFetch
      | none => splitHits language fs hits (toFetch ++ [f])

/-- The second loop: each fetched function is kept under its own name. -/
def storeAll (language : String) : List M → Prog (CacheIface M) Unit
  | [] => pure ()
  | m :: ms => do
      inSection (.store (function m, language) m)
      storeAll language ms

/-- `MetadataCache::bulk_rfc_metadata`. -/
def bulkRfcMetadata (functions : List String) (language : String) :
    Prog (CacheIface M) (RfcResult (BulkMetadata M)) := do
  let (hits, toFetch) ← splitHits language functions [] []
  inSection (.count hits.length toFetch.length)
  if toFetch.isEmpty then
    pure (.ok ⟨language, hits, []⟩)
  else
    match ← inSection (.innerBulk toFetch language) with
    | .error e => pure (.error e)
    | .ok fetched =>
        storeAll language fetched.functions
        pure (.ok ⟨language, hits ++ fetched.functions, fetched.missing⟩)

/-- The handler of `sap.system.cache_invalidate`: the number of entries
there were, and none left. -/
def toolSystemCacheInvalidate : Prog (CacheIface M) Nat := do
  let before ← statsCall
  inSection .invalidateAll
  pure before.entries

end Methods

end MetadataCache

-- =========================================================== concurrency

/-- The calls the cache takes. -/
inductive CacheCall where
  | rfcMetadata (function language : String)
  | bulkRfcMetadata (functions : List String) (language : String)
  | invalidateAll
  | stats
  | tool
  deriving DecidableEq

/-- What they return. -/
inductive CacheReturn (M : Type) where
  | rfcMetadata (result : RfcResult M)
  | bulkRfcMetadata (result : RfcResult (BulkMetadata M))
  | invalidated
  | stats (stats : CacheStats)
  | tool (entriesDropped : Nat)

/-- The names a call looks up. -/
def CacheCall.names : CacheCall → List String
  | .rfcMetadata f _ => [f]
  | .bulkRfcMetadata fs _ => fs
  | .invalidateAll => []
  | .stats => []
  | .tool => []

/-- The call looks up this function in this language. -/
def CacheCall.looksUp (key : CacheKey) : CacheCall → Prop
  | .rfcMetadata f l => key = (f, l)
  | .bulkRfcMetadata fs l => key.1 ∈ fs ∧ key.2 = l
  | .invalidateAll => False
  | .stats => False
  | .tool => False

/-- The metadata a call yields. -/
def CacheReturn.metas {M : Type} : CacheReturn M → List M
  | .rfcMetadata (.ok m) => [m]
  | .bulkRfcMetadata (.ok b) => b.functions
  | _ => []

namespace MetadataCache

variable {M : Type} [HasFunction M]

/-- The body of a call. -/
def body (ttl : Nat) : CacheCall → Prog (CacheIface M) (CacheReturn M)
  | .rfcMetadata f l => do
      pure (.rfcMetadata (← MetadataCache.rfcMetadata ttl f l))
  | .bulkRfcMetadata fs l => do
      pure (.bulkRfcMetadata (← MetadataCache.bulkRfcMetadata fs l))
  | .invalidateAll => do
      inSection .invalidateAll
      pure .invalidated
  | .stats => do
      pure (.stats (← statsCall))
  | .tool => do
      pure (.tool (← toolSystemCacheInvalidate))

/-- Any number of calls, in any interleaving of their sections. -/
def machine (M : Type) [HasFunction M] (ttl : Nat) :
    Machine (PoolAct CacheCall (Instant M))
      (Pool (CacheIface M) CacheCall (Instant M) (MetadataCache M)
        (CacheReturn M)) :=
  poolMachine (.always (answer ttl)) (body ttl) (.new M)

end MetadataCache

end SapAutomate.Rfc
