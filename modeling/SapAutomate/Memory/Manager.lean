/-
The memory tiers (`sap-automate-memory/src/lib.rs`): a bounded queue of
entries for each session, and a list of dated entries with an index by
tag. `MemoryManager` reads both.
-/
import SapAutomate.Json.Value
import SapAutomate.Lib.Table

namespace SapAutomate.Memory

open Json

/-- `Tier`. -/
inductive Tier where
  | working
  | episodic
  | semantic
  | procedural
  deriving DecidableEq

/-- `MemoryEntry`; the tenant is a bound: only this tenant can read it. -/
structure MemoryEntry where
  tier : Tier
  key : String
  value : Value
  trustClass : String
  tenant : Option String
  createdAtMs : Nat

namespace MemoryEntry

/-- `MemoryEntry::new`, at this time. -/
def new (tier : Tier) (key : String) (value : Value) (nowMs : Nat) :
    MemoryEntry :=
  ⟨tier, key, value, "unverified", none, nowMs⟩

/-- `MemoryEntry::with_tenant`. -/
def withTenant (e : MemoryEntry) (tenant : String) : MemoryEntry :=
  { e with tenant := some tenant }

end MemoryEntry

-- =============================================================== working

/-- `WorkingMemory`: each queue with its front first. -/
structure WorkingMemory where
  sessions : Table String (List MemoryEntry)
  cap : Nat

namespace WorkingMemory

/-- `WorkingMemory::with_capacity`. -/
def withCapacity (cap : Nat) : WorkingMemory := ⟨.empty, max cap 1⟩

/-- `WorkingMemory::new`. -/
def new : WorkingMemory := withCapacity 64

/-- `WorkingMemory::default`, as it is derived. -/
def default : WorkingMemory := ⟨.empty, 0⟩

/-- An entry pushed on a queue: a full one loses its front. -/
def pushed (cap : Nat) (q : List MemoryEntry) (entry : MemoryEntry) :
    List MemoryEntry :=
  (if q.length = cap then q.tail else q) ++ [entry]

/-- `WorkingMemory::append`. -/
def append (m : WorkingMemory) (sessionId : String) (entry : MemoryEntry) :
    WorkingMemory :=
  { m with
    sessions := m.sessions.insert sessionId
      (pushed m.cap ((m.sessions sessionId).getD []) entry) }

/-- `WorkingMemory::recent`. -/
def recent (m : WorkingMemory) (sessionId : String) (limit : Nat) :
    List MemoryEntry :=
  match m.sessions sessionId with
  | some q => q.reverse.take limit
  | none => []

/-- `WorkingMemory::clear`. -/
def clear (m : WorkingMemory) (sessionId : String) : WorkingMemory :=
  { m with sessions := m.sessions.remove sessionId }

end WorkingMemory

-- ============================================================== episodic

/-- `EpisodicMemory`. -/
structure EpisodicMemory where
  entries : List MemoryEntry
  byTag : Table String (List Nat)

namespace EpisodicMemory

/-- `EpisodicMemory::new`. -/
def new : EpisodicMemory := ⟨[], .empty⟩

/-- An index put under a tag. -/
def indexed (idx : Nat) (byTag : Table String (List Nat)) (tag : String) :
    Table String (List Nat) :=
  byTag.insert tag ((byTag tag).getD [] ++ [idx])

/-- `EpisodicMemory::record`. -/
def record (m : EpisodicMemory) (entry : MemoryEntry) (tags : List String) :
    EpisodicMemory where
  entries := m.entries ++ [entry]
  byTag := tags.foldl (indexed m.entries.length) m.byTag

/-- The entries a tenant can read: its own and public ones; without a
tenant, all. -/
def readable (tenant : Option String) (e : MemoryEntry) : Bool :=
  match tenant, e.tenant with
  | some t, some t' => t == t'
  | some _, none => true
  | none, _ => true

/-- `EpisodicMemory::by_tag`. -/
def lookupTag (m : EpisodicMemory) (tag : String) (tenant : Option String)
    (limit : Nat) : List MemoryEntry :=
  ((((((m.byTag tag).getD []).reverse).filterMap fun i => m.entries[i]?).filter
    (readable tenant)).take limit).reverse

end EpisodicMemory

-- =============================================================== manager

/-- `MemoryManager`. -/
structure MemoryManager where
  working : WorkingMemory
  episodic : EpisodicMemory

namespace MemoryManager

/-- `MemoryManager::new`. -/
def new : MemoryManager := ⟨.new, .new⟩

/-- `MemoryManager::assemble`. -/
def assemble (m : MemoryManager) (sessionId : String) (tag tenant : Option String) :
    List MemoryEntry :=
  m.working.recent sessionId 8
    ++ match tag with
      | some tag => m.episodic.lookupTag tag tenant 8
      | none => []

end MemoryManager

/-- A write. -/
inductive MemoryOp where
  | append (sessionId : String) (entry : MemoryEntry)
  | record (entry : MemoryEntry) (tags : List String)

/-- What it does. -/
def MemoryManager.apply (m : MemoryManager) : MemoryOp → MemoryManager
  | .append sessionId entry =>
      { m with working := m.working.append sessionId entry }
  | .record entry tags =>
      { m with episodic := m.episodic.record entry tags }

end SapAutomate.Memory
