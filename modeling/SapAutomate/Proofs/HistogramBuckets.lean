/-
What a histogram counts: a series whose first operation observes holds,
in each bucket, how many observations are not above its bound
(`held_step`, and over a run `run_held`). A series that a counter or a
gauge made has no buckets, and the first observation on it panics.
-/
import SapAutomate.Observability.Metrics
import Mathlib.Algebra.BigOperators.Group.List.Basic
import Mathlib.Algebra.GroupWithZero.Nat
import Mathlib.Data.List.Induction
import Mathlib.Algebra.Order.Ring.Rat
import Mathlib.Tactic.NormNum

namespace SapAutomate.Observability

/-- The series an operation is on. -/
def MetricOp.key : MetricOp → List Char
  | .incCounter name labels => seriesKey name labels
  | .addCounter name labels _ => seriesKey name labels
  | .setGauge name labels _ => seriesKey name labels
  | .observeHistogram name labels _ => seriesKey name labels

/-- The value an operation observes. -/
def MetricOp.observed : MetricOp → Option ℚ
  | .observeHistogram _ _ value => some value
  | _ => none

/-- The operations on a series. -/
def opsOn (key : List Char) (ops : List MetricOp) : List MetricOp :=
  ops.filter (·.key = key)

/-- The observations that a series has received. -/
def observations (key : List Char) (ops : List MetricOp) : List ℚ :=
  (opsOn key ops).filterMap MetricOp.observed

/-- A series made by its first observation. -/
def StartsObserved (key : List Char) (ops : List MetricOp) : Prop :=
  ∃ op, (opsOn key ops).head? = some op ∧ op.observed ≠ none

/-- An entry counts these observations. -/
structure Tallies (obs : List ℚ) (s : MetricState) : Prop where
  bounds : s.bucketBounds = defaultBucketsSeconds
  buckets : s.bucketCounts
    = (s.bucketBounds.map fun b => obs.countP (· ≤ b)) ++ [obs.length]
  nondecreasing : s.bucketCounts.Pairwise (· ≤ ·)
  last : s.bucketCounts.getLast? = some s.count
  sum : s.sum = obs.sum

/-- No operation panics, and every series counts what it has received. -/
def RegistrySound (ops : List MetricOp) : Prop :=
  ∃ series, runMetrics ops = some series
    ∧ ∀ key, observations key ops ≠ [] →
        ∃ s, series key = some s ∧ Tallies (observations key ops) s

-- ========================================================== the buckets

/-- The buckets after these observations, in machine words. -/
def tally (bounds obs : List ℚ) : List Nat :=
  ((bounds.map fun b => obs.countP (· ≤ b)) ++ [obs.length]).map (· % 2 ^ 64)

@[simp] theorem length_tally (bounds obs : List ℚ) :
    (tally bounds obs).length = bounds.length + 1 := by
  simp [tally]

theorem tally_bucket {bounds : List ℚ} {j : Nat} (h : j < bounds.length)
    (obs : List ℚ) :
    (tally bounds obs)[j]?
      = some (obs.countP (· ≤ bounds[j]) % 2 ^ 64) := by
  unfold tally
  rw [List.getElem?_map, List.getElem?_append_left (by simpa using h)]
  simp [h]

theorem tally_last (bounds obs : List ℚ) :
    (tally bounds obs)[bounds.length]? = some (obs.length % 2 ^ 64) := by
  unfold tally
  rw [List.getElem?_map, List.getElem?_append_right (by simp)]
  simp

theorem bump_mod (n : Nat) : bump (n % 2 ^ 64) = (n + 1) % 2 ^ 64 :=
  Nat.mod_add_mod ..

/-- A bucket with one more observation. -/
theorem tally_bucket_append {bounds : List ℚ} {j : Nat}
    (h : j < bounds.length) (obs : List ℚ) (v : ℚ) :
    (tally bounds (obs ++ [v]))[j]?
      = some (if v ≤ bounds[j] then bump (obs.countP (· ≤ bounds[j]) % 2 ^ 64)
          else obs.countP (· ≤ bounds[j]) % 2 ^ 64) := by
  rw [tally_bucket h, List.countP_append, List.countP_singleton]
  by_cases hv : v ≤ bounds[j]
  · rw [if_pos hv, bump_mod, if_pos (decide_eq_true hv)]
  · rw [if_neg hv, if_neg (by simpa using hv), Nat.add_zero]

theorem tally_last_append (bounds obs : List ℚ) (v : ℚ) :
    (tally bounds (obs ++ [v]))[bounds.length]?
      = some (bump (obs.length % 2 ^ 64)) := by
  rw [tally_last, bump_mod, List.length_append, List.length_singleton]

/-- Under rising bounds, one observation goes where it belongs. -/
theorem place_tally {bounds : List ℚ} (hb : bounds.Pairwise (· ≤ ·))
    (obs : List ℚ) (v : ℚ) :
    place bounds (tally bounds obs) v = some (tally bounds (obs ++ [v])) := by
  unfold place
  cases hidx : bounds.findIdx? (v ≤ ·) with
  | some i =>
      obtain ⟨hi, hvi, hlt⟩ := List.findIdx?_eq_some_iff_getElem.mp hidx
      refine congrArg some (List.ext_getElem? fun j => ?_)
      rw [List.getElem?_mapIdx]
      rcases Nat.lt_trichotomy j bounds.length with hj | rfl | hj
      · -- from the first bound on that is not below it
        have hiff : i ≤ j ↔ v ≤ bounds[j] := by
          constructor
          · intro hij
            have hvi' : v ≤ bounds[i] := of_decide_eq_true hvi
            rcases Nat.lt_or_eq_of_le hij with hij | rfl
            · exact hvi'.trans (List.pairwise_iff_getElem.mp hb i j hi hj hij)
            · exact hvi'
          · intro hvj
            by_contra hji
            exact hlt j (by omega) (decide_eq_true hvj)
        rw [tally_bucket_append hj, tally_bucket hj, Option.map_some]
        simp only [hiff]
      · rw [tally_last_append, tally_last, Option.map_some, if_pos hi.le]
      · rw [List.getElem?_eq_none (by simpa using Nat.succ_le_of_lt hj),
          List.getElem?_eq_none (by simpa using Nat.succ_le_of_lt hj),
          Option.map_none]
  | none =>
      have hv : ∀ b ∈ bounds, ¬ v ≤ b := by
        intro b hmem hvb
        have := List.findIdx?_eq_none_iff.mp hidx b hmem
        exact absurd (decide_eq_true hvb) (by simp [this])
      simp only [length_tally, Nat.add_sub_cancel, Nat.succ_ne_zero, if_false]
      refine congrArg some (List.ext_getElem? fun j => ?_)
      rcases Nat.lt_trichotomy j bounds.length with hj | rfl | hj
      · rw [tally_bucket_append hj, if_neg (hv _ (List.getElem_mem hj)),
          List.getElem?_modify_ne _ _ (by omega), tally_bucket hj]
      · rw [tally_last_append, List.getElem?_modify_eq, tally_last]
        rfl
      · rw [List.getElem?_modify_ne _ _ (by omega),
          List.getElem?_eq_none (by simpa using Nat.succ_le_of_lt hj),
          List.getElem?_eq_none (by simpa using Nat.succ_le_of_lt hj)]

theorem defaultBucketsSeconds_pairwise :
    defaultBucketsSeconds.Pairwise (· ≤ ·) := by
  unfold defaultBucketsSeconds
  norm_num

-- =============================================================== a step

/-- The entry that an operation makes. -/
def MetricOp.fresh : MetricOp → MetricState
  | .incCounter .. => .ofScalar .counter
  | .addCounter .. => .ofScalar .counter
  | .setGauge .. => .ofScalar .gauge
  | .observeHistogram .. => .ofHistogram

/-- What an operation does with an entry. -/
def MetricOp.change (s : MetricState) : MetricOp → Option MetricState
  | .incCounter .. => some { s with scalar := s.scalar + 1 }
  | .addCounter _ _ by' => some { s with scalar := s.scalar + by' }
  | .setGauge _ _ value => some { s with scalar := value }
  | .observeHistogram _ _ value => s.observe value

theorem MetricOp.apply_eq (series : Series) (op : MetricOp) :
    op.apply series = updateEntry series op.key op.fresh (op.change ·) := by
  cases op <;> rfl

/-- A counter or a gauge makes an entry without buckets, and leaves the
buckets of an entry alone. -/
theorem MetricOp.change_scalar {op : MetricOp} (h : op.observed = none)
    (s : MetricState) :
    (∃ kind, op.fresh = .ofScalar kind)
      ∧ ∃ x, op.change s = some { s with scalar := x } := by
  cases op with
  | incCounter => exact ⟨⟨_, rfl⟩, _, rfl⟩
  | addCounter => exact ⟨⟨_, rfl⟩, _, rfl⟩
  | setGauge => exact ⟨⟨_, rfl⟩, _, rfl⟩
  | observeHistogram => cases h

theorem MetricOp.change_observed {op : MetricOp} {v : ℚ}
    (h : op.observed = some v) (s : MetricState) :
    op.fresh = .ofHistogram ∧ op.change s = s.observe v := by
  cases op with
  | incCounter => cases h
  | addCounter => cases h
  | setGauge => cases h
  | observeHistogram =>
      cases h
      exact ⟨rfl, rfl⟩

/-- The values that these operations observe. -/
def observedBy (used : List MetricOp) : List ℚ :=
  used.filterMap MetricOp.observed

theorem observedBy_append (used : List MetricOp) (op : MetricOp) :
    observedBy (used ++ [op]) = observedBy used ++ op.observed.toList := by
  unfold observedBy
  rw [List.filterMap_append]
  cases h : op.observed with
  | none => rw [List.filterMap_cons_none h]; rfl
  | some v => rw [List.filterMap_cons_some h]; rfl

/-- What is held for a series after these operations on it. -/
inductive Held : List MetricOp → Option MetricState → Prop where
  | unused : Held [] none
  | scalar {first : MetricOp} {used : List MetricOp} {s : MetricState} :
      used.head? = some first → first.observed = none →
      observedBy used = [] → s.bucketBounds = [] → s.bucketCounts = [] →
      Held used (some s)
  | histogram {first : MetricOp} {used : List MetricOp} {s : MetricState} :
      used.head? = some first → first.observed ≠ none →
      s.bucketBounds = defaultBucketsSeconds →
      s.bucketCounts = tally defaultBucketsSeconds (observedBy used) →
      s.sum = (observedBy used).sum →
      s.count = (observedBy used).length % 2 ^ 64 → Held used (some s)

/-- A counter or a gauge first, an observation later. -/
def Mixed (used : List MetricOp) : Prop :=
  (∃ first, used.head? = some first ∧ first.observed = none)
    ∧ observedBy used ≠ []

/-- The first operation stays the first. -/
theorem head_append {used : List MetricOp} {first : MetricOp}
    (h : used.head? = some first) (op : MetricOp) :
    (used ++ [op]).head? = some first := by
  rw [List.head?_append, h]
  rfl

/-- An observation on an entry with these buckets. -/
theorem observe_tally {s : MetricState} {obs : List ℚ}
    (hbounds : s.bucketBounds = defaultBucketsSeconds)
    (hcounts : s.bucketCounts = tally defaultBucketsSeconds obs) (v : ℚ) :
    s.observe v = some
      { s with
        sum := s.sum + v
        count := bump s.count
        bucketCounts := tally defaultBucketsSeconds (obs ++ [v]) } := by
  unfold MetricState.observe
  rw [hbounds, hcounts, place_tally defaultBucketsSeconds_pairwise]
  rfl

/-- One more operation that observes nothing. -/
theorem held_scalar {used : List MetricOp} {slot : Option MetricState}
    (h : Held used slot) {op : MetricOp} (hop : op.observed = none) :
    ∃ s, op.change (slot.getD op.fresh) = some s
      ∧ Held (used ++ [op]) (some s) := by
  have hobs := observedBy_append used op
  rw [hop, Option.toList_none, List.append_nil] at hobs
  obtain ⟨⟨kind, hfresh⟩, x, hchange⟩ :=
    MetricOp.change_scalar hop (slot.getD op.fresh)
  refine ⟨_, hchange, ?_⟩
  cases h with
  | unused =>
      rw [Option.getD_none, hfresh]
      exact .scalar rfl hop hobs rfl rfl
  | scalar hhead hfirst hnil hbounds hcounts =>
      exact .scalar (head_append hhead op) hfirst (hobs.trans hnil)
        hbounds hcounts
  | histogram hhead hfirst hbounds hcounts hsum hcount =>
      rw [← hobs] at hcounts hsum hcount
      exact .histogram (head_append hhead op) hfirst hbounds hcounts
        hsum hcount

/-- One more that observes a value: a series begun by another is mixed. -/
theorem held_observed {used : List MetricOp} {slot : Option MetricState}
    (h : Held used slot) {op : MetricOp} {v : ℚ} (hop : op.observed = some v) :
    (∃ s, op.change (slot.getD op.fresh) = some s
        ∧ Held (used ++ [op]) (some s))
      ∨ op.change (slot.getD op.fresh) = none ∧ Mixed (used ++ [op]) := by
  have hobs := observedBy_append used op
  rw [hop, Option.toList_some] at hobs
  obtain ⟨hfresh, hchange⟩ :=
    MetricOp.change_observed hop (slot.getD op.fresh)
  have hsome : op.observed ≠ none := by
    rw [hop]
    exact Option.some_ne_none v
  rw [hchange]
  cases h with
  | unused =>
      left
      rw [Option.getD_none, hfresh]
      have hnone : MetricState.ofHistogram.bucketCounts
          = tally defaultBucketsSeconds [] := by decide
      refine ⟨_, observe_tally rfl hnone v,
        .histogram rfl hsome rfl ?_ ?_ ?_⟩
      · rw [hobs]
        rfl
      · rw [hobs, List.sum_append, List.sum_singleton]
        rfl
      · rw [hobs]
        rfl
  | scalar hhead hfirst hnil hbounds hcounts =>
      right
      refine ⟨?_, ⟨_, head_append hhead op, hfirst⟩, ?_⟩
      · rw [Option.getD_some, MetricState.observe, hbounds, hcounts]
        rfl
      · rw [hobs]
        exact List.append_ne_nil_of_right_ne_nil _ (List.cons_ne_nil _ _)
  | histogram hhead hfirst hbounds hcounts hsum hcount =>
      left
      refine ⟨_, observe_tally hbounds hcounts v,
        .histogram (head_append hhead op) hfirst hbounds ?_ ?_ ?_⟩
      · rw [hobs]
      · rw [hobs, List.sum_append, ← hsum, List.sum_singleton]
      · rw [hobs, List.length_append, List.length_singleton, ← bump_mod,
          ← hcount]

/-- One more operation on a series: an entry is held as it should be, or
the series is mixed. -/
theorem held_step {used : List MetricOp} {slot : Option MetricState}
    (h : Held used slot) (op : MetricOp) :
    (∃ s, op.change (slot.getD op.fresh) = some s
        ∧ Held (used ++ [op]) (some s))
      ∨ op.change (slot.getD op.fresh) = none ∧ Mixed (used ++ [op]) := by
  cases hop : op.observed with
  | none => exact .inl (held_scalar h hop)
  | some v => exact held_observed h hop

-- ================================================================ a run

theorem opsOn_append (key : List Char) (ops : List MetricOp) (op : MetricOp) :
    opsOn key (ops ++ [op])
      = if op.key = key then opsOn key ops ++ [op] else opsOn key ops := by
  unfold opsOn
  rw [List.filter_append, List.filter_singleton]
  by_cases h : op.key = key
  · rw [if_pos h, decide_eq_true h]
    rfl
  · rw [if_neg h, decide_eq_false h]
    exact List.append_nil _

theorem runMetrics_append (ops : List MetricOp) (op : MetricOp) :
    runMetrics (ops ++ [op]) = (runMetrics ops).bind op.apply := by
  unfold runMetrics
  rw [List.foldlM_append]
  cases List.foldlM MetricOp.apply Table.empty ops with
  | none => rfl
  | some series =>
      show (op.apply series >>= pure) = op.apply series
      rw [bind_pure]

/-- A run holds every series as it should be, or panics over a mixed one. -/
theorem run_held (ops : List MetricOp) :
    (∃ series, runMetrics ops = some series
        ∧ ∀ key, Held (opsOn key ops) (series key))
      ∨ runMetrics ops = none ∧ ∃ key, Mixed (opsOn key ops) := by
  induction ops using List.reverseRecOn with
  | nil => exact .inl ⟨Table.empty, rfl, fun key => .unused⟩
  | append_singleton ops op ih =>
      rw [runMetrics_append]
      rcases ih with ⟨series, hrun, hheld⟩ | ⟨hrun, key, hmixed⟩
      · rw [hrun, Option.bind_some, MetricOp.apply_eq]
        unfold updateEntry
        rcases held_step (hheld op.key) op with ⟨s, hs, hnew⟩ | ⟨hs, hmixed⟩
        · left
          refine ⟨_, congrArg (Option.map _) hs, fun key => ?_⟩
          rw [opsOn_append]
          by_cases hkey : op.key = key
          · rw [if_pos hkey, ← hkey, Table.insert_self]
            exact hnew
          · rw [if_neg hkey, Table.insert_ne (Ne.symm hkey)]
            exact hheld key
        · right
          refine ⟨congrArg (Option.map _) hs, op.key, ?_⟩
          rw [opsOn_append, if_pos rfl]
          exact hmixed
      · right
        refine ⟨by rw [hrun]; rfl, key, ?_⟩
        rw [opsOn_append]
        split
        · obtain ⟨⟨first, hfirst, hnone⟩, hobs⟩ := hmixed
          refine ⟨⟨first, head_append hfirst op, hnone⟩, ?_⟩
          rw [observedBy_append]
          exact List.append_ne_nil_of_left_ne_nil hobs _
        · exact hmixed

-- ============================================== what a series counts

/-- Bounds that rise count a rising number. -/
theorem counts_nondecreasing {bounds : List ℚ}
    (hb : bounds.Pairwise (· ≤ ·)) (obs : List ℚ) :
    ((bounds.map fun b => obs.countP (· ≤ b)) ++ [obs.length]).Pairwise
      (· ≤ ·) := by
  rw [List.pairwise_append, List.pairwise_map]
  refine ⟨hb.imp fun hab => ?_, List.pairwise_singleton _ _, ?_⟩
  · refine List.countP_mono_left fun v _ hv => ?_
    exact decide_eq_true ((of_decide_eq_true hv).trans hab)
  · intro n hn m hm
    obtain ⟨b, -, rfl⟩ := List.mem_map.mp hn
    rw [List.mem_singleton.mp hm]
    exact List.countP_le_length

/-- What fits a machine word is counted as it is. -/
theorem tally_eq {bounds obs : List ℚ} (h : obs.length < 2 ^ 64) :
    tally bounds obs
      = (bounds.map fun b => obs.countP (· ≤ b)) ++ [obs.length] := by
  refine (List.map_congr_left fun n hn => ?_).trans (List.map_id _)
  have hn : n ≤ obs.length := by
    rcases List.mem_append.mp hn with hn | hn
    · obtain ⟨b, -, rfl⟩ := List.mem_map.mp hn
      exact List.countP_le_length
    · exact (List.mem_singleton.mp hn).le
  exact Nat.mod_eq_of_lt (hn.trans_lt h)

/-- A series made by an observation counts what it has received, as long as
that fits a machine word. -/
theorem tallies_iff {obs : List ℚ} {s : MetricState}
    (hbounds : s.bucketBounds = defaultBucketsSeconds)
    (hcounts : s.bucketCounts = tally defaultBucketsSeconds obs)
    (hsum : s.sum = obs.sum) (hcount : s.count = obs.length % 2 ^ 64) :
    Tallies obs s ↔ obs.length < 2 ^ 64 := by
  constructor
  · intro h
    have hlast : s.bucketCounts.getLast? = some obs.length := by
      rw [h.buckets, List.getLast?_append]
      rfl
    have hmod : obs.length = obs.length % 2 ^ 64 := by
      rw [h.last, hcount] at hlast
      exact (Option.some.inj hlast).symm
    rw [hmod]
    exact Nat.mod_lt _ (by norm_num)
  · intro h
    rw [tally_eq h] at hcounts
    rw [Nat.mod_eq_of_lt h] at hcount
    refine ⟨hbounds, by rw [hcounts, hbounds], ?_, ?_, hsum⟩
    · rw [hcounts]
      exact counts_nondecreasing defaultBucketsSeconds_pairwise obs
    · rw [hcounts, hcount, List.getLast?_append]
      rfl

/-- The registry keeps its invariant exactly when every series that is
observed was made by an observation, and has not received more than a
machine word can count. -/
theorem registrySound_iff (ops : List MetricOp) :
    RegistrySound ops
      ↔ ∀ key, observations key ops ≠ [] →
          StartsObserved key ops ∧ (observations key ops).length < 2 ^ 64 := by
  constructor
  · rintro ⟨series, hrun, htallies⟩ key hobs
    obtain ⟨s, hs, htally⟩ := htallies key hobs
    rcases run_held ops with ⟨series', hrun', hheld⟩ | ⟨hrun', -⟩
    · rw [hrun, Option.some.injEq] at hrun'
      subst hrun'
      have hkey := hheld key
      rw [hs] at hkey
      generalize hops : opsOn key ops = used at hkey
      cases hkey with
      | scalar _ _ hnil _ _ =>
          rw [← hops] at hnil
          exact absurd hnil hobs
      | histogram hhead hfirst hbounds hcounts hsum hcount =>
          rw [← hops] at hhead hcounts hsum hcount
          exact ⟨⟨_, hhead, hfirst⟩,
            (tallies_iff hbounds hcounts hsum hcount).mp htally⟩
    · rw [hrun] at hrun'
      cases hrun'
  · intro hall
    rcases run_held ops with ⟨series, hrun, hheld⟩ | ⟨-, key, hmixed⟩
    · refine ⟨series, hrun, fun key hobs => ?_⟩
      obtain ⟨⟨first, hstart, hsome⟩, hlen⟩ := hall key hobs
      have hkey := hheld key
      generalize hslot : series key = slot at hkey
      have hused : opsOn key ops ≠ [] := by
        intro hnil
        rw [hnil] at hstart
        cases hstart
      generalize hops : opsOn key ops = used at hkey
      cases hkey with
      | unused => exact absurd hops hused
      | scalar hhead hfirst _ _ _ =>
          rw [hops, hhead, Option.some.injEq] at hstart
          exact absurd (hstart ▸ hfirst) hsome
      | histogram hhead hfirst hbounds hcounts hsum hcount =>
          rw [← hops] at hcounts hsum hcount
          exact ⟨_, rfl, (tallies_iff hbounds hcounts hsum hcount).mpr hlen⟩
    · obtain ⟨⟨first, hhead, hnone⟩, hobs⟩ := hmixed
      obtain ⟨⟨first', hstart, hsome⟩, -⟩ := hall key hobs
      rw [hhead, Option.some.injEq] at hstart
      exact absurd (hstart ▸ hnone) hsome

/-- A gauge that is observed afterwards is a panic. -/
theorem gauge_observed_panics :
    ¬ RegistrySound
      [.setGauge ['x'] [] 1, .observeHistogram ['x'] [] 1] := by
  rintro ⟨series, hrun, -⟩
  have hpanic : runMetrics
      [.setGauge ['x'] [] 1, .observeHistogram ['x'] [] 1] = none := rfl
  rw [hpanic] at hrun
  cases hrun

end SapAutomate.Observability
