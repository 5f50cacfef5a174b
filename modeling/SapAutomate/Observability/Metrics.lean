/-
The metrics registry (`sap-automate-observability/src/metrics.rs`):
counters, gauges and histograms, all in one map that is keyed by a metric's
name and labels, and read back from these keys for a snapshot.

Values are exact rationals; a count is a machine word, which wraps. An
index out of range is a panic, and so is every later use of the registry,
its lock being poisoned then.
-/
import SapAutomate.Lib.Iteration
import SapAutomate.Lib.Table
import SapAutomate.Lib.Text
import Mathlib.Data.Rat.Defs
import Mathlib.Data.Char
import Mathlib.Data.List.Lex

namespace SapAutomate.Observability

-- ============================================================ the keys

/-- Label pairs, as a caller gives them. -/
abbrev Labels := List (List Char × List Char)

/-- `str::replace`, of one character. -/
def replaceChar (c : Char) (by' s : List Char) : List Char :=
  s.flatMap fun x => if x = c then by' else [x]

/-- `escape`. -/
def escape (s : List Char) : List Char :=
  replaceChar '\n' ['\\', 'n']
    (replaceChar '"' ['\\', '"'] (replaceChar '\\' ['\\', '\\'] s))

/-- One label in a key. -/
def labelPair (label : List Char × List Char) : List Char :=
  label.1 ++ '=' :: '"' :: (escape label.2 ++ ['"'])

/-- `series_key`. -/
def seriesKey (name : List Char) (labels : Labels) : List Char :=
  if labels.isEmpty then name
  else
    let parts := (Iteration.sortBy Prod.fst labels).map labelPair
    name ++ '{' :: ([','].intercalate parts ++ ['}'])

/-- What one part of a key adds to the labels. -/
def addPair (out : Table (List Char) (List Char)) (pair : List Char) :
    Table (List Char) (List Char) :=
  match pair.dropWhile (· ≠ '=') with
  | [] => out
  | _ :: v =>
      out.insert (pair.takeWhile (· ≠ '=')) (Text.trimBy (· == '"') v)

/-- `parse_labels`: the last byte is cut off, and there has to be one that
is a character. -/
def parseLabels (key : List Char) : Option (Table (List Char) (List Char)) :=
  match key.dropWhile (· ≠ '{') with
  | [] => some Table.empty
  | _ :: rest =>
    match rest.getLast? with
    | none => none
    | some c =>
        if c.utf8Size = 1 then
          some ((rest.dropLast.splitOn ',').foldl addPair Table.empty)
        else none

-- ======================================================== the registry

/-- `DEFAULT_BUCKETS_SECONDS`. -/
def defaultBucketsSeconds : List ℚ :=
  [1 / 2000, 1 / 1000, 1 / 200, 1 / 100, 1 / 40, 1 / 20, 2 / 25, 1 / 10,
    1 / 4, 1 / 2, 1, 5, 30]

/-- `MetricKind`. -/
inductive MetricKind where
  | counter
  | histogram
  | gauge
deriving DecidableEq

/-- `MetricState`. -/
structure MetricState where
  kind : MetricKind
  scalar : ℚ
  bucketBounds : List ℚ
  bucketCounts : List Nat
  sum : ℚ
  count : Nat

/-- An entry that a counter or a gauge makes. -/
def MetricState.ofScalar (kind : MetricKind) : MetricState :=
  ⟨kind, 0, [], [], 0, 0⟩

/-- An entry that an observation makes. -/
def MetricState.ofHistogram : MetricState :=
  ⟨.histogram, 0, defaultBucketsSeconds,
    List.replicate (defaultBucketsSeconds.length + 1) 0, 0, 0⟩

/-- `+= 1`, on a `u64`. -/
def bump (n : Nat) : Nat := (n + 1) % 2 ^ 64

/-- The buckets with one more observation: those from the first bound on
that is not below it, else the last. -/
def place (bounds : List ℚ) (counts : List Nat) (value : ℚ) :
    Option (List Nat) :=
  match bounds.findIdx? (value ≤ ·) with
  | some i => some (counts.mapIdx fun j n => if i ≤ j then bump n else n)
  | none =>
      if counts.length = 0 then none
      else some (counts.modify (counts.length - 1) bump)

/-- `self.series`. -/
abbrev Series := Table (List Char) MetricState

/-- An entry is made if there is none, and changed. -/
def updateEntry (series : Series) (key : List Char) (fresh : MetricState)
    (change : MetricState → Option MetricState) : Option Series :=
  (change ((series key).getD fresh)).map (series.insert key)

/-- `add_counter`. -/
def addCounter (series : Series) (name : List Char) (labels : Labels)
    (by' : ℚ) : Option Series :=
  updateEntry series (seriesKey name labels) (.ofScalar .counter)
    fun entry => some { entry with scalar := entry.scalar + by' }

/-- `inc_counter`. -/
def incCounter (series : Series) (name : List Char) (labels : Labels) :
    Option Series :=
  addCounter series name labels 1

/-- `set_gauge`. -/
def setGauge (series : Series) (name : List Char) (labels : Labels)
    (value : ℚ) : Option Series :=
  updateEntry series (seriesKey name labels) (.ofScalar .gauge)
    fun entry => some { entry with scalar := value }

/-- `observe_histogram`, on an entry. -/
def MetricState.observe (entry : MetricState) (value : ℚ) :
    Option MetricState :=
  (place entry.bucketBounds entry.bucketCounts value).map fun counts =>
    { entry with
      sum := entry.sum + value
      count := bump entry.count
      bucketCounts := counts }

/-- `observe_histogram`. -/
def observeHistogram (series : Series) (name : List Char) (labels : Labels)
    (value : ℚ) : Option Series :=
  updateEntry series (seriesKey name labels) .ofHistogram
    fun entry => entry.observe value

/-- An operation on the registry. -/
inductive MetricOp where
  | incCounter (name : List Char) (labels : Labels)
  | addCounter (name : List Char) (labels : Labels) (by' : ℚ)
  | setGauge (name : List Char) (labels : Labels) (value : ℚ)
  | observeHistogram (name : List Char) (labels : Labels) (value : ℚ)

/-- What an operation does. -/
def MetricOp.apply (series : Series) : MetricOp → Option Series
  | .incCounter name labels => Observability.incCounter series name labels
  | .addCounter name labels by' =>
      Observability.addCounter series name labels by'
  | .setGauge name labels value =>
      Observability.setGauge series name labels value
  | .observeHistogram name labels value =>
      Observability.observeHistogram series name labels value

/-- Operations one after the other, from `MetricsRegistry::new`. -/
def runMetrics (ops : List MetricOp) : Option Series :=
  ops.foldlM MetricOp.apply Table.empty

-- ======================================================== the snapshot

/-- `HistogramBucketSet`. -/
structure HistogramBucketSet where
  bounds : List ℚ
  counts : List Nat
  sum : ℚ
  count : Nat

/-- `SeriesPoint`. -/
structure SeriesPoint where
  name : List Char
  labels : Table (List Char) (List Char)
  value : ℚ
  histogram : Option HistogramBucketSet

/-- `snapshot`, of one entry. -/
def seriesPoint (key : List Char) (state : MetricState) :
    Option SeriesPoint :=
  (parseLabels key).map fun labels =>
    { name := key.takeWhile (· ≠ '{')
      labels := labels
      value := state.scalar
      histogram :=
        if state.kind = .histogram then
          some ⟨state.bucketBounds, state.bucketCounts, state.sum, state.count⟩
        else none }

end SapAutomate.Observability
