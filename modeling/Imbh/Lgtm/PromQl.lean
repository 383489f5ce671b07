import Mathlib.Data.Prod.Lex
import Imbh.Lgtm.Streams
import Imbh.Lgtm.TraceQl

/-!
# PromQL

Series of samples, the expressions over them, and their reference evaluator: at each instant of a range
a leaf selects samples in a window that is open at its start and closed at its end, and an aggregate
combines what its input has at the instant. The arithmetic of doubles is a parameter.
-/

namespace Imbh.Lgtm

open Lib List

/-- The arithmetic of doubles. -/
structure Arith where
  add : F64 → F64 → F64
  sub : F64 → F64 → F64
  mul : F64 → F64 → F64
  div : F64 → F64 → F64
  min : F64 → F64 → F64
  max : F64 → F64 → F64

/-- `a < b`, `a <= b` -/
def fLt (a b : F64) : Bool := F64.partialCmp a b = some .lt

def fLe (a b : F64) : Bool := fLt a b || F64.eq a b

/-- The absolute value. -/
def fAbs (a : F64) : F64 := BitVec.ofNat 64 (F64.magnitude a)

def fNaN : F64 := 0x7ff8000000000000

def fInfinity : F64 := 0x7ff0000000000000

def fNegInfinity : F64 := 0xfff0000000000000

/-! ## Series -/

/-- Source: `promql.rs` `FloatSample` -/
structure FloatSample where
  timestampNs : ℤ
  value : F64
  deriving DecidableEq

/-- Source: `promql.rs` `PromSeries` -/
structure PromSeries where
  labels : LabelSet
  samples : List FloatSample
  deriving DecidableEq

/-- Source: `promql.rs` `HistogramPoint` -/
structure HistogramPoint where
  timestampNs : ℤ
  explicitBounds : List F64
  bucketCounts : List ℕ
  deriving DecidableEq

/-- Source: `promql.rs` `PromHistogramSeries` -/
structure PromHistogramSeries where
  labels : LabelSet
  points : List HistogramPoint

/-- The order of label sets. Source: `common.rs` `LabelSet`, its `Ord` -/
def labelLe (a b : LabelSet) : Prop :=
  (a.map toLex : List (Text ×ₗ Text)) ≤ (b.map toLex : List (Text ×ₗ Text))

instance : DecidableRel labelLe := fun a b =>
  inferInstanceAs (Decidable ((a.map toLex : List (Text ×ₗ Text)) ≤ (b.map toLex : List (Text ×ₗ Text))))

/-- Source: `common.rs` `LabelSet::get` -/
def LabelSet.get (labels : LabelSet) (name : Text) : Option Text :=
  (labels.find? fun kv => kv.1 = name).map Prod.snd

/-- Source: `common.rs` `LabelSet::by` -/
def LabelSet.by (labels : LabelSet) (names : List Text) : LabelSet :=
  labels.filter fun kv => kv.1 ≠ "__name__".toList ∧ kv.1 ∈ names

/-- Source: `common.rs` `LabelSet::without` -/
def LabelSet.without (labels : LabelSet) (names : List Text) : LabelSet :=
  labels.filter fun kv => kv.1 ≠ "__name__".toList ∧ kv.1 ∉ names

/-- Source: `promql.rs` `Grouping` -/
inductive Grouping
  | by (names : List Text)
  | without (names : List Text)

def Grouping.apply (labels : LabelSet) : Grouping → LabelSet
  | .by names => labels.by names
  | .without names => labels.without names

/-- The values that are pushed for each label set, in the order of the label sets.
Source: `BTreeMap<LabelSet, Vec<_>>` -/
def groupByLabels {α : Type} (pushed : List (LabelSet × α)) : List (LabelSet × List α) :=
  ((pushed.map Prod.fst).dedup.insertionSort labelLe).map fun labels =>
    (labels, (pushed.filter fun p => p.1 = labels).map Prod.snd)

/-- The results of a fallible loop, up to its first error. -/
def flatMapM {α β : Type} (f : α → Except SemanticError (List β)) : List α → Except SemanticError (List β)
  | [] => return []
  | a :: l => do
      let here ← f a
      let rest ← flatMapM f l
      return here ++ rest

section

variable {α β γ : Type} {f : α → Except SemanticError (List β)}

theorem flatMapM_map {g : γ → Except SemanticError (List β)} {h : α → γ} {l : List α}
    (heq : ∀ a ∈ l, f a = g (h a)) : flatMapM f l = flatMapM g (l.map h) := by
  induction l with
  | nil => rfl
  | cons a l ih =>
    rw [map_cons, flatMapM, flatMapM, heq a mem_cons_self,
      ih fun b hb => heq b (mem_cons_of_mem _ hb)]

theorem flatMapM_congr {g : α → Except SemanticError (List β)} {l : List α}
    (heq : ∀ a ∈ l, f a = g a) : flatMapM f l = flatMapM g l := by
  rw [flatMapM_map (h := id) heq, map_id]

/-- Elements that give nothing may be left out. -/
theorem flatMapM_filter {p : α → Bool} {l : List α} (hout : ∀ a ∈ l, p a = false → f a = .ok []) :
    flatMapM f (l.filter p) = flatMapM f l := by
  induction l with
  | nil => rfl
  | cons a l ih =>
    have hrest := ih fun b hb => hout b (mem_cons_of_mem _ hb)
    by_cases hp : p a = true
    · rw [filter_cons_of_pos hp, flatMapM, flatMapM, hrest]
    · have hnone := hout a mem_cons_self (by simpa using hp)
      rw [filter_cons_of_neg hp, flatMapM, hrest, hnone]
      rcases flatMapM f l <;> rfl

end

/-! ## Ranges -/

/-- Source: `common.rs` `EvalRange` -/
structure EvalRange where
  startNs : ℤ
  endNs : ℤ
  stepNs : ℕ
  lookbackNs : ℕ

/-- The instants from `at` on, `points` at most. Source: `common.rs` `EvalRange::instants`, the loop -/
def instantsFrom (range : EvalRange) : ℕ → ℤ → Except SemanticError (List ℤ)
  | 0, _ => .error (.limitExceeded "evaluation points".toList)
  | points + 1, at' =>
      if at' = range.endNs then return [at']
      else
        let next := saturatingAdd at' (min range.stepNs (2 ^ 63 - 1))
        if next ≤ at' ∨ range.endNs < next then return [at']
        else do
          let rest ← instantsFrom range points next
          return at' :: rest

/-- Source: `common.rs` `EvalRange::instants` -/
def EvalRange.instants (range : EvalRange) (limits : EvalLimits) : Except SemanticError (List ℤ) :=
  if range.endNs < range.startNs ∨ range.stepNs = 0 then .error .invalidRange
  else instantsFrom range limits.maxEvaluationPoints range.startNs

/-- The instants lie in the range. -/
theorem mem_instantsFrom {range : EvalRange} {points : ℕ} {at' : ℤ} {out : List ℤ}
    (h : instantsFrom range points at' = .ok out) (hat : at' ≤ range.endNs) :
    ∀ t ∈ out, at' ≤ t ∧ t ≤ range.endNs := by
  induction points generalizing at' out with
  | zero => exact absurd h (by simp [instantsFrom])
  | succ points ih =>
    intro t ht
    unfold instantsFrom at h
    split at h
    · rw [← Except.ok.inj h, mem_singleton] at ht
      rw [ht]
      exact ⟨le_refl _, hat⟩
    · dsimp only at h
      split at h
      · rw [← Except.ok.inj h, mem_singleton] at ht
        rw [ht]
        exact ⟨le_refl _, hat⟩
      · rename_i hnext
        rw [not_or, not_le, not_lt] at hnext
        obtain ⟨rest, hrest, h⟩ := bind_eq_ok.mp h
        rw [← Except.ok.inj h] at ht
        rcases mem_cons.mp ht with rfl | ht
        · exact ⟨le_refl _, hat⟩
        · obtain ⟨hlow, hhigh⟩ := ih hrest hnext.2 t ht
          exact ⟨hnext.1.le.trans hlow, hhigh⟩

/-- The instants of a range are in it. -/
theorem mem_instants {range : EvalRange} {limits : EvalLimits} {out : List ℤ}
    (h : range.instants limits = .ok out) : ∀ t ∈ out, range.startNs ≤ t ∧ t ≤ range.endNs := by
  unfold EvalRange.instants at h
  split at h
  · exact absurd h (by simp)
  · rename_i hrange
    rw [not_or, not_lt] at hrange
    exact mem_instantsFrom h hrange.1

/-! ## Selectors -/

/-- Source: `promql.rs` `MatchOp` -/
inductive MatchOp
  | eq
  | ne
  | regex
  | notRegex
  deriving DecidableEq

/-- Source: `promql.rs` `LabelMatcher` -/
structure LabelMatcher where
  name : Text
  op : MatchOp
  value : Text
  deriving DecidableEq

/-- The pattern of a matcher, which is anchored. -/
def anchored (pattern : Text) : Text := "^(?:".toList ++ pattern ++ ")$".toList

section

variable (regex : Text → Option (Text → Bool))

/-- Source: `promql.rs` `LabelMatcher::matches` -/
def LabelMatcher.matches (m : LabelMatcher) (labels : LabelSet) : Except SemanticError Bool :=
  let actual := (labels.get m.name).getD []
  match m.op with
  | .eq => .ok (actual = m.value)
  | .ne => .ok (actual ≠ m.value)
  | .regex | .notRegex =>
      match regex (anchored m.value) with
      | none => .error (.malformed "invalid PromQL label regex".toList)
      | some isMatch => .ok (if m.op = .regex then isMatch actual else !isMatch actual)

/-- Source: `promql.rs` `selector_matches` -/
def selectorMatches (labels : LabelSet) : List LabelMatcher → Except SemanticError Bool
  | [] => return true
  | m :: matchers => do
      if ← m.matches regex labels then selectorMatches labels matchers else return false

/-- The last of the greatest timestamps. Source: `Iterator::max_by_key` -/
def latestSample (samples : List FloatSample) : Option FloatSample :=
  samples.foldl (fun best s =>
    match best with
    | none => some s
    | some b => if b.timestampNs ≤ s.timestampNs then some s else some b) none

/-- The timestamp is in the window that is open at its start. -/
def inWindow (start stop t : ℤ) : Bool := decide (start < t) && decide (t ≤ stop)

/-- Source: `promql.rs` `select_instant` -/
def selectInstant (matchers : List LabelMatcher) (at' : ℤ) (lookbackNs : ℕ) (series : List PromSeries) :
    Except SemanticError (List (LabelSet × FloatSample)) :=
  flatMapM (fun item => do
    if ← selectorMatches regex item.labels matchers then
      let inside := item.samples.filter fun s =>
        inWindow (saturatingSub at' lookbackNs) at' s.timestampNs
      return (latestSample inside).toList.map fun sample => (item.labels, sample)
    else return []) series

/-- Source: `promql.rs` `select_range` -/
def selectRange (series : PromSeries) (at' : ℤ) (windowNs : ℕ) : Except SemanticError (List FloatSample) :=
  if windowNs = 0 then .error .invalidRange
  else return series.samples.filter fun s => inWindow (saturatingSub at' windowNs) at' s.timestampNs

/-! ## Rates -/

variable (arith : Arith)

/-- Source: `promql.rs` `seconds` -/
def seconds (ns : ℤ) : F64 := arith.div (intAsF64 (wrapI64 ns)) (natAsF64 1000000000)

/-- The increase over the samples after the first, each reset adding what was there before it.
Source: `promql.rs` `extrapolated_rate` -/
def increaseFrom (increase previous : F64) : List FloatSample → F64
  | [] => increase
  | s :: samples =>
      increaseFrom (if fLt s.value previous then arith.add increase previous else increase) s.value samples

/-- The timestamps are strictly increasing. -/
def strictlyOrdered : List ℤ → Bool
  | a :: b :: l => decide (a < b) && strictlyOrdered (b :: l)
  | _ => true

/-- Source: `promql.rs` `extrapolated_rate` -/
def extrapolatedRate (samples : List FloatSample) (rangeStartNs rangeEndNs : ℤ) :
    Except SemanticError (Option F64) :=
  if rangeEndNs ≤ rangeStartNs then .error .invalidRange
  else
    match samples with
    | [] => .ok none
    | [_] => .ok none
    | first :: second :: rest =>
        let last := (second :: rest).getLast (cons_ne_nil _ _)
        if strictlyOrdered (samples.map FloatSample.timestampNs) = false then
          .error (.malformed "counter samples are not strictly ordered".toList)
        else if first.timestampNs ≤ rangeStartNs ∨ rangeEndNs < last.timestampNs then
          .error (.malformed "counter sample is outside the selected range".toList)
        else
          let increase :=
            increaseFrom arith (arith.sub last.value first.value) first.value (second :: rest)
          let sampledInterval := seconds arith (last.timestampNs - first.timestampNs)
          if fLe sampledInterval 0 then .ok none
          else
            let averageInterval := arith.div sampledInterval (natAsF64 (samples.length - 1))
            let threshold := arith.mul averageInterval 0x3ff199999999999a
            let toStart := seconds arith (first.timestampNs - rangeStartNs)
            let toEnd := seconds arith (rangeEndNs - last.timestampNs)
            let toZero := arith.mul sampledInterval (arith.div first.value increase)
            let toStart :=
              if fLt 0 increase && fLe 0 first.value && fLt toZero toStart then toZero else toStart
            let half := arith.div averageInterval (natAsF64 2)
            let toStart := if fLe threshold toStart then half else toStart
            let toEnd := if fLe threshold toEnd then half else toEnd
            let rangeSeconds := seconds arith (rangeEndNs - rangeStartNs)
            let factor := arith.div (arith.div (arith.add (arith.add sampledInterval toStart) toEnd)
              sampledInterval) rangeSeconds
            .ok (some (arith.mul increase factor))

/-! ## Aggregates -/

/-- Source: `promql.rs` `PromAggregate` -/
inductive PromAggregate
  | sum
  | avg
  | min
  | max
  | count
  deriving DecidableEq

/-- Source: `promql.rs` `aggregate_instant`, the value that a group starts with -/
def PromAggregate.start : PromAggregate → F64
  | .min => fInfinity
  | .max => fNegInfinity
  | _ => 0

/-- Source: `promql.rs` `aggregate_instant`, the step -/
def PromAggregate.step (op : PromAggregate) (acc value : F64) : F64 :=
  match op with
  | .sum | .avg => arith.add acc value
  | .min => arith.min acc value
  | .max => arith.max acc value
  | .count => arith.add acc (natAsF64 1)

/-- Source: `promql.rs` `aggregate_instant` -/
def aggregateInstant (input : List (LabelSet × F64)) (op : PromAggregate) (grouping : Grouping) :
    List (LabelSet × F64) :=
  (groupByLabels (input.map fun lv => (grouping.apply lv.1, lv.2))).map fun group =>
    let value := group.2.foldl (op.step arith) op.start
    (group.1, if op = .avg then arith.div value (natAsF64 group.2.length) else value)

/-! ## Quantiles -/

/-- Source: `promql.rs` `ClassicHistogramBucket` -/
structure ClassicHistogramBucket where
  upperBound : F64
  cumulativeCount : F64

/-- Source: `common.rs` `Annotation` -/
structure Annotation where
  code : Text
  message : Text

/-- Source: `promql.rs` `HistogramQuantileResult` -/
structure HistogramQuantileResult where
  value : F64
  annotations : List Annotation

/-- Source: `promql.rs` `classic_histogram_quantile`, the check of a bucket -/
def ClassicHistogramBucket.valid (b : ClassicHistogramBucket) : Bool :=
  !(F64.isNaN b.upperBound || F64.isNaN b.cumulativeCount || fLt b.cumulativeCount 0)

/-- The buckets after `previous`, one for each upper bound. -/
def coalesceFrom (previous : ClassicHistogramBucket) :
    List ClassicHistogramBucket → Except SemanticError (List ClassicHistogramBucket)
  | [] => .ok [previous]
  | b :: l =>
      if b.valid = false then .error (.malformed "invalid classic histogram bucket".toList)
      else if F64.eq previous.upperBound b.upperBound then
        coalesceFrom
          { previous with cumulativeCount := arith.add previous.cumulativeCount b.cumulativeCount } l
      else do
        let rest ← coalesceFrom b l
        return previous :: rest

/-- Source: `promql.rs` `classic_histogram_quantile`, the buckets of one upper bound put together -/
def coalesce : List ClassicHistogramBucket → Except SemanticError (List ClassicHistogramBucket)
  | [] => .ok []
  | b :: l =>
      if b.valid = false then .error (.malformed "invalid classic histogram bucket".toList)
      else coalesceFrom arith b l

/-- The counts after `previous` with each decrease repaired, and whether one was above the tolerance.
Source: `promql.rs` `classic_histogram_quantile` -/
def repairFrom (previous : F64) : List ClassicHistogramBucket → List ClassicHistogramBucket × Bool
  | [] => ([], false)
  | b :: l =>
      if fLe previous b.cumulativeCount then
        let (rest, forced) := repairFrom b.cumulativeCount l
        (b :: rest, forced)
      else
        let difference := arith.sub previous b.cumulativeCount
        let scale := arith.add (fAbs previous) (fAbs b.cumulativeCount)
        -- The tolerance is 1e-12.
        let beyond := fLt (arith.mul 0x3d719799812dea11 scale) difference
        let (rest, forced) := repairFrom previous l
        ({ b with cumulativeCount := previous } :: rest, beyond || forced)

/-- Source: `promql.rs` `classic_histogram_quantile`, the interpolation in the bucket of the rank -/
def quantileIn (phi : F64) (buckets : List ClassicHistogramBucket) (observations : F64) : F64 :=
  let rank := arith.mul phi observations
  let index := (buckets.findIdx? fun b => fLe rank b.cumulativeCount).getD (buckets.length - 1)
  let before := buckets[index - 1]?
  if index = buckets.length - 1 then (before.map ClassicHistogramBucket.upperBound).getD fNaN
  else
    match buckets[index]? with
    | none => fNaN
    | some bucket =>
        if index = 0 && fLe bucket.upperBound 0 then bucket.upperBound
        else
          let lower := if index = 0 then 0 else (before.map ClassicHistogramBucket.upperBound).getD 0
          let count := if index = 0 then 0 else (before.map ClassicHistogramBucket.cumulativeCount).getD 0
          let bucketCount := arith.sub bucket.cumulativeCount count
          let withinBucket := arith.sub rank count
          if F64.eq bucketCount 0 then lower
          else arith.add lower
            (arith.mul (arith.sub bucket.upperBound lower) (arith.div withinBucket bucketCount))

/-- Source: `promql.rs` `classic_histogram_quantile` -/
def classicHistogramQuantile (phi : F64) (buckets : List ClassicHistogramBucket) :
    Except SemanticError HistogramQuantileResult :=
  if F64.isNaN phi then return ⟨fNaN, []⟩
  else if fLt phi 0 then return ⟨fNegInfinity, []⟩
  else if fLt (natAsF64 1) phi then return ⟨fInfinity, []⟩
  else do
    let sorted := buckets.insertionSort fun l r => F64.rank l.upperBound ≤ F64.rank r.upperBound
    match ← coalesce arith sorted with
    | first :: second :: rest =>
        let last := (second :: rest).getLast (cons_ne_nil _ _)
        if F64.eq last.upperBound fInfinity = false then return ⟨fNaN, []⟩
        else
          let (repaired, forced) := repairFrom arith first.cumulativeCount (second :: rest)
          let observations :=
            ((repaired.getLast?).map ClassicHistogramBucket.cumulativeCount).getD first.cumulativeCount
          let annotations := if forced then
            [⟨"promql_histogram_monotonicity_repaired".toList,
              "input to histogram_quantile required monotonicity repair".toList⟩] else []
          if F64.eq observations 0 then return ⟨fNaN, annotations⟩
          else return ⟨quantileIn arith phi (first :: repaired) observations, annotations⟩
    | _ => return ⟨fNaN, []⟩

/-- The sum of counts, of which each is a `u64`. -/
def saturatingSum (counts : List ℕ) : ℕ := counts.foldl (fun a b => min (a + b) (2 ^ 64 - 1)) 0

/-- `a == b` of slices -/
def sliceEq (a b : List F64) : Bool :=
  decide (a.length = b.length) && (a.zip b).all fun xy => F64.eq xy.1 xy.2

/-- A rate is added to the bucket of its upper bound. -/
def addRate (buckets : List ClassicHistogramBucket) (upper rate : F64) : List ClassicHistogramBucket :=
  match buckets with
  | [] => [⟨upper, rate⟩]
  | b :: l =>
      if F64.eq b.upperBound upper then ⟨b.upperBound, arith.add b.cumulativeCount rate⟩ :: l
      else b :: addRate l upper rate

/-- The rates of the buckets of one histogram, each with its upper bound.
Source: `promql.rs` `eval_histogram_quantiles`, the loop over the buckets -/
def bucketRates (bounds : List F64) (selected : List HistogramPoint) (start at' : ℤ) :
    Except SemanticError (List (F64 × F64)) :=
  flatMapM (fun index => do
    let samples := selected.map fun point =>
      FloatSample.mk point.timestampNs (natAsF64 (saturatingSum (point.bucketCounts.take (index + 1))))
    let rate ← extrapolatedRate arith samples start at'
    return rate.toList.map fun rate => ((bounds[index]?).getD fInfinity, rate))
    (List.range (bounds.length + 1))

/-- Source: `promql.rs` `eval_histogram_quantiles`, the step for one histogram -/
def histogramRates (matchers : List LabelMatcher) (windowNs : ℕ) (grouping : Grouping) (at' : ℤ)
    (histogram : PromHistogramSeries) : Except SemanticError (List (LabelSet × List (F64 × F64))) := do
  let start := saturatingSub at' windowNs
  if ← selectorMatches regex histogram.labels matchers then
    let selected := histogram.points.filter fun p => inWindow start at' p.timestampNs
    match selected with
    | first :: _ :: _ =>
        if strictlyOrdered (selected.map HistogramPoint.timestampNs) = false then
          throw (.malformed "histogram points are not strictly ordered".toList)
        else if selected.any (fun p => !sliceEq p.explicitBounds first.explicitBounds ||
            p.bucketCounts.length ≠ first.explicitBounds.length + 1) then
          throw (.incompatible "histogram bucket boundaries changed within a range".toList)
        else
          let rates ← bucketRates arith first.explicitBounds selected start at'
          return [(grouping.apply histogram.labels, rates)]
    | _ => return []
  else return []

/-- The series, if they are within the limits. Source: `promql.rs` `bounded_series` -/
def boundedSeries (pushed : List (LabelSet × FloatSample)) (limits : EvalLimits) :
    Except SemanticError (List PromSeries) :=
  let groups := groupByLabels pushed
  if limits.maxSeries < groups.length then .error (.limitExceeded "PromQL series".toList)
  else if limits.maxSamples < (groups.map fun g => g.2.length).sum then
    .error (.limitExceeded "PromQL samples".toList)
  else return groups.map fun g => ⟨g.1, g.2⟩

/-- Source: `promql.rs` `eval_histogram_quantiles` -/
def evalHistogramQuantiles (histograms : List PromHistogramSeries) (matchers : List LabelMatcher)
    (windowNs : ℕ) (phi : F64) (grouping : Grouping) (instants : List ℤ) (limits : EvalLimits) :
    Except SemanticError (List PromSeries) :=
  if windowNs = 0 then .error .invalidRange
  else do
    let pushed ← flatMapM (fun at' => do
      let rates ← flatMapM (histogramRates regex arith matchers windowNs grouping at') histograms
      flatMapM (fun group => do
        let buckets := group.2.flatten.foldl (fun acc ur => addRate arith acc ur.1 ur.2) []
        let result ← classicHistogramQuantile arith phi buckets
        return [(group.1, FloatSample.mk at' result.value)]) (groupByLabels rates)) instants
    boundedSeries pushed limits

/-! ## Expressions -/

/-- Source: `promql.rs` `PromExpr` -/
inductive PromExpr
  | selector (matchers : List LabelMatcher)
  | rate (matchers : List LabelMatcher) (windowNs : ℕ)
  | histogramQuantile (phi : F64) (matchers : List LabelMatcher) (windowNs : ℕ) (grouping : Grouping)
  | aggregate (op : PromAggregate) (grouping : Grouping) (input : PromExpr)

/-- The rate of one series at an instant. Source: `promql.rs` `eval_prom_at`, at a rate -/
def rateAt (matchers : List LabelMatcher) (windowNs : ℕ) (at' : ℤ) (item : PromSeries) :
    Except SemanticError (List (LabelSet × FloatSample)) := do
  if ← selectorMatches regex item.labels matchers then
    let selected ← selectRange item at' windowNs
    let value ← extrapolatedRate arith selected (saturatingSub at' windowNs) at'
    return value.toList.map fun value => (item.labels.without [], FloatSample.mk at' value)
  else return []

/-- Source: `promql.rs` `eval_prom_at` -/
def evalPromAt (series : List PromSeries) (histograms : List PromHistogramSeries) (instants : List ℤ)
    (lookbackNs : ℕ) (limits : EvalLimits) (depth : ℕ) (expr : PromExpr) :
    Except SemanticError (List PromSeries) :=
  if limits.maxRecursion ≤ depth then .error (.limitExceeded "PromQL expression recursion".toList)
  else
    match expr with
    | .selector matchers => do
        let pushed ← flatMapM (fun at' => do
          let found ← selectInstant regex matchers at' lookbackNs series
          return found.map fun ls => (ls.1, FloatSample.mk at' ls.2.value)) instants
        boundedSeries pushed limits
    | .rate matchers windowNs => do
        let pushed ← flatMapM
          (fun at' => flatMapM (rateAt regex arith matchers windowNs at') series) instants
        boundedSeries pushed limits
    | .histogramQuantile phi matchers windowNs grouping =>
        evalHistogramQuantiles regex arith histograms matchers windowNs phi grouping instants limits
    | .aggregate op grouping input => do
        let input ← evalPromAt series histograms instants lookbackNs limits (depth + 1) input
        let pushed := instants.flatMap fun at' =>
          let vector := input.filterMap fun item =>
            (item.samples.find? fun s => s.timestampNs = at').map fun s => (item.labels, s.value)
          (aggregateInstant arith vector op grouping).map fun lv => (lv.1, FloatSample.mk at' lv.2)
        boundedSeries pushed limits

/-- Source: `promql.rs` `eval_prom_with_histograms_reference` -/
def evalPromReference (expr : PromExpr) (series : List PromSeries)
    (histograms : List PromHistogramSeries) (range : EvalRange) (limits : EvalLimits) :
    Except SemanticError (List PromSeries) := do
  let instants ← range.instants limits
  evalPromAt regex arith series histograms instants range.lookbackNs limits 0 expr

end

end Imbh.Lgtm
