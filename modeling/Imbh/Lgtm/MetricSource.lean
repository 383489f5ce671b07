import Imbh.Lgtm.PromExecute

/-!
# Metric points as PromQL series

A stored point becomes a sample of the series of its service, its metric and its string attributes. The
native range query tells points apart by all that identifies them.

* `series_by_identity` — points are in one series, if and only if these three are the same; where the last
  wins, a point is replaced only within its series, and what is left the native range query keeps as well.
-/

namespace Imbh.Lgtm

open Lib Imbh.Core Storage Ingest List Option

/-- A row of a scalar metric table, with what a read of points or of a range uses. -/
structure MetricPoint where
  table : Table
  time : ℤ
  metric : Text
  service : Option Text
  resource : Text
  scope : Text
  attributes : Text
  temporality : Option Text
  isMonotonic : Option Bool
  value : F64
  deriving DecidableEq

/-! ## Series of the source -/

/-- The string at a value. -/
def stringPair (kv : Text × AnyValue) : Option (Text × Text) := kv.2.asStr.map fun s => (kv.1, s)

section

variable (reader : JsonReader)

/-- Source: `source.rs` `metric_labels_from_batch` -/
def labelPairs (p : MetricPoint) : List (Text × Text) :=
  (p.service.toList.map fun s => ("service".toList, s)) ++ [("__name__".toList, p.metric)] ++
    match parse reader p.attributes with
    | some (.map fields) => fields.filterMap stringPair
    | _ => []

/-- Source: `source.rs` `metric_labels_from_batch` -/
def metricLabels (p : MetricPoint) : LabelSet := .new (labelPairs reader p)

/-- Source: `source.rs` `is_cumulative` -/
def isCumulative (p : MetricPoint) : Bool :=
  match p.temporality with
  | some t => t.map Char.toLower = "cumulative".toList
  | none => false

/-- The sample of a point. -/
def MetricPoint.sample (p : MetricPoint) : FloatSample := ⟨p.time, p.value⟩

/-- The points pushed after what was pushed. Source: `source.rs` `scalar_series`, the loops -/
def pushPoints (request : PromFetchRequest) :
    List MetricPoint → List (LabelSet × FloatSample) → Except SemanticError (List (LabelSet × FloatSample))
  | [], pushed => return pushed
  | p :: points, pushed =>
      if request.purpose = .cumulativeCounterRate ∧ (isCumulative p = false ∨ p.isMonotonic ≠ some true) then
        .error (.incompatible "rate requires a cumulative monotonic sum".toList)
      else
        let labels := metricLabels reader p
        let known := (pushed.map Prod.fst).dedup
        if labels ∉ known ∧ request.maxSeries ≤ known.length then
          .error (.limitExceeded "PromQL source series".toList)
        else pushPoints request points (pushed ++ [(labels, p.sample)])

/-- Source: `source.rs` `scalar_series` -/
def scalarSeries (request : PromFetchRequest) (duplicates : Duplicates) (batches : List (List MetricPoint)) :
    Except SemanticError (List PromSeries) := do
  let pushed ← pushPoints reader request batches.flatten []
  return (groupByLabels pushed).map fun group => ⟨group.1,
    if collapsesAtRead duplicates then collapseDuplicateSamples group.2
    else group.2.insertionSort fun a b => a.timestampNs ≤ b.timestampNs⟩

/-- The source over the stored points, where `points` has the batches that the point queries of a request
return. Source: `source.rs` `MetricsApi`, its `PromSeriesSource` -/
def metricsSource (points : PromFetchRequest → Except Text (List (List MetricPoint)))
    (histograms : PromFetchRequest → Except SemanticError (List PromHistogramSeries))
    (duplicates : Duplicates) : PromSeriesSource where
  fetch request :=
    match points request with
    | .error e => .error (.source e)
    | .ok batches =>
        if request.maxSamples < batches.flatten.length then
          .error (.limitExceeded "PromQL source samples".toList)
        else scalarSeries reader request duplicates batches
  fetchHistograms := histograms

end

/-! ## The native range query -/

/-- What makes two rows of a table the same point. Source: `metrics.rs` `DUP_PARTITION_KEYS` -/
def SamePoint (p q : MetricPoint) : Prop :=
  p.table = q.table ∧ p.time = q.time ∧ p.metric = q.metric ∧ p.service = q.service ∧
    p.resource = q.resource ∧ p.scope = q.scope ∧ p.attributes = q.attributes

instance : DecidableRel SamePoint := fun p q => by
  unfold SamePoint
  infer_instance

/-- Source: `metrics.rs` `DUP_VALUE_ORDER` -/
def dupValueOrder (p q : MetricPoint) : Ordering :=
  (compare (F64.isNaN p.value) (F64.isNaN q.value)).then (F64.totalCmp q.value p.value)

/-- The row of the first rank among those that are the same point. Source: `metrics.rs` `range_sql` -/
def firstRank (points : List MetricPoint) (p : MetricPoint) : Option MetricPoint :=
  ((points.filter fun q => SamePoint q p).insertionSort fun a b => (dupValueOrder a b).isLE).head?

/-- The rows that the range query keeps of those it scans, where duplicates are collapsed.
Source: `metrics.rs` `range_sql` -/
def rangeKept (points : List MetricPoint) : List MetricPoint :=
  (points.filterMap fun p => firstRank points p).dedup

/-! ## Identity -/

section

variable {reader : JsonReader} {points : List MetricPoint} {p : MetricPoint} {request : PromFetchRequest}
  {rows : List (LabelSet × FloatSample)} {group : LabelSet × List FloatSample} {batches : List (List MetricPoint)}

/-- The string members of the attributes as stored. -/
def storedStrings (reader : JsonReader) (p : MetricPoint) : List (Text × Text) :=
  match reader.document p.attributes with
  | some (.map ms) => ms.filterMap fun m => stringPair (m.1, ofJson m.2)
  | _ => []

/-- A string attribute. -/
def stringAttribute (reader : JsonReader) (p : MetricPoint) (key : Text) : Option Text :=
  lastValue (storedStrings reader p) key

/-- The points have one metric, one service and the same string attributes. -/
def SameSeries (reader : JsonReader) (p q : MetricPoint) : Prop :=
  p.metric = q.metric ∧ p.service = q.service ∧
    ∀ key, stringAttribute reader p key = stringAttribute reader q key

/-- The attributes are no sentinel, and none is named as the service or the metric. -/
def PlainPoint (reader : JsonReader) (p : MetricPoint) : Prop :=
  (∀ ms, reader.document p.attributes = some (.map ms) → sentinelOf (ofJsonMembers ms) = none) ∧
    ∀ kv ∈ storedStrings reader p, kv.1 ≠ "service".toList ∧ kv.1 ≠ "__name__".toList

/-- The attributes of a plain point are read as its strings. -/
theorem parsedStrings_eq (h : PlainPoint reader p) :
    (match parse reader p.attributes with
      | some (.map fields) => fields.filterMap stringPair
      | _ => []) = storedStrings reader p := by
  unfold storedStrings parse
  rcases hdoc : reader.document p.attributes with _ | j
  · rfl
  · rcases j with _ | _ | _ | v | _ | _ | _ | ms
    · rfl
    · rfl
    · rfl
    · rw [map_some, ofJson]
      split
      · rename_i heq
        split at heq <;> exact absurd heq (by simp)
      · rfl
    · rfl
    · rfl
    · rfl
    · rw [map_some, ofJson, sentinelOrMap, h.1 ms hdoc]
      dsimp only
      rw [ofJsonMembers_eq, filterMap_map]
      rfl

/-- No string attribute is named as the service or the metric. -/
theorem stringAttribute_reserved (h : PlainPoint reader p) {key : Text}
    (hkey : key = "service".toList ∨ key = "__name__".toList) : stringAttribute reader p key = none := by
  by_contra hne
  obtain ⟨kv, hkv, rfl⟩ := mem_map.mp (lastValue_ne_none.mp hne)
  rcases hkey with hkey | hkey
  · exact (h.2 kv hkv).1 hkey
  · exact (h.2 kv hkv).2 hkey

/-- The value of a label. -/
theorem lastValue_labelPairs (h : PlainPoint reader p) (key : Text) :
    lastValue (labelPairs reader p) key =
      if key = "service".toList then p.service
      else if key = "__name__".toList then some p.metric else stringAttribute reader p key := by
  unfold labelPairs
  rw [parsedStrings_eq h, lastValue_append, lastValue_append, ← stringAttribute]
  by_cases hservice : key = "service".toList
  · rw [if_pos hservice, stringAttribute_reserved h (.inl hservice), hservice]
    rcases p.service with _ | s <;> rfl
  · rw [if_neg hservice]
    by_cases hname : key = "__name__".toList
    · rw [if_pos hname, stringAttribute_reserved h (.inr hname), hname]
      rfl
    · rw [if_neg hname]
      have hhead : lastValue [("__name__".toList, p.metric)] key = none := by
        by_contra hne
        obtain ⟨kv, hkv, rfl⟩ := mem_map.mp (lastValue_ne_none.mp hne)
        exact hname (congrArg Prod.fst (mem_singleton.mp hkv))
      have hfirst : lastValue (p.service.toList.map fun s => ("service".toList, s)) key = none := by
        by_contra hne
        obtain ⟨kv, hkv, rfl⟩ := mem_map.mp (lastValue_ne_none.mp hne)
        obtain ⟨s, _, rfl⟩ := mem_map.mp hkv
        exact hservice rfl
      rw [hhead, hfirst]
      rcases stringAttribute reader p key <;> rfl

/-- Points have one label set, if and only if they are of one series. -/
theorem metricLabels_eq_iff {q : MetricPoint} (hp : PlainPoint reader p) (hq : PlainPoint reader q) :
    metricLabels reader p = metricLabels reader q ↔ SameSeries reader p q := by
  unfold metricLabels LabelSet.new
  rw [ofPairs_eq_iff]
  simp only [lastValue_labelPairs hp, lastValue_labelPairs hq]
  constructor
  · intro h
    refine ⟨?_, ?_, ?_⟩
    · have hname := h "__name__".toList
      rw [if_neg (by decide), if_pos rfl, if_neg (by decide), if_pos rfl] at hname
      exact some.inj hname
    · have hservice := h "service".toList
      rwa [if_pos rfl, if_pos rfl] at hservice
    · intro key
      have hkey := h key
      by_cases hservice : key = "service".toList
      · rw [stringAttribute_reserved hp (.inl hservice), stringAttribute_reserved hq (.inl hservice)]
      · by_cases hname : key = "__name__".toList
        · rw [stringAttribute_reserved hp (.inr hname), stringAttribute_reserved hq (.inr hname)]
        · rwa [if_neg hservice, if_neg hname, if_neg hservice, if_neg hname] at hkey
  · rintro ⟨hmetric, hservice, hstrings⟩ key
    rw [hmetric, hservice, hstrings]

/-! ## What is pushed -/

/-- The row of a point. -/
def pointRow (reader : JsonReader) (p : MetricPoint) : LabelSet × FloatSample := (metricLabels reader p, p.sample)

/-- Each point becomes a row behind those before it. -/
theorem pushPoints_ok {pushed out : List (LabelSet × FloatSample)}
    (h : pushPoints reader request points pushed = .ok out) : out = pushed ++ points.map (pointRow reader) := by
  induction points generalizing pushed with
  | nil => rw [map_nil, append_nil, Except.ok.inj h]
  | cons p points ih =>
    unfold pushPoints at h
    split at h
    · exact absurd h (by simp)
    · dsimp only at h
      split at h
      · exact absurd h (by simp)
      · rw [ih h, map_cons, append_assoc]
        rfl

/-- The series of the source, where duplicates are collapsed or only sorted. -/
theorem scalarSeries_ok {duplicates : Duplicates} {series : List PromSeries}
    (h : scalarSeries reader request duplicates batches = .ok series) :
    series = (groupByLabels (batches.flatten.map (pointRow reader))).map fun group => ⟨group.1,
      if collapsesAtRead duplicates then collapseDuplicateSamples group.2
      else group.2.insertionSort fun a b => a.timestampNs ≤ b.timestampNs⟩ := by
  obtain ⟨pushed, hpushed, h⟩ := bind_eq_ok.mp h
  rw [← Except.ok.inj h, pushPoints_ok hpushed, nil_append]

/-- The samples of a group are those of its points. -/
theorem mem_group (h : group ∈ groupByLabels (points.map (pointRow reader))) (x : FloatSample) :
    x ∈ group.2 ↔ ∃ p ∈ points, metricLabels reader p = group.1 ∧ x = p.sample := by
  rw [mem_groupByLabels h, List.mem_map]
  constructor
  · rintro ⟨row, hrow, rfl⟩
    obtain ⟨hrow, hlabels⟩ := List.mem_filter.mp hrow
    obtain ⟨p, hp, rfl⟩ := List.mem_map.mp hrow
    exact ⟨p, hp, of_decide_eq_true hlabels, rfl⟩
  · rintro ⟨p, hp, hlabels, rfl⟩
    exact ⟨pointRow reader p,
      List.mem_filter.mpr ⟨List.mem_map_of_mem hp, decide_eq_true hlabels⟩, rfl⟩

theorem exists_group (hp : p ∈ points) :
    ∃ group ∈ groupByLabels (points.map (pointRow reader)), group.1 = metricLabels reader p := by
  refine ⟨_, mem_map.mpr ⟨metricLabels reader p, ?_, rfl⟩, rfl⟩
  rw [mem_insertionSort, mem_dedup]
  exact mem_map.mpr ⟨pointRow reader p, mem_map_of_mem hp, rfl⟩

/-! ## What is kept -/

theorem dupValueOrder_eq (p q : MetricPoint) : dupValueOrder p q = duplicateValueCmp q.value p.value := by
  unfold dupValueOrder duplicateValueCmp
  rw [← Std.OrientedOrd.eq_swap]

instance : Std.TransCmp dupValueOrder := by
  have hvalue : Std.TransCmp fun p q : MetricPoint => duplicateValueCmp p.value q.value :=
    transCmp_on duplicateValueCmp MetricPoint.value
  have hback : Std.TransCmp fun p q : MetricPoint => duplicateValueCmp q.value p.value :=
    Std.TransCmp.opposite
  have heq : dupValueOrder = fun p q : MetricPoint => duplicateValueCmp q.value p.value := by
    funext p q
    exact dupValueOrder_eq p q
  rw [heq]
  exact hback

/-- The first rank is that of a greatest value. -/
theorem exists_kept (hp : p ∈ points) :
    ∃ q ∈ rangeKept points, q ∈ points ∧ SamePoint q p ∧ (dupValueOrder q p).isLE = true := by
  have htotal : Std.Total fun a b : MetricPoint => (dupValueOrder a b).isLE = true := by
    constructor
    intro a b
    have hswap : dupValueOrder b a = (dupValueOrder a b).swap := Std.OrientedCmp.eq_swap
    rw [hswap]
    rcases dupValueOrder a b <;> simp
  have htrans : IsTrans MetricPoint fun a b => (dupValueOrder a b).isLE = true :=
    ⟨fun _ _ _ => Std.TransCmp.isLE_trans⟩
  have hsorted := pairwise_insertionSort (fun a b => (dupValueOrder a b).isLE = true)
    (points.filter fun q => SamePoint q p)
  have hmem : ∀ q, q ∈ (points.filter fun q => SamePoint q p).insertionSort
      (fun a b => (dupValueOrder a b).isLE = true) ↔ q ∈ points ∧ SamePoint q p := by
    intro q
    rw [mem_insertionSort, mem_filter, decide_eq_true_eq]
  rcases hl : (points.filter fun q => SamePoint q p).insertionSort
      (fun a b => (dupValueOrder a b).isLE = true) with _ | ⟨q, rest⟩
  · rw [hl] at hmem
    exact absurd ((hmem p).mpr ⟨hp, rfl, rfl, rfl, rfl, rfl, rfl, rfl⟩) not_mem_nil
  · rw [hl] at hmem hsorted
    obtain ⟨hq, hsame⟩ := (hmem q).mp mem_cons_self
    refine ⟨q, ?_, hq, hsame, ?_⟩
    · refine mem_dedup.mpr (mem_filterMap.mpr ⟨p, hp, ?_⟩)
      rw [firstRank, hl]
      rfl
    · rcases mem_cons.mp ((hmem p).mpr ⟨hp, rfl, rfl, rfl, rfl, rfl, rfl, rfl⟩) with rfl | hrest
      · exact (htotal.total p p).elim id id
      · exact (pairwise_cons.mp hsorted).1 p hrest

/-- Where the last wins, what is left of a series the range query keeps. -/
theorem kept_of_mem_collapse (h : group ∈ groupByLabels (points.map (pointRow reader))) {x : FloatSample}
    (hx : x ∈ collapseDuplicateSamples group.2) :
    ∃ q ∈ rangeKept points, metricLabels reader q = group.1 ∧ x = q.sample := by
  obtain ⟨hx, hleast⟩ := (mem_collapse sampleOrder).mp hx
  obtain ⟨p, hp, hlabels, rfl⟩ := (mem_group h x).mp hx
  obtain ⟨q, hkept, hq, hsame, hle⟩ := exists_kept hp
  obtain ⟨-, htime, hmetric, hservice, -, -, hattributes⟩ := hsame
  have hlabelsq : metricLabels reader q = group.1 := by
    rw [← hlabels, metricLabels, metricLabels, labelPairs, labelPairs, hservice, hmetric, hattributes]
  refine ⟨q, hkept, hlabelsq, ?_⟩
  have hforth := hleast q.sample ((mem_group h _).mpr ⟨q, hq, hlabelsq, rfl⟩) htime
  apply sampleOrder.antisymm _ _ hforth
  have htimes : q.sample.timestampNs = p.sample.timestampNs := htime
  rw [sampleCmp, htimes, Std.ReflOrd.compare_self, ← Std.OrientedCmp.eq_swap]
  rw [dupValueOrder_eq] at hle
  exact hle

/-! ## Instants that differ -/

/-- Rows of one label set are at different instants. -/
def RowsDistinct (rows : List (LabelSet × FloatSample)) : Prop :=
  rows.Pairwise fun a b => a.1 = b.1 → a.2.timestampNs ≠ b.2.timestampNs

theorem repeatedTime_nodup {times : List ℤ} (h : times.Nodup) : repeatedTime times = none := by
  induction times with
  | nil => rfl
  | cons a times ih =>
    obtain ⟨ha, hrest⟩ := nodup_cons.mp h
    rcases times with _ | ⟨b, times⟩
    · rfl
    · have hne : a ≠ b := by
        rintro rfl
        exact ha mem_cons_self
      rw [repeatedTime, if_neg hne, ih hrest]

/-- Samples at different instants are collapsed into themselves, sorted. -/
theorem collapse_of_distinct {samples : List FloatSample}
    (h : (samples.map FloatSample.timestampNs).Nodup) :
    collapseDuplicateSamples samples =
      samples.insertionSort fun a b => a.timestampNs ≤ b.timestampNs := by
  have hsorted : (samples.insertionSort fun a b => a.timestampNs ≤ b.timestampNs).Pairwise
      fun a b => a.timestampNs < b.timestampNs := by
    have htotal : Std.Total fun a b : FloatSample => a.timestampNs ≤ b.timestampNs :=
      ⟨fun a b => le_total a.timestampNs b.timestampNs⟩
    have htrans : IsTrans FloatSample fun a b => a.timestampNs ≤ b.timestampNs :=
      ⟨fun _ _ _ => le_trans⟩
    have hle := pairwise_insertionSort (fun a b : FloatSample => a.timestampNs ≤ b.timestampNs) samples
    have hne : (samples.insertionSort fun a b => a.timestampNs ≤ b.timestampNs).Pairwise
        fun a b => a.timestampNs ≠ b.timestampNs := by
      apply pairwise_map.mp
      exact ((perm_insertionSort _ samples).map FloatSample.timestampNs).nodup_iff.mpr h
    exact (hle.and hne).imp fun hab => lt_of_le_of_ne hab.1 hab.2
  rw [← collapse_of_pairwise sampleOrder hsorted]
  apply collapseDuplicateSamples_congr
  intro x
  rw [mem_insertionSort]

theorem group_distinct (h : RowsDistinct rows) (hgroup : group ∈ groupByLabels rows) :
    (group.2.map FloatSample.timestampNs).Nodup := by
  rw [mem_groupByLabels hgroup, List.map_map]
  apply List.pairwise_map.mpr
  apply List.Pairwise.imp_of_mem _ (h.filter _)
  intro a b ha hb hab
  apply hab
  rw [of_decide_eq_true (List.mem_filter.mp ha).2, of_decide_eq_true (List.mem_filter.mp hb).2]

/-- Where the instants differ, the policy does not matter. -/
theorem workingSet_distinct (h : RowsDistinct rows) (duplicates : Duplicates) (tooMany : Text) (limits : EvalLimits) :
    workingSet (resolveDuplicateSamples duplicates) tooMany limits rows =
      workingSet (resolveDuplicateSamples .lastWins) tooMany limits rows := by
  unfold workingSet
  dsimp only
  split
  · rfl
  · apply flatMapM_congr
    intro group hgroup
    have hdistinct := group_distinct h hgroup
    have hresolve : resolveDuplicateSamples duplicates group.1 group.2 =
        resolveDuplicateSamples .lastWins group.1 group.2 := by
      have hlast : resolveDuplicateSamples .lastWins group.1 group.2 =
          .ok (collapseDuplicateSamples group.2) := rfl
      rw [hlast, collapse_of_distinct hdistinct]
      unfold resolveDuplicateSamples resolveDuplicates
      split
      · rw [collapse_of_distinct hdistinct]
      · dsimp only
        rw [repeatedTime_nodup]
        exact ((perm_insertionSort _ group.2).map FloatSample.timestampNs).nodup_iff.mpr hdistinct
    rw [hresolve]

/-- The rows of the series of a source, where the instants of its points differ. -/
theorem scalarRows_distinct (h : RowsDistinct rows) :
    RowsDistinct (scalarRows ((groupByLabels rows).map fun group =>
      ⟨group.1, group.2.insertionSort fun a b => a.timestampNs ≤ b.timestampNs⟩)) := by
  unfold RowsDistinct scalarRows
  rw [flatMap_map]
  apply pairwise_flatMap.mpr
  constructor
  · intro group hgroup
    apply pairwise_map.mpr
    have hnodup := ((perm_insertionSort (fun a b : FloatSample => a.timestampNs ≤ b.timestampNs)
      group.2).map FloatSample.timestampNs).nodup_iff.mpr (group_distinct h hgroup)
    apply (pairwise_map.mp hnodup).imp
    intro a b hab _
    exact hab
  · apply (groupByLabels_nodup rows).imp
    intro a b hab x hx y hy heq
    obtain ⟨_, _, rfl⟩ := mem_map.mp hx
    obtain ⟨_, _, rfl⟩ := mem_map.mp hy
    exact absurd heq hab

/-- Points that share an instant are of different series. -/
def NoRepeats (reader : JsonReader) (points : List MetricPoint) : Prop :=
  points.Pairwise fun p q => p.time = q.time → ¬ SameSeries reader p q

theorem pointRows_distinct (hplain : ∀ p ∈ points, PlainPoint reader p) (h : NoRepeats reader points) :
    RowsDistinct (points.map (pointRow reader)) := by
  apply pairwise_map.mpr
  apply Pairwise.imp_of_mem _ h
  intro p q hp hq hpq hlabels htime
  exact hpq htime ((metricLabels_eq_iff (hplain p hp) (hplain q hq)).mp hlabels)

/-- The series of a source do not depend on the policy, where no series repeats an instant. -/
theorem scalarSeries_distinct (h : RowsDistinct (batches.flatten.map (pointRow reader))) (duplicates : Duplicates) :
    scalarSeries reader request duplicates batches = scalarSeries reader request .lastWins batches := by
  unfold scalarSeries
  rcases hpushed : pushPoints reader request batches.flatten [] with e | pushed
  · rfl
  · have hrows := pushPoints_ok hpushed
    rw [nil_append] at hrows
    have hmap : ∀ duplicates', (groupByLabels pushed).map (fun group => PromSeries.mk group.1
        (if collapsesAtRead duplicates' then collapseDuplicateSamples group.2
        else group.2.insertionSort fun a b => a.timestampNs ≤ b.timestampNs)) =
        (groupByLabels pushed).map fun group => PromSeries.mk group.1
          (group.2.insertionSort fun a b => a.timestampNs ≤ b.timestampNs) := by
      intro duplicates'
      apply map_congr_left
      intro group hgroup
      rw [collapse_of_distinct (group_distinct (hrows ▸ h) hgroup), ite_self]
    exact congrArg Except.ok ((hmap duplicates).trans (hmap .lastWins).symm)

section

variable {regex : Text → Option (Text → Bool)} {arith : Arith} {expr : PromExpr} {range : EvalRange}
  {limits : EvalLimits}

/-- Where no series repeats an instant, the default policy answers as if the last won. -/
theorem execute_distinct {points : PromFetchRequest → Except Text (List (List MetricPoint))}
    {histograms : PromFetchRequest → Except SemanticError (List PromHistogramSeries)}
    (hpoints : points request = .ok batches) (h : RowsDistinct (batches.flatten.map (pointRow reader)))
    (hplan : planPromFetch regex range limits expr = .ok [request])
    (hpurpose : request.purpose ≠ .cumulativeHistogramRate) (duplicates : Duplicates) :
    executePromWithDuplicates regex arith (metricsSource reader points histograms duplicates) expr range
        limits duplicates =
      executePromWithDuplicates regex arith (metricsSource reader points histograms .lastWins) expr range
        limits .lastWins := by
  have hfetch : (metricsSource reader points histograms duplicates).fetch request =
      (metricsSource reader points histograms .lastWins).fetch request := by
    unfold metricsSource
    dsimp only
    rw [hpoints]
    dsimp only
    rw [scalarSeries_distinct h duplicates]
  rw [execute_scalar hplan hpurpose, execute_scalar hplan hpurpose, hfetch]
  rcases hpack : (metricsSource reader points histograms .lastWins).fetch request with e | pack
  · rfl
  · have hdistinct : RowsDistinct (scalarRows pack) := by
      unfold metricsSource at hpack
      dsimp only at hpack
      rw [hpoints] at hpack
      dsimp only at hpack
      split at hpack
      · exact absurd hpack (by simp)
      · rw [← scalarSeries_distinct h .errorOnRead] at hpack
        rw [scalarSeries_ok hpack]
        exact scalarRows_distinct h
    have heval : ∀ rows : List (LabelSet × FloatSample), RowsDistinct rows →
        evalRows regex arith expr range limits duplicates rows [] =
          evalRows regex arith expr range limits .lastWins rows [] := by
      intro rows hrows
      unfold evalRows
      rw [workingSet_distinct hrows]
      rfl
    show (collectPacks FloatSample.timestampNs _ _ _ [(request, pack.length, scalarRows pack)] 0 >>= _) =
      collectPacks FloatSample.timestampNs _ _ _ [(request, pack.length, scalarRows pack)] 0 >>= _
    rcases hread : collectPacks FloatSample.timestampNs "PromQL source series".toList
        "PromQL source returned a sample outside requested bounds".toList limits.maxSamples
        [(request, pack.length, scalarRows pack)] 0 with e | read
    · rfl
    · have hrows := collectPacks_rows hread
      exact heval read.1 (hrows ▸ hdistinct)

end

end

/-- Points are in one series, if and only if they have one metric, one service and the same string
attributes. Where the last wins, each point is in its series and replaced only there, and what is left the
range query keeps. Under any other policy the answer is the same, where no series repeats an instant. -/
theorem series_by_identity (reader : JsonReader)
    (points : PromFetchRequest → Except Text (List (List MetricPoint)))
    (histograms : PromFetchRequest → Except SemanticError (List PromHistogramSeries))
    (request : PromFetchRequest) (batches : List (List MetricPoint)) (hpoints : points request = .ok batches)
    (hplain : ∀ p ∈ batches.flatten, PlainPoint reader p) :
    (∀ p ∈ batches.flatten, ∀ q ∈ batches.flatten,
        metricLabels reader p = metricLabels reader q ↔ SameSeries reader p q) ∧
      (∀ series, (metricsSource reader points histograms .lastWins).fetch request = .ok series →
        (series.Pairwise fun a b => a.labels ≠ b.labels) ∧
        (∀ s ∈ series, ∀ x ∈ s.samples,
          ∃ q ∈ rangeKept batches.flatten, metricLabels reader q = s.labels ∧ x = q.sample) ∧
        ∀ p ∈ batches.flatten, ∃ s ∈ series, s.labels = metricLabels reader p ∧
          ∃ q ∈ batches.flatten, SameSeries reader p q ∧ q.time = p.time ∧ q.sample ∈ s.samples) ∧
      ∀ (regex : Text → Option (Text → Bool)) (arith : Arith) (expr : PromExpr) (range : EvalRange)
        (limits : EvalLimits) (duplicates : Duplicates),
        planPromFetch regex range limits expr = .ok [request] →
        request.purpose ≠ .cumulativeHistogramRate → NoRepeats reader batches.flatten →
          executePromWithDuplicates regex arith (metricsSource reader points histograms duplicates) expr range
              limits duplicates =
            executePromWithDuplicates regex arith (metricsSource reader points histograms .lastWins) expr
              range limits .lastWins := by
  refine ⟨?_, ?_, ?_⟩
  · intro p hp q hq
    exact metricLabels_eq_iff (hplain p hp) (hplain q hq)
  · intro series hseries
    unfold metricsSource at hseries
    dsimp only at hseries
    rw [hpoints] at hseries
    dsimp only at hseries
    split at hseries
    · exact absurd hseries (by simp)
    · rw [scalarSeries_ok hseries]
      refine ⟨?_, ?_, ?_⟩
      · exact pairwise_map.mpr (groupByLabels_nodup _)
      · intro s hs x hx
        obtain ⟨group, hgroup, rfl⟩ := mem_map.mp hs
        exact kept_of_mem_collapse hgroup hx
      · intro p hp
        obtain ⟨group, hgroup, hlabels⟩ : ∃ group ∈ groupByLabels (batches.flatten.map (pointRow reader)),
            group.1 = metricLabels reader p := exists_group hp
        have hsample : p.sample ∈ group.2 := (mem_group hgroup _).mpr ⟨p, hp, hlabels.symm, rfl⟩
        obtain ⟨x, hx, htime, -⟩ := exists_mem_collapse sampleOrder hsample
        obtain ⟨q, hq, hlabelsq, rfl⟩ := (mem_group hgroup x).mp ((mem_collapse sampleOrder).mp hx).1
        refine ⟨_, mem_map_of_mem hgroup, hlabels, q, hq, ?_, htime, hx⟩
        apply (metricLabels_eq_iff (hplain p hp) (hplain q hq)).mp
        rw [hlabelsq, hlabels]
  · intro regex arith expr range limits duplicates hplan hpurpose hrepeats
    exact execute_distinct hpoints (pointRows_distinct hplain hrepeats) hplan hpurpose duplicates

/-! ## Two replicas -/

/-- The reader of an empty object. -/
def emptyReader : JsonReader where
  document _ := some (.map [])
  members _ := some []

/-- A point of one replica, which its resource tells apart. -/
def replicaPoint (resource : Text) (value : F64) : MetricPoint where
  table := .metricsGauge
  time := 10
  metric := "cpu".toList
  service := some "svc".toList
  resource := resource
  scope := []
  attributes := "\x7b\x7d".toList
  temporality := none
  isMonotonic := none
  value := value

def cpuRequest : PromFetchRequest :=
  ⟨⟨5, 10⟩, .instantSelector, [⟨"__name__".toList, .eq, "cpu".toList⟩], 10000, 1000000⟩

/-- Two points that differ in the resource only are one sample of one series, of which the range query
keeps both. -/
theorem replicas_merged :
    replicaPoint "a".toList (natAsF64 1) ≠ replicaPoint "b".toList (natAsF64 2) ∧
      scalarSeries emptyReader cpuRequest .lastWins
          [[replicaPoint "a".toList (natAsF64 1), replicaPoint "b".toList (natAsF64 2)]] =
        .ok [⟨[("__name__".toList, "cpu".toList), ("service".toList, "svc".toList)], [⟨10, natAsF64 2⟩]⟩] ∧
      rangeKept [replicaPoint "a".toList (natAsF64 1), replicaPoint "b".toList (natAsF64 2)] =
        [replicaPoint "a".toList (natAsF64 1), replicaPoint "b".toList (natAsF64 2)] ∧
      executePromWithDuplicates (fun _ => none) noArith
          (metricsSource emptyReader (fun _ => .ok [[replicaPoint "a".toList (natAsF64 1),
            replicaPoint "b".toList (natAsF64 2)]]) (fun _ => .ok []) .errorOnRead)
          cpuExpr atTen EvalLimits.default .errorOnRead =
        .error (duplicateTimestamp "series".toList
          [("__name__".toList, "cpu".toList), ("service".toList, "svc".toList)] 10) := by
  decide +kernel

/-- A reader of `{"host":"a"}` and `{"host":"b"}`. -/
def hostReader : JsonReader where
  document s := some (.map [("host".toList, .str [s.getD 9 'a'])])
  members s := some [("host".toList, some (.str [s.getD 9 'a']))]

def hostPoint (attributes : Text) (time : ℤ) (value : F64) : MetricPoint :=
  { replicaPoint "r".toList value with time := time, attributes := attributes }

/-- Two points of one host, and one of another at the instant of the second. -/
def hostPoints : List MetricPoint :=
  [hostPoint "\x7b\"host\":\"a\"\x7d".toList 6 (natAsF64 1), hostPoint "\x7b\"host\":\"a\"\x7d".toList 10 (natAsF64 2),
    hostPoint "\x7b\"host\":\"b\"\x7d".toList 10 (natAsF64 3)]

def hostLabels (host : Text) : LabelSet :=
  [("__name__".toList, "cpu".toList), ("host".toList, host), ("service".toList, "svc".toList)]

/-- The hosts are two series, at one instant also, and the query goes through under any policy. -/
theorem series_by_identity_hosts :
    ¬ SameSeries hostReader (hostPoint "\x7b\"host\":\"a\"\x7d".toList 10 (natAsF64 2))
        (hostPoint "\x7b\"host\":\"b\"\x7d".toList 10 (natAsF64 3)) ∧
      (∀ p ∈ hostPoints, ∃ s ∈ [PromSeries.mk (hostLabels "a".toList) [⟨6, natAsF64 1⟩, ⟨10, natAsF64 2⟩],
        ⟨hostLabels "b".toList, [⟨10, natAsF64 3⟩]⟩], s.labels = metricLabels hostReader p ∧
          ∃ q ∈ hostPoints, SameSeries hostReader p q ∧ q.time = p.time ∧ q.sample ∈ s.samples) ∧
      executePromWithDuplicates (fun _ => none) noArith
          (metricsSource hostReader (fun _ => .ok [hostPoints]) (fun _ => .ok []) .errorOnRead) cpuExpr atTen
          EvalLimits.default .errorOnRead =
        executePromWithDuplicates (fun _ => none) noArith
          (metricsSource hostReader (fun _ => .ok [hostPoints]) (fun _ => .ok []) .lastWins) cpuExpr atTen
          EvalLimits.default .lastWins := by
  have hplain : ∀ p ∈ [hostPoints].flatten, PlainPoint hostReader p := by
    intro p hp
    constructor
    · intro ms hms
      rw [← Json.map.inj (some.inj hms)]
      rfl
    · have hnames : ∀ p ∈ [hostPoints].flatten, ∀ kv ∈ storedStrings hostReader p,
        kv.1 ≠ "service".toList ∧ kv.1 ≠ "__name__".toList := by decide +kernel
      exact hnames p hp
  have hrepeats : NoRepeats hostReader [hostPoints].flatten := by
    have htimes : [hostPoints].flatten.Pairwise fun p q => p.time = q.time →
        stringAttribute hostReader p "host".toList ≠ stringAttribute hostReader q "host".toList := by decide +kernel
    exact htimes.imp fun h htime hsame => h htime (hsame.2.2 _)
  obtain ⟨hsame, hseries, hanswer⟩ := series_by_identity hostReader (fun _ => .ok [hostPoints]) (fun _ => .ok [])
    cpuRequest [hostPoints] rfl hplain
  refine ⟨?_, (hseries _ (by decide +kernel)).2.2, hanswer _ _ _ _ _ _ (by decide +kernel) (by decide) hrepeats⟩
  exact fun h => absurd ((hsame _ (by simp [hostPoints]) _ (by simp [hostPoints])).mpr h) (by decide +kernel)

end Imbh.Lgtm
