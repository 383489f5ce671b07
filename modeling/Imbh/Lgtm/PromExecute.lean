import Imbh.Ingest.Dedup
import Imbh.Lgtm.PromQl
import Imbh.Lib.Collapse

/-!
# Fetching for PromQL

An expression is planned into one bounded read of its leaf. What the source returns is merged by label
set, the points of one instant are resolved, and the result is evaluated.

* `last_wins_of_rows` — where the last wins, the answer depends on the rows that a source returns and
  not on their order, nor on how they are split into series.
-/

namespace Imbh.Lgtm

open Lib Ingest List

/-! ## Plans -/

/-- Source: `common.rs` `FetchBounds` -/
structure FetchBounds where
  startNs : ℤ
  endNs : ℤ
  deriving DecidableEq

/-- Source: `common.rs` `FetchBounds::new` -/
def FetchBounds.new (startNs endNs : ℤ) : Except SemanticError FetchBounds :=
  if endNs < startNs then .error .invalidRange else return ⟨startNs, endNs⟩

/-- Source: `common.rs` `FetchBounds::contains` -/
def FetchBounds.contains (bounds : FetchBounds) (t : ℤ) : Bool :=
  decide (bounds.startNs ≤ t) && decide (t ≤ bounds.endNs)

/-- Source: `promql.rs` `PromFetchPurpose` -/
inductive PromFetchPurpose
  | instantSelector
  | cumulativeCounterRate
  | cumulativeHistogramRate
  deriving DecidableEq

/-- Source: `promql.rs` `PromFetchRequest` -/
structure PromFetchRequest where
  bounds : FetchBounds
  purpose : PromFetchPurpose
  matchers : List LabelMatcher
  maxSeries : ℕ
  maxSamples : ℕ
  deriving DecidableEq

/-- The order of the requests of a plan. Source: `promql.rs` `plan_prom_fetch` -/
def requestCmp (a b : PromFetchRequest) : Ordering :=
  ((compare a.bounds.startNs b.bounds.startNs).then (compare a.bounds.endNs b.bounds.endNs)).then
    (compare a.matchers.length b.matchers.length)

section

variable (regex : Text → Option (Text → Bool)) (range : EvalRange) (limits : EvalLimits)

/-- Each pattern of the matchers is one. -/
def validMatchers : List LabelMatcher → Except SemanticError Unit
  | [] => return ()
  | m :: matchers =>
      if (m.op = .regex ∨ m.op = .notRegex) ∧ (regex (anchored m.value)).isNone then
        .error (.malformed "invalid PromQL label regex".toList)
      else validMatchers matchers

/-- The request of a leaf. Source: `promql.rs` `collect_fetches` -/
def leafFetch (matchers : List LabelMatcher) (horizonNs : ℕ) (purpose : PromFetchPurpose) :
    Except SemanticError (List PromFetchRequest) := do
  validMatchers regex matchers
  let bounds ← FetchBounds.new (saturatingSub range.startNs horizonNs) range.endNs
  return [⟨bounds, purpose, matchers, limits.maxSeries, limits.maxSamples⟩]

/-- Source: `promql.rs` `collect_fetches` -/
def collectFetches (depth : ℕ) (expr : PromExpr) : Except SemanticError (List PromFetchRequest) :=
  if limits.maxRecursion ≤ depth then .error (.limitExceeded "PromQL expression recursion".toList)
  else
    match expr with
    | .selector matchers => leafFetch regex range limits matchers range.lookbackNs .instantSelector
    | .rate matchers windowNs => leafFetch regex range limits matchers windowNs .cumulativeCounterRate
    | .histogramQuantile _ matchers windowNs _ =>
        leafFetch regex range limits matchers windowNs .cumulativeHistogramRate
    | .aggregate _ _ input => collectFetches (depth + 1) input

/-- Source: `promql.rs` `plan_prom_fetch` -/
def planPromFetch (expr : PromExpr) : Except SemanticError (List PromFetchRequest) := do
  let _ ← range.instants limits
  let requests ← collectFetches regex range limits 0 expr
  return dedupBy (fun later kept => later = kept)
    (requests.insertionSort fun a b => (requestCmp a b).isLE)

end

/-! ## Points of one instant -/

/-- Source: `promql.rs` `duplicate_value_cmp` -/
def duplicateValueCmp (left right : F64) : Ordering :=
  (compare (F64.isNaN left) (F64.isNaN right)).swap.then (F64.totalCmp left right)

/-- The order in which samples are collapsed. Source: `promql.rs` `collapse_duplicate_samples` -/
def sampleCmp (left right : FloatSample) : Ordering :=
  (compare left.timestampNs right.timestampNs).then (duplicateValueCmp left.value right.value).swap

/-- The first of two lists that differs decides. -/
def zipCmp : List F64 → List F64 → Ordering
  | l :: ls, r :: rs => (F64.totalCmp l r).then (zipCmp ls rs)
  | _, _ => .eq

/-- Source: `promql.rs` `duplicate_histogram_cmp` -/
def duplicateHistogramCmp (left right : HistogramPoint) : Ordering :=
  (((compare (saturatingSum left.bucketCounts) (saturatingSum right.bucketCounts)).then
    (List.compareLex compare left.bucketCounts right.bucketCounts)).then
    (compare left.explicitBounds.length right.explicitBounds.length)).then
    (zipCmp left.explicitBounds right.explicitBounds)

/-- The order in which histogram points are collapsed.
Source: `promql.rs` `collapse_duplicate_histogram_points` -/
def pointCmp (left right : HistogramPoint) : Ordering :=
  (compare left.timestampNs right.timestampNs).then (duplicateHistogramCmp left right).swap

/-- Source: `promql.rs` `collapse_duplicate_samples` -/
def collapseDuplicateSamples (samples : List FloatSample) : List FloatSample :=
  collapse FloatSample.timestampNs (fun l r => (sampleCmp l r).isLE) samples

/-- Source: `promql.rs` `collapse_duplicate_histogram_points` -/
def collapseDuplicateHistogramPoints (points : List HistogramPoint) : List HistogramPoint :=
  collapse HistogramPoint.timestampNs (fun l r => (pointCmp l r).isLE) points

/-- Source: `imbh-core` `Duplicates::collapses_at_read` -/
def collapsesAtRead (duplicates : Duplicates) : Bool := duplicates = .lastWins

/-- A label value in a message: its characters within 64 bytes. Source: `common.rs` `RenderLabels` -/
def cutValue (bytes : ℕ) : Text → Text
  | [] => []
  | c :: value => if c.utf8Size ≤ bytes then c :: cutValue (bytes - c.utf8Size) value else ['…']

/-- Source: `common.rs` `RenderLabels` -/
def renderLabels (labels : LabelSet) : Text :=
  let shown := (labels.take 8).map fun kv => kv.1 ++ "=\"".toList ++ cutValue 64 kv.2 ++ ['"']
  let more := if 8 < labels.length then
    ", …".toList ++ (toString (labels.length - 8)).toList ++ " more".toList else []
  "\x7b".toList ++ (", ".toList.intercalate shown) ++ more ++ "\x7d".toList

/-- Source: `common.rs` `SemanticError::duplicate_timestamp` -/
def duplicateTimestamp (what : Text) (labels : LabelSet) (t : ℤ) : SemanticError :=
  .duplicateTimestamp ("duplicate timestamps in one PromQL ".toList ++ what ++ ": ".toList ++
    renderLabels labels ++ " at ".toList ++ (toString t).toList)

/-- The first time that follows itself. -/
def repeatedTime : List ℤ → Option ℤ
  | a :: b :: l => if a = b then some a else repeatedTime (b :: l)
  | _ => none

/-- The points of a series, where each instant is resolved. The scalar and the histogram function differ
in the time, the collapse and the text.
Source: `promql.rs` `resolve_duplicate_samples`, `resolve_duplicate_histogram_points` -/
def resolveDuplicates {α : Type} (time : α → ℤ) (collapsed : List α → List α) (what : Text)
    (duplicates : Duplicates) (labels : LabelSet) (points : List α) : Except SemanticError (List α) :=
  if collapsesAtRead duplicates then .ok (collapsed points)
  else
    let sorted := points.insertionSort fun a b => time a ≤ time b
    match repeatedTime (sorted.map time) with
    | some t => .error (duplicateTimestamp what labels t)
    | none => .ok sorted

/-- Source: `promql.rs` `resolve_duplicate_samples` -/
def resolveDuplicateSamples (duplicates : Duplicates) (labels : LabelSet) (samples : List FloatSample) :
    Except SemanticError (List FloatSample) :=
  resolveDuplicates FloatSample.timestampNs collapseDuplicateSamples "series".toList duplicates labels
    samples

/-- Source: `promql.rs` `resolve_duplicate_histogram_points` -/
def resolveDuplicateHistogramPoints (duplicates : Duplicates) (labels : LabelSet)
    (points : List HistogramPoint) : Except SemanticError (List HistogramPoint) :=
  resolveDuplicates HistogramPoint.timestampNs collapseDuplicateHistogramPoints
    "histogram series".toList duplicates labels points

instance : Std.TransCmp F64.totalCmp := inferInstanceAs (Std.TransCmp (compareOn F64.rank))

theorem totalCmp_eq_eq {a b : F64} (h : F64.totalCmp a b = .eq) : a = b :=
  F64.rank_injective (Std.LawfulEqOrd.eq_of_compare h)

theorem duplicateValueCmp_eq : duplicateValueCmp =
    compareLex (fun l r => compareOn F64.isNaN r l) F64.totalCmp := by
  funext l r
  unfold duplicateValueCmp compareLex compareOn
  rw [← Std.OrientedOrd.eq_swap]

instance : Std.TransCmp duplicateValueCmp := by
  have hnan : Std.TransCmp fun l r => compareOn F64.isNaN r l := Std.TransCmp.opposite
  rw [duplicateValueCmp_eq]
  infer_instance

theorem sampleCmp_eq : sampleCmp =
    compareLex (compareOn FloatSample.timestampNs) fun l r => duplicateValueCmp r.value l.value := by
  funext l r
  unfold sampleCmp compareLex compareOn
  rw [← Std.OrientedCmp.eq_swap]

instance : Std.TransCmp sampleCmp := by
  have hvalue : Std.TransCmp fun l r : FloatSample => duplicateValueCmp l.value r.value :=
    transCmp_on duplicateValueCmp FloatSample.value
  have hback : Std.TransCmp fun l r : FloatSample => duplicateValueCmp r.value l.value :=
    Std.TransCmp.opposite
  rw [sampleCmp_eq]
  infer_instance

/-- Samples are collapsed in a total order. -/
theorem sampleOrder :
    CollapseOrder FloatSample.timestampNs fun l r : FloatSample => (sampleCmp l r).isLE := by
  apply CollapseOrder.of_cmp sampleCmp
  · intro a b h
    unfold sampleCmp duplicateValueCmp at h
    rw [Ordering.then_eq_eq, Ordering.swap_eq_eq, Ordering.then_eq_eq] at h
    obtain ⟨htime, -, hvalue⟩ := h
    have htime : a.timestampNs = b.timestampNs := Std.LawfulEqOrd.eq_of_compare htime
    rw [FloatSample.mk.injEq]
    exact ⟨htime, totalCmp_eq_eq hvalue⟩
  · intro a b h
    unfold sampleCmp at h
    rw [Ordering.isLE_then_iff_or] at h
    rcases h with h | ⟨h, -⟩
    · exact (compare_lt_iff_lt.mp h).le
    · exact (Std.LawfulEqOrd.eq_of_compare h).le

/-- Of lists of one length the first that differs decides as in the order of lists. -/
theorem zipCmp_eq {l r : List F64} (h : l.length = r.length) : zipCmp l r = List.compareLex F64.totalCmp l r := by
  induction l generalizing r with
  | nil =>
    rw [List.length_eq_zero_iff.mp h.symm]
    rfl
  | cons a l ih =>
    obtain ⟨b, r, rfl⟩ := List.exists_cons_of_length_eq_add_one h.symm
    rw [zipCmp, ih (Nat.succ_injective h), List.compareLex_cons_cons]

/-- What follows a comparison that decides is not looked at. -/
theorem then_of_ne_eq {o c : Ordering} (h : c ≠ .eq) (p q : Ordering) :
    (o.then c).then p = (o.then c).then q := by
  rcases o
  · rfl
  · rcases c
    · rfl
    · exact absurd rfl h
    · rfl
  · rfl

theorem duplicateHistogramCmp_eq : duplicateHistogramCmp =
    compareLex (compareLex (compareLex (compareOn fun p => saturatingSum p.bucketCounts)
      fun l r => List.compareLex compare l.bucketCounts r.bucketCounts)
      (compareOn fun p => p.explicitBounds.length))
      fun l r => List.compareLex F64.totalCmp l.explicitBounds r.explicitBounds := by
  funext l r
  unfold duplicateHistogramCmp compareLex compareOn
  by_cases hlength : l.explicitBounds.length = r.explicitBounds.length
  · rw [zipCmp_eq hlength]
  · apply then_of_ne_eq
    exact fun h => hlength (Std.LawfulEqOrd.eq_of_compare h)

instance : Std.LawfulEqCmp F64.totalCmp where
  eq_of_compare := totalCmp_eq_eq

instance : Std.TransCmp duplicateHistogramCmp := by
  have hcounts : Std.TransCmp fun l r : HistogramPoint =>
      List.compareLex compare l.bucketCounts r.bucketCounts :=
    transCmp_on (List.compareLex compare) HistogramPoint.bucketCounts
  have hbounds : Std.TransCmp fun l r : HistogramPoint =>
      List.compareLex F64.totalCmp l.explicitBounds r.explicitBounds :=
    transCmp_on (List.compareLex F64.totalCmp) HistogramPoint.explicitBounds
  rw [duplicateHistogramCmp_eq]
  infer_instance

theorem pointCmp_eq : pointCmp =
    compareLex (compareOn HistogramPoint.timestampNs) fun l r => duplicateHistogramCmp r l := by
  funext l r
  unfold pointCmp compareLex compareOn
  rw [← Std.OrientedCmp.eq_swap]

instance : Std.TransCmp pointCmp := by
  have hback : Std.TransCmp fun l r => duplicateHistogramCmp r l := Std.TransCmp.opposite
  rw [pointCmp_eq]
  infer_instance

/-- Histogram points are collapsed in a total order. -/
theorem pointOrder :
    CollapseOrder HistogramPoint.timestampNs fun l r : HistogramPoint => (pointCmp l r).isLE := by
  apply CollapseOrder.of_cmp pointCmp
  · intro a b h
    unfold pointCmp at h
    rw [Ordering.then_eq_eq, Ordering.swap_eq_eq, duplicateHistogramCmp_eq, compareLex_eq_eq,
      compareLex_eq_eq, compareLex_eq_eq] at h
    obtain ⟨htime, ⟨⟨-, hcounts⟩, -⟩, hbounds⟩ := h
    have htime : a.timestampNs = b.timestampNs := Std.LawfulEqOrd.eq_of_compare htime
    have hcounts : a.bucketCounts = b.bucketCounts := Std.LawfulEqCmp.eq_of_compare hcounts
    have hbounds : a.explicitBounds = b.explicitBounds := Std.LawfulEqCmp.eq_of_compare hbounds
    rw [HistogramPoint.mk.injEq]
    exact ⟨htime, hbounds, hcounts⟩
  · intro a b h
    unfold pointCmp at h
    rw [Ordering.isLE_then_iff_or] at h
    rcases h with h | ⟨h, -⟩
    · exact (compare_lt_iff_lt.mp h).le
    · exact (Std.LawfulEqOrd.eq_of_compare h).le

/-! ## Execution -/

/-- Source: `promql.rs` `PromSeriesSource` -/
structure PromSeriesSource where
  fetch : PromFetchRequest → Except SemanticError (List PromSeries)
  fetchHistograms : PromFetchRequest → Except SemanticError (List PromHistogramSeries)

/-- The rows of a pack, each with its label set. -/
def scalarRows (pack : List PromSeries) : List (LabelSet × FloatSample) :=
  pack.flatMap fun series => series.samples.map fun s => (series.labels, s)

def histogramRows (pack : List PromHistogramSeries) : List (LabelSet × HistogramPoint) :=
  pack.flatMap fun series => series.points.map fun p => (series.labels, p)

/-- The rows are in the bounds and, with those before them, within the limit. The count cannot overflow:
the limit is below `2^64`. Source: `promql.rs` `execute_prom_with_duplicates`, the inner loops -/
def countRows {α : Type} (time : α → ℤ) (outside : Text) (bounds : FetchBounds) (maxSamples : ℕ) :
    List (LabelSet × α) → ℕ → Except SemanticError ℕ
  | [], fetched => .ok fetched
  | row :: rows, fetched =>
      if bounds.contains (time row.2) = false then .error (.malformed outside)
      else if maxSamples < fetched + 1 then .error (.limitExceeded "PromQL source samples".toList)
      else countRows time outside bounds maxSamples rows (fetched + 1)

/-- The rows of the packs, of which each has its request, its number of series and its rows.
Source: `promql.rs` `execute_prom_with_duplicates`, the two loops over the packs -/
def collectPacks {α : Type} (time : α → ℤ) (tooMany outside : Text) (maxSamples : ℕ) :
    List (PromFetchRequest × ℕ × List (LabelSet × α)) → ℕ →
      Except SemanticError (List (LabelSet × α) × ℕ)
  | [], fetched => .ok ([], fetched)
  | (request, series, rows) :: packs, fetched =>
      if request.maxSeries < series then .error (.limitExceeded tooMany)
      else do
        let fetched ← countRows time outside request.bounds maxSamples rows fetched
        let (rest, fetched) ← collectPacks time tooMany outside maxSamples packs fetched
        return (rows ++ rest, fetched)

/-- The series of a working set, where the points of each are resolved.
Source: `promql.rs` `execute_prom_with_duplicates` -/
def workingSet {α : Type} (resolve : LabelSet → List α → Except SemanticError (List α)) (tooMany : Text)
    (limits : EvalLimits) (rows : List (LabelSet × α)) :
    Except SemanticError (List (LabelSet × List α)) :=
  let groups := groupByLabels rows
  if limits.maxSeries < groups.length then .error (.limitExceeded tooMany)
  else flatMapM (fun group => do
    let points ← resolve group.1 group.2
    return [(group.1, points)]) groups

/-- The packs of the requests. Source: `promql.rs` `execute_prom_with_duplicates`, the first loop -/
def fetchPacks (source : PromSeriesSource) : List PromFetchRequest →
    Except SemanticError (List (PromFetchRequest × List PromSeries) ×
      List (PromFetchRequest × List PromHistogramSeries))
  | [] => return ([], [])
  | request :: requests =>
      if request.purpose = .cumulativeHistogramRate then do
        let pack ← source.fetchHistograms request
        let (scalars, histograms) ← fetchPacks source requests
        return (scalars, (request, pack) :: histograms)
      else do
        let pack ← source.fetch request
        let (scalars, histograms) ← fetchPacks source requests
        return ((request, pack) :: scalars, histograms)

section

variable (regex : Text → Option (Text → Bool)) (arith : Arith)

/-- What is evaluated, of the rows that were fetched. Source: `promql.rs`
`execute_prom_with_duplicates`, after the packs -/
def evalRows (expr : PromExpr) (range : EvalRange) (limits : EvalLimits) (duplicates : Duplicates)
    (scalars : List (LabelSet × FloatSample)) (histograms : List (LabelSet × HistogramPoint)) :
    Except SemanticError (List PromSeries) := do
  let series ← workingSet (resolveDuplicateSamples duplicates) "PromQL source series".toList limits scalars
  let points ← workingSet (resolveDuplicateHistogramPoints duplicates)
    "PromQL source histogram series".toList limits histograms
  evalPromReference regex arith expr (series.map fun s => ⟨s.1, s.2⟩) (points.map fun p => ⟨p.1, p.2⟩)
    range limits

/-- Source: `promql.rs` `execute_prom_with_duplicates` -/
def executePromWithDuplicates (source : PromSeriesSource) (expr : PromExpr) (range : EvalRange)
    (limits : EvalLimits) (duplicates : Duplicates) : Except SemanticError (List PromSeries) := do
  let requests ← planPromFetch regex range limits expr
  let (scalarPacks, histogramPacks) ← fetchPacks source requests
  let (points, fetched) ← collectPacks HistogramPoint.timestampNs "PromQL source histogram series".toList
    "PromQL source returned a histogram outside requested bounds".toList limits.maxSamples
    (histogramPacks.map fun p => (p.1, p.2.length, histogramRows p.2)) 0
  let (samples, _) ← collectPacks FloatSample.timestampNs "PromQL source series".toList
    "PromQL source returned a sample outside requested bounds".toList limits.maxSamples
    (scalarPacks.map fun p => (p.1, p.2.length, scalarRows p.2)) fetched
  evalRows regex arith expr range limits duplicates samples points

end

/-! ## Groups -/

theorem labelLe_total : Std.Total labelLe := ⟨fun _ _ => le_total _ _⟩

theorem labelLe_trans : IsTrans LabelSet labelLe := ⟨fun _ _ _ => le_trans⟩

theorem labelLe_antisymm {a b : LabelSet} (hab : labelLe a b) (hba : labelLe b a) : a = b :=
  map_injective_iff.mpr toLex.injective (le_antisymm hab hba)

/-- The label sets of the groups depend on the label sets that are there. -/
theorem groupKeys_congr {l l' : List LabelSet} (h : ∀ x, x ∈ l ↔ x ∈ l') :
    l.dedup.insertionSort labelLe = l'.dedup.insertionSort labelLe := by
  have htotal := labelLe_total
  have htrans := labelLe_trans
  exact insertionSort_dedup_congr (fun _ _ => labelLe_antisymm) h

variable {α : Type} {rows rows' : List (LabelSet × α)} {regex : Text → Option (Text → Bool)} {time : α → ℤ}
  {maxSamples : ℕ} {outside : Text} {limits : EvalLimits}

/-- Rows in another order give the same groups, with the values of each in another order. -/
theorem groupByLabels_perm (h : rows.Perm rows') :
    groupByLabels rows' = (groupByLabels rows).map fun group =>
      (group.1, (rows'.filter fun p => p.1 = group.1).map Prod.snd) := by
  have hkeys : (rows.map Prod.fst).dedup.insertionSort labelLe =
      (rows'.map Prod.fst).dedup.insertionSort labelLe :=
    groupKeys_congr fun x => (h.map Prod.fst).mem_iff
  unfold groupByLabels
  rw [map_map, hkeys]
  rfl

theorem groupByLabels_nodup (rows : List (LabelSet × α)) :
    (groupByLabels rows).Pairwise fun a b => a.1 ≠ b.1 := by
  apply pairwise_map.mpr
  exact (perm_insertionSort labelLe _).nodup_iff.mpr (nodup_dedup _)

theorem mem_groupByLabels {group : LabelSet × List α} (h : group ∈ groupByLabels rows) :
    group.2 = (rows.filter fun p => p.1 = group.1).map Prod.snd := by
  obtain ⟨labels, _, rfl⟩ := mem_map.mp h
  rfl

/-! ## Reads -/

/-- Rows inside the bounds are counted, up to the limit. -/
theorem countRows_of_inside {bounds : FetchBounds} (h : ∀ row ∈ rows, bounds.contains (time row.2) = true)
    (fetched : ℕ) :
    countRows time outside bounds maxSamples rows fetched =
      if rows = [] ∨ fetched + rows.length ≤ maxSamples then .ok (fetched + rows.length)
      else .error (.limitExceeded "PromQL source samples".toList) := by
  induction rows generalizing fetched with
  | nil => rw [countRows, if_pos (.inl rfl), length_nil, Nat.add_zero]
  | cons row rows ih =>
    rw [countRows, if_neg (by simp [h row mem_cons_self]),
      ih (fun r hr => h r (mem_cons_of_mem _ hr)), length_cons]
    by_cases hfits : maxSamples < fetched + 1
    · rw [if_pos hfits, if_neg]
      rintro (hnil | hle)
      · exact absurd hnil (cons_ne_nil _ _)
      · omega
    · rw [if_neg hfits]
      by_cases hrest : rows = [] ∨ fetched + 1 + rows.length ≤ maxSamples
      · have hle : fetched + (rows.length + 1) ≤ maxSamples := by
          rcases hrest with rfl | hrest
          · rw [length_nil]
            omega
          · omega
        rw [if_pos hrest, if_pos (.inr hle)]
        congr 1
        omega
      · rw [if_neg hrest, if_neg]
        rintro (hnil | hle)
        · exact absurd hnil (cons_ne_nil _ _)
        · exact hrest (.inr (by omega))

/-- Rows within the limit are counted, unless one is outside the bounds. -/
theorem countRows_of_fits {bounds : FetchBounds} {fetched : ℕ} (h : fetched + rows.length ≤ maxSamples) :
    countRows time outside bounds maxSamples rows fetched =
      if ∀ row ∈ rows, bounds.contains (time row.2) = true then .ok (fetched + rows.length)
      else .error (.malformed outside) := by
  induction rows generalizing fetched with
  | nil => rw [countRows, if_pos (fun _ hrow => absurd hrow not_mem_nil), length_nil, Nat.add_zero]
  | cons row rows ih =>
    rw [length_cons] at h
    rw [countRows, length_cons]
    by_cases hrow : bounds.contains (time row.2) = true
    · rw [if_neg (by simp [hrow]), if_neg (by omega), ih (by omega), Nat.add_right_comm, Nat.add_assoc]
      simp only [forall_mem_cons, hrow, true_and]
    · rw [if_pos (by simpa using hrow), if_neg]
      exact fun hall => hrow (hall row mem_cons_self)

/-- Rows in another order are counted alike, if all are in the bounds or all are within the limit. -/
theorem countRows_perm {bounds : FetchBounds} {fetched : ℕ} (hperm : rows.Perm rows')
    (h : (∀ row ∈ rows, bounds.contains (time row.2) = true) ∨ fetched + rows.length ≤ maxSamples) :
    countRows time outside bounds maxSamples rows fetched =
      countRows time outside bounds maxSamples rows' fetched := by
  have hlength := hperm.length_eq
  have hiff : (∀ row ∈ rows, bounds.contains (time row.2) = true) ↔
      ∀ row ∈ rows', bounds.contains (time row.2) = true :=
    forall_congr' fun row => by rw [hperm.mem_iff]
  rcases h with h | h
  · have hnil : rows = [] ↔ rows' = [] := by
      rw [← length_eq_zero_iff, ← length_eq_zero_iff, hlength]
    rw [countRows_of_inside h, countRows_of_inside (hiff.mp h), hlength]
    simp only [hnil]
  · rw [countRows_of_fits h, countRows_of_fits (hlength ▸ h), hlength]
    simp only [hiff]

/-- Two answers of a source to a request have the same rows, in any order and split in any way; both
have too many series or neither, and rows that are outside the bounds come within the limit. -/
def SameRead {π : Type} (rows : π → List (LabelSet × α)) (size : π → ℕ) (time : α → ℤ)
    (limits : EvalLimits) (request : PromFetchRequest) :
    Except SemanticError π → Except SemanticError π → Prop
  | .ok pack, .ok pack' =>
      (rows pack).Perm (rows pack') ∧ (request.maxSeries < size pack ↔ request.maxSeries < size pack') ∧
        ((∀ row ∈ rows pack, request.bounds.contains (time row.2) = true) ∨
          (rows pack).length ≤ limits.maxSamples)
  | .error e, .error e' => e = e'
  | _, _ => False

/-- Two sources answer the requests of a plan with the same rows. -/
def SameRows (limits : EvalLimits) (plan : Except SemanticError (List PromFetchRequest))
    (source source' : PromSeriesSource) : Prop :=
  ∀ requests, plan = .ok requests → ∀ request ∈ requests,
    SameRead scalarRows List.length FloatSample.timestampNs limits request (source.fetch request)
        (source'.fetch request) ∧
      SameRead histogramRows List.length HistogramPoint.timestampNs limits request
        (source.fetchHistograms request) (source'.fetchHistograms request)

/-! ## The last wins -/

/-- The order of the rows does not matter to the working set. -/
theorem workingSet_perm {resolve : LabelSet → List α → Except SemanticError (List α)} {tooMany : Text}
    (hresolve : ∀ labels l l', l.Perm l' → resolve labels l = resolve labels l') (h : rows.Perm rows') :
    workingSet resolve tooMany limits rows = workingSet resolve tooMany limits rows' := by
  have hgroups : ∀ groups : List (LabelSet × List α), (∀ group ∈ groups,
        group.2 = (rows.filter fun p => p.1 = group.1).map Prod.snd) →
      flatMapM (fun group => do
          let points ← resolve group.1 group.2
          return [(group.1, points)]) groups =
        flatMapM (fun group => do
          let points ← resolve group.1 group.2
          return [(group.1, points)])
          (groups.map fun group => (group.1, (rows'.filter fun p => p.1 = group.1).map Prod.snd)) := by
    intro groups hgroups
    induction groups with
    | nil => rfl
    | cons group groups ih =>
      have hperm : group.2.Perm ((rows'.filter fun p => p.1 = group.1).map Prod.snd) := by
        rw [hgroups group mem_cons_self]
        exact (h.filter _).map _
      have hsame := hresolve group.1 _ _ hperm
      rw [map_cons, flatMapM, flatMapM, hsame, ih fun g hg => hgroups g (mem_cons_of_mem _ hg)]
  unfold workingSet
  dsimp only
  rw [groupByLabels_perm h, length_map]
  split
  · rfl
  · exact hgroups _ fun group hgroup => mem_groupByLabels hgroup

theorem collapseDuplicateSamples_congr {l l' : List FloatSample} (h : ∀ s, s ∈ l ↔ s ∈ l') :
    collapseDuplicateSamples l = collapseDuplicateSamples l' := collapse_congr sampleOrder h

theorem collapseDuplicateHistogramPoints_congr {l l' : List HistogramPoint} (h : ∀ p, p ∈ l ↔ p ∈ l') :
    collapseDuplicateHistogramPoints l = collapseDuplicateHistogramPoints l' := collapse_congr pointOrder h

/-- The order of the rows does not matter to the answer. -/
theorem evalRows_perm {arith : Arith} {expr : PromExpr} {range : EvalRange}
    {samples samples' : List (LabelSet × FloatSample)} {points points' : List (LabelSet × HistogramPoint)}
    (hsamples : samples.Perm samples') (hpoints : points.Perm points') :
    evalRows regex arith expr range limits .lastWins samples points =
      evalRows regex arith expr range limits .lastWins samples' points' := by
  unfold evalRows
  rw [workingSet_perm _ hsamples, workingSet_perm _ hpoints]
  · intro labels l l' hl
    exact congrArg Except.ok (collapseDuplicateHistogramPoints_congr fun p => hl.mem_iff)
  · intro labels l l' hl
    exact congrArg Except.ok (collapseDuplicateSamples_congr fun p => hl.mem_iff)

/-- An expression has one leaf, and its plan one request. -/
theorem collectFetches_single {range : EvalRange} {depth : ℕ} {expr : PromExpr} {requests : List PromFetchRequest}
    (h : collectFetches regex range limits depth expr = .ok requests) : ∃ request, requests = [request] := by
  have hleaf : ∀ {matchers horizonNs purpose},
      leafFetch regex range limits matchers horizonNs purpose = .ok requests →
        ∃ request, requests = [request] := by
    intro matchers horizonNs purpose h
    obtain ⟨_, _, h⟩ := bind_eq_ok.mp h
    obtain ⟨bounds, _, h⟩ := bind_eq_ok.mp h
    exact ⟨_, (Except.ok.inj h).symm⟩
  induction expr generalizing depth with
  | selector matchers =>
    unfold collectFetches at h
    split at h
    · exact absurd h (by simp)
    · exact hleaf h
  | rate matchers windowNs =>
    unfold collectFetches at h
    split at h
    · exact absurd h (by simp)
    · exact hleaf h
  | histogramQuantile phi matchers windowNs grouping =>
    unfold collectFetches at h
    split at h
    · exact absurd h (by simp)
    · exact hleaf h
  | aggregate op grouping input ih =>
    unfold collectFetches at h
    split at h
    · exact absurd h (by simp)
    · exact ih h

theorem planPromFetch_single {range : EvalRange} {expr : PromExpr} {requests : List PromFetchRequest}
    (h : planPromFetch regex range limits expr = .ok requests) :
    ∃ request, collectFetches regex range limits 0 expr = .ok [request] ∧ requests = [request] := by
  obtain ⟨_, _, h⟩ := bind_eq_ok.mp h
  obtain ⟨found, hfound, h⟩ := bind_eq_ok.mp h
  obtain ⟨request, rfl⟩ := collectFetches_single hfound
  exact ⟨request, hfound, (Except.ok.inj h).symm⟩

/-- The rows that are read of one pack are all of its rows. -/
theorem collectPacks_rows {tooMany : Text} {size fetched : ℕ} {request : PromFetchRequest}
    {read : List (LabelSet × α) × ℕ}
    (h : collectPacks time tooMany outside maxSamples [(request, size, rows)] fetched = .ok read) :
    read.1 = rows := by
  unfold collectPacks at h
  split at h
  · exact absurd h (by simp)
  · obtain ⟨count, _, h⟩ := bind_eq_ok.mp h
    rw [← Except.ok.inj h, append_nil]

/-- What comes after one pack, for two packs with the same rows. -/
theorem collectPacks_congr {β : Type} {tooMany : Text} {request : PromFetchRequest} {size size' : ℕ}
    (hperm : rows.Perm rows') (hsize : request.maxSeries < size ↔ request.maxSeries < size')
    (hfits : (∀ row ∈ rows, request.bounds.contains (time row.2) = true) ∨ rows.length ≤ maxSamples)
    {f f' : List (LabelSet × α) × ℕ → Except SemanticError β}
    (hf : ∀ fetched, f (rows, fetched) = f' (rows', fetched)) :
    (collectPacks time tooMany outside maxSamples [(request, size, rows)] 0 >>= f) =
      (collectPacks time tooMany outside maxSamples [(request, size', rows')] 0 >>= f') := by
  have hcount : countRows time outside request.bounds maxSamples rows 0 =
      countRows time outside request.bounds maxSamples rows' 0 :=
    countRows_perm hperm (by rwa [Nat.zero_add])
  unfold collectPacks
  by_cases hmany : request.maxSeries < size
  · rw [if_pos hmany, if_pos (hsize.mp hmany)]
    rfl
  · rw [if_neg hmany, if_neg (fun h => hmany (hsize.mpr h)), ← hcount]
    rcases countRows time outside request.bounds maxSamples rows 0 with e | fetched
    · rfl
    · have hrows : f (rows ++ [], fetched) = f' (rows' ++ [], fetched) := by
        rw [append_nil, append_nil, hf]
      exact hrows

section

variable {regex : Text → Option (Text → Bool)} {arith : Arith} {range : EvalRange}
  {limits : EvalLimits} {expr : PromExpr} {source source' : PromSeriesSource} {duplicates : Duplicates}
  {request : PromFetchRequest}

/-- The execution of an expression whose leaf is a quantile. -/
theorem execute_histogram (hplan : planPromFetch regex range limits expr = .ok [request])
    (hpurpose : request.purpose = .cumulativeHistogramRate) :
    executePromWithDuplicates regex arith source expr range limits duplicates =
      (source.fetchHistograms request).bind fun pack =>
        collectPacks HistogramPoint.timestampNs "PromQL source histogram series".toList
            "PromQL source returned a histogram outside requested bounds".toList limits.maxSamples
            [(request, pack.length, histogramRows pack)] 0 >>= fun read =>
          evalRows regex arith expr range limits duplicates [] read.1 := by
  unfold executePromWithDuplicates
  rw [hplan]
  show fetchPacks source [request] >>= _ = _
  rw [fetchPacks, if_pos hpurpose]
  rcases source.fetchHistograms request with e | pack <;> rfl

/-- The execution of an expression whose leaf is a selector or a rate. -/
theorem execute_scalar (hplan : planPromFetch regex range limits expr = .ok [request])
    (hpurpose : request.purpose ≠ .cumulativeHistogramRate) :
    executePromWithDuplicates regex arith source expr range limits duplicates =
      (source.fetch request).bind fun pack =>
        collectPacks FloatSample.timestampNs "PromQL source series".toList
            "PromQL source returned a sample outside requested bounds".toList limits.maxSamples
            [(request, pack.length, scalarRows pack)] 0 >>= fun read =>
          evalRows regex arith expr range limits duplicates read.1 [] := by
  unfold executePromWithDuplicates
  rw [hplan]
  show fetchPacks source [request] >>= _ = _
  rw [fetchPacks, if_neg hpurpose]
  rcases source.fetch request with e | pack <;> rfl

/-- Two sources with the same rows give the same answer. -/
theorem execute_congr (h : SameRows limits (planPromFetch regex range limits expr) source source') :
    executePromWithDuplicates regex arith source expr range limits .lastWins =
      executePromWithDuplicates regex arith source' expr range limits .lastWins := by
  rcases hplan : planPromFetch regex range limits expr with e | requests
  · unfold executePromWithDuplicates
    rw [hplan]
    rfl
  · obtain ⟨request, _, rfl⟩ := planPromFetch_single hplan
    obtain ⟨hscalar, hhistogram⟩ := h _ hplan request mem_cons_self
    by_cases hpurpose : request.purpose = .cumulativeHistogramRate
    · rw [execute_histogram hplan hpurpose, execute_histogram hplan hpurpose]
      rcases hpack : source.fetchHistograms request with e | pack <;>
        rcases hpack' : source'.fetchHistograms request with e' | pack' <;>
        rw [hpack, hpack'] at hhistogram
      · exact congrArg Except.error hhistogram
      · exact absurd hhistogram id
      · exact absurd hhistogram id
      · obtain ⟨hperm, hsize, hfits⟩ := hhistogram
        apply collectPacks_congr hperm hsize hfits
        intro fetched
        exact evalRows_perm (Perm.refl _) hperm
    · rw [execute_scalar hplan hpurpose, execute_scalar hplan hpurpose]
      rcases hpack : source.fetch request with e | pack <;>
        rcases hpack' : source'.fetch request with e' | pack' <;> rw [hpack, hpack'] at hscalar
      · exact congrArg Except.error hscalar
      · exact absurd hscalar id
      · exact absurd hscalar id
      · obtain ⟨hperm, hsize, hfits⟩ := hscalar
        apply collectPacks_congr hperm hsize hfits
        intro fetched
        exact evalRows_perm hperm (Perm.refl _)

end

/-- Where the last wins, sources with the same rows give one answer. A series that is collapsed stays as
it is, and its parts may be collapsed before. -/
theorem last_wins_of_rows (regex : Text → Option (Text → Bool)) (arith : Arith) (range : EvalRange)
    (limits : EvalLimits) (expr : PromExpr) (source source' : PromSeriesSource)
    (h : SameRows limits (planPromFetch regex range limits expr) source source') :
    executePromWithDuplicates regex arith source expr range limits .lastWins =
        executePromWithDuplicates regex arith source' expr range limits .lastWins ∧
      (∀ samples, collapseDuplicateSamples (collapseDuplicateSamples samples) =
        collapseDuplicateSamples samples) ∧
      (∀ parts : List (List FloatSample), collapseDuplicateSamples (parts.map collapseDuplicateSamples).flatten =
        collapseDuplicateSamples parts.flatten) ∧
      (∀ points, collapseDuplicateHistogramPoints (collapseDuplicateHistogramPoints points) =
        collapseDuplicateHistogramPoints points) ∧
      ∀ parts : List (List HistogramPoint),
        collapseDuplicateHistogramPoints (parts.map collapseDuplicateHistogramPoints).flatten =
          collapseDuplicateHistogramPoints parts.flatten :=
  ⟨execute_congr h, collapse_collapse sampleOrder, collapse_flatten sampleOrder,
    collapse_collapse pointOrder, collapse_flatten pointOrder⟩

/-! ## A series in two parts -/

/-- The answers of a source that returns what it is given. -/
def answering (series : List PromSeries) : PromSeriesSource where
  fetch _ := .ok series
  fetchHistograms _ := .ok []

/-- Doubles of which only a sum with zero is computed. -/
def noArith : Arith where
  add a b := if a = 0 then b else a
  sub a _ := a
  mul a _ := a
  div a _ := a
  min a _ := a
  max a _ := a

def cpuLabels : LabelSet := [("__name__".toList, "cpu".toList)]

/-- A selector of the metric at one instant. -/
def cpuExpr : PromExpr := .selector [⟨"__name__".toList, .eq, "cpu".toList⟩]

def atTen : EvalRange := ⟨10, 10, 1, 5⟩

/-- The limits with one series. -/
def oneSeries : EvalLimits := { EvalLimits.default with maxEvaluationPoints := 10, maxSeries := 1 }

/-- With a limit of two series the two entries, in another order, are the same. -/
theorem last_wins_two_parts :
    executePromWithDuplicates (fun _ => none) noArith
        (answering [⟨cpuLabels, [⟨9, 0⟩]⟩, ⟨cpuLabels, [⟨8, 0⟩]⟩]) cpuExpr atTen EvalLimits.default
          .lastWins =
      executePromWithDuplicates (fun _ => none) noArith (answering [⟨cpuLabels, [⟨8, 0⟩, ⟨9, 0⟩]⟩])
        cpuExpr atTen EvalLimits.default .lastWins := by
  apply (last_wins_of_rows (fun _ => none) noArith atTen EvalLimits.default cpuExpr _ _ _).1
  intro requests hplan request hrequest
  obtain ⟨request', hfetch, rfl⟩ := planPromFetch_single hplan
  rw [mem_singleton.mp hrequest, ← (List.cons.inj (Except.ok.inj hfetch)).1]
  refine ⟨⟨Perm.swap _ _ _, by decide, .inr (by decide)⟩, ⟨Perm.refl _, by decide, .inr (by decide)⟩⟩

/-- A source that returns one series as two entries exceeds the limit of one series. -/
theorem split_series_exceeds :
    executePromWithDuplicates (fun _ => none) noArith
        (answering [⟨cpuLabels, [⟨8, 0⟩, ⟨9, 0⟩]⟩]) cpuExpr atTen oneSeries .lastWins =
        .ok [⟨cpuLabels, [⟨10, 0⟩]⟩] ∧
      executePromWithDuplicates (fun _ => none) noArith
        (answering [⟨cpuLabels, [⟨8, 0⟩]⟩, ⟨cpuLabels, [⟨9, 0⟩]⟩]) cpuExpr atTen oneSeries .lastWins =
        .error (.limitExceeded "PromQL source series".toList) ∧
      scalarRows [⟨cpuLabels, [⟨8, 0⟩, ⟨9, 0⟩]⟩] =
        scalarRows [⟨cpuLabels, [⟨8, 0⟩]⟩, ⟨cpuLabels, [⟨9, 0⟩]⟩] := by
  decide +kernel

end Imbh.Lgtm
