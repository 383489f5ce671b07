import Imbh.Lib.Float64
import Imbh.Metrics.ExpMerge

/-!
# Merging explicit histograms (`metrics.rs`)

The rows of a query are grouped by their labels, in the order in which the labels are first seen, and by their bucket
of time. The first row of a group fixes its boundaries; a row that has others is left out.

* `emission_irrelevant` — which emissions of the rows give the same series.
-/

namespace Imbh.Metrics

open Lib List Option Function

/-- A row of `merged_sql`. -/
structure HistogramRow where
  bucket : ℤ
  groups : List (Option String)
  explicitBounds : List F64
  bucketCounts : List ℕ
  deriving DecidableEq

/-- The rows of a batch, and whether its columns have the types that are asked of them. -/
structure RecordBatch where
  rows : List HistogramRow
  bucketIsInt64 : Bool
  boundsAreList : Bool
  countsAreList : Bool

/-- A batch of the types of the query. -/
def RecordBatch.typed (rows : List HistogramRow) : RecordBatch := ⟨rows, true, true, true⟩

/-- Source: `imbh-core` `error.rs` `Error::column_type` -/
structure ColumnTypeError where
  column : String
  expected : String
  deriving DecidableEq

abbrev Labels : Type := List (String × String)

/-- Source: `metrics.rs` `MetricSeries` -/
structure MetricSeries where
  labels : Labels
  samples : List (ℤ × F64)
  deriving DecidableEq

/-- Source: `metrics.rs` `materialize_merged_quantile`, `labels` -/
def labelsOf (groupBy : List String) (row : HistogramRow) : Labels :=
  List.zipWith (fun key v => (key, v.getD "")) groupBy row.groups

/-- `==` on vectors of doubles -/
def sameBounds (a b : List F64) : Bool :=
  decide (a.length = b.length) && (List.zipWith F64.eq a b).all id

/-- `Vec::resize` to a length that is not smaller, with zeros -/
def resize (slots : List ℕ) (n : ℕ) : List ℕ := slots ++ List.replicate (n - slots.length) 0

/-- Source: `metrics.rs` `materialize_merged_quantile`, the loop over `slot` -/
def addEach : List ℕ → List ℕ → List ℕ
  | slot :: slots, c :: cs => saturate (slot + c) :: addEach slots cs
  | slots, _ => slots

/-- Source: `metrics.rs` `materialize_merged_quantile`, the counts of a row that has the boundaries -/
def addCounts (slots counts : List ℕ) : List ℕ :=
  addEach (if slots.length < counts.length then resize slots counts.length else slots) counts

/-- A `BTreeMap` from the bucket of time to the boundaries and the counts. -/
abbrev BucketEntries : Type := List (ℤ × List F64 × List ℕ)

/-- Source: `metrics.rs` `materialize_merged_quantile`, `entry` -/
def mergeEntry (row : HistogramRow) (slot : Option (List F64 × List ℕ)) : List F64 × List ℕ :=
  let entry := slot.getD (row.explicitBounds, [])
  if sameBounds entry.1 row.explicitBounds then (entry.1, addCounts entry.2 row.bucketCounts) else entry

/-- The series by their labels, and the labels in the order in which they were seen. -/
structure SeriesMap where
  order : List Labels
  series : Labels → Option BucketEntries

/-- Source: `metrics.rs` `materialize_merged_quantile`, one row -/
def mergeRow (groupBy : List String) (m : SeriesMap) (row : HistogramRow) : SeriesMap :=
  let labels := labelsOf groupBy row
  { order := if (m.series labels).isSome then m.order else m.order ++ [labels]
    series := update m.series labels
      (some (putEntry row.bucket (mergeEntry row) ((m.series labels).getD []))) }

/-- Source: `metrics.rs` `materialize_merged_quantile`, one batch -/
def mergeBatch (groupBy : List String) (m : SeriesMap) (b : RecordBatch) : Except ColumnTypeError SeriesMap :=
  if !b.bucketIsInt64 then .error ⟨"merged bucket", "Int64"⟩
  else if !b.boundsAreList then .error ⟨"explicit_bounds", "a List column"⟩
  else if !b.countsAreList then .error ⟨"bucket_counts", "a List column"⟩
  else .ok (b.rows.foldl (mergeRow groupBy) m)

section

variable (histogramQuantile : F64 → List F64 → List ℕ → F64) (phi : F64)

/-- The samples of a series. -/
def samplesOf (buckets : BucketEntries) : List (ℤ × F64) :=
  buckets.map fun e => (e.1, histogramQuantile phi e.2.1 e.2.2)

/-- Source: `metrics.rs` `materialize_merged_quantile` -/
def materializeMergedQuantile (groupBy : List String) (batches : List RecordBatch) :
    Except ColumnTypeError (List MetricSeries) := do
  let m ← batches.foldlM (mergeBatch groupBy) ⟨[], fun _ => none⟩
  return m.order.map fun labels => ⟨labels, samplesOf histogramQuantile phi ((m.series labels).getD [])⟩

end

/-! ## Sums of counts -/

/-- The counts of several rows, one after another. -/
def sumCounts (rows : List (List ℕ)) : List ℕ := rows.foldl addCounts []

theorem getElem?_addEach (slots counts : List ℕ) (i : ℕ) :
    (addEach slots counts)[i]? = slots[i]?.map fun slot => counts[i]?.elim slot fun c => saturate (slot + c) := by
  induction slots, counts using addEach.induct generalizing i with
  | case1 slot slots c cs ih =>
    rcases i with _ | i
    · rfl
    · exact ih i
  | case2 slots counts hcases =>
    rcases slots with _ | ⟨slot, slots⟩
    · rfl
    · rcases counts with _ | ⟨c, cs⟩
      · simp [addEach]
      · exact absurd rfl (hcases slot slots c cs rfl)

theorem length_addCounts (slots counts : List ℕ) :
    (addCounts slots counts).length = max slots.length counts.length := by
  have hkeep (slots counts : List ℕ) : (addEach slots counts).length = slots.length := by
    induction slots, counts using addEach.induct with
    | case1 slot slots c cs ih => simp [addEach, ih]
    | case2 slots counts hcases => rw [addEach]; exact hcases
  unfold addCounts
  rw [hkeep]
  split
  · rw [resize, length_append, length_replicate]
    omega
  · omega

theorem getD_resize (slots : List ℕ) (n i : ℕ) : (resize slots n).getD i 0 = slots.getD i 0 := by
  unfold resize
  rw [getD_eq_getElem?_getD, getD_eq_getElem?_getD, getElem?_append]
  split
  · rfl
  · rename_i hge
    rw [getElem?_replicate, getElem?_eq_none (Nat.le_of_not_lt hge)]
    split <;> rfl

theorem getD_addEach {slots counts : List ℕ} (hlength : counts.length ≤ slots.length) {i : ℕ}
    (hslot : saturate (slots.getD i 0) = slots.getD i 0) :
    (addEach slots counts).getD i 0 = saturate (slots.getD i 0 + counts.getD i 0) := by
  rw [getD_eq_getElem?_getD, getD_eq_getElem?_getD, getD_eq_getElem?_getD, getElem?_addEach]
  rw [getD_eq_getElem?_getD] at hslot
  rcases hi : slots[i]? with _ | slot
  · rw [getElem?_eq_none (hlength.trans (getElem?_eq_none_iff.mp hi))]
    rfl
  · rw [hi] at hslot
    rcases counts[i]? with _ | c
    · exact hslot.symm
    · rfl

theorem getD_addCounts {slots : List ℕ} (counts : List ℕ) {i : ℕ} (hslot : saturate (slots.getD i 0) = slots.getD i 0) :
    (addCounts slots counts).getD i 0 = saturate (slots.getD i 0 + counts.getD i 0) := by
  unfold addCounts
  split
  · have hlength : counts.length ≤ (resize slots counts.length).length := by
      rw [resize, length_append, length_replicate]
      omega
    rw [getD_addEach hlength (by rwa [getD_resize]), getD_resize]
  · rename_i hlength
    exact getD_addEach (Nat.le_of_not_lt hlength) hslot

/-- The sum at each place. -/
theorem getD_sumCounts (rows : List (List ℕ)) (i : ℕ) :
    (sumCounts rows).getD i 0 = saturate (rows.map fun counts => counts.getD i 0).sum := by
  have hfold (slots : List ℕ) (hslot : saturate (slots.getD i 0) = slots.getD i 0) :
      (rows.foldl addCounts slots).getD i 0 =
        saturate (slots.getD i 0 + (rows.map fun counts => counts.getD i 0).sum) := by
    induction rows generalizing slots with
    | nil => exact hslot.symm
    | cons counts rows ih =>
      have hstep := getD_addCounts counts hslot
      rw [foldl_cons, ih _ (by rw [hstep, saturate_saturate]), hstep, saturate_add, map_cons, sum_cons,
        Nat.add_assoc]
  have hnil := hfold [] rfl
  rwa [getD_nil, Nat.zero_add] at hnil

/-- As many places as the longest row has. -/
theorem length_sumCounts (rows : List (List ℕ)) : (sumCounts rows).length = (rows.map List.length).foldl max 0 := by
  have hfold (slots : List ℕ) :
      (rows.foldl addCounts slots).length = (rows.map List.length).foldl max slots.length := by
    induction rows generalizing slots with
    | nil => rfl
    | cons counts rows ih => rw [foldl_cons, ih, length_addCounts, map_cons, foldl_cons]
  exact hfold []

/-- The sums do not depend on an order. -/
theorem sumCounts_perm {rows rows' : List (List ℕ)} (h : rows.Perm rows') : sumCounts rows = sumCounts rows' := by
  have hlength : (sumCounts rows).length = (sumCounts rows').length := by
    rw [length_sumCounts, length_sumCounts]
    exact (h.map _).foldl_eq' (fun x _ y _ z => Nat.max_right_comm z x y) 0
  apply ext_getElem hlength
  intro i hi hi'
  have hsum := getD_sumCounts rows i
  have hsum' := getD_sumCounts rows' i
  rw [getD_eq_getElem?_getD, getElem?_eq_getElem hi, getD_some] at hsum
  rw [getD_eq_getElem?_getD, getElem?_eq_getElem hi', getD_some] at hsum'
  rw [hsum, hsum', (h.map _).sum_eq]

/-! ## Groups -/

/-- What the rows of a group leave: the boundaries of the first one, and the counts of those that have them. -/
def mergeGroup : List HistogramRow → Option (List F64 × List ℕ)
  | [] => none
  | row :: rows => some (row.explicitBounds,
      sumCounts (((row :: rows).filter fun r => sameBounds row.explicitBounds r.explicitBounds).map
        HistogramRow.bucketCounts))

/-- What a group is, in terms of all of its rows. -/
theorem foldl_mergeEntry (rows : List HistogramRow) :
    rows.foldl (fun v row => some (mergeEntry row v)) none = mergeGroup rows := by
  have hfold (rows : List HistogramRow) (bounds : List F64) (counts : List ℕ) :
      rows.foldl (fun v row => some (mergeEntry row v)) (some (bounds, counts)) =
        some (bounds, ((rows.filter fun r => sameBounds bounds r.explicitBounds).map
          HistogramRow.bucketCounts).foldl addCounts counts) := by
    induction rows generalizing counts with
    | nil => rfl
    | cons row rows ih =>
      rw [foldl_cons, mergeEntry, getD_some, filter_cons]
      dsimp only
      split
      · rw [ih]
        rfl
      · exact ih counts
  rcases rows with _ | ⟨row, rows⟩
  · rfl
  · rw [foldl_cons, mergeEntry, getD_none, mergeGroup, filter_cons]
    dsimp only
    split
    · rw [hfold]
      rfl
    · rw [hfold]
      rfl

/-- The rows of a series in a bucket of time. -/
def rowsOf (groupBy : List String) (rows : List HistogramRow) (labels : Labels) (bucket : ℤ) : List HistogramRow :=
  (rows.filter fun row => labelsOf groupBy row = labels).filter fun row => row.bucket = bucket

/-- The entries of the rows of a series. -/
def entriesOf (rows : List HistogramRow) : BucketEntries :=
  rows.foldl (fun es row => putEntry row.bucket (mergeEntry row) es) []

theorem ascending_entriesOf (rows : List HistogramRow) : Ascending (entriesOf rows) :=
  Ascending.foldl_putEntry Pairwise.nil HistogramRow.bucket mergeEntry rows

theorem valueAt_entriesOf (rows : List HistogramRow) (bucket : ℤ) :
    valueAt (entriesOf rows) bucket = mergeGroup (rows.filter fun row => row.bucket = bucket) := by
  rw [← foldl_mergeEntry]
  exact valueAt_foldl_putEntry Pairwise.nil HistogramRow.bucket mergeEntry rows bucket

/-- What the maps are after the rows. -/
structure IsSeriesOf (groupBy : List String) (rows : List HistogramRow) (m : SeriesMap) : Prop where
  nodup : m.order.Nodup
  order : ∀ labels, labels ∈ m.order ↔ ∃ row ∈ rows, labelsOf groupBy row = labels
  isSome : ∀ labels, (m.series labels).isSome ↔ labels ∈ m.order
  entries : ∀ labels, (m.series labels).getD [] = entriesOf (rows.filter fun row => labelsOf groupBy row = labels)

variable {rows : List HistogramRow} {groupBy : List String}

theorem IsSeriesOf.mergeRow {m : SeriesMap} (h : IsSeriesOf groupBy rows m) (row : HistogramRow) :
    IsSeriesOf groupBy (rows ++ [row]) (mergeRow groupBy m row) := by
  have hmem (labels : Labels) : labels ∈ (Metrics.mergeRow groupBy m row).order ↔
      labels ∈ m.order ∨ labelsOf groupBy row = labels := by
    unfold Metrics.mergeRow
    dsimp only
    split
    · rename_i hold
      exact (or_iff_left_of_imp fun heq => heq ▸ (h.isSome _).mp hold).symm
    · rw [mem_append, mem_singleton]
      exact or_congr_right eq_comm
  refine ⟨?_, fun labels => ?_, fun labels => ?_, fun labels => ?_⟩
  · unfold Metrics.mergeRow
    dsimp only
    split
    · exact h.nodup
    · rename_i hnew
      rw [nodup_append_comm, singleton_append, nodup_cons]
      exact ⟨fun hold => hnew ((h.isSome _).mpr hold), h.nodup⟩
  · rw [hmem, h.order]
    simp only [mem_append, mem_singleton, or_and_right, exists_or, exists_eq_left]
  · rw [hmem, ← h.isSome]
    unfold Metrics.mergeRow
    dsimp only
    rw [update_apply]
    split
    · rename_i heq
      simp [heq]
    · rename_i hne
      exact (or_iff_left (Ne.symm hne)).symm
  · unfold Metrics.mergeRow
    dsimp only
    rw [update_apply, filter_append]
    split
    · rename_i heq
      subst heq
      rw [getD_some, h.entries, filter_singleton, decide_eq_true rfl, entriesOf, entriesOf,
        foldl_append]
      rfl
    · rename_i hne
      rw [h.entries, filter_singleton, decide_eq_false (Ne.symm hne)]
      exact congrArg entriesOf (append_nil _).symm

theorem foldl_mergeRow {m : SeriesMap} (h : IsSeriesOf groupBy rows m) (rest : List HistogramRow) :
    IsSeriesOf groupBy (rows ++ rest) (rest.foldl (mergeRow groupBy) m) := by
  induction rest generalizing rows m with
  | nil => rwa [append_nil]
  | cons row rest ih =>
    rw [foldl_cons, append_cons]
    exact ih (h.mergeRow row)

/-! ## Emissions -/

/-- The boundaries of the first row of each group. -/
def firstBounds (groupBy : List String) (rows : List HistogramRow) (labels : Labels) (bucket : ℤ) :
    Option (List F64) := (rowsOf groupBy rows labels bucket).head?.map HistogramRow.explicitBounds

/-- Groups of the same rows and the same first boundaries leave the same. -/
theorem mergeGroup_perm {rows' : List HistogramRow} (h : rows.Perm rows')
    (hfirst : rows.head?.map HistogramRow.explicitBounds = rows'.head?.map HistogramRow.explicitBounds) :
    mergeGroup rows = mergeGroup rows' := by
  rcases rows with _ | ⟨row, rows⟩
  · rw [h.symm.eq_nil]
  rcases rows' with _ | ⟨row', rows'⟩
  · exact nomatch h.eq_nil
  have hbounds : row.explicitBounds = row'.explicitBounds := some.inj hfirst
  rw [mergeGroup, mergeGroup, hbounds, sumCounts_perm ((h.filter _).map _)]

theorem entriesOf_perm {rows' : List HistogramRow} (h : rows.Perm rows')
    (hfirst : ∀ bucket,
      (rows.filter fun row => row.bucket = bucket).head?.map HistogramRow.explicitBounds =
        (rows'.filter fun row => row.bucket = bucket).head?.map HistogramRow.explicitBounds) :
    entriesOf rows = entriesOf rows' := by
  apply (ascending_entriesOf rows).ext_valueAt (ascending_entriesOf rows')
  intro bucket
  rw [valueAt_entriesOf, valueAt_entriesOf, mergeGroup_perm (h.filter _) (hfirst bucket)]

theorem foldlM_mergeBatch (groupBy : List String) (m : SeriesMap) (splits : List (List HistogramRow)) :
    (splits.map RecordBatch.typed).foldlM (mergeBatch groupBy) m = .ok (splits.flatten.foldl (mergeRow groupBy) m) := by
  induction splits generalizing m with
  | nil => rfl
  | cons rows splits ih =>
    rw [map_cons, foldlM_cons, flatten_cons, foldl_append, ← ih]
    rfl

section

variable (histogramQuantile : F64 → List F64 → List ℕ → F64) (phi : F64)

/-- The series of rows, in the order in which their labels are seen. -/
def seriesOf (groupBy : List String) (rows : List HistogramRow) : List MetricSeries :=
  (rows.foldl (mergeRow groupBy) ⟨[], fun _ => none⟩).order.map fun labels =>
    ⟨labels, samplesOf histogramQuantile phi (entriesOf (rows.filter fun row => labelsOf groupBy row = labels))⟩

theorem isSeriesOf (groupBy : List String) (rows : List HistogramRow) :
    IsSeriesOf groupBy rows (rows.foldl (mergeRow groupBy) ⟨[], fun _ => none⟩) := by
  have hempty : IsSeriesOf groupBy [] ⟨[], fun _ => none⟩ :=
    ⟨nodup_nil, fun _ => by simp, fun _ => by simp, fun _ => rfl⟩
  exact foldl_mergeRow hempty rows

theorem materialize_typed (groupBy : List String) (splits : List (List HistogramRow)) :
    materializeMergedQuantile histogramQuantile phi groupBy (splits.map RecordBatch.typed) =
      .ok (seriesOf histogramQuantile phi groupBy splits.flatten) := by
  unfold materializeMergedQuantile seriesOf
  rw [foldlM_mergeBatch]
  refine congrArg Except.ok (map_congr_left fun labels _ => ?_)
  rw [(isSeriesOf groupBy splits.flatten).entries]

theorem seriesOf_perm {rows' : List HistogramRow} (h : rows.Perm rows')
    (hfirst : ∀ labels bucket, firstBounds groupBy rows labels bucket = firstBounds groupBy rows' labels bucket) :
    (seriesOf histogramQuantile phi groupBy rows).Perm (seriesOf histogramQuantile phi groupBy rows') := by
  have hs := isSeriesOf groupBy rows
  have hs' := isSeriesOf groupBy rows'
  have horder := (perm_ext_iff_of_nodup hs.nodup hs'.nodup).mpr fun labels => by
    rw [hs.order, hs'.order]
    simp only [h.mem_iff]
  unfold seriesOf
  refine (horder.map _).trans (Perm.of_eq (map_congr_left fun labels _ => ?_))
  rw [entriesOf_perm (h.filter _) (hfirst labels)]

/-- Which samples a series has. -/
theorem mem_samples {labels : Labels} {e : ℤ × F64} :
    (∃ s ∈ seriesOf histogramQuantile phi groupBy rows, s.labels = labels ∧ e ∈ s.samples) ↔
      ∃ entry, mergeGroup (rowsOf groupBy rows labels e.1) = some entry ∧ e.2 = histogramQuantile phi entry.1 entry.2 := by
  have hs := isSeriesOf groupBy rows
  have hentries (x : ℤ) (entry : List F64 × List ℕ) :
      (x, entry) ∈ entriesOf (rows.filter fun row => labelsOf groupBy row = labels) ↔
        mergeGroup (rowsOf groupBy rows labels x) = some entry := by
    rw [← (ascending_entriesOf _).valueAt_eq_some, valueAt_entriesOf]
    rfl
  constructor
  · rintro ⟨s, hmem, rfl, he⟩
    obtain ⟨labels, -, rfl⟩ := mem_map.mp hmem
    obtain ⟨⟨x, entry⟩, hentry, rfl⟩ := mem_map.mp he
    exact ⟨entry, (hentries x entry).mp hentry, rfl⟩
  · rintro ⟨entry, hgroup, hvalue⟩
    have hlabels : ∃ row ∈ rows, labelsOf groupBy row = labels := by
      rcases hrows : rowsOf groupBy rows labels e.1 with _ | ⟨row, rest⟩
      · rw [hrows] at hgroup
        exact nomatch hgroup
      · have hrow : row ∈ rowsOf groupBy rows labels e.1 := by
          rw [hrows]
          exact mem_cons_self
        have hmem := mem_filter.mp (mem_filter.mp hrow).1
        exact ⟨row, hmem.1, of_decide_eq_true hmem.2⟩
    refine ⟨_, mem_map_of_mem ((hs.order labels).mpr hlabels), rfl, ?_⟩
    exact mem_map.mpr ⟨(e.1, entry), (hentries e.1 entry).mpr hgroup, by rw [← hvalue]⟩

/-- A split into batches does not matter, and the order of the rows matters only to the boundaries of the first row of
a group and to the order of the series. A sample is the quantile of these boundaries and the sums of the rows of the
group that have them, which are all of its rows if they agree. -/
theorem emission_irrelevant (groupBy : List String) :
    (∀ splits splits' : List (List HistogramRow), splits.flatten = splits'.flatten →
      materializeMergedQuantile histogramQuantile phi groupBy (splits.map RecordBatch.typed) =
        materializeMergedQuantile histogramQuantile phi groupBy (splits'.map RecordBatch.typed)) ∧
    (∀ splits splits' : List (List HistogramRow), splits.flatten.Perm splits'.flatten →
      (∀ labels bucket, firstBounds groupBy splits.flatten labels bucket =
        firstBounds groupBy splits'.flatten labels bucket) →
      ∃ series series',
        materializeMergedQuantile histogramQuantile phi groupBy (splits.map RecordBatch.typed) = .ok series ∧
        materializeMergedQuantile histogramQuantile phi groupBy (splits'.map RecordBatch.typed) = .ok series' ∧
        series.Perm series') ∧
    (∀ splits : List (List HistogramRow), ∃ series,
      materializeMergedQuantile histogramQuantile phi groupBy (splits.map RecordBatch.typed) = .ok series ∧
      (series.map MetricSeries.labels).Nodup ∧
      ∀ labels bucket value, (∃ s ∈ series, s.labels = labels ∧ (bucket, value) ∈ s.samples) ↔
        ∃ row rest, rowsOf groupBy splits.flatten labels bucket = row :: rest ∧
          value = histogramQuantile phi row.explicitBounds (sumCounts
            (((row :: rest).filter fun r => sameBounds row.explicitBounds r.explicitBounds).map
              HistogramRow.bucketCounts)) ∧
          ((∀ r ∈ row :: rest, sameBounds row.explicitBounds r.explicitBounds) →
            value = histogramQuantile phi row.explicitBounds
              (sumCounts ((row :: rest).map HistogramRow.bucketCounts)))) ∧
    ∀ (counts : List (List ℕ)) (i : ℕ),
      (sumCounts counts).getD i 0 = saturate (counts.map fun c => c.getD i 0).sum := by
  refine ⟨fun splits splits' h => ?_, fun splits splits' h hfirst => ?_, fun splits => ?_, getD_sumCounts⟩
  · rw [materialize_typed, materialize_typed, h]
  · exact ⟨_, _, materialize_typed _ _ _ _, materialize_typed _ _ _ _, seriesOf_perm _ _ h hfirst⟩
  · refine ⟨_, materialize_typed _ _ _ _, ?_, fun labels bucket value => ?_⟩
    · have hlabels : (seriesOf histogramQuantile phi groupBy splits.flatten).map MetricSeries.labels =
          (splits.flatten.foldl (mergeRow groupBy) ⟨[], fun _ => none⟩).order := by
        unfold seriesOf
        rw [List.map_map]
        exact List.map_id _
      rw [hlabels]
      exact (isSeriesOf groupBy splits.flatten).nodup
    · rw [mem_samples]
      rcases rowsOf groupBy splits.flatten labels bucket with _ | ⟨row, rest⟩
      · simp [mergeGroup]
      · constructor
        · rintro ⟨_, hentry, rfl⟩
          rw [← Option.some.inj hentry]
          refine ⟨row, rest, rfl, rfl, fun hagree => ?_⟩
          rw [List.filter_eq_self.mpr hagree]
        · rintro ⟨_, _, heq, hvalue, -⟩
          obtain ⟨rfl, rfl⟩ := List.cons.inj heq
          exact ⟨_, rfl, hvalue⟩

end

/-- The double 1. -/
def oneF64 : F64 := 0x3ff0000000000000

/-- The double 2. -/
def twoF64 : F64 := 0x4000000000000000

/-- The quantile where all counts are beyond the last boundary.
Source: `imbh-core` `histogram.rs` `histogram_quantile`, the overflow bucket -/
def overflowQuantile (_ : F64) (bounds : List F64) (_ : List ℕ) : F64 := bounds.getLast?.getD 0x7ff0000000000000

def lowRow : HistogramRow := ⟨0, [], [oneF64], [0, 5]⟩

def highRow : HistogramRow := ⟨0, [], [twoF64], [0, 5]⟩

def lowMoreRow : HistogramRow := ⟨0, [], [oneF64], [2, 1]⟩

/-- Two rows of one boundary in two orders. -/
theorem emission_irrelevant_agreeing : ∃ series series',
    materializeMergedQuantile overflowQuantile oneF64 [] ([[lowRow], [lowMoreRow]].map RecordBatch.typed) = .ok series ∧
      materializeMergedQuantile overflowQuantile oneF64 [] ([[lowMoreRow, lowRow]].map RecordBatch.typed) =
        .ok series' ∧
      series.Perm series' := by
  refine (emission_irrelevant overflowQuantile oneF64 []).2.1 [[lowRow], [lowMoreRow]] [[lowMoreRow, lowRow]]
    (Perm.swap _ _ _) fun labels bucket => ?_
  unfold firstBounds rowsOf
  by_cases hlabels : ([] : Labels) = labels <;> by_cases hbucket : (0 : ℤ) = bucket <;>
    simp [labelsOf, lowRow, lowMoreRow, hlabels, hbucket]

/-- The boundaries are those of the row that comes first. -/
theorem emission_decides :
    [[lowRow, highRow]].flatten.Perm [[highRow, lowRow]].flatten ∧
      materializeMergedQuantile overflowQuantile oneF64 [] ([[lowRow, highRow]].map RecordBatch.typed) =
        .ok [⟨[], [(0, oneF64)]⟩] ∧
      materializeMergedQuantile overflowQuantile oneF64 [] ([[highRow, lowRow]].map RecordBatch.typed) =
        .ok [⟨[], [(0, twoF64)]⟩] ∧
      ¬[(⟨[], [(0, oneF64)]⟩ : MetricSeries)].Perm [⟨[], [(0, twoF64)]⟩] := by
  refine ⟨Perm.swap _ _ _, rfl, rfl, fun hperm => ?_⟩
  rw [singleton_perm_singleton] at hperm
  exact absurd hperm (by decide)

end Imbh.Metrics
