import Imbh.Lib.Grouping
import Imbh.Lgtm.PromQl

/-!
# Buckets of time

Ranges of metrics, volumes of logs and metrics of spans count the selected rows in buckets of time. The
bucket is an expression of SQL, whose division cuts off toward zero, and the rows of a bucket are grouped by
attributes that may be absent, which afterwards are empty texts.

* `bucketed_iff` — when the results are well-formed and each row is counted in its bucket.
-/

namespace Imbh.Query

open Lib List

/-! ## Steps -/

/-- A step in nanoseconds, at least one. Source: `metrics.rs` `step_nanos` -/
def stepNanos (step : ℕ) : ℤ := max 1 (if (step : ℤ) ≤ 2 ^ 63 - 1 then (step : ℤ) else 2 ^ 63 - 1)

/-- A step in nanoseconds, at least one. Source: `logs.rs` `LogsApi::volume_by` and `traces.rs`
`SpanMetricsQuery::to_sql` -/
def stepAsNanos (step : ℕ) : ℤ := max 1 (wrapI64 step)

/-- The bucket of a time. Source: the column `bucket` of the statements -/
def bucketOf (stepNs t : ℤ) : ℤ := t.tdiv stepNs * stepNs

theorem stepNanos_bounds (step : ℕ) : 1 ≤ stepNanos step ∧ (0 < step → stepNanos step ≤ step) := by
  unfold stepNanos
  constructor
  · exact le_max_left _ _
  · intro _
    split <;> omega

theorem stepAsNanos_bounds (step : ℕ) : 1 ≤ stepAsNanos step ∧ (0 < step → stepAsNanos step ≤ step) := by
  unfold stepAsNanos wrapI64
  constructor
  · exact le_max_left _ _
  · intro _
    omega

variable {step : ℕ}

section

variable {stepNs t : ℤ}

theorem bucketOf_nonneg (hstep : 0 < stepNs) (ht : 0 ≤ t) :
    bucketOf stepNs t ≤ t ∧ t < bucketOf stepNs t + stepNs := by
  unfold bucketOf
  rw [Int.tdiv_eq_ediv_of_nonneg ht]
  have hmod := Int.emod_nonneg t hstep.ne'
  have hlt := Int.emod_lt_of_pos t hstep
  have heq := Int.ediv_mul_add_emod t stepNs
  omega

theorem bucketOf_dvd (h : stepNs ∣ t) : bucketOf stepNs t = t := Int.tdiv_mul_cancel h

/-- The bucket of a negative time is above it unless it is a multiple of the step. -/
theorem bucketOf_neg (ht : t < 0) (h : ¬stepNs ∣ t) : t < bucketOf stepNs t := by
  unfold bucketOf
  have hmod : 0 ≤ -t.tmod stepNs := by
    rw [← Int.neg_tmod]
    exact Int.tmod_nonneg stepNs (by omega)
  have hne : t.tmod stepNs ≠ 0 := fun hzero => h (Int.dvd_of_tmod_eq_zero hzero)
  rw [Int.tdiv_mul_self]
  omega

/-- When a bucket contains the time it is computed from. -/
theorem bucketOf_contains_iff (hpos : 1 ≤ stepNs) (hle : 0 < step → stepNs ≤ step) :
    (bucketOf stepNs t ≤ t ∧ t < bucketOf stepNs t + step) ↔ 0 < step ∧ (0 ≤ t ∨ stepNs ∣ t) := by
  constructor
  · rintro ⟨hlow, hhigh⟩
    refine ⟨by omega, ?_⟩
    by_contra hnot
    rw [not_or, not_le] at hnot
    exact absurd hlow (bucketOf_neg hnot.1 hnot.2).not_ge
  · rintro ⟨hstep, ht⟩
    have hsteps := hle hstep
    rcases ht with ht | ht
    · have hstepNs : 0 < stepNs := by omega
      obtain ⟨hlow, hhigh⟩ := bucketOf_nonneg hstepNs ht
      exact ⟨hlow, by omega⟩
    · rw [bucketOf_dvd ht]
      exact ⟨le_refl _, by omega⟩

/-- Different buckets are a step apart. -/
theorem bucketOf_apart {s : ℤ} (hpos : 0 < stepNs) (h : bucketOf stepNs s < bucketOf stepNs t) :
    bucketOf stepNs s + stepNs ≤ bucketOf stepNs t := by
  unfold bucketOf at h ⊢
  have hlt := lt_of_mul_lt_mul_right h hpos.le
  have hmul := mul_le_mul_of_nonneg_right (Int.add_one_le_of_lt hlt) hpos.le
  rwa [add_mul, one_mul] at hmul

end

/-! ## Groups -/

/-- A group of the statement: its bucket, its attributes, which may be absent, and the rows it is computed
over. -/
structure GroupRow (ρ : Type) where
  bucket : ℤ
  keys : List (Option Text)
  rows : List ρ

/-- The columns of a row that the statements group by. -/
structure Columns (ρ : Type) where
  time : ρ → ℤ
  attrField : Text → ρ → Option Text

section

variable {ρ : Type} (columns : Columns ρ) (groupBy : List Text) (stepNs : ℤ)

/-- The columns `bucket` and `g0` to `gN` of a row. -/
def groupKey (row : ρ) : ℤ × List (Option Text) :=
  (bucketOf stepNs (columns.time row), groupBy.map fun key => columns.attrField key row)

/-- An execution of `SELECT … GROUP BY bucket, g0, … ORDER BY bucket` over the selected rows. -/
structure Executes (selected : List ρ) (out : List (GroupRow ρ)) : Prop where
  ordered : out.Pairwise fun g h => g.bucket ≤ h.bucket
  distinct : out.Pairwise fun g h => (g.bucket, g.keys) ≠ (h.bucket, h.keys)
  rows : ∀ g ∈ out, g.rows.Perm (selected.filter fun row => groupKey columns groupBy stepNs row = (g.bucket, g.keys))
  nonempty : ∀ g ∈ out, g.rows ≠ []
  covers : ∀ row ∈ selected, ∃ g ∈ out, groupKey columns groupBy stepNs row = (g.bucket, g.keys)

/-- The labels of a group, in which an absent attribute is an empty text.
Source: `metrics.rs` `materialize_matrix`, `logs.rs` `materialize_volume`, `traces.rs`
`materialize_span_metrics` -/
def GroupRow.labels (g : GroupRow ρ) : List (Text × Text) := groupBy.zip (g.keys.map fun v => v.getD [])

/-- Source: `logs.rs` `VolumeBucket` -/
structure VolumeBucket where
  time : ℤ
  labels : List (Text × Text)
  count : ℕ

/-- Source: `logs.rs` `materialize_volume` -/
def materializeVolume (out : List (GroupRow ρ)) : List VolumeBucket :=
  out.map fun g => ⟨g.bucket, g.labels groupBy, g.rows.length⟩

/-- The groups in series of one label set, in the order in which the label sets come first.
Source: `metrics.rs` `materialize_matrix` and `traces.rs` `materialize_span_metrics` -/
def materializeSeries (out : List (GroupRow ρ)) : List (List (Text × Text) × List (GroupRow ρ)) :=
  groupAll (GroupRow.labels groupBy) (fun a b => decide (a = b)) out

/-- Source: `metrics.rs` `Sample` -/
structure Sample where
  time : ℤ
  value : F64

/-- Source: `metrics.rs` `MetricSeries` -/
structure MetricSeries where
  labels : List (Text × Text)
  samples : List Sample

/-- Source: `metrics.rs` `materialize_matrix` -/
def materializeMatrix (value : List ρ → F64) (out : List (GroupRow ρ)) : List MetricSeries :=
  (materializeSeries groupBy out).map fun s => ⟨s.1, s.2.map fun g => ⟨g.bucket, value g.rows⟩⟩

/-- Source: `traces.rs` `SpanMetricPoint`, of which the percentiles are one -/
structure SpanMetricPoint where
  time : ℤ
  calls : ℕ
  errors : ℕ
  errorRate : F64
  percentiles : F64 × F64 × F64

/-- Source: `traces.rs` `SpanMetricSeries` -/
structure SpanMetricSeries where
  labels : List (Text × Text)
  points : List SpanMetricPoint

/-- Source: `traces.rs` `materialize_span_metrics` -/
def materializeSpanMetrics (arith : Lgtm.Arith) (isError : ρ → Bool) (percentile : List ρ → F64 × F64 × F64)
    (out : List (GroupRow ρ)) : List SpanMetricSeries :=
  (materializeSeries groupBy out).map fun s => ⟨s.1, s.2.map fun g =>
    let calls := g.rows.length
    let errors := (g.rows.filter isError).length
    ⟨g.bucket, calls, errors, if 0 < calls then arith.div (natAsF64 errors) (natAsF64 calls) else 0,
      percentile g.rows⟩⟩

end

/-! ## Labels -/

section

variable {ρ : Type} {columns : Columns ρ} {groupBy : List Text} {stepNs : ℤ} {selected : List ρ}
  {out : List (GroupRow ρ)}

/-- Rows of one bucket whose attributes are equal, an absent one as an empty text, have equal attributes. -/
def SameWhereEmpty (columns : Columns ρ) (groupBy : List Text) (stepNs : ℤ) (selected : List ρ) : Prop :=
  ∀ r ∈ selected, ∀ r' ∈ selected, bucketOf stepNs (columns.time r) = bucketOf stepNs (columns.time r') →
    (∀ key ∈ groupBy, (columns.attrField key r).getD [] = (columns.attrField key r').getD []) →
    ∀ key ∈ groupBy, columns.attrField key r = columns.attrField key r'

theorem labels_of_key {g : GroupRow ρ} {row : ρ} (h : groupKey columns groupBy stepNs row = (g.bucket, g.keys)) :
    g.labels groupBy = groupBy.map fun key => (key, (columns.attrField key row).getD []) := by
  rw [GroupRow.labels, ← (Prod.mk.inj h).2, map_map]
  exact map_prod_left_eq_zip.symm

/-- A group has a row, whose key it has. -/
theorem Executes.exists_row (h : Executes columns groupBy stepNs selected out) {g : GroupRow ρ} (hg : g ∈ out) :
    ∃ row ∈ selected, row ∈ g.rows ∧ groupKey columns groupBy stepNs row = (g.bucket, g.keys) := by
  obtain ⟨row, hrow⟩ := exists_mem_of_ne_nil _ (h.nonempty g hg)
  obtain ⟨hmem, hkey⟩ := mem_filter.mp ((h.rows g hg).mem_iff.mp hrow)
  exact ⟨row, hmem, hrow, of_decide_eq_true hkey⟩

/-- Each label set has one group in a bucket if and only if no two rows of a bucket differ in an absent
attribute only. -/
theorem labels_nodup_iff (h : Executes columns groupBy stepNs selected out) :
    (out.map fun g => (g.bucket, g.labels groupBy)).Nodup ↔ SameWhereEmpty columns groupBy stepNs selected := by
  constructor
  · intro hnodup r hr r' hr' hbucket hlabels
    obtain ⟨g, hg, hkey⟩ := h.covers r hr
    obtain ⟨g', hg', hkey'⟩ := h.covers r' hr'
    have heq : g = g' := by
      refine inj_on_of_nodup_map hnodup hg hg' (Prod.ext ?_ ?_)
      · exact ((Prod.mk.inj hkey).1.symm.trans hbucket).trans (Prod.mk.inj hkey').1
      · rw [labels_of_key hkey, labels_of_key hkey']
        exact map_congr_left fun key hmem => by rw [hlabels key hmem]
    rw [← heq] at hkey'
    exact map_inj_left.mp ((Prod.mk.inj hkey).2.trans (Prod.mk.inj hkey').2.symm)
  · intro hsame
    refine pairwise_map.mpr (h.distinct.imp_of_mem fun {g g'} hg hg' hne heq => hne ?_)
    obtain ⟨r, hr, -, hkey⟩ := h.exists_row hg
    obtain ⟨r', hr', -, hkey'⟩ := h.exists_row hg'
    rw [labels_of_key hkey, labels_of_key hkey', Prod.mk.injEq, map_inj_left] at heq
    have hbucket := ((Prod.mk.inj hkey).1.trans heq.1).trans (Prod.mk.inj hkey').1.symm
    have hattrs := hsame r hr r' hr' hbucket fun key hmem => (Prod.mk.inj (heq.2 key hmem)).2
    rw [← hkey, ← hkey']
    exact Prod.ext hbucket (map_congr_left hattrs)

/-! ## Times -/

/-- Each bucket of the result counts the rows whose times it contains. -/
def CountedOnce (columns : Columns ρ) (step : ℕ) (selected : List ρ) (out : List (GroupRow ρ)) : Prop :=
  ∀ g ∈ out, ∀ row ∈ selected, (g.bucket ≤ columns.time row ∧ columns.time row < g.bucket + step) ↔
    ∃ h ∈ out, h.bucket = g.bucket ∧ row ∈ h.rows

/-- The times are multiples of the step or not negative, and none is within a step of an earlier bucket. -/
structure OnGrid (columns : Columns ρ) (stepNs : ℤ) (step : ℕ) (selected : List ρ) : Prop where
  aligned : ∀ row ∈ selected, 0 < step ∧ (0 ≤ columns.time row ∨ stepNs ∣ columns.time row)
  apart : ∀ r ∈ selected, ∀ r' ∈ selected,
    bucketOf stepNs (columns.time r') < bucketOf stepNs (columns.time r) →
      bucketOf stepNs (columns.time r') + step ≤ columns.time r

/-- A step that fits an `i64` keeps the buckets apart. -/
theorem onGrid_of_step (hstep : stepNs = step)
    (haligned : ∀ row ∈ selected, 0 < step ∧ (0 ≤ columns.time row ∨ stepNs ∣ columns.time row)) :
    OnGrid columns stepNs step selected where
  aligned := haligned
  apart r hr r' _ hlt := by
    have hpos : 1 ≤ stepNs := by
      have hstepPos := (haligned r hr).1
      omega
    have hcontains := (bucketOf_contains_iff hpos fun _ => hstep.le).mpr (haligned r hr)
    have hapart := bucketOf_apart (by omega) hlt
    omega

theorem mem_rows_iff (h : Executes columns groupBy stepNs selected out) {row : ρ} (hrow : row ∈ selected)
    (bucket : ℤ) :
    (∃ g ∈ out, g.bucket = bucket ∧ row ∈ g.rows) ↔ bucketOf stepNs (columns.time row) = bucket := by
  constructor
  · rintro ⟨g, hg, rfl, hmem⟩
    have hkey := (mem_filter.mp ((h.rows g hg).mem_iff.mp hmem)).2
    exact (Prod.mk.inj (of_decide_eq_true hkey)).1
  · rintro rfl
    obtain ⟨g, hg, hkey⟩ := h.covers row hrow
    refine ⟨g, hg, (Prod.mk.inj hkey).1.symm, (h.rows g hg).mem_iff.mpr ?_⟩
    exact mem_filter.mpr ⟨hrow, decide_eq_true hkey⟩

/-- Each bucket counts the rows whose times it contains if and only if the times are on the grid. -/
theorem countedOnce_iff (h : Executes columns groupBy stepNs selected out) (hpos : 1 ≤ stepNs)
    (hle : 0 < step → stepNs ≤ step) :
    CountedOnce columns step selected out ↔ OnGrid columns stepNs step selected := by
  constructor
  · intro hcounted
    have hpair (r : ρ) (hr : r ∈ selected) (r' : ρ) (hr' : r' ∈ selected) :
        (bucketOf stepNs (columns.time r') ≤ columns.time r ∧
          columns.time r < bucketOf stepNs (columns.time r') + step) ↔
        bucketOf stepNs (columns.time r) = bucketOf stepNs (columns.time r') := by
      obtain ⟨g, hg, hkey⟩ := h.covers r' hr'
      rw [(Prod.mk.inj hkey).1, hcounted g hg r hr, mem_rows_iff h hr]
    constructor
    · intro row hrow
      exact (bucketOf_contains_iff hpos hle).mp ((hpair row hrow row hrow).mpr rfl)
    · intro r hr r' hr' hlt
      by_contra hwithin
      have hself := (hpair r hr r hr).mpr rfl
      have heq := (hpair r hr r' hr').mp ⟨hlt.le.trans hself.1, not_le.mp hwithin⟩
      exact absurd heq hlt.ne'
  · intro hgrid g hg row hrow
    obtain ⟨r', hr', -, hkey⟩ := h.exists_row hg
    have hcontains := (bucketOf_contains_iff hpos hle).mpr (hgrid.aligned row hrow)
    have hsteps := hle (hgrid.aligned row hrow).1
    rw [mem_rows_iff h hrow, ← (Prod.mk.inj hkey).1]
    constructor
    · rintro ⟨hlow, hhigh⟩
      rcases lt_trichotomy (bucketOf stepNs (columns.time row)) (bucketOf stepNs (columns.time r'))
        with hlt | heq | hlt
      · have hapart := bucketOf_apart (by omega) hlt
        have hwidth : columns.time row < bucketOf stepNs (columns.time row) + stepNs := by
          rcases (hgrid.aligned row hrow).2 with hnonneg | hdvd
          · exact (bucketOf_nonneg (by omega) hnonneg).2
          · rw [bucketOf_dvd hdvd]
            omega
        omega
      · exact heq
      · have happart := hgrid.apart row hrow r' hr' hlt
        omega
    · intro heq
      rw [← heq]
      exact hcontains

/-! ## Counts -/

/-- Each item is counted for one of the keys. -/
theorem sum_filter_length {κ : Type} [DecidableEq κ] (f : ρ → κ) (keys : List κ) (a : ρ) (l : List ρ) :
    (keys.map fun k => ((a :: l).filter fun x => f x = k).length).sum =
      keys.count (f a) + (keys.map fun k => (l.filter fun x => f x = k).length).sum := by
  induction keys with
  | nil => rfl
  | cons k keys ih =>
    rw [map_cons, sum_cons, ih, map_cons, sum_cons, count_cons, filter_cons]
    by_cases heq : f a = k
    · rw [if_pos (decide_eq_true heq), if_pos (beq_iff_eq.mpr heq.symm), length_cons]
      omega
    · rw [if_neg (by simpa using heq), if_neg (by simpa using Ne.symm heq)]
      omega

/-- The groups count each selected row once. -/
theorem rows_total (h : Executes columns groupBy stepNs selected out) :
    (out.map fun g => g.rows.length).sum = selected.length := by
  have hlengths : (out.map fun g => g.rows.length) = (out.map fun g => (g.bucket, g.keys)).map fun k =>
      (selected.filter fun row => groupKey columns groupBy stepNs row = k).length := by
    rw [map_map]
    exact map_congr_left fun g hg => (h.rows g hg).length_eq
  have hnodup : (out.map fun g => (g.bucket, g.keys)).Nodup := pairwise_map.mpr h.distinct
  have hcovers : ∀ row ∈ selected, groupKey columns groupBy stepNs row ∈ out.map fun g => (g.bucket, g.keys) := by
    intro row hrow
    obtain ⟨g, hg, hkey⟩ := h.covers row hrow
    exact hkey ▸ mem_map_of_mem hg
  rw [hlengths]
  generalize (out.map fun g => (g.bucket, g.keys)) = keys at hnodup hcovers
  clear hlengths h
  induction selected with
  | nil => simp
  | cons a l ih =>
    have hone : keys.count (groupKey columns groupBy stepNs a) = 1 := by
      convert count_eq_one_of_mem hnodup (hcovers a mem_cons_self)
    rw [sum_filter_length, ih fun row hrow => hcovers row (mem_cons_of_mem _ hrow), length_cons,
      Nat.add_comm]
    congr 1
    convert hone

/-! ## Series -/

theorem decide_equivalence {κ : Type} [DecidableEq κ] : Equivalence fun a b : κ => decide (a = b) = true where
  refl _ := decide_eq_true rfl
  symm h := decide_eq_true (of_decide_eq_true h).symm
  trans h h' := decide_eq_true ((of_decide_eq_true h).trans (of_decide_eq_true h'))

theorem series_spec (groupBy : List Text) (out : List (GroupRow ρ)) :
    (∀ s ∈ materializeSeries groupBy out, ∀ g ∈ s.2, decide (s.1 = g.labels groupBy) = true) ∧
      ((materializeSeries groupBy out).Pairwise fun s t => decide (s.1 = t.1) = false) ∧
      ((materializeSeries groupBy out).flatMap Prod.snd).Perm out ∧
      ∀ labels, ((materializeSeries groupBy out).flatMap Prod.snd).filter (fun g => labels = g.labels groupBy) =
        out.filter fun g => labels = g.labels groupBy :=
  groupAll_spec decide_equivalence out

/-- A series has the groups of its labels, in their order. -/
theorem series_groups {s : List (Text × Text) × List (GroupRow ρ)} (hs : s ∈ materializeSeries groupBy out) :
    s.2 = out.filter fun g => s.1 = g.labels groupBy := by
  obtain ⟨hkeys, hdistinct, -, hfilter⟩ := series_spec groupBy out
  rw [← filter_flatMap_group decide_equivalence hkeys hdistinct hs]
  exact hfilter s.1

/-- The label sets of the series differ. -/
theorem series_labels (out : List (GroupRow ρ)) :
    ((materializeSeries groupBy out).map Prod.fst).Nodup := by
  obtain ⟨-, hdistinct, -, -⟩ := series_spec groupBy out
  exact pairwise_map.mpr (hdistinct.imp fun hne => of_decide_eq_false hne)

/-- The series have all groups. -/
theorem series_perm (groupBy : List Text) (out : List (GroupRow ρ)) :
    ((materializeSeries groupBy out).flatMap Prod.snd).Perm out :=
  (series_spec groupBy out).2.2.1

/-- The times of all series are strictly increasing if and only if each label set has one group in a bucket. -/
theorem series_ordered_iff (h : Executes columns groupBy stepNs selected out) :
    (∀ s ∈ materializeSeries groupBy out, (s.2.map GroupRow.bucket).Pairwise (· < ·)) ↔
      (out.map fun g => (g.bucket, g.labels groupBy)).Nodup := by
  constructor
  · intro hordered
    refine pairwise_map.mpr (pairwise_iff_forall_sublist.mpr fun {g g'} hsub heq => ?_)
    have hg : g ∈ out := hsub.subset mem_cons_self
    obtain ⟨s, hs, hmem⟩ := mem_flatMap.mp ((series_perm groupBy out).mem_iff.mpr hg)
    rw [series_groups hs] at hmem
    have hlabels := of_decide_eq_true (mem_filter.mp hmem).2
    have hfilter : [g, g'].filter (fun g => s.1 = g.labels groupBy) = [g, g'] := by
      have hlabels' := hlabels.trans (Prod.mk.inj heq).2
      simp [← hlabels, ← hlabels']
    have hsub' := hsub.filter fun g => s.1 = g.labels groupBy
    rw [hfilter, ← series_groups hs] at hsub'
    have hlt := pairwise_iff_forall_sublist.mp (pairwise_map.mp (hordered s hs)) hsub'
    exact absurd (Prod.mk.inj heq).1 hlt.ne
  · intro hnodup s hs
    refine pairwise_map.mpr (pairwise_iff_forall_sublist.mpr fun {g g'} hsub => ?_)
    rw [series_groups hs] at hsub
    have hlabels {x : GroupRow ρ} (hx : x ∈ [g, g']) : s.1 = x.labels groupBy :=
      of_decide_eq_true (mem_filter.mp (hsub.subset hx)).2
    have hle := pairwise_iff_forall_sublist.mp h.ordered (hsub.trans filter_sublist)
    have hne := pairwise_iff_forall_sublist.mp (pairwise_map.mp hnodup)
      (hsub.trans filter_sublist)
    refine lt_of_le_of_ne hle fun heq => hne (Prod.ext heq ?_)
    rw [← hlabels mem_cons_self, ← hlabels (mem_cons_of_mem _ mem_cons_self)]

/-! ## Results -/

/-- Each label set has one count in a bucket, each bucket counts the rows it contains, and the counts add up to
the rows. -/
structure VolumeOk (columns : Columns ρ) (groupBy : List Text) (step : ℕ) (selected : List ρ)
    (out : List (GroupRow ρ)) : Prop where
  distinct : ((materializeVolume groupBy out).map fun b => (b.time, b.labels)).Nodup
  counted : CountedOnce columns step selected out
  total : ((materializeVolume groupBy out).map VolumeBucket.count).sum = selected.length

/-- Each label set has one series, whose times increase, each bucket aggregates the rows it contains, and the
samples are of as many rows as there are. -/
structure RangeOk (columns : Columns ρ) (groupBy : List Text) (step : ℕ) (value : List ρ → F64)
    (selected : List ρ) (out : List (GroupRow ρ)) : Prop where
  distinct : ((materializeMatrix groupBy value out).map MetricSeries.labels).Nodup
  ordered : ∀ s ∈ materializeMatrix groupBy value out, (s.samples.map Sample.time).Pairwise (· < ·)
  counted : CountedOnce columns step selected out
  total : (((materializeSeries groupBy out).flatMap Prod.snd).map fun g => g.rows.length).sum = selected.length

/-- Each label set has one series, whose times increase, each bucket counts the spans it contains, and the calls
add up to the spans. -/
structure SpanMetricsOk (columns : Columns ρ) (groupBy : List Text) (step : ℕ) (arith : Lgtm.Arith)
    (isError : ρ → Bool) (percentile : List ρ → F64 × F64 × F64) (selected : List ρ) (out : List (GroupRow ρ)) :
    Prop where
  distinct : ((materializeSpanMetrics groupBy arith isError percentile out).map SpanMetricSeries.labels).Nodup
  ordered : ∀ s ∈ materializeSpanMetrics groupBy arith isError percentile out,
    (s.points.map SpanMetricPoint.time).Pairwise (· < ·)
  counted : CountedOnce columns step selected out
  total : (((materializeSpanMetrics groupBy arith isError percentile out).flatMap SpanMetricSeries.points).map
    SpanMetricPoint.calls).sum = selected.length

theorem series_total (h : Executes columns groupBy stepNs selected out) :
    (((materializeSeries groupBy out).flatMap Prod.snd).map fun g => g.rows.length).sum = selected.length :=
  (((series_perm groupBy out).map fun g : GroupRow ρ => g.rows.length).sum_nat).trans (rows_total h)

theorem volumeOk_iff (h : Executes columns groupBy stepNs selected out) (hpos : 1 ≤ stepNs)
    (hle : 0 < step → stepNs ≤ step) :
    VolumeOk columns groupBy step selected out ↔
      OnGrid columns stepNs step selected ∧ SameWhereEmpty columns groupBy stepNs selected := by
  have hkeys : ((materializeVolume groupBy out).map fun b => (b.time, b.labels)) =
      out.map fun g => (g.bucket, g.labels groupBy) := map_map
  have hcounts : (materializeVolume groupBy out).map VolumeBucket.count = out.map fun g => g.rows.length :=
    map_map
  rw [← countedOnce_iff h hpos hle, ← labels_nodup_iff h, ← hkeys]
  constructor
  · intro hok
    exact ⟨hok.counted, hok.distinct⟩
  · rintro ⟨hcounted, hdistinct⟩
    exact ⟨hdistinct, hcounted, hcounts ▸ rows_total h⟩

theorem rangeOk_iff (value : List ρ → F64) (h : Executes columns groupBy stepNs selected out) (hpos : 1 ≤ stepNs)
    (hle : 0 < step → stepNs ≤ step) :
    RangeOk columns groupBy step value selected out ↔
      OnGrid columns stepNs step selected ∧ SameWhereEmpty columns groupBy stepNs selected := by
  have hlabels : (materializeMatrix groupBy value out).map MetricSeries.labels =
      (materializeSeries groupBy out).map Prod.fst := map_map
  have htimes : (∀ s ∈ materializeMatrix groupBy value out, (s.samples.map Sample.time).Pairwise (· < ·)) ↔
      ∀ s ∈ materializeSeries groupBy out, (s.2.map GroupRow.bucket).Pairwise (· < ·) := by
    refine forall_mem_map.trans (forall₂_congr fun s _ => ?_)
    rw [map_map]
    rfl
  rw [← countedOnce_iff h hpos hle, ← labels_nodup_iff h, ← series_ordered_iff h, ← htimes]
  constructor
  · intro hok
    exact ⟨hok.counted, hok.ordered⟩
  · rintro ⟨hcounted, hordered⟩
    exact ⟨hlabels ▸ series_labels out, hordered, hcounted, series_total h⟩

theorem spanMetricsOk_iff (arith : Lgtm.Arith) (isError : ρ → Bool) (percentile : List ρ → F64 × F64 × F64)
    (h : Executes columns groupBy stepNs selected out) (hpos : 1 ≤ stepNs) (hle : 0 < step → stepNs ≤ step) :
    SpanMetricsOk columns groupBy step arith isError percentile selected out ↔
      OnGrid columns stepNs step selected ∧ SameWhereEmpty columns groupBy stepNs selected := by
  have hlabels : (materializeSpanMetrics groupBy arith isError percentile out).map SpanMetricSeries.labels =
      (materializeSeries groupBy out).map Prod.fst := map_map
  have htimes : (∀ s ∈ materializeSpanMetrics groupBy arith isError percentile out,
      (s.points.map SpanMetricPoint.time).Pairwise (· < ·)) ↔
      ∀ s ∈ materializeSeries groupBy out, (s.2.map GroupRow.bucket).Pairwise (· < ·) := by
    refine forall_mem_map.trans (forall₂_congr fun s _ => ?_)
    rw [map_map]
    rfl
  have hcalls : ((materializeSpanMetrics groupBy arith isError percentile out).flatMap
      SpanMetricSeries.points).map SpanMetricPoint.calls =
      ((materializeSeries groupBy out).flatMap Prod.snd).map fun g => g.rows.length := by
    rw [map_flatMap, map_flatMap, materializeSpanMetrics, flatMap_map]
    refine flatMap_congr fun s _ => ?_
    rw [map_map]
    rfl
  rw [← countedOnce_iff h hpos hle, ← labels_nodup_iff h, ← series_ordered_iff h, ← htimes]
  constructor
  · intro hok
    exact ⟨hok.counted, hok.ordered⟩
  · rintro ⟨hcounted, hordered⟩
    exact ⟨hlabels ▸ series_labels out, hordered, hcounted, hcalls ▸ series_total h⟩

end

/-- When the results are well-formed and each row is counted in its bucket: the steps are positive, the times on
the grid, and no two rows of a bucket differ only in whether an attribute is absent or empty. -/
theorem bucketed_iff {ρ : Type} (columns : Columns ρ) (groupBy : List Text) (step : ℕ) (selected : List ρ)
    (out : List (GroupRow ρ)) (value : List ρ → F64) (arith : Lgtm.Arith) (isError : ρ → Bool)
    (percentile : List ρ → F64 × F64 × F64) :
    (Executes columns groupBy (stepNanos step) selected out →
      (RangeOk columns groupBy step value selected out ↔
        OnGrid columns (stepNanos step) step selected ∧
          SameWhereEmpty columns groupBy (stepNanos step) selected)) ∧
      (Executes columns groupBy (stepAsNanos step) selected out →
        (VolumeOk columns groupBy step selected out ↔
          OnGrid columns (stepAsNanos step) step selected ∧
            SameWhereEmpty columns groupBy (stepAsNanos step) selected) ∧
        (SpanMetricsOk columns groupBy step arith isError percentile selected out ↔
          OnGrid columns (stepAsNanos step) step selected ∧
            SameWhereEmpty columns groupBy (stepAsNanos step) selected)) := by
  obtain ⟨hpos, hle⟩ := stepNanos_bounds step
  obtain ⟨hpos', hle'⟩ := stepAsNanos_bounds step
  refine ⟨fun h => rangeOk_iff value h hpos hle, fun h => ⟨volumeOk_iff h hpos' hle', ?_⟩⟩
  exact spanMetricsOk_iff arith isError percentile h hpos' hle'

/-- Rows of a time and an attribute. -/
def pairColumns : Columns (ℤ × Option Text) := ⟨Prod.fst, fun _ => Prod.snd⟩

theorem executes_alone (row : ℤ × Option Text) (groupBy : List Text) (stepNs : ℤ) :
    Executes pairColumns groupBy stepNs [row]
      [⟨(groupKey pairColumns groupBy stepNs row).1, (groupKey pairColumns groupBy stepNs row).2, [row]⟩] where
  ordered := pairwise_singleton _ _
  distinct := pairwise_singleton _ _
  rows g hg := by
    obtain rfl := mem_singleton.mp hg
    simp
  nonempty g hg := by
    obtain rfl := mem_singleton.mp hg
    exact cons_ne_nil _ _
  covers r hr := by
    obtain rfl := mem_singleton.mp hr
    exact ⟨_, mem_singleton_self _, rfl⟩

/-- Rows of two values, one of them at a multiple of the step below zero. -/
def groupedRows : List (ℤ × Option Text) := [(15, some ['b']), (-10, some ['a']), (12, some ['a']), (19, some ['b'])]

/-- Their groups in buckets of 10. -/
def groupedBuckets : List (GroupRow (ℤ × Option Text)) :=
  [⟨-10, [some ['a']], [(-10, some ['a'])]⟩, ⟨10, [some ['b']], [(19, some ['b']), (15, some ['b'])]⟩,
    ⟨10, [some ['a']], [(12, some ['a'])]⟩]

theorem executes_grouped {stepNs : ℤ} (h : stepNs = 10) :
    Executes pairColumns [['k']] stepNs groupedRows groupedBuckets := by
  subst h
  exact ⟨by decide, by decide, by decide, by decide, by decide⟩

/-- The groups are counted in their buckets, and each label set has its values in one series. -/
theorem counted_in_groups (arith : Lgtm.Arith) :
    RangeOk pairColumns [['k']] 10 (fun rows => natAsF64 rows.length) groupedRows groupedBuckets ∧
      VolumeOk pairColumns [['k']] 10 groupedRows groupedBuckets ∧
      materializeMatrix [['k']] (fun rows => natAsF64 rows.length) groupedBuckets =
        [⟨[(['k'], ['a'])], [⟨-10, natAsF64 1⟩, ⟨10, natAsF64 1⟩]⟩, ⟨[(['k'], ['b'])], [⟨10, natAsF64 2⟩]⟩] := by
  have hgrid (stepNs : ℤ) (h : stepNs = (10 : ℕ)) : OnGrid pairColumns stepNs 10 groupedRows := by
    subst h
    exact onGrid_of_step rfl (by decide)
  have hsame (stepNs : ℤ) (h : stepNs = 10) : SameWhereEmpty pairColumns [['k']] stepNs groupedRows := by
    subst h
    unfold SameWhereEmpty
    decide
  obtain ⟨hrange, hvolume⟩ := bucketed_iff pairColumns [['k']] 10 groupedRows groupedBuckets
    (fun rows => natAsF64 rows.length) arith (fun _ => false) (fun _ => (0, 0, 0))
  refine ⟨?_, ?_, rfl⟩
  · exact (hrange (executes_grouped (by decide))).mpr ⟨hgrid _ (by decide), hsame _ (by decide)⟩
  · exact (hvolume (executes_grouped (by decide))).1.mpr ⟨hgrid _ (by decide), hsame _ (by decide)⟩

/-- A time of -5 is counted in the bucket of 0, and an absent attribute beside an empty one gives a label set two
values in one bucket. -/
theorem counted_above :
    (Executes pairColumns [] (stepAsNanos 10) [(-5, none)] [⟨0, [], [(-5, none)]⟩] ∧
      ¬VolumeOk pairColumns [] 10 [(-5, none)] [⟨0, [], [(-5, none)]⟩]) ∧
    ∀ key, materializeMatrix [key] (fun rows => natAsF64 rows.length)
        [⟨0, [none], [((1 : ℤ), (none : Option Text))]⟩, ⟨0, [some []], [(2, some [])]⟩] =
      [⟨[(key, [])], [⟨0, natAsF64 1⟩, ⟨0, natAsF64 1⟩]⟩] := by
  refine ⟨⟨executes_alone (-5, none) [] _, fun hok => ?_⟩, fun key => ?_⟩
  · have hin := (hok.counted _ (mem_singleton_self _) _ (mem_singleton_self _)).mpr
      ⟨_, mem_singleton_self _, rfl, mem_singleton_self _⟩
    exact absurd hin.1 (by decide)
  · simp [materializeMatrix, materializeSeries, groupAll, joinFirst, GroupRow.labels]

end Imbh.Query
