import Imbh.Storage.Inner

/-!
# The time bounds of a segment

A segment is recorded with the least and the greatest time of its rows: the first and the last one of
the sorted batch for logs and metrics, the first start and the greatest end for spans. The end of a
span is `start.saturating_add(duration as i64)`, and the cast wraps. A merge takes the bounds of its
inputs, and does not look at the rows.
-/

namespace Imbh.Segments

open Storage (Table)

open List

variable {D : Type}

/-- `x as i64`, of a `u64`. -/
def asI64 (x : ℕ) : ℤ := (x : ℤ).bmod (2 ^ 64)

/-- The nearest `i64`. -/
def clampI64 (x : ℤ) : ℤ := max (-2 ^ 63) (min x (2 ^ 63 - 1))

/-- Source: `i64::saturating_add` -/
def saturatingAdd (a b : ℤ) : ℤ := clampI64 (a + b)

/-- The time columns of a row, and the rest. The duration is that of a span; the other tables have
no such column. -/
structure TimedRow (D : Type) where
  time : ℤ
  durationNs : ℕ
  data : D
  time_i64 : -2 ^ 63 ≤ time ∧ time < 2 ^ 63
  duration_u64 : durationNs < 2 ^ 64
  deriving DecidableEq

/-- The time of the end of a row, as the code computes it.
Source: `lib.rs` `write_spans_segment`, `time_bounds` -/
def storedEnd (t : Table) (r : TimedRow D) : ℤ :=
  if t = .spans then saturatingAdd r.time (asI64 r.durationNs) else r.time

/-- The time of the end of a row, clamped. -/
def endTime (t : Table) (r : TimedRow D) : ℤ :=
  if t = .spans then clampI64 (r.time + r.durationNs) else r.time

/-- Source: `imbh-core` `SegmentRef`, its bounds -/
structure Bounds where
  minTimeUnixNano : ℤ
  maxTimeUnixNano : ℤ
  deriving DecidableEq

/-- The first and the last time of a batch.
Source: `lib.rs` `time_bounds` -/
def timeBounds (batch : List (TimedRow D)) : Bounds where
  minTimeUnixNano := (batch.head?.map (·.time)).getD 0
  maxTimeUnixNano := (batch.getLast?.map (·.time)).getD 0

/-- Source: `lib.rs` `write_spans_segment` -/
def spanBounds (batch : List (TimedRow D)) : Bounds where
  minTimeUnixNano := (batch.head?.map (·.time)).getD 0
  maxTimeUnixNano := (batch.map (storedEnd .spans)).max?.getD 0

/-- The bounds a seal records.
Source: `lib.rs` `write_logs_segment`, `write_spans_segment`, `write_metric_segment` -/
def writtenBounds (t : Table) (batch : List (TimedRow D)) : Bounds :=
  if t = .spans then spanBounds batch else timeBounds batch

/-- The bounds a merge records.
Source: `lib.rs` `compact_partition`, `rewrite_segment_set` -/
def mergedBounds (group : List Bounds) : Bounds where
  minTimeUnixNano := (group.map (·.minTimeUnixNano)).min?.getD 0
  maxTimeUnixNano := (group.map (·.maxTimeUnixNano)).max?.getD 0

/-- Sorted by time, rows of one time in any order.
Source: `lib.rs` `concat_and_sort` -/
def TimeSorted (rows : List (TimedRow D)) : Prop := rows.Pairwise fun a b => a.time ≤ b.time

instance (rows : List (TimedRow D)) : Decidable (TimeSorted rows) :=
  inferInstanceAs (Decidable (List.Pairwise _ rows))

/-- The rows and the recorded bounds of a segment that seals and merges built. -/
inductive Recorded (t : Table) : List (TimedRow D) → Bounds → Prop
  | written (batch : List (TimedRow D)) (hne : batch ≠ []) (hsorted : TimeSorted batch) :
      Recorded t batch (writtenBounds t batch)
  | merged (group : List (List (TimedRow D) × Bounds)) (hne : group ≠ [])
      (hgroup : ∀ g ∈ group, Recorded t g.1 g.2) (batch : List (TimedRow D))
      (hbatch : batch.Perm (group.flatMap Prod.fst)) (hsorted : TimeSorted batch) :
      Recorded t batch (mergedBounds (group.map Prod.snd))

/-! ## The ends -/

theorem clampI64_mono {x y : ℤ} (h : x ≤ y) : clampI64 x ≤ clampI64 y := by
  unfold clampI64
  omega

theorem clampI64_of_i64 {x : ℤ} (h : -2 ^ 63 ≤ x ∧ x < 2 ^ 63) : clampI64 x = x := by
  unfold clampI64
  omega

/-- The cast wraps from `2 ^ 63` on. -/
theorem asI64_eq {x : ℕ} (hx : x < 2 ^ 64) : asI64 x = if x < 2 ^ 63 then (x : ℤ) else x - 2 ^ 64 := by
  unfold asI64
  rw [Int.bmod_def]
  omega

theorem time_le_endTime (t : Table) (r : TimedRow D) : r.time ≤ endTime t r := by
  unfold endTime
  split
  · calc r.time = clampI64 r.time := (clampI64_of_i64 r.time_i64).symm
      _ ≤ clampI64 (r.time + r.durationNs) := clampI64_mono (by omega)
  · exact le_rfl

/-- A span whose duration is an `i64` has its end stored. -/
theorem storedEnd_of_lt {t : Table} {r : TimedRow D} (h : r.durationNs < 2 ^ 63) :
    storedEnd t r = endTime t r := by
  unfold storedEnd endTime saturatingAdd
  rw [asI64_eq r.duration_u64, if_pos h]

/-- A span whose duration is not has something before its end stored. -/
theorem storedEnd_lt {r : TimedRow D} (h : 2 ^ 63 ≤ r.durationNs) :
    storedEnd .spans r < endTime .spans r := by
  have htime := r.time_i64
  have hlt := r.duration_u64
  unfold storedEnd endTime saturatingAdd
  rw [if_pos rfl, if_pos rfl, asI64_eq hlt, if_neg (not_lt.mpr h)]
  unfold clampI64
  omega

/-! ## The recorded bounds are exact -/

/-- The least time of the rows, and the greatest one stored as an end. -/
structure Exact (t : Table) (rows : List (TimedRow D)) (b : Bounds) : Prop where
  min : IsLeast {x | ∃ r ∈ rows, r.time = x} b.minTimeUnixNano
  max : IsGreatest {x | ∃ r ∈ rows, storedEnd t r = x} b.maxTimeUnixNano

theorem isGreatest_max? {l : List ℤ} (h : l ≠ []) : IsGreatest {x | x ∈ l} (l.max?.getD 0) := by
  obtain ⟨m, hm⟩ := Option.isSome_iff_exists.mp (isSome_max?_of_ne_nil h)
  obtain ⟨hmem, hle⟩ := max?_eq_some_iff.mp hm
  rw [hm]
  exact ⟨hmem, hle⟩

theorem isLeast_min? {l : List ℤ} (h : l ≠ []) : IsLeast {x | x ∈ l} (l.min?.getD 0) := by
  obtain ⟨m, hm⟩ := Option.isSome_iff_exists.mp (isSome_min?_of_ne_nil h)
  obtain ⟨hmem, hle⟩ := min?_eq_some_iff.mp hm
  rw [hm]
  exact ⟨hmem, hle⟩

/-- The first row of a sorted batch has the least time. -/
theorem isLeast_head {batch : List (TimedRow D)} (hne : batch ≠ []) (h : TimeSorted batch) :
    IsLeast {x | ∃ r ∈ batch, r.time = x} ((batch.head?.map (·.time)).getD 0) := by
  obtain ⟨r, rest, rfl⟩ := exists_cons_of_ne_nil hne
  refine ⟨⟨r, mem_cons_self, rfl⟩, ?_⟩
  rintro x ⟨r', hr', rfl⟩
  rcases mem_cons.mp hr' with rfl | hr'
  · exact le_rfl
  · exact rel_of_pairwise_cons h hr'

/-- The last one has the greatest time. -/
theorem isGreatest_getLast {batch : List (TimedRow D)} (hne : batch ≠ []) (h : TimeSorted batch) :
    IsGreatest {x | ∃ r ∈ batch, r.time = x} ((batch.getLast?.map (·.time)).getD 0) := by
  obtain ⟨front, r, rfl⟩ := eq_nil_or_concat batch |>.resolve_left hne
  rw [concat_eq_append] at h ⊢
  rw [getLast?_concat]
  refine ⟨⟨r, by simp, rfl⟩, ?_⟩
  rintro x ⟨r', hr', rfl⟩
  rcases mem_append.mp hr' with hr' | hr'
  · exact (pairwise_append.mp h).2.2 r' hr' r mem_cons_self
  · rw [mem_singleton.mp hr']
    exact le_rfl

theorem exact_written (t : Table) {batch : List (TimedRow D)} (hne : batch ≠ [])
    (h : TimeSorted batch) : Exact t batch (writtenBounds t batch) := by
  unfold writtenBounds
  split
  · rename_i ht
    subst ht
    refine ⟨isLeast_head hne h, ?_⟩
    have hmap : batch.map (storedEnd .spans) ≠ [] := by simpa using hne
    show IsGreatest _ ((batch.map (storedEnd .spans)).max?.getD 0)
    simpa only [mem_map] using isGreatest_max? hmap
  · rename_i ht
    refine ⟨isLeast_head hne h, ?_⟩
    simp only [storedEnd, if_neg ht]
    exact isGreatest_getLast hne h

/-- The least of the least values of parts is the least value of the whole. -/
theorem isLeast_merged {t : Table} {group : List (List (TimedRow D) × Bounds)} (hne : group ≠ [])
    (h : ∀ g ∈ group, Exact t g.1 g.2) :
    Exact t (group.flatMap Prod.fst) (mergedBounds (group.map Prod.snd)) := by
  have hmins : (group.map Prod.snd).map (·.minTimeUnixNano) ≠ [] := by simpa using hne
  have hmaxs : (group.map Prod.snd).map (·.maxTimeUnixNano) ≠ [] := by simpa using hne
  obtain ⟨hmin, hminle⟩ := isLeast_min? hmins
  obtain ⟨hmax, hmaxle⟩ := isGreatest_max? hmaxs
  constructor
  · constructor
    · obtain ⟨b, hb, hbmin⟩ := mem_map.mp hmin
      obtain ⟨g, hg, rfl⟩ := mem_map.mp hb
      obtain ⟨r, hr, hrt⟩ := (h g hg).min.1
      exact ⟨r, mem_flatMap.mpr ⟨g, hg, hr⟩, hrt.trans hbmin⟩
    · rintro x ⟨r, hr, rfl⟩
      obtain ⟨g, hg, hr⟩ := mem_flatMap.mp hr
      have hle : g.2.minTimeUnixNano ≤ r.time := (h g hg).min.2 ⟨r, hr, rfl⟩
      exact (hminle (mem_map_of_mem (mem_map_of_mem hg))).trans hle
  · constructor
    · obtain ⟨b, hb, hbmax⟩ := mem_map.mp hmax
      obtain ⟨g, hg, rfl⟩ := mem_map.mp hb
      obtain ⟨r, hr, hrt⟩ := (h g hg).max.1
      exact ⟨r, mem_flatMap.mpr ⟨g, hg, hr⟩, hrt.trans hbmax⟩
    · rintro x ⟨r, hr, rfl⟩
      obtain ⟨g, hg, hr⟩ := mem_flatMap.mp hr
      have hle : storedEnd t r ≤ g.2.maxTimeUnixNano := (h g hg).max.2 ⟨r, hr, rfl⟩
      exact hle.trans (hmaxle (mem_map_of_mem (mem_map_of_mem hg)))

/-- The bounds read the rows as a set. -/
theorem Exact.perm {t : Table} {rows rows' : List (TimedRow D)} {b : Bounds} (h : Exact t rows b)
    (hperm : rows'.Perm rows) : Exact t rows' b := by
  constructor
  · simpa only [hperm.mem_iff] using h.min
  · simpa only [hperm.mem_iff] using h.max

/-- **All recorded bounds are exact**: of the ends as they are stored. -/
theorem Recorded.exact {t : Table} {rows : List (TimedRow D)} {b : Bounds}
    (h : Recorded t rows b) : Exact t rows b := by
  induction h with
  | written batch hne hsorted => exact exact_written t hne hsorted
  | merged group hne hgroup batch hbatch hsorted ih => exact (isLeast_merged hne ih).perm hbatch

/-! ## When the bounds contain the rows -/

/-- The bounds contain the time of every row, and its end. -/
def Covers (t : Table) (rows : List (TimedRow D)) (b : Bounds) : Prop :=
  ∀ r ∈ rows, b.minTimeUnixNano ≤ r.time ∧ endTime t r ≤ b.maxTimeUnixNano

instance (t : Table) (rows : List (TimedRow D)) (b : Bounds) : Decidable (Covers t rows b) :=
  inferInstanceAs (Decidable (∀ r ∈ rows, _))

/-- Every span whose duration is not an `i64` has one next to it, whose duration is, that ends no
earlier. -/
def Outlasted (t : Table) (rows : List (TimedRow D)) : Prop :=
  t = .spans → ∀ r ∈ rows, 2 ^ 63 ≤ r.durationNs →
    ∃ r' ∈ rows, r'.durationNs < 2 ^ 63 ∧ endTime t r ≤ endTime t r'

/-- When the bounds contain the times of the rows, and the ends of the spans. -/
theorem Exact.covers_iff {t : Table} {rows : List (TimedRow D)} {b : Bounds} (h : Exact t rows b) :
    Covers t rows b ↔ Outlasted t rows := by
  constructor
  · rintro hcovers rfl r hr -
    -- the row whose stored end is the bound has its true end stored, or it would not be covered
    obtain ⟨r', hr', hmax⟩ := h.max.1
    have hlt : r'.durationNs < 2 ^ 63 := by
      by_contra hge
      have hend := (hcovers r' hr').2
      rw [← hmax] at hend
      exact absurd (storedEnd_lt (not_lt.mp hge)) (not_lt.mpr hend)
    refine ⟨r', hr', hlt, ?_⟩
    rw [← storedEnd_of_lt hlt, hmax]
    exact (hcovers r hr).2
  · intro hout r hr
    refine ⟨h.min.2 ⟨r, hr, rfl⟩, ?_⟩
    have hstored : ∀ r ∈ rows, storedEnd t r ≤ b.maxTimeUnixNano := fun r hr => h.max.2 ⟨r, hr, rfl⟩
    by_cases ht : t = .spans
    · by_cases hlt : r.durationNs < 2 ^ 63
      · rw [← storedEnd_of_lt hlt]
        exact hstored r hr
      · obtain ⟨r', hr', hlt', hle⟩ := hout ht r hr (not_lt.mp hlt)
        refine hle.trans ?_
        rw [← storedEnd_of_lt hlt']
        exact hstored r' hr'
    · have hsame : endTime t r = storedEnd t r := by
        unfold endTime storedEnd
        rw [if_neg ht, if_neg ht]
      rw [hsame]
      exact hstored r hr

end Imbh.Segments
