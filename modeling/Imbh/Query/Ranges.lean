import Imbh.Query.Expr
import Imbh.Segments.Bounds

/-!
# Skipping a segment by its time range

The table provider takes a probe from each filter that compares an integer column with a literal: a
bare column, a column under casts that keep its value, the literal on either side. A segment is
skipped when the interval in the manifest rules out one of the probes on the time column.

* `covers_and_skips_iff` — when the recorded bounds contain the rows of their segment, so that what
  they skip is not lost.
-/

namespace Imbh.Query

open Lib Segments Option
open Storage (Table)

inductive RangeOp
  | lt
  | ltEq
  | gt
  | gtEq
  | eq
  deriving DecidableEq

/-- Source: `RangeOp::mirrored` -/
def RangeOp.mirrored : RangeOp → RangeOp
  | .lt => .gt
  | .ltEq => .gtEq
  | .gt => .lt
  | .gtEq => .ltEq
  | .eq => .eq

/-- Source: `RangeOp::from_operator` -/
def RangeOp.fromOperator : Operator → Option RangeOp
  | .lt => some .lt
  | .ltEq => some .ltEq
  | .gt => some .gt
  | .gtEq => some .gtEq
  | .eq => some .eq
  | _ => none

structure RangeProbe where
  op : RangeOp
  value : ℤ

/-- Source: `RangeProbe::excludes` -/
def RangeProbe.excludes (p : RangeProbe) (min max : ℤ) : Bool :=
  match p.op with
  | .gt => max ≤ p.value
  | .gtEq => max < p.value
  | .lt => p.value ≤ min
  | .ltEq => p.value < min
  | .eq => p.value < min ∨ max < p.value

structure ColumnRangeProbe where
  column : Text
  probe : RangeProbe

/-- The columns of a table and their types. -/
abbrev Schema : Type := List (Text × DataType)

/-- Source: arrow `Schema::field_with_name` -/
def Schema.fieldWithName (schema : Schema) (name : Text) : Option DataType :=
  (schema.find? fun f => f.1 = name).map Prod.snd

/-- What a cast does to the column and the type behind an expression. -/
def castDomain (name : Text) (src t : DataType) : Option (Text × DataType) :=
  match src, t with
  | .timestamp _ _, .int64 => some (name, .int64)
  | .int64, .int64 => some (name, .int64)
  | .timestamp a _, .timestamp b tz => if a = b then some (name, .timestamp b tz) else none
  | _, _ => none

/-- Source: `provider.rs` `int64_domain_column` -/
def int64DomainColumn (schema : Schema) : Expr → Option (Text × DataType)
  | .column name =>
      match schema.fieldWithName name with
      | some .int64 => some (name, .int64)
      | some (.timestamp u tz) => some (name, .timestamp u tz)
      | _ => none
  | .cast e t =>
      match int64DomainColumn schema e with
      | none => none
      | some (name, src) => castDomain name src t
  | _ => none

/-- Source: `provider.rs` `i64_literal_in` -/
def i64LiteralIn (e : Expr) (t : DataType) : Option ℤ :=
  match e with
  | .literal v =>
      match t, v with
      | .int64, .int64 (some v) => some v
      | .timestamp u _, .timestamp u' (some v) _ => if u = u' then some v else none
      | _, _ => none
  | _ => none

/-- Source: `provider.rs` `range_probe_sides` -/
def rangeProbeSides (colSide litSide : Expr) (op : RangeOp) (schema : Schema) :
    Option ColumnRangeProbe := do
  let (column, domain) ← int64DomainColumn schema colSide
  let value ← i64LiteralIn litSide domain
  pure { column, probe := { op, value } }

/-- Source: `provider.rs` `stats_range_probe` -/
def statsRangeProbe (schema : Schema) : Expr → Option ColumnRangeProbe
  | .binary left op right =>
      match RangeOp.fromOperator op with
      | none => none
      | some op =>
          (rangeProbeSides left right op schema).or (rangeProbeSides right left op.mirrored schema)
  | _ => none

/-- Source: `SegmentBatchIter::manifest_range_excludes` -/
def manifestRangeExcludes (timeColumn : Option Text) (timeRange : Option (ℤ × ℤ))
    (rangeProbes : List ColumnRangeProbe) : Bool :=
  match timeColumn, timeRange with
  | some timeColumn, some (min, max) =>
      rangeProbes.any fun p => p.column = timeColumn && p.probe.excludes min max
  | _, _ => false

/-- The column that the bounds of a table's segments describe.
Source: `imbh` `writer_tables`, `build_reader_tables` -/
def timeColumn : Table → Text
  | .spans => "start_time".toList
  | _ => "time".toList

/-! ## What a probe says -/

/-- An integer in a column or a literal of the given type. -/
inductive HasI64 : DataType → ScalarValue → Option ℤ → Prop
  | int64 (v : Option ℤ) : HasI64 .int64 (.int64 v) v
  | timestamp (u : TimeUnit) (tz : Option Text) (v : Option ℤ) :
      HasI64 (.timestamp u tz) (.timestamp u v tz) v

/-- The row has a value of its type in every integer column. -/
def Typed (schema : Schema) (row : ColumnValues) : Prop :=
  ∀ name t, schema.fieldWithName name = some t → t = .int64 ∨ (∃ u tz, t = .timestamp u tz) →
    ∃ v, HasI64 t (row name) v

/-- The comparison that a probe stands for. -/
def RangeOp.Holds : RangeOp → ℤ → ℤ → Prop
  | .lt, a, b => a < b
  | .ltEq, a, b => a ≤ b
  | .gt, a, b => b < a
  | .gtEq, a, b => b ≤ a
  | .eq, a, b => a = b

theorem RangeOp.mirrored_holds {op : RangeOp} {a b : ℤ} : op.mirrored.Holds a b ↔ op.Holds b a := by
  cases op <;> simp only [RangeOp.mirrored, RangeOp.Holds, eq_comm]

/-- The operator is the comparison the probe stands for. -/
theorem RangeOp.compare_fromOperator {o : Operator} {op : RangeOp}
    (h : RangeOp.fromOperator o = some op) :
    ∃ p, o.compare = some p ∧ ∀ a b, p a b = true ↔ op.Holds a b := by
  cases o <;> simp only [RangeOp.fromOperator, some.injEq, reduceCtorEq] at h <;> subst h <;>
    exact ⟨_, rfl, fun a b => decide_eq_true_iff⟩

/-- The zones whose local time is the instant. -/
def isUtc (tz : Text) : Bool := tz = "UTC".toList || tz = "+00:00".toList

/-- A cast between the zones keeps the instant. One that has no zone is a local time, which any zone but
UTC shifts. -/
def keepsInstant (tz tz' : Option Text) : Bool := tz.isSome || tz'.all isUtc

/-- The casts of integers and instants that are documented to keep them. -/
structure Rest.KeepsTicks (rest : Rest) : Prop where
  int64 : ∀ v, rest.cast (.int64 v) .int64 = .int64 v
  ticks : ∀ u v tz, rest.cast (.timestamp u v tz) .int64 = .int64 v
  zone : ∀ u v tz tz', keepsInstant tz tz' = true →
    rest.cast (.timestamp u v tz) (.timestamp u tz') = .timestamp u v tz'

/-- A cast of a domain keeps the instant, where it is one between zones. -/
def castKeeps : Option (Text × DataType) → DataType → Bool
  | some (_, .timestamp _ tz), .timestamp _ tz' => keepsInstant tz tz'
  | _, _ => true

/-- The casts around the column of an operand keep the instant. -/
def columnZonesKeep (schema : Schema) : Expr → Bool
  | .cast e t => columnZonesKeep schema e && castKeeps (int64DomainColumn schema e) t
  | _ => true

/-- The range probe of a filter looks only through casts that keep the instant. -/
def zonesKeep (schema : Schema) : Expr → Bool
  | .binary left _ right => columnZonesKeep schema left && columnZonesKeep schema right
  | _ => true

/-- A cast that the provider looks through keeps the integer, where it keeps the instant. -/
theorem cast_i64 {rest : Rest} (hrest : rest.KeepsTicks) {src t t' : DataType} {value : ScalarValue} {v : Option ℤ}
    (hv : HasI64 src value v) {name name' : Text} (h : castDomain name src t = some (name', t'))
    (hkeeps : castKeeps (some (name, src)) t = true) : name' = name ∧ HasI64 t' (rest.cast value t) v := by
  unfold castDomain at h
  split at h
  · obtain ⟨rfl, rfl⟩ : name = name' ∧ DataType.int64 = t' := by simpa using h
    cases hv
    exact ⟨rfl, (hrest.ticks _ v _).symm ▸ .int64 v⟩
  · obtain ⟨rfl, rfl⟩ : name = name' ∧ DataType.int64 = t' := by simpa using h
    cases hv
    exact ⟨rfl, by rw [hrest.int64]; exact .int64 v⟩
  · rename_i a _ b tz
    split at h
    · rename_i hab
      subst hab
      obtain ⟨rfl, rfl⟩ : name = name' ∧ DataType.timestamp a tz = t' := by simpa using h
      cases hv
      exact ⟨rfl, by rw [hrest.zone a v _ tz hkeeps]; exact .timestamp a tz v⟩
    · exact absurd h (by simp)
  · exact absurd h (by simp)

/-- The column behind the expression has the integer that the expression evaluates to. -/
theorem eval_int64DomainColumn {schema : Schema} {row : ColumnValues} (htyped : Typed schema row)
    {rest : Rest} (hrest : rest.KeepsTicks) : ∀ (e : Expr) {name : Text} {t : DataType},
      int64DomainColumn schema e = some (name, t) → columnZonesKeep schema e = true →
        ∃ v src, HasI64 src (row name) v ∧ HasI64 t (e.eval rest row) v
  | .column name, name', t, h, _ => by
      rw [int64DomainColumn] at h
      split at h
      · rename_i hfield
        obtain ⟨rfl, rfl⟩ : name = name' ∧ DataType.int64 = t := by simpa using h
        obtain ⟨v, hv⟩ := htyped name _ hfield (Or.inl rfl)
        exact ⟨v, _, hv, by rw [Expr.eval]; exact hv⟩
      · rename_i u tz hfield
        obtain ⟨rfl, rfl⟩ : name = name' ∧ DataType.timestamp u tz = t := by simpa using h
        obtain ⟨v, hv⟩ := htyped name _ hfield (Or.inr ⟨u, tz, rfl⟩)
        exact ⟨v, _, hv, by rw [Expr.eval]; exact hv⟩
      · exact absurd h (by simp)
  | .cast e t, name, t', h, hzones => by
      rw [int64DomainColumn] at h
      split at h
      · exact absurd h (by simp)
      · rename_i name' src hsrc
        rw [columnZonesKeep, hsrc, Bool.and_eq_true] at hzones
        obtain ⟨v, base, hbase, hv⟩ := eval_int64DomainColumn htyped hrest e hsrc hzones.1
        obtain ⟨rfl, hcast⟩ := cast_i64 hrest hv h hzones.2
        exact ⟨v, base, hbase, by rw [Expr.eval]; exact hcast⟩
  | .literal _, _, _, h, _ | .binary _ _ _, _, _, h, _ | .not _, _, _, h, _ | .inList _ _ _, _, _, h, _
  | .scalarFunction _ _, _, _, h, _ | .other _ _, _, _, h, _ => by
      rw [int64DomainColumn] at h
      · exact absurd h (by simp)
      · intro _ hcol
        exact Expr.noConfusion hcol
      · intro _ _ hcast
        exact Expr.noConfusion hcast

/-- An integer and a literal of its domain are compared as integers, on either side. -/
theorem evalBinary_i64 {o : Operator} {p : ℤ → ℤ → Bool} (hp : o.compare = some p) (rest : Rest)
    (row : ColumnValues) {t : DataType} {value : ScalarValue} {v : Option ℤ} (hv : HasI64 t value v)
    {lit : Expr} {x : ℤ} (hlit : i64LiteralIn lit t = some x) :
    evalBinary rest o value (lit.eval rest row) = test p v (some x) ∧
      evalBinary rest o (lit.eval rest row) value = test p (some x) v := by
  unfold i64LiteralIn at hlit
  split at hlit
  · rename_i l
    rw [Expr.eval]
    split at hlit
    · obtain rfl : _ = x := by simpa using hlit
      cases hv
      simp only [evalBinary, hp, and_self]
    · rename_i u _ u' x' _
      split at hlit
      · rename_i hu
        subst hu
        obtain rfl : x' = x := by simpa using hlit
        cases hv
        simp only [evalBinary, hp, if_true, and_self]
      · exact absurd hlit (by simp)
    · exact absurd hlit (by simp)
  · exact absurd hlit (by simp)

/-- **A probe is sound**: on a row that makes the filter TRUE the column has an integer, and the probe
holds of it. -/
theorem statsRangeProbe_sound {schema : Schema} {row : ColumnValues} (htyped : Typed schema row)
    {rest : Rest} (hrest : rest.KeepsTicks) {e : Expr} (hzones : zonesKeep schema e = true) {p : ColumnRangeProbe}
    (hp : statsRangeProbe schema e = some p) (htrue : e.IsTrue rest row) :
    ∃ t x, HasI64 t (row p.column) (some x) ∧ p.probe.op.Holds x p.probe.value := by
  unfold statsRangeProbe at hp
  split at hp
  · rename_i left o right
    split at hp
    · exact absurd hp (by simp)
    · rename_i op hop
      obtain ⟨cmp, hcmp, hholds⟩ := RangeOp.compare_fromOperator hop
      rw [Expr.IsTrue, Expr.eval] at htrue
      rw [zonesKeep, Bool.and_eq_true] at hzones
      have hsides : ∀ {col lit : Expr} {op : RangeOp}, columnZonesKeep schema col = true →
          rangeProbeSides col lit op schema = some p →
          ∃ t t' v, HasI64 t (row p.column) v ∧ HasI64 t' (col.eval rest row) v ∧
            i64LiteralIn lit t' = some p.probe.value ∧ p.probe.op = op := by
        intro col lit op hkeeps h
        obtain ⟨⟨name, t'⟩, hcol, h⟩ := bind_eq_some_iff.mp h
        obtain ⟨x, hlit, h⟩ := bind_eq_some_iff.mp h
        obtain rfl := some.inj h
        obtain ⟨v, t, hv, hv'⟩ := eval_int64DomainColumn htyped hrest col hcol hkeeps
        exact ⟨t, t', v, hv, hv', hlit, rfl⟩
      rcases or_eq_some_iff.mp hp with h | ⟨-, h⟩
      · obtain ⟨t, t', v, hv, hv', hlit, hpop⟩ := hsides hzones.1 h
        rw [(evalBinary_i64 hcmp rest row hv' hlit).1, test_eq_true] at htrue
        obtain ⟨x, y, rfl, hy, htrue⟩ := htrue
        obtain rfl := some.inj hy
        exact ⟨t, x, hv, hpop ▸ (hholds x _).mp htrue⟩
      · obtain ⟨t, t', v, hv, hv', hlit, hpop⟩ := hsides hzones.2 h
        rw [(evalBinary_i64 hcmp rest row hv' hlit).2, test_eq_true] at htrue
        obtain ⟨y, x, hy, rfl, htrue⟩ := htrue
        obtain rfl := some.inj hy
        refine ⟨t, x, hv, ?_⟩
        rw [hpop, RangeOp.mirrored_holds]
        exact (hholds _ x).mp htrue
  · exact absurd hp (by simp)

/-! ## What an interval rules out -/

theorem RangeProbe.not_holds_of_excludes {p : RangeProbe} {min max x : ℤ}
    (h : p.excludes min max = true) (hmin : min ≤ x) (hmax : x ≤ max) : ¬ p.op.Holds x p.value := by
  obtain ⟨op, value⟩ := p
  cases op <;> simp only [RangeProbe.excludes, decide_eq_true_eq] at h <;>
    simp only [RangeOp.Holds] <;> omega

/-- The view of a row that a scan of its segment gives: a value of its type in each integer column,
and the time of the row in the time column. -/
structure Shows {D : Type} (schema : Schema) (t : Table) (r : TimedRow D) (row : ColumnValues) :
    Prop where
  typed : Typed schema row
  time : ∃ tz, row (timeColumn t) = .timestamp .nanosecond (some r.time) tz

/-- **An interval that contains the time of a row rules out no filter that is TRUE on it.** -/
theorem not_isTrue_of_excludes {D : Type} {schema : Schema} {t : Table} {r : TimedRow D}
    {row : ColumnValues} (hrow : Shows schema t r row) {min max : ℤ} (hmin : min ≤ r.time)
    (hmax : r.time ≤ max) {filters : List Expr} (hzones : ∀ e ∈ filters, zonesKeep schema e = true)
    (h : manifestRangeExcludes (some (timeColumn t)) (some (min, max))
      (filters.filterMap (statsRangeProbe schema)) = true) {rest : Rest} (hrest : rest.KeepsTicks) :
    ∃ e ∈ filters, ¬ e.IsTrue rest row := by
  obtain ⟨p, hp, hexcl⟩ := List.any_eq_true.mp h
  obtain ⟨hcol, hexcl⟩ := (Bool.and_eq_true _ _).mp hexcl
  obtain ⟨e, he, hp⟩ := List.mem_filterMap.mp hp
  refine ⟨e, he, fun htrue => ?_⟩
  obtain ⟨t', x, hx, hholds⟩ := statsRangeProbe_sound hrow.typed hrest (hzones e he) hp htrue
  obtain ⟨tz, htime⟩ := hrow.time
  rw [of_decide_eq_true hcol, htime] at hx
  cases hx
  exact RangeProbe.not_holds_of_excludes hexcl hmin hmax hholds

/-- No row of a segment with these bounds is lost: where the bounds rule out the conjunction of the
filters, no row makes all of them TRUE. `zones` is whether the filters may give a zone to local times. -/
def SkipsNothing {D : Type} (zones : Bool) (t : Table) (rows : List (TimedRow D)) (b : Bounds) : Prop :=
  ∀ (schema : Schema) (rest : Rest), rest.KeepsTicks → ∀ filters : List Expr,
    (zones = false → ∀ e ∈ filters, zonesKeep schema e = true) →
    manifestRangeExcludes (some (timeColumn t)) (some (b.minTimeUnixNano, b.maxTimeUnixNano))
      (filters.filterMap (statsRangeProbe schema)) = true →
    ∀ r ∈ rows, ∀ row, Shows schema t r row → ¬ ∀ e ∈ filters, e.IsTrue rest row

theorem skipsNothing_of_covers {D : Type} {t : Table} {rows : List (TimedRow D)} {b : Bounds}
    (h : Covers t rows b) : SkipsNothing false t rows b := by
  intro schema rest hrest filters hzones hexcl r hr row hrow hall
  obtain ⟨hmin, hend⟩ := h r hr
  have hmax : r.time ≤ b.maxTimeUnixNano := (time_le_endTime t r).trans hend
  obtain ⟨e, he, hnot⟩ := not_isTrue_of_excludes hrow hmin hmax (hzones rfl) hexcl hrest
  exact hnot (hall e he)

/-! ## Local times -/

/-- A zone `s` ticks before UTC. -/
def shifted (s : ℤ) : Rest where
  cast
    | .timestamp _ v _, .int64 => .int64 v
    | .timestamp _ v tz, .timestamp u tz' =>
        .timestamp u (if keepsInstant tz tz' = true then v else v.map (· + s)) tz'
    | v, _ => v
  binary := fun _ v _ => v
  function := fun _ _ => .boolean none
  other := fun _ _ => .boolean none

theorem keepsTicks_shifted (s : ℤ) : (shifted s).KeepsTicks where
  int64 _ := rfl
  ticks _ _ _ := rfl
  zone u v tz tz' h := by
    change ScalarValue.timestamp u (if keepsInstant tz tz' = true then v else v.map (· + s)) tz' = _
    rw [if_pos h]

/-- The time column as a local time, put into a zone and greater than a bound. -/
def localAfter (t : Table) (tz : Text) (bound : ℤ) : Expr :=
  .binary (.cast (.cast (.column (timeColumn t)) (.timestamp .nanosecond none)) (.timestamp .nanosecond (some tz))) .gt
    (.literal (.timestamp .nanosecond (some bound) (some tz)))

def utc : DataType := .timestamp .nanosecond (some "UTC".toList)

def timeSchema (t : Table) : Schema := [(timeColumn t, utc)]

def timeRow (time : ℤ) : ColumnValues := fun _ => .timestamp .nanosecond (some time) (some "UTC".toList)

theorem shows_timeRow {D : Type} (t : Table) (r : TimedRow D) : Shows (timeSchema t) t r (timeRow r.time) := by
  refine ⟨fun name t' hfield _ => ?_, _, rfl⟩
  obtain ⟨f, hf, rfl⟩ := map_eq_some_iff.mp hfield
  rw [List.mem_singleton.mp (List.mem_of_find?_eq_some hf)]
  exact ⟨_, .timestamp _ _ _⟩

/-- The bounds of local times say nothing of the instants that a zone makes of them. -/
theorem not_skipsNothing_zones {D : Type} {t : Table} {rows : List (TimedRow D)} {r : TimedRow D} (hr : r ∈ rows)
    (b : Bounds) : ¬ SkipsNothing true t rows b := by
  intro hskips
  set max := b.maxTimeUnixNano with hmax
  have hcolumn : (timeSchema t).fieldWithName (timeColumn t) = some utc := by
    simp [Schema.fieldWithName, timeSchema]
  have hdomain : int64DomainColumn (timeSchema t)
      (.cast (.cast (.column (timeColumn t)) (.timestamp .nanosecond none))
        (.timestamp .nanosecond (some "+05:30".toList))) =
        some (timeColumn t, .timestamp .nanosecond (some "+05:30".toList)) := by
    rw [int64DomainColumn, int64DomainColumn, int64DomainColumn, hcolumn]
    rfl
  have hprobe : statsRangeProbe (timeSchema t) (localAfter t "+05:30".toList max) =
      some ⟨timeColumn t, .gt, max⟩ := by
    rw [localAfter, statsRangeProbe, RangeOp.fromOperator]
    dsimp only
    rw [rangeProbeSides, hdomain]
    rfl
  refine hskips (timeSchema t) (shifted (max + 1 - r.time)) (keepsTicks_shifted _) [localAfter t "+05:30".toList max]
    (fun h => absurd h (by simp)) ?_ r hr (timeRow r.time) (shows_timeRow t r) fun e he => ?_
  · rw [List.filterMap_cons_some hprobe, List.filterMap_nil]
    simp [manifestRangeExcludes, RangeProbe.excludes, hmax]
  · rw [List.mem_singleton.mp he]
    refine test_eq_true.mpr ⟨r.time + (max + 1 - r.time), max, rfl, rfl, ?_⟩
    exact decide_eq_true (by omega)

/-- **When the recorded bounds contain the rows**, and skipping by them loses nothing: each span
whose duration is not an `i64` is outlasted by one whose duration is, and no filter gives a zone to
local times. -/
theorem covers_and_skips_iff {D : Type} {t : Table} {rows : List (TimedRow D)} {b : Bounds}
    (h : Recorded t rows b) (zones : Bool) :
    (Covers t rows b ∧ SkipsNothing zones t rows b) ↔ (Outlasted t rows ∧ zones = false) := by
  constructor
  · rintro ⟨hcovers, hskips⟩
    refine ⟨h.exact.covers_iff.mp hcovers, Bool.eq_false_iff.mpr fun hzones => ?_⟩
    obtain ⟨r, hr, -⟩ := h.exact.min.1
    exact not_skipsNothing_zones hr b (hzones ▸ hskips)
  · rintro ⟨hout, rfl⟩
    have hcovers : Covers t rows b := h.exact.covers_iff.mpr hout
    exact ⟨hcovers, skipsNothing_of_covers hcovers⟩

/-- A batch of two spans, one of them longer than an `i64`, that another batch outlasts. -/
def longAndLonger : List (TimedRow Unit) :=
  [{ time := 5, durationNs := 2 ^ 63, data := (), time_i64 := by decide, duration_u64 := by decide },
    { time := 7, durationNs := 2 ^ 63 - 1, data := (), time_i64 := by decide,
      duration_u64 := by decide }]

def shortSpan : List (TimedRow Unit) :=
  [{ time := 9, durationNs := 1, data := (), time_i64 := by decide, duration_u64 := by decide }]

/-- Two batches are sealed and compacted. -/
theorem covers_and_skips_compacted :
    Covers .spans (longAndLonger ++ shortSpan) { minTimeUnixNano := 5, maxTimeUnixNano := 2 ^ 63 - 1 } ∧
      SkipsNothing false .spans (longAndLonger ++ shortSpan)
        { minTimeUnixNano := 5, maxTimeUnixNano := 2 ^ 63 - 1 } := by
  have hlong : Recorded .spans longAndLonger (writtenBounds .spans longAndLonger) :=
    .written _ (by decide) (by decide)
  have hshort : Recorded .spans shortSpan (writtenBounds .spans shortSpan) :=
    .written _ (by decide) (by decide)
  have hmerged : Recorded .spans (longAndLonger ++ shortSpan)
      (mergedBounds [writtenBounds .spans longAndLonger, writtenBounds .spans shortSpan]) := by
    apply Recorded.merged [(longAndLonger, _), (shortSpan, _)] (by simp)
    · simpa using ⟨hlong, hshort⟩
    · exact List.Perm.refl _
    · decide
  have hbounds : mergedBounds [writtenBounds .spans longAndLonger, writtenBounds .spans shortSpan] =
      { minTimeUnixNano := 5, maxTimeUnixNano := 2 ^ 63 - 1 } := by decide
  rw [hbounds] at hmerged
  exact (covers_and_skips_iff hmerged false).mpr ⟨fun _ => by decide, rfl⟩

/-- A span longer than an `i64`, alone in its batch. -/
def longSpan : TimedRow Unit :=
  { time := 100, durationNs := 2 ^ 63, data := (), time_i64 := by decide, duration_u64 := by decide }

/-- The bounds of that batch end before they begin, and `start_time >= 50` skips it. -/
theorem skips_long_span :
    ∃ b, Recorded .spans [longSpan] b ∧ ¬ Covers .spans [longSpan] b ∧
      ¬ SkipsNothing false .spans [longSpan] b := by
  refine ⟨writtenBounds .spans [longSpan], .written _ (by decide) (by decide), by decide, ?_⟩
  intro hskips
  let filter : Expr := .binary (.column "start_time".toList) .gtEq
    (.literal (.timestamp .nanosecond (some 50) (some "UTC".toList)))
  apply hskips (timeSchema .spans) (shifted 0) (keepsTicks_shifted 0) [filter]
    (fun _ e he => by rw [List.mem_singleton.mp he]; rfl) (by decide) longSpan List.mem_cons_self _
    (shows_timeRow .spans longSpan)
  intro e he
  rw [List.mem_singleton.mp he]
  rfl

end Imbh.Query
