import Imbh.Core.Json
import Imbh.Storage.Inner

/-!
# The columns of the tables

The schema of a table is its built-in columns and then one column for each promoted key. A promoted
key that is the name of a built-in column of any table has no column.
-/

namespace Imbh.Storage

open Lib List

/-- The Arrow types of the schemas. `dictUtf8` is `Dictionary(Int32, Utf8)`. -/
inductive ColumnType
  | timestamp
  | utf8
  | dictUtf8
  | boolean
  | uint8
  | uint32
  | uint64
  | int32
  | float64
  | fixedSizeBinary (width : ℕ)
  | float64List
  | uint64List
  deriving DecidableEq

structure Field where
  name : Text
  dataType : ColumnType
  nullable : Bool
  deriving DecidableEq

/-- Source: `schema.rs` `RESERVED_COLUMNS` -/
def reservedColumns : List Text :=
  ["attributes", "body", "bucket_counts", "count", "duration_ns", "events", "exemplars",
    "explicit_bounds", "flags", "is_monotonic", "kind", "links", "max", "metric", "min", "name",
    "negative_counts", "negative_offset", "observed_time", "parent_span_id", "positive_counts",
    "positive_offset", "quantiles", "resource", "scale", "scope", "service", "severity_number",
    "severity_text", "span_id", "start_time", "status_code", "status_message", "sum", "temporality",
    "time", "trace_id", "trace_state", "unit", "value", "values", "zero_count",
    "zero_threshold"].map String.toList

/-- The keys with a column, after those that have one already. -/
def promotedFrom (out : List Text) : List Text → List Text
  | [] => out
  | k :: promote =>
      promotedFrom (if k ∉ reservedColumns ∧ k ∉ out then out ++ [k] else out) promote

/-- Source: `schema.rs` `promoted_columns` -/
def promotedColumns (promote : List Text) : List Text := promotedFrom [] promote

/-- Source: `schema.rs` `with_promoted` -/
def withPromoted (fields : List Field) (promote : List Text) : List Field :=
  fields ++ (promotedColumns promote).map fun name => ⟨name, .dictUtf8, true⟩

def field (name : String) (dataType : ColumnType) (nullable : Bool) : Field :=
  ⟨name.toList, dataType, nullable⟩

/-- The columns that every metric table begins with. -/
def metricFields : List Field :=
  [field "time" .timestamp false, field "start_time" .timestamp true, field "metric" .utf8 false,
    field "unit" .utf8 false, field "service" .dictUtf8 true, field "attributes" .utf8 false,
    field "resource" .dictUtf8 false, field "scope" .dictUtf8 false, field "flags" .uint32 false]

/-- The built-in columns of a table.
Source: `schema.rs` `logs_schema`, `spans_schema`, `metric_scalar_schema`, `histogram_schema`,
`exp_histogram_schema`, `summary_schema` -/
def fixedFields : Table → List Field
  | .logs =>
      [field "time" .timestamp false, field "observed_time" .timestamp true,
        field "service" .dictUtf8 true, field "severity_number" .uint8 false,
        field "severity_text" .utf8 true, field "body" .utf8 false, field "attributes" .utf8 false,
        field "resource" .dictUtf8 false, field "scope" .dictUtf8 false,
        field "trace_id" (.fixedSizeBinary 16) true, field "span_id" (.fixedSizeBinary 8) true,
        field "flags" .uint32 false]
  | .spans =>
      [field "trace_id" (.fixedSizeBinary 16) false, field "span_id" (.fixedSizeBinary 8) false,
        field "parent_span_id" (.fixedSizeBinary 8) true, field "name" .utf8 false,
        field "kind" .utf8 false, field "start_time" .timestamp false,
        field "duration_ns" .uint64 false, field "status_code" .utf8 false,
        field "status_message" .utf8 true, field "service" .dictUtf8 true,
        field "attributes" .utf8 false, field "resource" .dictUtf8 false,
        field "scope" .dictUtf8 false, field "events" .utf8 true, field "links" .utf8 true,
        field "trace_state" .utf8 true, field "flags" .uint32 false]
  | .metricsGauge | .metricsSum =>
      metricFields ++
        [field "value" .float64 false, field "temporality" .utf8 true,
          field "is_monotonic" .boolean true, field "exemplars" .utf8 false]
  | .metricsHistogram =>
      metricFields ++
        [field "count" .uint64 false, field "sum" .float64 true, field "min" .float64 true,
          field "max" .float64 true, field "explicit_bounds" .float64List false,
          field "bucket_counts" .uint64List false, field "temporality" .utf8 true,
          field "exemplars" .utf8 false]
  | .metricsExpHistogram =>
      metricFields ++
        [field "count" .uint64 false, field "sum" .float64 true, field "min" .float64 true,
          field "max" .float64 true, field "scale" .int32 false, field "zero_count" .uint64 false,
          field "zero_threshold" .float64 false, field "positive_offset" .int32 false,
          field "positive_counts" .uint64List false, field "negative_offset" .int32 false,
          field "negative_counts" .uint64List false, field "temporality" .utf8 true,
          field "exemplars" .utf8 false]
  | .metricsSummary =>
      metricFields ++
        [field "count" .uint64 false, field "sum" .float64 false,
          field "quantiles" .float64List false, field "values" .float64List false,
          field "temporality" .utf8 true]

/-- Source: `lib.rs` `Storage::table_schema`, `table_schema_for` -/
def tableSchemaFor (t : Table) (promote : List Text) : List Field :=
  withPromoted (fixedFields t) promote

/-- The column that a segment of the table is sorted by, and whether it has a text index.
Source: `lib.rs` `rewrite_params` -/
def rewriteParams : Table → Text × Bool
  | .logs => ("time".toList, true)
  | .spans => ("start_time".toList, true)
  | _ => ("time".toList, false)

/-! ### The names of the columns -/

theorem mem_promotedFrom {k : Text} (promote : List Text) (out : List Text) :
    k ∈ promotedFrom out promote ↔ k ∈ out ∨ (k ∈ promote ∧ k ∉ reservedColumns) := by
  induction promote generalizing out with
  | nil => simp [promotedFrom]
  | cons k' promote ih =>
    rw [promotedFrom, ih, mem_cons]
    split
    · rename_i h
      rw [mem_append, mem_singleton]
      constructor
      · rintro ((hout | rfl) | ⟨hmem, hres⟩)
        · exact Or.inl hout
        · exact Or.inr ⟨Or.inl rfl, h.1⟩
        · exact Or.inr ⟨Or.inr hmem, hres⟩
      · rintro (hout | ⟨rfl | hmem, hres⟩)
        · exact Or.inl (Or.inl hout)
        · exact Or.inl (Or.inr rfl)
        · exact Or.inr ⟨hmem, hres⟩
    · rename_i h
      constructor
      · rintro (hout | ⟨hmem, hres⟩)
        · exact Or.inl hout
        · exact Or.inr ⟨Or.inr hmem, hres⟩
      · rintro (hout | ⟨rfl | hmem, hres⟩)
        · exact Or.inl hout
        · exact Or.inl (by_contra fun hout => h ⟨hres, hout⟩)
        · exact Or.inr ⟨hmem, hres⟩

/-- Which keys have a column. -/
@[simp] theorem mem_promotedColumns {k : Text} {promote : List Text} :
    k ∈ promotedColumns promote ↔ k ∈ promote ∧ k ∉ reservedColumns := by
  rw [promotedColumns, mem_promotedFrom]
  simp

theorem nodup_promotedFrom (promote : List Text) {out : List Text} (h : out.Nodup) :
    (promotedFrom out promote).Nodup := by
  induction promote generalizing out with
  | nil => exact h
  | cons k promote ih =>
    rw [promotedFrom]
    apply ih
    split
    · rename_i hk
      exact nodup_append'.mpr ⟨h, nodup_singleton k, disjoint_singleton.mpr hk.2⟩
    · exact h

theorem nodup_promotedColumns (promote : List Text) : (promotedColumns promote).Nodup :=
  nodup_promotedFrom promote nodup_nil

/-- Every built-in column is reserved. -/
theorem fixedFields_reserved (t : Table) : ∀ f ∈ fixedFields t, f.name ∈ reservedColumns := by
  cases t <;> decide

theorem nodup_fixedFields (t : Table) : ((fixedFields t).map Field.name).Nodup := by
  cases t <;> decide

theorem names_tableSchemaFor (t : Table) (promote : List Text) :
    (tableSchemaFor t promote).map Field.name =
      (fixedFields t).map Field.name ++ promotedColumns promote := by
  rw [tableSchemaFor, withPromoted, map_append, map_map]
  congr 1
  exact map_id' _

/-- The columns of a table have distinct names. -/
theorem nodup_tableSchema (t : Table) (promote : List Text) :
    ((tableSchemaFor t promote).map Field.name).Nodup := by
  rw [names_tableSchemaFor]
  refine nodup_append'.mpr ⟨nodup_fixedFields t, nodup_promotedColumns promote, ?_⟩
  intro name hfixed hpromoted
  obtain ⟨f, hf, rfl⟩ := mem_map.mp hfixed
  exact (mem_promotedColumns.mp hpromoted).2 (fixedFields_reserved t f hf)

/-- Every table has the attributes and its time column. -/
theorem mem_fixedFields (t : Table) : field "attributes" .utf8 false ∈ fixedFields t ∧
    (⟨(rewriteParams t).1, .timestamp, false⟩ : Field) ∈ fixedFields t := by
  cases t <;> decide

end Imbh.Storage
