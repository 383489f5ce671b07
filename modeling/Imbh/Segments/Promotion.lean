import Imbh.Segments.Files
import Imbh.Storage.Schema

/-!
# Rewriting segments under other promoted keys

A batch is columns under a schema. Sealing encodes rows under the promoted keys of its time; a rewrite
reads the batches of a group of segments, brings each to the schema of the keys in force, projects the
promoted columns that it lacked from the attributes, concatenates and sorts.
-/

namespace Imbh.Segments

open Lib Imbh.Core Storage List Option Function

/-- A cell. The values that no step looks at are `other`. -/
inductive Cell
  | null
  | text (s : Text)
  | time (ns : ℤ)
  | other (id : ℕ)
  deriving DecidableEq

/-- Columns of one length, each with its field. Source: arrow `RecordBatch` -/
structure RecordBatch where
  columns : List (Field × List Cell)
  numRows : ℕ
  length_eq : ∀ c ∈ columns, c.2.length = numRows

namespace RecordBatch

def schema (b : RecordBatch) : List Field := b.columns.map Prod.fst

/-- The column of a name. -/
def column? (b : RecordBatch) (name : Text) : Option (Field × List Cell) :=
  b.columns.find? fun c => c.1.name = name

/-- A batch of columns, when they have one length and no null where there may not be one.
Source: arrow `RecordBatch::try_new` -/
def tryNew (schema : List Field) (columns : List (List Cell)) : Except Text RecordBatch :=
  let n := (columns.head?.map List.length).getD 0
  if h : schema.length = columns.length ∧ ∀ c ∈ schema.zip columns,
      c.2.length = n ∧ (c.1.nullable = true ∨ Cell.null ∉ c.2) then
    .ok ⟨schema.zip columns, n, fun c hc => (h.2 c hc).1⟩
  else .error "invalid record batch".toList

/-- The batch with a column for each field of a schema, by its name. -/
def ofColumns (schema : List Field) (g : Text → List Cell) (n : ℕ)
    (h : ∀ f ∈ schema, (g f.name).length = n) : RecordBatch where
  columns := schema.map fun f => (f, g f.name)
  numRows := n
  length_eq := by
    intro c hc
    obtain ⟨f, hf, rfl⟩ := mem_map.mp hc
    exact h f hf

theorem schema_ofColumns (schema : List Field) (g : Text → List Cell) (n : ℕ)
    (h : ∀ f ∈ schema, (g f.name).length = n) : (ofColumns schema g n h).schema = schema := by
  rw [RecordBatch.schema, ofColumns, List.map_map]
  exact List.map_id' _

theorem ofColumns_congr {schema : List Field} {g g' : Text → List Cell} {n : ℕ}
    {h : ∀ f ∈ schema, (g f.name).length = n} {h' : ∀ f ∈ schema, (g' f.name).length = n}
    (hg : ∀ f ∈ schema, g f.name = g' f.name) : ofColumns schema g n h = ofColumns schema g' n h' := by
  have hcolumns : schema.map (fun f => (f, g f.name)) = schema.map fun f => (f, g' f.name) :=
    map_congr_left fun f hf => by rw [hg f hf]
  unfold ofColumns
  simp only [hcolumns]

/-- Columns of one length, without a null where there may not be one, are a batch. -/
theorem tryNew_ofColumns {schema : List Field} (hne : schema ≠ []) (g : Text → List Cell) {n : ℕ}
    (h : ∀ f ∈ schema, (g f.name).length = n)
    (hnull : ∀ f ∈ schema, f.nullable = false → Cell.null ∉ g f.name) :
    tryNew schema (schema.map fun f => g f.name) = .ok (ofColumns schema g n h) := by
  have hzip : schema.zip (schema.map fun f => g f.name) = schema.map fun f => (f, g f.name) :=
    map_prod_left_eq_zip.symm
  have hn : (((schema.map fun f => g f.name).head?).map List.length).getD 0 = n := by
    obtain ⟨f, fs, rfl⟩ := exists_cons_of_ne_nil hne
    rw [map_cons, head?_cons, map_some, getD_some]
    exact h f mem_cons_self
  have hvalid : schema.length = (schema.map fun f => g f.name).length ∧
      ∀ c ∈ schema.zip (schema.map fun f => g f.name),
        c.2.length = (((schema.map fun f => g f.name).head?).map List.length).getD 0 ∧
          (c.1.nullable = true ∨ Cell.null ∉ c.2) := by
    rw [hn, hzip]
    refine ⟨(length_map _).symm, ?_⟩
    intro c hc
    obtain ⟨f, hf, rfl⟩ := mem_map.mp hc
    refine ⟨h f hf, ?_⟩
    rcases hnullable : f.nullable with _ | _
    · exact Or.inr (hnull f hf hnullable)
    · exact Or.inl rfl
  unfold tryNew
  dsimp only
  rw [dif_pos hvalid]
  congr 1
  simp only [hzip, hn]
  rfl

end RecordBatch

/-- A normalized row of a table: its cells by column, and those that are looked at. -/
structure StoredRow (t : Table) where
  cells : Text → Cell
  attributes : Text
  time : ℤ
  attributes_eq : cells "attributes".toList = .text attributes
  time_eq : cells (rewriteParams t).1 = .time time
  not_null : ∀ f ∈ fixedFields t, f.nullable = false → cells f.name ≠ .null

section

variable (reader : JsonReader)

/-! ## Encoding -/

/-- Source: `lib.rs` `lookup_promoted` -/
def lookupPromoted (attributes key : Text) : Option Text :=
  match jsonGet reader attributes key with
  | some (.str v) => some v
  | _ => none

/-- The cell of a promoted column. -/
def promotedCell : Option Text → Cell
  | some s => .text s
  | none => .null

/-- Source: `lib.rs` `build_promoted_columns` -/
def buildPromotedColumns (promote : List Text) (attributes : List Text) : List (List Cell) :=
  (promotedColumns promote).map fun key => attributes.map fun a => promotedCell (lookupPromoted reader a key)

/-- The rows of a table as a batch.
Source: `lib.rs` `rows_to_batch`, `spans_rows_to_batch`, `scalar_metrics_rows_to_batch`,
`histogram_rows_to_batch`, `exp_histogram_rows_to_batch`, `summary_rows_to_batch` -/
def rowsToBatch (t : Table) (rows : List (StoredRow t)) (promote : List Text) :
    Except Text RecordBatch :=
  RecordBatch.tryNew (tableSchemaFor t promote)
    (((fixedFields t).map fun f => rows.map fun r => r.cells f.name) ++
      buildPromotedColumns reader promote (rows.map StoredRow.attributes))

/-! ## Rewriting -/

/-- One column of the schema: the batch's own, or nulls.
Source: `lib.rs` `coerce_to_schema`, the loop body -/
def coerceColumn (cast : ColumnType → ColumnType → List Cell → Except Text (List Cell))
    (b : RecordBatch) (f : Field) : Except Text (List Cell) :=
  match b.column? f.name with
  | some (src, col) => if src.dataType = f.dataType then .ok col else cast src.dataType f.dataType col
  | none =>
      if f.nullable then .ok (List.replicate b.numRows .null)
      else .error ("segment is missing non-nullable column ".toList ++ f.name)

/-- Source: `lib.rs` `coerce_to_schema` -/
def coerceToSchema (cast : ColumnType → ColumnType → List Cell → Except Text (List Cell))
    (b : RecordBatch) (schema : List Field) : Except Text RecordBatch :=
  if b.schema = schema then .ok b
  else do
    let columns ← schema.mapM (coerceColumn cast b)
    RecordBatch.tryNew schema columns

/-- Replace the first column of a name. -/
def setColumn (name : Text) (col : List Cell) : List (Field × List Cell) → List (Field × List Cell)
  | [] => []
  | c :: columns => if c.1.name = name then (c.1, col) :: columns else c :: setColumn name col columns

/-- Source: `lib.rs` `backfill_promoted` -/
def backfillPromoted (b : RecordBatch) (missing : List Text) : Except Text RecordBatch :=
  if missing = [] then .ok b
  else
    match b.column? "attributes".toList with
    | none => .ok b
    | some (f, attrs) =>
        if f.dataType = .utf8 then
          let texts := attrs.map fun c => match c with | .text s => s | _ => "\x7b\x7d".toList
          let columns := ((promotedColumns missing).zip (buildPromotedColumns reader missing texts)).foldl
            (fun columns kc => setColumn kc.1 kc.2 columns) b.columns
          RecordBatch.tryNew (columns.map Prod.fst) (columns.map Prod.snd)
        else .error "compaction: `attributes` is not a StringArray".toList

/-- The columns of batches under one schema, one behind the other. -/
def concatenation (schema : List Field) (batches : List RecordBatch) : Except Text RecordBatch :=
  if ∀ b ∈ batches, b.schema = schema then
    RecordBatch.tryNew schema (batches.foldl
      (fun columns b => List.zipWith (· ++ ·) columns (b.columns.map Prod.snd)) (schema.map fun _ => []))
  else .error "concat segments".toList

/-- The values at a list of indices. -/
def selection {α : Type} (indices : List ℕ) (col : List α) : List α := indices.filterMap fun i => col[i]?

/-- What arrow does with columns. The offsets into the texts of a column are of 32 bits, so that batches
may have too much text for one column. -/
structure Kernels where
  /-- Source: arrow `concat_batches` -/
  concatBatches : List Field → List RecordBatch → Except Text RecordBatch
  /-- Source: arrow `take` -/
  take : List ℕ → List Cell → Except Text (List Cell)
  /-- Source: arrow `sort_to_indices`. In which order equal times come is not determined. -/
  sortToIndices : List Cell → List ℕ
  /-- How far the offsets of a column of a batch reach: over its texts, over those of a dictionary whether
  they are used or not, or over the elements of its lists. -/
  extent : RecordBatch → Text → ℕ
  concat_exact : ∀ {schema batches b}, concatBatches schema batches = .ok b →
    concatenation schema batches = .ok b
  concat_ok : ∀ {schema batches b}, concatenation schema batches = .ok b →
    (∀ f ∈ schema, (batches.map fun b => extent b f.name).sum < 2 ^ 31) → concatBatches schema batches = .ok b
  take_ok : ∀ {indices col}, indices.Perm (List.range col.length) →
    take indices col = .ok (selection indices col)
  perm : ∀ times : List ℤ, (sortToIndices (times.map .time)).Perm (List.range times.length)
  sorted : ∀ times : List ℤ,
    ((sortToIndices (times.map .time)).filterMap fun i => times[i]?).Pairwise (· ≤ ·)

/-- The offsets of a column reach over those of the batches. -/
def Kernels.Fits (kernels : Kernels) (schema : List Field) (batches : List RecordBatch) : Prop :=
  ∀ f ∈ schema, (batches.map fun b => kernels.extent b f.name).sum < 2 ^ 31

/-- Source: `lib.rs` `concat_and_sort` -/
def sortBatches (kernels : Kernels) (batches : List RecordBatch) (timeCol : Text) :
    Except Text RecordBatch :=
  match batches with
  | [] => .error "no batches".toList
  | b :: batches => do
      let merged ← kernels.concatBatches b.schema (b :: batches)
      match merged.column? timeCol with
      | none => .error timeCol
      | some (_, times) =>
          let columns ← merged.columns.mapM fun c => kernels.take (kernels.sortToIndices times) c.2
          RecordBatch.tryNew b.schema columns

/-- What a rewrite of a group leaves: the batch, its bounds, and whether it has a text index. -/
structure Rewritten extends Bounds where
  batch : RecordBatch
  rows : ℕ
  indexed : Bool

/-- What a rewrite works with: the casts and the other functions on columns, and the files. -/
structure RewriteEnv where
  cast : ColumnType → ColumnType → List Cell → Except Text (List Cell)
  kernels : Kernels
  readParquetFile : Text → Except Text (List RecordBatch)

/-- One batch of a source, under the schema of the keys in force. The columns that it lacks are found
before it is coerced. -/
def convergeBatch (env : RewriteEnv) (canonical : List Field) (promote : List Text) (b : RecordBatch) :
    Except Text RecordBatch := do
  let missing := promote.filter fun k => (b.column? k).isNone
  let coerced ← coerceToSchema env.cast b canonical
  backfillPromoted reader coerced missing

/-- The batches of a group of segments, under the schema of the keys in force. -/
def readSources (env : RewriteEnv) (canonical : List Field) (promote : List Text) (group : List SegmentRef) :
    Except Text (List RecordBatch) := do
  let batches ← group.mapM fun s => do
    let file ← env.readParquetFile s.relativePath
    file.mapM (convergeBatch reader env canonical promote)
  return batches.flatten

/-- The rewrite of a group of segments; `none` when they have no batch. -/
def rewriteGroup (env : RewriteEnv) (timeCol : Text) (buildIndex : Bool) (canonical : List Field)
    (promote : List Text) (group : List SegmentRef) : Except Text (Option Rewritten) := do
  let batches ← readSources reader env canonical promote group
  if batches = [] then return none
  let sorted ← sortBatches env.kernels batches timeCol
  return some
    { toBounds := mergedBounds (group.map SegmentRef.toBounds)
      batch := sorted
      rows := sorted.numRows
      indexed := buildIndex }

/-- What `compact_bounded` rewrites a table with. -/
def compactParams : Table → Text × Bool
  | .logs => ("time".toList, true)
  | .spans => ("start_time".toList, true)
  | _ => ("time".toList, false)

/-- The rewrite of a group in the writer.
Source: `lib.rs` `compact_partition`, the loop body -/
def compactGroup (env : RewriteEnv) (t : Table) (promote : List Text) (group : List SegmentRef) :
    Except Text (Option Rewritten) :=
  rewriteGroup reader env (compactParams t).1 (compactParams t).2 (tableSchemaFor t promote) promote
    group

/-- The rewrite of a group in another process.
Source: `lib.rs` `rewrite_segment_set` -/
def rewriteSegmentSet (env : RewriteEnv) (t : Table) (promote : List Text) (group : List SegmentRef) :
    Except Text (Option Rewritten) :=
  rewriteGroup reader env (rewriteParams t).1 (rewriteParams t).2 (tableSchemaFor t promote) promote
    group

/-! ## The form of an encoded batch -/

/-- The cell of a row in a column. A built-in column has the row's own cell, any other that of its key. -/
def cellOf {t : Table} (r : StoredRow t) (name : Text) : Cell :=
  if name ∈ reservedColumns then r.cells name
  else promotedCell (lookupPromoted reader r.attributes name)

/-- The rows as columns of the schema. -/
def encoded (t : Table) (promote : List Text) (rows : List (StoredRow t)) : RecordBatch :=
  .ofColumns (tableSchemaFor t promote) (fun name => rows.map fun r => cellOf reader r name)
    rows.length fun _ _ => length_map _

variable {t : Table} {promote : List Text} {rows : List (StoredRow t)} {f : Field}

@[simp] theorem schema_encoded : (encoded reader t promote rows).schema = tableSchemaFor t promote :=
  RecordBatch.schema_ofColumns _ _ _ _

theorem cellOf_fixed (r : StoredRow t) (hf : f ∈ fixedFields t) : cellOf reader r f.name = r.cells f.name :=
  if_pos (fixedFields_reserved t f hf)

theorem cellOf_promoted (r : StoredRow t) {k : Text} (hk : k ∈ promotedColumns promote) :
    cellOf reader r k = promotedCell (lookupPromoted reader r.attributes k) :=
  if_neg (mem_promotedColumns.mp hk).2

/-- A column that is not nullable has no null. -/
theorem cellOf_ne_null (r : StoredRow t) (hf : f ∈ tableSchemaFor t promote) (hnull : f.nullable = false) :
    cellOf reader r f.name ≠ .null := by
  rcases mem_append.mp hf with hf | hf
  · rw [cellOf_fixed reader r hf]
    exact r.not_null f hf hnull
  · obtain ⟨k, -, rfl⟩ := mem_map.mp hf
    exact absurd hnull (by simp)

theorem tableSchemaFor_ne_nil (t : Table) (promote : List Text) : tableSchemaFor t promote ≠ [] := by
  refine append_ne_nil_of_left_ne_nil ?_ _
  exact ne_nil_of_mem (mem_fixedFields t).1

/-- Columns with the cells of the rows are a batch. -/
theorem tryNew_encoded (rows : List (StoredRow t)) :
    RecordBatch.tryNew (tableSchemaFor t promote)
        ((tableSchemaFor t promote).map fun f => rows.map fun r => cellOf reader r f.name) =
      .ok (encoded reader t promote rows) := by
  apply RecordBatch.tryNew_ofColumns (tableSchemaFor_ne_nil t promote)
    (fun name => rows.map fun r => cellOf reader r name) fun _ _ => length_map _
  intro f hf hnull hmem
  obtain ⟨r, -, hr⟩ := mem_map.mp hmem
  exact cellOf_ne_null reader r hf hnull hr

/-- The encoded rows. -/
theorem rowsToBatch_eq (rows : List (StoredRow t)) (promote : List Text) :
    rowsToBatch reader t rows promote = .ok (encoded reader t promote rows) := by
  rw [rowsToBatch, ← tryNew_encoded]
  congr 1
  rw [tableSchemaFor, withPromoted, List.map_append, buildPromotedColumns, List.map_map]
  congr 1
  · apply List.map_congr_left
    intro f hf
    apply List.map_congr_left
    intro r _
    exact (cellOf_fixed reader r hf).symm
  · apply List.map_congr_left
    intro k hk
    rw [List.map_map]
    apply List.map_congr_left
    intro r _
    exact (cellOf_promoted reader r hk).symm

/-! ## The steps of a rewrite -/

variable {schema : List Field}

/-- A column of a schema, whose names are distinct. -/
theorem find?_columns (hnodup : (schema.map Field.name).Nodup) (g : Text → List Cell) (hf : f ∈ schema) :
    (schema.map fun f => (f, g f.name)).find? (fun c => c.1.name = f.name) = some (f, g f.name) := by
  induction schema with
  | nil => exact absurd hf not_mem_nil
  | cons f' schema ih =>
    obtain ⟨hnot, hnodup⟩ := nodup_cons.mp hnodup
    rw [map_cons, find?_cons]
    rcases mem_cons.mp hf with rfl | hf
    · rw [decide_eq_true rfl]
    · have hne : f'.name ≠ f.name := fun h => hnot (h ▸ mem_map_of_mem hf)
      rw [decide_eq_false hne]
      exact ih hnodup hf

theorem find?_columns_eq_none (g : Text → List Cell) {name : Text} (h : name ∉ schema.map Field.name) :
    (schema.map fun f => (f, g f.name)).find? (fun c => c.1.name = name) = none := by
  rw [find?_eq_none]
  intro c hc hname
  obtain ⟨f, hf, rfl⟩ := mem_map.mp hc
  exact h (mem_map.mpr ⟨f, hf, of_decide_eq_true hname⟩)

theorem column?_encoded (hf : f ∈ tableSchemaFor t promote) :
    (encoded reader t promote rows).column? f.name =
      some (f, rows.map fun r => cellOf reader r f.name) :=
  find?_columns (nodup_tableSchema t promote) (fun name => rows.map fun r => cellOf reader r name) hf

theorem column?_encoded_eq_none {name : Text}
    (h : name ∉ (tableSchemaFor t promote).map Field.name) :
    (encoded reader t promote rows).column? name = none :=
  find?_columns_eq_none (fun name => rows.map fun r => cellOf reader r name) h

/-- Setting a column of a schema, whose names are distinct. -/
theorem setColumn_columns (hnodup : (schema.map Field.name).Nodup) (g : Text → List Cell) (name : Text)
    (col : List Cell) :
    setColumn name col (schema.map fun f => (f, g f.name)) =
      schema.map fun f => (f, update g name col f.name) := by
  induction schema with
  | nil => rfl
  | cons f schema ih =>
    obtain ⟨hnot, hnodup⟩ := nodup_cons.mp hnodup
    rw [map_cons, setColumn, map_cons]
    dsimp only
    split
    · rename_i hname
      congr 1
      · rw [hname, update_self]
      · apply map_congr_left
        intro f' hf'
        rw [update_of_ne]
        intro hname'
        exact hnot ((hname.trans hname'.symm) ▸ mem_map_of_mem hf')
    · rename_i hname
      rw [ih hnodup, update_of_ne hname]

/-- Setting the columns of a list of names. -/
theorem foldl_setColumn (hnodup : (schema.map Field.name).Nodup) (h : Text → List Cell) (names : List Text)
    (g : Text → List Cell) :
    (names.zip (names.map h)).foldl (fun columns kc => setColumn kc.1 kc.2 columns)
        (schema.map fun f => (f, g f.name)) =
      schema.map fun f => (f, if f.name ∈ names then h f.name else g f.name) := by
  induction names generalizing g with
  | nil => simp
  | cons name names ih =>
    rw [map_cons, zip_cons_cons, foldl_cons, setColumn_columns hnodup, ih]
    apply map_congr_left
    intro f _
    congr 1
    by_cases hmem : f.name ∈ names
    · rw [if_pos hmem, if_pos (mem_cons_of_mem _ hmem)]
    · rw [if_neg hmem]
      by_cases hname : f.name = name
      · rw [hname, update_self, if_pos mem_cons_self]
      · rw [update_of_ne hname, if_neg fun h => (mem_cons.mp h).elim hname hmem]

theorem mapM_ok {α β : Type} {f : α → Except Text β} {g : α → β} {l : List α}
    (h : ∀ a ∈ l, f a = .ok (g a)) : l.mapM f = .ok (l.map g) := by
  induction l with
  | nil => rfl
  | cons a l ih =>
    rw [mapM_cons, h a mem_cons_self, ih fun a ha => h a (mem_cons_of_mem _ ha)]
    rfl

variable {live : List Text}

/-- A column of the schema in force that the batch has under its name. -/
theorem mem_tableSchemaFor (hf : f ∈ tableSchemaFor t live)
    (hname : f.name ∈ (tableSchemaFor t promote).map Field.name) : f ∈ tableSchemaFor t promote := by
  rcases mem_append.mp hf with hf | hf
  · exact mem_append_left _ hf
  · obtain ⟨k, hk, rfl⟩ := mem_map.mp hf
    rw [names_tableSchemaFor, mem_append] at hname
    rcases hname with hname | hname
    · obtain ⟨f, hf, hkf⟩ := mem_map.mp hname
      have hres : f.name ∈ reservedColumns := fixedFields_reserved t f hf
      rw [hkf] at hres
      exact absurd hres (mem_promotedColumns.mp hk).2
    · exact mem_append_right _ (mem_map_of_mem hname)

/-- The column of a name after the coercion: the batch's own, or nulls. -/
def coercedColumn (promote : List Text) (rows : List (StoredRow t)) (name : Text) : List Cell :=
  if name ∈ (tableSchemaFor t promote).map Field.name then rows.map fun r => cellOf reader r name
  else List.replicate rows.length .null

theorem length_coercedColumn (promote : List Text) (rows : List (StoredRow t)) (name : Text) :
    (coercedColumn reader promote rows name).length = rows.length := by
  unfold coercedColumn
  split
  · exact length_map _
  · exact length_replicate

/-- A coercion keeps the columns that the batch has, and gives nulls for the others. -/
theorem coerceToSchema_encoded
    (cast : ColumnType → ColumnType → List Cell → Except Text (List Cell)) :
    coerceToSchema cast (encoded reader t promote rows) (tableSchemaFor t live) =
      .ok (.ofColumns (tableSchemaFor t live) (coercedColumn reader promote rows) rows.length
        fun _ _ => length_coercedColumn reader promote rows _) := by
  unfold coerceToSchema
  rw [schema_encoded]
  split
  · rename_i hschema
    rw [encoded]
    simp only [hschema]
    congr 1
    apply RecordBatch.ofColumns_congr
    intro f hf
    rw [coercedColumn, hschema, if_pos (mem_map_of_mem hf)]
  · have hcolumns : (tableSchemaFor t live).mapM (coerceColumn cast (encoded reader t promote rows)) =
        .ok ((tableSchemaFor t live).map fun f => coercedColumn reader promote rows f.name) := by
      apply mapM_ok
      intro f hf
      unfold coerceColumn coercedColumn
      by_cases hname : f.name ∈ (tableSchemaFor t promote).map Field.name
      · rw [column?_encoded reader (mem_tableSchemaFor hf hname), if_pos hname]
        exact if_pos rfl
      · rw [column?_encoded_eq_none reader hname, if_neg hname]
        refine if_pos ?_
        -- a built-in column is in every schema
        rcases mem_append.mp hf with hf | hf
        · exact absurd (mem_map_of_mem (mem_append_left _ hf)) hname
        · obtain ⟨k, -, rfl⟩ := mem_map.mp hf
          rfl
    rw [hcolumns]
    apply RecordBatch.tryNew_ofColumns (tableSchemaFor_ne_nil t live)
    intro f hf hnull
    rcases mem_append.mp hf with hfixed | hpromoted
    · have hmem : f ∈ tableSchemaFor t promote := mem_append_left _ hfixed
      rw [coercedColumn, if_pos (mem_map_of_mem hmem)]
      intro hcell
      obtain ⟨r, -, hr⟩ := mem_map.mp hcell
      exact cellOf_ne_null reader r hmem hnull hr
    · obtain ⟨k, -, rfl⟩ := mem_map.mp hpromoted
      exact absurd hnull (by simp)

/-- The keys in force whose column the batch lacks. -/
theorem mem_missing {k : Text} :
    k ∈ live.filter (fun k => ((encoded reader t promote rows).column? k).isNone) ↔
      k ∈ live ∧ k ∉ (tableSchemaFor t promote).map Field.name := by
  rw [mem_filter, and_congr_right_iff]
  intro _
  constructor
  · intro hnone hname
    obtain ⟨f, hf, rfl⟩ := mem_map.mp hname
    rw [column?_encoded reader hf] at hnone
    exact absurd hnone (by simp)
  · intro hname
    rw [column?_encoded_eq_none reader hname]
    rfl

/-- A column in force that the projection does not write is the batch's own. -/
theorem coercedColumn_of_not_missing {missing : List Text}
    (hmissing : ∀ k, k ∈ missing ↔ k ∈ live ∧ k ∉ (tableSchemaFor t promote).map Field.name)
    (hf : f ∈ tableSchemaFor t live) (hnot : f.name ∉ promotedColumns missing) :
    coercedColumn reader promote rows f.name = rows.map fun r => cellOf reader r f.name := by
  refine if_pos ?_
  rcases mem_append.mp hf with hf | hf
  · exact mem_map_of_mem (mem_append_left _ hf)
  · obtain ⟨k, hk, rfl⟩ := mem_map.mp hf
    obtain ⟨hlive, hres⟩ := mem_promotedColumns.mp hk
    by_contra hname
    exact hnot (mem_promotedColumns.mpr ⟨(hmissing k).mpr ⟨hlive, hname⟩, hres⟩)

/-- The projection gives the columns that the batch lacked the cells of its rows. -/
theorem backfillPromoted_encoded {missing : List Text}
    (hmissing : ∀ k, k ∈ missing ↔ k ∈ live ∧ k ∉ (tableSchemaFor t promote).map Field.name) :
    backfillPromoted reader (.ofColumns (tableSchemaFor t live) (coercedColumn reader promote rows)
        rows.length fun _ _ => length_coercedColumn reader promote rows _) missing =
      .ok (encoded reader t live rows) := by
  unfold backfillPromoted
  split
  · rename_i hnil
    congr 1
    apply RecordBatch.ofColumns_congr
    intro f hf
    apply coercedColumn_of_not_missing reader hmissing hf
    rw [hnil]
    exact List.not_mem_nil
  · have hattrs : field "attributes" .utf8 false ∈ tableSchemaFor t live :=
      List.mem_append_left _ (mem_fixedFields t).1
    have hcolumn : coercedColumn reader promote rows "attributes".toList =
        rows.map fun r => Cell.text r.attributes := by
      have hmem : field "attributes" .utf8 false ∈ tableSchemaFor t promote :=
        List.mem_append_left _ (mem_fixedFields t).1
      refine (if_pos (List.mem_map_of_mem (f := Field.name) hmem)).trans ?_
      apply List.map_congr_left
      intro r _
      exact (cellOf_fixed reader r (mem_fixedFields t).1).trans r.attributes_eq
    have hfind : (RecordBatch.ofColumns (tableSchemaFor t live) (coercedColumn reader promote rows)
        rows.length fun _ _ => length_coercedColumn reader promote rows _).column?
          "attributes".toList =
        some (field "attributes" .utf8 false, rows.map fun r => Cell.text r.attributes) := by
      rw [← hcolumn]
      exact find?_columns (nodup_tableSchema t live) (coercedColumn reader promote rows) hattrs
    have htype : (field "attributes" .utf8 false).dataType = .utf8 := rfl
    rw [hfind]
    dsimp only
    rw [if_pos htype, List.map_map]
    have hbuilt : buildPromotedColumns reader missing
        (rows.map ((fun c => match c with | .text s => s | _ => "\x7b\x7d".toList) ∘
          fun r => Cell.text r.attributes)) =
        (promotedColumns missing).map fun k => rows.map fun r => cellOf reader r k := by
      apply List.map_congr_left
      intro k hk
      rw [List.map_map]
      apply List.map_congr_left
      intro r _
      exact (cellOf_promoted reader r hk).symm
    have hset := foldl_setColumn (nodup_tableSchema t live)
      (fun k => rows.map fun r => cellOf reader r k) (promotedColumns missing)
      (coercedColumn reader promote rows)
    have hcolumns : (tableSchemaFor t live).map (fun f => (f, if f.name ∈ promotedColumns missing then
        rows.map fun r => cellOf reader r f.name else coercedColumn reader promote rows f.name)) =
        (tableSchemaFor t live).map fun f => (f, rows.map fun r => cellOf reader r f.name) := by
      apply List.map_congr_left
      intro f hf
      congr 1
      split
      · rfl
      · rename_i hnot
        exact coercedColumn_of_not_missing reader hmissing hf hnot
    rw [hbuilt, RecordBatch.ofColumns]
    dsimp only
    rw [hset, hcolumns, List.map_map, List.map_map]
    have hfst : (tableSchemaFor t live).map
        (Prod.fst ∘ fun f => (f, rows.map fun r => cellOf reader r f.name)) = tableSchemaFor t live :=
      List.map_id' _
    rw [hfst]
    exact tryNew_encoded reader rows

/-- A batch under other keys becomes the batch under the keys in force. -/
theorem convergeBatch_encoded (env : RewriteEnv) :
    convergeBatch reader env (tableSchemaFor t live) live (encoded reader t promote rows) =
      .ok (encoded reader t live rows) := by
  unfold convergeBatch
  dsimp only
  rw [coerceToSchema_encoded]
  exact backfillPromoted_encoded reader fun k => mem_missing reader

theorem zipWith_append_map {α β : Type} (g h : α → List β) (l : List α) :
    List.zipWith (· ++ ·) (l.map g) (l.map h) = l.map fun a => g a ++ h a := by
  induction l with
  | nil => rfl
  | cons a l ih =>
    rw [map_cons, map_cons, zipWith_cons_cons, ih, map_cons]

theorem columns_encoded (rows : List (StoredRow t)) :
    (encoded reader t live rows).columns.map Prod.snd =
      (tableSchemaFor t live).map fun f => rows.map fun r => cellOf reader r f.name := by
  rw [encoded, RecordBatch.ofColumns, List.map_map]
  rfl

/-- The concatenation of batches under one schema. -/
theorem concatenation_encoded (chunks : List (List (StoredRow t))) :
    concatenation (tableSchemaFor t live) (chunks.map (encoded reader t live)) =
      .ok (encoded reader t live chunks.flatten) := by
  have hfold : ∀ (chunks : List (List (StoredRow t))) (acc : List (StoredRow t)),
      (chunks.map (encoded reader t live)).foldl
          (fun columns b => List.zipWith (· ++ ·) columns (b.columns.map Prod.snd))
          ((tableSchemaFor t live).map fun f => acc.map fun r => cellOf reader r f.name) =
        (tableSchemaFor t live).map fun f =>
          (acc ++ chunks.flatten).map fun r => cellOf reader r f.name := by
    intro chunks
    induction chunks with
    | nil =>
      intro acc
      rw [flatten_nil, append_nil]
      rfl
    | cons chunk chunks ih =>
      intro acc
      rw [map_cons, foldl_cons, columns_encoded, zipWith_append_map, flatten_cons,
        ← append_assoc, ← ih (acc ++ chunk)]
      simp only [map_append]
  unfold concatenation
  have hschema : ∀ b ∈ chunks.map (encoded reader t live), b.schema = tableSchemaFor t live := by
    intro b hb
    obtain ⟨chunk, -, rfl⟩ := mem_map.mp hb
    exact schema_encoded reader
  rw [if_pos hschema]
  have hcolumns := hfold chunks []
  rw [nil_append] at hcolumns
  simp only [map_nil] at hcolumns
  rw [hcolumns]
  exact tryNew_encoded reader chunks.flatten

theorem selection_map {α β : Type} (indices : List ℕ) (l : List α) (f : α → β) :
    selection indices (l.map f) = (selection indices l).map f := by
  rw [selection, selection, map_filterMap]
  simp only [getElem?_map]

theorem selection_range {α : Type} (l : List α) : selection (List.range l.length) l = l := by
  have hmap : (List.range l.length).map (fun i => l[i]?) = l.map some := by
    apply ext_getElem
    · simp
    · intro i h₁ h₂
      simp only [getElem_map, getElem_range]
      rw [getElem?_eq_getElem]
  calc selection (List.range l.length) l
      = ((List.range l.length).map fun i => l[i]?).filterMap id := by
        rw [filterMap_map]
        rfl
    _ = l := by
        rw [hmap, filterMap_map]
        exact filterMap_some

theorem selection_perm {α : Type} {indices : List ℕ} {l : List α}
    (h : indices.Perm (List.range l.length)) : (selection indices l).Perm l := by
  have htake := h.filterMap fun i => l[i]?
  rw [show (List.range l.length).filterMap (fun i => l[i]?) = l from selection_range l] at htake
  exact htake

/-- A sort of batches under one schema is a batch of the rows in time order, or the offsets of a column do
not reach over them. -/
theorem sortBatches_encoded (kernels : Kernels) {chunks : List (List (StoredRow t))} (hne : chunks ≠ []) :
    (∃ sorted : List (StoredRow t), sorted.Perm chunks.flatten ∧
      sorted.Pairwise (fun a b => a.time ≤ b.time) ∧
      sortBatches kernels (chunks.map (encoded reader t live)) (rewriteParams t).1 =
        .ok (encoded reader t live sorted)) ∨
      ¬ kernels.Fits (tableSchemaFor t live) (chunks.map (encoded reader t live)) ∧
        ∃ e, sortBatches kernels (chunks.map (encoded reader t live)) (rewriteParams t).1 = .error e := by
  obtain ⟨chunk, more, rfl⟩ := List.exists_cons_of_ne_nil hne
  set rows := (chunk :: more).flatten with hrows
  have hmerged := @concatenation_encoded reader _ live (chunk :: more)
  rw [← hrows] at hmerged
  rw [List.map_cons, sortBatches, schema_encoded, ← List.map_cons (f := encoded reader t live)]
  rcases hconcat : kernels.concatBatches (tableSchemaFor t live)
    ((chunk :: more).map (encoded reader t live)) with e | merged
  · refine Or.inr ⟨fun hfits => ?_, e, rfl⟩
    have hok := kernels.concat_ok hmerged hfits
    rw [hconcat] at hok
    cases hok
  · left
    obtain rfl : encoded reader t live rows = merged :=
      Except.ok.inj (hmerged.symm.trans (kernels.concat_exact hconcat))
    have htimes : rows.map (fun r => cellOf reader r (rewriteParams t).1) =
        (rows.map StoredRow.time).map Cell.time := by
      rw [List.map_map]
      apply List.map_congr_left
      intro r _
      exact (cellOf_fixed reader r (mem_fixedFields t).2).trans r.time_eq
    have hfield : (⟨(rewriteParams t).1, .timestamp, false⟩ : Field) ∈ tableSchemaFor t live :=
      List.mem_append_left _ (mem_fixedFields t).2
    have hcolumn : (encoded reader t live rows).column? (rewriteParams t).1 =
        some (⟨(rewriteParams t).1, .timestamp, false⟩,
          rows.map fun r => cellOf reader r (rewriteParams t).1) := column?_encoded reader hfield
    set indices := kernels.sortToIndices ((rows.map StoredRow.time).map .time) with hindices
    have hperm : indices.Perm (List.range rows.length) := by
      have hperm := kernels.perm (rows.map StoredRow.time)
      rwa [List.length_map] at hperm
    refine ⟨selection indices rows, selection_perm hperm, ?_, ?_⟩
    · have hsorted := kernels.sorted (rows.map StoredRow.time)
      have hselection := selection_map indices rows StoredRow.time
      rw [selection] at hselection
      rw [← hindices, hselection] at hsorted
      exact List.pairwise_map.mp hsorted
    · have htaken : (encoded reader t live rows).columns.mapM (fun c => kernels.take indices c.2) =
          .ok ((tableSchemaFor t live).map fun f => (selection indices rows).map fun r =>
            cellOf reader r f.name) := by
        rw [encoded, RecordBatch.ofColumns, List.mapM_map]
        apply mapM_ok
        intro f _
        rw [← selection_map]
        apply kernels.take_ok
        rwa [List.length_map]
      dsimp only [bind, Except.bind]
      rw [hcolumn]
      dsimp only
      rw [htimes, htaken]
      exact tryNew_encoded reader _

/-! ## Late promotion -/

/-- What the file of a segment is read as: the keys it was written under, and its rows in batches. -/
structure SegmentContent (t : Table) where
  promote : List Text
  chunks : List (List (StoredRow t))

/-- The batches of a segment. -/
def SegmentContent.batches (c : SegmentContent t) : Except Text (List RecordBatch) :=
  c.chunks.mapM fun rows => rowsToBatch reader t rows c.promote

theorem SegmentContent.batches_eq (c : SegmentContent t) :
    c.batches reader = .ok (c.chunks.map (encoded reader t c.promote)) :=
  mapM_ok fun rows _ => rowsToBatch_eq reader rows c.promote

theorem mapM_group (env : RewriteEnv) (group : List (SegmentRef × SegmentContent t))
    (hfiles : ∀ s ∈ group, env.readParquetFile s.1.relativePath = s.2.batches reader) :
    ((group.map Prod.fst).mapM fun s => do
        let file ← env.readParquetFile s.relativePath
        file.mapM (convergeBatch reader env (tableSchemaFor t live) live)) =
      .ok (group.map fun s => s.2.chunks.map (encoded reader t live)) := by
  induction group with
  | nil => rfl
  | cons s group ih =>
    have hconverge : (s.2.chunks.map (encoded reader t s.2.promote)).mapM
        (convergeBatch reader env (tableSchemaFor t live) live) =
          .ok (s.2.chunks.map (encoded reader t live)) := by
      rw [mapM_map]
      exact mapM_ok fun rows _ => convergeBatch_encoded reader env
    rw [map_cons, mapM_cons, ih fun s hs => hfiles s (mem_cons_of_mem _ hs),
      hfiles s mem_cons_self, SegmentContent.batches_eq, map_cons]
    have hread : ((Except.ok (s.2.chunks.map (encoded reader t s.2.promote)) :
        Except Text (List RecordBatch)) >>= fun file =>
          file.mapM (convergeBatch reader env (tableSchemaFor t live) live)) =
        .ok (s.2.chunks.map (encoded reader t live)) := hconverge
    rw [hread]
    rfl

/-- The batches of a group of segments, brought to the schema of the keys in force. -/
theorem readSources_encoded (env : RewriteEnv) (group : List (SegmentRef × SegmentContent t))
    (hfiles : ∀ s ∈ group, env.readParquetFile s.1.relativePath = s.2.batches reader) :
    readSources reader env (tableSchemaFor t live) live (group.map Prod.fst) =
      .ok ((group.flatMap fun s => s.2.chunks).map (encoded reader t live)) := by
  have hgroup : ((group.map Prod.fst).mapM fun s => do
      let file ← env.readParquetFile s.relativePath
      file.mapM (convergeBatch reader env (tableSchemaFor t live) live)) =
        .ok (group.map fun s => s.2.chunks.map (encoded reader t live)) := mapM_group reader env group hfiles
  unfold readSources
  rw [hgroup, map_flatMap]
  rfl

/-- A rewrite gives the batch that its rows in time order have under the keys in force, or the offsets of a
column do not reach over them. -/
theorem rewriteGroup_encoded (env : RewriteEnv) (buildIndex : Bool)
    (group : List (SegmentRef × SegmentContent t))
    (hfiles : ∀ s ∈ group, env.readParquetFile s.1.relativePath = s.2.batches reader)
    (hne : group.flatMap (fun s => s.2.chunks) ≠ []) :
    (∃ sorted : List (StoredRow t), sorted.Perm (group.flatMap fun s => s.2.chunks).flatten ∧
      sorted.Pairwise (fun a b => a.time ≤ b.time) ∧
      rewriteGroup reader env (rewriteParams t).1 buildIndex (tableSchemaFor t live) live
          (group.map Prod.fst) =
        .ok (some
          { toBounds := mergedBounds ((group.map Prod.fst).map SegmentRef.toBounds)
            batch := encoded reader t live sorted
            rows := sorted.length
            indexed := buildIndex })) ∨
      ¬ env.kernels.Fits (tableSchemaFor t live)
          ((group.flatMap fun s => s.2.chunks).map (encoded reader t live)) ∧
        ∃ e, rewriteGroup reader env (rewriteParams t).1 buildIndex (tableSchemaFor t live) live
          (group.map Prod.fst) = .error e := by
  have hnonempty : (group.flatMap fun s => s.2.chunks).map (encoded reader t live) ≠ [] :=
    fun h => hne (map_eq_nil_iff.mp h)
  unfold rewriteGroup
  rw [readSources_encoded reader env group hfiles]
  dsimp only [bind, Except.bind]
  rw [if_neg hnonempty]
  rcases sortBatches_encoded reader env.kernels hne with ⟨sorted, hperm, htime, hsort⟩ | ⟨hfits, e, hsort⟩
  · refine Or.inl ⟨sorted, hperm, htime, ?_⟩
    rw [hsort]
    rfl
  · refine Or.inr ⟨hfits, e, ?_⟩
    rw [hsort]

/-- What late promotion of a group of segments is: both rewrites give one batch, of the rows of the
group in time order, which is the batch of these rows under the keys in force. -/
structure LateIsEarly (env : RewriteEnv) (live : List Text) (group : List (SegmentRef × SegmentContent t))
    (sorted : List (StoredRow t)) (w : Rewritten) : Prop where
  compact : compactGroup reader env t live (group.map Prod.fst) = .ok (some w)
  rewrite : rewriteSegmentSet reader env t live (group.map Prod.fst) = .ok (some w)
  perm : sorted.Perm (group.flatMap fun s => s.2.chunks).flatten
  time : sorted.Pairwise fun a b => a.time ≤ b.time
  early : rowsToBatch reader t sorted live = .ok w.batch
  rows : w.rows = sorted.length
  cells : ∀ k ∈ promotedColumns live, w.batch.column? k =
    some (⟨k, .dictUtf8, true⟩, sorted.map fun r => promotedCell (lookupPromoted reader r.attributes k))

theorem compactParams_eq (t : Table) : compactParams t = rewriteParams t := by
  cases t <;> rfl

/-- **Late promotion is early promotion**: segments written under any promoted keys are rewritten to
what their rows would have been under the keys in force, in the writer and in another process; or both
refuse, of segments with more in a column than its offsets reach over. -/
theorem late_promotion (env : RewriteEnv) (live : List Text)
    (group : List (SegmentRef × SegmentContent t))
    (hfiles : ∀ s ∈ group, env.readParquetFile s.1.relativePath = s.2.batches reader) :
    (group.flatMap (fun s => s.2.chunks) = [] ∧
        compactGroup reader env t live (group.map Prod.fst) = .ok none ∧
        rewriteSegmentSet reader env t live (group.map Prod.fst) = .ok none) ∨
      (∃ sorted w, LateIsEarly reader env live group sorted w) ∨
      ¬ env.kernels.Fits (tableSchemaFor t live)
          ((group.flatMap fun s => s.2.chunks).map (encoded reader t live)) ∧
        ∃ e, compactGroup reader env t live (group.map Prod.fst) = .error e ∧
          rewriteSegmentSet reader env t live (group.map Prod.fst) = .error e := by
  have hsame : compactGroup reader env t live (group.map Prod.fst) =
      rewriteSegmentSet reader env t live (group.map Prod.fst) := by
    rw [compactGroup, compactParams_eq, rewriteSegmentSet]
  by_cases hne : group.flatMap (fun s => s.2.chunks) = []
  · refine Or.inl ⟨hne, ?_⟩
    have hnone : rewriteSegmentSet reader env t live (group.map Prod.fst) = .ok none := by
      unfold rewriteSegmentSet rewriteGroup
      rw [readSources_encoded reader env group hfiles, hne]
      rfl
    exact ⟨hsame.trans hnone, hnone⟩
  · right
    rcases rewriteGroup_encoded reader env (rewriteParams t).2 group hfiles hne with
      ⟨sorted, hperm, htime, hrewrite⟩ | ⟨hfits, e, hrewrite⟩
    · refine Or.inl ⟨sorted, _, hsame.trans hrewrite, hrewrite, hperm, htime,
        rowsToBatch_eq reader sorted live, rfl, ?_⟩
      intro k hk
      have hfield : (⟨k, .dictUtf8, true⟩ : Field) ∈ tableSchemaFor t live :=
        mem_append_right _ (mem_map.mpr ⟨k, hk, rfl⟩)
      have hcolumn : (encoded reader t live sorted).column? k = some _ := column?_encoded reader hfield
      refine hcolumn.trans ?_
      congr 2
      apply map_congr_left
      intro r _
      exact cellOf_promoted reader r hk
    · exact Or.inr ⟨hfits, e, hsame.trans hrewrite, hrewrite⟩

end

/-! ### Two segments -/

/-- The time at an index. -/
def timeAt (cells : List Cell) (i : ℕ) : ℤ :=
  match cells[i]? with
  | some (.time ns) => ns
  | _ => 0

/-- The bytes of a text. -/
def textBytes (s : Text) : ℕ := (s.map Char.utf8Size).sum

/-- The bytes of the texts of a column. -/
def textExtent (b : RecordBatch) (name : Text) : ℕ :=
  ((b.column? name).elim [] fun c => c.2.map fun cell => match cell with | .text s => textBytes s | _ => 0).sum

/-- Kernels that concatenate what fits, and sort stably. -/
def stableKernels : Kernels where
  concatBatches schema batches :=
    if ∀ f ∈ schema, (batches.map fun b => textExtent b f.name).sum < 2 ^ 31 then
      concatenation schema batches
    else .error "concat segments".toList
  take indices col := .ok (selection indices col)
  extent := textExtent
  concat_exact h := by
    split at h
    · exact h
    · cases h
  concat_ok h hfits := (if_pos hfits).trans h
  take_ok _ := rfl
  sortToIndices cells := (List.range cells.length).insertionSort fun i j => timeAt cells i ≤ timeAt cells j
  perm times := by
    have h := perm_insertionSort
      (fun i j => timeAt (times.map .time) i ≤ timeAt (times.map .time) j)
      (List.range (times.map Cell.time).length)
    rw [length_map] at h ⊢
    exact h
  sorted times := by
    rw [pairwise_filterMap]
    apply Pairwise.imp _ (pairwise_insertionSort
      (fun i j => timeAt (times.map .time) i ≤ timeAt (times.map .time) j)
      (List.range (times.map Cell.time).length))
    intro i j hij a ha b hb
    have hi : timeAt (times.map .time) i = a := by
      rw [timeAt, getElem?_map, ha, map_some]
    have hj : timeAt (times.map .time) j = b := by
      rw [timeAt, getElem?_map, hb, map_some]
    rw [hi, hj] at hij
    exact hij

/-- A log row with the given attributes; its other cells are not looked at. -/
def logRow (time : ℤ) (attributes : Text) : StoredRow .logs where
  cells c :=
    if c = "attributes".toList then .text attributes
    else if c = "time".toList then .time time else .other 0
  attributes := attributes
  time := time
  attributes_eq := if_pos rfl
  time_eq := rfl
  not_null := by
    intro f _ _
    split
    · exact Cell.noConfusion
    · split <;> exact Cell.noConfusion

/-- A reader of `{"route":"/cart"}`. -/
def cartReader : JsonReader where
  document _ := some (.map [("route".toList, .str "/cart".toList)])
  members _ := some [("route".toList, some (.str "/cart".toList))]

/-- A segment without promoted keys, and one with the key `route`. -/
def twoSegments : List (SegmentRef × SegmentContent .logs) :=
  [({ relativePath := "logs/d/1".toList, minTimeUnixNano := 7, maxTimeUnixNano := 7, rows := 1 },
      { promote := [], chunks := [[logRow 7 "\x7b\"route\":\"/cart\"\x7d".toList]] }),
    ({ relativePath := "logs/d/2".toList, minTimeUnixNano := 3, maxTimeUnixNano := 3, rows := 1 },
      { promote := ["route".toList], chunks := [[logRow 3 "\x7b\"route\":\"/cart\"\x7d".toList]] })]

def twoFiles : RewriteEnv where
  cast := fun _ _ col => .ok col
  kernels := stableKernels
  readParquetFile path :=
    match twoSegments.find? fun s => s.1.relativePath = path with
    | some s => s.2.batches cartReader
    | none => .error "no such file".toList

theorem late_promotion_twoSegments :
    ∃ sorted w, LateIsEarly cartReader twoFiles ["route".toList] twoSegments sorted w := by
  have hfiles : ∀ s ∈ twoSegments,
      twoFiles.readParquetFile s.1.relativePath = s.2.batches cartReader := by
    intro s hs
    rcases mem_cons.mp hs with rfl | hs
    · rfl
    · rw [mem_singleton.mp hs]
      rfl
  have hfits : twoFiles.kernels.Fits (tableSchemaFor .logs ["route".toList])
      ((twoSegments.flatMap fun s => s.2.chunks).map (encoded cartReader .logs ["route".toList])) := by
    unfold Kernels.Fits
    decide +kernel
  exact ((late_promotion cartReader twoFiles ["route".toList] twoSegments hfiles).resolve_left
    fun h => absurd h.1 (cons_ne_nil _ _)).resolve_right fun h => h.1 hfits

/-! ### Too much text -/

section

variable {reader : JsonReader} {t : Table} {promote live : List Text}

theorem textExtent_attributes (rows : List (StoredRow t)) :
    textExtent (encoded reader t promote rows) "attributes".toList =
      (rows.map fun r => textBytes r.attributes).sum := by
  have hfield : field "attributes" .utf8 false ∈ tableSchemaFor t promote :=
    List.mem_append_left _ (mem_fixedFields t).1
  have hcolumn : (encoded reader t promote rows).column? "attributes".toList = some _ :=
    column?_encoded reader hfield
  rw [textExtent, hcolumn, Option.elim_some, List.map_map]
  congr 1
  apply List.map_congr_left
  intro r _
  have hcell : cellOf reader r "attributes".toList = .text r.attributes :=
    (cellOf_fixed reader r (mem_fixedFields t).1).trans r.attributes_eq
  rw [Function.comp_apply, show (field "attributes" .utf8 false).name = "attributes".toList from rfl, hcell]

/-- Batches with too much text among their attributes are refused. -/
theorem sortBatches_refuses {chunks : List (List (StoredRow t))} (timeCol : Text)
    (hbytes : 2 ^ 31 ≤ (chunks.flatten.map fun r => textBytes r.attributes).sum) :
    sortBatches stableKernels (chunks.map (encoded reader t live)) timeCol = .error "concat segments".toList := by
  have hsum : ((chunks.map (encoded reader t live)).map fun b => textExtent b "attributes".toList).sum =
      (chunks.flatten.map fun r => textBytes r.attributes).sum := by
    rw [List.map_map, List.map_flatten, List.sum_flatten, List.map_map]
    congr 1
    apply List.map_congr_left
    intro rows _
    exact textExtent_attributes rows
  have hrefused : stableKernels.concatBatches (tableSchemaFor t live) (chunks.map (encoded reader t live)) =
      .error "concat segments".toList := by
    refine if_neg fun hfits => ?_
    have hattributes := hfits (field "attributes" .utf8 false) (List.mem_append_left _ (mem_fixedFields t).1)
    exact absurd hattributes (not_lt.mpr (hsum ▸ hbytes))
  rcases chunks with _ | ⟨chunk, more⟩
  · simp at hbytes
  · rw [List.map_cons, sortBatches, schema_encoded, ← List.map_cons (f := encoded reader t live), hrefused]
    rfl

/-- A group with too much text among its attributes is refused. -/
theorem compactGroup_refuses {env : RewriteEnv} {group : List SegmentRef} {chunks : List (List (StoredRow t))}
    (hkernels : env.kernels = stableKernels)
    (hread : readSources reader env (tableSchemaFor t live) live group = .ok (chunks.map (encoded reader t live)))
    (hbytes : 2 ^ 31 ≤ (chunks.flatten.map fun r => textBytes r.attributes).sum) :
    compactGroup reader env t live group = .error "concat segments".toList := by
  have hne : chunks.map (encoded reader t live) ≠ [] := by
    intro hnil
    rw [map_eq_nil_iff.mp hnil] at hbytes
    simp at hbytes
  unfold compactGroup rewriteGroup
  rw [hread]
  dsimp only [bind, Except.bind]
  rw [if_neg hne, hkernels, sortBatches_refuses _ hbytes]

end

/-- Attributes with a value of some length. -/
def longAttributes (n : ℕ) : Text := ['\x7b', '"', 'k', '"', ':', '"'] ++ List.replicate n 'a' ++ ['"', '\x7d']

theorem le_textBytes_longAttributes (n : ℕ) : n ≤ textBytes (longAttributes n) := by
  rw [longAttributes, textBytes, map_append, map_append, sum_append, sum_append,
    map_replicate, sum_replicate_nat]
  exact Nat.le_add_right_of_le (Nat.le_add_left_of_le (Nat.mul_one n).ge)

/-- Two segments of a day, each of `n` batches of 1024 rows with long attributes. -/
def longSegments (n : ℕ) : List (SegmentRef × SegmentContent .logs) :=
  ["logs/d/1".toList, "logs/d/2".toList].map fun path =>
    ({ relativePath := path, minTimeUnixNano := 7, maxTimeUnixNano := 7, rows := n * 1024 },
      { promote := [], chunks := List.replicate n (List.replicate 1024 (logRow 7 (longAttributes 1024))) })

/-- Segments with $2^{31}$ bytes of attributes are not merged. -/
theorem longSegments_refused {n : ℕ} (hn : 1024 ≤ n) {env : RewriteEnv} (hkernels : env.kernels = stableKernels)
    (hfiles : ∀ s ∈ longSegments n, env.readParquetFile s.1.relativePath = s.2.batches cartReader) :
    compactGroup cartReader env .logs [] ((longSegments n).map Prod.fst) = .error "concat segments".toList := by
  have hbytes : 2 ^ 31 ≤ (((longSegments n).flatMap fun s => s.2.chunks).flatten.map fun r =>
      textBytes r.attributes).sum := by
    have hlong := le_textBytes_longAttributes 1024
    have hmul : 1024 * 1024 * 1024 ≤ n * 1024 * textBytes (longAttributes 1024) :=
      Nat.mul_le_mul (Nat.mul_le_mul_right 1024 hn) hlong
    simp only [longSegments, map_cons, map_nil, flatMap_cons, flatMap_nil, append_nil,
      flatten_append, flatten_replicate_replicate, map_append, map_replicate, sum_append,
      sum_replicate_nat, logRow]
    omega
  exact compactGroup_refuses hkernels (readSources_encoded cartReader env (longSegments n) hfiles) hbytes

/-- The files of the long segments. -/
def longFiles (n : ℕ) : RewriteEnv where
  cast := fun _ _ col => .ok col
  kernels := stableKernels
  readParquetFile path :=
    match (longSegments n).find? fun s => s.1.relativePath = path with
    | some s => s.2.batches cartReader
    | none => .error "no such file".toList

theorem longFiles_read (n : ℕ) :
    ∀ s ∈ longSegments n, (longFiles n).readParquetFile s.1.relativePath = s.2.batches cartReader := by
  intro s hs
  rcases mem_cons.mp hs with rfl | hs
  · rfl
  · rw [mem_singleton.mp hs]
    rfl

/-- A merge of two segments of $2^{30}$ bytes of attributes each is refused. -/
theorem not_late_promotion_long :
    ¬ ∃ sorted w, LateIsEarly cartReader (longFiles 1024) [] (longSegments 1024) sorted w := by
  rintro ⟨sorted, w, h⟩
  have hrefused := @longSegments_refused _ (le_refl 1024) (longFiles 1024) rfl (longFiles_read 1024)
  exact nomatch h.compact.symm.trans hrefused

end Imbh.Segments
