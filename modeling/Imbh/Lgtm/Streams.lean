import Imbh.Lib.SortedMap
import Imbh.Segments.Promotion

/-!
# Log streams

The labels of a log row are read from a batch of the query: the service and a promoted attribute from
their own column, any other attribute from the JSON text. The batch has the schema of the promoted
keys in force; a segment that was sealed before a key was promoted has nulls in its column.

* `labels_exact_iff` — a row has the labels of its stored values, if and only if each promoted column
  that its segment lacks stands for an attribute that the row lacks, and no text that is parsed is a
  sentinel whose own key is asked for.
-/

namespace Imbh.Lgtm

open Lib Imbh.Core Storage Segments List Option

/-- Sorted by name, each name once. Source: `common.rs` `LabelSet` -/
abbrev LabelSet : Type := List (Text × Text)

instance : LawfulBEq LabelSet := inferInstanceAs (LawfulBEq (List (Text × Text)))

/-- Source: `common.rs` `LabelSet::new` -/
def LabelSet.new (labels : List (Text × Text)) : LabelSet := ofPairs labels

/-- Source: `logql.rs` `LogLabelSource` -/
inductive LogLabelSource
  | service
  | attribute (key : Text)
  | resourceAttribute (key : Text)
  deriving DecidableEq

/-- Source: `logql.rs` `LogStreamSchema` -/
structure LogStreamSchema where
  labels : List (Text × LogLabelSource)

/-- Source: `source.rs` `validate_log_schema` -/
def validateLogSchema (schema : LogStreamSchema) : Bool :=
  (schema.labels.map Prod.fst).all (fun name => !name.isEmpty) &&
    decide (schema.labels.map Prod.fst).Nodup

/-! ## Reading a batch -/

/-- Source: `source.rs` `col_str` -/
def colStr (col : List Cell) (row : ℕ) : Option Text :=
  match col[row]? with
  | some (.text s) => some s
  | _ => none

/-- The column at a position. -/
def columnAt (b : RecordBatch) (i : ℕ) : List Cell := ((b.columns[i]?).map Prod.snd).getD []

/-- The position of a column. Source: arrow `Schema::index_of` -/
def indexOf (b : RecordBatch) (name : Text) : Option ℕ := b.columns.findIdx? fun c => c.1.name = name

/-- Source: `source.rs` `JsonGroup` -/
structure JsonGroup where
  col : List Cell
  keys : List (Text × Text)

/-- Source: `source.rs` `StreamLabelReader` -/
structure StreamLabelReader where
  direct : List (Text × List Cell)
  json : List JsonGroup

/-- The column that has the values of a label. Source: `source.rs` `StreamLabelReader::new` -/
def directColumn (b : RecordBatch) : LogLabelSource → Option (List Cell)
  | .service => some (columnAt b 2)
  | .attribute key =>
      match indexOf b key with
      | some idx => if 12 ≤ idx then some (columnAt b idx) else none
      | none => none
  | .resourceAttribute _ => none

/-- The attribute whose value is read from the text. Source: `source.rs` `StreamLabelReader::new` -/
def attributeKey (b : RecordBatch) : LogLabelSource → Option Text
  | .attribute key => if directColumn b (.attribute key) = none then some key else none
  | _ => none

/-- Source: `source.rs` `StreamLabelReader::new` -/
def resourceKey : LogLabelSource → Option Text
  | .resourceAttribute key => some key
  | _ => none

/-- The group of a column, if it has keys. -/
def jsonGroup (col : List Cell) (keys : List (Text × Text)) : List JsonGroup :=
  if keys = [] then [] else [⟨col, keys⟩]

/-- Source: `source.rs` `StreamLabelReader::new` -/
def StreamLabelReader.new (b : RecordBatch) (schema : LogStreamSchema) : StreamLabelReader where
  direct := schema.labels.filterMap fun l => (directColumn b l.2).map fun col => (l.1, col)
  json :=
    jsonGroup (columnAt b 6)
        (schema.labels.filterMap fun l => (attributeKey b l.2).map fun key => (l.1, key)) ++
      jsonGroup (columnAt b 7)
        (schema.labels.filterMap fun l => (resourceKey l.2).map fun key => (l.1, key))

/-- Source: `source.rs` `StreamLabelReader::direct_labels` -/
def StreamLabelReader.directLabels (r : StreamLabelReader) (row : ℕ) : List (Text × Text) :=
  r.direct.filterMap fun d => (colStr d.2 row).map fun value => (d.1, value)

section

variable (reader : JsonReader)

/-- The string at a key of the parsed text. Source: `source.rs` `StreamLabelReader::labels` -/
def parsedStr (json key : Text) : Option Text :=
  match parse reader json with
  | some (.map fields) => (getAttr fields key).bind AnyValue.asStr
  | _ => none

/-- Source: `source.rs` `StreamLabelReader::labels` -/
def StreamLabelReader.labels (r : StreamLabelReader) (row : ℕ) : LabelSet :=
  .new (r.directLabels row ++ r.json.flatMap fun group =>
    match colStr group.col row with
    | none => []
    | some json => group.keys.filterMap fun nk => (parsedStr reader json nk.2).map fun v => (nk.1, v))

/-- Source: `source.rs` `StreamLabelReader::labels_per_key` -/
def StreamLabelReader.labelsPerKey (r : StreamLabelReader) (row : ℕ) : LabelSet :=
  .new (r.directLabels row ++ r.json.flatMap fun group =>
    group.keys.filterMap fun nk =>
      ((colStr group.col row).bind fun json => jsonGetStr reader json nk.2).map fun v => (nk.1, v))

/-! ## Rows of a query -/

/-- A log row with the keys that were promoted when its segment was written. -/
structure SealedRow where
  promote : List Text
  row : StoredRow .logs

/-- The cell of a row in a query: that of its segment, or a null.
Source: imbh-query `lib.rs` `coerce` -/
def SealedRow.cell (s : SealedRow) (name : Text) : Cell :=
  if name ∈ (tableSchemaFor .logs s.promote).map Field.name then cellOf reader s.row name else .null

/-- A batch of a query under the promoted keys in force.
Source: `logs.rs` `LogsApi::query_batches` -/
def queryBatch (live : List Text) (rows : List SealedRow) : RecordBatch :=
  .ofColumns (tableSchemaFor .logs live) (fun name => rows.map fun s => s.cell reader name) rows.length
    fun _ _ => length_map _

/-- The value of a label in the stored row. -/
def storedValue (row : StoredRow .logs) : LogLabelSource → Option Text
  | .service => colStr [row.cells "service".toList] 0
  | .attribute key => jsonGetStr reader row.attributes key
  | .resourceAttribute key =>
      (colStr [row.cells "resource".toList] 0).bind fun json => jsonGetStr reader json key

/-- The labels of a row by its stored values. -/
def storedLabels (schema : LogStreamSchema) (row : StoredRow .logs) : LabelSet :=
  .new (schema.labels.filterMap fun l => (storedValue reader row l.2).map fun v => (l.1, v))

/-! ## Label sets -/

/-- The labels of a row that are read, where `get` reads a key of a text. -/
def StreamLabelReader.collected (get : Text → Text → Option Text) (r : StreamLabelReader) (row : ℕ) :
    List (Text × Text) :=
  r.directLabels row ++ r.json.flatMap fun group =>
    group.keys.filterMap fun nk =>
      ((colStr group.col row).bind fun json => get json nk.2).map fun v => (nk.1, v)

/-- The value that is read for a label. -/
def readValue (get : Text → Text → Option Text) (b : RecordBatch) (row : ℕ) (source : LogLabelSource) :
    Option Text :=
  match directColumn b source with
  | some col => colStr col row
  | none =>
      match source with
      | .attribute key => (colStr (columnAt b 6) row).bind fun json => get json key
      | .resourceAttribute key => (colStr (columnAt b 7) row).bind fun json => get json key
      | .service => none

end

section

variable {reader : JsonReader} {get : Text → Text → Option Text} {labels : List (Text × LogLabelSource)}

theorem labels_eq (r : StreamLabelReader) (row : ℕ) :
    r.labels reader row = .new (r.collected (parsedStr reader) row) := by
  unfold StreamLabelReader.labels StreamLabelReader.collected
  congr 2
  apply flatMap_congr
  intro group _
  rcases colStr group.col row with _ | json
  · simp
  · rfl

theorem labelsPerKey_eq (r : StreamLabelReader) (row : ℕ) :
    r.labelsPerKey reader row = .new (r.collected (jsonGetStr reader) row) := rfl

/-- A key of a JSON column is found in its row. -/
theorem mem_jsonGroup {col : List Cell} {keys : List (Text × Text)} {row : ℕ} {kv : Text × Text} :
    kv ∈ (jsonGroup col keys).flatMap (fun group => group.keys.filterMap fun nk =>
        ((colStr group.col row).bind fun json => get json nk.2).map fun v => (nk.1, v)) ↔
      ∃ nk ∈ keys, (colStr col row).bind (fun json => get json nk.2) = some kv.2 ∧ nk.1 = kv.1 := by
  have hpair : ∀ nk : Text × Text,
      ((colStr col row).bind fun json => get json nk.2).map (fun v => (nk.1, v)) = some kv ↔
        (colStr col row).bind (fun json => get json nk.2) = some kv.2 ∧ nk.1 = kv.1 := by
    intro nk
    rw [map_eq_some_iff]
    constructor
    · rintro ⟨v, hv, rfl⟩
      exact ⟨hv, rfl⟩
    · rintro ⟨hv, hk⟩
      exact ⟨kv.2, hv, by rw [hk]⟩
  unfold jsonGroup
  split
  · rename_i hkeys
    simp [hkeys]
  · rw [flatMap_singleton, mem_filterMap]
    simp only [hpair]

/-- A label is read, if and only if its source has the value. -/
theorem mem_collected (b : RecordBatch) (schema : LogStreamSchema) (row : ℕ) (kv : Text × Text) :
    kv ∈ (StreamLabelReader.new b schema).collected get row ↔
      ∃ l ∈ schema.labels, readValue get b row l.2 = some kv.2 ∧ l.1 = kv.1 := by
  unfold StreamLabelReader.collected StreamLabelReader.new StreamLabelReader.directLabels
  dsimp only
  rw [flatMap_append, mem_append, mem_append, mem_jsonGroup, mem_jsonGroup]
  constructor
  · rintro (hdirect | ⟨nk, hnk, hv, hk⟩ | ⟨nk, hnk, hv, hk⟩)
    · obtain ⟨d, hd, hlabel⟩ := mem_filterMap.mp hdirect
      obtain ⟨l, hl, hpair⟩ := mem_filterMap.mp hd
      obtain ⟨col, hcol, rfl⟩ := map_eq_some_iff.mp hpair
      obtain ⟨v, hv, rfl⟩ := map_eq_some_iff.mp hlabel
      refine ⟨l, hl, ?_, rfl⟩
      unfold readValue
      rw [hcol]
      exact hv
    · obtain ⟨l, hl, hpair⟩ := mem_filterMap.mp hnk
      obtain ⟨key, hkey, rfl⟩ := map_eq_some_iff.mp hpair
      refine ⟨l, hl, ?_, hk⟩
      rcases hsource : l.2 with _ | attr | res <;> rw [hsource] at hkey
      · exact absurd hkey (by simp [attributeKey])
      · unfold attributeKey at hkey
        dsimp only at hkey
        split at hkey
        · rename_i hdirect
          unfold readValue
          rw [hdirect, some.inj hkey]
          exact hv
        · exact absurd hkey (by simp)
      · exact absurd hkey (by simp [attributeKey])
    · obtain ⟨l, hl, hpair⟩ := mem_filterMap.mp hnk
      obtain ⟨key, hkey, rfl⟩ := map_eq_some_iff.mp hpair
      refine ⟨l, hl, ?_, hk⟩
      rcases hsource : l.2 with _ | attr | res <;> rw [hsource] at hkey
      · exact absurd hkey (by simp [resourceKey])
      · exact absurd hkey (by simp [resourceKey])
      · have hres : res = key := some.inj hkey
        rw [hres]
        exact hv
  · rintro ⟨l, hl, hv, hk⟩
    unfold readValue at hv
    rcases hdirect : directColumn b l.2 with _ | col
    · rw [hdirect] at hv
      rcases hsource : l.2 with _ | attr | res <;> rw [hsource] at hv hdirect
      · exact absurd hv (by simp)
      · refine .inr (.inl ⟨(l.1, attr), mem_filterMap.mpr ⟨l, hl, ?_⟩, hv, hk⟩)
        rw [hsource, attributeKey, if_pos hdirect]
        rfl
      · refine .inr (.inr ⟨(l.1, res), mem_filterMap.mpr ⟨l, hl, ?_⟩, hv, hk⟩)
        rw [hsource]
        rfl
    · rw [hdirect] at hv
      refine .inl (mem_filterMap.mpr ⟨(l.1, col), mem_filterMap.mpr ⟨l, hl, ?_⟩, ?_⟩)
      · rw [hdirect]
        rfl
      · have hv : colStr col row = some kv.2 := hv
        dsimp only
        rw [hv, map_some, hk]

/-- A label has the value that is read of its source. -/
theorem lastValue_source (hnodup : (labels.map Prod.fst).Nodup) {U : LogLabelSource → Option Text}
    {m : List (Text × Text)} (hm : ∀ kv, kv ∈ m ↔ ∃ a ∈ labels, U a.2 = some kv.2 ∧ a.1 = kv.1)
    {a : Text × LogLabelSource} (ha : a ∈ labels) : lastValue m a.1 = U a.2 := by
  have hsame : ∀ a ∈ labels, ∀ a' ∈ labels, a.1 = a'.1 → a = a' := fun a ha a' ha' h =>
    inj_on_of_nodup_map hnodup ha ha' h
  have hone : ∀ x ∈ m, ∀ y ∈ m, x.1 = y.1 → x = y := by
    intro x hx y hy hxy
    obtain ⟨ax, hax, hx2, hx1⟩ := (hm x).mp hx
    obtain ⟨ay, hay, hy2, hy1⟩ := (hm y).mp hy
    have heq := hsame ax hax ay hay (by rw [hx1, hy1, hxy])
    rw [heq, hy2] at hx2
    exact Prod.ext hxy (some.inj hx2).symm
  ext v
  rw [lastValue_eq_some_iff hone, hm]
  constructor
  · rintro ⟨a', ha', hv, hk⟩
    rw [← hsame a' ha' a ha hk]
    exact hv
  · intro hv
    exact ⟨a, ha, hv, rfl⟩

/-- A name that has no source has no value. -/
theorem lastValue_no_source {U : LogLabelSource → Option Text} {m : List (Text × Text)}
    (hm : ∀ kv, kv ∈ m ↔ ∃ a ∈ labels, U a.2 = some kv.2 ∧ a.1 = kv.1) {k : Text} (hk : k ∉ labels.map Prod.fst) :
    lastValue m k = none := by
  by_contra hne
  obtain ⟨kv, hkv, rfl⟩ := mem_map.mp (lastValue_ne_none.mp hne)
  obtain ⟨a, ha, _, hk'⟩ := (hm kv).mp hkv
  exact hk (mem_map.mpr ⟨a, ha, hk'⟩)

/-- Two ways of reading the sources give one label set, if and only if they agree on each source. -/
theorem labelSet_eq_iff (hnodup : (labels.map Prod.fst).Nodup) {V W : LogLabelSource → Option Text}
    {l l' : List (Text × Text)} (hl : ∀ kv, kv ∈ l ↔ ∃ a ∈ labels, V a.2 = some kv.2 ∧ a.1 = kv.1)
    (hl' : ∀ kv, kv ∈ l' ↔ ∃ a ∈ labels, W a.2 = some kv.2 ∧ a.1 = kv.1) :
    LabelSet.new l = LabelSet.new l' ↔ ∀ a ∈ labels, V a.2 = W a.2 := by
  rw [LabelSet.new, LabelSet.new, ofPairs_eq_iff]
  constructor
  · intro h a ha
    rw [← lastValue_source hnodup hl ha, ← lastValue_source hnodup hl' ha, h a.1]
  · intro h k
    by_cases hk : k ∈ labels.map Prod.fst
    · obtain ⟨a, ha, rfl⟩ := mem_map.mp hk
      rw [lastValue_source hnodup hl ha, lastValue_source hnodup hl' ha, h a ha]
    · rw [lastValue_no_source hl hk, lastValue_no_source hl' hk]

/-! ## The columns of a query -/

variable {live : List Text} {rows : List SealedRow}

theorem columns_queryBatch : (queryBatch reader live rows).columns =
    (tableSchemaFor .logs live).map fun f => (f, rows.map fun s => s.cell reader f.name) := rfl

theorem columnAt_queryBatch {i : ℕ} {f : Field} (h : (tableSchemaFor .logs live)[i]? = some f) :
    columnAt (queryBatch reader live rows) i = rows.map fun s => s.cell reader f.name := by
  rw [columnAt, columns_queryBatch, getElem?_map, h]
  rfl

theorem colStr_map {f : SealedRow → Cell} {i : ℕ} {s : SealedRow} (h : rows[i]? = some s) :
    colStr (rows.map f) i = colStr [f s] 0 := by
  rw [colStr, getElem?_map, h]
  rfl

/-- The column of an attribute is that of its promoted key. -/
theorem directColumn_attribute (key : Text) :
    directColumn (queryBatch reader live rows) (.attribute key) =
      if key ∈ promotedColumns live then some (rows.map fun s => s.cell reader key) else none := by
  unfold directColumn
  dsimp only
  have hlen : (fixedFields .logs).length = 12 := rfl
  rcases hidx : indexOf (queryBatch reader live rows) key with _ | idx
  · rw [if_neg]
    intro hkey
    unfold indexOf at hidx
    rw [findIdx?_eq_none_iff, columns_queryBatch] at hidx
    have hmem : (⟨key, .dictUtf8, true⟩ : Field) ∈ tableSchemaFor .logs live :=
      mem_append_right _ (mem_map.mpr ⟨key, hkey, rfl⟩)
    have hne := hidx _ (mem_map_of_mem hmem)
    exact absurd hne (by simp)
  · unfold indexOf at hidx
    obtain ⟨hlt, hname, _⟩ := findIdx?_eq_some_iff_getElem.mp hidx
    have hname : ((queryBatch reader live rows).columns[idx]).1.name = key := of_decide_eq_true hname
    have hschema : idx < (tableSchemaFor .logs live).length := by
      rw [columns_queryBatch, length_map] at hlt
      exact hlt
    have hget : (fixedFields .logs ++ (promotedColumns live).map fun name =>
        (⟨name, .dictUtf8, true⟩ : Field))[idx]? = some (tableSchemaFor .logs live)[idx] :=
      getElem?_eq_getElem hschema
    have hfield : ((queryBatch reader live rows).columns[idx]).1 = (tableSchemaFor .logs live)[idx] := by
      simp only [columns_queryBatch, getElem_map]
    rw [hfield] at hname
    have hcol : columnAt (queryBatch reader live rows) idx =
        rows.map fun s => s.cell reader (tableSchemaFor .logs live)[idx].name :=
      columnAt_queryBatch (getElem?_eq_getElem hschema)
    rw [hname] at hcol
    dsimp only
    by_cases h12 : 12 ≤ idx
    · have hpromoted : key ∈ promotedColumns live := by
        have hright : (tableSchemaFor .logs live)[idx] ∈
            (promotedColumns live).map fun name => (⟨name, .dictUtf8, true⟩ : Field) := by
          rw [getElem?_append_right (hlen ▸ h12)] at hget
          exact mem_of_getElem? hget
        obtain ⟨k, hk, hkf⟩ := mem_map.mp hright
        rw [← hname, ← hkf]
        exact hk
      rw [if_pos h12, if_pos hpromoted, hcol]
    · rw [if_neg h12, if_neg]
      intro hkey
      have hleft : (tableSchemaFor .logs live)[idx] ∈ fixedFields .logs := by
        rw [getElem?_append_left (by omega)] at hget
        exact mem_of_getElem? hget
      have hreserved := fixedFields_reserved .logs _ hleft
      rw [hname] at hreserved
      exact (mem_promotedColumns.mp hkey).2 hreserved

/-- A built-in column has the row's own cell. -/
theorem cell_fixed (s : SealedRow) {f : Field} (hf : f ∈ fixedFields .logs) :
    s.cell reader f.name = s.row.cells f.name := by
  have hmem : f.name ∈ (tableSchemaFor .logs s.promote).map Field.name :=
    mem_map_of_mem (mem_append_left _ hf)
  rw [SealedRow.cell, if_pos hmem, cellOf_fixed reader _ hf]

/-- A promoted column has the string of the attribute, if the segment has the column. -/
theorem colStr_promoted (s : SealedRow) {key : Text} (hkey : key ∉ reservedColumns) :
    colStr [s.cell reader key] 0 =
      if key ∈ promotedColumns s.promote then jsonGetStr reader s.row.attributes key else none := by
  have hfixed : key ∉ (fixedFields .logs).map Field.name := by
    intro h
    obtain ⟨f, hf, rfl⟩ := mem_map.mp h
    exact hkey (fixedFields_reserved .logs f hf)
  have hmem : key ∈ (tableSchemaFor .logs s.promote).map Field.name ↔
      key ∈ promotedColumns s.promote := by
    rw [names_tableSchemaFor, mem_append]
    exact or_iff_right hfixed
  unfold SealedRow.cell
  by_cases hpromoted : key ∈ promotedColumns s.promote
  · rw [if_pos (hmem.mpr hpromoted), if_pos hpromoted, cellOf_promoted reader _ hpromoted]
    unfold lookupPromoted jsonGetStr
    rcases jsonGet reader s.row.attributes key with _ | v
    · rfl
    · rcases v with _ | t | i | d | b | b | vs | es <;> rfl
  · rw [if_neg (fun h => hpromoted (hmem.mp h)), if_neg hpromoted]
    rfl

/-- What is read for each source of a label. -/
theorem readValue_queryBatch {i : ℕ} {s : SealedRow} (h : rows[i]? = some s)
    (source : LogLabelSource) :
    readValue get (queryBatch reader live rows) i source =
      match source with
      | .service => storedValue reader s.row .service
      | .attribute key =>
          if key ∈ promotedColumns live then
            if key ∈ promotedColumns s.promote then jsonGetStr reader s.row.attributes key else none
          else get s.row.attributes key
      | .resourceAttribute key =>
          (colStr [s.row.cells "resource".toList] 0).bind fun json => get json key := by
  have hfixed : ∀ n (f : Field), (fixedFields .logs)[n]? = some f →
      colStr (columnAt (queryBatch reader live rows) n) i = colStr [s.row.cells f.name] 0 := by
    intro n f hf
    have hschema : (tableSchemaFor .logs live)[n]? = some f := by
      unfold tableSchemaFor withPromoted
      rw [List.getElem?_append_left (List.getElem?_eq_some_iff.mp hf).1]
      exact hf
    rw [columnAt_queryBatch hschema, colStr_map h, cell_fixed s (List.mem_of_getElem? hf)]
  rcases source with _ | key | key
  · exact hfixed 2 (field "service" .dictUtf8 true) rfl
  · unfold readValue
    rw [directColumn_attribute]
    by_cases hlive : key ∈ promotedColumns live
    · rw [if_pos hlive]
      dsimp only
      rw [if_pos hlive, colStr_map h, colStr_promoted s (mem_promotedColumns.mp hlive).2]
    · rw [if_neg hlive]
      dsimp only
      rw [if_neg hlive, hfixed 6 (field "attributes" .utf8 false) rfl]
      have hattr : s.row.cells (field "attributes" .utf8 false).name = .text s.row.attributes :=
        s.row.attributes_eq
      rw [hattr]
      rfl
  · unfold readValue directColumn
    dsimp only
    rw [hfixed 7 (field "resource" .dictUtf8 false) rfl]
    rfl

/-! ## When the labels are those of the stored values -/

/-- The text is a sentinel, which is walked as an object and parsed as a number, and the key is its
own. -/
def SentinelAt (reader : JsonReader) (input key : Text) : Prop :=
  key = "$f".toList ∧ (reader.members input).isSome ∧
    ∃ kvs, reader.document input = some (.map kvs) ∧ (sentinelOf (ofJsonMembers kvs)).isSome

/-- Parsing a text finds the string at a key that picking it finds, but for a sentinel. -/
theorem parsedStr_eq_iff {input : Text} (hagree : reader.Agree input) (key : Text) :
    parsedStr reader input key = jsonGetStr reader input key ↔ ¬ SentinelAt reader input key := by
  have hparsed : parsedStr reader input key =
      (getAttr (fromCanonicalJson reader input) key).bind AnyValue.asStr := by
    unfold parsedStr fromCanonicalJson parseObject
    rcases parse reader input with _ | value
    · rfl
    · cases value <;> rfl
  rcases hms : reader.members input with _ | ms
  · constructor
    · rintro _ ⟨_, hsome, _⟩
      rw [hms] at hsome
      exact absurd hsome (by simp)
    · intro _
      rw [hparsed, jsonGetStr, jsonGet, pickField, hms, fromCanonicalJson]
      rcases parseObject reader input with _ | pairs <;> rfl
  · obtain ⟨kvs, hdoc, rfl⟩ := hagree ms hms
    rcases hsentinel : sentinelOf (ofJsonMembers kvs) with _ | d
    · constructor
      · rintro _ ⟨_, _, kvs', hdoc', hsome⟩
        rw [hdoc] at hdoc'
        rw [← Json.map.inj (some.inj hdoc'), hsentinel] at hsome
        exact absurd hsome (by simp)
      · intro _
        rw [hparsed, jsonGetStr, jsonGet_eq hagree]
        intro kvs' hdoc'
        rw [hdoc] at hdoc'
        rw [← Json.map.inj (some.inj hdoc'), hsentinel]
    · obtain ⟨tag, htag⟩ := sentinelOf_isSome (hsentinel ▸ rfl : (sentinelOf (ofJsonMembers kvs)).isSome)
      have hnone : parsedStr reader input key = none := by
        unfold parsedStr parse
        rw [hdoc, map_some, ofJson, sentinelOrMap, hsentinel]
      have hget : jsonGet reader input key = getAttr (ofJsonMembers kvs) key := by
        rw [jsonGet, pickField, hms, getAttr_ofJsonMembers]
        dsimp only
        rw [find?_members]
        rcases hfind : kvs.find? fun kv => kv.1 = key with _ | kv <;> rw [hfind] <;> rfl
      rw [hnone, jsonGetStr, hget, htag, getAttr]
      constructor
      · rintro hnone ⟨rfl, _⟩
        exact absurd hnone (by simp [AnyValue.asStr])
      · intro hnot
        have hkey : "$f".toList ≠ key := by
          rintro rfl
          apply hnot
          refine ⟨rfl, by rw [hms]; rfl, kvs, hdoc, by rw [hsentinel]; rfl⟩
        rw [find?_cons_of_neg (by simpa using hkey)]
        rfl

/-- The row's value of a label is what is stored: if the attribute has a column, then the row's segment
has it too or the row has no such string; and no text that is parsed for a key is the sentinel of that
key. -/
def Kept (reader : JsonReader) (live : List Text) (s : SealedRow) : LogLabelSource → Prop
  | .service => True
  | .attribute key =>
      if key ∈ promotedColumns live then
        key ∈ promotedColumns s.promote ∨ jsonGetStr reader s.row.attributes key = none
      else ¬ SentinelAt reader s.row.attributes key
  | .resourceAttribute key =>
      ∀ json, colStr [s.row.cells "resource".toList] 0 = some json → ¬ SentinelAt reader json key

/-- Both ways of reading give a row the labels of its stored values, if and only if each of them is
kept. -/
theorem labels_exact_iff (reader : JsonReader) (live : List Text) (rows : List SealedRow)
    (schema : LogStreamSchema) (hschema : validateLogSchema schema = true)
    {i : ℕ} {s : SealedRow} (hs : rows[i]? = some s) (hattributes : reader.Agree s.row.attributes)
    (hresource : ∀ json, colStr [s.row.cells "resource".toList] 0 = some json → reader.Agree json) :
    ((StreamLabelReader.new (queryBatch reader live rows) schema).labels reader i =
        storedLabels reader schema s.row ∧
      (StreamLabelReader.new (queryBatch reader live rows) schema).labelsPerKey reader i =
        storedLabels reader schema s.row) ↔
      ∀ l ∈ schema.labels, Kept reader live s l.2 := by
  have hnodup : (schema.labels.map Prod.fst).Nodup := by
    unfold validateLogSchema at hschema
    rw [Bool.and_eq_true] at hschema
    exact of_decide_eq_true hschema.2
  have hstored : ∀ kv : Text × Text, kv ∈ schema.labels.filterMap (fun l =>
      (storedValue reader s.row l.2).map fun v => (l.1, v)) ↔
        ∃ l ∈ schema.labels, storedValue reader s.row l.2 = some kv.2 ∧ l.1 = kv.1 := by
    intro kv
    rw [mem_filterMap]
    constructor
    · rintro ⟨l, hl, hpair⟩
      obtain ⟨v, hv, rfl⟩ := map_eq_some_iff.mp hpair
      exact ⟨l, hl, hv, rfl⟩
    · rintro ⟨l, hl, hv, hk⟩
      refine ⟨l, hl, ?_⟩
      rw [hv, map_some, hk]
  have hkept : ∀ source, Kept reader live s source ↔
      readValue (parsedStr reader) (queryBatch reader live rows) i source =
          storedValue reader s.row source ∧
        readValue (jsonGetStr reader) (queryBatch reader live rows) i source =
          storedValue reader s.row source := by
    intro source
    rw [readValue_queryBatch hs, readValue_queryBatch hs]
    rcases source with _ | key | key
    · exact ⟨fun _ => ⟨rfl, rfl⟩, fun _ => trivial⟩
    · dsimp only [Kept, storedValue]
      by_cases hlive : key ∈ promotedColumns live
      · rw [if_pos hlive, if_pos hlive, if_pos hlive, and_self]
        by_cases hsealed : key ∈ promotedColumns s.promote
        · rw [if_pos hsealed]
          exact ⟨fun _ => rfl, fun _ => .inl hsealed⟩
        · rw [if_neg hsealed]
          exact ⟨fun h => (h.resolve_left hsealed).symm, fun h => .inr h.symm⟩
      · rw [if_neg hlive, if_neg hlive, if_neg hlive, ← parsedStr_eq_iff hattributes]
        exact ⟨fun h => ⟨h, rfl⟩, fun h => h.1⟩
    · dsimp only [Kept, storedValue]
      rcases hjson : colStr [s.row.cells "resource".toList] 0 with _ | json
      · exact ⟨fun _ => ⟨rfl, rfl⟩, fun _ json h => absurd h (by simp)⟩
      · have hiff := parsedStr_eq_iff (hresource json hjson) key
        constructor
        · intro h
          exact ⟨hiff.mpr (h json rfl), rfl⟩
        · rintro ⟨h, _⟩ json' hjson'
          rw [← some.inj hjson']
          exact hiff.mp h
  rw [labels_eq, labelsPerKey_eq, storedLabels,
    labelSet_eq_iff hnodup (mem_collected _ schema i) hstored,
    labelSet_eq_iff hnodup (mem_collected _ schema i) hstored]
  constructor
  · rintro ⟨hparsed, hpicked⟩ l hl
    exact (hkept l.2).mpr ⟨hparsed l hl, hpicked l hl⟩
  · intro h
    exact ⟨fun l hl => ((hkept l.2).mp (h l hl)).1, fun l hl => ((hkept l.2).mp (h l hl)).2⟩

end

/-! ## A row of an older segment -/

/-- One log row, in a segment from before the key `route` was promoted and in one from after. -/
def twiceSealed : List SealedRow :=
  [⟨[], logRow 7 "\x7b\"route\":\"/cart\"\x7d".toList⟩,
    ⟨["route".toList], logRow 7 "\x7b\"route\":\"/cart\"\x7d".toList⟩]

/-- Streams by the attribute `route`. -/
def routeStreams : LogStreamSchema where
  labels := [("route".toList, .attribute "route".toList)]

/-- The older of two equal rows loses its label. -/
theorem older_row_loses_label :
    let r := StreamLabelReader.new (queryBatch cartReader ["route".toList] twiceSealed) routeStreams
    r.labels cartReader 0 = [] ∧ r.labels cartReader 1 = [("route".toList, "/cart".toList)] ∧
      ∀ s ∈ twiceSealed,
        storedLabels cartReader routeStreams s.row = [("route".toList, "/cart".toList)] := by
  decide +kernel

/-- The newer row keeps it. -/
theorem labels_exact_newer :
    (StreamLabelReader.new (queryBatch cartReader ["route".toList] twiceSealed) routeStreams).labels
        cartReader 1 =
      storedLabels cartReader routeStreams (logRow 7 "\x7b\"route\":\"/cart\"\x7d".toList) := by
  have hattributes : cartReader.Agree "\x7b\"route\":\"/cart\"\x7d".toList := by
    intro ms hms
    exact ⟨_, rfl, (some.inj hms).symm⟩
  apply ((labels_exact_iff cartReader ["route".toList] twiceSealed routeStreams (by decide) rfl
    hattributes _).mpr _).1
  · intro json hjson
    have hnone : (none : Option Text) = some json := hjson
    exact absurd hnone (by simp)
  · intro l hl
    rw [mem_singleton.mp hl]
    unfold Kept
    dsimp only
    rw [if_pos (by decide)]
    exact .inl (by decide)

end Imbh.Lgtm
