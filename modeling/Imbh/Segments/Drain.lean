import Mathlib.Data.Finset.Card
import Imbh.Segments.Compaction
import Imbh.Segments.Path
import Imbh.Segments.Promotion

/-!
# Draining

A bounded pass rewrites no more day partitions than its bound: those with several segments, and those whose schema
lacks a promoted column. One that rewrites nothing is the sign that nothing is left.

* `passes_drain` — the result.
-/

namespace Imbh.Segments

open Lib Imbh.Core Storage List Option Function

/-! ## Files -/

/-- The rows from an index on, no more than `n`. -/
def RecordBatch.slice (b : RecordBatch) (i n : ℕ) : RecordBatch where
  columns := b.columns.map fun c => (c.1, (c.2.drop i).take n)
  numRows := min n (b.numRows - i)
  length_eq := by
    intro c hc
    obtain ⟨c', hc', rfl⟩ := mem_map.mp hc
    rw [length_take, length_drop, b.length_eq c' hc']

/-- The batches a file is read in, which is of 1024 rows each. Source: `lib.rs` `read_parquet_file` -/
def readBatches (b : RecordBatch) : List RecordBatch :=
  (List.range ((b.numRows + 1023) / 1024)).map fun i => b.slice (1024 * i) 1024

/-- The segment files, each with the batch that was written. -/
abbrev BatchFiles : Type := Text → Option RecordBatch

/-- Source: `lib.rs` `read_parquet_file` -/
def readParquetFile (files : BatchFiles) (path : Text) : Except Text (List RecordBatch) :=
  match files path with
  | some b => .ok (readBatches b)
  | none => .error path

/-- Source: `lib.rs` `segment_schema_lags` -/
def segmentSchemaLags (files : BatchFiles) (path : Text) (promote : List Text) : Except Text Bool :=
  if promote = [] then .ok false
  else
    match files path with
    | some b => .ok ((promotedColumns promote).any fun k => (b.column? k).isNone)
    | none => .error path

/-! ## A pass -/

/-- Source: `lib.rs` `CompactionReport` -/
structure CompactionReport where
  segmentsMerged : ℕ
  segmentsConverged : ℕ
  segmentsCreated : ℕ
  deriving DecidableEq

/-- What the database compacts with: a reader of attributes, the casts and the other functions on columns, the
promoted keys in force, and what the clock shows as each name is given out. -/
structure Compactor where
  reader : JsonReader
  cast : ColumnType → ColumnType → List Cell → Except Text (List Cell)
  kernels : Kernels
  promote : List Text
  now : ℕ → ℕ

/-- The lists of the segments, their files, and the counter of the names. Source: `lib.rs` `Storage` -/
structure Disk where
  listed : SegmentLists
  files : BatchFiles
  seq : ℕ

/-- The locals of a pass, and the disk it writes to. Source: `lib.rs` `Storage::compact_bounded` -/
structure Pass where
  budget : ℕ
  report : CompactionReport
  deferredDeletes : List SegmentRef
  produced : SegmentLists
  files : BatchFiles
  seq : ℕ

def Pass.start (maxPartitions : ℕ) (d : Disk) : Pass where
  budget := maxPartitions
  report := ⟨0, 0, 0⟩
  deferredDeletes := []
  produced := fun _ => []
  files := d.files
  seq := d.seq

/-- Source: `lib.rs` `compact_partition`, `result.extend(group)` -/
def Pass.keep (p : Pass) (t : Table) (group : List SegmentRef) : Pass :=
  { p with produced := update p.produced t (p.produced t ++ group) }

/-- The entry of a rewritten group. -/
def rewrittenRef (t : Table) (now seq : ℕ) (w : Rewritten) : SegmentRef :=
  { w.toBounds with relativePath := segmentPath t w.minTimeUnixNano now seq, rows := w.rows }

/-- Source: `lib.rs` `compact_partition`, from `write_segment_parquet` on -/
def Pass.write (p : Pass) (t : Table) (group : List SegmentRef) (now : ℕ) (w : Rewritten) : Pass where
  budget := p.budget - 1
  report :=
    if group.length = 1 then
      { p.report with
        segmentsConverged := p.report.segmentsConverged + 1
        segmentsCreated := p.report.segmentsCreated + 1 }
    else
      { p.report with
        segmentsMerged := p.report.segmentsMerged + group.length
        segmentsCreated := p.report.segmentsCreated + 1 }
  deferredDeletes := p.deferredDeletes ++ group
  produced := update p.produced t (p.produced t ++ [rewrittenRef t now p.seq w])
  files := update p.files (rewrittenRef t now p.seq w).relativePath (some w.batch)
  seq := p.seq + 1

namespace Compactor

variable (c : Compactor)

def env (files : BatchFiles) : RewriteEnv where
  cast := c.cast
  kernels := c.kernels
  readParquetFile := readParquetFile files

/-- Whether a group is to be rewritten. Source: `lib.rs` `compact_partition`, the condition on the group -/
def wants (files : BatchFiles) (group : List SegmentRef) : Except Text Bool :=
  if group.length ≤ 1 then
    match group.head? with
    | some s => segmentSchemaLags files s.relativePath c.promote
    | none => .ok false
  else .ok true

/-- Source: `lib.rs` `compact_partition`, the loop body -/
def group (t : Table) (group : List SegmentRef) (p : Pass) : Except Text Pass :=
  if p.budget = 0 then .ok (p.keep t group)
  else do
    let wanted ← c.wants p.files group
    if !wanted then return p.keep t group
    match ← compactGroup c.reader (c.env p.files) t c.promote group with
    | none => return p.keep t group
    | some w => return p.write t group (c.now p.seq) w

/-- Source: `lib.rs` `reclaim_segments`; `refused` are the files the operating system does not unlink -/
def reclaim (deleted : List Text) (refused : Text → Bool) (files : BatchFiles) : BatchFiles := fun path =>
  if path ∈ deleted ∧ refused path = false then none else files path

/-- Source: `lib.rs` `Storage::compact_bounded`, with no other operation between -/
def compactBounded (maxPartitions : ℕ) (refused : Text → Bool) (d : Disk) :
    Except Text (CompactionReport × Disk) := do
  let p ← (todo d.listed).foldlM (fun p g => c.group g.1 g.2 p) (.start maxPartitions d)
  let deleted := paths p.deferredDeletes
  return (p.report,
    { listed := fun t => reconcileSegments (d.listed t) deleted (p.produced t)
      files := reclaim deleted refused p.files
      seq := p.seq })

/-- One pass after the other. -/
def passes (maxPartitions : ℕ) (refused : ℕ → Text → Bool) : ℕ → Disk → Except Text Disk
  | 0, d => .ok d
  | n + 1, d => do
      let d ← passes maxPartitions refused n d
      let (_, d) ← c.compactBounded maxPartitions (refused n) d
      return d

end Compactor

/-! ## Partitions -/

/-- The segments of a table and a day. -/
def partition (lists : SegmentLists) (k : Table × Text) : List SegmentRef :=
  (lists k.1).filter fun s => dayOfPath s.relativePath = k.2

/-- The days of a table that have a segment, in their order. -/
def daysOf (segs : List SegmentRef) : List Text :=
  (segs.map fun s => dayOfPath s.relativePath).dedup.insertionSort (· ≤ ·)

/-- The tables and days that have a segment, in the order of a pass. -/
def partitionKeys (lists : SegmentLists) : List (Table × Text) :=
  Table.all.flatMap fun t => (daysOf (lists t)).map fun day => (t, day)

variable {lists : SegmentLists} {k k' : Table × Text} {s : SegmentRef} {t : Table}

theorem mem_partition : s ∈ partition lists k ↔ s ∈ lists k.1 ∧ dayOfPath s.relativePath = k.2 := by
  rw [partition, mem_filter, decide_eq_true_eq]

theorem mem_partition_of_mem (h : s ∈ lists t) : s ∈ partition lists (t, dayOfPath s.relativePath) :=
  mem_partition.mpr ⟨h, rfl⟩

/-- The groups of a pass are the partitions. -/
theorem todo_eq (lists : SegmentLists) : todo lists = (partitionKeys lists).map fun k => (k.1, partition lists k) := by
  unfold todo partitionKeys
  rw [List.map_flatMap]
  apply List.flatMap_congr
  intro t _
  unfold byDay groupsBy daysOf
  rw [List.map_map, List.map_map]
  rfl

theorem mem_partitionKeys : k ∈ partitionKeys lists ↔ partition lists k ≠ [] := by
  unfold partitionKeys daysOf
  simp only [List.mem_flatMap, List.mem_map, List.mem_insertionSort, List.mem_dedup]
  constructor
  · rintro ⟨t, -, day, ⟨s, hs, rfl⟩, rfl⟩
    exact List.ne_nil_of_mem (mem_partition_of_mem hs)
  · intro hne
    obtain ⟨s, hs⟩ := List.exists_mem_of_ne_nil _ hne
    obtain ⟨hs, hday⟩ := mem_partition.mp hs
    exact ⟨k.1, k.1.mem_all, k.2, ⟨s, hs, hday⟩, rfl⟩

theorem nodup_partitionKeys (lists : SegmentLists) : (partitionKeys lists).Nodup := by
  unfold partitionKeys
  rw [nodup_flatMap]
  constructor
  · intro t _
    have hdays : (daysOf (lists t)).Nodup :=
      (perm_insertionSort _ _).nodup_iff.mpr (nodup_dedup _)
    exact hdays.map fun _ _ h => (Prod.mk.inj h).2
  · have hall : Table.all.Nodup := by decide
    apply hall.imp
    intro t t' hne k hk hk'
    obtain ⟨day, -, rfl⟩ := mem_map.mp hk
    obtain ⟨day', -, heq⟩ := mem_map.mp hk'
    exact hne (Prod.mk.inj heq).1.symm

/-! ## The rewrite of a group -/

section

variable {reader : JsonReader} {t : Table} {promote live : List Text}

/-- The rows of the batches that a file is read in. -/
def chunksOf (rows : List (StoredRow t)) : List (List (StoredRow t)) :=
  (List.range ((rows.length + 1023) / 1024)).map fun i => (rows.drop (1024 * i)).take 1024

theorem chunksOf_ne_nil {rows : List (StoredRow t)} (h : rows ≠ []) : ∃ chunk ∈ chunksOf rows, chunk ≠ [] := by
  have hpos : 0 < rows.length := length_pos_of_ne_nil h
  refine ⟨(rows.drop (1024 * 0)).take 1024, mem_map.mpr ⟨0, mem_range.mpr (by omega), rfl⟩, ?_⟩
  rw [Nat.mul_zero, drop_zero, ne_eq, take_eq_nil_iff, not_or]
  exact ⟨by omega, h⟩

theorem flatten_chunksOf (rows : List (StoredRow t)) : (chunksOf rows).flatten = rows := by
  have htake (m : ℕ) : ((List.range m).map fun i => (rows.drop (1024 * i)).take 1024).flatten =
      rows.take (1024 * m) := by
    induction m with
    | zero => rfl
    | succ m ih => rw [range_succ, map_append, flatten_append, ih, map_singleton,
        flatten_singleton, Nat.mul_succ, take_add]
  exact (htake _).trans (take_of_length_le (by omega))

theorem slice_encoded (rows : List (StoredRow t)) (i n : ℕ) :
    (encoded reader t promote rows).slice i n = encoded reader t promote ((rows.drop i).take n) := by
  unfold RecordBatch.slice encoded RecordBatch.ofColumns
  rw [RecordBatch.mk.injEq, List.map_map, List.length_take, List.length_drop]
  refine ⟨List.map_congr_left fun f _ => ?_, rfl⟩
  simp only [Function.comp_apply, List.map_take, List.map_drop]

theorem readBatches_encoded (rows : List (StoredRow t)) :
    readBatches (encoded reader t promote rows) = (chunksOf rows).map (encoded reader t promote) := by
  unfold readBatches chunksOf
  rw [List.map_map]
  exact List.map_congr_left fun i _ => slice_encoded rows _ _

/-- A segment with rows, which were written under some promoted keys. -/
def Stored (reader : JsonReader) (files : BatchFiles) (t : Table) (s : SegmentRef) : Prop :=
  ∃ (promote : List Text) (rows : List (StoredRow t)) (b : RecordBatch),
    rows ≠ [] ∧ rowsToBatch reader t rows promote = .ok b ∧ files s.relativePath = some b

variable {files : BatchFiles}

/-- A batch under the keys in force does not lag. -/
theorem segmentSchemaLags_encoded {path : Text} {rows : List (StoredRow t)}
    (h : files path = some (encoded reader t live rows)) : segmentSchemaLags files path live = .ok false := by
  have hnone : ((promotedColumns live).any fun k => ((encoded reader t live rows).column? k).isNone) = false := by
    rw [List.any_eq_false]
    intro k hk
    have hfield : (⟨k, .dictUtf8, true⟩ : Field) ∈ tableSchemaFor t live :=
      List.mem_append_right _ (List.mem_map.mpr ⟨k, hk, rfl⟩)
    have hcolumn : (encoded reader t live rows).column? k = some _ := column?_encoded reader hfield
    rw [hcolumn]
    exact Bool.false_ne_true
  unfold segmentSchemaLags
  split
  · rfl
  · rw [h]
    exact congrArg Except.ok hnone

theorem Stored.lags {s : SegmentRef} (h : Stored reader files t s) (live : List Text) :
    ∃ lags, segmentSchemaLags files s.relativePath live = .ok lags := by
  obtain ⟨promote, rows, b, -, -, hfile⟩ := h
  unfold segmentSchemaLags
  split
  · exact ⟨false, rfl⟩
  · rw [hfile]
    exact ⟨_, rfl⟩

/-- The file of some rows is read as their batches. -/
theorem readParquetFile_encoded {path : Text} {rows : List (StoredRow t)}
    (h : files path = some (encoded reader t promote rows)) :
    readParquetFile files path = (SegmentContent.mk promote (chunksOf rows)).batches reader := by
  rw [SegmentContent.batches_eq, readParquetFile, h]
  exact congrArg Except.ok (readBatches_encoded rows)

/-- The contents of a group. -/
theorem exists_contents {group : List SegmentRef} (h : ∀ s ∈ group, Stored reader files t s) :
    ∃ contents : List (SegmentRef × SegmentContent t), contents.map Prod.fst = group ∧
      ∀ s ∈ contents, readParquetFile files s.1.relativePath = s.2.batches reader ∧
        ∃ chunk ∈ s.2.chunks, chunk ≠ [] := by
  induction group with
  | nil => exact ⟨[], rfl, fun _ hs => absurd hs not_mem_nil⟩
  | cons s group ih =>
    obtain ⟨contents, rfl, hcontents⟩ := ih fun s' hs' => h s' (mem_cons_of_mem _ hs')
    obtain ⟨promote, rows, b, hne, hb, hfile⟩ := h s mem_cons_self
    rw [rowsToBatch_eq] at hb
    obtain rfl := Except.ok.inj hb
    refine ⟨(s, ⟨promote, chunksOf rows⟩) :: contents, rfl, fun s' hs' => ?_⟩
    rcases mem_cons.mp hs' with rfl | hs'
    · exact ⟨readParquetFile_encoded hfile, chunksOf_ne_nil hne⟩
    · exact hcontents s' hs'

/-- The rows of a group fit into columns. -/
def Compactor.Fits (c : Compactor) (files : BatchFiles) (t : Table) (group : List SegmentRef) : Prop :=
  ∀ batches, readSources c.reader (c.env files) (tableSchemaFor t c.promote) c.promote group = .ok batches →
    c.kernels.Fits (tableSchemaFor t c.promote) batches

/-- A group of segments with rows, which fit into columns, is rewritten, to a batch with rows under the keys in
force. -/
theorem compactGroup_stored (c : Compactor) {group : List SegmentRef} (hne : group ≠ [])
    (h : ∀ s ∈ group, Stored c.reader files t s) (hfits : c.Fits files t group) :
    ∃ (rows : List (StoredRow t)) (w : Rewritten), rows ≠ [] ∧
      compactGroup c.reader (c.env files) t c.promote group = .ok (some w) ∧
      w.toBounds = mergedBounds (group.map SegmentRef.toBounds) ∧ w.batch = encoded c.reader t c.promote rows := by
  obtain ⟨contents, rfl, hcontents⟩ := exists_contents h
  obtain ⟨s, hs⟩ := exists_mem_of_ne_nil contents fun hnil => hne (by rw [hnil]; rfl)
  obtain ⟨-, chunk, hchunk, hrows⟩ := hcontents s hs
  have hmem : chunk ∈ contents.flatMap fun s => s.2.chunks := mem_flatMap.mpr ⟨s, hs, hchunk⟩
  have hread := @readSources_encoded c.reader _ c.promote (c.env files) contents fun s hs => (hcontents s hs).1
  obtain ⟨sorted, hperm, -, hrewrite⟩ := (rewriteGroup_encoded c.reader (c.env files) (rewriteParams t).2 contents
    (fun s hs => (hcontents s hs).1) (ne_nil_of_mem hmem)).resolve_right fun hnot => hnot.1 (hfits _ hread)
  rw [← compactParams_eq] at hrewrite
  refine ⟨sorted, _, fun hnil => ?_, hrewrite, rfl, rfl⟩
  obtain ⟨row, hrow⟩ := exists_mem_of_ne_nil chunk hrows
  have hsorted : row ∈ sorted := hperm.mem_iff.mpr (mem_flatten.mpr ⟨chunk, hmem, hrow⟩)
  rw [hnil] at hsorted
  exact absurd hsorted not_mem_nil

end

/-! ## The groups of a pass -/

/-- The partition is to be rewritten, or not. -/
def Disk.Wants (c : Compactor) (d : Disk) (k : Table × Text) (wanted : Bool) : Prop :=
  c.wants d.files (partition d.listed k) = .ok wanted

/-- Every listed segment has rows, was written under some promoted keys to the path of its table and day, and has a
name that is not given out again. -/
structure Disk.Written (c : Compactor) (d : Disk) : Prop where
  stored : ∀ t, ∀ s ∈ d.listed t, Stored c.reader d.files t s
  placed : ∀ t, ∀ s ∈ d.listed t, ∃ now seq, s.relativePath = segmentPath t s.minTimeUnixNano now seq
  nodup : ∀ t, (paths (d.listed t)).Nodup
  fresh : ∀ t, ∀ s ∈ d.listed t, ∀ t' minTime n, d.seq ≤ n →
    s.relativePath ≠ segmentPath t' minTime (c.now n) n

/-- The rows of a partition that is to be rewritten fit into columns. -/
structure Disk.Ready (c : Compactor) (d : Disk) : Prop extends d.Written c where
  fits : ∀ k, d.Wants c k true → c.Fits d.files k.1 (partition d.listed k)

/-- What the groups of some partitions come to: `made` has the segment of each that was rewritten. -/
structure Turned (c : Compactor) (d : Disk) (p p' : Pass) (ks : List (Table × Text))
    (made : Table × Text → Option SegmentRef) : Prop where
  produced : ∀ t, p'.produced t = p.produced t ++ ks.flatMap fun k =>
    if k.1 = t then (made k).elim (partition d.listed k) fun m => [m] else []
  deleted : p'.deferredDeletes = p.deferredDeletes ++ ks.flatMap fun k =>
    (made k).elim [] fun _ => partition d.listed k
  created : p'.report.segmentsCreated = p.report.segmentsCreated + (ks.filter fun k => (made k).isSome).length
  budget : p'.budget + (ks.filter fun k => (made k).isSome).length = p.budget
  nothing : (∀ k ∈ ks, made k = none) → p'.report = p.report
  seq : p.seq ≤ p'.seq
  files : ∀ path, (∀ t minTime n, p.seq ≤ n → path ≠ segmentPath t minTime (c.now n) n) →
    p'.files path = p.files path
  kept : ∀ k ∈ ks, made k = none → p'.budget = 0 ∨ d.Wants c k false
  wrote : ∀ k ∈ ks, ∀ m, made k = some m → d.Wants c k true ∧
    m.toBounds = mergedBounds ((partition d.listed k).map SegmentRef.toBounds) ∧
    ∃ n, n < p'.seq ∧ p.seq ≤ n ∧ m.relativePath = segmentPath k.1 m.minTimeUnixNano (c.now n) n ∧
      ∃ rows : List (StoredRow k.1), rows ≠ [] ∧
        p'.files m.relativePath = some (encoded c.reader k.1 c.promote rows)

variable {c : Compactor} {d : Disk} {p p₁ p' : Pass} {ks : List (Table × Text)}

theorem Turned.nil (p : Pass) (made : Table × Text → Option SegmentRef) : Turned c d p p [] made where
  produced _ := (append_nil _).symm
  deleted := (append_nil _).symm
  created := rfl
  budget := rfl
  nothing _ := rfl
  seq := le_refl _
  files _ _ := rfl
  kept _ h := absurd h not_mem_nil
  wrote _ h := absurd h not_mem_nil

/-- A group is kept. -/
theorem Turned.keep (h : p.budget = 0 ∨ d.Wants c k false) :
    Turned c d p (p.keep k.1 (partition d.listed k)) [k] fun _ => none where
  produced t := by
    rw [flatMap_singleton]
    by_cases ht : k.1 = t
    · rw [if_pos ht, ← ht]
      exact update_self k.1 _ p.produced
    · rw [if_neg ht, append_nil]
      exact update_of_ne (Ne.symm ht) _ p.produced
  deleted := (append_nil _).symm
  created := rfl
  budget := rfl
  nothing _ := rfl
  seq := le_refl _
  files _ _ := rfl
  kept k' hk' _ := mem_singleton.mp hk' ▸ h
  wrote _ _ _ hm := nomatch hm

/-- A group is written. -/
theorem Turned.write (hbudget : p.budget ≠ 0) (hwants : d.Wants c k true) {w : Rewritten}
    {rows : List (StoredRow k.1)} (hrows : rows ≠ [])
    (hbounds : w.toBounds = mergedBounds ((partition d.listed k).map SegmentRef.toBounds))
    (hbatch : w.batch = encoded c.reader k.1 c.promote rows) :
    Turned c d p (p.write k.1 (partition d.listed k) (c.now p.seq) w) [k]
      fun _ => some (rewrittenRef k.1 (c.now p.seq) p.seq w) where
  produced t := by
    rw [flatMap_singleton]
    by_cases ht : k.1 = t
    · rw [if_pos ht, ← ht]
      exact update_self k.1 _ p.produced
    · rw [if_neg ht, append_nil]
      exact update_of_ne (Ne.symm ht) _ p.produced
  deleted := by
    rw [flatMap_singleton]
    rfl
  created := by
    unfold Pass.write
    split
    · rfl
    · rfl
  budget := Nat.sub_add_cancel (Nat.pos_of_ne_zero hbudget)
  nothing h := nomatch h k (mem_singleton_self k)
  seq := Nat.le_succ _
  files path hpath := update_of_ne (hpath k.1 w.minTimeUnixNano p.seq (le_refl _)) _ _
  kept _ _ hnone := nomatch hnone
  wrote k' hk' m hm := by
    obtain rfl := mem_singleton.mp hk'
    obtain rfl := some.inj hm
    refine ⟨hwants, hbounds, p.seq, Nat.lt_succ_self _, le_refl _, rfl, rows, hrows, ?_⟩
    rw [← hbatch]
    exact update_self _ _ p.files

/-- The groups of some partitions, and those of more. -/
theorem Turned.cons {made₁ made₂ : Table × Text → Option SegmentRef} (h₁ : Turned c d p p₁ [k] made₁)
    (h₂ : Turned c d p₁ p' ks made₂) (hk : k ∉ ks) :
    Turned c d p p' (k :: ks) (update made₂ k (made₁ k)) := by
  have hself : update made₂ k (made₁ k) k = made₁ k := update_self k _ made₂
  have hrest {k' : Table × Text} (hk' : k' ∈ ks) : update made₂ k (made₁ k) k' = made₂ k' := by
    apply update_of_ne
    rintro rfl
    exact hk hk'
  have hcount : ((k :: ks).filter fun k' => (update made₂ k (made₁ k) k').isSome).length =
      ([k].filter fun k' => (made₁ k').isSome).length + (ks.filter fun k' => (made₂ k').isSome).length := by
    have htail : (ks.filter fun k' => (update made₂ k (made₁ k) k').isSome) =
        ks.filter fun k' => (made₂ k').isSome :=
      filter_congr fun k' hk' => by rw [hrest hk']
    rw [← singleton_append, filter_append, length_append, htail]
    congr 2
    exact filter_congr fun k' hk' => by rw [mem_singleton.mp hk', hself]
  refine ⟨fun t => ?_, ?_, ?_, ?_, fun hall => ?_, h₁.seq.trans h₂.seq, fun path hpath => ?_, ?_, ?_⟩
  · rw [h₂.produced, h₁.produced, append_assoc, flatMap_singleton, flatMap_cons, hself]
    congr 2
    exact flatMap_congr fun k' hk' => by rw [hrest hk']
  · rw [h₂.deleted, h₁.deleted, append_assoc, flatMap_singleton, flatMap_cons, hself]
    congr 2
    exact flatMap_congr fun k' hk' => by rw [hrest hk']
  · rw [h₂.created, h₁.created, hcount, Nat.add_assoc]
  · have hbudget₁ := h₁.budget
    have hbudget₂ := h₂.budget
    omega
  · have hhead : made₁ k = none := hself.symm.trans (hall k mem_cons_self)
    have htail (k' : Table × Text) (hk' : k' ∈ ks) : made₂ k' = none :=
      (hrest hk').symm.trans (hall k' (mem_cons_of_mem _ hk'))
    rw [h₂.nothing htail, h₁.nothing fun k' hk' => mem_singleton.mp hk' ▸ hhead]
  · rw [h₂.files path fun t minTime n hn => hpath t minTime n (h₁.seq.trans hn), h₁.files path hpath]
  · intro k' hk' hnone
    rcases mem_cons.mp hk' with rfl | hk'
    · rcases h₁.kept k' (mem_singleton_self k') (hself.symm.trans hnone) with hzero | hwants
      · have hbudget := h₂.budget
        exact .inl (by omega)
      · exact .inr hwants
    · exact h₂.kept k' hk' ((hrest hk').symm.trans hnone)
  · intro k' hk' m hm
    rcases mem_cons.mp hk' with rfl | hk'
    · obtain ⟨hwants, hbounds, n, hlt, hle, hpath, rows, hrows, hfile⟩ :=
        h₁.wrote k' (mem_singleton_self k') m (hself.symm.trans hm)
      refine ⟨hwants, hbounds, n, hlt.trans_le h₂.seq, hle, hpath, rows, hrows, ?_⟩
      rw [h₂.files m.relativePath, hfile]
      intro t minTime n' hn' heq
      exact absurd (segmentPath_inj (hpath.symm.trans heq)).2 (Nat.ne_of_lt (hlt.trans_le hn'))
    · obtain ⟨hwants, hbounds, n, hlt, hle, hrest'⟩ := h₂.wrote k' hk' m ((hrest hk').symm.trans hm)
      exact ⟨hwants, hbounds, n, hlt, h₁.seq.trans hle, hrest'⟩

theorem Stored.congr {reader : JsonReader} {files files' : BatchFiles} (h : Stored reader files t s)
    (heq : files' s.relativePath = files s.relativePath) : Stored reader files' t s := by
  obtain ⟨promote, rows, b, hne, hb, hfile⟩ := h
  exact ⟨promote, rows, b, hne, hb, heq.trans hfile⟩

theorem segmentSchemaLags_congr {files files' : BatchFiles} {path : Text} (heq : files' path = files path)
    (promote : List Text) : segmentSchemaLags files' path promote = segmentSchemaLags files path promote := by
  unfold segmentSchemaLags
  rw [heq]

theorem wants_congr {files files' : BatchFiles} {group : List SegmentRef}
    (heq : ∀ s ∈ group, files' s.relativePath = files s.relativePath) : c.wants files' group = c.wants files group := by
  unfold Compactor.wants
  match group with
  | [] => rfl
  | s :: group =>
    dsimp only [head?_cons]
    rw [segmentSchemaLags_congr (heq s mem_cons_self)]

theorem mapM_congr {α β : Type} {f g : α → Except Text β} {l : List α} (h : ∀ a ∈ l, f a = g a) :
    l.mapM f = l.mapM g := by
  induction l with
  | nil => rfl
  | cons a l ih =>
    rw [mapM_cons, mapM_cons, h a mem_cons_self, ih fun a ha => h a (mem_cons_of_mem _ ha)]

theorem Compactor.Fits.congr {files files' : BatchFiles} {group : List SegmentRef} (h : c.Fits files t group)
    (heq : ∀ s ∈ group, files' s.relativePath = files s.relativePath) : c.Fits files' t group := by
  intro batches hbatches
  apply h
  rw [← hbatches]
  unfold readSources
  rw [mapM_congr fun s hs => ?_]
  simp only [Compactor.env, readParquetFile, heq s hs]
  rfl

theorem wants_stored {files : BatchFiles} {group : List SegmentRef} (h : ∀ s ∈ group, Stored c.reader files t s) :
    ∃ wanted, c.wants files group = .ok wanted := by
  unfold Compactor.wants
  split
  · match group with
    | [] => exact ⟨false, rfl⟩
    | s :: _ => exact (h s mem_cons_self).lags c.promote
  · exact ⟨true, rfl⟩

/-- The files of the listed segments are there in the pass. -/
def Agrees (d : Disk) (p : Pass) : Prop :=
  d.seq ≤ p.seq ∧ ∀ t, ∀ s ∈ d.listed t, p.files s.relativePath = d.files s.relativePath

theorem Turned.agrees {made : Table × Text → Option SegmentRef} (h : Turned c d p p' ks made) (hready : d.Ready c)
    (hagrees : Agrees d p) : Agrees d p' := by
  refine ⟨hagrees.1.trans h.seq, fun t s hs => ?_⟩
  rw [h.files s.relativePath fun t' minTime n hn => hready.fresh t s hs t' minTime n (hagrees.1.trans hn)]
  exact hagrees.2 t s hs

/-- What one group comes to. -/
theorem Disk.Ready.group (h : d.Ready c) (hagrees : Agrees d p) (hne : partition d.listed k ≠ []) :
    ∃ p' made, c.group k.1 (partition d.listed k) p = .ok p' ∧ Turned c d p p' [k] made := by
  have hfiles : ∀ s ∈ partition d.listed k, p.files s.relativePath = d.files s.relativePath :=
    fun s hs => hagrees.2 k.1 s (mem_partition.mp hs).1
  have hstored : ∀ s ∈ partition d.listed k, Stored c.reader p.files k.1 s :=
    fun s hs => (h.stored k.1 s (mem_partition.mp hs).1).congr (hfiles s hs)
  by_cases hbudget : p.budget = 0
  · exact ⟨_, _, if_pos hbudget, .keep (.inl hbudget)⟩
  · obtain ⟨wanted, hwanted⟩ := wants_stored hstored
    have hwants : d.Wants c k wanted := (wants_congr hfiles).symm.trans hwanted
    rcases wanted
    · refine ⟨_, _, ?_, .keep (.inr hwants)⟩
      rw [Compactor.group, if_neg hbudget, hwanted]
      rfl
    · obtain ⟨rows, w, hrows, hgroup, hbounds, hbatch⟩ := compactGroup_stored c hne hstored
        ((h.fits k hwants).congr hfiles)
      refine ⟨_, _, ?_, .write hbudget hwants hrows hbounds hbatch⟩
      rw [Compactor.group, if_neg hbudget, hwanted]
      dsimp only [bind, Except.bind]
      rw [hgroup]
      rfl

/-- What the groups of a pass come to. -/
theorem Compactor.groups_spec (h : d.Ready c) (hnodup : ks.Nodup) (hne : ∀ k ∈ ks, partition d.listed k ≠ [])
    (hagrees : Agrees d p) :
    ∃ p' made, ks.foldlM (fun p k => c.group k.1 (partition d.listed k) p) p = .ok p' ∧
      Turned c d p p' ks made := by
  induction ks generalizing p with
  | nil => exact ⟨p, fun _ => none, rfl, .nil p _⟩
  | cons k ks ih =>
    obtain ⟨hk, hnodup⟩ := nodup_cons.mp hnodup
    obtain ⟨p₁, made₁, hgroup, hturned⟩ := h.group hagrees (hne k mem_cons_self)
    obtain ⟨p', made₂, hfold, hrest⟩ := ih hnodup (fun k' hk' => hne k' (mem_cons_of_mem _ hk'))
      (hturned.agrees h hagrees)
    refine ⟨p', _, ?_, hturned.cons hrest hk⟩
    rw [foldlM_cons, hgroup]
    exact hfold

/-! ## The lists after a pass -/

/-- The least time of a merge is that of a segment. -/
theorem exists_min_eq {group : List SegmentRef} (hne : group ≠ []) :
    ∃ s ∈ group, (mergedBounds (group.map SegmentRef.toBounds)).minTimeUnixNano = s.minTimeUnixNano := by
  have hmin : (group.map fun s => s.minTimeUnixNano) ≠ [] := fun h => hne (List.map_eq_nil_iff.mp h)
  obtain ⟨least, hleast⟩ := Option.isSome_iff_exists.mp (List.isSome_min?_of_ne_nil hmin)
  obtain ⟨s, hs, heq⟩ := List.mem_map.mp (List.min?_mem hleast)
  refine ⟨s, hs, ?_⟩
  rw [mergedBounds, List.map_map]
  exact (congrArg (·.getD 0) hleast).trans heq.symm

/-- What a partition has after the pass. -/
def after (lists : SegmentLists) (made : Table × Text → Option SegmentRef) (k : Table × Text) : List SegmentRef :=
  (made k).elim (partition lists k) fun m => [m]

/-- The lists after a pass. -/
def Disk.relisted (d : Disk) (p : Pass) : SegmentLists := fun t =>
  reconcileSegments (d.listed t) (paths p.deferredDeletes) (p.produced t)

section

variable {maxPartitions : ℕ} {made : Table × Text → Option SegmentRef} (h : d.Ready c)
  (hturned : Turned c d (.start maxPartitions d) p (partitionKeys d.listed) made)
include h

/-- The day of a listed segment is that of its least time. -/
theorem Disk.Ready.day (hs : s ∈ d.listed t) : dayOfPath s.relativePath = utcDateString s.minTimeUnixNano := by
  obtain ⟨now, seq, hpath⟩ := h.placed t s hs
  rw [hpath, dayOfPath_segmentPath]

/-- A path is listed in one table. -/
theorem Disk.Ready.table {t' : Table} {s' : SegmentRef} (hs : s ∈ d.listed t) (hs' : s' ∈ d.listed t')
    (heq : s.relativePath = s'.relativePath) : t = t' := by
  obtain ⟨now, seq, hpath⟩ := h.placed t s hs
  obtain ⟨now', seq', hpath'⟩ := h.placed t' s' hs'
  exact (segmentPath_inj (hpath.symm.trans (heq.trans hpath'))).1

include hturned

/-- A rewritten segment stays in its day. -/
theorem Turned.day (hk : k ∈ partitionKeys d.listed) {m : SegmentRef} (hm : made k = some m) :
    dayOfPath m.relativePath = k.2 := by
  obtain ⟨-, hbounds, n, -, -, hpath, -⟩ := hturned.wrote k hk m hm
  obtain ⟨s, hs, hmin⟩ := exists_min_eq (mem_partitionKeys.mp hk)
  obtain ⟨hs, hday⟩ := mem_partition.mp hs
  rw [hpath, dayOfPath_segmentPath, hbounds, hmin, ← h.day hs, hday]

theorem Turned.not_listed (hk : k ∈ partitionKeys d.listed) {m : SegmentRef} (hm : made k = some m)
    (hs : s ∈ d.listed t) : s.relativePath ≠ m.relativePath := by
  obtain ⟨-, -, n, -, hle, hpath, -⟩ := hturned.wrote k hk m hm
  rw [hpath]
  exact h.fresh t s hs k.1 _ n hle

/-- The segments that a pass deletes are those of the partitions that it rewrote. -/
theorem Turned.mem_deleted (hs : s ∈ d.listed t) :
    s.relativePath ∈ paths p.deferredDeletes ↔ (made (t, dayOfPath s.relativePath)).isSome := by
  rw [hturned.deleted, mem_paths]
  constructor
  · rintro ⟨s', hs', heq⟩
    obtain ⟨k, -, hs'⟩ := mem_flatMap.mp hs'
    rcases hm : made k with _ | m
    · rw [hm] at hs'
      exact absurd hs' not_mem_nil
    · rw [hm] at hs'
      obtain ⟨hs', hday⟩ := mem_partition.mp hs'
      have hkey : (t, dayOfPath s.relativePath) = k := by
        rw [← heq, hday, h.table hs hs' heq.symm]
      rw [hkey, hm]
      rfl
  · intro hsome
    obtain ⟨m, hm⟩ := isSome_iff_exists.mp hsome
    have hmem := mem_partition_of_mem hs
    refine ⟨s, mem_flatMap.mpr ⟨_, mem_partitionKeys.mpr (ne_nil_of_mem hmem), ?_⟩, rfl⟩
    rw [hm]
    exact hmem

theorem Turned.mem_after (hk : k ∈ partitionKeys d.listed) (hs : s ∈ after d.listed made k) :
    dayOfPath s.relativePath = k.2 := by
  unfold after at hs
  rcases hm : made k with _ | m
  · rw [hm] at hs
    exact (mem_partition.mp hs).2
  · rw [hm] at hs
    rw [mem_singleton.mp hs]
    exact hturned.day h hk hm

theorem Turned.nodup_produced (t : Table) : (paths (p.produced t)).Nodup := by
  have hproduced : p.produced t = (partitionKeys d.listed).flatMap fun k =>
    if k.1 = t then after d.listed made k else [] := hturned.produced t
  rw [hproduced, paths, map_flatMap]
  refine nodup_flatMap.mpr ⟨fun k hk => ?_, (nodup_partitionKeys d.listed).imp_of_mem ?_⟩
  · split
    · unfold after
      rcases made k with _ | m
      · exact (h.nodup k.1).sublist (filter_sublist.map _)
      · exact nodup_singleton _
    · exact nodup_nil
  · intro k k' hk hk' hne path hpath hpath'
    dsimp only at hpath hpath'
    split at hpath
    · rename_i ht
      split at hpath'
      · rename_i ht'
        obtain ⟨s, hs, rfl⟩ := mem_map.mp hpath
        obtain ⟨s', hs', heq⟩ := mem_map.mp hpath'
        apply hne
        apply Prod.ext (ht.trans ht'.symm)
        rw [← hturned.mem_after h hk hs, ← hturned.mem_after h hk' hs', heq]
      · exact absurd hpath' not_mem_nil
    · exact absurd hpath not_mem_nil

/-- What a pass leaves of a partition. -/
theorem Turned.partition_relisted (hk : k ∈ partitionKeys d.listed) :
    partition (d.relisted p) k = after d.listed made k := by
  have hfirst : (((d.listed k.1).filter fun s => s.relativePath ∉ paths p.deferredDeletes).filter fun s =>
      dayOfPath s.relativePath = k.2) =
        (partition d.listed k).filter fun s => s.relativePath ∉ paths p.deferredDeletes :=
    filter_comm _ _ _
  have hproduced : p.produced k.1 = (partitionKeys d.listed).flatMap fun k' =>
    if k'.1 = k.1 then after d.listed made k' else [] := hturned.produced k.1
  have hsecond (keep : SegmentRef → Bool) : (((p.produced k.1).filter keep).filter fun s =>
      dayOfPath s.relativePath = k.2) = (after d.listed made k).filter keep := by
    rw [filter_comm, hproduced, filter_flatMap,
      flatMap_eq_of_only (nodup_partitionKeys d.listed) hk, if_pos rfl]
    · congr 1
      exact filter_eq_self.mpr fun s hs => decide_eq_true (hturned.mem_after h hk hs)
    · intro k' hk' hne
      split
      · rename_i ht
        refine filter_eq_nil_iff.mpr fun s hs hday => ?_
        apply hne
        apply Prod.ext ht
        rw [← hturned.mem_after h hk' hs]
        exact of_decide_eq_true hday
      · rfl
  unfold partition Disk.relisted
  rw [reconcileSegments_eq _ _ (hturned.nodup_produced h k.1), filter_append, hfirst, hsecond]
  unfold after
  rcases hm : made k with _ | m
  · have hnot : ∀ s ∈ partition d.listed k, s.relativePath ∉ paths p.deferredDeletes := by
      intro s hs hmem
      obtain ⟨hs, hday⟩ := mem_partition.mp hs
      rw [hturned.mem_deleted h hs, hday, hm] at hmem
      exact Bool.false_ne_true hmem
    dsimp only [elim_none]
    rw [filter_eq_self.mpr fun s hs => decide_eq_true (hnot s hs), filter_eq_nil_iff.mpr, append_nil]
    intro s hs habsent
    apply of_decide_eq_true habsent
    exact mem_paths_of_mem (mem_filter.mpr ⟨(mem_partition.mp hs).1, decide_eq_true (hnot s hs)⟩)
  · dsimp only [elim_some]
    rw [filter_eq_nil_iff.mpr, nil_append, filter_eq_self.mpr]
    · intro s hs
      rw [mem_singleton.mp hs]
      apply decide_eq_true
      intro hmem
      obtain ⟨s', hs', heq⟩ := mem_paths.mp hmem
      exact hturned.not_listed h hk hm (mem_of_mem_filter hs') heq
    · intro s hs hnot
      apply of_decide_eq_true hnot
      obtain ⟨hs, hday⟩ := mem_partition.mp hs
      rw [hturned.mem_deleted h hs, hday, hm]
      rfl

/-- A partition without a segment stays without. -/
theorem Turned.partition_empty (hk : k ∉ partitionKeys d.listed) : partition (d.relisted p) k = [] := by
  have hproduced : p.produced k.1 = (partitionKeys d.listed).flatMap fun k' =>
    if k'.1 = k.1 then after d.listed made k' else [] := hturned.produced k.1
  refine filter_eq_nil_iff.mpr fun s hs hday => ?_
  replace hday : dayOfPath s.relativePath = k.2 := of_decide_eq_true hday
  rcases mem_reconcileSegments hs with ⟨hs, -⟩ | hs
  · exact hk (mem_partitionKeys.mpr (ne_nil_of_mem (mem_partition.mpr ⟨hs, hday⟩)))
  · rw [hproduced] at hs
    obtain ⟨k', hk', hs⟩ := mem_flatMap.mp hs
    split at hs
    · rename_i ht
      apply hk
      rwa [← Prod.ext ht ((hturned.mem_after h hk' hs).symm.trans hday)]
    · exact absurd hs not_mem_nil

/-- A segment that is listed after the pass was listed before, or is a rewritten one. -/
theorem Turned.listed_cases (hs : s ∈ d.relisted p t) :
    (s ∈ d.listed t ∧ made (t, dayOfPath s.relativePath) = none) ∨
      ∃ k ∈ partitionKeys d.listed, k.1 = t ∧ made k = some s := by
  have hmem : s ∈ partition (d.relisted p) (t, dayOfPath s.relativePath) := mem_partition_of_mem hs
  by_cases hk : (t, dayOfPath s.relativePath) ∈ partitionKeys d.listed
  · rw [hturned.partition_relisted h hk] at hmem
    unfold after at hmem
    rcases hm : made (t, dayOfPath s.relativePath) with _ | m
    · rw [hm] at hmem
      exact .inl ⟨(mem_partition.mp hmem).1, rfl⟩
    · rw [hm] at hmem
      obtain rfl := mem_singleton.mp hmem
      exact .inr ⟨_, hk, rfl, hm⟩
  · rw [hturned.partition_empty h hk] at hmem
    exact absurd hmem not_mem_nil

/-- The files after the pass. -/
theorem Turned.file_of_kept (hs : s ∈ d.listed t) (hnone : made (t, dayOfPath s.relativePath) = none)
    (refused : Text → Bool) :
    Compactor.reclaim (paths p.deferredDeletes) refused p.files s.relativePath = d.files s.relativePath := by
  rw [Compactor.reclaim, if_neg]
  · exact (hturned.agrees h ⟨le_refl _, fun _ _ _ => rfl⟩).2 t s hs
  · rintro ⟨hmem, -⟩
    rw [hturned.mem_deleted h hs, hnone] at hmem
    exact Bool.false_ne_true hmem

theorem Turned.file_of_made (hk : k ∈ partitionKeys d.listed) {m : SegmentRef} (hm : made k = some m)
    (refused : Text → Bool) :
    Compactor.reclaim (paths p.deferredDeletes) refused p.files m.relativePath = p.files m.relativePath := by
  rw [Compactor.reclaim, if_neg]
  rintro ⟨hmem, -⟩
  rw [hturned.deleted] at hmem
  obtain ⟨s, hs, heq⟩ := mem_paths.mp hmem
  obtain ⟨k', -, hs⟩ := mem_flatMap.mp hs
  rcases hm' : made k' with _ | m'
  · rw [hm'] at hs
    exact absurd hs not_mem_nil
  · rw [hm'] at hs
    exact hturned.not_listed h hk hm (mem_partition.mp hs).1 heq

theorem Turned.relisted_idle (hall : ∀ k ∈ partitionKeys d.listed, made k = none) (t : Table) :
    d.relisted p t = d.listed t := by
  have hkept : ((d.listed t).filter fun s => s.relativePath ∉ paths p.deferredDeletes) = d.listed t := by
    refine filter_eq_self.mpr fun s hs => decide_eq_true fun hmem => ?_
    rw [hturned.mem_deleted h hs, hall _ (mem_partitionKeys.mpr (ne_nil_of_mem (mem_partition_of_mem hs)))] at hmem
    exact Bool.false_ne_true hmem
  have hproduced : p.produced t = (partitionKeys d.listed).flatMap fun k =>
    if k.1 = t then after d.listed made k else [] := hturned.produced t
  rw [Disk.relisted, reconcileSegments_eq _ _ (hturned.nodup_produced h t), hkept, filter_eq_nil_iff.mpr,
    append_nil]
  intro s hs habsent
  apply of_decide_eq_true habsent
  rw [hproduced] at hs
  obtain ⟨k, hk, hs⟩ := mem_flatMap.mp hs
  split at hs
  · rename_i ht
    rw [after, hall k hk] at hs
    exact mem_paths_of_mem (ht ▸ (mem_partition.mp hs).1)
  · exact absurd hs not_mem_nil

/-- A partition that was rewritten is not to be rewritten. -/
theorem Turned.wants_of_made (hk : k ∈ partitionKeys d.listed) {m : SegmentRef} (hm : made k = some m)
    (refused : Text → Bool) :
    Disk.Wants c ⟨d.relisted p, Compactor.reclaim (paths p.deferredDeletes) refused p.files, p.seq⟩ k false := by
  obtain ⟨-, -, -, -, -, -, rows, -, hfile⟩ := hturned.wrote k hk m hm
  unfold Disk.Wants Compactor.wants
  dsimp only
  rw [hturned.partition_relisted h hk, after, hm]
  exact segmentSchemaLags_encoded ((hturned.file_of_made h hk hm refused).trans hfile)

/-- A partition that was not rewritten is as it was. -/
theorem Turned.partition_kept (hnone : k ∈ partitionKeys d.listed → made k = none) (refused : Text → Bool) :
    partition (d.relisted p) k = partition d.listed k ∧ ∀ s ∈ partition d.listed k,
      Compactor.reclaim (paths p.deferredDeletes) refused p.files s.relativePath = d.files s.relativePath := by
  by_cases hkey : k ∈ partitionKeys d.listed
  · refine ⟨?_, fun s hs => ?_⟩
    · rw [hturned.partition_relisted h hkey, after, hnone hkey]
      rfl
    · obtain ⟨hs, hday⟩ := mem_partition.mp hs
      exact hturned.file_of_kept h hs (hday ▸ hnone hkey) refused
  · have hempty : partition d.listed k = [] := by
      by_contra hne
      exact hkey (mem_partitionKeys.mpr hne)
    rw [hempty]
    exact ⟨hturned.partition_empty h hkey, fun _ hs => absurd hs not_mem_nil⟩

/-- The disk after the pass. -/
theorem Turned.ready (refused : Text → Bool) :
    Disk.Ready c ⟨d.relisted p, Compactor.reclaim (paths p.deferredDeletes) refused p.files, p.seq⟩ where
  stored t s hs := by
    rcases hturned.listed_cases h hs with ⟨hs, hnone⟩ | ⟨k, hk, rfl, hm⟩
    · exact (h.stored t s hs).congr (hturned.file_of_kept h hs hnone refused)
    · obtain ⟨-, -, n, -, -, -, rows, hrows, hfile⟩ := hturned.wrote k hk s hm
      exact ⟨c.promote, rows, _, hrows, rowsToBatch_eq c.reader rows c.promote,
        (hturned.file_of_made h hk hm refused).trans hfile⟩
  placed t s hs := by
    rcases hturned.listed_cases h hs with ⟨hs, -⟩ | ⟨k, hk, rfl, hm⟩
    · exact h.placed t s hs
    · obtain ⟨-, -, n, -, -, hpath, -⟩ := hturned.wrote k hk s hm
      exact ⟨_, n, hpath⟩
  nodup t := nodup_reconcileSegments (h.nodup t) _ _
  fresh t s hs t' minTime n hn := by
    rcases hturned.listed_cases h hs with ⟨hs, -⟩ | ⟨k, hk, rfl, hm⟩
    · exact h.fresh t s hs t' minTime n (hturned.seq.trans hn)
    · obtain ⟨-, -, n', hlt, -, hpath, -⟩ := hturned.wrote k hk s hm
      intro heq
      exact absurd (segmentPath_inj (hpath.symm.trans heq)).2 (Nat.ne_of_lt (hlt.trans_le hn))
  fits k hwants := by
    have hnone : k ∈ partitionKeys d.listed → made k = none := by
      intro hk
      rcases hm : made k with _ | m
      · rfl
      · exact absurd (Except.ok.inj (hwants.symm.trans (hturned.wants_of_made h hk hm refused))) (by decide)
    obtain ⟨hpartition, hfiles⟩ := hturned.partition_kept h hnone refused
    unfold Disk.Wants at hwants
    dsimp only at hwants ⊢
    rw [hpartition, wants_congr hfiles] at hwants
    rw [hpartition]
    exact (h.fits k hwants).congr hfiles

end

/-! ## Passes -/

/-- One segment for each table and day, and no promoted column that a segment lacks. -/
structure Disk.Settled (d : Disk) (promote : List Text) : Prop where
  single : ∀ k, (partition d.listed k).length ≤ 1
  current : ∀ t, ∀ s ∈ d.listed t, segmentSchemaLags d.files s.relativePath promote = .ok false

theorem settled_iff : d.Settled c.promote ↔ ∀ k, d.Wants c k false := by
  constructor
  · intro h k
    have hsingle := h.single k
    have hcurrent : ∀ s ∈ partition d.listed k, segmentSchemaLags d.files s.relativePath c.promote = .ok false :=
      fun s hs => h.current k.1 s (mem_partition.mp hs).1
    unfold Disk.Wants Compactor.wants
    rw [if_pos hsingle]
    match partition d.listed k, hcurrent with
    | [], _ => rfl
    | s :: _, hcurrent => exact hcurrent s mem_cons_self
  · intro h
    have hsingle (k : Table × Text) : (partition d.listed k).length ≤ 1 := by
      by_contra hlong
      have hk := h k
      unfold Disk.Wants Compactor.wants at hk
      rw [if_neg hlong] at hk
      exact absurd (Except.ok.inj hk) (by decide)
    refine ⟨hsingle, fun t s hs => ?_⟩
    have hk := h (t, dayOfPath s.relativePath)
    have hmem := mem_partition_of_mem hs
    have hlength := hsingle (t, dayOfPath s.relativePath)
    unfold Disk.Wants Compactor.wants at hk
    rw [if_pos hlength] at hk
    match hpartition : partition d.listed (t, dayOfPath s.relativePath) with
    | [] =>
      rw [hpartition] at hmem
      exact absurd hmem not_mem_nil
    | [s'] =>
      rw [hpartition] at hmem hk
      rw [mem_singleton.mp hmem]
      exact hk
    | _ :: _ :: _ =>
      rw [hpartition] at hlength
      simp at hlength

/-- What a pass has done: the partitions that it rewrote, and the others as they were. -/
structure Passed (c : Compactor) (maxPartitions : ℕ) (d : Disk) (report : CompactionReport) (d' : Disk)
    (rewritten : Finset (Table × Text)) : Prop where
  ready : d'.Ready c
  card : rewritten.card = report.segmentsCreated
  bound : rewritten.card ≤ maxPartitions
  wanted : ∀ k ∈ rewritten, d.Wants c k true ∧ d'.Wants c k false
  merged : ∀ k ∈ rewritten, ∃ m, partition d'.listed k = [m] ∧
    m.toBounds = mergedBounds ((partition d.listed k).map SegmentRef.toBounds)
  others : ∀ k ∉ rewritten, partition d'.listed k = partition d.listed k ∧
    ∀ s ∈ partition d.listed k, d'.files s.relativePath = d.files s.relativePath
  idle : rewritten = ∅ → report = ⟨0, 0, 0⟩ ∧ d'.listed = d.listed
  left : rewritten.card < maxPartitions → ∀ k ∉ rewritten, d.Wants c k false

/-- **A pass** goes through, and rewrites partitions that are to be, up to its bound. -/
theorem Compactor.compactBounded_spec (h : d.Ready c) (maxPartitions : ℕ) (refused : Text → Bool) :
    ∃ report d' rewritten, c.compactBounded maxPartitions refused d = .ok (report, d') ∧
      Passed c maxPartitions d report d' rewritten := by
  obtain ⟨p, made, hfold, hturned⟩ := c.groups_spec h (p := .start maxPartitions d)
    (nodup_partitionKeys d.listed) (fun k hk => mem_partitionKeys.mp hk) ⟨le_refl _, fun _ _ _ => rfl⟩
  let rewritten := ((partitionKeys d.listed).filter fun k => (made k).isSome).toFinset
  have hmem (k : Table × Text) : k ∈ rewritten ↔ k ∈ partitionKeys d.listed ∧ ∃ m, made k = some m := by
    rw [List.mem_toFinset, mem_filter, isSome_iff_exists]
  have hcard : rewritten.card = ((partitionKeys d.listed).filter fun k => (made k).isSome).length :=
    toFinset_card_of_nodup ((nodup_partitionKeys d.listed).filter _)
  have hnone {k : Table × Text} (hk : k ∈ partitionKeys d.listed) (hnot : k ∉ rewritten) : made k = none := by
    rcases hm : made k with _ | m
    · rfl
    · exact absurd ((hmem k).mpr ⟨hk, m, hm⟩) hnot
  have hbudget : p.budget + rewritten.card = maxPartitions := hcard ▸ hturned.budget
  have hempty {k : Table × Text} (hk : k ∉ partitionKeys d.listed) : partition d.listed k = [] := by
    by_contra hne
    exact hk (mem_partitionKeys.mpr hne)
  refine ⟨p.report, _, rewritten, ?_, hturned.ready h refused, ?_, ?_, fun k hk => ?_, fun k hk => ?_, fun k hk => ?_,
    fun hidle => ?_, fun hlt k hk => ?_⟩
  · rw [Compactor.compactBounded, todo_eq, foldlM_map, hfold]
    rfl
  · rw [hcard, hturned.created]
    exact (Nat.zero_add _).symm
  · exact hbudget ▸ Nat.le_add_left _ _
  · obtain ⟨hk, m, hm⟩ := (hmem k).mp hk
    exact ⟨(hturned.wrote k hk m hm).1, hturned.wants_of_made h hk hm refused⟩
  · obtain ⟨hk, m, hm⟩ := (hmem k).mp hk
    refine ⟨m, ?_, (hturned.wrote k hk m hm).2.1⟩
    rw [hturned.partition_relisted h hk, after, hm]
    rfl
  · exact hturned.partition_kept h (fun hkey => hnone hkey hk) refused
  · have hall : ∀ k ∈ partitionKeys d.listed, made k = none := fun k hk =>
      hnone hk (by rw [hidle]; exact Finset.notMem_empty k)
    exact ⟨hturned.nothing hall, funext fun t => hturned.relisted_idle h hall t⟩
  · by_cases hkey : k ∈ partitionKeys d.listed
    · rcases hturned.kept k hkey (hnone hkey hk) with hzero | hwants
      · omega
      · exact hwants
    · unfold Disk.Wants Compactor.wants
      rw [hempty hkey]
      rfl

/-! ## Draining -/

open Classical in
/-- The partitions that are to be rewritten. -/
noncomputable def Disk.pending (c : Compactor) (d : Disk) : Finset (Table × Text) :=
  (partitionKeys d.listed).toFinset.filter fun k => d.Wants c k true

open Classical in
theorem mem_pending : k ∈ d.pending c ↔ d.Wants c k true := by
  refine Finset.mem_filter.trans ?_
  rw [List.mem_toFinset, and_iff_right_iff_imp, mem_partitionKeys]
  intro hwants hnil
  unfold Disk.Wants Compactor.wants at hwants
  rw [hnil] at hwants
  exact absurd (Except.ok.inj hwants) (by decide)

variable {maxPartitions : ℕ} {report : CompactionReport} {d' : Disk} {rewritten : Finset (Table × Text)}

theorem Passed.wants_of_not_mem (h : Passed c maxPartitions d report d' rewritten) (hk : k ∉ rewritten)
    (wanted : Bool) : d'.Wants c k wanted ↔ d.Wants c k wanted := by
  obtain ⟨hpartition, hfiles⟩ := h.others k hk
  unfold Disk.Wants
  rw [hpartition, wants_congr hfiles]

/-- A pass leaves to be rewritten what it did not rewrite. -/
theorem Passed.pending_eq (h : Passed c maxPartitions d report d' rewritten) :
    d'.pending c = d.pending c \ rewritten := by
  ext k
  rw [Finset.mem_sdiff, mem_pending, mem_pending]
  by_cases hk : k ∈ rewritten
  · have hfalse := (h.wanted k hk).2
    refine ⟨fun htrue => ?_, fun hand => absurd hk hand.2⟩
    exact absurd (Except.ok.inj (hfalse.symm.trans htrue)) (by decide)
  · rw [h.wants_of_not_mem hk]
    exact (and_iff_left hk).symm

/-- A pass that rewrites nothing finds nothing to rewrite, where it may rewrite something. -/
theorem Passed.settled (h : Passed c maxPartitions d report d' rewritten) (hpos : 1 ≤ maxPartitions)
    (hnone : report.segmentsCreated = 0) : d.Settled c.promote := by
  have hempty : rewritten = ∅ := Finset.card_eq_zero.mp (h.card.trans hnone)
  refine settled_iff.mpr fun k => h.left ?_ k ?_
  · rw [hempty]
    exact hpos
  · rw [hempty]
    exact Finset.notMem_empty k

theorem Passed.idle_of_settled (h : Passed c maxPartitions d report d' rewritten) (hsettled : d.Settled c.promote) :
    report = ⟨0, 0, 0⟩ ∧ d'.listed = d.listed := by
  apply h.idle
  refine Finset.eq_empty_of_forall_notMem fun k hk => ?_
  have hfalse := settled_iff.mp hsettled k
  exact absurd (Except.ok.inj (hfalse.symm.trans (h.wanted k hk).1)) (by decide)

theorem passes_ready (h : d.Ready c) (maxPartitions : ℕ) (refused : ℕ → Text → Bool) (n : ℕ) :
    ∃ m, c.passes maxPartitions refused n d = .ok m ∧ m.Ready c := by
  induction n with
  | zero => exact ⟨d, rfl, h⟩
  | succ n ih =>
    obtain ⟨m, hm, hready⟩ := ih
    obtain ⟨report, d', rewritten, hpass, hpassed⟩ := c.compactBounded_spec hready maxPartitions (refused n)
    refine ⟨d', ?_, hpassed.ready⟩
    rw [Compactor.passes, hm]
    dsimp only [bind, Except.bind]
    rw [hpass]
    rfl

/-- A pass that rewrites something leaves less. -/
theorem Passed.card_lt (h : Passed c maxPartitions d report d' rewritten) (hsome : report.segmentsCreated ≠ 0) :
    (d'.pending c).card < (d.pending c).card := by
  rw [h.pending_eq]
  apply Finset.card_lt_card
  apply Finset.sdiff_ssubset
  · exact fun k hk => mem_pending.mpr (h.wanted k hk).1
  · exact Finset.card_pos.mp (h.card ▸ Nat.pos_of_ne_zero hsome)

/-- The passes come to an end. -/
theorem exists_settled (h : d.Ready c) (hpos : 1 ≤ maxPartitions) (refused : ℕ → Text → Bool) :
    ∃ n m, c.passes maxPartitions refused n d = .ok m ∧ m.Ready c ∧ m.Settled c.promote := by
  by_contra hnever
  -- every pass takes a partition from those that are left
  have hless (n : ℕ) : ∃ m, c.passes maxPartitions refused n d = .ok m ∧ m.Ready c ∧
      (m.pending c).card + n ≤ (d.pending c).card := by
    induction n with
    | zero => exact ⟨d, rfl, h, le_refl _⟩
    | succ n ih =>
      obtain ⟨m, hm, hready, hcard⟩ := ih
      obtain ⟨report, d', rewritten, hpass, hpassed⟩ := c.compactBounded_spec hready maxPartitions (refused n)
      have hnext : c.passes maxPartitions refused (n + 1) d = .ok d' := by
        rw [Compactor.passes, hm]
        dsimp only [bind, Except.bind]
        rw [hpass]
        rfl
      have hsome : report.segmentsCreated ≠ 0 := fun hnone =>
        hnever ⟨n, m, hm, hready, hpassed.settled hpos hnone⟩
      have hlt := hpassed.card_lt hsome
      exact ⟨d', hnext, hpassed.ready, by omega⟩
  obtain ⟨m, -, -, hcard⟩ := hless ((d.pending c).card + 1)
  omega

/-- **Compaction drains.** Every pass rewrites no more partitions than its bound, each into one segment of its day,
and leaves the others; one that creates nothing has found one segment for each table and day, none of which lags; and
the passes reach such lists, on which a further one rewrites nothing. -/
theorem passes_drain (c : Compactor) (d : Disk) (hready : d.Ready c) (maxPartitions : ℕ) (hpos : 1 ≤ maxPartitions)
    (refused : ℕ → Text → Bool) :
    (∀ n, ∃ m report m', c.passes maxPartitions refused n d = .ok m ∧
      c.compactBounded maxPartitions (refused n) m = .ok (report, m') ∧
      (∃ rewritten : Finset (Table × Text), rewritten.card = report.segmentsCreated ∧
        rewritten.card ≤ maxPartitions ∧
        (∀ k ∈ rewritten, ∃ merged, partition m'.listed k = [merged] ∧
          dayOfPath merged.relativePath = k.2 ∧
          merged.toBounds = mergedBounds ((partition m.listed k).map SegmentRef.toBounds)) ∧
        ∀ k ∉ rewritten, partition m'.listed k = partition m.listed k ∧
          ∀ s ∈ partition m.listed k, m'.files s.relativePath = m.files s.relativePath) ∧
      (report.segmentsCreated = 0 → m.Settled c.promote)) ∧
    ∃ n m, c.passes maxPartitions refused n d = .ok m ∧ m.Settled c.promote ∧ ∀ refused', ∃ m',
      c.compactBounded maxPartitions refused' m = .ok (⟨0, 0, 0⟩, m') ∧ m'.listed = m.listed := by
  constructor
  · intro n
    obtain ⟨m, hm, hready⟩ := passes_ready hready maxPartitions refused n
    obtain ⟨report, m', rewritten, hpass, hpassed⟩ := c.compactBounded_spec hready maxPartitions (refused n)
    refine ⟨m, report, m', hm, hpass, ⟨rewritten, hpassed.card, hpassed.bound, fun k hk => ?_, hpassed.others⟩,
      hpassed.settled hpos⟩
    obtain ⟨merged, hmerged, hbounds⟩ := hpassed.merged k hk
    have hmem : merged ∈ partition m'.listed k := hmerged ▸ mem_singleton_self merged
    exact ⟨merged, hmerged, (mem_partition.mp hmem).2, hbounds⟩
  · obtain ⟨n, m, hm, hready, hsettled⟩ := exists_settled hready hpos refused
    refine ⟨n, m, hm, hsettled, fun refused' => ?_⟩
    obtain ⟨report, m', rewritten, hpass, hpassed⟩ := c.compactBounded_spec hready maxPartitions refused'
    obtain ⟨rfl, hlisted⟩ := hpassed.idle_of_settled hsettled
    exact ⟨m', hpass, hlisted⟩

/-! ### Two segments of a day -/

section

variable (promote : List Text) (first second : List (StoredRow .logs))

/-- Two segments of logs from before the epoch, of one day. -/
def oldLogs : List SegmentRef :=
  [{ minTimeUnixNano := -7, maxTimeUnixNano := -7, relativePath := segmentPath .logs (-7) 1 0, rows := first.length },
    { minTimeUnixNano := -3, maxTimeUnixNano := -3, relativePath := segmentPath .logs (-3) 1 1, rows := second.length }]

/-- The first was written without promoted keys, the second with some. -/
def oldDisk : Disk where
  listed t := if t = .logs then oldLogs first second else []
  files path :=
    if path = segmentPath .logs (-7) 1 0 then some (encoded cartReader .logs [] first)
    else if path = segmentPath .logs (-3) 1 1 then some (encoded cartReader .logs promote second)
    else none
  seq := 2

/-- A compactor with promoted keys. -/
def routes (live : List Text) : Compactor where
  reader := cartReader
  cast := fun _ _ col => .ok col
  kernels := stableKernels
  promote := live
  now := fun _ => 1

theorem oldDisk_first : (oldDisk promote first second).files (segmentPath .logs (-7) 1 0) =
    some (encoded cartReader .logs [] first) := by
  unfold oldDisk
  dsimp only
  rw [if_pos rfl]

theorem oldDisk_second : (oldDisk promote first second).files (segmentPath .logs (-3) 1 1) =
    some (encoded cartReader .logs promote second) := by
  have hne : segmentPath .logs (-3) 1 1 ≠ segmentPath .logs (-7) 1 0 :=
    fun h => absurd (segmentPath_inj h).2 (by decide)
  unfold oldDisk
  dsimp only
  rw [if_neg hne, if_pos rfl]

variable {promote first second}

theorem mem_oldDisk (hs : s ∈ (oldDisk promote first second).listed t) : t = .logs ∧ s ∈ oldLogs first second := by
  unfold oldDisk at hs
  dsimp only at hs
  split at hs
  · exact ⟨‹_›, hs⟩
  · exact absurd hs not_mem_nil

theorem oldLogs_cases (hs : s ∈ oldLogs first second) :
    s.relativePath = segmentPath .logs s.minTimeUnixNano 1 0 ∧ s.minTimeUnixNano = -7 ∨
      s.relativePath = segmentPath .logs s.minTimeUnixNano 1 1 ∧ s.minTimeUnixNano = -3 := by
  rcases mem_cons.mp hs with rfl | hs
  · exact .inl ⟨rfl, rfl⟩
  · rw [mem_singleton.mp hs]
    exact .inr ⟨rfl, rfl⟩

/-- Both segments are of one day. -/
theorem partition_oldDisk (hs : s ∈ partition (oldDisk promote first second).listed k) :
    k.1 = .logs ∧ partition (oldDisk promote first second).listed k = oldLogs first second := by
  have hday : ∀ s ∈ oldLogs first second, dayOfPath s.relativePath = utcDateString (-7) := by
    intro s hs
    rcases oldLogs_cases hs with ⟨hpath, hmin⟩ | ⟨hpath, hmin⟩
    · rw [hpath, dayOfPath_segmentPath, hmin]
    · rw [hpath, dayOfPath_segmentPath, hmin]
      decide +kernel
  obtain ⟨hs, hk⟩ := mem_partition.mp hs
  obtain ⟨ht, hs⟩ := mem_oldDisk hs
  refine ⟨ht, ?_⟩
  unfold partition
  rw [ht]
  exact filter_eq_self.mpr fun s' hs' => decide_eq_true ((hday s' hs').trans ((hday s hs).symm.trans hk))

theorem oldDisk_sources (live : List Text) :
    readSources cartReader ((routes live).env (oldDisk promote first second).files) (tableSchemaFor .logs live) live
        (oldLogs first second) =
      .ok ((chunksOf first ++ chunksOf second).map (encoded cartReader .logs live)) := by
  have hread := @readSources_encoded cartReader _ live
    ((routes live).env (oldDisk promote first second).files)
    [((oldLogs first second).head (cons_ne_nil _ _), { promote := [], chunks := chunksOf first }),
      ((oldLogs first second).getLast (cons_ne_nil _ _), { promote := promote, chunks := chunksOf second })] (by
      intro s hs
      rcases mem_cons.mp hs with rfl | hs
      · exact readParquetFile_encoded (oldDisk_first promote first second)
      · rw [mem_singleton.mp hs]
        exact readParquetFile_encoded (oldDisk_second promote first second))
  rw [flatMap_cons, flatMap_singleton] at hread
  exact hread

theorem oldDisk_written (hfirst : first ≠ []) (hsecond : second ≠ []) (live : List Text) :
    (oldDisk promote first second).Written (routes live) := by
  refine ⟨fun t s hs => ?_, fun t s hs => ?_, fun t => ?_, fun t s hs t' minTime n hn heq => ?_⟩
  · obtain ⟨rfl, hs⟩ := mem_oldDisk hs
    rcases oldLogs_cases hs with ⟨hpath, hmin⟩ | ⟨hpath, hmin⟩
    · refine ⟨[], first, _, hfirst, rowsToBatch_eq _ _ _, ?_⟩
      rw [hpath, hmin]
      exact oldDisk_first promote first second
    · refine ⟨promote, second, _, hsecond, rowsToBatch_eq _ _ _, ?_⟩
      rw [hpath, hmin]
      exact oldDisk_second promote first second
  · obtain ⟨rfl, hs⟩ := mem_oldDisk hs
    rcases oldLogs_cases hs with ⟨hpath, -⟩ | ⟨hpath, -⟩
    · exact ⟨1, 0, hpath⟩
    · exact ⟨1, 1, hpath⟩
  · by_cases ht : t = .logs
    · rw [ht]
      refine nodup_cons.mpr ⟨fun h => ?_, nodup_singleton _⟩
      exact absurd (segmentPath_inj (mem_singleton.mp h)).2 (by decide)
    · have hnil : (oldDisk promote first second).listed t = [] := if_neg ht
      rw [hnil]
      exact nodup_nil
  · replace hn : 2 ≤ n := hn
    rcases oldLogs_cases (mem_oldDisk hs).2 with ⟨hpath, -⟩ | ⟨hpath, -⟩
    · exact absurd (segmentPath_inj (hpath.symm.trans heq)).2 (by omega)
    · exact absurd (segmentPath_inj (hpath.symm.trans heq)).2 (by omega)

end

/-- Keys that repeat, and collide with a column. -/
def routeKeys : List Text := ["route".toList, "body".toList, "route".toList]

def cartLine (time : ℤ) : StoredRow .logs := logRow time "\x7b\"route\":\"/cart\"\x7d".toList

/-- A line from before the promotion of `route`, and one from after. -/
def smallDisk : Disk := oldDisk ["route".toList] [cartLine (-7)] [cartLine (-3)]

theorem smallDisk_ready : smallDisk.Ready (routes routeKeys) := by
  refine ⟨oldDisk_written (cons_ne_nil _ _) (cons_ne_nil _ _) routeKeys, fun k hwants batches hbatches => ?_⟩
  rcases hpartition : partition smallDisk.listed k with _ | ⟨s, segs⟩
  · unfold Disk.Wants Compactor.wants at hwants
    rw [hpartition] at hwants
    exact absurd (Except.ok.inj hwants) (by decide)
  · obtain ⟨t, day⟩ := k
    obtain ⟨rfl, hsegs⟩ := partition_oldDisk (hpartition ▸ mem_cons_self)
    have hread := hsegs ▸ hbatches
    obtain rfl := Except.ok.inj ((oldDisk_sources routeKeys).symm.trans hread)
    have hfits : stableKernels.Fits (tableSchemaFor .logs routeKeys)
        ((chunksOf [cartLine (-7)] ++ chunksOf [cartLine (-3)]).map (encoded cartReader .logs routeKeys)) := by
      unfold Kernels.Fits
      decide +kernel
    exact hfits

theorem passes_drain_smallDisk :
    ∃ n m, (routes routeKeys).passes 1 (fun _ _ => false) n smallDisk = .ok m ∧ m.Settled routeKeys := by
  obtain ⟨n, m, hm, hsettled, -⟩ :=
    (passes_drain (routes routeKeys) smallDisk smallDisk_ready 1 (le_refl 1) fun _ _ => false).2
  exact ⟨n, m, hm, hsettled⟩

/-- Rows with $2^{10}$ bytes of attributes each. -/
def longRows (n : ℕ) : List (StoredRow .logs) := List.replicate n (logRow (-7) (longAttributes 1024))

/-- Two segments of such rows. -/
def longDisk (n : ℕ) : Disk := oldDisk [] (longRows n) (longRows n)

/-- A day with more text than a column may have is refused. -/
theorem longDisk_refused {n : ℕ} (hn : 1024 * 1024 ≤ n) (refused : Text → Bool) :
    ∃ e, (routes []).compactBounded 1 refused (longDisk n) = .error e := by
  have hbytes : 2 ^ 31 ≤ ((chunksOf (longRows n) ++ chunksOf (longRows n)).flatten.map fun r =>
      textBytes r.attributes).sum := by
    have hmul := Nat.mul_le_mul hn (le_textBytes_longAttributes 1024)
    rw [flatten_append, flatten_chunksOf, longRows, map_append, sum_append, map_replicate,
      sum_replicate_nat]
    change 2 ^ 31 ≤ n * textBytes (longAttributes 1024) + n * textBytes (longAttributes 1024)
    omega
  obtain ⟨s, hs⟩ : ∃ s, s ∈ (longDisk n).listed .logs := ⟨_, mem_cons_self⟩
  obtain ⟨k, ks, hkeys⟩ := exists_cons_of_ne_nil
    (ne_nil_of_mem (mem_partitionKeys.mpr (ne_nil_of_mem (mem_partition_of_mem hs))))
  obtain ⟨s', hs'⟩ := exists_mem_of_ne_nil _
    (mem_partitionKeys.mp (hkeys ▸ mem_cons_self : k ∈ partitionKeys (longDisk n).listed))
  obtain ⟨hlogs, hpartition⟩ := partition_oldDisk hs'
  have hgroup : (routes []).group k.1 (partition (longDisk n).listed k) (.start 1 (longDisk n)) =
      .error "concat segments".toList := by
    have hrefused : compactGroup (routes []).reader ((routes []).env (longDisk n).files) .logs (routes []).promote
        (oldLogs (longRows n) (longRows n)) = .error "concat segments".toList :=
      compactGroup_refuses rfl (oldDisk_sources []) hbytes
    have hwants : (routes []).wants (longDisk n).files (oldLogs (longRows n) (longRows n)) = .ok true := rfl
    rw [hlogs, longDisk, hpartition]
    unfold Compactor.group
    rw [if_neg (show (Pass.start 1 _).budget ≠ 0 from Nat.one_ne_zero)]
    dsimp only [Pass.start, bind, Except.bind]
    rw [← longDisk, hwants]
    dsimp only
    rw [hrefused]
    rfl
  rw [Compactor.compactBounded, todo_eq, hkeys, map_cons, foldlM_cons, hgroup]
  exact ⟨_, rfl⟩

theorem passes_longDisk {n : ℕ} (hn : 1024 * 1024 ≤ n) (refused : ℕ → Text → Bool) (i : ℕ) :
    ∃ e, (routes []).passes 1 refused (i + 1) (longDisk n) = .error e := by
  induction i with
  | zero =>
    obtain ⟨e, he⟩ := longDisk_refused hn (refused 0)
    refine ⟨e, ?_⟩
    rw [Compactor.passes, Compactor.passes]
    dsimp only [bind, Except.bind]
    rw [he]
  | succ i ih =>
    obtain ⟨e, he⟩ := ih
    refine ⟨e, ?_⟩
    rw [Compactor.passes, he]
    rfl

/-- **A day of too much text** is refused at every pass, and stays as it is. -/
theorem longDisk_not_drained : (longDisk (1024 * 1024)).Written (routes []) ∧
    ¬ ∃ n m, (routes []).passes 1 (fun _ _ => false) n (longDisk (1024 * 1024)) = .ok m ∧ m.Settled [] := by
  have hrows : longRows (1024 * 1024) ≠ [] := ne_nil_of_mem (mem_replicate.mpr ⟨by decide, rfl⟩)
  refine ⟨oldDisk_written hrows hrows [], ?_⟩
  rintro ⟨_ | n, m, hm, hsettled⟩
  · obtain rfl := Except.ok.inj hm
    obtain ⟨s, hs⟩ : ∃ s, s ∈ (longDisk (1024 * 1024)).listed .logs := ⟨_, mem_cons_self⟩
    obtain ⟨-, hpartition⟩ := partition_oldDisk (mem_partition_of_mem hs)
    have hsingle := hsettled.single (.logs, dayOfPath s.relativePath)
    rw [longDisk, hpartition] at hsingle
    exact absurd hsingle (by decide)
  · obtain ⟨e, he⟩ := passes_longDisk (le_refl _) (fun _ _ => false) n
    exact nomatch he.symm.trans hm

end Imbh.Segments
