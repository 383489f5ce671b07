import Mathlib.Data.List.Sort
import Mathlib.Data.List.TakeWhile
import Mathlib.Tactic.Linarith
import Imbh.Lib.Text

/-!
# The in-memory store (`lib.rs`, `Inner`)

The writer holds, for each table, a buffer of batches and the list of sealed segments, all under
one lock; `sealing` holds what each seal in flight took out of the buffers and has not registered
yet. The functions below are the sections of `ingest*`, `seal`, `retain`, `set_promote` and
`query_snapshot` that run under that lock.

A row carries the LSN of the request it came with, its `approx_bytes` and its time; the rest is
`D`. No code reads the LSN of a row: it names the row in what is proved about them. `P` is the type of promoted key
sets. What a table's schema is beyond that does not matter here, so that the buffers of all tables
are one function of the table.
-/

namespace Imbh.Storage

open List Function

/-- Every physical table.
Source: `imbh-core` `Table` -/
inductive Table
  | logs
  | spans
  | metricsGauge
  | metricsSum
  | metricsHistogram
  | metricsExpHistogram
  | metricsSummary
  deriving DecidableEq, Repr

/-- Every table, in a stable order.
Source: `imbh-core` `Table::ALL` -/
def Table.all : List Table :=
  [.logs, .spans, .metricsGauge, .metricsSum, .metricsHistogram, .metricsExpHistogram,
    .metricsSummary]

theorem Table.mem_all (t : Table) : t ∈ Table.all := by cases t <;> simp [Table.all]

/-- Source: `imbh-core` `Table::as_str` -/
def tableName : Table → Lib.Text
  | .logs => "logs".toList
  | .spans => "spans".toList
  | .metricsGauge => "metrics_gauge".toList
  | .metricsSum => "metrics_sum".toList
  | .metricsHistogram => "metrics_histogram".toList
  | .metricsExpHistogram => "metrics_exp_histogram".toList
  | .metricsSummary => "metrics_summary".toList

variable {D P : Type}

/-- A normalized row of a request. -/
structure RowData (D : Type) where
  time : ℤ
  approxBytes : ℕ
  data : D
  deriving DecidableEq, Repr

/-- A row, with the LSN of the request it came with. -/
structure Row (D : Type) extends RowData D where
  lsn : ℕ
  deriving DecidableEq, Repr

/-- An encoded batch: its rows, and the promoted keys its schema was built against. Empty input
is never encoded. -/
structure Batch (D P : Type) where
  promote : P
  rows : List (Row D)
  nonempty : rows ≠ []

/-- A list of batches for each table. -/
abbrev Buffers (D P : Type) : Type := Table → List (Batch D P)

/-- A sealed segment, as the rows of its file. -/
structure Segment (D : Type) where
  relativePath : ℕ
  rows : List (Row D)
  deriving DecidableEq, Repr

/-- The rows of a list of batches. -/
def batchRows (bs : List (Batch D P)) : List (Row D) := bs.flatMap Batch.rows

/-- The rows of a list of segments. -/
def segmentRows (ss : List (Segment D)) : List (Row D) := ss.flatMap Segment.rows

/-- The mutable state of the store.
Source: `lib.rs` `Inner` -/
structure Inner (D P : Type) where
  buffers : Buffers D P
  segments : Table → List (Segment D)
  bufferBytes : ℕ
  watermark : ℕ
  bufferMaxLsn : ℕ
  nextLsn : ℕ
  /-- The batches of each seal in flight, by its generation. -/
  sealing : List (ℕ × Buffers D P)
  nextSealGen : ℕ

namespace Inner

/-- A store with what its manifest lists, before the replay.
Source: `lib.rs` `Storage::open` -/
def loaded (segments : Table → List (Segment D)) (watermark nextLsn : ℕ) : Inner D P where
  buffers := fun _ => []
  segments := segments
  bufferBytes := 0
  watermark := watermark
  bufferMaxLsn := watermark
  nextLsn := nextLsn
  sealing := []
  nextSealGen := 0

/-- A store that nothing was written to yet. -/
def empty : Inner D P := loaded (fun _ => []) 0 1

/-- `buffer.is_empty()`, for every table. -/
def buffersEmpty (i : Inner D P) : Bool := Table.all.all fun t => (i.buffers t).isEmpty

/-! ## Encoding the rows of a request -/

/-- Encode each non-empty group to one batch and append it; `fails` says of which tables the
encoding fails, and the first failure ends the call.
Source: `lib.rs` `push_scalar_metric_batches`, the second loop -/
def pushGroups (promote : P) (fails : Table → Bool) :
    List (Table × List (Row D)) → Inner D P → Inner D P × Bool
  | [], i => (i, true)
  | (t, rows) :: groups, i =>
      if h : rows = [] then pushGroups promote fails groups i
      else if fails t then (i, false)
      else pushGroups promote fails groups
        { i with buffers := update i.buffers t (i.buffers t ++ [⟨promote, rows, h⟩]) }

/-- Account the bytes of all groups, then encode them.
Source: `lib.rs` `push_scalar_metric_batches` -/
def pushBatches (promote : P) (fails : Table → Bool) (groups : List (Table × List (Row D)))
    (i : Inner D P) : Inner D P × Bool :=
  pushGroups promote fails groups
    { i with bufferBytes := i.bufferBytes +
        ((groups.flatMap Prod.snd).map fun r => r.approxBytes).sum }

/-- Source: `lib.rs` `push_log_batch` -/
def pushLogBatch (promote : P) (fails : Table → Bool) (rows : List (Row D)) :=
  pushBatches promote fails [(.logs, rows)]

/-- Source: `lib.rs` `push_span_batch` -/
def pushSpanBatch (promote : P) (fails : Table → Bool) (rows : List (Row D)) :=
  pushBatches promote fails [(.spans, rows)]

/-- Source: `lib.rs` `push_scalar_metric_batches` -/
def pushScalarMetricBatches (promote : P) (fails : Table → Bool) (gauge sum : List (Row D)) :=
  pushBatches promote fails [(.metricsGauge, gauge), (.metricsSum, sum)]

/-- Source: `lib.rs` `push_histogram_batch` -/
def pushHistogramBatch (promote : P) (fails : Table → Bool) (rows : List (Row D)) :=
  pushBatches promote fails [(.metricsHistogram, rows)]

/-- Source: `lib.rs` `push_exp_histogram_batch` -/
def pushExpHistogramBatch (promote : P) (fails : Table → Bool) (rows : List (Row D)) :=
  pushBatches promote fails [(.metricsExpHistogram, rows)]

/-- Source: `lib.rs` `push_summary_batch` -/
def pushSummaryBatch (promote : P) (fails : Table → Bool) (rows : List (Row D)) :=
  pushBatches promote fails [(.metricsSummary, rows)]

end Inner

/-- The normalized rows of one request. -/
inductive Request (D : Type)
  | logs (rows : List (RowData D))
  | traces (rows : List (RowData D))
  | metrics (gauge sum histograms expHistograms summaries : List (RowData D))
  deriving DecidableEq, Repr

/-- The rows of a request in one table. -/
def Request.rows : Request D → Table → List (RowData D)
  | .logs rows, .logs => rows
  | .traces rows, .spans => rows
  | .metrics gauge _ _ _ _, .metricsGauge => gauge
  | .metrics _ sum _ _ _, .metricsSum => sum
  | .metrics _ _ histograms _ _, .metricsHistogram => histograms
  | .metrics _ _ _ expHistograms _, .metricsExpHistogram => expHistograms
  | .metrics _ _ _ _ summaries, .metricsSummary => summaries
  | _, _ => []

/-- The rows of a request in one table, with its LSN. -/
def Request.tagged (req : Request D) (lsn : ℕ) (t : Table) : List (Row D) :=
  (req.rows t).map fun r => ⟨r, lsn⟩

namespace Inner

/-- Push the rows of a request into the buffers.
Source: `lib.rs` `ingest`, `ingest_traces`, `ingest_metrics`, after `wal_append_assign` -/
def pushRequest (promote : P) (fails : Table → Bool) (lsn : ℕ) (req : Request D)
    (i : Inner D P) : Inner D P × Bool :=
  match req with
  | .logs _ => i.pushLogBatch promote fails (req.tagged lsn .logs)
  | .traces _ => i.pushSpanBatch promote fails (req.tagged lsn .spans)
  | .metrics .. =>
      match i.pushScalarMetricBatches promote fails (req.tagged lsn .metricsGauge)
          (req.tagged lsn .metricsSum) with
      | (i, false) => (i, false)
      | (i, true) =>
          match i.pushHistogramBatch promote fails (req.tagged lsn .metricsHistogram) with
          | (i, false) => (i, false)
          | (i, true) =>
              match i.pushExpHistogramBatch promote fails
                  (req.tagged lsn .metricsExpHistogram) with
              | (i, false) => (i, false)
              | (i, true) =>
                  i.pushSummaryBatch promote fails (req.tagged lsn .metricsSummary)

/-- Refill the buffers from a record of the log. No encoding fails: it did not at ingest.
Source: `lib.rs` `replay`, `replay_traces`, `replay_metrics` and the like -/
def replay (promote : P) (lsn : ℕ) (req : Request D) (i : Inner D P) : Inner D P :=
  let i := (i.pushRequest promote (fun _ => false) lsn req).1
  { i with
    bufferMaxLsn := max i.bufferMaxLsn lsn
    nextLsn := max i.nextLsn (lsn + 1) }

/-- Replay the records an open staged, in order. -/
def replayAll (promote : P) (recs : List (ℕ × Request D)) (i : Inner D P) : Inner D P :=
  recs.foldl (fun i rec => i.replay promote rec.1 rec.2) i

/-! ## The sections of `seal` -/

/-- Put batches back in front of a buffer.
Source: `lib.rs` `prepend_front` -/
def prependFront (buffer restored : List (Batch D P)) : List (Batch D P) := restored ++ buffer

/-- Take the buffers and stage them; the caller holds what they were, the bytes, the watermark and
the generation.
Source: `lib.rs` `Storage::seal`, the freeze -/
def freeze (i : Inner D P) : Inner D P :=
  { i with
    buffers := fun _ => []
    bufferBytes := 0
    sealing := i.sealing ++ [(i.nextSealGen, i.buffers)]
    nextSealGen := i.nextSealGen + 1 }

/-- Hand the batches back after a failed write.
Source: `lib.rs` `Storage::seal`, the error path -/
def handBack (gen : ℕ) (batches : Buffers D P) (takenBytes : ℕ) (i : Inner D P) : Inner D P :=
  { i with
    buffers := fun t => prependFront (i.buffers t) (batches t)
    bufferBytes := i.bufferBytes + takenBytes
    sealing := i.sealing.filter (·.1 ≠ gen) }

/-- Register the written segments.
Source: `lib.rs` `Storage::seal`, the registration -/
def register (gen : ℕ) (written : Table → List (Segment D)) (watermark : ℕ) (i : Inner D P) :
    Inner D P :=
  { i with
    segments := fun t => i.segments t ++ written t
    sealing := i.sealing.filter (·.1 ≠ gen)
    watermark := watermark }

/-- Drop the segments of a set of paths.
Source: `lib.rs` `Storage::retain` -/
def retain (drop : ℕ → Bool) (i : Inner D P) : Inner D P :=
  { i with segments := fun t => (i.segments t).filter fun s => !drop s.relativePath }

end Inner

/-- The rows of a table's batches in one segment, sorted by time.
Source: `lib.rs` `concat_and_sort` -/
def concatAndSort (bs : List (Batch D P)) : List (Row D) :=
  (batchRows bs).insertionSort fun a b => a.time ≤ b.time

/-- The segments a seal writes: one for each table with batches. `path` names each of them.
Source: `lib.rs` `Storage::seal`, the off-lock write -/
def writeSegments (path : Table → ℕ) (batches : Buffers D P) (t : Table) : List (Segment D) :=
  if (batches t).isEmpty then [] else [⟨path t, concatAndSort (batches t)⟩]

/-- What a query sees of a table: the live buffer with every staged batch, and the segments.
Source: `lib.rs` `Storage::query_snapshot` -/
def querySnapshot (i : Inner D P) (t : Table) : List (Batch D P) × List (Segment D) :=
  (i.buffers t ++ i.sealing.flatMap (fun s => s.2 t), i.segments t)

/-! ## What the functions do -/

/-- The rows of a snapshot. -/
def snapshotRows (i : Inner D P) (t : Table) : List (Row D) :=
  batchRows (querySnapshot i t).1 ++ segmentRows (querySnapshot i t).2

/-- The rows of a table in the staged entries. -/
def stagedRows (i : Inner D P) (t : Table) : List (Row D) :=
  i.sealing.flatMap fun e => batchRows (e.2 t)

theorem snapshotRows_eq (i : Inner D P) (t : Table) :
    snapshotRows i t =
      batchRows (i.buffers t) ++ (stagedRows i t ++ segmentRows (i.segments t)) := by
  unfold snapshotRows querySnapshot batchRows stagedRows
  simp only [flatMap_append, append_assoc, flatMap_assoc]
  rfl

@[simp] theorem batchRows_nil : batchRows ([] : List (Batch D P)) = [] := rfl

@[simp] theorem batchRows_append (bs cs : List (Batch D P)) :
    batchRows (bs ++ cs) = batchRows bs ++ batchRows cs := by
  simp [batchRows]

/-- A batch has a row. -/
theorem batchRows_eq_nil {bs : List (Batch D P)} : batchRows bs = [] ↔ bs = [] := by
  unfold batchRows
  rw [flatMap_eq_nil_iff]
  refine ⟨fun h => ?_, fun h => by simp [h]⟩
  cases bs with
  | nil => rfl
  | cons b bs => exact absurd (h b mem_cons_self) b.nonempty

@[simp] theorem segmentRows_append (ss us : List (Segment D)) :
    segmentRows (ss ++ us) = segmentRows ss ++ segmentRows us := by
  simp [segmentRows]

/-- Sorting loses no row. -/
theorem concatAndSort_perm (bs : List (Batch D P)) : (concatAndSort bs).Perm (batchRows bs) :=
  perm_insertionSort _ _

/-- The segments of a seal hold the rows of its batches. -/
theorem writeSegments_perm (path : Table → ℕ) (batches : Buffers D P) (t : Table) :
    (segmentRows (writeSegments path batches t)).Perm (batchRows (batches t)) := by
  unfold writeSegments
  cases h : batches t with
  | nil => exact Perm.refl _
  | cons b bs => simpa [segmentRows] using concatAndSort_perm (b :: bs)

theorem buffersEmpty_iff {i : Inner D P} : i.buffersEmpty = true ↔ ∀ t, i.buffers t = [] := by
  simp only [Inner.buffersEmpty, List.all_eq_true, List.isEmpty_iff]
  exact ⟨fun h t => h t (Table.mem_all t), fun h t _ => h t⟩

/-! ## What an encode pushes -/

/-- A group that its encode call does not fail on: no batch is built from no rows. -/
def encodes (fails : Table → Bool) (g : Table × List (Row D)) : Bool := g.2.isEmpty || !fails g.1

/-- The groups encoded before the first failure. -/
def encoded (fails : Table → Bool) (groups : List (Table × List (Row D))) :
    List (Table × List (Row D)) :=
  groups.takeWhile (encodes fails)

/-- The rows of a table in a list of groups. -/
def groupRows (groups : List (Table × List (Row D))) (t : Table) : List (Row D) :=
  (groups.filter (·.1 = t)).flatMap Prod.snd

/-- The batches of a list of groups. -/
def groupBatches (promote : P) (groups : List (Table × List (Row D))) : Buffers D P :=
  fun t => (groups.filter (·.1 = t)).filterMap fun g =>
    if h : g.2 = [] then none else some ⟨promote, g.2, h⟩

@[simp] theorem groupBatches_nil (promote : P) :
    groupBatches promote ([] : List (Table × List (Row D))) = fun _ => [] := rfl

theorem groupBatches_append (promote : P) (gs hs : List (Table × List (Row D))) :
    groupBatches promote (gs ++ hs) =
      fun t => groupBatches promote gs t ++ groupBatches promote hs t := by
  funext t
  simp [groupBatches]

/-- The batches of a list of groups hold its rows. -/
theorem batchRows_groupBatches (promote : P) (gs : List (Table × List (Row D))) (t : Table) :
    batchRows (groupBatches promote gs t) = groupRows gs t := by
  unfold groupBatches groupRows
  induction gs.filter (·.1 = t) with
  | nil => rfl
  | cons g gs ih =>
      by_cases h : g.2 = []
      · rw [filterMap_cons_none (by simp [h]), ih, flatMap_cons, h, nil_append]
      · rw [filterMap_cons_some (b := ⟨promote, g.2, h⟩) (by simp [h]), flatMap_cons,
          ← ih]
        rfl

variable {gs : List (Table × List (Row D))} {fails : Table → Bool}

/-- Every batch is built against the promoted keys of the call. -/
theorem promote_of_mem_groupBatches {promote : P} {t : Table} {b : Batch D P} (h : b ∈ groupBatches promote gs t) :
    b.promote = promote := by
  obtain ⟨g, -, hg⟩ := mem_filterMap.mp h
  split at hg
  · cases hg
  · cases hg
    rfl

/-- When nothing fails, every group is encoded. -/
theorem encoded_of_all (h : gs.all (encodes fails)) : encoded fails gs = gs :=
  takeWhile_eq_self_iff.mpr fun g hg => all_eq_true.mp h g hg

/-- After a failure nothing more is encoded. -/
theorem encoded_append_of_not_all (h : ¬ gs.all (encodes fails)) (hs : List (Table × List (Row D))) :
    encoded fails (gs ++ hs) = encoded fails gs := by
  unfold encoded
  rw [takeWhile_append, if_neg]
  intro hlen
  have hfront := takeWhile_prefix (encodes fails) (l := gs)
  have hself := hfront.eq_of_length hlen
  exact h (all_eq_true.mpr fun g hg => takeWhile_eq_self_iff.mp hself g hg)

theorem encoded_append_of_all (h : gs.all (encodes fails)) (hs : List (Table × List (Row D))) :
    encoded fails (gs ++ hs) = gs ++ encoded fails hs := by
  unfold encoded
  exact takeWhile_append_of_pos fun g hg => all_eq_true.mp h g hg

theorem encoded_cons_of_pos {g : Table × List (Row D)}
    (h : encodes fails g = true) (gs : List (Table × List (Row D))) :
    encoded fails (g :: gs) = g :: encoded fails gs :=
  takeWhile_cons_of_pos h

theorem groupBatches_cons (promote : P) (g : Table × List (Row D))
    (gs : List (Table × List (Row D))) :
    groupBatches promote (g :: gs) =
      fun t => groupBatches promote [g] t ++ groupBatches promote gs t :=
  groupBatches_append promote [g] gs

/-- Appending one batch to the buffer of its table. -/
theorem update_append_groupBatches (promote : P) (t : Table) {rows : List (Row D)}
    (h : rows ≠ []) (buffers : Buffers D P) :
    update buffers t (buffers t ++ [⟨promote, rows, h⟩]) =
      fun u => buffers u ++ groupBatches promote [(t, rows)] u := by
  funext u
  by_cases hu : t = u
  · subst hu
    simp [groupBatches, h]
  · simp [groupBatches, hu, update_of_ne (Ne.symm hu)]

/-- Batches added behind the buffers, and their bytes. -/
def Inner.grow (i : Inner D P) (added : Buffers D P) (bytes : ℕ) : Inner D P :=
  { i with buffers := fun t => i.buffers t ++ added t, bufferBytes := i.bufferBytes + bytes }

theorem Inner.grow_grow (i : Inner D P) (a b : Buffers D P) (m n : ℕ) :
    (i.grow a m).grow b n = i.grow (fun t => a t ++ b t) (m + n) := by
  simp [Inner.grow, Nat.add_assoc]

/-- The groups of a request, in the order they are encoded in. -/
def Request.groups (req : Request D) (lsn : ℕ) : List (Table × List (Row D)) :=
  match req with
  | .logs _ => [(.logs, req.tagged lsn .logs)]
  | .traces _ => [(.spans, req.tagged lsn .spans)]
  | .metrics .. =>
      [(.metricsGauge, req.tagged lsn .metricsGauge), (.metricsSum, req.tagged lsn .metricsSum)] ++
        ([(.metricsHistogram, req.tagged lsn .metricsHistogram)] ++
          ([(.metricsExpHistogram, req.tagged lsn .metricsExpHistogram)] ++
            [(.metricsSummary, req.tagged lsn .metricsSummary)]))

/-- The groups of a request hold its rows. -/
theorem Request.groupRows_groups (req : Request D) (lsn : ℕ) (t : Table) :
    groupRows (req.groups lsn) t = req.tagged lsn t := by
  cases req <;> cases t <;>
    simp [groupRows, Request.groups, Request.tagged, Request.rows]

/-- The rows of a request carry its LSN. -/
theorem Request.lsn_of_mem_tagged {req : Request D} {lsn : ℕ} {t : Table} {row : Row D}
    (h : row ∈ req.tagged lsn t) : row.lsn = lsn := by
  obtain ⟨r, -, rfl⟩ := mem_map.mp h
  rfl

/-- The rows encoded before a failure are rows of the request. -/
theorem Request.mem_tagged_of_mem_encoded {req : Request D} {lsn : ℕ} {t : Table} {row : Row D}
    (h : row ∈ groupRows (encoded fails (req.groups lsn)) t) : row ∈ req.tagged lsn t := by
  rw [← req.groupRows_groups lsn t]
  obtain ⟨g, hg, hrow⟩ := mem_flatMap.mp h
  have hsub := (takeWhile_sublist (encodes fails) (l := req.groups lsn)).filter (·.1 = t)
  exact mem_flatMap.mpr ⟨g, hsub.subset hg, hrow⟩

namespace Inner

theorem pushGroups_eq (promote : P) (fails : Table → Bool) (gs : List (Table × List (Row D)))
    (i : Inner D P) :
    i.pushGroups promote fails gs =
      (i.grow (groupBatches promote (encoded fails gs)) 0, gs.all (encodes fails)) := by
  induction gs generalizing i with
  | nil => simp [pushGroups, encoded, grow]
  | cons g gs ih =>
      obtain ⟨t, rows⟩ := g
      unfold pushGroups
      by_cases h : rows = []
      · have henc : encodes fails (t, rows) = true := by simp [encodes, h]
        have hnone : groupBatches promote [(t, rows)] = fun _ => [] := by
          funext u
          by_cases hu : t = u <;> simp [groupBatches, h, hu]
        rw [dif_pos h, ih, encoded_cons_of_pos henc, groupBatches_cons, hnone]
        simp [henc]
      · cases hf : fails t with
        | true => simp [encoded, encodes, h, hf, grow]
        | false =>
            have henc : encodes fails (t, rows) = true := by simp [encodes, hf]
            rw [dif_neg h, if_neg (by simp), ih, encoded_cons_of_pos henc, groupBatches_cons]
            simp only [grow, all_cons, henc, Bool.true_and, update_append_groupBatches,
              append_assoc]

/-- **An encode pushes the batches of the groups before its first failure**, and accounts the
bytes of all. -/
theorem pushBatches_eq (promote : P) (fails : Table → Bool) (gs : List (Table × List (Row D)))
    (i : Inner D P) :
    i.pushBatches promote fails gs =
      (i.grow (groupBatches promote (encoded fails gs))
          ((gs.flatMap Prod.snd).map fun r => r.approxBytes).sum,
        gs.all (encodes fails)) := by
  unfold pushBatches
  rw [pushGroups_eq]
  rfl

/-- A call that encodes a list of groups, whatever the buffers hold. -/
def Encoder (promote : P) (fails : Table → Bool) (gs : List (Table × List (Row D)))
    (push : Inner D P → Inner D P × Bool) : Prop :=
  ∃ bytes, ∀ i, push i =
    (i.grow (groupBatches promote (encoded fails gs)) bytes, gs.all (encodes fails))

theorem pushBatches_encoder (promote : P) (fails : Table → Bool)
    (gs : List (Table × List (Row D))) :
    Encoder promote fails gs (pushBatches promote fails gs) :=
  ⟨_, pushBatches_eq promote fails gs⟩

/-- Encode calls in sequence, the second one only after the first one succeeded. -/
theorem Encoder.andThen {promote : P} {fails : Table → Bool} {gs hs : List (Table × List (Row D))}
    {push next : Inner D P → Inner D P × Bool} (hpush : Encoder promote fails gs push)
    (hnext : Encoder promote fails hs next) :
    Encoder promote fails (gs ++ hs) fun i =>
      match push i with
      | (i, false) => (i, false)
      | (i, true) => next i := by
  obtain ⟨m, hm⟩ := hpush
  obtain ⟨n, hn⟩ := hnext
  by_cases h : gs.all (encodes fails)
  · refine ⟨m + n, fun i => ?_⟩
    simp only [hm, h, hn, grow_grow]
    rw [encoded_append_of_all h, encoded_of_all h, groupBatches_append, all_append, h,
      Bool.true_and]
  · refine ⟨m, fun i => ?_⟩
    have hfalse : gs.all (encodes fails) = false := Bool.eq_false_iff.mpr h
    simp only [hm, hfalse, all_append, Bool.false_and]
    rw [encoded_append_of_not_all h]

/-- **Ingest pushes the rows of a request**, up to the first table whose encoding fails. -/
theorem pushRequest_encoder (promote : P) (fails : Table → Bool) (lsn : ℕ) (req : Request D) :
    Encoder promote fails (req.groups lsn) (pushRequest promote fails lsn req) := by
  cases req with
  | logs rows => exact pushBatches_encoder promote fails _
  | traces rows => exact pushBatches_encoder promote fails _
  | metrics gauge sum histograms expHistograms summaries =>
      unfold pushRequest Request.groups
      refine (pushBatches_encoder promote fails _).andThen ?_
      refine (pushBatches_encoder promote fails _).andThen ?_
      exact (pushBatches_encoder promote fails _).andThen (pushBatches_encoder promote fails _)

/-- No encoding fails in a replay. -/
theorem all_encodes_false (gs : List (Table × List (Row D))) : gs.all (encodes fun _ => false) := by
  rw [all_eq_true]
  intro g _
  simp [encodes]

/-- A replay pushes the rows of its record. -/
theorem replay_eq (promote : P) (lsn : ℕ) (req : Request D) (i : Inner D P) :
    ∃ bytes, i.replay promote lsn req =
      { i.grow (groupBatches promote (req.groups lsn)) bytes with
        bufferMaxLsn := max i.bufferMaxLsn lsn
        nextLsn := max i.nextLsn (lsn + 1) } := by
  obtain ⟨bytes, hpush⟩ := pushRequest_encoder promote (fun _ => false) lsn req
  refine ⟨bytes, ?_⟩
  unfold replay
  rw [hpush, encoded_of_all (all_encodes_false _)]
  rfl

/-- Every replayed batch is built against the promoted keys of the open. -/
theorem promote_of_mem_replayAll {promote : P} {recs : List (ℕ × Request D)} {i : Inner D P}
    (hi : ∀ t, ∀ b ∈ i.buffers t, b.promote = promote) (t : Table) :
    ∀ b ∈ (i.replayAll promote recs).buffers t, b.promote = promote := by
  unfold replayAll
  induction recs generalizing i with
  | nil => exact hi t
  | cons rec recs ih =>
      refine ih fun t b hb => ?_
      obtain ⟨bytes, heq⟩ := replay_eq promote rec.1 rec.2 i
      simp only [heq] at hb
      rcases mem_append.mp hb with hb | hb
      · exact hi t b hb
      · exact promote_of_mem_groupBatches hb

end Inner

end Imbh.Storage
