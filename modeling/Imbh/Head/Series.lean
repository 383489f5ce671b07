import Mathlib.Data.List.Chain
import Imbh.Head.Batch

/-!
# Series on the wire (imbh-head `ipc.rs`)

The samples of all series are the rows of one batch. Series of several queries may have the same labels, so where each
series starts is recorded beside the rows.

* `series_round_trip` — what a remote head is answered.
* `fallback_exact_iff` — when a batch that records no starts is read back.
-/

namespace Imbh.Head

open Lib List Option

/-- Source: `dto.rs` `SamplePoint` -/
structure SamplePoint where
  timestampNs : Int64
  value : F64
deriving DecidableEq

/-- Labels are a name and a value each. Source: `dto.rs` `Series` -/
structure Series where
  labels : List (Text × Text)
  samples : List SamplePoint
  queryIndex : UInt64
deriving DecidableEq

/-- Source: `ipc.rs` `META_SERIES_STARTS` -/
def metaSeriesStarts : String := "imbh.series.starts"

/-- Source: `ipc.rs` `META_SERIES_QUERIES` -/
def metaSeriesQueries : String := "imbh.series.queries"

/-! ## Writing -/

/-- The builders of a batch. -/
structure SeriesColumns where
  labels : List (List (Text × Text))
  timestamps : List (Option Int64)
  values : List F64
  starts : List Text
  queries : List Text

def writeSample (labels : List (Text × Text)) (b : SeriesColumns) (sample : SamplePoint) : SeriesColumns :=
  { b with
    labels := b.labels ++ [labels]
    timestamps := b.timestamps ++ [some sample.timestampNs]
    values := b.values ++ [sample.value] }

/-- A series of no samples has no rows. -/
def writeSeries (b : SeriesColumns) (item : Series) : SeriesColumns :=
  if item.samples.isEmpty then b
  else
    item.samples.foldl (writeSample item.labels)
      { b with
        starts := b.starts ++ [decimal b.timestamps.length]
        queries := b.queries ++ [textU64 item.queryIndex] }

/-- Source: `ipc.rs` `series_to_batch` -/
def seriesToBatch (series : List Series) : Option RecordBatch :=
  let b := series.foldl writeSeries ⟨[], [], [], [], []⟩
  batchWithMetadata [("labels", .map b.labels), ("ts", .timestamp b.timestamps), ("value", .float64 b.values)]
    [(metaSeriesStarts, [','].intercalate b.starts), (metaSeriesQueries, [','].intercalate b.queries)]

/-! ## Reading -/

/-- The parts of a list that was written with commas. -/
def listed (encoded : Text) : List Text := (encoded.splitOn ',').filter (· ≠ [])

def parseStart (encoded part : Text) : Except HeadError ℕ :=
  match parseU64 part with
  | none => .error (malformed s!"series start offsets are not numbers: {String.ofList encoded}")
  | some n => .ok n.toNat

/-- One more sample, of the last series or of a new one. -/
def place (continues : Bool) (labels : List (Text × Text)) (sample : SamplePoint) (queries : List UInt64)
    (out : List Series) : List Series :=
  match out.getLast? with
  | some series =>
    if continues then out.dropLast ++ [{ series with samples := series.samples ++ [sample] }]
    else out ++ [⟨labels, [sample], queries.getD out.length 0⟩]
  | none => out ++ [⟨labels, [sample], queries.getD out.length 0⟩]

/-- A row of a batch: its labels and its sample. -/
abbrev Row : Type := List (Text × Text) × SamplePoint

/-- The series that were read, and the number of starts that were passed, behind one more row. -/
def readRow (starts : Option (List ℕ)) (queries : List UInt64) (state : List Series × ℕ) (row : ℕ) (r : Row) :
    List Series × ℕ :=
  match starts with
  | some starts =>
    if starts[state.2]? = some row then (place false r.1 r.2 queries state.1, state.2 + 1)
    else (place true r.1 r.2 queries state.1, state.2)
  | none =>
    (place (state.1.getLast?.any fun series => series.labels = r.1) r.1 r.2 queries state.1, state.2)

/-- A row of the three columns. -/
def rowAt (labels : List (List (Text × Text))) (timestamps : List (Option Int64)) (values : List F64) (row : ℕ) : Row :=
  (labels.getD row [], ⟨timeValue timestamps row, values.getD row 0⟩)

/-- The starts that a batch records. -/
def startsOf (batch : RecordBatch) : Except HeadError (Option (List ℕ)) :=
  match batch.metadata.lookup metaSeriesStarts with
  | none => pure none
  | some encoded => some <$> (listed encoded).mapM (parseStart encoded)

/-- The queries that a batch records. -/
def queriesOf (batch : RecordBatch) : List UInt64 :=
  match batch.metadata.lookup metaSeriesQueries with
  | none => []
  | some encoded => (listed encoded).filterMap parseU64

/-- Source: `ipc.rs` `series_from_batch` -/
def seriesFromBatch (batch : RecordBatch) : Except HeadError (List Series) := do
  let labels ← column batch "labels" Column.map?
  let timestamps ← column batch "ts" Column.timestamp?
  let values ← column batch "value" Column.float64?
  let starts ← startsOf batch
  return ((List.range batch.numRows).foldl (fun state row =>
    readRow starts (queriesOf batch) state row (rowAt labels timestamps values row)) ([], 0)).1

/-! ## The batch of some series -/

/-- The rows of a series. -/
def Series.rows (s : Series) : List Row := s.samples.map fun sample => (s.labels, sample)

/-- The series that have rows. -/
def survivors (series : List Series) : List Series := series.filter fun s => s.samples ≠ []

def rowsOf (series : List Series) : List Row := series.flatMap Series.rows

/-- The row that each series starts at, when the first starts at a given one. -/
def offsets (start : ℕ) : List Series → List ℕ
  | [] => []
  | s :: rest => start :: offsets (start + s.samples.length) rest

/-- The builders behind some rows, and the starts of series among them. -/
def builders (rows : List Row) (starts : List ℕ) (queries : List UInt64) : SeriesColumns where
  labels := rows.map Prod.fst
  timestamps := rows.map fun r => some r.2.timestampNs
  values := rows.map fun r => r.2.value
  starts := starts.map decimal
  queries := queries.map textU64

/-- The samples of a series add a row each. -/
theorem foldl_writeSample (labels : List (Text × Text)) (samples : List SamplePoint) (rows : List Row) (starts : List ℕ)
    (queries : List UInt64) : samples.foldl (writeSample labels) (builders rows starts queries) =
      builders (rows ++ samples.map fun sample => (labels, sample)) starts queries := by
  induction samples generalizing rows with
  | nil => simp
  | cons sample samples ih =>
    have hstep : writeSample labels (builders rows starts queries) sample =
        builders (rows ++ [(labels, sample)]) starts queries := by
      simp [writeSample, builders]
    rw [foldl_cons, hstep, ih, map_cons, append_assoc, singleton_append]

theorem writeSeries_empty (b : SeriesColumns) {s : Series} (h : s.samples = []) : writeSeries b s = b := by
  rw [writeSeries, h]
  rfl

/-- A series with samples adds its rows, its start and its query. -/
theorem writeSeries_builders {s : Series} (h : s.samples ≠ []) (rows : List Row) (starts : List ℕ)
    (queries : List UInt64) : writeSeries (builders rows starts queries) s =
      builders (rows ++ s.rows) (starts ++ [rows.length]) (queries ++ [s.queryIndex]) := by
  have hstart : ({ builders rows starts queries with
      starts := (builders rows starts queries).starts ++ [decimal (builders rows starts queries).timestamps.length]
      queries := (builders rows starts queries).queries ++ [textU64 s.queryIndex] } : SeriesColumns) =
      builders rows (starts ++ [rows.length]) (queries ++ [s.queryIndex]) := by
    simp [builders]
  rw [writeSeries, if_neg (by simpa using h), hstart, foldl_writeSample]
  rfl

/-- What the loop over the series has written. -/
theorem foldl_writeSeries (series : List Series) (rows : List Row) (starts : List ℕ) (queries : List UInt64) :
    series.foldl writeSeries (builders rows starts queries) =
      builders (rows ++ rowsOf (survivors series)) (starts ++ offsets rows.length (survivors series))
        (queries ++ (survivors series).map Series.queryIndex) := by
  induction series generalizing rows starts queries with
  | nil => simp [survivors, rowsOf, offsets]
  | cons s series ih =>
    rw [foldl_cons]
    by_cases h : s.samples = []
    · have hskip : survivors (s :: series) = survivors series := filter_cons_of_neg (by simpa using h)
      rw [writeSeries_empty _ h, ih, hskip]
    · have hkeep : survivors (s :: series) = s :: survivors series := filter_cons_of_pos (by simpa using h)
      have hlen : (rows ++ s.rows).length = rows.length + s.samples.length := by simp [Series.rows]
      rw [writeSeries_builders h, ih, hkeep, hlen, rowsOf, rowsOf, flatMap_cons, offsets, map_cons]
      simp only [append_assoc, singleton_append]

/-- The columns of some rows. -/
def columnsOf (rows : List Row) : List (String × Column) :=
  [("labels", .map (rows.map Prod.fst)), ("ts", .timestamp (rows.map fun r => some r.2.timestampNs)),
    ("value", .float64 (rows.map fun r => r.2.value))]

theorem aligned_columnsOf (rows : List Row) : ∀ c ∈ columnsOf rows, c.2.length = rows.length := by
  simp [columnsOf, Column.length]

/-- Some rows as a batch. -/
def batchOf (rows : List Row) (metadata : List (String × Text)) : RecordBatch :=
  ⟨columnsOf rows, metadata, rows.length, aligned_columnsOf rows⟩

/-- The metadata of the batch of some series that have rows. -/
def seriesMetadata (series : List Series) : List (String × Text) :=
  [(metaSeriesStarts, [','].intercalate ((offsets 0 series).map decimal)),
    (metaSeriesQueries, [','].intercalate ((series.map Series.queryIndex).map textU64))]

/-- The columns have one length, and the batch is built. -/
theorem seriesToBatch_eq (series : List Series) :
    seriesToBatch series = some (batchOf (rowsOf (survivors series)) (seriesMetadata (survivors series))) := by
  have hwritten := foldl_writeSeries series [] [] []
  simp only [nil_append, length_nil] at hwritten
  have hstart : (⟨[], [], [], [], []⟩ : SeriesColumns) = builders [] [] [] := rfl
  rw [seriesToBatch, hstart, hwritten]
  refine (batchWithMetadata_eq_some _ ?_).trans ?_
  · simp [builders, Column.length]
  · simp [builders, batchOf, columnsOf, seriesMetadata, Column.length]

/-! ## The rows of a batch -/

/-- The series read so far, behind some more rows that begin at a given one. -/
def readRows (starts : Option (List ℕ)) (queries : List UInt64) :
    List Series × ℕ → List Row → ℕ → List Series × ℕ
  | state, [], _ => state
  | state, r :: rows, row => readRows starts queries (readRow starts queries state row r) rows (row + 1)

theorem foldl_readRow (starts : Option (List ℕ)) (queries : List UInt64) (rowAt : ℕ → Row) (n row : ℕ)
    (state : List Series × ℕ) :
    (List.range' row n).foldl (fun state row => readRow starts queries state row (rowAt row)) state =
      readRows starts queries state ((List.range' row n).map rowAt) row := by
  induction n generalizing row state with
  | zero => rfl
  | succ n ih =>
    rw [List.range'_succ, foldl_cons, ih]
    rfl

/-- A batch is read row by row. -/
theorem seriesFromBatch_eq {batch : RecordBatch} {labels : List (List (Text × Text))}
    {timestamps : List (Option Int64)} {values : List F64} {starts : Option (List ℕ)}
    (hlabels : column batch "labels" Column.map? = .ok labels)
    (htimestamps : column batch "ts" Column.timestamp? = .ok timestamps)
    (hvalues : column batch "value" Column.float64? = .ok values) (hstarts : startsOf batch = .ok starts) :
    seriesFromBatch batch = .ok (readRows starts (queriesOf batch) ([], 0)
      ((List.range batch.numRows).map (rowAt labels timestamps values)) 0).1 := by
  have hread := foldl_readRow starts (queriesOf batch) (rowAt labels timestamps values) batch.numRows 0 ([], 0)
  rw [← range_eq_range'] at hread
  rw [seriesFromBatch, hlabels, htimestamps, hvalues, hstarts, ← hread]
  rfl

/-! ## One more row -/

section

variable {labels : List (Text × Text)} {sample : SamplePoint} {queries : List UInt64} {out : List Series} {s : Series}

theorem place_continues : place true labels sample queries (out ++ [s]) =
    out ++ [{ s with samples := s.samples ++ [sample] }] := by
  simp [place]

theorem place_new : place false labels sample queries out = out ++ [⟨labels, [sample], queries.getD out.length 0⟩] := by
  unfold place
  split <;> rfl

theorem place_nil {continues : Bool} : place continues labels sample queries [] = [⟨labels, [sample], queries.getD 0 0⟩] := rfl

/-- Where a sample is placed. -/
theorem place_cases (continues : Bool) (labels : List (Text × Text)) (sample : SamplePoint) (queries : List UInt64)
    (out : List Series) : place continues labels sample queries out = out ++ [⟨labels, [sample], queries.getD out.length 0⟩] ∨
      ∃ before s, continues = true ∧ out = before ++ [s] ∧
        place continues labels sample queries out = before ++ [{ s with samples := s.samples ++ [sample] }] := by
  rcases continues with _ | _
  · exact .inl place_new
  · rcases eq_nil_or_concat' out with rfl | ⟨before, s, rfl⟩
    · exact .inl place_nil
    · exact .inr ⟨before, s, rfl, rfl, place_continues⟩

/-- Every series has a sample. -/
def Filled (out : List Series) : Prop := ∀ s ∈ out, s.samples ≠ []

theorem samples_place (continues : Bool) :
    (place continues labels sample queries out).flatMap Series.samples = out.flatMap Series.samples ++ [sample] := by
  rcases place_cases continues labels sample queries out with h | ⟨before, s, -, rfl, h⟩
  · rw [h, flatMap_append]
    rfl
  · rw [h]
    simp

theorem filled_place (continues : Bool) (h : Filled out) : Filled (place continues labels sample queries out) := by
  rcases place_cases continues labels sample queries out with hplace | ⟨before, s, -, rfl, hplace⟩
  · rw [hplace]
    exact forall_mem_append.mpr ⟨h, forall_mem_singleton.mpr (cons_ne_nil _ _)⟩
  · rw [hplace]
    exact forall_mem_append.mpr ⟨(forall_mem_append.mp h).1,
      forall_mem_singleton.mpr (append_ne_nil_of_right_ne_nil _ (cons_ne_nil _ _))⟩

end

section

variable {starts : Option (List ℕ)} {queries : List UInt64}

/-- A row is placed somewhere. -/
theorem exists_readRow (starts : Option (List ℕ)) (queries : List UInt64) (state : List Series × ℕ) (row : ℕ) (r : Row) :
    ∃ continues, (readRow starts queries state row r).1 = place continues r.1 r.2 queries state.1 := by
  unfold readRow
  split
  · split
    · exact ⟨_, rfl⟩
    · exact ⟨_, rfl⟩
  · exact ⟨_, rfl⟩

theorem samples_readRows (state : List Series × ℕ) (rows : List Row) (row : ℕ) :
    (readRows starts queries state rows row).1.flatMap Series.samples =
      state.1.flatMap Series.samples ++ rows.map Prod.snd := by
  induction rows generalizing state row with
  | nil => simp [readRows]
  | cons r rows ih =>
    obtain ⟨continues, hplace⟩ := exists_readRow starts queries state row r
    rw [readRows, ih, hplace, samples_place, map_cons, append_assoc, singleton_append]

theorem filled_readRows (state : List Series × ℕ) (h : Filled state.1) (rows : List Row) (row : ℕ) :
    Filled (readRows starts queries state rows row).1 := by
  induction rows generalizing state row with
  | nil => exact h
  | cons r rows ih =>
    obtain ⟨continues, hplace⟩ := exists_readRow starts queries state row r
    exact ih _ (hplace ▸ filled_place continues h) _

/-- The rows that a batch is read as. -/
theorem seriesFromBatch_eq_ok {batch : RecordBatch} {out : List Series} (h : seriesFromBatch batch = .ok out) :
    ∃ labels timestamps values starts, column batch "labels" Column.map? = .ok labels ∧
      column batch "ts" Column.timestamp? = .ok timestamps ∧ column batch "value" Column.float64? = .ok values ∧
      startsOf batch = .ok starts ∧ out = (readRows starts (queriesOf batch) ([], 0)
        ((List.range batch.numRows).map (rowAt labels timestamps values)) 0).1 := by
  rcases hlabels : column batch "labels" Column.map? with e | labels
  · rw [seriesFromBatch, hlabels] at h
    cases h
  rcases htimestamps : column batch "ts" Column.timestamp? with e | timestamps
  · rw [seriesFromBatch, hlabels, htimestamps] at h
    cases h
  rcases hvalues : column batch "value" Column.float64? with e | values
  · rw [seriesFromBatch, hlabels, htimestamps, hvalues] at h
    cases h
  rcases hstarts : startsOf batch with e | starts
  · rw [seriesFromBatch, hlabels, htimestamps, hvalues, hstarts] at h
    cases h
  rw [seriesFromBatch_eq hlabels htimestamps hvalues hstarts] at h
  exact ⟨labels, timestamps, values, starts, rfl, rfl, rfl, rfl, (Except.ok.inj h).symm⟩

/-! ## The rows of one series -/

variable {out series : List Series} {s : Series} {k k' row : ℕ}

/-- Rows that go on with the last series. -/
theorem readRows_continue {samples : List SamplePoint} {rest : List Row}
    (h : ∀ i, i < samples.length → ∀ (t : Series) (sample : SamplePoint), t.labels = s.labels →
      readRow starts queries (out ++ [t], k) (row + i) (s.labels, sample) =
        (out ++ [{ t with samples := t.samples ++ [sample] }], k)) :
    readRows starts queries (out ++ [s], k) (samples.map (fun sample => (s.labels, sample)) ++ rest) row =
      readRows starts queries (out ++ [{ s with samples := s.samples ++ samples }], k) rest (row + samples.length) := by
  induction samples generalizing s row with
  | nil => simp
  | cons sample samples ih =>
    have hstep := h 0 (Nat.zero_lt_succ _) s sample rfl
    rw [Nat.add_zero] at hstep
    rw [map_cons, cons_append, readRows, hstep]
    refine (@ih { s with samples := s.samples ++ [sample] } row.succ fun i hi t sample ht => ?_).trans ?_
    · have hnext := h (i + 1) (Nat.succ_lt_succ hi) t sample ht
      rwa [show row + (i + 1) = row.succ + i by omega] at hnext
    · rw [append_assoc, singleton_append, length_cons, Nat.succ_add_eq_add_succ]

/-- The rows of a series are read as it, when the first begins one and the others go on with it. -/
theorem readRows_cons (hs : s.samples ≠ [])
    (hfirst : ∀ sample, readRow starts queries (out, k) row (s.labels, sample) =
      (out ++ [⟨s.labels, [sample], s.queryIndex⟩], k'))
    (hnext : ∀ i, i + 1 < s.samples.length → ∀ (t : Series) (sample : SamplePoint), t.labels = s.labels →
      readRow starts queries (out ++ [t], k') (row + 1 + i) (s.labels, sample) =
        (out ++ [{ t with samples := t.samples ++ [sample] }], k')) :
    readRows starts queries (out, k) (rowsOf (s :: series)) row =
      readRows starts queries (out ++ [s], k') (rowsOf series) (row + s.samples.length) := by
  rcases s with ⟨labels, samples, query⟩
  obtain ⟨sample, samples, rfl⟩ := exists_cons_of_ne_nil hs
  have hmore := @readRows_continue starts queries out ⟨labels, [sample], query⟩ k' (row + 1) samples (rowsOf series)
    fun i hi => hnext i (Nat.succ_lt_succ hi)
  rw [rowsOf, flatMap_cons, Series.rows, map_cons, cons_append, readRows, hfirst]
  refine hmore.trans ?_
  rw [singleton_append, length_cons, Nat.succ_add_eq_add_succ]

/-! ## Starts that were recorded -/

/-- The rows of series that start where it is recorded. -/
theorem readRows_series {starts : List ℕ} (hfilled : Filled series) (hstarts : starts.drop out.length = offsets row series)
    (hqueries : queries.drop out.length = series.map Series.queryIndex) :
    (readRows (some starts) queries (out, out.length) (rowsOf series) row).1 = out ++ series := by
  induction series generalizing out row with
  | nil => simp [rowsOf, readRows]
  | cons s series ih =>
    obtain ⟨hs, hfilled⟩ := forall_mem_cons.mp hfilled
    have hhere : starts[out.length]? = some row := by
      rw [← Nat.add_zero out.length, ← getElem?_drop, hstarts]
      rfl
    have hquery : queries.getD out.length 0 = s.queryIndex := by
      rw [getD_eq_getElem?_getD, ← Nat.add_zero out.length, ← getElem?_drop, hqueries]
      rfl
    have hdrop : starts.drop (out.length + 1) = offsets (row + s.samples.length) series := by
      rw [← drop_drop, hstarts]
      rfl
    have hlength : (out ++ [s]).length = out.length + 1 := by simp
    have hread : readRows (some starts) queries (out, out.length) (rowsOf (s :: series)) row =
        readRows (some starts) queries (out ++ [s], out.length + 1) (rowsOf series) (row + s.samples.length) := by
      refine readRows_cons hs (fun sample => ?_) fun i hi t sample _ => ?_
      · rw [readRow, if_pos hhere, place_new, hquery]
      · -- the next start is behind the rows of the series
        have hnot : starts[out.length + 1]? ≠ some (row + 1 + i) := by
          rw [← Nat.add_zero (out.length + 1), ← getElem?_drop, hdrop]
          rcases series with _ | ⟨u, series⟩
          · simp [offsets]
          · simp only [offsets, getElem?_cons_zero, ne_eq, some.injEq]
            omega
        rw [readRow, if_neg hnot, place_continues]
    rw [hread, ← hlength, ih hfilled, append_assoc, singleton_append]
    · rw [hlength, hdrop]
    · rw [hlength, ← drop_drop, hqueries]
      rfl

end

/-! ## What was recorded is read -/

theorem listed_intercalate {parts : List Text} (h : ∀ p ∈ parts, ',' ∉ p) (hne : ∀ p ∈ parts, p ≠ []) :
    listed ([','].intercalate parts) = parts := by
  rcases parts with _ | ⟨p, parts⟩
  · rfl
  · rw [listed, splitOn_intercalate ',' h (cons_ne_nil _ _), filter_eq_self]
    exact fun q hq => decide_eq_true (hne q hq)

theorem comma_notMem_decimal (n : ℕ) : ',' ∉ decimal n := fun h =>
  absurd (isDigit_of_mem_decimal h) (by simp [Char.isDigit])

theorem listed_decimals (ns : List ℕ) : listed ([','].intercalate (ns.map decimal)) = ns.map decimal := by
  refine listed_intercalate (fun p hp => ?_) fun p hp => ?_
  all_goals obtain ⟨n, -, rfl⟩ := mem_map.mp hp
  · exact comma_notMem_decimal n
  · exact decimal_ne_nil n

theorem parseStart_decimal (encoded : Text) {n : ℕ} (h : n < 2 ^ 64) : parseStart encoded (decimal n) = .ok n := by
  have htext : decimal n = textU64 (UInt64.ofNat n) := by rw [textU64, UInt64.toNat_ofNat_of_lt' h]
  rw [parseStart, htext, parseU64_textU64]
  exact congrArg Except.ok (UInt64.toNat_ofNat_of_lt' h)

theorem mapM_parseStart (encoded : Text) {ns : List ℕ} (h : ∀ n ∈ ns, n < 2 ^ 64) :
    (ns.map decimal).mapM (parseStart encoded) = .ok ns := by
  induction ns with
  | nil => rfl
  | cons n ns ih =>
    obtain ⟨hn, hns⟩ := forall_mem_cons.mp h
    rw [map_cons, mapM_cons, parseStart_decimal encoded hn, ih hns]
    rfl

theorem filterMap_parseU64 (ns : List UInt64) : (ns.map textU64).filterMap parseU64 = ns := by
  induction ns with
  | nil => rfl
  | cons n ns ih => rw [map_cons, filterMap_cons_some (parseU64_textU64 n), ih]

/-- A series starts within the rows. -/
theorem offsets_lt {series : List Series} (hfilled : Filled series) {row n : ℕ} (h : n ∈ offsets row series) :
    n < row + (rowsOf series).length := by
  induction series generalizing row with
  | nil => cases h
  | cons s series ih =>
    obtain ⟨hs, hfilled⟩ := forall_mem_cons.mp hfilled
    have hpos := length_pos_iff.mpr hs
    have hlen : (rowsOf (s :: series)).length = s.samples.length + (rowsOf series).length := by
      rw [rowsOf, flatMap_cons, length_append, Series.rows, length_map]
      rfl
    rcases mem_cons.mp h with rfl | h
    · omega
    · have hlt := ih hfilled h
      omega

/-- The series that survive have all rows. -/
theorem rowsOf_survivors (series : List Series) : rowsOf (survivors series) = rowsOf series := by
  induction series with
  | nil => rfl
  | cons s series ih =>
    by_cases h : s.samples = []
    · have hskip : survivors (s :: series) = survivors series := filter_cons_of_neg (by simpa using h)
      rw [hskip, ih, rowsOf, rowsOf, flatMap_cons, Series.rows, h]
      rfl
    · have hkeep : survivors (s :: series) = s :: survivors series := filter_cons_of_pos (by simpa using h)
      rw [rowsOf, rowsOf, hkeep, flatMap_cons, flatMap_cons]
      exact congrArg _ ih

theorem filled_survivors (series : List Series) : Filled (survivors series) := fun _ hs =>
  of_decide_eq_true (mem_filter.mp hs).2

/-- The starts that are written are read back as offsets. -/
theorem startsOf_series {series : List Series} (rows : List Row) (hfilled : Filled series)
    (hfits : (rowsOf series).length < 2 ^ 64) :
    startsOf (batchOf rows (seriesMetadata series)) = .ok (some (offsets 0 series)) := by
  have hlookup : (batchOf rows (seriesMetadata series)).metadata.lookup metaSeriesStarts =
      some ([','].intercalate ((offsets 0 series).map decimal)) := rfl
  have hbound : ∀ n ∈ offsets 0 series, n < 2 ^ 64 := fun n hn => by
    have hlt := offsets_lt hfilled hn
    omega
  rw [startsOf, hlookup]
  dsimp only
  rw [listed_decimals, mapM_parseStart _ hbound]
  rfl

/-- The query of each series is read back. -/
theorem queriesOf_series (rows : List Row) (series : List Series) :
    queriesOf (batchOf rows (seriesMetadata series)) = series.map Series.queryIndex := by
  have hlookup : (batchOf rows (seriesMetadata series)).metadata.lookup metaSeriesQueries =
      some ([','].intercalate ((series.map Series.queryIndex).map textU64)) := rfl
  have htexts : (series.map Series.queryIndex).map textU64 =
      ((series.map Series.queryIndex).map UInt64.toNat).map decimal := by
    rw [map_map (f := UInt64.toNat)]
    rfl
  rw [queriesOf, hlookup]
  dsimp only
  rw [htexts, listed_decimals, ← htexts, filterMap_parseU64]

theorem rowAt_rows (rows : List Row) : (List.range rows.length).map (rowAt (rows.map Prod.fst)
    (rows.map fun r => some r.2.timestampNs) (rows.map fun r => r.2.value)) = rows := by
  refine ext_getElem (by simp) fun i _ hi => ?_
  simp [rowAt, timeValue, hi]

theorem seriesFromBatch_batchOf {rows : List Row} {metadata : List (String × Text)} {starts : Option (List ℕ)}
    (hstarts : startsOf (batchOf rows metadata) = .ok starts) : seriesFromBatch (batchOf rows metadata) =
      .ok (readRows starts (queriesOf (batchOf rows metadata)) ([], 0) rows 0).1 := by
  have hread := @seriesFromBatch_eq (batchOf rows metadata) _ _ _ _ rfl rfl rfl hstarts
  rwa [show (batchOf rows metadata).numRows = rows.length from rfl, rowAt_rows] at hread

/-- The starts of the series are `u64`, and the offsets of the map of labels `i32`. -/
structure Fits (series : List Series) : Prop where
  samples : (rowsOf series).length < 2 ^ 64
  labels : ((rowsOf series).map fun r => r.1.length).sum < 2 ^ 31

/-- **A remote head is answered every series that has a sample**, in order, with the query it came from; however many
have the same labels. -/
theorem series_round_trip (ipc : ArrowIpc) (hlawful : ipc.Lawful) (series : List Series) (hfits : Fits series) :
    ∃ batch, seriesToBatch series = some batch ∧
      ∀ bytes, encode ipc batch = .ok bytes → postIpc ipc seriesFromBatch bytes = .ok (survivors series) := by
  refine ⟨_, seriesToBatch_eq series, fun bytes hbytes => ?_⟩
  have hfilled := filled_survivors series
  have hrows : (rowsOf (survivors series)).length < 2 ^ 64 := by rw [rowsOf_survivors]; exact hfits.samples
  have hread := @readRows_series ((survivors series).map Series.queryIndex) [] (survivors series) 0
    (offsets 0 (survivors series)) hfilled rfl rfl
  rw [hlawful.postIpc_eq hbytes, seriesFromBatch_batchOf (startsOf_series _ hfilled hrows), queriesOf_series]
  exact congrArg Except.ok hread

/-- Two queries that answer with the same labels, and a series that has no sample between them. -/
def twoAnswers : List Series :=
  [⟨[], [⟨1, 0⟩, ⟨2, 0x7ff8000000000000⟩], 0⟩, ⟨[("service".toList, "cart".toList)], [], 0⟩, ⟨[], [⟨1, 0⟩], 1⟩]

theorem series_round_trip_two : ∃ batch, seriesToBatch twoAnswers = some batch ∧ ∃ bytes,
    encode (oneBatch batch) batch = .ok bytes ∧
      postIpc (oneBatch batch) seriesFromBatch bytes = .ok (survivors twoAnswers) := by
  have hfits : Fits twoAnswers := ⟨by decide, by decide⟩
  refine ⟨_, seriesToBatch_eq twoAnswers, _, encode_oneBatch _, ?_⟩
  obtain ⟨batch, hbatch, hanswer⟩ := series_round_trip (oneBatch (batchOf (rowsOf (survivors twoAnswers))
    (seriesMetadata (survivors twoAnswers)))) (lawful_oneBatch _) twoAnswers hfits
  obtain rfl := some.inj ((seriesToBatch_eq twoAnswers).symm.trans hbatch)
  exact hanswer _ (encode_oneBatch _)

/-! ## Nothing was recorded -/

section

variable {queries : List UInt64} {out series : List Series} {k row : ℕ}

/-- Series that follow one another have other labels. -/
def Apart (out : List Series) : Prop := out.IsChain fun a b => a.labels ≠ b.labels

/-- A row that is read keeps neighbours apart. -/
theorem apart_readRow {state : List Series × ℕ} (h : Apart state.1) (row : ℕ) (r : Row) :
    Apart (readRow none queries state row r).1 := by
  rcases eq_nil_or_concat' state.1 with hnil | ⟨before, s, hout⟩
  · rw [readRow, hnil]
    exact isChain_singleton _
  · rw [hout] at h
    have hlast : (before ++ [s]).getLast? = some s := getLast?_concat
    rw [readRow, hout, hlast, any_some]
    by_cases hlabels : s.labels = r.1
    · rw [decide_eq_true hlabels, place_continues]
      refine isChain_append.mpr ⟨(isChain_append.mp h).1, isChain_singleton _, ?_⟩
      intro a ha b hb
      obtain rfl := some.inj hb
      exact (isChain_append.mp h).2.2 a ha s rfl
    · rw [decide_eq_false hlabels, place_new]
      refine isChain_append.mpr ⟨h, isChain_singleton _, ?_⟩
      intro a ha b hb
      obtain rfl := some.inj hb
      obtain rfl := some.inj (hlast ▸ ha)
      exact hlabels

theorem apart_readRows {state : List Series × ℕ} (h : Apart state.1) (rows : List Row) (row : ℕ) :
    Apart (readRows none queries state rows row).1 := by
  induction rows generalizing state row with
  | nil => exact h
  | cons r rows ih => exact ih (apart_readRow h row r) (row + 1)

/-- Without queries, each series is of the first. -/
theorem unattributed_readRows {starts : Option (List ℕ)} {state : List Series × ℕ} (h : ∀ s ∈ state.1, s.queryIndex = 0)
    (rows : List Row) (row : ℕ) : ∀ s ∈ (readRows starts [] state rows row).1, s.queryIndex = 0 := by
  induction rows generalizing state row with
  | nil => exact h
  | cons r rows ih =>
    refine ih (fun s hs => ?_) (row + 1)
    obtain ⟨continues, hplace⟩ := exists_readRow starts [] state row r
    rw [hplace] at hs
    rcases place_cases continues r.1 r.2 [] state.1 with hnew | ⟨before, t, -, hout, hlast⟩
    · rw [hnew] at hs
      exact forall_mem_append.mpr ⟨h, forall_mem_singleton.mpr rfl⟩ s hs
    · rw [hlast] at hs
      rw [hout] at h
      obtain ⟨hbefore, ht⟩ := forall_mem_append.mp h
      rcases mem_append.mp hs with hs | hs
      · exact hbefore s hs
      · rw [mem_singleton.mp hs]
        exact ht t (mem_singleton_self t)

/-- Series that follow one another with other labels are read by their labels. -/
theorem readRows_apart (hfilled : Filled series) (hapart : Apart (out ++ series))
    (hqueries : ∀ s ∈ series, s.queryIndex = 0) :
    (readRows none [] (out, k) (rowsOf series) row).1 = out ++ series := by
  induction series generalizing out row with
  | nil => simp [rowsOf, readRows]
  | cons s series ih =>
    obtain ⟨hs, hfilled⟩ := forall_mem_cons.mp hfilled
    obtain ⟨hquery, hqueries⟩ := forall_mem_cons.mp hqueries
    have hother : (out.getLast?.any fun t => t.labels = s.labels) = false := by
      rcases hlast : out.getLast? with _ | t
      · rfl
      · exact decide_eq_false ((isChain_append.mp hapart).2.2 t hlast s rfl)
    have happend : out ++ s :: series = (out ++ [s]) ++ series := by simp
    rw [readRows_cons hs (fun sample => ?_) fun i _ t sample ht => ?_, ih hfilled (happend ▸ hapart) hqueries, happend]
    · rw [readRow, hother, place_new, hquery]
      rfl
    · rw [readRow, getLast?_concat, any_some, decide_eq_true ht, place_continues]

end

/-- **A batch that records nothing is read as its series exactly if** no two that follow one another have the same
labels, and all are of the first query; and of any batch that is read, whatever it records, no sample is lost or moved
and no series is empty. -/
theorem fallback_exact_iff :
    (∀ series, ∃ batch, seriesToBatch series = some batch ∧
      (seriesFromBatch { batch with metadata := [] } = .ok (survivors series) ↔
        Apart (survivors series) ∧ ∀ s ∈ survivors series, s.queryIndex = 0)) ∧
    ∀ batch out, seriesFromBatch batch = .ok out → Filled out ∧
      ∃ timestamps values, column batch "ts" Column.timestamp? = .ok timestamps ∧
        column batch "value" Column.float64? = .ok values ∧ out.flatMap Series.samples =
          (List.range batch.numRows).map fun row => ⟨timeValue timestamps row, values.getD row 0⟩ := by
  refine ⟨fun series => ⟨_, seriesToBatch_eq series, ?_⟩, fun batch out h => ?_⟩
  · have hread := @seriesFromBatch_batchOf (rowsOf (survivors series)) [] none rfl
    change seriesFromBatch (batchOf (rowsOf (survivors series)) []) = _ ↔ _
    rw [hread]
    constructor
    · intro h
      have heq := Except.ok.inj h
      have hnil : Apart ([], 0).1 := List.isChain_nil
      exact ⟨heq ▸ apart_readRows hnil _ _, heq ▸ unattributed_readRows (by simp) _ _⟩
    · rintro ⟨hapart, hqueries⟩
      exact congrArg Except.ok (readRows_apart (filled_survivors series) hapart hqueries)
  · obtain ⟨labels, timestamps, values, starts, -, htimestamps, hvalues, -, rfl⟩ := seriesFromBatch_eq_ok h
    refine ⟨filled_readRows _ (by simp [Filled]) _ _, timestamps, values, htimestamps, hvalues, ?_⟩
    rw [samples_readRows, List.map_map]
    rfl

end Imbh.Head
