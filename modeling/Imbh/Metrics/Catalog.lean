import Mathlib.Data.Prod.Lex
import Imbh.Lib.Runs
import Imbh.Lib.SortedMap
import Imbh.Lib.Text
import Imbh.Storage.Inner

/-!
# The metric catalog

A call takes a snapshot of the tables, decides under the lock of the cache which segments it has to scan,
scans without the lock, folds what it found into the cache, and scans the buffers. Storage operations and
other calls come in between.

* `catalog_exact` — in a run each answer is the catalog of the call's snapshot, if each fold that reads a
  buffer along with new segments finds its entries in the cache.
-/

namespace Imbh.Metrics

open Lib Storage List Option Function

/-! ## Tables -/

/-- The columns of a metric row that the catalog reads. -/
structure MetricRow where
  metric : Text
  unit : Text
  temporality : Option Text
  deriving DecidableEq

/-- A segment, whose path no other segment has. -/
structure CatalogSegment where
  path : ℕ
  rows : List MetricRow
  deriving DecidableEq

/-- Source: imbh-query `TableInput` -/
structure TableInput where
  segments : List CatalogSegment
  buffer : List MetricRow
  deriving DecidableEq

abbrev Tables : Type := Table → TableInput

/-- Source: `metrics.rs` `CATALOG_TABLES` -/
def catalogTables : List (Table × Text) :=
  [(.metricsGauge, "gauge".toList), (.metricsSum, "sum".toList), (.metricsHistogram, "histogram".toList),
    (.metricsExpHistogram, "exponential_histogram".toList), (.metricsSummary, "summary".toList)]

/-- Source: `metrics.rs` `CatalogEntry` -/
structure CatalogEntry where
  kind : Text
  metric : Text
  unit : Text
  temporality : Option Text
  deriving DecidableEq

/-- Source: `metrics.rs` `CatalogEntry`, its `Ord` -/
def CatalogEntry.key (e : CatalogEntry) : Text ×ₗ Text ×ₗ Text ×ₗ List Text :=
  toLex (e.kind, toLex (e.metric, toLex (e.unit, e.temporality.toList)))

def entryLe (a b : CatalogEntry) : Prop := a.key ≤ b.key

instance : DecidableRel entryLe := fun a b => inferInstanceAs (Decidable (a.key ≤ b.key))

/-- A set of entries in order. -/
def sortedEntries (entries : List CatalogEntry) : List CatalogEntry := entries.dedup.insertionSort entryLe

def MetricRow.entry (kind : Text) (r : MetricRow) : CatalogEntry := ⟨kind, r.metric, r.unit, r.temporality⟩

/-- The tables with the segments that are kept, and the buffer of each table that keeps none.
Source: `metrics.rs` `narrow` -/
def narrow (tables : Tables) (keep : ℕ → Bool) : Tables := fun t =>
  let segments := (tables t).segments.filter fun s => keep s.path
  ⟨segments, if segments = [] then (tables t).buffer else []⟩

/-- Source: `metrics.rs` `scan_catalog` -/
def scanCatalog (tables : Tables) : List CatalogEntry :=
  catalogTables.flatMap fun tk =>
    (((tables tk.1).segments.flatMap CatalogSegment.rows ++ (tables tk.1).buffer).dedup).map
      (MetricRow.entry tk.2)

/-- The paths of the segments of the catalog tables. Source: `metrics.rs` `MetricsApi::catalog` -/
def livePaths (tables : Tables) : List ℕ :=
  catalogTables.flatMap fun tk => (tables tk.1).segments.map CatalogSegment.path

/-- The catalog of the tables: their distinct rows. -/
def catalogOf (tables : Tables) : List CatalogEntry := sortedEntries (scanCatalog tables)

/-! ## Calls -/

/-- Source: `lib.rs` `MetricCatalogCache` -/
structure MetricCatalogCache where
  folded : List ℕ
  entries : List CatalogEntry

/-- The cache for a snapshot: empty, if a folded segment is not live.
Source: `metrics.rs` `MetricsApi::catalog` -/
def MetricCatalogCache.cleared (cache : MetricCatalogCache) (live : List ℕ) : MetricCatalogCache :=
  if ∀ p ∈ cache.folded, p ∈ live then cache else ⟨[], []⟩

/-- Where a call is: it has its snapshot; or it has decided what to scan, and has the cached entries. -/
inductive Call
  | started (tables : Tables)
  | decided (tables : Tables) (fresh : List ℕ) (all : List CatalogEntry)

/-- What the pass over new segments finds. Source: `metrics.rs` `MetricsApi::catalog` -/
def scanFresh (tables : Tables) (fresh : List ℕ) : List CatalogEntry :=
  if fresh = [] then [] else scanCatalog (narrow tables fun p => p ∈ fresh)

/-- What the pass over the buffers finds. -/
def scanBuffers (tables : Tables) : List CatalogEntry := scanCatalog (narrow tables fun _ => false)

/-- The database: its tables, the path of the next segment, the cache, the calls, and what was answered to
which snapshot. -/
structure World where
  tables : Tables
  nextPath : ℕ
  cache : MetricCatalogCache
  calls : ℕ → Option Call
  answers : List (Tables × List CatalogEntry)

def World.init : World := ⟨fun _ => ⟨[], []⟩, 0, ⟨[], []⟩, fun _ => none, []⟩

/-- What happens: operations of the storage, and the steps of a call. A seal has frozen the first rows of the buffer;
what was ingested since then stays. -/
inductive Event
  | ingest (t : Table) (rows : List MetricRow)
  | sealTable (t : Table) (frozen : ℕ)
  | retain (t : Table) (dropped : List ℕ)
  | compact (t : Table) (inputs : List ℕ)
  | call (c : ℕ)
  | decide (c : ℕ)
  | fold (c : ℕ)
  | fail (c : ℕ)

/-- Source: `metrics.rs` `MetricsApi::catalog`; the operations of the storage are those on its lists. -/
def step (w : World) : Event → Option World
  | .ingest t rows => some { w with
      tables := update w.tables t { w.tables t with buffer := (w.tables t).buffer ++ rows } }
  | .sealTable t frozen =>
      if (w.tables t).buffer.take frozen = [] then none
      else some { w with
        tables := update w.tables t
          ⟨(w.tables t).segments ++ [⟨w.nextPath, (w.tables t).buffer.take frozen⟩], (w.tables t).buffer.drop frozen⟩
        nextPath := w.nextPath + 1 }
  | .retain t dropped => some { w with
      tables := update w.tables t { w.tables t with
        segments := (w.tables t).segments.filter fun s => s.path ∉ dropped } }
  | .compact t inputs =>
      let merged := ((w.tables t).segments.filter fun s => s.path ∈ inputs).flatMap CatalogSegment.rows
      some { w with
        tables := update w.tables t { w.tables t with
          segments := ((w.tables t).segments.filter fun s => s.path ∉ inputs) ++ [⟨w.nextPath, merged⟩] }
        nextPath := w.nextPath + 1 }
  | .call c =>
      match w.calls c with
      | none => some { w with calls := update w.calls c (some (.started w.tables)) }
      | some _ => none
  | .decide c =>
      match w.calls c with
      | some (.started tables) =>
          let cache := w.cache.cleared (livePaths tables)
          let fresh := (livePaths tables).filter fun p => p ∉ cache.folded
          some { w with
            cache := cache
            calls := update w.calls c (some (.decided tables fresh cache.entries)) }
      | _ => none
  | .fold c =>
      match w.calls c with
      | some (.decided tables fresh all) =>
          -- The check that a path is live uses the call's own snapshot, in which every new one is.
          let folded := fresh.filter fun p => p ∈ livePaths tables
          some { w with
            cache := ⟨w.cache.folded ++ folded, w.cache.entries ++ scanFresh tables fresh⟩
            calls := update w.calls c none
            answers := w.answers ++
              [(tables, sortedEntries (all ++ scanFresh tables fresh ++ scanBuffers tables))] }
      | _ => none
  | .fail c =>
      match w.calls c with
      | some _ => some { w with calls := update w.calls c none }
      | none => none

/-- Of each table without a new segment, the entries of the buffer are cached. -/
def BuffersCached (cache : MetricCatalogCache) (tables : Tables) (fresh : List ℕ) : Prop :=
  ∀ tk ∈ catalogTables, (∀ s ∈ (tables tk.1).segments, s.path ∉ fresh) →
    ∀ r ∈ (tables tk.1).buffer, r.entry tk.2 ∈ cache.entries

/-- A fold of new segments finds the entries of the buffers it reads in the cache. -/
def FoldsSegments (w : World) : Event → Prop
  | .fold c =>
      match w.calls c with
      | some (.decided tables fresh _) => fresh = [] ∨ BuffersCached w.cache tables fresh
      | _ => True
  | _ => True

/-! ## What a scan finds -/

theorem sortedEntries_congr {l l' : List CatalogEntry} (h : ∀ e, e ∈ l ↔ e ∈ l') :
    sortedEntries l = sortedEntries l' := by
  have htotal : Std.Total entryLe := ⟨fun a b => le_total a.key b.key⟩
  have htrans : IsTrans CatalogEntry entryLe := ⟨fun _ _ _ => le_trans⟩
  apply insertionSort_dedup_congr _ h
  intro a b hab hba
  have hkey : a.key = b.key := le_antisymm hab hba
  obtain ⟨hkind, hrest⟩ := Prod.mk.inj (toLex.injective hkey)
  obtain ⟨hmetric, hrest⟩ := Prod.mk.inj (toLex.injective hrest)
  obtain ⟨hunit, htemporality⟩ := Prod.mk.inj (toLex.injective hrest)
  have htemporality : a.temporality = b.temporality := by
    rcases ha : a.temporality with _ | x <;> rcases hb : b.temporality with _ | y <;>
      rw [ha, hb] at htemporality
    · exact absurd htemporality (by simp)
    · exact absurd htemporality (by simp)
    · rw [(List.cons.inj htemporality).1]
  rw [CatalogEntry.mk.injEq]
  exact ⟨hkind, hmetric, hunit, htemporality⟩

theorem mem_scanCatalog {tables : Tables} {e : CatalogEntry} : e ∈ scanCatalog tables ↔
    ∃ tk ∈ catalogTables, ∃ r, e = r.entry tk.2 ∧
      ((∃ s ∈ (tables tk.1).segments, r ∈ s.rows) ∨ r ∈ (tables tk.1).buffer) := by
  unfold scanCatalog
  rw [List.mem_flatMap]
  apply exists_congr
  intro tk
  apply and_congr_right
  intro _
  rw [List.mem_map]
  simp only [List.mem_dedup, List.mem_append, List.mem_flatMap]
  constructor
  · rintro ⟨r, hr, rfl⟩
    exact ⟨r, rfl, hr⟩
  · rintro ⟨r, rfl, hr⟩
    exact ⟨r, hr, rfl⟩

theorem mem_livePaths {tables : Tables} {p : ℕ} :
    p ∈ livePaths tables ↔ ∃ tk ∈ catalogTables, ∃ s ∈ (tables tk.1).segments, s.path = p := by
  unfold livePaths
  rw [List.mem_flatMap]
  simp only [List.mem_map]

/-- The pass over new segments finds their entries, and those of the buffers of tables without one. -/
theorem mem_scanFresh {tables : Tables} {fresh : List ℕ} {e : CatalogEntry} :
    e ∈ scanFresh tables fresh ↔ fresh ≠ [] ∧ ∃ tk ∈ catalogTables, ∃ r, e = r.entry tk.2 ∧
      ((∃ s ∈ (tables tk.1).segments, s.path ∈ fresh ∧ r ∈ s.rows) ∨
        ((∀ s ∈ (tables tk.1).segments, s.path ∉ fresh) ∧ r ∈ (tables tk.1).buffer)) := by
  have hbuffer : ∀ (t : Table) (r : MetricRow), r ∈ (narrow tables (fun p => p ∈ fresh) t).buffer ↔
      (∀ s ∈ (tables t).segments, s.path ∉ fresh) ∧ r ∈ (tables t).buffer := by
    intro t r
    unfold narrow
    dsimp only
    split
    · rename_i hnone
      rw [filter_eq_nil_iff] at hnone
      constructor
      · intro hr
        refine ⟨?_, hr⟩
        intro s hs hfresh
        exact hnone s hs (decide_eq_true hfresh)
      · exact fun hr => hr.2
    · rename_i hsome
      constructor
      · exact fun hr => absurd hr not_mem_nil
      · intro hr
        apply absurd _ hsome
        rw [filter_eq_nil_iff]
        intro s hs hfresh
        exact hr.1 s hs (of_decide_eq_true hfresh)
  have hsegments : ∀ (t : Table) (r : MetricRow),
      (∃ s ∈ (narrow tables (fun p => p ∈ fresh) t).segments, r ∈ s.rows) ↔
        ∃ s ∈ (tables t).segments, s.path ∈ fresh ∧ r ∈ s.rows := by
    intro t r
    unfold narrow
    simp only [mem_filter, decide_eq_true_eq, and_assoc]
  unfold scanFresh
  split
  · rename_i hnil
    simp [hnil]
  · rename_i hne
    rw [mem_scanCatalog]
    simp only [hbuffer, hsegments, ne_eq, hne, not_false_eq_true, true_and]

theorem mem_scanBuffers {tables : Tables} {e : CatalogEntry} : e ∈ scanBuffers tables ↔
    ∃ tk ∈ catalogTables, ∃ r ∈ (tables tk.1).buffer, e = r.entry tk.2 := by
  unfold scanBuffers
  rw [mem_scanCatalog]
  have hnarrow : ∀ t, narrow tables (fun _ => false) t = ⟨[], (tables t).buffer⟩ := by
    intro t
    unfold narrow
    simp
  simp only [hnarrow, not_mem_nil, false_and, exists_false, false_or]
  apply exists_congr
  intro tk
  apply and_congr_right
  intro _
  constructor
  · rintro ⟨r, he, hr⟩
    exact ⟨r, hr, he⟩
  · rintro ⟨r, hr, he⟩
    exact ⟨r, he, hr⟩

/-! ## The invariant -/

/-- An entry of rows of a table. -/
def IsEntry (found : Table × List MetricRow) (e : CatalogEntry) : Prop :=
  ∃ tk ∈ catalogTables, tk.1 = found.1 ∧ ∃ r ∈ found.2, e = r.entry tk.2

/-- The segments have the rows that were written at their paths. -/
def Placed (content : ℕ → Table × List MetricRow) (next : ℕ) (tables : Tables) : Prop :=
  ∀ t, ∀ s ∈ (tables t).segments, content s.path = (t, s.rows) ∧ s.path < next

/-- The cache has the entries of the folded segments, and no others. -/
structure Justified (content : ℕ → Table × List MetricRow) (next : ℕ) (cache : MetricCatalogCache) : Prop where
  bounded : ∀ p ∈ cache.folded, p < next
  sound : ∀ e ∈ cache.entries, ∃ p ∈ cache.folded, IsEntry (content p) e
  complete : ∀ p ∈ cache.folded, ∀ e, IsEntry (content p) e → e ∈ cache.entries

/-- A call that has decided has entries of its snapshot, and all of the segments that are not new. -/
def CallJustified (content : ℕ → Table × List MetricRow) (next : ℕ) : Call → Prop
  | .started tables => Placed content next tables
  | .decided tables fresh all =>
      Placed content next tables ∧ (∀ p ∈ fresh, p ∈ livePaths tables) ∧
        (∀ e ∈ all, e ∈ scanCatalog tables) ∧
        ∀ tk ∈ catalogTables, ∀ s ∈ (tables tk.1).segments, s.path ∉ fresh →
          ∀ r ∈ s.rows, r.entry tk.2 ∈ all

/-- Answers are the catalogs of their snapshots, and the cache and the calls are justified. -/
def Inv (w : World) : Prop :=
  (∀ a ∈ w.answers, a.2 = catalogOf a.1) ∧
    ∃ content, Placed content w.nextPath w.tables ∧ Justified content w.nextPath w.cache ∧
      ∀ c call, w.calls c = some call → CallJustified content w.nextPath call

section

variable {content content' : ℕ → Table × List MetricRow} {next next' : ℕ} {tables : Tables}
  {cache : MetricCatalogCache}

theorem Placed.mono (h : Placed content next tables) (hcontent : ∀ p < next, content' p = content p)
    (hnext : next ≤ next') : Placed content' next' tables := by
  intro t s hs
  obtain ⟨hs, hlt⟩ := h t s hs
  exact ⟨(hcontent _ hlt).trans hs, hlt.trans_le hnext⟩

theorem Placed.update (h : Placed content next tables) {t : Table} {input : TableInput}
    (hinput : ∀ s ∈ input.segments, content s.path = (t, s.rows) ∧ s.path < next) :
    Placed content next (update tables t input) := by
  intro t' s hs
  by_cases ht : t' = t
  · subst ht
    rw [update_self] at hs
    exact hinput s hs
  · rw [update_of_ne ht] at hs
    exact h t' s hs

theorem Justified.mono (h : Justified content next cache) (hcontent : ∀ p < next, content' p = content p)
    (hnext : next ≤ next') :
    Justified content' next' cache where
  bounded p hp := (h.bounded p hp).trans_le hnext
  sound e he := by
    obtain ⟨p, hp, hentry⟩ := h.sound e he
    exact ⟨p, hp, hcontent p (h.bounded p hp) ▸ hentry⟩
  complete p hp e hentry := h.complete p hp e (hcontent p (h.bounded p hp) ▸ hentry)

theorem CallJustified.mono {call : Call} (h : CallJustified content next call)
    (hcontent : ∀ p < next, content' p = content p) (hnext : next ≤ next') :
    CallJustified content' next' call := by
  cases call with
  | started tables => exact Placed.mono h hcontent hnext
  | decided tables fresh all => exact ⟨h.1.mono hcontent hnext, h.2⟩

/-- A cache that is kept has folded segments of the snapshot only. -/
theorem cleared_spec (h : Justified content next cache) (live : List ℕ) :
    Justified content next (cache.cleared live) ∧ ∀ p ∈ (cache.cleared live).folded, p ∈ live := by
  unfold MetricCatalogCache.cleared
  split
  · rename_i hsub
    exact ⟨h, hsub⟩
  · refine ⟨⟨?_, ?_, ?_⟩, ?_⟩
    · exact fun p hp => absurd hp not_mem_nil
    · exact fun e he => absurd he not_mem_nil
    · exact fun p hp => absurd hp not_mem_nil
    · exact fun p hp => absurd hp not_mem_nil

/-- What a call decides. -/
theorem decided_justified (h : Justified content next cache) (htables : Placed content next tables)
    (hlive : ∀ p ∈ cache.folded, p ∈ livePaths tables) :
    CallJustified content next
      (.decided tables ((livePaths tables).filter fun p => p ∉ cache.folded) cache.entries) := by
  refine ⟨htables, ?_, ?_, ?_⟩
  · exact fun p hp => (mem_filter.mp hp).1
  · intro e he
    obtain ⟨p, hp, tk, htk, htable, r, hr, rfl⟩ := h.sound e he
    obtain ⟨tk', _, s, hs, rfl⟩ := mem_livePaths.mp (hlive p hp)
    rw [(htables _ s hs).1] at htable hr
    have htable : tk.1 = tk'.1 := htable
    exact mem_scanCatalog.mpr ⟨tk, htk, r, rfl, .inl ⟨s, htable ▸ hs, hr⟩⟩
  · intro tk htk s hs hfresh r hr
    have hpath : s.path ∈ livePaths tables := mem_livePaths.mpr ⟨tk, htk, s, hs, rfl⟩
    have hfolded : s.path ∈ cache.folded := by
      by_contra hnot
      exact hfresh (mem_filter.mpr ⟨hpath, decide_eq_true hnot⟩)
    apply h.complete _ hfolded
    rw [(htables _ s hs).1]
    exact ⟨tk, htk, rfl, r, hr, rfl⟩

variable {fresh : List ℕ} {all : List CatalogEntry}

/-- A call answers with the catalog of its snapshot. -/
theorem answer_eq (h : CallJustified content next (.decided tables fresh all)) :
    sortedEntries (all ++ scanFresh tables fresh ++ scanBuffers tables) = catalogOf tables := by
  obtain ⟨-, -, hsound, hcomplete⟩ := h
  apply sortedEntries_congr
  intro e
  rw [mem_append, mem_append]
  constructor
  · rintro ((hall | hfresh) | hbuffers)
    · exact hsound e hall
    · obtain ⟨_, tk, htk, r, rfl, hr⟩ := mem_scanFresh.mp hfresh
      rcases hr with ⟨s, hs, _, hr⟩ | ⟨_, hr⟩
      · exact mem_scanCatalog.mpr ⟨tk, htk, r, rfl, .inl ⟨s, hs, hr⟩⟩
      · exact mem_scanCatalog.mpr ⟨tk, htk, r, rfl, .inr hr⟩
    · obtain ⟨tk, htk, r, hr, rfl⟩ := mem_scanBuffers.mp hbuffers
      exact mem_scanCatalog.mpr ⟨tk, htk, r, rfl, .inr hr⟩
  · intro he
    obtain ⟨tk, htk, r, rfl, hr⟩ := mem_scanCatalog.mp he
    rcases hr with ⟨s, hs, hr⟩ | hr
    · by_cases hfresh : s.path ∈ fresh
      · exact .inl (.inr (mem_scanFresh.mpr
          ⟨ne_nil_of_mem hfresh, tk, htk, r, rfl, .inl ⟨s, hs, hfresh, hr⟩⟩))
      · exact .inl (.inl (hcomplete tk htk s hs hfresh r hr))
    · exact .inr (mem_scanBuffers.mpr ⟨tk, htk, r, hr, rfl⟩)

/-- A fold keeps the cache justified, if the entries of the buffers it reads are cached. -/
theorem fold_justified (hcache : Justified content next cache)
    (h : CallJustified content next (.decided tables fresh all))
    (hbuffers : fresh = [] ∨ BuffersCached cache tables fresh) :
    Justified content next ⟨cache.folded ++ fresh.filter (fun p => p ∈ livePaths tables),
      cache.entries ++ scanFresh tables fresh⟩ := by
  obtain ⟨htables, hfresh, -, -⟩ := h
  have hmem : ∀ p, p ∈ cache.folded ++ fresh.filter (fun p => p ∈ livePaths tables) ↔
      p ∈ cache.folded ∨ p ∈ fresh := by
    intro p
    rw [mem_append, mem_filter, decide_eq_true_eq]
    exact or_congr_right ⟨fun hp => hp.1, fun hp => ⟨hp, hfresh p hp⟩⟩
  refine ⟨?_, ?_, ?_⟩
  · intro p hp
    rcases (hmem p).mp hp with hp | hp
    · exact hcache.bounded p hp
    · obtain ⟨tk, _, s, hs, rfl⟩ := mem_livePaths.mp (hfresh p hp)
      exact (htables _ s hs).2
  · intro e he
    have hold : e ∈ cache.entries → ∃ p ∈ cache.folded ++ fresh.filter (fun p => p ∈ livePaths tables),
        IsEntry (content p) e := by
      intro he
      obtain ⟨p, hp, hentry⟩ := hcache.sound e he
      exact ⟨p, (hmem p).mpr (.inl hp), hentry⟩
    rcases mem_append.mp he with he | he
    · exact hold he
    · obtain ⟨hne, tk, htk, r, rfl, hr⟩ := mem_scanFresh.mp he
      rcases hr with ⟨s, hs, hpath, hr⟩ | ⟨hnone, hr⟩
      · refine ⟨s.path, (hmem _).mpr (.inr hpath), ?_⟩
        rw [(htables _ s hs).1]
        exact ⟨tk, htk, rfl, r, hr, rfl⟩
      · exact hold ((hbuffers.resolve_left hne) tk htk hnone r hr)
  · intro p hp e hentry
    rcases (hmem p).mp hp with hp | hp
    · exact mem_append_left _ (hcache.complete p hp e hentry)
    · obtain ⟨tk', _, s, hs, rfl⟩ := mem_livePaths.mp (hfresh p hp)
      rw [(htables _ s hs).1] at hentry
      obtain ⟨tk, htk, htable, r, hr, rfl⟩ := hentry
      have htable : tk.1 = tk'.1 := htable
      exact mem_append_right _ (mem_scanFresh.mpr
        ⟨ne_nil_of_mem hp, tk, htk, r, rfl, .inl ⟨s, htable ▸ hs, hp, hr⟩⟩)

end

/-! ## Runs -/

/-- Operations of the storage keep the invariant. -/
theorem Inv.storage {w : World} (h : Inv w) {t : Table} {input : TableInput}
    (written : Option (List MetricRow))
    (hinput : ∀ s ∈ input.segments, s ∈ (w.tables t).segments ∨ written = some s.rows ∧ s.path = w.nextPath) :
    Inv { w with
      tables := update w.tables t input
      nextPath := if written = none then w.nextPath else w.nextPath + 1 } := by
  obtain ⟨hanswers, content, htables, hcache, hcalls⟩ := h
  refine ⟨hanswers, update content w.nextPath (t, written.getD []), ?_, ?_, ?_⟩
  all_goals
    have hcontent : ∀ p < w.nextPath,
        update content w.nextPath (t, written.getD []) p = content p :=
      fun p hp => update_of_ne hp.ne _ _
    have hnext : w.nextPath ≤ if written = none then w.nextPath else w.nextPath + 1 := by
      split
      · exact le_refl _
      · exact Nat.le_succ _
  · apply (htables.mono hcontent hnext).update
    intro s hs
    rcases hinput s hs with hold | ⟨hwritten, hpath⟩
    · exact (htables.mono hcontent hnext) t s hold
    · rw [hpath, hwritten, update_self, getD_some]
      refine ⟨rfl, ?_⟩
      rw [if_neg (by simp)]
      exact Nat.lt_succ_self _
  · exact hcache.mono hcontent hnext
  · intro c call hcall
    exact (hcalls c call hcall).mono hcontent hnext

/-- A call that moves on keeps the invariant. -/
theorem Inv.move {w : World} {content : ℕ → Table × List MetricRow}
    (hcalls : ∀ c call, w.calls c = some call → CallJustified content w.nextPath call) (c : ℕ)
    {moved : Option Call} (hmoved : ∀ call, moved = some call → CallJustified content w.nextPath call) :
    ∀ c' call, update w.calls c moved c' = some call → CallJustified content w.nextPath call := by
  intro c' call hcall
  by_cases hc : c' = c
  · rw [hc, update_self] at hcall
    exact hmoved call hcall
  · rw [update_of_ne hc] at hcall
    exact hcalls c' call hcall

theorem step_inv {w w' : World} {e : Event} (h : Inv w) (hok : FoldsSegments w e)
    (hstep : step w e = some w') : Inv w' := by
  cases e with
  | ingest t rows =>
    rw [← some.inj hstep]
    apply h.storage none
    exact fun s hs => .inl hs
  | sealTable t frozen =>
    unfold step at hstep
    dsimp only at hstep
    split at hstep
    · exact absurd hstep (by simp)
    · rw [← some.inj hstep]
      apply h.storage (some ((w.tables t).buffer.take frozen))
      intro s hs
      rcases mem_append.mp hs with hs | hs
      · exact .inl hs
      · rw [mem_singleton.mp hs]
        exact .inr ⟨rfl, rfl⟩
  | retain t dropped =>
    rw [← some.inj hstep]
    apply h.storage none
    exact fun s hs => .inl (mem_filter.mp hs).1
  | compact t inputs =>
    rw [← some.inj hstep]
    apply h.storage (some _)
    intro s hs
    rcases mem_append.mp hs with hs | hs
    · exact .inl (mem_filter.mp hs).1
    · rw [mem_singleton.mp hs]
      exact .inr ⟨rfl, rfl⟩
  | call c =>
    obtain ⟨hanswers, content, htables, hcache, hcalls⟩ := h
    unfold step at hstep
    dsimp only at hstep
    split at hstep
    · rw [← some.inj hstep]
      refine ⟨hanswers, content, htables, hcache, Inv.move hcalls c ?_⟩
      rintro call ⟨⟩
      exact htables
    · exact absurd hstep (by simp)
  | decide c =>
    obtain ⟨hanswers, content, htables, hcache, hcalls⟩ := h
    unfold step at hstep
    dsimp only at hstep
    split at hstep
    · rename_i tables hcall
      obtain ⟨hcleared, hlive⟩ := cleared_spec hcache (livePaths tables)
      rw [← some.inj hstep]
      refine ⟨hanswers, content, htables, hcleared, Inv.move hcalls c ?_⟩
      rintro call ⟨⟩
      exact decided_justified hcleared (hcalls c _ hcall) hlive
    · exact absurd hstep (by simp)
  | fold c =>
    obtain ⟨hanswers, content, htables, hcache, hcalls⟩ := h
    unfold step at hstep
    unfold FoldsSegments at hok
    dsimp only at hstep hok
    split at hstep
    · rename_i tables fresh all hcall
      rw [hcall] at hok
      have hjustified := hcalls c _ hcall
      rw [← some.inj hstep]
      refine ⟨?_, content, htables, fold_justified hcache hjustified hok, Inv.move hcalls c ?_⟩
      · intro a ha
        rcases mem_append.mp ha with ha | ha
        · exact hanswers a ha
        · rw [mem_singleton.mp ha]
          exact answer_eq hjustified
      · exact fun call hcall => absurd hcall (by simp)
    · exact absurd hstep (by simp)
  | fail c =>
    obtain ⟨hanswers, content, htables, hcache, hcalls⟩ := h
    unfold step at hstep
    dsimp only at hstep
    split at hstep
    · rw [← some.inj hstep]
      refine ⟨hanswers, content, htables, hcache, Inv.move hcalls c ?_⟩
      exact fun call hcall => absurd hcall (by simp)
    · exact absurd hstep (by simp)

theorem init_inv : Inv World.init := by
  refine ⟨fun a ha => absurd ha not_mem_nil, fun _ => (.logs, []), ?_, ?_, ?_⟩
  · exact fun t s hs => absurd hs not_mem_nil
  · refine ⟨?_, ?_, ?_⟩
    · exact fun p hp => absurd hp not_mem_nil
    · exact fun e he => absurd he not_mem_nil
    · exact fun p hp => absurd hp not_mem_nil
  · exact fun c call hcall => absurd hcall (by simp [World.init])

/-- In a run each answer is the catalog of the call's snapshot, if each fold of new segments finds the
entries of the buffers it reads in the cache. -/
theorem catalog_exact (es : List Event) (w : World) (hrun : run step World.init es = some w)
    (hfolds : Guarded step FoldsSegments World.init es) : ∀ a ∈ w.answers, a.2 = catalogOf a.1 :=
  (run_induction Inv (fun _ _ _ hinv hok hstep => step_inv hinv hok hstep) init_inv hfolds hrun).1

/-! ## A metric that is gone -/

def cpuRow : MetricRow := ⟨"cpu".toList, [], none⟩

def reqRow : MetricRow := ⟨"req".toList, [], none⟩

/-- A gauge is sealed and a sum is buffered when a call runs; the sum is sealed and dropped before the next
call. -/
def droppedSum : List Event :=
  [.ingest .metricsGauge [cpuRow], .sealTable .metricsGauge 1, .ingest .metricsSum [reqRow], .call 0, .decide 0,
    .fold 0, .sealTable .metricsSum 1, .retain .metricsSum [1], .call 1, .decide 1, .fold 1]

/-- The next call still has the sum. -/
theorem dropped_sum_stays :
    ∃ w, run step World.init droppedSum = some w ∧
      (w.answers.map Prod.snd)[1]? = some [cpuRow.entry "gauge".toList, reqRow.entry "sum".toList] ∧
      (w.answers.map fun a => catalogOf a.1)[1]? = some [cpuRow.entry "gauge".toList] :=
  ⟨_, rfl, by decide +kernel, by decide +kernel⟩

def memRow : MetricRow := ⟨"mem".toList, [], none⟩

/-- Two gauges are sealed one after the other, and a call runs. The first is ingested again, and stays buffered while
a sum is sealed and another call runs. Then the segment of the second gauge is dropped. -/
def droppedGauge : List Event :=
  [.ingest .metricsGauge [cpuRow, memRow], .sealTable .metricsGauge 1, .sealTable .metricsGauge 1, .call 0, .decide 0,
    .fold 0, .ingest .metricsGauge [cpuRow], .ingest .metricsSum [reqRow], .sealTable .metricsSum 1, .call 1,
    .decide 1, .fold 1, .retain .metricsGauge [1], .call 2, .decide 2, .fold 2]

/-- The last call no longer has the second gauge. -/
theorem catalog_exact_dropped :
    ∃ w, run step World.init droppedGauge = some w ∧ (∀ a ∈ w.answers, a.2 = catalogOf a.1) ∧
      w.answers.map Prod.snd =
        [[cpuRow.entry "gauge".toList, memRow.entry "gauge".toList],
          [cpuRow.entry "gauge".toList, memRow.entry "gauge".toList, reqRow.entry "sum".toList],
          [cpuRow.entry "gauge".toList, reqRow.entry "sum".toList]] := by
  obtain ⟨w, hw, hanswers⟩ : ∃ w, run step World.init droppedGauge = some w ∧ w.answers.map Prod.snd =
      [[cpuRow.entry "gauge".toList, memRow.entry "gauge".toList],
        [cpuRow.entry "gauge".toList, memRow.entry "gauge".toList, reqRow.entry "sum".toList],
        [cpuRow.entry "gauge".toList, reqRow.entry "sum".toList]] := ⟨_, rfl, by decide +kernel⟩
  refine ⟨w, hw, catalog_exact _ w hw ⟨trivial, trivial, trivial, trivial, trivial, .inr ?_, trivial, trivial, trivial,
    trivial, trivial, .inr ?_, trivial, trivial, trivial, .inr ?_, trivial⟩, hanswers⟩
  all_goals
    unfold BuffersCached
    decide +kernel

end Imbh.Metrics
