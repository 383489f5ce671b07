import Imbh.Lib.Keyed
import Imbh.Lib.Text
import Imbh.Segments.Bounds

/-!
# The segment lists and the segment files

A segment is a file and an entry in the list of its table. A file is written once, under a name that
was not given out before, and later unlinked. Here are the pieces from which sealing, compaction,
retention and the commit of a prepared rewrite are put together; what they do to the lists is stated
for each of them.
-/

namespace Imbh.Segments

open Lib List Option
open Storage (Table)

variable {D P : Type} {current produced ss : List SegmentRef}

/-- Source: `imbh-core` `SegmentRef` -/
structure SegmentRef extends Bounds where
  relativePath : Text
  rows : ℕ
  deriving DecidableEq

/-- The segments of each table.
Source: `lib.rs` `Inner`, its segment lists; `manifest.rs` `Manifest` -/
abbrev SegmentLists : Type := Table → List SegmentRef

/-- The segment files of a database, as their rows. -/
abbrev SegmentFiles (D : Type) : Type := Text → Option (List (TimedRow D))

def paths (ss : List SegmentRef) : List Text := ss.map (·.relativePath)

theorem mem_paths {p : Text} : p ∈ paths ss ↔ ∃ s ∈ ss, s.relativePath = p := mem_map

theorem mem_paths_of_mem {s : SegmentRef} (h : s ∈ ss) : s.relativePath ∈ paths ss := mem_map_of_mem h

@[simp] theorem paths_append (l m : List SegmentRef) : paths (l ++ m) = paths l ++ paths m :=
  map_append

/-- No path is listed twice, in one table or in two. -/
structure Distinct (lists : SegmentLists) : Prop where
  nodup : ∀ t, (paths (lists t)).Nodup
  tables : ∀ {t t' s s'}, s ∈ lists t → s' ∈ lists t' → s.relativePath = s'.relativePath → t = t'

theorem eq_of_path_eq (h : (paths ss).Nodup) {s s' : SegmentRef} (hs : s ∈ ss) (hs' : s' ∈ ss)
    (heq : s.relativePath = s'.relativePath) : s = s' :=
  inj_on_of_nodup_map h hs hs' heq

/-- Fewer segments are listed. -/
theorem Distinct.mono {lists lists' : SegmentLists} (h : Distinct lists)
    (hsub : ∀ t, (lists' t).Sublist (lists t)) : Distinct lists' where
  nodup t := (h.nodup t).sublist ((hsub t).map _)
  tables hs hs' heq := h.tables ((hsub _).subset hs) ((hsub _).subset hs') heq

/-! ## Writing a segment -/

/-- Source: `lib.rs` `concat_and_sort` -/
def concatAndSort (rows : List (TimedRow D)) : List (TimedRow D) :=
  rows.insertionSort fun a b => a.time ≤ b.time

theorem concatAndSort_perm (rows : List (TimedRow D)) : (concatAndSort rows).Perm rows :=
  perm_insertionSort _ _

theorem concatAndSort_ne_nil {rows : List (TimedRow D)} (h : rows ≠ []) : concatAndSort rows ≠ [] :=
  fun hnil => h (nil_perm.mp (hnil ▸ concatAndSort_perm rows))

theorem timeSorted_concatAndSort (rows : List (TimedRow D)) : TimeSorted (concatAndSort rows) := by
  have : Std.Total fun a b : TimedRow D => a.time ≤ b.time := ⟨fun a b => le_total a.time b.time⟩
  have : IsTrans (TimedRow D) fun a b => a.time ≤ b.time := ⟨fun _ _ _ => le_trans⟩
  exact pairwise_insertionSort _ _

/-- The entry of a sealed batch.
Source: `lib.rs` `write_logs_segment`, `write_spans_segment`, `write_metric_segment` -/
def writtenRef (t : Table) (path : Text) (batch : List (TimedRow D)) : SegmentRef :=
  { writtenBounds t batch with relativePath := path, rows := batch.length }

/-- The entry of a merged batch.
Source: `lib.rs` `compact_partition`, `rewrite_segment_set` -/
def mergedRef (path : Text) (group : List SegmentRef) (batch : List (TimedRow D)) : SegmentRef :=
  { mergedBounds (group.map (·.toBounds)) with relativePath := path, rows := batch.length }

/-- Source: `lib.rs` `day_of_path` -/
def dayOfPath (rel : Text) : Text := ((rel.splitOn '/')[1]?).getD []

/-- The segments of a table by their day.
Source: `lib.rs` `compact_partition`, `prepare_pending`, `by_day` -/
def byDay (segs : List SegmentRef) : List (List SegmentRef) :=
  groupsBy (· ≤ ·) (fun s => dayOfPath s.relativePath) segs

/-- The rows of a list of segments, one file after the other; a missing file is an error.
Source: `lib.rs` `compact_partition`, `rewrite_segment_set`, their calls of `read_parquet_file` -/
def readGroup (files : SegmentFiles D) : List SegmentRef → Option (List (TimedRow D))
  | [] => some []
  | s :: group => do
      let rows ← files s.relativePath
      let rest ← readGroup files group
      pure (rows ++ rest)

/-- The rows of the segments whose files are there. -/
def rowsOf (files : SegmentFiles D) (ss : List SegmentRef) : List (TimedRow D) :=
  ss.flatMap fun s => (files s.relativePath).getD []

theorem rowsOf_cons (files : SegmentFiles D) (s : SegmentRef) (ss : List SegmentRef) :
    rowsOf files (s :: ss) = (files s.relativePath).getD [] ++ rowsOf files ss := flatMap_cons

@[simp] theorem rowsOf_append (files : SegmentFiles D) (l m : List SegmentRef) :
    rowsOf files (l ++ m) = rowsOf files l ++ rowsOf files m := flatMap_append

variable {files : SegmentFiles D}

theorem readGroup_eq_some {group : List SegmentRef} {rows : List (TimedRow D)} :
    readGroup files group = some rows ↔
      (∀ s ∈ group, (files s.relativePath).isSome) ∧ rows = rowsOf files group := by
  induction group generalizing rows with
  | nil =>
    constructor
    · intro h
      exact ⟨fun s hs => absurd hs not_mem_nil, (some.inj h).symm⟩
    · rintro ⟨-, rfl⟩
      rfl
  | cons s group ih =>
    constructor
    · intro h
      obtain ⟨first, hfirst, h⟩ := bind_eq_some_iff.mp h
      obtain ⟨rest, hrest, h⟩ := bind_eq_some_iff.mp h
      obtain rfl := some.inj h
      obtain ⟨hall, rfl⟩ := ih.mp hrest
      constructor
      · intro s' hs'
        rcases mem_cons.mp hs' with rfl | hs'
        · rw [hfirst, isSome_some]
        · exact hall s' hs'
      · rw [rowsOf_cons, hfirst, getD_some]
    · rintro ⟨hall, rfl⟩
      obtain ⟨first, hfirst⟩ := isSome_iff_exists.mp (hall s mem_cons_self)
      have hrest := ih.mpr ⟨fun s' hs' => hall s' (mem_cons_of_mem _ hs'), rfl⟩
      rw [readGroup, hfirst, hrest, rowsOf_cons, hfirst]
      rfl

/-- Source: `lib.rs` `reclaim_segments`; the operating system may refuse to unlink a file -/
def unlink (doomed : List Text) (refused : Text → Bool) (files : SegmentFiles D) : SegmentFiles D :=
  fun p => if p ∈ doomed ∧ refused p = false then none else files p

theorem unlink_of_not_mem {doomed : List Text} {refused : Text → Bool} {p : Text} (h : p ∉ doomed) :
    unlink doomed refused files p = files p :=
  if_neg fun hp => h hp.1

theorem eq_some_of_unlink {doomed : List Text} {refused : Text → Bool} {p : Text} {rows : List (TimedRow D)}
    (h : unlink doomed refused files p = some rows) : files p = some rows := by
  unfold unlink at h
  split at h
  · exact absurd h (by simp)
  · exact h

/-! ## The reconciliation -/

/-- Append a segment unless one of its path is there. -/
def pushUnlessPresent (current : List SegmentRef) (p : SegmentRef) : List SegmentRef :=
  if p.relativePath ∈ paths current then current else current ++ [p]

/-- Source: `lib.rs` `reconcile_segments` -/
def reconcileSegments (current : List SegmentRef) (deleted : List Text)
    (produced : List SegmentRef) : List SegmentRef :=
  produced.foldl pushUnlessPresent (current.filter fun s => s.relativePath ∉ deleted)

theorem foldl_pushUnlessPresent (h : (paths produced).Nodup) :
    produced.foldl pushUnlessPresent current =
      current ++ produced.filter fun p => p.relativePath ∉ paths current := by
  induction produced generalizing current with
  | nil => simp
  | cons p produced ih =>
    obtain ⟨hp, hnodup⟩ : p.relativePath ∉ paths produced ∧ (paths produced).Nodup :=
      nodup_cons.mp h
    rw [foldl_cons, ih hnodup, pushUnlessPresent]
    split
    · rename_i hmem
      rw [filter_cons_of_neg (by simpa using hmem)]
    · rename_i hmem
      rw [filter_cons_of_pos (by simpa using hmem), append_assoc, singleton_append]
      congr 2
      apply filter_congr
      intro q hq
      have hne : q.relativePath ≠ p.relativePath := by
        intro heq
        apply hp
        rw [← heq]
        exact mem_paths_of_mem hq
      simp [paths, hne]

/-- **What a reconciliation leaves**: the list without what was rewritten, and what was produced and
is not in it. -/
theorem reconcileSegments_eq (current : List SegmentRef) (deleted : List Text) (h : (paths produced).Nodup) :
    reconcileSegments current deleted produced =
      (current.filter fun s => s.relativePath ∉ deleted) ++ produced.filter fun p =>
        p.relativePath ∉ paths (current.filter fun s => s.relativePath ∉ deleted) :=
  foldl_pushUnlessPresent h

theorem nodup_foldl_pushUnlessPresent (h : (paths current).Nodup) :
    (paths (produced.foldl pushUnlessPresent current)).Nodup := by
  induction produced generalizing current with
  | nil => exact h
  | cons p produced ih =>
    apply ih
    unfold pushUnlessPresent
    split
    · exact h
    · rename_i hp
      rw [paths_append]
      exact h.append (nodup_singleton _) (by simpa [paths] using hp)

theorem mem_foldl_pushUnlessPresent {s : SegmentRef} (h : s ∈ produced.foldl pushUnlessPresent current) :
    s ∈ current ∨ s ∈ produced := by
  induction produced generalizing current with
  | nil => exact Or.inl h
  | cons p produced ih =>
    rcases ih h with hs | hs
    · unfold pushUnlessPresent at hs
      split at hs
      · exact Or.inl hs
      · rcases mem_append.mp hs with hs | hs
        · exact Or.inl hs
        · rw [mem_singleton.mp hs]
          exact Or.inr mem_cons_self
    · exact Or.inr (mem_cons_of_mem _ hs)

theorem nodup_filter (h : (paths ss).Nodup) (keep : SegmentRef → Bool) :
    (paths (ss.filter keep)).Nodup := nodup_map_filter h keep

/-- A reconciled list repeats no path. -/
theorem nodup_reconcileSegments (h : (paths current).Nodup) (deleted : List Text) (produced : List SegmentRef) :
    (paths (reconcileSegments current deleted produced)).Nodup :=
  nodup_foldl_pushUnlessPresent (nodup_filter h _)

theorem mem_reconcileSegments {deleted : List Text} {s : SegmentRef}
    (h : s ∈ reconcileSegments current deleted produced) :
    (s ∈ current ∧ s.relativePath ∉ deleted) ∨ s ∈ produced := by
  rcases mem_foldl_pushUnlessPresent h with h | h
  · exact Or.inl (by simpa using mem_filter.mp h)
  · exact Or.inr h

/-! ## Prepared rewrites -/

/-- Source: `pending.rs` `PendingRewrite` -/
structure PendingRewrite (P : Type) where
  table : Table
  inputs : List Text
  output : SegmentRef
  outputDigest : ℕ
  promote : P

/-- The records of a database, by their file names in the order of these; one that cannot be read is
`none`.
Source: `pending.rs` `list` -/
abbrev PendingDir (P : Type) : Type := List (Text × Option (PendingRewrite P))

namespace PendingRewrite

/-- Source: `lib.rs` `Storage::commit_pending`, `inputs_present` -/
def inputsPresent (current : List SegmentRef) (rec : PendingRewrite P) : Bool :=
  rec.inputs.all fun i => i ∈ paths current

/-- Source: `lib.rs` `Storage::commit_pending`, `output_committed` -/
def outputCommitted (current : List SegmentRef) (rec : PendingRewrite P) : Bool :=
  rec.output.relativePath ∈ paths current

/-- Source: `lib.rs` `Storage::commit_pending`, `digest_ok` -/
def digestOk (digestFile : List (TimedRow D) → ℕ) (files : SegmentFiles D)
    (current : List SegmentRef) (rec : PendingRewrite P) : Bool :=
  !rec.outputCommitted current &&
    match files rec.output.relativePath with
    | none => false
    | some rows => digestFile rows = rec.outputDigest

/-- The record passes the validation.
Source: `lib.rs` `Storage::commit_pending` -/
def admissible [DecidableEq P] (digestFile : List (TimedRow D) → ℕ) (livePromote : P)
    (files : SegmentFiles D) (current : List SegmentRef) (rec : PendingRewrite P) : Bool :=
  rec.inputsPresent current && rec.promote = livePromote && rec.digestOk digestFile files current

/-- The list after the commit.
Source: `lib.rs` `Storage::commit_pending` -/
def swap (current : List SegmentRef) (rec : PendingRewrite P) : List SegmentRef :=
  (current.filter fun s => s.relativePath ∉ rec.inputs) ++ [rec.output]

/-- What the validation finds. -/
theorem of_admissible [DecidableEq P] {digestFile : List (TimedRow D) → ℕ} {livePromote : P} {rec : PendingRewrite P}
    (h : rec.admissible digestFile livePromote files current = true) :
    (∀ i ∈ rec.inputs, i ∈ paths current) ∧ rec.output.relativePath ∉ paths current ∧
      ∃ rows, files rec.output.relativePath = some rows ∧ digestFile rows = rec.outputDigest := by
  simp only [admissible, inputsPresent, digestOk, outputCommitted, Bool.and_eq_true,
    List.all_eq_true, decide_eq_true_eq, Bool.not_eq_true', decide_eq_false_iff_not] at h
  obtain ⟨⟨hinputs, -⟩, hout, hdigest⟩ := h
  refine ⟨hinputs, hout, ?_⟩
  rcases hfile : files rec.output.relativePath with _ | rows <;> rw [hfile] at hdigest
  · exact absurd hdigest (by simp)
  · exact ⟨rows, rfl, of_decide_eq_true hdigest⟩

/-- A commit repeats no path. -/
theorem nodup_swap (h : (paths current).Nodup) {rec : PendingRewrite P}
    (hout : rec.output.relativePath ∉ paths current) : (paths (rec.swap current)).Nodup := by
  rw [swap, paths_append]
  apply (nodup_filter h _).append (nodup_singleton _)
  intro p hp hp'
  rw [mem_singleton.mp hp'] at hp
  obtain ⟨s, hs, heq⟩ := mem_paths.mp hp
  apply hout
  rw [← show s.relativePath = rec.output.relativePath from heq]
  exact mem_paths_of_mem (mem_of_mem_filter hs)

end PendingRewrite

end Imbh.Segments
