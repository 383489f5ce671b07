import Imbh.Segments.Store

/-!
# Operations that overlap

A compaction takes a copy of the lists, merges without the lock, and then reconciles the lists with what it produced.
Seals, `retain`, the commit of prepared rewrites and other compactions may have changed the lists by then.

* `rows_accounted` — the result for runs.
-/

namespace Imbh.Segments

open Lib List Option Function
open Storage (Table)

variable {D P : Type} {digestFile : List (TimedRow D) → ℕ} {call : ℕ} {left : List (Table × List SegmentRef)}
  {r : PendingRewrite P} {refs : List (Table × SegmentRef)} {snap : SegmentLists} {x : Rewrite D} {names : List Text}

/-! ## The shelf -/

/-- Who wrote a file. -/
inductive Writer
  | pass (call : ℕ)
  | sealed (call : ℕ)
  | record
  deriving DecidableEq

/-- The lists, which are also those of the manifest, and the files. The rest is kept by no code: every file that was
written with its writer, the names that were taken from the lists, the rows that were sealed, and those that the
retention dropped. -/
structure Shelf (D : Type) where
  listed : SegmentLists
  files : SegmentFiles D
  written : SegmentFiles D
  writer : Text → Writer
  retired : List Text
  sealedRows : Table → List (TimedRow D)
  droppedRows : Table → List (TimedRow D)

namespace Shelf

def empty : Shelf D where
  listed := fun _ => []
  files := fun _ => none
  written := fun _ => none
  writer := fun _ => .record
  retired := []
  sealedRows := fun _ => []
  droppedRows := fun _ => []

/-- A file is written. -/
def put (b : Shelf D) (path : Text) (w : Writer) (rows : List (TimedRow D)) : Shelf D :=
  { b with
    files := update b.files path (some rows)
    written := update b.written path (some rows)
    writer := update b.writer path w }

/-- Files are unlinked. -/
def discard (b : Shelf D) (doomed : List Text) (refused : Text → Bool) : Shelf D :=
  { b with files := unlink doomed refused b.files }

/-- The segments of a table are registered that a seal has written. -/
def register (b : Shelf D) (refs : List (Table × SegmentRef)) : Shelf D :=
  let added := fun t => (refs.filter fun r => r.1 = t).map Prod.snd
  { b with
    listed := fun t => b.listed t ++ added t
    sealedRows := fun t => b.sealedRows t ++ rowsOf b.written (added t) }

/-- The lists are reconciled with a pass. -/
def reconcile (b : Shelf D) (x : Rewrite D) : Shelf D :=
  { b with
    listed := fun t => reconcileSegments (b.listed t) (paths x.deferredDeletes) (x.produced t)
    retired := b.retired ++ paths x.deferredDeletes }

/-- Segments are dropped. -/
def drop (b : Shelf D) (names : List Text) : Shelf D :=
  { b with
    listed := fun t => (b.listed t).filter fun s => s.relativePath ∉ names
    retired := b.retired ++ names
    droppedRows := fun t => b.droppedRows t ++
      rowsOf b.written ((b.listed t).filter fun s => s.relativePath ∈ names) }

/-- The inputs of a record are swapped for its output. -/
def swap (b : Shelf D) (rec : PendingRewrite P) : Shelf D :=
  { b with
    listed := update b.listed rec.table (rec.swap (b.listed rec.table))
    retired := b.retired ++ rec.inputs }

end Shelf

/-! ## The operations -/

/-- Where a compaction is: at the groups that are left, or at unlinking what it has merged.
Source: `lib.rs` `Storage::compact_bounded` -/
inductive Compaction (D : Type)
  | merging (snap : SegmentLists) (left : List (Table × List SegmentRef)) (x : Rewrite D)
  | reclaiming (doomed : List Text)

/-- Where the commit of the records is: `after` has the files that are still to be unlinked for a record, and the
name of its file. Source: `lib.rs` `Storage::commit_pending` -/
structure Commit (P : Type) where
  livePromote : P
  left : List (Text × Option (PendingRewrite P))
  after : Option (List Text × Text)

/-- The database with the operations that are under way. -/
structure World (D P : Type) where
  base : Shelf D
  pending : PendingDir P
  passes : ℕ → Option (Compaction D)
  seals : ℕ → Option (List (Table × SegmentRef))
  preparing : ℕ → Option (Table × List SegmentRef)
  commit : Option (Commit P)

def World.empty : World D P where
  base := .empty
  pending := []
  passes := fun _ => none
  seals := fun _ => none
  preparing := fun _ => none
  commit := none

/-- The steps of the operations. A compaction is `snapshot`, a `group` for each of its groups, `reconcile` and
`reclaim`; a seal is a `sealFile` for each table, and `register`. -/
inductive Turn (D P : Type)
  | snapshot (call maxPartitions : ℕ)
  | group (call : ℕ) (lags : Text → Bool) (path : Text)
  | reconcile (call : ℕ)
  | reclaim (call : ℕ) (refused : Text → Bool)
  | sealFile (call : ℕ) (t : Table) (path : Text) (rows : List (TimedRow D))
  | register (call : ℕ)
  | sealFailed (call : ℕ)
  | retain (policy : RetentionPolicy) (now : ℤ) (size : Text → ℕ) (refused : Text → Bool)
  | prepareRead (job : ℕ) (t : Table) (group : List SegmentRef)
  | prepareWrite (job : ℕ) (path name : Text) (promote : P) (torn : Bool)
  | commitList (livePromote : P)
  | commitRecord
  | commitUnlink (refused : Text → Bool)
  | commitEnd

namespace World

/-- The steps of a compaction. Source: `lib.rs` `Storage::compact_bounded` -/
def compactStep (s : World D P) : Turn D P → Option (World D P)
  | .snapshot call maxPartitions =>
      match s.passes call with
      | none =>
          some { s with
            passes := update s.passes call
              (some (.merging s.base.listed (todo s.base.listed) (.start maxPartitions))) }
      | some _ => none
  | .group call lags path =>
      match s.passes call with
      | some (.merging snap ((t, group) :: left) x) =>
          let passed : World D P :=
            { s with passes := update s.passes call (some (.merging snap left (x.pass t group))) }
          if x.skips lags group then some passed
          else
            match readGroup s.base.files group with
            | none => some { s with passes := update s.passes call none }
            | some [] => some passed
            | some (r :: rows) =>
                let batch := concatAndSort (r :: rows)
                if s.base.written path = none then
                  some { s with
                    base := s.base.put path (.pass call) batch
                    passes := update s.passes call
                      (some (.merging snap left (x.write t group path batch))) }
                else none
      | _ => none
  | .reconcile call =>
      match s.passes call with
      | some (.merging _ [] x) =>
          some { s with
            base := s.base.reconcile x
            passes := update s.passes call (some (.reclaiming (paths x.deferredDeletes))) }
      | _ => none
  | .reclaim call refused =>
      match s.passes call with
      | some (.reclaiming doomed) =>
          some { s with
            base := s.base.discard doomed refused
            passes := update s.passes call none }
      | _ => none
  | _ => none

/-- The steps of a seal, and `retain`. Source: `lib.rs` `Storage::seal`, `Storage::retain` -/
def sealStep (s : World D P) : Turn D P → Option (World D P)
  | .sealFile call t path rows =>
      if rows ≠ [] ∧ s.base.written path = none then
        let batch := concatAndSort rows
        some { s with
          base := s.base.put path (.sealed call) batch
          seals := update s.seals call
            (some ((s.seals call).getD [] ++ [(t, writtenRef t path batch)])) }
      else none
  | .register call =>
      match s.seals call with
      | some refs =>
          some { s with
            base := s.base.register refs
            seals := update s.seals call none }
      | none => none
  | .sealFailed call => some { s with seals := update s.seals call none }
  | .retain policy now size refused =>
      let names := dropSet policy now size s.base.listed
      some { s with base := (s.base.drop names).discard names refused }
  | _ => none

/-- The steps of a preparer, which is another process. Source: `lib.rs` `prepare_pending` -/
def prepareStep (digestFile : List (TimedRow D) → ℕ) (s : World D P) : Turn D P → Option (World D P)
  | .prepareRead job t group =>
      if Store.isGroup (s.base.listed t) group then
        some { s with preparing := update s.preparing job (some (t, group)) }
      else none
  | .prepareWrite job path name promote torn =>
      match s.preparing job with
      | some (t, group) =>
          match readGroup s.base.files group with
          | none | some [] => some { s with preparing := update s.preparing job none }
          | some (r :: rows) =>
              let batch := concatAndSort (r :: rows)
              let record : PendingRewrite P :=
                { table := t, inputs := paths group, output := mergedRef path group batch,
                  outputDigest := digestFile batch, promote := promote }
              if s.base.written path = none then
                some { s with
                  base := s.base.put path .record batch
                  pending := Store.putRecord name (if torn then none else some record) s.pending
                  preparing := update s.preparing job none }
              else none
      | none => none
  | _ => none

/-- The steps of a commit. A record is looked at and swapped under the lock, and the files are unlinked without it.
Source: `lib.rs` `Storage::commit_pending` -/
def commitStep [DecidableEq P] (digestFile : List (TimedRow D) → ℕ) (s : World D P) :
    Turn D P → Option (World D P)
  | .commitList livePromote =>
      match s.commit with
      | none => some { s with commit := some ⟨livePromote, s.pending, none⟩ }
      | some _ => none
  | .commitRecord =>
      match s.commit with
      | some ⟨livePromote, (name, none) :: left, none⟩ =>
          some { s with commit := some ⟨livePromote, left, some ([], name)⟩ }
      | some ⟨livePromote, (name, some rec) :: left, none⟩ =>
          let current := s.base.listed rec.table
          if rec.admissible digestFile livePromote s.base.files current then
            some { s with
              base := s.base.swap rec
              commit := some ⟨livePromote, left,
                some (paths (current.filter fun seg => seg.relativePath ∈ rec.inputs), name)⟩ }
          else if rec.outputCommitted current then
            some { s with commit := some ⟨livePromote, left, some ([], name)⟩ }
          else some { s with commit := some ⟨livePromote, left, some ([rec.output.relativePath], name)⟩ }
      | _ => none
  | .commitUnlink refused =>
      match s.commit with
      | some ⟨livePromote, left, some (doomed, name)⟩ =>
          some { s with
            base := s.base.discard doomed refused
            pending := s.pending.filter fun e => e.1 ≠ name
            commit := some ⟨livePromote, left, none⟩ }
      | _ => none
  | .commitEnd =>
      match s.commit with
      | some ⟨_, [], none⟩ => some { s with commit := none }
      | _ => none
  | _ => none

def step [DecidableEq P] (digestFile : List (TimedRow D) → ℕ) (s : World D P) (e : Turn D P) :
    Option (World D P) :=
  match e with
  | .snapshot .. | .group .. | .reconcile _ | .reclaim .. => s.compactStep e
  | .sealFile .. | .register _ | .sealFailed _ | .retain .. => s.sealStep e
  | .prepareRead .. | .prepareWrite .. => s.prepareStep digestFile e
  | .commitList _ | .commitRecord | .commitUnlink _ | .commitEnd => s.commitStep digestFile e

end World

theorem World.step_cases [DecidableEq P] (digestFile : List (TimedRow D) → ℕ) (s : World D P) (e : Turn D P) :
    s.step digestFile e = s.compactStep e ∨ s.step digestFile e = s.sealStep e ∨
      s.step digestFile e = s.prepareStep digestFile e ∨ s.step digestFile e = s.commitStep digestFile e := by
  match e with
  | .snapshot .. | .group .. | .reconcile _ | .reclaim .. => exact .inl rfl
  | .sealFile .. | .register _ | .sealFailed _ | .retain .. => exact .inr (.inl rfl)
  | .prepareRead .. | .prepareWrite .. => exact .inr (.inr (.inl rfl))
  | .commitList _ | .commitRecord | .commitUnlink _ | .commitEnd => exact .inr (.inr (.inr rfl))

/-! ## What an operation leaves to the others -/

theorem rowsOf_congr {files files' : SegmentFiles D} {ss : List SegmentRef}
    (h : ∀ s ∈ ss, files' s.relativePath = files s.relativePath) : rowsOf files' ss = rowsOf files ss :=
  flatMap_congr fun s hs => by rw [h s hs]

namespace Shelf

variable {b b' : Shelf D} {os : List (Outcome D)}

/-- A file that is written and was never listed. -/
structure Transit (b : Shelf D) (w : Writer) (p : Text) : Prop where
  written : (b.written p).isSome
  writer : b.writer p = w
  file : w ≠ .record → (b.files p).isSome
  unretired : p ∉ b.retired
  unlisted : ∀ t, p ∉ paths (b.listed t)

/-- What holds of the shelf. -/
structure Ok (b : Shelf D) : Prop where
  distinct : Distinct b.listed
  there : ∀ t, ∀ s ∈ b.listed t, (b.files s.relativePath).isSome
  genuine : ∀ p rows, b.files p = some rows → b.written p = some rows
  live : ∀ t, ∀ s ∈ b.listed t, s.relativePath ∉ b.retired
  ever : ∀ p ∈ b.retired, (b.written p).isSome
  rows : ∀ t, (rowsOf b.written (b.listed t) ++ b.droppedRows t).Perm (b.sealedRows t)

/-- What an operation that lists the files of `names` leaves. -/
structure Frame (b b' : Shelf D) (names : List Text) : Prop where
  written : ∀ p rows, b.written p = some rows → b'.written p = some rows
  retired : ∀ p ∈ b.retired, p ∈ b'.retired
  listed : ∀ t, ∀ p ∈ paths (b.listed t), p ∈ paths (b'.listed t) ∨ p ∈ b'.retired
  transit : ∀ w p, p ∉ names → b.Transit w p → b'.Transit w p

theorem Frame.refl (b : Shelf D) : Frame b b [] where
  written _ _ h := h
  retired _ h := h
  listed _ _ h := .inl h
  transit _ _ _ h := h

theorem Ok.empty : (empty : Shelf D).Ok where
  distinct := ⟨fun _ => nodup_nil, fun hs => absurd hs not_mem_nil⟩
  there _ _ hs := absurd hs not_mem_nil
  genuine _ _ h := nomatch h
  live _ _ hs := absurd hs not_mem_nil
  ever _ h := absurd h not_mem_nil
  rows _ := Perm.refl _

theorem Ok.written_of_listed (h : b.Ok) {t : Table} {s : SegmentRef} (hs : s ∈ b.listed t) :
    (b.written s.relativePath).isSome := by
  obtain ⟨rows, hrows⟩ := isSome_iff_exists.mp (h.there t s hs)
  rw [h.genuine _ _ hrows]
  rfl

theorem Ok.rowsOf_files (h : b.Ok) (t : Table) : rowsOf b.files (b.listed t) = rowsOf b.written (b.listed t) := by
  apply rowsOf_congr
  intro s hs
  obtain ⟨rows, hrows⟩ := isSome_iff_exists.mp (h.there t s hs)
  rw [hrows, h.genuine _ _ hrows]

section put

theorem put_self (b : Shelf D) (path : Text) (w : Writer) (rows : List (TimedRow D)) :
    (b.put path w rows).files path = some rows ∧ (b.put path w rows).written path = some rows ∧
      (b.put path w rows).writer path = w :=
  ⟨update_self path _ b.files, update_self path _ b.written, update_self path _ b.writer⟩

theorem put_of_ne {path p : Text} (hne : p ≠ path) (w : Writer) (rows : List (TimedRow D)) :
    (b.put path w rows).files p = b.files p ∧ (b.put path w rows).written p = b.written p ∧
      (b.put path w rows).writer p = b.writer p :=
  ⟨update_of_ne hne _ b.files, update_of_ne hne _ b.written, update_of_ne hne _ b.writer⟩

theorem ne_fresh {path p : Text} (hfresh : b.written path = none) (hp : (b.written p).isSome) : p ≠ path := by
  rintro rfl
  rw [hfresh] at hp
  exact Bool.false_ne_true hp

variable (h : b.Ok) {path : Text} (hfresh : b.written path = none) (w : Writer) (rows : List (TimedRow D))
include h hfresh

theorem Ok.put : (b.put path w rows).Ok where
  distinct := h.distinct
  there t s hs := by
    rw [(put_of_ne (ne_fresh hfresh (h.written_of_listed hs)) w rows).1]
    exact h.there t s hs
  genuine p rows' hp := by
    by_cases heq : p = path
    · rw [heq, (b.put_self path w rows).1] at hp
      rw [heq, (b.put_self path w rows).2.1]
      exact hp
    · rw [(put_of_ne heq w rows).1] at hp
      rw [(put_of_ne heq w rows).2.1]
      exact h.genuine p rows' hp
  live := h.live
  ever p hp := by
    rw [(put_of_ne (ne_fresh hfresh (h.ever p hp)) w rows).2.1]
    exact h.ever p hp
  rows t := by
    have hsame : rowsOf (b.put path w rows).written (b.listed t) = rowsOf b.written (b.listed t) :=
      rowsOf_congr fun s hs => (put_of_ne (ne_fresh hfresh (h.written_of_listed hs)) w rows).2.1
    have hrows : (rowsOf (b.put path w rows).written (b.listed t) ++ b.droppedRows t).Perm (b.sealedRows t) := by
      rw [hsame]
      exact h.rows t
    exact hrows

omit h in
theorem put_frame : Frame b (b.put path w rows) [] where
  written p rows' hp := by
    rw [(put_of_ne (ne_fresh hfresh (isSome_iff_exists.mpr ⟨rows', hp⟩)) w rows).2.1]
    exact hp
  retired _ hp := hp
  listed _ _ hp := .inl hp
  transit w' p _ hp := by
    obtain ⟨hfiles, hwritten, hwriter⟩ := put_of_ne (ne_fresh hfresh hp.written) w rows
    refine ⟨?_, ?_, fun hw => ?_, hp.unretired, hp.unlisted⟩
    · rw [hwritten]
      exact hp.written
    · rw [hwriter]
      exact hp.writer
    · rw [hfiles]
      exact hp.file hw

/-- The new file is in transit. -/
theorem Ok.put_transit : (b.put path w rows).Transit w path where
  written := by
    rw [(b.put_self path w rows).2.1]
    rfl
  writer := (b.put_self path w rows).2.2
  file _ := by
    rw [(b.put_self path w rows).1]
    rfl
  unretired hp := ne_fresh hfresh (h.ever path hp) rfl
  unlisted t hp := by
    obtain ⟨s, hs, heq⟩ := mem_paths.mp hp
    exact ne_fresh hfresh (h.written_of_listed hs) heq

end put

section discard

variable (h : b.Ok) {doomed : List Text} (hdoomed : ∀ p ∈ doomed, p ∈ b.retired ∨ b.Transit .record p)
  (refused : Text → Bool)
include h hdoomed

theorem Ok.discard : (b.discard doomed refused).Ok where
  distinct := h.distinct
  there t s hs := by
    have hnot : s.relativePath ∉ doomed := by
      intro hp
      rcases hdoomed _ hp with hretired | htransit
      · exact h.live t s hs hretired
      · exact htransit.unlisted t (mem_paths_of_mem hs)
    have hsame : (b.discard doomed refused).files s.relativePath = b.files s.relativePath := unlink_of_not_mem hnot
    rw [hsame]
    exact h.there t s hs
  genuine p rows hp := h.genuine p rows (eq_some_of_unlink hp)
  live := h.live
  ever := h.ever
  rows := h.rows

omit h in
theorem discard_frame : Frame b (b.discard doomed refused) [] where
  written _ _ hp := hp
  retired _ hp := hp
  listed _ _ hp := .inl hp
  transit w p _ hp := by
    refine ⟨hp.written, hp.writer, fun hw => ?_, hp.unretired, hp.unlisted⟩
    have hnot : p ∉ doomed := by
      intro hmem
      rcases hdoomed p hmem with hretired | htransit
      · exact hp.unretired hretired
      · exact hw (hp.writer.symm.trans htransit.writer)
    have hsame : (b.discard doomed refused).files p = b.files p := unlink_of_not_mem hnot
    rw [hsame]
    exact hp.file hw

end discard

/-- The lists change: `gone` are taken from them, and `names` are new. -/
structure Relists (b b' : Shelf D) (gone names : List Text) : Prop where
  files : b'.files = b.files
  written : b'.written = b.written
  writer : b'.writer = b.writer
  retired : b'.retired = b.retired ++ gone
  distinct : Distinct b'.listed
  from_listed : ∀ t, ∀ s ∈ b'.listed t, (s ∈ b.listed t ∧ s.relativePath ∉ gone) ∨ s.relativePath ∈ names
  to_listed : ∀ t, ∀ s ∈ b.listed t, s ∈ b'.listed t ∨ s.relativePath ∈ gone
  were_listed : ∀ p ∈ gone, ∃ t, p ∈ paths (b.listed t)
  transit : ∀ p ∈ names, (∃ w, b.Transit w p) ∧ (b.files p).isSome
  rows : ∀ t, (rowsOf b.written (b'.listed t) ++ b'.droppedRows t).Perm (b'.sealedRows t)

section relists

variable {gone names : List Text} (hchange : Relists b b' gone names)
include hchange

theorem Ok.relists (h : b.Ok) : b'.Ok where
  distinct := hchange.distinct
  there t s hs := by
    rw [hchange.files]
    rcases hchange.from_listed t s hs with ⟨hs, -⟩ | hname
    · exact h.there t s hs
    · exact (hchange.transit _ hname).2
  genuine := by
    rw [hchange.files, hchange.written]
    exact h.genuine
  live t s hs := by
    rw [hchange.retired, mem_append, not_or]
    rcases hchange.from_listed t s hs with ⟨hs, hnot⟩ | hname
    · exact ⟨h.live t s hs, hnot⟩
    · obtain ⟨⟨w, htransit⟩, -⟩ := hchange.transit _ hname
      refine ⟨htransit.unretired, fun hgone => ?_⟩
      obtain ⟨t', hlisted⟩ := hchange.were_listed _ hgone
      exact htransit.unlisted t' hlisted
  ever p hp := by
    rw [hchange.retired] at hp
    rw [hchange.written]
    rcases mem_append.mp hp with hp | hp
    · exact h.ever p hp
    · obtain ⟨t, hlisted⟩ := hchange.were_listed p hp
      obtain ⟨s, hs, rfl⟩ := mem_paths.mp hlisted
      exact h.written_of_listed hs
  rows := by
    rw [hchange.written]
    exact hchange.rows

theorem Relists.frame : Frame b b' names where
  written p rows hp := by rwa [hchange.written]
  retired p hp := by
    rw [hchange.retired]
    exact mem_append_left _ hp
  listed t p hp := by
    obtain ⟨s, hs, rfl⟩ := mem_paths.mp hp
    rw [hchange.retired]
    rcases hchange.to_listed t s hs with hs | hgone
    · exact .inl (mem_paths_of_mem hs)
    · exact .inr (mem_append_right _ hgone)
  transit w p hname hp := by
    refine ⟨?_, ?_, fun hw => ?_, ?_, fun t hlisted => ?_⟩
    · rw [hchange.written]
      exact hp.written
    · rw [hchange.writer]
      exact hp.writer
    · rw [hchange.files]
      exact hp.file hw
    · rw [hchange.retired, mem_append, not_or]
      refine ⟨hp.unretired, fun hgone => ?_⟩
      obtain ⟨t, hlisted⟩ := hchange.were_listed p hgone
      exact hp.unlisted t hlisted
    · obtain ⟨s, hs, rfl⟩ := mem_paths.mp hlisted
      rcases hchange.from_listed t s hs with ⟨hs, -⟩ | hmem
      · exact hp.unlisted t (mem_paths_of_mem hs)
      · exact hname hmem

end relists

/-! ### Registering what a seal wrote -/

/-- The files of a seal that has not registered them yet. -/
structure SealOk (b : Shelf D) (call : ℕ) (refs : List (Table × SegmentRef)) : Prop where
  names : (refs.map fun r => r.2.relativePath).Nodup
  transit : ∀ r ∈ refs, b.Transit (.sealed call) r.2.relativePath

theorem mem_added {t : Table} {s : SegmentRef} : s ∈ (refs.filter fun r => r.1 = t).map Prod.snd ↔ (t, s) ∈ refs := by
  constructor
  · intro hs
    obtain ⟨r, hr, rfl⟩ := mem_map.mp hs
    obtain ⟨hr, ht⟩ := mem_filter.mp hr
    rwa [← of_decide_eq_true ht]
  · intro hs
    exact mem_map.mpr ⟨_, mem_filter.mpr ⟨hs, decide_eq_true rfl⟩, rfl⟩

theorem perm_append_right_comm {α : Type} (l m n : List α) : (l ++ m ++ n).Perm (l ++ n ++ m) := by
  rw [append_assoc, append_assoc]
  exact perm_append_comm.append_left l

theorem Ok.register (h : b.Ok) (hrefs : SealOk b call refs) :
    Relists b (b.register refs) [] (refs.map fun r => r.2.relativePath) where
  files := rfl
  written := rfl
  writer := rfl
  retired := (List.append_nil _).symm
  distinct := by
    have hnew {t t' : Table} {s s' : SegmentRef} (hs : s ∈ b.listed t) (hs' : (t', s') ∈ refs) :
        s.relativePath ≠ s'.relativePath := fun heq =>
      (hrefs.transit _ hs').unlisted t (heq ▸ mem_paths_of_mem hs)
    refine ⟨fun t => ?_, fun {t t' s s'} hs hs' heq => ?_⟩
    · have hadded : (paths ((refs.filter fun r => r.1 = t).map Prod.snd)).Nodup := by
        rw [paths, List.map_map]
        exact hrefs.names.sublist (List.filter_sublist.map _)
      change (paths (b.listed t ++ _)).Nodup
      rw [paths_append]
      refine (h.distinct.nodup t).append hadded fun p hp hp' => ?_
      obtain ⟨s, hs, rfl⟩ := mem_paths.mp hp
      obtain ⟨s', hs', heq⟩ := mem_paths.mp hp'
      exact hnew hs (mem_added.mp hs') heq.symm
    · rcases List.mem_append.mp hs with hs | hs
      · rcases List.mem_append.mp hs' with hs' | hs'
        · exact h.distinct.tables hs hs' heq
        · exact absurd heq (hnew hs (mem_added.mp hs'))
      · rcases List.mem_append.mp hs' with hs' | hs'
        · exact absurd heq.symm (hnew hs' (mem_added.mp hs))
        · exact (Prod.mk.inj (List.inj_on_of_nodup_map hrefs.names (mem_added.mp hs) (mem_added.mp hs') heq)).1
  from_listed t s hs := by
    rcases List.mem_append.mp hs with hs | hs
    · exact .inl ⟨hs, List.not_mem_nil⟩
    · exact .inr (List.mem_map_of_mem (mem_added.mp hs))
  to_listed t s hs := .inl (List.mem_append_left _ hs)
  were_listed _ hp := absurd hp List.not_mem_nil
  transit p hp := by
    obtain ⟨r, hr, rfl⟩ := List.mem_map.mp hp
    exact ⟨⟨_, hrefs.transit r hr⟩, (hrefs.transit r hr).file (by simp)⟩
  rows t := by
    change (rowsOf b.written (b.listed t ++ _) ++ b.droppedRows t).Perm (b.sealedRows t ++ _)
    rw [rowsOf_append]
    exact (perm_append_right_comm _ _ _).trans ((h.rows t).append_right _)

/-! ### Dropping segments -/

theorem rowsOf_perm (files : SegmentFiles D) {ss ss' : List SegmentRef} (h : ss.Perm ss') :
    (rowsOf files ss).Perm (rowsOf files ss') := h.flatMap_right _

/-- The rows of a list are those of the segments of some names, and of the others. -/
theorem rowsOf_split (files : SegmentFiles D) (ss : List SegmentRef) (names : List Text) :
    (rowsOf files (ss.filter fun s => s.relativePath ∉ names) ++
      rowsOf files (ss.filter fun s => s.relativePath ∈ names)).Perm (rowsOf files ss) := by
  rw [← rowsOf_append]
  apply rowsOf_perm
  apply perm_append_comm.trans
  simpa only [decide_not] using filter_append_perm (fun s : SegmentRef => s.relativePath ∈ names) ss

theorem Ok.drop (h : b.Ok) (hnames : ∀ p ∈ names, ∃ t, p ∈ paths (b.listed t)) :
    Relists b (b.drop names) names [] where
  files := rfl
  written := rfl
  writer := rfl
  retired := rfl
  distinct := h.distinct.mono fun _ => filter_sublist
  from_listed t s hs := by
    obtain ⟨hs, hnot⟩ := mem_filter.mp hs
    exact .inl ⟨hs, of_decide_eq_true hnot⟩
  to_listed t s hs := by
    by_cases hmem : s.relativePath ∈ names
    · exact .inr hmem
    · exact .inl (mem_filter.mpr ⟨hs, decide_eq_true hmem⟩)
  were_listed := hnames
  transit _ hp := absurd hp not_mem_nil
  rows t := by
    refine Perm.trans ?_ (h.rows t)
    change (rowsOf b.written ((b.listed t).filter _) ++ (b.droppedRows t ++ _)).Perm _
    rw [← append_assoc]
    exact (perm_append_right_comm _ _ _).trans ((rowsOf_split b.written (b.listed t) names).append_right _)

theorem listed_of_mem_dropSet {policy : RetentionPolicy} {now : ℤ} {size : Text → ℕ} {lists : SegmentLists} {p : Text}
    (h : p ∈ dropSet policy now size lists) : ∃ t, p ∈ paths (lists t) := by
  have hordered {s : SegmentRef} (hs : s ∈ oldestFirst lists) : ∃ t, s.relativePath ∈ paths (lists t) := by
    obtain ⟨t, hs⟩ := mem_oldestFirst.mp hs
    exact ⟨t, mem_paths_of_mem hs⟩
  rcases mem_append.mp h with h | h
  · obtain ⟨s, hs, rfl⟩ := mem_paths.mp h
    exact hordered (mem_of_mem_filter hs)
  · obtain ⟨s, hs, rfl⟩ := mem_paths.mp h
    exact hordered (mem_of_mem_filter ((overBudget_shortest policy size _).subset hs))

/-! ### Swapping the inputs of a record -/

/-- The output of a record has the rows of its inputs. Its file is in transit, or an input is retired. -/
structure RecordOk (b : Shelf D) (r : PendingRewrite P) : Prop where
  inputs : r.inputs ≠ [] ∧ r.inputs.Nodup
  written : ∀ i ∈ r.inputs, (b.written i).isSome
  rows : ∃ rows, b.written r.output.relativePath = some rows ∧
    rows.Perm (r.inputs.flatMap fun i => (b.written i).getD [])
  output : b.Transit .record r.output.relativePath ∨ ((∃ i ∈ r.inputs, i ∈ b.retired) ∧
    (r.output.relativePath ∈ paths (b.listed r.table) ∨ r.output.relativePath ∈ b.retired))

/-- A record that is admitted has its output in transit. -/
theorem RecordOk.transit [DecidableEq P] (h : b.Ok) (hr : RecordOk b r) {livePromote : P}
    (hadm : r.admissible digestFile livePromote b.files (b.listed r.table) = true) :
    b.Transit .record r.output.relativePath := by
  rcases hr.output with htransit | ⟨⟨i, hi, hretired⟩, -⟩
  · exact htransit
  · obtain ⟨s, hs, rfl⟩ := mem_paths.mp ((PendingRewrite.of_admissible hadm).1 i hi)
    exact absurd hretired (h.live _ s hs)

theorem Ok.swap [DecidableEq P] (h : b.Ok) (hr : RecordOk b r) {livePromote : P}
    (hadm : r.admissible digestFile livePromote b.files (b.listed r.table) = true) :
    Relists b (b.swap r) r.inputs [r.output.relativePath] := by
  obtain ⟨hinputs, houtput, rows, hfile, -⟩ := PendingRewrite.of_admissible hadm
  have htransit := hr.transit h hadm
  have hself : (b.swap r).listed r.table = r.swap (b.listed r.table) := update_self r.table _ b.listed
  have hother {t : Table} (ht : t ≠ r.table) : (b.swap r).listed t = b.listed t := update_of_ne ht _ b.listed
  have hfrom : ∀ t, ∀ s ∈ (b.swap r).listed t, (s ∈ b.listed t ∧ s.relativePath ∉ r.inputs) ∨
      t = r.table ∧ s = r.output := by
    intro t s hs
    by_cases ht : t = r.table
    · rw [ht, hself, PendingRewrite.swap] at hs
      rw [ht]
      rcases mem_append.mp hs with hs | hs
      · obtain ⟨hs, hnot⟩ := mem_filter.mp hs
        exact .inl ⟨hs, of_decide_eq_true hnot⟩
      · exact .inr ⟨rfl, mem_singleton.mp hs⟩
    · rw [hother ht] at hs
      refine .inl ⟨hs, fun hmem => ?_⟩
      obtain ⟨s', hs', heq⟩ := mem_paths.mp (hinputs _ hmem)
      exact ht (h.distinct.tables hs hs' heq.symm)
  refine ⟨rfl, rfl, rfl, rfl, ⟨fun t => ?_, fun {t t' s s'} hs hs' heq => ?_⟩, fun t s hs => ?_, fun t s hs => ?_,
    fun i hi => ⟨_, hinputs i hi⟩, fun p hp => ?_, fun t => ?_⟩
  · by_cases ht : t = r.table
    · rw [ht, hself]
      exact PendingRewrite.nodup_swap (h.distinct.nodup _) houtput
    · rw [hother ht]
      exact h.distinct.nodup t
  · rcases hfrom t s hs with ⟨hs, -⟩ | ⟨ht, rfl⟩
    · rcases hfrom t' s' hs' with ⟨hs', -⟩ | ⟨-, rfl⟩
      · exact h.distinct.tables hs hs' heq
      · exact absurd (heq ▸ mem_paths_of_mem hs) (htransit.unlisted t)
    · rcases hfrom t' s' hs' with ⟨hs', -⟩ | ⟨ht', -⟩
      · exact absurd (heq ▸ mem_paths_of_mem hs') (htransit.unlisted t')
      · exact ht.trans ht'.symm
  · rcases hfrom t s hs with hs | ⟨-, rfl⟩
    · exact .inl hs
    · exact .inr (mem_singleton_self _)
  · by_cases ht : t = r.table
    · rw [ht, hself]
      by_cases hmem : s.relativePath ∈ r.inputs
      · exact .inr hmem
      · exact .inl (mem_append_left _ (mem_filter.mpr ⟨ht ▸ hs, decide_eq_true hmem⟩))
    · rw [hother ht]
      exact .inl hs
  · rw [mem_singleton.mp hp]
    exact ⟨⟨_, htransit⟩, by rw [hfile]; rfl⟩
  · by_cases ht : t = r.table
    · obtain ⟨merged, hmerged, hrows⟩ := hr.rows
      have hpaths : (paths ((b.listed r.table).filter fun s => s.relativePath ∈ r.inputs)).Perm r.inputs := by
        rw [perm_ext_iff_of_nodup (nodup_filter (h.distinct.nodup _) _) hr.inputs.2]
        intro i
        constructor
        · intro hi
          obtain ⟨s, hs, rfl⟩ := mem_paths.mp hi
          exact of_decide_eq_true (mem_filter.mp hs).2
        · intro hi
          obtain ⟨s, hs, rfl⟩ := mem_paths.mp (hinputs i hi)
          exact mem_paths_of_mem (mem_filter.mpr ⟨hs, decide_eq_true hi⟩)
      have hconsumed : rowsOf b.written ((b.listed r.table).filter fun s => s.relativePath ∈ r.inputs) =
          (paths ((b.listed r.table).filter fun s => s.relativePath ∈ r.inputs)).flatMap fun i =>
            (b.written i).getD [] := by
        rw [paths, flatMap_map]
        rfl
      have hswap : (rowsOf b.written (r.swap (b.listed r.table))).Perm (rowsOf b.written (b.listed r.table)) := by
        refine Perm.trans ?_ (rowsOf_split b.written (b.listed r.table) r.inputs)
        rw [PendingRewrite.swap, rowsOf_append]
        apply Perm.append_left
        calc rowsOf b.written [r.output] = merged := by
              rw [rowsOf_cons, hmerged]
              exact append_nil merged
          _ |>.Perm (r.inputs.flatMap fun i => (b.written i).getD []) := hrows
          _ |>.Perm (rowsOf b.written ((b.listed r.table).filter fun s => s.relativePath ∈ r.inputs)) := by
              rw [hconsumed]
              exact (hpaths.flatMap_right _).symm
      rw [ht, hself]
      exact (hswap.append_right _).trans (h.rows r.table)
    · rw [hother ht]
      exact h.rows t

/-! ### Reconciling with a pass -/

/-- A pass that has come to some outcomes. -/
structure PassOk (b : Shelf D) (call : ℕ) (snap : SegmentLists) (left : List (Table × List SegmentRef))
    (x : Rewrite D) (os : List (Outcome D)) : Prop where
  traces : x.Traces os
  covered : os.map (fun o => (o.table, o.group)) ++ left = todo snap
  sound : ∀ o ∈ os, o.Sound b.written
  names : ((os.flatMap Outcome.written).map Prod.fst).Nodup
  transit : ∀ w ∈ os.flatMap Outcome.written, b.written w.1 = some w.2 ∧ b.Transit (.pass call) w.1
  nodup : ∀ t, (paths (snap t)).Nodup

theorem Ok.reconcile (h : b.Ok) (hpass : PassOk b call snap [] x os) (hmoved : ∀ t, ∀ s ∈ snap t, s ∈ b.listed t) :
    Relists b (b.reconcile x) (paths x.deferredDeletes) ((os.flatMap Outcome.written).map Prod.fst) := by
  have hcovered : Covered snap os := by
    have := hpass.covered
    rwa [append_nil] at this
  have hunlisted : ∀ p ∈ (os.flatMap Outcome.written).map Prod.fst, ∀ t, p ∉ paths (b.listed t) := by
    intro p hp
    obtain ⟨w, hw, rfl⟩ := mem_map.mp hp
    exact (hpass.transit w hw).2.unlisted
  have hlisted (t : Table) : (b.reconcile x).listed t =
      ((b.listed t).filter fun s => s.relativePath ∉ paths x.deferredDeletes) ++ ofTable t os Outcome.created :=
    reconcile_eq hcovered h.distinct hmoved hpass.nodup hunlisted hpass.names hpass.traces t
  have hcreated {t : Table} {s : SegmentRef} (hs : s ∈ ofTable t os Outcome.created) :
      ∃ o ∈ os, o.table = t ∧ s.relativePath ∈ o.written.map Prod.fst := by
    obtain ⟨o, ho, ht, hs⟩ := mem_ofTable.mp hs
    exact ⟨o, ho, ht, o.paths_created ▸ mem_paths_of_mem hs⟩
  have hname {t : Table} {s : SegmentRef} (hs : s ∈ ofTable t os Outcome.created) :
      s.relativePath ∈ (os.flatMap Outcome.written).map Prod.fst := by
    obtain ⟨o, ho, -, hs⟩ := hcreated hs
    obtain ⟨w, hw, heq⟩ := mem_map.mp hs
    exact mem_map.mpr ⟨w, mem_flatMap.mpr ⟨o, ho, hw⟩, heq⟩
  refine ⟨rfl, rfl, rfl, rfl, ⟨fun t => nodup_reconcileSegments (h.distinct.nodup t) _ _, fun {t t' s s'} hs hs' heq => ?_⟩,
    fun t s hs => ?_, fun t s hs => ?_, fun p hp => ?_, fun p hp => ?_, fun t => ?_⟩
  · rw [hlisted] at hs hs'
    rcases mem_append.mp hs with hs | hs
    · rcases mem_append.mp hs' with hs' | hs'
      · exact h.distinct.tables (mem_of_mem_filter hs) (mem_of_mem_filter hs') heq
      · exact absurd (heq ▸ mem_paths_of_mem (mem_of_mem_filter hs)) (hunlisted _ (hname hs') t)
    · rcases mem_append.mp hs' with hs' | hs'
      · exact absurd (heq ▸ mem_paths_of_mem (mem_of_mem_filter hs')) (hunlisted _ (hname hs) t')
      · obtain ⟨o, ho, htable, hw⟩ := hcreated hs
        obtain ⟨o', ho', htable', hw'⟩ := hcreated hs'
        rw [← htable, ← htable', eq_of_mem_written hpass.names ho ho' hw (heq ▸ hw')]
  · rw [hlisted] at hs
    rcases mem_append.mp hs with hs | hs
    · obtain ⟨hs, hnot⟩ := mem_filter.mp hs
      exact .inl ⟨hs, of_decide_eq_true hnot⟩
    · exact .inr (hname hs)
  · by_cases hmem : s.relativePath ∈ paths x.deferredDeletes
    · exact .inr hmem
    · rw [hlisted]
      exact .inl (mem_append_left _ (mem_filter.mpr ⟨hs, decide_eq_true hmem⟩))
  · obtain ⟨s, hs, rfl⟩ := mem_paths.mp hp
    rw [hpass.traces.deleted] at hs
    obtain ⟨o, ho, hs⟩ := mem_flatMap.mp hs
    exact ⟨o.table, mem_paths_of_mem (hmoved _ s (hcovered.mem_of_consumed ho hs))⟩
  · obtain ⟨w, hw, rfl⟩ := mem_map.mp hp
    exact ⟨⟨_, (hpass.transit w hw).2⟩, (hpass.transit w hw).2.file nofun⟩
  · have hrows : (rowsOf b.written ((b.reconcile x).listed t)).Perm (rowsOf b.written (b.listed t)) := by
      refine Perm.trans ?_ (rowsOf_split b.written (b.listed t) (paths x.deferredDeletes))
      rw [hlisted, rowsOf_append]
      apply Perm.append_left
      refine (rowsOf_created hpass.sound (fun _ _ hp => hp) (fun w hw => (hpass.transit w hw).1) t).trans ?_
      apply rowsOf_perm
      rw [hpass.traces.deleted]
      exact (filter_deleted_perm hcovered h.distinct hmoved hpass.nodup t).symm
    exact (hrows.append_right _).trans (h.rows t)

/-! ### The others -/

section others

variable {names : List Text} (hframe : Frame b b' names)
include hframe

theorem Frame.isSome {p : Text} (h : (b.written p).isSome) : b'.written p = b.written p := by
  obtain ⟨rows, hrows⟩ := isSome_iff_exists.mp h
  rw [hrows, hframe.written p rows hrows]

theorem PassOk.frame (h : PassOk b call snap left x os) (hnames : ∀ p ∈ names, b.writer p ≠ .pass call) :
    PassOk b' call snap left x os where
  traces := h.traces
  covered := h.covered
  sound o ho := by
    match o, h.sound o ho with
    | .passed _ _, _ => trivial
    | .merged _ g _ _, ⟨hall, hbatch, hne⟩ =>
      refine ⟨fun s hs => ?_, ?_, hne⟩
      · rw [hframe.isSome (hall s hs)]
        exact hall s hs
      · rw [rowsOf_congr fun s hs => hframe.isSome (hall s hs)]
        exact hbatch
  names := h.names
  transit w hw := by
    obtain ⟨hwritten, htransit⟩ := h.transit w hw
    exact ⟨hframe.written _ _ hwritten, hframe.transit _ _ (fun hmem => hnames _ hmem htransit.writer) htransit⟩
  nodup := h.nodup

theorem SealOk.frame (h : SealOk b call refs) (hnames : ∀ p ∈ names, b.writer p ≠ .sealed call) :
    SealOk b' call refs where
  names := h.names
  transit r hr := hframe.transit _ _ (fun hmem => hnames _ hmem (h.transit r hr).writer) (h.transit r hr)

theorem RecordOk.frame (h : RecordOk b r)
    (hnames : b.Transit .record r.output.relativePath → r.output.relativePath ∉ names) : RecordOk b' r where
  inputs := h.inputs
  written i hi := by
    rw [hframe.isSome (h.written i hi)]
    exact h.written i hi
  rows := by
    obtain ⟨rows, hwritten, hperm⟩ := h.rows
    refine ⟨rows, hframe.written _ _ hwritten, ?_⟩
    rwa [flatMap_congr fun i hi => by rw [hframe.isSome (h.written i hi)]]
  output := by
    rcases h.output with htransit | ⟨⟨i, hi, hretired⟩, hor⟩
    · exact .inl (hframe.transit _ _ (hnames htransit) htransit)
    · refine .inr ⟨⟨i, hi, hframe.retired i hretired⟩, ?_⟩
      rcases hor with hlisted | hretired
      · exact hframe.listed _ _ hlisted
      · exact .inr (hframe.retired _ hretired)

end others

/-- A record whose output is listed, with its inputs retired. -/
theorem RecordOk.swapped (h : RecordOk b r) : RecordOk (b.swap r) r := by
  obtain ⟨i, hi⟩ := exists_mem_of_ne_nil _ h.inputs.1
  refine ⟨h.inputs, h.written, h.rows, .inr ⟨⟨i, hi, mem_append_right _ hi⟩, .inl ?_⟩⟩
  have hself : (b.swap r).listed r.table = r.swap (b.listed r.table) := update_self r.table _ b.listed
  rw [hself, PendingRewrite.swap, paths_append]
  exact mem_append_right _ (mem_singleton_self _)

/-! ### The steps of a pass -/

theorem PassOk.start (h : b.Ok) (call maxPartitions : ℕ) :
    b.PassOk call b.listed (todo b.listed) (.start maxPartitions) [] where
  traces := Rewrite.traces_start maxPartitions
  covered := rfl
  sound _ ho := absurd ho not_mem_nil
  names := nodup_nil
  transit _ hw := absurd hw not_mem_nil
  nodup := h.distinct.nodup

theorem PassOk.pass {t : Table} {group : List SegmentRef} (h : b.PassOk call snap ((t, group) :: left) x os) :
    b.PassOk call snap left (x.pass t group) (os ++ [.passed t group]) where
  traces := h.traces.pass t group
  covered := by
    rw [map_append, append_assoc]
    exact h.covered
  sound o ho := by
    rcases mem_append.mp ho with ho | ho
    · exact h.sound o ho
    · rw [mem_singleton.mp ho]
      trivial
  names := by
    rw [flatMap_append, map_append]
    simpa [Outcome.written] using h.names
  transit w hw := by
    rw [flatMap_append] at hw
    simp only [flatMap_singleton, Outcome.written, append_nil] at hw
    exact h.transit w hw
  nodup := h.nodup

/-- A group is merged from its files, to a file that is in transit. -/
theorem PassOk.write (hok : b.Ok) {t : Table} {group : List SegmentRef}
    (h : b.PassOk call snap ((t, group) :: left) x os) {rows : List (TimedRow D)}
    (hread : readGroup b.files group = some rows) (hne : rows ≠ []) {path : Text} (hfresh : b.written path = none) :
    (b.put path (.pass call) (concatAndSort rows)).PassOk call snap left (x.write t group path (concatAndSort rows))
      (os ++ [.merged t group path (concatAndSort rows)]) := by
  have hframe := put_frame hfresh (.pass call) (concatAndSort rows)
  have hold := h.frame hframe fun _ hp => absurd hp not_mem_nil
  obtain ⟨hall, hrows⟩ := readGroup_eq_some.mp hread
  have hwritten : ∀ s ∈ group, (b.written s.relativePath).isSome ∧ b.files s.relativePath = b.written s.relativePath := by
    intro s hs
    obtain ⟨content, hcontent⟩ := isSome_iff_exists.mp (hall s hs)
    rw [hcontent, hok.genuine _ _ hcontent]
    exact ⟨rfl, rfl⟩
  refine ⟨h.traces.write t group path _, ?_, fun o ho => ?_, ?_, fun w hw => ?_, h.nodup⟩
  · rw [map_append, append_assoc]
    exact h.covered
  · rcases mem_append.mp ho with ho | ho
    · exact hold.sound o ho
    · rw [mem_singleton.mp ho]
      refine ⟨fun s hs => ?_, ?_, concatAndSort_ne_nil hne⟩
      · rw [hframe.isSome (hwritten s hs).1]
        exact (hwritten s hs).1
      · have hsame : rowsOf (b.put path (.pass call) (concatAndSort rows)).written group = rowsOf b.files group :=
          rowsOf_congr fun s hs => (hframe.isSome (hwritten s hs).1).trans (hwritten s hs).2.symm
        rw [hsame, ← hrows]
  · rw [flatMap_append, map_append]
    refine h.names.append (nodup_singleton _) fun p hp hp' => ?_
    obtain ⟨w, hw, rfl⟩ := mem_map.mp hp
    exact ne_fresh hfresh (h.transit w hw).2.written (mem_singleton.mp hp')
  · rw [flatMap_append] at hw
    rcases mem_append.mp hw with hw | hw
    · exact hold.transit w hw
    · have heq : w = (path, concatAndSort rows) := by
        simpa [Outcome.written] using hw
      rw [heq]
      exact ⟨(b.put_self path _ _).2.1, hok.put_transit hfresh _ _⟩

/-- The output of a record is written. -/
theorem RecordOk.isSome (h : RecordOk b r) : (b.written r.output.relativePath).isSome := by
  obtain ⟨rows, hwritten, -⟩ := h.rows
  rw [hwritten]
  rfl

/-- A record of a group that was rewritten. -/
theorem Ok.prepared (h : b.Ok) {path : Text} (hfresh : b.written path = none) {group : List SegmentRef}
    {rows : List (TimedRow D)} (hread : readGroup b.files group = some rows) (hne : group ≠ [])
    (hnodup : (paths group).Nodup) (digest : ℕ) (promote : P) (t : Table) :
    (b.put path .record (concatAndSort rows)).RecordOk
      { table := t, inputs := paths group, output := mergedRef path group (concatAndSort rows),
        outputDigest := digest, promote := promote } := by
  have hframe := put_frame hfresh .record (concatAndSort rows)
  obtain ⟨hall, hrows⟩ := readGroup_eq_some.mp hread
  have hwritten : ∀ s ∈ group, (b.written s.relativePath).isSome ∧ b.files s.relativePath = b.written s.relativePath := by
    intro s hs
    obtain ⟨content, hcontent⟩ := isSome_iff_exists.mp (hall s hs)
    rw [hcontent, h.genuine _ _ hcontent]
    exact ⟨rfl, rfl⟩
  refine ⟨⟨fun hnil => hne (map_eq_nil_iff.mp hnil), hnodup⟩, fun i hi => ?_, ⟨concatAndSort rows, ?_, ?_⟩,
    .inl (h.put_transit hfresh _ _)⟩
  · obtain ⟨s, hs, rfl⟩ := mem_paths.mp hi
    rw [hframe.isSome (hwritten s hs).1]
    exact (hwritten s hs).1
  · exact (b.put_self path _ _).2.1
  · refine (concatAndSort_perm rows).trans ?_
    have hsame : rowsOf (b.put path .record (concatAndSort rows)).written group = rowsOf b.files group :=
      rowsOf_congr fun s hs => (hframe.isSome (hwritten s hs).1).trans (hwritten s hs).2.symm
    have hpaths : ((paths group).flatMap fun i => ((b.put path .record (concatAndSort rows)).written i).getD []) =
        rowsOf (b.put path .record (concatAndSort rows)).written group := by
      rw [paths, flatMap_map]
      rfl
    exact Perm.of_eq (hrows.trans (hsame.symm.trans hpaths.symm))

end Shelf

/-! ## The invariant -/

namespace World

/-- The records that can be read, in the directory or in the hands of a commit. -/
def records (s : World D P) : List (PendingRewrite P) :=
  (s.pending ++ (s.commit.map Commit.left).getD []).filterMap Prod.snd

/-- What holds in every state of a run in which the reconciliations find the lists as they need them. -/
structure Inv (s : World D P) : Prop where
  base : s.base.Ok
  passes : ∀ call snap left x, s.passes call = some (.merging snap left x) →
    ∃ os, s.base.PassOk call snap left x os
  reclaims : ∀ call doomed, s.passes call = some (.reclaiming doomed) → ∀ p ∈ doomed, p ∈ s.base.retired
  seals : ∀ call refs, s.seals call = some refs → s.base.SealOk call refs
  preparing : ∀ job t group, s.preparing job = some (t, group) → group ≠ [] ∧ (paths group).Nodup
  records : ∀ r ∈ s.records, s.base.RecordOk r
  unique : ∀ r ∈ s.records, ∀ r' ∈ s.records, r.output.relativePath = r'.output.relativePath → r = r'
  finishing : ∀ commit doomed name, s.commit = some commit → commit.after = some (doomed, name) →
    ∀ p ∈ doomed, p ∈ s.base.retired ∨ s.base.Transit .record p

/-- Every segment of the copy of a pass that is reconciled is still listed. -/
def Unmoved (s : World D P) : Turn D P → Prop
  | .reconcile call => ∀ snap left x, s.passes call = some (.merging snap left x) →
      ∀ t, ∀ seg ∈ snap t, seg ∈ s.base.listed t
  | _ => True

variable {s s' : World D P} {e : Turn D P}

theorem Inv.empty : (empty : World D P).Inv where
  base := .empty
  passes _ _ _ _ h := nomatch h
  reclaims _ _ h := nomatch h
  seals _ _ h := nomatch h
  preparing _ _ _ h := nomatch h
  records _ h := absurd h not_mem_nil
  unique _ h := absurd h not_mem_nil
  finishing _ _ _ h := nomatch h

section frame

variable (h : s.Inv) {b' : Shelf D} {names : List Text} (hframe : Shelf.Frame s.base b' names) {w : Writer}
  (hnames : ∀ p ∈ names, s.base.writer p = w)
include h hframe

theorem Inv.reclaims_frame {doomed : List Text} (hat : s.passes call = some (.reclaiming doomed)) :
    ∀ p ∈ doomed, p ∈ b'.retired :=
  fun p hp => hframe.retired p (h.reclaims call doomed hat p hp)

include hnames

theorem Inv.passes_frame (hw : w ≠ .pass call) (hat : s.passes call = some (.merging snap left x)) :
    ∃ os, b'.PassOk call snap left x os := by
  obtain ⟨os, hpass⟩ := h.passes call snap left x hat
  exact ⟨os, hpass.frame hframe fun p hp heq => hw ((hnames p hp).symm.trans heq)⟩

theorem Inv.seals_frame (hw : w ≠ .sealed call) (hat : s.seals call = some refs) : b'.SealOk call refs :=
  (h.seals call refs hat).frame hframe fun p hp heq => hw ((hnames p hp).symm.trans heq)

theorem Inv.records_frame (hw : w ≠ .record) : ∀ r ∈ s.records, b'.RecordOk r := by
  intro r hr
  apply (h.records r hr).frame hframe
  exact fun htransit hp => hw ((hnames _ hp).symm.trans htransit.writer)

theorem Inv.finishing_frame (hw : w ≠ .record) {commit : Commit P} {doomed : List Text} {name : Text}
    (hcommit : s.commit = some commit) (hafter : commit.after = some (doomed, name)) :
    ∀ p ∈ doomed, p ∈ b'.retired ∨ b'.Transit .record p := by
  intro p hp
  rcases h.finishing commit doomed name hcommit hafter p hp with hretired | htransit
  · exact .inl (hframe.retired p hretired)
  · exact .inr (hframe.transit _ p (fun hmem => hw ((hnames p hmem).symm.trans htransit.writer)) htransit)

end frame

theorem of_update {α : Type} {f : ℕ → Option α} {i j : ℕ} {a : Option α} {v : α}
    (h : update f i a j = some v) : (j = i ∧ a = some v) ∨ (j ≠ i ∧ f j = some v) := by
  by_cases hj : j = i
  · rw [hj, update_self] at h
    exact .inl ⟨hj, h⟩
  · rw [update_of_ne hj] at h
    exact .inr ⟨hj, h⟩

/-- The shelf changes, and a pass. -/
theorem Inv.passes_update (h : s.Inv) {b' : Shelf D} (hok : b'.Ok) (hframe : Shelf.Frame s.base b' names)
    (hnames : ∀ p ∈ names, s.base.writer p = .pass call) {at' : Option (Compaction D)}
    (hpass : ∀ snap left x, at' = some (.merging snap left x) → ∃ os, b'.PassOk call snap left x os)
    (hreclaim : ∀ doomed, at' = some (.reclaiming doomed) → ∀ p ∈ doomed, p ∈ b'.retired) :
    ({ s with base := b', passes := update s.passes call at' } : World D P).Inv := by
  refine ⟨hok, fun c snap left x hat => ?_, fun c doomed hat => ?_, fun c refs hat => ?_, h.preparing, ?_, h.unique,
    fun commit doomed name hcommit hafter => ?_⟩
  · rcases of_update hat with ⟨rfl, hsome⟩ | ⟨hc, hat⟩
    · exact hpass snap left x hsome
    · exact h.passes_frame hframe hnames (fun heq => hc (Writer.pass.inj heq).symm) hat
  · rcases of_update hat with ⟨-, hsome⟩ | ⟨-, hat⟩
    · exact hreclaim doomed hsome
    · exact h.reclaims_frame hframe hat
  · exact h.seals_frame hframe hnames (fun heq => nomatch heq) hat
  · exact h.records_frame hframe hnames fun heq => nomatch heq
  · exact h.finishing_frame hframe hnames (fun heq => nomatch heq) hcommit hafter

/-- The shelf changes, and a seal. -/
theorem Inv.seals_update (h : s.Inv) {b' : Shelf D} (hok : b'.Ok) (hframe : Shelf.Frame s.base b' names)
    (hnames : ∀ p ∈ names, s.base.writer p = .sealed call) {at' : Option (List (Table × SegmentRef))}
    (hseal : ∀ refs, at' = some refs → b'.SealOk call refs) :
    ({ s with base := b', seals := update s.seals call at' } : World D P).Inv := by
  refine ⟨hok, fun c snap left x hat => ?_, fun c doomed hat => ?_, fun c refs hat => ?_, h.preparing, ?_, h.unique,
    fun commit doomed name hcommit hafter => ?_⟩
  · exact h.passes_frame hframe hnames (fun heq => nomatch heq) hat
  · exact h.reclaims_frame hframe hat
  · rcases of_update hat with ⟨rfl, hsome⟩ | ⟨hc, hat⟩
    · exact hseal refs hsome
    · exact h.seals_frame hframe hnames (fun heq => hc (Writer.sealed.inj heq).symm) hat
  · exact h.records_frame hframe hnames fun heq => nomatch heq
  · exact h.finishing_frame hframe hnames (fun heq => nomatch heq) hcommit hafter

/-- The shelf changes, and nothing new is listed. -/
theorem Inv.base_update (h : s.Inv) {b' : Shelf D} (hok : b'.Ok) (hframe : Shelf.Frame s.base b' []) :
    ({ s with base := b' } : World D P).Inv := by
  have hnone (w : Writer) : ∀ p ∈ ([] : List Text), s.base.writer p = w := fun _ hp => absurd hp not_mem_nil
  refine ⟨hok, ?_, ?_, ?_, h.preparing, ?_, h.unique, ?_⟩
  · intro c snap left x hat
    exact h.passes_frame hframe (hnone .record) (fun heq => nomatch heq) hat
  · intro c doomed hat
    exact h.reclaims_frame hframe hat
  · intro c refs hat
    exact h.seals_frame hframe (hnone .record) (fun heq => nomatch heq) hat
  · exact h.records_frame hframe (hnone (.pass 0)) fun heq => nomatch heq
  · intro commit doomed name hcommit hafter
    exact h.finishing_frame hframe (hnone (.pass 0)) (fun heq => nomatch heq) hcommit hafter

/-! ### The steps -/

/-- The steps of a compaction keep the invariant, where the lists have not moved under a reconciliation. -/
theorem Inv.compactStep (h : s.Inv) (hstep : s.compactStep e = some s') (hmoved : s.Unmoved e) : s'.Inv := by
  have hnil (call : ℕ) : ∀ p ∈ ([] : List Text), s.base.writer p = .pass call :=
    fun _ hp => absurd hp not_mem_nil
  match e with
  | .snapshot call maxPartitions =>
    rcases hat : s.passes call with _ | a
    · simp only [World.compactStep, hat, some.injEq] at hstep
      rw [← hstep]
      refine h.passes_update h.base (.refl _) (hnil call) (fun snap left x hsome => ?_) fun _ hsome => ?_
      · obtain ⟨rfl, rfl, rfl⟩ := Compaction.merging.inj (some.inj hsome)
        exact ⟨[], .start h.base call maxPartitions⟩
      · exact nomatch hsome
    · simp only [World.compactStep, hat, reduceCtorEq] at hstep
  | .group call lags path =>
    simp only [World.compactStep] at hstep
    split at hstep
    · rename_i snap t group left x hat
      obtain ⟨os, hpass⟩ := h.passes call snap _ x hat
      have hpassed : ({ s with
          passes := update s.passes call (some (.merging snap left (x.pass t group))) } : World D P).Inv := by
        refine h.passes_update h.base (.refl _) (hnil call) (fun snap' left' x' hsome => ?_) fun _ hsome => ?_
        · obtain ⟨rfl, rfl, rfl⟩ := Compaction.merging.inj (some.inj hsome)
          exact ⟨_, hpass.pass⟩
        · exact nomatch hsome
      split at hstep
      · exact some.inj hstep ▸ hpassed
      · split at hstep
        · rw [← some.inj hstep]
          exact h.passes_update h.base (.refl _) (hnil call) (fun _ _ _ hsome => nomatch hsome) fun _ hsome =>
            nomatch hsome
        · exact some.inj hstep ▸ hpassed
        · rename_i r rows hread
          split at hstep
          · rename_i hfresh
            rw [← some.inj hstep]
            refine h.passes_update (h.base.put hfresh _ _) (Shelf.put_frame hfresh _ _) (hnil call)
              (fun snap' left' x' hsome => ?_) fun _ hsome => ?_
            · obtain ⟨rfl, rfl, rfl⟩ := Compaction.merging.inj (some.inj hsome)
              exact ⟨_, hpass.write h.base hread (cons_ne_nil r rows) hfresh⟩
            · exact nomatch hsome
          · exact nomatch hstep
    · exact nomatch hstep
  | .reconcile call =>
    simp only [World.compactStep] at hstep
    split at hstep
    · rename_i snap x hat
      rw [← some.inj hstep]
      obtain ⟨os, hpass⟩ := h.passes call snap [] x hat
      have hchange := h.base.reconcile hpass (hmoved snap [] x hat)
      refine h.passes_update (h.base.relists hchange) hchange.frame (fun p hp => ?_)
        (fun _ _ _ hsome => nomatch hsome) fun doomed hsome p hp => ?_
      · obtain ⟨w, hw, rfl⟩ := mem_map.mp hp
        exact (hpass.transit w hw).2.writer
      · obtain rfl := Compaction.reclaiming.inj (some.inj hsome)
        exact mem_append_right _ hp
    · exact nomatch hstep
  | .reclaim call refused =>
    simp only [World.compactStep] at hstep
    split at hstep
    · rename_i doomed hat
      rw [← some.inj hstep]
      have hdoomed : ∀ p ∈ doomed, p ∈ s.base.retired ∨ s.base.Transit .record p :=
        fun p hp => .inl (h.reclaims call doomed hat p hp)
      exact h.passes_update (h.base.discard hdoomed refused) (Shelf.discard_frame hdoomed refused) (hnil call)
        (fun _ _ _ hsome => nomatch hsome) fun _ hsome => nomatch hsome
    · exact nomatch hstep
  | .sealFile .. | .register _ | .sealFailed _ | .retain .. | .prepareRead .. | .prepareWrite .. | .commitList _
  | .commitRecord | .commitUnlink _ | .commitEnd => exact nomatch hstep

/-- The steps of a seal and `retain` keep the invariant. -/
theorem Inv.sealStep (h : s.Inv) (hstep : s.sealStep e = some s') : s'.Inv := by
  match e with
  | .sealFile call t path rows =>
    simp only [World.sealStep] at hstep
    split at hstep
    · rename_i hguard
      obtain ⟨hne, hfresh⟩ := hguard
      rw [← some.inj hstep]
      have hframe := Shelf.put_frame hfresh (.sealed call) (concatAndSort rows)
      have hok := h.base.put hfresh (.sealed call) (concatAndSort rows)
      have hnew := h.base.put_transit hfresh (.sealed call) (concatAndSort rows)
      refine h.seals_update hok hframe (fun _ hp => absurd hp not_mem_nil) fun refs hsome => ?_
      obtain rfl := some.inj hsome
      rcases hat : s.seals call with _ | old
      · refine ⟨nodup_singleton _, fun r hr => ?_⟩
        rw [mem_singleton.mp hr]
        exact hnew
      · have hold := h.seals call old hat
        refine ⟨?_, fun r hr => ?_⟩
        · rw [getD_some, map_append]
          refine hold.names.append (nodup_singleton _) fun p hp hp' => ?_
          obtain ⟨r, hr, rfl⟩ := mem_map.mp hp
          exact Shelf.ne_fresh hfresh (hold.transit r hr).written (mem_singleton.mp hp')
        · rcases mem_append.mp hr with hr | hr
          · exact hframe.transit _ _ not_mem_nil (hold.transit r hr)
          · rw [mem_singleton.mp hr]
            exact hnew
    · exact nomatch hstep
  | .register call =>
    rcases hat : s.seals call with _ | refs
    · simp only [World.sealStep, hat, reduceCtorEq] at hstep
    · simp only [World.sealStep, hat, some.injEq] at hstep
      rw [← hstep]
      have hrefs := h.seals call refs hat
      have hchange := h.base.register hrefs
      refine h.seals_update (h.base.relists hchange) hchange.frame (fun p hp => ?_) fun _ hsome => nomatch hsome
      obtain ⟨r, hr, rfl⟩ := mem_map.mp hp
      exact (hrefs.transit r hr).writer
  | .sealFailed call =>
    rw [← some.inj hstep]
    exact h.seals_update h.base (.refl _) (fun _ hp => absurd hp not_mem_nil) fun _ hsome => nomatch hsome
  | .retain policy now size refused =>
    rw [← some.inj hstep]
    have hnames : ∀ p ∈ dropSet policy now size s.base.listed, ∃ t, p ∈ paths (s.base.listed t) :=
      fun p hp => Shelf.listed_of_mem_dropSet hp
    have hchange := h.base.drop hnames
    have hdropped := h.base_update (h.base.relists hchange) hchange.frame
    have hdoomed : ∀ p ∈ dropSet policy now size s.base.listed,
        p ∈ (s.base.drop (dropSet policy now size s.base.listed)).retired ∨
          (s.base.drop (dropSet policy now size s.base.listed)).Transit .record p :=
      fun p hp => .inl (mem_append_right _ hp)
    exact hdropped.base_update (hdropped.base.discard hdoomed refused) (Shelf.discard_frame hdoomed refused)
  | .snapshot .. | .group .. | .reconcile _ | .reclaim .. | .prepareRead .. | .prepareWrite .. | .commitList _
  | .commitRecord | .commitUnlink _ | .commitEnd => exact nomatch hstep

theorem mem_records : r ∈ s.records ↔
    ∃ name, (name, some r) ∈ s.pending ∨ (name, some r) ∈ (s.commit.map Commit.left).getD [] := by
  unfold records
  rw [mem_filterMap]
  constructor
  · rintro ⟨⟨name, content⟩, hmem, rfl⟩
    exact ⟨name, mem_append.mp hmem⟩
  · rintro ⟨name, hor⟩
    exact ⟨(name, some r), mem_append.mpr hor, rfl⟩

/-- The shelf changes, the records, and the commit. -/
theorem Inv.records_update (h : s.Inv) {b' : Shelf D} (hok : b'.Ok)
    (hframe : Shelf.Frame s.base b' names) (hnames : ∀ p ∈ names, s.base.writer p = .record) {pending : PendingDir P}
    {preparing : ℕ → Option (Table × List SegmentRef)} {commit : Option (Commit P)}
    (hpreparing : ∀ job t group, preparing job = some (t, group) → group ≠ [] ∧ (paths group).Nodup)
    (hrecords : ∀ r ∈ ({ s with pending := pending, commit := commit } : World D P).records, b'.RecordOk r)
    (hunique : ∀ r ∈ ({ s with pending := pending, commit := commit } : World D P).records,
      ∀ r' ∈ ({ s with pending := pending, commit := commit } : World D P).records,
        r.output.relativePath = r'.output.relativePath → r = r')
    (hfinishing : ∀ c doomed name, commit = some c → c.after = some (doomed, name) →
      ∀ p ∈ doomed, p ∈ b'.retired ∨ b'.Transit .record p) :
    ({ s with base := b', pending := pending, preparing := preparing, commit := commit } : World D P).Inv := by
  refine ⟨hok, fun c snap left x hat => ?_, fun c doomed hat => ?_, fun c refs hat => ?_, hpreparing, hrecords, hunique,
    hfinishing⟩
  · exact h.passes_frame hframe hnames (fun heq => nomatch heq) hat
  · exact h.reclaims_frame hframe hat
  · exact h.seals_frame hframe hnames (fun heq => nomatch heq) hat

/-- The steps of a preparer keep the invariant. -/
theorem Inv.prepareStep (h : s.Inv) (hstep : s.prepareStep digestFile e = some s') : s'.Inv := by
  have hfinishing (c : Commit P) (doomed : List Text) (name : Text) (hcommit : s.commit = some c)
      (hafter : c.after = some (doomed, name)) := h.finishing c doomed name hcommit hafter
  match e with
  | .prepareRead job t group =>
    simp only [World.prepareStep] at hstep
    split at hstep
    · rename_i hgroup
      have hgroup := of_decide_eq_true hgroup
      rw [← some.inj hstep]
      refine h.records_update h.base (.refl _) (fun _ hp => absurd hp not_mem_nil) (fun j t' g hat => ?_) h.records
        h.unique hfinishing
      rcases of_update hat with ⟨-, hsome⟩ | ⟨-, hat⟩
      · obtain ⟨rfl, rfl⟩ := Prod.mk.inj (some.inj hsome)
        refine ⟨ne_nil_of_mem_groupsBy hgroup, ?_⟩
        obtain ⟨day, -, rfl⟩ := mem_map.mp hgroup
        exact nodup_filter (h.base.distinct.nodup t) _
      · exact h.preparing j t' g hat
    · exact nomatch hstep
  | .prepareWrite job path name promote torn =>
    simp only [World.prepareStep] at hstep
    split at hstep
    · rename_i t group hat
      have hcleared : ∀ j t' g, update s.preparing job none j = some (t', g) → g ≠ [] ∧ (paths g).Nodup := by
        intro j t' g hj
        rcases of_update hj with ⟨-, hsome⟩ | ⟨-, hj⟩
        · exact nomatch hsome
        · exact h.preparing j t' g hj
      have hdropped : ({ s with preparing := update s.preparing job none } : World D P).Inv :=
        h.records_update h.base (.refl _) (fun _ hp => absurd hp not_mem_nil) hcleared h.records h.unique hfinishing
      split at hstep
      · exact some.inj hstep ▸ hdropped
      · exact some.inj hstep ▸ hdropped
      · rename_i r rows hread
        split at hstep
        · rename_i hfresh
          rw [← some.inj hstep]
          obtain ⟨hne, hnodup⟩ := h.preparing job t group hat
          have hframe := Shelf.put_frame hfresh .record (concatAndSort (r :: rows))
          have hok := h.base.put hfresh .record (concatAndSort (r :: rows))
          have hnew := h.base.prepared hfresh hread hne hnodup (digestFile (concatAndSort (r :: rows))) promote t
          have hmem {r' : PendingRewrite P} {job : PendingRewrite P}
              (hr' : r' ∈ ({ s with
                pending := Store.putRecord name (if torn then none else some job) s.pending } : World D P).records) :
              r' = job ∨ r' ∈ s.records := by
            obtain ⟨name', hor⟩ := mem_records.mp hr'
            rcases hor with hpending | hleft
            · rcases Store.mem_putRecord hpending with heq | hold
              · have hjob := (Prod.mk.inj heq).2
                split at hjob
                · exact nomatch hjob
                · exact .inl (some.inj hjob)
              · exact .inr (mem_records.mpr ⟨name', .inl hold⟩)
            · exact .inr (mem_records.mpr ⟨name', .inr hleft⟩)
          have hold {r' : PendingRewrite P} (hr' : r' ∈ s.records) : r'.output.relativePath ≠ path :=
            Shelf.ne_fresh hfresh (h.records r' hr').isSome
          refine h.records_update hok hframe (fun _ hp => absurd hp not_mem_nil) hcleared (fun r' hr' => ?_)
            (fun r' hr' r'' hr'' heq => ?_) fun c doomed name hcommit hafter => ?_
          · rcases hmem hr' with rfl | hr'
            · exact hnew
            · exact (h.records r' hr').frame hframe fun _ => not_mem_nil
          · rcases hmem hr' with rfl | hr'
            · rcases hmem hr'' with rfl | hr''
              · rfl
              · exact absurd heq.symm (hold hr'')
            · rcases hmem hr'' with rfl | hr''
              · exact absurd heq (hold hr')
              · exact h.unique r' hr' r'' hr'' heq
          · exact h.finishing_frame hframe (w := .pass 0) (fun _ hp => absurd hp not_mem_nil)
              (fun heq => nomatch heq) hcommit hafter
        · exact nomatch hstep
    · exact nomatch hstep
  | .snapshot .. | .group .. | .reconcile _ | .reclaim .. | .sealFile .. | .register _ | .sealFailed _ | .retain ..
  | .commitList _ | .commitRecord | .commitUnlink _ | .commitEnd => exact nomatch hstep

/-- The steps of a commit keep the invariant. -/
theorem Inv.commitStep [DecidableEq P] (h : s.Inv) (hstep : s.commitStep digestFile e = some s') : s'.Inv := by
  have hnil : ∀ p ∈ ([] : List Text), s.base.writer p = .record := fun _ hp => absurd hp not_mem_nil
  -- a commit that has come further, with no more records than there were
  have hfurther {b' : Shelf D} (hok : b'.Ok) (hframe : Shelf.Frame s.base b' []) {pending : PendingDir P}
      {commit : Option (Commit P)}
      (hsub : ∀ r ∈ ({ s with pending := pending, commit := commit } : World D P).records, r ∈ s.records)
      (hfinishing : ∀ c doomed name, commit = some c → c.after = some (doomed, name) →
        ∀ p ∈ doomed, p ∈ b'.retired ∨ b'.Transit .record p) :
      ({ s with base := b', pending := pending, commit := commit } : World D P).Inv :=
    h.records_update hok hframe hnil h.preparing
      (fun r hr => (h.records r (hsub r hr)).frame hframe fun _ => not_mem_nil)
      (fun r hr r' hr' heq => h.unique r (hsub r hr) r' (hsub r' hr') heq) hfinishing
  match e with
  | .commitList livePromote =>
    rcases hat : s.commit with _ | c
    · simp only [World.commitStep, hat, some.injEq] at hstep
      rw [← hstep]
      refine hfurther h.base (.refl _) (fun r hr => ?_) fun c doomed name hcommit hafter => ?_
      · obtain ⟨name, hor⟩ := mem_records.mp hr
        exact mem_records.mpr ⟨name, .inl (hor.elim id id)⟩
      · obtain rfl := some.inj hcommit
        cases hafter
    · simp only [World.commitStep, hat, reduceCtorEq] at hstep
  | .commitRecord =>
    simp only [World.commitStep] at hstep
    split at hstep
    · rename_i livePromote name left hat
      rw [← some.inj hstep]
      refine hfurther h.base (.refl _) (fun r hr => ?_) fun c doomed name' hcommit hafter p hp => ?_
      · obtain ⟨name', hor⟩ := mem_records.mp hr
        refine mem_records.mpr ⟨name', hor.imp_right fun hleft => ?_⟩
        rw [hat]
        exact mem_cons_of_mem _ hleft
      · obtain rfl := some.inj hcommit
        obtain rfl := (Prod.mk.inj (some.inj hafter)).1
        exact absurd hp not_mem_nil
    · rename_i livePromote name r left hat
      have hmem : r ∈ s.records := mem_records.mpr ⟨name, .inr (by rw [hat]; exact mem_cons_self)⟩
      have hleft {after : Option (List Text × Text)} {r' : PendingRewrite P}
          (hr' : r' ∈ ({ s with commit := some ⟨livePromote, left, after⟩ } : World D P).records) : r' ∈ s.records := by
        obtain ⟨name', hor⟩ := mem_records.mp hr'
        refine mem_records.mpr ⟨name', hor.imp_right fun hleft => ?_⟩
        rw [hat]
        exact mem_cons_of_mem _ hleft
      split at hstep
      · rename_i hadm
        rw [← some.inj hstep]
        have hchange := h.base.swap (h.records r hmem) hadm
        have htransit := (h.records r hmem).transit h.base hadm
        refine h.records_update (h.base.relists hchange) hchange.frame (fun p hp => ?_) h.preparing (fun r' hr' => ?_)
          (fun r' hr' r'' hr'' heq => h.unique r' (hleft hr') r'' (hleft hr'') heq)
          fun c doomed name' hcommit hafter p hp => ?_
        · rw [mem_singleton.mp hp]
          exact htransit.writer
        · by_cases heq : r'.output.relativePath = r.output.relativePath
          · rw [h.unique r' (hleft hr') r hmem heq]
            exact (h.records r hmem).swapped
          · exact (h.records r' (hleft hr')).frame hchange.frame fun _ hname => heq (mem_singleton.mp hname)
        · obtain rfl := some.inj hcommit
          obtain rfl := (Prod.mk.inj (some.inj hafter)).1
          obtain ⟨seg, hseg, rfl⟩ := mem_paths.mp hp
          exact .inl (mem_append_right _ (of_decide_eq_true (mem_filter.mp hseg).2))
      · split at hstep
        · rw [← some.inj hstep]
          refine hfurther h.base (.refl _) (fun _ hr => hleft hr) fun c doomed name' hcommit hafter p hp => ?_
          obtain rfl := some.inj hcommit
          obtain rfl := (Prod.mk.inj (some.inj hafter)).1
          exact absurd hp not_mem_nil
        · rename_i huncommitted
          rw [← some.inj hstep]
          refine hfurther h.base (.refl _) (fun _ hr => hleft hr) fun c doomed name' hcommit hafter p hp => ?_
          obtain rfl := some.inj hcommit
          obtain rfl := (Prod.mk.inj (some.inj hafter)).1
          rw [mem_singleton.mp hp]
          rcases (h.records r hmem).output with htransit | ⟨-, hlisted | hretired⟩
          · exact .inr htransit
          · exact absurd (decide_eq_true hlisted) huncommitted
          · exact .inl hretired
    · cases hstep
  | .commitUnlink refused =>
    simp only [World.commitStep] at hstep
    split at hstep
    · rename_i livePromote left doomed name hat
      rw [← some.inj hstep]
      have hdoomed := h.finishing _ doomed name hat rfl
      refine hfurther (h.base.discard hdoomed refused) (Shelf.discard_frame hdoomed refused) (fun r hr => ?_)
        fun c doomed' name' hcommit hafter => ?_
      · obtain ⟨name', hor⟩ := mem_records.mp hr
        refine mem_records.mpr ⟨name', hor.imp mem_of_mem_filter fun hleft => ?_⟩
        rw [hat]
        exact hleft
      · obtain rfl := some.inj hcommit
        cases hafter
    · cases hstep
  | .commitEnd =>
    simp only [World.commitStep] at hstep
    split at hstep
    · rename_i livePromote hat
      rw [← some.inj hstep]
      refine hfurther h.base (.refl _) (fun r hr => ?_) fun _ _ _ hcommit => by cases hcommit
      obtain ⟨name', hor⟩ := mem_records.mp hr
      exact mem_records.mpr ⟨name', hor.imp_right fun hleft => absurd hleft not_mem_nil⟩
    · cases hstep
  | .snapshot .. | .group .. | .reconcile _ | .reclaim .. | .sealFile .. | .register _ | .sealFailed _ | .retain ..
  | .prepareRead .. | .prepareWrite .. => cases hstep

theorem Inv.step [DecidableEq P] (h : s.Inv) (hmoved : s.Unmoved e) (hstep : s.step digestFile e = some s') :
    s'.Inv := by
  rcases s.step_cases digestFile e with heq | heq | heq | heq
  · exact h.compactStep (heq ▸ hstep) hmoved
  · exact h.sealStep (heq ▸ hstep)
  · exact h.prepareStep (heq ▸ hstep)
  · exact h.commitStep (heq ▸ hstep)

end World

/-- **Overlapping operations account for every row**, when no segment of its copy was taken from the lists before a
compaction reconciles them: every listed segment has its file, and the rows of the listed segments and those that the
retention dropped are the rows that were sealed. -/
theorem rows_accounted [DecidableEq P] (digestFile : List (TimedRow D) → ℕ) (es : List (Turn D P)) (s : World D P)
    (hrun : run (World.step digestFile) .empty es = some s)
    (hmoved : Guarded (World.step digestFile) World.Unmoved .empty es) :
    (∀ t, ∀ seg ∈ s.base.listed t, (s.base.files seg.relativePath).isSome) ∧
      ∀ t, (rowsOf s.base.files (s.base.listed t) ++ s.base.droppedRows t).Perm (s.base.sealedRows t) := by
  have hinv : s.Inv := run_induction World.Inv (fun _ _ _ h hok hstep => h.step hok hstep) .empty hmoved hrun
  refine ⟨hinv.base.there, fun t => ?_⟩
  rw [hinv.base.rowsOf_files]
  exact hinv.base.rows t

/-! ### A compaction over others -/

def firstRow : TimedRow Unit := ⟨1, 0, (), by decide, by decide⟩

def secondRow : TimedRow Unit := ⟨2, 0, (), by decide, by decide⟩

/-- Two segments of one day. -/
def twoSealed : List (Turn Unit Unit) :=
  [.sealFile 0 .logs "logs/d/a".toList [firstRow], .register 0, .sealFile 0 .logs "logs/d/b".toList [secondRow],
    .register 0]

theorem rows_accounted_twoSealed :
    ∃ s, run (World.step fun _ => 0) .empty (twoSealed ++ [.snapshot 1 1,
        .group 1 (fun _ => false) "logs/d/m".toList, .reconcile 1, .reclaim 1 fun _ => false]) = some s ∧
      paths (s.base.listed .logs) = ["logs/d/m".toList] ∧
      (rowsOf s.base.files (s.base.listed .logs) ++ s.base.droppedRows .logs).Perm (s.base.sealedRows .logs) := by
  have hmoved : Guarded (World.step fun _ => 0) World.Unmoved (.empty : World Unit Unit) (twoSealed ++
      [.snapshot 1 1, .group 1 (fun _ => false) "logs/d/m".toList, .reconcile 1, .reclaim 1 fun _ => false]) := by
    refine ⟨trivial, trivial, trivial, trivial, trivial, trivial, fun snap left x hat t seg hseg => ?_, trivial, trivial⟩
    obtain ⟨rfl, -, -⟩ := Compaction.merging.inj (some.inj hat)
    exact hseg
  exact ⟨_, rfl, rfl, (rows_accounted _ _ _ rfl hmoved).2 .logs⟩

/-- A compaction lists a segment again that the retention has dropped; and two of them list the same rows twice. -/
theorem relisted_and_doubled :
    (∃ s, run (World.step fun _ => 0) (.empty : World Unit Unit) [.sealFile 0 .logs "logs/d/a".toList [firstRow],
        .register 0, .snapshot 1 1, .group 1 (fun _ => false) "logs/d/m".toList,
        .retain ⟨some 5, none⟩ 10 (fun _ => 0) (fun _ => false), .reconcile 1] = some s ∧
      ∃ seg ∈ s.base.listed .logs, s.base.files seg.relativePath = none) ∧
    ∃ s, run (World.step fun _ => 0) .empty (twoSealed ++ [.snapshot 1 1, .snapshot 2 1,
        .group 1 (fun _ => false) "logs/d/m".toList, .group 2 (fun _ => false) "logs/d/n".toList,
        .reconcile 1, .reconcile 2, .reclaim 1 fun _ => false, .reclaim 2 fun _ => false]) = some s ∧
      ¬(rowsOf s.base.files (s.base.listed .logs) ++ s.base.droppedRows .logs).Perm (s.base.sealedRows .logs) := by
  refine ⟨⟨_, rfl, _, mem_singleton_self _, rfl⟩, _, rfl, fun h => ?_⟩
  exact absurd h.length_eq (by decide)

end Imbh.Segments
