import Imbh.Storage.Recovery
import Imbh.Wal.Advance

/-!
# A reader beside the writer

A reader process shares only files with the writer. `read_disk_snapshot_incremental` reads the
manifest, advances its cursor over the log, and reads the manifest again: with the same watermark it
returns, otherwise it starts over from what it has just read. The advance lists the segment files
and reads each at its own time. The system is a store whose process is up, with the reader's cursor
and how far its call is.

`begun` and `scanned` are kept by no code: the records acknowledged when the call began, and when
its last advance listed the files. Records are only added while the process is up, so that `scanned`
names one instant of the call.

* `snapshot_exactly_once` — the result; `overtaken_seal_read_twice` is what happens when seals
  register out of order.
-/

namespace Imbh.Storage

open Lib List Option
open WriteAhead (WalRecord Faults WalTailCursor OpenFiles Wal LiveInv CursorInv Scanning exec
  listSegments)

variable {D P : Type}

/-- What the call returns.
Source: `lib.rs` `DiskSnapshot` -/
structure DiskSnapshot (D : Type) where
  segments : Table → List (Segment D)
  watermark : ℕ
  pending : List WalRecord

/-- How far a call is: it has read the manifest and `tries` rounds are left, it still has to read
the files `rest`, or it has returned. -/
inductive Phase (D : Type)
  | idle
  | scan (segments : Table → List (Segment D)) (watermark tries : ℕ)
  | files (segments : Table → List (Segment D)) (watermark tries : ℕ) (rest : List ℕ)
  | done (snapshot : DiskSnapshot D)

/-- The files that an advance still has to read. -/
def Phase.rest : Phase D → List ℕ
  | .files _ _ _ rest => rest
  | _ => []

/-- Source: `lib.rs` `SNAPSHOT_RECHECK_TRIES` -/
def snapshotRecheckTries : ℕ := 8

/-- The store and the reader. -/
structure Reading (D P : Type) where
  store : Store D P
  cursor : WalTailCursor
  phase : Phase D
  begun : List WalRecord
  scanned : List WalRecord

/-- A step of the writer, or one of the reader's; `fail` is the I/O of a reader's step that
fails. -/
inductive ReaderEvent
  | writer (ev : StoreEvent)
  | start (fail : Bool)
  | list (fail : Bool)
  | read (fail : Bool)
  | recheck (fail : Bool)

/-- The events of a process that stays up. -/
def StoreEvent.live : StoreEvent → Bool
  | .open _ | .crash .. => false
  | _ => true

namespace Reading

/-- A reader that has read nothing yet. -/
def fresh (s : Store D P) : Reading D P := ⟨s, {}, .idle, [], []⟩

section system

variable (xxh3 : Bytes → UInt64) (decode : UInt8 → Bytes → Request D) (promote : P)

/-- The first manifest read. -/
def start (fail : Bool) (s : Reading D P) : Reading D P :=
  if fail then { s with phase := .idle }
  else
    { s with
      phase := .scan s.store.segments s.store.watermark snapshotRecheckTries
      begun := s.store.acked }

/-- The listing of an advance.
Source: `wal.rs` `WalTailCursor::advance`, before the `for` -/
def listed (fail : Bool) (segments : Table → List (Segment D)) (watermark tries : ℕ)
    (s : Reading D P) : Reading D P :=
  if fail then { s with phase := .idle }
  else
    let seqs := (listSegments s.store.wal.dir).map Prod.fst
    { s with
      cursor := s.cursor.retainListed seqs
      phase := .files segments watermark tries seqs
      scanned := s.store.acked }

/-- The read of one file, which ends the advance when the file does not scan to its end.
Source: `wal.rs` `WalTailCursor::advance`, the body of the `for` -/
def fileRead (fail : Bool) (segments : Table → List (Segment D)) (watermark tries q : ℕ)
    (rest : List ℕ) (s : Reading D P) : Reading D P :=
  if fail then { s with phase := .idle }
  else
    let (c, complete) := s.cursor.advanceSegment xxh3 s.store.wal.dir q
    { s with
      cursor := c
      phase := .files segments watermark tries (if complete then rest else []) }

/-- The second manifest read: prune and return, or go round again. -/
def rechecked (fail : Bool) (segments : Table → List (Segment D)) (watermark tries : ℕ)
    (s : Reading D P) : Reading D P :=
  if fail then { s with phase := .idle }
  else if s.store.watermark = watermark then
    let c := s.cursor.pruneSealed watermark
    { s with
      cursor := c
      phase := .done ⟨segments, watermark, c.frames.filter (watermark < ·.lsn)⟩ }
  else if tries ≤ 1 then { s with phase := .idle }
  else { s with phase := .scan s.store.segments s.store.watermark (tries - 1) }

/-- One event.
Source: `lib.rs` `read_disk_snapshot_incremental` -/
def step (s : Reading D P) : ReaderEvent → Option (Reading D P)
  | .writer ev =>
      if ev.live then (s.store.step xxh3 decode promote ev).map fun store => { s with store := store }
      else none
  | .start fail =>
      match s.phase with
      | .idle => some (s.start fail)
      | .done _ => some (s.start fail)
      | _ => none
  | .list fail =>
      match s.phase with
      | .scan segments watermark tries => some (s.listed fail segments watermark tries)
      | _ => none
  | .read fail =>
      match s.phase with
      | .files segments watermark tries (q :: rest) =>
          some (s.fileRead xxh3 fail segments watermark tries q rest)
      | _ => none
  | .recheck fail =>
      match s.phase with
      | .files segments watermark tries [] => some (s.rechecked fail segments watermark tries)
      | _ => none

end system

/-- The writer's registrations are in order, and its appends are made to a clean log. -/
def WriterOk (xxh3 : Bytes → UInt64) (s : Reading D P) : ReaderEvent → Prop
  | .writer ev => Store.RegisterOk s.store ev ∧ Store.LogOk xxh3 s.store ev
  | _ => True

end Reading

/-! ## The reads of an advance -/

section advance

variable (xxh3 : Bytes → UInt64) (decode : UInt8 → Bytes → Request D) (promote : P)

end advance

/-! ## The cursor and the log -/

section tracks

variable {xxh3 : Bytes → UInt64}

/-- The cursor of a reader beside an open log: it has scanned of the files what it should have, and
its advance still has to read `rest`. -/
structure Following (wal : WriteAhead.Sys) (w : Wal) (n : ℕ) (F : OpenFiles xxh3) (watermark : ℕ)
    (c : WalTailCursor) (rest : List ℕ) (bound : ℕ) : Prop where
  live : wal.live = some (w, n)
  inv : LiveInv wal w n F
  cursor : CursorInv xxh3 F.segs watermark F.cur.seq n c
  bound_le : bound ≤ n
  scanning : Scanning w F c rest bound

/-- The cursor follows the log, as far as its advance is. -/
def Tracks (xxh3 : Bytes → UInt64) (wal : WriteAhead.Sys) (watermark : ℕ) (c : WalTailCursor)
    (rest : List ℕ) (bound : ℕ) : Prop :=
  ∃ w n, ∃ F : OpenFiles xxh3, Following wal w n F watermark c rest bound

variable {wal wal' : WriteAhead.Sys} {watermark bound : ℕ} {c : WalTailCursor} {rest : List ℕ}

theorem tracks_default {w : Wal} {n : ℕ} (h : WriteAhead.Inv xxh3 wal)
    (hl : wal.live = some (w, n)) : Tracks xxh3 wal watermark {} [] 0 := by
  obtain ⟨F, hF⟩ := h.up hl
  exact ⟨w, n, F, hl, hF, WriteAhead.cursorInv_default _ _ _ _, Nat.zero_le n,
    WriteAhead.scanning_nil w F _⟩

/-- The advance is over. -/
theorem Tracks.stop (h : Tracks xxh3 wal watermark c rest bound) :
    Tracks xxh3 wal watermark c [] 0 := by
  obtain ⟨w, n, F, hF⟩ := h
  exact ⟨w, n, F, hF.live, hF.inv, hF.cursor, Nat.zero_le n, WriteAhead.scanning_nil w F c⟩

theorem Tracks.append {signal : UInt8} {payload : Bytes} {fs : Faults}
    (h : Tracks xxh3 wal watermark c rest bound) (hclean : WriteAhead.CleanDir xxh3 wal.dir)
    (hclosed : ∀ w n, wal.live = some (w, n) → ∀ p ∈ w.closed, p.1 ≠ w.seq)
    (hs : exec xxh3 wal (.append signal payload) fs = some wal') :
    Tracks xxh3 wal' watermark c rest bound := by
  obtain ⟨w, n, F, hl, hF, hc, hb, hscan⟩ := h
  have hne := hclosed w n hl
  obtain ⟨w', F', hl', hF', hg⟩ := WriteAhead.exec_append hF hl hclean hne hs
  -- the new frame has the next LSN, which the cursor has not seen
  have hlsn : ∀ r ∈ WriteAhead.appended fs ⟨n, signal, payload⟩, r.lsn = n := by
    intro r hr
    unfold WriteAhead.appended at hr
    split at hr
    · rw [mem_singleton.mp hr]
    · cases hr
  have hnew : ∀ r ∈ WriteAhead.appended fs ⟨n, signal, payload⟩, c.seen r = false := by
    intro r hr
    unfold WalTailCursor.seen
    rcases hlast : c.lastLsn with _ | l
    · rfl
    · have hlt := hc.below l hlast
      have heq := hlsn r hr
      simp only [any_some, decide_eq_false_iff_not]
      omega
  exact ⟨w', n + 1, F', hl', hF', hc.grew hg (Nat.le_succ n) hnew, hb.trans (Nat.le_succ n),
    hscan.grew hF.writer.seq hg (WriteAhead.exec_kept hl hl' hs) (.inr hne)
      fun r hr => (hlsn r hr).symm ▸ hb⟩

theorem Tracks.sync {fs : Faults} (h : Tracks xxh3 wal watermark c rest bound)
    (hs : exec xxh3 wal .sync fs = some wal') : Tracks xxh3 wal' watermark c rest bound := by
  obtain ⟨w, n, F, hl, hF, hc, hb, hscan⟩ := h
  obtain ⟨w', F', hl', hF', hg⟩ := WriteAhead.exec_sync hF hl hs
  exact ⟨w', n, F', hl', hF', hc.grew hg le_rfl (by simp), hb,
    hscan.grew hF.writer.seq hg (WriteAhead.exec_kept hl hl' hs) (.inl rfl) (by simp)⟩

theorem Tracks.reclaim {fs : Faults} {m : ℕ} (h : Tracks xxh3 wal watermark c rest bound)
    (hm : m ≤ watermark) (hs : exec xxh3 wal (.reclaim m) fs = some wal') :
    Tracks xxh3 wal' watermark c rest bound := by
  obtain ⟨w, n, F, hl, hF, hc, hb, hscan⟩ := h
  obtain ⟨w', F', hl', hF', ⟨F₁, hg, hshr⟩, -⟩ := WriteAhead.exec_reclaim hF hl hs
  have hgrew := hscan.grew hF.writer.seq hg (WriteAhead.exec_kept hl hl' hs) (.inl rfl) (by simp)
  exact ⟨w', n, F', hl', hF', (hc.grew hg le_rfl (by simp)).shrank hshr hm, hb,
    hgrew.shrank hshr.segs.subset⟩

/-- The watermark may rise. -/
theorem Tracks.raise {watermark' : ℕ} (h : Tracks xxh3 wal watermark c rest bound)
    (hle : watermark ≤ watermark') : Tracks xxh3 wal watermark' c rest bound := by
  obtain ⟨w, n, F, hl, hF, hc, hb, hscan⟩ := h
  exact ⟨w, n, F, hl, hF, hc.writer hle le_rfl le_rfl (fun g hg => .inl ⟨g, hg, rfl, rfl⟩)
    fun _ _ _ => Iff.rfl, hb, hscan⟩

/-! What the steps of the reader do. -/

theorem Tracks.listed (h : Tracks xxh3 wal watermark c rest bound) {n : ℕ} {w : Wal}
    (hl : wal.live = some (w, n)) :
    Tracks xxh3 wal watermark (c.retainListed ((listSegments wal.dir).map Prod.fst))
      ((listSegments wal.dir).map Prod.fst) n := by
  obtain ⟨w', n', F, hl', hF, hc, -, -⟩ := h
  obtain ⟨rfl, rfl⟩ : w' = w ∧ n' = n := by
    rw [hl] at hl'
    cases hl'
    exact ⟨rfl, rfl⟩
  refine ⟨w', n', F, hl', hF, hc.retainListed fun g hg => ?_, le_rfl,
    WriteAhead.scanning_listed hF.writer _ n'⟩
  rw [hF.writer.dir, WriteAhead.listSegments_entries F.readable_segs.ascending]
  exact mem_map.mpr ⟨g.entry xxh3, mem_map_of_mem hg, rfl⟩

theorem Tracks.read {q : ℕ} (h : Tracks xxh3 wal watermark c (q :: rest) bound) :
    Tracks xxh3 wal watermark (c.advanceSegment xxh3 wal.dir q).1
      (if (c.advanceSegment xxh3 wal.dir q).2 then rest else []) bound := by
  obtain ⟨w, n, F, hl, hF, hc, hb, hscan⟩ := h
  obtain ⟨hc', hscan'⟩ := hscan.read hc hF.below
  rw [← hF.writer.dir] at hc' hscan'
  exact ⟨w, n, F, hl, hF, hc', hb, hscan'⟩

theorem Tracks.prune {m : ℕ} (h : Tracks xxh3 wal watermark c rest bound) (hm : m ≤ watermark) :
    Tracks xxh3 wal watermark (c.pruneSealed m) [] 0 := by
  obtain ⟨w, n, F, hl, hF, hc, -, -⟩ := h
  exact ⟨w, n, F, hl, hF, hc.pruneSealed hm, Nat.zero_le n, WriteAhead.scanning_nil w F _⟩

/-- **When the files have been read**, the cursor has the promised frames above the watermark that
the log had when they were listed. -/
theorem Tracks.frames (h : Tracks xxh3 wal watermark c [] bound) :
    (c.frames.Pairwise fun a b => a.lsn < b.lsn) ∧
      ∀ r, r ∈ wal.must ∨ r ∈ wal.pending → watermark < r.lsn → r.lsn < bound →
        r ∈ c.frames := by
  obtain ⟨w, n, F, -, hF, hc, -, hscan⟩ := h
  refine ⟨hc.sorted, fun r hr hlt hb => ?_⟩
  have hmem : r ∈ WriteAhead.allFrames F.segs := by
    rcases hr with hr | hr
    · exact (hF.must r hr).mem
    · exact hF.pending r hr
  exact (hc.mem r hlt).mpr ⟨hmem, hscan.done r hmem hb⟩

end tracks

namespace Store

variable {xxh3 : Bytes → UInt64} {decode : UInt8 → Bytes → Request D} {promote : P}
  {s s' : Store D P} {e : Engine D P} {c : WalTailCursor}

/-! ## What a step of the writer does to the reader -/

/-- The manifest on disk stays as it is, or its watermark rises. -/
def ManifestMoved (s s' : Store D P) : Prop :=
  (s'.watermark = s.watermark ∧ s'.segments = s.segments) ∨ s.watermark < s'.watermark

/-- **A step of a process that stays up** adds acknowledged records at the end, moves the manifest
forward, and leaves a reader's cursor following the log. -/
theorem Up.step_reader {ev : StoreEvent} (h : Up xxh3 decode s e) (he : s.engine = some e)
    (hlive : ev.live = true) (hlog : LogOk xxh3 s ev)
    (hs : step xxh3 decode promote s ev = some s') :
    s'.engine ≠ none ∧ s.acked <+: s'.acked ∧ ManifestMoved s s' ∧
      ∀ rest bound, Tracks xxh3 s.wal s.watermark c rest bound →
        Tracks xxh3 s'.wal s'.watermark c rest bound := by
  have hseal : ∀ ev, s.sealStep ev = some s' → s'.engine ≠ none ∧ s.acked <+: s'.acked ∧
      ManifestMoved s s' ∧ ∀ rest bound, Tracks xxh3 s.wal s.watermark c rest bound →
        Tracks xxh3 s'.wal s'.watermark c rest bound := by
    intro ev hs
    simp only [Store.sealStep, he] at hs
    obtain ⟨e', -, rfl⟩ := map_eq_some_iff.mp hs
    exact ⟨by simp, prefix_refl _, .inl ⟨rfl, rfl⟩, fun _ _ hc => hc⟩
  cases ev with
  | «open» rotateBytes => cases hlive
  | crash cut keep drop => cases hlive
  | freeze k => exact hseal _ hs
  | write k ok path => exact hseal _ hs
  | ingest signal payload sync appendFaults syncFaults fails =>
      simp only [Store.step, Store.ingest, he] at hs
      rcases hl : Store.logged xxh3 s.wal signal payload sync appendFaults syncFaults with
        _ | ⟨wal, ok⟩ <;> simp only [hl, reduceCtorEq] at hs
      rw [← some.inj hs]
      refine ⟨by simp, prefix_append _ _, .inl ⟨rfl, rfl⟩, fun rest bound hc => ?_⟩
      unfold Store.logged at hl
      rcases happ : exec xxh3 s.wal (.append signal payload) appendFaults with _ | wal₁ <;>
        simp only [happ, reduceCtorEq] at hl
      have h₁ := hc.append hlog.1 hlog.2 happ
      split at hl
      · rcases hsync : exec xxh3 wal₁ .sync syncFaults with _ | wal₂ <;>
          simp only [hsync, reduceCtorEq] at hl
        cases hl
        exact h₁.sync hsync
      · cases hl
        exact h₁
  | syncWal fs =>
      obtain ⟨wal, hexec, rfl⟩ := map_eq_some_iff.mp hs
      exact ⟨by simp [he], prefix_refl _, .inl ⟨rfl, rfl⟩, fun _ _ hc => hc.sync hexec⟩
  | register k stored ok =>
      simp only [Store.step, Store.register, he] at hs
      split at hs
      · cases hs
      obtain ⟨e', hstep, rfl⟩ := map_eq_some_iff.mp hs
      obtain ⟨x, written, hk, hx, rfl⟩ := Engine.step_register hstep
      cases stored with
      | false => exact ⟨by simp, prefix_refl _, .inl ⟨rfl, rfl⟩, fun _ _ hc => hc⟩
      | true =>
          have hlt := h.lt_of_staged hk (Engine.staged_of_register hx)
          exact ⟨by simp, prefix_refl _, .inr hlt, fun _ _ hc => hc.raise hlt.le⟩
  | reclaim k fs =>
      simp only [Store.step, Store.reclaim, he] at hs
      rcases hk : e.seals k with _ | x <;> simp only [hk, reduceCtorEq] at hs
      rcases hexec : exec xxh3 s.wal (.reclaim x.watermark) fs with _ | wal <;>
        simp only [hexec, reduceCtorEq] at hs
      obtain ⟨e', hstep, rfl⟩ := map_eq_some_iff.mp hs
      obtain ⟨y, hy, hyst, -⟩ := Engine.step_reclaim hstep
      obtain rfl : x = y := some.inj (hk.symm.trans hy)
      exact ⟨by simp, prefix_refl _, .inl ⟨rfl, rfl⟩,
        fun _ _ hc => hc.reclaim (h.reclaiming k x hk hyst) hexec⟩

end Store

namespace Reading

variable {xxh3 : Bytes → UInt64} {decode : UInt8 → Bytes → Request D} {promote : P}
  {s s' : Reading D P} {segments : Table → List (Segment D)} {watermark : ℕ}

/-! ## The invariant -/

/-- A manifest that was read is the one on disk as long as the watermark is the same. -/
def ManifestRead (s : Reading D P) (segments : Table → List (Segment D)) (watermark : ℕ) : Prop :=
  watermark ≤ s.store.watermark ∧ (watermark = s.store.watermark → segments = s.store.segments)

/-- What a call that has returned promises: the watermark divides segments and pending records, and
the rows of every record acknowledged at one instant of the call are in one of them once. -/
structure ExactlyOnce (decode : UInt8 → Bytes → Request D) (s : Reading D P)
    (snap : DiskSnapshot D) : Prop where
  segments_le : ∀ t, ∀ row ∈ segmentRows (snap.segments t), row.lsn ≤ snap.watermark
  lt_pending : ∀ r ∈ snap.pending, snap.watermark < r.lsn
  once : ∀ r ∈ s.scanned, ∀ t,
    ((segmentRows (snap.segments t) ++
      snap.pending.flatMap fun x => Store.recordRows decode x t).filter (·.lsn = r.lsn)).Perm
      (Store.recordRows decode r t)
  during : s.begun <+: s.scanned ∧ s.scanned <+: s.store.acked

/-- What a call knows. -/
def PhaseInv (xxh3 : Bytes → UInt64) (decode : UInt8 → Bytes → Request D) (s : Reading D P) :
    Prop :=
  match s.phase with
  | .idle => True
  | .scan segments watermark _ => ManifestRead s segments watermark ∧ s.begun <+: s.store.acked
  | .files segments watermark _ rest => ManifestRead s segments watermark ∧
      s.begun <+: s.scanned ∧ s.scanned <+: s.store.acked ∧
      ∃ bound, Tracks xxh3 s.store.wal s.store.watermark s.cursor rest bound ∧
        ∀ r ∈ s.scanned, r.lsn < bound
  | .done snap => ExactlyOnce decode s snap

/-- The process is up, the cursor follows its log, and the call knows what it should. -/
structure ReaderInv (xxh3 : Bytes → UInt64) (decode : UInt8 → Bytes → Request D)
    (s : Reading D P) : Prop where
  up : s.store.engine ≠ none
  store : Store.Inv xxh3 decode s.store
  tracks : Tracks xxh3 s.store.wal s.store.watermark s.cursor [] 0
  phase : PhaseInv xxh3 decode s

theorem ReaderInv.engine (h : ReaderInv xxh3 decode s) :
    ∃ e, s.store.engine = some e ∧ Store.Up xxh3 decode s.store e := by
  obtain ⟨e, he⟩ := ne_none_iff_exists'.mp h.up
  have hup := h.store
  unfold Store.Inv at hup
  rw [he] at hup
  exact ⟨e, he, hup⟩

/-- A manifest that was read stays that, while the writer moves on. -/
theorem ManifestRead.moved {store : Store D P} (h : ManifestRead s segments watermark)
    (hmoved : Store.ManifestMoved s.store store) : ManifestRead { s with store := store } segments watermark := by
  rcases hmoved with ⟨hwm, hsegs⟩ | hlt
  · refine ⟨hwm ▸ h.1, fun heq => ?_⟩
    show segments = store.segments
    rw [hsegs]
    exact h.2 (heq.trans hwm)
  · refine ⟨h.1.trans hlt.le, fun heq => ?_⟩
    have : watermark = store.watermark := heq
    exact absurd h.1 (by omega)

/-- What a call knows is not changed by the writer. -/
theorem PhaseInv.writer {store : Store D P} (h : PhaseInv xxh3 decode s)
    (hacked : s.store.acked <+: store.acked) (hmoved : Store.ManifestMoved s.store store)
    (htracks : ∀ rest bound, Tracks xxh3 s.store.wal s.store.watermark s.cursor rest bound →
      Tracks xxh3 store.wal store.watermark s.cursor rest bound) :
    PhaseInv xxh3 decode { s with store := store } := by
  rcases hp : s.phase with _ | ⟨segments, watermark, tries⟩ | ⟨segments, watermark, tries, rest⟩ |
    ⟨snap⟩ <;> simp only [PhaseInv, hp] at h ⊢
  · exact ⟨h.1.moved hmoved, h.2.trans hacked⟩
  · obtain ⟨hread, hbegun, hscanned, bound, htrack, hlt⟩ := h
    exact ⟨hread.moved hmoved, hbegun, hscanned.trans hacked, bound, htracks rest bound htrack, hlt⟩
  · exact ⟨h.segments_le, h.lt_pending, h.once, h.during.1, h.during.2.trans hacked⟩

/-- A call that gives up, or has not begun. -/
theorem ReaderInv.idle (h : ReaderInv xxh3 decode s) :
    ReaderInv xxh3 decode { s with phase := .idle } :=
  ⟨h.up, h.store, h.tracks, trivial⟩

theorem ReaderInv.start (h : ReaderInv xxh3 decode s) (fail : Bool) :
    ReaderInv xxh3 decode (s.start fail) := by
  unfold Reading.start
  split
  · exact h.idle
  · exact ⟨h.up, h.store, h.tracks, ⟨le_rfl, fun _ => rfl⟩, prefix_refl _⟩

theorem ReaderInv.listed {tries : ℕ} (h : ReaderInv xxh3 decode s) (hp : s.phase = .scan segments watermark tries)
    (fail : Bool) : ReaderInv xxh3 decode (s.listed fail segments watermark tries) := by
  have hphase := h.phase
  simp only [PhaseInv, hp] at hphase
  obtain ⟨e, he, hup⟩ := h.engine
  obtain ⟨w, hl⟩ := hup.live
  unfold Reading.listed
  split
  · exact h.idle
  · have htracks := h.tracks.listed hl
    refine ⟨h.up, h.store, htracks.stop, hphase.1, hphase.2, prefix_refl _, _, htracks, ?_⟩
    exact fun r hr => (hup.acked r hr).1

theorem ReaderInv.fileRead {tries q : ℕ} {rest : List ℕ} (h : ReaderInv xxh3 decode s)
    (hp : s.phase = .files segments watermark tries (q :: rest)) (fail : Bool) :
    ReaderInv xxh3 decode (s.fileRead xxh3 fail segments watermark tries q rest) := by
  have hphase := h.phase
  simp only [PhaseInv, hp] at hphase
  obtain ⟨hread, hbegun, hscanned, bound, htracks, hlt⟩ := hphase
  unfold Reading.fileRead
  split
  · exact h.idle
  · have htracks := htracks.read
    exact ⟨h.up, h.store, htracks.stop, hread, hbegun, hscanned, bound, htracks, hlt⟩

/-- **The second manifest read.** With the watermark of the first one, what the call read is what
the writer's manifest and log hold now. -/
theorem ReaderInv.rechecked {tries : ℕ} (h : ReaderInv xxh3 decode s)
    (hp : s.phase = .files segments watermark tries []) (fail : Bool) :
    ReaderInv xxh3 decode (s.rechecked fail segments watermark tries) := by
  have hphase := h.phase
  simp only [PhaseInv, hp] at hphase
  obtain ⟨hread, hbegun, hscanned, bound, htracks, hlt⟩ := hphase
  obtain ⟨e, he, hup⟩ := h.engine
  unfold Reading.rechecked
  split
  · exact h.idle
  split
  · rename_i hwm
    obtain rfl : segments = s.store.segments := hread.2 hwm.symm
    obtain rfl := hwm
    obtain ⟨hpair, hmem⟩ := htracks.frames
    refine ⟨h.up, h.store, htracks.prune le_rfl, hup.listed_le, fun r hr => ?_, fun r hr t => ?_,
      hbegun, hscanned⟩
    · simpa using (mem_filter.mp hr).2
    · have hacked := hscanned.subset hr
      refine Store.rows_once (hup.listed_le t) (fun x hx => ?_) ((hpair.filter _).filter _)
        (fun hle => hup.listed hacked hle t) fun habove => ?_
      · simpa using (mem_filter.mp hx).2
      · have hframe := hmem r (hup.logged r hacked habove) habove (hlt r hr)
        simp only [WalTailCursor.pruneSealed, mem_filter, decide_eq_true_eq]
        exact ⟨⟨hframe, habove⟩, habove⟩
  split
  · exact h.idle
  · exact ⟨h.up, h.store, h.tracks, ⟨le_rfl, fun _ => rfl⟩, hbegun.trans hscanned⟩

/-- **The step lemma.** -/
theorem reader_step_inv {ev : ReaderEvent} (h : ReaderInv xxh3 decode s) (hok : WriterOk xxh3 s ev)
    (hs : s.step xxh3 decode promote ev = some s') : ReaderInv xxh3 decode s' := by
  cases ev with
  | writer ev =>
      simp only [step] at hs
      split at hs
      · rename_i hlive
        obtain ⟨store, hstep, rfl⟩ := map_eq_some_iff.mp hs
        obtain ⟨e, he, hup⟩ := h.engine
        obtain ⟨hne, hacked, hmoved, htracks⟩ := hup.step_reader he hlive hok.2 hstep
        exact ⟨hne, (Store.step_inv h.store hok.1 hok.2 hstep).1, htracks [] 0 h.tracks,
          h.phase.writer hacked hmoved htracks⟩
      · cases hs
  | start fail =>
      rcases hp : s.phase with _ | _ | _ | snap <;> simp only [step, hp, reduceCtorEq] at hs <;>
        rw [← some.inj hs]
      · exact h.start fail
      · exact h.start fail
  | list fail =>
      rcases hp : s.phase with _ | ⟨segments, watermark, tries⟩ | _ | _ <;>
        simp only [step, hp, reduceCtorEq] at hs
      rw [← some.inj hs]
      exact h.listed hp fail
  | read fail =>
      rcases hp : s.phase with _ | _ | ⟨segments, watermark, tries, _ | ⟨q, rest⟩⟩ | _ <;>
        simp only [step, hp, reduceCtorEq] at hs
      rw [← some.inj hs]
      exact h.fileRead hp fail
  | recheck fail =>
      rcases hp : s.phase with _ | _ | ⟨segments, watermark, tries, _ | ⟨q, rest⟩⟩ | _ <;>
        simp only [step, hp, reduceCtorEq] at hs
      rw [← some.inj hs]
      exact h.rechecked hp fail

/-- A reader that has read nothing yet, beside a process that is up. -/
theorem readerInv_fresh {store : Store D P} (h : Store.Inv xxh3 decode store)
    (hup : store.engine ≠ none) : ReaderInv xxh3 decode (fresh store) := by
  refine ⟨hup, h, ?_, trivial⟩
  obtain ⟨e, he⟩ := ne_none_iff_exists'.mp hup
  unfold Store.Inv at h
  rw [he] at h
  have h : Store.Up xxh3 decode store e := h
  obtain ⟨w, hl⟩ := h.live
  exact tracks_default h.wal hl

/-- **A reader's snapshot is exactly once.** Beside a writer whose registrations are in order and
whose appends are made to a clean log, whatever the interleaving: when a call returns, the watermark
divides what it returns, and every row acknowledged at one instant of the call is there once. -/
theorem snapshot_exactly_once (xxh3 : Bytes → UInt64) (decode : UInt8 → Bytes → Request D)
    (promote : P) (ss : List StoreEvent) (store : Store D P)
    (hstore : Guarded (Store.step xxh3 decode promote)
      (fun s ev => Store.RegisterOk s ev ∧ Store.LogOk xxh3 s ev) Store.init ss)
    (hopened : run (Store.step xxh3 decode promote) Store.init ss = some store)
    (hup : store.engine ≠ none) (es : List ReaderEvent) (s : Reading D P)
    (hok : Guarded (step xxh3 decode promote) (WriterOk xxh3) (fresh store) es)
    (hrun : run (step xxh3 decode promote) (fresh store) es = some s) (snap : DiskSnapshot D)
    (hdone : s.phase = .done snap) : ExactlyOnce decode s snap := by
  have hinv : Store.Inv xxh3 decode store := by
    refine run_induction (Store.Inv xxh3 decode) ?_ (Store.inv_init xxh3 decode) hstore hopened
    exact fun s ev s' hi hok hs => (Store.step_inv hi hok.1 hok.2 hs).1
  have hreader : ReaderInv xxh3 decode s := by
    refine run_induction (ReaderInv xxh3 decode) ?_ (readerInv_fresh hinv hup) hok hrun
    exact fun s ev s' hi hok hs => reader_step_inv hi hok hs
  have hphase := hreader.phase
  simp only [PhaseInv, hdone] at hphase
  exact hphase

/-- A first row is sealed while a call is under way, which goes round again, and a second row is
ingested between the listing and the read of the file. -/
def sealedDuringCall : List ReaderEvent :=
  [.writer Store.ingestOne, .writer (.freeze 0), .writer (.write 0 true fun _ => 0), .start false,
    .writer (.register 0 true true), .list false, .read false, .recheck false, .list false,
    .writer Store.ingestOne, .read false, .recheck false]

theorem snapshot_exactly_once_sealedDuringCall :
    ∃ (store : Store Unit Unit) (s : Reading Unit Unit) (snap : DiskSnapshot Unit),
      run (Store.step (fun _ => 0) Store.oneLogRow ()) Store.init [.open 1000] = some store ∧
        run (step (fun _ => 0) Store.oneLogRow ()) (fresh store) sealedDuringCall = some s ∧
        s.phase = .done snap ∧ snap.watermark = 1 ∧ snap.pending = [⟨2, 0, [7]⟩] ∧
        ExactlyOnce Store.oneLogRow s snap := by
  obtain ⟨store, s, snap, hopened, hrun, hdone, hwm, hpending⟩ :
      ∃ (store : Store Unit Unit) (s : Reading Unit Unit) (snap : DiskSnapshot Unit),
        run (Store.step (fun _ => 0) Store.oneLogRow ()) Store.init [.open 1000] = some store ∧
          run (step (fun _ => 0) Store.oneLogRow ()) (fresh store) sealedDuringCall = some s ∧
          s.phase = .done snap ∧ snap.watermark = 1 ∧ snap.pending = [⟨2, 0, [7]⟩] :=
    ⟨_, _, _, rfl, rfl, rfl, rfl, rfl⟩
  have hup : store.engine ≠ none := by
    cases hopened
    exact some_ne_none _
  have hok : Guarded (step (fun _ => 0) Store.oneLogRow ()) (WriterOk fun _ => 0) (fresh store)
      sealedDuringCall := by
    cases hopened
    refine ⟨⟨trivial, by decide +kernel, fun w n hl p hp => ?_⟩, ⟨trivial, trivial⟩,
      ⟨trivial, trivial⟩, trivial, ⟨?_, trivial⟩, trivial, trivial, trivial, trivial,
      ⟨trivial, by decide +kernel, fun w n hl p hp => ?_⟩, trivial, trivial, trivial⟩
    · cases hl
      exact absurd hp not_mem_nil
    · intro e x he hx
      cases he
      cases hx
      refine ⟨fun t row hrow => absurd hrow not_mem_nil, fun p hp hne => ?_,
        fun t row hrow => absurd hrow not_mem_nil⟩
      exact absurd (congrArg Prod.fst (mem_singleton.mp hp)) hne
    · cases hl
      exact absurd hp not_mem_nil
  exact ⟨store, s, snap, hopened, hrun, hdone, hwm, hpending,
    snapshot_exactly_once _ Store.oneLogRow () [.open 1000] store
      ⟨⟨trivial, trivial⟩, trivial⟩ hopened hup sealedDuringCall s hok hrun snap hdone⟩

/-- What a call returns that has one file left to read and finds its watermark again. -/
theorem run_lastFile (xxh3 : Bytes → UInt64) (decode : UInt8 → Bytes → Request D) (promote : P) {tries q : ℕ}
    (hp : s.phase = .files segments watermark tries [q]) (hwm : s.store.watermark = watermark) :
    ∃ s' snap, run (step xxh3 decode promote) s [.read false, .recheck false] = some s' ∧
      s'.phase = .done snap ∧ s'.scanned = s.scanned ∧ snap.segments = segments ∧
      ∀ r ∈ snap.pending, watermark < r.lsn := by
  rcases hres : s.cursor.advanceSegment xxh3 s.store.wal.dir q with ⟨c, complete⟩
  have hread : s.fileRead xxh3 false segments watermark tries q [] = { s with
      cursor := c
      phase := .files segments watermark tries [] } := by
    simp only [fileRead, hres, Bool.false_eq_true, if_false, ite_self]
  let pending := (c.pruneSealed watermark).frames.filter (watermark < ·.lsn)
  let s' : Reading D P := { s with
    cursor := c.pruneSealed watermark
    phase := .done ⟨segments, watermark, pending⟩ }
  refine ⟨s', ⟨segments, watermark, pending⟩, ?_, rfl, rfl, rfl, fun r hr => ?_⟩
  · simp only [run, step, hp, hread, rechecked, hwm, Bool.false_eq_true, if_false, if_true]
    rfl
  · simpa using (mem_filter.mp hr).2

/-- The second of two seals in flight registers first; then a call is made. -/
def overtakenByReader : List ReaderEvent :=
  [.writer Store.ingestOne, .writer (.freeze 0), .writer Store.ingestOne, .writer (.freeze 1),
    .writer (.write 1 true fun _ => 0), .writer (.register 1 true true), .start false, .list false]

/-- The watermark that a seal persists covers the rows an older seal still has in flight: a reader
finds them in no segment, and drops their frames. -/
theorem overtaken_seal_missed :
    ¬ ∃ xxh3 : Bytes → UInt64, ∀ ss (store : Store Unit Unit),
      run (Store.step xxh3 Store.oneLogRow ()) Store.init ss = some store → store.engine ≠ none →
        ∀ es s, run (step xxh3 Store.oneLogRow ()) (fresh store) es = some s →
          ∀ snap, s.phase = .done snap → ExactlyOnce Store.oneLogRow s snap := by
  rintro ⟨xxh3, h⟩
  obtain ⟨store, s, segments, hopened, hup, hrun, hphase, hwm, hscanned, hrows⟩ :
      ∃ (store : Store Unit Unit) (s : Reading Unit Unit) (segments : Table → List (Segment Unit)),
        run (Store.step xxh3 Store.oneLogRow ()) Store.init [.open 1000] = some store ∧
          store.engine.isSome = true ∧
          run (step xxh3 Store.oneLogRow ()) (fresh store) overtakenByReader = some s ∧
          s.phase = .files segments 2 8 [1] ∧ s.store.watermark = 2 ∧
          s.scanned = [⟨1, 0, [7]⟩, ⟨2, 0, [7]⟩] ∧
          segmentRows (segments .logs) = [⟨⟨0, 1, ()⟩, 2⟩] :=
    ⟨_, _, _, rfl, rfl, rfl, rfl, rfl, rfl, rfl⟩
  obtain ⟨s', snap, hlast, hdone, hscanned', hsegments, hpending⟩ :=
    run_lastFile xxh3 Store.oneLogRow () hphase hwm
  have hall : run (step xxh3 Store.oneLogRow ()) (fresh store)
      (overtakenByReader ++ [.read false, .recheck false]) = some s' := by
    rw [run_append, hrun]
    exact hlast
  have honce := (h _ store hopened (isSome_iff_ne_none.mp hup) _ s' hall snap hdone).once
    ⟨1, 0, [7]⟩ (by simp [hscanned', hscanned]) .logs
  have hnil : (snap.pending.flatMap fun x => Store.recordRows Store.oneLogRow x .logs).filter
      (·.lsn = 1) = [] := by
    refine filter_lsn_eq_nil fun row hrow => ?_
    obtain ⟨x, hx, hrow⟩ := mem_flatMap.mp hrow
    have hlt := hpending x hx
    rw [Store.lsn_of_mem_recordRows hrow]
    omega
  rw [filter_append, hsegments, hrows, hnil] at honce
  exact absurd honce.length_eq (by decide)

end Reading

end Imbh.Storage
