import Imbh.Lib.Runs
import Imbh.Wal.WriterInv

/-!
# A log and its crashes

The system is a directory and, while a process is up, the open log of its writer with the LSN it
assigns next (`wal_append_assign`). An event is a call on the log, any of whose file operations may
fail, or a crash, which may come in the middle of a call.

A crash keeps, of every file, what was synced and some prefix of what was not; a file whose
directory entry was not fsynced may go. What survives it is what stable storage held, so it is
durable.

The state has three lists that no code keeps: `pending` — appends that returned and were not
synced since; `must` — appends that returned and were synced; neither holds a frame at or below the
watermark of a reclaim; `written` — the frames written whole to each file since the log was opened,
together with those it held then.
-/

namespace Imbh.WriteAhead

open Lib List

/-- The calls on a log. `open` is `Storage::open`'s: it reads the frames for the next LSN. -/
inductive Call
  | open (rotateBytes : ℕ)
  | append (signal : UInt8) (payload : Bytes)
  | sync
  | rotate
  | reclaim (watermark : ℕ)
  deriving DecidableEq, Repr

/-- What happens to the system: a call, or a crash with the call it interrupts, how much of each
file's unsynced bytes it keeps, and which files without a durable directory entry it takes. -/
inductive Event
  | call (c : Call) (fs : Faults)
  | crash (cut : Option (Call × Faults)) (keep : ℕ → ℕ) (drop : ℕ → Bool)

/-- The directory, the open log with the next LSN, and the persisted watermark. -/
structure Sys where
  dir : Dir
  live : Option (Wal × ℕ)
  watermark : ℕ
  pending : List WalRecord
  must : List WalRecord
  written : List (ℕ × WalRecord)

namespace Sys

/-- An empty directory. -/
def init : Sys := ⟨[], none, 0, [], [], []⟩

end Sys

/-- What a crash leaves of a directory. -/
def crashDir (keep : ℕ → ℕ) (drop : ℕ → Bool) (d : Dir) : Dir :=
  (d.filter fun p => p.2.linked || !drop p.1).map fun p =>
    let bytes := p.2.bytes.take (p.2.synced + keep p.1)
    (p.1, ⟨bytes, bytes.length, true⟩)

section system

variable (xxh3 : Bytes → UInt64)

/-- The LSN the next append gets after an open: `watermark.max(max_lsn) + 1`.
Source: `lib.rs` `Storage::open` -/
def nextLsn (watermark : ℕ) (d : Dir) : ℕ :=
  max watermark (((readAllFrames xxh3 d).map (·.lsn)).foldl max 0) + 1

/-- The frames each file holds. -/
def framesByFile (d : Dir) : List (ℕ × WalRecord) :=
  d.flatMap fun p => (readFrames xxh3 p.2).map (p.1, ·)

/-- One call. It is not enabled when no log is open (or one is, for `open`), and when the LSN
counter of the process would overflow.
Source: `lib.rs` `wal_append_assign` for the LSN, `Storage::open` -/
def exec (s : Sys) : Call → Faults → Option Sys
  | .open rotateBytes, fs =>
      match s.live with
      | some _ => none
      | none =>
          let n := nextLsn xxh3 s.watermark s.dir
          if 2 ^ 64 ≤ n then none else
          match Wal.openWithRotate xxh3 rotateBytes fs s.dir with
          | (d, .error _) => some { s with dir := d }
          | (d, .ok w) => some { s with
              dir := d, live := some (w, n), written := framesByFile xxh3 s.dir }
  | .append signal payload, fs =>
      match s.live with
      | none => none
      | some (w, n) =>
          if 2 ^ 64 ≤ n + 1 then none else
          let r : WalRecord := ⟨n, signal, payload⟩
          let (d, w', res) := w.append xxh3 fs n signal payload s.dir
          some { s with
            dir := d
            live := some (w', n + 1)
            pending := s.pending ++ if res.isOk then [r] else []
            written := s.written ++ (appended fs r).map (w.seq, ·) }
  | .sync, fs =>
      match s.live with
      | none => none
      | some (w, n) =>
          let (d, res) := w.sync fs s.dir
          some { s with
            dir := d
            live := some (w, n)
            must := s.must ++ if res.isOk then s.pending else []
            pending := if res.isOk then [] else s.pending }
  | .rotate, fs =>
      match s.live with
      | none => none
      | some (w, n) =>
          let (d, w', _) := w.rotate fs s.dir
          some { s with dir := d, live := some (w', n) }
  | .reclaim watermark, fs =>
      match s.live with
      | none => none
      | some (w, n) =>
          let (d, w', _) := w.reclaim fs watermark s.dir
          some { s with
            dir := d
            live := some (w', n)
            watermark := watermark
            pending := s.pending.filter (watermark < ·.lsn)
            must := s.must.filter (watermark < ·.lsn) }

/-- The process is gone and the directory is what the crash left of it. -/
def Sys.down (keep : ℕ → ℕ) (drop : ℕ → Bool) (s : Sys) : Sys :=
  { s with dir := crashDir keep drop s.dir, live := none, pending := [], written := [] }

/-- One event. -/
def step (s : Sys) : Event → Option Sys
  | .call c fs => exec xxh3 s c fs
  | .crash none keep drop => some (s.down keep drop)
  | .crash (some (c, fs)) keep drop => (exec xxh3 s c fs).map (Sys.down keep drop)

end system

/-- The call of an event, also when a crash interrupts it. -/
def Event.call? : Event → Option Call
  | .call c _ => some c
  | .crash cut _ _ => cut.map Prod.fst

/-- The event appends. -/
def Event.Appends (e : Event) : Prop := ∃ signal payload, e.call? = some (.append signal payload)

/-- No file operation of a call that returns fails. -/
def Event.FaultFree : Event → Prop
  | .call _ fs => fs = Faults.none
  | .crash .. => True

/-- An open that returns does not fail. -/
def Event.OpenFaultFree : Event → Prop
  | .call (.open _) fs => fs = Faults.none
  | _ => True

/-- Appends are made when every segment file scans cleanly to its end. -/
def CleanAppend (xxh3 : Bytes → UInt64) (s : Sys) (e : Event) : Prop :=
  e.Appends → CleanDir xxh3 s.dir

/-- Appends are made when, besides, the append target is not listed as closed. -/
def AppendOk (xxh3 : Bytes → UInt64) (s : Sys) (e : Event) : Prop :=
  e.Appends → CleanDir xxh3 s.dir ∧ ∀ w n, s.live = some (w, n) → ∀ p ∈ w.closed, p.1 ≠ w.seq

/-! ## What a crash leaves -/

variable {xxh3 : Bytes → UInt64}

theorem crashDir_append (keep : ℕ → ℕ) (drop : ℕ → Bool) (d e : Dir) :
    crashDir keep drop (d ++ e) = crashDir keep drop d ++ crashDir keep drop e := by
  simp [crashDir]

/-- A crash takes nothing from files on stable storage. -/
theorem crashDir_durable {keep : ℕ → ℕ} {drop : ℕ → Bool} {gs : List Seg}
    (h : ∀ g ∈ gs, g.Durable xxh3) : crashDir keep drop (entries xxh3 gs) = entries xxh3 gs := by
  induction gs with
  | nil => rfl
  | cons g gs ih =>
      obtain ⟨hsync, hlink⟩ := h g mem_cons_self
      have htake : (g.bytes xxh3).take ((g.bytes xxh3).length + keep g.seq) = g.bytes xxh3 :=
        take_of_length_le (Nat.le_add_right _ _)
      have hg : crashDir keep drop (entries xxh3 [g]) = entries xxh3 [g] := by
        simp [crashDir, entries, Seg.entry, hlink, htake, hsync]
      rw [← singleton_append, entries, map_append, crashDir_append]
      exact congrArg₂ _ hg (ih fun x hx => h x (mem_cons_of_mem _ hx))

/-- A crash leaves of an empty file the empty file, or takes it. -/
theorem crashDir_empty (keep : ℕ → ℕ) (drop : ℕ → Bool) {g : Seg} (hf : g.frames = [])
    (ht : g.torn = []) :
    crashDir keep drop (entries xxh3 [g]) = [] ∨
      crashDir keep drop (entries xxh3 [g]) = entries xxh3 [⟨g.seq, [], [], 0, true⟩] := by
  by_cases hd : g.linked || !drop g.seq
  · right
    simp [crashDir, entries, Seg.entry, Seg.bytes, hf, ht, hd]
  · left
    simp [crashDir, entries, Seg.entry, hd]

/-- A crash leaves of the append target the frames that end in what it keeps, and a torn tail. -/
theorem crashDir_cur (keep : ℕ → ℕ) (drop : ℕ → Bool) {g : Seg} (hlink : g.linked = true)
    (hv : ∀ r ∈ g.frames, r.Valid) (ht : TornTail xxh3 g.torn)
    (hsync : g.synced ≤ (g.bytes xxh3).length) :
    ∃ k t n, crashDir keep drop (entries xxh3 [g]) =
        entries xxh3 [⟨g.seq, g.frames.take k, t, n, true⟩] ∧ TornTail xxh3 t ∧
      (⟨g.seq, g.frames.take k, t, n, true⟩ : Seg).Durable xxh3 ∧
      ∀ j ≤ g.frames.length, (encodeRecords xxh3 (g.frames.take j)).length ≤ g.synced →
        j ≤ k := by
  have hleft := take_prefix (g.synced + keep g.seq) (g.bytes xxh3)
  obtain ⟨k, t, -, htorn, hp, hmax⟩ := (walFraming xxh3).prefix_encodeAll hv ht hleft
  refine ⟨k, t, (encodeRecords xxh3 (g.frames.take k) ++ t).length, ?_, htorn, ⟨rfl, rfl⟩, fun j hj hle => hmax j hj ?_⟩
  · have hcrash : crashDir keep drop (entries xxh3 [g]) =
        [(g.seq, ⟨(g.bytes xxh3).take (g.synced + keep g.seq),
          ((g.bytes xxh3).take (g.synced + keep g.seq)).length, true⟩)] := by
      simp [crashDir, entries, Seg.entry, hlink]
    rw [hcrash, hp]
    rfl
  · refine hle.trans ?_
    rw [length_take]
    omega

/-- What a crash may leave of a directory, whatever it keeps: files that recovery can read, all on
stable storage, with the frames `must`. -/
def Recoverable (xxh3 : Bytes → UInt64) (must : List WalRecord) (d : Dir) : Prop :=
  ∀ keep drop, ∃ gs, crashDir keep drop d = entries xxh3 gs ∧ Readable xxh3 gs ∧
    (∀ g ∈ gs, g.Durable xxh3) ∧ ∀ r ∈ must, r ∈ allFrames gs

theorem recoverable_durable {gs : List Seg} {must : List WalRecord} (h : Readable xxh3 gs)
    (hdur : ∀ g ∈ gs, g.Durable xxh3) (hmust : ∀ r ∈ must, r ∈ allFrames gs) :
    Recoverable xxh3 must (entries xxh3 gs) := fun _ _ =>
  ⟨gs, crashDir_durable hdur, h, hdur, hmust⟩

/-- **Crashes of an open log.** The frames on stable storage survive. -/
theorem recoverable_open {d : Dir} {w : Wal} {F : OpenFiles xxh3} {must : List WalRecord}
    (h : WriterInv d w F) (hmust : ∀ r ∈ must, F.Synced r) : Recoverable xxh3 must d := by
  intro keep drop
  have hcur := F.cur_mem_segs
  obtain ⟨k, t, n, hcrash, htorn, hdur, hmax⟩ := crashDir_cur keep drop
    F.linked (F.readable.ordered_of_mem hcur).1 (F.readable.tails _ hcur) F.synced_le
  set c : Seg := ⟨F.cur.seq, F.cur.frames.take k, t, n, true⟩ with hc
  have hsplit : d = entries xxh3 F.pre ++ (entries xxh3 [F.cur] ++ entries xxh3 F.post) := by
    rw [h.dir]
    simp [OpenFiles.segs, entries]
  have hread : Readable xxh3 (F.pre ++ [c]) := by
    have hr : Readable xxh3 (F.pre ++ [F.cur]) := F.readable.sublist (by simp)
    refine ⟨?_, ?_, ?_, ?_⟩
    · simpa [pairwise_append] using hr.ascending
    · refine hr.ordered.sublist ?_
      simpa using (Sublist.refl (allFrames F.pre)).append (take_sublist k F.cur.frames)
    · intro g hg
      rcases mem_append.mp hg with hg | hg
      · exact hr.tails g (mem_append_left _ hg)
      · rw [mem_singleton.mp hg]
        exact htorn
    · obtain ⟨h1, -, h3⟩ := pairwise_append.mp hr.stopped
      refine pairwise_append.mpr ⟨h1, by simp, fun a ha b hb hne => ?_⟩
      rw [mem_singleton.mp hb]
      have := h3 a ha F.cur (by simp) hne
      simp [hc, this]
  have hdur' : ∀ g ∈ F.pre ++ [c], g.Durable xxh3 := by
    intro g hg
    rcases mem_append.mp hg with hg | hg
    · exact F.durable g hg
    · rw [mem_singleton.mp hg]
      exact hdur
  have hmust' : ∀ r ∈ must, r ∈ allFrames (F.pre ++ [c]) := by
    intro r hr
    rw [allFrames_append]
    rcases hmust r hr with hr | ⟨j, hj, hle⟩
    · exact mem_append_left _ hr
    · refine mem_append_right _ ?_
      have htake : F.cur.frames.take (min j F.cur.frames.length) = F.cur.frames.take j := by
        rw [← take_take, take_length]
      have hk := hmax _ (Nat.min_le_right j F.cur.frames.length) (htake ▸ hle)
      rw [← htake] at hj
      have hjk := (take_subset_take_left F.cur.frames hk) hj
      simpa [hc] using hjk
  have hpost : crashDir keep drop (entries xxh3 F.post) = [] ∨
      crashDir keep drop (entries xxh3 F.post) =
        entries xxh3 [⟨F.cur.seq + 1, [], [], 0, true⟩] := by
    rcases F.post_cases with hp | ⟨g, hp⟩
    · left
      rw [hp]
      rfl
    · obtain ⟨hseq, hf, ht, -⟩ := F.empty g (by simp [hp])
      rw [hp, ← hseq]
      exact crashDir_empty keep drop hf ht
  rw [hsplit, crashDir_append, crashDir_append, crashDir_durable F.durable, hcrash]
  rcases hpost with hp | hp
  all_goals rw [hp]
  · exact ⟨F.pre ++ [c], by simp [entries], hread, hdur', hmust'⟩
  · refine ⟨F.pre ++ [c] ++ [⟨F.cur.seq + 1, [], [], 0, true⟩], by simp [entries],
      hread.concat_empty ?_ rfl rfl, ?_, ?_⟩
    · intro g hg
      rcases mem_append.mp hg with hg | hg
      · exact (F.pre_lt hg).trans (Nat.lt_succ_self _)
      · rw [mem_singleton.mp hg]
        exact Nat.lt_succ_self _
    · intro g hg
      rcases mem_append.mp hg with hg | hg
      · exact hdur' g hg
      · rw [mem_singleton.mp hg]
        exact ⟨rfl, rfl⟩
    · intro r hr
      rw [allFrames_append]
      exact mem_append_left _ (hmust' r hr)

end Imbh.WriteAhead
