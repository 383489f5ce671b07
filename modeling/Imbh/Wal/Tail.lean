import Imbh.Lib.Runs
import Imbh.Wal.Cursor

/-!
# A writer and a reader of one log

The writer appends, syncs, rotates and reclaims; the bytes of an append become visible a prefix at a
time, so `Wal.append` is taken apart at its `write_all`: `begin`, any number of `grow`s, and
`finish`, which runs the rest of the method once the whole frame is written (`append_eq_finish`).
The watermark is the manifest's: it only rises, and a reclaim is at or below it. The reader
advances its cursor, with or without a read error, and prunes it at a watermark it has read.

* `cursor_eq_full_scan` — whatever happened before, an advance that returns and a prune at the
  manifest's watermark leave in the cursor what a full scan of the same directory gives.
-/

namespace Imbh.WriteAhead

open Lib List

/-- The directory, the writer's bookkeeping and next LSN, the frame it is writing with the number
of its bytes that are visible, the manifest's watermark, and the reader's cursor. -/
structure TailSys where
  dir : Dir
  wal : Wal
  nextLsn : ℕ
  inflight : Option (WalRecord × ℕ)
  watermark : ℕ
  cursor : WalTailCursor
  deriving DecidableEq, Repr

/-- What the writer and the reader do. -/
inductive TailEvent
  | begin (signal : UInt8) (payload : Bytes)
  | grow (k : ℕ)
  | finish
  | sync
  | rotate
  | watermark (w : ℕ)
  | reclaim (w : ℕ)
  | advance (fail : Option ℕ)
  | prune (w : ℕ)
  deriving DecidableEq, Repr

/-- A log that was just created. -/
def TailSys.init (rotateBytes : ℕ) : TailSys :=
  ⟨[(1, ⟨[], 0, true⟩)], ⟨1, 0, 0, rotateBytes, []⟩, 1, none, 0, {}⟩

section step

variable (xxh3 : Bytes → UInt64)

/-- It is what `open_with_rotate` leaves of an empty directory. -/
theorem init_eq_open (rotateBytes : ℕ) :
    Wal.openWithRotate xxh3 rotateBytes Faults.none [] =
      ((TailSys.init rotateBytes).dir, .ok (TailSys.init rotateBytes).wal) := rfl

/-- One event. The writer's calls exclude each other (the WAL mutex); an LSN that does not fit
ends the process. -/
def tailStep (s : TailSys) : TailEvent → Option TailSys
  | .begin signal payload =>
      if s.inflight.isSome ∨ 2 ^ 64 ≤ s.nextLsn + 1 then none else
      if u32Max < payload.length then some { s with nextLsn := s.nextLsn + 1 } else
      some { s with nextLsn := s.nextLsn + 1, inflight := some (⟨s.nextLsn, signal, payload⟩, 0) }
  | .grow k =>
      match s.inflight with
      | none => none
      | some (r, j) =>
          let chunk := ((r.encode xxh3).drop j).take k
          some { s with
            dir := appendBytes s.dir s.wal.seq chunk
            inflight := some (r, j + chunk.length) }
  | .finish =>
      match s.inflight with
      | none => none
      | some (r, j) =>
          if j ≠ (r.encode xxh3).length then none else
          let (d, w, _) := s.wal.wrote Faults.none r.lsn (r.encode xxh3).length s.dir
          some { s with dir := d, wal := w, inflight := none }
  | .sync =>
      if s.inflight.isSome then none else some { s with dir := (s.wal.sync Faults.none s.dir).1 }
  | .rotate =>
      if s.inflight.isSome then none else
      let (d, w, _) := s.wal.rotate Faults.none s.dir
      some { s with dir := d, wal := w }
  | .watermark w => if w < s.watermark then none else some { s with watermark := w }
  | .reclaim w =>
      if s.inflight.isSome ∨ s.watermark < w then none else
      let (d, w, _) := s.wal.reclaim Faults.none w s.dir
      some { s with dir := d, wal := w }
  | .advance fail => some { s with cursor := (s.cursor.advance xxh3 fail s.dir).1 }
  | .prune w => if s.watermark < w then none else some { s with cursor := s.cursor.pruneSealed w }

theorem appendBytes_nil (d : Dir) (q : ℕ) : appendBytes d q [] = d := by
  unfold appendBytes Dir.modify
  simp

/-- The whole frame at once and `finish` are `Wal::append`. -/
theorem append_eq_finish (r : WalRecord) (hr : r.payload.length ≤ u32Max) (d : Dir) (w : Wal) :
    w.append xxh3 Faults.none r.lsn r.signal r.payload d =
      w.wrote Faults.none r.lsn (r.encode xxh3).length (appendBytes d w.seq (r.encode xxh3)) := by
  unfold Wal.append
  rw [if_neg (by omega)]
  rfl

end step

/-! ## The invariant -/

variable {xxh3 : Bytes → UInt64} {V : OpenFiles xxh3} {s s' : TailSys}

/-- The LSN below which every visible frame is. -/
def TailSys.visible (xxh3 : Bytes → UInt64) (s : TailSys) : ℕ :=
  match s.inflight with
  | none => s.nextLsn
  | some (r, j) => if j < (r.encode xxh3).length then r.lsn else s.nextLsn

/-- The writer between two calls, or with a frame part of which is written, or all of it. -/
def WriterAt (s : TailSys) (V : OpenFiles xxh3) : Prop :=
  match s.inflight with
  | none => WriterInv s.dir s.wal V ∧ V.cur.torn = []
  | some (r, j) => r.payload.length ≤ u32Max ∧ r.lsn < s.nextLsn ∧
      if j < (r.encode xxh3).length then
        WriterInv s.dir s.wal V ∧ V.cur.torn = (r.encode xxh3).take j
      else
        WriterInv s.dir { s.wal with currentMaxLsn := max s.wal.currentMaxLsn r.lsn } V ∧
          V.cur.torn = []

/-- The files `V` are those of the directory, and the cursor has scanned of them what it should
have. -/
structure TailInv (s : TailSys) (V : OpenFiles xxh3) : Prop where
  pre_clean : ∀ g ∈ V.pre, g.torn = []
  fresh : ∀ p ∈ s.wal.closed, p.1 < s.wal.seq
  bound : s.nextLsn < 2 ^ 64
  writer : WriterAt s V
  below : ∀ r ∈ allFrames V.segs, r.lsn < s.visible xxh3
  cursor : CursorInv xxh3 V.segs s.watermark V.cur.seq (s.visible xxh3) s.cursor

theorem WriterAt.dir (h : WriterAt s V) : s.dir = entries xxh3 V.segs := by
  unfold WriterAt at h
  split at h
  · exact h.1.dir
  · obtain ⟨-, -, h⟩ := h
    split at h
    · exact h.1.dir
    · exact h.1.dir

theorem WriterAt.idle (h : WriterAt s V) (hi : s.inflight = none) : WriterInv s.dir s.wal V ∧ V.cur.torn = [] := by
  unfold WriterAt at h
  rw [hi] at h
  exact h

theorem TailSys.visible_idle (xxh3 : Bytes → UInt64) (hi : s.inflight = none) : s.visible xxh3 = s.nextLsn := by
  unfold TailSys.visible
  rw [hi]

theorem TailInv.clean (h : TailInv s V) (hi : s.inflight = none) : V.Clean :=
  V.clean_of h.pre_clean (h.writer.idle hi).2

/-- A call that adds no frame and leaves no append under way. -/
theorem TailInv.idle_grew {V' : OpenFiles xxh3} (h : TailInv s V) (hv : s.visible xxh3 = s.nextLsn)
    (hw : WriterInv s'.dir s'.wal V') (hg : Grew V V' []) (hclean : V'.Clean)
    (hfresh : ∀ p ∈ s'.wal.closed, p.1 < s'.wal.seq)
    (hs : s' = { s with dir := s'.dir, wal := s'.wal, inflight := none }) : TailInv s' V' := by
  have hi' : s'.inflight = none := by rw [hs]
  have hn : s'.nextLsn = s.nextLsn := by rw [hs]
  have hv' := TailSys.visible_idle xxh3 hi'
  refine ⟨hclean.pre, hfresh, hn ▸ h.bound, ?_, ?_, ?_⟩
  · unfold WriterAt
    rw [hi']
    exact ⟨hw, hclean _ V'.cur_mem_segs⟩
  · rw [hg.frames, append_nil, hv', hn, ← hv]
    exact h.below
  · rw [hv', hn, ← hv, show s'.watermark = s.watermark by rw [hs],
      show s'.cursor = s.cursor by rw [hs]]
    exact h.cursor.grew hg le_rfl (by simp)

theorem tailInv_init (rotateBytes : ℕ) :
    ∃ V : OpenFiles xxh3, TailInv (TailSys.init rotateBytes) V := by
  let V : OpenFiles xxh3 := ⟨[], ⟨1, [], [], 0, true⟩, [],
    ⟨by simp, by simp [LsnOrdered], by simp, by simp⟩, rfl, by simp, by simp, by simp⟩
  have hnil : allFrames V.segs = [] := rfl
  refine ⟨V, by simp [V], by simp [TailSys.init], by simp [TailSys.init], ⟨⟨rfl, rfl, ?_, ?_, ?_,
    fun h => absurd rfl h⟩, rfl⟩, by simp [hnil], cursorInv_default _ _ _ _⟩
  · simp [TailSys.init]
  · simp [TailSys.init]
  · exact fun r hr => absurd hr not_mem_nil

/-! ## The append that is under way -/

/-- An append starts. -/
theorem begin_inv {signal : UInt8} {payload : Bytes} (h : TailInv s V)
    (hs : tailStep xxh3 s (.begin signal payload) = some s') : TailInv s' V := by
  simp only [tailStep] at hs
  split at hs
  · cases hs
  rename_i hno
  obtain ⟨hi, hn⟩ := not_or.mp hno
  have hi : s.inflight = none := by simpa using hi
  have hv := TailSys.visible_idle xxh3 hi
  obtain ⟨hw, ht⟩ := h.writer.idle hi
  split at hs
  · cases hs
    refine ⟨h.pre_clean, h.fresh, by simp only; omega, ?_, fun r hr => ?_, ?_⟩
    · unfold WriterAt
      simp only [hi]
      exact ⟨hw, ht⟩
    · exact (h.below r hr).trans_le (by simp [TailSys.visible, hi])
    · exact h.cursor.grew (Grew.refl V) (by simp [TailSys.visible, hi]) (by simp)
  · rename_i hlen
    cases hs
    set r : WalRecord := ⟨s.nextLsn, signal, payload⟩ with hr
    have hpos : 0 < (r.encode xxh3).length := (walFraming xxh3).enc_length_pos r
    have hvis : TailSys.visible xxh3 { s with
        nextLsn := s.nextLsn + 1, inflight := some (r, 0) } = s.visible xxh3 := by
      rw [hv]
      change (if 0 < (r.encode xxh3).length then s.nextLsn else s.nextLsn + 1) = s.nextLsn
      exact if_pos hpos
    refine ⟨h.pre_clean, h.fresh, by simp only; omega, ?_, ?_, ?_⟩
    · refine ⟨by simp only [hr]; omega, by simp [hr], ?_⟩
      rw [if_pos hpos]
      exact ⟨hw, ht⟩
    · rw [hvis]
      exact h.below
    · rw [hvis]
      exact h.cursor

/-- More bytes of the frame become visible. -/
theorem grow_inv {k : ℕ} (h : TailInv s V) (hs : tailStep xxh3 s (.grow k) = some s') :
    ∃ V' : OpenFiles xxh3, TailInv s' V' := by
  simp only [tailStep] at hs
  cases hi : s.inflight with
  | none => simp [hi] at hs
  | some rj =>
  obtain ⟨r, j⟩ := rj
  rw [hi] at hs
  cases hs
  have hwr := h.writer
  unfold WriterAt at hwr
  simp only [hi] at hwr
  obtain ⟨hlen, hlsn, hwr⟩ := hwr
  set enc := r.encode xxh3 with henc
  set chunk := (enc.drop j).take k with hchunk
  by_cases hj : j < enc.length
  · rw [if_pos hj] at hwr
    obtain ⟨hw, ht⟩ := hwr
    have hv : s.visible xxh3 = r.lsn := by
      unfold TailSys.visible
      rw [hi]
      exact if_pos hj
    have hne : ∀ p ∈ s.wal.closed, p.1 ≠ s.wal.seq := fun p hp => (h.fresh p hp).ne
    have htake : enc.take j ++ chunk = enc.take (j + chunk.length) := by
      rw [take_add, hchunk, length_take, ← take_take, take_length]
    have hbytes : V.cur.bytes xxh3 ++ chunk =
        encodeRecords xxh3 V.cur.frames ++ enc.take (j + chunk.length) := by
      rw [Seg.bytes, ht, append_assoc, htake]
    have hvalid : r.Valid := ⟨by simp only [u32Max] at hlen; omega, hlsn.trans h.bound⟩
    by_cases hfull : j + chunk.length < enc.length
    · -- still a torn frame
      obtain ⟨V', hpre, hcur, hw', hg⟩ := hw.extendCur h.pre_clean hne [] chunk
        (t := enc.take (j + chunk.length)) (b := s.wal.currentBytes)
        (by rw [append_nil]; exact V.readable.ordered)
        ((walFraming xxh3).torn_take hvalid hfull) (by rw [append_nil, hbytes]) le_rfl (by simp)
      have hv' : TailSys.visible xxh3 { s with
          dir := appendBytes s.dir s.wal.seq chunk
          inflight := some (r, j + chunk.length) } = r.lsn := if_pos hfull
      refine ⟨V', by rw [hpre]; exact h.pre_clean, h.fresh, h.bound, ?_, ?_, ?_⟩
      · refine ⟨hlen, hlsn, ?_⟩
        rw [if_pos hfull]
        exact ⟨hw', by rw [hcur]⟩
      · rw [hv', hg.frames, append_nil, ← hv]
        exact h.below
      · rw [hv', ← hv]
        exact h.cursor.grew hg le_rfl (by simp)
    · -- the last byte of the frame
      have hall : enc.take (j + chunk.length) = enc := take_of_length_le (by omega)
      have hbelow : ∀ x ∈ allFrames V.segs, x.lsn < r.lsn := hv ▸ h.below
      obtain ⟨V', hpre, hcur, hw', hg⟩ := hw.extendCur h.pre_clean hne [r] chunk (t := [])
        (m := max s.wal.currentMaxLsn r.lsn) (b := s.wal.currentBytes)
        (V.readable.ordered.concat hvalid hbelow) (walFraming xxh3).torn_nil
        (by rw [hbytes, hall, encodeRecords_append, append_nil, henc, encodeRecords_singleton])
        (le_max_left _ _) (by simp)
      have hv' : TailSys.visible xxh3 { s with
          dir := appendBytes s.dir s.wal.seq chunk
          inflight := some (r, j + chunk.length) } = s.nextLsn := if_neg hfull
      refine ⟨V', by rw [hpre]; exact h.pre_clean, h.fresh, h.bound, ?_, ?_, ?_⟩
      · refine ⟨hlen, hlsn, ?_⟩
        rw [if_neg hfull]
        exact ⟨hw', by rw [hcur]⟩
      · intro x hx
        rw [hg.frames] at hx
        rw [hv']
        rcases mem_append.mp hx with hx | hx
        · exact (hbelow x hx).trans hlsn
        · rw [mem_singleton.mp hx]
          exact hlsn
      · rw [hv']
        refine h.cursor.grew hg (hv ▸ hlsn.le) fun x hx => ?_
        rw [mem_singleton.mp hx]
        unfold WalTailCursor.seen
        cases hl : s.cursor.lastLsn with
        | none => rfl
        | some l =>
            have := h.cursor.below l (by rw [hl]; rfl)
            rw [hv] at this
            simpa using this
  · -- nothing was left to write
    have hnil : chunk = [] := by
      rw [hchunk, drop_eq_nil_of_le (by omega), take_nil]
    have hd : appendBytes s.dir s.wal.seq chunk = s.dir := by
      rw [hnil, appendBytes_nil]
    rw [hd, hnil, length_nil, Nat.add_zero, ← hi]
    exact ⟨V, h⟩

/-- The frame is written: the bookkeeping, and the rotation it may ask for. -/
theorem finish_inv (h : TailInv s V) (hs : tailStep xxh3 s .finish = some s') :
    ∃ V' : OpenFiles xxh3, TailInv s' V' := by
  simp only [tailStep] at hs
  cases hi : s.inflight with
  | none => simp [hi] at hs
  | some rj =>
  obtain ⟨r, j⟩ := rj
  simp only [hi] at hs
  split at hs
  · cases hs
  rename_i hj
  have hj : ¬ j < (r.encode xxh3).length := by omega
  cases hs
  have hwr := h.writer
  unfold WriterAt at hwr
  simp only [hi, if_neg hj] at hwr
  obtain ⟨hlen, hlsn, hw, ht⟩ := hwr
  have hv : s.visible xxh3 = s.nextLsn := by
    unfold TailSys.visible
    rw [hi]
    exact if_neg hj
  have hclean : V.Clean := V.clean_of h.pre_clean ht
  unfold Wal.wrote
  set w : Wal := { s.wal with
    currentBytes := s.wal.currentBytes + (r.encode xxh3).length
    currentMaxLsn := max s.wal.currentMaxLsn r.lsn } with hwdef
  have hw₁ : WriterInv s.dir w V :=
    ⟨hw.dir, hw.seq, hw.closed_le, hw.closed_bound, hw.cur_bound, hw.post_listed⟩
  by_cases hrot : w.rotateBytes ≤ w.currentBytes
  · simp only [hrot, if_true]
    obtain ⟨V', hw', hg, hc, -⟩ := rotate_inv Faults.none hw₁
    exact ⟨V', h.idle_grew hv hw' hg (hc hclean) (rotate_none_fresh (d := s.dir) h.fresh) rfl⟩
  · simp only [hrot, if_false]
    exact ⟨V, h.idle_grew hv hw₁ (Grew.refl V) hclean h.fresh rfl⟩

/-! ## Every event -/

/-- A reclaim at or below the watermark. -/
theorem reclaim_tail_inv {w : ℕ} (h : TailInv s V) (hs : tailStep xxh3 s (.reclaim w) = some s') :
    ∃ V' : OpenFiles xxh3, TailInv s' V' := by
  simp only [tailStep] at hs
  split at hs
  · cases hs
  rename_i hno
  obtain ⟨hi, hw⟩ := not_or.mp hno
  have hi : s.inflight = none := by simpa using hi
  have hv := TailSys.visible_idle xxh3 hi
  cases hs
  obtain ⟨V₁, V', hw', hg, hshr, hc, hfresh⟩ :=
    reclaim_inv Faults.none w (h.writer.idle hi).1
  have hclean := hc (h.clean hi)
  refine ⟨V', hclean.pre, (hfresh rfl).2, h.bound, ?_, fun r hr => ?_, ?_⟩
  · unfold WriterAt
    simp only [hi]
    exact ⟨hw', hclean _ V'.cur_mem_segs⟩
  · have hr₁ := (allFrames_sublist hshr.segs).subset hr
    rw [hg.frames, append_nil] at hr₁
    exact h.below r hr₁
  · exact (h.cursor.grew hg le_rfl (by simp)).shrank hshr (by omega)

/-- **The step lemma.** -/
theorem tail_step_inv {e : TailEvent} (h : ∃ V : OpenFiles xxh3, TailInv s V) (hs : tailStep xxh3 s e = some s') :
    ∃ V : OpenFiles xxh3, TailInv s' V := by
  obtain ⟨V, h⟩ := h
  cases e with
  | begin signal payload => exact ⟨V, begin_inv h hs⟩
  | grow k => exact grow_inv h hs
  | finish => exact finish_inv h hs
  | sync =>
      simp only [tailStep] at hs
      split at hs
      · cases hs
      rename_i hi
      have hi : s.inflight = none := by simpa using hi
      cases hs
      obtain ⟨hw, hg⟩ := (h.writer.idle hi).1.syncData
      exact ⟨V.syncCur, h.idle_grew (TailSys.visible_idle xxh3 hi) hw hg
        (V.clean_syncCur (h.clean hi)) h.fresh (by rw [← hi])⟩
  | rotate =>
      simp only [tailStep] at hs
      split at hs
      · cases hs
      rename_i hi
      have hi : s.inflight = none := by simpa using hi
      cases hs
      obtain ⟨V', hw, hg, hc, -⟩ := rotate_inv Faults.none (h.writer.idle hi).1
      exact ⟨V', h.idle_grew (TailSys.visible_idle xxh3 hi) hw hg (hc (h.clean hi))
        (rotate_none_fresh (d := s.dir) h.fresh) (by rw [← hi])⟩
  | watermark w =>
      simp only [tailStep] at hs
      split at hs
      · cases hs
      rename_i hw
      cases hs
      refine ⟨V, h.pre_clean, h.fresh, h.bound, h.writer, h.below, ?_⟩
      exact h.cursor.writer (by simp only; omega) le_rfl le_rfl
        (fun g hg => Or.inl ⟨g, hg, rfl, rfl⟩) fun _ _ _ => Iff.rfl
  | reclaim w => exact reclaim_tail_inv h hs
  | advance fail =>
      cases hs
      refine ⟨V, h.pre_clean, h.fresh, h.bound, h.writer, h.below, ?_⟩
      have := (advance_inv V.readable_segs V.seq_le_cur h.below fail h.cursor).1
      rw [← h.writer.dir] at this
      exact this
  | prune w =>
      simp only [tailStep] at hs
      split at hs
      · cases hs
      rename_i hw
      cases hs
      exact ⟨V, h.pre_clean, h.fresh, h.bound, h.writer, h.below,
        h.cursor.pruneSealed (by omega)⟩

/-- **The incremental cursor equals the full scan.** After any interleaving of the writer's events
and the reader's, an advance that returns, with the prune at the manifest's watermark behind it,
leaves in the cursor exactly the frames above the watermark that a fresh scan of the directory
reads, in LSN order and without duplicates. -/
theorem cursor_eq_full_scan (xxh3 : Bytes → UInt64) (rotateBytes : ℕ) (es : List TailEvent)
    (s : TailSys) (hrun : run (tailStep xxh3) (TailSys.init rotateBytes) es = some s)
    (fail : Option ℕ) (c : WalTailCursor) (hc : s.cursor.advance xxh3 fail s.dir = (c, .ok ())) :
    (c.pruneSealed s.watermark).frames =
        (readAllFrames xxh3 s.dir).filter (s.watermark < ·.lsn) ∧
      (c.pruneSealed s.watermark).frames.Pairwise fun a b => a.lsn < b.lsn := by
  obtain ⟨V, h⟩ := run_invariant (fun s => ∃ V : OpenFiles xxh3, TailInv s V)
    (fun s e s' hi hs => tail_step_inv hi hs) (tailInv_init rotateBytes) hrun
  obtain ⟨hinv, hall⟩ := advance_inv V.readable_segs V.seq_le_cur h.below fail h.cursor
  rw [← h.writer.dir, hc] at hinv hall
  refine ⟨?_, hinv.sorted.sublist filter_sublist⟩
  rw [hinv.pruneSealed_frames V.readable_segs (hall rfl), h.writer.dir,
    readAllFrames_entries V.readable_segs]

/-- Two appends with a rotation between them, an advance in the middle of the second one, and a
reclaim of the first. -/
def tailRun : List TailEvent :=
  [.begin 0 [7], .grow 22, .finish, .rotate, .begin 0 [8], .grow 10, .advance none, .grow 12,
    .finish, .watermark 1, .reclaim 1]

theorem cursor_eq_full_scan_tailRun :
    ∃ s c, run (tailStep fun _ => 0) (TailSys.init 1000) tailRun = some s ∧
      s.cursor.advance (fun _ => 0) none s.dir = (c, .ok ()) ∧
      (c.pruneSealed 1).frames = (readAllFrames (fun _ => 0) s.dir).filter (1 < ·.lsn) := by
  let s : TailSys := ⟨[(2, ⟨encodeFrame (fun _ => 0) 2 0 [8], 22, true⟩), (3, ⟨[], 0, true⟩)],
    ⟨3, 0, 0, 1000, [(2, 2)]⟩, 3, none, 1, ⟨[(2, 0), (1, 22)], some 1, [⟨1, 0, [7]⟩]⟩⟩
  let c : WalTailCursor := ⟨[(2, 22)], some 2, [⟨1, 0, [7]⟩, ⟨2, 0, [8]⟩]⟩
  have hrun : run (tailStep fun _ => 0) (TailSys.init 1000) tailRun = some s := by
    decide +kernel
  have hc : s.cursor.advance (fun _ => 0) none s.dir = (c, .ok ()) := by decide +kernel
  exact ⟨s, c, hrun, hc, (cursor_eq_full_scan _ 1000 tailRun s hrun none c hc).1⟩

end Imbh.WriteAhead
