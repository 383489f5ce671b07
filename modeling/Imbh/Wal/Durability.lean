import Imbh.Wal.System

/-!
# Durability of the log, and safety of reclaim

What recovery reads after any history of calls and crashes.

* `durable_frames_recovered` — every frame whose append and sync completed and that no reclaim was
  allowed to drop is read back once, in LSN order, when no append is made behind a torn tail.
* `torn_reopen_loses_frame` — opening does not cut a torn tail off, so that the condition is needed:
  a synced frame behind one is not read.
* `reclaim_keeps_live_frames` — with any file operation failing: a reclaim unlinks only files whose
  frames are all at or below its watermark, and acknowledged frames are read, when appends are made
  to a log without torn tails whose append target is not listed as closed.
* `failed_rotate_loses_frame` — a rotation that fails after listing its segment as closed leaves a
  log in which reclaim drops a live frame.
-/

namespace Imbh.WriteAhead

open Lib List

variable {xxh3 : Bytes → UInt64} {s s' : Sys} {fs : Faults} {F : OpenFiles xxh3} {w : Wal} {n : ℕ}

/-! ## The invariant -/

/-- A process is up: its bookkeeping describes the files, what it acknowledged is in them, and on
stable storage once synced. -/
structure LiveInv (s : Sys) (w : Wal) (n : ℕ) (F : OpenFiles xxh3) : Prop where
  writer : WriterInv s.dir w F
  below : ∀ r ∈ allFrames F.segs, r.lsn < n
  bound : n < 2 ^ 64
  must : ∀ r ∈ s.must, F.Synced r
  pending : ∀ r ∈ s.pending, r ∈ allFrames F.segs
  written : ∀ p ∈ s.written, p.1 ≤ w.seq ∧ ∀ g ∈ F.segs, g.seq = p.1 → p.2 ∈ g.frames

/-- No process is up: recovery can read the files, which are on stable storage. -/
structure DownInv (xxh3 : Bytes → UInt64) (s : Sys) (gs : List Seg) : Prop where
  dir : s.dir = entries xxh3 gs
  readable : Readable xxh3 gs
  durable : ∀ g ∈ gs, g.Durable xxh3
  must : ∀ r ∈ s.must, r ∈ allFrames gs
  pending : s.pending = []

/-- The invariant of the system. -/
def Inv (xxh3 : Bytes → UInt64) (s : Sys) : Prop :=
  match s.live with
  | none => ∃ gs, DownInv xxh3 s gs
  | some (w, n) => ∃ F : OpenFiles xxh3, LiveInv s w n F

theorem inv_init : Inv xxh3 Sys.init :=
  ⟨[], rfl, ⟨by simp, by simp [LsnOrdered], by simp, by simp⟩, by simp, by simp [Sys.init], rfl⟩

theorem Inv.up (h : Inv xxh3 s) (hl : s.live = some (w, n)) : ∃ F : OpenFiles xxh3, LiveInv s w n F := by
  unfold Inv at h
  rw [hl] at h
  exact h

theorem Inv.down (h : Inv xxh3 s) (hl : s.live = none) : ∃ gs, DownInv xxh3 s gs := by
  unfold Inv at h
  rw [hl] at h
  exact h

theorem LiveInv.inv (h : LiveInv s w n F) (hl : s.live = some (w, n)) : Inv xxh3 s := by
  unfold Inv
  rw [hl]
  exact ⟨F, h⟩

/-- A call that appends `new` and acknowledges no more than that keeps the invariant. -/
theorem LiveInv.grew {w' : Wal} {n' : ℕ} {F' : OpenFiles xxh3} {new : List WalRecord} (h : LiveInv s w n F)
    (hw : WriterInv s'.dir w' F') (hg : Grew F F' new) (hn : n ≤ n') (hnew : ∀ r ∈ new, r.lsn < n') (hb : n' < 2 ^ 64)
    (hmust : ∀ r ∈ s'.must, r ∈ s.must ∨ F'.Synced r) (hpending : ∀ r ∈ s'.pending, r ∈ s.pending ∨ r ∈ new)
    (hwritten : ∀ p ∈ s'.written, p ∈ s.written ∨ p.1 = w.seq ∧ p.2 ∈ new) :
    LiveInv s' w' n' F' where
  writer := hw
  below r hr := by
    rw [hg.frames] at hr
    rcases mem_append.mp hr with hr | hr
    · exact (h.below r hr).trans_le hn
    · exact hnew r hr
  bound := hb
  must r hr := (hmust r hr).elim (fun hr => hg.synced r (h.must r hr)) id
  pending r hr := by
    rw [hg.frames]
    rcases hpending r hr with hr | hr
    · exact mem_append_left _ (h.pending r hr)
    · exact mem_append_right _ hr
  written p hp := by
    have hseq : w.seq ≤ w'.seq := by
      rw [← h.writer.seq, ← hw.seq]
      exact hg.seq_le
    have hle : p.1 ≤ w.seq := by
      rcases hwritten p hp with hp | ⟨hp, -⟩
      · exact (h.written p hp).1
      · exact hp.le
    refine ⟨hle.trans hseq, fun g' hg' hs => ?_⟩
    obtain ⟨g, hgm, hgs, hf⟩ := hg.seg g' hg' (by rw [h.writer.seq, hs]; exact hle)
    rw [hf]
    rcases hwritten p hp with hp | ⟨hps, hpn⟩
    · exact mem_append_left _ ((h.written p hp).2 g hgm (hgs.trans hs))
    · rw [if_pos (by rw [hgs, hs, hps, h.writer.seq])]
      exact mem_append_right _ hpn

/-! ## One event -/

/-- An append that returns has written its frame. -/
theorem appended_of_isOk {r : WalRecord} {d : Dir} (h : (w.append xxh3 fs r.lsn r.signal r.payload d).2.2.isOk = true) :
    appended fs r = [r] := by
  unfold Wal.append at h
  unfold appended
  by_cases hlen : u32Max < r.payload.length
  · simp [hlen, Except.isOk, Except.toBool] at h
  · rw [if_neg hlen] at h
    cases hw : fs.write with
    | some m => simp [hw, Except.isOk, Except.toBool] at h
    | none => rw [if_pos ⟨by omega, rfl⟩]

/-- An append to a live log. -/
theorem exec_append {signal : UInt8} {payload : Bytes} (h : LiveInv s w n F) (hl : s.live = some (w, n))
    (hclean : CleanDir xxh3 s.dir) (hclosed : ∀ p ∈ w.closed, p.1 ≠ w.seq)
    (hs : exec xxh3 s (.append signal payload) fs = some s') :
    ∃ w', ∃ F' : OpenFiles xxh3, s'.live = some (w', n + 1) ∧ LiveInv s' w' (n + 1) F' ∧
      Grew F F' (appended fs ⟨n, signal, payload⟩) := by
  simp only [exec, hl] at hs
  split at hs
  · cases hs
  rename_i hn
  obtain ⟨F', hw, hg, -⟩ := append_inv fs (r := ⟨n, signal, payload⟩) h.writer
    (h.writer.clean hclean) hclosed h.bound h.below
  cases hs
  refine ⟨_, F', rfl,
    h.grew hw hg (Nat.le_succ n) ?_ (by omega) (fun r hr => Or.inl hr) ?_ ?_, hg⟩
  · intro r hr
    unfold appended at hr
    split at hr
    · rw [mem_singleton.mp hr]
      exact Nat.lt_succ_self n
    · exact absurd hr not_mem_nil
  · intro r hr
    rcases mem_append.mp hr with hr | hr
    · exact Or.inl hr
    · split at hr
      · rename_i hok
        rw [appended_of_isOk hok]
        exact Or.inr hr
      · exact absurd hr not_mem_nil
  · intro p hp
    rcases mem_append.mp hp with hp | hp
    · exact Or.inl hp
    · obtain ⟨r, hr, rfl⟩ := mem_map.mp hp
      exact Or.inr ⟨rfl, hr⟩

/-- A sync of a live log. -/
theorem exec_sync (h : LiveInv s w n F) (hl : s.live = some (w, n)) (hs : exec xxh3 s .sync fs = some s') :
    ∃ w', ∃ F' : OpenFiles xxh3, s'.live = some (w', n) ∧ LiveInv s' w' n F' ∧
      Grew F F' [] := by
  simp only [exec, hl] at hs
  obtain ⟨F', hw, hg, hsync⟩ := sync_inv fs h.writer
  cases hs
  refine ⟨w, F', rfl, h.grew hw hg le_rfl (by simp) h.bound ?_ ?_ fun p hp => Or.inl hp, hg⟩
  · intro r hr
    rcases mem_append.mp hr with hr | hr
    · exact Or.inl hr
    · split at hr
      · rename_i hok
        refine Or.inr (hsync ?_ r (h.pending r hr))
        unfold Wal.sync at hok ⊢
        split at hok
        · cases hok
        · rename_i hf
          rw [if_neg hf]
      · exact absurd hr not_mem_nil
  · intro r hr
    split at hr
    · exact absurd hr not_mem_nil
    · exact Or.inl hr

/-- A rotation of a live log. -/
theorem exec_rotate (h : LiveInv s w n F) (hl : s.live = some (w, n)) (hs : exec xxh3 s .rotate fs = some s') :
    ∃ w', ∃ F' : OpenFiles xxh3, s'.live = some (w', n) ∧ LiveInv s' w' n F' := by
  simp only [exec, hl] at hs
  obtain ⟨F', hw, hg, -⟩ := rotate_inv fs h.writer
  cases hs
  exact ⟨_, F', rfl, h.grew hw hg le_rfl (by simp) h.bound (fun r hr => Or.inl hr)
    (fun r hr => Or.inl hr) fun p hp => Or.inl hp⟩

/-- A reclaim of a live log: what it unlinks was written whole below the watermark, and is not the
append target. -/
theorem exec_reclaim {watermark : ℕ} (h : LiveInv s w n F) (hl : s.live = some (w, n))
    (hs : exec xxh3 s (.reclaim watermark) fs = some s') :
    ∃ w', ∃ F' : OpenFiles xxh3, s'.live = some (w', n) ∧ LiveInv s' w' n F' ∧
      (∃ F₁, Grew F F₁ [] ∧ Shrank watermark F₁ F') ∧
      ∀ q ∈ s.dir.seqs, q ∉ s'.dir.seqs →
        (∀ p ∈ s.written, p.1 = q → p.2.lsn ≤ watermark) ∧ w'.seq ≠ q := by
  simp only [exec, hl] at hs
  obtain ⟨F₁, F', hw, hg, hshr, -⟩ := reclaim_inv fs watermark h.writer
  cases hs
  -- the rotation is a call that appends nothing, on files that no `Wal` has to describe
  have hmid : ∀ p ∈ s.written, ∀ g ∈ F₁.segs, g.seq = p.1 → p.2 ∈ g.frames := by
    intro p hp g' hg' hs
    obtain ⟨hle, hmem⟩ := h.written p hp
    obtain ⟨g, hgm, hgs, hf⟩ := hg.seg g' hg' (by rw [h.writer.seq, hs]; exact hle)
    rw [hf]
    exact mem_append_left _ (hmem g hgm (hgs.trans hs))
  have hseq : (w.reclaim fs watermark s.dir).2.1.seq = F₁.cur.seq := by rw [← hw.seq, hshr.cur]
  refine ⟨_, F', rfl, ⟨hw, ?_, h.bound, ?_, ?_, ?_⟩, ⟨F₁, hg, hshr⟩, ?_⟩
  · intro r hr
    refine h.below r ?_
    have := (allFrames_sublist hshr.segs).subset hr
    rwa [hg.frames, append_nil] at this
  · intro r hr
    obtain ⟨hr, hlt⟩ := mem_filter.mp hr
    exact hshr.synced (hg.synced r (h.must r hr)) (by simpa using hlt)
  · intro r hr
    obtain ⟨hr, hlt⟩ := mem_filter.mp hr
    refine hshr.mem ?_ (by simpa using hlt)
    rw [hg.frames, append_nil]
    exact h.pending r hr
  · intro p hp
    refine ⟨?_, fun g hg' => hmid p hp g (hshr.segs.subset hg')⟩
    rw [hseq]
    exact ((h.written p hp).1.trans h.writer.seq.ge).trans hg.seq_le
  · intro q hq hq'
    rw [h.writer.dir, seqs_entries] at hq
    rw [hw.dir, seqs_entries] at hq'
    obtain ⟨g, hgm, rfl⟩ := mem_map.mp hq
    obtain ⟨g₁, hg₁, hgs⟩ := hg.kept g hgm
    have hnot : g₁ ∉ F'.segs := fun hm => hq' (mem_map.mpr ⟨g₁, hm, hgs⟩)
    rcases mem_append.mp hg₁ with hpre | hcur
    · refine ⟨fun p hp hpq => ?_, ?_⟩
      · rcases hshr.dropped g₁ hpre with hm | hle
        · exact absurd (mem_append_left _ hm) hnot
        · exact hle _ (hmid p hp g₁ hg₁ (hgs.trans hpq.symm))
      · rw [hseq, ← hgs]
        exact (F₁.pre_lt hpre).ne'
    · refine absurd ?_ hnot
      unfold OpenFiles.segs
      rw [hshr.cur, hshr.post]
      exact mem_append_right _ hcur

/-- An open of a directory that recovery can read. -/
theorem exec_open {rotateBytes : ℕ} {gs : List Seg} (h : DownInv xxh3 s gs) (hl : s.live = none)
    (hs : exec xxh3 s (.open rotateBytes) Faults.none = some s') :
    ∃ w n, ∃ F : OpenFiles xxh3, s'.live = some (w, n) ∧ LiveInv s' w n F ∧
      ∀ p ∈ w.closed, p.1 < w.seq := by
  obtain ⟨d, w, F, hopen, hw, hclosed, hframes, hseg, hsync⟩ :=
    openWithRotate_inv rotateBytes h.readable h.durable
  simp only [exec, hl, h.dir, hopen] at hs
  split at hs
  · cases hs
  rename_i hn
  cases hs
  refine ⟨w, _, F, rfl, ⟨hw, ?_, by omega, ?_, ?_, ?_⟩, hclosed⟩
  · intro r hr
    rw [hframes] at hr
    unfold nextLsn
    rw [readAllFrames_entries h.readable]
    have : r.lsn ≤ ((allFrames gs).map (·.lsn)).foldl max 0 :=
      le_foldl_max (Or.inl (mem_map_of_mem hr))
    omega
  · exact fun r hr => hsync r (h.must r hr)
  · intro r hr
    rw [show s.pending = [] from h.pending] at hr
    exact absurd hr not_mem_nil
  · intro p hp
    obtain ⟨e, he, hp⟩ := mem_flatMap.mp hp
    obtain ⟨x, hx, rfl⟩ := mem_map.mp he
    obtain ⟨r, hr, rfl⟩ := mem_map.mp hp
    rw [readFrames_entry h.readable hx] at hr
    obtain ⟨hle, hsegs⟩ := hseg x hx
    refine ⟨hle, fun g hg hgs => ?_⟩
    rw [h.readable.eq_of_seq (hsegs ▸ hg) hx hgs]
    exact hr

/-- The condition on appends, for one call. -/
def CallOk (xxh3 : Bytes → UInt64) (s : Sys) (c : Call) : Prop :=
  (∃ signal payload, c = .append signal payload) →
    CleanDir xxh3 s.dir ∧ ∀ w n, s.live = some (w, n) → ∀ p ∈ w.closed, p.1 ≠ w.seq

/-- A call on an open log keeps the invariant of one. -/
theorem exec_live {c : Call} (h : LiveInv s w n F) (hl : s.live = some (w, n)) (hok : CallOk xxh3 s c)
    (hs : exec xxh3 s c fs = some s') :
    ∃ w' n', ∃ F' : OpenFiles xxh3, s'.live = some (w', n') ∧ LiveInv s' w' n' F' := by
  cases c with
  | «open» rotateBytes => simp [exec, hl] at hs
  | append signal payload =>
      obtain ⟨hclean, hclosed⟩ := hok ⟨signal, payload, rfl⟩
      obtain ⟨w', F', hl', h', -⟩ := exec_append h hl hclean (hclosed w n hl) hs
      exact ⟨w', _, F', hl', h'⟩
  | sync =>
      obtain ⟨w', F', hl', h', -⟩ := exec_sync h hl hs
      exact ⟨w', n, F', hl', h'⟩
  | rotate =>
      obtain ⟨w', F', hl', h'⟩ := exec_rotate h hl hs
      exact ⟨w', n, F', hl', h'⟩
  | reclaim watermark =>
      obtain ⟨w', F', hl', h', -⟩ := exec_reclaim h hl hs
      exact ⟨w', n, F', hl', h'⟩

/-- Only `open` is enabled when no log is open. -/
theorem exec_down {c : Call} (hl : s.live = none) (hs : exec xxh3 s c fs = some s') :
    ∃ rotateBytes, c = .open rotateBytes := by
  cases c with
  | «open» rotateBytes => exact ⟨rotateBytes, rfl⟩
  | append | sync | rotate | reclaim => simp [exec, hl] at hs

/-- Wherever an open stops, a crash leaves what it found. -/
theorem openWithRotate_recoverable (rotateBytes : ℕ) (fs : Faults) {gs : List Seg}
    {must : List WalRecord} (h : Readable xxh3 gs) (hdur : ∀ g ∈ gs, g.Durable xxh3)
    (hmust : ∀ r ∈ must, r ∈ allFrames gs) :
    Recoverable xxh3 must (Wal.openWithRotate xxh3 rotateBytes fs (entries xxh3 gs)).1 := by
  unfold Wal.openWithRotate
  rw [listSegments_entries h.ascending]
  cases hlast : (entries xxh3 gs).getLast? with
  | some p => exact recoverable_durable h hdur hmust
  | none =>
      obtain rfl : gs = [] := by simpa [entries] using hlast
      have hfresh (l : Bool) : Recoverable xxh3 must (entries xxh3 [⟨1, [], [], 0, l⟩]) := by
        intro keep drop
        have hread : Readable xxh3 [⟨1, [], [], 0, true⟩] :=
          ⟨by simp, by simp [LsnOrdered], by simp, by simp⟩
        have hd : ∀ g ∈ [(⟨1, [], [], 0, true⟩ : Seg)], g.Durable xxh3 := by
          intro g hg
          rw [mem_singleton.mp hg]
          exact ⟨rfl, rfl⟩
        rcases crashDir_empty keep drop (g := ⟨1, [], [], 0, l⟩) rfl rfl with
          hc | hc
        · exact ⟨[], hc, h, hdur, hmust⟩
        · exact ⟨_, hc, hread, hd, fun r hr => absurd (hmust r hr) not_mem_nil⟩
      simp only
      split
      · exact recoverable_durable h hdur hmust
      · split
        · exact hfresh false
        · exact hfresh true

/-- Wherever a call stops, a crash leaves a directory that recovery can read, with the frames
that are promised. -/
theorem exec_recoverable {c : Call} (h : Inv xxh3 s) (hok : CallOk xxh3 s c) (hs : exec xxh3 s c fs = some s') :
    Recoverable xxh3 s'.must s'.dir := by
  cases hl : s.live with
  | some l =>
      obtain ⟨F, hF⟩ := h.up hl
      obtain ⟨w', n', F', -, h'⟩ := exec_live hF hl hok hs
      exact recoverable_open h'.writer h'.must
  | none =>
      obtain ⟨gs, hgs⟩ := h.down hl
      obtain ⟨rotateBytes, rfl⟩ := exec_down hl hs
      have hrec := openWithRotate_recoverable rotateBytes fs
        hgs.readable hgs.durable hgs.must
      rw [← hgs.dir] at hrec
      simp only [exec, hl] at hs
      split at hs
      · cases hs
      · split at hs
        all_goals
          rename_i heq
          cases hs
          rwa [heq] at hrec

/-- A crash of a recoverable directory. -/
theorem Recoverable.inv_down (h : Recoverable xxh3 s.must s.dir) (keep : ℕ → ℕ) (drop : ℕ → Bool) :
    Inv xxh3 (s.down keep drop) := by
  obtain ⟨gs, hd, hread, hdur, hmust⟩ := h keep drop
  exact ⟨gs, hd, hread, hdur, hmust, rfl⟩

/-- A crash between two calls. -/
theorem Inv.recoverable (h : Inv xxh3 s) : Recoverable xxh3 s.must s.dir := by
  cases hl : s.live with
  | some l =>
      obtain ⟨F, hF⟩ := h.up hl
      exact recoverable_open hF.writer hF.must
  | none =>
      obtain ⟨gs, hgs⟩ := h.down hl
      rw [hgs.dir]
      exact recoverable_durable hgs.readable hgs.durable hgs.must

/-- **The step lemma.** Every event keeps the invariant when appends meet `AppendOk`. -/
theorem step_inv {e : Event} (h : Inv xxh3 s) (hok : AppendOk xxh3 s e) (hopen : e.OpenFaultFree)
    (hs : step xxh3 s e = some s') : Inv xxh3 s' := by
  cases e with
  | call c fs =>
      have hc : CallOk xxh3 s c := fun ⟨signal, payload, hc⟩ => hok ⟨signal, payload, congrArg _ hc⟩
      cases hl : s.live with
      | some l =>
          obtain ⟨F, hF⟩ := h.up hl
          obtain ⟨w', n', F', hl', h'⟩ := exec_live hF hl hc hs
          exact h'.inv hl'
      | none =>
          obtain ⟨gs, hgs⟩ := h.down hl
          obtain ⟨rotateBytes, rfl⟩ := exec_down hl hs
          obtain rfl : fs = Faults.none := hopen
          obtain ⟨w', n', F', hl', h', -⟩ := exec_open hgs hl hs
          exact h'.inv hl'
  | crash cut keep drop =>
      cases cut with
      | none =>
          cases hs
          exact h.recoverable.inv_down keep drop
      | some cfs =>
          obtain ⟨c, fs⟩ := cfs
          have hc : CallOk xxh3 s c :=
            fun ⟨signal, payload, hc⟩ => hok ⟨signal, payload, congrArg _ hc⟩
          simp only [step, Option.map_eq_some_iff] at hs
          obtain ⟨m, hm, rfl⟩ := hs
          exact (exec_recoverable h hc hm).inv_down keep drop

/-- What the invariant says about recovery: every promised frame is read, once, in LSN order. -/
theorem Inv.recovered (h : Inv xxh3 s) :
    ((readAllFrames xxh3 s.dir).Pairwise fun a b => a.lsn < b.lsn) ∧
      ∀ r ∈ s.must ++ s.pending, (readAllFrames xxh3 s.dir).count r = 1 := by
  have hcount {rs : List WalRecord} (hp : rs.Pairwise fun a b => a.lsn < b.lsn) {r : WalRecord}
      (hr : r ∈ rs) : rs.count r = 1 := by
    refine count_eq_one_of_mem ?_ hr
    exact hp.imp fun hab heq => absurd (congrArg WalRecord.lsn heq) hab.ne
  cases hl : s.live with
  | some l =>
      obtain ⟨F, hF⟩ := h.up hl
      rw [hF.writer.readAllFrames]
      refine ⟨F.readable.ordered.2.2, fun r hr => hcount F.readable.ordered.2.2 ?_⟩
      rcases mem_append.mp hr with hr | hr
      · exact (hF.must r hr).mem
      · exact hF.pending r hr
  | none =>
      obtain ⟨gs, hgs⟩ := h.down hl
      rw [hgs.dir, readAllFrames_entries hgs.readable]
      refine ⟨hgs.readable.ordered.2.2, fun r hr => hcount hgs.readable.ordered.2.2 ?_⟩
      rcases mem_append.mp hr with hr | hr
      · exact hgs.must r hr
      · rw [hgs.pending] at hr
        exact absurd hr not_mem_nil

/-! ## What the calls promise -/

/-- The invariant does not read the watermark. -/
theorem Inv.withWatermark (h : Inv xxh3 s) (watermark : ℕ) : Inv xxh3 { s with watermark := watermark } := by
  rcases hl : s.live with _ | ⟨w, n⟩
  · obtain ⟨gs, hgs⟩ := h.down hl
    exact ⟨gs, hgs.dir, hgs.readable, hgs.durable, hgs.must, hgs.pending⟩
  · obtain ⟨F, hF⟩ := h.up hl
    exact ⟨F, hF.writer, hF.below, hF.bound, hF.must, hF.pending, hF.written⟩

/-- An append promises its frame, to be synced, when it returns `Ok`. -/
theorem exec_append_promises {signal : UInt8} {payload : Bytes} (hl : s.live = some (w, n))
    (hs : exec xxh3 s (.append signal payload) fs = some s') :
    (∃ w', s'.live = some (w', n + 1)) ∧ s'.must = s.must ∧
      s'.pending = s.pending ++
        if (w.append xxh3 fs n signal payload s.dir).2.2.isOk then [⟨n, signal, payload⟩]
        else [] := by
  simp only [exec, hl] at hs
  split at hs
  · cases hs
  · cases hs
    exact ⟨⟨_, rfl⟩, rfl, rfl⟩

/-- A sync keeps every promise. -/
theorem exec_sync_promises (hl : s.live = some (w, n)) (hs : exec xxh3 s .sync fs = some s') :
    (∃ w', s'.live = some (w', n)) ∧ (∀ r ∈ s.must, r ∈ s'.must) ∧
      ∀ r ∈ s.pending, r ∈ s'.must ∨ r ∈ s'.pending := by
  simp only [exec, hl] at hs
  cases hs
  refine ⟨⟨w, rfl⟩, fun r hr => mem_append_left _ hr, fun r hr => ?_⟩
  cases hok : (w.sync fs s.dir).2.isOk with
  | true => exact .inl (by simp [hr])
  | false => exact .inr (by simpa using hr)

/-- A reclaim keeps every promise above its watermark. -/
theorem exec_reclaim_promises {watermark : ℕ} (hl : s.live = some (w, n))
    (hs : exec xxh3 s (.reclaim watermark) fs = some s') :
    (∃ w', s'.live = some (w', n)) ∧ (∀ r ∈ s.must, watermark < r.lsn → r ∈ s'.must) ∧
      ∀ r ∈ s.pending, watermark < r.lsn → r ∈ s'.pending := by
  simp only [exec, hl] at hs
  cases hs
  exact ⟨⟨_, rfl⟩, fun r hr hlt => mem_filter.mpr ⟨hr, by simpa using hlt⟩,
    fun r hr hlt => mem_filter.mpr ⟨hr, by simpa using hlt⟩⟩

/-- An open keeps the promises. -/
theorem exec_open_promises {rotateBytes : ℕ} (hs : exec xxh3 s (.open rotateBytes) fs = some s') :
    s'.must = s.must ∧ ∀ w n, s'.live = some (w, n) → n = nextLsn xxh3 s.watermark s.dir := by
  cases hl : s.live with
  | some l => simp [exec, hl] at hs
  | none =>
      simp only [exec, hl] at hs
      split at hs
      · cases hs
      split at hs
      · cases hs
        refine ⟨rfl, fun w n h => ?_⟩
        cases h
      · cases hs
        refine ⟨rfl, fun w n h => ?_⟩
        cases h
        rfl

/-- A crash keeps the promises above a watermark that no reclaim it interrupts exceeds. -/
theorem crash_promises {cut : Option (Call × Faults)} {keep : ℕ → ℕ} {drop : ℕ → Bool} (watermark : ℕ)
    (hcut : ∀ w fs, cut = some (.reclaim w, fs) → w ≤ watermark) (hs : step xxh3 s (.crash cut keep drop) = some s') :
    s'.live = none ∧ ∀ r ∈ s.must, watermark < r.lsn → r ∈ s'.must := by
  rcases cut with _ | ⟨c, fs⟩
  · cases hs
    exact ⟨rfl, fun r hr _ => hr⟩
  · simp only [step, Option.map_eq_some_iff] at hs
    obtain ⟨m, hm, rfl⟩ := hs
    refine ⟨rfl, fun r hr hlt => ?_⟩
    show r ∈ m.must
    cases hl : s.live with
    | none =>
        obtain ⟨rotateBytes, rfl⟩ := exec_down hl hm
        rw [(exec_open_promises hm).1]
        exact hr
    | some l =>
        cases c with
        | «open» rotateBytes => simp [exec, hl] at hm
        | append signal payload =>
            rw [(exec_append_promises hl hm).2.1]
            exact hr
        | sync => exact (exec_sync_promises hl hm).2.1 r hr
        | rotate =>
            simp only [exec, hl] at hm
            cases hm
            exact hr
        | reclaim w => exact (exec_reclaim_promises hl hm).2.1 r hr ((hcut w fs rfl).trans_lt hlt)

/-! ## Histories whose calls do not fail -/

/-- The append target of an open log is not listed as closed. -/
def Fresh (s : Sys) : Prop := ∀ w n, s.live = some (w, n) → ∀ p ∈ w.closed, p.1 < w.seq

theorem append_none_fresh {lsn : ℕ} {signal : UInt8} {payload : Bytes} {d : Dir} (h : ∀ p ∈ w.closed, p.1 < w.seq) :
    ∀ p ∈ (w.append xxh3 Faults.none lsn signal payload d).2.1.closed,
      p.1 < (w.append xxh3 Faults.none lsn signal payload d).2.1.seq := by
  unfold Wal.append
  split
  · exact h
  · simp only [Faults.none, Wal.wrote]
    split
    · exact rotate_none_fresh h
    · exact h

/-- Events whose calls do not fail keep the append target out of `closed`. -/
theorem fresh_step {e : Event} (h : Inv xxh3 s) (hf : Fresh s) (he : e.FaultFree) (hs : step xxh3 s e = some s') :
    Fresh s' := by
  cases e with
  | crash cut keep drop =>
      intro w n hl
      cases cut with
      | none =>
          cases hs
          cases hl
      | some cfs =>
          simp only [step, Option.map_eq_some_iff] at hs
          obtain ⟨m, -, rfl⟩ := hs
          cases hl
  | call c fs =>
      obtain rfl : fs = Faults.none := he
      intro w' n' hl'
      cases hl : s.live with
      | none =>
          obtain ⟨gs, hgs⟩ := h.down hl
          obtain ⟨rotateBytes, rfl⟩ := exec_down hl hs
          obtain ⟨w, n, F, hw, -, hclosed⟩ := exec_open hgs hl hs
          rw [hw] at hl'
          cases hl'
          exact hclosed
      | some l =>
          obtain ⟨w, n⟩ := l
          obtain ⟨F, hF⟩ := h.up hl
          have hw := hf w n hl
          cases c with
          | «open» rotateBytes => simp [step, exec, hl] at hs
          | append signal payload =>
              simp only [step, exec, hl] at hs
              split at hs
              · cases hs
              · cases hs
                cases hl'
                exact append_none_fresh hw
          | sync =>
              simp only [step, exec, hl] at hs
              cases hs
              cases hl'
              exact hw
          | rotate =>
              simp only [step, exec, hl] at hs
              cases hs
              cases hl'
              exact rotate_none_fresh (d := s.dir) hw
          | reclaim watermark =>
              obtain ⟨F₁, F', -, -, -, -, hfresh⟩ := reclaim_inv Faults.none
                watermark hF.writer
              simp only [step, exec, hl] at hs
              cases hs
              cases hl'
              exact (hfresh rfl).2

/-- **Durability.** After any history of opens, appends, syncs, rotations, reclaims and crashes
whose appends are made when every segment file scans cleanly to its end, recovery reads each frame
whose append and sync completed and that no reclaim was allowed to drop exactly once, and reads
frames in LSN order. -/
theorem durable_frames_recovered (xxh3 : Bytes → UInt64) (es : List Event) (s : Sys)
    (hfree : ∀ e ∈ es, e.FaultFree) (hclean : Guarded (step xxh3) (CleanAppend xxh3) Sys.init es)
    (hrun : run (step xxh3) Sys.init es = some s) :
    ((readAllFrames xxh3 s.dir).Pairwise fun a b => a.lsn < b.lsn) ∧
      ∀ r ∈ s.must, (readAllFrames xxh3 s.dir).count r = 1 := by
  have hinv : Inv xxh3 s ∧ Fresh s := by
    refine run_induction (fun s => Inv xxh3 s ∧ Fresh s) ?_
      ⟨inv_init, fun _ _ hl => by cases hl⟩ (hclean.and_forall hfree) hrun
    rintro s e s' ⟨hi, hf⟩ ⟨hc, he⟩ hs
    have hok : AppendOk xxh3 s e :=
      fun ha => ⟨hc ha, fun w n hl p hp => (hf w n hl p hp).ne⟩
    have hopen : e.OpenFaultFree := by
      cases e with
      | call c fs => cases c <;> first | exact he | trivial
      | crash => trivial
    exact ⟨step_inv hi hok hopen hs, fresh_step hi hf he hs⟩
  obtain ⟨hord, hmem⟩ := hinv.1.recovered
  exact ⟨hord, fun r hr => hmem r (mem_append_left _ hr)⟩

/-- A synced append, an append that a crash tears. -/
def syncedRun : List Event :=
  [.call (.open 1000) Faults.none,
    .call (.append 0 [7]) Faults.none,
    .call .sync Faults.none,
    .call (.append 0 [8]) Faults.none,
    .crash none (fun _ => 4) fun _ => false]

theorem durable_frames_recovered_synced :
    ∃ s, run (step fun _ => 0) Sys.init syncedRun = some s ∧ s.must = [⟨1, 0, [7]⟩] ∧
      ∀ r ∈ s.must, (readAllFrames (fun _ => 0) s.dir).count r = 1 := by
  have hfree : ∀ e ∈ syncedRun, e.FaultFree := by simp [syncedRun, Event.FaultFree]
  have hclean : Guarded (step fun _ => 0) (CleanAppend fun _ => 0) Sys.init syncedRun :=
    ⟨fun _ => by decide, fun _ => by decide, fun _ => by decide, fun _ => by decide,
      fun _ => by decide, trivial⟩
  let s : Sys := ⟨[(1, ⟨encodeFrame (fun _ => 0) 1 0 [7] ++ leBytes 4 1, 26, true⟩)], none, 0, [],
    [⟨1, 0, [7]⟩], []⟩
  have hrun : run (step fun _ => 0) Sys.init syncedRun = some s := rfl
  exact ⟨s, hrun, rfl, (durable_frames_recovered _ syncedRun s hfree hclean hrun).2⟩

/-- An append, a crash that tears its frame, a reopen, a synced append and a crash. -/
def tornReopen : List Event :=
  [.call (.open 1000) Faults.none,
    .call (.append 0 (List.replicate 30 7)) Faults.none,
    .crash none (fun _ => 4) fun _ => false,
    .call (.open 1000) Faults.none,
    .call (.append 0 [7]) Faults.none,
    .call .sync Faults.none,
    .crash none (fun _ => 0) fun _ => false]

/-- Opening a log does not cut a torn tail off: a frame appended and synced behind one is not read
back, whatever the checksum function. -/
theorem torn_reopen_loses_frame :
    ¬ ∃ xxh3 : Bytes → UInt64, ∀ es s, (∀ e ∈ es, e.FaultFree) →
      run (step xxh3) Sys.init es = some s →
        ∀ r ∈ s.must, (readAllFrames xxh3 s.dir).count r = 1 := by
  rintro ⟨xxh3, h⟩
  have hfree : ∀ e ∈ tornReopen, e.FaultFree := by simp [tornReopen, Event.FaultFree]
  -- the four bytes the crash left are the length field of a 51-byte frame; 26 bytes are there
  let s : Sys := ⟨[(1, ⟨leBytes 4 30 ++ encodeFrame xxh3 1 0 [7], 26, true⟩)], none, 0, [],
    [⟨1, 0, [7]⟩], []⟩
  have hrun : run (step xxh3) Sys.init tornReopen = some s := rfl
  have hnone : readAllFrames xxh3 s.dir = [] := rfl
  have hcount := h tornReopen s hfree hrun ⟨1, 0, [7]⟩ (mem_singleton.mpr rfl)
  rw [hnone] at hcount
  exact absurd hcount (by simp)

/-! ## Histories in which any call may fail -/

/-- Every acknowledged frame is read back, and a reclaim unlinks a file only when every frame
written to it is at or below its watermark and it is not the append target. -/
def ReclaimSafe (xxh3 : Bytes → UInt64) (s : Sys) : Prop :=
  (∀ r ∈ s.must ++ s.pending, r ∈ readAllFrames xxh3 s.dir) ∧
    ∀ watermark fs s', step xxh3 s (.call (.reclaim watermark) fs) = some s' →
      ∀ q ∈ s.dir.seqs, q ∉ s'.dir.seqs →
        (∀ p ∈ s.written, p.1 = q → p.2.lsn ≤ watermark) ∧
          ∀ w n, s'.live = some (w, n) → w.seq ≠ q

/-- **Reclaim never unlinks live data.** After any history of calls, any of whose file operations
may fail, and of crashes, whose appends are made when every segment file scans cleanly to its end
and the append target is not listed as closed. -/
theorem reclaim_keeps_live_frames (xxh3 : Bytes → UInt64) (es : List Event) (s : Sys)
    (hopen : ∀ e ∈ es, e.OpenFaultFree)
    (hok : Guarded (step xxh3) (AppendOk xxh3) Sys.init es)
    (hrun : run (step xxh3) Sys.init es = some s) : ReclaimSafe xxh3 s := by
  have hinv : Inv xxh3 s :=
    run_induction (Inv xxh3) (fun s e s' hi hoe hs => step_inv hi hoe.1 hoe.2 hs) inv_init
      (hok.and_forall hopen) hrun
  refine ⟨fun r hr => ?_, fun watermark fs s' hs q hq hq' => ?_⟩
  · have hcount := hinv.recovered.2 r hr
    exact count_pos_iff.mp (by omega)
  · cases hl : s.live with
    | none => simp [step, exec, hl] at hs
    | some l =>
        obtain ⟨F, hF⟩ := hinv.up hl
        obtain ⟨w', F', hl', -, -, hdrop⟩ := exec_reclaim hF hl hs
        obtain ⟨hle, hne⟩ := hdrop q hq hq'
        refine ⟨hle, fun w n hw => ?_⟩
        rw [hl'] at hw
        cases hw
        exact hne

/-- An append whose write fails half way, the reclaim that drops the torn file, and an append to
the fresh one. -/
def failedWrite : List Event :=
  [.call (.open 1000) Faults.none,
    .call (.append 0 [7]) { write := some 5 },
    .call (.reclaim 1) Faults.none,
    .call (.append 0 [8]) Faults.none]

theorem reclaim_keeps_live_frames_failed_write :
    ∃ s, run (step fun _ => 0) Sys.init failedWrite = some s ∧ s.pending = [⟨2, 0, [8]⟩] ∧
      ReclaimSafe (fun _ => 0) s := by
  have hopen : ∀ e ∈ failedWrite, e.OpenFaultFree := by simp [failedWrite, Event.OpenFaultFree]
  have hok : Guarded (step fun _ => 0) (AppendOk fun _ => 0) Sys.init failedWrite := by
    refine ⟨fun _ => ⟨by decide, by simp [Sys.init]⟩, fun _ => ⟨by decide, ?_⟩, ?_, ?_, trivial⟩
    · intro w n hl
      cases hl
      simp
    · rintro ⟨signal, payload, hc⟩
      cases hc
    · refine fun _ => ⟨by decide, ?_⟩
      intro w n hl
      cases hl
      decide
  let s : Sys := ⟨[(2, ⟨encodeFrame (fun _ => 0) 2 0 [8], 0, true⟩)],
    some (⟨2, 22, 2, 1000, []⟩, 3), 1, [⟨2, 0, [8]⟩], [], [(2, ⟨2, 0, [8]⟩)]⟩
  have hrun : run (step fun _ => 0) Sys.init failedWrite = some s := rfl
  exact ⟨s, hrun, rfl, reclaim_keeps_live_frames _ failedWrite s hopen hok hrun⟩

/-- An append whose rotation fails to create the next segment, and one that succeeds. -/
def failedRotate : List Event :=
  [.call (.open 10) Faults.none,
    .call (.append 0 [7]) { create := true },
    .call (.append 0 [8]) Faults.none]

/-- A rotation lists the closing segment before it opens the next one, so that one that fails
leaves the append target listed with the LSN it had: the next reclaim at that LSN unlinks it with
what was appended since. -/
theorem failed_rotate_loses_frame :
    ¬ ∃ xxh3 : Bytes → UInt64, ∀ es s, (∀ e ∈ es, e.OpenFaultFree) →
      run (step xxh3) Sys.init es = some s → ReclaimSafe xxh3 s := by
  rintro ⟨xxh3, h⟩
  have hopen : ∀ e ∈ failedRotate, e.OpenFaultFree := by simp [failedRotate, Event.OpenFaultFree]
  let s : Sys := ⟨[(1, ⟨encodeFrame xxh3 1 0 [7] ++ encodeFrame xxh3 2 0 [8], 44, true⟩),
    (2, ⟨[], 0, true⟩)], some (⟨2, 0, 0, 10, [(1, 1), (1, 2)]⟩, 3), 0, [⟨2, 0, [8]⟩], [],
    [(1, ⟨1, 0, [7]⟩), (1, ⟨2, 0, [8]⟩)]⟩
  let s' : Sys := ⟨[(3, ⟨[], 0, true⟩)], some (⟨3, 0, 0, 10, [(1, 2)]⟩, 3), 1,
    [⟨2, 0, [8]⟩], [], [(1, ⟨1, 0, [7]⟩), (1, ⟨2, 0, [8]⟩)]⟩
  have hrun : run (step xxh3) Sys.init failedRotate = some s := rfl
  have hrec : step xxh3 s (.call (.reclaim 1) Faults.none) = some s' := rfl
  have hsafe := (h failedRotate s hopen hrun).2 1 Faults.none s' hrec 1
    (by simp [s, Dir.seqs]) (by simp [s', Dir.seqs])
  exact absurd (hsafe.1 (1, ⟨2, 0, [8]⟩) (by simp [s]) rfl) (by simp)

end Imbh.WriteAhead
