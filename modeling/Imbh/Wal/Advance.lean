import Imbh.Wal.Cursor
import Imbh.Wal.System

/-!
# An advance, one file at a time

`advance` lists the segments and then reads each file at its own time, and the writer goes on in
between: it appends to the last file, rotates to a new one, and unlinks old ones. `Scanning` says
how far an advance is whose listed files are those of `rest` from here on.

The files that were listed have a bound: every frame that was in the log by then is below it. When
no file is left, every frame below the bound has been seen (`Scanning.done`).

A file above the append target, which a failed rotation left, may be listed too. Nothing is appended
below it before a rotation makes it the append target, provided that no append is made while the
append target is listed as closed.
-/

namespace Imbh.WriteAhead

open Lib List

variable {xxh3 : Bytes → UInt64}

/-! ## The append target -/

/-- What a call does to the append target: it stays, and its entries in `closed` too, or a higher
one takes its place. -/
def Kept (w w' : Wal) : Prop := (w'.seq = w.seq ∧ w.closed ⊆ w'.closed) ∨ w.seq < w'.seq

theorem Kept.refl (w : Wal) : Kept w w := .inl ⟨rfl, List.Subset.refl _⟩

theorem rotate_kept (fs : Faults) (d : Dir) (w : Wal) : Kept w (w.rotate fs d).2.1 := by
  have hsub : w.closed ⊆ w.closed ++ [(w.seq, w.currentMaxLsn)] := subset_append_left _ _
  unfold Wal.rotate
  split
  · exact Kept.refl w
  simp only
  split
  · exact .inl ⟨rfl, hsub⟩
  split
  · exact .inl ⟨rfl, hsub⟩
  · exact .inr (Nat.lt_succ_self _)

/-- A reclaim drops entries of `closed` only after its rotation. -/
theorem reclaim_kept (fs : Faults) (watermark : ℕ) (d : Dir) (w : Wal) :
    Kept w (w.reclaim fs watermark d).2.1 := by
  have hrot := rotate_kept fs d w
  have hok : ∀ d' w', w.rotate fs d = (d', w', .ok ()) → w'.seq = w.seq + 1 := by
    intro d' w' h
    unfold Wal.rotate at h
    split at h
    · cases h
    simp only at h
    split at h
    · cases h
    split at h
    · cases h
    · cases h
      rfl
  unfold Wal.reclaim
  rcases hres : w.rotate fs d with ⟨d₁, w₁, _ | _⟩
  · rw [hres] at hrot
    exact hrot
  · have hlt : w.seq < w₁.seq := by
      rw [hok d₁ w₁ hres]
      exact Nat.lt_succ_self _
    simp only
    split
    · exact .inr hlt
    · exact .inr hlt

theorem append_kept (fs : Faults) (lsn : ℕ) (signal : UInt8) (payload : Bytes) (d : Dir) (w : Wal) :
    Kept w (w.append xxh3 fs lsn signal payload d).2.1 := by
  unfold Wal.append
  split
  · exact Kept.refl w
  simp only
  split
  · exact Kept.refl w
  unfold Wal.wrote
  simp only
  split
  · exact rotate_kept fs _ _
  · exact Kept.refl w

/-- The calls of a process. -/
theorem exec_kept {s s' : Sys} {call : Call} {fs : Faults} {w w' : Wal} {n n' : ℕ}
    (hl : s.live = some (w, n)) (hl' : s'.live = some (w', n'))
    (hs : exec xxh3 s call fs = some s') : Kept w w' := by
  cases call with
  | «open» rotateBytes => simp [exec, hl] at hs
  | append signal payload =>
      simp only [exec, hl] at hs
      split at hs
      · cases hs
      · cases hs
        cases hl'
        exact append_kept fs n signal payload s.dir w
  | sync =>
      simp only [exec, hl] at hs
      cases hs
      cases hl'
      exact Kept.refl w
  | rotate =>
      simp only [exec, hl] at hs
      cases hs
      cases hl'
      exact rotate_kept fs s.dir w
  | reclaim watermark =>
      simp only [exec, hl] at hs
      cases hs
      cases hl'
      exact reclaim_kept fs watermark s.dir w

/-! ## How far an advance is -/

/-- An advance that still has to read the files `rest`: those listed below one of them have been
read to the end, and a frame below `bound` has been seen or is in a file still to be read. -/
structure Scanning (w : Wal) (F : OpenFiles xxh3) (c : WalTailCursor) (rest : List ℕ)
    (bound : ℕ) : Prop where
  sorted : rest.Pairwise (· < ·)
  target : ∀ q ∈ rest, q ≤ w.seq ∨ q = w.seq + 1 ∧ ∃ p ∈ w.closed, p.1 = w.seq
  passed : ∀ g ∈ F.segs, ∀ q ∈ rest, g.seq < q →
    g.seq ∈ rest ∨ ∀ r ∈ g.frames, c.seen r = true
  covered : ∀ g ∈ F.segs, ∀ r ∈ g.frames, r.lsn < bound → g.seq ∈ rest ∨ c.seen r = true

/-- Between two advances. -/
theorem scanning_nil (w : Wal) (F : OpenFiles xxh3) (c : WalTailCursor) :
    Scanning w F c [] 0 :=
  ⟨Pairwise.nil, by simp, by simp, fun _ _ _ _ h => absurd h (Nat.not_lt_zero _)⟩

/-- The listing. -/
theorem scanning_listed {d : Dir} {w : Wal} {F : OpenFiles xxh3} (h : WriterInv d w F)
    (c : WalTailCursor) (bound : ℕ) :
    Scanning w F c ((listSegments d).map Prod.fst) bound := by
  have hlist : (listSegments d).map Prod.fst = F.segs.map Seg.seq := by
    rw [h.dir, listSegments_entries F.readable_segs.ascending]
    simp [entries, Seg.entry]
  rw [hlist]
  refine ⟨pairwise_map.mpr F.readable_segs.ascending, fun q hq => ?_,
    fun g hg _ _ _ => .inl (mem_map_of_mem hg), fun g hg _ _ _ => .inl (mem_map_of_mem hg)⟩
  obtain ⟨g, hg, rfl⟩ := mem_map.mp hq
  rw [← h.seq]
  rcases mem_append.mp hg with hg | hg
  · exact .inl (F.pre_lt hg).le
  · rcases mem_cons.mp hg with rfl | hg
    · exact .inl le_rfl
    · obtain ⟨p, hp, heq⟩ := h.post_listed (ne_nil_of_mem hg)
      exact .inr ⟨(F.empty g hg).1, p, hp, heq.trans h.seq.symm⟩

section step

variable {w w' : Wal} {F F' : OpenFiles xxh3} {c : WalTailCursor} {rest : List ℕ} {q bound : ℕ}

/-- When every listed file has been read, so has every frame below the bound. -/
theorem Scanning.done (h : Scanning w F c [] bound) :
    ∀ r ∈ allFrames F.segs, r.lsn < bound → c.seen r = true := by
  intro r hr hlt
  obtain ⟨g, hg, hrg⟩ := mem_allFrames.mp hr
  exact (h.covered g hg r hrg hlt).resolve_left not_mem_nil

/-- A call that appends frames above the bound. -/
theorem Scanning.grew {new : List WalRecord} (h : Scanning w F c rest bound)
    (hseq : F.cur.seq = w.seq) (hg : Grew F F' new) (hk : Kept w w')
    (hnew : new = [] ∨ ∀ p ∈ w.closed, p.1 ≠ w.seq) (hbound : ∀ r ∈ new, bound ≤ r.lsn) :
    Scanning w' F' c rest bound := by
  refine ⟨h.sorted, fun q hq => ?_, fun g' hg' q hq hlt => ?_, fun g' hg' r hr hlt => ?_⟩
  · rcases h.target q hq with hle | ⟨rfl, p, hp, hps⟩
    · rcases hk with ⟨hs, -⟩ | hlt
      · exact .inl (hs ▸ hle)
      · exact .inl (hle.trans hlt.le)
    · rcases hk with ⟨hs, hsub⟩ | hlt
      · exact .inr ⟨by rw [hs], p, hsub hp, by rw [hps, hs]⟩
      · exact .inl hlt
  · rcases Nat.lt_or_ge F.cur.seq g'.seq with hgt | hle
    · refine .inr ?_
      rw [hg.above g' hg' hgt]
      exact fun _ h => absurd h not_mem_nil
    obtain ⟨g, hgm, hgs, hf⟩ := hg.seg g' hg' hle
    -- nothing is appended below a file that is still to be read
    have hnil : (if g.seq = F.cur.seq then new else []) = [] := by
      rcases hnew with rfl | hne
      · exact ite_self _
      · refine if_neg fun heq => ?_
        rcases h.target q hq with hle | ⟨-, p, hp, hps⟩
        · omega
        · exact hne p hp hps
    rw [hf, hnil, append_nil, ← hgs]
    exact h.passed g hgm q hq (hgs ▸ hlt)
  · rcases Nat.lt_or_ge F.cur.seq g'.seq with hgt | hle
    · rw [hg.above g' hg' hgt] at hr
      exact absurd hr not_mem_nil
    obtain ⟨g, hgm, hgs, hf⟩ := hg.seg g' hg' hle
    rw [hf] at hr
    rcases mem_append.mp hr with hr | hr
    · rw [← hgs]
      exact h.covered g hgm r hr hlt
    · have hmem : r ∈ new := by
        split at hr
        · exact hr
        · exact absurd hr not_mem_nil
      exact absurd hlt (Nat.not_lt_of_le (hbound r hmem))

/-- Files that are gone. -/
theorem Scanning.shrank (h : Scanning w F c rest bound) (hs : F'.segs ⊆ F.segs) :
    Scanning w F' c rest bound :=
  ⟨h.sorted, h.target, fun g hg => h.passed g (hs hg), fun g hg => h.covered g (hs hg)⟩

/-- **The read of the next file.** The advance goes on behind it, or ends at its torn tail, behind
which there is no frame. -/
theorem Scanning.read {watermark next : ℕ} (h : Scanning w F c (q :: rest) bound)
    (hc : CursorInv xxh3 F.segs watermark F.cur.seq next c)
    (hnext : ∀ r ∈ allFrames F.segs, r.lsn < next) :
    CursorInv xxh3 F.segs watermark F.cur.seq next
        (WalTailCursor.advanceSegment xxh3 (entries xxh3 F.segs) q c).1 ∧
      Scanning w F (WalTailCursor.advanceSegment xxh3 (entries xxh3 F.segs) q c).1
        (if (WalTailCursor.advanceSegment xxh3 (entries xxh3 F.segs) q c).2 then rest else [])
        bound := by
  obtain ⟨hq, hsorted⟩ := pairwise_cons.mp h.sorted
  have hprev : ∀ g ∈ F.segs, g.seq < q → ∀ r ∈ g.frames, c.seen r = true := by
    intro g hg hlt
    refine (h.passed g hg q mem_cons_self hlt).resolve_left fun hmem => ?_
    rcases mem_cons.mp hmem with heq | hmem
    · exact hlt.ne heq
    · exact absurd (hq _ hmem) (Nat.not_lt_of_gt hlt)
  obtain ⟨hinv, hmono, hupto, htorn⟩ :=
    advanceSegment_inv hc F.readable_segs hprev F.seq_le_cur hnext
  refine ⟨hinv, ?_⟩
  rcases hres : WalTailCursor.advanceSegment xxh3 (entries xxh3 F.segs) q c with ⟨c', complete⟩
  rw [hres] at hmono hupto htorn
  cases complete with
  | true =>
      refine ⟨hsorted, fun p hp => h.target p (mem_cons_of_mem _ hp),
        fun g hg p hp hlt => ?_, fun g hg r hr hlt => ?_⟩
      · rcases h.passed g hg p (mem_cons_of_mem _ hp) hlt with hmem | hseen
        · rcases mem_cons.mp hmem with heq | hmem
          · exact .inr (hupto g hg heq.le)
          · exact .inl hmem
        · exact .inr fun r hr => hmono r (hseen r hr)
      · rcases h.covered g hg r hr hlt with hmem | hseen
        · rcases mem_cons.mp hmem with heq | hmem
          · exact .inr (hupto g hg heq.le r hr)
          · exact .inl hmem
        · exact .inr (hmono r hseen)
  | false =>
      refine ⟨Pairwise.nil, by simp, by simp, fun g hg r hr _ => .inr ?_⟩
      obtain ⟨x, hx, hxs, hxt⟩ := htorn rfl
      rcases Nat.lt_or_ge q g.seq with hgt | hle
      · rw [F.readable_segs.frames_of_torn hx hg (hxs ▸ hgt) hxt] at hr
        exact absurd hr not_mem_nil
      · exact hupto g hg hle r hr

end step

end Imbh.WriteAhead
