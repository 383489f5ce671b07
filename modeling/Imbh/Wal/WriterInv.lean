import Imbh.Wal.OpenFiles

/-!
# The writer's calls keep the invariant

One lemma for each method of `Wal`: whatever file operations fail, the bookkeeping still describes
the files after the call, and the call did to the log what it says.

`append_inv` has two conditions on the state before the call: no segment has a torn tail, and the
append target is not listed as closed. The other calls need none.
-/

namespace Imbh.WriteAhead

open Lib List

variable {xxh3 : Bytes → UInt64} {F F' : OpenFiles xxh3} {d : Dir} {w : Wal} {watermark : ℕ} {new : List WalRecord}

/-! ## Changing the append target -/

namespace OpenFiles

/-- The files with another append target at the same sequence number. -/
def setCur (F : OpenFiles xxh3) (cur : Seg) (hseq : cur.seq = F.cur.seq)
    (hlinked : cur.linked = true) (hsync : cur.synced ≤ (cur.bytes xxh3).length)
    (hread : Readable xxh3 (F.pre ++ cur :: F.post)) : OpenFiles xxh3 where
  pre := F.pre
  cur := cur
  post := F.post
  readable := hread
  linked := hlinked
  synced_le := hsync
  durable := F.durable
  empty g hg := hseq ▸ F.empty g hg

variable (F : OpenFiles xxh3)

/-- An append target that holds more frames, synced at least as far. -/
theorem grew_setCur (cur : Seg) (hseq : cur.seq = F.cur.seq) (hlinked : cur.linked = true)
    (hle : cur.synced ≤ (cur.bytes xxh3).length) (hread : Readable xxh3 (F.pre ++ cur :: F.post))
    (hframes : cur.frames = F.cur.frames ++ new) (hsync : F.cur.synced ≤ cur.synced) :
    Grew F (F.setCur cur hseq hlinked hle hread) new where
  frames := by
    rw [allFrames_segs, allFrames_segs, append_assoc, ← hframes]
    rfl
  seg g' hg' _ := by
    rcases mem_append.mp hg' with hg' | hg'
    · exact ⟨g', mem_append_left _ hg', rfl, by simp [(F.pre_lt hg').ne]⟩
    · rcases mem_cons.mp hg' with rfl | hg'
      · exact ⟨F.cur, F.cur_mem_segs, hseq.symm, by rw [if_pos rfl, ← hframes]⟩
      · exact ⟨g', mem_append_right _ (mem_cons_of_mem _ hg'), rfl,
          by simp [(F.lt_post hg').ne']⟩
  above g' hg' hlt := by
    rcases mem_append.mp hg' with hg' | hg'
    · exact absurd (F.pre_lt hg') (by omega)
    · rcases mem_cons.mp hg' with rfl | hg'
      · exact absurd hlt (hseq ▸ lt_irrefl _)
      · exact (F.empty g' hg').2.1
  kept g hg := by
    rcases mem_append.mp hg with hg | hg
    · exact ⟨g, mem_append_left _ hg, rfl⟩
    · rcases mem_cons.mp hg with rfl | hg
      · exact ⟨cur, mem_append_right _ mem_cons_self, hseq⟩
      · exact ⟨g, mem_append_right _ (mem_cons_of_mem _ hg), rfl⟩
  synced r hr := by
    rcases hr with hr | ⟨k, hk, hlen⟩
    · exact Or.inl hr
    · right
      have htake : cur.frames.take (min k F.cur.frames.length) = F.cur.frames.take k := by
        rw [hframes, take_append_of_le_length (Nat.min_le_right _ _), ← take_take,
          take_length]
      refine ⟨min k F.cur.frames.length, ?_, ?_⟩
      · exact htake ▸ hk
      · exact htake ▸ hlen.trans hsync
  seq_le := hseq.ge

/-- The append target after `sync_data`. -/
def syncCur : OpenFiles xxh3 :=
  F.setCur { F.cur with synced := (F.cur.bytes xxh3).length } rfl F.linked le_rfl
    (F.readable.of_key_eq (by simp [Seg.key]))

end OpenFiles

/-- A readable list stays readable when an empty segment is added above it. -/
theorem Readable.concat_empty {gs : List Seg} (h : Readable xxh3 gs) {n : Seg}
    (hlt : ∀ g ∈ gs, g.seq < n.seq) (hf : n.frames = []) (ht : n.torn = []) :
    Readable xxh3 (gs ++ [n]) where
  ascending := pairwise_append.mpr ⟨h.ascending, by simp, by simpa using hlt⟩
  ordered := by simpa [hf] using h.ordered
  tails g hg := by
    rcases mem_append.mp hg with hg | hg
    · exact h.tails g hg
    · rw [mem_singleton.mp hg, ht]
      exact (walFraming xxh3).torn_nil
  stopped := pairwise_append.mpr ⟨h.stopped, by simp, by simp [hf]⟩

/-- Files that differ above the append target only. -/
theorem grew_of_pre_cur (hp : F'.pre = F.pre) (hc : F'.cur = F.cur) (hpost : ∀ g ∈ F.post, g ∈ F'.post) :
    Grew F F' [] where
  frames := by rw [F'.allFrames_segs, F.allFrames_segs, hp, hc, append_nil]
  seg g' hg' hle := by
    refine ⟨g', ?_, rfl, by simp⟩
    rcases mem_append.mp hg' with hg' | hg'
    · exact mem_append_left _ (hp ▸ hg')
    · rcases mem_cons.mp hg' with rfl | hg'
      · exact hc ▸ F.cur_mem_segs
      · have := F'.lt_post hg'
        rw [hc] at this
        omega
  above g' hg' hlt := (Grew.refl F').above g' hg' (hc ▸ hlt)
  kept g hg := by
    refine ⟨g, ?_, rfl⟩
    unfold OpenFiles.segs
    rw [hp, hc]
    rcases mem_append.mp hg with hg | hg
    · exact mem_append_left _ hg
    · rcases mem_cons.mp hg with rfl | hg
      · exact mem_append_right _ mem_cons_self
      · exact mem_append_right _ (mem_cons_of_mem _ (hpost g hg))
  synced r hr := by
    unfold OpenFiles.Synced at hr ⊢
    rwa [hp, hc]
  seq_le := by rw [hc]

/-- Opening the next segment file creates it unless a failed rotation has. -/
theorem openAppendFile_next (F : OpenFiles xxh3) :
    ∃ F' : OpenFiles xxh3, openAppendFile (entries xxh3 F.segs) (F.cur.seq + 1) =
      entries xxh3 F'.segs ∧ F'.pre = F.pre ∧ F'.cur = F.cur ∧ Grew F F' [] ∧
      ∃ g, F'.post = [g] := by
  unfold openAppendFile
  rcases F.post_cases with hpost | ⟨g, hpost⟩
  · have hseqs : F.cur.seq + 1 ∉ (entries xxh3 F.segs).seqs := by
      rw [seqs_entries]
      intro hmem
      obtain ⟨g, hg, hs⟩ := mem_map.mp hmem
      unfold OpenFiles.segs at hg
      rw [hpost] at hg
      rcases mem_append.mp hg with hg | hg
      · have := F.pre_lt hg
        omega
      · rw [mem_singleton.mp hg] at hs
        omega
    have hread : Readable xxh3 (F.pre ++ F.cur :: []) := hpost ▸ F.readable
    have hlt : ∀ g ∈ F.pre ++ [F.cur], g.seq < F.cur.seq + 1 := by
      intro g hg
      rcases mem_append.mp hg with hg | hg
      · exact (F.pre_lt hg).trans (Nat.lt_succ_self _)
      · rw [mem_singleton.mp hg]
        exact Nat.lt_succ_self _
    have hread' := hread.concat_empty (n := ⟨F.cur.seq + 1, [], [], 0, false⟩) hlt rfl rfl
    refine ⟨⟨F.pre, F.cur, [⟨F.cur.seq + 1, [], [], 0, false⟩], by simpa using hread', F.linked,
      F.synced_le, F.durable, by simp⟩, ?_, rfl, rfl, grew_of_pre_cur rfl rfl (by simp [hpost]), _, rfl⟩
    rw [if_neg hseqs]
    simp [entries, OpenFiles.segs, hpost, Seg.entry, Seg.bytes]
  · have hg := F.empty g (by simp [hpost])
    have hseqs : F.cur.seq + 1 ∈ (entries xxh3 F.segs).seqs := by
      rw [seqs_entries]
      exact mem_map.mpr ⟨g, by simp [OpenFiles.segs, hpost], hg.1⟩
    exact ⟨F, if_pos hseqs, rfl, rfl, Grew.refl F, g, hpost⟩

/-- Once the directory is fsynced, the empty segment above a synced append target can take its
place. -/
theorem fsyncDir_advance (F : OpenFiles xxh3) {g : Seg} (hpost : F.post = [g])
    (hsync : F.cur.synced = (F.cur.bytes xxh3).length) :
    ∃ F' : OpenFiles xxh3, fsyncDir (entries xxh3 F.segs) = entries xxh3 F'.segs ∧
      F'.cur.seq = F.cur.seq + 1 ∧ F'.cur.frames = [] ∧ F'.post = [] ∧
      F'.segs = F.segs.map Seg.link ∧ Grew F F' [] := by
  obtain ⟨hseq, hframes, -, hzero⟩ := F.empty g (by simp [hpost])
  have hgle : g.link.synced ≤ (g.link.bytes xxh3).length := by
    rw [g.link_synced, hzero]
    exact Nat.zero_le _
  have hsegs : (F.pre ++ [F.cur]).map Seg.link ++ g.link :: [] = F.segs.map Seg.link := by
    simp [OpenFiles.segs, hpost]
  have hdur : ∀ x ∈ (F.pre ++ [F.cur]).map Seg.link, x.Durable xxh3 := by
    intro x hx
    obtain ⟨y, hy, rfl⟩ := mem_map.mp hx
    rcases mem_append.mp hy with hy | hy
    · exact ⟨(F.durable y hy).1, rfl⟩
    · rw [mem_singleton.mp hy]
      exact ⟨hsync, rfl⟩
  have hmem : allFrames ((F.pre ++ [F.cur]).map Seg.link) = allFrames F.segs := by
    rw [allFrames_map_link, allFrames_append, F.allFrames_segs]
    simp
  let F' : OpenFiles xxh3 := ⟨(F.pre ++ [F.cur]).map Seg.link, g.link, [],
    hsegs ▸ F.readable.map_link, rfl, hgle, hdur, by simp⟩
  have hsegs' : F'.segs = F.segs.map Seg.link := hsegs
  refine ⟨F', by rw [fsyncDir_entries, hsegs'], hseq, hframes, rfl, hsegs', ?_⟩
  constructor
  · rw [hsegs', allFrames_map_link, append_nil]
  · intro g' hg' _
    rw [hsegs'] at hg'
    obtain ⟨x, hx, rfl⟩ := mem_map.mp hg'
    exact ⟨x, hx, rfl, by simp⟩
  · intro g' hg' hlt
    rw [hsegs'] at hg'
    obtain ⟨x, hx, rfl⟩ := mem_map.mp hg'
    exact (Grew.refl F).above x hx hlt
  · intro x hx
    exact ⟨x.link, hsegs' ▸ mem_map_of_mem hx, rfl⟩
  · intro r hr
    exact Or.inl (hmem.symm ▸ hr.mem)
  · have : F'.cur.seq = F.cur.seq + 1 := hseq
    omega

/-! ## The calls -/

/-- A bound on the frames of closed segments survives a call that appends none to them. -/
theorem Grew.closed_bound (h : Grew F F' new) {closed : List (ℕ × ℕ)} (hle : ∀ p ∈ closed, p.1 ≤ F.cur.seq)
    (hb : ∀ p ∈ closed, ∀ g ∈ F.segs, g.seq = p.1 → ∀ r ∈ g.frames, r.lsn ≤ p.2)
    (hnew : new = [] ∨ ∀ p ∈ closed, p.1 ≠ F.cur.seq) :
    ∀ p ∈ closed, ∀ g ∈ F'.segs, g.seq = p.1 → ∀ r ∈ g.frames, r.lsn ≤ p.2 := by
  intro p hp g' hg' hs r hr
  obtain ⟨g, hg, hseq, hf⟩ := h.seg g' hg' (hs ▸ hle p hp)
  have hif : (if g.seq = F.cur.seq then new else []) = [] := by
    rcases hnew with rfl | hne
    · exact ite_self _
    · rw [if_neg fun hc => hne p hp (hs.symm.trans (hseq.symm.trans hc))]
  rw [hf, hif, append_nil] at hr
  exact hb p hp g hg (hseq.trans hs) r hr

/-- `sync_data` on the append target. -/
theorem WriterInv.syncData (h : WriterInv d w F) :
    WriterInv (syncData d w.seq) w F.syncCur ∧ Grew F F.syncCur [] := by
  have hgrew : Grew F F.syncCur [] := F.grew_setCur _ _ _ _ _ (append_nil _).symm F.synced_le
  refine ⟨⟨?_, h.seq, h.closed_le, ?_, h.cur_bound, h.post_listed⟩, hgrew⟩
  · rw [h.dir, ← h.seq]
    exact modify_entries F.readable.ascending rfl rfl
  · exact hgrew.closed_bound (h.seq ▸ h.closed_le) h.closed_bound (Or.inl rfl)

/-- **`sync`.** -/
theorem sync_inv (fs : Faults) (h : WriterInv d w F) :
    ∃ F', WriterInv (w.sync fs d).1 w F' ∧ Grew F F' [] ∧
      ((w.sync fs d).2 = .ok () → ∀ r ∈ allFrames F.segs, F'.Synced r) := by
  unfold Wal.sync
  by_cases hs : fs.sync
  · rw [if_pos hs]
    exact ⟨F, h, Grew.refl F, by simp⟩
  · rw [if_neg hs]
    obtain ⟨hinv, hgrew⟩ := h.syncData
    refine ⟨F.syncCur, hinv, hgrew, fun _ r hr => ?_⟩
    rw [F.allFrames_segs] at hr
    rcases mem_append.mp hr with hr | hr
    · exact Or.inl hr
    · refine Or.inr ⟨F.cur.frames.length, by simpa [OpenFiles.syncCur, OpenFiles.setCur] using hr, ?_⟩
      simp [OpenFiles.syncCur, OpenFiles.setCur, Seg.bytes]

/-- The bookkeeping while a rotation is under way: the append target is listed as closed. -/
theorem WriterInv.push (h : WriterInv d w F) :
    WriterInv d { w with closed := w.closed ++ [(w.seq, w.currentMaxLsn)] } F where
  dir := h.dir
  seq := h.seq
  closed_le p hp := by
    rcases mem_append.mp hp with hp | hp
    · exact h.closed_le p hp
    · rw [mem_singleton.mp hp]
  closed_bound p hp g hg hs r hr := by
    rcases mem_append.mp hp with hp | hp
    · exact h.closed_bound p hp g hg hs r hr
    · rw [mem_singleton.mp hp] at hs ⊢
      rw [F.eq_cur hg (hs.trans h.seq.symm)] at hr
      exact h.cur_bound r hr
  cur_bound := h.cur_bound
  post_listed _ := ⟨_, mem_concat_self, rfl⟩

/-- What is above the append target has no torn tail. -/
theorem OpenFiles.clean_of (F : OpenFiles xxh3) (hpre : ∀ g ∈ F.pre, g.torn = [])
    (hcur : F.cur.torn = []) : F.Clean := by
  intro g hg
  rcases mem_append.mp hg with hg | hg
  · exact hpre g hg
  · rcases mem_cons.mp hg with rfl | hg
    · exact hcur
    · exact (F.empty g hg).2.2.1

theorem OpenFiles.Clean.pre (h : F.Clean) : ∀ g ∈ F.pre, g.torn = [] :=
  fun g hg => h g (mem_append_left _ hg)

/-- `sync_data` does not change what is written. -/
theorem OpenFiles.clean_syncCur (F : OpenFiles xxh3) (h : F.Clean) : F.syncCur.Clean :=
  F.syncCur.clean_of h.pre (h F.cur F.cur_mem_segs)

/-- **`rotate`.** Whatever fails, no frame is lost; when nothing does, every closed segment is
below the new append target, which is empty. -/
theorem rotate_inv (fs : Faults) (h : WriterInv d w F) :
    ∃ F', WriterInv (w.rotate fs d).1 (w.rotate fs d).2.1 F' ∧ Grew F F' [] ∧
      (F.Clean → F'.Clean) ∧ ((w.rotate fs d).2.2 = .ok () → F'.cur.frames = [] ∧
        ∀ p ∈ (w.rotate fs d).2.1.closed, p.1 < (w.rotate fs d).2.1.seq) := by
  unfold Wal.rotate
  by_cases hs : fs.sync
  · rw [if_pos hs]
    exact ⟨F, h, Grew.refl F, id, by simp⟩
  rw [if_neg hs]
  obtain ⟨h₁, hg₁⟩ := h.syncData
  have h₁ := h₁.push
  by_cases hc : fs.create
  · simp only [hc, if_true]
    exact ⟨F.syncCur, h₁, hg₁, F.clean_syncCur, by simp⟩
  simp only [hc, Bool.false_eq_true, if_false]
  obtain ⟨F₂, hopen, hpre, hcur, hg₂, g, hpost⟩ := openAppendFile_next F.syncCur
  have hclean₂ : F.Clean → F₂.Clean := fun hc =>
    F₂.clean_of (hpre ▸ (F.clean_syncCur hc).pre) (hcur ▸ hc F.cur F.cur_mem_segs)
  have hd₂ : openAppendFile (syncData d w.seq) (w.seq + 1) = entries xxh3 F₂.segs := by
    rw [h₁.dir, ← hopen, h₁.seq]
  have hseq₂ : F₂.cur.seq = w.seq := by rw [hcur, h₁.seq]
  have hb₂ := hg₂.closed_bound (h₁.seq ▸ h₁.closed_le) h₁.closed_bound (Or.inl rfl)
  by_cases hf : fs.dirFsync
  · rw [if_pos hf]
    exact ⟨F₂, ⟨hd₂, hseq₂, h₁.closed_le, hb₂, hcur ▸ h₁.cur_bound,
      fun _ => ⟨_, mem_concat_self, rfl⟩⟩, hg₁.trans hg₂, hclean₂, by simp⟩
  rw [if_neg hf]
  have hsync₂ : F₂.cur.synced = (F₂.cur.bytes xxh3).length := by
    rw [hcur]
    rfl
  obtain ⟨F₃, hfsync, hseq₃, hempty, hpost₃, hsegs₃, hg₃⟩ := fsyncDir_advance F₂ hpost hsync₂
  refine ⟨F₃, ⟨by rw [hd₂, hfsync], by rw [hseq₃, hseq₂], ?_, ?_, by simp [hempty],
    fun h => absurd hpost₃ h⟩, (hg₁.trans hg₂).trans hg₃, fun hc => ?_, fun _ => ⟨hempty, ?_⟩⟩
  · exact fun p hp => (h₁.closed_le p hp).trans (Nat.le_succ _)
  · exact hg₃.closed_bound (hseq₂ ▸ h₁.closed_le) hb₂ (Or.inl rfl)
  · intro g hg
    rw [hsegs₃] at hg
    obtain ⟨x, hx, rfl⟩ := mem_map.mp hg
    exact hclean₂ hc x hx
  · exact fun p hp => Nat.lt_succ_of_le (h₁.closed_le p hp)

/-- A rotation that does not fail leaves the append target out of `closed`. -/
theorem rotate_none_fresh (h : ∀ p ∈ w.closed, p.1 < w.seq) :
    ∀ p ∈ (w.rotate Faults.none d).2.1.closed, p.1 < (w.rotate Faults.none d).2.1.seq := by
  intro p hp
  change p.1 < w.seq + 1
  rcases mem_append.mp hp with hp | hp
  · exact (h p hp).trans (Nat.lt_succ_self _)
  · rw [mem_singleton.mp hp]
    exact Nat.lt_succ_self _

/-! ## Appending -/

/-- What an append adds to the log: the frame, when it was written whole. -/
def appended (fs : Faults) (r : WalRecord) : List WalRecord :=
  if r.payload.length ≤ u32Max ∧ fs.write = none then [r] else []

/-- Every segment file scans cleanly to its end. -/
def CleanDir (xxh3 : Bytes → UInt64) (d : Dir) : Prop :=
  ∀ p ∈ d, (scanFrames xxh3 p.2.bytes none).2.2 = true

instance (xxh3 : Bytes → UInt64) (d : Dir) : Decidable (CleanDir xxh3 d) :=
  inferInstanceAs (Decidable (∀ p ∈ d, (scanFrames xxh3 p.2.bytes none).2.2 = true))

/-- The frames of one segment are in order. -/
theorem Readable.ordered_of_mem {gs : List Seg} (h : Readable xxh3 gs) {g : Seg} (hg : g ∈ gs) :
    LsnOrdered none g.frames :=
  h.ordered.sublist (sublist_flatten_of_mem (mem_map_of_mem hg))

/-- A file that scans cleanly has no torn tail. -/
theorem WriterInv.clean (h : WriterInv d w F) (hd : CleanDir xxh3 d) : F.Clean := by
  intro g hg
  have hmem : g.entry xxh3 ∈ d := h.dir ▸ mem_map_of_mem hg
  have hscan := scanFrames_seg (F.readable.ordered_of_mem hg) (F.readable.tails g hg)
  have := hd _ hmem
  simp only [Seg.entry, hscan] at this
  exact isEmpty_iff.mp this

/-- Writing behind the last frame of a log whose closed segments have no torn tails. -/
theorem OpenFiles.readable_write (F : OpenFiles xxh3) (hpre : ∀ g ∈ F.pre, g.torn = [])
    (hnew : LsnOrdered none (allFrames F.segs ++ new)) {t : Bytes} (ht : TornTail xxh3 t) : Readable xxh3
      (F.pre ++ { F.cur with frames := F.cur.frames ++ new, torn := t } :: F.post) where
  ascending := by
    have h := F.readable.ascending
    simpa [pairwise_append] using h
  ordered := by
    rw [F.allFrames_segs, append_assoc] at hnew
    simpa [F.allFrames_post] using hnew
  tails g hg := by
    rcases mem_append.mp hg with hg | hg
    · exact F.readable.tails g (mem_append_left _ hg)
    · rcases mem_cons.mp hg with rfl | hg
      · exact ht
      · exact F.readable.tails g (mem_append_right _ (mem_cons_of_mem _ hg))
  stopped := by
    have hpost : ∀ g ∈ F.post, g.frames = [] := fun g hg => (F.empty g hg).2.1
    refine pairwise_append.mpr ⟨?_, pairwise_cons.mpr ⟨?_, ?_⟩, ?_⟩
    · exact (pairwise_append.mp F.readable.stopped).1
    · exact fun g hg _ => hpost g hg
    · exact (pairwise_cons.mp (pairwise_append.mp F.readable.stopped).2.1).2
    · exact fun g hg _ _ hne => absurd (hpre g hg) hne

/-- A write to the append target: with what was there before, its bytes are the frames it had,
the frames `new` and the torn tail `t`. -/
theorem WriterInv.extendCur (h : WriterInv d w F) (hpre : ∀ g ∈ F.pre, g.torn = [])
    (hclosed : ∀ p ∈ w.closed, p.1 ≠ w.seq) (new : List WalRecord) (chunk : Bytes)
    (hnew : LsnOrdered none (allFrames F.segs ++ new)) {t : Bytes} (ht : TornTail xxh3 t)
    (hbytes : encodeRecords xxh3 (F.cur.frames ++ new) ++ t = F.cur.bytes xxh3 ++ chunk) {m b : ℕ}
    (hm : w.currentMaxLsn ≤ m) (hbound : ∀ r ∈ new, r.lsn ≤ m) :
    ∃ F' : OpenFiles xxh3, F'.pre = F.pre ∧
      F'.cur = { F.cur with frames := F.cur.frames ++ new, torn := t } ∧
      WriterInv (appendBytes d w.seq chunk) { w with currentBytes := b, currentMaxLsn := m } F' ∧
      Grew F F' new := by
  have hread := F.readable_write hpre hnew ht
  let cur : Seg := { F.cur with frames := F.cur.frames ++ new, torn := t }
  have hcur : cur.bytes xxh3 = F.cur.bytes xxh3 ++ chunk := hbytes
  have hle : cur.synced ≤ (cur.bytes xxh3).length := by
    rw [hcur, length_append]
    exact F.synced_le.trans (Nat.le_add_right _ _)
  have hgrew : Grew F (F.setCur cur rfl F.linked hle hread) new :=
    F.grew_setCur cur rfl F.linked hle hread rfl le_rfl
  refine ⟨F.setCur cur rfl F.linked hle hread, rfl, rfl,
    ⟨?_, h.seq, h.closed_le, ?_, ?_, h.post_listed⟩, hgrew⟩
  · rw [h.dir, ← h.seq]
    refine modify_entries F.readable.ascending rfl ?_
    exact congrArg (fun x => SegFile.mk x F.cur.synced F.cur.linked) hcur.symm
  · exact hgrew.closed_bound (h.seq ▸ h.closed_le) h.closed_bound (Or.inr (h.seq ▸ hclosed))
  · intro r hr
    rcases mem_append.mp hr with hr | hr
    · exact (h.cur_bound r hr).trans hm
    · exact hbound r hr

/-- A write to a log without torn tails. -/
theorem WriterInv.write (h : WriterInv d w F) (hclean : F.Clean) (hclosed : ∀ p ∈ w.closed, p.1 ≠ w.seq)
    (hnew : LsnOrdered none (allFrames F.segs ++ new)) {t : Bytes} (ht : TornTail xxh3 t) {m b : ℕ}
    (hm : w.currentMaxLsn ≤ m) (hbound : ∀ r ∈ new, r.lsn ≤ m) :
    ∃ F', WriterInv (appendBytes d w.seq (encodeRecords xxh3 new ++ t))
      { w with currentBytes := b, currentMaxLsn := m } F' ∧ Grew F F' new ∧
      (t = [] → F'.Clean) := by
  have hcur := hclean F.cur F.cur_mem_segs
  have hbytes : encodeRecords xxh3 (F.cur.frames ++ new) ++ t =
      F.cur.bytes xxh3 ++ (encodeRecords xxh3 new ++ t) := by
    rw [encodeRecords_append, Seg.bytes, hcur, append_nil, append_assoc]
  obtain ⟨F', hpre', hcur', hw, hg⟩ := h.extendCur (b := b) hclean.pre hclosed _ _ hnew ht hbytes hm
    hbound
  exact ⟨F', hw, hg, fun ht => F'.clean_of (hpre' ▸ hclean.pre) (by rw [hcur', ht])⟩

/-- A frame above every frame of the log. -/
theorem LsnOrdered.concat {rs : List WalRecord} {r : WalRecord} (h : LsnOrdered none rs)
    (hv : r.Valid) (hlt : ∀ x ∈ rs, x.lsn < r.lsn) : LsnOrdered none (rs ++ [r]) := by
  refine ⟨fun x hx => ?_, by simp, pairwise_append.mpr ⟨h.2.2, by simp, by simpa using hlt⟩⟩
  rcases mem_append.mp hx with hx | hx
  · exact h.1 x hx
  · rw [mem_singleton.mp hx]
    exact hv

/-- **`append`.** On a log without torn tails whose append target is not listed as closed, an
append adds the frame or nothing, whatever fails. -/
theorem append_inv (fs : Faults) (h : WriterInv d w F) (hclean : F.Clean) (hclosed : ∀ p ∈ w.closed, p.1 ≠ w.seq)
    {r : WalRecord} (hlsn : r.lsn < 2 ^ 64) (hlt : ∀ x ∈ allFrames F.segs, x.lsn < r.lsn) :
    ∃ F', WriterInv (w.append xxh3 fs r.lsn r.signal r.payload d).1
        (w.append xxh3 fs r.lsn r.signal r.payload d).2.1 F' ∧ Grew F F' (appended fs r) ∧
      (fs.write = none → F'.Clean) := by
  unfold Wal.append appended
  by_cases hlen : u32Max < r.payload.length
  · rw [if_pos hlen, if_neg (by omega)]
    exact ⟨F, h, Grew.refl F, fun _ => hclean⟩
  have hv : r.Valid := ⟨by simp only [u32Max] at hlen; omega, hlsn⟩
  rw [if_neg hlen]
  cases hw : fs.write with
  | some n =>
      simp only [reduceCtorEq, and_false, if_false]
      have htorn : TornTail xxh3 ((r.encode xxh3).take (min n ((r.encode xxh3).length - 1))) := by
        refine (walFraming xxh3).torn_take hv ?_
        have := (walFraming xxh3).enc_length_pos r
        simp only [walFraming] at this ⊢
        omega
      have hord : LsnOrdered none (allFrames F.segs ++ []) :=
        (append_nil _).symm ▸ F.readable.ordered
      obtain ⟨F', hw, hg, -⟩ := h.write hclean hclosed (b := w.currentBytes) hord htorn le_rfl
        (by simp)
      exact ⟨F', by simpa [WalRecord.encode] using hw, hg, by simp⟩
  | none =>
      simp only [and_true, if_pos (show r.payload.length ≤ u32Max by omega)]
      obtain ⟨F₁, h₁, hg₁, hc₁⟩ := h.write hclean hclosed (F.readable.ordered.concat hv hlt)
        (walFraming xxh3).torn_nil (b := w.currentBytes + (r.encode xxh3).length)
        (m := max w.currentMaxLsn r.lsn) (le_max_left _ _) (by simp)
      have hd : appendBytes d w.seq (encodeFrame xxh3 r.lsn r.signal r.payload) =
          appendBytes d w.seq (encodeRecords xxh3 [r] ++ []) := by
        simp [walFraming, WalRecord.encode]
      unfold Wal.wrote
      rw [hd]
      by_cases hrot : w.rotateBytes ≤ w.currentBytes + (r.encode xxh3).length
      · simp only [WalRecord.encode] at hrot
        simp only [hrot, if_true]
        obtain ⟨F₂, h₂, hg₂, hc₂, -⟩ := rotate_inv fs h₁
        exact ⟨F₂, h₂, hg₁.trans hg₂, fun _ => hc₂ (hc₁ rfl)⟩
      · simp only [WalRecord.encode] at hrot
        simp only [hrot, if_false]
        exact ⟨F₁, h₁, hg₁, fun _ => hc₁ rfl⟩

/-! ## Reclaiming -/

/-- Segments below the append target were unlinked whose frames are all at or below the
watermark. -/
structure Shrank (watermark : ℕ) (F F' : OpenFiles xxh3) : Prop where
  cur : F'.cur = F.cur
  post : F'.post = F.post
  pre : F'.pre.Sublist F.pre
  dropped : ∀ g ∈ F.pre, g ∈ F'.pre ∨ ∀ r ∈ g.frames, r.lsn ≤ watermark

theorem Shrank.refl (watermark : ℕ) (F : OpenFiles xxh3) : Shrank watermark F F where
  cur := rfl
  post := rfl
  pre := Sublist.refl _
  dropped _ hg := Or.inl hg

theorem Shrank.segs (h : Shrank watermark F F') : F'.segs.Sublist F.segs := by
  unfold OpenFiles.segs
  rw [h.cur, h.post]
  exact h.pre.append (Sublist.refl _)

/-- The frames above the watermark are still in the log. -/
theorem Shrank.mem (h : Shrank watermark F F') {r : WalRecord} (hr : r ∈ allFrames F.segs) (hlt : watermark < r.lsn) :
    r ∈ allFrames F'.segs := by
  rw [OpenFiles.allFrames_segs] at hr ⊢
  rcases mem_append.mp hr with hr | hr
  · obtain ⟨g, hg, hrg⟩ := mem_allFrames.mp hr
    rcases h.dropped g hg with hg' | hle
    · exact mem_append_left _ (mem_allFrames.mpr ⟨g, hg', hrg⟩)
    · exact absurd (hle r hrg) (by omega)
  · exact mem_append_right _ (h.cur ▸ hr)

/-- The frames on stable storage above the watermark stay there. -/
theorem Shrank.synced (h : Shrank watermark F F') {r : WalRecord} (hr : F.Synced r) (hlt : watermark < r.lsn) :
    F'.Synced r := by
  rcases hr with hr | hr
  · obtain ⟨g, hg, hrg⟩ := mem_allFrames.mp hr
    rcases h.dropped g hg with hg' | hle
    · exact Or.inl (mem_allFrames.mpr ⟨g, hg', hrg⟩)
    · exact absurd (hle r hrg) (by omega)
  · exact Or.inr (h.cur ▸ hr)

/-- The files without one of the segments below the append target. -/
def OpenFiles.unlink (F : OpenFiles xxh3) (q : ℕ) : OpenFiles xxh3 where
  pre := F.pre.filter (·.seq ≠ q)
  cur := F.cur
  post := F.post
  readable := F.readable.sublist (filter_sublist.append (Sublist.refl _))
  linked := F.linked
  synced_le := F.synced_le
  durable g hg := F.durable g (mem_of_mem_filter hg)
  empty := F.empty

/-- Unlinking a segment below the append target. -/
theorem OpenFiles.remove_eq (F : OpenFiles xxh3) {q : ℕ} (hq : q < F.cur.seq) :
    (entries xxh3 F.segs).remove q = entries xxh3 (F.unlink q).segs := by
  rw [remove_entries]
  congr 1
  unfold OpenFiles.segs
  have hcur : F.cur.seq ≠ q := by omega
  have hpost : F.post.filter (·.seq ≠ q) = F.post := by
    rw [filter_eq_self]
    intro g hg
    have := F.lt_post hg
    simp only [ne_eq, decide_not, Bool.not_eq_eq_eq_not, Bool.not_true, decide_eq_false_iff_not]
    omega
  rw [filter_append, filter_cons_of_pos (by simpa using hcur), hpost]
  rfl

/-- Unlinking a segment whose frames are all at or below the watermark. -/
theorem Shrank.unlink {q : ℕ} (F : OpenFiles xxh3) (hb : ∀ g ∈ F.pre, g.seq = q → ∀ r ∈ g.frames, r.lsn ≤ watermark) :
    Shrank watermark F (F.unlink q) where
  cur := rfl
  post := rfl
  pre := filter_sublist
  dropped g hg := by
    by_cases hq : g.seq = q
    · exact Or.inr (hb g hg hq)
    · exact Or.inl (mem_filter.mpr ⟨hg, by simpa using hq⟩)

theorem Shrank.trans {F'' : OpenFiles xxh3} (h : Shrank watermark F F') (h' : Shrank watermark F' F'') :
    Shrank watermark F F'' where
  cur := h'.cur.trans h.cur
  post := h'.post.trans h.post
  pre := h'.pre.trans h.pre
  dropped g hg := by
    rcases h.dropped g hg with hg' | hle
    · exact h'.dropped g hg'
    · exact Or.inr hle

/-- The loop of `reclaim` unlinks segments that a `closed` entry at or below the watermark
bounds, and keeps entries only. -/
theorem reclaimLoop_inv (watermark : ℕ) (fail : Option ℕ) {closed : List (ℕ × ℕ)}
    (F : OpenFiles xxh3) (hlt : ∀ p ∈ closed, p.1 < F.cur.seq)
    (hb : ∀ p ∈ closed, ∀ g ∈ F.segs, g.seq = p.1 → ∀ r ∈ g.frames, r.lsn ≤ p.2) :
    ∃ F', (Wal.reclaimLoop watermark fail (entries xxh3 F.segs) closed).1 = entries xxh3 F'.segs ∧
      Shrank watermark F F' ∧ ∀ retained,
        (Wal.reclaimLoop watermark fail (entries xxh3 F.segs) closed).2 = .ok retained →
          retained ⊆ closed := by
  induction closed generalizing F fail with
  | nil => exact ⟨F, rfl, Shrank.refl _ F, by simp [Wal.reclaimLoop]⟩
  | cons p rest ih =>
      obtain ⟨seq, max_lsn⟩ := p
      have hlt' : ∀ p ∈ rest, p.1 < F.cur.seq := fun p hp => hlt p (mem_cons_of_mem _ hp)
      have hb' := fun p hp => hb p (mem_cons_of_mem (seq, max_lsn) hp)
      unfold Wal.reclaimLoop
      by_cases hle : max_lsn ≤ watermark
      · simp only [hle, if_true]
        split
        · exact ⟨F, rfl, Shrank.refl _ F, by simp⟩
        · have hseq := hlt (seq, max_lsn) mem_cons_self
          have hshr : Shrank watermark F (F.unlink seq) := by
            refine Shrank.unlink F fun g hg hs r hr => ?_
            exact (hb _ mem_cons_self g (mem_append_left _ hg) hs r hr).trans hle
          rw [F.remove_eq hseq]
          obtain ⟨F', hd, hs, hsub⟩ := ih (fail.map (· - 1)) (F.unlink seq) hlt'
            fun p hp g hg => hb' p hp g (hshr.segs.subset hg)
          exact ⟨F', hd, hshr.trans hs, fun r hr =>
            List.Subset.trans (hsub r hr) (subset_cons_self _ _)⟩
      · simp only [hle, if_false]
        obtain ⟨F', hd, hs, hsub⟩ := ih fail F hlt' hb'
        refine ⟨F', hd, hs, fun retained hret => ?_⟩
        cases hres : (Wal.reclaimLoop watermark fail (entries xxh3 F.segs) rest).2 with
        | error e => simp [hres, Except.map] at hret
        | ok kept =>
            simp only [hres, Except.map, Except.ok.injEq] at hret
            rw [← hret]
            exact cons_subset_cons _ (hsub kept hres)

/-- **`reclaim`.** Whatever fails, the rotation loses no frame, and what is unlinked is below the
append target and holds no frame above the watermark. -/
theorem reclaim_inv (fs : Faults) (watermark : ℕ) (h : WriterInv d w F) :
    ∃ F₁ F', WriterInv (w.reclaim fs watermark d).1 (w.reclaim fs watermark d).2.1 F' ∧
      Grew F F₁ [] ∧ Shrank watermark F₁ F' ∧ (F.Clean → F'.Clean) ∧
      ((w.rotate fs d).2.2 = .ok () → F'.cur.frames = [] ∧
        ∀ p ∈ (w.reclaim fs watermark d).2.1.closed, p.1 < (w.reclaim fs watermark d).2.1.seq) := by
  obtain ⟨F₁, h₁, hg, hclean, hfresh⟩ := rotate_inv fs h
  unfold Wal.reclaim
  rcases hrot : w.rotate fs d with ⟨d₁, w₁, res⟩
  rw [hrot] at h₁ hfresh
  cases res with
  | error e => exact ⟨F₁, F₁, h₁, hg, Shrank.refl _ F₁, hclean, by simp⟩
  | ok u =>
      obtain ⟨hempty, hlt⟩ := hfresh rfl
      simp only at h₁ hlt
      obtain ⟨F', hd, hshr, hsub⟩ := reclaimLoop_inv watermark fs.remove F₁
        (h₁.seq ▸ hlt) h₁.closed_bound
      rw [← h₁.dir] at hd hsub
      have hseq : F'.cur.seq = w₁.seq := by rw [hshr.cur, h₁.seq]
      -- the rotation left nothing above its append target
      have hpost : F'.post = [] := by
        rw [hshr.post]
        by_contra hne
        obtain ⟨p, hp, heq⟩ := h₁.post_listed hne
        exact (hlt p hp).ne heq
      have hclean' : F.Clean → F'.Clean := fun hc g hg => hclean hc g (hshr.segs.subset hg)
      simp only
      rcases hloop : Wal.reclaimLoop watermark fs.remove d₁ w₁.closed with ⟨d₂, res₂⟩
      rw [hloop] at hd hsub
      cases res₂ with
      | error e =>
          exact ⟨F₁, F', ⟨hd, hseq, by simp, by simp, hshr.cur ▸ h₁.cur_bound,
            fun h => absurd hpost h⟩, hg, hshr, hclean', fun _ => ⟨hshr.cur ▸ hempty, by simp⟩⟩
      | ok retained =>
          have hr := hsub retained rfl
          refine ⟨F₁, F', ⟨hd, hseq, fun p hp => h₁.closed_le p (hr hp), ?_,
            hshr.cur ▸ h₁.cur_bound, fun h => absurd hpost h⟩, hg, hshr, hclean', fun _ => ⟨hshr.cur ▸ hempty,
              fun p hp => hlt p (hr hp)⟩⟩
          exact fun p hp g hg' => h₁.closed_bound p (hr hp) g (hshr.segs.subset hg')

/-! ## Opening -/

/-- The segments of a readable directory have distinct sequence numbers. -/
theorem Readable.eq_of_seq {gs : List Seg} (h : Readable xxh3 gs) {g g' : Seg} (hg : g ∈ gs)
    (hg' : g' ∈ gs) (hs : g.seq = g'.seq) : g = g' := by
  have hnodup : (gs.map Seg.seq).Nodup :=
    pairwise_map.mpr (h.ascending.imp fun hab => hab.ne)
  exact inj_on_of_nodup_map hnodup hg hg' hs

/-- **`open_with_rotate`.** Opening a directory that recovery can read and whose files are on
stable storage. -/
theorem openWithRotate_inv (rotateBytes : ℕ) {gs : List Seg} (h : Readable xxh3 gs)
    (hdur : ∀ g ∈ gs, g.Durable xxh3) :
    ∃ d w, ∃ F : OpenFiles xxh3, Wal.openWithRotate xxh3 rotateBytes Faults.none (entries xxh3 gs) = (d, .ok w) ∧
      WriterInv d w F ∧ (∀ p ∈ w.closed, p.1 < w.seq) ∧ allFrames F.segs = allFrames gs ∧
      (∀ g ∈ gs, g.seq ≤ w.seq ∧ F.segs = gs) ∧ ∀ r ∈ allFrames gs, F.Synced r := by
  unfold Wal.openWithRotate
  rw [listSegments_entries h.ascending]
  rcases eq_nil_or_concat gs with rfl | ⟨pre, cur, rfl⟩
  · let F : OpenFiles xxh3 := ⟨[], ⟨1, [], [], 0, true⟩, [],
      ⟨by simp, by simp [LsnOrdered], by simp, by simp⟩, rfl, by simp, by simp, by simp⟩
    refine ⟨_, ⟨1, 0, 0, rotateBytes, []⟩, F, rfl,
      ⟨rfl, rfl, by simp, by simp, ?_, fun h => absurd rfl h⟩, by simp, rfl, by simp, by simp⟩
    intro r hr
    exact absurd hr not_mem_nil
  · have hread : Readable xxh3 (pre ++ cur :: []) := by simpa using h
    have hcur := hdur cur (by simp)
    have hlt : ∀ g ∈ pre, g.seq < cur.seq := fun g hg =>
      (pairwise_append.mp hread.ascending).2.2 g hg cur mem_cons_self
    let F : OpenFiles xxh3 := ⟨pre, cur, [], hread, hcur.2, hcur.1.le,
      fun g hg => hdur g (by simp [hg]), by simp⟩
    have hmap : (entries xxh3 (pre ++ [cur])).getLast? = some (cur.entry xxh3) := by
      simp [entries]
    have hdrop : (entries xxh3 (pre ++ [cur])).dropLast = entries xxh3 pre := by
      simp [entries]
    rw [concat_eq_append] at h hdur ⊢
    rw [hmap, hdrop]
    have hsegs : F.segs = pre ++ [cur] := rfl
    refine ⟨_, _, F, rfl, ⟨rfl, rfl, ?_, ?_, ?_, fun h => absurd rfl h⟩, ?_, rfl,
      fun g hg => ⟨?_, hsegs⟩, ?_⟩
    · intro p hp
      simp only [entries, map_map, mem_map] at hp
      obtain ⟨g, hg, rfl⟩ := hp
      exact (hlt g hg).le
    · intro p hp g hg hs r hr
      simp only [entries, map_map, mem_map] at hp
      obtain ⟨x, hx, rfl⟩ := hp
      obtain rfl : g = x := h.eq_of_seq (hsegs ▸ hg) (by simp [hx]) hs
      exact le_segmentMaxLsn h (by simp [hx]) hr
    · intro r hr
      exact le_segmentMaxLsn h (by simp) hr
    · intro p hp
      simp only [entries, map_map, mem_map] at hp
      obtain ⟨g, hg, rfl⟩ := hp
      exact hlt g hg
    · rcases mem_append.mp hg with hg | hg
      · exact (hlt g hg).le
      · rw [mem_singleton.mp hg]
    · intro r hr
      rw [← hsegs, F.allFrames_segs] at hr
      rcases mem_append.mp hr with hr | hr
      · exact Or.inl hr
      · refine Or.inr ⟨cur.frames.length, (take_length (l := cur.frames)).symm ▸ hr, ?_⟩
        rw [show F.cur = cur from rfl, take_length, hcur.1, Seg.bytes, length_append]
        exact Nat.le_add_right _ _

end Imbh.WriteAhead
