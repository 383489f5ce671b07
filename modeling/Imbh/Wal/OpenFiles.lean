import Imbh.Wal.Writer

/-!
# The files of an open log

`OpenFiles` is what the files of an open log always look like: the segments below the append
target, which are on stable storage; the append target; and above it at most an empty file that a
rotation created before it failed. The layout is part of the type, so that the lemmas about the
writer's calls neither assume it nor prove it apart.
-/

namespace Imbh.WriteAhead

open Lib List

variable {xxh3 : Bytes → UInt64} {gs : List Seg}

/-- Everything in the segment's file and its directory entry is on stable storage. -/
def Seg.Durable (xxh3 : Bytes → UInt64) (g : Seg) : Prop :=
  g.synced = (g.bytes xxh3).length ∧ g.linked = true

/-- The segment after a directory fsync. -/
def Seg.link (g : Seg) : Seg := { g with linked := true }

@[simp] theorem Seg.link_seq (g : Seg) : g.link.seq = g.seq := rfl
@[simp] theorem Seg.link_frames (g : Seg) : g.link.frames = g.frames := rfl
@[simp] theorem Seg.link_torn (g : Seg) : g.link.torn = g.torn := rfl
@[simp] theorem Seg.link_synced (g : Seg) : g.link.synced = g.synced := rfl
@[simp] theorem Seg.link_linked (g : Seg) : g.link.linked = true := rfl
@[simp] theorem Seg.link_bytes (g : Seg) : g.link.bytes xxh3 = g.bytes xxh3 := rfl

/-! ## Directory operations on segments -/

/-- A change of one file leaves the other segments alone. -/
theorem modify_of_ne {q : ℕ} {f : SegFile → SegFile} (h : ∀ g ∈ gs, g.seq ≠ q) :
    (entries xxh3 gs).modify q f = entries xxh3 gs := by
  unfold Dir.modify entries
  rw [map_map]
  refine map_congr_left fun g hg => ?_
  simp [Seg.entry, h g hg]

/-- A change of the file of one segment of an ascending list. -/
theorem modify_entries {pre post : List Seg} {g g' : Seg} {f : SegFile → SegFile}
    (h : (pre ++ g :: post).Pairwise fun a b => a.seq < b.seq) (hseq : g'.seq = g.seq)
    (hf : f (g.entry xxh3).2 = (g'.entry xxh3).2) :
    (entries xxh3 (pre ++ g :: post)).modify g.seq f = entries xxh3 (pre ++ g' :: post) := by
  obtain ⟨-, h2, h3⟩ := pairwise_append.mp h
  obtain ⟨h4, -⟩ := pairwise_cons.mp h2
  have hpre : (entries xxh3 pre).modify g.seq f = entries xxh3 pre :=
    modify_of_ne fun x hx => (h3 x hx g mem_cons_self).ne
  have hpost : (entries xxh3 post).modify g.seq f = entries xxh3 post :=
    modify_of_ne fun x hx => (h4 x hx).ne'
  have hcur : (if (g.entry xxh3).1 = g.seq then ((g.entry xxh3).1, f (g.entry xxh3).2)
      else g.entry xxh3) = g'.entry xxh3 := by
    rw [if_pos (show (g.entry xxh3).1 = g.seq from rfl), hf]
    exact Prod.ext hseq.symm rfl
  unfold Dir.modify entries at hpre hpost ⊢
  rw [map_append, map_append, map_append, map_cons, map_cons,
    map_cons, hpre, hpost, hcur]

/-- The directory fsync on segments. -/
theorem fsyncDir_entries (gs : List Seg) :
    fsyncDir (entries xxh3 gs) = entries xxh3 (gs.map Seg.link) := by
  unfold fsyncDir entries
  rw [map_map, map_map]
  rfl

/-- Unlinking on segments. -/
theorem remove_entries (gs : List Seg) (q : ℕ) :
    (entries xxh3 gs).remove q = entries xxh3 (gs.filter (·.seq ≠ q)) := by
  unfold Dir.remove entries
  rw [filter_map]
  rfl

@[simp] theorem allFrames_map_link (gs : List Seg) :
    allFrames (gs.map Seg.link) = allFrames gs := by
  simp [allFrames, flatMap_map]

/-- What a reader sees of a segment. -/
def Seg.key (g : Seg) : ℕ × List WalRecord × Bytes := (g.seq, g.frames, g.torn)

/-- Whether recovery can read a list of segments depends on what a reader sees of them. -/
theorem Readable.of_key_eq {hs : List Seg} (h : gs.map Seg.key = hs.map Seg.key) (hr : Readable xxh3 hs) :
    Readable xxh3 gs where
  ascending := by
    have hp : (hs.map Seg.key).Pairwise fun a b => a.1 < b.1 := pairwise_map.mpr hr.ascending
    rw [← h, pairwise_map] at hp
    exact hp
  ordered := by
    have hf (l : List Seg) : allFrames l = (l.map Seg.key).flatMap fun k => k.2.1 := by
      rw [flatMap_map]
      rfl
    rw [hf, h, ← hf]
    exact hr.ordered
  tails g hg := by
    have hk : g.key ∈ hs.map Seg.key := h ▸ mem_map_of_mem hg
    obtain ⟨x, hx, hxk⟩ := mem_map.mp hk
    have ht : x.torn = g.torn := congrArg (fun k => k.2.2) hxk
    exact ht ▸ hr.tails x hx
  stopped := by
    have hp : (hs.map Seg.key).Pairwise fun a b => a.2.2 ≠ [] → b.2.1 = [] :=
      pairwise_map.mpr hr.stopped
    rw [← h, pairwise_map] at hp
    exact hp

/-- A readable list stays readable when its directory entries are made durable. -/
theorem Readable.map_link (h : Readable xxh3 gs) : Readable xxh3 (gs.map Seg.link) :=
  h.of_key_eq (by simp [Seg.key])

theorem allFrames_sublist {hs : List Seg} (h : gs.Sublist hs) : (allFrames gs).Sublist (allFrames hs) := by
  induction h with
  | slnil => exact Sublist.refl _
  | cons g _ ih => exact ih.trans (sublist_append_right _ _)
  | cons_cons g _ ih => exact (Sublist.refl _).append ih

theorem LsnOrdered.sublist {last : Option ℕ} {rs ss : List WalRecord} (h : LsnOrdered last ss)
    (hs : rs.Sublist ss) : LsnOrdered last rs :=
  ⟨fun r hr => h.1 r (hs.subset hr), fun l hl r hr => h.2.1 l hl r (hs.subset hr),
    h.2.2.sublist hs⟩

/-- Unlinking segments keeps a directory readable. -/
theorem Readable.sublist {hs : List Seg} (h : Readable xxh3 hs) (hsub : gs.Sublist hs) :
    Readable xxh3 gs where
  ascending := h.ascending.sublist hsub
  ordered := h.ordered.sublist (allFrames_sublist hsub)
  tails g hg := h.tails g (hsub.subset hg)
  stopped := h.stopped.sublist hsub

/-! ## The layout of an open log -/

/-- The files of an open log. -/
structure OpenFiles (xxh3 : Bytes → UInt64) where
  /-- The segments below the append target. -/
  pre : List Seg
  /-- The append target. -/
  cur : Seg
  /-- What a failed rotation left above it. -/
  post : List Seg
  readable : Readable xxh3 (pre ++ cur :: post)
  linked : cur.linked = true
  synced_le : cur.synced ≤ (cur.bytes xxh3).length
  durable : ∀ g ∈ pre, g.Durable xxh3
  empty : ∀ g ∈ post, g.seq = cur.seq + 1 ∧ g.frames = [] ∧ g.torn = [] ∧ g.synced = 0

namespace OpenFiles

/-- The segments in order. -/
def segs (F : OpenFiles xxh3) : List Seg := F.pre ++ F.cur :: F.post

/-- The frames on stable storage. -/
def Synced (F : OpenFiles xxh3) (r : WalRecord) : Prop :=
  r ∈ allFrames F.pre ∨ ∃ k, r ∈ F.cur.frames.take k ∧
    (encodeRecords xxh3 (F.cur.frames.take k)).length ≤ F.cur.synced

variable (F : OpenFiles xxh3)

theorem readable_segs : Readable xxh3 F.segs := F.readable

@[simp] theorem cur_mem_segs : F.cur ∈ F.segs := by simp [segs]

theorem allFrames_post : allFrames F.post = [] := by
  rw [eq_nil_iff_forall_not_mem]
  intro r hr
  obtain ⟨g, hg, hrg⟩ := mem_allFrames.mp hr
  rw [(F.empty g hg).2.1] at hrg
  exact not_mem_nil hrg

/-- The frames of the log: those of the closed segments, then those of the append target. -/
theorem allFrames_segs : allFrames F.segs = allFrames F.pre ++ F.cur.frames := by
  simp [segs, F.allFrames_post]

theorem pre_lt {g : Seg} (hg : g ∈ F.pre) : g.seq < F.cur.seq :=
  (pairwise_append.mp F.readable.ascending).2.2 g hg F.cur mem_cons_self

theorem lt_post {g : Seg} (hg : g ∈ F.post) : F.cur.seq < g.seq := by
  rw [(F.empty g hg).1]
  exact Nat.lt_succ_self _

/-- There is at most one file above the append target. -/
theorem post_cases : F.post = [] ∨ ∃ g, F.post = [g] := by
  have hasc := (pairwise_cons.mp (pairwise_append.mp F.readable.ascending).2.1).2
  have hemp := F.empty
  generalize F.post = ps at hasc hemp ⊢
  match ps with
  | [] => exact Or.inl rfl
  | [g] => exact Or.inr ⟨g, rfl⟩
  | g :: g' :: _ =>
      have h1 := (hemp g (by simp)).1
      have h2 := (hemp g' (by simp)).1
      have h3 := (pairwise_cons.mp hasc).1 g' (by simp)
      omega

/-- A segment at the append target's sequence number is the append target. -/
theorem eq_cur {g : Seg} (hg : g ∈ F.segs) (h : g.seq = F.cur.seq) : g = F.cur := by
  rcases mem_append.mp hg with hg | hg
  · exact absurd h (F.pre_lt hg).ne
  · rcases mem_cons.mp hg with rfl | hg
    · rfl
    · exact absurd h (F.lt_post hg).ne'

/-- The frames on stable storage are frames of the log. -/
theorem Synced.mem {F : OpenFiles xxh3} {r : WalRecord} (h : F.Synced r) :
    r ∈ allFrames F.segs := by
  rw [allFrames_segs]
  rcases h with h | ⟨k, hk, -⟩
  · exact mem_append_left _ h
  · exact mem_append_right _ (mem_of_mem_take hk)

/-- No segment ends in a write cut short. -/
def Clean (F : OpenFiles xxh3) : Prop := ∀ g ∈ F.segs, g.torn = []

end OpenFiles

/-! ## What a call does to the files -/

/-- The frames `new` were appended to the append target of `F`; nothing was lost. -/
structure Grew (F F' : OpenFiles xxh3) (new : List WalRecord) : Prop where
  frames : allFrames F'.segs = allFrames F.segs ++ new
  seg : ∀ g' ∈ F'.segs, g'.seq ≤ F.cur.seq → ∃ g ∈ F.segs, g.seq = g'.seq ∧
    g'.frames = g.frames ++ if g.seq = F.cur.seq then new else []
  above : ∀ g' ∈ F'.segs, F.cur.seq < g'.seq → g'.frames = []
  kept : ∀ g ∈ F.segs, ∃ g' ∈ F'.segs, g'.seq = g.seq
  synced : ∀ r, F.Synced r → F'.Synced r
  seq_le : F.cur.seq ≤ F'.cur.seq

theorem Grew.refl (F : OpenFiles xxh3) : Grew F F [] where
  frames := by simp
  seg g hg _ := ⟨g, hg, rfl, by simp⟩
  above g hg hlt := by
    rcases mem_append.mp hg with hg | hg
    · exact absurd (F.pre_lt hg) (by omega)
    · rcases mem_cons.mp hg with rfl | hg
      · exact absurd hlt (lt_irrefl _)
      · exact (F.empty g hg).2.1
  kept g hg := ⟨g, hg, rfl⟩
  synced _ h := h
  seq_le := le_rfl

/-- A call that appends, followed by one that does not. -/
theorem Grew.trans {F F' F'' : OpenFiles xxh3} {new : List WalRecord} (h : Grew F F' new)
    (h' : Grew F' F'' []) : Grew F F'' new where
  frames := by rw [h'.frames, h.frames, append_nil]
  seg g'' hg'' hle := by
    obtain ⟨g', hg', hs', hf'⟩ := h'.seg g'' hg'' (hle.trans h.seq_le)
    obtain ⟨g, hg, hs, hf⟩ := h.seg g' hg' (by omega)
    refine ⟨g, hg, hs.trans hs', ?_⟩
    rw [hf', hf, ite_self, append_nil]
  above g'' hg'' hlt := by
    by_cases hle : g''.seq ≤ F'.cur.seq
    · obtain ⟨g', hg', hs', hf'⟩ := h'.seg g'' hg'' hle
      rw [hf', ite_self, append_nil]
      exact h.above g' hg' (by omega)
    · exact h'.above g'' hg'' (by omega)
  kept g hg := by
    obtain ⟨g', hg', hs⟩ := h.kept g hg
    obtain ⟨g'', hg'', hs'⟩ := h'.kept g' hg'
    exact ⟨g'', hg'', hs'.trans hs⟩
  synced r hr := h'.synced r (h.synced r hr)
  seq_le := h.seq_le.trans h'.seq_le

/-- The bookkeeping `w` of an open log describes the files `F`, and these are those of `d`. -/
structure WriterInv (d : Dir) (w : Wal) (F : OpenFiles xxh3) : Prop where
  dir : d = entries xxh3 F.segs
  seq : F.cur.seq = w.seq
  closed_le : ∀ p ∈ w.closed, p.1 ≤ w.seq
  closed_bound : ∀ p ∈ w.closed, ∀ g ∈ F.segs, g.seq = p.1 → ∀ r ∈ g.frames, r.lsn ≤ p.2
  cur_bound : ∀ r ∈ F.cur.frames, r.lsn ≤ w.currentMaxLsn
  post_listed : F.post ≠ [] → ∃ p ∈ w.closed, p.1 = w.seq

/-- Recovery reads every frame of an open log. -/
theorem WriterInv.readAllFrames {d : Dir} {w : Wal} {F : OpenFiles xxh3} (h : WriterInv d w F) :
    readAllFrames xxh3 d = allFrames F.segs := by
  rw [h.dir]
  exact readAllFrames_entries F.readable

end Imbh.WriteAhead
