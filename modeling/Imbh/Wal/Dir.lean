import Mathlib.Data.List.Sort
import Imbh.Wal.Frame

/-!
# The segment files of a WAL directory (`wal.rs`)

The log is split into numbered segment files. `Dir` is the directory as a reader finds it: each
segment's sequence number with its file, in no particular order; `listSegments` sorts it. A file is
its bytes and how much of them an `fsync` has covered, which is what a crash decides on.

`readAllFrames` is the open/replay view: all segments in sequence order as one stream, up to the
first one that does not scan cleanly to its end.

The second half is the layer above the bytes. `Seg` is a segment as what was written to it: whole
frames, the bytes of a write cut short, and the synced length. `Seg.entry` gives the file it
stands for, and `readAllFrames_entries` reads a directory of such segments: the frames, one
segment after the other.
-/

namespace Imbh.WriteAhead

open Lib List

/-- A segment file. `synced` bytes at the front are on stable storage; `linked` says that the
directory entry is. -/
structure SegFile where
  bytes : Bytes
  synced : ℕ
  linked : Bool
  deriving DecidableEq, Repr

/-- The segment files of a directory by sequence number. -/
abbrev Dir : Type := List (ℕ × SegFile)

namespace Dir

/-- The sequence numbers present. -/
def seqs (d : Dir) : List ℕ := d.map Prod.fst

/-- Change the file of segment `q`. -/
def modify (d : Dir) (q : ℕ) (f : SegFile → SegFile) : Dir :=
  d.map fun p => if p.1 = q then (p.1, f p.2) else p

/-- Unlink the file of segment `q`; "already gone" is success.
Source: `wal.rs` `remove_if_exists` -/
def remove (d : Dir) (q : ℕ) : Dir := d.filter (·.1 ≠ q)

end Dir

/-- Open (creating if absent) a segment file for appending. A created file is empty and its
directory entry is not yet durable.
Source: `wal.rs` `open_append_file` -/
def openAppendFile (d : Dir) (q : ℕ) : Dir :=
  if q ∈ d.seqs then d else d ++ [(q, ⟨[], 0, false⟩)]

/-- Make the directory entries durable.
Source: `wal.rs` `fsync_dir` -/
def fsyncDir (d : Dir) : Dir := d.map fun p => (p.1, { p.2 with linked := true })

/-- The segment files sorted by sequence ascending.
Source: `wal.rs` `list_segments` -/
def listSegments (d : Dir) : List (ℕ × SegFile) := d.insertionSort fun a b => a.1 ≤ b.1

section reading

variable (xxh3 : Bytes → UInt64)

/-- The intact frames of one segment file.
Source: `wal.rs` `read_frames` -/
def readFrames (f : SegFile) : List WalRecord := (scanFrames xxh3 f.bytes none).1

/-- The highest LSN recorded in a segment file (`0` when empty).
Source: `wal.rs` `segment_max_lsn` -/
def segmentMaxLsn (f : SegFile) : ℕ := ((readFrames xxh3 f).map (·.lsn)).foldl max 0

/-- The loop of `readAllFrames` over the sorted files, seeded with the last LSN. -/
def readSegments : Option ℕ → List (ℕ × SegFile) → List WalRecord
  | _, [] => []
  | last_lsn, (_, f) :: rest =>
      let (frames, _, complete) := scanFrames xxh3 f.bytes last_lsn
      let last_lsn := (frames.getLast?.map (·.lsn)).or last_lsn
      frames ++ if complete then readSegments last_lsn rest else []

/-- Every intact frame across all segments, in sequence order, as one stream; the scan stops at
the first torn or corrupt segment tail and ignores anything after it.
Source: `wal.rs` `read_all_frames` -/
def readAllFrames (d : Dir) : List WalRecord := readSegments xxh3 none (listSegments d)

/-! ## Segments as what was written to them -/

/-- A segment above the bytes: whole frames, then `torn` bytes of a write cut short. -/
structure Seg where
  seq : ℕ
  frames : List WalRecord
  torn : Bytes
  synced : ℕ
  linked : Bool

/-- The bytes of a segment. -/
def Seg.bytes (g : Seg) : Bytes := encodeRecords xxh3 g.frames ++ g.torn

/-- The directory entry a segment stands for. -/
def Seg.entry (g : Seg) : ℕ × SegFile := (g.seq, ⟨g.bytes xxh3, g.synced, g.linked⟩)

/-- The directory a list of segments stands for. -/
def entries (gs : List Seg) : Dir := gs.map (Seg.entry xxh3)

/-- All frames of a list of segments, in order. -/
def allFrames (gs : List Seg) : List WalRecord := gs.flatMap Seg.frames

/-- Segments in ascending sequence order whose frames carry strictly increasing LSNs, whose tails
are torn writes, and behind whose first torn tail there is no frame. -/
structure Readable (gs : List Seg) : Prop where
  ascending : gs.Pairwise fun a b => a.seq < b.seq
  ordered : LsnOrdered none (allFrames gs)
  tails : ∀ g ∈ gs, TornTail xxh3 g.torn
  stopped : gs.Pairwise fun a b => a.torn ≠ [] → b.frames = []

variable {xxh3} {gs : List Seg}

@[simp] theorem seqs_entries (gs : List Seg) : (entries xxh3 gs).seqs = gs.map Seg.seq := by
  simp [Dir.seqs, entries, Seg.entry]

@[simp] theorem allFrames_nil : allFrames [] = [] := rfl

@[simp] theorem allFrames_cons (g : Seg) (gs : List Seg) :
    allFrames (g :: gs) = g.frames ++ allFrames gs := rfl

@[simp] theorem allFrames_append (gs hs : List Seg) :
    allFrames (gs ++ hs) = allFrames gs ++ allFrames hs := by
  simp [allFrames]

theorem mem_allFrames {r : WalRecord} : r ∈ allFrames gs ↔ ∃ g ∈ gs, r ∈ g.frames := by
  simp [allFrames]

/-- Segments that are already ascending are listed as they are. -/
theorem listSegments_entries (h : gs.Pairwise fun a b => a.seq < b.seq) :
    listSegments (entries xxh3 gs) = entries xxh3 gs := by
  unfold listSegments
  apply Pairwise.insertionSort_eq
  rw [entries, pairwise_map]
  exact h.imp fun hab => hab.le

/-- LSN order of a concatenation. -/
theorem LsnOrdered.of_append {last : Option ℕ} {rs ss : List WalRecord}
    (h : LsnOrdered last (rs ++ ss)) :
    LsnOrdered last rs ∧ LsnOrdered ((rs.getLast?.map (·.lsn)).or last) ss := by
  obtain ⟨hv, hl, hp⟩ := h
  obtain ⟨hp1, hp2, hp3⟩ := pairwise_append.mp hp
  refine ⟨⟨fun r hr => hv r (mem_append_left _ hr),
    fun l hl' r hr => hl l hl' r (mem_append_left _ hr), hp1⟩,
    fun r hr => hv r (mem_append_right _ hr), ?_, hp2⟩
  intro l hl' r hr
  cases hlast : rs.getLast? with
  | none => exact hl l (by simpa [hlast] using hl') r (mem_append_right _ hr)
  | some x =>
      obtain rfl : x.lsn = l := by simpa [hlast] using hl'
      exact hp3 x (mem_of_getLast? hlast) r hr

/-- The scan of one segment's bytes. -/
theorem scanFrames_seg {last : Option ℕ} {g : Seg} (h : LsnOrdered last g.frames)
    (ht : TornTail xxh3 g.torn) :
    scanFrames xxh3 (g.bytes xxh3) last =
      (g.frames, (encodeRecords xxh3 g.frames).length, g.torn.isEmpty) :=
  scanFrames_encodeRecords xxh3 h ht

/-- The loop reads the frames of the segments one after the other. -/
theorem readSegments_entries {last : Option ℕ} (ho : LsnOrdered last (allFrames gs))
    (ht : ∀ g ∈ gs, TornTail xxh3 g.torn) (hs : gs.Pairwise fun a b => a.torn ≠ [] → b.frames = []) :
    readSegments xxh3 last (entries xxh3 gs) = allFrames gs := by
  induction gs generalizing last with
  | nil => rfl
  | cons g gs ih =>
      obtain ⟨ho1, ho2⟩ := LsnOrdered.of_append ho
      obtain ⟨hs1, hs2⟩ := pairwise_cons.mp hs
      have hscan := scanFrames_seg ho1 (ht g mem_cons_self)
      have hrest := ih ho2 (fun x hx => ht x (mem_cons_of_mem _ hx)) hs2
      change readSegments xxh3 last ((g.seq, ⟨g.bytes xxh3, g.synced, g.linked⟩) ::
        entries xxh3 gs) = _
      simp only [readSegments, hscan, allFrames_cons]
      by_cases htorn : g.torn = []
      · simp only [htorn, isEmpty_nil, if_true, hrest]
      · have hnil : allFrames gs = [] := by
          rw [eq_nil_iff_forall_not_mem]
          intro r hr
          obtain ⟨x, hx, hrx⟩ := mem_allFrames.mp hr
          rw [hs1 x hx htorn] at hrx
          exact not_mem_nil hrx
        simp [htorn, hnil]

/-- **What recovery reads.** The frames of a readable directory, in order. -/
theorem readAllFrames_entries (h : Readable xxh3 gs) : readAllFrames xxh3 (entries xxh3 gs) = allFrames gs := by
  rw [readAllFrames, listSegments_entries h.ascending]
  exact readSegments_entries h.ordered h.tails h.stopped

/-- The frames of one segment of a readable directory. -/
theorem readFrames_entry (h : Readable xxh3 gs) {g : Seg} (hg : g ∈ gs) :
    readFrames xxh3 (g.entry xxh3).2 = g.frames := by
  have hord : LsnOrdered none g.frames := by
    obtain ⟨hv, -, hp⟩ := h.ordered
    have hsub : g.frames.Sublist (allFrames gs) :=
      sublist_flatten_of_mem (mem_map_of_mem hg)
    exact ⟨fun r hr => hv r (hsub.subset hr), by simp, hp.sublist hsub⟩
  simp [readFrames, Seg.entry, scanFrames_seg hord (h.tails g hg)]

/-- The maximum of a list is an upper bound of it. -/
theorem le_foldl_max {ns : List ℕ} {a n : ℕ} (h : n ∈ ns ∨ n ≤ a) : n ≤ ns.foldl max a := by
  induction ns generalizing a with
  | nil => simpa using h
  | cons m ms ih =>
      rw [foldl_cons]
      apply ih
      rcases h with h | h
      · rcases mem_cons.mp h with rfl | h
        · exact Or.inr (le_max_right _ _)
        · exact Or.inl h
      · exact Or.inr (h.trans (le_max_left _ _))

/-- `segmentMaxLsn` bounds the LSNs of the segment. -/
theorem le_segmentMaxLsn (h : Readable xxh3 gs) {g : Seg} (hg : g ∈ gs) {r : WalRecord} (hr : r ∈ g.frames) :
    r.lsn ≤ segmentMaxLsn xxh3 (g.entry xxh3).2 := by
  rw [segmentMaxLsn, readFrames_entry h hg]
  exact le_foldl_max (Or.inl (mem_map_of_mem hr))

end reading

end Imbh.WriteAhead
