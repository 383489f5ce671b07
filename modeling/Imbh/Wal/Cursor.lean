import Imbh.Wal.WriterInv

/-!
# The reader's WAL tail cursor (`wal.rs`, `WalTailCursor`)

A reader keeps one cursor across refreshes. It remembers how far it has scanned each segment file,
the highest LSN it has seen and the frames it has accumulated, so that a refresh reads only the
bytes written since.

`advance` is one `list_segments` followed by one `advanceSegment` for each file listed, up to the
first that does not scan cleanly to its end. Each file is read at its own time, so `advanceSegment`
takes the directory as it is then.

`CursorInv` relates a cursor to the segments of a directory: what it has scanned of every file is
the frames up to the highest LSN it has seen, and above the watermark its frames are those.
-/

namespace Imbh.WriteAhead

open Lib List

/-- Incremental reader-side cursor over the WAL tail.
Source: `wal.rs` `WalTailCursor` -/
structure WalTailCursor where
  /-- Byte offset scanned so far in each live segment, by sequence number. -/
  offsets : List (ℕ × ℕ) := []
  /-- Running max LSN across every frame scanned. -/
  lastLsn : Option ℕ := none
  /-- The frames scanned so far, minus the sealed prefix. -/
  frames : List WalRecord := []
  deriving DecidableEq, Repr

/-- The bytes of a segment file from `start` to its end; empty when the file is absent.
Source: `wal.rs` `read_segment_from` -/
def readSegmentFrom (d : Dir) (q start : ℕ) : Bytes :=
  match d.lookup q with
  | none => []
  | some f => f.bytes.drop start

namespace WalTailCursor

/-- `offsets.get(&seq).unwrap_or(&0)`. -/
def offset (c : WalTailCursor) (q : ℕ) : ℕ := (c.offsets.lookup q).getD 0

/-- A frame at or below the highest LSN scanned. -/
def seen (c : WalTailCursor) (r : WalRecord) : Bool := c.lastLsn.any (r.lsn ≤ ·)

/-- Forget the offsets of files that are not listed.
Source: `wal.rs` `WalTailCursor::advance`, `offsets.retain` -/
def retainListed (segs : List ℕ) (c : WalTailCursor) : WalTailCursor :=
  { c with offsets := c.offsets.filter (·.1 ∈ segs) }

/-- Drop the sealed prefix.
Source: `wal.rs` `WalTailCursor::prune_sealed` -/
def pruneSealed (watermark : ℕ) (c : WalTailCursor) : WalTailCursor :=
  { c with frames := c.frames.filter (watermark < ·.lsn) }

section advance

variable (xxh3 : Bytes → UInt64)

/-- Scan the new bytes of one segment file: the cursor, and whether to go on to the next file.
Source: `wal.rs` `WalTailCursor::advance`, the body of the `for` -/
def advanceSegment (d : Dir) (q : ℕ) (c : WalTailCursor) : WalTailCursor × Bool :=
  let start := c.offset q
  let bytes := readSegmentFrom d q start
  if bytes.isEmpty then (c, true) else
  let (frames, consumed, complete) := scanFrames xxh3 bytes c.lastLsn
  ({ offsets := (q, start + consumed) :: c.offsets.filter (·.1 ≠ q)
     lastLsn := (frames.getLast?.map (·.lsn)).or c.lastLsn
     frames := c.frames ++ frames }, complete)

/-- The loop of `advance`; `fail` is the number of reads that succeed before one fails. -/
def advanceLoop (d : Dir) : Option ℕ → List ℕ → WalTailCursor → WalTailCursor × Except WalError Unit
  | _, [], c => (c, .ok ())
  | some 0, _ :: _, c => (c, .error (.openCtx "open WAL segment"))
  | fail, q :: rest, c =>
      match advanceSegment xxh3 d q c with
      | (c, true) => advanceLoop d (fail.map (· - 1)) rest c
      | (c, false) => (c, .ok ())

/-- Scan the bytes appended since the last call. `fail` is the I/O that fails: `some 0` the
directory listing, `some (i + 1)` the read of the `i`-th file.
Source: `wal.rs` `WalTailCursor::advance` -/
def advance (fail : Option ℕ) (d : Dir) (c : WalTailCursor) :
    WalTailCursor × Except WalError Unit :=
  match fail with
  | some 0 => (c, .error (.openCtx "read WAL dir"))
  | _ =>
      let segs := (listSegments d).map Prod.fst
      advanceLoop xxh3 d (fail.map (· - 1)) segs (c.retainListed segs)

end advance

end WalTailCursor

/-! ## The invariant -/

variable {xxh3 : Bytes → UInt64} {c : WalTailCursor} {gs : List Seg} {watermark next top : ℕ}

/-- The cursor `c` has scanned, of every segment, exactly the frames up to the highest LSN it has
seen, and holds those above the watermark. `top` bounds the files it knows, `next` the LSNs. -/
structure CursorInv (xxh3 : Bytes → UInt64) (gs : List Seg) (watermark top next : ℕ)
    (c : WalTailCursor) : Prop where
  offset : ∀ g ∈ gs, c.offset g.seq = (encodeRecords xxh3 (g.frames.filter c.seen)).length
  keys : ∀ p ∈ c.offsets, p.1 ≤ top
  sorted : c.frames.Pairwise fun a b => a.lsn < b.lsn
  seen : ∀ r ∈ c.frames, c.seen r = true
  mem : ∀ r, watermark < r.lsn → (r ∈ c.frames ↔ r ∈ allFrames gs ∧ c.seen r = true)
  below : ∀ l ∈ c.lastLsn, l < next

/-- A fresh cursor. -/
theorem cursorInv_default (gs : List Seg) (watermark top next : ℕ) :
    CursorInv xxh3 gs watermark top next {} where
  offset g _ := by
    have : g.frames.filter ({} : WalTailCursor).seen = [] :=
      filter_eq_nil_iff.mpr fun _ _ => by simp [WalTailCursor.seen]
    rw [this]
    rfl
  keys := by simp
  sorted := Pairwise.nil
  seen := by simp
  mem := by simp [WalTailCursor.seen]
  below := by simp

/-- LSN-ordered frames split at the highest LSN seen. -/
theorem filter_seen_append (c : WalTailCursor) {rs : List WalRecord}
    (h : rs.Pairwise fun a b => a.lsn < b.lsn) :
    rs = rs.filter c.seen ++ rs.filter (!c.seen ·) := by
  induction rs with
  | nil => rfl
  | cons r rs ih =>
      obtain ⟨hr, hrs⟩ := pairwise_cons.mp h
      by_cases hs : c.seen r
      · rw [filter_cons_of_pos hs, filter_cons_of_neg (by simp [hs]), cons_append,
          ← ih hrs]
      · have hnil : ∀ x ∈ rs, ¬ c.seen x := by
          intro x hx hsx
          unfold WalTailCursor.seen at hs hsx
          cases hl : c.lastLsn with
          | none => simp [hl] at hsx
          | some l =>
              have := hr x hx
              simp only [hl, Option.any_some, decide_eq_true_eq] at hs hsx
              omega
        rw [filter_cons_of_neg hs, filter_cons_of_pos (by simp [hs]),
          filter_eq_nil_iff.mpr hnil, filter_eq_self.mpr (by simpa using hnil)]
        rfl

/-- Two LSN-ordered lists with the same members are equal. -/
theorem eq_of_lsn_ordered {rs ss : List WalRecord} (hr : rs.Pairwise fun a b => a.lsn < b.lsn)
    (hs : ss.Pairwise fun a b => a.lsn < b.lsn) (h : ∀ r, r ∈ rs ↔ r ∈ ss) : rs = ss := by
  have hnr : rs.Nodup := hr.imp fun hab heq => absurd (congrArg WalRecord.lsn heq) hab.ne
  have hns : ss.Nodup := hs.imp fun hab heq => absurd (congrArg WalRecord.lsn heq) hab.ne
  exact Perm.eq_of_pairwise (fun _ _ _ _ hab hba => absurd hab (Nat.lt_asymm hba)) hr hs
    ((perm_ext_iff_of_nodup hnr hns).mpr h)

namespace WalTailCursor

theorem seen_lt {a b : WalRecord} (ha : c.seen a = true) (hb : c.seen b = false) : a.lsn < b.lsn := by
  unfold seen at ha hb
  cases hl : c.lastLsn with
  | none => simp [hl] at ha
  | some l =>
      simp only [hl, Option.any_some, decide_eq_true_eq, decide_eq_false_iff_not] at ha hb
      omega

/-- The offset of a file that was just scanned. -/
theorem offset_cons_self (q n : ℕ) (os : List (ℕ × ℕ)) (l : Option ℕ) (rs : List WalRecord) :
    (⟨(q, n) :: os, l, rs⟩ : WalTailCursor).offset q = n := by
  simp [offset]

/-- Dropping other keys leaves the entry of a key. -/
theorem lookup_filter (P : ℕ → Prop) [DecidablePred P] {p : ℕ} (h : P p) (os : List (ℕ × ℕ)) :
    (os.filter fun o => P o.1).lookup p = os.lookup p := by
  induction os with
  | nil => rfl
  | cons o os ih =>
      by_cases ho : P o.1
      · rw [filter_cons_of_pos (by simpa using ho), lookup_cons, lookup_cons, ih]
      · have hne : (p == o.1) = false := beq_false_of_ne fun heq => ho (heq ▸ h)
        rw [filter_cons_of_neg (by simpa using ho), lookup_cons, hne]
        exact ih

/-- Scanning one file leaves the offsets of the others. -/
theorem offset_cons_ne {q p : ℕ} (h : p ≠ q) (n : ℕ) (os : List (ℕ × ℕ)) (l : Option ℕ)
    (rs : List WalRecord) :
    (⟨(q, n) :: os.filter (·.1 ≠ q), l, rs⟩ : WalTailCursor).offset p =
      ((os.lookup p).getD 0) := by
  have hlook : (os.filter (·.1 ≠ q)).lookup p = os.lookup p :=
    lookup_filter (· ≠ q) h os
  have hpq : (p == q) = false := beq_false_of_ne h
  simp only [offset, lookup_cons, hpq, hlook]

end WalTailCursor

/-- The file of a segment. -/
theorem lookup_entries (h : gs.Pairwise fun a b => a.seq < b.seq) {g : Seg} (hg : g ∈ gs) :
    (entries xxh3 gs).lookup g.seq = some (g.entry xxh3).2 := by
  induction gs with
  | nil => exact absurd hg not_mem_nil
  | cons x gs ih =>
      obtain ⟨hx, hgs⟩ := pairwise_cons.mp h
      rcases mem_cons.mp hg with rfl | hg
      · simp [entries, Seg.entry]
      · have hne : (g.seq == x.seq) = false := beq_false_of_ne (hx g hg).ne'
        change ((x.seq, (x.entry xxh3).2) :: entries xxh3 gs).lookup g.seq = _
        rw [lookup_cons, hne]
        exact ih hgs hg

/-- There is no file at a sequence number that no segment has. -/
theorem lookup_entries_none {q : ℕ} (h : ∀ g ∈ gs, g.seq ≠ q) : (entries xxh3 gs).lookup q = none := by
  rw [lookup_eq_none_iff]
  intro p hp
  obtain ⟨g, hg, rfl⟩ := mem_map.mp hp
  exact bne_iff_ne.mpr fun hq => h g hg hq.symm

/-- Frames of a later segment carry higher LSNs. -/
theorem Readable.lsn_lt (h : Readable xxh3 gs) {g g' : Seg} (hg : g ∈ gs) (hg' : g' ∈ gs) (hlt : g.seq < g'.seq)
    {r r' : WalRecord} (hr : r ∈ g.frames) (hr' : r' ∈ g'.frames) : r.lsn < r'.lsn := by
  obtain ⟨pre, post, rfl⟩ := append_of_mem hg
  have hasc := (pairwise_append.mp h.ascending).2.2
  rcases mem_append.mp hg' with hpre | hpost
  · exact absurd (hasc g' hpre g mem_cons_self) (by omega)
  · rcases mem_cons.mp hpost with rfl | hpost
    · exact absurd hlt (lt_irrefl _)
    · have hord := h.ordered.2.2
      rw [allFrames_append, allFrames_cons] at hord
      have hord := (pairwise_append.mp (pairwise_append.mp hord).2.1).2.2
      exact hord r hr r' (mem_allFrames.mpr ⟨g', hpost, hr'⟩)

/-- There is no frame behind a torn tail. -/
theorem Readable.frames_of_torn (h : Readable xxh3 gs) {g g' : Seg} (hg : g ∈ gs) (hg' : g' ∈ gs)
    (hlt : g.seq < g'.seq) (ht : g.torn ≠ []) : g'.frames = [] := by
  obtain ⟨pre, post, rfl⟩ := append_of_mem hg
  have hasc := (pairwise_append.mp h.ascending).2.2
  rcases mem_append.mp hg' with hpre | hpost
  · exact absurd (hasc g' hpre g mem_cons_self) (by omega)
  · rcases mem_cons.mp hpost with rfl | hpost
    · exact absurd hlt (lt_irrefl _)
    · exact (pairwise_cons.mp (pairwise_append.mp h.stopped).2.1).1 g' hpost ht

/-- What a cursor has not scanned of a segment: the frames it has not seen, and the torn tail. -/
theorem CursorInv.readSegmentFrom (hc : CursorInv xxh3 gs watermark top next c) (hr : Readable xxh3 gs) {g : Seg}
    (hg : g ∈ gs) :
    readSegmentFrom (entries xxh3 gs) g.seq (c.offset g.seq) =
      encodeRecords xxh3 (g.frames.filter (!c.seen ·)) ++ g.torn := by
  unfold WriteAhead.readSegmentFrom
  rw [lookup_entries hr.ascending hg, hc.offset g hg]
  change (g.bytes xxh3).drop _ = _
  have hsplit := filter_seen_append c (hr.ordered_of_mem hg).2.2
  have hbytes : g.bytes xxh3 = encodeRecords xxh3 (g.frames.filter c.seen) ++
      (encodeRecords xxh3 (g.frames.filter (!c.seen ·)) ++ g.torn) := by
    unfold Seg.bytes
    conv_lhs => rw [hsplit]
    rw [encodeRecords_append, append_assoc]
  rw [hbytes, drop_left]

/-- The frames a cursor has not seen are in order behind the ones it has. -/
theorem lsnOrdered_unseen {rs : List WalRecord} (h : LsnOrdered none rs) :
    LsnOrdered c.lastLsn (rs.filter (!c.seen ·)) := by
  refine ⟨fun r hr => h.1 r (mem_of_mem_filter hr), fun l hl r hr => ?_,
    h.2.2.sublist filter_sublist⟩
  have hs := (mem_filter.mp hr).2
  unfold WalTailCursor.seen at hs
  rw [show c.lastLsn = some l from hl] at hs
  simpa using hs

/-- What the scan of one file has to leave behind: the invariant, with every frame up to that
file seen; and it goes on unless the file has a torn tail. -/
structure SegmentScanned (xxh3 : Bytes → UInt64) (gs : List Seg) (watermark top next q : ℕ)
    (c c' : WalTailCursor) (complete : Bool) : Prop where
  inv : CursorInv xxh3 gs watermark top next c'
  mono : ∀ r, c.seen r = true → c'.seen r = true
  upto : ∀ h ∈ gs, h.seq ≤ q → ∀ r ∈ h.frames, c'.seen r = true
  torn : complete = false → ∃ g ∈ gs, g.seq = q ∧ g.torn ≠ []

/-- The cursor that has scanned the rest of a segment's frames. -/
def WalTailCursor.scanned (c : WalTailCursor) (q n : ℕ) (new : List WalRecord) : WalTailCursor where
  offsets := (q, n) :: c.offsets.filter (·.1 ≠ q)
  lastLsn := (new.getLast?.map (·.lsn)).or c.lastLsn
  frames := c.frames ++ new

/-- What has been seen after the scan of one segment's new frames. -/
theorem seen_scanned (hr : Readable xxh3 gs) {g : Seg} (hg : g ∈ gs)
    (hprev : ∀ h ∈ gs, h.seq < g.seq → ∀ r ∈ h.frames, c.seen r = true) {q n : ℕ} {r : WalRecord}
    (hmem : r ∈ allFrames gs) :
    (c.scanned q n (g.frames.filter (!c.seen ·))).seen r = true ↔
      c.seen r = true ∨ r ∈ g.frames.filter (!c.seen ·) := by
  have hnew := lsnOrdered_unseen (c := c) (hr.ordered_of_mem hg)
  set new := g.frames.filter (!c.seen ·) with hdef
  cases hlast : new.getLast? with
  | none =>
      have hnil : new = [] := getLast?_eq_none_iff.mp hlast
      simp [WalTailCursor.scanned, WalTailCursor.seen, hnil]
  | some x =>
      have hx : x ∈ new := mem_of_getLast? hlast
      have hxg : x ∈ g.frames := mem_of_mem_filter hx
      have hxs : c.seen x = false := by simpa using (mem_filter.mp hx).2
      have hseen : (c.scanned q n new).seen r = true ↔ r.lsn ≤ x.lsn := by
        simp [WalTailCursor.scanned, WalTailCursor.seen, hlast]
      rw [hseen]
      constructor
      · intro hle
        obtain ⟨h, hh, hrh⟩ := mem_allFrames.mp hmem
        rcases lt_trichotomy h.seq g.seq with hlt | heq | hgt
        · exact Or.inl (hprev h hh hlt r hrh)
        · rw [hr.eq_of_seq hh hg heq] at hrh
          by_cases hs : c.seen r
          · exact Or.inl hs
          · exact Or.inr (mem_filter.mpr ⟨hrh, by simp [hs]⟩)
        · have := hr.lsn_lt hg hh hgt hxg hrh
          omega
      · rintro (hs | hrn)
        · exact (WalTailCursor.seen_lt hs hxs).le
        · obtain ⟨init, hinit⟩ := getLast?_eq_some_iff.mp hlast
          rw [hinit] at hrn
          rcases mem_append.mp hrn with hri | hrx
          · have hp := hnew.2.2
            rw [hinit] at hp
            exact ((pairwise_append.mp hp).2.2 r hri x mem_cons_self).le
          · rw [mem_singleton.mp hrx]

theorem WalTailCursor.seen_mono {q n : ℕ} {new : List WalRecord} (hnew : ∀ x ∈ new, c.seen x = false) {r : WalRecord}
    (hr : c.seen r = true) : (c.scanned q n new).seen r = true := by
  cases hlast : new.getLast? with
  | none => simpa [scanned, seen, hlast] using hr
  | some x =>
      have := (seen_lt hr (hnew x (mem_of_getLast? hlast))).le
      simpa [scanned, seen, hlast] using this

/-- The cursor that has scanned the rest of a segment satisfies the invariant again. -/
theorem CursorInv.scanned (hc : CursorInv xxh3 gs watermark top next c) (hr : Readable xxh3 gs) {g : Seg}
    (hg : g ∈ gs) (hprev : ∀ h ∈ gs, h.seq < g.seq → ∀ r ∈ h.frames, c.seen r = true) (htop : g.seq ≤ top)
    (hnext : ∀ r ∈ allFrames gs, r.lsn < next) :
    CursorInv xxh3 gs watermark top next (c.scanned g.seq
      (c.offset g.seq + (encodeRecords xxh3 (g.frames.filter (!c.seen ·))).length)
      (g.frames.filter (!c.seen ·))) := by
  have hord := (hr.ordered_of_mem hg).2.2
  have hsplit := filter_seen_append c hord
  have hseen {r : WalRecord} (hmem : r ∈ allFrames gs) :=
    seen_scanned (q := g.seq)
      (n := c.offset g.seq + (encodeRecords xxh3 (g.frames.filter (!c.seen ·))).length)
      hr hg hprev hmem
  set new := g.frames.filter (!c.seen ·) with hdef
  set n := c.offset g.seq + (encodeRecords xxh3 new).length with hn
  have hnew {r : WalRecord} (h : r ∈ new) : r ∈ g.frames ∧ c.seen r = false := by
    simpa [hdef] using h
  have hall {r : WalRecord} (h : r ∈ new) : r ∈ allFrames gs :=
    mem_allFrames.mpr ⟨g, hg, (hnew h).1⟩
  refine ⟨fun h hh => ?_, ?_, ?_, ?_, fun r hw => ?_, ?_⟩
  · by_cases hq : h.seq = g.seq
    · obtain rfl := hr.eq_of_seq hh hg hq
      have hfull : h.frames.filter (c.scanned h.seq n new).seen = h.frames := by
        refine filter_eq_self.mpr fun r hrh => (hseen (mem_allFrames.mpr ⟨h, hh, hrh⟩)).mpr ?_
        by_cases hs : c.seen r
        · exact Or.inl hs
        · exact Or.inr (mem_filter.mpr ⟨hrh, by simp [hs]⟩)
      rw [hfull, WalTailCursor.scanned, WalTailCursor.offset_cons_self, hn, hc.offset h hh,
        ← length_append, ← encodeRecords_append, ← hsplit]
    · have hsame : h.frames.filter (c.scanned g.seq n new).seen = h.frames.filter c.seen := by
        refine filter_congr fun r hrh => ?_
        have hnot : r ∉ new := by
          intro hrn
          rcases lt_or_gt_of_ne hq with hlt | hgt
          · exact absurd (hr.lsn_lt hh hg hlt hrh (hnew hrn).1) (lt_irrefl _)
          · exact absurd (hr.lsn_lt hg hh hgt (hnew hrn).1 hrh) (lt_irrefl _)
        have := hseen (mem_allFrames.mpr ⟨h, hh, hrh⟩)
        rw [Bool.eq_iff_iff]
        simpa [hnot] using this
      rw [hsame, WalTailCursor.scanned, WalTailCursor.offset_cons_ne hq]
      exact hc.offset h hh
  · intro p hp
    rcases mem_cons.mp hp with rfl | hp
    · exact htop
    · exact hc.keys p (mem_of_mem_filter hp)
  · refine pairwise_append.mpr ⟨hc.sorted, hord.sublist filter_sublist, ?_⟩
    exact fun a ha b hb => WalTailCursor.seen_lt (hc.seen a ha) (hnew hb).2
  · intro r hrm
    rcases mem_append.mp hrm with hrc | hrn
    · exact WalTailCursor.seen_mono (fun x hx => (hnew hx).2) (hc.seen r hrc)
    · exact (hseen (hall hrn)).mpr (Or.inr hrn)
  · constructor
    · intro hrm
      rcases mem_append.mp hrm with hrc | hrn
      · obtain ⟨hra, hrs⟩ := (hc.mem r hw).mp hrc
        exact ⟨hra, (hseen hra).mpr (Or.inl hrs)⟩
      · exact ⟨hall hrn, (hseen (hall hrn)).mpr (Or.inr hrn)⟩
    · rintro ⟨hra, hrs⟩
      rcases (hseen hra).mp hrs with hs | hrn
      · exact mem_append_left _ ((hc.mem r hw).mpr ⟨hra, hs⟩)
      · exact mem_append_right _ hrn
  · intro l hl
    cases hlast : new.getLast? with
    | none => exact hc.below l (by simpa [WalTailCursor.scanned, hlast] using hl)
    | some x =>
        obtain rfl : x.lsn = l := by simpa [WalTailCursor.scanned, hlast] using hl
        exact hnext x (hall (mem_of_getLast? hlast))

/-- **The scan of one file.** Every frame of the files up to this one has been seen after it. -/
theorem advanceSegment_inv {q : ℕ} (hc : CursorInv xxh3 gs watermark top next c) (hr : Readable xxh3 gs)
    (hprev : ∀ h ∈ gs, h.seq < q → ∀ r ∈ h.frames, c.seen r = true)
    (htop : ∀ g ∈ gs, g.frames ≠ [] ∨ g.torn ≠ [] → g.seq ≤ top) (hnext : ∀ r ∈ allFrames gs, r.lsn < next) :
    SegmentScanned xxh3 gs watermark top next q c
      (WalTailCursor.advanceSegment xxh3 (entries xxh3 gs) q c).1
      (WalTailCursor.advanceSegment xxh3 (entries xxh3 gs) q c).2 := by
  unfold WalTailCursor.advanceSegment
  by_cases hq : ∃ g ∈ gs, g.seq = q
  · obtain ⟨g, hg, rfl⟩ := hq
    simp only [hc.readSegmentFrom hr hg]
    set new := g.frames.filter (!c.seen ·) with hdef
    have hgseen {r : WalRecord} (hrg : r ∈ g.frames) : c.seen r = true ∨ r ∈ new := by
      by_cases hs : c.seen r
      · exact Or.inl hs
      · exact Or.inr (mem_filter.mpr ⟨hrg, by simp [hs]⟩)
    by_cases hempty : (encodeRecords xxh3 new ++ g.torn).isEmpty
    · simp only [hempty, if_true]
      obtain ⟨hnil, htorn⟩ := append_eq_nil_iff.mp (isEmpty_iff.mp hempty)
      refine ⟨hc, fun _ => id, fun h hh hle r hrh => ?_, by simp⟩
      rcases Nat.lt_or_eq_of_le hle with hlt | heq
      · exact hprev h hh hlt r hrh
      · rw [hr.eq_of_seq hh hg heq] at hrh
        refine (hgseen hrh).elim id fun hrn => ?_
        have hlen := (walFraming xxh3).length_le_encodeAll new
        rw [show (walFraming xxh3).encodeAll new = [] from hnil] at hlen
        rw [length_eq_zero_iff.mp (Nat.le_zero.mp hlen)] at hrn
        exact absurd hrn not_mem_nil
    · have hscan := scanFrames_encodeRecords xxh3
        (lsnOrdered_unseen (c := c) (hr.ordered_of_mem hg)) (hr.tails g hg)
      rw [← hdef] at hscan
      simp only [hempty, Bool.false_eq_true, if_false, hscan]
      have hle : g.seq ≤ top := by
        refine htop g hg ?_
        by_contra hno
        obtain ⟨hf, ht⟩ := not_or.mp hno
        rw [not_not] at hf ht
        exact hempty (by simp [hdef, hf, ht])
      refine ⟨hc.scanned hr hg hprev hle hnext, fun r hs => ?_, fun h hh hle r hrh => ?_,
        fun ht => ?_⟩
      · refine WalTailCursor.seen_mono (fun x hx => ?_) hs
        simpa using (mem_filter.mp hx).2
      · refine (seen_scanned hr hg hprev (mem_allFrames.mpr ⟨h, hh, hrh⟩)).mpr ?_
        rcases Nat.lt_or_eq_of_le hle with hlt | heq
        · exact Or.inl (hprev h hh hlt r hrh)
        · rw [hr.eq_of_seq hh hg heq] at hrh
          exact hgseen hrh
      · exact ⟨g, hg, rfl, fun hnil => by simp [hnil] at ht⟩
  · have hne : ∀ g ∈ gs, g.seq ≠ q := fun g hg heq => hq ⟨g, hg, heq⟩
    have hbytes : readSegmentFrom (entries xxh3 gs) q (c.offset q) = [] := by
      unfold readSegmentFrom
      rw [lookup_entries_none hne]
    simp only [hbytes, isEmpty_nil, if_true]
    exact ⟨hc, fun _ => id, fun h hh hle => hprev h hh (lt_of_le_of_ne hle (hne h hh)), by simp⟩

/-! ## An advance -/

/-- Forgetting files that are gone. -/
theorem CursorInv.retainListed (hc : CursorInv xxh3 gs watermark top next c) {segs : List ℕ}
    (hsegs : ∀ g ∈ gs, g.seq ∈ segs) :
    CursorInv xxh3 gs watermark top next (c.retainListed segs) where
  offset g hg := by
    have hlook : (c.offsets.filter (·.1 ∈ segs)).lookup g.seq = c.offsets.lookup g.seq :=
      WalTailCursor.lookup_filter (· ∈ segs) (hsegs g hg) c.offsets
    have := hc.offset g hg
    unfold WalTailCursor.offset at this ⊢
    exact (congrArg (·.getD 0) hlook).trans this
  keys p hp := hc.keys p (mem_of_mem_filter hp)
  sorted := hc.sorted
  seen := hc.seen
  mem := hc.mem
  below := hc.below

/-- A round of the loop whose read succeeds. -/
theorem WalTailCursor.advanceLoop_cons {fail : Option ℕ} (h : fail ≠ some 0) (d : Dir) (q : ℕ)
    (rest : List ℕ) (c : WalTailCursor) :
    advanceLoop xxh3 d fail (q :: rest) c =
      match advanceSegment xxh3 d q c with
      | (c, true) => advanceLoop xxh3 d (fail.map (· - 1)) rest c
      | (c, false) => (c, .ok ()) := by
  rw [advanceLoop]
  exact h

/-- An advance whose listing succeeds. -/
theorem WalTailCursor.advance_eq {fail : Option ℕ} (h : fail ≠ some 0) (d : Dir)
    (c : WalTailCursor) :
    c.advance xxh3 fail d = advanceLoop xxh3 d (fail.map (· - 1)) ((listSegments d).map Prod.fst)
      (c.retainListed ((listSegments d).map Prod.fst)) := by
  unfold advance
  split
  · exact absurd rfl h
  · rfl

/-- Every frame of the directory has been seen. -/
def AllSeen (gs : List Seg) (c : WalTailCursor) : Prop := ∀ r ∈ allFrames gs, c.seen r = true

/-- The loop of an advance, at the files of the suffix `post` of the directory. -/
theorem advanceLoop_inv (hr : Readable xxh3 gs) (htop : ∀ g ∈ gs, g.frames ≠ [] ∨ g.torn ≠ [] → g.seq ≤ top)
    (hnext : ∀ r ∈ allFrames gs, r.lsn < next) (pre post : List Seg) (hgs : gs = pre ++ post) (fail : Option ℕ)
    (hc : CursorInv xxh3 gs watermark top next c) (hprev : ∀ h ∈ pre, ∀ r ∈ h.frames, c.seen r = true) :
    CursorInv xxh3 gs watermark top next
        (WalTailCursor.advanceLoop xxh3 (entries xxh3 gs) fail (post.map Seg.seq) c).1 ∧
      ((WalTailCursor.advanceLoop xxh3 (entries xxh3 gs) fail (post.map Seg.seq) c).2 = .ok () →
        AllSeen gs
          (WalTailCursor.advanceLoop xxh3 (entries xxh3 gs) fail (post.map Seg.seq) c).1) := by
  induction post generalizing pre fail c with
  | nil =>
      have hall : AllSeen gs c := by
        intro r hrm
        obtain ⟨h, hh, hrh⟩ := mem_allFrames.mp hrm
        exact hprev h (by simpa [hgs] using hh) r hrh
      cases fail <;> exact ⟨hc, fun _ => hall⟩
  | cons g post ih =>
      have hg : g ∈ gs := by simp [hgs]
      have hasc := hr.ascending
      rw [hgs] at hasc
      obtain ⟨-, hasc2, hasc3⟩ := pairwise_append.mp hasc
      have hlt : ∀ h ∈ gs, h.seq < g.seq → ∀ r ∈ h.frames, c.seen r = true := by
        intro h hh hlt
        rw [hgs] at hh
        rcases mem_append.mp hh with hh | hh
        · exact hprev h hh
        · rcases mem_cons.mp hh with rfl | hh
          · exact absurd hlt (lt_irrefl _)
          · exact absurd ((pairwise_cons.mp hasc2).1 h hh) (by omega)
      have hscan := advanceSegment_inv hc hr hlt htop hnext
      rw [map_cons]
      by_cases hf : fail = some 0
      · subst hf
        exact ⟨hc, fun h => by simp [WalTailCursor.advanceLoop] at h⟩
      rw [WalTailCursor.advanceLoop_cons hf]
      rcases hres : WalTailCursor.advanceSegment xxh3 (entries xxh3 gs) g.seq c with ⟨c', complete⟩
      rw [hres] at hscan
      obtain ⟨hinv, -, hupto, htorn⟩ := hscan
      cases complete with
      | true =>
          have hpre : ∀ h ∈ pre ++ [g], ∀ r ∈ h.frames, c'.seen r = true := by
            intro h hh
            rcases mem_append.mp hh with hh | hh
            · exact hupto h (by simp [hgs, hh]) (hasc3 h hh g mem_cons_self).le
            · rw [mem_singleton.mp hh]
              exact hupto g hg le_rfl
          exact ih (pre ++ [g]) (by simp [hgs]) (fail.map (· - 1)) hinv hpre
      | false =>
          refine ⟨hinv, fun _ r hrm => ?_⟩
          obtain ⟨x, hx, hxs, hxt⟩ := htorn rfl
          obtain rfl := hr.eq_of_seq hx hg hxs
          obtain ⟨h, hh, hrh⟩ := mem_allFrames.mp hrm
          by_cases hle : h.seq ≤ x.seq
          · exact hupto h hh hle r hrh
          · -- nothing is behind the first torn tail
            have hstop : h.frames = [] := hr.frames_of_torn hx hh (by omega) hxt
            rw [hstop] at hrh
            exact absurd hrh not_mem_nil

/-- **An advance.** It keeps the invariant, also when a read fails half way; when it returns,
every frame of the directory has been seen. -/
theorem advance_inv (hr : Readable xxh3 gs) (htop : ∀ g ∈ gs, g.frames ≠ [] ∨ g.torn ≠ [] → g.seq ≤ top)
    (hnext : ∀ r ∈ allFrames gs, r.lsn < next) (fail : Option ℕ) (hc : CursorInv xxh3 gs watermark top next c) :
    CursorInv xxh3 gs watermark top next (c.advance xxh3 fail (entries xxh3 gs)).1 ∧
      ((c.advance xxh3 fail (entries xxh3 gs)).2 = .ok () →
        AllSeen gs (c.advance xxh3 fail (entries xxh3 gs)).1) := by
  have hsegs : (listSegments (entries xxh3 gs)).map Prod.fst = gs.map Seg.seq := by
    rw [listSegments_entries hr.ascending]
    simp [entries, Seg.entry]
  by_cases hf : fail = some 0
  · subst hf
    exact ⟨hc, fun h => by simp [WalTailCursor.advance] at h⟩
  rw [WalTailCursor.advance_eq hf, hsegs]
  exact advanceLoop_inv hr htop hnext [] gs rfl (fail.map (· - 1))
    (hc.retainListed fun g hg => mem_map_of_mem hg) (by simp)

/-- Dropping the sealed prefix. -/
theorem CursorInv.pruneSealed (hc : CursorInv xxh3 gs watermark top next c) {w : ℕ} (hw : w ≤ watermark) :
    CursorInv xxh3 gs watermark top next (c.pruneSealed w) where
  offset := hc.offset
  keys := hc.keys
  sorted := hc.sorted.sublist filter_sublist
  seen r hr := hc.seen r (mem_of_mem_filter hr)
  mem r hlt := by
    refine Iff.trans ?_ (hc.mem r hlt)
    simp only [WalTailCursor.pruneSealed, mem_filter, decide_eq_true_eq]
    exact and_iff_left (hw.trans_lt hlt)
  below := hc.below

/-- **A refreshed cursor is a full scan.** Once every frame has been seen, pruning leaves the
frames above the watermark. -/
theorem CursorInv.pruneSealed_frames (hc : CursorInv xxh3 gs watermark top next c) (hr : Readable xxh3 gs)
    (hall : AllSeen gs c) : (c.pruneSealed watermark).frames = (allFrames gs).filter (watermark < ·.lsn) := by
  refine eq_of_lsn_ordered (hc.sorted.sublist filter_sublist)
    (hr.ordered.2.2.sublist filter_sublist) fun r => ?_
  simp only [WalTailCursor.pruneSealed, mem_filter, decide_eq_true_eq]
  refine and_congr_left fun hlt => ?_
  rw [hc.mem r hlt]
  exact and_iff_left_of_imp (hall r)

/-! ## What the writer may do in between -/

/-- What is written is at or below the append target. -/
theorem OpenFiles.seq_le_cur (V : OpenFiles xxh3) :
    ∀ g ∈ V.segs, g.frames ≠ [] ∨ g.torn ≠ [] → g.seq ≤ V.cur.seq := by
  intro g hg hne
  rcases mem_append.mp hg with hg | hg
  · exact (V.pre_lt hg).le
  · rcases mem_cons.mp hg with rfl | hg
    · exact le_rfl
    · obtain ⟨-, hf, ht, -⟩ := V.empty g hg
      exact absurd hne (by simp [hf, ht])

/-- The cursor of a directory whose files the writer has changed: files the cursor knows have the
same seen frames, new files have none, and above the new watermark no seen frame came or went. -/
theorem CursorInv.writer {gs' : List Seg} {watermark' top' next' : ℕ} (hc : CursorInv xxh3 gs watermark top next c)
    (hw : watermark ≤ watermark') (ht : top ≤ top') (hn : next ≤ next')
    (hseg : ∀ g' ∈ gs', (∃ g ∈ gs, g.seq = g'.seq ∧
      g'.frames.filter c.seen = g.frames.filter c.seen) ∨
        top < g'.seq ∧ g'.frames.filter c.seen = [])
    (hmem : ∀ r, watermark' < r.lsn → c.seen r = true → (r ∈ allFrames gs ↔ r ∈ allFrames gs')) :
    CursorInv xxh3 gs' watermark' top' next' c where
  offset g' hg' := by
    rcases hseg g' hg' with ⟨g, hg, hs, hf⟩ | ⟨hlt, hf⟩
    · rw [hf, ← hs]
      exact hc.offset g hg
    · have hnone : c.offsets.lookup g'.seq = none := by
        rw [lookup_eq_none_iff]
        intro p hp
        have := hc.keys p hp
        exact bne_iff_ne.mpr (by omega)
      rw [hf, WalTailCursor.offset, hnone]
      rfl
  keys p hp := (hc.keys p hp).trans ht
  sorted := hc.sorted
  seen := hc.seen
  mem r hlt := by
    rw [hc.mem r (hw.trans_lt hlt)]
    exact and_congr_left fun hs => hmem r hlt hs
  below l hl := (hc.below l hl).trans_le hn

/-- A call that appends frames the cursor has not seen. -/
theorem CursorInv.grew {F F' : OpenFiles xxh3} {new : List WalRecord} {next' : ℕ}
    (hc : CursorInv xxh3 F.segs watermark F.cur.seq next c) (hg : Grew F F' new) (hn : next ≤ next')
    (hnew : ∀ r ∈ new, c.seen r = false) : CursorInv xxh3 F'.segs watermark F'.cur.seq next' c := by
  have hnil : ∀ rs ⊆ new, rs.filter c.seen = [] := fun rs hrs =>
    filter_eq_nil_iff.mpr fun r hr => by simp [hnew r (hrs hr)]
  refine hc.writer le_rfl hg.seq_le hn (fun g' hg' => ?_) fun r _ hs => ?_
  · by_cases hle : g'.seq ≤ F.cur.seq
    · obtain ⟨g, hgm, hgs, hf⟩ := hg.seg g' hg' hle
      refine Or.inl ⟨g, hgm, hgs, ?_⟩
      have hsub : (if g.seq = F.cur.seq then new else []) ⊆ new := by
        split
        · exact List.Subset.refl _
        · exact nil_subset _
      rw [hf, filter_append, hnil _ hsub, append_nil]
    · refine Or.inr ⟨by omega, ?_⟩
      rw [hg.above g' hg' (by omega)]
      rfl
  · rw [hg.frames, mem_append]
    exact (or_iff_left fun hr => by simp [hnew r hr] at hs).symm

/-- A reclaim at or below the watermark. -/
theorem CursorInv.shrank {F F' : OpenFiles xxh3} {w : ℕ} (hc : CursorInv xxh3 F.segs watermark F.cur.seq next c)
    (hs : Shrank w F F') (hw : w ≤ watermark) : CursorInv xxh3 F'.segs watermark F'.cur.seq next c := by
  refine hc.writer le_rfl (by rw [hs.cur]) le_rfl (fun g hg => ?_) fun r hlt _ => ?_
  · exact Or.inl ⟨g, hs.segs.subset hg, rfl, rfl⟩
  · exact ⟨fun hr => hs.mem hr (hw.trans_lt hlt),
      fun hr => (allFrames_sublist hs.segs).subset hr⟩

end Imbh.WriteAhead
