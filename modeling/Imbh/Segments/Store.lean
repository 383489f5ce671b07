import Imbh.Lib.Runs
import Imbh.Segments.Compaction
import Imbh.Segments.Policy

/-!
# The database of segments

A database whose operations run one after the other: rows are ingested, sealed and compacted, another
process prepares rewrites and the writer commits them, and `retain` drops segments.

`used` is kept by no code: the file names that were given out. The clock and a counter make them, so
that none is given out twice.
-/

namespace Imbh.Segments

open Lib List Option Function
open Storage (Table)

variable {D P : Type}

structure Store (D P : Type) where
  buffers : Table → List (TimedRow D)
  listed : SegmentLists
  manifest : SegmentLists
  files : SegmentFiles D
  pending : PendingDir P
  used : List Text

/-- What is done to the database. File names come with the operation that gives them out; `lags` says
of which segments the schema lags, `refused` which files the operating system does not unlink, and
`size` is the size of a segment on disk. -/
inductive Op (D P : Type)
  | ingest (t : Table) (rows : List (TimedRow D))
  | sealBuffers (path : Table → Text)
  | compact (maxPartitions : ℕ) (lags : Text → Bool) (names : List Text) (refused : Text → Bool)
  | prepare (t : Table) (group : List SegmentRef) (path name : Text) (promote : P) (torn : Bool)
  | commitPending (livePromote : P) (refused : Text → Bool)
  | retain (policy : RetentionPolicy) (now : ℤ) (size : Text → ℕ) (refused : Text → Bool)

/-- Go through the groups; every group that is merged takes a name.
Source: `lib.rs` `compact_partition` -/
def compactGroups (files : SegmentFiles D) (lags : Text → Bool) :
    List (Table × List SegmentRef) → List Text → Rewrite D → Option (Rewrite D)
  | [], _, x => some x
  | (t, group) :: groups, names, x =>
      if x.skips lags group then compactGroups files lags groups names (x.pass t group)
      else
        match readGroup files group with
        | none => none
        | some [] => compactGroups files lags groups names (x.pass t group)
        | some (r :: rows) =>
            match names with
            | [] => none
            | path :: names =>
                compactGroups files lags groups names
                  (x.write t group path (concatAndSort (r :: rows)))

/-- **What a pass does**: each group in its turn, and the merged ones take names. -/
theorem compactGroups_spec {files : SegmentFiles D} {lags : Text → Bool}
    {groups : List (Table × List SegmentRef)} {names : List Text} {x y : Rewrite D}
    {os : List (Outcome D)} (hx : x.Traces os)
    (h : compactGroups files lags groups names x = some y) :
    ∃ os', y.Traces (os ++ os') ∧ os'.map (fun o => (o.table, o.group)) = groups ∧
      (∀ o ∈ os', o.Sound files) ∧ ((os'.flatMap Outcome.written).map Prod.fst).Sublist names := by
  induction groups generalizing names x os with
  | nil =>
    obtain rfl := some.inj h
    exact ⟨[], by rwa [append_nil], rfl, fun _ ho => absurd ho not_mem_nil,
      nil_sublist _⟩
  | cons head groups ih =>
    obtain ⟨t, group⟩ := head
    have hpass : compactGroups files lags groups names (x.pass t group) = some y →
        ∃ os', y.Traces (os ++ os') ∧
          os'.map (fun o => (o.table, o.group)) = (t, group) :: groups ∧
          (∀ o ∈ os', o.Sound files) ∧
          ((os'.flatMap Outcome.written).map Prod.fst).Sublist names := by
      intro hy
      obtain ⟨os', htraces, hgroups, hsound, hnames⟩ := ih (hx.pass t group) hy
      refine ⟨.passed t group :: os', by rwa [← append_cons] at htraces, ?_, ?_, hnames⟩
      · rw [map_cons, hgroups]
        rfl
      · intro o ho
        rcases mem_cons.mp ho with rfl | ho
        · trivial
        · exact hsound o ho
    rw [compactGroups] at h
    split at h
    · exact hpass h
    · split at h
      · exact absurd h (by simp)
      · exact hpass h
      · rename_i r rows hread
        split at h
        · exact absurd h (by simp)
        · rename_i path names
          obtain ⟨hall, hrows⟩ := readGroup_eq_some.mp hread
          obtain ⟨os', htraces, hgroups, hsound, hnames⟩ := ih (hx.write t group path _) h
          refine ⟨.merged t group path (concatAndSort (r :: rows)) :: os',
            by rwa [← append_cons] at htraces, ?_, ?_, hnames.cons_cons path⟩
          · rw [map_cons, hgroups]
            rfl
          · intro o ho
            rcases mem_cons.mp ho with rfl | ho
            · exact ⟨hall, by rw [hrows], concatAndSort_ne_nil (cons_ne_nil _ _)⟩
            · exact hsound o ho

namespace Store

def empty : Store D P where
  buffers := fun _ => []
  listed := fun _ => []
  manifest := fun _ => []
  files := fun _ => none
  pending := []
  used := []

/-- The tables with buffered rows. -/
def buffered (s : Store D P) : List Table := Table.all.filter fun t => s.buffers t ≠ []

/-- Source: `lib.rs` `Storage::seal` -/
def sealBuffers (path : Table → Text) (s : Store D P) : Option (Store D P) :=
  let names := s.buffered.map path
  if names.Nodup ∧ ∀ p ∈ names, p ∉ s.used then
    let listed := fun t =>
      if s.buffers t = [] then s.listed t
      else s.listed t ++ [writtenRef t (path t) (concatAndSort (s.buffers t))]
    some
      { s with
        buffers := fun _ => []
        listed := listed
        manifest := listed
        files := fun p =>
          match s.buffered.find? fun t => path t = p with
          | some t => some (concatAndSort (s.buffers t))
          | none => s.files p
        used := s.used ++ names }
  else none

/-- The file system with the files of a pass. -/
def withWritten (written : List (Text × List (TimedRow D))) (files : SegmentFiles D) :
    SegmentFiles D := fun p =>
  match written.find? fun w => w.1 = p with
  | some w => some w.2
  | none => files p

/-- Source: `lib.rs` `Storage::compact_bounded` -/
def compact (maxPartitions : ℕ) (lags : Text → Bool) (names : List Text) (refused : Text → Bool)
    (s : Store D P) : Option (Store D P) :=
  if names.Nodup ∧ ∀ p ∈ names, p ∉ s.used then do
    let x ← compactGroups s.files lags (todo s.listed) names (Rewrite.start maxPartitions)
    let deleted := paths x.deferredDeletes
    let listed := fun t => reconcileSegments (s.listed t) deleted (x.produced t)
    pure
      { s with
        listed := listed
        manifest := listed
        files := unlink deleted refused (withWritten x.written s.files)
        used := s.used ++ names }
  else none

/-- Write a record; one of its name is replaced.
Source: `pending.rs` `write` -/
def putRecord (name : Text) (r : Option (PendingRewrite P)) (dir : PendingDir P) : PendingDir P :=
  (dir.filter fun e => e.1 ≠ name).orderedInsert (fun a b => a.1 ≤ b.1) (name, r)

/-- One of the groups of a day each. -/
def isGroup (segments : List SegmentRef) (group : List SegmentRef) : Bool := group ∈ byDay segments

/-- One job of another process: rewrite a group of the manifest and leave a record of it.
Source: `lib.rs` `prepare_pending`, `rewrite_segment_set` -/
def prepare (digestFile : List (TimedRow D) → ℕ) (t : Table) (group : List SegmentRef)
    (path name : Text) (promote : P) (torn : Bool) (s : Store D P) : Option (Store D P) :=
  if group ∈ byDay (s.manifest t) ∧ path ∉ s.used then
    match readGroup s.files group with
    | none => none
    | some [] => some s
    | some (r :: rows) =>
        let batch := concatAndSort (r :: rows)
        let job : PendingRewrite P :=
          { table := t, inputs := paths group, output := mergedRef path group batch,
            outputDigest := digestFile batch, promote := promote }
        some
          { s with
            files := update s.files path (some batch)
            pending := putRecord name (if torn then none else some job) s.pending
            used := s.used ++ [path] }
  else none

/-- Take a record away. -/
def forget (name : Text) (s : Store D P) : Store D P :=
  { s with pending := s.pending.filter fun e => e.1 ≠ name }

/-- Commit or discard one record.
Source: `lib.rs` `Storage::commit_pending`, the loop body -/
def commitRecord [DecidableEq P] (digestFile : List (TimedRow D) → ℕ) (livePromote : P)
    (refused : Text → Bool) (s : Store D P) : Text × Option (PendingRewrite P) → Store D P
  | (name, none) => s.forget name
  | (name, some rec) =>
      let current := s.listed rec.table
      if rec.admissible digestFile livePromote s.files current then
        let listed := update s.listed rec.table (rec.swap current)
        let removed := current.filter fun seg => seg.relativePath ∈ rec.inputs
        forget name
          { s with listed := listed, manifest := listed, files := unlink (paths removed) refused s.files }
      else if rec.outputCommitted current then s.forget name
      else forget name { s with files := unlink [rec.output.relativePath] refused s.files }

/-- Source: `lib.rs` `Storage::commit_pending` -/
def commitPending [DecidableEq P] (digestFile : List (TimedRow D) → ℕ) (livePromote : P)
    (refused : Text → Bool) (s : Store D P) : Store D P :=
  s.pending.foldl (commitRecord digestFile livePromote refused) s

/-- Source: `lib.rs` `Storage::retain` -/
def retain (policy : RetentionPolicy) (now : ℤ) (size : Text → ℕ) (refused : Text → Bool)
    (s : Store D P) : Store D P :=
  let drop := dropSet policy now size s.listed
  if drop = [] then s
  else
    let listed := fun t => (s.listed t).filter fun seg => seg.relativePath ∉ drop
    { s with listed := listed, manifest := listed, files := unlink drop refused s.files }

/-- One operation. -/
def step [DecidableEq P] (digestFile : List (TimedRow D) → ℕ) (s : Store D P) :
    Op D P → Option (Store D P)
  | .ingest t rows => some { s with buffers := update s.buffers t (s.buffers t ++ rows) }
  | .sealBuffers path => s.sealBuffers path
  | .compact maxPartitions lags names refused => s.compact maxPartitions lags names refused
  | .prepare t group path name promote torn => s.prepare digestFile t group path name promote torn
  | .commitPending livePromote refused => some (s.commitPending digestFile livePromote refused)
  | .retain policy now size refused => some (s.retain policy now size refused)

/-! ## What holds at all times -/

/-- The output of a record is a file of its table. -/
structure RecordOk (s : Store D P) (rec : PendingRewrite P) : Prop where
  used : rec.output.relativePath ∈ s.used
  table : ∀ t, rec.output.relativePath ∈ paths (s.listed t) → t = rec.table
  recorded : ∀ rows, s.files rec.output.relativePath = some rows →
    Recorded rec.table rows rec.output.toBounds

/-- The invariant, with the records of a list. -/
structure Inv (recs : List (PendingRewrite P)) (s : Store D P) : Prop where
  manifest : s.manifest = s.listed
  distinct : Distinct s.listed
  recorded : ∀ t seg, seg ∈ s.listed t →
    ∃ rows, s.files seg.relativePath = some rows ∧ Recorded t rows seg.toBounds
  used : ∀ p, (s.files p).isSome → p ∈ s.used
  records : ∀ rec ∈ recs, s.RecordOk rec
  tables : ∀ rec ∈ recs, ∀ rec' ∈ recs,
    rec.output.relativePath = rec'.output.relativePath → rec.table = rec'.table

/-- The records that can be read. -/
def readable (s : Store D P) : List (PendingRewrite P) := s.pending.filterMap Prod.snd

namespace Inv

variable {recs : List (PendingRewrite P)} {s s' : Store D P}

theorem mem_used (h : s.Inv recs) {t : Table} {p : Text} (hp : p ∈ paths (s.listed t)) :
    p ∈ s.used := by
  obtain ⟨seg, hseg, rfl⟩ := mem_paths.mp hp
  obtain ⟨rows, hrows, -⟩ := h.recorded t seg hseg
  exact h.used _ (by rw [hrows, isSome_some])

theorem mono (h : s.Inv recs) {recs' : List (PendingRewrite P)} (hsub : recs' ⊆ recs) :
    s.Inv recs' where
  manifest := h.manifest
  distinct := h.distinct
  recorded := h.recorded
  used := h.used
  records rec hrec := h.records rec (hsub hrec)
  tables rec hrec rec' hrec' := h.tables rec (hsub hrec) rec' (hsub hrec')

/-- Segments are taken from the lists, and files that are not listed are unlinked. -/
theorem shrink (h : s.Inv recs) (hmanifest : s'.manifest = s'.listed)
    (hlisted : ∀ t, (s'.listed t).Sublist (s.listed t))
    (hkept : ∀ t seg, seg ∈ s'.listed t → s'.files seg.relativePath = s.files seg.relativePath)
    (hfiles : ∀ p rows, s'.files p = some rows → s.files p = some rows)
    (hused : s'.used = s.used) : s'.Inv recs where
  manifest := hmanifest
  distinct := h.distinct.mono hlisted
  recorded t seg hseg := by
    rw [hkept t seg hseg]
    exact h.recorded t seg ((hlisted t).subset hseg)
  used p hp := by
    obtain ⟨rows, hrows⟩ := isSome_iff_exists.mp hp
    rw [hused]
    exact h.used p (by rw [hfiles p rows hrows, isSome_some])
  records rec hrec := by
    obtain ⟨hrused, htable, hrec⟩ := h.records rec hrec
    refine ⟨hused ▸ hrused, fun t ht => htable t (((hlisted t).map _).subset ht), ?_⟩
    exact fun rows hrows => hrec rows (hfiles _ rows hrows)
  tables := h.tables

/-- Files are written under new names, and listed, each in one table. -/
theorem grow (h : s.Inv recs) (hmanifest : s'.manifest = s'.listed)
    (hnodup : ∀ t, (paths (s'.listed t)).Nodup) (owner : Text → Table)
    (hlisted : ∀ t seg, seg ∈ s'.listed t →
      (seg ∈ s.listed t ∧ s'.files seg.relativePath = s.files seg.relativePath) ∨
      (seg.relativePath ∉ s.used ∧ owner seg.relativePath = t ∧
        ∃ rows, s'.files seg.relativePath = some rows ∧ Recorded t rows seg.toBounds))
    (hfiles : ∀ p ∈ s.used, ∀ rows, s'.files p = some rows → s.files p = some rows)
    (hsub : s.used ⊆ s'.used) (hused : ∀ p, (s'.files p).isSome → p ∈ s'.used) : s'.Inv recs where
  manifest := hmanifest
  distinct := by
    refine ⟨hnodup, ?_⟩
    intro t t' seg seg' hseg hseg' heq
    rcases hlisted t seg hseg with ⟨hold, -⟩ | ⟨hnew, howner, -⟩
    · rcases hlisted t' seg' hseg' with ⟨hold', -⟩ | ⟨hnew', -⟩
      · exact h.distinct.tables hold hold' heq
      · exact absurd (heq ▸ h.mem_used (mem_paths_of_mem hold)) hnew'
    · rcases hlisted t' seg' hseg' with ⟨hold', -⟩ | ⟨-, howner', -⟩
      · exact absurd (heq ▸ h.mem_used (mem_paths_of_mem hold')) hnew
      · rw [← howner, ← howner', heq]
  recorded t seg hseg := by
    rcases hlisted t seg hseg with ⟨hold, hsame⟩ | ⟨-, -, hnew⟩
    · rw [hsame]
      exact h.recorded t seg hold
    · exact hnew
  used := hused
  records rec hrec := by
    obtain ⟨hrused, htable, hrec⟩ := h.records rec hrec
    refine ⟨hsub hrused, ?_, fun rows hrows => hrec rows (hfiles _ hrused rows hrows)⟩
    intro t ht
    obtain ⟨seg, hseg, heq⟩ := mem_paths.mp ht
    rcases hlisted t seg hseg with ⟨hold, -⟩ | ⟨hnew, -⟩
    · exact htable t (heq ▸ mem_paths_of_mem hold)
    · exact absurd (heq ▸ hrused) hnew
  tables := h.tables

end Inv

theorem inv_empty : (empty : Store D P).Inv [] where
  manifest := rfl
  distinct := ⟨fun _ => nodup_nil, fun hs => absurd hs not_mem_nil⟩
  recorded _ _ hs := absurd hs not_mem_nil
  used _ hp := absurd hp (by simp [empty])
  records _ hr := absurd hr not_mem_nil
  tables _ hr := absurd hr not_mem_nil

/-! ### Sealing -/

variable {s : Store D P} {recs : List (PendingRewrite P)} {digestFile : List (TimedRow D) → ℕ} {s' : Store D P}

theorem mem_buffered {t : Table} : t ∈ s.buffered ↔ s.buffers t ≠ [] := by
  simp [buffered, Table.mem_all]

theorem inv_sealBuffers (h : s.Inv recs) {path : Table → Text} (hstep : s.sealBuffers path = some s') :
    s'.Inv recs := by
  unfold sealBuffers at hstep
  dsimp only at hstep
  split at hstep
  case isFalse => exact absurd hstep (by simp)
  rename_i hnames
  obtain ⟨hnodup, hfresh⟩ := hnames
  obtain rfl := some.inj hstep
  -- a buffered table is the one that its name was given out for
  have hfind : ∀ t, s.buffers t ≠ [] → (s.buffered.find? fun t' => path t' = path t) = some t := by
    intro t ht
    obtain ⟨t', ht'⟩ : ∃ t', (s.buffered.find? fun t' => path t' = path t) = some t' :=
      isSome_iff_exists.mp (find?_isSome.mpr ⟨t, mem_buffered.mpr ht, by simp⟩)
    have hpath : path t' = path t := by simpa using find?_some ht'
    rw [ht', inj_on_of_nodup_map hnodup (mem_of_find?_eq_some ht') (mem_buffered.mpr ht)
      hpath]
  have hnone : ∀ p ∈ s.used, (s.buffered.find? fun t' => path t' = p) = none := by
    intro p hp
    rw [find?_eq_none]
    intro t ht heq
    exact hfresh (path t) (mem_map_of_mem ht) (by rwa [of_decide_eq_true heq])
  have hnew : ∀ t, s.buffers t ≠ [] → path t ∉ s.used :=
    fun t ht => hfresh _ (mem_map_of_mem (mem_buffered.mpr ht))
  apply h.grow rfl _ fun p => ((s.buffered.find? fun t' => path t' = p)).getD .logs
  · intro t seg hseg
    simp only at hseg
    split at hseg
    · rename_i ht
      refine Or.inl ⟨hseg, ?_⟩
      simp only [hnone _ (h.mem_used (mem_paths_of_mem hseg))]
    · rename_i ht
      rcases mem_append.mp hseg with hseg | hseg
      · refine Or.inl ⟨hseg, ?_⟩
        simp only [hnone _ (h.mem_used (mem_paths_of_mem hseg))]
      · rw [mem_singleton.mp hseg]
        have hpath : (writtenRef t (path t) (concatAndSort (s.buffers t))).relativePath = path t := rfl
        rw [hpath]
        refine Or.inr ⟨hnew t ht, by rw [hfind t ht]; rfl, concatAndSort (s.buffers t), ?_, ?_⟩
        · simp only [hfind t ht]
        · exact .written _ (concatAndSort_ne_nil ht) (timeSorted_concatAndSort _)
  · intro p hp rows hrows
    simpa only [hnone p hp] using hrows
  · exact subset_append_left _ _
  · intro p hp
    simp only at hp
    split at hp
    · rename_i t ht
      have hpath : path t = p := by simpa using find?_some ht
      exact mem_append_right _ (hpath ▸ mem_map_of_mem (mem_of_find?_eq_some ht))
    · exact mem_append_left _ (h.used p hp)
  · intro t
    simp only
    split
    · exact h.distinct.nodup t
    · rename_i ht
      rw [paths_append]
      apply (h.distinct.nodup t).append (nodup_singleton _)
      intro p hp hp'
      rw [mem_singleton.mp hp'] at hp
      exact hnew t ht (h.mem_used hp)

/-! ### Compaction -/

theorem withWritten_of_mem {written : List (Text × List (TimedRow D))}
    (h : (written.map Prod.fst).Nodup) (files : SegmentFiles D) {w : Text × List (TimedRow D)}
    (hw : w ∈ written) : withWritten written files w.1 = some w.2 := by
  obtain ⟨w', hw'⟩ : ∃ w', (written.find? fun w' => w'.1 = w.1) = some w' :=
    isSome_iff_exists.mp (find?_isSome.mpr ⟨w, hw, by simp⟩)
  have hname : w'.1 = w.1 := by simpa using find?_some hw'
  rw [withWritten, hw']
  simp only
  rw [inj_on_of_nodup_map h (mem_of_find?_eq_some hw') hw hname]

theorem withWritten_of_not_mem {written : List (Text × List (TimedRow D))} (files : SegmentFiles D)
    {p : Text} (hp : p ∉ written.map Prod.fst) : withWritten written files p = files p := by
  have hnone : (written.find? fun w => w.1 = p) = none := by
    rw [find?_eq_none]
    intro w hw heq
    exact hp (mem_map.mpr ⟨w, hw, of_decide_eq_true heq⟩)
  rw [withWritten, hnone]

theorem inv_compact (h : s.Inv recs) {maxPartitions : ℕ} {lags : Text → Bool} {names : List Text}
    {refused : Text → Bool} (hstep : s.compact maxPartitions lags names refused = some s') : s'.Inv recs := by
  unfold compact at hstep
  split at hstep
  case isFalse => exact absurd hstep (by simp)
  rename_i hguard
  obtain ⟨hnames, hunused⟩ := hguard
  obtain ⟨x, hx, hstep⟩ := bind_eq_some_iff.mp hstep
  obtain rfl := some.inj hstep
  obtain ⟨os, htraces, hgroups, hsound, hsub⟩ :=
    compactGroups_spec (Rewrite.traces_start maxPartitions) hx
  have hcovered : Covered s.listed os := hgroups
  rw [nil_append] at htraces
  have hwnodup : ((os.flatMap Outcome.written).map Prod.fst).Nodup := hnames.sublist hsub
  have hwfresh : ∀ p ∈ (os.flatMap Outcome.written).map Prod.fst, p ∉ s.used :=
    fun p hp => hunused p (hsub.subset hp)
  have hreconcile := reconcile_eq hcovered h.distinct (fun _ _ hseg => hseg) h.distinct.nodup
    (fun p hp t hmem => hwfresh p hp (h.mem_used hmem)) hwnodup htraces
  have hold : ∀ p ∈ s.used, withWritten x.written s.files p = s.files p := by
    intro p hp
    apply withWritten_of_not_mem
    rw [htraces.written]
    exact fun hmem => hwfresh p hmem hp
  -- a created segment is that of its group, which was merged
  have hcreated : ∀ o ∈ os, ∀ seg ∈ o.created, seg.relativePath ∈ o.written.map Prod.fst ∧
      ∃ rows, (seg.relativePath, rows) ∈ o.written ∧ Recorded o.table rows seg.toBounds := by
    intro o ho seg hseg
    refine ⟨o.paths_created ▸ mem_paths_of_mem hseg, ?_⟩
    cases o with
    | passed t g => exact absurd hseg not_mem_nil
    | merged t g path batch =>
      obtain ⟨-, rfl, hne⟩ := hsound _ ho
      rw [mem_singleton.mp hseg]
      refine ⟨_, mem_singleton_self _, ?_⟩
      apply recorded_merged
      · intro seg hseg
        exact h.recorded t seg (hcovered.mem_of_consumed ho hseg)
      · intro hnil
        rw [hnil] at hne
        exact hne rfl
  apply h.grow rfl _ fun p =>
    ((os.find? fun o => p ∈ o.written.map Prod.fst).map Outcome.table).getD .logs
  · intro t seg hseg
    simp only [hreconcile t] at hseg
    rcases mem_append.mp hseg with hseg | hseg
    · obtain ⟨hseg, hnot⟩ := mem_filter.mp hseg
      refine Or.inl ⟨hseg, ?_⟩
      dsimp only
      rw [unlink_of_not_mem (by simpa using hnot), hold _ (h.mem_used (mem_paths_of_mem hseg))]
    · obtain ⟨o, ho, rfl, hnew⟩ := mem_ofTable.mp hseg
      obtain ⟨hmem, rows, hrows, hrec⟩ := hcreated o ho seg hnew
      have hin : (seg.relativePath, rows) ∈ os.flatMap Outcome.written :=
        mem_flatMap.mpr ⟨o, ho, hrows⟩
      have hfresh : seg.relativePath ∉ s.used := hwfresh _ (mem_map_of_mem hin)
      refine Or.inr ⟨hfresh, ?_, rows, ?_, hrec⟩
      · obtain ⟨o', ho'⟩ : ∃ o', (os.find? fun o => seg.relativePath ∈ o.written.map Prod.fst) =
            some o' := isSome_iff_exists.mp (find?_isSome.mpr ⟨o, ho, by simpa using hmem⟩)
        have hmem' : seg.relativePath ∈ o'.written.map Prod.fst := by
          simpa using find?_some ho'
        rw [ho', eq_of_mem_written hwnodup (mem_of_find?_eq_some ho') ho hmem' hmem]
        rfl
      · have hkept : seg.relativePath ∉ paths x.deferredDeletes := by
          intro hdel
          obtain ⟨seg', hseg', heq⟩ := mem_paths.mp hdel
          rw [htraces.deleted] at hseg'
          obtain ⟨o', ho', hseg'⟩ := mem_flatMap.mp hseg'
          have hlisted := hcovered.mem_of_consumed ho' hseg'
          exact hfresh (heq ▸ h.mem_used (mem_paths_of_mem hlisted))
        dsimp only
        rw [unlink_of_not_mem hkept]
        rw [← htraces.written] at hin hwnodup
        exact withWritten_of_mem hwnodup s.files hin
  · intro p hp rows hrows
    rw [← hold p hp]
    exact eq_some_of_unlink hrows
  · exact subset_append_left _ _
  · intro p hp
    obtain ⟨rows, hrows⟩ := isSome_iff_exists.mp hp
    have hrows := eq_some_of_unlink hrows
    by_cases hmem : p ∈ (os.flatMap Outcome.written).map Prod.fst
    · exact mem_append_right _ (hsub.subset hmem)
    · rw [← htraces.written] at hmem
      rw [withWritten_of_not_mem _ hmem] at hrows
      exact mem_append_left _ (h.used p (by rw [hrows, isSome_some]))
  · intro t
    exact nodup_reconcileSegments (h.distinct.nodup t) _ _

/-! ### Prepared rewrites -/

theorem mem_putRecord {name : Text} {r : Option (PendingRewrite P)} {dir : PendingDir P}
    {e : Text × Option (PendingRewrite P)} (h : e ∈ putRecord name r dir) :
    e = (name, r) ∨ e ∈ dir := by
  rcases (mem_orderedInsert _).mp h with h | h
  · exact Or.inl h
  · exact Or.inr (mem_of_mem_filter h)

theorem inv_prepare (h : s.Inv s.readable) {t : Table} {group : List SegmentRef} {path name : Text} {promote : P}
    {torn : Bool} (hstep : s.prepare digestFile t group path name promote torn = some s') : s'.Inv s'.readable := by
  unfold prepare at hstep
  split at hstep
  case isFalse => exact absurd hstep (by simp)
  rename_i hguard
  obtain ⟨hgroup, hunused⟩ := hguard
  split at hstep
  · exact absurd hstep (by simp)
  · exact some.inj hstep ▸ h
  rename_i r rows hread
  obtain ⟨hall, hrows⟩ := readGroup_eq_some.mp hread
  dsimp only at hstep
  generalize hjob : (⟨t, paths group, mergedRef path group (concatAndSort (r :: rows)),
    digestFile (concatAndSort (r :: rows)), promote⟩ : PendingRewrite P) = job at hstep
  have hpath : job.output.relativePath = path := by rw [← hjob]; rfl
  have hrec : Recorded job.table (concatAndSort (r :: rows)) job.output.toBounds := by
    rw [← hjob, hrows]
    apply recorded_merged
    · intro seg hseg
      apply h.recorded t
      rw [h.manifest] at hgroup
      exact (groupsBy_flatten_perm _ _ _).mem_iff.mp (mem_flatten.mpr ⟨group, hgroup, hseg⟩)
    · rw [← hrows]
      exact cons_ne_nil _ _
  obtain rfl := some.inj hstep
  have hold : ∀ p ∈ s.used, update s.files path (some (concatAndSort (r :: rows))) p =
      s.files p := by
    intro p hp
    apply update_of_ne
    rintro rfl
    exact hunused hp
  have hmem : ∀ rec ∈ readable { s with
      files := update s.files path (some (concatAndSort (r :: rows)))
      pending := putRecord name (if torn then none else some job) s.pending
      used := s.used ++ [path] }, rec = job ∨ rec ∈ s.readable := by
    intro rec hrec
    obtain ⟨e, he, hsome⟩ := mem_filterMap.mp hrec
    rcases mem_putRecord he with rfl | he
    · cases torn with
      | true => exact absurd hsome (by simp)
      | false => exact Or.inl (some.inj hsome).symm
    · exact Or.inr (mem_filterMap.mpr ⟨e, he, hsome⟩)
  have hne : ∀ rec ∈ s.readable, rec.output.relativePath ≠ path :=
    fun rec hrec heq => hunused (heq ▸ (h.records rec hrec).used)
  constructor
  · exact h.manifest
  · exact h.distinct
  · intro t' seg hseg
    dsimp only
    rw [hold _ (h.mem_used (mem_paths_of_mem hseg))]
    exact h.recorded t' seg hseg
  · intro p hp
    by_cases heq : p = path
    · exact mem_append_right _ (mem_singleton.mpr heq)
    · dsimp only at hp
      rw [update_of_ne heq] at hp
      exact mem_append_left _ (h.used p hp)
  · intro rec hmemrec
    rcases hmem rec hmemrec with rfl | hmemrec
    · refine ⟨mem_append_right _ (mem_singleton.mpr hpath), ?_, ?_⟩
      · intro t' ht'
        exact absurd (hpath ▸ h.mem_used ht') hunused
      · intro rows' hrows'
        dsimp only at hrows'
        rw [hpath, update_self] at hrows'
        exact some.inj hrows' ▸ hrec
    · obtain ⟨hused, htable, hrecorded⟩ := h.records rec hmemrec
      refine ⟨mem_append_left _ hused, htable, ?_⟩
      intro rows' hrows'
      dsimp only at hrows'
      rw [hold _ hused] at hrows'
      exact hrecorded rows' hrows'
  · intro rec hmemrec rec' hmemrec' heq
    rcases hmem rec hmemrec with rfl | hold
    · rcases hmem rec' hmemrec' with rfl | hold'
      · rfl
      · exact absurd (heq.symm.trans hpath) (hne rec' hold')
    · rcases hmem rec' hmemrec' with rfl | hold'
      · exact absurd (heq.trans hpath) (hne rec hold)
      · exact h.tables rec hold rec' hold' heq

/-- An admissible record is committed. -/
theorem inv_swap [DecidableEq P] (h : s.Inv recs) {rec : PendingRewrite P} (hrec : rec ∈ recs) {livePromote : P}
    (refused : Text → Bool) (hok : rec.admissible digestFile livePromote s.files (s.listed rec.table) = true) :
    Inv recs
      { s with
        listed := update s.listed rec.table (rec.swap (s.listed rec.table))
        manifest := update s.listed rec.table (rec.swap (s.listed rec.table))
        files := unlink (paths ((s.listed rec.table).filter fun seg =>
          seg.relativePath ∈ rec.inputs)) refused s.files } := by
  obtain ⟨-, hout, rows, hrows, -⟩ := PendingRewrite.of_admissible hok
  obtain ⟨hused, htable, hrecorded⟩ := h.records rec hrec
  have hremoved : ∀ p, p ∈ paths ((s.listed rec.table).filter fun seg =>
      seg.relativePath ∈ rec.inputs) → p ∈ paths (s.listed rec.table) ∧ p ∈ rec.inputs := by
    intro p hp
    obtain ⟨seg, hseg, rfl⟩ := mem_paths.mp hp
    obtain ⟨hseg, hin⟩ := mem_filter.mp hseg
    exact ⟨mem_paths_of_mem hseg, by simpa using hin⟩
  -- what is listed afterwards is the output, or was listed and is no input
  have hmem : ∀ t seg, seg ∈ update s.listed rec.table (rec.swap (s.listed rec.table)) t →
      (seg ∈ s.listed t ∧ (t = rec.table → seg.relativePath ∉ rec.inputs)) ∨
        (seg = rec.output ∧ t = rec.table) := by
    intro t seg hseg
    by_cases ht : t = rec.table
    · rw [ht, update_self] at hseg
      rw [ht]
      rcases mem_append.mp hseg with hseg | hseg
      · obtain ⟨hseg, hnot⟩ := mem_filter.mp hseg
        exact Or.inl ⟨hseg, fun _ => by simpa using hnot⟩
      · exact Or.inr ⟨mem_singleton.mp hseg, rfl⟩
    · rw [update_of_ne ht] at hseg
      exact Or.inl ⟨hseg, fun heq => absurd heq ht⟩
  have hnever : ∀ t, rec.output.relativePath ∉ paths (s.listed t) := by
    intro t ht
    exact hout (htable t ht ▸ ht)
  constructor
  · rfl
  · constructor
    · intro t
      dsimp only
      by_cases ht : t = rec.table
      · rw [ht, update_self]
        exact PendingRewrite.nodup_swap (h.distinct.nodup _) hout
      · rw [update_of_ne ht]
        exact h.distinct.nodup t
    · intro t t' seg seg' hseg hseg' heq
      rcases hmem t seg hseg with ⟨hold, -⟩ | ⟨rfl, rfl⟩
      · rcases hmem t' seg' hseg' with ⟨hold', -⟩ | ⟨rfl, rfl⟩
        · exact h.distinct.tables hold hold' heq
        · exact absurd (heq ▸ mem_paths_of_mem hold) (hnever t)
      · rcases hmem t' seg' hseg' with ⟨hold', -⟩ | ⟨-, rfl⟩
        · exact absurd (heq ▸ mem_paths_of_mem hold') (hnever t')
        · rfl
  · intro t seg hseg
    dsimp only
    rcases hmem t seg hseg with ⟨hold, hnot⟩ | ⟨rfl, rfl⟩
    · rw [unlink_of_not_mem]
      · exact h.recorded t seg hold
      · intro hp
        obtain ⟨hp, hin⟩ := hremoved _ hp
        obtain ⟨seg', hseg', heq⟩ := mem_paths.mp hp
        exact hnot (h.distinct.tables hold hseg' heq.symm) hin
    · rw [unlink_of_not_mem fun hp => hout (hremoved _ hp).1]
      exact ⟨rows, hrows, hrecorded rows hrows⟩
  · intro p hp
    obtain ⟨rows', hrows'⟩ := isSome_iff_exists.mp hp
    exact h.used p (by rw [eq_some_of_unlink hrows', isSome_some])
  · intro rec' hrec'
    obtain ⟨hused', htable', hrecorded'⟩ := h.records rec' hrec'
    refine ⟨hused', ?_, fun rows' hrows' => hrecorded' rows' (eq_some_of_unlink hrows')⟩
    intro t ht
    obtain ⟨seg, hseg, heq⟩ := mem_paths.mp ht
    rcases hmem t seg hseg with ⟨hold, -⟩ | ⟨rfl, rfl⟩
    · exact htable' t (heq ▸ mem_paths_of_mem hold)
    · exact h.tables rec hrec rec' hrec' heq
  · exact h.tables

theorem Inv.forget (h : s.Inv recs) (name : Text) : (s.forget name).Inv recs := by
  refine h.shrink h.manifest (fun _ => Sublist.refl _) ?_ ?_ rfl
  · exact fun _ _ _ => rfl
  · exact fun _ _ hrows => hrows

theorem inv_commitRecord [DecidableEq P] (h : s.Inv recs) (digestFile : List (TimedRow D) → ℕ) (livePromote : P)
    (refused : Text → Bool) (e : Text × Option (PendingRewrite P)) (he : ∀ rec, e.2 = some rec → rec ∈ recs) :
    (s.commitRecord digestFile livePromote refused e).Inv recs := by
  obtain ⟨name, r⟩ := e
  cases r with
  | none => exact h.forget name
  | some rec =>
    have hrec : rec ∈ recs := he rec rfl
    rw [commitRecord]
    dsimp only
    split
    · rename_i hok
      exact (inv_swap h hrec refused hok).forget name
    · split
      · exact h.forget name
      · rename_i hout
        have hnot : rec.output.relativePath ∉ paths (s.listed rec.table) := by
          simpa [PendingRewrite.outputCommitted] using hout
        apply Inv.forget
        refine h.shrink h.manifest (fun _ => Sublist.refl _) ?_ ?_ rfl
        · intro t seg hseg
          refine unlink_of_not_mem fun hp => ?_
          have heq : seg.relativePath = rec.output.relativePath := mem_singleton.mp hp
          have hlisted : rec.output.relativePath ∈ paths (s.listed t) :=
            heq ▸ mem_paths_of_mem hseg
          exact hnot ((h.records rec hrec).table t hlisted ▸ hlisted)
        · intro p rows hrows
          exact eq_some_of_unlink hrows

theorem inv_commitPending [DecidableEq P] (h : s.Inv s.readable) (digestFile : List (TimedRow D) → ℕ)
    (livePromote : P) (refused : Text → Bool) :
    (s.commitPending digestFile livePromote refused).Inv
      (s.commitPending digestFile livePromote refused).readable := by
  have hsub : ∀ (es : List (Text × Option (PendingRewrite P))) (s : Store D P),
      (es.foldl (commitRecord digestFile livePromote refused) s).pending ⊆ s.pending := by
    intro es
    induction es with
    | nil => exact fun s => List.Subset.refl _
    | cons e es ih =>
      intro s
      apply List.Subset.trans (ih _)
      obtain ⟨name, r⟩ := e
      cases r with
      | none => exact fun _ h => mem_of_mem_filter h
      | some rec =>
        rw [commitRecord]
        dsimp only
        split
        · exact fun _ h => mem_of_mem_filter h
        · split <;> exact fun _ h => mem_of_mem_filter h
  have hfold : ∀ (es : List (Text × Option (PendingRewrite P))) (s' : Store D P),
      (∀ e ∈ es, ∀ rec, e.2 = some rec → rec ∈ s.readable) → s'.Inv s.readable →
      (es.foldl (commitRecord digestFile livePromote refused) s').Inv s.readable := by
    intro es
    induction es with
    | nil => exact fun _ _ h' => h'
    | cons e es ih =>
      intro s' hes h'
      exact ih _ (fun e' he' => hes e' (mem_cons_of_mem _ he'))
        (inv_commitRecord h' digestFile livePromote refused e (hes e mem_cons_self))
  apply (hfold s.pending s (fun e he rec hrec => mem_filterMap.mpr ⟨e, he, hrec⟩) h).mono
  intro rec hrec
  obtain ⟨e, he, hsome⟩ := mem_filterMap.mp hrec
  exact mem_filterMap.mpr ⟨e, hsub s.pending s he, hsome⟩

/-! ### Retention -/

theorem retain_listed (policy : RetentionPolicy) (now : ℤ) (size : Text → ℕ)
    (refused : Text → Bool) (s : Store D P) (t : Table) :
    (s.retain policy now size refused).listed t =
      (s.listed t).filter fun seg => seg.relativePath ∉ dropSet policy now size s.listed := by
  unfold retain
  dsimp only
  split
  · rename_i hnil
    rw [hnil]
    simp
  · rfl

theorem retain_files (policy : RetentionPolicy) (now : ℤ) (size : Text → ℕ)
    (refused : Text → Bool) (s : Store D P) :
    (s.retain policy now size refused).files =
      unlink (dropSet policy now size s.listed) refused s.files := by
  unfold retain
  dsimp only
  split
  · rename_i hnil
    funext p
    rw [hnil, unlink_of_not_mem not_mem_nil]
  · rfl

theorem inv_retain (h : s.Inv recs) (policy : RetentionPolicy) (now : ℤ) (size : Text → ℕ) (refused : Text → Bool) :
    (s.retain policy now size refused).Inv recs := by
  apply h.shrink
  · unfold retain
    dsimp only
    split
    · exact h.manifest
    · rfl
  · intro t
    rw [retain_listed]
    exact filter_sublist
  · intro t seg hseg
    rw [retain_listed] at hseg
    rw [retain_files, unlink_of_not_mem (by simpa using (mem_filter.mp hseg).2)]
  · intro p rows hrows
    rw [retain_files] at hrows
    exact eq_some_of_unlink hrows
  · unfold retain
    dsimp only
    split <;> rfl

/-! ### Runs -/

theorem pending_sealBuffers {path : Table → Text} (h : s.sealBuffers path = some s') : s'.pending = s.pending := by
  unfold sealBuffers at h
  dsimp only at h
  split at h
  · obtain rfl := some.inj h
    rfl
  · exact absurd h (by simp)

theorem pending_compact {maxPartitions : ℕ} {lags : Text → Bool} {names : List Text} {refused : Text → Bool}
    (h : s.compact maxPartitions lags names refused = some s') : s'.pending = s.pending := by
  unfold compact at h
  split at h
  · obtain ⟨x, -, h⟩ := bind_eq_some_iff.mp h
    obtain rfl := some.inj h
    rfl
  · exact absurd h (by simp)

theorem pending_retain (policy : RetentionPolicy) (now : ℤ) (size : Text → ℕ)
    (refused : Text → Bool) (s : Store D P) :
    (s.retain policy now size refused).pending = s.pending := by
  unfold retain
  dsimp only
  split <;> rfl

/-- **Every operation keeps the invariant.** -/
theorem inv_step [DecidableEq P] (h : s.Inv s.readable) {op : Op D P} (hstep : s.step digestFile op = some s') :
    s'.Inv s'.readable := by
  cases op with
  | ingest t rows =>
    obtain rfl := some.inj hstep
    exact ⟨h.manifest, h.distinct, h.recorded, h.used,
      fun rec hrec => ⟨(h.records rec hrec).used, (h.records rec hrec).table,
        (h.records rec hrec).recorded⟩, h.tables⟩
  | sealBuffers path =>
    rw [readable, pending_sealBuffers hstep]
    exact inv_sealBuffers h hstep
  | compact maxPartitions lags names refused =>
    rw [readable, pending_compact hstep]
    exact inv_compact h hstep
  | prepare t group path name promote torn => exact inv_prepare h hstep
  | commitPending livePromote refused =>
    obtain rfl := some.inj hstep
    exact inv_commitPending h digestFile livePromote refused
  | retain policy now size refused =>
    obtain rfl := some.inj hstep
    rw [readable, pending_retain]
    exact inv_retain h policy now size refused

/-- **The listed segments have their files, and the bounds of these, at all times.** -/
theorem run_inv [DecidableEq P] {ops : List (Op D P)} (hrun : run (step digestFile) empty ops = some s) :
    s.Inv s.readable :=
  run_invariant (fun s => s.Inv s.readable) (fun _ _ _ h hstep => inv_step h hstep) inv_empty hrun

end Store

end Imbh.Segments
