import Mathlib.Data.List.Flatten
import Mathlib.Data.List.Pairwise
import Imbh.Segments.Files

/-!
# A compaction pass

`compact_bounded` takes a copy of the lists, goes through the day groups of every table, and leaves
each group as it is or writes it as one file. Then the lists are reconciled with what it produced.
Other operations may have changed them by then.
-/

namespace Imbh.Segments

open Lib List Function
open Storage (Table)

variable {D : Type}

/-- The groups of all tables.
Source: `lib.rs` `Storage::compact_bounded`, `compact_partition` -/
def todo (lists : SegmentLists) : List (Table × List SegmentRef) :=
  Table.all.flatMap fun t => (byDay (lists t)).map fun g => (t, g)

/-- The segments of the groups of a table. -/
def segmentsOf (t : Table) (groups : List (Table × List SegmentRef)) : List SegmentRef :=
  (groups.filter (·.1 = t)).flatMap Prod.snd

/-- The locals of a pass, and the files it wrote.
Source: `lib.rs` `compact_partition` -/
structure Rewrite (D : Type) where
  budget : ℕ
  produced : SegmentLists
  deferredDeletes : List SegmentRef
  written : List (Text × List (TimedRow D))

namespace Rewrite

def start (maxPartitions : ℕ) : Rewrite D where
  budget := maxPartitions
  produced := fun _ => []
  deferredDeletes := []
  written := []

/-- The group is left as it is: out of budget, or a lone segment whose schema does not lag.
Source: `lib.rs` `compact_partition` -/
def skips (lags : Text → Bool) (group : List SegmentRef) (x : Rewrite D) : Bool :=
  x.budget = 0 || (decide (group.length ≤ 1) && group.all fun s => !lags s.relativePath)

/-- Source: `lib.rs` `compact_partition`, `result.extend(group)` -/
def pass (t : Table) (group : List SegmentRef) (x : Rewrite D) : Rewrite D :=
  { x with produced := update x.produced t (x.produced t ++ group) }

/-- Source: `lib.rs` `compact_partition`, from `write_segment_parquet` on -/
def write (t : Table) (group : List SegmentRef) (path : Text) (batch : List (TimedRow D))
    (x : Rewrite D) : Rewrite D where
  budget := x.budget - 1
  produced := update x.produced t (x.produced t ++ [mergedRef path group batch])
  deferredDeletes := x.deferredDeletes ++ group
  written := x.written ++ [(path, batch)]

end Rewrite

/-! ## Outcomes -/

/-- What becomes of a group. -/
inductive Outcome (D : Type)
  | passed (t : Table) (group : List SegmentRef)
  | merged (t : Table) (group : List SegmentRef) (path : Text) (batch : List (TimedRow D))

namespace Outcome

def table : Outcome D → Table
  | passed t _ | merged t _ _ _ => t

def group : Outcome D → List SegmentRef
  | passed _ g | merged _ g _ _ => g

def kept : Outcome D → List SegmentRef
  | passed _ g => g
  | merged _ _ _ _ => []

def consumed : Outcome D → List SegmentRef
  | passed _ _ => []
  | merged _ g _ _ => g

def created : Outcome D → List SegmentRef
  | passed _ _ => []
  | merged _ g path batch => [mergedRef path g batch]

def written : Outcome D → List (Text × List (TimedRow D))
  | passed _ _ => []
  | merged _ _ path batch => [(path, batch)]

/-- A merged group was read from its files, and had rows. -/
def Sound (files : SegmentFiles D) : Outcome D → Prop
  | passed _ _ => True
  | merged _ g _ batch =>
      (∀ s ∈ g, (files s.relativePath).isSome) ∧ batch = concatAndSort (rowsOf files g) ∧ batch ≠ []

theorem group_eq (o : Outcome D) : o.group = o.kept ++ o.consumed := by
  cases o with
  | passed t g => exact (append_nil g).symm
  | merged t g path batch => rfl

theorem paths_created (o : Outcome D) : paths o.created = o.written.map Prod.fst := by
  cases o <;> rfl

end Outcome

/-- What the outcomes of a table have. -/
def ofTable {α : Type} (t : Table) (os : List (Outcome D)) (f : Outcome D → List α) : List α :=
  (os.filter (·.table = t)).flatMap f

variable {os : List (Outcome D)} {o : Outcome D}

theorem mem_ofTable {α : Type} {t : Table} {f : Outcome D → List α} {a : α} :
    a ∈ ofTable t os f ↔ ∃ o ∈ os, o.table = t ∧ a ∈ f o := by
  simp only [ofTable, mem_flatMap, mem_filter, decide_eq_true_eq, and_assoc]

theorem ofTable_append {α : Type} (t : Table) (os : List (Outcome D)) (f g : Outcome D → List α) :
    (ofTable t os f ++ ofTable t os g).Perm (ofTable t os fun o => f o ++ g o) :=
  flatMap_append_perm _ f g

@[simp] theorem ofTable_concat {α : Type} (t : Table) (os : List (Outcome D)) (o : Outcome D)
    (f : Outcome D → List α) :
    ofTable t (os ++ [o]) f = ofTable t os f ++ if o.table = t then f o else [] := by
  unfold ofTable
  rw [filter_append, flatMap_append]
  split
  · rename_i h
    rw [filter_cons_of_pos (by simpa using h)]
    simp
  · rename_i h
    rw [filter_cons_of_neg (by simpa using h)]
    simp

/-- What a pass has so far is what its outcomes amount to. -/
structure Rewrite.Traces (x : Rewrite D) (os : List (Outcome D)) : Prop where
  produced : ∀ t, x.produced t = ofTable t os fun o => o.kept ++ o.created
  deleted : x.deferredDeletes = os.flatMap Outcome.consumed
  written : x.written = os.flatMap Outcome.written

theorem Rewrite.traces_start (maxPartitions : ℕ) : (start maxPartitions : Rewrite D).Traces [] where
  produced _ := rfl
  deleted := rfl
  written := rfl

theorem Rewrite.Traces.pass {x : Rewrite D} (h : x.Traces os) (t : Table) (g : List SegmentRef) :
    (x.pass t g).Traces (os ++ [.passed t g]) where
  produced t' := by
    rw [ofTable_concat, Rewrite.pass, ← h.produced]
    by_cases ht : t = t'
    · subst ht
      simp [Outcome.table, Outcome.kept, Outcome.created]
    · simp [Outcome.table, ht, update_of_ne (Ne.symm ht)]
  deleted := by simp [Rewrite.pass, h.deleted, Outcome.consumed]
  written := by simp [Rewrite.pass, h.written, Outcome.written]

theorem Rewrite.Traces.write {x : Rewrite D} (h : x.Traces os) (t : Table) (g : List SegmentRef) (path : Text)
    (batch : List (TimedRow D)) :
    (x.write t g path batch).Traces (os ++ [.merged t g path batch]) where
  produced t' := by
    rw [ofTable_concat, Rewrite.write, ← h.produced]
    by_cases ht : t = t'
    · subst ht
      simp [Outcome.table, Outcome.kept, Outcome.created]
    · simp [Outcome.table, ht, update_of_ne (Ne.symm ht)]
  deleted := by simp [Rewrite.write, h.deleted, Outcome.consumed]
  written := by simp [Rewrite.write, h.written, Outcome.written]

/-! ## The reconciliation -/

theorem segmentsOf_todo (lists : SegmentLists) (t : Table) :
    (segmentsOf t (todo lists)).Perm (lists t) := by
  have heq : segmentsOf t (todo lists) = (byDay (lists t)).flatten := by
    cases t <;>
      simp [segmentsOf, todo, Table.all, filter_map, Function.comp_def, flatMap_map]
  rw [heq]
  exact groupsBy_flatten_perm _ _ _

/-- The outcomes are those of the groups of the lists `snap`. -/
def Covered (snap : SegmentLists) (os : List (Outcome D)) : Prop :=
  os.map (fun o => (o.table, o.group)) = todo snap

section covered

variable {snap : SegmentLists} {os : List (Outcome D)}

theorem Covered.perm (h : Covered snap os) (t : Table) :
    (ofTable t os Outcome.kept ++ ofTable t os Outcome.consumed).Perm (snap t) := by
  refine (ofTable_append t os _ _).trans ?_
  have heq : (ofTable t os fun o => o.kept ++ o.consumed) = segmentsOf t (todo snap) := by
    rw [← h, segmentsOf, filter_map, flatMap_map]
    exact flatMap_congr fun o _ => (Outcome.group_eq o).symm
  rw [heq]
  exact segmentsOf_todo snap t

theorem Covered.mem_of_kept (h : Covered snap os) (ho : o ∈ os) {s : SegmentRef} (hs : s ∈ o.kept) :
    s ∈ snap o.table :=
  (h.perm o.table).mem_iff.mp
    (mem_append_left _ (mem_ofTable.mpr ⟨o, ho, rfl, hs⟩))

theorem Covered.mem_of_consumed (h : Covered snap os) (ho : o ∈ os) {s : SegmentRef} (hs : s ∈ o.consumed) :
    s ∈ snap o.table :=
  (h.perm o.table).mem_iff.mp
    (mem_append_right _ (mem_ofTable.mpr ⟨o, ho, rfl, hs⟩))

variable (h : Covered snap os) {cur : SegmentLists} (hcur : Distinct cur)
  (hsub : ∀ t s, s ∈ snap t → s ∈ cur t) (hnodup : ∀ t, (paths (snap t)).Nodup)
include h hcur hsub hnodup

/-- A segment of a group that was passed is not among the deleted ones. -/
theorem not_deleted_of_kept (ho : o ∈ os) {s : SegmentRef} (hs : s ∈ o.kept) :
    s.relativePath ∉ paths (os.flatMap Outcome.consumed) := by
  intro hmem
  obtain ⟨s', hs', heq⟩ := mem_paths.mp hmem
  obtain ⟨o', ho', hs'⟩ := mem_flatMap.mp hs'
  have hscur : s ∈ cur o.table := hsub _ _ (h.mem_of_kept ho hs)
  have hs'cur : s' ∈ cur o'.table := hsub _ _ (h.mem_of_consumed ho' hs')
  have htable : o'.table = o.table := hcur.tables hs'cur hscur heq
  obtain rfl : s' = s := by
    rw [htable] at hs'cur
    exact eq_of_path_eq (hcur.nodup _) hs'cur hscur heq
  have hall : (paths (ofTable o.table os Outcome.kept ++
      ofTable o.table os Outcome.consumed)).Nodup :=
    ((h.perm o.table).map _).nodup_iff.mpr (hnodup _)
  rw [paths_append] at hall
  apply (nodup_append'.mp hall).2.2
  · exact mem_paths_of_mem (mem_ofTable.mpr ⟨o, ho, rfl, hs⟩)
  · exact mem_paths_of_mem (mem_ofTable.mpr ⟨o', ho', htable, hs'⟩)

/-- What the list has and the pass deleted is what the pass consumed of the table. -/
theorem filter_deleted_perm (t : Table) :
    ((cur t).filter fun s => s.relativePath ∈ paths (os.flatMap Outcome.consumed)).Perm
      (ofTable t os Outcome.consumed) := by
  have hall : (paths (ofTable t os Outcome.kept ++ ofTable t os Outcome.consumed)).Nodup :=
    ((h.perm t).map _).nodup_iff.mpr (hnodup _)
  rw [paths_append] at hall
  have hleft : ((cur t).filter fun s => s.relativePath ∈ paths (os.flatMap Outcome.consumed)).Nodup :=
    (Nodup.of_map _ (hcur.nodup t)).filter _
  have hright : (ofTable t os Outcome.consumed).Nodup :=
    Nodup.of_map _ (nodup_append'.mp hall).2.1
  rw [perm_ext_iff_of_nodup hleft hright]
  intro s
  simp only [mem_filter, decide_eq_true_eq]
  constructor
  · rintro ⟨hs, hdel⟩
    obtain ⟨s', hs', heq⟩ := mem_paths.mp hdel
    obtain ⟨o, ho, hs'⟩ := mem_flatMap.mp hs'
    have hs'cur : s' ∈ cur o.table := hsub _ _ (h.mem_of_consumed ho hs')
    have htable : o.table = t := hcur.tables hs'cur hs heq
    obtain rfl : s' = s := by
      rw [htable] at hs'cur
      exact eq_of_path_eq (hcur.nodup _) hs'cur hs heq
    exact mem_ofTable.mpr ⟨o, ho, htable, hs'⟩
  · intro hs
    obtain ⟨o, ho, rfl, hso⟩ := mem_ofTable.mp hs
    exact ⟨hsub _ _ (h.mem_of_consumed ho hso),
      mem_paths_of_mem (mem_flatMap.mpr ⟨o, ho, hso⟩)⟩

variable (hfresh : ∀ p ∈ (os.flatMap Outcome.written).map Prod.fst, ∀ t, p ∉ paths (cur t))
include hfresh

omit h hcur hsub hnodup in
/-- A merged segment has a name that is not listed. -/
theorem not_listed_of_created (ho : o ∈ os) {s : SegmentRef} (hs : s ∈ o.created) (t : Table) :
    s.relativePath ∉ paths (cur t) := by
  apply hfresh
  have hmem : s.relativePath ∈ o.written.map Prod.fst := o.paths_created ▸ mem_paths_of_mem hs
  obtain ⟨w, hw, heq⟩ := mem_map.mp hmem
  exact mem_map.mpr ⟨w, mem_flatMap.mpr ⟨o, ho, hw⟩, heq⟩

variable (hnames : ((os.flatMap Outcome.written).map Prod.fst).Nodup)
include hnames

omit hcur in
/-- A pass produces no path twice. -/
theorem nodup_produced (t : Table) :
    (paths (ofTable t os fun o => o.kept ++ o.created)).Nodup := by
  have hcreated : (paths (ofTable t os Outcome.created)).Nodup := by
    have hsame : paths (os.flatMap Outcome.created) = (os.flatMap Outcome.written).map Prod.fst := by
      unfold paths
      rw [map_flatMap, map_flatMap]
      exact flatMap_congr fun o _ => Outcome.paths_created o
    rw [← hsame] at hnames
    exact hnames.sublist ((Sublist.flatMap filter_sublist _).map _)
  have hkept : (paths (ofTable t os Outcome.kept)).Nodup := by
    have hall : (paths (ofTable t os Outcome.kept ++ ofTable t os Outcome.consumed)).Nodup :=
      ((h.perm t).map _).nodup_iff.mpr (hnodup _)
    rw [paths_append] at hall
    exact (nodup_append'.mp hall).1
  have hperm := (ofTable_append t os Outcome.kept Outcome.created).map SegmentRef.relativePath
  apply hperm.nodup_iff.mp
  rw [map_append]
  apply nodup_append'.mpr
  refine ⟨hkept, hcreated, ?_⟩
  intro p hp hp'
  obtain ⟨s, hs, rfl⟩ := mem_paths.mp hp
  obtain ⟨s', hs', heq⟩ := mem_paths.mp hp'
  obtain ⟨o, ho, rfl, hso⟩ := mem_ofTable.mp hs
  obtain ⟨o', ho', -, hs'⟩ := mem_ofTable.mp hs'
  apply not_listed_of_created hfresh ho' hs' o.table
  rw [heq]
  exact mem_paths_of_mem (hsub _ _ (h.mem_of_kept ho hso))

/-- **The reconciliation**, when the lists have every segment of the copy: the merged segments take
the place of those they were merged from. -/
theorem reconcile_eq {x : Rewrite D} (hx : x.Traces os) (t : Table) :
    reconcileSegments (cur t) (paths x.deferredDeletes) (x.produced t) =
      ((cur t).filter fun s => s.relativePath ∉ paths x.deferredDeletes) ++
        ofTable t os Outcome.created := by
  rw [hx.produced, reconcileSegments_eq _ _ (nodup_produced h hsub hnodup hfresh hnames t)]
  congr 1
  unfold ofTable
  rw [filter_flatMap]
  apply flatMap_congr
  intro o ho
  obtain ⟨ho, htable⟩ := mem_filter.mp ho
  have htable : o.table = t := by simpa using htable
  rw [filter_append, filter_eq_nil_iff.mpr, filter_eq_self.mpr, nil_append]
  · intro s hs
    have hnot := not_listed_of_created hfresh ho hs t
    simp only [decide_eq_true_eq]
    exact fun hmem => hnot ((filter_sublist.map _).subset hmem)
  · intro s hs
    have hmem : s ∈ (cur t).filter fun s => s.relativePath ∉ paths x.deferredDeletes := by
      rw [mem_filter, hx.deleted]
      exact ⟨htable ▸ hsub _ _ (h.mem_of_kept ho hs),
        by simpa using not_deleted_of_kept h hcur hsub hnodup ho hs⟩
    simpa using mem_paths_of_mem hmem

end covered

/-- A merged segment of recorded ones is recorded. -/
theorem recorded_merged {files : SegmentFiles D} {t : Table} {g : List SegmentRef}
    (h : ∀ s ∈ g, ∃ rows, files s.relativePath = some rows ∧ Recorded t rows s.toBounds)
    (hne : rowsOf files g ≠ []) :
    Recorded t (concatAndSort (rowsOf files g)) (mergedBounds (g.map (·.toBounds))) := by
  let parts := g.map fun s => ((files s.relativePath).getD [], s.toBounds)
  have hbounds : g.map (·.toBounds) = parts.map Prod.snd := by simp [parts, Function.comp_def]
  have hrows : rowsOf files g = parts.flatMap Prod.fst := by
    rw [rowsOf, flatMap_map]
  rw [hbounds]
  apply Recorded.merged
  · intro hnil
    rw [hrows, hnil] at hne
    exact hne rfl
  · intro part hpart
    obtain ⟨s, hs, rfl⟩ := mem_map.mp hpart
    obtain ⟨rows, hfile, hrec⟩ := h s hs
    rw [hfile]
    exact hrec
  · exact hrows ▸ concatAndSort_perm _
  · exact timeSorted_concatAndSort _

/-- No name being given out twice, a file is written for one group. -/
theorem eq_of_mem_written (h : ((os.flatMap Outcome.written).map Prod.fst).Nodup) {o' : Outcome D} (ho : o ∈ os)
    (ho' : o' ∈ os) {p : Text} (hp : p ∈ o.written.map Prod.fst) (hp' : p ∈ o'.written.map Prod.fst) : o = o' := by
  rw [map_flatMap, nodup_flatMap] at h
  by_contra hne
  have : Std.Symm (Function.onFun List.Disjoint fun o : Outcome D => o.written.map Prod.fst) :=
    ⟨fun _ _ hd => hd.symm⟩
  exact h.2.forall ho ho' hne hp hp'

/-- The rows of the merged segments are those of the segments they were merged from. -/
theorem rowsOf_created {files content : SegmentFiles D} (hsound : ∀ o ∈ os, o.Sound files)
    (hfiles : ∀ p rows, files p = some rows → content p = some rows)
    (hwritten : ∀ w ∈ os.flatMap Outcome.written, content w.1 = some w.2) (t : Table) :
    (rowsOf content (ofTable t os Outcome.created)).Perm
      (rowsOf content (ofTable t os Outcome.consumed)) := by
  unfold rowsOf ofTable
  rw [flatMap_assoc, flatMap_assoc]
  apply Perm.flatMap_left
  intro o ho
  have ho : o ∈ os := mem_of_mem_filter ho
  cases o with
  | passed t g => exact Perm.refl _
  | merged t g path batch =>
    obtain ⟨hall, rfl, -⟩ := hsound _ ho
    have hpath : content path = some (concatAndSort (rowsOf files g)) :=
      hwritten (path, _) (mem_flatMap.mpr ⟨_, ho, mem_singleton_self _⟩)
    have hsame : rowsOf content g = rowsOf files g := by
      apply flatMap_congr
      intro s hs
      obtain ⟨rows, hrows⟩ := Option.isSome_iff_exists.mp (hall s hs)
      rw [hrows, hfiles _ _ hrows]
    calc List.flatMap _ [mergedRef path g (concatAndSort (rowsOf files g))]
        = concatAndSort (rowsOf files g) := by simp [mergedRef, hpath]
      _ |>.Perm (rowsOf files g) := concatAndSort_perm _
      _ = rowsOf content g := hsame.symm

end Imbh.Segments
