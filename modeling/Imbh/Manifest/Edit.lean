import Imbh.Lib.Text
import Imbh.Storage.Inner

/-!
# Manifest edits (`manifest.rs`)

The manifest lists the sealed segments of every table, with the watermark. It is kept as a log of
edits: a checkpoint is a reset with everything in it, a delta what changed since the last persist.

The metric lists are a map in the source, from which a table without segments is left out; here a
table without segments has the empty list.
-/

namespace Imbh.ManifestLog

open Lib List Function
open Storage (Table)

/-- One sealed segment, as the manifest lists it.
Source: `imbh-core` `SegmentRef` -/
structure SegmentRef where
  relativePath : Text
  minTimeUnixNano : Int64
  maxTimeUnixNano : Int64
  rows : UInt64
  deriving DecidableEq

/-- The reconstructed state, and the view that is persisted.
Source: `manifest.rs` `Manifest`, `ManifestView` -/
@[ext] structure Manifest where
  segments : Table → List SegmentRef := fun _ => []
  watermark : UInt64 := 0

/-- The paths of a list of segments. -/
def paths (ss : List SegmentRef) : List Text := ss.map (·.relativePath)

/-- One manifest edit.
Source: `manifest.rs` `Edit` -/
structure Edit where
  reset : Bool := false
  watermark : Option UInt64 := none
  added : List (Table × SegmentRef) := []
  removed : List (Table × Text) := []

/-- Source: `manifest.rs` `Edit::is_empty` -/
def Edit.isEmpty (e : Edit) : Bool :=
  !e.reset && e.watermark.isNone && e.added.isEmpty && e.removed.isEmpty

namespace Manifest

/-- The loop over `removed`. -/
def retain (m : Manifest) (r : Table × Text) : Manifest :=
  { m with
    segments := update m.segments r.1
      ((m.segments r.1).filter (·.relativePath ≠ r.2)) }

/-- The loop over `added`. -/
def push (m : Manifest) (a : Table × SegmentRef) : Manifest :=
  { m with
    segments := update m.segments a.1 (m.segments a.1 ++ [a.2]) }

/-- Source: `manifest.rs` `apply_edit` -/
def applyEdit (m : Manifest) (e : Edit) : Manifest :=
  let m := if e.reset then {} else m
  let m :=
    match e.watermark with
    | some w => { m with watermark := w }
    | none => m
  e.added.foldl push (e.removed.foldl retain m)

/-- Source: `manifest.rs` `checkpoint_edit` -/
def checkpointEdit (state : Manifest) : Edit where
  reset := true
  watermark := some state.watermark
  added := Table.all.flatMap fun t => (state.segments t).map (t, ·)

/-- What one table adds to a difference: the paths that are gone, and the segments that are new.
Source: `manifest.rs` `diff_table` -/
def diffTable (t : Table) (old new : List SegmentRef) :
    List (Table × Text) × List (Table × SegmentRef) :=
  ((old.filter (·.relativePath ∉ paths new)).map (t, ·.relativePath),
    (new.filter (·.relativePath ∉ paths old)).map (t, ·))

/-- Source: `manifest.rs` `diff` -/
def diff (old new : Manifest) : Edit where
  watermark := if new.watermark ≠ old.watermark then some new.watermark else none
  removed := Table.all.flatMap fun t => (diffTable t (old.segments t) (new.segments t)).1
  added := Table.all.flatMap fun t => (diffTable t (old.segments t) (new.segments t)).2

/-! ## Applying an edit -/

/-- A removal takes away the segments of its path only. -/
theorem retain_segments (m : Manifest) (r : Table × Text) (t : Table) :
    (m.retain r).segments t =
      (m.segments t).filter (fun s => (t, s.relativePath) ≠ r) := by
  obtain ⟨u, p⟩ := r
  show update m.segments u _ t = _
  by_cases h : t = u
  · subst h
    rw [update_self]
    exact filter_congr fun s _ => by simp
  · rw [update_of_ne h, filter_eq_self.mpr]
    exact fun s _ => by simp [h]

theorem push_segments (m : Manifest) (a : Table × SegmentRef) (t : Table) :
    (m.push a).segments t = m.segments t ++ if a.1 = t then [a.2] else [] := by
  obtain ⟨u, s⟩ := a
  show update m.segments u _ t = _
  by_cases h : u = t
  · subst h
    rw [update_self, if_pos rfl]
  · rw [update_of_ne (Ne.symm h), if_neg h, append_nil]

theorem foldl_retain (rs : List (Table × Text)) (m : Manifest) (t : Table) :
    (rs.foldl retain m).segments t =
      (m.segments t).filter (fun s => (t, s.relativePath) ∉ rs) := by
  induction rs generalizing m with
  | nil => simp
  | cons r rs ih =>
      rw [foldl_cons, ih, retain_segments, filter_filter]
      refine filter_congr fun s _ => ?_
      simp [Bool.and_comm]

theorem foldl_retain_watermark (rs : List (Table × Text)) (m : Manifest) :
    (rs.foldl retain m).watermark = m.watermark := by
  induction rs generalizing m with
  | nil => rfl
  | cons r rs ih => rw [foldl_cons, ih, retain]

theorem foldl_push (as : List (Table × SegmentRef)) (m : Manifest) (t : Table) :
    (as.foldl push m).segments t = m.segments t ++ (as.filter (·.1 = t)).map Prod.snd := by
  induction as generalizing m with
  | nil => simp
  | cons a as ih =>
      rw [foldl_cons, ih, push_segments, append_assoc, filter_cons]
      by_cases h : a.1 = t
      · simp [h]
      · simp [h]

theorem foldl_push_watermark (as : List (Table × SegmentRef)) (m : Manifest) :
    (as.foldl push m).watermark = m.watermark := by
  induction as generalizing m with
  | nil => rfl
  | cons a as ih => rw [foldl_cons, ih, push]

/-- The lists after an edit. -/
theorem applyEdit_segments (m : Manifest) (e : Edit) (t : Table) :
    (m.applyEdit e).segments t =
      (if e.reset then [] else m.segments t).filter (fun s => (t, s.relativePath) ∉ e.removed) ++
        (e.added.filter (·.1 = t)).map Prod.snd := by
  unfold applyEdit
  rw [foldl_push, foldl_retain]
  rcases e.watermark with _ | w <;> cases e.reset <;> rfl

/-- The watermark after an edit. -/
theorem applyEdit_watermark (m : Manifest) (e : Edit) :
    (m.applyEdit e).watermark = e.watermark.getD (if e.reset then 0 else m.watermark) := by
  unfold applyEdit
  rw [foldl_push_watermark, foldl_retain_watermark]
  rcases e.watermark with _ | w <;> cases e.reset <;> rfl

/-! ## Of one table -/

/-- The entries of one table among those of all tables. -/
theorem filter_flatMap_table {α : Type} (f : Table → List α) (t : Table) :
    (Table.all.flatMap fun u => (f u).map (u, ·)).filter (·.1 = t) = (f t).map (t, ·) := by
  have hone : ∀ u, ((f u).map (u, ·)).filter (·.1 = t) = if u = t then (f u).map (u, ·) else [] := by
    intro u
    by_cases h : u = t
    · rw [if_pos h, filter_eq_self]
      intro p hp
      obtain ⟨x, -, rfl⟩ := mem_map.mp hp
      simpa using h
    · rw [if_neg h, filter_eq_nil_iff]
      intro p hp
      obtain ⟨x, -, rfl⟩ := mem_map.mp hp
      simpa using h
  rw [filter_flatMap]
  simp only [hone]
  cases t <;> simp [Table.all]

theorem map_snd_map_pair {α : Type} (t : Table) (xs : List α) :
    ((xs.map (t, ·)).map Prod.snd : List α) = xs := by
  rw [map_map]
  exact map_id xs

/-- **A checkpoint gives the state it was made of.** -/
theorem applyEdit_checkpointEdit (m state : Manifest) :
    m.applyEdit (checkpointEdit state) = state := by
  apply Manifest.ext
  · funext t
    rw [applyEdit_segments]
    simp only [checkpointEdit, if_true, filter_nil, nil_append]
    rw [filter_flatMap_table, map_snd_map_pair]
  · rw [applyEdit_watermark]
    rfl

/-- The paths a difference removes. -/
theorem mem_diff_removed {old new : Manifest} {t : Table} {p : Text} :
    (t, p) ∈ (diff old new).removed ↔
      p ∈ paths (old.segments t) ∧ p ∉ paths (new.segments t) := by
  simp only [diff, diffTable, mem_flatMap, mem_map, mem_filter, paths, Prod.mk.injEq,
    decide_eq_true_eq]
  constructor
  · rintro ⟨u, -, s, ⟨hs, hne⟩, rfl, rfl⟩
    exact ⟨⟨s, hs, rfl⟩, hne⟩
  · rintro ⟨⟨s, hs, rfl⟩, hne⟩
    exact ⟨t, Table.mem_all t, s, ⟨hs, hne⟩, rfl, rfl⟩

/-- The lists after a difference: what is still there, and then what is new. -/
theorem applyEdit_diff_segments (old new : Manifest) (t : Table) :
    (old.applyEdit (diff old new)).segments t =
      (old.segments t).filter (·.relativePath ∈ paths (new.segments t)) ++
        (new.segments t).filter (·.relativePath ∉ paths (old.segments t)) := by
  rw [applyEdit_segments]
  congr 1
  · show (old.segments t).filter _ = _
    refine filter_congr fun s hs => ?_
    have hmem : s.relativePath ∈ paths (old.segments t) := mem_map_of_mem hs
    simp [mem_diff_removed, hmem]
  · have hadded : (diff old new).added = Table.all.flatMap fun u =>
        ((new.segments u).filter (·.relativePath ∉ paths (old.segments u))).map (u, ·) := rfl
    rw [hadded, filter_flatMap_table, map_snd_map_pair]

theorem applyEdit_diff_watermark (old new : Manifest) :
    (old.applyEdit (diff old new)).watermark = new.watermark := by
  rw [applyEdit_watermark]
  simp only [diff]
  split
  · rfl
  · rename_i h
    exact (not_not.mp h).symm

/-! ## When a delta is exact -/

/-- The new state keeps segments of the old one in their order, and has the others behind them. -/
def Retained (old new : Manifest) : Prop :=
  ∀ t, new.segments t = (old.segments t).filter (·.relativePath ∈ paths (new.segments t)) ++
    (new.segments t).filter (·.relativePath ∉ paths (old.segments t))

/-- **A delta is exact** when and only when the new state is a retained one. -/
theorem applyEdit_diff_iff (old new : Manifest) :
    old.applyEdit (diff old new) = new ↔ Retained old new := by
  constructor
  · intro h t
    rw [← applyEdit_diff_segments, h]
  · intro h
    apply Manifest.ext
    · funext t
      rw [applyEdit_diff_segments, ← h t]
    · exact applyEdit_diff_watermark old new

/-- What the callers do to a list is a retained state: they drop segments, and push segments with
new paths. -/
theorem retained_of_append {old new : Manifest} (keep : Table → SegmentRef → Bool)
    (fresh : Table → List SegmentRef) (hnodup : ∀ t, (paths (old.segments t)).Nodup)
    (hfresh : ∀ t, ∀ s ∈ fresh t, s.relativePath ∉ paths (old.segments t))
    (hnew : ∀ t, new.segments t = (old.segments t).filter (keep t) ++ fresh t) :
    Retained old new := by
  intro t
  have hkept : (old.segments t).filter (·.relativePath ∈ paths (new.segments t)) =
      (old.segments t).filter (keep t) := by
    refine filter_congr fun s hs => ?_
    rw [Bool.eq_iff_iff, decide_eq_true_eq, hnew t, paths, map_append, mem_append]
    constructor
    · rintro (h | h)
      · obtain ⟨x, hx, heq⟩ := mem_map.mp h
        obtain ⟨hxm, hxk⟩ := mem_filter.mp hx
        rwa [← inj_on_of_nodup_map (hnodup t) hxm hs heq]
      · obtain ⟨x, hx, heq⟩ := mem_map.mp h
        exact absurd (heq ▸ mem_map_of_mem hs) (hfresh t x hx)
    · exact fun h => .inl (mem_map_of_mem (mem_filter.mpr ⟨hs, h⟩))
  have hadded : (new.segments t).filter (·.relativePath ∉ paths (old.segments t)) = fresh t := by
    rw [hnew t, filter_append, filter_eq_nil_iff.mpr, filter_eq_self.mpr]
    · rfl
    · exact fun s hs => by simpa using hfresh t s hs
    · intro s hs
      have hmem : s.relativePath ∈ paths (old.segments t) :=
        mem_map_of_mem (mem_of_mem_filter hs)
      simpa using hmem
  rw [hkept, hadded]
  exact hnew t

/-- An empty edit changes nothing. -/
theorem applyEdit_of_isEmpty (m : Manifest) {e : Edit} (h : e.isEmpty = true) :
    m.applyEdit e = m := by
  unfold Edit.isEmpty at h
  simp only [Bool.and_eq_true, Bool.not_eq_true', Option.isNone_iff_eq_none,
    List.isEmpty_iff] at h
  obtain ⟨⟨⟨hreset, hwm⟩, hadded⟩, hremoved⟩ := h
  apply Manifest.ext
  · funext t
    rw [applyEdit_segments, hreset, hadded, hremoved]
    simp
  · rw [applyEdit_watermark, hwm, hreset]
    rfl

/-- Nothing to write means nothing to change. -/
theorem eq_of_diff_isEmpty {old new : Manifest} (h : Retained old new)
    (hempty : (diff old new).isEmpty = true) : new = old := by
  rw [← (applyEdit_diff_iff old new).mpr h]
  exact applyEdit_of_isEmpty old hempty

end Manifest

end Imbh.ManifestLog
