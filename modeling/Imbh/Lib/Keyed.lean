import Mathlib.Data.List.Dedup
import Mathlib.Data.List.Perm.Basic
import Mathlib.Data.List.Sort
import Mathlib.Tactic.Linarith

/-!
# Lists whose elements have a key
-/

namespace Imbh.Lib

open List

variable {α κ : Type*} {f : α → κ} {l : List α}

/-- Taking elements out leaves the keys distinct. -/
theorem nodup_map_filter (hnodup : (l.map f).Nodup) (p : α → Bool) : ((l.filter p).map f).Nodup :=
  hnodup.sublist (filter_sublist.map f)

variable [DecidableEq κ]

/-- A key that no element has takes nothing out. -/
theorem filter_ne_of_not_mem {k : κ} (h : k ∉ l.map f) : l.filter (f · ≠ k) = l := by
  rw [filter_eq_self]
  intro a ha
  have hne : f a ≠ k := fun hk => h (hk ▸ mem_map_of_mem ha)
  simpa using hne

/-- **A list is an element of it and the elements of the other keys**, when no key repeats. -/
theorem perm_cons_filter_ne (hnodup : (l.map f).Nodup) {a : α} (ha : a ∈ l) : l.Perm (a :: l.filter (f · ≠ f a)) := by
  induction l with
  | nil => cases ha
  | cons b l ih =>
      rw [map_cons, nodup_cons] at hnodup
      rcases mem_cons.mp ha with rfl | ha'
      · rw [filter_cons_of_neg (by simp), filter_ne_of_not_mem hnodup.1]
      · have hne : f b ≠ f a := fun h => hnodup.1 (h ▸ mem_map_of_mem ha')
        rw [filter_cons_of_pos (by simpa using hne)]
        exact ((ih hnodup.2 ha').cons b).trans (Perm.swap _ _ _)

/-- At most one element has a key, when no key repeats. -/
theorem filter_eq_find?_toList (hnodup : (l.map f).Nodup) (k : κ) :
    (l.filter (f · = k)) = (l.find? (f · = k)).toList := by
  induction l with
  | nil => rfl
  | cons a l ih =>
      rw [map_cons, nodup_cons] at hnodup
      by_cases hk : f a = k
      · have hnone : l.filter (f · = k) = [] := by
          apply filter_eq_nil_iff.mpr
          intro b hb hbk
          exact hnodup.1 (hk.trans (of_decide_eq_true hbk).symm ▸ mem_map_of_mem hb)
        rw [filter_cons_of_pos (by simpa using hk), find?_cons_of_pos (by simpa using hk), hnone]
        rfl
      · rw [filter_cons_of_neg (by simpa using hk), find?_cons_of_neg (by simpa using hk), ih hnodup.2]

/-- Lists with the same elements of each key have the same elements. -/
theorem perm_of_filter_perm {l' : List α} (h : ∀ k, (l.filter (f · = k)).Perm (l'.filter (f · = k))) : l.Perm l' := by
  classical
  rw [perm_iff_count]
  intro a
  have hcount := (perm_iff_count.mp (h (f a))) a
  rwa [count_filter (by simp), count_filter (by simp)] at hcount

/-! ## Groups -/

/-- The elements of each key, a group for each key that has one, in the order of the keys. -/
def groupsBy (le : κ → κ → Prop) [DecidableRel le] (f : α → κ) (l : List α) : List (List α) :=
  ((l.map f).dedup.insertionSort le).map fun k => l.filter (f · = k)

/-- A list is what its keys group, in any order of the keys. -/
theorem flatMap_filter_perm {keys : List κ} (hnodup : keys.Nodup) (hkeys : ∀ a ∈ l, f a ∈ keys) :
    (keys.flatMap fun k => l.filter (f · = k)).Perm l := by
  induction keys generalizing l with
  | nil =>
      have hl : l = [] := eq_nil_iff_forall_not_mem.mpr fun a ha => by simpa using hkeys a ha
      rw [hl, flatMap_nil]
  | cons k keys ih =>
      obtain ⟨hk, hnodup⟩ := nodup_cons.mp hnodup
      have hrest : ∀ a ∈ l.filter (f · ≠ k), f a ∈ keys := by
        intro a ha
        obtain ⟨ha, hne⟩ := mem_filter.mp ha
        exact (mem_cons.mp (hkeys a ha)).resolve_left (by simpa using hne)
      have hsame : (keys.flatMap fun k' => l.filter (f · = k')) =
          keys.flatMap fun k' => (l.filter (f · ≠ k)).filter (f · = k') := by
        apply flatMap_congr
        intro k' hk'
        have hne : k' ≠ k := fun h => hk (h ▸ hk')
        rw [filter_filter]
        apply filter_congr
        intro a _
        by_cases ha : f a = k'
        · simp [ha, hne]
        · simp [ha]
      rw [flatMap_cons, hsame]
      have hsplit : (l.filter (f · = k) ++ l.filter (f · ≠ k)).Perm l := by
        simpa only [ne_eq, decide_not] using filter_append_perm (f · = k) l
      exact ((ih hnodup hrest).append_left _).trans hsplit

/-- **The groups are a partition of the list.** -/
theorem groupsBy_flatten_perm (le : κ → κ → Prop) [DecidableRel le] (f : α → κ) (l : List α) :
    (groupsBy le f l).flatten.Perm l := by
  have hperm := perm_insertionSort le (l.map f).dedup
  rw [groupsBy, ← flatMap_def]
  apply flatMap_filter_perm
  · exact hperm.nodup_iff.mpr (nodup_dedup _)
  · intro a ha
    rw [hperm.mem_iff, mem_dedup]
    exact mem_map_of_mem ha

/-- A group has an element. -/
theorem ne_nil_of_mem_groupsBy {le : κ → κ → Prop} [DecidableRel le] {f : α → κ} {g : List α}
    (h : g ∈ groupsBy le f l) : g ≠ [] := by
  obtain ⟨k, hk, rfl⟩ := mem_map.mp h
  rw [mem_insertionSort, mem_dedup] at hk
  obtain ⟨a, ha, rfl⟩ := mem_map.mp hk
  exact ne_nil_of_mem (mem_filter.mpr ⟨ha, by simp⟩)

omit [DecidableEq κ] in
/-- Only one element of a list has something. -/
theorem flatMap_eq_of_only {β : Type*} (hnodup : l.Nodup) {a : α} (ha : a ∈ l) {g : α → List β}
    (honly : ∀ b ∈ l, b ≠ a → g b = []) : l.flatMap g = g a := by
  induction l with
  | nil => exact absurd ha not_mem_nil
  | cons b l ih =>
    obtain ⟨hb, hnodup⟩ := nodup_cons.mp hnodup
    rw [flatMap_cons]
    rcases mem_cons.mp ha with rfl | ha
    · have hrest : l.flatMap g = [] := flatMap_eq_nil_iff.mpr fun b hmem =>
        honly b (mem_cons_of_mem _ hmem) fun heq => hb (heq ▸ hmem)
      rw [hrest, append_nil]
    · rw [honly b mem_cons_self fun heq => hb (heq ▸ ha), nil_append]
      exact ih hnodup ha fun b' hb' => honly b' (mem_cons_of_mem _ hb')

end Imbh.Lib
