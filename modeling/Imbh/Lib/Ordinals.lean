import Mathlib.Data.Finset.Card

/-!
# Counting distinct ids by their ordinals

Ids are visited in ascending order, each as often as it likes, and an observer counts the distinct ids of the visits
at which it looks. It keeps no set of them: a visited id has an ordinal, and the observer compares with the ordinal at
which it last looked.
-/

namespace Imbh.Lib

variable {ι : Type*} [LinearOrder ι]

/-- The number of ids that were visited before an id. -/
def ordinalOf (ids : Finset ι) (i : ι) : ℕ := (ids.filter (· < i)).card

theorem ordinalOf_insert {ids : Finset ι} {i m : ι} (h : m ≤ i) : ordinalOf (insert i ids) m = ordinalOf ids m := by
  rw [ordinalOf, ordinalOf, Finset.filter_insert, if_neg (not_lt.mpr h)]

theorem ordinalOf_lt {ids : Finset ι} {i m : ι} (hm : m ∈ ids) (hlt : m < i) : ordinalOf ids m < ordinalOf ids i := by
  apply Finset.card_lt_card
  rw [Finset.ssubset_iff_of_subset]
  · exact ⟨m, by simp [hm, hlt], by simp⟩
  · intro x hx
    rw [Finset.mem_filter] at hx ⊢
    exact ⟨hx.1, hx.2.trans hlt⟩

/-- An id that is above all others comes after them all. -/
theorem ordinalOf_of_forall_lt {ids : Finset ι} {i : ι} (h : ∀ x ∈ ids, x < i) : ordinalOf (insert i ids) i = ids.card := by
  rw [ordinalOf_insert le_rfl, ordinalOf, Finset.filter_true_of_mem h]

/-- What an observer has counted, which looked at some of the visits. -/
structure Marked (ids marks : Finset ι) (count : ℕ) (last : Option ℕ) : Prop where
  subset : marks ⊆ ids
  count_eq : count = marks.card
  last_eq : (marks = ∅ ∧ last = none) ∨ ∃ i ∈ marks, (∀ x ∈ marks, x ≤ i) ∧ last = some (ordinalOf ids i)

namespace Marked

variable {ids marks : Finset ι} {count : ℕ} {last : Option ℕ}

theorem start (ids : Finset ι) : Marked ids ∅ 0 .none := ⟨Finset.empty_subset ids, rfl, .inl ⟨rfl, rfl⟩⟩

/-- A visit leaves what an observer has counted. -/
theorem visit (h : Marked ids marks count last) {i : ι} (hi : ∀ x ∈ ids, x ≤ i) : Marked (insert i ids) marks count last where
  subset := h.subset.trans (Finset.subset_insert i ids)
  count_eq := h.count_eq
  last_eq := h.last_eq.imp_right fun ⟨m, hm, hmax, hlast⟩ =>
    ⟨m, hm, hmax, by rw [hlast, ordinalOf_insert (hi m (h.subset hm))]⟩

/-- The observer looks at the visit of the greatest id. -/
theorem mark (h : Marked ids marks count last) {i : ι} (hmem : i ∈ ids) (hi : ∀ x ∈ ids, x ≤ i) :
    Marked ids (insert i marks) (if last ≠ some (ordinalOf ids i) then count + 1 else count) (some (ordinalOf ids i)) := by
  have hsub : insert i marks ⊆ ids := Finset.insert_subset hmem h.subset
  have hgreatest : ∀ x ∈ insert i marks, x ≤ i := fun x hx => hi x (hsub hx)
  refine ⟨hsub, ?_, .inr ⟨i, Finset.mem_insert_self i marks, hgreatest, rfl⟩⟩
  by_cases hi' : i ∈ marks
  · -- the greatest id was the last that was looked at
    obtain ⟨rfl, -⟩ | ⟨m, hm, hmax, hlast⟩ := h.last_eq
    · exact absurd hi' (Finset.notMem_empty i)
    obtain rfl : m = i := le_antisymm (hi m (h.subset hm)) (hmax i hi')
    rw [if_neg (not_not_intro hlast), Finset.insert_eq_of_mem hi', h.count_eq]
  · have hdiffers : last ≠ some (ordinalOf ids i) := by
      obtain ⟨-, hlast⟩ | ⟨m, hm, -, hlast⟩ := h.last_eq
      · simp [hlast]
      · have hlt : m < i := lt_of_le_of_ne (hi m (h.subset hm)) fun heq => hi' (heq ▸ hm)
        have hbelow := ordinalOf_lt (h.subset hm) hlt
        rw [hlast, ne_eq, Option.some.injEq]
        omega
    rw [if_pos hdiffers, Finset.card_insert_of_notMem hi', h.count_eq]

/-- All visits are looked at: a new id has the next ordinal. -/
theorem openNew (h : Marked ids ids count last) {i : ι} (hi : ∀ x ∈ ids, x < i) :
    Marked (insert i ids) (insert i ids) (count + 1) (some count) := by
  refine ⟨subset_rfl, ?_, .inr ⟨i, Finset.mem_insert_self i ids, ?_, ?_⟩⟩
  · rw [Finset.card_insert_of_notMem fun hmem => lt_irrefl i (hi i hmem), h.count_eq]
  · intro x hx
    rcases Finset.mem_insert.mp hx with rfl | hx
    · exact le_rfl
    · exact (hi x hx).le
  · rw [ordinalOf_of_forall_lt hi, h.count_eq]

/-- Where the greatest id was looked at, its ordinal was kept. -/
theorem last_of_greatest (h : Marked ids marks count last) {i : ι} (hmem : i ∈ marks) (hi : ∀ x ∈ marks, x ≤ i) :
    last = some (ordinalOf ids i) := by
  obtain ⟨rfl, -⟩ | ⟨m, hm, hmax, hlast⟩ := h.last_eq
  · exact absurd hmem (Finset.notMem_empty i)
  · rw [hlast, le_antisymm (hi m hm) (hmax i hmem)]

theorem last_eq_none_iff (h : Marked ids marks count last) : last = .none ↔ marks = ∅ := by
  obtain ⟨hnone, hlast⟩ | ⟨m, hm, -, hlast⟩ := h.last_eq
  · simp [hnone, hlast]
  · simp [hlast, Finset.ne_empty_of_mem hm]

end Marked

end Imbh.Lib
