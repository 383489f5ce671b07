import Mathlib.Algebra.Order.Field.Basic
import Mathlib.Data.List.Pairwise
import Mathlib.Tactic.Linarith

/-!
# Walking counted slots to a rank

Slots stand in a row, each with its edges and a count. The counts are added up, up to a cap, until the sum reaches a
rank; a slot without a count is skipped. Between the edges of the slot where that is, the rank is interpolated.
-/

namespace Imbh.Lib

open Option

/-- Edges and a count. -/
structure Slot (K : Type) where
  lower : K
  upper : K
  count : ℕ

section

variable {K : Type} [Field K] [LinearOrder K]

/-- The value at a rank, of which so many are below the slot. -/
def Slot.interpolate (s : Slot K) (rank : K) (before : ℕ) : K :=
  s.lower + (s.upper - s.lower) * ((rank - before) / s.count)

/-- The slot in which the sum reaches a rank, and the sum with it. -/
def pick (cap : ℕ) (rank : K) : List (Slot K) → ℕ → Option (Slot K × ℕ)
  | [], _ => none
  | s :: ss, before =>
      if s.count = 0 then pick cap rank ss before
      else if rank ≤ (min cap (before + s.count) : ℕ) then some (s, min cap (before + s.count))
      else pick cap rank ss (min cap (before + s.count))

/-- The value at a rank. -/
def estimate (cap : ℕ) (rank : K) (slots : List (Slot K)) (before : ℕ) : Option K :=
  (pick cap rank slots before).map fun p => p.1.interpolate rank (p.2 - p.1.count)

/-- The counts of slots together. -/
def counted (slots : List (Slot K)) : ℕ := (slots.map Slot.count).sum

/-- The edges are in order, and no count is above the cap. -/
structure InOrder (cap : ℕ) (slots : List (Slot K)) : Prop where
  edges : ∀ s ∈ slots, s.lower ≤ s.upper
  apart : slots.Pairwise fun s t => s.upper ≤ t.lower
  counts : ∀ s ∈ slots, s.count ≤ cap

variable {cap before : ℕ} {rank rank' : K} {s : Slot K} {slots : List (Slot K)}

/-- A slot that is found contains the rank: the sum before it, of which the rank is not below, and the sum with it. -/
structure Contains (cap : ℕ) (rank : K) (before : ℕ) (slots : List (Slot K)) (s : Slot K) (sum : ℕ) : Prop where
  split : ∃ front back, slots = front ++ s :: back ∧ sum = min cap (before + counted front + s.count) ∧
    ((min cap (before + counted front) : ℕ) : K) ≤ rank
  count : s.count ≠ 0
  le : rank ≤ (sum : K)

/-- The slot that is picked contains the rank. -/
theorem pick_contains (hbefore : before ≤ cap) (hrank : (before : K) ≤ rank) {sum : ℕ}
    (h : pick cap rank slots before = some (s, sum)) : Contains cap rank before slots s sum := by
  induction slots generalizing before with
  | nil => cases h
  | cons t ts ih =>
    rw [pick] at h
    split at h
    · rename_i hzero
      obtain ⟨⟨front, back, rfl, hsum, hfront⟩, hcount, hle⟩ := ih hbefore hrank h
      refine ⟨⟨t :: front, back, rfl, ?_, ?_⟩, hcount, hle⟩
      · rw [hsum]
        simp [counted, hzero]
      · simpa [counted, hzero] using hfront
    · rename_i hcount
      split at h
      · rename_i hle
        obtain ⟨rfl, rfl⟩ := Prod.mk.inj (some.inj h)
        refine ⟨⟨[], ts, rfl, by simp [counted], ?_⟩, hcount, hle⟩
        simpa [counted, Nat.min_eq_right hbefore] using hrank
      · rename_i hlt
        -- the sum is at the cap, or exact
        obtain ⟨⟨front, back, rfl, hsum, hfront⟩, hcount, hle⟩ := ih (min_le_left _ _) (not_le.mp hlt).le h
        have hshift (n : ℕ) : min cap (min cap (before + t.count) + n) = min cap (before + (t.count + n)) := by omega
        refine ⟨⟨t :: front, back, rfl, ?_, ?_⟩, hcount, hle⟩
        · rw [hsum, Nat.add_assoc, hshift]
          simp [counted, Nat.add_assoc]
        · rw [hshift] at hfront
          simpa [counted] using hfront

/-- A rank that the sum of all slots reaches is found. -/
theorem exists_pick (hbefore : before ≤ cap) (hcounted : counted slots ≠ 0)
    (hrank : rank ≤ (min cap (before + counted slots) : ℕ)) : ∃ s sum, pick cap rank slots before = some (s, sum) := by
  induction slots generalizing before with
  | nil => exact absurd rfl hcounted
  | cons t ts ih =>
    rw [pick]
    have hcons : counted (t :: ts) = t.count + counted ts := by simp [counted]
    rw [hcons] at hrank hcounted
    split
    · rename_i hzero
      rw [hzero, Nat.zero_add] at hrank hcounted
      exact ih hbefore hcounted hrank
    · split
      · exact ⟨t, _, rfl⟩
      · rename_i hlt
        by_cases hrest : counted ts = 0
        · rw [hrest, Nat.add_zero] at hrank
          exact absurd hrank hlt
        · refine ih (min_le_left _ _) hrest ?_
          have hshift : min cap (min cap (before + t.count) + counted ts) = min cap (before + (t.count + counted ts)) := by
            omega
          rwa [hshift]

/-- **The slot at a rank.** -/
theorem pick_spec (hcounted : counted slots ≠ 0) (hrank : 0 ≤ rank) (htotal : rank ≤ (min cap (counted slots) : ℕ)) :
    ∃ s sum, pick cap rank slots 0 = some (s, sum) ∧ Contains cap rank 0 slots s sum := by
  obtain ⟨s, sum, hpick⟩ := @exists_pick K _ _ cap 0 rank slots (Nat.zero_le cap) hcounted (by rwa [Nat.zero_add])
  exact ⟨s, sum, hpick, pick_contains (Nat.zero_le _) (by simpa using hrank) hpick⟩

/-- Nothing is subtracted from less. -/
theorem Contains.count_le {sum : ℕ} (h : Contains cap rank before slots s sum) (hcap : s.count ≤ cap) : s.count ≤ sum := by
  obtain ⟨front, back, -, rfl, -⟩ := h.split
  omega

theorem Contains.mem {sum : ℕ} (h : Contains cap rank before slots s sum) : s ∈ slots := by
  obtain ⟨front, back, rfl, -⟩ := h.split
  exact List.mem_append_right _ List.mem_cons_self

/-- The slots of two rows, one after the other. -/
theorem pick_append (slots slots' : List (Slot K)) (hbefore : before ≤ cap) :
    pick cap rank (slots ++ slots') before =
      (pick cap rank slots before <|> pick cap rank slots' (min cap (before + counted slots))) := by
  induction slots generalizing before with
  | nil => simp [pick, counted, Nat.min_eq_right hbefore]
  | cons t ts ih =>
    have hcons : counted (t :: ts) = t.count + counted ts := by simp [counted]
    have hshift : min cap (min cap (before + t.count) + counted ts) = min cap (before + (t.count + counted ts)) := by
      omega
    rw [List.cons_append, pick, pick, hcons]
    split
    · rename_i hzero
      rw [ih hbefore, hzero, Nat.zero_add]
    split
    · rfl
    · rw [ih (min_le_left _ _), hshift]

/-- A higher rank is in the same slot, with the same sum, or in a later one. -/
theorem pick_le (h : rank ≤ rank') {s' : Slot K} {sum sum' : ℕ} (hs : pick cap rank slots before = some (s, sum))
    (hs' : pick cap rank' slots before = some (s', sum')) :
    s = s' ∧ sum = sum' ∨ ∃ front back, slots = front ++ s :: back ∧ s' ∈ back := by
  induction slots generalizing before with
  | nil => cases hs
  | cons t ts ih =>
    have hmem {t' : Slot K} {ts' : List (Slot K)} {b n : ℕ} {r : K} (hpick : pick cap r ts' b = some (t', n)) :
        t' ∈ ts' := by
      induction ts' generalizing b with
      | nil => cases hpick
      | cons u us ih =>
        rw [pick] at hpick
        split at hpick
        · exact List.mem_cons_of_mem _ (ih hpick)
        split at hpick
        · cases hpick
          exact List.mem_cons_self
        · exact List.mem_cons_of_mem _ (ih hpick)
    have hlater {b : ℕ} (hs : pick cap rank ts b = some (s, sum)) (hs' : pick cap rank' ts b = some (s', sum')) :
        s = s' ∧ sum = sum' ∨ ∃ front back, t :: ts = front ++ s :: back ∧ s' ∈ back := by
      rcases ih hs hs' with heq | ⟨front, back, rfl, hback⟩
      · exact .inl heq
      · exact .inr ⟨t :: front, back, rfl, hback⟩
    rw [pick] at hs hs'
    split at hs
    · rename_i hzero
      rw [if_pos hzero] at hs'
      exact hlater hs hs'
    · rename_i hcount
      rw [if_neg hcount] at hs'
      split at hs
      · obtain ⟨rfl, rfl⟩ := Prod.mk.inj (some.inj hs)
        split at hs'
        · obtain ⟨rfl, rfl⟩ := Prod.mk.inj (some.inj hs')
          exact .inl ⟨rfl, rfl⟩
        · exact .inr ⟨[], ts, rfl, hmem hs'⟩
      · rename_i hlt
        rw [if_neg fun hle => hlt (h.trans hle)] at hs'
        exact hlater hs hs'

/-! ## Estimates -/

variable [IsStrictOrderedRing K]

/-- What is below the slot is not more than the rank, and lacks no more of it than the count of the slot. -/
theorem Contains.below {sum : ℕ} (h : Contains cap rank before slots s sum) (hcap : s.count ≤ cap) :
    ((sum - s.count : ℕ) : K) ≤ rank ∧ rank ≤ ((sum - s.count : ℕ) : K) + s.count := by
  have hle := h.count_le hcap
  obtain ⟨front, back, -, hsum, hfront⟩ := h.split
  constructor
  · have hbelow : sum - s.count ≤ min cap (before + counted front) := by omega
    exact (Nat.cast_le.mpr hbelow).trans hfront
  · rw [← Nat.cast_add, Nat.sub_add_cancel hle]
    exact h.le

/-- Between the edges. -/
theorem Slot.interpolate_bounds (hedges : s.lower ≤ s.upper) (hcount : s.count ≠ 0) (hlow : (before : K) ≤ rank)
    (hhigh : rank ≤ before + s.count) : s.lower ≤ s.interpolate rank before ∧ s.interpolate rank before ≤ s.upper := by
  have hpos : (0 : K) < s.count := Nat.cast_pos.mpr (Nat.pos_of_ne_zero hcount)
  have hzero : 0 ≤ (rank - before) / s.count := div_nonneg (by linarith) hpos.le
  have hone : (rank - before) / s.count ≤ 1 := (div_le_one hpos).mpr (by linarith)
  have hwidth : 0 ≤ s.upper - s.lower := sub_nonneg.mpr hedges
  unfold interpolate
  constructor
  · have hmul := mul_nonneg hwidth hzero
    linarith
  · have hmul := mul_le_mul_of_nonneg_left hone hwidth
    linarith

theorem Slot.interpolate_mono (hedges : s.lower ≤ s.upper) (h : rank ≤ rank') :
    s.interpolate rank before ≤ s.interpolate rank' before := by
  have hdiv : (rank - before) / s.count ≤ (rank' - before) / s.count :=
    div_le_div_of_nonneg_right (by linarith) (Nat.cast_nonneg _)
  have hmul := mul_le_mul_of_nonneg_left hdiv (sub_nonneg.mpr hedges)
  unfold interpolate
  linarith

/-- **The estimate at a rank**, with the slot it is in. -/
theorem estimate_bounds (hslots : InOrder cap slots) (hcounted : counted slots ≠ 0) (hrank : 0 ≤ rank)
    (htotal : rank ≤ (min cap (counted slots) : ℕ)) :
    ∃ s sum v, pick cap rank slots 0 = some (s, sum) ∧ Contains cap rank 0 slots s sum ∧
      estimate cap rank slots 0 = some v ∧ v = s.interpolate rank (sum - s.count) ∧ s.lower ≤ v ∧ v ≤ s.upper := by
  obtain ⟨s, sum, hpick, hcontains⟩ := pick_spec hcounted hrank htotal
  obtain ⟨hlow, hhigh⟩ := hcontains.below (hslots.counts s hcontains.mem)
  obtain ⟨hlower, hupper⟩ :=
    Slot.interpolate_bounds (hslots.edges s hcontains.mem) hcontains.count hlow hhigh
  exact ⟨s, sum, _, hpick, hcontains, by rw [estimate, hpick]; rfl, rfl, hlower, hupper⟩

/-- **The estimate grows with the rank.** -/
theorem estimate_mono (hslots : InOrder cap slots) (hcounted : counted slots ≠ 0) (hrank : 0 ≤ rank)
    (h : rank ≤ rank') (htotal : rank' ≤ (min cap (counted slots) : ℕ)) {v v' : K}
    (hv : estimate cap rank slots 0 = some v) (hv' : estimate cap rank' slots 0 = some v') : v ≤ v' := by
  obtain ⟨s, sum, w, hpick, hcontains, hw, rfl, -, hupper⟩ := estimate_bounds hslots hcounted hrank (h.trans htotal)
  obtain ⟨s', sum', w', hpick', -, hw', rfl, hlower, -⟩ := estimate_bounds hslots hcounted (hrank.trans h) htotal
  obtain rfl := some.inj (hw.symm.trans hv)
  obtain rfl := some.inj (hw'.symm.trans hv')
  rcases pick_le h hpick hpick' with ⟨rfl, rfl⟩ | ⟨front, back, rfl, hback⟩
  · exact Slot.interpolate_mono (hslots.edges s hcontains.mem) h
  · have hordered := (List.pairwise_append.mp hslots.apart).2.1
    exact hupper.trans ((List.rel_of_pairwise_cons hordered hback).trans hlower)

end

end Imbh.Lib
