import Imbh.Core.Histogram

/-!
# Quantiles of exponential histograms (`histogram.rs`)

Over the rationals with infinities; the boundaries at a scale are a parameter.

* `quantiles_sound` — explicit and exponential quantiles.
-/

namespace Imbh.Core

open Lib List
open ExactNumber (number infinity negInfinity nan)
open Checked (value)

/-- The boundaries at a scale. Source: `exp_histogram_quantile`, `bound` -/
structure ExpBounds where
  bound : ℤ → ℚ
  lt : ∀ i j, i < j → bound i < bound j
  pos : ∀ i, 0 < bound i

theorem ExpBounds.le (edges : ExpBounds) {i j : ℤ} (h : i ≤ j) : edges.bound i ≤ edges.bound j := by
  rcases h.eq_or_lt with rfl | hlt
  · exact le_rfl
  · exact (edges.lt i j hlt).le

/-- The counts with the indices of their buckets. -/
def indexed (offset : ℤ) (counts : List UInt64) : List (ℤ × UInt64) := counts.mapIdx fun i c => (offset + i, c)

/-- A loop over buckets, which ends with the estimate where the rank is reached. The estimate is finite.
Source: `exp_histogram_quantile`, the `for` loops and `interp` -/
def scan (rank : ℚ) (edges : ℤ → ℚ × ℚ) : List (ℤ × UInt64) → ℕ → Except (Checked ExactNumber) ℕ
  | [], cumulative => .ok cumulative
  | (idx, c) :: rest, cumulative =>
      if c = 0 then scan rank edges rest cumulative
      else
        let cumulative := saturatingAddU64 cumulative c.toNat
        if rank ≤ cumulative then
          .error do
            let before ← subU64 cumulative c.toNat
            let (lower, upper) := edges idx
            return number (lower + (upper - lower) * ((rank - before) / c.toNat))
        else scan rank edges rest cumulative

/-- Source: `exp_histogram_quantile`, the zero bucket -/
def scanZero (rank : ℚ) (zeroCount : UInt64) (cumulative : ℕ) : Except (Checked ExactNumber) ℕ :=
  if 0 < zeroCount then
    let cumulative := saturatingAddU64 cumulative zeroCount.toNat
    if rank ≤ cumulative then .error (value (number 0)) else .ok cumulative
  else .ok cumulative

/-- The buckets of a point. Source: `exp_histogram_quantile`, its parameters -/
structure ExpBuckets where
  zeroCount : UInt64
  positiveOffset : ℤ
  positiveCounts : List UInt64
  negativeOffset : ℤ
  negativeCounts : List UInt64

namespace ExpBuckets

/-- Source: `exp_histogram_quantile`, `total` -/
def total (p : ExpBuckets) : ℕ := Core.total p.zeroCount.toNat (p.positiveCounts ++ p.negativeCounts)

/-- Source: `exp_histogram_quantile`, behind the tests -/
def quantileAt (edges : ExpBounds) (p : ExpBuckets) (phi : ℚ) : Checked ExactNumber :=
  if p.total = 0 then value nan
  else
    let rank := phi * p.total
    let walked := scan rank (fun idx => (-edges.bound (idx + 1), -edges.bound idx))
      (indexed p.negativeOffset p.negativeCounts).reverse 0 >>= fun cumulative =>
        scanZero rank p.zeroCount cumulative >>= fun cumulative =>
          scan rank (fun idx => (edges.bound idx, edges.bound (idx + 1)))
            (indexed p.positiveOffset p.positiveCounts) cumulative
    match walked with
    | .error estimate => estimate
    | .ok _ =>
        value (number (if p.positiveCounts = [] then 0 else edges.bound (p.positiveOffset + p.positiveCounts.length)))

end ExpBuckets

/-- Source: `histogram.rs` `exp_histogram_quantile` -/
def expHistogramQuantile (edges : ExpBounds) (phi : ExactNumber) (p : ExpBuckets) : Checked ExactNumber :=
  guardPhi phi (p.quantileAt edges)

/-! ## The loops as one walk -/

/-- A bucket as a slot. -/
def slotOf (edges : ℤ → ℚ × ℚ) (bucket : ℤ × UInt64) : Slot ℚ :=
  ⟨(edges bucket.1).1, (edges bucket.1).2, bucket.2.toNat⟩

/-- A loop over slots. -/
def walk (rank : ℚ) (slots : List (Slot ℚ)) (cumulative : ℕ) : Except (Checked ExactNumber) ℕ :=
  match estimate countMax rank slots cumulative with
  | some q => .error (value (number q))
  | none => .ok (min countMax (cumulative + counted slots))

section

variable {rank : ℚ} {cumulative : ℕ}

/-- The walk skips an empty slot and stops in the one that the rank falls into. -/
theorem walk_cons (s : Slot ℚ) (slots : List (Slot ℚ)) : walk rank (s :: slots) cumulative =
    if s.count = 0 then walk rank slots cumulative
    else if rank ≤ (saturatingAddU64 cumulative s.count : ℕ) then
      .error (value (number (s.interpolate rank (saturatingAddU64 cumulative s.count - s.count))))
    else walk rank slots (saturatingAddU64 cumulative s.count) := by
  have hcons : counted (s :: slots) = s.count + counted slots := by simp [counted]
  by_cases hzero : s.count = 0
  · have hskip : estimate countMax rank (s :: slots) cumulative = estimate countMax rank slots cumulative := by
      rw [estimate, pick, if_pos hzero, estimate]
    rw [if_pos hzero, walk, walk, hskip, hcons, hzero, Nat.zero_add]
  rw [if_neg hzero]
  by_cases hle : rank ≤ (saturatingAddU64 cumulative s.count : ℕ)
  · have hhit : estimate countMax rank (s :: slots) cumulative =
        some (s.interpolate rank (saturatingAddU64 cumulative s.count - s.count)) := by
      rw [estimate, pick, if_neg hzero]
      exact congrArg (Option.map _) (if_pos hle)
    rw [if_pos hle, walk, hhit]
  · have hmiss : estimate countMax rank (s :: slots) cumulative =
        estimate countMax rank slots (saturatingAddU64 cumulative s.count) := by
      rw [estimate, pick, if_neg hzero]
      exact congrArg (Option.map _) (if_neg hle)
    have hshift : min countMax (saturatingAddU64 cumulative s.count + counted slots) =
        min countMax (cumulative + (s.count + counted slots)) := by
      unfold saturatingAddU64
      omega
    rw [if_neg hle, walk, walk, hmiss, hcons, hshift]

/-- A loop over buckets is a walk over slots. -/
theorem scan_eq (edges : ℤ → ℚ × ℚ) (buckets : List (ℤ × UInt64)) (hcum : cumulative ≤ countMax) :
    scan rank edges buckets cumulative = walk rank (buckets.map (slotOf edges)) cumulative := by
  induction buckets generalizing cumulative with
  | nil =>
    show Except.ok cumulative = Except.ok (min countMax (cumulative + 0))
    rw [Nat.add_zero, Nat.min_eq_right hcum]
  | cons bucket buckets ih =>
    obtain ⟨idx, c⟩ := bucket
    rw [map_cons, walk_cons, scan]
    have hzero : (slotOf edges (idx, c)).count = 0 ↔ c = 0 := toNat_eq_zero
    have hsub : c.toNat ≤ saturatingAddU64 cumulative c.toNat := by
      have hle := toNat_le_countMax c
      unfold saturatingAddU64
      omega
    simp only [hzero, ih hcum, ih (saturatingAddU64_le cumulative c.toNat)]
    rw [subU64, if_pos hsub]
    rfl

/-- The zero bucket is the walk over a slot of no width. -/
theorem scanZero_eq (zeroCount : UInt64) (hcum : cumulative ≤ countMax) :
    scanZero rank zeroCount cumulative = walk rank [⟨0, 0, zeroCount.toNat⟩] cumulative := by
  rw [walk_cons, scanZero]
  by_cases hzero : zeroCount = 0
  · subst hzero
    show Except.ok cumulative = Except.ok (min countMax (cumulative + 0))
    rw [Nat.add_zero, Nat.min_eq_right hcum]
  · have hpos : 0 < zeroCount := UInt64.pos_iff_ne_zero.mpr hzero
    rw [if_pos hpos, if_neg fun h => hzero (toNat_eq_zero.mp h)]
    dsimp only
    split
    · simp [Slot.interpolate]
    · show _ = Except.ok (min countMax (saturatingAddU64 cumulative zeroCount.toNat + 0))
      rw [Nat.add_zero, Nat.min_eq_right (saturatingAddU64_le _ _)]

/-- Loops one after another. -/
theorem walk_append (slots slots' : List (Slot ℚ)) (hcum : cumulative ≤ countMax) :
    walk rank (slots ++ slots') cumulative = walk rank slots cumulative >>= walk rank slots' := by
  have hcounted : counted (slots ++ slots') = counted slots + counted slots' := by simp [counted]
  have hshift : min countMax (min countMax (cumulative + counted slots) + counted slots') =
      min countMax (cumulative + (counted slots + counted slots')) := by omega
  unfold walk estimate
  rw [pick_append _ _ hcum, hcounted]
  rcases pick countMax rank slots cumulative with _ | p
  · rw [← hshift]
    rfl
  · rfl

end

/-! ## All buckets -/

theorem map_indexed (offset : ℤ) (counts : List UInt64) : (indexed offset counts).map Prod.snd = counts := by
  apply ext_getElem
  · simp [indexed]
  · intro i hi hi'
    simp [indexed]

theorem pairwise_indexed (offset : ℤ) (counts : List UInt64) : (indexed offset counts).Pairwise fun a b => a.1 < b.1 := by
  rw [pairwise_iff_getElem]
  intro i j hi hj hij
  simpa [indexed] using hij

theorem counted_slotOf (edges : ℤ → ℚ × ℚ) (buckets : List (ℤ × UInt64)) :
    counted (buckets.map (slotOf edges)) = ((buckets.map Prod.snd).map UInt64.toNat).sum := by
  rw [counted, map_map, map_map]
  rfl

namespace ExpBuckets

variable (edges : ExpBounds) (p : ExpBuckets)

/-- The buckets from the most negative one on. -/
def slots : List (Slot ℚ) :=
  (indexed p.negativeOffset p.negativeCounts).reverse.map
      (slotOf fun idx => (-edges.bound (idx + 1), -edges.bound idx)) ++
    ([⟨0, 0, p.zeroCount.toNat⟩] ++
      (indexed p.positiveOffset p.positiveCounts).map (slotOf fun idx => (edges.bound idx, edges.bound (idx + 1))))

theorem total_eq_counted : p.total = min countMax (counted (p.slots edges)) := by
  have happend (l m : List (Slot ℚ)) : counted (l ++ m) = counted l + counted m := by simp [counted]
  unfold total slots
  rw [total_eq (toNat_le_countMax _), happend, happend, counted_slotOf, counted_slotOf, map_reverse, map_indexed,
    map_indexed, map_reverse, sum_reverse, map_append, sum_append]
  simp only [counted, map_cons, map_nil, sum_cons, sum_nil]
  congr 1
  omega

/-- The slots of a point are in order of their bounds. -/
theorem inOrder_slots : InOrder countMax (p.slots edges) := by
  have hnegative {s : Slot ℚ} (hs : s ∈ (indexed p.negativeOffset p.negativeCounts).reverse.map
      (slotOf fun idx => (-edges.bound (idx + 1), -edges.bound idx))) :
      s.lower ≤ s.upper ∧ s.upper ≤ 0 ∧ s.count ≤ countMax := by
    obtain ⟨⟨idx, c⟩, -, rfl⟩ := mem_map.mp hs
    exact ⟨neg_le_neg (edges.le (by omega)), neg_nonpos.mpr (edges.pos idx).le, toNat_le_countMax c⟩
  have hpositive {s : Slot ℚ} (hs : s ∈ (indexed p.positiveOffset p.positiveCounts).map
      (slotOf fun idx => (edges.bound idx, edges.bound (idx + 1)))) :
      s.lower ≤ s.upper ∧ 0 ≤ s.lower ∧ s.count ≤ countMax := by
    obtain ⟨⟨idx, c⟩, -, rfl⟩ := mem_map.mp hs
    exact ⟨edges.le (by omega), (edges.pos idx).le, toNat_le_countMax c⟩
  have hmem {s : Slot ℚ} (hs : s ∈ p.slots edges) : s.lower ≤ s.upper ∧ s.count ≤ countMax := by
    rcases mem_append.mp hs with hs | hs
    · exact ⟨(hnegative hs).1, (hnegative hs).2.2⟩
    rcases mem_append.mp hs with hs | hs
    · obtain rfl := mem_singleton.mp hs
      exact ⟨le_refl _, toNat_le_countMax _⟩
    · exact ⟨(hpositive hs).1, (hpositive hs).2.2⟩
  refine ⟨fun s hs => (hmem hs).1, ?_, fun s hs => (hmem hs).2⟩
  refine pairwise_append.mpr ⟨?_, pairwise_append.mpr ⟨pairwise_singleton _ _, ?_, ?_⟩, ?_⟩
  · -- a bucket of a higher index is a lower one
    rw [pairwise_map, pairwise_reverse]
    refine (pairwise_indexed _ _).imp fun {a b} hlt => ?_
    exact neg_le_neg (edges.le (by omega))
  · rw [pairwise_map]
    refine (pairwise_indexed _ _).imp fun {a b} hlt => ?_
    exact edges.le (by omega)
  · intro s hs t ht
    obtain rfl := mem_singleton.mp hs
    exact (hpositive ht).2.1
  · intro s hs t ht
    rcases mem_append.mp ht with ht | ht
    · obtain rfl := mem_singleton.mp ht
      exact (hnegative hs).2.1
    · exact (hnegative hs).2.1.trans (hpositive ht).2.1

/-- The loops are one walk over all buckets. -/
theorem quantileAt_eq (hcounts : p.total ≠ 0) {phi q : ℚ}
    (h : estimate countMax (phi * p.total) (p.slots edges) 0 = some q) : p.quantileAt edges phi = value (number q) := by
  have hwalked : scan (phi * p.total) (fun idx => (-edges.bound (idx + 1), -edges.bound idx))
      (indexed p.negativeOffset p.negativeCounts).reverse 0 >>= (fun cumulative =>
        scanZero (phi * p.total) p.zeroCount cumulative >>= fun cumulative =>
          scan (phi * p.total) (fun idx => (edges.bound idx, edges.bound (idx + 1)))
            (indexed p.positiveOffset p.positiveCounts) cumulative) = walk (phi * p.total) (p.slots edges) 0 := by
    have hbind {n : ℕ} {slots : List (Slot ℚ)} {f g : ℕ → Except (Checked ExactNumber) ℕ}
        (hfg : ∀ m ≤ countMax, f m = g m) : walk (phi * p.total) slots n >>= f = walk (phi * p.total) slots n >>= g := by
      unfold walk
      split
      · rfl
      · exact hfg _ (min_le_left _ _)
    rw [scan_eq _ _ (Nat.zero_le _), slots, walk_append _ _ (Nat.zero_le _)]
    refine hbind fun n hn => ?_
    rw [scanZero_eq _ hn, walk_append _ _ hn]
    exact hbind fun m hm => scan_eq _ _ hm
  unfold quantileAt
  rw [if_neg hcounts]
  dsimp only
  rw [hwalked, walk, h]

/-- The quantiles of exponential buckets are monotone, and between the edges of a bucket that has a count and contains
the rank. -/
structure Sound : Prop where
  bucket : ∀ phi, 0 ≤ phi → phi ≤ 1 → ∃ q s sum, expHistogramQuantile edges (number phi) p = value (number q) ∧
    Contains countMax (phi * p.total) 0 (p.slots edges) s sum ∧ s.lower ≤ q ∧ q ≤ s.upper
  mono : Monotone fun phi => expHistogramQuantile edges phi p

/-- The quantile of a point with a count lies in the bucket of its rank. -/
theorem sound (hcounts : p.total ≠ 0) : p.Sound edges := by
  have hpos : (0 : ℚ) < p.total := Nat.cast_pos.mpr (Nat.pos_of_ne_zero hcounts)
  have htotal := p.total_eq_counted edges
  have hordered := p.inOrder_slots edges
  have hcounted : counted (p.slots edges) ≠ 0 := fun hzero => hcounts (by rw [htotal, hzero]; rfl)
  have hrank {phi : ℚ} (hzero : 0 ≤ phi) (hone : phi ≤ 1) :
      0 ≤ phi * p.total ∧ phi * p.total ≤ (min countMax (counted (p.slots edges)) : ℕ) := by
    rw [← htotal]
    exact ⟨mul_nonneg hzero hpos.le, mul_le_of_le_one_left hpos.le hone⟩
  refine ⟨fun phi hzero hone => ?_, monotone_guardPhi fun phi phi' hzero hle hone => ?_⟩
  · obtain ⟨s, sum, q, -, hcontains, hq, -, hlower, hupper⟩ :=
      estimate_bounds hordered hcounted (hrank hzero hone).1 (hrank hzero hone).2
    refine ⟨q, s, sum, ?_, hcontains, hlower, hupper⟩
    rw [expHistogramQuantile, guardPhi_number _ hzero hone]
    exact p.quantileAt_eq edges hcounts hq
  · obtain ⟨-, -, q, -, -, hq, -⟩ :=
      estimate_bounds hordered hcounted (hrank hzero (hle.trans hone)).1 (hrank hzero (hle.trans hone)).2
    obtain ⟨-, -, q', -, -, hq', -⟩ :=
      estimate_bounds hordered hcounted (hrank (hzero.trans hle) hone).1 (hrank (hzero.trans hle) hone).2
    refine ⟨_, _, p.quantileAt_eq edges hcounts hq, p.quantileAt_eq edges hcounts hq', ?_⟩
    rw [ExactNumber.le_number, decide_eq_true_eq]
    exact estimate_mono hordered hcounted (hrank hzero (hle.trans hone)).1 (mul_le_mul_of_nonneg_right hle hpos.le)
      (hrank (hzero.trans hle) hone).2 hq hq'

end ExpBuckets

/-- The quantiles of explicit buckets are monotone and in a bucket of their rank exactly if there is at most one bound
or one of the first two buckets has a count; those of exponential buckets always are. -/
theorem quantiles_sound (bounds : List ℚ) (counts : List UInt64) (edges : ExpBounds) (p : ExpBuckets)
    (hbounds : bounds.Pairwise (· < ·)) (hcounts : total 0 counts ≠ 0) (hexp : p.total ≠ 0) :
    (Sound bounds counts ↔ EarlyCount bounds counts) ∧ p.Sound edges :=
  ⟨sound_iff hbounds hcounts, p.sound edges hexp⟩

/-- The boundaries at scale zero. -/
def doubling : ExpBounds where
  bound i := 2 ^ i
  lt _ _ h := zpow_right_strictMono₀ one_lt_two h
  pos i := zpow_pos two_pos i

theorem quantiles_sound_doubling :
    (Sound [1, 2] [1, 0, 3] ↔ EarlyCount [1, 2] [1, 0, 3]) ∧
      (⟨1, 0, [2], 0, [0, 1]⟩ : ExpBuckets).Sound doubling :=
  quantiles_sound [1, 2] [1, 0, 3] doubling ⟨1, 0, [2], 0, [0, 1]⟩ (by norm_num) (by decide) (by decide)

/-- With its only count in the third bucket, the quantile of zero is the bound of the first one. -/
theorem quantile_zero_slips :
    histogramQuantile (number 0) [1, 2, 3] [0, 0, 5, 0] = value (number 1) ∧
      ¬∃ b, InBucket [1, 2, 3] [0, 0, 5, 0] (0 * total 0 [0, 0, 5, 0]) (number 1) b := by
  refine ⟨?_, ?_⟩
  · simp [histogramQuantile, guardPhi, quantileAt, findBucket, total, saturatingAddU64, countMax]
  · rintro ⟨b, ⟨c, hc, hne⟩, -, -, hvalue, -⟩
    have hb : b = 2 := by
      rcases b with _ | _ | _ | _ | b
      · exact absurd (Option.some.inj hc).symm hne
      · exact absurd (Option.some.inj hc).symm hne
      · rfl
      · exact absurd (Option.some.inj hc).symm hne
      · simp at hc
    subst hb
    obtain ⟨q, hq, hlower, -⟩ := hvalue (by simp)
    rw [← ExactNumber.number.inj hq] at hlower
    norm_num [lowerEdge] at hlower

end Imbh.Core
