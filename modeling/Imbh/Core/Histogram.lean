import Mathlib.Data.List.GetD
import Imbh.Lib.Checked
import Imbh.Lib.ExactNumber
import Imbh.Lib.RankWalk

/-!
# Quantiles of explicit histograms (`histogram.rs`)

Over the rationals with infinities. A subtraction of counts is checked.
-/

namespace Imbh.Core

open Lib List Option
open ExactNumber (number infinity negInfinity nan)
open Checked (value)

/-! ## Counts -/

/-- `u64::MAX` -/
def countMax : ℕ := 2 ^ 64 - 1

/-- `u64::saturating_add` -/
def saturatingAddU64 (a b : ℕ) : ℕ := min countMax (a + b)

/-- `-` of `u64` -/
def subU64 (a b : ℕ) : Checked ℕ := if b ≤ a then value (a - b) else .overflow

/-- The counts added to a start. -/
def total (start : ℕ) (counts : List UInt64) : ℕ := counts.foldl (fun sum c => saturatingAddU64 sum c.toNat) start

/-! ## Explicit buckets -/

/-- The tests of `phi`, and the estimate behind them. -/
def guardPhi (phi : ExactNumber) (estimate : ℚ → Checked ExactNumber) : Checked ExactNumber :=
  match phi with
  | .nan => value nan
  | .negInfinity => value negInfinity
  | .infinity => value infinity
  | .number phi => if phi < 0 then value negInfinity else if 1 < phi then value infinity else estimate phi

/-- The bucket, and the counts up to it.
Source: `histogram_quantile`, the `while` -/
def findBucket (rank : ℚ) : List UInt64 → ℕ → ℕ → ℕ × ℕ
  | [], b, cumulative => (b, cumulative)
  | c :: cs, b, cumulative =>
      let cumulative := saturatingAddU64 cumulative c.toNat
      if rank ≤ cumulative then (b, cumulative) else findBucket rank cs (b + 1) cumulative

/-- Source: `histogram_quantile`, `lower` -/
def lowerEdge (bounds : List ℚ) (b : ℕ) : ℚ := if b = 0 then min (bounds.getD 0 0) 0 else bounds.getD (b - 1) 0

/-- The largest bound, and infinity without bounds. -/
def overflowValue (bounds : List ℚ) : ExactNumber := (bounds.getLast?.map number).getD infinity

/-- Source: `histogram_quantile`, behind the tests -/
def quantileAt (bounds : List ℚ) (counts : List UInt64) (phi : ℚ) : Checked ExactNumber :=
  if total 0 counts = 0 then value nan
  else
    let rank := phi * total 0 counts
    let (b, cumulative) := findBucket rank counts 0 0
    let b := if counts.length ≤ b then counts.length - 1 else b
    if bounds.length ≤ b then value (overflowValue bounds)
    else
      let upper := bounds.getD b 0
      let lower := lowerEdge bounds b
      let inBucket := (counts.getD b 0).toNat
      if inBucket = 0 then value (number upper)
      else do
        let before ← subU64 cumulative inBucket
        return number (lower + (upper - lower) * ((rank - before) / inBucket))

/-- Source: `histogram.rs` `histogram_quantile` -/
def histogramQuantile (phi : ExactNumber) (bounds : List ℚ) (counts : List UInt64) : Checked ExactNumber :=
  guardPhi phi (quantileAt bounds counts)

/-! ## What a quantile should be -/

/-- Bucket `b` has a count and contains the rank; the value is within its bounds, or what an overflow bucket gives. -/
structure InBucket (bounds : List ℚ) (counts : List UInt64) (rank : ℚ) (v : ExactNumber) (b : ℕ) : Prop where
  count : ∃ c, counts[b]? = some c ∧ c ≠ 0
  above : (total 0 (counts.take b) : ℚ) ≤ rank
  below : rank ≤ total 0 (counts.take (b + 1))
  value : b < bounds.length → ∃ q, v = number q ∧ lowerEdge bounds b ≤ q ∧ q ≤ bounds.getD b 0
  overflow : bounds.length ≤ b → v = overflowValue bounds

/-- No subtraction underflows, and a higher `phi` has no lower quantile. -/
def Monotone (quantile : ExactNumber → Checked ExactNumber) : Prop :=
  ∀ phi phi', ExactNumber.le phi phi' = true →
    ∃ v v', quantile phi = value v ∧ quantile phi' = value v' ∧ ExactNumber.le v v' = true

structure Sound (bounds : List ℚ) (counts : List UInt64) : Prop where
  bucket : ∀ phi, 0 ≤ phi → phi ≤ 1 → ∃ v b, histogramQuantile (number phi) bounds counts = value v ∧
    InBucket bounds counts (phi * total 0 counts) v b
  mono : Monotone fun phi => histogramQuantile phi bounds counts

/-! ## Sums -/

theorem saturatingAddU64_le (a b : ℕ) : saturatingAddU64 a b ≤ countMax := min_le_left _ _

theorem total_eq {start : ℕ} (h : start ≤ countMax) (counts : List UInt64) :
    total start counts = min countMax (start + (counts.map UInt64.toNat).sum) := by
  induction counts generalizing start with
  | nil => simp [total, Nat.min_eq_right h]
  | cons c cs ih =>
    have hcons : total start (c :: cs) = total (saturatingAddU64 start c.toNat) cs := rfl
    rw [hcons, ih (saturatingAddU64_le _ _), map_cons, sum_cons]
    unfold saturatingAddU64
    omega

theorem toNat_le_countMax (c : UInt64) : c.toNat ≤ countMax := Nat.le_pred_of_lt c.toNat_lt

theorem toNat_eq_zero {c : UInt64} : c.toNat = 0 ↔ c = 0 := UInt64.toNat_inj (b := 0)

/-! ## The loop over explicit buckets -/

/-- A bucket as a slot; the overflow buckets have no width. -/
def bucketSlot (bounds : List ℚ) (b : ℕ) (c : UInt64) : Slot ℚ :=
  if b < bounds.length then ⟨lowerEdge bounds b, bounds.getD b 0, c.toNat⟩
  else ⟨bounds.getLast?.getD 0, bounds.getLast?.getD 0, c.toNat⟩

/-- The buckets from one on. -/
def slotsFrom (bounds : List ℚ) : ℕ → List UInt64 → List (Slot ℚ)
  | _, [] => []
  | b, c :: cs => bucketSlot bounds b c :: slotsFrom bounds (b + 1) cs

section

variable {bounds : List ℚ} {counts : List UInt64} {rank : ℚ} {b cumulative : ℕ}

theorem bucketSlot_count (bounds : List ℚ) (b : ℕ) (c : UInt64) : (bucketSlot bounds b c).count = c.toNat := by
  unfold bucketSlot
  split <;> rfl

theorem counted_slotsFrom (bounds : List ℚ) (b : ℕ) (counts : List UInt64) :
    counted (slotsFrom bounds b counts) = (counts.map UInt64.toNat).sum := by
  induction counts generalizing b with
  | nil => rfl
  | cons c cs ih =>
    have hrest := ih (b + 1)
    unfold counted at hrest ⊢
    rw [slotsFrom, map_cons, sum_cons, hrest, bucketSlot_count, map_cons, sum_cons]

theorem mem_slotsFrom {s : Slot ℚ} (h : s ∈ slotsFrom bounds b counts) : ∃ b' c, b ≤ b' ∧ s = bucketSlot bounds b' c := by
  induction counts generalizing b with
  | nil => cases h
  | cons c cs ih =>
    rcases mem_cons.mp h with rfl | h
    · exact ⟨b, c, le_refl b, rfl⟩
    · obtain ⟨b', c', hle, rfl⟩ := ih h
      exact ⟨b', c', by omega, rfl⟩

/-- The loop stops at the slot of the walk, if a rank above the counts so far or a first count keeps it from stopping
at an empty bucket. -/
theorem findBucket_spec (hcum : cumulative ≤ countMax) (hstart : (cumulative : ℚ) < rank ∨ counts.head? ≠ some 0)
    (hlow : (cumulative : ℚ) ≤ rank) {s : Slot ℚ} {sum : ℕ}
    (h : pick countMax rank (slotsFrom bounds b counts) cumulative = some (s, sum)) :
    ∃ i c, counts[i]? = some c ∧ c ≠ 0 ∧ s = bucketSlot bounds (b + i) c ∧
      findBucket rank counts b cumulative = (b + i, sum) ∧ (total cumulative (counts.take i) : ℚ) ≤ rank ∧
      sum = total cumulative (counts.take (i + 1)) ∧ rank ≤ (sum : ℚ) := by
  induction counts generalizing b cumulative with
  | nil => cases h
  | cons c cs ih =>
    have hnext (hlt : ¬rank ≤ (saturatingAddU64 cumulative c.toNat : ℕ))
        (h : pick countMax rank (slotsFrom bounds (b + 1) cs) (saturatingAddU64 cumulative c.toNat) = some (s, sum)) :
        ∃ i c', (c :: cs)[i]? = some c' ∧ c' ≠ 0 ∧ s = bucketSlot bounds (b + i) c' ∧
          findBucket rank (c :: cs) b cumulative = (b + i, sum) ∧ (total cumulative ((c :: cs).take i) : ℚ) ≤ rank ∧
          sum = total cumulative ((c :: cs).take (i + 1)) ∧ rank ≤ (sum : ℚ) := by
      have hlt' := not_le.mp hlt
      obtain ⟨i, c', hc', hne, hs, hfind, habove, hsum, hle⟩ := ih (saturatingAddU64_le _ _) (.inl hlt') hlt'.le h
      refine ⟨i + 1, c', hc', hne, ?_, ?_, habove, hsum, hle⟩
      · rw [hs, Nat.add_assoc, Nat.add_comm 1 i]
      · rw [findBucket, if_neg hlt, hfind, Nat.add_assoc, Nat.add_comm 1 i]
    rw [slotsFrom, pick, bucketSlot_count] at h
    split at h
    · rename_i hzero
      -- an empty bucket, which the loop does not stop at
      have hlt : (cumulative : ℚ) < rank := hstart.resolve_right fun hne => hne (by
        rw [head?_cons, toNat_eq_zero.mp hzero])
      have hsame : saturatingAddU64 cumulative c.toNat = cumulative := by
        rw [saturatingAddU64, hzero, Nat.add_zero, Nat.min_eq_right hcum]
      apply hnext
      · rw [hsame]
        exact not_le.mpr hlt
      · rwa [hsame]
    · rename_i hcount
      split at h
      · rename_i hle
        obtain ⟨rfl, rfl⟩ := Prod.mk.inj (some.inj h)
        refine ⟨0, c, rfl, fun hzero => hcount (toNat_eq_zero.mpr hzero), rfl, ?_, hlow, rfl, hle⟩
        rw [findBucket]
        exact if_pos hle
      · rename_i hlt
        exact hnext hlt h

end

/-! ## The edges of the explicit buckets -/

section

variable {bounds : List ℚ} (hbounds : bounds.Pairwise (· < ·))

include hbounds

theorem getD_lt {i j : ℕ} (hij : i < j) (hj : j < bounds.length) : bounds.getD i 0 < bounds.getD j 0 := by
  rw [getD_eq_getElem _ _ (hij.trans hj), getD_eq_getElem _ _ hj]
  exact pairwise_iff_getElem.mp hbounds i j (hij.trans hj) hj hij

theorem getD_le {i j : ℕ} (hij : i ≤ j) (hj : j < bounds.length) : bounds.getD i 0 ≤ bounds.getD j 0 := by
  rcases hij.eq_or_lt with rfl | hlt
  · exact le_refl _
  · exact (getD_lt hbounds hlt hj).le

theorem getD_le_last {i : ℕ} (hi : i < bounds.length) : bounds.getD i 0 ≤ bounds.getLast?.getD 0 := by
  have hlast : bounds.getLast?.getD 0 = bounds.getD (bounds.length - 1) 0 := by
    rw [getLast?_eq_getElem?, getD_eq_getElem?_getD]
  rw [hlast]
  exact getD_le hbounds (by omega) (by omega)

theorem lowerEdge_le {b : ℕ} (hb : b < bounds.length) : lowerEdge bounds b ≤ bounds.getD b 0 := by
  unfold lowerEdge
  split
  · rename_i hzero
    rw [hzero]
    exact min_le_left _ _
  · exact getD_le hbounds (by omega) hb

/-- Buckets are one above the other. -/
theorem bucketSlot_le {b b' : ℕ} (hlt : b < b') (c c' : UInt64) :
    (bucketSlot bounds b c).upper ≤ (bucketSlot bounds b' c').lower := by
  unfold bucketSlot
  split
  · rename_i hb
    split
    · rename_i hb'
      show bounds.getD b 0 ≤ lowerEdge bounds b'
      rw [lowerEdge, if_neg (by omega)]
      exact getD_le hbounds (by omega) (by omega)
    · exact getD_le_last hbounds hb
  · rename_i hb
    rw [if_neg (by omega)]

/-- The slots of explicit buckets are in order. -/
theorem inOrder_slotsFrom (b : ℕ) (counts : List UInt64) : InOrder countMax (slotsFrom bounds b counts) := by
  have hmem {P : Slot ℚ → Prop} (hP : ∀ b c, P (bucketSlot bounds b c)) : ∀ s ∈ slotsFrom bounds b counts, P s := by
    intro s hs
    obtain ⟨b', c, -, rfl⟩ := mem_slotsFrom hs
    exact hP b' c
  refine ⟨hmem fun b c => ?_, ?_, hmem fun b c => ?_⟩
  · unfold bucketSlot
    split
    · rename_i hb
      exact lowerEdge_le hbounds hb
    · exact le_refl _
  · induction counts generalizing b with
    | nil => exact Pairwise.nil
    | cons c cs ih =>
      refine pairwise_cons.mpr ⟨fun s hs => ?_, ih (b + 1) fun hP s hs => ?_⟩
      · obtain ⟨b', c', hle, rfl⟩ := mem_slotsFrom hs
        exact bucketSlot_le hbounds (by omega) c c'
      · obtain ⟨b', c', -, rfl⟩ := mem_slotsFrom hs
        exact hP b' c'
  · rw [bucketSlot_count]
    exact toNat_le_countMax c

end

/-! ## Explicit quantiles -/

theorem guardPhi_number (estimate : ℚ → Checked ExactNumber) {phi : ℚ} (hzero : 0 ≤ phi) (hone : phi ≤ 1) :
    guardPhi (number phi) estimate = estimate phi :=
  (if_neg (not_lt.mpr hzero)).trans (if_neg (not_lt.mpr hone))

/-- Where a `phi` is. -/
theorem guardPhi_cases (estimate : ℚ → Checked ExactNumber) {phi : ExactNumber} {x : WithBot (WithTop ℚ)}
    (h : phi.place = some x) :
    x < ((0 : ℚ) : WithTop ℚ) ∧ guardPhi phi estimate = value negInfinity ∨
      ((1 : ℚ) : WithTop ℚ) < x ∧ guardPhi phi estimate = value infinity ∨
      ∃ p : ℚ, x = (p : WithTop ℚ) ∧ 0 ≤ p ∧ p ≤ 1 ∧ guardPhi phi estimate = estimate p := by
  cases phi with
  | nan => cases h
  | negInfinity =>
    cases h
    exact .inl ⟨WithBot.bot_lt_coe _, rfl⟩
  | infinity =>
    cases h
    exact .inr (.inl ⟨WithBot.coe_lt_coe.mpr (WithTop.coe_lt_top _), rfl⟩)
  | number p =>
    cases h
    unfold guardPhi
    dsimp only
    split
    · rename_i hneg
      exact .inl ⟨WithBot.coe_lt_coe.mpr (WithTop.coe_lt_coe.mpr hneg), rfl⟩
    split
    · rename_i hone
      exact .inr (.inl ⟨WithBot.coe_lt_coe.mpr (WithTop.coe_lt_coe.mpr hone), rfl⟩)
    · rename_i hneg hone
      exact .inr (.inr ⟨p, rfl, not_lt.mp hneg, not_lt.mp hone, rfl⟩)

/-- Quantiles are monotone if their estimates are. -/
theorem monotone_guardPhi {estimate : ℚ → Checked ExactNumber}
    (h : ∀ phi phi', 0 ≤ phi → phi ≤ phi' → phi' ≤ 1 →
      ∃ v v', estimate phi = value v ∧ estimate phi' = value v' ∧ ExactNumber.le v v' = true) :
    Monotone fun phi => guardPhi phi estimate := by
  have hlow {v : ExactNumber} (hv : ∃ y, v.place = some y) : ExactNumber.le negInfinity v = true := by
    obtain ⟨y, hy⟩ := hv
    exact ExactNumber.le_iff_place.mpr ⟨⊥, y, rfl, hy, bot_le⟩
  have hhigh {v : ExactNumber} (hv : ∃ y, v.place = some y) : ExactNumber.le v infinity = true := by
    obtain ⟨y, hy⟩ := hv
    exact ExactNumber.le_iff_place.mpr ⟨y, _, hy, rfl, le_top⟩
  -- a quantile of a number is one
  have hvalue {phi : ExactNumber} {x : WithBot (WithTop ℚ)} (hx : phi.place = some x) :
      ∃ v, guardPhi phi estimate = value v ∧ ∃ y, v.place = some y := by
    rcases guardPhi_cases estimate hx with ⟨-, hv⟩ | ⟨-, hv⟩ | ⟨p, -, hzero, hone, hv⟩
    · exact ⟨_, hv, ⊥, rfl⟩
    · exact ⟨_, hv, _, rfl⟩
    · obtain ⟨v, _, hp, -, hle⟩ := h p p hzero (le_refl p) hone
      obtain ⟨y, -, hy, -⟩ := ExactNumber.le_iff_place.mp hle
      exact ⟨v, hv.trans hp, y, hy⟩
  intro phi phi' hle
  obtain ⟨x, x', hx, hx', hxx⟩ := ExactNumber.le_iff_place.mp hle
  obtain ⟨v', hv', hplace'⟩ := hvalue hx'
  obtain ⟨v, hv, hplace⟩ := hvalue hx
  rcases guardPhi_cases estimate hx with ⟨-, hneg⟩ | ⟨hone, hinf⟩ | ⟨p, rfl, hzero, -, hp⟩
  · exact ⟨_, v', hneg, hv', hlow hplace'⟩
  · rcases guardPhi_cases estimate hx' with ⟨hneg', -⟩ | ⟨-, hinf'⟩ | ⟨p', rfl, -, hone', -⟩
    · have hlt := hone.trans (hxx.trans_lt hneg')
      exact absurd (WithTop.coe_lt_coe.mp (WithBot.coe_lt_coe.mp hlt)) (by norm_num)
    · exact ⟨v, _, hv, hinf', hhigh hplace⟩
    · have hlt := hone.trans_le hxx
      exact absurd (WithTop.coe_lt_coe.mp (WithBot.coe_lt_coe.mp hlt)) (not_lt.mpr hone')
  · rcases guardPhi_cases estimate hx' with ⟨hneg', -⟩ | ⟨-, hinf'⟩ | ⟨p', rfl, -, hone', hp'⟩
    · have hlt := hxx.trans_lt hneg'
      exact absurd (WithTop.coe_lt_coe.mp (WithBot.coe_lt_coe.mp hlt)) (not_lt.mpr hzero)
    · exact ⟨v, _, hv, hinf', hhigh hplace⟩
    · obtain ⟨w, w', hw, hw', hww⟩ := h p p' hzero (WithTop.coe_le_coe.mp (WithBot.coe_le_coe.mp hxx)) hone'
      exact ⟨w, w', hp.trans hw, hp'.trans hw', hww⟩

section

variable {bounds : List ℚ} {counts : List UInt64} {phi : ℚ}

theorem total_pos (hcounts : total 0 counts ≠ 0) : (0 : ℚ) < total 0 counts := Nat.cast_pos.mpr (Nat.pos_of_ne_zero hcounts)

variable (bounds) in
/-- The rank is one of the walk over all buckets. -/
theorem rank_bounds (hcounts : total 0 counts ≠ 0) (hzero : 0 ≤ phi) (hone : phi ≤ 1) :
    0 ≤ phi * total 0 counts ∧ phi * total 0 counts ≤ (min countMax (counted (slotsFrom bounds 0 counts)) : ℕ) ∧
      counted (slotsFrom bounds 0 counts) ≠ 0 := by
  have hpos := total_pos hcounts
  have htotal : total 0 counts = min countMax (counted (slotsFrom bounds 0 counts)) := by
    rw [total_eq (Nat.zero_le _), counted_slotsFrom, Nat.zero_add]
  refine ⟨mul_nonneg hzero hpos.le, ?_, fun hzero => hcounts (by rw [htotal, hzero]; rfl)⟩
  rw [← htotal]
  exact mul_le_of_le_one_left hpos.le hone

/-- The quantile is the estimate of the walk, and in its bucket; a rank of zero with an empty first bucket apart. -/
theorem quantileAt_walk (hbounds : bounds.Pairwise (· < ·)) (hcounts : total 0 counts ≠ 0) (hzero : 0 ≤ phi)
    (hone : phi ≤ 1) (hstart : 0 < phi ∨ counts.head? ≠ some 0) :
    ∃ q b, estimate countMax (phi * total 0 counts) (slotsFrom bounds 0 counts) 0 = some q ∧
      quantileAt bounds counts phi = value (if bounds = [] then infinity else number q) ∧
      InBucket bounds counts (phi * total 0 counts) (if bounds = [] then infinity else number q) b := by
  obtain ⟨hrank, hle, hcounted⟩ := rank_bounds bounds hcounts hzero hone
  have hordered := inOrder_slotsFrom hbounds 0 counts
  obtain ⟨s, sum, q, hpick, hcontains, hestimate, hq, hlower, hupper⟩ := estimate_bounds hordered hcounted hrank hle
  have hstart' : ((0 : ℕ) : ℚ) < phi * total 0 counts ∨ counts.head? ≠ some 0 :=
    hstart.imp_left fun h => by simpa using mul_pos h (total_pos hcounts)
  obtain ⟨i, c, hc, hne, hs, hfind, habove, hsum, hbelow⟩ :=
    findBucket_spec (Nat.zero_le _) hstart' (by simpa using hrank) hpick
  rw [Nat.zero_add] at hs hfind
  obtain ⟨hi, hci⟩ := List.getElem?_eq_some_iff.mp hc
  have hcount : c.toNat ≤ sum := by
    have hle := hcontains.count_le (hordered.counts s hcontains.mem)
    rwa [hs, bucketSlot_count] at hle
  -- a bucket beyond the bounds has the last one as both edges
  have hover (h : bounds.length ≤ i) : (if bounds = [] then infinity else number q) = overflowValue bounds := by
    rw [hs, bucketSlot, if_neg (not_lt.mpr h)] at hlower hupper
    have hlast : q = bounds.getLast?.getD 0 := le_antisymm hupper hlower
    unfold overflowValue
    rcases hl : bounds.getLast? with _ | last
    · rw [if_pos (List.getLast?_eq_none_iff.mp hl)]
      rfl
    · have hne : bounds ≠ [] := by
        rintro rfl
        cases hl
      rw [if_neg hne, hlast, hl]
      rfl
  have hwithin (h : i < bounds.length) : s = ⟨lowerEdge bounds i, bounds.getD i 0, c.toNat⟩ ∧ bounds ≠ [] := by
    refine ⟨by rw [hs, bucketSlot, if_pos h], ?_⟩
    rintro rfl
    exact absurd h (Nat.not_lt_zero i)
  refine ⟨q, i, hestimate, ?_, ⟨⟨c, hc, hne⟩, habove, hsum ▸ hbelow, fun h => ?_, hover⟩⟩
  · unfold quantileAt
    rw [if_neg hcounts]
    dsimp only
    rw [hfind]
    dsimp only
    rw [if_neg (not_le.mpr hi)]
    split
    · rename_i h
      rw [hover h]
    · rename_i h
      obtain ⟨hslot, hbne⟩ := hwithin (not_le.mp h)
      rw [List.getD_eq_getElem _ _ hi, hci, if_neg fun hzero => hne (toNat_eq_zero.mp hzero), if_neg hbne, subU64,
        if_pos hcount, hq, hslot]
      rfl
  · obtain ⟨hslot, hbne⟩ := hwithin h
    rw [hslot] at hlower hupper
    exact ⟨q, if_neg hbne, hlower, hupper⟩

/-- A rank of zero stops at the first bucket. -/
theorem quantileAt_zero (hcounts : total 0 counts ≠ 0) (hhead : counts.head? = some 0) :
    quantileAt bounds counts 0 = value (if bounds = [] then infinity else number (bounds.getD 0 0)) := by
  obtain ⟨cs, rfl⟩ : ∃ cs, counts = 0 :: cs := by
    rcases counts with _ | ⟨c, cs⟩
    · cases hhead
    · exact ⟨cs, by rw [some.inj hhead]⟩
  have hfind : findBucket (0 * (total 0 (0 :: cs) : ℚ)) (0 :: cs) 0 0 = (0, 0) := by
    rw [findBucket, if_pos (by rw [zero_mul]; exact Nat.cast_nonneg _)]
    rfl
  unfold quantileAt
  rw [if_neg hcounts]
  dsimp only
  rw [hfind]
  dsimp only
  have hlen : ¬(0 :: cs).length ≤ 0 := by simp
  rw [if_neg hlen]
  rcases bounds with _ | ⟨x, xs⟩
  · rfl
  · rfl

theorem le_orInfinity {q q' : ℚ} (h : bounds ≠ [] → q ≤ q') :
    ExactNumber.le (if bounds = [] then infinity else number q) (if bounds = [] then infinity else number q') = true := by
  split
  · decide
  · rename_i hne
    simpa using h hne

theorem overflowValue_eq (h : bounds ≠ []) : overflowValue bounds = number (bounds.getLast?.getD 0) := by
  unfold overflowValue
  rcases hl : bounds.getLast? with _ | last
  · exact absurd (getLast?_eq_none_iff.mp hl) h
  · rfl

/-- The estimates of a histogram are monotone. -/
theorem monotone_histogramQuantile (hbounds : bounds.Pairwise (· < ·)) (hcounts : total 0 counts ≠ 0) :
    Monotone fun phi => histogramQuantile phi bounds counts := by
  refine monotone_guardPhi fun phi phi' hzero hle hone => ?_
  by_cases hstart : 0 < phi ∨ counts.head? ≠ some 0
  · obtain ⟨q, -, hq, hv, -⟩ := quantileAt_walk hbounds hcounts hzero (hle.trans hone) hstart
    obtain ⟨q', -, hq', hv', -⟩ :=
      quantileAt_walk hbounds hcounts (hzero.trans hle) hone (hstart.imp_left fun h => h.trans_le hle)
    obtain ⟨hrank, -, hcounted⟩ := rank_bounds bounds hcounts hzero (hle.trans hone)
    obtain ⟨-, hle', -⟩ := rank_bounds bounds hcounts (hzero.trans hle) hone
    refine ⟨_, _, hv, hv', le_orInfinity fun _ => ?_⟩
    exact estimate_mono (inOrder_slotsFrom hbounds 0 counts) hcounted hrank
      (mul_le_mul_of_nonneg_right hle (total_pos hcounts).le) hle' hq hq'
  · -- from a rank of zero with an empty first bucket
    obtain ⟨hphi, hhead⟩ := not_or.mp hstart
    obtain rfl : phi = 0 := le_antisymm (not_lt.mp hphi) hzero
    have hhead := not_not.mp hhead
    rcases hle.eq_or_lt with rfl | hpos
    · exact ⟨_, _, quantileAt_zero hcounts hhead, quantileAt_zero hcounts hhead, le_orInfinity fun _ => le_refl _⟩
    · obtain ⟨q', b, -, hv', hin⟩ := quantileAt_walk hbounds hcounts hle hone (.inl hpos)
      refine ⟨_, _, quantileAt_zero hcounts hhead, hv', le_orInfinity fun hne => ?_⟩
      obtain ⟨c, hc, hcne⟩ := hin.count
      have hb : b ≠ 0 := by
        rintro rfl
        rw [← head?_eq_getElem?, hhead] at hc
        exact hcne (some.inj hc).symm
      have hlen := length_pos_iff.mpr hne
      by_cases hwithin : b < bounds.length
      · obtain ⟨q, hq, hlower, -⟩ := hin.value hwithin
        rw [if_neg hne] at hq
        rw [lowerEdge, if_neg hb] at hlower
        rw [ExactNumber.number.inj hq]
        exact (getD_le hbounds (Nat.zero_le _) (by omega)).trans hlower
      · have hover := hin.overflow (not_lt.mp hwithin)
        rw [if_neg hne, overflowValue_eq hne] at hover
        rw [ExactNumber.number.inj hover]
        exact getD_le_last hbounds hlen

/-- Counts that are not all zero have a first that is not. -/
theorem exists_first (hcounts : total 0 counts ≠ 0) :
    ∃ j c, counts[j]? = some c ∧ c ≠ 0 ∧ total 0 (counts.take j) = 0 := by
  induction counts with
  | nil => exact absurd rfl hcounts
  | cons c cs ih =>
    by_cases hc : c = 0
    · subst hc
      obtain ⟨j, c, hj, hne, htotal⟩ := ih hcounts
      exact ⟨j + 1, c, hj, hne, htotal⟩
    · exact ⟨0, c, rfl, hc, rfl⟩

/-- At most one bound, or a count in one of the first two buckets. -/
def EarlyCount (bounds : List ℚ) (counts : List UInt64) : Prop :=
  bounds.length ≤ 1 ∨ counts.getD 0 0 ≠ 0 ∨ counts.getD 1 0 ≠ 0

/-- The quantile of zero, with an empty first bucket. -/
theorem inBucket_zero (hbounds : bounds.Pairwise (· < ·)) (hcounts : total 0 counts ≠ 0)
    (hhead : counts.head? = some 0) (h : EarlyCount bounds counts) :
    ∃ b, InBucket bounds counts 0 (if bounds = [] then infinity else number (bounds.getD 0 0)) b := by
  have hfirst : counts.getD 0 0 = 0 := by
    rw [getD_eq_getElem?_getD, ← head?_eq_getElem?, hhead]
    rfl
  -- few bounds make every bucket but the first one an overflow bucket
  have hfew {b : ℕ} (hle : bounds.length ≤ b) (hlen : bounds.length ≤ 1) :
      (if bounds = [] then infinity else number (bounds.getD 0 0)) = overflowValue bounds := by
    rcases bounds with _ | ⟨x, _ | ⟨y, ys⟩⟩
    · rfl
    · rfl
    · simp at hlen
  have hbelow (b : ℕ) : (0 : ℚ) ≤ total 0 (counts.take b) := Nat.cast_nonneg _
  by_cases hsecond : counts.getD 1 0 = 0
  · have hlen : bounds.length ≤ 1 := h.resolve_right (not_or.mpr ⟨not_not.mpr hfirst, not_not.mpr hsecond⟩)
    obtain ⟨j, c, hc, hne, htotal⟩ := exists_first hcounts
    have hj : j ≠ 0 := by
      rintro rfl
      rw [getD_eq_getElem?_getD, hc] at hfirst
      exact hne hfirst
    exact ⟨j, ⟨c, hc, hne⟩, by rw [htotal, Nat.cast_zero], hbelow _, fun hlt => by omega, fun hle => hfew hle hlen⟩
  · obtain ⟨cs, rfl⟩ : ∃ cs, counts = 0 :: cs := by
      rcases counts with _ | ⟨c, cs⟩
      · cases hhead
      · exact ⟨cs, by rw [some.inj hhead]⟩
    rcases cs with _ | ⟨c, cs⟩
    · exact absurd rfl hsecond
    · refine ⟨1, ⟨c, rfl, hsecond⟩, by simp [total, saturatingAddU64], hbelow _, fun hlt => ?_, fun hle => hfew hle hle⟩
      have hne : bounds ≠ [] := by
        rintro rfl
        cases hlt
      exact ⟨_, if_neg hne, le_refl _, getD_le hbounds (Nat.zero_le 1) hlt⟩

/-- **Where the quantiles of explicit buckets are sound.** -/
theorem sound_iff (hbounds : bounds.Pairwise (· < ·)) (hcounts : total 0 counts ≠ 0) :
    Sound bounds counts ↔ EarlyCount bounds counts := by
  constructor
  · intro hsound
    by_contra hlate
    obtain ⟨hlen, hfirst⟩ := not_or.mp hlate
    obtain ⟨hfirst, hsecond⟩ := not_or.mp hfirst
    have hlen := not_le.mp hlen
    have hfirst := not_not.mp hfirst
    have hsecond := not_not.mp hsecond
    have hhead : counts.head? = some 0 := by
      rcases counts with _ | ⟨c, cs⟩
      · exact absurd rfl hcounts
      · exact congrArg some hfirst
    have hne : bounds ≠ [] := by
      rintro rfl
      simp at hlen
    obtain ⟨v, b, hv, hin⟩ := hsound.bucket 0 (le_refl 0) zero_le_one
    rw [histogramQuantile, guardPhi_number _ (le_refl 0) zero_le_one, quantileAt_zero hcounts hhead,
      if_neg hne] at hv
    obtain rfl : number (bounds.getD 0 0) = v := Checked.value.inj hv
    obtain ⟨c, hc, hcne⟩ := hin.count
    -- the bucket is none of the first two
    have hb : 2 ≤ b := by
      rcases b with _ | _ | b
      · rw [getD_eq_getElem?_getD, hc] at hfirst
        exact absurd hfirst hcne
      · rw [getD_eq_getElem?_getD, hc] at hsecond
        exact absurd hsecond hcne
      · omega
    by_cases hwithin : b < bounds.length
    · obtain ⟨q, hq, hlower, -⟩ := hin.value hwithin
      rw [lowerEdge, if_neg (by omega), ← ExactNumber.number.inj hq] at hlower
      exact absurd hlower (not_le.mpr (getD_lt hbounds (by omega) (by omega)))
    · have hover := hin.overflow (not_lt.mp hwithin)
      rw [overflowValue_eq hne] at hover
      have hlt := (getD_lt hbounds Nat.zero_lt_one hlen).trans_le (getD_le_last hbounds hlen)
      exact absurd (ExactNumber.number.inj hover) hlt.ne
  · intro h
    refine ⟨fun phi hzero hone => ?_, monotone_histogramQuantile hbounds hcounts⟩
    rw [histogramQuantile, guardPhi_number _ hzero hone]
    by_cases hstart : 0 < phi ∨ counts.head? ≠ some 0
    · obtain ⟨q, b, -, hv, hin⟩ := quantileAt_walk hbounds hcounts hzero hone hstart
      exact ⟨_, b, hv, hin⟩
    · obtain ⟨hphi, hhead⟩ := not_or.mp hstart
      obtain rfl : phi = 0 := le_antisymm (not_lt.mp hphi) hzero
      obtain ⟨b, hin⟩ := inBucket_zero hbounds hcounts (not_not.mp hhead) h
      exact ⟨_, b, quantileAt_zero hcounts (not_not.mp hhead), by rwa [zero_mul]⟩

end

end Imbh.Core
