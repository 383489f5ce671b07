import Imbh.Lib.ExactNumber
import Imbh.Lgtm.Quantile

/-!
# Histogram quantiles over exact numbers

Over the rationals with infinities a quantile is a function of the count of each bound: the order of the
buckets and how a count is split over buckets of one bound do not matter. It grows with `phi` and is in the
bucket of the repaired counts that the rank falls into.

* `quantile_means` — the properties of the quantile.
-/

namespace Imbh.Lgtm

open Lib List
open ExactNumber (number ofTop)

/-- The rationals with infinities. -/
def exact : BucketNumbers ExactNumber where
  ofNat k := number k
  seconds ns := number (ns / 1000000000)
  elevenTenths := number (11 / 10)
  add := ExactNumber.add
  sub := ExactNumber.sub
  mul := ExactNumber.mul
  div := ExactNumber.div
  lt := ExactNumber.lt
  le := ExactNumber.le
  eq := ExactNumber.eq
  boundLe := ExactNumber.totalLe
  isNaN := ExactNumber.isNaN
  abs := ExactNumber.abs
  tolerance := number (1 / 1000000000000)
  infinity := .infinity
  negInfinity := .negInfinity
  nan := .nan

section

variable (a b : ℚ)

theorem exact_ofNat (k : ℕ) : exact.ofNat k = number k := rfl

theorem exact_add : exact.add (number a) (number b) = number (a + b) := ExactNumber.add_number a b

theorem exact_sub : exact.sub (number a) (number b) = number (a - b) := ExactNumber.sub_number a b

theorem exact_mul : exact.mul (number a) (number b) = number (a * b) := ExactNumber.mul_number a b

theorem exact_div (h : b ≠ 0) : exact.div (number a) (number b) = number (a / b) := ExactNumber.div_number a b h

theorem exact_lt : exact.lt (number a) (number b) = decide (a < b) := ExactNumber.lt_number a b

theorem exact_le : exact.le (number a) (number b) = decide (a ≤ b) := ExactNumber.le_number a b

theorem exact_eq : exact.eq (number a) (number b) = decide (a = b) := ExactNumber.eq_number a b

end

/-- A bucket whose bound may be infinite and whose count is not negative. -/
structure CountedBucket where
  upperBound : WithTop ℚ
  count : ℚ≥0

def CountedBucket.bucket (b : CountedBucket) : Bucket ExactNumber := ⟨ofTop b.upperBound, number b.count⟩

/-! ## Levels -/

/-- The counts of the buckets of one bound together. -/
def total (buckets : List CountedBucket) (bound : WithTop ℚ) : ℚ≥0 :=
  ((buckets.filter fun b => b.upperBound = bound).map CountedBucket.count).sum

/-- The list has each bound of the buckets once, in order, with its count. -/
structure Levels (buckets levels : List CountedBucket) : Prop where
  ordered : levels.Pairwise fun a b => a.upperBound < b.upperBound
  mem : ∀ x, x ∈ levels ↔
    (∃ b ∈ buckets, b.upperBound = x.upperBound) ∧ x.count = total buckets x.upperBound

variable {b : CountedBucket} {observations : ℚ≥0}

section

variable {buckets buckets' levels levels' : List CountedBucket}

/-- The count at a bound is the sum over the buckets that have it. -/
theorem total_cons (b : CountedBucket) (buckets : List CountedBucket) (bound : WithTop ℚ) :
    total (b :: buckets) bound =
      if b.upperBound = bound then b.count + total buckets bound else total buckets bound := by
  unfold total
  rw [filter_cons]
  split
  · rename_i h
    rw [if_pos (by simpa using h), map_cons, sum_cons]
  · rename_i h
    rw [if_neg (by simpa using h)]

theorem total_append (buckets buckets' : List CountedBucket) (bound : WithTop ℚ) :
    total (buckets ++ buckets') bound = total buckets bound + total buckets' bound := by
  unfold total
  rw [filter_append, map_append, sum_append]

theorem total_perm (h : buckets.Perm buckets') (bound : WithTop ℚ) :
    total buckets bound = total buckets' bound :=
  ((h.filter _).map _).sum_eq

/-- The bounds with their counts are determined. -/
theorem levels_unique (h : Levels buckets levels) (h' : Levels buckets' levels')
    (hbounds : ∀ bound, (∃ b ∈ buckets, b.upperBound = bound) ↔ ∃ b ∈ buckets', b.upperBound = bound)
    (htotal : ∀ bound, total buckets bound = total buckets' bound) : levels = levels' := by
  have hmem (x : CountedBucket) : x ∈ levels ↔ x ∈ levels' := by
    rw [h.mem, h'.mem, hbounds, htotal]
  have hnodup {l : List CountedBucket} (hl : l.Pairwise fun a b => a.upperBound < b.upperBound) : l.Nodup :=
    hl.imp fun hlt heq => absurd (heq ▸ hlt) (lt_irrefl _)
  have hperm := (perm_ext_iff_of_nodup (hnodup h.ordered) (hnodup h'.ordered)).mpr hmem
  refine hperm.eq_of_pairwise (fun a b _ _ hab hba => ?_) h.ordered h'.ordered
  exact absurd (hab.trans hba) (lt_irrefl _)

theorem Levels.congr (h : Levels buckets levels)
    (hbounds : ∀ bound, (∃ b ∈ buckets, b.upperBound = bound) ↔ ∃ b ∈ buckets', b.upperBound = bound)
    (htotal : ∀ bound, total buckets bound = total buckets' bound) : Levels buckets' levels where
  ordered := h.ordered
  mem x := by rw [h.mem, hbounds, htotal]

theorem valid_bucket (b : CountedBucket) : exact.valid b.bucket = true := by
  have hcount : ExactNumber.lt (number b.count) (number ((0 : ℕ) : ℚ)) = false := by
    rw [ExactNumber.lt_number, decide_eq_false_iff_not, Nat.cast_zero, not_lt]
    exact b.count.cast_nonneg
  show (!(ExactNumber.isNaN (ofTop b.upperBound) || ExactNumber.isNaN (number b.count) ||
    ExactNumber.lt (number b.count) (number ((0 : ℕ) : ℚ)))) = true
  rw [hcount, ExactNumber.isNaN_ofTop, ExactNumber.isNaN_number]
  rfl

/-- Two buckets of one bound are one bucket with both counts. -/
theorem levels_merge {c : CountedBucket} (heq : b.upperBound = c.upperBound)
    (h : Levels (⟨b.upperBound, b.count + c.count⟩ :: buckets) levels) : Levels (b :: c :: buckets) levels := by
  apply h.congr
  · intro bound
    simp only [exists_mem_cons_iff, heq]
    tauto
  · intro bound
    rw [total_cons, total_cons, total_cons, heq]
    split
    · exact add_assoc _ _ _
    · rfl

/-- A bucket below all others is a level of its own. -/
theorem levels_cons (hlt : ∀ c ∈ buckets, b.upperBound < c.upperBound) (h : Levels buckets levels) :
    Levels (b :: buckets) (b :: levels) := by
  have hbelow (x : CountedBucket) (hx : x ∈ levels) : b.upperBound < x.upperBound := by
    obtain ⟨⟨c, hc, heq⟩, -⟩ := (h.mem x).mp hx
    exact heq ▸ hlt c hc
  have hzero : total buckets b.upperBound = 0 := by
    unfold total
    rw [filter_eq_nil_iff.mpr fun c hc => by simpa using (hlt c hc).ne']
    rfl
  constructor
  · exact pairwise_cons.mpr ⟨hbelow, h.ordered⟩
  · intro x
    rw [mem_cons, exists_mem_cons_iff, total_cons]
    by_cases heq : b.upperBound = x.upperBound
    · rw [if_pos heq, ← heq, hzero, add_zero]
      constructor
      · rintro (rfl | hx)
        · exact ⟨Or.inl rfl, rfl⟩
        · exact absurd heq (hbelow x hx).ne
      · rintro ⟨-, hcount⟩
        left
        rcases x with ⟨bound, count⟩
        rcases b with ⟨bound', count'⟩
        rw [CountedBucket.mk.injEq]
        exact ⟨heq.symm, hcount⟩
    · rw [if_neg heq, h.mem]
      constructor
      · rintro (rfl | hx)
        · exact absurd rfl heq
        · exact ⟨Or.inr hx.1, hx.2⟩
      · rintro ⟨hb | hb, hcount⟩
        · exact absurd hb heq
        · exact Or.inr ⟨hb, hcount⟩

/-- Buckets in order are put together to the levels. -/
theorem coalesceFrom_levels (hordered : (b :: buckets).Pairwise fun c d => c.upperBound ≤ d.upperBound) :
    ∃ levels, exact.coalesceFrom b.bucket (buckets.map CountedBucket.bucket) =
        .ok (levels.map CountedBucket.bucket) ∧ Levels (b :: buckets) levels := by
  induction buckets generalizing b with
  | nil =>
    refine ⟨[b], rfl, levels_cons (by simp) ⟨Pairwise.nil, by simp⟩⟩
  | cons c buckets ih =>
    obtain ⟨hle, hrest⟩ := pairwise_cons.mp hordered
    have heqs : exact.eq b.bucket.upperBound c.bucket.upperBound = decide (b.upperBound = c.upperBound) :=
      ExactNumber.eq_ofTop _ _
    rw [map_cons, BucketNumbers.coalesceFrom, if_neg (by rw [valid_bucket]; exact Bool.noConfusion), heqs]
    by_cases heq : b.upperBound = c.upperBound
    · have hmerged : ((⟨b.upperBound, b.count + c.count⟩ : CountedBucket) :: buckets).Pairwise
          fun c d => c.upperBound ≤ d.upperBound :=
        pairwise_cons.mpr ⟨fun d hd => hle d (mem_cons_of_mem _ hd), (pairwise_cons.mp hrest).2⟩
      obtain ⟨levels, hlevels, hmeans⟩ := ih hmerged
      refine ⟨levels, ?_, levels_merge heq hmeans⟩
      rw [if_pos (decide_eq_true heq), ← hlevels]
      congr 1
    · obtain ⟨levels, hlevels, hmeans⟩ := ih hrest
      refine ⟨b :: levels, ?_, levels_cons ?_ hmeans⟩
      · rw [if_neg (by simpa using heq), hlevels]
        rfl
      · intro d hd
        have hlt := lt_of_le_of_ne (hle c mem_cons_self) heq
        rcases mem_cons.mp hd with rfl | hd
        · exact hlt
        · exact hlt.trans_le ((pairwise_cons.mp hrest).1 d hd)

/-- The buckets in the order of their bounds. -/
def sortedBuckets (buckets : List CountedBucket) : List (Bucket ExactNumber) :=
  (buckets.map CountedBucket.bucket).insertionSort fun l r => exact.boundLe l.upperBound r.upperBound = true

/-- The sorted buckets coalesce to one level for each bound. -/
theorem coalesce_levels (buckets : List CountedBucket) :
    ∃ levels, exact.coalesce (sortedBuckets buckets) = .ok (levels.map CountedBucket.bucket) ∧
      Levels buckets levels := by
  have hsort : sortedBuckets buckets =
      (buckets.insertionSort fun l r => l.upperBound ≤ r.upperBound).map CountedBucket.bucket := by
    refine (map_insertionSort _ _ _ _ fun a _ b _ => ?_).symm
    exact decide_eq_true_iff.symm.trans (ExactNumber.totalLe_ofTop _ _ ▸ Iff.rfl)
  have hperm := perm_insertionSort (fun l r : CountedBucket => l.upperBound ≤ r.upperBound) buckets
  have hordered := pairwise_insertionSort (fun l r : CountedBucket => l.upperBound ≤ r.upperBound) buckets
  rw [hsort]
  generalize (buckets.insertionSort fun l r => l.upperBound ≤ r.upperBound) = sorted at hperm hordered ⊢
  have hback {levels : List CountedBucket} (h : Levels sorted levels) : Levels buckets levels :=
    h.congr (fun bound => by simp only [hperm.mem_iff]) (total_perm hperm)
  match sorted with
  | [] => exact ⟨[], rfl, hback ⟨Pairwise.nil, by simp⟩⟩
  | b :: rest =>
    obtain ⟨levels, hlevels, hmeans⟩ := coalesceFrom_levels hordered
    refine ⟨levels, ?_, hback hmeans⟩
    rw [map_cons, BucketNumbers.coalesce, if_neg (by rw [valid_bucket]; exact Bool.noConfusion), hlevels]

end

/-! ## The repair -/

/-- The counts after `previous`, each at least the one before it. -/
def raiseFrom (previous : ℚ≥0) : List CountedBucket → List CountedBucket
  | [] => []
  | b :: l => ⟨b.upperBound, max previous b.count⟩ :: raiseFrom (max previous b.count) l

/-- The levels with the counts repaired. -/
def raise : List CountedBucket → List CountedBucket
  | [] => []
  | b :: l => b :: raiseFrom b.count l

section

variable {previous : ℚ≥0} {levels : List CountedBucket}

/-- The repair raises each count to the one before it. -/
theorem repairFrom_raises (previous : ℚ≥0) (levels : List CountedBucket) :
    (exact.repairFrom (number previous) (levels.map CountedBucket.bucket)).1 =
      (raiseFrom previous levels).map CountedBucket.bucket := by
  induction levels generalizing previous with
  | nil => rfl
  | cons b levels ih =>
    have hle : exact.le (number previous) b.bucket.cumulativeCount = decide (previous ≤ b.count) :=
      (ExactNumber.le_number _ _).trans (decide_eq_decide.mpr NNRat.cast_le)
    rw [map_cons, BucketNumbers.repairFrom, hle]
    by_cases hkept : previous ≤ b.count
    · rw [if_pos (decide_eq_true hkept), raiseFrom, max_eq_right hkept, map_cons, ← ih]
      rfl
    · rw [if_neg (by simpa using hkept), raiseFrom, max_eq_left (not_le.mp hkept).le, map_cons, ← ih]
      rfl

/-- Counts that do not decrease are left as they are, without an annotation. -/
theorem repairFrom_of_ordered (hordered : (previous :: levels.map CountedBucket.count).Pairwise (· ≤ ·)) :
    exact.repairFrom (number previous) (levels.map CountedBucket.bucket) =
      (levels.map CountedBucket.bucket, false) := by
  induction levels generalizing previous with
  | nil => rfl
  | cons b levels ih =>
    have hkept : previous ≤ b.count := (pairwise_cons.mp hordered).1 _ mem_cons_self
    have hle : exact.le (number previous) b.bucket.cumulativeCount = true :=
      (ExactNumber.le_number _ _).trans (decide_eq_true (NNRat.cast_le.mpr hkept))
    have hrest := ih (pairwise_cons.mp hordered).2
    rw [map_cons, BucketNumbers.repairFrom, if_pos hle]
    have hcount : b.bucket.cumulativeCount = number b.count := rfl
    rw [hcount, hrest]

theorem raiseFrom_bounds (previous : ℚ≥0) (levels : List CountedBucket) :
    (raiseFrom previous levels).map CountedBucket.upperBound = levels.map CountedBucket.upperBound := by
  induction levels generalizing previous with
  | nil => rfl
  | cons b levels ih => rw [raiseFrom, map_cons, map_cons, ih]

theorem raise_bounds (levels : List CountedBucket) :
    (raise levels).map CountedBucket.upperBound = levels.map CountedBucket.upperBound := by
  match levels with
  | [] => rfl
  | b :: l => rw [raise, map_cons, map_cons, raiseFrom_bounds]

/-- Raised counts do not decrease. -/
theorem raiseFrom_ordered (previous : ℚ≥0) (levels : List CountedBucket) :
    (previous :: (raiseFrom previous levels).map CountedBucket.count).Pairwise (· ≤ ·) := by
  induction levels generalizing previous with
  | nil => simp [raiseFrom]
  | cons b levels ih =>
    have hrest := ih (max previous b.count)
    rw [raiseFrom, map_cons]
    refine pairwise_cons.mpr ⟨fun c hc => ?_, hrest⟩
    have hle : previous ≤ max previous b.count := le_max_left _ _
    rcases mem_cons.mp hc with rfl | hc
    · exact hle
    · exact hle.trans ((pairwise_cons.mp hrest).1 c hc)

theorem raise_ordered (levels : List CountedBucket) :
    ((raise levels).map CountedBucket.count).Pairwise (· ≤ ·) := by
  match levels with
  | [] => exact Pairwise.nil
  | b :: l => exact raiseFrom_ordered b.count l

/-- No count is lowered. -/
theorem le_raiseFrom (previous : ℚ≥0) (hb : b ∈ levels) : ∃ c ∈ raiseFrom previous levels, b.count ≤ c.count := by
  induction levels generalizing previous with
  | nil => exact absurd hb not_mem_nil
  | cons a levels ih =>
    rw [raiseFrom]
    rcases mem_cons.mp hb with rfl | hb
    · exact ⟨_, mem_cons_self, le_max_right _ _⟩
    · obtain ⟨c, hc, hle⟩ := ih (max previous a.count) hb
      exact ⟨c, mem_cons_of_mem _ hc, hle⟩

theorem le_raise (hb : b ∈ levels) : ∃ c ∈ raise levels, b.count ≤ c.count := by
  match levels with
  | a :: l =>
    rcases mem_cons.mp hb with rfl | hb
    · exact ⟨b, mem_cons_self, le_refl _⟩
    · obtain ⟨c, hc, hle⟩ := le_raiseFrom a.count hb
      exact ⟨c, mem_cons_of_mem _ hc, hle⟩

/-- Counts that are not in order decrease somewhere. -/
theorem exists_decrease {counts : List ℚ≥0} (h : ¬counts.Pairwise (· ≤ ·)) :
    ∃ (i : ℕ) (hi : i + 1 < counts.length), counts[i + 1] < counts[i] := by
  by_contra hnone
  simp only [not_exists, not_lt] at hnone
  exact h (isChain_iff_pairwise.mp (isChain_iff_getElem.mpr hnone))

end

/-! ## The value -/

/-- The rank falls into bucket `i`: its count is the first that reaches the rank. -/
def InBucket (levels : List CountedBucket) (rank : ℚ) (i : ℕ) : Prop :=
  (∃ b, levels[i]? = some b ∧ rank ≤ b.count) ∧
    ∀ j < i, ∀ c, levels[j]? = some c → (c.count : ℚ) < rank

/-- The lower edge of a bucket: the bound before it. That of the first is 0, or its own bound where that is
below 0. -/
def lowerEdge (levels : List CountedBucket) : ℕ → Option (WithTop ℚ)
  | 0 => levels[0]?.map fun b => min 0 b.upperBound
  | i + 1 => levels[i]?.map CountedBucket.upperBound

/-- The count below a bucket. -/
def countBelow (levels : List CountedBucket) : ℕ → ℚ
  | 0 => 0
  | i + 1 => ((levels[i]?.map CountedBucket.count).getD 0 : ℚ≥0)

/-- The place between two edges that is as far as the rank is between two counts. -/
def between (lower upper below count rank : ℚ) : ℚ :=
  if count - below = 0 then lower else lower + (upper - lower) * ((rank - below) / (count - below))

/-- What is interpolated lies between the edges. -/
theorem between_bounds {lower upper below count rank : ℚ} (hedges : lower ≤ upper) (hlow : below ≤ rank)
    (hhigh : rank ≤ count) :
    lower ≤ between lower upper below count rank ∧ between lower upper below count rank ≤ upper := by
  unfold between
  split
  · exact ⟨le_refl _, hedges⟩
  · rename_i hcount
    have hpos : 0 < count - below := lt_of_le_of_ne (by linarith) (Ne.symm hcount)
    have hzero : 0 ≤ (rank - below) / (count - below) := div_nonneg (by linarith) hpos.le
    have hone : (rank - below) / (count - below) ≤ 1 := (div_le_one hpos).mpr (by linarith)
    constructor
    · nlinarith
    · nlinarith

/-- It grows with the rank. -/
theorem between_mono {lower upper below count rank rank' : ℚ} (hedges : lower ≤ upper) (hlow : below ≤ rank)
    (hhigh : rank ≤ count) (h : rank ≤ rank') :
    between lower upper below count rank ≤ between lower upper below count rank' := by
  unfold between
  split
  · exact le_refl _
  · rename_i hcount
    have hpos : 0 < count - below := lt_of_le_of_ne (by linarith) (Ne.symm hcount)
    have hle : (rank - below) / (count - below) ≤ (rank' - below) / (count - below) :=
      div_le_div_of_nonneg_right (by linarith) hpos.le
    have hmul := mul_le_mul_of_nonneg_left hle (sub_nonneg.mpr hedges)
    linarith

/-- The value of a rank in bucket `i`: the lower edge in the last bucket, and between the edges elsewhere. -/
structure ValueIn (levels : List CountedBucket) (rank : ℚ) (i : ℕ) (value : ℚ) : Prop where
  bucket : InBucket levels rank i
  value : ∃ lower : ℚ, lowerEdge levels i = some (lower : WithTop ℚ) ∧
    (i + 1 = levels.length ∧ value = lower ∨
      i + 1 < levels.length ∧ ∃ (b : CountedBucket) (upper : ℚ), levels[i]? = some b ∧
        b.upperBound = upper ∧ lower ≤ upper ∧ countBelow levels i ≤ rank ∧
        value = between lower upper (countBelow levels i) b.count rank)

section

variable {levels : List CountedBucket} {rank rank' value value' : ℚ} {i j : ℕ}

theorem lt_of_pairwise {α : Type} {r : α → α → Prop} {l : List α} (h : l.Pairwise r) {i j : ℕ} {a b : α}
    (ha : l[i]? = some a) (hb : l[j]? = some b) (hij : i < j) : r a b := by
  obtain ⟨hi, rfl⟩ := List.getElem?_eq_some_iff.mp ha
  obtain ⟨hj, rfl⟩ := List.getElem?_eq_some_iff.mp hb
  exact List.pairwise_iff_getElem.mp h i j hi hj hij

/-- The lower edge of a bucket is no higher than its bound. -/
theorem lowerEdge_le (hordered : levels.Pairwise fun a b => a.upperBound < b.upperBound) {lower : WithTop ℚ}
    (hlower : lowerEdge levels i = some lower) (hb : levels[i]? = some b) : lower ≤ b.upperBound := by
  match i with
  | 0 =>
    rw [lowerEdge, hb] at hlower
    rw [← Option.some.inj hlower]
    exact min_le_right _ _
  | i + 1 =>
    obtain ⟨c, hc, rfl⟩ := Option.map_eq_some_iff.mp hlower
    exact (lt_of_pairwise hordered hc hb (Nat.lt_succ_self i)).le

/-- The bound of a bucket is not above the lower edge of a later one. -/
theorem le_lowerEdge (hordered : levels.Pairwise fun a b => a.upperBound < b.upperBound) {lower : WithTop ℚ}
    (hb : levels[i]? = some b) (hlower : lowerEdge levels j = some lower) (hij : i < j) : b.upperBound ≤ lower := by
  match j with
  | j + 1 =>
    obtain ⟨c, hc, rfl⟩ := Option.map_eq_some_iff.mp hlower
    rcases (Nat.lt_succ_iff.mp hij).eq_or_lt with rfl | hlt
    · rw [hc] at hb
      rw [Option.some.inj hb]
    · exact (lt_of_pairwise hordered hb hc hlt).le

/-- The value is not below the lower edge and not above the upper one. -/
theorem ValueIn.edges (h : ValueIn levels rank i value)
    (hordered : levels.Pairwise fun a b => a.upperBound < b.upperBound) :
    ∃ (lower : WithTop ℚ) (b : CountedBucket), lowerEdge levels i = some lower ∧ levels[i]? = some b ∧
      lower ≤ value ∧ value ≤ b.upperBound := by
  obtain ⟨lower, hlower, hvalue⟩ := h.value
  obtain ⟨⟨b, hb, hrank⟩, -⟩ := h.bucket
  refine ⟨lower, b, hlower, hb, ?_⟩
  rcases hvalue with ⟨-, rfl⟩ | ⟨-, c, upper, hc, hupper, hedges, hbelow, rfl⟩
  · exact ⟨le_refl _, lowerEdge_le hordered hlower hb⟩
  · rw [hb] at hc
    rw [← Option.some.inj hc] at hupper ⊢
    obtain ⟨hlow, hhigh⟩ := between_bounds hedges hbelow hrank
    rw [hupper]
    exact ⟨WithTop.coe_le_coe.mpr hlow, WithTop.coe_le_coe.mpr hhigh⟩

/-- A greater rank is not in an earlier bucket. -/
theorem InBucket.le (h : InBucket levels rank i) (h' : InBucket levels rank' j) (hle : rank ≤ rank') : i ≤ j := by
  obtain ⟨⟨c, hc, hrank⟩, -⟩ := h'
  by_contra hlt
  have hbefore := h.2 j (not_le.mp hlt) c hc
  linarith

/-- The value grows with the rank, within a bucket and from one to a later one. -/
theorem ValueIn.mono (h : ValueIn levels rank i value) (h' : ValueIn levels rank' j value')
    (hordered : levels.Pairwise fun a b => a.upperBound < b.upperBound) (hle : rank ≤ rank') :
    value ≤ value' := by
  rcases (h.bucket.le h'.bucket hle).eq_or_lt with rfl | hlt
  · -- in one bucket the value is further on
    obtain ⟨lower, hlower, hvalue⟩ := h.value
    obtain ⟨lower', hlower', hvalue'⟩ := h'.value
    obtain ⟨⟨b, hb, hrank⟩, -⟩ := h.bucket
    rw [hlower, Option.some.injEq, WithTop.coe_inj] at hlower'
    rw [← hlower'] at hvalue'
    rcases hvalue with ⟨hlast, rfl⟩ | ⟨hlt, c, upper, hc, hupper, hedges, hbelow, rfl⟩
    · rcases hvalue' with ⟨-, rfl⟩ | ⟨hlt, -⟩
      · exact le_refl _
      · exact absurd hlast hlt.ne
    · rcases hvalue' with ⟨hlast, -⟩ | ⟨-, d, upper', hd, hupper', -, -, rfl⟩
      · exact absurd hlast hlt.ne
      · rw [hc, Option.some.injEq] at hd
        rw [hb, Option.some.injEq] at hc
        rw [← hd, hupper, WithTop.coe_inj] at hupper'
        rw [← hd, ← hupper']
        rw [hc] at hrank
        exact between_mono hedges hbelow hrank hle
  · -- in a later bucket it is beyond the edge between them
    obtain ⟨-, b, -, hb, -, hhigh⟩ := h.edges hordered
    obtain ⟨lower, -, hlower, -, hlow, -⟩ := h'.edges hordered
    exact WithTop.coe_le_coe.mp (hhigh.trans ((le_lowerEdge hordered hb hlower hlt).trans hlow))

theorem finite_of_lt {bound bound' : WithTop ℚ} (h : bound < bound') : ∃ q : ℚ, bound = q := by
  obtain ⟨q, hq⟩ := WithTop.ne_top_iff_exists.mp (h.trans_le le_top).ne
  exact ⟨q, hq.symm⟩

/-- The interpolation of the code. -/
theorem interpolate_number (lower upper below count rank : ℚ) :
    (if exact.eq (exact.sub (number count) (number below)) (exact.ofNat 0) then number lower
      else exact.add (number lower) (exact.mul (exact.sub (number upper) (number lower))
        (exact.div (exact.sub (number rank) (number below)) (exact.sub (number count) (number below))))) =
      number (between lower upper below count rank) := by
  rw [exact_sub, exact_sub, exact_sub, exact_ofNat, exact_eq, Nat.cast_zero, between]
  by_cases hcount : count - below = 0
  · rw [if_pos (decide_eq_true hcount), if_pos hcount]
  · rw [if_neg (by simpa using hcount), if_neg hcount, exact_div _ _ hcount, exact_mul, exact_add]

/-- The bucket of the rank, as the code looks it up. -/
theorem findIdx_rank (hlast : levels.getLast?.map CountedBucket.count = some observations)
    (hrank : rank ≤ observations) :
    ∃ i, (levels.map CountedBucket.bucket).findIdx? (fun b => exact.le (number rank) b.cumulativeCount) =
      some i ∧ InBucket levels rank i := by
  have hle (b : CountedBucket) : exact.le (number rank) b.bucket.cumulativeCount = decide (rank ≤ b.count) :=
    ExactNumber.le_number _ _
  have hfind : (levels.map CountedBucket.bucket).findIdx?
      (fun b => exact.le (number rank) b.cumulativeCount) = levels.findIdx? fun b => rank ≤ b.count := by
    rw [List.findIdx?_map]
    congr 1
    funext b
    exact hle b
  rw [hfind]
  rcases hi : levels.findIdx? fun b => rank ≤ b.count with _ | i
  · obtain ⟨b, hb, rfl⟩ := Option.map_eq_some_iff.mp hlast
    have hnone := List.findIdx?_eq_none_iff.mp hi b (List.mem_of_getLast? hb)
    exact absurd hrank (by simpa using hnone)
  · obtain ⟨hlt, hreach, hbefore⟩ := List.findIdx?_eq_some_iff_getElem.mp hi
    refine ⟨i, hi, ⟨levels[i], List.getElem?_eq_getElem hlt, by simpa using hreach⟩, fun j hj c hc => ?_⟩
    obtain ⟨-, rfl⟩ := List.getElem?_eq_some_iff.mp hc
    simpa using hbefore j hj

/-- The value is in the bucket of the rank. -/
theorem quantileIn_value {phi : ℚ} (hordered : levels.Pairwise fun a b => a.upperBound < b.upperBound)
    (htwo : 2 ≤ levels.length) (hlast : levels.getLast?.map CountedBucket.count = some observations) (hphi : 0 ≤ phi)
    (hphi' : phi ≤ 1) :
    ∃ i value, exact.quantileIn (number phi) (levels.map CountedBucket.bucket) (number observations) =
      number value ∧ ValueIn levels (phi * observations) i value := by
  have hobservations : (0 : ℚ) ≤ observations := observations.cast_nonneg
  have hrank : phi * observations ≤ observations := mul_le_of_le_one_left hobservations hphi'
  have hnonneg : 0 ≤ phi * (observations : ℚ) := mul_nonneg hphi hobservations
  obtain ⟨i, hi, hin⟩ := findIdx_rank hlast hrank
  obtain ⟨⟨b, hb, hreach⟩, hbefore⟩ := id hin
  have hlt : i < levels.length := (List.getElem?_eq_some_iff.mp hb).1
  have hmul : exact.mul (number phi) (number observations) = number (phi * observations) := rfl
  unfold BucketNumbers.quantileIn
  dsimp only
  rw [hmul, hi, Option.getD_some, List.length_map, List.getElem?_map, List.getElem?_map, hb]
  by_cases hend : i = levels.length - 1
  · -- the last bucket, of which the value is the lower edge
    rw [if_pos hend]
    match i with
    | 0 => omega
    | i + 1 =>
      obtain ⟨c, hc⟩ : ∃ c, levels[i]? = some c := ⟨_, List.getElem?_eq_getElem (by omega)⟩
      obtain ⟨lower, hlower⟩ := finite_of_lt (lt_of_pairwise hordered hc hb (Nat.lt_succ_self i))
      refine ⟨i + 1, lower, ?_, hin, lower, ?_, Or.inl ⟨by omega, rfl⟩⟩
      · rw [Nat.add_sub_cancel, hc]
        exact congrArg ofTop hlower
      · rw [lowerEdge, hc, Option.map_some, hlower]
  · -- another bucket, whose upper edge is finite as well
    rw [if_neg hend]
    obtain ⟨next, hnext⟩ : ∃ c, levels[i + 1]? = some c := ⟨_, List.getElem?_eq_getElem (by omega)⟩
    obtain ⟨upper, hupper⟩ := finite_of_lt (lt_of_pairwise hordered hb hnext (Nat.lt_succ_self i))
    have hbound : b.bucket.upperBound = number upper := congrArg ofTop hupper
    have hcount : b.bucket.cumulativeCount = number b.count := rfl
    rw [Option.map_some]
    dsimp only
    rw [hbound, hcount]
    match i with
    | 0 =>
      rw [exact_ofNat, exact_le, Nat.cast_zero]
      simp only [decide_true, Bool.true_and, decide_eq_true_eq, if_true]
      by_cases hneg : upper ≤ 0
      · refine ⟨0, upper, if_pos hneg, hin, upper, ?_,
          Or.inr ⟨by omega, b, upper, hb, hupper, le_refl _, hnonneg, ?_⟩⟩
        · rw [lowerEdge, hb, Option.map_some, hupper, min_eq_right]
          exact_mod_cast hneg
        · simp [between]
      · refine ⟨0, between 0 upper 0 b.count (phi * observations), ?_, hin, 0, ?_,
          Or.inr ⟨by omega, b, upper, hb, hupper, (not_le.mp hneg).le, hnonneg, rfl⟩⟩
        · rw [if_neg hneg]
          exact interpolate_number 0 upper 0 b.count (phi * observations)
        · rw [lowerEdge, hb, Option.map_some, hupper, min_eq_left]
          · rfl
          · exact_mod_cast (not_le.mp hneg).le
    | i + 1 =>
      obtain ⟨c, hc⟩ : ∃ c, levels[i]? = some c := ⟨_, List.getElem?_eq_getElem (by omega)⟩
      have hlt' := lt_of_pairwise hordered hc hb (Nat.lt_succ_self i)
      obtain ⟨lower, hlower⟩ := finite_of_lt hlt'
      have hbefore' : c.bucket.upperBound = number lower := congrArg ofTop hlower
      have hbelow : countBelow levels (i + 1) = c.count := by
        rw [countBelow, hc, Option.map_some, Option.getD_some]
      refine ⟨i + 1, between lower upper c.count b.count (phi * observations), ?_, hin, lower, ?_,
        Or.inr ⟨by omega, b, upper, hb, hupper, ?_, ?_, by rw [hbelow]⟩⟩
      · rw [Nat.add_sub_cancel, hc]
        simp only [Nat.add_one_ne_zero, decide_false, Bool.false_and, Bool.false_eq_true, if_false,
          Option.map_some, Option.getD_some, hbefore']
        exact interpolate_number lower upper c.count b.count (phi * observations)
      · rw [lowerEdge, hc, Option.map_some, hlower]
      · rw [hlower, hupper] at hlt'
        exact (WithTop.coe_lt_coe.mp hlt').le
      · rw [hbelow]
        exact (hbefore i (Nat.lt_succ_self i) c hc).le

end

/-! ## The quantile -/

/-- Whether a count is repaired beyond the tolerance. -/
def forced : List CountedBucket → Bool
  | [] => false
  | first :: rest => (exact.repairFrom (number first.count) (rest.map CountedBucket.bucket)).2

section

variable {buckets buckets' levels : List CountedBucket} {phi : ℚ}

theorem quantile_congr (h : exact.coalesce (sortedBuckets buckets) = exact.coalesce (sortedBuckets buckets'))
    (phi : ExactNumber) : exact.quantile phi (buckets.map CountedBucket.bucket) =
      exact.quantile phi (buckets'.map CountedBucket.bucket) := by
  unfold sortedBuckets at h
  unfold BucketNumbers.quantile
  dsimp only
  rw [h]

/-- A quantile is a function of the count of each bound. -/
theorem quantile_of_totals
    (hbounds : ∀ bound, (∃ b ∈ buckets, b.upperBound = bound) ↔ ∃ b ∈ buckets', b.upperBound = bound)
    (htotal : ∀ bound, total buckets bound = total buckets' bound) (phi : ExactNumber) :
    exact.quantile phi (buckets.map CountedBucket.bucket) =
      exact.quantile phi (buckets'.map CountedBucket.bucket) := by
  obtain ⟨levels, hlevels, hmeans⟩ := coalesce_levels buckets
  obtain ⟨levels', hlevels', hmeans'⟩ := coalesce_levels buckets'
  apply quantile_congr
  rw [hlevels, hlevels', levels_unique hmeans hmeans' hbounds htotal]

theorem total_of_bound (bound : WithTop ℚ) (counts : List ℚ≥0) (bound' : WithTop ℚ) :
    total (counts.map (CountedBucket.mk bound)) bound' = if bound = bound' then counts.sum else 0 := by
  induction counts with
  | nil => simp [total]
  | cons c counts ih =>
    rw [map_cons, total_cons, ih, sum_cons]
    split
    · rfl
    · rfl

/-- A bucket that is split into several of its bound. -/
theorem quantile_split (before after : List CountedBucket) (bound : WithTop ℚ) {counts : List ℚ≥0}
    (hne : counts ≠ []) (phi : ExactNumber) :
    exact.quantile phi ((before ++ ⟨bound, counts.sum⟩ :: after).map CountedBucket.bucket) =
      exact.quantile phi
        ((before ++ counts.map (CountedBucket.mk bound) ++ after).map CountedBucket.bucket) := by
  obtain ⟨c, hc⟩ := exists_mem_of_ne_nil _ hne
  apply quantile_of_totals
  · intro bound'
    simp only [mem_append, mem_cons, mem_map]
    constructor
    · rintro ⟨b, hb | rfl | hb, rfl⟩
      · exact ⟨b, Or.inl (Or.inl hb), rfl⟩
      · exact ⟨⟨bound, c⟩, Or.inl (Or.inr ⟨c, hc, rfl⟩), rfl⟩
      · exact ⟨b, Or.inr hb, rfl⟩
    · rintro ⟨b, (hb | ⟨d, -, rfl⟩) | hb, rfl⟩
      · exact ⟨b, Or.inl hb, rfl⟩
      · exact ⟨_, Or.inr (Or.inl rfl), rfl⟩
      · exact ⟨b, Or.inr (Or.inr hb), rfl⟩
  · intro bound'
    rw [total_append, total_cons, total_append, total_append, total_of_bound]
    split
    · exact (add_assoc _ _ _).symm
    · rw [add_zero]

/-- Each bound of the buckets is one of the levels. -/
theorem Levels.exists_level (h : Levels buckets levels) (hb : b ∈ buckets) :
    ∃ x ∈ levels, x.upperBound = b.upperBound ∧ b.count ≤ x.count := by
  refine ⟨⟨b.upperBound, total buckets b.upperBound⟩, (h.mem _).mpr ⟨⟨b, hb, rfl⟩, rfl⟩, rfl, ?_⟩
  exact single_le_sum (fun _ _ => zero_le) _
    (mem_map_of_mem (mem_filter.mpr ⟨hb, decide_eq_true rfl⟩))

/-- In an ordered list the last is at least each. -/
theorem le_getLast {α : Type} {r : α → α → Prop} {l : List α} (h : l.Pairwise r) (hrefl : ∀ a, r a a) {a last : α}
    (ha : a ∈ l) (hlast : l.getLast? = some last) : r a last := by
  obtain ⟨i, hi, rfl⟩ := getElem_of_mem ha
  have hend : l[l.length - 1]? = some last := by
    rw [← getLast?_eq_getElem?]
    exact hlast
  rcases Nat.lt_or_ge i (l.length - 1) with hlt | hge
  · exact lt_of_pairwise h (getElem?_eq_getElem hi) hend hlt
  · have heq : i = l.length - 1 := by omega
    rw [← heq, getElem?_eq_getElem hi] at hend
    rw [Option.some.inj hend]
    exact hrefl last

theorem getLast?_raise (first : CountedBucket) {rest : List CountedBucket} (hne : rest ≠ []) :
    (raiseFrom first.count rest).getLast? = (raise (first :: rest)).getLast? := by
  match rest with
  | b :: l => exact getLast?_cons_cons.symm

/-- The quantile of two levels or more, of which the last is infinite. -/
theorem quantile_of_levels {first second : CountedBucket} {rest : List CountedBucket}
    (hlevels : exact.coalesce (sortedBuckets buckets) = .ok ((first :: second :: rest).map CountedBucket.bucket))
    (htop : ((second :: rest).getLast (cons_ne_nil _ _)).upperBound = ⊤)
    (hlast : (raise (first :: second :: rest)).getLast?.map CountedBucket.count = some observations)
    (hpos : 0 < observations) (hphi : 0 ≤ phi) (hphi' : phi ≤ 1) :
    exact.quantile (number phi) (buckets.map CountedBucket.bucket) =
      .ok ⟨exact.quantileIn (number phi) ((raise (first :: second :: rest)).map CountedBucket.bucket)
        (number observations), BucketNumbers.annotations (forced (first :: second :: rest))⟩ := by
  have hlow : exact.lt (number phi) (exact.ofNat 0) = false := by
    rw [exact_ofNat, exact_lt, Nat.cast_zero, decide_eq_false_iff_not, not_lt]
    exact hphi
  have hhigh : exact.lt (exact.ofNat 1) (number phi) = false := by
    rw [exact_ofNat, exact_lt, Nat.cast_one, decide_eq_false_iff_not, not_lt]
    exact hphi'
  have hlastBucket : (second.bucket :: rest.map CountedBucket.bucket).getLast (cons_ne_nil _ _) =
      ((second :: rest).getLast (cons_ne_nil _ _)).bucket :=
    getLast_map (l := second :: rest) (f := CountedBucket.bucket) (cons_ne_nil _ _)
  have hinfinite : exact.eq ((second :: rest).getLast (cons_ne_nil _ _)).bucket.upperBound exact.infinity =
      true := by
    rw [CountedBucket.bucket, htop]
    rfl
  have hrepair := repairFrom_raises first.count (second :: rest)
  have hcount : (((raiseFrom first.count (second :: rest)).map CountedBucket.bucket).getLast?.map
      Bucket.cumulativeCount).getD (number first.count) = number observations := by
    rw [getLast?_map, getLast?_raise first (cons_ne_nil _ _), Option.map_map]
    obtain ⟨b, hb, rfl⟩ := Option.map_eq_some_iff.mp hlast
    rw [hb]
    rfl
  have hsome : exact.eq (number observations) (exact.ofNat 0) = false := by
    rw [exact_ofNat, exact_eq, Nat.cast_zero, decide_eq_false_iff_not]
    exact_mod_cast hpos.ne'
  unfold sortedBuckets at hlevels
  unfold BucketNumbers.quantile
  rw [if_neg (show ¬exact.isNaN (number phi) = true from Bool.noConfusion), if_neg (by rw [hlow]; exact Bool.noConfusion),
    if_neg (by rw [hhigh]; exact Bool.noConfusion)]
  dsimp only
  rw [hlevels]
  show (if _ then _ else _) = _
  rw [hlastBucket, if_neg (by rw [hinfinite]; exact Bool.noConfusion)]
  have hfirst : first.bucket.cumulativeCount = number first.count := rfl
  rw [map_cons] at hrepair
  rw [hfirst, hrepair, hcount, hsome]
  rfl

/-- An annotation is that of the repair. -/
theorem forced_of_marked (hlevels : exact.coalesce (sortedBuckets buckets) =
      .ok (levels.map CountedBucket.bucket)) {phi : ExactNumber} {result : QuantileResult ExactNumber}
    (h : exact.quantile phi (buckets.map CountedBucket.bucket) = .ok result) (hne : result.annotations ≠ []) :
    forced levels = true := by
  have hnone {value : ExactNumber} (heq : (.ok ⟨value, []⟩ : Except SemanticError _) = .ok result) :
      forced levels = true := absurd (congrArg QuantileResult.annotations (Except.ok.inj heq)).symm hne
  unfold sortedBuckets at hlevels
  unfold BucketNumbers.quantile at h
  by_cases hnan : exact.isNaN phi = true
  · exact hnone ((if_pos hnan).symm.trans h)
  rw [if_neg hnan] at h
  by_cases hlow : exact.lt phi (exact.ofNat 0) = true
  · exact hnone ((if_pos hlow).symm.trans h)
  rw [if_neg hlow] at h
  by_cases hhigh : exact.lt (exact.ofNat 1) phi = true
  · exact hnone ((if_pos hhigh).symm.trans h)
  rw [if_neg hhigh] at h
  dsimp only at h
  rw [hlevels] at h
  match levels with
  | [] => exact hnone h
  | [_] => exact hnone h
  | first :: second :: rest =>
    replace h : (if _ then _ else _) = _ := h
    split at h
    · exact hnone h
    · have hannotations : result.annotations = BucketNumbers.annotations (forced (first :: second :: rest)) := by
        replace h : (if _ then _ else _) = _ := h
        split at h
        · rw [← Except.ok.inj h]
          rfl
        · rw [← Except.ok.inj h]
          rfl
      rw [hannotations] at hne
      by_contra hforced
      exact hne (if_neg hforced)

/-- Where a count is repaired beyond the tolerance, one decreases. -/
theorem exists_decrease_of_forced (h : forced levels = true) :
    ∃ (i : ℕ) (hi : i + 1 < levels.length), levels[i + 1].count < levels[i].count := by
  have hnot : ¬(levels.map CountedBucket.count).Pairwise (· ≤ ·) := by
    intro hordered
    match levels with
    | first :: rest =>
      have hkept := congrArg Prod.snd (repairFrom_of_ordered hordered)
      exact Bool.noConfusion (h.symm.trans hkept)
  obtain ⟨i, hi, hlt⟩ := exists_decrease hnot
  rw [length_map] at hi
  exact ⟨i, hi, by simpa using hlt⟩

/-- The last of the levels is the infinite one. -/
theorem Levels.last_infinite (h : Levels buckets levels) (htop : ∃ b ∈ buckets, b.upperBound = ⊤)
    {last : CountedBucket} (hlast : levels.getLast? = some last) : last.upperBound = ⊤ := by
  obtain ⟨b, hb, hinf⟩ := htop
  obtain ⟨x, hx, hbound, -⟩ := h.exists_level hb
  have hle := le_getLast (h.ordered.imp le_of_lt) (fun a => le_refl a.upperBound) hx hlast
  rw [hbound, hinf] at hle
  exact top_le_iff.mp hle

/-- Two bounds make two levels. -/
theorem Levels.two (h : Levels buckets levels)
    (htwo : ∃ b ∈ buckets, ∃ c ∈ buckets, b.upperBound ≠ c.upperBound) :
    ∃ first second rest, levels = first :: second :: rest := by
  obtain ⟨b, hb, c, hc, hne⟩ := htwo
  obtain ⟨x, hx, hxb, -⟩ := h.exists_level hb
  obtain ⟨y, hy, hyc, -⟩ := h.exists_level hc
  match levels with
  | first :: second :: rest => exact ⟨first, second, rest, rfl⟩
  | [_] =>
    rw [mem_singleton] at hx hy
    rw [← hxb, ← hyc, hx, hy] at hne
    exact absurd rfl hne
  | [] => exact absurd hx not_mem_nil

/-- A count that is not zero is not lost. -/
theorem observations_pos (h : Levels buckets levels) (hpos : ∃ b ∈ buckets, 0 < b.count)
    (hlast : (raise levels).getLast?.map CountedBucket.count = some observations) : 0 < observations := by
  obtain ⟨b, hb, hcount⟩ := hpos
  obtain ⟨x, hx, -, hle⟩ := h.exists_level hb
  obtain ⟨y, hy, hle'⟩ := le_raise hx
  rw [← getLast?_map] at hlast
  have hlargest := le_getLast (raise_ordered levels) le_refl (mem_map_of_mem hy) hlast
  exact hcount.trans_le (hle.trans (hle'.trans hlargest))

/-- The quantile over exact numbers. The order of the buckets does not matter, nor how a count is split over
buckets of one bound. With two bounds, an infinite one and a count it is in the bucket of the repaired counts
that the rank falls into, and it grows with `phi`. The repair leaves counts that do not decrease as they are,
and an annotation is only made if one does. -/
theorem quantile_means (buckets : List CountedBucket) :
    (∀ phi buckets', buckets.Perm buckets' →
      exact.quantile phi (buckets.map CountedBucket.bucket) =
        exact.quantile phi (buckets'.map CountedBucket.bucket)) ∧
    (∀ phi before after bound counts, counts ≠ [] → buckets = before ++ ⟨bound, counts.sum⟩ :: after →
      exact.quantile phi (buckets.map CountedBucket.bucket) =
        exact.quantile phi
          ((before ++ counts.map (CountedBucket.mk bound) ++ after).map CountedBucket.bucket)) ∧
    ∃ levels, exact.coalesce (sortedBuckets buckets) = .ok (levels.map CountedBucket.bucket) ∧
      Levels buckets levels ∧
      (∀ first rest, levels = first :: rest →
        (exact.repairFrom (number first.count) (rest.map CountedBucket.bucket)).1 =
            (raise levels).tail.map CountedBucket.bucket ∧
          ((levels.map CountedBucket.count).Pairwise (· ≤ ·) →
            exact.repairFrom (number first.count) (rest.map CountedBucket.bucket) =
              (rest.map CountedBucket.bucket, false))) ∧
      (∀ phi result, exact.quantile phi (buckets.map CountedBucket.bucket) = .ok result →
        result.annotations ≠ [] →
        ∃ (i : ℕ) (hi : i + 1 < levels.length), levels[i + 1].count < levels[i].count) ∧
      ((∃ b ∈ buckets, ∃ c ∈ buckets, b.upperBound ≠ c.upperBound) → (∃ b ∈ buckets, b.upperBound = ⊤) →
        (∃ b ∈ buckets, 0 < b.count) →
        ∃ observations annotations,
          (raise levels).getLast?.map CountedBucket.count = some observations ∧ 0 < observations ∧
          (∀ phi, 0 ≤ phi → phi ≤ 1 → ∃ value i lower b,
            exact.quantile (number phi) (buckets.map CountedBucket.bucket) =
              .ok ⟨number value, annotations⟩ ∧
            InBucket (raise levels) (phi * observations) i ∧ lowerEdge (raise levels) i = some lower ∧
            (raise levels)[i]? = some b ∧ lower ≤ value ∧ value ≤ b.upperBound) ∧
          ∀ phi psi, 0 ≤ phi → phi ≤ psi → psi ≤ 1 → ∃ value value',
            exact.quantile (number phi) (buckets.map CountedBucket.bucket) =
              .ok ⟨number value, annotations⟩ ∧
            exact.quantile (number psi) (buckets.map CountedBucket.bucket) =
              .ok ⟨number value', annotations⟩ ∧ value ≤ value') := by
  obtain ⟨levels, hlevels, hmeans⟩ := coalesce_levels buckets
  refine ⟨?_, ?_, levels, hlevels, hmeans, ?_, ?_, ?_⟩
  · intro phi buckets' hperm
    exact quantile_of_totals (fun bound => by simp only [hperm.mem_iff]) (total_perm hperm) phi
  · rintro phi before after bound counts hne rfl
    exact quantile_split before after bound hne phi
  · rintro first rest rfl
    exact ⟨repairFrom_raises first.count rest, repairFrom_of_ordered⟩
  · intro phi result hresult hne
    exact exists_decrease_of_forced (forced_of_marked hlevels hresult hne)
  · intro htwo htop hpos
    obtain ⟨first, second, rest, rfl⟩ := hmeans.two htwo
    obtain ⟨observations, hlast⟩ : ∃ observations,
        (raise (first :: second :: rest)).getLast?.map CountedBucket.count = some observations := by
      rw [raise, getLast?_eq_some_getLast (cons_ne_nil _ _)]
      exact ⟨_, rfl⟩
    have hinfinite := hmeans.last_infinite htop (getLast?_eq_some_getLast (cons_ne_nil _ _))
    rw [getLast_cons (cons_ne_nil _ _)] at hinfinite
    have hordered := hmeans.ordered
    rw [← pairwise_map, ← raise_bounds, pairwise_map] at hordered
    have hlength : 2 ≤ (raise (first :: second :: rest)).length := by
      have hbounds := congrArg List.length (raise_bounds (first :: second :: rest))
      simp only [length_map, length_cons] at hbounds
      omega
    have hobservations := observations_pos hmeans hpos hlast
    have hvalue (phi : ℚ) (hphi : 0 ≤ phi) (hphi' : phi ≤ 1) : ∃ i value,
        exact.quantile (number phi) (buckets.map CountedBucket.bucket) =
          .ok ⟨number value, BucketNumbers.annotations (forced (first :: second :: rest))⟩ ∧
        ValueIn (raise (first :: second :: rest)) (phi * observations) i value := by
      obtain ⟨i, value, hquantile, hin⟩ := quantileIn_value hordered hlength hlast hphi hphi'
      refine ⟨i, value, ?_, hin⟩
      rw [quantile_of_levels hlevels hinfinite hlast hobservations hphi hphi', hquantile]
    refine ⟨observations, BucketNumbers.annotations (forced (first :: second :: rest)), hlast, hobservations,
      ?_, ?_⟩
    · intro phi hphi hphi'
      obtain ⟨i, value, hquantile, hin⟩ := hvalue phi hphi hphi'
      obtain ⟨lower, b, hlower, hb, hlow, hhigh⟩ := hin.edges hordered
      exact ⟨value, i, lower, b, hquantile, hin.bucket, hlower, hb, hlow, hhigh⟩
    · intro phi psi hphi hle hpsi
      obtain ⟨i, value, hquantile, hin⟩ := hvalue phi hphi (hle.trans hpsi)
      obtain ⟨j, value', hquantile', hin'⟩ := hvalue psi (hphi.trans hle) hpsi
      refine ⟨value, value', hquantile, hquantile', hin.mono hin' hordered ?_⟩
      exact mul_le_mul_of_nonneg_right hle observations.cast_nonneg

/-- Three buckets that are not in order. -/
def latencyBuckets : List CountedBucket := [⟨⊤, 10⟩, ⟨(1 : ℚ), 4⟩, ⟨(2 : ℚ), 8⟩]

/-- A median of three buckets, in both orders and with one of them split. -/
theorem latency_quantiles :
    exact.quantile (number (1 / 2)) (latencyBuckets.map CountedBucket.bucket) =
      exact.quantile (number (1 / 2)) (latencyBuckets.reverse.map CountedBucket.bucket) ∧
    exact.quantile (number (1 / 2)) (latencyBuckets.map CountedBucket.bucket) =
      exact.quantile (number (1 / 2)) (([⟨⊤, 3⟩, ⟨⊤, 7⟩, ⟨(1 : ℚ), 4⟩, ⟨(2 : ℚ), 8⟩] : List CountedBucket).map
        CountedBucket.bucket) ∧
    ∃ value value' annotations,
      exact.quantile (number (1 / 2)) (latencyBuckets.map CountedBucket.bucket) =
        .ok ⟨number value, annotations⟩ ∧
      exact.quantile (number (3 / 4)) (latencyBuckets.map CountedBucket.bucket) =
        .ok ⟨number value', annotations⟩ ∧ value ≤ value' := by
  obtain ⟨hperm, hsplit, levels, -, -, -, -, hvalues⟩ := quantile_means latencyBuckets
  obtain ⟨-, annotations, -, -, -, hmono⟩ := hvalues
    ⟨_, mem_cons_self, _, mem_cons_of_mem _ mem_cons_self, WithTop.top_ne_coe⟩
    ⟨_, mem_cons_self, rfl⟩ ⟨_, mem_cons_self, by norm_num⟩
  obtain ⟨value, value', hvalue, hvalue', hle⟩ := hmono (1 / 2) (3 / 4) (by norm_num) (by norm_num) (by norm_num)
  refine ⟨hperm _ _ (reverse_perm _).symm, ?_, value, value', annotations, hvalue, hvalue', hle⟩
  exact hsplit _ [] [⟨(1 : ℚ), 4⟩, ⟨(2 : ℚ), 8⟩] ⊤ [3, 7] (cons_ne_nil _ _) (by norm_num [latencyBuckets])

end

end Imbh.Lgtm
