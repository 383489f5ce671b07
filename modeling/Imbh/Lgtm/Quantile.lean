import Imbh.Lgtm.Rate

/-!
# Histogram quantiles

The quantile of a classic histogram over numbers of any kind, of which doubles are one.
-/

namespace Imbh.Lgtm

open Lib List

/-- The numbers that a quantile is computed with. `boundLe` is the order that buckets are sorted in. -/
structure BucketNumbers (α : Type) extends Numbers α where
  eq : α → α → Bool
  boundLe : α → α → Bool
  isNaN : α → Bool
  abs : α → α
  tolerance : α
  infinity : α
  negInfinity : α
  nan : α

/-- A `ClassicHistogramBucket` of numbers of any kind. -/
structure Bucket (α : Type) where
  upperBound : α
  cumulativeCount : α

/-- A `HistogramQuantileResult` of numbers of any kind. -/
structure QuantileResult (α : Type) where
  value : α
  annotations : List Annotation

namespace BucketNumbers

section

variable {α : Type} (n : BucketNumbers α)

/-- Source: `promql.rs` `classic_histogram_quantile`, the check of a bucket -/
def valid (b : Bucket α) : Bool :=
  !(n.isNaN b.upperBound || n.isNaN b.cumulativeCount || n.lt b.cumulativeCount (n.ofNat 0))

/-- The buckets after `previous`, one for each upper bound. -/
def coalesceFrom (previous : Bucket α) : List (Bucket α) → Except SemanticError (List (Bucket α))
  | [] => .ok [previous]
  | b :: l =>
      if n.valid b = false then .error (.malformed "invalid classic histogram bucket".toList)
      else if n.eq previous.upperBound b.upperBound then
        coalesceFrom ⟨previous.upperBound, n.add previous.cumulativeCount b.cumulativeCount⟩ l
      else do
        let rest ← coalesceFrom b l
        return previous :: rest

/-- Source: `promql.rs` `classic_histogram_quantile`, the buckets of one upper bound put together -/
def coalesce : List (Bucket α) → Except SemanticError (List (Bucket α))
  | [] => .ok []
  | b :: l =>
      if n.valid b = false then .error (.malformed "invalid classic histogram bucket".toList)
      else n.coalesceFrom b l

/-- Source: `promql.rs` `classic_histogram_quantile`, the repair of the counts after `previous` -/
def repairFrom (previous : α) : List (Bucket α) → List (Bucket α) × Bool
  | [] => ([], false)
  | b :: l =>
      if n.le previous b.cumulativeCount then
        let (rest, forced) := repairFrom b.cumulativeCount l
        (b :: rest, forced)
      else
        let difference := n.sub previous b.cumulativeCount
        let scale := n.add (n.abs previous) (n.abs b.cumulativeCount)
        let beyond := n.lt (n.mul n.tolerance scale) difference
        let (rest, forced) := repairFrom previous l
        (⟨b.upperBound, previous⟩ :: rest, beyond || forced)

/-- Source: `promql.rs` `classic_histogram_quantile`, the interpolation in the bucket of the rank -/
def quantileIn (phi : α) (buckets : List (Bucket α)) (observations : α) : α :=
  let rank := n.mul phi observations
  let index := (buckets.findIdx? fun b => n.le rank b.cumulativeCount).getD (buckets.length - 1)
  let before := buckets[index - 1]?
  if index = buckets.length - 1 then (before.map Bucket.upperBound).getD n.nan
  else
    match buckets[index]? with
    | none => n.nan
    | some bucket =>
        if index = 0 && n.le bucket.upperBound (n.ofNat 0) then bucket.upperBound
        else
          let lower := if index = 0 then n.ofNat 0 else (before.map Bucket.upperBound).getD (n.ofNat 0)
          let count := if index = 0 then n.ofNat 0 else (before.map Bucket.cumulativeCount).getD (n.ofNat 0)
          let bucketCount := n.sub bucket.cumulativeCount count
          let withinBucket := n.sub rank count
          if n.eq bucketCount (n.ofNat 0) then lower
          else n.add lower (n.mul (n.sub bucket.upperBound lower) (n.div withinBucket bucketCount))

/-- The annotation of a repair. -/
def annotations (forced : Bool) : List Annotation :=
  if forced then
    [⟨"promql_histogram_monotonicity_repaired".toList,
      "input to histogram_quantile required monotonicity repair".toList⟩] else []

/-- Source: `promql.rs` `classic_histogram_quantile` -/
def quantile (phi : α) (buckets : List (Bucket α)) : Except SemanticError (QuantileResult α) :=
  if n.isNaN phi then return ⟨n.nan, []⟩
  else if n.lt phi (n.ofNat 0) then return ⟨n.negInfinity, []⟩
  else if n.lt (n.ofNat 1) phi then return ⟨n.infinity, []⟩
  else do
    let sorted := buckets.insertionSort fun l r => n.boundLe l.upperBound r.upperBound = true
    match ← n.coalesce sorted with
    | first :: second :: rest =>
        let last := (second :: rest).getLast (cons_ne_nil _ _)
        if n.eq last.upperBound n.infinity = false then return ⟨n.nan, []⟩
        else
          let (repaired, forced) := n.repairFrom first.cumulativeCount (second :: rest)
          let observations :=
            ((repaired.getLast?).map Bucket.cumulativeCount).getD first.cumulativeCount
          if n.eq observations (n.ofNat 0) then return ⟨n.nan, annotations forced⟩
          else return ⟨n.quantileIn phi (first :: repaired) observations, annotations forced⟩
    | _ => return ⟨n.nan, []⟩

end

/-- The doubles, with the arithmetic that is given. -/
def doubles (arith : Arith) : BucketNumbers F64 where
  toNumbers := Numbers.doubles arith
  eq := F64.eq
  boundLe l r := decide (F64.rank l ≤ F64.rank r)
  isNaN := F64.isNaN
  abs := fAbs
  tolerance := 0x3d719799812dea11
  infinity := fInfinity
  negInfinity := fNegInfinity
  nan := fNaN

end BucketNumbers

/-! ## Doubles -/

section

variable (arith : Arith)

/-- A bucket of doubles. -/
def ClassicHistogramBucket.bucket (b : ClassicHistogramBucket) : Bucket F64 :=
  ⟨b.upperBound, b.cumulativeCount⟩

/-- A result of doubles. -/
def HistogramQuantileResult.result (r : HistogramQuantileResult) : QuantileResult F64 :=
  ⟨r.value, r.annotations⟩

/-- Coalescing buckets behind one is the generic body over doubles. -/
theorem coalesceFrom_doubles (previous : ClassicHistogramBucket) (buckets : List ClassicHistogramBucket) :
    (BucketNumbers.doubles arith).coalesceFrom previous.bucket (buckets.map ClassicHistogramBucket.bucket) =
      (coalesceFrom arith previous buckets).map (List.map ClassicHistogramBucket.bucket) := by
  induction buckets generalizing previous with
  | nil => rfl
  | cons b buckets ih =>
    have hvalid : (BucketNumbers.doubles arith).valid b.bucket = b.valid := rfl
    rw [map_cons, BucketNumbers.coalesceFrom, coalesceFrom, hvalid]
    by_cases hbad : b.valid = false
    · rw [if_pos hbad, if_pos hbad]
      rfl
    · rw [if_neg hbad, if_neg hbad]
      by_cases heq : F64.eq previous.upperBound b.upperBound = true
      · rw [if_pos heq]
        exact (if_pos heq).trans (ih ⟨previous.upperBound, _⟩)
      · rw [if_neg heq]
        refine (if_neg heq).trans ?_
        rw [ih b]
        rcases coalesceFrom arith b buckets with e | rest <;> rfl

/-- So is coalescing them. -/
theorem coalesce_doubles (buckets : List ClassicHistogramBucket) :
    (BucketNumbers.doubles arith).coalesce (buckets.map ClassicHistogramBucket.bucket) =
      (coalesce arith buckets).map (List.map ClassicHistogramBucket.bucket) := by
  match buckets with
  | [] => rfl
  | b :: buckets =>
    have hvalid : (BucketNumbers.doubles arith).valid b.bucket = b.valid := rfl
    rw [map_cons, BucketNumbers.coalesce, coalesce, hvalid]
    split
    · rfl
    · exact coalesceFrom_doubles arith b buckets

/-- So is the repair. -/
theorem repairFrom_doubles (previous : F64) (buckets : List ClassicHistogramBucket) :
    (BucketNumbers.doubles arith).repairFrom previous (buckets.map ClassicHistogramBucket.bucket) =
      ((repairFrom arith previous buckets).1.map ClassicHistogramBucket.bucket,
        (repairFrom arith previous buckets).2) := by
  induction buckets generalizing previous with
  | nil => rfl
  | cons b buckets ih =>
    rw [map_cons, BucketNumbers.repairFrom, repairFrom]
    by_cases hle : fLe previous b.cumulativeCount = true
    · rw [if_pos hle]
      refine (if_pos hle).trans ?_
      have hrest := ih b.cumulativeCount
      dsimp only
      rw [show (b.bucket).cumulativeCount = b.cumulativeCount from rfl, hrest]
      rfl
    · rw [if_neg hle]
      refine (if_neg hle).trans ?_
      dsimp only
      rw [ih previous]
      rfl

/-- So is finding the bucket and the value in it. -/
theorem quantileIn_doubles (phi observations : F64) (buckets : List ClassicHistogramBucket) :
    (BucketNumbers.doubles arith).quantileIn phi (buckets.map ClassicHistogramBucket.bucket) observations =
      quantileIn arith phi buckets observations := by
  have hindex (rank : F64) :
      (buckets.map ClassicHistogramBucket.bucket).findIdx?
          (fun b => (BucketNumbers.doubles arith).le rank b.cumulativeCount) =
        buckets.findIdx? fun b => fLe rank b.cumulativeCount := findIdx?_map
  have hrank : (BucketNumbers.doubles arith).mul phi observations = arith.mul phi observations := rfl
  unfold BucketNumbers.quantileIn quantileIn
  dsimp only
  rw [hindex, hrank, length_map, getElem?_map, getElem?_map]
  generalize (buckets.findIdx? _).getD _ = index
  have hzero : (BucketNumbers.doubles arith).ofNat 0 = 0 := rfl
  rw [hzero]
  rcases buckets[index]? with b | b
  · rcases buckets[index - 1]? with c | c
    · rfl
    · rfl
  · rcases buckets[index - 1]? with c | c
    · rfl
    · rfl

/-- Over doubles it is the quantile of the evaluator. -/
theorem quantile_doubles (phi : F64) (buckets : List ClassicHistogramBucket) :
    (BucketNumbers.doubles arith).quantile phi (buckets.map ClassicHistogramBucket.bucket) =
      (classicHistogramQuantile arith phi buckets).map HistogramQuantileResult.result := by
  have hsort : ((buckets.map ClassicHistogramBucket.bucket).insertionSort
      fun l r => (BucketNumbers.doubles arith).boundLe l.upperBound r.upperBound = true) =
      (buckets.insertionSort fun l r => F64.rank l.upperBound ≤ F64.rank r.upperBound).map
        ClassicHistogramBucket.bucket := by
    refine (map_insertionSort _ _ _ _ fun a _ b _ => ?_).symm
    exact decide_eq_true_iff.symm
  unfold BucketNumbers.quantile classicHistogramQuantile
  dsimp only
  rw [hsort, coalesce_doubles]
  generalize (buckets.insertionSort fun l r => F64.rank l.upperBound ≤ F64.rank r.upperBound) = sorted
  rw [apply_ite (Except.map _), apply_ite (Except.map _), apply_ite (Except.map _)]
  refine if_congr Iff.rfl rfl (if_congr Iff.rfl rfl (if_congr Iff.rfl rfl ?_))
  rcases coalesce arith sorted with e | out
  · rfl
  match out with
  | [] => rfl
  | [_] => rfl
  | first :: second :: rest =>
    have hlast : (second.bucket :: rest.map ClassicHistogramBucket.bucket).getLast (cons_ne_nil _ _) =
        ((second :: rest).getLast (cons_ne_nil _ _)).bucket :=
      getLast_map (l := second :: rest) (f := ClassicHistogramBucket.bucket) (cons_ne_nil _ _)
    have hrepair : (BucketNumbers.doubles arith).repairFrom first.bucket.cumulativeCount
          (second.bucket :: rest.map ClassicHistogramBucket.bucket) = _ :=
      repairFrom_doubles arith first.cumulativeCount (second :: rest)
    obtain ⟨repaired, hrepaired⟩ : ∃ repaired, repairFrom arith first.cumulativeCount (second :: rest) =
        repaired := ⟨_, rfl⟩
    rw [hrepaired] at hrepair
    have hcounts : (repaired.1.map ClassicHistogramBucket.bucket).getLast?.map Bucket.cumulativeCount =
        repaired.1.getLast?.map ClassicHistogramBucket.cumulativeCount := by
      rw [getLast?_map, Option.map_map]
      rfl
    show (if _ then _ else _) = Except.map _ (if _ then _ else _)
    rw [apply_ite (Except.map _), hlast, hrepair, hrepaired, hcounts]
    refine if_congr Iff.rfl rfl ?_
    show (if _ then _ else _) = Except.map _ (if _ then _ else _)
    rw [apply_ite (Except.map _)]
    refine if_congr Iff.rfl rfl ?_
    exact congrArg (fun value => Except.ok (QuantileResult.mk value (BucketNumbers.annotations repaired.2)))
      (quantileIn_doubles arith phi _ (first :: repaired.1))

end

end Imbh.Lgtm
