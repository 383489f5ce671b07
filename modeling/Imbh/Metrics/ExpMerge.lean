import Mathlib.Tactic.Positivity
import Imbh.Lib.Entries
import Imbh.Lib.Instants

/-!
# Merging exponential histograms (`metrics.rs`)

The points of a group are brought to their coarsest scale, at which the index of a bucket is divided, and the counts
of each index are added up in a sparse map. The map becomes a vector of counts unless it is too wide. What is then
computed from the vectors is a parameter, and so is the NaN.

* `merge_exact` — the merged buckets are the sums of the buckets that fall into them, in any order and grouping.
-/

namespace Imbh.Metrics

open Lib List Option

/-! ## Counts -/

/-- `u64::MAX` -/
def maxCount : ℕ := 2 ^ 64 - 1

/-- A sum as the saturating sums leave it. -/
def saturate (n : ℕ) : ℕ := min maxCount n

/-- `i32::saturating_add` -/
def saturatingAddI32 (a b : ℤ) : ℤ := max (-2 ^ 31) (min (2 ^ 31 - 1) (a + b))

/-- A number as an `i32`, wrapped around. -/
def wrapI32 (n : ℤ) : ℤ := (n + 2 ^ 31) % 2 ^ 32 - 2 ^ 31

/-- The fields of a point. The lists are those of a list column, whose offsets are `i32`.
Source: `metrics.rs` `ExpPoint` -/
structure ExpPoint where
  scale : ℤ
  zeroCount : ℕ
  positiveOffset : ℤ
  positiveCounts : List ℕ
  negativeOffset : ℤ
  negativeCounts : List ℕ
  positive_length : positiveCounts.length < 2 ^ 31
  negative_length : negativeCounts.length < 2 ^ 31

/-- A `BTreeMap` from the index of a bucket to its count. -/
abbrev BucketMap : Type := List (ℤ × ℕ)

/-- One count is added to a bucket.
Source: `metrics.rs` `exp_merged_quantile`, `slot.saturating_add` -/
def addCount (map : BucketMap) (e : ℤ × ℕ) : BucketMap :=
  if e.2 ≠ 0 then putEntry e.1 (fun slot => saturate (slot.getD 0 + e.2)) map else map

/-- Where the counts go: the index saturates and is shifted. -/
def shifted (offset : ℤ) (delta : ℕ) (counts : List ℕ) : List (ℤ × ℕ) :=
  counts.zipIdx.map fun ci => (saturatingAddI32 offset (wrapI32 ci.2) >>> delta, ci.1)

/-- The sums of a group at the coarsest scale. -/
structure Merged where
  scale : ℤ
  zero : ℕ
  positive : BucketMap
  negative : BucketMap
  deriving DecidableEq

/-- Source: `metrics.rs` `exp_merged_quantile`, `delta` -/
def downScale (scale minScale : ℤ) : ℕ := (max 0 (min 31 (scale - minScale))).toNat

/-- Source: `metrics.rs` `exp_merged_quantile`, the loop -/
def mergePoint (m : Merged) (p : ExpPoint) : Merged :=
  let delta := downScale p.scale m.scale
  { m with
    zero := saturate (m.zero + p.zeroCount)
    positive := (shifted p.positiveOffset delta p.positiveCounts).foldl addCount m.positive
    negative := (shifted p.negativeOffset delta p.negativeCounts).foldl addCount m.negative }

/-- Source: `metrics.rs` `exp_merged_quantile`, without the quantile -/
def mergePoints (points : List ExpPoint) : Option Merged :=
  (points.map ExpPoint.scale).min?.map fun minScale => points.foldl mergePoint ⟨minScale, 0, [], []⟩

/-- Source: `metrics.rs` `densify`, `MAX_SPAN` -/
def maxSpan : ℤ := 2 ^ 20

/-- Source: `metrics.rs` `densify` -/
def densify : BucketMap → Option (ℤ × List ℕ)
  | [] => some (0, [])
  | e :: es =>
      let least := e.1
      let greatest := ((e :: es).getLast (cons_ne_nil e es)).1
      let span := greatest - least + 1
      if maxSpan < span then none
      else some (least, (e :: es).foldl (fun counts kv => counts.set (kv.1 - least).toNat kv.2)
        (List.replicate span.toNat 0))

section

variable {Phi F : Type} (nan : F) (expHistogramQuantile : Phi → ℤ → ℕ → ℤ → List ℕ → ℤ → List ℕ → F)

/-- Source: `metrics.rs` `exp_merged_quantile` -/
def expMergedQuantile (phi : Phi) (points : List ExpPoint) : F :=
  match mergePoints points with
  | none => nan
  | some m =>
      match densify m.positive, densify m.negative with
      | some (po, pc), some (no, nc) => expHistogramQuantile phi m.scale m.zero po pc no nc
      | _, _ => nan

end

theorem saturate_add (a b : ℕ) : saturate (saturate a + b) = saturate (a + b) := by
  unfold saturate
  omega

theorem saturate_add_right (a b : ℕ) : saturate (a + saturate b) = saturate (a + b) := by
  unfold saturate
  omega

theorem saturate_eq_zero {n : ℕ} : saturate n = 0 ↔ n = 0 := by
  unfold saturate maxCount
  omega

theorem saturate_saturate (n : ℕ) : saturate (saturate n) = saturate n := saturate_add n 0

/-! ## What a map holds -/

/-- The counts of the indices that satisfy a condition. -/
def weight (p : ℤ → Bool) (l : List (ℤ × ℕ)) : ℕ := ((l.filter fun e => p e.1).map Prod.snd).sum

@[simp] theorem weight_nil (p : ℤ → Bool) : weight p [] = 0 := rfl

theorem weight_cons (p : ℤ → Bool) (e : ℤ × ℕ) (l : List (ℤ × ℕ)) :
    weight p (e :: l) = (if p e.1 then e.2 else 0) + weight p l := by
  unfold weight
  rw [filter_cons]
  split <;> simp

theorem weight_append (p : ℤ → Bool) (l l' : List (ℤ × ℕ)) : weight p (l ++ l') = weight p l + weight p l' := by
  simp [weight]

theorem weight_perm (p : ℤ → Bool) {l l' : List (ℤ × ℕ)} (h : l.Perm l') : weight p l = weight p l' :=
  ((h.filter _).map Prod.snd).sum_eq

/-- Zeros weigh nothing. -/
theorem weight_filter (p : ℤ → Bool) (l : List (ℤ × ℕ)) : weight p (l.filter fun e => e.2 ≠ 0) = weight p l := by
  induction l with
  | nil => rfl
  | cons e l ih =>
    rw [weight_cons, filter_cons]
    by_cases hzero : e.2 = 0
    · simp [hzero, ← ih]
    · simp [hzero, weight_cons, ← ih]

theorem weight_map (p : ℤ → Bool) (f : ℤ → ℤ) (l : List (ℤ × ℕ)) :
    weight p (l.map fun e => (f e.1, e.2)) = weight (fun x => p (f x)) l := by
  induction l with
  | nil => rfl
  | cons e l ih => rw [map_cons, weight_cons, weight_cons, ih]

theorem weight_insertEntry (p : ℤ → Bool) (h : ℤ) (v : ℕ) (map : BucketMap) :
    weight p (insertEntry h v map) = (if p h then v else 0) + weight p map := by
  induction map with
  | nil => rw [insertEntry, weight_cons]
  | cons e map ih =>
    rw [insertEntry]
    split
    · rw [weight_cons]
    · rw [weight_cons, weight_cons, ih]
      exact Nat.add_left_comm _ _ _

variable {map : BucketMap} {counts : List ℕ}

theorem weight_modifyEntry (p : ℤ → Bool) (hs : Ascending map) {h : ℤ} {v : ℕ} (hv : (h, v) ∈ map) (f : ℕ → ℕ) :
    weight p (modifyEntry h f map) + (if p h then v else 0) = weight p map + if p h then f v else 0 := by
  induction map with
  | nil => exact absurd hv not_mem_nil
  | cons e map ih =>
    obtain ⟨hhead, htail⟩ := pairwise_cons.mp hs
    have hcons : modifyEntry h f (e :: map) = (if e.1 = h then (e.1, f e.2) else e) :: modifyEntry h f map := rfl
    rw [hcons, weight_cons, weight_cons]
    rcases mem_cons.mp hv with rfl | hv
    · have hrest : modifyEntry h f map = map := by
        have hid : map.map (fun e => if e.1 = h then (e.1, f e.2) else e) = map.map id :=
          map_congr_left fun e he => if_neg (hhead e he).ne'
        exact hid.trans (map_id map)
      rw [hrest, if_pos rfl]
      dsimp only
      omega
    · have hne : e.1 ≠ h := (hhead _ hv).ne
      have hrest := ih htail hv
      rw [if_neg hne]
      omega

/-- Every count of a list. -/
theorem weight_true (l : List (ℤ × ℕ)) : weight (fun _ => true) l = (l.map Prod.snd).sum := by
  rw [weight, filter_true]

/-- Ascending, with counts that are not zero and fit a `u64`. -/
structure Clean (map : BucketMap) : Prop where
  ascending : Ascending map
  pos : ∀ e ∈ map, 0 < e.2
  le : ∀ e ∈ map, e.2 ≤ maxCount

theorem Clean.nil : Clean [] := ⟨Pairwise.nil, fun _ h => absurd h not_mem_nil, fun _ h => absurd h not_mem_nil⟩

/-- One index weighs what the map has at it. -/
theorem weight_eq (hs : Ascending map) (x : ℤ) : weight (fun k => k = x) map = (valueAt map x).getD 0 := by
  unfold weight
  have hfilter : (map.filter fun e => decide (e.1 = x)) = ((valueAt map x).map fun v => (x, v)).toList :=
    hs.filter_key x
  rw [hfilter]
  rcases valueAt map x with _ | v <;> simp

/-- A map without zeros is determined by the weights. -/
theorem Clean.ext {map' : BucketMap} (h : Clean map) (h' : Clean map')
    (hweight : ∀ x, weight (fun k => k = x) map = weight (fun k => k = x) map') : map = map' := by
  apply h.ascending.ext_valueAt h'.ascending
  intro x
  have heq := hweight x
  rw [weight_eq h.ascending, weight_eq h'.ascending] at heq
  have hpos {m : BucketMap} (hm : Clean m) {v : ℕ} (hv : valueAt m x = some v) : 0 < v :=
    hm.pos _ (hm.ascending.valueAt_eq_some.mp hv)
  rcases hv : valueAt map x with _ | v
  · rcases hv' : valueAt map' x with _ | v'
    · rfl
    · rw [hv, hv'] at heq
      exact absurd heq.symm (hpos h' hv').ne'
  · rcases hv' : valueAt map' x with _ | v'
    · rw [hv, hv'] at heq
      exact absurd heq (hpos h hv).ne'
    · rw [hv, hv'] at heq
      exact congrArg some heq

theorem addCount_clean (h : Clean map) (e : ℤ × ℕ) : Clean (addCount map e) := by
  unfold addCount
  split
  · rename_i hne
    have hvalue (v : Option ℕ) : 0 < saturate (v.getD 0 + e.2) ∧ saturate (v.getD 0 + e.2) ≤ maxCount := by
      unfold saturate maxCount
      omega
    have hmem : ∀ x v, (x, v) ∈ putEntry e.1 (fun slot => saturate (slot.getD 0 + e.2)) map → 0 < v ∧ v ≤ maxCount := by
      intro x v hv
      rw [← (h.ascending.putEntry _ _).valueAt_eq_some, valueAt_putEntry h.ascending] at hv
      split at hv
      · rw [← some.inj hv]
        exact hvalue _
      · have hold := h.ascending.valueAt_eq_some.mp hv
        exact ⟨h.pos _ hold, h.le _ hold⟩
    exact ⟨h.ascending.putEntry _ _, fun e' he' => (hmem e'.1 e'.2 he').1, fun e' he' => (hmem e'.1 e'.2 he').2⟩
  · exact h

/-- A count weighs what it is, up to saturation. -/
theorem weight_addCount (p : ℤ → Bool) (h : Clean map) (e : ℤ × ℕ) :
    saturate (weight p (addCount map e)) = saturate (weight p map + if p e.1 then e.2 else 0) := by
  unfold addCount
  by_cases hzero : e.2 = 0
  · simp [hzero]
  · rw [if_pos hzero, putEntry]
    split
    · rename_i hold
      obtain ⟨v, hv⟩ := mem_keySet.mp (mem_toFinset.mpr hold)
      have hsum := weight_modifyEntry p h.ascending hv fun v => saturate (v + e.2)
      change saturate (weight p (modifyEntry e.1 (fun v => saturate (v + e.2)) map)) = _
      by_cases hp : p e.1 = true
      · -- the weight of the index is part of the whole
        have hpart : v ≤ weight p map :=
          single_le_sum (fun _ _ => Nat.zero_le _) v (mem_map.mpr ⟨_, mem_filter.mpr ⟨hv, hp⟩, rfl⟩)
        rw [if_pos hp, if_pos hp] at hsum
        rw [if_pos hp]
        unfold saturate at hsum ⊢
        omega
      · rw [if_neg hp, if_neg hp] at hsum
        rw [if_neg hp, ← hsum]
        rfl
    · rw [weight_insertEntry]
      change saturate ((if p e.1 then saturate (0 + e.2) else 0) + weight p map) = _
      split
      · rw [Nat.zero_add, saturate_add, Nat.add_comm]
      · rw [Nat.zero_add, Nat.add_zero]

/-- The counts of a list are added to a map, one after another. -/
theorem weight_deposit (p : ℤ → Bool) (h : Clean map) (l : List (ℤ × ℕ)) :
    Clean (l.foldl addCount map) ∧ saturate (weight p (l.foldl addCount map)) = saturate (weight p map + weight p l) := by
  induction l generalizing map with
  | nil => exact ⟨h, rfl⟩
  | cons e l ih =>
    obtain ⟨hclean, hweight⟩ := ih (addCount_clean h e)
    refine ⟨hclean, ?_⟩
    rw [foldl_cons, hweight, ← saturate_add, weight_addCount p h, saturate_add, weight_cons, Nat.add_assoc]

/-! ## Dense counts -/

/-- The buckets of a vector of counts: the index and the count of each. -/
def bucketsOf (offset : ℤ) (counts : List ℕ) : List (ℤ × ℕ) :=
  counts.zipIdx.map fun ci => (offset + ci.2, ci.1)

theorem mem_bucketsOf {offset : ℤ} {x : ℤ} {c : ℕ} :
    (x, c) ∈ bucketsOf offset counts ↔ ∃ i : ℕ, counts[i]? = some c ∧ x = offset + i := by
  unfold bucketsOf
  rw [List.mem_map]
  constructor
  · rintro ⟨⟨c', i⟩, hmem, heq⟩
    obtain ⟨rfl, rfl⟩ := Prod.mk.inj heq
    exact ⟨i, List.mem_zipIdx_iff_getElem?.mp hmem, rfl⟩
  · rintro ⟨i, hi, rfl⟩
    exact ⟨(c, i), List.mem_zipIdx_iff_getElem?.mpr hi, rfl⟩

theorem map_snd_bucketsOf (offset : ℤ) (counts : List ℕ) : (bucketsOf offset counts).map Prod.snd = counts := by
  unfold bucketsOf
  rw [List.map_map]
  exact List.zipIdx_map_fst 0 counts

theorem ascending_bucketsOf (offset : ℤ) (counts : List ℕ) : Ascending (bucketsOf offset counts) := by
  unfold bucketsOf Ascending
  rw [pairwise_map, pairwise_iff_getElem]
  intro i j hi hj hij
  rw [getElem_zipIdx, getElem_zipIdx]
  omega

/-- The last value that is set at a place. -/
theorem getElem?_foldl_set (hs : Ascending map) (least : ℤ) (hleast : ∀ e ∈ map, least ≤ e.1) (counts : List ℕ)
    {i : ℕ} (hi : i < counts.length) :
    (map.foldl (fun counts kv => counts.set (kv.1 - least).toNat kv.2) counts)[i]? =
      (valueAt map (least + i)).or counts[i]? := by
  induction map generalizing counts with
  | nil => rfl
  | cons e map ih =>
    obtain ⟨hhead, htail⟩ := pairwise_cons.mp hs
    have hge := hleast e mem_cons_self
    rw [foldl_cons, ih htail (fun e' he' => hleast e' (mem_cons_of_mem _ he')) _ (by rwa [length_set]),
      getElem?_set, valueAt, valueAt, find?_cons]
    by_cases heq : e.1 = least + i
    · have hplace : (e.1 - least).toNat = i := by omega
      have hnone : map.find? (fun e => e.1 = least + i) = none := by
        apply find?_eq_none.mpr
        intro e' he' heq'
        exact absurd (hhead e' he') (by rw [heq, of_decide_eq_true heq']; exact lt_irrefl _)
      rw [hnone, if_pos hplace, hplace, if_pos hi, decide_eq_true heq]
      rfl
    · have hplace : ¬(e.1 - least).toNat = i := by omega
      rw [if_neg hplace, decide_eq_false heq]

/-- The indices of a map are between its first and its last one. -/
theorem within_of_ascending {e : ℤ × ℕ} {es : BucketMap} (hs : Ascending (e :: es)) {e' : ℤ × ℕ} (he' : e' ∈ e :: es) :
    e.1 ≤ e'.1 ∧ e'.1 ≤ ((e :: es).getLast (cons_ne_nil e es)).1 := by
  have hle : (e :: es).Pairwise fun a b => a.1 ≤ b.1 := hs.imp le_of_lt
  have : Std.Refl fun a b : ℤ × ℕ => a.1 ≤ b.1 := ⟨fun _ => le_rfl⟩
  refine ⟨?_, hle.rel_getLast he'⟩
  rcases mem_cons.mp he' with rfl | he'
  · exact le_rfl
  · exact (pairwise_cons.mp hle).1 e' he'

/-- A map becomes a vector, if and only if no two of its indices are too far apart. -/
theorem densify_isSome_iff (hs : Ascending map) :
    (∃ dense, densify map = some dense) ↔ ∀ a ∈ map, ∀ b ∈ map, b.1 - a.1 < maxSpan := by
  rcases map with _ | ⟨e, es⟩
  · exact iff_of_true ⟨_, rfl⟩ fun a ha => absurd ha not_mem_nil
  · rw [densify]
    constructor
    · rintro ⟨dense, hdense⟩ a ha b hb
      have hleast := (within_of_ascending hs ha).1
      have hgreatest := (within_of_ascending hs hb).2
      split at hdense
      · exact nomatch hdense
      · omega
    · intro hnear
      have hspan := hnear e mem_cons_self _ (getLast_mem (cons_ne_nil e es))
      rw [if_neg (by omega)]
      exact ⟨_, rfl⟩

/-- What the vector of a map is: it starts at the least index, has the count of each index, and no other count is
left out. -/
theorem densify_spec (hs : Ascending map) {offset : ℤ} (h : densify map = some (offset, counts)) :
    (∀ i < counts.length, counts[i]? = some ((valueAt map (offset + i)).getD 0)) ∧
      (∀ x v, (x, v) ∈ map → offset ≤ x ∧ x < offset + counts.length) ∧ (counts.length : ℤ) ≤ maxSpan := by
  rcases map with _ | ⟨e, es⟩
  · obtain ⟨rfl, rfl⟩ := Prod.mk.inj (some.inj h)
    refine ⟨fun i hi => absurd hi (Nat.not_lt_zero i), fun x v hmem => absurd hmem not_mem_nil, ?_⟩
    unfold maxSpan
    decide
  · rw [densify] at h
    split at h
    · exact nomatch h
    · rename_i hspan
      obtain ⟨rfl, hcounts⟩ := Prod.mk.inj (some.inj h)
      set last := ((e :: es).getLast (cons_ne_nil e es)).1
      have hwide := (within_of_ascending hs mem_cons_self).2
      have hkeep (map : BucketMap) (l : List ℕ) :
          (map.foldl (fun counts kv => counts.set (kv.1 - e.1).toNat kv.2) l).length = l.length := by
        induction map generalizing l with
        | nil => rfl
        | cons kv map ih => rw [foldl_cons, ih, length_set]
      have hlen : counts.length = (last - e.1 + 1).toNat := by
        rw [← hcounts, hkeep, length_replicate]
      refine ⟨fun i hi => ?_, fun x v hmem => ?_, ?_⟩
      · have hi' : i < (List.replicate (last - e.1 + 1).toNat 0).length := by
          rw [length_replicate, ← hlen]
          exact hi
        rw [← hcounts, getElem?_foldl_set hs e.1 (fun e' he' => (within_of_ascending hs he').1) _ hi',
          getElem?_eq_getElem hi', getElem_replicate]
        rcases valueAt (e :: es) (e.1 + i) with _ | v <;> rfl
      · obtain ⟨hx, hx'⟩ := within_of_ascending hs hmem
        dsimp only at hx hx'
        omega
      · omega

/-- The buckets of the vector that are not empty are the entries of the map. -/
theorem filter_bucketsOf (h : Clean map) {offset : ℤ} (hdense : densify map = some (offset, counts)) :
    ((bucketsOf offset counts).filter fun e => e.2 ≠ 0) = map := by
  obtain ⟨hcounts, hwithin, -⟩ := densify_spec h.ascending hdense
  have hs : Ascending ((bucketsOf offset counts).filter fun e => e.2 ≠ 0) :=
    (ascending_bucketsOf offset counts).sublist List.filter_sublist
  apply hs.ext h.ascending
  rintro ⟨x, c⟩
  rw [List.mem_filter, mem_bucketsOf, decide_eq_true_eq]
  constructor
  · rintro ⟨⟨i, hi, rfl⟩, hne⟩
    have hlt := (List.getElem?_eq_some_iff.mp hi).1
    rw [hcounts i hlt] at hi
    rcases hvalue : valueAt map (offset + i) with _ | v
    · rw [hvalue] at hi
      exact absurd (Option.some.inj hi).symm hne
    · rw [hvalue] at hi
      rw [← h.ascending.valueAt_eq_some, hvalue]
      exact hi
  · intro hmem
    obtain ⟨hlow, hhigh⟩ := hwithin x c hmem
    have hplace : x = offset + (x - offset).toNat := by omega
    refine ⟨⟨(x - offset).toNat, ?_, hplace⟩, (h.pos _ hmem).ne'⟩
    rw [hcounts _ (by omega), ← hplace, h.ascending.valueAt_eq_some.mpr hmem]
    rfl

/-! ## Groups of points -/

/-- The sums of lists one after another. -/
theorem weight_flatMap {γ : Type} (p : ℤ → Bool) (f : γ → List (ℤ × ℕ)) (l : List γ) :
    weight p (l.flatMap f) = (l.map fun c => weight p (f c)).sum := by
  induction l with
  | nil => rfl
  | cons c l ih => rw [flatMap_cons, weight_append, ih, map_cons, sum_cons]

/-- A point's positive buckets: the index and the count of each. -/
def ExpPoint.positive (p : ExpPoint) : List (ℤ × ℕ) := bucketsOf p.positiveOffset p.positiveCounts

def ExpPoint.negative (p : ExpPoint) : List (ℤ × ℕ) := bucketsOf p.negativeOffset p.negativeCounts

/-- Indices of an `i32`, wherever something is counted. -/
def Indexed (l : List (ℤ × ℕ)) : Prop := ∀ e ∈ l, e.2 ≠ 0 → -2 ^ 31 ≤ e.1 ∧ e.1 < 2 ^ 31

/-- The width of a bucket at a scale, in buckets of the point. -/
def ExpPoint.ratio (p : ExpPoint) (scale : ℤ) : ℤ := 2 ^ (p.scale - scale).toNat

/-- What the loop does to a group, in terms of the whole group. -/
theorem foldl_mergePoint (m : Merged) (points : List ExpPoint) :
    points.foldl mergePoint m =
      { scale := m.scale
        zero := points.foldl (fun n p => saturate (n + p.zeroCount)) m.zero
        positive := (points.flatMap fun p =>
          shifted p.positiveOffset (downScale p.scale m.scale) p.positiveCounts).foldl addCount m.positive
        negative := (points.flatMap fun p =>
          shifted p.negativeOffset (downScale p.scale m.scale) p.negativeCounts).foldl addCount m.negative } := by
  induction points generalizing m with
  | nil => rfl
  | cons p points ih =>
    rw [foldl_cons, ih, flatMap_cons, flatMap_cons, foldl_append, foldl_append]
    rfl

theorem foldl_zeroCount (n : ℕ) (points : List ExpPoint) (hn : saturate n = n) :
    points.foldl (fun n p => saturate (n + p.zeroCount)) n = saturate (n + (points.map ExpPoint.zeroCount).sum) := by
  induction points generalizing n with
  | nil => exact hn.symm
  | cons p points ih =>
    rw [foldl_cons, ih _ (by unfold saturate; omega), saturate_add, map_cons, sum_cons, Nat.add_assoc]

/-- What the merge of a group is. -/
structure IsMerge (points : List ExpPoint) (m : Merged) : Prop where
  attained : ∃ p ∈ points, p.scale = m.scale
  coarsest : ∀ p ∈ points, m.scale ≤ p.scale
  zero : m.zero = saturate (points.map ExpPoint.zeroCount).sum
  positive : m.positive = (points.flatMap fun p =>
    shifted p.positiveOffset (downScale p.scale m.scale) p.positiveCounts).foldl addCount []
  negative : m.negative = (points.flatMap fun p =>
    shifted p.negativeOffset (downScale p.scale m.scale) p.negativeCounts).foldl addCount []

variable {points : List ExpPoint}

theorem mergePoints_spec {m : Merged} (h : mergePoints points = some m) : IsMerge points m := by
  unfold mergePoints at h
  rw [map_eq_some_iff] at h
  obtain ⟨least, hleast, rfl⟩ := h
  obtain ⟨hmem, hle⟩ := min?_eq_some_iff.mp hleast
  rw [foldl_mergePoint]
  refine ⟨?_, ?_, ?_, rfl, rfl⟩
  · obtain ⟨p, hp, hscale⟩ := mem_map.mp hmem
    exact ⟨p, hp, hscale⟩
  · intro p hp
    exact hle _ (mem_map_of_mem hp)
  · have hsum := foldl_zeroCount 0 points rfl
    rwa [Nat.zero_add] at hsum

theorem mergePoints_eq_none : mergePoints points = none ↔ points = [] := by
  simp [mergePoints]

/-- The maps of a merge have no zeros. -/
theorem IsMerge.clean {m : Merged} (h : IsMerge points m) : Clean m.positive ∧ Clean m.negative := by
  rw [h.positive, h.negative]
  exact ⟨(weight_deposit (fun _ => true) Clean.nil _).1, (weight_deposit (fun _ => true) Clean.nil _).1⟩

/-- One index never weighs more than a count can be. -/
theorem Clean.saturate_weight (h : Clean map) (x : ℤ) :
    saturate (weight (fun k => k = x) map) = weight (fun k => k = x) map := by
  rw [weight_eq h.ascending]
  rcases hvalue : valueAt map x with _ | v
  · rfl
  · exact min_eq_right (h.le _ (h.ascending.valueAt_eq_some.mp hvalue))

/-- Deposits that weigh the same at each index are the same map. -/
theorem foldl_addCount_congr {l l' : List (ℤ × ℕ)}
    (h : ∀ x, saturate (weight (fun k => k = x) l) = saturate (weight (fun k => k = x) l')) :
    l.foldl addCount [] = l'.foldl addCount [] := by
  have hdeposit (l : List (ℤ × ℕ)) (x : ℤ) := weight_deposit (fun k => k = x) Clean.nil l
  apply (hdeposit l 0).1.ext (hdeposit l' 0).1
  intro x
  rw [← (hdeposit l 0).1.saturate_weight, ← (hdeposit l' 0).1.saturate_weight, (hdeposit l x).2, (hdeposit l' x).2,
    weight_nil, Nat.zero_add, Nat.zero_add]
  exact h x

/-- The merge of a group is determined by the weights. -/
theorem mergePoints_congr {points' : List ExpPoint} {m m' : Merged} (h : IsMerge points m) (h' : IsMerge points' m')
    (hscale : m.scale = m'.scale)
    (hzero : saturate (points.map ExpPoint.zeroCount).sum = saturate (points'.map ExpPoint.zeroCount).sum)
    (hpositive : ∀ x, saturate (weight (fun k => k = x) (points.flatMap fun p =>
        shifted p.positiveOffset (downScale p.scale m.scale) p.positiveCounts)) =
      saturate (weight (fun k => k = x) (points'.flatMap fun p =>
        shifted p.positiveOffset (downScale p.scale m'.scale) p.positiveCounts)))
    (hnegative : ∀ x, saturate (weight (fun k => k = x) (points.flatMap fun p =>
        shifted p.negativeOffset (downScale p.scale m.scale) p.negativeCounts)) =
      saturate (weight (fun k => k = x) (points'.flatMap fun p =>
        shifted p.negativeOffset (downScale p.scale m'.scale) p.negativeCounts))) :
    m = m' := by
  have heqPositive := foldl_addCount_congr hpositive
  have heqNegative := foldl_addCount_congr hnegative
  rw [← h.positive, ← h'.positive] at heqPositive
  rw [← h.negative, ← h'.negative] at heqNegative
  rw [← h.zero, ← h'.zero] at hzero
  cases m
  cases m'
  exact Merged.mk.injEq .. ▸ ⟨hscale, hzero, heqPositive, heqNegative⟩

/-- The order of the points does not matter. -/
theorem mergePoints_perm {points' : List ExpPoint} (hperm : points.Perm points') :
    mergePoints points = mergePoints points' := by
  rcases hm : mergePoints points with _ | m
  · rw [mergePoints_eq_none.mp hm] at hperm
    rw [hperm.symm.eq_nil]
    rfl
  rcases hm' : mergePoints points' with _ | m'
  · rw [mergePoints_eq_none.mp hm'] at hperm
    rw [hperm.eq_nil] at hm
    exact nomatch hm
  have h := mergePoints_spec hm
  have h' := mergePoints_spec hm'
  have hscale : m.scale = m'.scale := by
    obtain ⟨p, hp, hp'⟩ := h.attained
    obtain ⟨q, hq, hq'⟩ := h'.attained
    have hle := h.coarsest q (hperm.mem_iff.mpr hq)
    have hge := h'.coarsest p (hperm.mem_iff.mp hp)
    omega
  refine congrArg some (mergePoints_congr h h' hscale ?_ ?_ ?_)
  · rw [(hperm.map _).sum_eq]
  · intro x
    rw [hscale, weight_perm _ (hperm.flatMap_right _)]
  · intro x
    rw [hscale, weight_perm _ (hperm.flatMap_right _)]

/-! ## Alignment -/

/-- On an `i32`, a shift by at most 31 divides by every greater power too. -/
theorem shiftRight_downScale {x : ℤ} (hlow : -2 ^ 31 ≤ x) (hhigh : x < 2 ^ 31) {scale minScale : ℤ}
    (hle : minScale ≤ scale) : x >>> downScale scale minScale = x / 2 ^ (scale - minScale).toNat := by
  rw [Int.shiftRight_eq_div_pow]
  by_cases hsmall : scale - minScale ≤ 31
  · have hdelta : downScale scale minScale = (scale - minScale).toNat := by
      unfold downScale
      omega
    rw [hdelta]
    norm_cast
  · have hdelta : downScale scale minScale = 31 := by
      unfold downScale
      omega
    have hpow : (2 : ℤ) ^ 31 ≤ 2 ^ (scale - minScale).toNat := pow_le_pow_right₀ (by decide) (by omega)
    have hpos : (0 : ℤ) < 2 ^ (scale - minScale).toNat := by positivity
    have hdiv (n : ℤ) (hn : 2 ^ 31 ≤ n) : x / n = if x < 0 then -1 else 0 := by
      have hmain := Int.mul_ediv_add_emod x n
      split
      · rw [Int.ediv_eq_iff_of_pos (by omega)]
        omega
      · exact Int.ediv_eq_zero_of_lt (by omega) (by omega)
    rw [hdelta, hdiv _ hpow]
    exact hdiv _ (by norm_cast)

/-- Where something is counted, the index of a bucket is divided. -/
theorem weight_shifted (p : ℤ → Bool) {offset : ℤ} (hlen : counts.length < 2 ^ 31)
    (hindexed : Indexed (bucketsOf offset counts)) {scale minScale : ℤ} (hle : minScale ≤ scale) :
    weight p (shifted offset (downScale scale minScale) counts) =
      weight (fun k => p (k / 2 ^ (scale - minScale).toNat)) (bucketsOf offset counts) := by
  have hfilter : ((shifted offset (downScale scale minScale) counts).filter fun e => e.2 ≠ 0) =
      ((bucketsOf offset counts).filter fun e => e.2 ≠ 0).map fun e => (e.1 / 2 ^ (scale - minScale).toNat, e.2) := by
    unfold shifted bucketsOf
    rw [List.filter_map, List.filter_map, List.map_map]
    apply List.map_congr_left
    rintro ⟨c, i⟩ hci
    obtain ⟨hmem, hne⟩ := List.mem_filter.mp hci
    have hget := List.mem_zipIdx_iff_getElem?.mp hmem
    have hi := (List.getElem?_eq_some_iff.mp hget).1
    have hrange := hindexed _ (mem_bucketsOf.mpr ⟨i, hget, rfl⟩) (of_decide_eq_true hne)
    have hindex : saturatingAddI32 offset (wrapI32 i) = offset + i := by
      unfold saturatingAddI32 wrapI32
      dsimp only at hrange
      omega
    dsimp only [Function.comp]
    rw [hindex, shiftRight_downScale hrange.1 hrange.2 hle]
  rw [← weight_filter, hfilter, weight_map p (fun k => k / 2 ^ (scale - minScale).toNat), weight_filter]

/-- All points of a group are within the indices. -/
def InRange (points : List ExpPoint) : Prop := ∀ p ∈ points, Indexed p.positive ∧ Indexed p.negative

/-- What the merged buckets weigh, by the buckets of the points. -/
theorem IsMerge.weight_eq {m : Merged} (h : IsMerge points m) (hrange : InRange points) (p : ℤ → Bool) :
    saturate (weight p m.positive) =
        saturate (points.map fun q => weight (fun k => p (k / q.ratio m.scale)) q.positive).sum ∧
      saturate (weight p m.negative) =
        saturate (points.map fun q => weight (fun k => p (k / q.ratio m.scale)) q.negative).sum := by
  constructor
  · rw [h.positive, (weight_deposit p Clean.nil _).2, weight_nil, Nat.zero_add, weight_flatMap]
    refine congrArg (fun l => saturate (List.sum l)) (map_congr_left fun q hq => ?_)
    exact weight_shifted p q.positive_length (hrange q hq).1 (h.coarsest q hq)
  · rw [h.negative, (weight_deposit p Clean.nil _).2, weight_nil, Nat.zero_add, weight_flatMap]
    refine congrArg (fun l => saturate (List.sum l)) (map_congr_left fun q hq => ?_)
    exact weight_shifted p q.negative_length (hrange q hq).2 (h.coarsest q hq)

/-! ## Merging in two steps -/

/-- A point that has the buckets of a merge. -/
structure Merged.IsPoint (m : Merged) (p : ExpPoint) : Prop where
  scale : p.scale = m.scale
  zero : p.zeroCount = m.zero
  positive : (p.positive.filter fun e => e.2 ≠ 0) = m.positive
  negative : (p.negative.filter fun e => e.2 ≠ 0) = m.negative

/-- The vectors of a merge make a point of it. -/
theorem IsMerge.isPoint {m : Merged} (h : IsMerge points m) {p : ExpPoint} (hscale : p.scale = m.scale)
    (hzero : p.zeroCount = m.zero) (hpositive : densify m.positive = some (p.positiveOffset, p.positiveCounts))
    (hnegative : densify m.negative = some (p.negativeOffset, p.negativeCounts)) : m.IsPoint p :=
  ⟨hscale, hzero, filter_bucketsOf h.clean.1 hpositive, filter_bucketsOf h.clean.2 hnegative⟩

/-- What weighs something has a bucket that is counted. -/
theorem exists_of_weight_ne_zero {p : ℤ → Bool} {l : List (ℤ × ℕ)} (h : weight p l ≠ 0) :
    ∃ e ∈ l, p e.1 ∧ e.2 ≠ 0 := by
  by_contra hnone
  apply h
  apply sum_eq_zero
  intro c hc
  obtain ⟨e, he, rfl⟩ := mem_map.mp hc
  obtain ⟨hmem, hp⟩ := mem_filter.mp he
  by_contra hne
  exact hnone ⟨e, hmem, hp, hne⟩

/-- A map whose weights come from indices of an `i32` that are divided has such indices. -/
theorem Clean.indexed (h : Clean map) {scale : ℤ} {buckets : ExpPoint → List (ℤ × ℕ)}
    (hrange : ∀ q ∈ points, Indexed (buckets q))
    (hweight : ∀ p : ℤ → Bool, saturate (weight p map) =
      saturate (points.map fun q => weight (fun k => p (k / q.ratio scale)) (buckets q)).sum) :
    Indexed map := by
  rintro ⟨x, v⟩ hmem hne
  have hvalue : weight (fun k => k = x) map = v := by
    rw [weight_eq h.ascending, h.ascending.valueAt_eq_some.mpr hmem]
    rfl
  have hsum : (points.map fun q => weight (fun k => decide (k / q.ratio scale = x)) (buckets q)).sum ≠ 0 := by
    intro hzero
    have hx := hweight fun k => k = x
    rw [hvalue, hzero] at hx
    exact hne (saturate_eq_zero.mp hx)
  obtain ⟨q, hq, hweightq⟩ : ∃ q ∈ points, weight (fun k => decide (k / q.ratio scale = x)) (buckets q) ≠ 0 := by
    by_contra hnone
    apply hsum
    apply sum_eq_zero
    intro n hn
    obtain ⟨q, hq, rfl⟩ := mem_map.mp hn
    by_contra hne
    exact hnone ⟨q, hq, hne⟩
  obtain ⟨⟨k, c⟩, he, hk, hc⟩ := exists_of_weight_ne_zero hweightq
  have hindex := hrange q hq _ he hc
  have hk : k / q.ratio scale = x := of_decide_eq_true hk
  have hpos : 0 < q.ratio scale := by
    unfold ExpPoint.ratio
    positivity
  dsimp only at hindex ⊢
  rw [← hk]
  constructor
  · exact (Int.le_ediv_iff_mul_le hpos).mpr (by omega)
  · exact (Int.ediv_lt_iff_lt_mul hpos).mpr (by omega)

/-- Two divisions are one. -/
theorem ratio_ratio (k : ℤ) {p q : ExpPoint} {scale : ℤ} (hbetween : p.scale ≤ q.scale) (hscale : scale ≤ p.scale) :
    k / q.ratio p.scale / p.ratio scale = k / q.ratio scale := by
  unfold ExpPoint.ratio
  rw [Int.ediv_ediv_of_nonneg (by positivity), ← pow_add]
  congr 2
  omega

/-- A point of a merge weighs what the points of the group weigh. -/
theorem weight_regroup {point : ExpPoint} {scale : ℤ} (hcoarsest : ∀ q ∈ points, point.scale ≤ q.scale)
    (hscale : scale ≤ point.scale) {map : List (ℤ × ℕ)} {buckets : ExpPoint → List (ℤ × ℕ)}
    (hmap : ((buckets point).filter fun e => e.2 ≠ 0) = map)
    (hweight : ∀ p : ℤ → Bool, saturate (weight p map) =
      saturate (points.map fun q => weight (fun k => p (k / q.ratio point.scale)) (buckets q)).sum)
    (p : ℤ → Bool) :
    saturate (weight (fun k => p (k / point.ratio scale)) (buckets point)) =
      saturate (points.map fun q => weight (fun k => p (k / q.ratio scale)) (buckets q)).sum := by
  rw [← weight_filter, hmap, hweight]
  refine congrArg (fun l => saturate (List.sum l)) (map_congr_left fun q hq => ?_)
  refine congrArg (fun f => weight f (buckets q)) (funext fun k => ?_)
  rw [ratio_ratio k (hcoarsest q hq) hscale]

theorem Indexed.of_filter {l map : List (ℤ × ℕ)} (hmap : (l.filter fun e => e.2 ≠ 0) = map) (h : Indexed map) :
    Indexed l := fun e he hne => h e (hmap ▸ mem_filter.mpr ⟨he, decide_eq_true hne⟩) hne

/-- The points of the merges of two groups merge into the merge of all. -/
theorem mergePoints_append {a b : List ExpPoint} (hrange : InRange (a ++ b)) {m₁ m₂ : Merged}
    (hm₁ : mergePoints a = some m₁) (hm₂ : mergePoints b = some m₂) {p₁ p₂ : ExpPoint} (hp₁ : m₁.IsPoint p₁)
    (hp₂ : m₂.IsPoint p₂) : mergePoints [p₁, p₂] = mergePoints (a ++ b) := by
  have h₁ := mergePoints_spec hm₁
  have h₂ := mergePoints_spec hm₂
  rcases hm : mergePoints (a ++ b) with _ | m
  · obtain ⟨p, hp, -⟩ := h₁.attained
    exact absurd (mem_append_left b hp) (by rw [mergePoints_eq_none.mp hm]; exact not_mem_nil)
  rcases hm' : mergePoints [p₁, p₂] with _ | m'
  · exact nomatch mergePoints_eq_none.mp hm'
  have h := mergePoints_spec hm
  have h' := mergePoints_spec hm'
  have hrangeA : InRange a := fun p hp => hrange p (mem_append_left b hp)
  have hrangeB : InRange b := fun p hp => hrange p (mem_append_right a hp)
  have hweight₁ := h₁.weight_eq hrangeA
  have hweight₂ := h₂.weight_eq hrangeB
  have hrange' : InRange [p₁, p₂] := by
    have hindexed₁ : Indexed m₁.positive ∧ Indexed m₁.negative :=
      ⟨h₁.clean.1.indexed (fun q hq => (hrangeA q hq).1) fun p => (hweight₁ p).1,
        h₁.clean.2.indexed (fun q hq => (hrangeA q hq).2) fun p => (hweight₁ p).2⟩
    have hindexed₂ : Indexed m₂.positive ∧ Indexed m₂.negative :=
      ⟨h₂.clean.1.indexed (fun q hq => (hrangeB q hq).1) fun p => (hweight₂ p).1,
        h₂.clean.2.indexed (fun q hq => (hrangeB q hq).2) fun p => (hweight₂ p).2⟩
    intro p hp
    rcases mem_cons.mp hp with rfl | hp
    · exact ⟨.of_filter hp₁.positive hindexed₁.1, .of_filter hp₁.negative hindexed₁.2⟩
    · rw [mem_singleton.mp hp]
      exact ⟨.of_filter hp₂.positive hindexed₂.1, .of_filter hp₂.negative hindexed₂.2⟩
  -- the coarsest of all is the coarser one of the two
  have hpoint₁ : m'.scale ≤ p₁.scale := h'.coarsest p₁ mem_cons_self
  have hpoint₂ : m'.scale ≤ p₂.scale := h'.coarsest p₂ (mem_cons_of_mem _ mem_cons_self)
  have hscale₁ := hp₁.scale.symm
  have hscale₂ := hp₂.scale.symm
  have hcoarsest₁ : ∀ q ∈ a, p₁.scale ≤ q.scale := hscale₁ ▸ h₁.coarsest
  have hcoarsest₂ : ∀ q ∈ b, p₂.scale ≤ q.scale := hscale₂ ▸ h₂.coarsest
  have hscale : m'.scale = m.scale := by
    apply le_antisymm
    · obtain ⟨p, hp, hscale⟩ := h.attained
      rw [← hscale]
      rcases mem_append.mp hp with hp | hp
      · exact hpoint₁.trans (hcoarsest₁ p hp)
      · exact hpoint₂.trans (hcoarsest₂ p hp)
    · have hge₁ : m.scale ≤ m₁.scale := by
        obtain ⟨p, hp, hscale⟩ := h₁.attained
        exact hscale ▸ h.coarsest p (mem_append_left b hp)
      have hge₂ : m.scale ≤ m₂.scale := by
        obtain ⟨p, hp, hscale⟩ := h₂.attained
        exact hscale ▸ h.coarsest p (mem_append_right a hp)
      obtain ⟨p, hp, hattained⟩ := h'.attained
      rw [← hattained]
      rcases mem_cons.mp hp with rfl | hp
      · rwa [hp₁.scale]
      · rwa [mem_singleton.mp hp, hp₂.scale]
  have hpair (x y z w : ℕ) (hxz : saturate x = saturate z) (hyw : saturate y = saturate w) :
      saturate (x + (y + 0)) = saturate (z + w) := by
    rw [Nat.add_zero, ← saturate_add, hxz, saturate_add, ← saturate_add_right, hyw, saturate_add_right]
  refine congrArg some (mergePoints_congr h' h hscale ?_ ?_ ?_)
  · rw [map_append, sum_append]
    apply hpair
    · rw [hp₁.zero, h₁.zero, saturate_saturate]
    · rw [hp₂.zero, h₂.zero, saturate_saturate]
  · intro x
    have hleft := (h'.weight_eq hrange' fun k => k = x).1
    have hright := (h.weight_eq hrange fun k => k = x).1
    rw [h'.positive, (weight_deposit _ Clean.nil _).2, weight_nil, Nat.zero_add] at hleft
    rw [h.positive, (weight_deposit _ Clean.nil _).2, weight_nil, Nat.zero_add] at hright
    rw [hleft, hright, ← hscale, map_append, sum_append]
    apply hpair
    · exact weight_regroup hcoarsest₁ hpoint₁ hp₁.positive (fun p => (hscale₁ ▸ hweight₁ p).1) fun k => k = x
    · exact weight_regroup hcoarsest₂ hpoint₂ hp₂.positive (fun p => (hscale₂ ▸ hweight₂ p).1) fun k => k = x
  · intro x
    have hleft := (h'.weight_eq hrange' fun k => k = x).2
    have hright := (h.weight_eq hrange fun k => k = x).2
    rw [h'.negative, (weight_deposit _ Clean.nil _).2, weight_nil, Nat.zero_add] at hleft
    rw [h.negative, (weight_deposit _ Clean.nil _).2, weight_nil, Nat.zero_add] at hright
    rw [hleft, hright, ← hscale, map_append, sum_append]
    apply hpair
    · exact weight_regroup hcoarsest₁ hpoint₁ hp₁.negative (fun p => (hscale₁ ▸ hweight₁ p).2) fun k => k = x
    · exact weight_regroup hcoarsest₂ hpoint₂ hp₂.negative (fun p => (hscale₂ ▸ hweight₂ p).2) fun k => k = x

/-! ## The merge -/

section

variable {Phi F : Type} (nan : F) (expHistogramQuantile : Phi → ℤ → ℕ → ℤ → List ℕ → ℤ → List ℕ → F)

/-- The quantile of a group is that of the vectors of its merge, and does not depend on the order of its points. The
merge is at the coarsest scale, where each bucket has the counts of the buckets that fall into it, and no count is lost.
The points of two merges merge into the merge of all, and a vector of counts has the counts of its map and no others;
only a map of too wide a span has none. -/
theorem merge_exact {points : List ExpPoint} (hrange : InRange points) :
    (∀ points', points'.Perm points → ∀ phi, expMergedQuantile nan expHistogramQuantile phi points' =
      expMergedQuantile nan expHistogramQuantile phi points) ∧
    (points ≠ [] → ∃ m, mergePoints points = some m ∧ ∀ phi,
      (∀ po pc no nc, densify m.positive = some (po, pc) → densify m.negative = some (no, nc) →
        expMergedQuantile nan expHistogramQuantile phi points = expHistogramQuantile phi m.scale m.zero po pc no nc) ∧
      (densify m.positive = none ∨ densify m.negative = none →
        expMergedQuantile nan expHistogramQuantile phi points = nan)) ∧
    (∀ m, mergePoints points = some m →
      IsLeast {scale | ∃ p ∈ points, p.scale = scale} m.scale ∧
      m.zero = saturate (points.map ExpPoint.zeroCount).sum ∧
      Clean m.positive ∧ Clean m.negative ∧
      (∀ x, (valueAt m.positive x).getD 0 =
          saturate (points.map fun p => weight (fun k => k / p.ratio m.scale = x) p.positive).sum ∧
        (valueAt m.negative x).getD 0 =
          saturate (points.map fun p => weight (fun k => k / p.ratio m.scale = x) p.negative).sum) ∧
      saturate (m.positive.map Prod.snd).sum = saturate (points.map fun p => p.positiveCounts.sum).sum ∧
      saturate (m.negative.map Prod.snd).sum = saturate (points.map fun p => p.negativeCounts.sum).sum) ∧
    (∀ a b m₁ m₂ p₁ p₂, points = a ++ b → mergePoints a = some m₁ → mergePoints b = some m₂ → m₁.IsPoint p₁ →
      m₂.IsPoint p₂ → mergePoints [p₁, p₂] = mergePoints points) ∧
    ∀ map, Ascending map →
      ((∃ dense, densify map = some dense) ↔ ∀ a ∈ map, ∀ b ∈ map, b.1 - a.1 < 2 ^ 20) ∧
      ∀ offset counts, densify map = some (offset, counts) →
        (∀ i < counts.length, counts[i]? = some ((valueAt map (offset + i)).getD 0)) ∧
        ∀ x v, (x, v) ∈ map → offset ≤ x ∧ x < offset + counts.length := by
  refine ⟨fun points' hperm phi => ?_, fun hne => ?_, fun m hm => ?_, ?_,
    fun map hs => ⟨densify_isSome_iff hs, fun offset counts hdense => ?_⟩⟩
  · unfold expMergedQuantile
    rw [mergePoints_perm hperm]
  · obtain ⟨m, hm⟩ := ne_none_iff_exists'.mp fun hnone => hne (mergePoints_eq_none.mp hnone)
    refine ⟨m, hm, fun phi => ⟨fun po pc no nc hpositive hnegative => ?_, fun hnone => ?_⟩⟩
    · unfold expMergedQuantile
      rw [hm]
      dsimp only
      rw [hpositive, hnegative]
    · unfold expMergedQuantile
      rw [hm]
      dsimp only
      split
      · rename_i hpositive hnegative
        rcases hnone with hnone | hnone
        · exact nomatch hnone.symm.trans hpositive
        · exact nomatch hnone.symm.trans hnegative
      · rfl
  · have h := mergePoints_spec hm
    have hweight := h.weight_eq hrange
    refine ⟨⟨h.attained, ?_⟩, h.zero, h.clean.1, h.clean.2, fun x => ⟨?_, ?_⟩, ?_, ?_⟩
    · rintro _ ⟨p, hp, rfl⟩
      exact h.coarsest p hp
    · rw [← Metrics.weight_eq h.clean.1.ascending, ← h.clean.1.saturate_weight]
      exact (hweight fun k => k = x).1
    · rw [← Metrics.weight_eq h.clean.2.ascending, ← h.clean.2.saturate_weight]
      exact (hweight fun k => k = x).2
    · have htotal := (hweight fun _ => true).1
      simp only [weight_true, ExpPoint.positive, map_snd_bucketsOf] at htotal
      exact htotal
    · have htotal := (hweight fun _ => true).2
      simp only [weight_true, ExpPoint.negative, map_snd_bucketsOf] at htotal
      exact htotal
  · rintro a b m₁ m₂ p₁ p₂ rfl hm₁ hm₂ hp₁ hp₂
    exact mergePoints_append hrange hm₁ hm₂ hp₁ hp₂
  · obtain ⟨hcounts, hwithin, -⟩ := densify_spec hs hdense
    exact ⟨hcounts, hwithin⟩

end

/-- Three buckets at scale 1. -/
def finePoint : ExpPoint where
  scale := 1
  zeroCount := 1
  positiveOffset := -3
  positiveCounts := [2, 0, 5]
  negativeOffset := 0
  negativeCounts := []
  positive_length := by simp
  negative_length := by simp

/-- One bucket at scale 0. -/
def coarsePoint : ExpPoint where
  scale := 0
  zeroCount := 0
  positiveOffset := -1
  positiveCounts := [7]
  negativeOffset := 0
  negativeCounts := []
  positive_length := by simp
  negative_length := by simp

/-- The merge of the two as a point. -/
def mergedPoint : ExpPoint where
  scale := 0
  zeroCount := 1
  positiveOffset := -2
  positiveCounts := [2, 12]
  negativeOffset := 0
  negativeCounts := []
  positive_length := by simp
  negative_length := by simp

theorem merge_exact_fineCoarse :
    mergePoints [finePoint, coarsePoint] = some ⟨0, 1, [(-2, 2), (-1, 12)], []⟩ ∧
      mergePoints [mergedPoint, coarsePoint] = mergePoints [finePoint, coarsePoint, coarsePoint] ∧
      ∀ points', points'.Perm [finePoint, coarsePoint, coarsePoint] →
        expMergedQuantile [] (fun (_ : Unit) _ _ _ pc _ _ => pc) () points' = [2, 19] := by
  have hrange : InRange [finePoint, coarsePoint, coarsePoint] := by
    simp [InRange, Indexed, finePoint, coarsePoint, ExpPoint.positive, ExpPoint.negative, bucketsOf]
    omega
  have hmerge : mergePoints [finePoint, coarsePoint] = some ⟨0, 1, [(-2, 2), (-1, 12)], []⟩ := by decide
  have hmergeCoarse : mergePoints [coarsePoint] = some ⟨0, 0, [(-1, 7)], []⟩ := by decide
  have hmergeAll : mergePoints [finePoint, coarsePoint, coarsePoint] = some ⟨0, 1, [(-2, 2), (-1, 19)], []⟩ := by decide
  have hpoint := (mergePoints_spec hmerge).isPoint (p := mergedPoint) rfl rfl (by decide) (by decide)
  have hcoarse := (mergePoints_spec hmergeCoarse).isPoint (p := coarsePoint) rfl rfl (by decide) (by decide)
  obtain ⟨hperm, hvalue, -, happend, -⟩ :=
    merge_exact [] (fun (_ : Unit) _ _ _ pc _ _ => pc) hrange
  refine ⟨hmerge, happend [finePoint, coarsePoint] [coarsePoint] _ _ _ _ rfl hmerge hmergeCoarse hpoint hcoarse, ?_⟩
  intro points' hpoints'
  obtain ⟨m, hm, hdense⟩ := hvalue (cons_ne_nil _ _)
  obtain rfl := some.inj (hmergeAll.symm.trans hm)
  rw [hperm points' hpoints' ()]
  exact (hdense ()).1 (-2) [2, 19] 0 [] (by decide) (by decide)

end Imbh.Metrics
