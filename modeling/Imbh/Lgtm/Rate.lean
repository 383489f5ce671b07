import Mathlib.Algebra.BigOperators.Ring.List
import Mathlib.Tactic.FieldSimp
import Mathlib.Tactic.Positivity
import Mathlib.Tactic.Ring
import Imbh.Lgtm.PromQl

/-!
# Counter rates

The extrapolated rate over numbers of any kind, of which doubles are one and the rationals another. Over
the rationals the increase is the sum of what the counter grew by from each sample to the next, and the
interval it is spread over is between the sampled one and the range.

* `rate_means` — what the rate is over the rationals.
-/

namespace Imbh.Lgtm

open Lib List

/-- The numbers that a rate is computed with. -/
structure Numbers (α : Type) where
  ofNat : ℕ → α
  seconds : ℤ → α
  elevenTenths : α
  add : α → α → α
  sub : α → α → α
  mul : α → α → α
  div : α → α → α
  lt : α → α → Bool
  le : α → α → Bool

/-- A `FloatSample` whose value is a number of any kind. -/
structure Sample (α : Type) where
  timestampNs : ℤ
  value : α

namespace Numbers

section

variable {α : Type} (n : Numbers α)

/-- Source: `promql.rs` `extrapolated_rate`, the loop -/
def increaseFrom (increase previous : α) : List (Sample α) → α
  | [] => increase
  | s :: samples =>
      increaseFrom (if n.lt s.value previous then n.add increase previous else increase) s.value samples

/-- The interval that the increase is spread over.
Source: `promql.rs` `extrapolated_rate`, from the average interval on -/
def interval (first last : Sample α) (count : ℕ) (increase : α) (start stop : ℤ) : α :=
  let sampledInterval := n.seconds (last.timestampNs - first.timestampNs)
  let averageInterval := n.div sampledInterval (n.ofNat (count - 1))
  let threshold := n.mul averageInterval n.elevenTenths
  let toStart := n.seconds (first.timestampNs - start)
  let toEnd := n.seconds (stop - last.timestampNs)
  let toZero := n.mul sampledInterval (n.div first.value increase)
  let toStart :=
    if n.lt (n.ofNat 0) increase && n.le (n.ofNat 0) first.value && n.lt toZero toStart then toZero
    else toStart
  let half := n.div averageInterval (n.ofNat 2)
  let toStart := if n.le threshold toStart then half else toStart
  let toEnd := if n.le threshold toEnd then half else toEnd
  n.add (n.add sampledInterval toStart) toEnd

/-- Source: `promql.rs` `extrapolated_rate` -/
def extrapolatedRate (samples : List (Sample α)) (start stop : ℤ) : Except SemanticError (Option α) :=
  if stop ≤ start then .error .invalidRange
  else
    match samples with
    | [] => .ok none
    | [_] => .ok none
    | first :: second :: rest =>
        let last := (second :: rest).getLast (cons_ne_nil _ _)
        if strictlyOrdered (samples.map Sample.timestampNs) = false then
          .error (.malformed "counter samples are not strictly ordered".toList)
        else if first.timestampNs ≤ start ∨ stop < last.timestampNs then
          .error (.malformed "counter sample is outside the selected range".toList)
        else
          let increase := n.increaseFrom (n.sub last.value first.value) first.value (second :: rest)
          let sampledInterval := n.seconds (last.timestampNs - first.timestampNs)
          if n.le sampledInterval (n.ofNat 0) then .ok none
          else
            .ok (some (n.mul increase (n.div
              (n.div (n.interval first last samples.length increase start stop) sampledInterval)
              (n.seconds (stop - start)))))

end

/-- The doubles, with the arithmetic that is given. -/
def doubles (arith : Arith) : Numbers F64 where
  ofNat := natAsF64
  seconds := Imbh.Lgtm.seconds arith
  elevenTenths := 0x3ff199999999999a
  add := arith.add
  sub := arith.sub
  mul := arith.mul
  div := arith.div
  lt := fLt
  le := fLe

/-- The rationals. -/
def rationals : Numbers ℚ where
  ofNat k := k
  seconds ns := ns / 1000000000
  elevenTenths := 11 / 10
  add a b := a + b
  sub a b := a - b
  mul a b := a * b
  div a b := a / b
  lt a b := decide (a < b)
  le a b := decide (a ≤ b)

section

variable (a b : ℚ)

@[simp] theorem rationals_ofNat (k : ℕ) : rationals.ofNat k = k := rfl

@[simp] theorem rationals_seconds (ns : ℤ) : rationals.seconds ns = ns / 1000000000 := rfl

@[simp] theorem rationals_elevenTenths : rationals.elevenTenths = 11 / 10 := rfl

@[simp] theorem rationals_add : rationals.add a b = a + b := rfl

@[simp] theorem rationals_sub : rationals.sub a b = a - b := rfl

@[simp] theorem rationals_mul : rationals.mul a b = a * b := rfl

@[simp] theorem rationals_div : rationals.div a b = a / b := rfl

@[simp] theorem rationals_lt : rationals.lt a b = decide (a < b) := rfl

@[simp] theorem rationals_le : rationals.le a b = decide (a ≤ b) := rfl

end

end Numbers

/-- A sample of doubles. -/
def FloatSample.sample (s : FloatSample) : Sample F64 := ⟨s.timestampNs, s.value⟩

theorem increaseFrom_doubles (arith : Arith) (increase previous : F64) (samples : List FloatSample) :
    (Numbers.doubles arith).increaseFrom increase previous (samples.map FloatSample.sample) =
      increaseFrom arith increase previous samples := by
  induction samples generalizing increase previous with
  | nil => rfl
  | cons s samples ih => exact ih _ _

/-- Over doubles it is the rate of the evaluator. -/
theorem extrapolatedRate_doubles (arith : Arith) (samples : List FloatSample) (start stop : ℤ) :
    (Numbers.doubles arith).extrapolatedRate (samples.map FloatSample.sample) start stop =
      extrapolatedRate arith samples start stop := by
  match samples with
  | [] => rfl
  | [_] => rfl
  | first :: second :: rest =>
    have hlast : (second.sample :: rest.map FloatSample.sample).getLast (cons_ne_nil _ _) =
        ((second :: rest).getLast (cons_ne_nil _ _)).sample :=
      getLast_map (l := second :: rest) (f := FloatSample.sample) (cons_ne_nil _ _)
    have htimes : (first.sample :: second.sample :: rest.map FloatSample.sample).map Sample.timestampNs =
        (first :: second :: rest).map FloatSample.timestampNs :=
      map_map (l := first :: second :: rest) (f := FloatSample.sample)
    have hlength : (first.sample :: second.sample :: rest.map FloatSample.sample).length =
        (first :: second :: rest).length := congrArg (· + 2) (length_map _)
    have hincrease (increase previous : F64) :
        (Numbers.doubles arith).increaseFrom increase previous
          (second.sample :: rest.map FloatSample.sample) =
          increaseFrom arith increase previous (second :: rest) :=
      increaseFrom_doubles arith increase previous (second :: rest)
    unfold Numbers.extrapolatedRate extrapolatedRate
    rw [map_cons, map_cons]
    dsimp only
    rw [htimes, hlast, hincrease, hlength]
    rfl

/-! ## The increase -/

section

open Numbers (rationals)

/-- What a counter grew by from one value to the next. A drop is a reset to zero before the new value. -/
def growthTo (previous next : ℚ) : ℚ := if next < previous then next else next - previous

/-- What a counter grew by over the samples, from each to the next. -/
def growth (samples : List (Sample ℚ)) : ℚ :=
  ((samples.zip samples.tail).map fun pair => growthTo pair.1.value pair.2.value).sum

@[simp] theorem growth_singleton (s : Sample ℚ) : growth [s] = 0 := rfl

theorem growth_cons_cons (s t : Sample ℚ) (samples : List (Sample ℚ)) :
    growth (s :: t :: samples) = growthTo s.value t.value + growth (t :: samples) := sum_cons

theorem growthTo_nonneg {previous next : ℚ} (h : 0 ≤ next) : 0 ≤ growthTo previous next := by
  unfold growthTo
  split
  · exact h
  · rename_i hdrop
    exact sub_nonneg.mpr (not_lt.mp hdrop)

theorem growth_nonneg {samples : List (Sample ℚ)} (h : ∀ s ∈ samples, 0 ≤ s.value) :
    0 ≤ growth samples := by
  apply sum_nonneg
  intro d hd
  obtain ⟨pair, hpair, rfl⟩ := mem_map.mp hd
  exact growthTo_nonneg (h _ (mem_of_mem_tail (of_mem_zip hpair).2))

theorem growthTo_mul {c : ℚ} (hc : 0 ≤ c) (previous next : ℚ) :
    growthTo (c * previous) (c * next) = c * growthTo previous next := by
  rcases hc.eq_or_lt with rfl | hc
  · simp [growthTo]
  · simp only [growthTo, mul_lt_mul_iff_right₀ hc, ← mul_sub, mul_ite]

/-- The loop adds to the difference of the ends what each reset took away. -/
theorem increaseFrom_rationals (increase : ℚ) (s : Sample ℚ) (samples : List (Sample ℚ)) :
    rationals.increaseFrom increase s.value samples =
      increase + growth (s :: samples)
        - (((s :: samples).getLast (cons_ne_nil _ _)).value - s.value) := by
  induction samples generalizing increase s with
  | nil => simp [Numbers.increaseFrom]
  | cons t samples ih =>
    rw [Numbers.increaseFrom, ih, growth_cons_cons, getLast_cons (cons_ne_nil t samples)]
    simp only [Numbers.rationals_lt, Numbers.rationals_add, decide_eq_true_eq, growthTo]
    split <;> ring

/-- The increase that the loop ends with is what the counter grew by. -/
theorem increase_eq_growth (first : Sample ℚ) {samples : List (Sample ℚ)} (hne : samples ≠ []) :
    rationals.increaseFrom ((samples.getLast hne).value - first.value) first.value samples =
      growth (first :: samples) := by
  rw [increaseFrom_rationals, getLast_cons hne]
  ring

end

/-! ## The interval -/

section

variable {threshold half gap : ℚ}

/-- A gap at an end of the range, cut down when it is not below the threshold. -/
theorem cut_bounds (hgap : 0 ≤ gap) (hhalf : 0 ≤ half) (hle : half ≤ threshold) :
    0 ≤ (if threshold ≤ gap then half else gap) ∧ (if threshold ≤ gap then half else gap) ≤ gap := by
  split
  · rename_i hcut
    exact ⟨hhalf, hle.trans hcut⟩
  · exact ⟨hgap, le_refl _⟩

open Numbers (rationals)

variable {first last : Sample ℚ} {count : ℕ} {increase : ℚ} {start stop : ℤ}

theorem seconds_nonneg {ns : ℤ} (h : 0 ≤ ns) : 0 ≤ rationals.seconds ns := by
  have hcast : (0 : ℚ) ≤ ns := by exact_mod_cast h
  rw [Numbers.rationals_seconds]
  positivity

theorem seconds_pos {ns : ℤ} (h : 0 < ns) : 0 < rationals.seconds ns := by
  have hcast : (0 : ℚ) < ns := by exact_mod_cast h
  rw [Numbers.rationals_seconds]
  positivity

/-- A counter is not taken back beyond where it would be zero. -/
theorem toZero_bounds {sampled gap value : ℚ} (increase : ℚ) (hsampled : 0 ≤ sampled) (hgap : 0 ≤ gap)
    (hvalue : 0 ≤ value) :
    0 ≤ (if 0 < increase ∧ sampled * (value / increase) < gap then sampled * (value / increase) else gap) ∧
      (if 0 < increase ∧ sampled * (value / increase) < gap then sampled * (value / increase) else gap)
        ≤ gap := by
  split
  · rename_i hzero
    exact ⟨mul_nonneg hsampled (div_nonneg hvalue hzero.1.le), hzero.2.le⟩
  · exact ⟨hgap, le_refl _⟩

/-- The interval is at least the sampled one and at most the range. -/
theorem interval_bounds (count : ℕ) (increase : ℚ) (hfirst : start ≤ first.timestampNs)
    (hsampled : first.timestampNs ≤ last.timestampNs) (hlast : last.timestampNs ≤ stop)
    (hvalue : 0 ≤ first.value) :
    rationals.seconds (last.timestampNs - first.timestampNs) ≤
        rationals.interval first last count increase start stop ∧
      rationals.interval first last count increase start stop ≤ rationals.seconds (stop - start) := by
  have hspan := seconds_nonneg (sub_nonneg.mpr hsampled)
  have hstart := seconds_nonneg (sub_nonneg.mpr hfirst)
  have hend := seconds_nonneg (sub_nonneg.mpr hlast)
  have hparts : rationals.seconds (stop - start) =
      rationals.seconds (last.timestampNs - first.timestampNs) +
        rationals.seconds (first.timestampNs - start) + rationals.seconds (stop - last.timestampNs) := by
    simp only [Numbers.rationals_seconds, Int.cast_sub]
    ring
  rw [hparts]
  unfold Numbers.interval
  simp only [Numbers.rationals_ofNat, Numbers.rationals_elevenTenths, Numbers.rationals_add,
    Numbers.rationals_mul, Numbers.rationals_div, Numbers.rationals_lt, Numbers.rationals_le,
    Nat.cast_zero, hvalue, decide_true, Bool.and_true, Bool.and_eq_true, decide_eq_true_eq]
  generalize rationals.seconds (last.timestampNs - first.timestampNs) = span at hspan ⊢
  generalize rationals.seconds (first.timestampNs - start) = toStart at hstart ⊢
  generalize rationals.seconds (stop - last.timestampNs) = toEnd at hend ⊢
  have haverage : 0 ≤ span / ((count - 1 : ℕ) : ℚ) := div_nonneg hspan (Nat.cast_nonneg _)
  generalize span / ((count - 1 : ℕ) : ℚ) = average at haverage ⊢
  have hhalf : 0 ≤ average / ((2 : ℕ) : ℚ) := div_nonneg haverage (Nat.cast_nonneg _)
  have hle : average / ((2 : ℕ) : ℚ) ≤ average * (11 / 10) := by
    push_cast
    linarith
  obtain ⟨hzero, hzeroLe⟩ := toZero_bounds increase hspan hstart hvalue
  obtain ⟨hcut, hcutLe⟩ := cut_bounds hzero hhalf hle
  obtain ⟨hcutEnd, hcutEndLe⟩ := cut_bounds hend hhalf hle
  constructor
  · linarith
  · linarith

end

/-! ## The rate -/

section

open Numbers (rationals)

/-- Samples that a rate is computed of: two at least, in the order of their times and in the range, whose
values are not negative. -/
structure Counter (samples : List (Sample ℚ)) (start stop : ℤ) : Prop where
  two : 2 ≤ samples.length
  ordered : (samples.map Sample.timestampNs).Pairwise (· < ·)
  nonneg : ∀ s ∈ samples, 0 ≤ s.value
  inside : ∀ s ∈ samples, start < s.timestampNs ∧ s.timestampNs ≤ stop

def Sample.shift (d : ℤ) (s : Sample ℚ) : Sample ℚ := ⟨s.timestampNs + d, s.value⟩

def Sample.scale (c : ℚ) (s : Sample ℚ) : Sample ℚ := ⟨s.timestampNs, c * s.value⟩

variable {samples : List (Sample ℚ)} {first last second : Sample ℚ} {rest : List (Sample ℚ)} {start stop : ℤ}

/-- Instants that increase pass the check. -/
theorem strictlyOrdered_of_pairwise {times : List ℤ} (h : times.Pairwise (· < ·)) :
    strictlyOrdered times = true := by
  induction h with
  | nil => rfl
  | @cons a l hlt hl ih =>
    match l with
    | [] => rfl
    | b :: l =>
      rw [strictlyOrdered, ih, decide_eq_true (hlt b mem_cons_self)]
      rfl

/-- The ends of a counter, and what comes after the first one. -/
theorem Counter.ends (h : Counter samples start stop) :
    ∃ first second rest, samples = first :: second :: rest ∧
      first.timestampNs < ((second :: rest).getLast (cons_ne_nil _ _)).timestampNs := by
  match samples, h with
  | first :: second :: rest, h =>
    refine ⟨first, second, rest, rfl, ?_⟩
    have hmem := getLast_mem (cons_ne_nil second rest)
    exact (pairwise_cons.mp h.ordered).1 _ (mem_map_of_mem hmem)
  | [_], h => exact absurd h.two (by simp)
  | [], h => exact absurd h.two (by simp)

/-- The rate of a counter, in the terms of the code. -/
theorem Counter.rate_eq (h : Counter (first :: second :: rest) start stop)
    (hlast : last = (second :: rest).getLast (cons_ne_nil _ _)) :
    rationals.extrapolatedRate (first :: second :: rest) start stop =
      .ok (some (growth (first :: second :: rest) *
        (rationals.interval first last (first :: second :: rest).length
            (growth (first :: second :: rest)) start stop /
          rationals.seconds (last.timestampNs - first.timestampNs) /
          rationals.seconds (stop - start)))) := by
  have hmem : last ∈ second :: rest := hlast ▸ getLast_mem _
  obtain ⟨hlow, hhigh⟩ := h.inside first mem_cons_self
  obtain ⟨hlowLast, hhighLast⟩ := h.inside last (mem_cons_of_mem _ hmem)
  have hspan : first.timestampNs < last.timestampNs :=
    (pairwise_cons.mp h.ordered).1 _ (mem_map_of_mem hmem)
  have hpos := (seconds_pos (sub_pos.mpr hspan)).not_ge
  have hgrowth := increase_eq_growth first (cons_ne_nil second rest)
  rw [← hlast] at hgrowth
  unfold Numbers.extrapolatedRate
  rw [if_neg (by omega)]
  dsimp only
  rw [← hlast, if_neg (by rw [strictlyOrdered_of_pairwise h.ordered]; exact Bool.noConfusion),
    if_neg (by omega), Numbers.rationals_sub, hgrowth]
  simp only [Numbers.rationals_le, Numbers.rationals_ofNat, Nat.cast_zero, decide_eq_true_eq, if_neg hpos,
    Numbers.rationals_mul, Numbers.rationals_div]

theorem growth_map_shift (d : ℤ) (samples : List (Sample ℚ)) :
    growth (samples.map (Sample.shift d)) = growth samples := by
  unfold growth
  rw [← map_tail, zip_map, map_map]
  rfl

theorem growth_map_scale {c : ℚ} (hc : 0 ≤ c) (samples : List (Sample ℚ)) :
    growth (samples.map (Sample.scale c)) = c * growth samples := by
  unfold growth
  rw [← map_tail, zip_map, map_map, ← sum_map_mul_left]
  congr 1
  apply map_congr_left
  intro pair _
  exact growthTo_mul hc _ _

theorem Counter.shift (d : ℤ) (h : Counter samples start stop) :
    Counter (samples.map (Sample.shift d)) (start + d) (stop + d) where
  two := by simpa using h.two
  ordered := by
    have hordered := pairwise_map.mp h.ordered
    rw [map_map, pairwise_map]
    exact hordered.imp fun hlt => by simpa [Sample.shift] using hlt
  nonneg := by simpa [Sample.shift] using h.nonneg
  inside := by simpa [Sample.shift] using h.inside

theorem Counter.scale {c : ℚ} (hc : 0 ≤ c) (h : Counter samples start stop) :
    Counter (samples.map (Sample.scale c)) start stop where
  two := by simpa using h.two
  ordered := by simpa [Sample.scale, Function.comp_def] using h.ordered
  nonneg := by
    intro s hs
    obtain ⟨t, ht, rfl⟩ := mem_map.mp hs
    exact mul_nonneg hc (h.nonneg t ht)
  inside := by simpa [Sample.scale] using h.inside

theorem interval_shift (d : ℤ) (count : ℕ) (increase : ℚ) :
    rationals.interval (first.shift d) (last.shift d) count increase (start + d) (stop + d) =
      rationals.interval first last count increase start stop := by
  simp only [Numbers.interval, Sample.shift, add_sub_add_right_eq_sub]

/-- The interval does not change when all samples are scaled. -/
theorem interval_scale {c : ℚ} (hc : 0 < c) (count : ℕ) (increase : ℚ) :
    rationals.interval (first.scale c) (last.scale c) count (c * increase) start stop =
      rationals.interval first last count increase start stop := by
  have hquotient (value : ℚ) : rationals.div (c * value) (c * increase) = rationals.div value increase :=
    mul_div_mul_left _ _ hc.ne'
  have hlt : rationals.lt (rationals.ofNat 0) (c * increase) = rationals.lt (rationals.ofNat 0) increase :=
    decide_eq_decide.mpr (by simpa using mul_pos_iff_of_pos_left hc)
  have hle (value : ℚ) : rationals.le (rationals.ofNat 0) (c * value) = rationals.le (rationals.ofNat 0) value :=
    decide_eq_decide.mpr (by simpa using mul_nonneg_iff_of_pos_left hc)
  simp only [Numbers.interval, Sample.scale, hquotient, hlt, hle]
  rfl

/-- The rate does not change when samples and range are shifted. -/
theorem rate_shift (h : Counter samples start stop) (d : ℤ) :
    rationals.extrapolatedRate (samples.map (Sample.shift d)) (start + d) (stop + d) =
      rationals.extrapolatedRate samples start stop := by
  obtain ⟨first, second, rest, rfl, -⟩ := h.ends
  have hshift := h.shift d
  rw [map_cons, map_cons] at hshift ⊢
  have hlast : ((second :: rest).getLast (cons_ne_nil _ _)).shift d =
      (second.shift d :: rest.map (Sample.shift d)).getLast (cons_ne_nil _ _) :=
    (getLast_map (l := second :: rest) (f := Sample.shift d) (cons_ne_nil _ _)).symm
  have hgrowth := growth_map_shift d (first :: second :: rest)
  rw [map_cons, map_cons] at hgrowth
  rw [hshift.rate_eq hlast, h.rate_eq rfl, hgrowth, interval_shift]
  simp [Sample.shift]

/-- It is scaled as the samples are. -/
theorem rate_scale (h : Counter samples start stop) {c : ℚ} (hc : 0 ≤ c) {rate : ℚ}
    (hrate : rationals.extrapolatedRate samples start stop = .ok (some rate)) :
    rationals.extrapolatedRate (samples.map (Sample.scale c)) start stop = .ok (some (c * rate)) := by
  obtain ⟨first, second, rest, rfl, -⟩ := h.ends
  have hscale := h.scale hc
  rw [map_cons, map_cons] at hscale ⊢
  have hlast : ((second :: rest).getLast (cons_ne_nil _ _)).scale c =
      (second.scale c :: rest.map (Sample.scale c)).getLast (cons_ne_nil _ _) :=
    (getLast_map (l := second :: rest) (f := Sample.scale c) (cons_ne_nil _ _)).symm
  have hgrowth := growth_map_scale hc (first :: second :: rest)
  rw [map_cons, map_cons] at hgrowth
  rw [h.rate_eq rfl, Except.ok.injEq, Option.some.injEq] at hrate
  rw [hscale.rate_eq hlast, hgrowth, ← hrate]
  rcases hc.eq_or_lt with rfl | hpos
  · simp
  · rw [interval_scale hpos, mul_assoc]
    simp [Sample.scale]

/-- The differences of the instants of a window fit an `i64`. -/
theorem window_fits {at' a b : ℤ} {windowNs : ℕ} (hat : minInstant ≤ at' ∧ at' ≤ maxInstant)
    (ha : saturatingSub at' windowNs ≤ a) (hab : a ≤ b) (hb : b ≤ at') : wrapI64 (b - a) = b - a := by
  have hstart : at' - saturatingSub at' windowNs ≤ 2 ^ 63 - 1 := by
    unfold saturatingSub clampI64
    simp only [minInstant, maxInstant] at hat ⊢
    omega
  unfold wrapI64
  rw [Int.emod_eq_of_lt (by omega) (by omega)]
  omega

/-- An increase that is spread over an interval between the sampled one and the range. -/
theorem rate_bounds {increase sampled interval range : ℚ} (hnonneg : 0 ≤ increase) (hpos : 0 < sampled)
    (hsampled : sampled ≤ interval) (hrange : interval ≤ range) :
    increase / range ≤ increase * (interval / sampled / range) ∧
      increase * (interval / sampled / range) ≤ increase / sampled := by
  have hrangePos : 0 < range := hpos.trans_le (hsampled.trans hrange)
  have hone : 1 ≤ interval / sampled := (one_le_div hpos).mpr hsampled
  constructor
  · calc increase / range = increase * (1 / range) := by rw [mul_one_div]
      _ ≤ increase * (interval / sampled / range) :=
          mul_le_mul_of_nonneg_left (div_le_div_of_nonneg_right hone hrangePos.le) hnonneg
  · calc increase * (interval / sampled / range) = increase * (interval / range / sampled) := by
          rw [div_right_comm]
      _ ≤ increase * (1 / sampled) :=
          mul_le_mul_of_nonneg_left
            (div_le_div_of_nonneg_right ((div_le_one hrangePos).mpr hrange) hpos.le) hnonneg
      _ = increase / sampled := mul_one_div _ _

/-- The ends of a window and the times that are selected are in it. -/
theorem times_in_window {series : PromSeries} {at' : ℤ} {windowNs : ℕ} {selected : List FloatSample}
    (hmin : minInstant ≤ at') (hselected : selectRange series at' windowNs = .ok selected) :
    ∀ t ∈ saturatingSub at' windowNs :: at' :: selected.map FloatSample.timestampNs,
      saturatingSub at' windowNs ≤ t ∧ t ≤ at' := by
  have hstart : saturatingSub at' windowNs ≤ at' := by
    unfold saturatingSub clampI64
    simp only [minInstant, maxInstant] at hmin ⊢
    omega
  intro t ht
  simp only [mem_cons, mem_map] at ht
  rcases ht with rfl | rfl | ⟨s, hs, rfl⟩
  · exact ⟨le_refl _, hstart⟩
  · exact ⟨hstart, le_refl _⟩
  · unfold selectRange at hselected
    split at hselected
    · exact absurd hselected (by simp)
    · rw [← Except.ok.inj hselected, mem_filter, inWindow, Bool.and_eq_true, decide_eq_true_eq,
        decide_eq_true_eq] at hs
      exact ⟨hs.2.1.le, hs.2.2⟩

/-- The rate of a counter: the increase is what the counter grew by; the interval it is spread over is
between the sampled one and the range; a shift of all times does not matter, and the rate scales with the
values. No difference that is taken overflows in a window of the evaluator. -/
theorem rate_means (h : Counter samples start stop) :
    (∃ first last rate, samples.head? = some first ∧ samples.getLast? = some last ∧
      let increase := rationals.increaseFrom (last.value - first.value) first.value samples.tail
      let sampled := rationals.seconds (last.timestampNs - first.timestampNs)
      let interval := rationals.interval first last samples.length increase start stop
      let range := rationals.seconds (stop - start)
      rationals.extrapolatedRate samples start stop = .ok (some rate) ∧
      rate = increase * (interval / sampled / range) ∧
      increase = growth samples ∧ 0 ≤ increase ∧
      0 < sampled ∧ sampled ≤ interval ∧ interval ≤ range ∧
      increase / range ≤ rate ∧ rate ≤ increase / sampled ∧
      (∀ d, rationals.extrapolatedRate (samples.map (Sample.shift d)) (start + d) (stop + d) =
        .ok (some rate)) ∧
      ∀ c, 0 ≤ c → rationals.extrapolatedRate (samples.map (Sample.scale c)) start stop =
        .ok (some (c * rate))) ∧
    ∀ (series : PromSeries) (at' : ℤ) (windowNs : ℕ) (selected : List FloatSample),
      minInstant ≤ at' → at' ≤ maxInstant → selectRange series at' windowNs = .ok selected →
      let times := saturatingSub at' windowNs :: at' :: selected.map FloatSample.timestampNs
      ∀ a ∈ times, ∀ b ∈ times, a ≤ b → wrapI64 (b - a) = b - a := by
  constructor
  · obtain ⟨first, second, rest, rfl, hspan⟩ := h.ends
    have hmem := getLast_mem (cons_ne_nil second rest)
    have hgrowth := increase_eq_growth first (cons_ne_nil second rest)
    have hrate := h.rate_eq rfl
    have hlow := (h.inside first mem_cons_self).1
    have hhigh := (h.inside _ (mem_cons_of_mem _ hmem)).2
    have hnonneg := growth_nonneg h.nonneg
    generalize hlast : (second :: rest).getLast (cons_ne_nil _ _) = last at hspan hmem hgrowth hrate hhigh
    obtain ⟨hsampled, hrange⟩ := interval_bounds (first :: second :: rest).length
      (growth (first :: second :: rest)) hlow.le hspan.le hhigh (h.nonneg first mem_cons_self)
    have hpos : 0 < rationals.seconds (last.timestampNs - first.timestampNs) := seconds_pos (sub_pos.mpr hspan)
    have hlasts : (first :: second :: rest).getLast? = some last := by
      rw [getLast?_cons_cons, getLast?_eq_some_getLast (cons_ne_nil _ _), hlast]
    refine ⟨first, last, _, rfl, hlasts, hrate, ?_, hgrowth, hgrowth ▸ hnonneg, hpos, ?_, ?_, ?_, ?_, ?_, ?_⟩
    · rw [tail_cons, hgrowth]
    · rw [tail_cons, hgrowth]
      exact hsampled
    · rw [tail_cons, hgrowth]
      exact hrange
    · rw [tail_cons, hgrowth]
      exact (rate_bounds hnonneg hpos hsampled hrange).1
    · rw [tail_cons, hgrowth]
      exact (rate_bounds hnonneg hpos hsampled hrange).2
    · intro d
      exact (rate_shift h d).trans hrate
    · intro c hc
      exact rate_scale h hc hrate
  · intro series at' windowNs selected hmin hmax hselected times a ha b hb hab
    have hwindow := times_in_window hmin hselected
    exact window_fits ⟨hmin, hmax⟩ (hwindow a ha).1 hab (hwindow b hb).2

/-- A counter that is reset between the second sample and the third. -/
def resetSamples : List (Sample ℚ) :=
  [⟨10000000000, 5⟩, ⟨20000000000, 9⟩, ⟨30000000000, 2⟩, ⟨40000000000, 7⟩]

theorem resetSamples_counter : Counter resetSamples 0 50000000000 where
  two := by decide
  ordered := by decide
  nonneg := by simp [resetSamples]
  inside := by simp [resetSamples]

/-- The rate over a counter that was reset, within its bounds. -/
theorem rate_after_reset :
    (∃ rate, rationals.extrapolatedRate resetSamples 0 50000000000 = .ok (some rate) ∧
      11 / 50 ≤ rate ∧ rate ≤ 11 / 30) ∧
    wrapI64 (50 - saturatingSub 50 10) = 50 - saturatingSub 50 10 := by
  obtain ⟨⟨first, last, rate, hfirst, hlast, hrate, -, hincrease, -, -, -, -, hlow, hhigh, -⟩, hfits⟩ :=
    rate_means resetSamples_counter
  have hgrowth : growth resetSamples = 11 := by
    norm_num [growth, growthTo, resetSamples]
  rw [hincrease, hgrowth] at hlow hhigh
  rw [← Option.some.inj hfirst, ← Option.some.inj hlast] at hhigh
  constructor
  · refine ⟨rate, hrate, ?_, ?_⟩
    · norm_num at hlow
      exact hlow
    · norm_num at hhigh
      exact hhigh
  · exact hfits ⟨[], []⟩ 50 10 [] (by decide) (by decide) rfl _ mem_cons_self _
      (mem_cons_of_mem _ mem_cons_self) (by decide)

end

end Imbh.Lgtm
