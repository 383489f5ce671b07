import Mathlib.Data.Nat.Log
import Mathlib.Tactic.Linarith

/-!
# Doubles

A double is its bits: a sign and a magnitude, whose order as a number is that of the values.
`natAsF64` and `intAsF64` are Rust's `as f64` on integers, to the nearest double and to the even one
between two. Two orders are defined: the partial one of IEEE comparisons, and the total one.
-/

namespace Imbh.Lib

/-- The bits of a double. -/
abbrev F64 : Type := BitVec 64

/-! ## Integers -/

/-- The significand of a number with the highest bit `e`: its 53 highest bits, rounded to nearest,
and to even between two. -/
def significand (n e : ℕ) : ℕ :=
  let unit := 2 ^ (e - 52)
  let q := n / unit
  let r := n % unit
  if unit < 2 * r ∨ (2 * r = unit ∧ q % 2 = 1) then q + 1 else q

/-- The number as a double would have it. -/
def roundSig (n : ℕ) : ℕ :=
  if n.log2 < 53 then n else significand n n.log2 * 2 ^ (n.log2 - 52)

/-- The bits of `n as f64`, where the exponent fits. A significand that is rounded up to the next
power of two carries into the exponent. -/
def f64Bits (n : ℕ) : ℕ :=
  if n = 0 then 0
  else if n.log2 < 53 then (n.log2 + 1023) * 2 ^ 52 + (n - 2 ^ n.log2) * 2 ^ (52 - n.log2)
  else (n.log2 + 1023) * 2 ^ 52 + (significand n n.log2 - 2 ^ 52)

/-- `n as f64` -/
def natAsF64 (n : ℕ) : F64 := BitVec.ofNat 64 (f64Bits n)

/-- `i as f64` -/
def intAsF64 (i : ℤ) : F64 :=
  BitVec.ofNat 64 (if i < 0 then 2 ^ 63 + f64Bits i.natAbs else f64Bits i.natAbs)

/-! ## Orders -/

namespace F64

def isNegative (x : F64) : Bool := decide (2 ^ 63 ≤ x.toNat)

def magnitude (x : F64) : ℕ := x.toNat % 2 ^ 63

def isNaN (x : F64) : Bool := decide (0x7ff * 2 ^ 52 < magnitude x)

/-- A number in the order of the values; both zeros are 0. -/
def value (x : F64) : ℤ := if isNegative x then -(magnitude x : ℤ) else magnitude x

/-- A number in the total order, where the negative zero is below the positive one. -/
def rank (x : F64) : ℤ := if isNegative x then -(magnitude x : ℤ) - 1 else magnitude x

/-- Source: `f64::partial_cmp` -/
def partialCmp (a b : F64) : Option Ordering :=
  if isNaN a || isNaN b then none else some (compare (value a) (value b))

/-- Source: `f64::total_cmp` -/
def totalCmp (a b : F64) : Ordering := compare (rank a) (rank b)

/-- The number without its fraction; an infinity is beyond every integer of 64 bits. -/
def truncate (x : F64) : ℤ :=
  let exponent := magnitude x / 2 ^ 52
  let number : ℕ :=
    if exponent < 1023 then 0 else (2 ^ 52 + magnitude x % 2 ^ 52) * 2 ^ (exponent - 1023) / 2 ^ 52
  if isNegative x then -(number : ℤ) else number

/-- `x as i64` -/
def asI64 (x : F64) : ℤ := if isNaN x then 0 else max (-2 ^ 63) (min (2 ^ 63 - 1) (truncate x))

/-- `a == b` -/
def eq (a b : F64) : Bool := partialCmp a b = some .eq

end F64

/-! ## Conversions -/

theorem lt_f64Bits_lower {n : ℕ} (h : n ≠ 0) : (n.log2 + 1023) * 2 ^ 52 ≤ f64Bits n := by
  unfold f64Bits
  rw [if_neg h]
  split <;> exact Nat.le_add_right _ _

/-- Below `2^53` the significand is exact. -/
theorem f64Bits_of_lt {n : ℕ} (h : n ≠ 0) (hn : n < 2 ^ 53) :
    f64Bits n = (n.log2 + 1023) * 2 ^ 52 + (n - 2 ^ n.log2) * 2 ^ (52 - n.log2) := by
  unfold f64Bits
  rw [if_neg h, if_pos ((Nat.log2_lt h).mpr hn)]

/-- The bits of a number are below those of the next power of two. -/
theorem f64Bits_upper {n : ℕ} (h : n ≠ 0) (hn : n < 2 ^ 53) :
    f64Bits n < (n.log2 + 1024) * 2 ^ 52 := by
  have hlog : n.log2 < 53 := (Nat.log2_lt h).mpr hn
  have hlt : n < 2 ^ (n.log2 + 1) := (Nat.log2_lt h).mp (Nat.lt_succ_self _)
  have hle : 2 ^ n.log2 ≤ n := Nat.log2_self_le h
  have hfrac : n - 2 ^ n.log2 < 2 ^ n.log2 := by
    rw [Nat.pow_succ] at hlt
    omega
  have hmul : (n - 2 ^ n.log2) * 2 ^ (52 - n.log2) < 2 ^ n.log2 * 2 ^ (52 - n.log2) :=
    (Nat.mul_lt_mul_right (Nat.two_pow_pos _)).mpr hfrac
  rw [← Nat.pow_add, Nat.add_sub_cancel' (Nat.lt_succ_iff.mp hlog)] at hmul
  rw [f64Bits_of_lt h hn]
  linarith

/-- A rounded significand is at most a power of two. -/
theorem significand_le {n e : ℕ} (h : n < 2 ^ (e + 1)) (he : 52 ≤ e) : significand n e ≤ 2 ^ 53 := by
  have hq : n / 2 ^ (e - 52) < 2 ^ 53 := by
    apply Nat.div_lt_of_lt_mul
    rw [← Nat.pow_add]
    have hexp : e - 52 + 53 = e + 1 := by omega
    rw [hexp]
    exact h
  unfold significand
  dsimp only
  split
  · exact hq
  · exact hq.le

/-- The bits of a number have no sign. -/
theorem f64Bits_lt_sign {n : ℕ} (hn : n < 2 ^ 64) : f64Bits n < 2 ^ 63 := by
  by_cases h : n = 0
  · rw [h]
    decide
  · have hlog : n.log2 < 64 := (Nat.log2_lt h).mpr hn
    have hlt : n < 2 ^ (n.log2 + 1) := (Nat.log2_lt h).mp (Nat.lt_succ_self _)
    by_cases hsmall : n < 2 ^ 53
    · have hup := f64Bits_upper h hsmall
      calc f64Bits n < (n.log2 + 1024) * 2 ^ 52 := hup
        _ ≤ (64 + 1024) * 2 ^ 52 := Nat.mul_le_mul_right _ (by omega)
        _ ≤ 2 ^ 63 := by decide
    · have hbig : ¬ n.log2 < 53 := fun hlog' => hsmall ((Nat.log2_lt h).mp hlog')
      have hsig := significand_le hlt (by omega)
      have hle : (n.log2 + 1023) * 2 ^ 52 ≤ (63 + 1023) * 2 ^ 52 := Nat.mul_le_mul_right _ (by omega)
      unfold f64Bits
      rw [if_neg h, if_neg hbig]
      omega

/-- The order of two numbers, of which the lower is exact. -/
theorem f64Bits_lt {a b : ℕ} (ha : a < 2 ^ 53) (hab : a < b) : f64Bits a < f64Bits b := by
  have hb : b ≠ 0 := by omega
  by_cases h0 : a = 0
  · rw [h0]
    have hlow := lt_f64Bits_lower hb
    have hpos : 0 < (b.log2 + 1023) * 2 ^ 52 := Nat.mul_pos (by omega) (by decide)
    exact lt_of_lt_of_le hpos hlow
  · have hlog : a.log2 ≤ b.log2 :=
      (Nat.le_log2 hb).mpr ((Nat.log2_self_le h0).trans hab.le)
    rcases Nat.lt_or_eq_of_le hlog with hlog | hlog
    · calc f64Bits a < (a.log2 + 1024) * 2 ^ 52 := f64Bits_upper h0 ha
        _ ≤ (b.log2 + 1023) * 2 ^ 52 := Nat.mul_le_mul_right _ (by omega)
        _ ≤ f64Bits b := lt_f64Bits_lower hb
    · have hb53 : b < 2 ^ 53 := by
        have hblog : b.log2 < 53 := hlog ▸ (Nat.log2_lt h0).mpr ha
        exact (Nat.log2_lt hb).mp hblog
      have hle : 2 ^ a.log2 ≤ a := Nat.log2_self_le h0
      rw [f64Bits_of_lt h0 ha, f64Bits_of_lt hb hb53, ← hlog]
      apply Nat.add_lt_add_left
      exact (Nat.mul_lt_mul_right (Nat.two_pow_pos _)).mpr (by omega)

theorem toNat_intAsF64 {i : ℤ} (h : i.natAbs < 2 ^ 64) :
    (intAsF64 i).toNat = if i < 0 then 2 ^ 63 + f64Bits i.natAbs else f64Bits i.natAbs := by
  have hbits := f64Bits_lt_sign h
  rw [intAsF64, BitVec.toNat_ofNat]
  split
  · exact Nat.mod_eq_of_lt (by omega)
  · exact Nat.mod_eq_of_lt (by omega)

/-- The place of an integer in the total order. -/
theorem rank_intAsF64 {i : ℤ} (h : i.natAbs < 2 ^ 64) :
    F64.rank (intAsF64 i) =
      if i < 0 then -(f64Bits i.natAbs : ℤ) - 1 else f64Bits i.natAbs := by
  have hbits := f64Bits_lt_sign h
  unfold F64.rank F64.isNegative F64.magnitude
  rw [toNat_intAsF64 h]
  split
  · rename_i hi
    rw [if_pos (decide_eq_true (Nat.le_add_right _ _)), Nat.add_mod_left, Nat.mod_eq_of_lt hbits]
  · rename_i hi
    rw [if_neg (by simpa using hbits), Nat.mod_eq_of_lt hbits]

/-- A conversion keeps the order of two integers if one of them is below `2^53`. -/
theorem intAsF64_lt {a b : ℤ} (ha : a.natAbs < 2 ^ 64) (hb : b.natAbs < 2 ^ 64)
    (hexact : a.natAbs < 2 ^ 53 ∨ b.natAbs < 2 ^ 53) (hab : a < b) :
    F64.rank (intAsF64 a) < F64.rank (intAsF64 b) := by
  rw [rank_intAsF64 ha, rank_intAsF64 hb]
  by_cases ha0 : a < 0
  · rw [if_pos ha0]
    by_cases hb0 : b < 0
    · have hlt := f64Bits_lt (a := b.natAbs) (b := a.natAbs) (by omega) (by omega)
      rw [if_pos hb0]
      omega
    · rw [if_neg hb0]
      omega
  · have hlt := f64Bits_lt (a := a.natAbs) (b := b.natAbs) (by omega) (by omega)
    rw [if_neg ha0, if_neg (by omega)]
    omega

theorem compare_congr {a b c d : ℤ} (hlt : a < b ↔ c < d) (heq : a = b ↔ c = d) :
    compare a b = compare c d := by
  rcases lt_trichotomy a b with h | h | h
  · rw [compare_lt_iff_lt.mpr h, compare_lt_iff_lt.mpr (hlt.mp h)]
  · rw [compare_eq_iff_eq.mpr h, compare_eq_iff_eq.mpr (heq.mp h)]
  · have hcd : d < c := lt_of_not_ge fun hle =>
      (lt_or_eq_of_le hle).elim (fun h' => absurd (hlt.mpr h') (not_lt.mpr h.le))
        fun h' => absurd (heq.mpr h') h.ne'
    rw [compare_gt_iff_gt.mpr h, compare_gt_iff_gt.mpr hcd]

/-- The conversions are in the order of the integers, if one of them is below `2^53`. -/
theorem totalCmp_intAsF64 {a b : ℤ} (ha : a.natAbs < 2 ^ 64) (hb : b.natAbs < 2 ^ 53) :
    F64.totalCmp (intAsF64 a) (intAsF64 b) = compare a b := by
  have hb' : b.natAbs < 2 ^ 64 := hb.trans (by decide)
  rcases lt_trichotomy a b with h | h | h
  · rw [F64.totalCmp, compare_lt_iff_lt.mpr h, compare_lt_iff_lt.mpr (intAsF64_lt ha hb' (.inr hb) h)]
  · rw [F64.totalCmp, h, compare_eq_iff_eq.mpr rfl, compare_eq_iff_eq.mpr rfl]
  · rw [F64.totalCmp, compare_gt_iff_gt.mpr h, compare_gt_iff_gt.mpr (intAsF64_lt hb' ha (.inl hb) h)]

/-- No integer becomes the negative zero. -/
theorem intAsF64_ne_negativeZero {a : ℤ} (ha : a.natAbs < 2 ^ 64) :
    intAsF64 a ≠ BitVec.ofNat 64 (2 ^ 63) := by
  intro h
  have hbits := f64Bits_lt_sign ha
  have hnat : (intAsF64 a).toNat = 2 ^ 63 := by rw [h]; rfl
  rw [toNat_intAsF64 ha] at hnat
  split at hnat
  · rename_i ha0
    have hlow := lt_f64Bits_lower (n := a.natAbs) (by omega)
    have hpos : 0 < (a.natAbs.log2 + 1023) * 2 ^ 52 := Nat.mul_pos (by omega) (by decide)
    omega
  · omega

/-- The total order tells all doubles apart. -/
theorem F64.rank_injective {a b : F64} (h : F64.rank a = F64.rank b) : a = b := by
  have ha : a.toNat < 2 ^ 64 := a.isLt
  have hb : b.toNat < 2 ^ 64 := b.isLt
  apply BitVec.eq_of_toNat_eq
  unfold F64.rank F64.isNegative F64.magnitude at h
  by_cases hna : 2 ^ 63 ≤ a.toNat
  · by_cases hnb : 2 ^ 63 ≤ b.toNat
    · rw [if_pos (decide_eq_true hna), if_pos (decide_eq_true hnb)] at h
      omega
    · rw [if_pos (decide_eq_true hna), if_neg (by simpa using hnb)] at h
      omega
  · by_cases hnb : 2 ^ 63 ≤ b.toNat
    · rw [if_neg (by simpa using hna), if_pos (decide_eq_true hnb)] at h
      omega
    · rw [if_neg (by simpa using hna), if_neg (by simpa using hnb)] at h
      omega

/-- A double whose value is 0 is one of the two zeros. -/
theorem eq_zero_of_value {x : F64} (h : F64.value x = 0) :
    x = 0 ∨ x = BitVec.ofNat 64 (2 ^ 63) := by
  have hlt : x.toNat < 2 ^ 64 := x.isLt
  have hmag : F64.magnitude x = 0 := by
    unfold F64.value at h
    split at h <;> omega
  unfold F64.magnitude at hmag
  rcases (by omega : x.toNat = 0 ∨ x.toNat = 2 ^ 63) with h0 | h0
  · exact .inl (BitVec.eq_of_toNat_eq h0)
  · exact .inr (BitVec.eq_of_toNat_eq h0)

/-- The only integer whose conversion has the value 0 is 0. -/
theorem eq_zero_of_value_intAsF64 {a : ℤ} (ha : a.natAbs < 2 ^ 64)
    (h : F64.value (intAsF64 a) = 0) : a = 0 := by
  rcases eq_zero_of_value h with h0 | h0
  · by_contra hne
    have hnat : (intAsF64 a).toNat = 0 := by rw [h0]; rfl
    have hlow := lt_f64Bits_lower (n := a.natAbs) (by omega)
    have hpos : 0 < (a.natAbs.log2 + 1023) * 2 ^ 52 := Nat.mul_pos (by omega) (by decide)
    rw [toNat_intAsF64 ha] at hnat
    split at hnat <;> omega
  · exact absurd h0 (intAsF64_ne_negativeZero ha)

/-- The orders agree on numbers that are not both zero. -/
theorem partialCmp_eq_totalCmp {a b : F64} (ha : F64.isNaN a = false) (hb : F64.isNaN b = false)
    (h : F64.value a ≠ 0 ∨ F64.value b ≠ 0) : F64.partialCmp a b = some (F64.totalCmp a b) := by
  rw [F64.partialCmp, ha, hb, Bool.or_false, if_neg Bool.false_ne_true, F64.totalCmp]
  congr 1
  unfold F64.value F64.rank at *
  rcases F64.isNegative a <;> rcases F64.isNegative b <;>
    simp only [Bool.false_eq_true, if_false, if_true] at h ⊢ <;> apply compare_congr <;> omega

end Imbh.Lib
