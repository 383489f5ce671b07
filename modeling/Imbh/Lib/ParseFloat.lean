import Mathlib.Data.List.TakeWhile
import Mathlib.Tactic.Ring
import Imbh.Lib.Float64
import Imbh.Lib.Text

/-!
# The text of a double

`parseF64` is Rust's `str::parse::<f64>`: a sign, decimal digits with a point, and an exponent of ten,
to the nearest double and to the even one between two.
-/

namespace Imbh.Lib

/-! ## Rounding -/

/-- `p / q` to the nearest number, and to the even one between two. -/
def roundDiv (p q : ℕ) : ℕ :=
  if q < 2 * (p % q) ∨ (2 * (p % q) = q ∧ p / q % 2 = 1) then p / q + 1 else p / q

/-- The exponent of the highest bit of `p / q`. -/
def highestBit (p q : ℕ) : ℤ :=
  let e : ℤ := p.log2 - q.log2
  if p * 2 ^ (-e).toNat < q * 2 ^ e.toNat then e - 1 else e

def infinityBits : ℕ := 0x7ff * 2 ^ 52

/-- The bits of `p / q`. Below the least normal number the unit stays the same. -/
def ratioBits (p q : ℕ) : ℕ :=
  if p = 0 then 0
  else
    let e := max (highestBit p q) (-1022)
    let sig := roundDiv (p * 2 ^ (52 - e).toNat) (q * 2 ^ (e - 52).toNat)
    min infinityBits ((e + 1022).toNat * 2 ^ 52 + sig)

/-! ## The grammar -/

/-- The exponent of ten behind the digits. -/
def parseExponent : Text → Option ℤ
  | [] => some 0
  | c :: s =>
      if c = 'e' ∨ c = 'E' then
        match s with
        | '-' :: ds => (parseDigits ds).map fun n => -(n : ℤ)
        | '+' :: ds => (parseDigits ds).map Nat.cast
        | ds => (parseDigits ds).map Nat.cast
      else none

/-- The digits behind a point. -/
def splitPoint : Text → Text × Text
  | '.' :: s => (s.takeWhile Char.isDigit, s.dropWhile Char.isDigit)
  | s => ([], s)

/-- The bits of a decimal number without a sign. -/
def parseDecimal (s : Text) : Option ℕ :=
  let whole := s.takeWhile Char.isDigit
  let (fraction, rest) := splitPoint (s.dropWhile Char.isDigit)
  if whole = [] ∧ fraction = [] then none
  else
    (parseExponent rest).map fun exponent =>
      let e : ℤ := exponent - fraction.length
      ratioBits (Nat.ofDigitChars 10 (whole ++ fraction) 0 * 10 ^ e.toNat) (10 ^ (-e).toNat)

/-- The bits of a number without a sign. -/
def parseMagnitude (s : Text) : Option ℕ :=
  let lower := s.map Char.toLower
  if lower = "inf".toList ∨ lower = "infinity".toList then some infinityBits
  else if lower = "nan".toList then some (infinityBits + 2 ^ 51)
  else parseDecimal s

/-- Source: `str::parse::<f64>` -/
def parseF64 : Text → Option F64
  | '-' :: s => (parseMagnitude s).map fun bits => BitVec.ofNat 64 (2 ^ 63 + bits)
  | '+' :: s => (parseMagnitude s).map (BitVec.ofNat 64)
  | s => (parseMagnitude s).map (BitVec.ofNat 64)

/-- `a <= b` -/
def F64.le (a b : F64) : Bool :=
  match partialCmp a b with
  | some .lt | some .eq => true
  | _ => false

/-- `x.fract() == 0.0` -/
def F64.isWhole (x : F64) : Bool :=
  let exponent := magnitude x / 2 ^ 52
  decide (exponent < 0x7ff) &&
    if exponent < 1023 then decide (magnitude x = 0)
    else decide ((2 ^ 52 + magnitude x % 2 ^ 52) * 2 ^ (exponent - 1023) % 2 ^ 52 = 0)

/-! ## Integers -/

variable {n : ℕ}

/-- The highest bit of the significand is set. -/
theorem le_significand {e : ℕ} (h : 2 ^ e ≤ n) (he : 52 ≤ e) : 2 ^ 52 ≤ significand n e := by
  have hq : 2 ^ 52 ≤ n / 2 ^ (e - 52) := by
    apply (Nat.le_div_iff_mul_le (Nat.two_pow_pos _)).mpr
    rw [← Nat.pow_add, Nat.add_sub_cancel' he]
    exact h
  unfold significand
  dsimp only
  split
  · exact hq.trans (Nat.le_succ _)
  · exact hq

/-- The bits, with the highest bit of the significand in the exponent. -/
theorem f64Bits_eq (h : n ≠ 0) :
    f64Bits n = (n.log2 + 1022) * 2 ^ 52 +
      if n.log2 < 53 then n * 2 ^ (52 - n.log2) else significand n n.log2 := by
  have hle : 2 ^ n.log2 ≤ n := Nat.log2_self_le h
  unfold f64Bits
  rw [if_neg h]
  split
  · rename_i hsmall
    have hpow : 2 ^ n.log2 * 2 ^ (52 - n.log2) = 2 ^ 52 := by
      rw [← Nat.pow_add]
      congr 1
      omega
    have hscaled : 2 ^ 52 ≤ n * 2 ^ (52 - n.log2) := by
      rw [← hpow]
      exact Nat.mul_le_mul_right _ hle
    rw [Nat.sub_mul, hpow]
    omega
  · rename_i hbig
    have hsig := le_significand hle (by omega)
    omega

/-- The bits of a number that is rounded up to the next power of two at most. -/
theorem f64Bits_le (h : n ≠ 0) : f64Bits n ≤ (n.log2 + 1024) * 2 ^ 52 := by
  have hlt : n < 2 ^ (n.log2 + 1) := (Nat.log2_lt h).mp (Nat.lt_succ_self _)
  have hsig : (if n.log2 < 53 then n * 2 ^ (52 - n.log2) else significand n n.log2) ≤ 2 ^ 53 := by
    split
    · have hmul : n * 2 ^ (52 - n.log2) ≤ 2 ^ (n.log2 + 1) * 2 ^ (52 - n.log2) :=
        Nat.mul_le_mul_right _ hlt.le
      rw [← Nat.pow_add] at hmul
      exact hmul.trans (Nat.pow_le_pow_right (by omega) (by omega))
    · exact significand_le hlt (by omega)
  have hsplit : (n.log2 + 1024) * 2 ^ 52 = (n.log2 + 1022) * 2 ^ 52 + 2 ^ 53 := by ring
  rw [f64Bits_eq h, hsplit]
  exact Nat.add_le_add_left hsig _

theorem f64Bits_le_infinity (h : n < 2 ^ 64) : f64Bits n ≤ infinityBits := by
  by_cases h0 : n = 0
  · simp [h0, f64Bits]
  have hlog : n.log2 < 64 := (Nat.log2_lt h0).mpr h
  calc f64Bits n ≤ (n.log2 + 1024) * 2 ^ 52 := f64Bits_le h0
    _ ≤ (63 + 1024) * 2 ^ 52 := Nat.mul_le_mul_right _ (by omega)
    _ ≤ infinityBits := by decide

theorem highestBit_one (h : n ≠ 0) : highestBit n 1 = n.log2 := by
  have hone : Nat.log2 1 = 0 := by decide
  have hle : 2 ^ n.log2 ≤ n := Nat.log2_self_le h
  unfold highestBit
  simp only [hone, Nat.cast_zero, sub_zero, Int.toNat_natCast, one_mul]
  rw [if_neg]
  simpa using hle

/-- A number of 64 bits is as a ratio what it is as a double. -/
theorem ratioBits_one (h : n < 2 ^ 64) : ratioBits n 1 = f64Bits n := by
  by_cases h0 : n = 0
  · rw [h0]
    rfl
  have hexp : ((n.log2 : ℤ) + 1022).toNat = n.log2 + 1022 := by omega
  have hup : (52 - (n.log2 : ℤ)).toNat = 52 - n.log2 := by omega
  have hdown : ((n.log2 : ℤ) - 52).toNat = n.log2 - 52 := by omega
  have hround : roundDiv (n * 2 ^ (52 - n.log2)) (2 ^ (n.log2 - 52)) =
      if n.log2 < 53 then n * 2 ^ (52 - n.log2) else significand n n.log2 := by
    split
    · rename_i hsmall
      have hzero : n.log2 - 52 = 0 := by omega
      simp [hzero, roundDiv, Nat.mod_one]
    · rename_i hbig
      have hzero : 52 - n.log2 = 0 := by omega
      rw [hzero, Nat.pow_zero, Nat.mul_one]
      rfl
  unfold ratioBits
  rw [if_neg h0]
  simp only [highestBit_one h0, max_eq_left (show (-1022 : ℤ) ≤ n.log2 by omega), hexp, hup, hdown,
    one_mul, hround, ← f64Bits_eq h0]
  exact min_eq_right (f64Bits_le_infinity h)

/-! ## Literals -/

/-- The sign before the digits of an integer. -/
inductive Sign
  | bare
  | plus
  | minus
  deriving DecidableEq

def Sign.text : Sign → Text
  | .bare => []
  | .plus => ['+']
  | .minus => ['-']

def Sign.apply : Sign → ℕ → ℤ
  | .minus, n => -n
  | _, n => n

/-- A number of 64 bits as a double, with its sign. -/
def signedDouble (sign : Sign) (n : ℕ) : F64 :=
  BitVec.ofNat 64 (if sign = .minus then 2 ^ 63 + f64Bits n else f64Bits n)

/-- What begins with a digit is no word. -/
theorem parseMagnitude_of_isDigit {c : Char} (hc : c.isDigit = true) (rest : Text) :
    parseMagnitude (c :: rest) = parseDecimal (c :: rest) := by
  have hlower : c.toLower = c := by
    have hhi : c.toNat ≤ 57 := (Char.isDigit_iff_toNat.mp hc).2
    unfold Char.toLower
    rw [dif_neg]
    rintro ⟨hlo, -⟩
    have hge : 65 ≤ c.toNat := hlo
    omega
  have hword : ∀ x t, x.isDigit = false → (c :: rest).map Char.toLower ≠ x :: t := by
    intro x t hx h
    rw [List.map_cons, hlower] at h
    rw [← (List.cons.inj h).1, hc] at hx
    exact absurd hx (by simp)
  unfold parseMagnitude
  dsimp only
  rw [if_neg, if_neg]
  · exact hword _ _ rfl
  · rintro (h | h)
    · exact hword _ _ rfl h
    · exact hword _ _ rfl h

section

variable {ds : Text} (hne : ds ≠ []) (hdigits : ∀ c ∈ ds, c.isDigit = true)
include hne hdigits

theorem parseDecimal_digits :
    parseDecimal ds = some (ratioBits (Nat.ofDigitChars 10 ds 0) 1) := by
  have htake : ds.takeWhile Char.isDigit = ds := List.takeWhile_eq_self_iff.mpr hdigits
  have hdrop : ds.dropWhile Char.isDigit = [] := List.dropWhile_eq_nil_iff.mpr hdigits
  unfold parseDecimal
  simp only [htake, hdrop, splitPoint]
  rw [if_neg fun h => hne h.1]
  simp [parseExponent]

theorem parseMagnitude_digits :
    parseMagnitude ds = some (ratioBits (Nat.ofDigitChars 10 ds 0) 1) := by
  obtain ⟨c, rest, rfl⟩ := List.exists_cons_of_ne_nil hne
  rw [parseMagnitude_of_isDigit (hdigits c List.mem_cons_self) rest, parseDecimal_digits hne hdigits]

/-- A sign and digits are read as the nearest double. -/
theorem parseF64_signed (sign : Sign) (h : Nat.ofDigitChars 10 ds 0 < 2 ^ 64) :
    parseF64 (sign.text ++ ds) = some (signedDouble sign (Nat.ofDigitChars 10 ds 0)) := by
  have hmag := parseMagnitude_digits hne hdigits
  rw [ratioBits_one h] at hmag
  cases sign with
  | minus => simp [Sign.text, parseF64, hmag, signedDouble]
  | plus => simp [Sign.text, parseF64, hmag, signedDouble]
  | bare =>
    obtain ⟨c, rest, rfl⟩ := List.exists_cons_of_ne_nil hne
    obtain ⟨hplus, hminus⟩ := ne_of_isDigit (hdigits c List.mem_cons_self)
    rw [Sign.text, List.nil_append]
    unfold parseF64
    split
    · rename_i heq
      exact absurd (List.head_eq_of_cons_eq heq) hminus
    · rename_i heq
      exact absurd (List.head_eq_of_cons_eq heq) hplus
    · simp [hmag, signedDouble]

end

/-! ## A literal as an integer -/

theorem signedDouble_toNat (sign : Sign) (h : n < 2 ^ 64) :
    (signedDouble sign n).toNat = if sign = .minus then 2 ^ 63 + f64Bits n else f64Bits n := by
  have hbits := f64Bits_lt_sign h
  rw [signedDouble, BitVec.toNat_ofNat]
  split
  · exact Nat.mod_eq_of_lt (by omega)
  · exact Nat.mod_eq_of_lt (by omega)

theorem magnitude_signedDouble (sign : Sign) (h : n < 2 ^ 64) : F64.magnitude (signedDouble sign n) = f64Bits n := by
  have hbits := f64Bits_lt_sign h
  rw [F64.magnitude, signedDouble_toNat sign h]
  split <;> omega

theorem isNegative_signedDouble (sign : Sign) (h : n < 2 ^ 64) :
    F64.isNegative (signedDouble sign n) = decide (sign = .minus) := by
  have hbits := f64Bits_lt_sign h
  rw [F64.isNegative, signedDouble_toNat sign h]
  split
  · rename_i hs
    simp [hs]
  · rename_i hs
    simpa [hs] using hbits

/-- The exponent and the rest of the significand of a number; a significand that is rounded up to the next
power of two is in the next exponent. -/
theorem f64Bits_parts (h : n ≠ 0) :
    ∃ e m, f64Bits n = e * 2 ^ 52 + m ∧ m < 2 ^ 52 ∧ n.log2 + 1023 ≤ e ∧ e ≤ n.log2 + 1024 ∧
      (2 ^ 52 + m) * 2 ^ (e - 1023) = roundSig n * 2 ^ 52 := by
  have hle : 2 ^ n.log2 ≤ n := Nat.log2_self_le h
  have hlt : n < 2 ^ (n.log2 + 1) := (Nat.log2_lt h).mp (Nat.lt_succ_self _)
  rw [f64Bits_eq h]
  unfold roundSig
  by_cases hsmall : n.log2 < 53
  · rw [if_pos hsmall, if_pos hsmall]
    have hpow : 2 ^ (52 - n.log2) * 2 ^ n.log2 = 2 ^ 52 := by
      rw [← Nat.pow_add]
      congr 1
      omega
    have hlow : 2 ^ 52 ≤ n * 2 ^ (52 - n.log2) := by
      rw [← hpow, Nat.mul_comm]
      exact Nat.mul_le_mul_right _ hle
    have hhigh : n * 2 ^ (52 - n.log2) < 2 ^ 53 := by
      have hmul := (Nat.mul_lt_mul_right (Nat.two_pow_pos (52 - n.log2))).mpr hlt
      rw [Nat.pow_succ', Nat.mul_assoc, Nat.mul_comm (2 ^ n.log2), hpow] at hmul
      exact hmul
    refine ⟨n.log2 + 1023, n * 2 ^ (52 - n.log2) - 2 ^ 52, by omega, by omega, le_rfl, by omega, ?_⟩
    rw [Nat.add_sub_cancel' hlow, Nat.add_sub_cancel, Nat.mul_assoc, hpow]
  · rw [if_neg hsmall, if_neg hsmall]
    have hpow : 2 ^ n.log2 = 2 ^ (n.log2 - 52) * 2 ^ 52 := by
      rw [← Nat.pow_add]
      congr 1
      omega
    have hlow := le_significand hle (by omega)
    rcases lt_or_eq_of_le (significand_le hlt (by omega)) with hsig | hsig
    · refine ⟨n.log2 + 1023, significand n n.log2 - 2 ^ 52, by omega, by omega, le_rfl, by omega, ?_⟩
      rw [Nat.add_sub_cancel' hlow, Nat.add_sub_cancel, hpow, Nat.mul_assoc]
    · -- the carry into the exponent
      refine ⟨n.log2 + 1024, 0, by omega, by omega, by omega, le_rfl, ?_⟩
      have hexp : n.log2 + 1024 - 1023 = n.log2 + 1 := by omega
      rw [hsig, hexp, Nat.pow_succ 2 n.log2, hpow]
      ring

/-- The number that a literal stands for as a double. -/
theorem truncate_signedDouble (sign : Sign) (h : n < 2 ^ 64) :
    F64.truncate (signedDouble sign n) = sign.apply (roundSig n) := by
  have hmag := magnitude_signedDouble sign h
  have hneg := isNegative_signedDouble sign h
  unfold F64.truncate
  rw [hmag, hneg]
  by_cases h0 : n = 0
  · subst h0
    cases sign <;> simp [f64Bits, roundSig, Sign.apply]
  · obtain ⟨e, m, hbits, hm, hlow, -, hsig⟩ := f64Bits_parts h0
    have hdiv : f64Bits n / 2 ^ 52 = e := by omega
    have hmod : f64Bits n % 2 ^ 52 = m := by omega
    simp only [hdiv, hmod, hsig, if_neg (show ¬ e < 1023 by omega),
      Nat.mul_div_cancel _ (Nat.two_pow_pos 52)]
    cases sign <;> simp [Sign.apply]

/-- The double of an integer is whole. -/
theorem isWhole_signedDouble (sign : Sign) (h : n < 2 ^ 64) : F64.isWhole (signedDouble sign n) = true := by
  have hmag := magnitude_signedDouble sign h
  unfold F64.isWhole
  rw [hmag]
  by_cases h0 : n = 0
  · simp [h0, f64Bits]
  · have hlog : n.log2 < 64 := (Nat.log2_lt h0).mpr h
    obtain ⟨e, m, hbits, hm, hlow, hhigh, hsig⟩ := f64Bits_parts h0
    have hdiv : f64Bits n / 2 ^ 52 = e := by omega
    have hmod : f64Bits n % 2 ^ 52 = m := by omega
    simp only [hdiv, hmod, hsig, if_neg (show ¬ e < 1023 by omega), Nat.mul_mod_left]
    simp
    omega

theorem f64Bits_le_of_le (h : n ≤ 2 ^ 63) : f64Bits n ≤ f64Bits (2 ^ 63) := by
  rcases Nat.lt_or_eq_of_le h with hlt | rfl
  · by_cases h0 : n = 0
    · simp [h0, f64Bits]
    have hlog : n.log2 < 63 := (Nat.log2_lt h0).mpr hlt
    have hle := f64Bits_le h0
    have htop : f64Bits (2 ^ 63) = 1086 * 2 ^ 52 := by decide
    omega
  · exact le_rfl

theorem value_signedDouble (sign : Sign) (h : n < 2 ^ 64) :
    F64.value (signedDouble sign n) = sign.apply (f64Bits n) := by
  rw [F64.value, isNegative_signedDouble sign h, magnitude_signedDouble sign h]
  cases sign <;> simp [Sign.apply]

theorem isNaN_signedDouble (sign : Sign) (h : n < 2 ^ 64) : F64.isNaN (signedDouble sign n) = false := by
  have hle := f64Bits_le_infinity h
  rw [F64.isNaN, magnitude_signedDouble sign h]
  simpa [infinityBits] using hle

theorem F64.le_iff {a b : F64} (ha : F64.isNaN a = false) (hb : F64.isNaN b = false) :
    F64.le a b = true ↔ F64.value a ≤ F64.value b := by
  unfold F64.le F64.partialCmp
  rw [ha, hb, Bool.or_self, if_neg Bool.false_ne_true]
  rcases lt_trichotomy (F64.value a) (F64.value b) with h | h | h
  · simp [compare_lt_iff_lt.mpr h, h.le]
  · simp [h]
  · simp [compare_gt_iff_gt.mpr h, h]

/-- A literal of an `i64` is between the ends of the type as doubles. -/
theorem le_signedDouble (sign : Sign) (h : n ≤ 2 ^ 63) :
    F64.le (intAsF64 (-2 ^ 63)) (signedDouble sign n) = true ∧
      F64.le (signedDouble sign n) (intAsF64 (2 ^ 63 - 1)) = true := by
  have hn : n < 2 ^ 64 := by omega
  have hbits := f64Bits_le_of_le h
  have hmin : intAsF64 (-2 ^ 63) = signedDouble .minus (2 ^ 63) := by decide
  have hmax : intAsF64 (2 ^ 63 - 1) = signedDouble .bare (2 ^ 63) := by decide
  have hlt : 2 ^ 63 < 2 ^ 64 := by decide
  rw [hmin, hmax, F64.le_iff (isNaN_signedDouble _ hlt) (isNaN_signedDouble _ hn),
    F64.le_iff (isNaN_signedDouble _ hn) (isNaN_signedDouble _ hlt), value_signedDouble _ hlt,
    value_signedDouble _ hlt, value_signedDouble _ hn]
  cases sign <;> simp only [Sign.apply] <;> omega

/-- Rounding does not cross the limit. -/
theorem roundSig_le (h : n ≤ 2 ^ 63) : roundSig n ≤ 2 ^ 63 := by
  rcases Nat.lt_or_eq_of_le h with hlt | rfl
  · by_cases h0 : n = 0
    · simp [h0, roundSig]
    have hlog : n.log2 < 63 := (Nat.log2_lt h0).mpr hlt
    have hnext : n < 2 ^ (n.log2 + 1) := (Nat.log2_lt h0).mp (Nat.lt_succ_self _)
    unfold roundSig
    split
    · exact h
    · calc significand n n.log2 * 2 ^ (n.log2 - 52) ≤ 2 ^ 53 * 2 ^ (n.log2 - 52) :=
            Nat.mul_le_mul_right _ (significand_le hnext (by omega))
        _ = 2 ^ (53 + (n.log2 - 52)) := (Nat.pow_add ..).symm
        _ ≤ 2 ^ 63 := Nat.pow_le_pow_right (by omega) (by omega)
  · decide

/-- A literal as an integer: it is rounded, and no more than the greatest `i64`. -/
theorem asI64_signedDouble (sign : Sign) (h : n ≤ 2 ^ 63) :
    F64.asI64 (signedDouble sign n) = min (2 ^ 63 - 1) (sign.apply (roundSig n)) := by
  have hn : n < 2 ^ 64 := by omega
  rw [F64.asI64, isNaN_signedDouble sign hn, if_neg Bool.false_ne_true, truncate_signedDouble sign hn]
  have hle := roundSig_le h
  cases sign <;> simp only [Sign.apply] <;> omega

/-! ## Through a double -/

/-- `n as f64 as i64`: the number nearest to `n` that is a double, in the range of an `i64`. -/
def throughF64 (n : ℤ) : ℤ :=
  min (2 ^ 63 - 1) (if n < 0 then -(roundSig n.natAbs : ℤ) else roundSig n.natAbs)

theorem roundSig_of_lt (h : n < 2 ^ 53) : roundSig n = n := by
  by_cases h0 : n = 0
  · simp [h0, roundSig]
  · exact if_pos ((Nat.log2_lt h0).mpr h)

theorem le_roundSig (h : 2 ^ 53 ≤ n) : 2 ^ 53 ≤ roundSig n := by
  have h0 : n ≠ 0 := by omega
  have hlog : 53 ≤ n.log2 := (Nat.le_log2 h0).mpr h
  have hsig := le_significand (Nat.log2_self_le h0) (by omega)
  unfold roundSig
  rw [if_neg (by omega)]
  calc 2 ^ 53 = 2 ^ 52 * 2 ^ 1 := rfl
    _ ≤ significand n n.log2 * 2 ^ (n.log2 - 52) :=
      Nat.mul_le_mul hsig (Nat.pow_le_pow_right (by omega) (by omega))

/-- Going through a double rounds and saturates. -/
theorem throughF64_apply (sign : Sign) (n : ℕ) :
    min (2 ^ 63 - 1) (sign.apply (roundSig n)) = throughF64 (sign.apply n) := by
  unfold throughF64
  cases sign with
  | minus =>
    by_cases h0 : n = 0
    · simp [h0, Sign.apply, roundSig]
    · simp [Sign.apply, Nat.pos_of_ne_zero h0]
  | _ =>
    have hn : ¬ (n : ℤ) < 0 := by omega
    exact congrArg _ (if_neg hn).symm

theorem throughF64_of_lt {n : ℤ} (h : n.natAbs < 2 ^ 53) : throughF64 n = n := by
  unfold throughF64
  rw [roundSig_of_lt h]
  split <;> omega

theorem le_natAbs_throughF64 {n : ℤ} (h : 2 ^ 53 ≤ n.natAbs) : 2 ^ 53 ≤ (throughF64 n).natAbs := by
  have hle := le_roundSig h
  unfold throughF64
  split <;> omega

theorem throughF64_range {n : ℤ} (h : n.natAbs ≤ 2 ^ 63) :
    -2 ^ 63 ≤ throughF64 n ∧ throughF64 n < 2 ^ 63 := by
  have hle := roundSig_le h
  unfold throughF64
  split <;> omega

end Imbh.Lib
