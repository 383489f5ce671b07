import Mathlib.Algebra.Order.Field.Power
import Imbh.Lib.ParseFloat

/-!
# Texts of doubles

Each double that is a number has a text: its digits as a decimal number and an exponent of ten.
-/

namespace Imbh.Lib

/-! ## Ratios that are doubles -/

theorem two_zpow_eq (e : ℤ) : (2 : ℚ) ^ e = 2 ^ e.toNat / 2 ^ (-e).toNat := by
  rcases le_total 0 e with h | h
  · have hzero : (-e).toNat = 0 := by omega
    rw [hzero, pow_zero, div_one, ← zpow_natCast, Int.toNat_of_nonneg h]
  · have hzero : e.toNat = 0 := by omega
    rw [hzero, pow_zero, one_div, ← zpow_natCast, Int.toNat_of_nonneg (by omega), zpow_neg, inv_inv]

/-- A ratio against a power of two, without fractions. -/
theorem ratio_lt_iff {p q : ℕ} (hq : q ≠ 0) (e : ℤ) :
    (p : ℚ) / q < 2 ^ e ↔ p * 2 ^ (-e).toNat < q * 2 ^ e.toNat := by
  have hpos : (0 : ℚ) < q := by exact_mod_cast Nat.pos_of_ne_zero hq
  rw [two_zpow_eq, div_lt_div_iff₀ hpos (by positivity), mul_comm (2 ^ e.toNat : ℚ)]
  exact_mod_cast Iff.rfl

theorem log2_bounds {n : ℕ} (h : n ≠ 0) : (2 : ℚ) ^ (n.log2 : ℤ) ≤ n ∧ (n : ℚ) < 2 ^ (n.log2 + 1 : ℤ) := by
  have hle : 2 ^ n.log2 ≤ n := Nat.log2_self_le h
  have hlt : n < 2 ^ (n.log2 + 1) := (Nat.log2_lt h).mp (Nat.lt_succ_self _)
  exact ⟨by exact_mod_cast hle, by exact_mod_cast hlt⟩

/-- The highest bit of a ratio. -/
theorem highestBit_bounds {p q : ℕ} (hp : p ≠ 0) (hq : q ≠ 0) :
    (2 : ℚ) ^ highestBit p q ≤ p / q ∧ (p : ℚ) / q < 2 ^ (highestBit p q + 1) := by
  obtain ⟨hplo, hphi⟩ := log2_bounds hp
  obtain ⟨hqlo, hqhi⟩ := log2_bounds hq
  have hpos : (0 : ℚ) < q := by exact_mod_cast Nat.pos_of_ne_zero hq
  have hhi : (p : ℚ) / q < 2 ^ ((p.log2 : ℤ) - q.log2 + 1) := by
    rw [div_lt_iff₀ hpos]
    calc (p : ℚ) < 2 ^ (p.log2 + 1 : ℤ) := hphi
      _ = 2 ^ ((p.log2 : ℤ) - q.log2 + 1) * 2 ^ (q.log2 : ℤ) := by
        rw [← zpow_add₀ two_ne_zero]
        congr 1
        ring
      _ ≤ 2 ^ ((p.log2 : ℤ) - q.log2 + 1) * q := by gcongr
  have hlo : (2 : ℚ) ^ ((p.log2 : ℤ) - q.log2 - 1) ≤ p / q := by
    rw [le_div_iff₀ hpos]
    calc (2 : ℚ) ^ ((p.log2 : ℤ) - q.log2 - 1) * q
        ≤ 2 ^ ((p.log2 : ℤ) - q.log2 - 1) * 2 ^ (q.log2 + 1 : ℤ) := by gcongr
      _ = 2 ^ (p.log2 : ℤ) := by
        rw [← zpow_add₀ two_ne_zero]
        congr 1
        ring
      _ ≤ p := hplo
  unfold highestBit
  dsimp only
  split
  · rename_i hlt
    refine ⟨hlo, ?_⟩
    rw [sub_add_cancel]
    exact (ratio_lt_iff hq _).mpr hlt
  · rename_i hge
    exact ⟨not_lt.mp fun hlt => hge ((ratio_lt_iff hq _).mp hlt), hhi⟩

theorem roundDiv_mul (sig : ℕ) {c : ℕ} (hc : 0 < c) : roundDiv (sig * c) c = sig := by
  unfold roundDiv
  rw [Nat.mul_mod_left, Nat.mul_div_cancel _ hc, if_neg (by omega)]

/-- A ratio that is a double, or the power of two behind them, is not rounded. -/
theorem ratioBits_exact {p q sig : ℕ} {e : ℤ} (hq : q ≠ 0)
    (h : p * 2 ^ (52 - e).toNat = sig * (q * 2 ^ (e - 52).toNat)) (hlo : -1022 ≤ e) (hsig : sig < 2 ^ 53)
    (hnormal : 2 ^ 52 ≤ sig ∨ e = -1022) (hhi : (e + 1022).toNat * 2 ^ 52 + sig ≤ infinityBits) :
    ratioBits p q = (e + 1022).toNat * 2 ^ 52 + sig := by
  by_cases hp : p = 0
  · have hzero : sig = 0 := by
      rw [hp, Nat.zero_mul, eq_comm, Nat.mul_eq_zero] at h
      refine h.resolve_right (Nat.mul_ne_zero hq (by positivity))
    obtain rfl : e = -1022 := hnormal.resolve_left (by omega)
    rw [hp, hzero]
    rfl
  have hratio : (p : ℚ) / q = sig * 2 ^ (e - 52) := by
    have hpos : (q : ℚ) ≠ 0 := by exact_mod_cast hq
    have hcast : (p : ℚ) * 2 ^ (52 - e).toNat = sig * (q * 2 ^ (e - 52).toNat) := by exact_mod_cast h
    rw [two_zpow_eq, neg_sub, ← mul_div_assoc, div_eq_div_iff hpos (by positivity), hcast]
    ring
  have hsplit (k : ℤ) : (2 : ℚ) ^ (e + k) = 2 ^ (52 + k) * 2 ^ (e - 52) := by
    rw [← zpow_add₀ two_ne_zero]
    congr 1
    ring
  have hmax : max (highestBit p q) (-1022) = e := by
    obtain ⟨hbelow, habove⟩ := highestBit_bounds hp hq
    rw [hratio] at hbelow habove
    have hle : highestBit p q < e + 1 := by
      refine (zpow_lt_zpow_iff_right₀ (one_lt_two (α := ℚ))).mp (hbelow.trans_lt ?_)
      have hcast : (sig : ℚ) < 2 ^ (52 + 1 : ℤ) := by exact_mod_cast hsig
      rw [hsplit 1]
      gcongr
    rcases hnormal with hbig | rfl
    · have hge : e < highestBit p q + 1 := by
        refine (zpow_lt_zpow_iff_right₀ (one_lt_two (α := ℚ))).mp (lt_of_le_of_lt ?_ habove)
        have hcast : (2 : ℚ) ^ (52 : ℤ) ≤ sig := by exact_mod_cast hbig
        have hsame := hsplit 0
        rw [add_zero, add_zero] at hsame
        rw [hsame]
        gcongr
      omega
    · omega
  unfold ratioBits
  rw [if_neg hp]
  simp only [hmax, h]
  rw [roundDiv_mul _ (by positivity)]
  exact min_eq_right hhi

/-! ## Texts -/

/-- Digits and a negative exponent of ten. -/
def scaledText (n j : ℕ) : Text := decimal n ++ 'e' :: '-' :: decimal j

/-- A scaled number is read as the double nearest to it. -/
theorem parseDecimal_scaledText (n j : ℕ) : parseDecimal (scaledText n j) = some (ratioBits n (10 ^ j)) := by
  have hdigits : ∀ c ∈ decimal n, c.isDigit = true := fun c => isDigit_of_mem_decimal
  have htake : (scaledText n j).takeWhile Char.isDigit = decimal n := by
    unfold scaledText
    rw [List.takeWhile_append_of_pos hdigits]
    simp
  have hdrop : (scaledText n j).dropWhile Char.isDigit = 'e' :: '-' :: decimal j := by
    unfold scaledText
    rw [List.dropWhile_append_of_pos hdigits]
    simp
  have hexponent : parseExponent ('e' :: '-' :: decimal j) = some (-(j : ℤ)) := by
    simp [parseExponent, parseDigits_decimal]
  unfold parseDecimal
  simp only [htake, hdrop, splitPoint]
  rw [if_neg fun h => decimal_ne_nil n h.1]
  have hvalue : Nat.ofDigitChars 10 (decimal n) 0 = n := Nat.ofDigitChars_ten_toDigits
  simp [hexponent, hvalue]

/-- Each magnitude up to infinity is read from some text. -/
theorem exists_magnitudeText {m : ℕ} (h : m ≤ infinityBits) :
    ∃ c s, c.isDigit = true ∧ (∀ x ∈ s, x.isDigit = true ∨ x = '-' ∨ x = 'e') ∧ parseMagnitude (c :: s) = some m := by
  -- the significand with its highest bit, and the exponent of that
  obtain ⟨sig, e, hlo, hsig, hnormal, rfl⟩ : ∃ (sig : ℕ) (e : ℤ), -1022 ≤ e ∧ sig < 2 ^ 53 ∧
      (2 ^ 52 ≤ sig ∨ e = -1022) ∧ (e + 1022).toNat * 2 ^ 52 + sig = m := by
    by_cases hsub : m < 2 ^ 52
    · exact ⟨m, -1022, by omega, by omega, .inr rfl, by omega⟩
    · exact ⟨2 ^ 52 + m % 2 ^ 52, (m / 2 ^ 52 : ℕ) - 1023, by omega, by omega, .inl (by omega), by omega⟩
  have hbits : ratioBits (sig * 2 ^ (e - 52).toNat * 5 ^ (52 - e).toNat) (10 ^ (52 - e).toNat) =
      (e + 1022).toNat * 2 ^ 52 + sig := by
    refine ratioBits_exact (by positivity) ?_ hlo hsig hnormal h
    rw [show 10 = 5 * 2 from rfl, mul_pow]
    ring
  obtain ⟨c, rest, hdecimal, hc⟩ := decimal_cases (sig * 2 ^ (e - 52).toNat * 5 ^ (52 - e).toNat)
  refine ⟨c, rest ++ 'e' :: '-' :: decimal (52 - e).toNat, hc, fun x hx => ?_, ?_⟩
  · rcases List.mem_append.mp hx with hx | hx
    · exact .inl (isDigit_of_mem_decimal (hdecimal ▸ List.mem_cons_of_mem c hx))
    · rcases List.mem_cons.mp hx with rfl | hx
      · exact .inr (.inr rfl)
      · rcases List.mem_cons.mp hx with rfl | hx
        · exact .inr (.inl rfl)
        · exact .inl (isDigit_of_mem_decimal hx)
  · rw [parseMagnitude_of_isDigit hc, ← List.cons_append, ← hdecimal]
    exact (parseDecimal_scaledText _ _).trans (congrArg some hbits)

/-- Every double but a NaN is read from some text. -/
theorem exists_numberText {x : F64} (h : F64.isNaN x = false) :
    ∃ s, (∀ c ∈ s, c.isDigit = true ∨ c = '-' ∨ c = 'e') ∧ parseF64 s = some x := by
  have hle : F64.magnitude x ≤ infinityBits := not_lt.mp (of_decide_eq_false h)
  obtain ⟨c, s, hc, hs, hread⟩ := exists_magnitudeText hle
  have hlt := x.isLt
  by_cases hneg : 2 ^ 63 ≤ x.toNat
  · refine ⟨'-' :: c :: s, ?_, ?_⟩
    · rintro y (_ | ⟨_, hy⟩)
      · exact .inr (.inl rfl)
      · rcases List.mem_cons.mp hy with rfl | hy
        · exact .inl hc
        · exact hs y hy
    · show (parseMagnitude (c :: s)).map _ = some x
      rw [hread, Option.map_some]
      congr 1
      apply BitVec.eq_of_toNat_eq
      rw [BitVec.toNat_ofNat]
      unfold F64.magnitude
      omega
  · obtain ⟨hplus, hminus⟩ := ne_of_isDigit hc
    refine ⟨c :: s, ?_, ?_⟩
    · rintro y (_ | ⟨_, hy⟩)
      · exact .inl hc
      · exact hs y hy
    · unfold parseF64
      split
      · rename_i heq
        exact absurd (List.head_eq_of_cons_eq heq) hminus
      · rename_i heq
        exact absurd (List.head_eq_of_cons_eq heq) hplus
      · rw [hread, Option.map_some]
        congr 1
        apply BitVec.eq_of_toNat_eq
        rw [BitVec.toNat_ofNat]
        unfold F64.magnitude
        omega

end Imbh.Lib
