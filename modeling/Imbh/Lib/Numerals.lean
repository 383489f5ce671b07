import Imbh.Lib.Text

/-!
# Numbers in texts

Numbers that are written with zeros before them, and numbers that are read with a sign.
-/

namespace Imbh.Lib

open List Option

/-- The number with zeros before it, as `format!` pads it. -/
def padded (width n : ℕ) : Text := List.replicate (width - (decimal n).length) '0' ++ decimal n

/-- The same, of a number with a sign. -/
def paddedInt (width : ℕ) (x : ℤ) : Text :=
  if x < 0 then '-' :: padded (width - 1) x.natAbs else padded width x.natAbs

/-- A number of an `i64` with an optional sign. Source: `parse::<i64>` -/
def parseInt (s : Text) : Option ℤ := (parseI64 s).map Int64.toInt

section

variable {s : Text}

theorem isDigit_of_mem_padded {width n : ℕ} {c : Char} (h : c ∈ padded width n) : c.isDigit = true := by
  rcases mem_append.mp h with h | h
  · rw [eq_of_mem_replicate h]
    rfl
  · exact isDigit_of_mem_decimal h

theorem not_mem_padded {c : Char} (hc : c.isDigit = false) (width n : ℕ) : c ∉ padded width n := fun h =>
  absurd (isDigit_of_mem_padded h) (by rw [hc]; exact Bool.false_ne_true)

/-- A padded number is read as itself. -/
theorem ofDigitChars_padded (width n : ℕ) : Nat.ofDigitChars 10 (padded width n) 0 = n := by
  have hzeros (k : ℕ) : Nat.ofDigitChars 10 (List.replicate k '0' ++ decimal n) 0 = n := by
    induction k with
    | zero => exact Nat.ofDigitChars_ten_toDigits
    | succ k ih =>
      rw [replicate_succ, cons_append, Nat.ofDigitChars_cons]
      exact ih
  exact hzeros _

theorem padded_ne_nil (width n : ℕ) : padded width n ≠ [] :=
  append_ne_nil_of_right_ne_nil _ (decimal_ne_nil n)

theorem paddedInt_nat (width n : ℕ) : paddedInt width n = padded width n := by
  unfold paddedInt
  rw [if_neg (by omega), Int.natAbs_natCast]

theorem paddedInt_toNat {width : ℕ} {z : ℤ} (h : 0 ≤ z) : paddedInt width z = padded width z.toNat := by
  conv_lhs => rw [← Int.toNat_of_nonneg h]
  exact paddedInt_nat _ _

theorem length_padded {width n : ℕ} (hpos : 0 < width) (h : n < 10 ^ width) : (padded width n).length = width := by
  have hlen : (decimal n).length ≤ width := (Nat.length_toDigits_le_iff (by decide) hpos).mpr h
  unfold padded
  rw [length_append, length_replicate]
  omega

/-- Digits are below the power of ten of their count. -/
theorem ofDigitChars_lt (hs : ∀ c ∈ s, c.isDigit = true) : Nat.ofDigitChars 10 s 0 < 10 ^ s.length := by
  induction s with
  | nil => simp
  | cons c s ih =>
    have hc : c.toNat - '0'.toNat < 10 := by
      have hdigit := hs c mem_cons_self
      unfold Char.isDigit at hdigit
      simp only [Bool.and_eq_true, decide_eq_true_eq] at hdigit
      have hhi : c.toNat ≤ 57 := hdigit.2
      show c.toNat - 48 < 10
      omega
    have hrest := ih fun x hx => hs x (mem_cons_of_mem _ hx)
    rw [Nat.ofDigitChars_cons, Nat.ofDigitChars_eq_ofDigitChars_zero, length_cons, pow_succ]
    nlinarith [Nat.mul_le_mul_left (10 ^ s.length) (Nat.le_of_lt_succ hc)]

/-- The first digits are the number without the others. -/
theorem ofDigitChars_take (hs : ∀ c ∈ s, c.isDigit = true) (k : ℕ) :
    Nat.ofDigitChars 10 (s.take k) 0 = Nat.ofDigitChars 10 s 0 / 10 ^ (s.length - k) := by
  have hrest : Nat.ofDigitChars 10 (s.drop k) 0 < 10 ^ (s.drop k).length :=
    ofDigitChars_lt fun c hc => hs c (mem_of_mem_drop hc)
  have hsplit : Nat.ofDigitChars 10 s 0 =
      10 ^ (s.length - k) * Nat.ofDigitChars 10 (s.take k) 0 + Nat.ofDigitChars 10 (s.drop k) 0 := by
    conv_lhs => rw [← take_append_drop k s, Nat.ofDigitChars_append, Nat.ofDigitChars_eq_ofDigitChars_zero]
    rw [length_drop]
  rw [length_drop] at hrest
  rw [hsplit, Nat.mul_add_div (by positivity), Nat.div_eq_of_lt hrest, Nat.add_zero]

theorem parseDigits_eq (hne : s ≠ []) (hs : ∀ c ∈ s, c.isDigit = true) :
    parseDigits s = some (Nat.ofDigitChars 10 s 0) :=
  if_pos ⟨hne, all_eq_true.mpr hs⟩

/-- Digits are read as their number. -/
theorem parseInt_digits (hne : s ≠ []) (hs : ∀ c ∈ s, c.isDigit = true)
    (h : Nat.ofDigitChars 10 s 0 < 2 ^ 63) : parseInt s = some (Nat.ofDigitChars 10 s 0 : ℤ) := by
  have hsign : ∀ c ∈ s, c ≠ '+' ∧ c ≠ '-' := fun c hc => ne_of_isDigit (hs c hc)
  have hread : parseI64 s = some (Int64.ofInt (Nat.ofDigitChars 10 s 0)) := by
    unfold parseI64
    split
    · exact absurd rfl (hsign '-' (by simp)).2
    · exact absurd rfl (hsign '+' (by simp)).1
    · rw [parseDigits_eq hne hs, bind_some, if_pos h]
  rw [parseInt, hread, map_some, Int64.toInt_ofInt_of_le (by omega) (by omega)]

theorem parseInt_padded {width n : ℕ} (h : n < 2 ^ 63) : parseInt (padded width n) = some (n : ℤ) := by
  have hread := parseInt_digits (padded_ne_nil width n) (fun c hc => isDigit_of_mem_padded hc)
    (by rwa [ofDigitChars_padded])
  rwa [ofDigitChars_padded] at hread

theorem parseInt_bounds {n : ℤ} (h : parseInt s = some n) : -2 ^ 63 ≤ n ∧ n < 2 ^ 63 := by
  obtain ⟨z, -, rfl⟩ := map_eq_some_iff.mp h
  exact ⟨z.le_toInt, z.toInt_lt⟩

/-- Without a minus sign, no number is below zero. -/
theorem parseInt_nonneg {n : ℤ} (hs : '-' ∉ s) (h : parseInt s = some n) : 0 ≤ n := by
  obtain ⟨z, hz, rfl⟩ := map_eq_some_iff.mp h
  have hof : ∀ {digits : Text}, ((parseDigits digits).bind fun n =>
      if n < 2 ^ 63 then some (Int64.ofInt n) else none) = some z → 0 ≤ z.toInt := by
    intro digits hdigits
    obtain ⟨n, -, hn⟩ := bind_eq_some_iff.mp hdigits
    split at hn
    · cases hn
      rw [Int64.toInt_ofInt_of_le (by omega) (by omega)]
      omega
    · cases hn
  unfold parseI64 at hz
  split at hz
  · exact absurd mem_cons_self hs
  · exact hof hz
  · exact hof hz

end

end Imbh.Lib
