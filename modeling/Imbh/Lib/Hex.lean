import Mathlib.Tactic.Ring
import Imbh.Lib.Text

/-!
# Hexadecimal numbers
-/

namespace Imbh.Lib

/-- The last digits of a number, so many. -/
def hexFixed : ℕ → ℕ → Text
  | 0, _ => []
  | k + 1, n => Nat.digitChar (n / 16 ^ k % 16) :: hexFixed k n

def hexValue (c : Char) : Option ℕ :=
  if '0' ≤ c ∧ c ≤ '9' then some (c.toNat - 48)
  else if 'a' ≤ c ∧ c ≤ 'f' then some (c.toNat - 87)
  else if 'A' ≤ c ∧ c ≤ 'F' then some (c.toNat - 55)
  else none

/-- The number of some digits, behind one that was read before. -/
def hexDigits : Text → ℕ → Option ℕ
  | [], acc => some acc
  | c :: s, acc => (hexValue c).bind fun d => hexDigits s (16 * acc + d)

/-- Source: `u64::from_str_radix`, of base 16 -/
def parseHex (s : Text) : Option UInt64 :=
  let digits :=
    match s with
    | '+' :: rest => rest
    | _ => s
  if digits = [] then none
  else (hexDigits digits 0).bind fun n => if n < 2 ^ 64 then some (UInt64.ofNat n) else none

theorem hexValue_digitChar {d : ℕ} (h : d < 16) : hexValue (Nat.digitChar d) = some d := by
  have hall : ∀ d : Fin 16, hexValue (Nat.digitChar d) = some d.val := by decide
  exact hall ⟨d, h⟩

theorem digitChar_ne_plus {d : ℕ} (h : d < 16) : Nat.digitChar d ≠ '+' := by
  have hall : ∀ d : Fin 16, Nat.digitChar d ≠ '+' := by decide
  exact hall ⟨d, h⟩

/-- The digits add to what was read before. -/
theorem hexDigits_hexFixed (k n acc : ℕ) : hexDigits (hexFixed k n) acc = some (16 ^ k * acc + n % 16 ^ k) := by
  induction k generalizing acc with
  | zero => simp [hexFixed, hexDigits, Nat.mod_one]
  | succ k ih =>
    rw [hexFixed, hexDigits, hexValue_digitChar (Nat.mod_lt _ (by simp)), Option.bind_some, ih, pow_succ,
      Nat.mod_mul]
    refine congrArg some ?_
    ring

/-- A number of a fixed count of digits is read back. -/
theorem parseHex_hexFixed (n : UInt64) : parseHex (hexFixed 16 n.toNat) = some n := by
  have hplus : ∀ rest, hexFixed 16 n.toNat ≠ '+' :: rest := by
    intro rest heq
    rw [hexFixed] at heq
    exact digitChar_ne_plus (Nat.mod_lt _ (by simp)) (List.head_eq_of_cons_eq heq)
  have hlt : n.toNat % 16 ^ 16 = n.toNat := Nat.mod_eq_of_lt n.toNat_lt
  unfold parseHex
  split
  · rename_i rest heq
    exact absurd heq (hplus rest)
  · simp only
    rw [if_neg (by simp [hexFixed]), hexDigits_hexFixed, Option.bind_some, hlt, Nat.mul_zero, Nat.zero_add,
      if_pos n.toNat_lt, UInt64.ofNat_toNat]

/-- The digits are no control characters. -/
theorem mem_hexFixed {k n : ℕ} {c : Char} (h : c ∈ hexFixed k n) : c ≠ '\t' ∧ c ≠ '\n' ∧ c ≠ '\r' := by
  induction k with
  | zero => cases h
  | succ k ih =>
    rcases List.mem_cons.mp h with rfl | h
    · have hall : ∀ d : Fin 16, Nat.digitChar d ≠ '\t' ∧ Nat.digitChar d ≠ '\n' ∧ Nat.digitChar d ≠ '\r' := by decide
      exact hall ⟨n / 16 ^ k % 16, Nat.mod_lt _ (by simp)⟩
    · exact ih h

end Imbh.Lib
