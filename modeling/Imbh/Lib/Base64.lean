import Imbh.Lib.Text

/-!
# Base64

The standard alphabet with padding: three bytes are four characters, and an end of one or two bytes is
filled up. A decoder takes the canonical text only, with its padding and no stray bits behind the last byte.
-/

namespace Imbh.Lib

open Option

/-- The character of six bits. -/
def base64Digit (n : ℕ) : Char :=
  if n < 26 then Char.ofNat (65 + n)
  else if n < 52 then Char.ofNat (71 + n)
  else if n < 62 then Char.ofNat (n - 4)
  else if n = 62 then '+' else '/'

/-- The six bits of a character of the alphabet. -/
def base64Value (c : Char) : Option ℕ :=
  let n := c.toNat
  if 65 ≤ n ∧ n ≤ 90 then some (n - 65)
  else if 97 ≤ n ∧ n ≤ 122 then some (n - 71)
  else if 48 ≤ n ∧ n ≤ 57 then some (n + 4)
  else if c = '+' then some 62
  else if c = '/' then some 63 else none

def base64Encode : Bytes → Text
  | [] => []
  | [a] => [base64Digit (a.toNat / 4), base64Digit (a.toNat % 4 * 16), '=', '=']
  | [a, b] =>
      let n := a.toNat * 256 + b.toNat
      [base64Digit (n / 1024), base64Digit (n / 16 % 64), base64Digit (n % 16 * 4), '=']
  | a :: b :: c :: rest =>
      let n := (a.toNat * 256 + b.toNat) * 256 + c.toNat
      base64Digit (n / 262144) :: base64Digit (n / 4096 % 64) :: base64Digit (n / 64 % 64) ::
        base64Digit (n % 64) :: base64Encode rest

/-- The bytes of the last four characters. -/
def base64Last (p q r s : Char) : Option Bytes := do
  let a ← base64Value p
  let b ← base64Value q
  if r = '=' ∧ s = '=' then
    if b % 16 = 0 then some [UInt8.ofNat (a * 4 + b / 16)] else none
  else
    let c ← base64Value r
    if s = '=' then
      if c % 4 = 0 then some [UInt8.ofNat (a * 4 + b / 16), UInt8.ofNat (b % 16 * 16 + c / 4)] else none
    else
      let d ← base64Value s
      some [UInt8.ofNat (a * 4 + b / 16), UInt8.ofNat (b % 16 * 16 + c / 4), UInt8.ofNat (c % 4 * 64 + d)]

def base64Decode : Text → Option Bytes
  | [] => some []
  | [p, q, r, s] => base64Last p q r s
  | p :: q :: r :: s :: rest => do
      let a ← base64Value p
      let b ← base64Value q
      let c ← base64Value r
      let d ← base64Value s
      let bytes ← base64Decode rest
      some (UInt8.ofNat (a * 4 + b / 16) :: UInt8.ofNat (b % 16 * 16 + c / 4) ::
        UInt8.ofNat (c % 4 * 64 + d) :: bytes)
  | _ => none

theorem base64Value_digit {n : ℕ} (h : n < 64) : base64Value (base64Digit n) = some n := by
  have hall : ∀ n < 64, base64Value (base64Digit n) = some n := by decide
  exact hall n h

/-- No digit is the padding, and each is visible. -/
theorem base64Digit_visible {n : ℕ} (h : n < 64) :
    base64Digit n ≠ '=' ∧ 33 ≤ (base64Digit n).toNat ∧ (base64Digit n).toNat ≤ 126 := by
  have hall : ∀ n < 64, base64Digit n ≠ '=' ∧ 33 ≤ (base64Digit n).toNat ∧ (base64Digit n).toNat ≤ 126 := by
    decide
  exact hall n h

theorem ofNat_eq_of_toNat {n : ℕ} {b : UInt8} (h : n = b.toNat) : UInt8.ofNat n = b := by
  rw [h]
  exact UInt8.ofNat_toNat

/-- What was encoded is decoded. -/
theorem base64Decode_encode (bytes : Bytes) : base64Decode (base64Encode bytes) = some bytes := by
  induction bytes using base64Encode.induct with
  | case1 => rfl
  | case2 a =>
    have ha := UInt8.toNat_lt a
    rw [base64Encode, base64Decode, base64Last, base64Value_digit (by omega), base64Value_digit (by omega)]
    have hbyte : UInt8.ofNat (a.toNat / 4 * 4 + a.toNat % 4 * 16 / 16) = a := ofNat_eq_of_toNat (by omega)
    dsimp only [bind_eq_bind, bind_some]
    rw [if_pos ⟨rfl, rfl⟩, if_pos (by omega), hbyte]
  | case3 a b =>
    have ha := UInt8.toNat_lt a
    have hb := UInt8.toNat_lt b
    obtain ⟨n, hn⟩ : ∃ n, n = a.toNat * 256 + b.toNat := ⟨_, rfl⟩
    have hdigit := (base64Digit_visible (show n % 16 * 4 < 64 by omega)).1
    rw [base64Encode]
    rw [← hn, base64Decode, base64Last, base64Value_digit (by omega), base64Value_digit (by omega),
      base64Value_digit (by omega)]
    have hfirst : UInt8.ofNat (n / 1024 * 4 + n / 16 % 64 / 16) = a := ofNat_eq_of_toNat (by omega)
    have hsecond : UInt8.ofNat (n / 16 % 64 % 16 * 16 + n % 16 * 4 / 4) = b := ofNat_eq_of_toNat (by omega)
    dsimp only [bind_eq_bind, bind_some]
    rw [if_neg fun h => hdigit h.1, if_pos rfl, if_pos (by omega), hfirst, hsecond]
  | case4 a b c rest ih =>
    have ha := UInt8.toNat_lt a
    have hb := UInt8.toNat_lt b
    have hc := UInt8.toNat_lt c
    obtain ⟨n, hn⟩ : ∃ n, n = (a.toNat * 256 + b.toNat) * 256 + c.toNat := ⟨_, rfl⟩
    have hfirst : UInt8.ofNat (n / 262144 * 4 + n / 4096 % 64 / 16) = a := ofNat_eq_of_toNat (by omega)
    have hsecond : UInt8.ofNat (n / 4096 % 64 % 16 * 16 + n / 64 % 64 / 4) = b :=
      ofNat_eq_of_toNat (by omega)
    have hthird : UInt8.ofNat (n / 64 % 64 % 4 * 64 + n % 64) = c := ofNat_eq_of_toNat (by omega)
    have hr := (base64Digit_visible (show n / 64 % 64 < 64 by omega)).1
    have hs := (base64Digit_visible (show n % 64 < 64 by omega)).1
    rw [base64Encode]
    rw [← hn]
    rcases henc : base64Encode rest with _ | ⟨x, xs⟩
    · -- no more bytes: the four characters are the last
      rw [henc, base64Decode] at ih
      rw [base64Decode, base64Last, base64Value_digit (by omega), base64Value_digit (by omega),
        base64Value_digit (by omega), base64Value_digit (by omega)]
      dsimp only [bind_eq_bind, bind_some]
      rw [if_neg fun h => hr h.1, if_neg hs, hfirst, hsecond, hthird, ← some.inj ih]
    · rw [henc] at ih
      rw [base64Decode, base64Value_digit (by omega), base64Value_digit (by omega),
        base64Value_digit (by omega), base64Value_digit (by omega), ih]
      · dsimp only [bind_eq_bind, bind_some]
        rw [hfirst, hsecond, hthird]
      · exact List.cons_ne_nil x xs

end Imbh.Lib
