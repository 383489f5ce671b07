import Mathlib.Tactic.Linarith

/-!
# Little-endian integers in byte lists

`leBytes k n` is the `k`-byte little-endian text of `n` (its low `8 * k` bits) and `ofLe` reads
such a text back. Fixed-width headers are concatenations of these, so the file also has the
two facts a header needs: the length of each field, and how a field is cut out of a
concatenation.
-/

namespace Imbh.Lib

/-- A byte string. -/
abbrev Bytes : Type := List UInt8

/-- The `k` low bytes of `n`, least significant first. -/
def leBytes : ℕ → ℕ → Bytes
  | 0, _ => []
  | k + 1, n => UInt8.ofNat n :: leBytes k (n / 256)

/-- The number a little-endian byte string denotes. -/
def ofLe : Bytes → ℕ
  | [] => 0
  | b :: bs => b.toNat + 256 * ofLe bs

@[simp] theorem leBytes_length (k n : ℕ) : (leBytes k n).length = k := by
  induction k generalizing n with
  | zero => rfl
  | succ k ih => simp [leBytes, ih]

/-- Reading back what was written gives the number modulo the width. -/
theorem ofLe_leBytes (k n : ℕ) : ofLe (leBytes k n) = n % 256 ^ k := by
  induction k generalizing n with
  | zero => simp [leBytes, ofLe, Nat.mod_one]
  | succ k ih =>
      have hb : (UInt8.ofNat n).toNat = n % 256 := by simp
      rw [leBytes, ofLe, ih, hb, Nat.pow_succ', Nat.mod_mul]

/-- Reading back what was written gives the number, when it fits the width. -/
theorem ofLe_leBytes_of_lt {k n : ℕ} (h : n < 256 ^ k) : ofLe (leBytes k n) = n := by
  rw [ofLe_leBytes, Nat.mod_eq_of_lt h]

/-! ## Cutting a field out of a concatenation -/

section fields

variable {α : Type*}

/-- The first field of a concatenation. -/
theorem take_append_of_length {xs ys : List α} {n : ℕ} (h : xs.length = n) :
    (xs ++ ys).take n = xs := by
  subst h
  exact List.take_left

/-- Skipping the first field of a concatenation. -/
theorem drop_append_of_length {xs ys : List α} {n m : ℕ} (h : xs.length = n) :
    (xs ++ ys).drop (n + m) = ys.drop m := by
  subst h
  rw [← List.drop_drop, List.drop_left]

/-- A prefix of a concatenation that is long enough contains the first field whole. -/
theorem take_of_prefix_append {xs ys t : List α} {n : ℕ} (h : xs.length = n)
    (ht : t <+: xs ++ ys) (hn : n ≤ t.length) : t.take n = xs := by
  obtain ⟨u, hu⟩ := ht
  have htake : (xs ++ ys).take n = xs := take_append_of_length h
  rw [← htake, ← hu, List.take_append_of_le_length hn]

end fields

end Imbh.Lib
