import Mathlib.Algebra.Group.Nat.Defs
import Mathlib.Algebra.Order.Group.Int
import Mathlib.Algebra.Order.Group.Unbundled.Basic

/-!
# Instants

An instant is a number of nanoseconds in an `i64`, and here an integer. The operations that saturate or
wrap around are those of `i64`.
-/

namespace Imbh.Lib

/-- The least and the greatest instant. -/
def minInstant : ℤ := -2 ^ 63

def maxInstant : ℤ := 2 ^ 63 - 1

/-- A number as an `i64`, wrapped around. -/
def wrapI64 (n : ℤ) : ℤ := (n + 2 ^ 63) % 2 ^ 64 - 2 ^ 63

/-- A number in the range of an `i64`. -/
def clampI64 (n : ℤ) : ℤ := max minInstant (min maxInstant n)

/-- `i64::saturating_add` -/
def saturatingAdd (a b : ℤ) : ℤ := clampI64 (a + b)

/-- `i64::saturating_sub`, of a duration that is a `u64` and is cut to an `i64` -/
def saturatingSub (a : ℤ) (duration : ℕ) : ℤ := clampI64 (a - min duration (2 ^ 63 - 1))

theorem clampI64_mono {a b : ℤ} (h : a ≤ b) : clampI64 a ≤ clampI64 b :=
  max_le_max_left _ (min_le_min_left _ h)

theorem saturatingSub_mono {a b : ℤ} (h : a ≤ b) (duration : ℕ) :
    saturatingSub a duration ≤ saturatingSub b duration :=
  clampI64_mono (sub_le_sub_right h _)

end Imbh.Lib
