import Mathlib.Algebra.Order.Field.Rat

/-!
# Exact numbers

The rationals with both infinities and a NaN. The operations are those of doubles, without rounding and
with one zero.
-/

namespace Imbh.Lib

/-- A rational, an infinity or no number. -/
inductive ExactNumber
  | number (q : ℚ)
  | infinity
  | negInfinity
  | nan
  deriving DecidableEq

namespace ExactNumber

/-- The infinity of a sign, and no number where there is none. -/
def infinite (sign : ℤ) : ExactNumber :=
  if 0 < sign then infinity else if sign < 0 then negInfinity else nan

def sign : ExactNumber → ℤ
  | number q => if 0 < q then 1 else if q < 0 then -1 else 0
  | infinity => 1
  | negInfinity => -1
  | nan => 0

def neg : ExactNumber → ExactNumber
  | number q => number (-q)
  | infinity => negInfinity
  | negInfinity => infinity
  | nan => nan

def add : ExactNumber → ExactNumber → ExactNumber
  | number a, number b => number (a + b)
  | nan, _ | _, nan => nan
  | infinity, negInfinity | negInfinity, infinity => nan
  | infinity, _ | _, infinity => infinity
  | negInfinity, _ | _, negInfinity => negInfinity

def sub (a b : ExactNumber) : ExactNumber := add a (neg b)

def mul : ExactNumber → ExactNumber → ExactNumber
  | number a, number b => number (a * b)
  | a, b => infinite (a.sign * b.sign)

/-- A zero that divides is positive. -/
def div : ExactNumber → ExactNumber → ExactNumber
  | number a, number b => if b = 0 then infinite (number a).sign else number (a / b)
  | nan, _ | _, nan => nan
  | number _, _ => number 0
  | a, number b => infinite (a.sign * if b < 0 then -1 else 1)
  | _, _ => nan

def abs : ExactNumber → ExactNumber
  | number q => number |q|
  | nan => nan
  | _ => infinity

def isNaN : ExactNumber → Bool
  | nan => true
  | _ => false

/-- The place of a number among the others. -/
def place : ExactNumber → Option (WithBot (WithTop ℚ))
  | number q => some ((q : WithTop ℚ) : WithBot (WithTop ℚ))
  | infinity => some ((⊤ : WithTop ℚ) : WithBot (WithTop ℚ))
  | negInfinity => some ⊥
  | nan => none

def lt (a b : ExactNumber) : Bool :=
  match a.place, b.place with
  | some x, some y => decide (x < y)
  | _, _ => false

def eq (a b : ExactNumber) : Bool :=
  match a.place, b.place with
  | some x, some y => decide (x = y)
  | _, _ => false

def le (a b : ExactNumber) : Bool := lt a b || eq a b

/-- One number is at most another if both have a place, in this order. -/
theorem le_iff_place {a b : ExactNumber} : le a b = true ↔ ∃ x y, a.place = some x ∧ b.place = some y ∧ x ≤ y := by
  unfold le lt eq
  rcases a.place with _ | x
  · simp
  · rcases b.place with _ | y
    · simp
    · simp [le_iff_lt_or_eq]

/-- The total order, in which no number is above all. -/
def totalLe (a b : ExactNumber) : Bool :=
  match a.place, b.place with
  | _, none => true
  | none, some _ => false
  | some x, some y => decide (x ≤ y)

/-- A rational or the positive infinity. -/
def ofTop : WithTop ℚ → ExactNumber
  | ⊤ => infinity
  | (q : ℚ) => number q

section

variable (a b : ℚ)

@[simp] theorem add_number : add (number a) (number b) = number (a + b) := rfl

@[simp] theorem sub_number : sub (number a) (number b) = number (a - b) :=
  congrArg number (sub_eq_add_neg a b).symm

@[simp] theorem mul_number : mul (number a) (number b) = number (a * b) := rfl

theorem div_number (h : b ≠ 0) : div (number a) (number b) = number (a / b) := if_neg h

@[simp] theorem abs_number : abs (number a) = number |a| := rfl

@[simp] theorem isNaN_number : isNaN (number a) = false := rfl

@[simp] theorem lt_number : lt (number a) (number b) = decide (a < b) :=
  decide_eq_decide.mpr (WithBot.coe_lt_coe.trans WithTop.coe_lt_coe)

@[simp] theorem eq_number : eq (number a) (number b) = decide (a = b) :=
  decide_eq_decide.mpr (WithBot.coe_inj.trans WithTop.coe_inj)

@[simp] theorem le_number : le (number a) (number b) = decide (a ≤ b) := by
  rw [le, lt_number, eq_number, ← Bool.decide_or]
  exact decide_eq_decide.mpr le_iff_lt_or_eq.symm

end

section

variable (a b : WithTop ℚ)

@[simp] theorem ofTop_coe (q : ℚ) : ofTop q = number q := rfl

@[simp] theorem ofTop_top : ofTop ⊤ = infinity := rfl

@[simp] theorem place_ofTop : (ofTop a).place = some (a : WithBot (WithTop ℚ)) := by
  cases a with
  | top => rfl
  | coe q => rfl

@[simp] theorem isNaN_ofTop : isNaN (ofTop a) = false := by
  cases a with
  | top => rfl
  | coe q => rfl

@[simp] theorem eq_ofTop : eq (ofTop a) (ofTop b) = decide (a = b) := by
  unfold eq
  rw [place_ofTop, place_ofTop]
  exact decide_eq_decide.mpr WithBot.coe_inj

@[simp] theorem totalLe_ofTop : totalLe (ofTop a) (ofTop b) = decide (a ≤ b) := by
  unfold totalLe
  rw [place_ofTop, place_ofTop]
  exact decide_eq_decide.mpr WithBot.coe_le_coe

end

end ExactNumber

end Imbh.Lib
