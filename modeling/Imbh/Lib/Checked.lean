import Imbh.Lib.Instants

/-!
# Computations that fail

A computation with numbers of an `i64` has a value, has none, or overflows. Every operation of it is checked.
-/

namespace Imbh.Lib

/-- A computation that succeeds has succeeded in its first part. -/
theorem bind_eq_ok {ε α β : Type} {x : Except ε α} {f : α → Except ε β} {b : β} :
    x >>= f = .ok b ↔ ∃ a, x = .ok a ∧ f a = .ok b := by
  constructor
  · intro h
    rcases x with e | a
    · exact absurd h (by simp [bind, Except.bind])
    · exact ⟨a, rfl, h⟩
  · rintro ⟨a, rfl, h⟩
    exact h

theorem ok_bind {ε α β : Type} (a : α) (f : α → Except ε β) : Except.ok a >>= f = f a := rfl

/-- A number of an `i64`. -/
def InI64 (n : ℤ) : Prop := minInstant ≤ n ∧ n ≤ maxInstant

instance : DecidablePred InI64 := fun n => inferInstanceAs (Decidable (minInstant ≤ n ∧ n ≤ maxInstant))

variable {n : ℤ}

theorem inI64_iff : InI64 n ↔ -9223372036854775808 ≤ n ∧ n ≤ 9223372036854775807 := by
  simp [InI64, minInstant, maxInstant]

/-- What a computation comes to. -/
inductive Checked (α : Type)
  | value (a : α)
  | absent
  | overflow
  deriving DecidableEq

namespace Checked

variable {α β : Type}

protected def bind : Checked α → (α → Checked β) → Checked β
  | value a, f => f a
  | absent, _ => absent
  | overflow, _ => overflow

instance : Monad Checked where
  pure := value
  bind := Checked.bind

/-- A value that may be missing. -/
def lift : Option α → Checked α
  | some a => value a
  | none => absent

/-- The result of an operation. -/
def op (n : ℤ) : Checked ℤ := if InI64 n then value n else overflow

/-- The result of an operation that has none out of range. Source: `i64::checked_add` and the like -/
def tryOp (n : ℤ) : Checked ℤ := if InI64 n then value n else absent

def add (a b : ℤ) : Checked ℤ := op (a + b)

def sub (a b : ℤ) : Checked ℤ := op (a - b)

def mul (a b : ℤ) : Checked ℤ := op (a * b)

@[simp] theorem pure_eq (a : α) : (pure a : Checked α) = value a := rfl

@[simp] theorem value_bind (a : α) (f : α → Checked β) : value a >>= f = f a := rfl

@[simp] theorem absent_bind (f : α → Checked β) : (absent : Checked α) >>= f = absent := rfl

@[simp] theorem overflow_bind (f : α → Checked β) : (overflow : Checked α) >>= f = overflow := rfl

theorem op_of (h : InI64 n) : op n = value n := if_pos h

theorem tryOp_of (h : InI64 n) : tryOp n = value n := if_pos h

theorem tryOp_of_not (h : ¬ InI64 n) : tryOp n = absent := if_neg h

theorem op_bind (h : InI64 n) (f : ℤ → Checked β) : op n >>= f = f n := by
  rw [op_of h, value_bind]

/-- A computation is free of overflows if its first part is, and what follows on its value. -/
theorem bind_ne_overflow_iff {x : Checked α} {f : α → Checked β} :
    x >>= f ≠ overflow ↔ x ≠ overflow ∧ ∀ a, x = value a → f a ≠ overflow := by
  cases x <;> simp

theorem bind_eq_value_iff {x : Checked α} {f : α → Checked β} {b : β} :
    x >>= f = value b ↔ ∃ a, x = value a ∧ f a = value b := by
  cases x <;> simp

theorem tryOp_eq_value {a : ℤ} (h : tryOp n = value a) : InI64 a := by
  unfold tryOp at h
  split at h
  · rename_i hin
    cases h
    exact hin
  · cases h

@[simp] theorem op_ne_overflow_iff : op n ≠ overflow ↔ InI64 n := by
  unfold op
  split <;> simp_all

@[simp] theorem op_eq_value_iff {a : ℤ} : op n = value a ↔ InI64 n ∧ n = a := by
  unfold op
  split <;> simp_all

@[simp] theorem tryOp_eq_value_iff {a : ℤ} : tryOp n = value a ↔ InI64 n ∧ n = a := by
  unfold tryOp
  split <;> simp_all

theorem lift_eq_value_iff {o : Option α} {a : α} : lift o = value a ↔ o = some a := by
  cases o <;> simp [lift]

theorem op_bind_ne_overflow_iff {f : ℤ → Checked β} : op n >>= f ≠ overflow ↔ InI64 n ∧ f n ≠ overflow := by
  rw [bind_ne_overflow_iff, op_ne_overflow_iff]
  refine and_congr_right fun h => ?_
  simp [h]

theorem op_bind_eq (n : ℤ) (f : ℤ → Checked β) : op n >>= f = if InI64 n then f n else overflow := by
  unfold op
  split <;> rfl

/-- One operation after the other overflows if one of them does. -/
theorem ite_ite_overflow (p q : Prop) [Decidable p] [Decidable q] (x : Checked α) :
    (if p then (if q then x else overflow) else overflow) = if p ∧ q then x else overflow := by
  by_cases hp : p <;> simp [hp]

theorem tryOp_ne_overflow (n : ℤ) : tryOp n ≠ overflow := by
  unfold tryOp
  split <;> simp

theorem tryOp_bind_ne_overflow_iff {f : ℤ → Checked β} : tryOp n >>= f ≠ overflow ↔ (InI64 n → f n ≠ overflow) := by
  unfold tryOp
  split <;> simp_all

theorem lift_bind_ne_overflow_iff {o : Option α} {f : α → Checked β} :
    lift o >>= f ≠ overflow ↔ ∀ a, o = some a → f a ≠ overflow := by
  cases o <;> simp [lift]

end Checked

end Imbh.Lib
