import Mathlib.Order.Lattice.Nat

/-!
# Ascents

A step is repeated until it keeps the size of its argument. Where the sizes follow a monotone map below a
cap, they ascend to the least fixed point of the map, in no more rounds than the cap and one more.
-/

namespace Imbh.Lib

variable {α : Type} (step : α → α) (size : α → ℕ)

/-- At most so many rounds, up to the first that keeps the size. -/
def ascend : ℕ → α → α
  | 0, a => a
  | n + 1, a => if size (step a) = size a then step a else ascend n (step a)

variable {step size}

/-- A size is a fixed point of the map, and no fixed point from the start on is less. -/
theorem ascend_spec {f : ℕ → ℕ} (hf : Monotone f) (hsize : ∀ a, size (step a) = f (size a)) {cap : ℕ}
    (hcap : ∀ k, f k ≤ cap) {n : ℕ} {a : α} (hrounds : cap < n + size a) (hup : size a ≤ f (size a)) :
    ∃ b, ascend step size n a = step b ∧ size b = size (step b) ∧
      ∀ k, size a ≤ k → f k ≤ k → size (step b) ≤ k := by
  induction n generalizing a with
  | zero =>
    have hle := hup.trans (hcap _)
    omega
  | succ n ih =>
    unfold ascend
    split
    · rename_i hsettled
      exact ⟨a, rfl, hsettled.symm, fun k hk _ => hsettled.trans_le hk⟩
    · rename_i hmoved
      rw [hsize] at hmoved
      have hnext : size (step a) ≤ f (size (step a)) := by
        rw [hsize]
        exact hf hup
      obtain ⟨b, hb, hfix, hleast⟩ := ih (by rw [hsize]; omega) hnext
      refine ⟨b, hb, hfix, fun k hk hpre => hleast k ?_ hpre⟩
      rw [hsize]
      exact (hf hk).trans hpre

end Imbh.Lib
