import Mathlib.Algebra.BigOperators.Group.List.Basic
import Mathlib.Algebra.Field.Basic
import Mathlib.Data.Nat.Cast.Basic
import Mathlib.Algebra.CharZero.Defs
import Mathlib.Tactic.Ring

/-!
# Mean and variance

The mean of a list, the sum of the squared deviations from it, and the mean that is kept up to date
value by value.
-/

namespace Statistics

variable {K : Type*} [Field K]

def mean (xs : List K) : K := xs.sum / xs.length

def deviations (xs : List K) : K := (xs.map fun x => (x - mean xs) ^ 2).sum

/-- A mean `m` of `k` values, when there is one more value `x`. -/
def addValue (m : K) (k : ℕ) (x : K) : K := (m * k + x) / (k + 1)

theorem addValue_mul [CharZero K] (m : K) (k : ℕ) (x : K) : addValue m k x * (k + 1) = m * k + x :=
  div_mul_cancel₀ _ (Nat.cast_add_one_ne_zero k)

/-- The squared distances from a value `m`. -/
theorem sum_sq_sub (m : K) (xs : List K) : (xs.map fun x => (x - m) ^ 2).sum =
    (xs.map (· ^ 2)).sum - (m + m) * xs.sum + xs.length * m ^ 2 := by
  induction xs with
  | nil => simp
  | cons x xs ih =>
      rw [List.map_cons, List.sum_cons, ih, List.map_cons, List.sum_cons, List.sum_cons,
        List.length_cons, Nat.cast_succ]
      ring

/-- The sum of the squared deviations, without the mean: `n Σ (x - mean)² = n Σ x² - (Σ x)²`. -/
theorem length_mul_deviations [CharZero K] (xs : List K) :
    xs.length * deviations xs = xs.length * (xs.map (· ^ 2)).sum - xs.sum ^ 2 := by
  cases xs with
  | nil => simp
  | cons x xs =>
      have hmean : mean (x :: xs) * (x :: xs).length = (x :: xs).sum :=
        div_mul_cancel₀ _ (Nat.cast_ne_zero.mpr (Nat.succ_ne_zero _))
      rw [deviations, sum_sq_sub, ← hmean]
      ring

end Statistics
