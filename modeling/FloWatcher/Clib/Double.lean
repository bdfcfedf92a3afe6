import Mathlib.Algebra.Order.Field.Power
import Mathlib.Algebra.Order.Field.Rat
import Mathlib.Data.Int.Log
import Mathlib.Data.Rat.Floor
import Mathlib.Tactic.Linarith
import Mathlib.Tactic.Positivity
import Mathlib.Tactic.Ring

/-!
# Numbers of type `double`

A `double` is the rational number that it stands for. Every result is rounded to 53 significant
bits, to the nearest number of that kind, or to the one with an even last bit when there are two.
Integers below `2 ^ 53` are exact (`double_natCast`), and what is lost of any other number is at
most its `2 ^ 53`th part (`abs_double_sub_le`). Numbers so large that they become infinite, and so
small that they have fewer bits, are not modelled, nor is the sign of zero.
-/

namespace Clib

/-- The nearest integer, or the even one of two. -/
def roundHalfEven (q : ℚ) : ℤ :=
  if q - ⌊q⌋ < 1 / 2 ∨ q - ⌊q⌋ = 1 / 2 ∧ Even ⌊q⌋ then ⌊q⌋ else ⌊q⌋ + 1

/-- The exponent of the last of the 53 bits. -/
def lastBit (q : ℚ) : ℤ := Int.log 2 |q| - 52

def double (q : ℚ) : ℚ := roundHalfEven (q / 2 ^ lastBit q) * 2 ^ lastBit q

/-- The digits that `%.klf` prints, without the point. -/
def fixed (k : ℕ) (q : ℚ) : ℤ := roundHalfEven (q * 10 ^ k)

/-! ## Rounding to an integer -/

theorem abs_roundHalfEven_sub_le (q : ℚ) : |(roundHalfEven q : ℚ) - q| ≤ 1 / 2 := by
  have hle := Int.floor_le q
  have hlt := Int.lt_floor_add_one q
  unfold roundHalfEven
  split
  · next h =>
      have hhalf : q - ⌊q⌋ ≤ 1 / 2 := h.elim (fun h => h.le) fun h => h.1.le
      rw [abs_le]
      constructor <;> linarith
  · next h =>
      have hhalf : 1 / 2 ≤ q - ⌊q⌋ := not_lt.mp fun hlt => h (Or.inl hlt)
      rw [abs_le]
      push_cast
      constructor <;> linarith

theorem roundHalfEven_intCast (z : ℤ) : roundHalfEven z = z := by
  have hhalf : (z : ℚ) - ⌊(z : ℚ)⌋ < 1 / 2 := by
    rw [Int.floor_intCast, sub_self]
    norm_num
  rw [roundHalfEven, if_pos (Or.inl hhalf), Int.floor_intCast]

theorem roundHalfEven_nonneg {q : ℚ} (hq : 0 ≤ q) : 0 ≤ roundHalfEven q := by
  have hfloor := Int.floor_nonneg.mpr hq
  unfold roundHalfEven
  split
  · exact hfloor
  · omega

/-! ## Rounding to 53 bits -/

theorem double_zero : double 0 = 0 := by
  have hzero : roundHalfEven 0 = 0 := by simpa using roundHalfEven_intCast 0
  rw [double, zero_div, hzero, Int.cast_zero, zero_mul]

theorem double_nonneg {q : ℚ} (hq : 0 ≤ q) : 0 ≤ double q :=
  mul_nonneg (Int.cast_nonneg (roundHalfEven_nonneg (by positivity))) (by positivity)

/-- Small integers have their bits to spare. -/
theorem double_natCast {n : ℕ} (h : n < 2 ^ 53) : double n = n := by
  rcases Nat.eq_zero_or_pos n with rfl | hpos
  · exact double_zero
  · have hlog : Nat.log 2 n ≤ 52 := Nat.lt_succ_iff.mp (Nat.log_lt_of_lt_pow hpos.ne' h)
    obtain ⟨k, hk⟩ := Nat.exists_eq_add_of_le hlog
    have hbit : lastBit n = -(k : ℤ) := by
      rw [lastBit, Nat.abs_cast, Int.log_natCast]
      omega
    have hscaled : (n : ℚ) / 2 ^ lastBit n = ((n * 2 ^ k : ℕ) : ℤ) := by
      rw [hbit, zpow_neg, div_inv_eq_mul, zpow_natCast]
      push_cast
      rfl
    rw [double, hscaled, roundHalfEven_intCast, ← hscaled]
    exact div_mul_cancel₀ _ (by positivity)

example : double (2 ^ 53 + 1) = 2 ^ 53 := by decide +kernel

/-- A sum of integers is exact as long as it is below `2 ^ 53`. -/
theorem double_add_double {m n : ℕ} (h : m + n < 2 ^ 53) :
    double (m + double n) = (m + n : ℕ) := by
  rw [double_natCast (n := n) (by omega), ← Nat.cast_add, double_natCast h]

theorem abs_double_sub_le (q : ℚ) : |double q - q| ≤ |q| / 2 ^ 53 := by
  rcases eq_or_ne q 0 with rfl | hne
  · rw [double_zero, sub_zero, abs_zero, zero_div]
  · have hbit : (2 : ℚ) ^ lastBit q * 2 ^ 52 ≤ |q| := by
      have hlog := Int.zpow_log_le_self one_lt_two (abs_pos.mpr hne)
      rwa [← zpow_natCast, ← zpow_add₀ two_ne_zero, lastBit, Nat.cast_ofNat, sub_add_cancel]
    have hround := abs_roundHalfEven_sub_le (q / 2 ^ lastBit q)
    have hdiff : double q - q =
        (roundHalfEven (q / 2 ^ lastBit q) - q / 2 ^ lastBit q) * 2 ^ lastBit q := by
      rw [sub_mul, div_mul_cancel₀ _ (by positivity)]
      rfl
    calc |double q - q|
        = |(roundHalfEven (q / 2 ^ lastBit q) : ℚ) - q / 2 ^ lastBit q| * 2 ^ lastBit q := by
          rw [hdiff, abs_mul, abs_of_pos (by positivity : (0 : ℚ) < 2 ^ lastBit q)]
      _ ≤ 1 / 2 * 2 ^ lastBit q := mul_le_mul_of_nonneg_right hround (by positivity)
      _ ≤ |q| / 2 ^ 53 := by linarith

/-! ## Printing -/

theorem fixed_natCast (n : ℕ) : fixed 0 n = n := by
  rw [fixed, pow_zero, mul_one]
  exact roundHalfEven_intCast n

theorem fixed_nonneg {q : ℚ} (hq : 0 ≤ q) (k : ℕ) : 0 ≤ fixed k q :=
  roundHalfEven_nonneg (by positivity)

/-- The last digit printed is rounded. -/
theorem abs_fixed_sub_le (k : ℕ) (q : ℚ) : |(fixed k q : ℚ) / 10 ^ k - q| ≤ 1 / 2 / 10 ^ k := by
  have hpos : (0 : ℚ) < 10 ^ k := by positivity
  have hround := abs_roundHalfEven_sub_le (q * 10 ^ k)
  rw [le_div_iff₀ hpos, ← abs_of_pos hpos, ← abs_mul, abs_of_pos hpos, sub_mul,
    div_mul_cancel₀ _ hpos.ne']
  exact hround

end Clib
