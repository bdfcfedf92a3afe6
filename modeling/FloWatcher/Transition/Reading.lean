import FloWatcher.Transition.Basic
import Mathlib.Algebra.BigOperators.Group.Finset.Basic
import Mathlib.Algebra.Order.BigOperators.Group.Finset

/-!
# Reading counters that grow

A reader adds up counters one after the other while others go on counting, so its sum need not be
the sum of the counters at any one time. When no counter ever goes down, the sum is between two
others: of the counters when the reader began, and of the counters when it is done.
-/

namespace Transition

variable {σ α : Type*} {start now now' : Nat → Nat} {i sum : Nat}

/-- A reader has added up the first `i` counters to `sum`. The counters were at `start` when it
began, and are at `now`. -/
structure Reading (start now : Nat → Nat) (i sum : Nat) : Prop where
  grown : ∀ k, start k ≤ now k
  low : ∑ k ∈ Finset.range i, start k ≤ sum
  high : sum ≤ ∑ k ∈ Finset.range i, now k

namespace Reading

theorem nothing (hgrown : ∀ k, start k ≤ now k) : Reading start now 0 0 where
  grown := hgrown
  low := Nat.le_refl 0
  high := Nat.le_refl 0

/-- Meanwhile, others go on counting. -/
theorem grow (h : Reading start now i sum) (hle : ∀ k, now k ≤ now' k) :
    Reading start now' i sum where
  grown k := (h.grown k).trans (hle k)
  low := h.low
  high := h.high.trans (Finset.sum_le_sum fun k _ => hle k)

/-- The reader goes on with the next counter. -/
theorem read (h : Reading start now i sum) : Reading start now (i + 1) (sum + now i) where
  grown := h.grown
  low := by
    rw [Finset.sum_range_succ]
    exact Nat.add_le_add h.low (h.grown i)
  high := by
    rw [Finset.sum_range_succ]
    exact Nat.add_le_add_right h.high (now i)

end Reading

def Grows (step : σ → α → Option σ) (count : σ → Nat → Nat) : Prop :=
  ∀ s a s', step s a = some s' → ∀ k, count s k ≤ count s' k

theorem Grows.run {step : σ → α → Option σ} {count : σ → Nat → Nat} (h : Grows step count) {s s' : σ}
    {as : List α} (hs : run step s as = some s') (k : Nat) : count s k ≤ count s' k := by
  induction as generalizing s with
  | nil =>
      cases hs
      exact Nat.le_refl _
  | cons a as ih =>
      obtain ⟨t, ht, hrest⟩ := Option.bind_eq_some_iff.mp hs
      exact (h s a t ht k).trans (ih hrest)

end Transition
