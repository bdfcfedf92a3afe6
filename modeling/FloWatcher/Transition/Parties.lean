import Mathlib.Algebra.BigOperators.Group.Finset.Basic

/-!
# Measures of the parties of a system

Every party of a concurrent system has a local state, and an action changes the state of one of
them. What the parties hold together is a sum over the parties. Items are weighed by a measure of
lists that concatenation adds up, such as the length or the number of occurrences of one item.
-/

namespace Transition

variable {ι β α M : Type*}

/-- When one party changes, the sum changes by what this party holds. -/
theorem sum_update [DecidableEq ι] [AddCommMonoid M] (parties : Finset ι) (hold : β → M)
    (local' : ι → β) {i : ι} (hi : i ∈ parties) (b : β) :
    ∑ j ∈ parties, hold (Function.update local' i b j) + hold (local' i) =
      ∑ j ∈ parties, hold (local' j) + hold b := by
  rw [← Finset.add_sum_erase _ _ hi, ← Finset.add_sum_erase parties (fun j => hold (local' j)) hi,
    Function.update_self]
  have hrest : ∑ j ∈ parties.erase i, hold (Function.update local' i b j) =
      ∑ j ∈ parties.erase i, hold (local' j) := by
    apply Finset.sum_congr rfl
    intro j hj
    rw [Function.update_of_ne (Finset.ne_of_mem_erase hj)]
  rw [hrest, add_right_comm, add_comm (hold b), add_right_comm, add_comm (hold (local' i))]

/-- A measure of lists that concatenation adds up. -/
structure IsWeight (μ : List α → Nat) : Prop where
  nil : μ [] = 0
  append : ∀ xs ys, μ (xs ++ ys) = μ xs + μ ys

theorem isWeight_length : IsWeight (List.length : List α → Nat) where
  nil := rfl
  append _ _ := List.length_append

theorem isWeight_count [DecidableEq α] (a : α) : IsWeight (List.count a) where
  nil := rfl
  append _ _ := List.count_append

namespace IsWeight

variable {μ : List α → Nat}

/-- Taking the item at `k` off the rest of a list from `k` on. -/
theorem drop_of_getElem? (h : IsWeight μ) {xs : List α} {k : Nat} {a : α} (ha : xs[k]? = some a) :
    μ (xs.drop k) = μ [a] + μ (xs.drop (k + 1)) := by
  obtain ⟨hk, rfl⟩ := List.getElem?_eq_some_iff.mp ha
  rw [List.drop_eq_getElem_cons hk, ← List.singleton_append, h.append]

end IsWeight

end Transition
