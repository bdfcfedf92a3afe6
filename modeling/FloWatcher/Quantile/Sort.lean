import FloWatcher.Quantile.Basic
import FloWatcher.Sorting.Insertion

/-!
# Does `insertSort` sort?

The heights are `double`s, but `insertSort` swaps them through `int tmp`. A height that has to move
left is cut off to a whole number, and where it does not fit into an `int` its conversion is
undefined. `sorts_insertSort_iff` says which heights are sorted.
-/

namespace FloWatcher
namespace Quantile

open Sorting (Holds Sorts)

/-- A height that goes through `tmp`. -/
def viaInt (x : ℚ) : Option ℚ := Option.map (fun k : Int => (k : ℚ)) (toInt x)

/-! ## The loops -/

theorem sink_eq (j : ℕ) (hj : j < 5) (q : Fin 5 → ℚ) :
    sink q ⟨j, hj⟩ = Sorting.sink viaInt q ⟨j, hj⟩ := by
  induction j generalizing q with
  | zero => rw [sink, Sorting.sink]
  | succ j ih =>
      rw [sink, Sorting.sink]
      split
      · show (toInt _).bind _ = (viaInt _).bind _
        unfold viaInt
        cases toInt (q ⟨j + 1, hj⟩) with
        | none => rfl
        | some tmp => exact ih (by omega) _
      · rfl

/-- `insertSort` is an insertion sort through an `int`. -/
theorem insertSort_eq (q : Fin 5 → ℚ) : insertSort q = Sorting.sortBelow viaInt q 5 le_rfl := by
  have hfirst : Sorting.sortBelow viaInt q 1 (by omega) = some q := by
    show Sorting.sink viaInt q 0 = some q
    exact Sorting.sink.eq_1 ..
  have hstep : ∀ (m : ℕ) (hm : m + 1 ≤ 5), Sorting.sortBelow viaInt q (m + 1) hm =
      (Sorting.sortBelow viaInt q m (by omega)).bind fun q => sink q ⟨m, hm⟩ := by
    intro m hm
    rw [Sorting.sortBelow]
    exact congrArg _ (funext fun q => (sink_eq m hm q).symm)
  rw [hstep 4, hstep 3, hstep 2, hstep 1, hfirst, insertSort]
  simp only [List.foldlM_cons, List.foldlM_nil, Option.bind_some, Option.bind_assoc, bind_pure]
  rfl

/-! ## The conversion -/

theorem isInt_of_toInt {x : ℚ} {k : Int} (h : toInt x = some k) : IsInt k := by
  unfold toInt at h
  obtain ⟨hint, hk⟩ := Option.ite_none_right_eq_some.mp h
  rwa [Option.some.inj hk] at hint

theorem toInt_intCast {k : Int} (hk : IsInt k) : toInt (k : ℚ) = some k := by
  unfold toInt
  rw [Int.floor_intCast, Int.ceil_intCast, ite_self]
  exact if_pos hk

/-- A height survives the conversion when it is a whole number that fits into an `int`. -/
theorem holds_viaInt_iff (x : ℚ) : Holds viaInt x ↔ ∃ k : Int, IsInt k ∧ (k : ℚ) = x := by
  constructor
  · intro h
    obtain ⟨k, hk, hx⟩ := Option.map_eq_some_iff.mp h
    exact ⟨k, isInt_of_toInt hk, hx⟩
  · rintro ⟨k, hk, rfl⟩
    exact congrArg (Option.map fun k : Int => (k : ℚ)) (toInt_intCast hk)

/-- What comes out of `tmp` survives another conversion. -/
theorem holds_of_viaInt (x y : ℚ) (h : viaInt x = some y) : Holds viaInt y := by
  obtain ⟨k, hk, hy⟩ := Option.map_eq_some_iff.mp h
  exact (holds_viaInt_iff y).mpr ⟨k, isInt_of_toInt hk, hy⟩

/-- **When `insertSort` sorts**: every height that is smaller than one before it is a whole number
that fits into an `int`. -/
theorem sorts_insertSort_iff (q : Fin 5 → ℚ) :
    Sorts q (insertSort q) ↔ ∀ i, (∃ j < i, q i < q j) → ∃ k : Int, IsInt k ∧ (k : ℚ) = q i := by
  rw [insertSort_eq, Sorting.sorts_iff holds_of_viaInt]
  exact forall_congr' fun i => imp_congr_right fun _ => holds_viaInt_iff (q i)

/-- Five gaps, two of them too large for an `int` and in the wrong order; and a height between two
whole numbers. -/
theorem not_sorts_insertSort :
    ¬ Sorts ![2 ^ 33, 2 ^ 32, 2 ^ 34, 2 ^ 35, 2 ^ 36]
        (insertSort ![2 ^ 33, 2 ^ 32, 2 ^ 34, 2 ^ 35, 2 ^ 36]) ∧
      ¬ Sorts ![1, 1 / 2, 2, 3, 4] (insertSort ![1, 1 / 2, 2, 3, 4]) := by
  constructor
  · rw [insertSort_eq, Sorting.sorts_iff holds_of_viaInt]
    intro h
    obtain ⟨k, hk, hq⟩ := (holds_viaInt_iff _).mp (h 1 ⟨0, by decide, by norm_num⟩)
    have hkq : (k : ℚ) = 2 ^ 32 := hq
    have hk32 : k = 2 ^ 32 := by exact_mod_cast hkq
    rw [hk32] at hk
    exact absurd hk (by decide)
  · rw [insertSort_eq, Sorting.sorts_iff holds_of_viaInt]
    intro h
    obtain ⟨k, -, hq⟩ := (holds_viaInt_iff _).mp (h 1 ⟨0, by decide, by norm_num⟩)
    have hkq : (k : ℚ) = 1 / 2 := hq
    have htwo : ((2 * k : Int) : ℚ) = 1 := by
      push_cast
      rw [hkq]
      norm_num
    have hodd : 2 * k = 1 := by exact_mod_cast htwo
    omega

end Quantile
end FloWatcher
