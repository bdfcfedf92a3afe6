import Mathlib.Algebra.Group.End
import Mathlib.Data.Finset.Card
import Mathlib.Data.Fintype.Basic
import Mathlib.Data.Fintype.EquivFin
import Mathlib.Logic.Equiv.Basic
import Mathlib.Order.Monotone.Basic

/-!
# Insertion sort through a variable of another type

An insertion sort that swaps neighbours through a temporary variable. The variable may be of a type
that cannot hold every value: `conv` is what a value becomes when it is stored there and read back,
or `none` where that is undefined. The sort is right exactly when every element that has to move
left is one that the variable can hold (`sorts_iff`).
-/

namespace Sorting

variable {α : Type*} [LinearOrder α] {n : ℕ} (conv : α → Option α)

/-- Element `j` moves left while it is smaller than its neighbour. -/
def sink (q : Fin n → α) : Fin n → Option (Fin n → α)
  | ⟨0, _⟩ => some q
  | ⟨j + 1, h⟩ =>
      if q ⟨j + 1, h⟩ < q ⟨j, by omega⟩ then
        (conv (q ⟨j + 1, h⟩)).bind fun tmp =>
          sink (Function.update (Function.update q ⟨j + 1, h⟩ (q ⟨j, by omega⟩)) ⟨j, by omega⟩ tmp)
            ⟨j, by omega⟩
      else
        some q

def sortBelow (q : Fin n → α) : (m : ℕ) → m ≤ n → Option (Fin n → α)
  | 0, _ => some q
  | m + 1, h => (sortBelow q m (by omega)).bind fun q => sink conv q ⟨m, h⟩

/-- The result `r` is `q` in nondecreasing order. -/
def Sorts (q : Fin n → α) (r : Option (Fin n → α)) : Prop :=
  ∃ q', r = some q' ∧ Monotone q' ∧ ∃ σ : Equiv.Perm (Fin n), q' = q ∘ σ

def Holds (x : α) : Prop := conv x = some x

instance (x : α) : Decidable (Holds conv x) := inferInstanceAs (Decidable (_ = _))

/-! ## Elements that the variable can hold -/

variable {conv}

/-- The elements of `q` in the order of `σ` are sorted below `m`, and in their places from there on.
-/
structure SortedBelow (q : Fin n → α) (m : ℕ) (σ : Equiv.Perm (Fin n)) : Prop where
  sorted : ∀ i k : Fin n, i ≤ k → k.val < m → q (σ i) ≤ q (σ k)
  fixed : ∀ k : Fin n, m ≤ k.val → σ k = k

theorem SortedBelow.lt_of_lt {q : Fin n → α} {m : ℕ} {σ : Equiv.Perm (Fin n)}
    (h : SortedBelow q m σ) {i : Fin n} (hi : i.val < m) : (σ i).val < m := by
  by_contra hge
  have hfix : σ (σ i) = σ i := h.fixed _ (by omega)
  have heq : σ i = i := σ.injective hfix
  rw [heq] at hge
  exact hge hi

/-! ### A swap of neighbours -/

section Swap

variable {q : Fin n → α} {j : ℕ} (hj : j + 1 < n)

/-- The places `j` and `j + 1`. -/
def left : Fin n := ⟨j, by omega⟩
def right : Fin n := ⟨j + 1, hj⟩

/-- One comparison. -/
theorem sink_right (q : Fin n → α) : sink conv q (right hj) =
    if q (right hj) < q (left hj) then
      (conv (q (right hj))).bind fun tmp =>
        sink conv (Function.update (Function.update q (right hj) (q (left hj))) (left hj) tmp)
          (left hj)
    else
      some q := by
  unfold right left
  rw [sink]

def swapped (q : Fin n → α) : Fin n → α := q ∘ Equiv.swap (left hj) (right hj)

omit [LinearOrder α] in
theorem update_eq_swapped :
    Function.update (Function.update q (right hj) (q (left hj))) (left hj) (q (right hj)) =
      swapped hj q := by
  funext k
  by_cases hkl : k = left hj
  · rw [hkl, Function.update_self, swapped, Function.comp_apply, Equiv.swap_apply_left]
  · rw [Function.update_of_ne hkl]
    by_cases hkr : k = right hj
    · rw [hkr, Function.update_self, swapped, Function.comp_apply, Equiv.swap_apply_right]
    · rw [Function.update_of_ne hkr, swapped, Function.comp_apply,
        Equiv.swap_apply_of_ne_of_ne hkl hkr]

omit [LinearOrder α] in
theorem swapped_left : swapped hj q (left hj) = q (right hj) :=
  congrArg q (Equiv.swap_apply_left _ _)

omit [LinearOrder α] in
theorem swapped_right : swapped hj q (right hj) = q (left hj) :=
  congrArg q (Equiv.swap_apply_right _ _)

theorem swap_of_ne {k : Fin n} (hkl : k.val ≠ j) (hkr : k.val ≠ j + 1) :
    Equiv.swap (left hj) (right hj) k = k :=
  Equiv.swap_apply_of_ne_of_ne (fun h => hkl (congrArg Fin.val h)) fun h => hkr (congrArg Fin.val h)

/-- Below the swap the elements are still sorted. -/
theorem SortedBelow.swapped (hq : SortedBelow q (j + 1) 1) : SortedBelow (swapped hj q) j 1 := by
  refine ⟨?_, fun _ _ => rfl⟩
  intro i k hik hk
  have hik' := Fin.le_def.mp hik
  show q (Equiv.swap _ _ i) ≤ q (Equiv.swap _ _ k)
  rw [swap_of_ne hj (by omega) (by omega), swap_of_ne hj (by omega) (by omega)]
  exact hq.sorted i k hik (by omega)

/-- When the smaller one of the two has been sorted in, all are sorted: the other one was the
greatest. -/
theorem SortedBelow.of_swapped (hq : SortedBelow q (j + 1) 1) (hlt : q (right hj) < q (left hj))
    {τ : Equiv.Perm (Fin n)} (hτ : SortedBelow (Sorting.swapped hj q) (j + 1) τ) :
    SortedBelow q (j + 2) (Equiv.swap (left hj) (right hj) * τ) := by
  constructor
  · intro i k hik hk
    have hik' := Fin.le_def.mp hik
    show Sorting.swapped hj q (τ i) ≤ Sorting.swapped hj q (τ k)
    rcases Nat.lt_or_ge k.val (j + 1) with hkj | hkj
    · exact hτ.sorted i k hik hkj
    · have hkr : k = right hj := Fin.ext (by show k.val = j + 1; omega)
      rw [hτ.fixed k hkj, hkr, swapped_right]
      rcases Nat.lt_or_ge i.val (j + 1) with hij | hij
      · have hτi := hτ.lt_of_lt hij
        rcases Nat.lt_or_ge (τ i).val j with hlow | hge
        · show q (Equiv.swap _ _ (τ i)) ≤ _
          rw [swap_of_ne hj (by omega) (by omega)]
          exact hq.sorted (τ i) (left hj) (Fin.le_def.mpr hlow.le) (Nat.lt_succ_self j)
        · have hτl : τ i = left hj := Fin.ext (by show (τ i).val = j; omega)
          rw [hτl, swapped_left]
          exact hlt.le
      · have hir : i = right hj := Fin.ext (by show i.val = j + 1; omega)
        rw [hτ.fixed i hij, hir, swapped_right]
  · intro k hk
    show Equiv.swap _ _ (τ k) = k
    rw [hτ.fixed k (by omega), swap_of_ne hj (by omega) (by omega)]

/-- The greatest element so far is the left neighbour of the next one. -/
theorem SortedBelow.le_left {σ : Equiv.Perm (Fin n)} (h : SortedBelow q (j + 1) σ) {i : Fin n}
    (hi : i.val < j + 1) : q i ≤ q (σ (left hj)) := by
  have hpre : (σ.symm i).val < j + 1 := by
    by_contra hge
    have hfix := h.fixed (σ.symm i) (by omega)
    rw [Equiv.apply_symm_apply] at hfix
    rw [← hfix] at hge
    exact hge hi
  have hle := h.sorted (σ.symm i) (left hj) (Fin.le_def.mpr (Nat.lt_succ_iff.mp hpre))
    (Nat.lt_succ_self j)
  rwa [Equiv.apply_symm_apply] at hle

/-- An element that is not smaller than its neighbour is sorted in where it is. -/
theorem SortedBelow.succ (hq : SortedBelow q (j + 1) 1) (hle : q (left hj) ≤ q (right hj)) :
    SortedBelow q (j + 2) 1 := by
  refine ⟨?_, fun _ _ => rfl⟩
  intro i k hik hk
  have hik' := Fin.le_def.mp hik
  rcases Nat.lt_or_ge k.val (j + 1) with hkj | hkj
  · exact hq.sorted i k hik hkj
  · have hkr : k = right hj := Fin.ext (by show k.val = j + 1; omega)
    rw [hkr]
    rcases Nat.lt_or_ge i.val (j + 1) with hij | hij
    · have hil := hq.sorted i (left hj) (Fin.le_def.mpr (Nat.lt_succ_iff.mp hij)) (Nat.lt_succ_self j)
      exact hil.trans hle
    · have hir : i = right hj := Fin.ext (by show i.val = j + 1; omega)
      rw [hir]

end Swap

/-- One pass, when its element can be held or need not move. -/
theorem sink_of_holds (j : ℕ) (hj : j < n) (q : Fin n → α) (hq : SortedBelow q j 1)
    (hhold : (∃ i < (⟨j, hj⟩ : Fin n), q ⟨j, hj⟩ < q i) → Holds conv (q ⟨j, hj⟩)) :
    ∃ σ : Equiv.Perm (Fin n),
      sink conv q ⟨j, hj⟩ = some (q ∘ σ) ∧ SortedBelow q (j + 1) σ := by
  induction j generalizing q with
  | zero =>
      refine ⟨1, ?_, ?_, fun k _ => rfl⟩
      · rw [sink]
        rfl
      · intro i k hik hk
        have hik' := Fin.le_def.mp hik
        have heq : i = k := Fin.ext (by omega)
        rw [heq]
  | succ j ih =>
      by_cases hlt : q (right hj) < q (left hj)
      · have hheld : Holds conv (q (right hj)) :=
          hhold ⟨left hj, Fin.lt_def.mpr (Nat.lt_succ_self j), hlt⟩
        obtain ⟨τ, hsink, hτ⟩ := ih (by omega) (swapped hj q) (hq.swapped hj) (by
          intro _
          show Holds conv (swapped hj q (left hj))
          rwa [swapped_left])
        refine ⟨Equiv.swap (left hj) (right hj) * τ, ?_, hq.of_swapped hj hlt hτ⟩
        show sink conv q (right hj) = _
        rw [sink_right, if_pos hlt, hheld, Option.bind_some, update_eq_swapped]
        exact hsink
      · refine ⟨1, ?_, hq.succ hj (not_lt.mp hlt)⟩
        show sink conv q (right hj) = _
        rw [sink_right, if_neg hlt]
        rfl

/-- The passes for the elements below `m`. -/
theorem sortBelow_of_holds (q : Fin n → α) (m : ℕ) (hm : m ≤ n)
    (hhold : ∀ i : Fin n, i.val < m → (∃ j < i, q i < q j) → Holds conv (q i)) :
    ∃ σ : Equiv.Perm (Fin n), sortBelow conv q m hm = some (q ∘ σ) ∧ SortedBelow q m σ := by
  induction m with
  | zero => exact ⟨1, rfl, fun i k _ hk => absurd hk (Nat.not_lt_zero _), fun _ _ => rfl⟩
  | succ m ih =>
      obtain ⟨σ, hsort, hσ⟩ := ih (by omega) fun i hi => hhold i (by omega)
      have hlast : q (σ ⟨m, hm⟩) = q ⟨m, hm⟩ := by
        rw [hσ.fixed _ (le_refl m)]
      obtain ⟨τ, hsink, hτ⟩ : ∃ τ : Equiv.Perm (Fin n),
          sink conv (q ∘ σ) ⟨m, hm⟩ = some ((q ∘ σ) ∘ τ) ∧ SortedBelow (q ∘ σ) (m + 1) τ := by
        apply sink_of_holds m hm (q ∘ σ) ⟨fun i k hik hk => hσ.sorted i k hik hk, fun _ _ => rfl⟩
        rintro ⟨i, hi, hlt⟩
        rw [Function.comp_apply, hlast] at hlt ⊢
        exact hhold ⟨m, hm⟩ (Nat.lt_succ_self m) ⟨σ i, Fin.lt_def.mpr (hσ.lt_of_lt hi), hlt⟩
      refine ⟨σ * τ, ?_, fun i k hik hk => hτ.sorted i k hik hk, ?_⟩
      · rw [sortBelow, hsort, Option.bind_some]
        exact hsink
      · intro k hk
        show σ (τ k) = k
        rw [hτ.fixed k hk, hσ.fixed k (by omega)]

/-! ## Elements that it cannot hold -/

section Lossy

variable (conv)

/-- How many elements the variable cannot hold. -/
def lost (q : Fin n → α) : ℕ := (Finset.univ.filter fun i => ¬ Holds conv (q i)).card

variable {conv}

theorem lost_comp (q : Fin n → α) (σ : Equiv.Perm (Fin n)) : lost conv (q ∘ σ) = lost conv q := by
  apply Finset.card_bij fun i _ => σ i
  · intro i hi
    rw [Finset.mem_filter] at hi ⊢
    exact ⟨Finset.mem_univ _, hi.2⟩
  · intro i _ k _ h
    exact σ.injective h
  · intro k hk
    refine ⟨σ.symm k, ?_, σ.apply_symm_apply k⟩
    rw [Finset.mem_filter] at hk ⊢
    refine ⟨Finset.mem_univ _, ?_⟩
    rw [Function.comp_apply, Equiv.apply_symm_apply]
    exact hk.2

/-- Writing an element that can be held. -/
theorem filter_update_subset (q : Fin n → α) (i : Fin n) {x : α} (hx : Holds conv x) :
    (Finset.univ.filter fun k => ¬ Holds conv (Function.update q i x k)) ⊆
      Finset.univ.filter fun k => ¬ Holds conv (q k) := by
  intro k hk
  rw [Finset.mem_filter] at hk ⊢
  refine ⟨hk.1, fun hheld => hk.2 ?_⟩
  by_cases hki : k = i
  · rwa [hki, Function.update_self]
  · rwa [Function.update_of_ne hki]

theorem lost_update_le (q : Fin n → α) (i : Fin n) {x : α} (hx : Holds conv x) :
    lost conv (Function.update q i x) ≤ lost conv q :=
  Finset.card_le_card (filter_update_subset q i hx)

theorem lost_update_lt (q : Fin n → α) {i : Fin n} (hi : ¬ Holds conv (q i)) {x : α}
    (hx : Holds conv x) : lost conv (Function.update q i x) < lost conv q := by
  apply Finset.card_lt_card
  rw [Finset.ssubset_iff_of_subset (filter_update_subset q i hx)]
  refine ⟨i, Finset.mem_filter.mpr ⟨Finset.mem_univ i, hi⟩, fun hmem => ?_⟩
  refine (Finset.mem_filter.mp hmem).2 ?_
  rwa [Function.update_self]

variable (hconv : ∀ x y, conv x = some y → Holds conv y)
include hconv

/-- A swap writes back an element that can be held. -/
theorem lost_swap {q : Fin n → α} {j : ℕ} (hj : j + 1 < n) {tmp : α}
    (htmp : conv (q (right hj)) = some tmp) :
    lost conv (Function.update (Function.update q (right hj) (q (left hj))) (left hj) tmp) ≤
        lost conv q ∧
      (¬ Holds conv (q (right hj)) →
        lost conv (Function.update (Function.update q (right hj) (q (left hj))) (left hj) tmp) <
          lost conv q) := by
  have hswap : Function.update (Function.update q (right hj) (q (left hj))) (left hj) tmp =
      Function.update (swapped hj q) (left hj) tmp := by
    rw [← update_eq_swapped, Function.update_idem]
  have hperm : lost conv (swapped hj q) = lost conv q := lost_comp q _
  have hheld := hconv _ _ htmp
  rw [hswap, ← hperm]
  refine ⟨lost_update_le _ _ hheld, fun hnot => lost_update_lt _ ?_ hheld⟩
  rwa [swapped_left]

/-- One pass loses no element that can be held. -/
theorem lost_sink_le (j : ℕ) (hj : j < n) (q : Fin n → α) {q' : Fin n → α}
    (h : sink conv q ⟨j, hj⟩ = some q') : lost conv q' ≤ lost conv q := by
  induction j generalizing q with
  | zero =>
      rw [sink] at h
      rw [Option.some.inj h]
  | succ j ih =>
      change sink conv q (right hj) = _ at h
      rw [sink_right] at h
      split at h
      · obtain ⟨tmp, htmp, hrest⟩ := Option.bind_eq_some_iff.mp h
        exact (ih (by omega) _ hrest).trans (lost_swap hconv hj htmp).1
      · rw [Option.some.inj h]

/-- A pass that moves an element which cannot be held loses it. -/
theorem lost_sink_lt {j : ℕ} (hj : j + 1 < n) {q : Fin n → α}
    (hlt : q (right hj) < q (left hj)) (hnot : ¬ Holds conv (q (right hj))) {q' : Fin n → α}
    (h : sink conv q (right hj) = some q') : lost conv q' < lost conv q := by
  rw [sink_right, if_pos hlt] at h
  obtain ⟨tmp, htmp, hrest⟩ := Option.bind_eq_some_iff.mp h
  exact (lost_sink_le hconv j (by omega) _ hrest).trans_lt ((lost_swap hconv hj htmp).2 hnot)

/-- After the passes below `m` either all elements that had to move could be held, or one is lost.
-/
theorem holds_or_lost (q : Fin n → α) (m : ℕ) (hm : m ≤ n) :
    (∀ i : Fin n, i.val < m → (∃ j < i, q i < q j) → Holds conv (q i)) ∨
      ∀ q', sortBelow conv q m hm = some q' → lost conv q' < lost conv q := by
  induction m with
  | zero => exact Or.inl fun i hi => absurd hi (Nat.not_lt_zero _)
  | succ m ih =>
      rcases ih (by omega) with hhold | hlost
      · by_cases hlast : (∃ j < (⟨m, hm⟩ : Fin n), q ⟨m, hm⟩ < q j) → Holds conv (q ⟨m, hm⟩)
        · left
          intro i hi
          rcases Nat.lt_succ_iff_lt_or_eq.mp hi with hlt | heq
          · exact hhold i hlt
          · obtain rfl : i = ⟨m, hm⟩ := Fin.ext heq
            exact hlast
        · right
          intro q' h
          obtain ⟨⟨i, hi, hlt⟩, hnot⟩ := Classical.not_imp.mp hlast
          obtain ⟨σ, hsort, hσ⟩ := sortBelow_of_holds q m (by omega) hhold
          have hpos : i.val < m := Fin.lt_def.mp hi
          obtain ⟨k, rfl⟩ : ∃ k, m = k + 1 := ⟨m - 1, by omega⟩
          have hmax := hσ.le_left hm hpos
          have hright : (q ∘ σ) (right hm) = q (right hm) := congrArg q (hσ.fixed _ (le_refl _))
          rw [sortBelow, hsort, Option.bind_some] at h
          have hres := lost_sink_lt hconv hm (q := q ∘ σ)
            (by rw [hright]; exact hlt.trans_le hmax) (by rwa [hright]) h
          rwa [lost_comp] at hres
      · right
        intro q' h
        rw [sortBelow] at h
        obtain ⟨q₁, h₁, h₂⟩ := Option.bind_eq_some_iff.mp h
        exact (lost_sink_le hconv m (by omega) q₁ h₂).trans_lt (hlost q₁ h₁)

/-- **When the sort is right**: the variable can hold every element that is smaller than one before
it. -/
theorem sorts_iff (q : Fin n → α) :
    Sorts q (sortBelow conv q n le_rfl) ↔ ∀ i, (∃ j < i, q i < q j) → Holds conv (q i) := by
  constructor
  · rintro ⟨q', hsort, -, σ, rfl⟩ i
    rcases holds_or_lost hconv q n le_rfl with hhold | hlost
    · exact hhold i i.isLt
    · have hlt := hlost _ hsort
      rw [lost_comp] at hlt
      exact absurd hlt (lt_irrefl _)
  · intro hhold
    obtain ⟨σ, hsort, hσ⟩ := sortBelow_of_holds q n le_rfl fun i _ => hhold i
    exact ⟨q ∘ σ, hsort, fun i k hik => hσ.sorted i k hik k.isLt, σ, rfl⟩

end Lossy

end Sorting
