import FloWatcher.Quantile.Basic

/-!
# Which cell does `get_qt` select?

An observation belongs to the cell of the greatest marker below or at it. `get_qt` compares with the
marker in the middle first, and strictly; all others are compared non-strictly. So an observation
that is equal to the middle height is counted one cell too low (`selectsCell_iff`).
-/

namespace FloWatcher
namespace Quantile

/-! ## Cells -/

/-- `k` is the cell of `x`: the greatest of the markers before the last one that is not above `x`,
or the first one where all are above it. -/
def IsCell {n : Nat} (q : Fin (n + 1) → ℚ) (x : ℚ) (k : Fin (n + 1)) : Prop :=
  if x < q 0 then k = 0 else IsGreatest {k | k < Fin.last n ∧ q k ≤ x} k

/-- A cell ends at the next marker, except for the last one. -/
theorem isCell_of_le {q : Fin 5 → ℚ} (hq : Monotone q) {x : ℚ} {k : Fin 5} (hk : k < 4)
    (hle : q k ≤ x) (hlt : ∀ j, k < j → j < 4 → x < q j) : IsCell q x k := by
  have h0 : q 0 ≤ x := (hq (Fin.zero_le k)).trans hle
  unfold IsCell
  rw [if_neg (not_lt.mpr h0)]
  refine ⟨⟨hk, hle⟩, ?_⟩
  rintro j ⟨hj, hqj⟩
  by_contra hkj
  exact absurd (hlt j (not_le.mp hkj) hj) (not_lt.mpr hqj)

/-- The markers above the cell. -/
theorem IsCell.lt_iff {q : Fin 5 → ℚ} (hq : Monotone q) {x : ℚ} {k : Fin 5} (h : IsCell q x k)
    (j : Fin 5) : k < j ↔ j ≠ 0 ∧ (j = 4 ∨ x < q j) := by
  unfold IsCell at h
  split at h
  · next hbelow =>
      subst h
      rw [Fin.pos_iff_ne_zero]
      exact ⟨fun hj => ⟨hj, Or.inr (hbelow.trans_le (hq (Fin.zero_le j)))⟩, And.left⟩
  · obtain ⟨⟨hk, hle⟩, hgreatest⟩ := h
    constructor
    · intro hkj
      refine ⟨(Fin.pos_iff_ne_zero.mp (lt_of_le_of_lt (Fin.zero_le k) hkj)), ?_⟩
      by_contra hnot
      obtain ⟨h4, hge⟩ := not_or.mp hnot
      have hj : j < 4 := lt_of_le_of_ne (Fin.le_last j) h4
      exact absurd (hgreatest ⟨hj, not_lt.mp hge⟩) (not_le.mpr hkj)
    · rintro ⟨-, rfl | hlt⟩
      · exact hk
      · by_contra hjk
        exact absurd (hq (not_lt.mp hjk)) (not_le.mpr (hle.trans_lt hlt))

/-- **The comparisons of `get_qt`** are right except at the middle marker. -/
theorem isCell_cell_iff {q : Fin 5 → ℚ} (hq : Monotone q) (x : ℚ) :
    IsCell q x (cell q x).2 ↔ x ≠ q 2 := by
  have h12 : q 1 ≤ q 2 := hq (by decide)
  have h23 : q 2 ≤ q 3 := hq (by decide)
  have h01 : q 0 ≤ q 1 := hq (by decide)
  unfold cell
  split_ifs with h2 h3 h4 h1 h0
  · show IsCell q x 2 ↔ _
    refine iff_of_true (isCell_of_le hq (by decide) h2.le ?_) h2.ne'
    grind
  · show IsCell q x 3 ↔ _
    refine iff_of_true (isCell_of_le hq (by decide) h4.1 ?_) h2.ne'
    grind
  · show IsCell q x 3 ↔ _
    refine iff_of_true (isCell_of_le hq (by decide) (not_lt.mp h3) ?_) h2.ne'
    grind
  · -- the second cell, up to the middle marker and including it
    show IsCell q x 1 ↔ _
    constructor
    · intro h heq
      have hlt := (h.lt_iff hq 2).mp (by decide)
      grind
    · intro hne
      have hlt : x < q 2 := lt_of_le_of_ne (not_lt.mp h2) hne
      apply isCell_of_le hq (by decide) h1
      intro j hj _
      exact hlt.trans_le (hq (by grind))
  · show IsCell q x 0 ↔ _
    refine iff_of_true (isCell_of_le hq (by decide) h0.1 ?_) (by grind)
    intro j hj _
    exact h0.2.trans_le (hq (by grind))
  · have hbelow : x < q 0 := by grind
    refine iff_of_true ?_ (by grind)
    unfold IsCell
    rw [if_pos hbelow]

/-! ## Positions -/

/-- `get_qt` up to the loop that adjusts the markers. -/
def advance (P : Percentile) (qt : Quantile) (x : BitVec 64) : Option Quantile := do
  let (q, k) := cell qt.q x.toNat
  let n ← shift qt.n k
  return { qt with q := q, n := n, n1 := fun i => qt.n1 i + dn P i }

theorem getQt_eq_advance (P : Percentile) (qt : Quantile) (x : BitVec 64) :
    getQt P qt x = (advance P qt x).bind fun qt =>
      (adjust 0 1 2 qt).bind fun qt => (adjust 1 2 3 qt).bind fun qt => adjust 2 3 4 qt := by
  unfold getQt advance
  show (shift qt.n (cell qt.q x.toNat).2).bind _ = ((shift qt.n _).bind _).bind _
  rw [Option.bind_assoc]
  rfl

/-- `get_qt` selects the cell of the observation and moves up the markers above it. -/
def SelectsCell (P : Percentile) (qt : Quantile) (x : BitVec 64) : Prop :=
  ∃ k, IsCell qt.q x.toNat k ∧ (cell qt.q x.toNat).2 = k ∧
    ∃ qt', advance P qt x = some qt' ∧ ∀ j, qt'.n j = if k < j then qt.n j + 1 else qt.n j

theorem advance_n {P : Percentile} {qt qt' : Quantile} {x : BitVec 64} :
    advance P qt x = some qt' → shift qt.n (cell qt.q x.toNat).2 = some qt'.n := by
  intro h
  obtain ⟨n, hn, hqt⟩ := Option.bind_eq_some_iff.mp h
  rw [← Option.some.inj hqt]
  exact hn

/-- **When `get_qt` selects the cell**: the observation is not equal to the middle height. The
positions are `int`s, so those that move up have to be below the greatest one. -/
theorem selectsCell_iff (P : Percentile) (qt : Quantile) (x : BitVec 64) (hq : Monotone qt.q)
    (hn : ∀ j, IsInt (qt.n j)) :
    SelectsCell P qt x ↔
      (x.toNat : ℚ) ≠ qt.q 2 ∧
        ∀ j, j ≠ 0 → j = 4 ∨ (x.toNat : ℚ) < qt.q j → qt.n j < 2 ^ 31 - 1 := by
  constructor
  · rintro ⟨k, hcell, rfl, qt', hadvance, hpos⟩
    refine ⟨(isCell_cell_iff hq _).mp hcell, ?_⟩
    intro j h0 hj
    have hlt := (hcell.lt_iff hq j).mpr ⟨h0, hj⟩
    obtain ⟨hfits, -⟩ := Option.ite_none_right_eq_some.mp (advance_n hadvance)
    have hj := (hfits j).2
    dsimp only at hj
    rw [if_pos hlt] at hj
    omega
  · rintro ⟨hne, hroom⟩
    have hcell := (isCell_cell_iff hq _).mpr hne
    have hfits : ∀ j, IsInt (if (cell qt.q x.toNat).2 < j then qt.n j + 1 else qt.n j) := by
      intro j
      split
      · next hlt =>
          obtain ⟨h0, hj⟩ := (hcell.lt_iff hq j).mp hlt
          have := hroom j h0 hj
          have := (hn j).1
          exact ⟨by omega, by omega⟩
      · exact hn j
    have hshift : shift qt.n (cell qt.q x.toNat).2 = some _ := if_pos hfits
    refine ⟨_, hcell, rfl,
      { qt with
        q := (cell qt.q x.toNat).1
        n := fun j => if (cell qt.q x.toNat).2 < j then qt.n j + 1 else qt.n j
        n1 := fun i => qt.n1 i + dn P i },
      ?_, fun j => rfl⟩
    show (shift qt.n (cell qt.q x.toNat).2).bind _ = _
    rw [hshift]
    rfl

def afterFive : Quantile where
  q := ![1, 2, 3, 4, 5]
  l := 5
  n := ![1, 2, 3, 4, 5]
  n1 := ![1, 1 + 2 * (99 / 100), 1 + 4 * (99 / 100), 3 + 2 * (99 / 100), 5]

theorem monotone_afterFive : Monotone afterFive.q := by
  decide +kernel

theorem isInt_afterFive (j : Fin 5) : IsInt (afterFive.n j) := by
  fin_cases j <;> decide

theorem selectsCell_iff_four : Monotone afterFive.q ∧ (∀ j, IsInt (afterFive.n j)) ∧
    (SelectsCell runToCompletionP afterFive 4 ↔
      ((4 : BitVec 64).toNat : ℚ) ≠ afterFive.q 2 ∧
        ∀ j, j ≠ 0 → j = 4 ∨ ((4 : BitVec 64).toNat : ℚ) < afterFive.q j →
          afterFive.n j < 2 ^ 31 - 1) :=
  ⟨monotone_afterFive, isInt_afterFive,
    selectsCell_iff runToCompletionP afterFive 4 monotone_afterFive isInt_afterFive⟩

/-- A gap of `3` is counted below the third marker, which has the height `3`. -/
theorem not_selectsCell_three : ¬ SelectsCell runToCompletionP afterFive 3 := by
  rintro ⟨k, hcell, rfl, -⟩
  exact (isCell_cell_iff monotone_afterFive _).mp hcell rfl

end Quantile
end FloWatcher
