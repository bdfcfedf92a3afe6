import FloWatcher.Quantile.Basic

/-!
# The markers stay in order

A call of `get_qt` moves a suffix of the positions up by one and then lets each inner marker move
by one position towards its desired one, if there is room. The invariant (`Markers`) is that
positions increase strictly and heights weakly: strictness is what makes the divisors nonzero, and
room for a move is what keeps the interpolated height between its neighbours.
-/

namespace FloWatcher
namespace Quantile

/-! ## Functions with one value replaced -/

theorem monotone_update {α β : Type*} [LinearOrder α] [Preorder β] {f : α → β} (hf : Monotone f)
    {i : α} {v : β} (hlow : ∀ j < i, f j ≤ v) (hhigh : ∀ j, i < j → v ≤ f j) :
    Monotone (Function.update f i v) := by
  intro a b hab
  rcases eq_or_ne a i with rfl | ha
  · rcases eq_or_ne b a with rfl | hb
    · exact le_rfl
    · rw [Function.update_self, Function.update_of_ne hb]
      exact hhigh b (lt_of_le_of_ne hab hb.symm)
  · rw [Function.update_of_ne ha]
    rcases eq_or_ne b i with rfl | hb
    · rw [Function.update_self]
      exact hlow a (lt_of_le_of_ne hab ha)
    · rw [Function.update_of_ne hb]
      exact hf hab

theorem strictMono_update {α β : Type*} [LinearOrder α] [Preorder β] {f : α → β}
    (hf : StrictMono f) {i : α} {v : β} (hlow : ∀ j < i, f j < v) (hhigh : ∀ j, i < j → v < f j) :
    StrictMono (Function.update f i v) := by
  intro a b hab
  rcases eq_or_ne a i with rfl | ha
  · rw [Function.update_self, Function.update_of_ne hab.ne']
    exact hhigh b hab
  · rw [Function.update_of_ne ha]
    rcases eq_or_ne b i with rfl | hb
    · rw [Function.update_self]
      exact hlow a hab
    · rw [Function.update_of_ne hb]
      exact hf hab

/-! ## Arithmetic that does not fail -/

theorem toInt_of_abs_lt {x : ℚ} (h : |x| < 2 ^ 31) : ∃ k, toInt x = some k := by
  obtain ⟨hlow, hhigh⟩ := abs_lt.mp h
  have hfits : IsInt (if 0 ≤ x then ⌊x⌋ else ⌈x⌉) := by
    split
    · next h0 =>
        have hpos : (0 : Int) ≤ ⌊x⌋ := Int.floor_nonneg.mpr h0
        have hlt : ⌊x⌋ < 2 ^ 31 := by
          apply Int.floor_lt.mpr
          exact_mod_cast hhigh
        exact ⟨by omega, hlt⟩
    · next h0 =>
        have hneg : ⌈x⌉ ≤ 0 := Int.ceil_le.mpr (by exact_mod_cast (not_le.mp h0).le)
        have hlt : -2 ^ 31 < ⌈x⌉ := by
          apply Int.lt_ceil.mpr
          exact_mod_cast hlow
        exact ⟨by omega, by omega⟩
  exact ⟨_, if_pos hfits⟩

theorem div?_of_ne {a b : ℚ} (h : b ≠ 0) : div? a b = some (a / b) := if_neg h

/-- A step of `1/m` of the way stays on the way. -/
theorem interpolate_between {a b m : ℚ} (hab : a ≤ b) (hm : 1 ≤ m) :
    0 ≤ (b - a) / m ∧ (b - a) / m ≤ b - a := by
  have h0 : 0 ≤ b - a := sub_nonneg.mpr hab
  exact ⟨div_nonneg h0 (zero_le_one.trans hm), div_le_self h0 hm⟩

/-- A marker that has room for its move ends up between its neighbours, in height and in
position. -/
theorem move_spec {l i r : Fin 5} {d : Int} {qt : Quantile} (hl : qt.n l < qt.n i)
    (hr : qt.n i < qt.n r) (hql : qt.q l ≤ qt.q i) (hqr : qt.q i ≤ qt.q r)
    (hd : d = 1 ∧ 1 < qt.n r - qt.n i ∨ d = -1 ∧ 1 < qt.n i - qt.n l) :
    ∃ v, move l i r d qt =
        some { qt with q := Function.update qt.q i v, n := Function.update qt.n i (qt.n i + d) } ∧
      qt.q l ≤ v ∧ v ≤ qt.q r := by
  have hl' : (qt.n l : ℚ) + 1 ≤ qt.n i := by exact_mod_cast hl
  have hr' : (qt.n i : ℚ) + 1 ≤ qt.n r := by exact_mod_cast hr
  have hrl : (qt.n r : ℚ) - qt.n l ≠ 0 := by linarith
  have hri : (qt.n r : ℚ) - qt.n i ≠ 0 := by linarith
  have hil : (qt.n i : ℚ) - qt.n l ≠ 0 := by linarith
  have hli : (qt.n l : ℚ) - qt.n i ≠ 0 := by linarith
  unfold move
  simp only [div?_of_ne hrl, div?_of_ne hri, div?_of_ne hil, Option.bind_eq_bind, Option.bind_some]
  split
  · next hq1 => exact ⟨_, rfl, hq1.1.le, hq1.2.le⟩
  · rcases hd with ⟨rfl, -⟩ | ⟨rfl, -⟩
    · have hroom : (1 : ℚ) ≤ qt.n r - qt.n i := by linarith
      have hslope : ((1 : Int) : ℚ) * (qt.q r - qt.q i) = qt.q r - qt.q i := by
        rw [Int.cast_one, one_mul]
      obtain ⟨h0, h1⟩ := interpolate_between hqr hroom
      simp only [if_true, hslope, div?_of_ne hri, Option.bind_some]
      exact ⟨_, rfl, by linarith, by linarith⟩
    · have hroom : (1 : ℚ) ≤ qt.n i - qt.n l := by linarith
      have hslope : ((-1 : Int) : ℚ) * (qt.q l - qt.q i) / (qt.n l - qt.n i) =
          -((qt.q i - qt.q l) / (qt.n i - qt.n l)) := by
        rw [← neg_sub (qt.n i : ℚ), div_neg]
        push_cast
        ring
      have hne : ¬ ((-1 : Int) = 1) := by decide
      obtain ⟨h0, h1⟩ := interpolate_between hql hroom
      simp only [if_neg hne, div?_of_ne hli, hslope, Option.bind_some]
      exact ⟨_, rfl, by linarith, by linarith⟩

/-- **The adjustment of a marker**: it succeeds, and both the height and the position of the
marker stay between those of its neighbours. -/
theorem adjust_spec {l i r : Fin 5} {qt : Quantile} (hl : qt.n l < qt.n i) (hr : qt.n i < qt.n r)
    (hql : qt.q l ≤ qt.q i) (hqr : qt.q i ≤ qt.q r) (hd : |qt.n1 i - qt.n i| < 2 ^ 31) :
    ∃ v m, adjust l i r qt =
        some { qt with q := Function.update qt.q i v, n := Function.update qt.n i m } ∧
      qt.q l ≤ v ∧ v ≤ qt.q r ∧ qt.n l < m ∧ m < qt.n r := by
  obtain ⟨d, hd⟩ := toInt_of_abs_lt hd
  unfold adjust
  simp only [hd, Option.bind_eq_bind, Option.bind_some]
  split
  · next hguard =>
      have hroom : (if d > 0 then 1 else -1 : Int) = 1 ∧ 1 < qt.n r - qt.n i ∨
          (if d > 0 then 1 else -1 : Int) = -1 ∧ 1 < qt.n i - qt.n l := by
        split <;> omega
      obtain ⟨v, hmove, hv⟩ := move_spec hl hr hql hqr hroom
      exact ⟨v, _, hmove, hv.1, hv.2, by omega, by omega⟩
  · refine ⟨qt.q i, qt.n i, ?_, hql, hqr, hl, hr⟩
    rw [Function.update_eq_self, Function.update_eq_self]
    rfl

/-! ## The invariant -/

/-- `f`, the fractions of the way from the first to the last observation at which the markers
should stand. -/
def fraction (P : Percentile) : Fin 5 → ℚ := ![0, P.1 / 2, P.1, (1 + P.1) / 2, 1]

structure Markers (P : Percentile) (total : Nat) (obs : Set ℚ) (qt : Quantile) : Prop where
  first : qt.n 0 = 1
  last : qt.n 4 = total
  positions : StrictMono qt.n
  heights : Monotone qt.q
  least : IsLeast obs (qt.q 0)
  greatest : IsGreatest obs (qt.q 4)
  desired : ∀ i, qt.n1 i = 1 + ((qt.n 4 : ℚ) - 1) * fraction P i
  filled : qt.l = 5

theorem fraction_mem (P : Percentile) (i : Fin 5) : 0 ≤ fraction P i ∧ fraction P i ≤ 1 := by
  obtain ⟨p, hp0, hp1⟩ := P
  fin_cases i <;> simp only [fraction] <;> constructor <;> simp <;> linarith

/-- Positions, actual and desired, lie between the first and the last. -/
theorem Markers.abs_sub_lt {P : Percentile} {total : Nat} {obs : Set ℚ} {qt : Quantile}
    (h : Markers P total obs qt) (htotal : total < 2 ^ 31) (i : Fin 5) :
    |qt.n1 i - qt.n i| < 2 ^ 31 := by
  obtain ⟨hf0, hf1⟩ := fraction_mem P i
  have hlow : (1 : ℚ) ≤ qt.n i := by
    have := h.positions.monotone (Fin.zero_le i)
    rw [h.first] at this
    exact_mod_cast this
  have hhigh : (qt.n i : ℚ) ≤ total := by
    have := h.positions.monotone (Fin.le_last i)
    rw [show Fin.last 4 = 4 from rfl, h.last] at this
    exact_mod_cast this
  have htotal' : (total : ℚ) < 2 ^ 31 := by exact_mod_cast htotal
  have hlast : (qt.n 4 : ℚ) = total := by exact_mod_cast h.last
  have hspan : 0 ≤ ((total : ℚ) - 1) * fraction P i := mul_nonneg (by linarith) hf0
  have hspan' : ((total : ℚ) - 1) * fraction P i ≤ total - 1 :=
    mul_le_of_le_one_right (by linarith) hf1
  rw [h.desired, hlast, abs_lt]
  constructor <;> linarith

structure Inner (l i r : Fin 5) : Prop where
  lower : l < i
  upper : i < r
  le_lower : ∀ j < i, j ≤ l
  upper_le : ∀ j, i < j → r ≤ j

/-- The adjustment of an inner marker succeeds and keeps the invariant. -/
theorem Markers.adjust {P : Percentile} {total : Nat} {obs : Set ℚ} {qt : Quantile}
    (h : Markers P total obs qt) (htotal : total < 2 ^ 31) {l i r : Fin 5} (hi : Inner l i r) :
    ∃ qt', adjust l i r qt = some qt' ∧ Markers P total obs qt' := by
  obtain ⟨v, m, hadjust, hlv, hvr, hlm, hmr⟩ :=
    adjust_spec (h.positions hi.lower) (h.positions hi.upper) (h.heights hi.lower.le)
      (h.heights hi.upper.le) (h.abs_sub_lt htotal i)
  have h0 : (0 : Fin 5) ≠ i := (lt_of_le_of_lt (Fin.zero_le l) hi.lower).ne
  have h4 : (4 : Fin 5) ≠ i := (lt_of_lt_of_le hi.upper (Fin.le_last r)).ne'
  have hn0 : Function.update qt.n i m 0 = qt.n 0 := Function.update_of_ne h0 _ _
  have hn4 : Function.update qt.n i m 4 = qt.n 4 := Function.update_of_ne h4 _ _
  have hq0 : Function.update qt.q i v 0 = qt.q 0 := Function.update_of_ne h0 _ _
  have hq4 : Function.update qt.q i v 4 = qt.q 4 := Function.update_of_ne h4 _ _
  refine ⟨_, hadjust, ?_⟩
  constructor
  · exact hn0.trans h.first
  · exact hn4.trans h.last
  · apply strictMono_update h.positions
    · intro j hj
      exact lt_of_le_of_lt (h.positions.monotone (hi.le_lower j hj)) hlm
    · intro j hj
      exact lt_of_lt_of_le hmr (h.positions.monotone (hi.upper_le j hj))
  · apply monotone_update h.heights
    · intro j hj
      exact (h.heights (hi.le_lower j hj)).trans hlv
    · intro j hj
      exact hvr.trans (h.heights (hi.upper_le j hj))
  · show IsLeast obs (Function.update qt.q i v 0)
    rw [hq0]
    exact h.least
  · show IsGreatest obs (Function.update qt.q i v 4)
    rw [hq4]
    exact h.greatest
  · intro j
    show qt.n1 j = 1 + ((Function.update qt.n i m 4 : ℚ) - 1) * fraction P j
    rw [hn4]
    exact h.desired j
  · exact h.filled

/-! ## A call of `get_qt` -/

/-- Finding the cell leaves the heights sorted, with `x` now between the outer ones. -/
theorem cell_spec {q : Fin 5 → ℚ} (hq : Monotone q) (x : ℚ) :
    Monotone (cell q x).1 ∧ (cell q x).1 0 = min x (q 0) ∧ (cell q x).1 4 = max x (q 4) ∧
      (cell q x).2 < 4 := by
  have h01 : q 0 ≤ q 1 := hq (by decide)
  have h12 : q 1 ≤ q 2 := hq (by decide)
  have h23 : q 2 ≤ q 3 := hq (by decide)
  have h34 : q 3 ≤ q 4 := hq (by decide)
  unfold cell
  split_ifs with h2 h3 h4 h1 h0
  · refine ⟨hq, (min_eq_right ?_).symm, (max_eq_right ?_).symm, (by decide : (2 : Fin 5) < 4)⟩ <;> linarith
  · obtain ⟨h4, h5⟩ := h4
    refine ⟨hq, (min_eq_right ?_).symm, (max_eq_right ?_).symm, (by decide : (3 : Fin 5) < 4)⟩ <;> linarith
  · -- above the last marker
    have h5 : q 4 < x := by
      by_contra hle
      exact h4 ⟨not_lt.mp h3, not_lt.mp hle⟩
    refine ⟨monotone_update hq ?_ ?_, (min_eq_right ?_).symm, ?_, (by decide : (3 : Fin 5) < 4)⟩
    · intro j _
      exact (hq (Fin.le_last j)).trans h5.le
    · intro j hj
      exact absurd hj (not_lt.mpr (Fin.le_last j))
    · show q 0 ≤ x
      linarith
    · exact (max_eq_left h5.le).symm
  · refine ⟨hq, (min_eq_right ?_).symm, (max_eq_right ?_).symm, (by decide : (1 : Fin 5) < 4)⟩ <;> linarith
  · obtain ⟨h0, h1⟩ := h0
    refine ⟨hq, (min_eq_right ?_).symm, (max_eq_right ?_).symm, (by decide : (0 : Fin 5) < 4)⟩ <;> linarith
  · -- below the first marker
    have h5 : x < q 0 := by
      by_contra hle
      exact h0 ⟨not_lt.mp hle, not_le.mp h1⟩
    refine ⟨monotone_update hq ?_ ?_, ?_, (max_eq_right ?_).symm, (by decide : (0 : Fin 5) < 4)⟩
    · intro j hj
      exact absurd hj (not_lt.mpr (Fin.zero_le j))
    · intro j _
      exact h5.le.trans (hq (Fin.zero_le j))
    · exact (min_eq_left h5.le).symm
    · show x ≤ q 4
      linarith

/-- Moving up a proper suffix of the positions keeps them apart. -/
theorem shift_spec {n : Fin 5 → Int} (hn : StrictMono n) (h0 : n 0 = 1) {k : Fin 5} (hk : k < 4)
    (hlast : n 4 + 1 < 2 ^ 31) :
    ∃ n', shift n k = some n' ∧ StrictMono n' ∧ n' 0 = 1 ∧ n' 4 = n 4 + 1 := by
  have hfits : ∀ j, IsInt (if k < j then n j + 1 else n j) := by
    intro j
    have hlow := hn.monotone (Fin.zero_le j)
    have hhigh := hn.monotone (Fin.le_last j)
    rw [h0] at hlow
    rw [show Fin.last 4 = 4 from rfl] at hhigh
    unfold IsInt
    split <;> omega
  refine ⟨_, if_pos hfits, ?_, ?_, if_pos hk⟩
  · intro i j hij
    have hlt := hn hij
    show (if k < i then n i + 1 else n i) < if k < j then n j + 1 else n j
    split
    · next hki =>
        rw [if_pos (hki.trans hij)]
        omega
    · split <;> omega
  · show (if k < 0 then n 0 + 1 else n 0) = 1
    rw [if_neg (not_lt.mpr (Fin.zero_le k)), h0]

/-- The desired positions keep their fractions. -/
theorem desired_step (P : Percentile) (t : ℚ) (i : Fin 5) :
    1 + (t - 1) * fraction P i + dn P i = 1 + (t + 1 - 1) * fraction P i := by
  have hdn : dn P i = fraction P i := by
    fin_cases i <;> simp [dn, fraction, add_comm]
  rw [hdn]
  ring

/-- **A call of `get_qt`** succeeds and keeps the invariant. -/
theorem Markers.getQt {P : Percentile} {total : Nat} {obs : Set ℚ} {qt : Quantile}
    (h : Markers P total obs qt) (htotal : total + 1 < 2 ^ 31) (x : BitVec 64) :
    ∃ qt', getQt P qt x = some qt' ∧ Markers P (total + 1) (insert (x.toNat : ℚ) obs) qt' := by
  obtain ⟨hmono, hlow, hhigh, hk⟩ := cell_spec h.heights (x.toNat : ℚ)
  have hlast : qt.n 4 + 1 < 2 ^ 31 := by
    rw [h.last]
    omega
  obtain ⟨n', hshift, hn, h0, h4⟩ := shift_spec h.positions h.first hk hlast
  have hstart : Markers P (total + 1) (insert (x.toNat : ℚ) obs)
      { qt with q := (cell qt.q x.toNat).1, n := n', n1 := fun i => qt.n1 i + dn P i } := by
    constructor
    · exact h0
    · show n' 4 = _
      rw [h4, h.last]
      rfl
    · exact hn
    · exact hmono
    · show IsLeast _ ((cell qt.q x.toNat).1 0)
      rw [hlow]
      exact h.least.insert _
    · show IsGreatest _ ((cell qt.q x.toNat).1 4)
      rw [hhigh]
      exact h.greatest.insert _
    · intro i
      show qt.n1 i + dn P i = 1 + ((n' 4 : ℚ) - 1) * fraction P i
      rw [h.desired, desired_step, h4]
      push_cast
      rfl
    · exact h.filled
  obtain ⟨qt1, h1, hm1⟩ := hstart.adjust htotal (l := 0) (i := 1) (r := 2)
    ⟨by decide, by decide, by decide, by decide⟩
  obtain ⟨qt2, h2, hm2⟩ := hm1.adjust htotal (l := 1) (i := 2) (r := 3)
    ⟨by decide, by decide, by decide, by decide⟩
  obtain ⟨qt3, h3, hm3⟩ := hm2.adjust htotal (l := 2) (i := 3) (r := 4)
    ⟨by decide, by decide, by decide, by decide⟩
  refine ⟨qt3, ?_, hm3⟩
  unfold Quantile.getQt
  simp only [hshift, h1, h2, h3, Option.bind_eq_bind, Option.bind_some]

/-! ## Runs -/

/-- Five sorted heights, filled in by the caller. -/
def filled (P : Percentile) (qt : Quantile) (a : Fin 5 → ℚ) : Quantile :=
  { init P qt with q := a, l := 5 }

theorem markers_filled (P : Percentile) (qt : Quantile) {a : Fin 5 → ℚ} (ha : Monotone a) :
    Markers P 5 (Set.range a) (filled P qt a) where
  first := rfl
  last := rfl
  positions := by
    apply Fin.strictMono_iff_lt_succ.mpr
    show ∀ i : Fin 4, (![1, 2, 3, 4, 5] : Fin 5 → Int) i.castSucc < ![1, 2, 3, 4, 5] i.succ
    decide
  heights := ha
  least := ⟨Set.mem_range_self 0, by rintro _ ⟨i, rfl⟩; exact ha (Fin.zero_le i)⟩
  greatest := ⟨Set.mem_range_self 4, by rintro _ ⟨i, rfl⟩; exact ha (Fin.le_last i)⟩
  desired := by
    have hpos : ∀ i, (![1, 1 + 2 * P.1, 1 + 4 * P.1, 3 + 2 * P.1, 5] : Fin 5 → ℚ) i =
        1 + (5 - 1) * fraction P i := by
      intro i
      match i with
      | 0 => show 1 = 1 + (5 - 1) * (0 : ℚ); ring
      | 1 => show 1 + 2 * P.1 = 1 + (5 - 1) * (P.1 / 2); ring
      | 2 => show 1 + 4 * P.1 = 1 + (5 - 1) * P.1; ring
      | 3 => show 3 + 2 * P.1 = 1 + (5 - 1) * ((1 + P.1) / 2); ring
      | 4 => show 5 = 1 + (5 - 1) * (1 : ℚ); ring
    intro i
    exact_mod_cast hpos i
  filled := rfl

/-- Sorting sorted heights changes nothing: the inner loop stops at once. -/
theorem insertSort_of_monotone {q : Fin 5 → ℚ} (hq : Monotone q) : insertSort q = some q := by
  have hsink : ∀ j, sink q j = some q := by
    rintro ⟨j, hj⟩
    cases j with
    | zero => rw [sink]
    | succ j =>
        rw [sink, if_neg (not_lt.mpr (hq (Fin.mk_le_mk.mpr (Nat.le_succ j))))]
  simp [insertSort, hsink]

/-- So the callers, who sort first, only call `get_qt`. -/
theorem Markers.observe_eq {P : Percentile} {total : Nat} {obs : Set ℚ} {qt : Quantile}
    (h : Markers P total obs qt) (x : BitVec 64) : observe P qt x = Quantile.getQt P qt x := by
  unfold observe
  rw [dif_neg (by rw [h.filled]; decide), if_pos h.filled, insertSort_of_monotone h.heights]
  rfl

def feed (P : Percentile) (qt : Quantile) (xs : List (BitVec 64)) : Option Quantile :=
  xs.foldlM (getQt P) qt

/-- **The estimator over a run**: whatever is observed, no call fails, so that no divisor is zero;
positions and heights stay in order and in their places; and the sorting before each call changes
nothing. -/
theorem feed_markers (P : Percentile) (qt₀ : Quantile) (a : Fin 5 → ℚ) (ha : Monotone a)
    (xs : List (BitVec 64)) (htotal : 5 + xs.length < 2 ^ 31) :
    ∃ qt, feed P (filled P qt₀ a) xs = some qt ∧
      xs.foldlM (observe P) (filled P qt₀ a) = some qt ∧
      Markers P (5 + xs.length) (Set.range a ∪ {v | ∃ x ∈ xs, v = (x.toNat : ℚ)}) qt ∧
      insertSort qt.q = some qt.q := by
  induction xs using List.reverseRecOn with
  | nil =>
      refine ⟨filled P qt₀ a, rfl, rfl, ?_, insertSort_of_monotone ha⟩
      simpa using markers_filled P qt₀ ha
  | append_singleton xs x ih =>
      rw [List.length_append, List.length_singleton] at htotal
      obtain ⟨qt, hfeed, hobserve, hm, -⟩ := ih (by omega)
      obtain ⟨qt', hqt', hm'⟩ := hm.getQt (by omega) x
      have hset : Set.range a ∪ {v | ∃ y ∈ xs ++ [x], v = (y.toNat : ℚ)} =
          insert (x.toNat : ℚ) (Set.range a ∪ {v | ∃ y ∈ xs, v = (y.toNat : ℚ)}) := by
        ext v
        simp only [List.mem_append, List.mem_singleton, Set.mem_union, Set.mem_insert_iff,
          Set.mem_ofPred_eq]
        grind
      refine ⟨qt', ?_, ?_, ?_, insertSort_of_monotone hm'.heights⟩
      · rw [feed, List.foldlM_append, ← feed, hfeed]
        simpa using hqt'
      · rw [List.foldlM_append, hobserve]
        simpa [hm.observe_eq x] using hqt'
      · rw [hset, List.length_append, List.length_singleton]
        exact hm'

/-- Five zeros and a gap of `3`, with the quantile of the run-to-completion program. -/
theorem feed_markers_three :
    let start := filled runToCompletionP ⟨0, 0, 0, 0⟩ (0 : Fin 5 → ℚ)
    ∃ qt, feed runToCompletionP start [3#64] = some qt ∧
      [3#64].foldlM (observe runToCompletionP) start = some qt ∧
      Markers runToCompletionP (5 + [3#64].length)
        (Set.range (0 : Fin 5 → ℚ) ∪ {v | ∃ x ∈ [3#64], v = (x.toNat : ℚ)}) qt ∧
      insertSort qt.q = some qt.q :=
  feed_markers runToCompletionP ⟨0, 0, 0, 0⟩ 0 monotone_const [3#64] (by decide)

end Quantile
end FloWatcher
