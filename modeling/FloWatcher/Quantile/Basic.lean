import Mathlib

/-!
# The quantile estimator

With `QUANTILE` on, a flow's gaps go through the five markers of the PSQUARE algorithm. `q` holds
the heights of the markers, `n` their positions among the observations and `n1` the positions
where they should be. The code is the same in the run-to-completion and the lthread program, up to
the quantile `P`.

Heights and desired positions are exact rationals here. Whatever the code can do wrong apart from
rounding is an explicit failure (`none`): a division by zero, and an `int` that does not fit.
-/

namespace FloWatcher

structure Quantile where
  q : Fin 5 → ℚ
  l : Int
  n : Fin 5 → Int
  n1 : Fin 5 → ℚ

namespace Quantile

/-- `P`, the quantile to estimate. -/
abbrev Percentile := { p : ℚ // 0 ≤ p ∧ p ≤ 1 }

/-- `#define P 0.99` of the run-to-completion program. -/
def runToCompletionP : Percentile := ⟨99 / 100, by norm_num, by norm_num⟩

/-- `#define P 0.5` of the lthread program. -/
def lthreadP : Percentile := ⟨1 / 2, by norm_num, by norm_num⟩

/-! ## Arithmetic that can fail -/

def IsInt (k : Int) : Prop := -2 ^ 31 ≤ k ∧ k < 2 ^ 31

instance (k : Int) : Decidable (IsInt k) := inferInstanceAs (Decidable (_ ∧ _))

/-- The conversion of a floating-point value to `int`: towards zero. -/
def toInt (x : ℚ) : Option Int :=
  let k := if 0 ≤ x then ⌊x⌋ else ⌈x⌉
  if IsInt k then some k else none

def div? (a b : ℚ) : Option ℚ := if b = 0 then none else some (a / b)

/-! ## `init`, `insertSort` and `get_qt` -/

/-- `init`. It leaves the heights and `l` alone. -/
def init (P : Percentile) (qt : Quantile) : Quantile :=
  { qt with
    n := ![1, 2, 3, 4, 5]
    n1 := ![1, 1 + 2 * P.1, 1 + 4 * P.1, 3 + 2 * P.1, 5] }

/-- The inner loop of `insertSort`, from index `j`. The temporary variable is an `int`. -/
def sink (q : Fin 5 → ℚ) : (j : Fin 5) → Option (Fin 5 → ℚ)
  | ⟨0, _⟩ => some q
  | ⟨j + 1, h⟩ =>
      if q ⟨j + 1, h⟩ < q ⟨j, by omega⟩ then do
        let tmp ← toInt (q ⟨j + 1, h⟩)
        sink (Function.update (Function.update q ⟨j + 1, h⟩ (q ⟨j, by omega⟩)) ⟨j, by omega⟩ tmp)
          ⟨j, by omega⟩
      else
        some q

def insertSort (q : Fin 5 → ℚ) : Option (Fin 5 → ℚ) := [1, 2, 3, 4].foldlM sink q

/-- The cell of the observation `x`, with the outer heights moved out to `x` where it lies outside
of them. -/
def cell (q : Fin 5 → ℚ) (x : ℚ) : (Fin 5 → ℚ) × Fin 5 :=
  if x > q 2 then
    if x < q 3 then (q, 2)
    else if x ≥ q 3 ∧ x ≤ q 4 then (q, 3)
    else (Function.update q 4 x, 3)
  else
    if x ≥ q 1 then (q, 1)
    else if q 0 ≤ x ∧ x < q 1 then (q, 0)
    else (Function.update q 0 x, 0)

def shift (n : Fin 5 → Int) (k : Fin 5) : Option (Fin 5 → Int) :=
  let n' := fun j => if k < j then n j + 1 else n j
  if ∀ j, IsInt (n' j) then some n' else none

/-- `dn0`, ..., `dn4` -/
def dn (P : Percentile) : Fin 5 → ℚ := ![0, P.1 / 2, P.1, (P.1 + 1) / 2, 1]

/-- Marker `i` moves by `d`, which is `1` or `-1`, between its neighbours `l` and `r`: the parabolic
formula, or the linear one where its height would leave the neighbours'. -/
def move (l i r : Fin 5) (d : Int) (qt : Quantile) : Option Quantile := do
  let c ← div? d (qt.n r - qt.n l)
  let up ← div? ((qt.n i - qt.n l + d) * (qt.q r - qt.q i)) (qt.n r - qt.n i)
  let down ← div? ((qt.n r - qt.n i - d) * (qt.q i - qt.q l)) (qt.n i - qt.n l)
  let q1 := qt.q i + c * (up + down)
  if q1 > qt.q l ∧ q1 < qt.q r then
    return { qt with q := Function.update qt.q i q1, n := Function.update qt.n i (qt.n i + d) }
  else
    -- `q[i+d]` and `n[i+d]`
    let m := if d = 1 then r else l
    let slope ← div? (d * (qt.q m - qt.q i)) (qt.n m - qt.n i)
    return { qt with
      q := Function.update qt.q i (qt.q i + slope)
      n := Function.update qt.n i (qt.n i + d) }

/-- The adjustment of marker `i` with the neighbours `l` and `r`. -/
def adjust (l i r : Fin 5) (qt : Quantile) : Option Quantile := do
  let d ← toInt (qt.n1 i - qt.n i)
  if (d ≥ 1 ∧ qt.n r - qt.n i > 1) ∨ (d ≤ -1 ∧ qt.n l - qt.n i < -1) then
    move l i r (if d > 0 then 1 else -1) qt
  else
    return qt

def getQt (P : Percentile) (qt : Quantile) (x : BitVec 64) : Option Quantile := do
  let (q, k) := cell qt.q x.toNat
  let n ← shift qt.n k
  let qt ← adjust 0 1 2 { qt with q := q, n := n, n1 := fun i => qt.n1 i + dn P i }
  let qt ← adjust 1 2 3 qt
  adjust 2 3 4 qt

/-- What the callers do with a gap, an `int64_t`: the first five fill the heights, and from then on
the heights are sorted before each call of `get_qt`, which takes the gap as a `uint64_t`. -/
def observe (P : Percentile) (qt : Quantile) (curr : BitVec 64) : Option Quantile :=
  if hl : qt.l < 5 then
    if h0 : 0 ≤ qt.l then
      some { qt with q := Function.update qt.q ⟨qt.l.toNat, by omega⟩ curr.toInt, l := qt.l + 1 }
    else
      none
  else do
    let q ← if qt.l = 5 then insertSort qt.q else some qt.q
    getQt P { qt with q := q } curr

end Quantile
end FloWatcher
