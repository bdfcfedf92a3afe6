import FloWatcher.RunToCompletion.Placement
import FloWatcher.Statistics.Moments
import Mathlib.Algebra.Order.AbsoluteValue.Basic
import Mathlib.Tactic.FieldSimp
import Mathlib.Tactic.Linarith
import Mathlib.Tactic.NormNum

/-!
# Is `stdDev` the standard deviation?

The `IPG` block of a slot of `hash_list` sets `stdDev` to the distance between the gap of the packet
and the average before it, and the average counts the first packet of the flow, which has no gap, as
a gap of `0`. `isVariance_stdDev_iff` says for which gaps the square of this is their variance.
-/

namespace FloWatcher
namespace RunToCompletion

open Statistics

/-! ## A slot in exact arithmetic -/

structure Exact where
  ctr : ℕ
  avg : ℚ
  stdDev : ℚ

/-- The first packet of a flow has started the slot. -/
def Exact.start : Exact := { ctr := 1, avg := 0, stdDev := 0 }

/-- The block for a gap `curr`. The average is `(avg * (ctr - 1) + curr) / ctr`, where `ctr` has
been incremented. -/
def Exact.hit (s : Exact) (curr : ℚ) : Exact where
  ctr := s.ctr + 1
  stdDev := |curr - s.avg|
  avg := addValue s.avg s.ctr curr

/-- The slot after the packets of a flow with these gaps. -/
def Exact.after (gaps : List ℚ) : Exact := gaps.foldl Exact.hit Exact.start

theorem Exact.after_concat (gaps : List ℚ) (curr : ℚ) :
    Exact.after (gaps ++ [curr]) = (Exact.after gaps).hit curr := List.foldl_concat ..

theorem Exact.ctr_after (gaps : List ℚ) : (Exact.after gaps).ctr = gaps.length + 1 := by
  induction gaps using List.reverseRecOn with
  | nil => rfl
  | append_singleton gaps curr ih =>
      rw [Exact.after_concat, List.length_append, List.length_singleton, ← ih]
      rfl

/-- The average is one of the gaps and a `0`. -/
theorem Exact.avg_after (gaps : List ℚ) :
    (Exact.after gaps).avg * (gaps.length + 1) = gaps.sum := by
  induction gaps using List.reverseRecOn with
  | nil => exact zero_mul _
  | append_singleton gaps curr ih =>
      have hctr : ((Exact.after gaps).ctr : ℚ) = gaps.length + 1 := by
        rw [Exact.ctr_after, Nat.cast_succ]
      rw [Exact.after_concat, List.length_append, List.sum_append, List.sum_singleton, ← ih, ← hctr,
        List.length_singleton, Nat.cast_succ, ← hctr]
      exact addValue_mul _ _ _

/-! ## The blocks of the program -/

/-- The gaps of the packets that meet `globals`, when the slot remembers `ipg`. -/
def gapsFrom : BitVec 64 → List (BitVec 64) → List ℚ
  | _, [] => []
  | ipg, global :: globals => ((gap global ipg).toInt : ℚ) :: gapsFrom global globals

def Exact.later : Exact → List ℚ → List Exact
  | _, [] => []
  | s, curr :: gaps => s.hit curr :: (s.hit curr).later gaps

/-- **The blocks compute the exact numbers** as long as `ctr` does not wrap. -/
theorem laterStats_slot_eq_later (quantile : Option Quantile.Percentile) (globals : List (BitVec 64))
    (s : EntryStats) (e : Exact) (havg : s.avg = e.avg) (hpos : 0 < e.ctr)
    (hctr : e.ctr + globals.length < 2 ^ 32) :
    (laterStats quantile .slot s
        (globals.zip ((List.range' (e.ctr + 1) globals.length).map (BitVec.ofNat 32)))).map
        (fun s => (s.avg, s.stdDev)) =
      (e.later (gapsFrom s.ipg globals)).map fun e => (e.avg, e.stdDev) := by
  induction globals generalizing s e with
  | nil => rfl
  | cons global globals ih =>
      rw [List.length_cons] at hctr
      have hone : (1 : BitVec 32) = BitVec.ofNat 32 1 := rfl
      have hnew : (BitVec.ofNat 32 (e.ctr + 1)).toNat = e.ctr + 1 := by
        rw [BitVec.toNat_ofNat, Nat.mod_eq_of_lt (by omega)]
      have hold : (BitVec.ofNat 32 (e.ctr + 1) - 1).toNat = e.ctr := by
        rw [hone, BitVec.ofNat_sub_ofNat_of_le _ _ (by omega) (by omega), BitVec.toNat_ofNat,
          Nat.mod_eq_of_lt (by omega), Nat.add_sub_cancel]
      have hstats : (nextStats quantile .slot global (BitVec.ofNat 32 (e.ctr + 1)) s).avg =
          (e.hit (gap global s.ipg).toInt).avg := by
        show average s.avg _ _ = addValue e.avg e.ctr _
        rw [average, hnew, hold, havg, addValue, Nat.cast_succ]
      have hdev : (nextStats quantile .slot global (BitVec.ofNat 32 (e.ctr + 1)) s).stdDev =
          (e.hit (gap global s.ipg).toInt).stdDev := by
        show |((gap global s.ipg).toInt : ℚ) - s.avg| = |((gap global s.ipg).toInt : ℚ) - e.avg|
        rw [havg]
      rw [List.length_cons, List.range'_succ, List.map_cons, List.zip_cons_cons, laterStats, gapsFrom,
        Exact.later, List.map_cons, List.map_cons, hstats, hdev]
      congr 1
      apply ih _ (e.hit (gap global s.ipg).toInt) hstats
      · exact Nat.succ_pos _
      · show e.ctr + 1 + globals.length < 2 ^ 32
        omega

/-! ## The variance -/

/-- `v` is a variance of the gaps, with their number as the divisor or with one less. -/
def IsVariance (gaps : List ℚ) (v : ℚ) : Prop :=
  v = deviations gaps / gaps.length ∨ v = deviations gaps / (gaps.length - 1)

/-- The relation between the last gap, the sum and the sum of the squares of the gaps. -/
def LastGapFits (gaps : List ℚ) : Prop :=
  let n : ℚ := gaps.length
  let d := (n + 1) * gaps.getLastD 0 - gaps.sum
  let v := n * (gaps.map (· ^ 2)).sum - gaps.sum ^ 2
  d ^ 2 = v ∨ (n - 1) * d ^ 2 = n * v

/-- `stdDev` compares the last gap with the average of the others and a `0`. -/
theorem sq_stdDev_after (gaps : List ℚ) (hgaps : gaps ≠ []) :
    (gaps.length : ℚ) ^ 2 * (Exact.after gaps).stdDev ^ 2 =
      ((gaps.length + 1) * gaps.getLastD 0 - gaps.sum) ^ 2 := by
  obtain ⟨gs, curr, rfl⟩ := List.eq_nil_or_concat' gaps |>.resolve_left hgaps
  have havg := Exact.avg_after gs
  rw [Exact.after_concat, List.length_append, List.sum_append, List.getLastD_concat,
    List.length_singleton, List.sum_singleton, Nat.cast_succ, ← havg]
  show ((gs.length : ℚ) + 1) ^ 2 * |curr - (Exact.after gs).avg| ^ 2 = _
  rw [sq_abs]
  ring

/-- **When `stdDev` squared is the variance of the gaps.** -/
theorem isVariance_stdDev_iff (gaps : List ℚ) (h : 2 ≤ gaps.length) :
    IsVariance gaps ((Exact.after gaps).stdDev ^ 2) ↔ LastGapFits gaps := by
  have hne : gaps ≠ [] := List.length_pos_iff_ne_nil.mp (by omega)
  have hn : (2 : ℚ) ≤ gaps.length := by exact_mod_cast h
  have hdev := sq_stdDev_after gaps hne
  have hvar := length_mul_deviations gaps
  unfold IsVariance LastGapFits
  dsimp only
  rw [← hdev, ← hvar]
  generalize (Exact.after gaps).stdDev ^ 2 = v
  generalize deviations gaps = d
  generalize (gaps.length : ℚ) = n at hn
  have hpos : n ≠ 0 := by linarith
  have hpos' : n - 1 ≠ 0 := by linarith
  apply or_congr
  · rw [eq_div_iff hpos, show n ^ 2 * v = n * (v * n) by ring, mul_right_inj' hpos]
  · rw [eq_div_iff hpos', show (n - 1) * (n ^ 2 * v) = n * n * (v * (n - 1)) by ring,
      show n * (n * d) = n * n * d by ring, mul_right_inj' (mul_ne_zero hpos hpos)]

/-- Two gaps of `10`. -/
theorem isVariance_stdDev_iff_tens : 2 ≤ [(10 : ℚ), 10].length ∧
    (IsVariance [10, 10] ((Exact.after [10, 10]).stdDev ^ 2) ↔ LastGapFits [10, 10]) :=
  ⟨Nat.le_refl 2, isVariance_stdDev_iff [10, 10] (Nat.le_refl 2)⟩

/-- Their variance is `0`, but `stdDev` is `5`. -/
theorem not_isVariance_tens : ¬ IsVariance [10, 10] ((Exact.after [10, 10]).stdDev ^ 2) := by
  have hdev : deviations [(10 : ℚ), 10] = 0 := by norm_num [deviations, mean]
  have hstd : (Exact.after [10, 10]).stdDev = 5 := by
    norm_num [Exact.after, Exact.hit, Exact.start, addValue]
  intro h
  unfold IsVariance at h
  rw [hdev, hstd] at h
  norm_num at h

end RunToCompletion
end FloWatcher
