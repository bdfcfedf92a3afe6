import FloWatcher.Pthread.DoubleHash

/-!
# Tables of other sizes

`main` of the pthread program computes its masks from `FLOW_NUM`: for `FLOW_NUM = 2 ^ bits` the mask
`result` has the `bits` lower bits, which select the bucket, and `b1` has the `bits` bits above
them, which are the tag. Together these are the `2 * bits` lower bits of the hash (`samePlace_iff`),
so the flows of a table of less than `65536` buckets are merged (`splitsHashes_iff`).
-/

namespace FloWatcher
namespace Pthread

/-! ## Bucket and tag -/

/-- `while (i < bits) { result |= (1<<i); i++; }` -/
def resultOf (bits : Nat) : BitVec 32 :=
  (List.range bits).foldl (fun result i => result ||| 1#32 <<< i) 0

/-- `b1 = result << bits`. The `int` is converted back where it meets a hash. -/
def b1Of (bits : Nat) : BitVec 32 := resultOf bits <<< bits

/-- `index_l = bufs[buf]->hash.rss & result` -/
def indexLOf (bits : Nat) (h : Hash) : BitVec 32 := h &&& resultOf bits

/-- `index_h = (bufs[buf]->hash.rss & b1) >> bits` -/
def indexHOf (bits : Nat) (h : Hash) : BitVec 32 := (h &&& b1Of bits) >>> bits

/-- `index_h` in a field of the table, such as `hi_f1` or `rss_high`. -/
def stored (indexH : BitVec 32) : Tag := UInt16.ofBitVec (indexH.setWidth 16)

/-- With `FLOW_NUM` as it is in `init.h`, these are the bucket and the tag of the loops. -/
theorem split_bits (h : Hash) :
    (indexLOf bits h).toNat = (indexL h).val ∧ stored (indexHOf bits h) = indexH h :=
  ⟨indexL_val_eq h, indexH_eq_masked h⟩

/-- A table of `2 ^ bits` buckets keeps all flows apart: every index is one of the table, no tag
loses a bit in its field, and two packets have the same bucket and tag only if they have the same
hash. -/
structure SplitsHashes (bits : Nat) : Prop where
  index_lt : ∀ h, (indexLOf bits h).toNat < 2 ^ bits
  tag_kept : ∀ h, (stored (indexHOf bits h)).toNat = (indexHOf bits h).toNat
  apart : ∀ h h', indexLOf bits h = indexLOf bits h' ∧
    stored (indexHOf bits h) = stored (indexHOf bits h') ↔ h = h'

/-! ## Bit by bit -/

theorem getLsbD_resultOf (k i : Nat) : (resultOf k).getLsbD i = decide (i < k ∧ i < 32) := by
  unfold resultOf
  induction k with
  | zero => simp
  | succ k ih =>
      rw [List.range_succ, List.foldl_append, List.foldl_cons, List.foldl_nil, BitVec.getLsbD_or,
        ih, BitVec.getLsbD_shiftLeft, BitVec.getLsbD_one]
      by_cases hi : i < 32
      · rw [Bool.eq_iff_iff]
        simp only [Bool.or_eq_true, Bool.and_eq_true, decide_eq_true_eq, Bool.not_eq_true',
          decide_eq_false_iff_not]
        omega
      · simp [hi]

theorem getLsbD_indexLOf (k : Nat) (h : Hash) (i : Nat) :
    (indexLOf k h).getLsbD i = (h.getLsbD i && decide (i < k)) := by
  rw [indexLOf, BitVec.getLsbD_and, getLsbD_resultOf]
  by_cases hi : i < 32
  · simp [hi]
  · rw [BitVec.getLsbD_of_ge h i (Nat.le_of_not_lt hi), Bool.false_and, Bool.false_and]

theorem getLsbD_indexHOf (k : Nat) (h : Hash) (i : Nat) :
    (indexHOf k h).getLsbD i = (h.getLsbD (k + i) && decide (i < k)) := by
  rw [indexHOf, BitVec.getLsbD_ushiftRight, BitVec.getLsbD_and, b1Of, BitVec.getLsbD_shiftLeft,
    getLsbD_resultOf, Nat.add_sub_cancel_left]
  by_cases hi : k + i < 32
  · have hi' : i < 32 := by omega
    simp [hi, hi']
  · rw [BitVec.getLsbD_of_ge h (k + i) (Nat.le_of_not_lt hi), Bool.false_and, Bool.false_and]

theorem indexLOf_lt (k : Nat) (h : Hash) : (indexLOf k h).toNat < 2 ^ k := by
  apply Nat.lt_pow_two_of_testBit
  intro i hi
  rw [BitVec.testBit_toNat, getLsbD_indexLOf, decide_eq_false (Nat.not_lt.mpr hi), Bool.and_false]

/-- The tag has `bits` bits, and not more than are left above the index. -/
theorem indexHOf_lt (k : Nat) (h : Hash) : (indexHOf k h).toNat < 2 ^ 16 := by
  apply Nat.lt_pow_two_of_testBit
  intro i hi
  rw [BitVec.testBit_toNat, getLsbD_indexHOf]
  by_cases hk : i < k
  · rw [BitVec.getLsbD_of_ge h (k + i) (by omega), Bool.false_and]
  · rw [decide_eq_false hk, Bool.and_false]

theorem toNat_stored (k : Nat) (h : Hash) : (stored (indexHOf k h)).toNat = (indexHOf k h).toNat := by
  show ((indexHOf k h).setWidth 16).toNat = _
  rw [BitVec.toNat_setWidth, Nat.mod_eq_of_lt (indexHOf_lt k h)]

theorem stored_inj (k : Nat) (h h' : Hash) :
    stored (indexHOf k h) = stored (indexHOf k h') ↔ indexHOf k h = indexHOf k h' := by
  rw [← UInt16.toNat_inj, toNat_stored, toNat_stored, BitVec.toNat_inj]

/-- **Which packets share bucket and tag**: those that agree in the lower `2 * bits` bits. -/
theorem samePlace_iff (k : Nat) (h h' : Hash) :
    (indexLOf k h = indexLOf k h' ∧ stored (indexHOf k h) = stored (indexHOf k h')) ↔
      ∀ i < 2 * k, h.getLsbD i = h'.getLsbD i := by
  rw [stored_inj]
  constructor
  · rintro ⟨hindex, htag⟩ i hi
    by_cases hk : i < k
    · have hbit := congrArg (fun x => x.getLsbD i) hindex
      simpa only [getLsbD_indexLOf, hk, decide_true, Bool.and_true] using hbit
    · have hbit := congrArg (fun x => x.getLsbD (i - k)) htag
      have hik : i - k < k := by omega
      have hsum : k + (i - k) = i := by omega
      simpa only [getLsbD_indexHOf, hsum, hik, decide_true, Bool.and_true] using hbit
  · intro hbits
    constructor
    · apply BitVec.eq_of_getLsbD_eq
      intro i _
      rw [getLsbD_indexLOf, getLsbD_indexLOf]
      by_cases hk : i < k
      · rw [hbits i (by omega)]
      · rw [decide_eq_false hk, Bool.and_false, Bool.and_false]
    · apply BitVec.eq_of_getLsbD_eq
      intro i _
      rw [getLsbD_indexHOf, getLsbD_indexHOf]
      by_cases hk : i < k
      · rw [hbits (k + i) (by omega)]
      · rw [decide_eq_false hk, Bool.and_false, Bool.and_false]

/-! ## The sizes that keep the flows apart -/

/-- **Which table sizes keep all flows apart**: `65536` buckets or more. -/
theorem splitsHashes_iff (k : Nat) : SplitsHashes k ↔ 16 ≤ k := by
  constructor
  · intro hsplits
    by_contra hlt
    -- the lowest bit that neither mask has
    have hmerge : (0 : Hash) = 1#32 <<< (2 * k) := by
      apply (hsplits.apart 0 (1#32 <<< (2 * k))).mp
      rw [samePlace_iff]
      intro i hi
      simp [BitVec.getLsbD_shiftLeft, hi]
    have hbit := congrArg (fun x => x.getLsbD (2 * k)) hmerge
    have h32 : 2 * k < 32 := by omega
    simp [h32] at hbit
  · intro hk
    refine ⟨indexLOf_lt k, toNat_stored k, ?_⟩
    intro h h'
    rw [samePlace_iff]
    constructor
    · intro hbits
      exact BitVec.eq_of_getLsbD_eq fun i hi => hbits i (by omega)
    · rintro rfl i _
      rfl

/-- In a table of `256` buckets the hashes `0x00000000` and `0x00010000` share bucket and tag. -/
theorem not_splitsHashes_256 : ¬ SplitsHashes 8 := by
  intro hsplits
  exact absurd ((hsplits.apart 0x00000000#32 0x00010000#32).mp (by decide)) (by decide)

end Pthread
end FloWatcher
