import FloWatcher.Buckets

/-!
# Hashes, buckets and tags

The NIC tags every packet with a 32-bit RSS hash. The lower half selects one of the `FLOW_NUM`
buckets of the flow table, the upper half is the tag that tells the flows of a bucket apart.
-/

namespace FloWatcher

/-- `FLOW_NUM`, the number of buckets. -/
def flowNum : Nat := 65536

/-- `hash.rss`, a `uint32_t`. -/
abbrev Hash := BitVec 32

/-- The upper half of a hash, a `uint16_t`. In the tables `0` also marks an unused entry. -/
abbrev Tag := UInt16

/-- An index into the flow table. -/
abbrev Bucket := Fin flowNum

/-! Cores, slots and counters are numbered by `Fin 1`, `Fin 2` and `Fin 3`. -/

instance neZeroOne : NeZero 1 := ⟨Nat.one_ne_zero⟩
instance neZeroTwo : NeZero 2 := ⟨Nat.succ_ne_zero 1⟩
instance neZeroThree : NeZero 3 := ⟨Nat.succ_ne_zero 2⟩

theorem toNat_and_ffff (h : Hash) : (h &&& 0xffff#32).toNat = h.toNat % 65536 := by
  have hmod : h.toNat &&& (2 ^ 16 - 1) = h.toNat % 2 ^ 16 := Nat.and_two_pow_sub_one_eq_mod _ 16
  simpa using hmod

/-- `hash.rss & 0xffff`. -/
def indexL (h : Hash) : Bucket :=
  ⟨(h &&& 0xffff#32).toNat, by rw [toNat_and_ffff]; exact Nat.mod_lt _ (by decide)⟩

/-- `(hash.rss & 0xffff0000) >> 16`, stored in 16 bits. -/
def indexH (h : Hash) : Tag := UInt16.ofBitVec (((h &&& 0xffff0000#32) >>> 16).setWidth 16)

theorem indexL_val (h : Hash) : (indexL h).val = h.toNat % 65536 := toNat_and_ffff h

theorem indexH_eq (h : Hash) : indexH h = UInt16.ofBitVec ((h >>> 16).setWidth 16) := by
  unfold indexH
  congr 1
  ext i hi
  simp only [BitVec.getElem_setWidth, BitVec.getLsbD_ushiftRight, BitVec.getLsbD_and]
  have hmask : (0xffff0000#32).getLsbD (16 + i) = true := by
    have : i < 16 := hi
    interval_cases i <;> rfl
  rw [hmask, Bool.and_true]

theorem indexH_toNat (h : Hash) : (indexH h).toNat = h.toNat / 65536 := by
  have hlt := h.isLt
  rw [indexH_eq, UInt16.toNat_ofBitVec, BitVec.toNat_setWidth, BitVec.toNat_ushiftRight,
    Nat.shiftRight_eq_div_pow]
  omega

/-- Bucket and tag together determine the hash: distinct flows get distinct pairs. -/
theorem hash_ext (h h' : Hash) (hl : indexL h = indexL h') (hh : indexH h = indexH h') :
    h = h' := by
  apply BitVec.eq_of_toNat_eq
  have hl' := congrArg Fin.val hl
  have hh' := congrArg UInt16.toNat hh
  rw [indexL_val, indexL_val] at hl'
  rw [indexH_toNat, indexH_toNat] at hh'
  omega

/-- The upper halves of the hashes that fall into bucket `b`, in order of arrival. -/
def bucketTags (b : Bucket) (hs : List Hash) : List Tag := Buckets.tagsOf indexL indexH b hs

end FloWatcher
