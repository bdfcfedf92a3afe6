import Mathlib.Data.BitVec
import Mathlib.Logic.Function.Basic

/-!
# Words that lose nothing

Hash functions mix machine words with steps that can be undone: rotations, multiplications by odd
constants, and `x ^ (x >> k)`. They read their words from memory byte by byte, the lowest byte
first (`le`), and bytes that fit into a word can be read off it again.
-/

namespace Hashing

variable {w : Nat}

/-! ## Steps that can be undone -/

theorem rotateLeft_injective (r : Nat) : Function.Injective fun x : BitVec w => x.rotateLeft r := by
  intro x y h
  apply BitVec.eq_of_getLsbD_eq
  intro i hi
  have hr : r % w < w := Nat.mod_lt r (Nat.zero_lt_of_lt hi)
  -- bit `i` goes to place `i + r`, or to the front when that is beyond the word
  rcases Nat.lt_or_ge (i + r % w) w with hlt | hge
  · have hbit := congrArg (·.getLsbD (i + r % w)) h
    simp only [BitVec.getLsbD_rotateLeft, Nat.add_sub_cancel, hlt, decide_true, Bool.true_and] at hbit
    rwa [decide_eq_false (Nat.not_lt.mpr (Nat.le_add_left _ _))] at hbit
  · have hbit := congrArg (·.getLsbD (i + r % w - w)) h
    have hplace : w - r % w + (i + r % w - w) = i := by omega
    simp only [BitVec.getLsbD_rotateLeft, hplace] at hbit
    rwa [decide_eq_true (by omega)] at hbit

/-- `(x << r) | (x >> (w - r))`, as it is written in C. -/
def rotl (x : BitVec w) (r : Nat) : BitVec w := x <<< r ||| x >>> (w - r)

theorem rotl_inj {r : Nat} (hr : r < w) {x y : BitVec w} : rotl x r = rotl y r ↔ x = y := by
  have hrotl : ∀ z : BitVec w, rotl z r = z.rotateLeft r := fun z => by
    rw [BitVec.rotateLeft_def, Nat.mod_eq_of_lt hr, rotl]
  rw [hrotl, hrotl]
  exact (rotateLeft_injective r).eq_iff

theorem add_injective (y : BitVec w) : Function.Injective fun x => x + y :=
  fun _ _ h => (BitVec.add_left_inj y).mp h

theorem xor_injective (y : BitVec w) : Function.Injective fun x => x ^^^ y :=
  fun _ _ h => (BitVec.xor_left_inj y).mp h

theorem mul_injective {c d : BitVec w} (h : c * d = 1) : Function.Injective fun x => x * c := by
  intro x y hxy
  have hcancel : ∀ z : BitVec w, z * c * d = z := fun z => by
    rw [BitVec.mul_assoc, h]
    exact BitVec.mul_one z
  rw [← hcancel x, ← hcancel y]
  exact congrArg (· * d) hxy

theorem xorShift_injective {k : Nat} (hk : 0 < k) :
    Function.Injective fun x : BitVec w => x ^^^ x >>> k := by
  intro x y h
  -- the difference of the two is its own half, quarter, ..., so it is zero
  have hfix : x ^^^ y = (x ^^^ y) >>> k := by
    have hxor := congrArg (· ^^^ (y ^^^ x >>> k)) h
    have hleft : x ^^^ x >>> k ^^^ (y ^^^ x >>> k) = x ^^^ y := by
      rw [BitVec.xor_comm y, ← BitVec.xor_assoc, BitVec.xor_assoc x, BitVec.xor_self,
        BitVec.xor_zero]
    have hright : y ^^^ y >>> k ^^^ (y ^^^ x >>> k) = (x ^^^ y) >>> k := by
      rw [BitVec.xor_comm y, BitVec.xor_assoc, ← BitVec.xor_assoc y, BitVec.xor_self,
        BitVec.zero_xor, BitVec.ushiftRight_xor_distrib, BitVec.xor_comm]
    exact hleft.symm.trans (hxor.trans hright)
  have hzero : (x ^^^ y).toNat = 0 := by
    by_contra hne
    have htoNat := congrArg BitVec.toNat hfix
    rw [BitVec.toNat_ushiftRight, Nat.shiftRight_eq_div_pow] at htoNat
    have hlt : (x ^^^ y).toNat / 2 ^ k < (x ^^^ y).toNat :=
      Nat.div_lt_self (Nat.pos_of_ne_zero hne) (Nat.one_lt_two_pow hk.ne')
    omega
  exact BitVec.xor_eq_zero_iff.mp (BitVec.eq_of_toNat_eq hzero)

/-! ## Steps on an array of words -/

section Lanes

variable {n : Nat} {α : Type*}

/-- `s[i] = f(s[i]);` -/
def assign (s : Vector α n) (i : Fin n) (f : α → α) : Vector α n := s.set i (f s[i])

theorem assign_injective (i : Fin n) {f : α → α} (hf : Function.Injective f) :
    Function.Injective fun s => assign s i f := by
  intro s t h
  apply Vector.ext
  intro j hj
  have hword : (assign s i f)[j] = (assign t i f)[j] := congrArg (·[j]) h
  simp only [assign, Vector.getElem_set] at hword
  by_cases hij : i.val = j
  · rw [if_pos hij, if_pos hij] at hword
    subst hij
    exact hf hword
  · rwa [if_neg hij, if_neg hij] at hword

/-- `s[i] = f(s[j], s[i]);`, where `i` and `j` are not the same. -/
theorem assign_from_injective {i j : Fin n} (hij : j ≠ i) {f : α → α → α}
    (hf : ∀ y, Function.Injective (f y)) :
    Function.Injective fun s => assign s i (f s[j]) := by
  intro s t h
  change assign s i (f s[j]) = assign t i (f t[j]) at h
  have hsame : s[j] = t[j] := by
    have hword : (assign s i (f s[j]))[j] = (assign t i (f t[j]))[j] := congrArg (·[j]) h
    have hne : i.val ≠ j.val := fun h => hij (Fin.ext h.symm)
    simpa [assign, Vector.getElem_set, hne] using hword
  rw [← hsame] at h
  exact assign_injective i (hf s[j]) h

/-- A program whose lines can be undone can be undone. -/
theorem foldl_injective {σ ι : Type*} {f : σ → ι → σ} {l : List ι}
    (h : ∀ i ∈ l, Function.Injective fun s => f s i) : Function.Injective fun s => l.foldl f s := by
  induction l with
  | nil => exact Function.injective_id
  | cons i l ih =>
      intro s t hst
      exact h i List.mem_cons_self (ih (fun j hj => h j (List.mem_cons_of_mem _ hj)) hst)

end Lanes

/-! ## Words in memory -/

abbrev Byte := BitVec 8

/-- Bytes in the order of their addresses, added to a word from bit `8 * i` on. The byte with the
highest address is added first. -/
def leFrom (w : Nat) : Nat → List Byte → BitVec w
  | _, [] => 0
  | i, b :: bs => leFrom w (i + 1) bs ^^^ b.setWidth w <<< (8 * i)

def le (w : Nat) (bs : List Byte) : BitVec w := leFrom w 0 bs

theorem getLsbD_leFrom {i j : Nat} (hi : i < w) (bs : List Byte) :
    (leFrom w j bs).getLsbD i =
      (decide (8 * j ≤ i) && (bs[i / 8 - j]?.getD 0).getLsbD (i % 8)) := by
  induction bs generalizing j with
  | nil =>
      rw [leFrom, List.getElem?_nil, Option.getD_none]
      simp
  | cons b bs ih =>
      rw [leFrom, BitVec.getLsbD_xor, ih, BitVec.getLsbD_shiftLeft, BitVec.getLsbD_setWidth]
      rcases Nat.lt_or_ge i (8 * j) with hlt | hge
      · have hnext : ¬ 8 * (j + 1) ≤ i := by omega
        simp [hlt, Nat.not_le.mpr hlt, hnext]
      · rcases Nat.lt_or_ge i (8 * (j + 1)) with hlt | hge'
        · -- bit `i` is in byte `j`, the head of the list
          have hindex : i / 8 - j = 0 := by omega
          have hbit : i - 8 * j = i % 8 := by omega
          simp [hge, Nat.not_le.mpr hlt, Nat.not_lt.mpr hge, hindex, hbit, hi]
          omega
        · have hindex : i / 8 - j = i / 8 - (j + 1) + 1 := by omega
          have hbeyond : b.getLsbD (i - 8 * j) = false := BitVec.getLsbD_of_ge b _ (by omega)
          simp [hge, hge', hindex, hbeyond]

theorem getLsbD_le {i : Nat} (hi : i < w) (bs : List Byte) :
    (le w bs).getLsbD i = (bs[i / 8]?.getD 0).getLsbD (i % 8) := by
  rw [le, getLsbD_leFrom hi]
  simp

/-- **Bytes that fit into a word can be read off it.** -/
theorem le_injective {bs cs : List Byte} (hlen : bs.length = cs.length) (hfit : 8 * bs.length ≤ w)
    (h : le w bs = le w cs) : bs = cs := by
  apply List.ext_getElem hlen
  intro i hb hc
  apply BitVec.eq_of_getLsbD_eq
  intro k hk
  have hbit := congrArg (·.getLsbD (8 * i + k)) h
  have hindex : (8 * i + k) / 8 = i := by omega
  have hmod : (8 * i + k) % 8 = k := by omega
  simp only [getLsbD_le (show 8 * i + k < w by omega), hindex, hmod] at hbit
  rwa [List.getElem?_eq_getElem hb, List.getElem?_eq_getElem hc] at hbit

/-- Behind the last byte, a word is filled up with zeros. -/
theorem le_congr {bs cs : List Byte} (h : ∀ i < w / 8 + 1, bs[i]?.getD 0 = cs[i]?.getD 0) :
    le w bs = le w cs := by
  apply BitVec.eq_of_getLsbD_eq
  intro i hi
  rw [getLsbD_le hi, getLsbD_le hi, h (i / 8) (by omega)]

/-- The `n` lowest bytes of a word, in little-endian order. -/
def bytesOf (n : Nat) (x : BitVec w) : List Byte :=
  (List.range n).map fun i => (x >>> (8 * i)).setWidth 8

theorem length_bytesOf (n : Nat) (x : BitVec w) : (bytesOf n x).length = n := by
  rw [bytesOf, List.length_map, List.length_range]

/-- A word that fits into `n` bytes can be read off them. -/
theorem bytesOf_injective {n : Nat} (h : w ≤ 8 * n) :
    Function.Injective (bytesOf n : BitVec w → List Byte) := by
  intro x y hxy
  apply BitVec.eq_of_getLsbD_eq
  intro i hi
  have hlt : i / 8 < n := Nat.div_lt_of_lt_mul (Nat.lt_of_lt_of_le hi h)
  have hbyte := congrArg (·[i / 8]?) hxy
  simp only [bytesOf, List.getElem?_map, List.getElem?_range hlt, Option.map_some,
    Option.some.injEq] at hbyte
  have hbit := congrArg (·.getLsbD (i % 8)) hbyte
  have hplace : 8 * (i / 8) + i % 8 = i := Nat.div_add_mod i 8
  have hmod : i % 8 < 8 := Nat.mod_lt i (by decide)
  simpa only [BitVec.getLsbD_setWidth, BitVec.getLsbD_ushiftRight, hmod, decide_true,
    Bool.true_and, hplace] using hbit

end Hashing
