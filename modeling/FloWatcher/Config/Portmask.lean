import FloWatcher.Clib.Strtoul

/-!
# The numbers of the options

`parse_portmask`, and with decimal notation and a limit `parse_rx_queue_nb`, `parse_rx_desc_nb` and
`parse_rx_burst_size`, are the same function. They return an `int`, so that a number loses its high
bits, and `-1` is a failure as well as the number with all bits set.
-/

namespace FloWatcher

open Clib

/-- The common part, with a limit for the number. -/
def parsePositive (base : Nat) (limit : Nat → Nat) (s : List Char) : BitVec 32 :=
  let result := strtoul s base
  if s = [] ∨ result.endptr ≠ [] then -1
  else if result.value = 0 then -1
  else BitVec.ofNat 32 (limit result.value)

def parsePortmask : List Char → BitVec 32 := parsePositive 16 id

/-- A string is a number in its whole length, as `strtoul` reads it. -/
structure ReadAs (base : Nat) (s : List Char) (n : Nat) : Prop where
  ne_nil : s ≠ []
  endptr : (strtoul s base).endptr = []
  value : (strtoul s base).value = n

def IsMask (s : List Char) (n : Nat) : Prop := ReadAs 16 s n ∧ 1 ≤ n ∧ n < 2 ^ 32

def WrapsToZero (s : List Char) : Prop := ∃ n, ReadAs 16 s n ∧ 2 ^ 32 ≤ n ∧ 2 ^ 32 ∣ n

section Numbers

variable {base n : Nat} {limit : Nat → Nat} {s : List Char}

/-- What becomes of a number. -/
theorem parsePositive_of_readAs (h : ReadAs base s n) :
    parsePositive base limit s = if n = 0 then -1 else BitVec.ofNat 32 (limit n) := by
  obtain ⟨hne, hend, rfl⟩ := h
  rw [parsePositive, if_neg (by grind)]

/-- What is no number fails. -/
theorem parsePositive_of_not_readAs (h : ∀ n, ¬ ReadAs base s n) :
    parsePositive base limit s = -1 := by
  rw [parsePositive, if_pos]
  by_contra hread
  rw [not_or, not_not] at hread
  exact h _ ⟨hread.1, hread.2, rfl⟩

theorem parsePortmask_of_isMask (h : IsMask s n) :
    parsePortmask s = BitVec.ofNat 32 n ∧ parsePortmask s ≠ 0 := by
  obtain ⟨hread, hpos, hlt⟩ := h
  have hmask : parsePortmask s = BitVec.ofNat 32 n := by
    rw [parsePortmask, parsePositive_of_readAs hread, if_neg (Nat.ne_of_gt hpos), id]
  refine ⟨hmask, ?_⟩
  rw [hmask]
  intro hzero
  have htoNat := congrArg BitVec.toNat hzero
  rw [BitVec.toNat_ofNat, Nat.mod_eq_of_lt hlt] at htoNat
  exact Nat.ne_of_gt hpos htoNat

/-- **What is refused.** The programs test for `0`, which is not what a failure returns. -/
theorem parsePortmask_eq_zero_iff : parsePortmask s = 0 ↔ WrapsToZero s := by
  have hfail : (-1 : BitVec 32) ≠ 0 := by decide
  constructor
  · intro hzero
    by_cases hread : ∃ n, ReadAs 16 s n
    · obtain ⟨n, hn⟩ := hread
      rw [parsePortmask, parsePositive_of_readAs hn] at hzero
      split at hzero
      · exact absurd hzero hfail
      · next hne =>
          have htoNat := congrArg BitVec.toNat hzero
          rw [BitVec.toNat_ofNat, id] at htoNat
          have hdvd : 2 ^ 32 ∣ n := Nat.dvd_of_mod_eq_zero htoNat
          exact ⟨n, hn, Nat.le_of_dvd (Nat.pos_of_ne_zero hne) hdvd, hdvd⟩
    · rw [parsePortmask, parsePositive_of_not_readAs (not_exists.mp hread)] at hzero
      exact absurd hzero hfail
  · rintro ⟨n, hn, hle, hdvd⟩
    have hne : n ≠ 0 := by omega
    rw [parsePortmask, parsePositive_of_readAs hn, if_neg hne, id]
    apply BitVec.eq_of_toNat_eq
    rw [BitVec.toNat_ofNat, Nat.mod_eq_zero_of_dvd hdvd]
    rfl

/-- The two are different. -/
theorem WrapsToZero.not_isMask (h : WrapsToZero s) : ¬ IsMask s n := by
  intro hmask
  exact (parsePortmask_of_isMask hmask).2 (parsePortmask_eq_zero_iff.mpr h)

end Numbers

end FloWatcher
