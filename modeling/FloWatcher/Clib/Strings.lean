import Mathlib.Data.List.Basic

/-!
# Strings of the C library

A string is the list of its characters, without the terminator. A pointer into a string is the part
of the string from there on.
-/

namespace Clib

/-- `strchr`: the string from the first `c` on. -/
def strchr (s : List Char) (c : Char) : Option (List Char) :=
  match s.dropWhile (· ≠ c) with
  | [] => none
  | p => some p

variable {s gap : List Char} {c : Char}

/-- `strchr` does not stop at other characters. -/
theorem strchr_append (h : c ∉ gap) (rest : List Char) : strchr (gap ++ rest) c = strchr rest c := by
  unfold strchr
  rw [List.dropWhile_append_of_pos]
  intro d hd
  simp only [ne_eq, decide_not, Bool.not_eq_eq_eq_not, Bool.not_true, decide_eq_false_iff_not]
  rintro rfl
  exact h hd

theorem strchr_cons_self (c : Char) (rest : List Char) : strchr (c :: rest) c = some (c :: rest) := by
  simp [strchr]

theorem strchr_of_not_mem (h : c ∉ s) : strchr s c = none := by
  have happend := strchr_append h []
  rw [List.append_nil] at happend
  rw [happend]
  rfl

end Clib
