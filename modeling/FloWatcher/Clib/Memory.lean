import Mathlib.Data.Vector.Basic

/-!
# Arrays in memory

An array keeps its length. What a pointer points to is the list of the elements from there on. A
`memcpy` that would leave one of its two arrays does not return.
-/

namespace Clib

variable {α : Type*} {n : Nat}

def memcpy (dst : List.Vector α n) (off : Nat) (src : List α) (len : Nat) :
    Option (List.Vector α n) :=
  if h : off + len ≤ n ∧ len ≤ src.length then
    some ⟨dst.toList.take off ++ src.take len ++ dst.toList.drop (off + len), by
      rw [List.length_append, List.length_append, List.length_take, List.length_take,
        List.length_drop, dst.toList_length]
      omega⟩
  else none

def memset (dst : List.Vector α n) (off : Nat) (c : α) (len : Nat) : Option (List.Vector α n) :=
  memcpy dst off (List.replicate len c) len

theorem exists_memcpy (dst : List.Vector α n) (off : Nat) (src : List α) (len : Nat)
    (hdst : off + len ≤ n) (hsrc : len ≤ src.length) :
    ∃ dst', memcpy dst off src len = some dst' ∧
      dst'.toList = dst.toList.take off ++ src.take len ++ dst.toList.drop (off + len) := by
  unfold memcpy
  rw [dif_pos ⟨hdst, hsrc⟩]
  exact ⟨_, rfl, rfl⟩

theorem exists_memset (dst : List.Vector α n) (off : Nat) (c : α) (len : Nat)
    (hdst : off + len ≤ n) :
    ∃ dst', memset dst off c len = some dst' ∧
      dst'.toList = dst.toList.take off ++ List.replicate len c ++ dst.toList.drop (off + len) := by
  obtain ⟨dst', h, hlist⟩ := exists_memcpy dst off (List.replicate len c) len hdst (by simp)
  exact ⟨dst', h, by simpa using hlist⟩

end Clib
