import Mathlib.Algebra.Group.Nat.Defs
import Mathlib.Tactic.Common

/-!
# Loops with a narrow counter

`for (i = 0; i < n; i++)` where `i` is an unsigned integer of `w` bits and `n` is not: behind
`2 ^ w - 1` comes `0`. When `n` is beyond what `i` can hold, the loop has no end.
-/

namespace Clib
namespace For

variable {w : Nat} {S : Type} {n : Nat} {body : BitVec w → S → Option S} {s : S}

/-- The counter and the state after `k` passes, if the loop makes as many. The body may leave the
program (`none`). -/
def passes (n : Nat) (body : BitVec w → S → Option S) (s : S) : Nat → Option (BitVec w × S)
  | 0 => some (0#w, s)
  | k + 1 =>
      (passes n body s k).bind fun (i, s') =>
        if i.toNat < n then (body i s').map fun s'' => (i + 1#w, s'') else none

def EndsAfter (n : Nat) (body : BitVec w → S → Option S) (s : S) (k : Nat) : Prop :=
  ∃ i s', passes n body s k = some (i, s') ∧ n ≤ i.toNat

/-- A loop whose counter cannot hold the bound has no end. -/
theorem not_endsAfter (h : 2 ^ w ≤ n) (k : Nat) : ¬ EndsAfter n body s k := by
  rintro ⟨i, s', -, hle⟩
  exact absurd i.isLt (by omega)

/-- One more pass. -/
theorem passes_succ {k : Nat} {i : BitVec w} {s' s'' : S} (hk : passes n body s k = some (i, s'))
    (hi : i.toNat < n) (hbody : body i s' = some s'') :
    passes n body s (k + 1) = some (i + 1#w, s'') := by
  rw [passes, hk, Option.bind_some]
  dsimp only
  rw [if_pos hi, hbody, Option.map_some]

theorem of_passes_succ {k : Nat} {i : BitVec w} {s'' : S}
    (h : passes n body s (k + 1) = some (i, s'')) :
    ∃ j s', passes n body s k = some (j, s') ∧ j.toNat < n ∧ body j s' = some s'' ∧ i = j + 1#w := by
  obtain ⟨⟨j, s'⟩, hk, h⟩ := Option.bind_eq_some_iff.mp h
  dsimp only at h
  split at h
  · next hj =>
      obtain ⟨t, ht, hpair⟩ := Option.map_eq_some_iff.mp h
      cases hpair
      exact ⟨j, s', hk, hj, ht, rfl⟩
  · cases h

/-- The counter counts the passes, as far as it can. -/
theorem counter_passes {k : Nat} {i : BitVec w} {s' : S}
    (h : passes n body s k = some (i, s')) : i = BitVec.ofNat w k := by
  induction k generalizing i s' with
  | zero =>
      cases h
      rfl
  | succ k ih =>
      obtain ⟨j, t, hk, -, -, rfl⟩ := of_passes_succ h
      rw [ih hk, BitVec.ofNat_add]

section States

variable {f : Nat → S}

/-- The loop goes through the states that its body goes through. -/
theorem passes_eq (hbody : ∀ k < n, body (BitVec.ofNat w k) (f k) = some (f (k + 1))) :
    ∀ k ≤ n, passes n body (f 0) k = some (BitVec.ofNat w k, f k) := by
  intro k
  induction k with
  | zero => exact fun _ => rfl
  | succ k ih =>
      intro hk
      have hlt : (BitVec.ofNat w k).toNat < n := by
        rw [BitVec.toNat_ofNat]
        exact Nat.lt_of_le_of_lt (Nat.mod_le _ _) hk
      rw [passes_succ (ih (by omega)) hlt (hbody k hk), BitVec.ofNat_add]

/-- **When a loop ends after `n` passes**: when its counter can hold `n`. -/
theorem endsAfter_iff (hbody : ∀ k < n, body (BitVec.ofNat w k) (f k) = some (f (k + 1))) :
    EndsAfter n body (f 0) n ↔ n < 2 ^ w := by
  constructor
  · intro hends
    by_contra hge
    exact not_endsAfter (by omega) n hends
  · intro hlt
    have hn : (BitVec.ofNat w n).toNat = n := by
      rw [BitVec.toNat_ofNat, Nat.mod_eq_of_lt hlt]
    exact ⟨BitVec.ofNat w n, f n, passes_eq hbody n (Nat.le_refl n), Nat.le_of_eq hn.symm⟩

end States

end For
end Clib
