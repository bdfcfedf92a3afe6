import Mathlib.Data.List.Nodup
import Mathlib.Logic.Function.Basic

/-!
# Items in places

A resource of which every item is in one place at a time, such as the buffers of a pool. What is in
a place is a list, since some places are queues. A partition is kept by moving items from one place
to another, and the items of two places are together no more than there are items at all.
-/

namespace Transition

variable {ι α : Type*}

/-- Every item is in one place, once. -/
structure Partition (items : α → Prop) (places : ι → List α) : Prop where
  nodup : ∀ i, (places i).Nodup
  disjoint : ∀ i j, i ≠ j → (places i).Disjoint (places j)
  cover : ∀ a, items a → ∃ i, a ∈ places i

variable {items : α → Prop} {places : ι → List α}

/-- What is in two places is different. -/
theorem Partition.nodup_append (h : Partition items places) {i j : ι} (hij : i ≠ j) :
    (places i ++ places j).Nodup := by
  apply List.nodup_append'.mpr
  exact ⟨h.nodup i, h.nodup j, h.disjoint i j hij⟩

variable [DecidableEq ι]

/-- Move `taken` from place `i` to the end of place `j`; `rest` is what stays. -/
def move (places : ι → List α) (i j : ι) (taken rest : List α) : ι → List α :=
  Function.update (Function.update places i rest) j (places j ++ taken)

theorem mem_move {i j : ι} (hij : i ≠ j) {taken rest : List α}
    (hperm : (places i).Perm (taken ++ rest)) {k : ι} {a : α}
    (ha : a ∈ move places i j taken rest k) : a ∈ places k ∨ k = j ∧ a ∈ taken := by
  unfold move at ha
  rcases eq_or_ne k j with rfl | hkj
  · rw [Function.update_self, List.mem_append] at ha
    rcases ha with ha | ha
    · exact Or.inl ha
    · exact Or.inr ⟨rfl, ha⟩
  · rw [Function.update_of_ne hkj] at ha
    rcases eq_or_ne k i with rfl | hki
    · rw [Function.update_self] at ha
      exact Or.inl (hperm.mem_iff.mpr (List.mem_append_right _ ha))
    · rw [Function.update_of_ne hki] at ha
      exact Or.inl ha

/-- **Moving items keeps every item in one place.** -/
theorem Partition.move (h : Partition items places) {i j : ι} (hij : i ≠ j) {taken rest : List α}
    (hperm : (places i).Perm (taken ++ rest)) :
    Partition items (move places i j taken rest) := by
  have hsplit : (taken ++ rest).Nodup := hperm.nodup_iff.mp (h.nodup i)
  obtain ⟨htaken, hrest, hdisj⟩ := List.nodup_append'.mp hsplit
  have hfrom : ∀ a ∈ taken, a ∈ places i := fun a ha =>
    hperm.mem_iff.mpr (List.mem_append_left _ ha)
  -- what was taken is nowhere but in its new place
  have hgone : ∀ k, k ≠ j → ∀ a ∈ taken, a ∉ Transition.move places i j taken rest k := by
    intro k hkj a ha hmem
    rw [Transition.move, Function.update_of_ne hkj] at hmem
    rcases eq_or_ne k i with rfl | hki
    · rw [Function.update_self] at hmem
      exact hdisj ha hmem
    · rw [Function.update_of_ne hki] at hmem
      exact h.disjoint k i hki hmem (hfrom a ha)
  refine ⟨fun k => ?_, fun k l hkl a hak hal => ?_, fun a ha => ?_⟩
  · unfold Transition.move
    rcases eq_or_ne k j with rfl | hkj
    · rw [Function.update_self]
      apply List.nodup_append'.mpr
      refine ⟨h.nodup k, htaken, fun a hak hat => ?_⟩
      exact h.disjoint i k hij (hfrom a hat) hak
    · rw [Function.update_of_ne hkj]
      rcases eq_or_ne k i with rfl | hki
      · rwa [Function.update_self]
      · rw [Function.update_of_ne hki]
        exact h.nodup k
  · rcases mem_move hij hperm hak with hak' | ⟨rfl, hat⟩
    · rcases mem_move hij hperm hal with hal' | ⟨rfl, hat⟩
      · exact h.disjoint k l hkl hak' hal'
      · exact hgone k hkl a hat hak
    · exact hgone l hkl.symm a hat hal
  · obtain ⟨k, hk⟩ := h.cover a ha
    rcases em (a ∈ taken) with hat | hat
    · exact ⟨j, by rw [Transition.move, Function.update_self]; exact List.mem_append_right _ hat⟩
    · refine ⟨k, ?_⟩
      unfold Transition.move
      rcases eq_or_ne k j with rfl | hkj
      · rw [Function.update_self]
        exact List.mem_append_left _ hk
      · rw [Function.update_of_ne hkj]
        rcases eq_or_ne k i with rfl | hki
        · rw [Function.update_self]
          rcases List.mem_append.mp (hperm.mem_iff.mp hk) with h' | h'
          · exact absurd h' hat
          · exact h'
        · rwa [Function.update_of_ne hki]

/-! ## What the items hold -/

variable {β : Type*} [DecidableEq α]

def write (content : α → β) : List α → List β → α → β
  | a :: as, v :: vs => write (Function.update content a v) as vs
  | _, _ => content

theorem write_of_not_mem {as : List α} {a : α} (ha : a ∉ as) (content : α → β) (vs : List β) :
    write content as vs a = content a := by
  induction as generalizing content vs with
  | nil => rfl
  | cons b as ih =>
      rw [List.mem_cons, not_or] at ha
      cases vs with
      | nil => rfl
      | cons v vs => rw [write, ih ha.2, Function.update_of_ne ha.1]

/-- Different items hold what was written into them. -/
theorem map_write {as : List α} (hnodup : as.Nodup) (content : α → β) {vs : List β}
    (hlen : as.length = vs.length) : as.map (write content as vs) = vs := by
  induction as generalizing content vs with
  | nil => exact (List.eq_nil_of_length_eq_zero hlen.symm).symm
  | cons a as ih =>
      obtain ⟨ha, has⟩ := List.nodup_cons.mp hnodup
      cases vs with
      | nil => cases hlen
      | cons v vs =>
          rw [List.map_cons, write, write_of_not_mem ha, Function.update_self,
            ih has _ (Nat.succ.inj hlen)]

end Transition
