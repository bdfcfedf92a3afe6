import FloWatcher.Transition.Basic

/-!
# Work that comes to an end

When no more work comes in, a system works off what it has. What is left is measured by a number: an
action that works lowers it, and no other quiet action raises it. So a run of quiet actions does no
more work than there was in the beginning, however the actions are interleaved with idle ones.
-/

namespace Transition

variable {σ α : Type*} {step : σ → α → Option σ} {I : σ → Prop} {quiet : α → Prop}
  {working : σ → α → Prop} {left : σ → Nat}

def workDone (step : σ → α → Option σ) (working : σ → α → Prop)
    [∀ s a, Decidable (working s a)] : σ → List α → Nat
  | _, [] => 0
  | s, a :: as =>
      match step s a with
      | none => 0
      | some s' => (if working s a then 1 else 0) + workDone step working s' as

structure WorksOff (step : σ → α → Option σ) (I : σ → Prop) (quiet : α → Prop)
    (working : σ → α → Prop) (left : σ → Nat) : Prop where
  inv : ∀ s a s', I s → step s a = some s' → I s'
  quiet_le : ∀ s a s', I s → quiet a → step s a = some s' → left s' ≤ left s
  working_lt : ∀ s a s', I s → quiet a → working s a → step s a = some s' → left s' < left s

/-- **Quiet actions do no more work than is left.** -/
theorem WorksOff.workDone_le [∀ s a, Decidable (working s a)]
    (h : WorksOff step I quiet working left) {s t : σ} {as : List α} (hs : I s)
    (hquiet : ∀ a ∈ as, quiet a) (hrun : run step s as = some t) :
    workDone step working s as + left t ≤ left s := by
  induction as generalizing s with
  | nil =>
      cases hrun
      exact (Nat.zero_add _).le
  | cons a as ih =>
      obtain ⟨s', hs', hrest⟩ := Option.bind_eq_some_iff.mp hrun
      have hle := ih (h.inv s a s' hs hs') (fun b hb => hquiet b (List.mem_cons_of_mem _ hb)) hrest
      have hquiet' := hquiet a List.mem_cons_self
      simp only [workDone, hs']
      by_cases hworking : working s a
      · have hlt := h.working_lt s a s' hs hquiet' hworking hs'
        rw [if_pos hworking]
        omega
      · have hle' := h.quiet_le s a s' hs hquiet' hs'
        rw [if_neg hworking]
        omega

/-- When nothing is left, no action can work. -/
theorem WorksOff.eq_none (h : WorksOff step I quiet working left) {s : σ} {a : α} (hs : I s)
    (hquiet : quiet a) (hworking : working s a) (hleft : left s = 0) : step s a = none := by
  cases hstep : step s a with
  | none => rfl
  | some s' =>
      have hlt := h.working_lt s a s' hs hquiet hworking hstep
      omega

end Transition
