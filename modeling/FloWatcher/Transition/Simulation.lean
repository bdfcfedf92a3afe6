import FloWatcher.Transition.Basic

/-!
# Forward simulations

A system simulates another one when it can answer every action of the other one by an action of its
own, so that the states stay related. What is invariant in the simulating system then holds of the
related states of the other one.
-/

namespace Transition

variable {σ σ' α α' : Type*}

/-- Every action of `step` is answered by an action of `step'`. -/
structure Simulates (step : σ → α → Option σ) (init : σ) (step' : σ' → α' → Option σ') (init' : σ')
    (R : σ → σ' → Prop) : Prop where
  init : R init init'
  step : ∀ s t a s', R s t → step s a = some s' → ∃ b t', step' t b = some t' ∧ R s' t'

variable {step : σ → α → Option σ} {init : σ} {step' : σ' → α' → Option σ'} {init' : σ'}
  {R : σ → σ' → Prop}

/-- **Invariants are transferred.** -/
theorem Simulates.isInvariant (h : Simulates step init step' init' R) {I : σ' → Prop}
    (hI : IsInvariant step' init' I) : IsInvariant step init fun s => ∃ t, R s t ∧ I t where
  init := ⟨init', h.init, hI.init⟩
  step := by
    rintro s a s' ⟨t, hR, ht⟩ hs
    obtain ⟨b, t', hb, hR'⟩ := h.step s t a s' hR hs
    exact ⟨t', hR', hI.step t b t' ht hb⟩

end Transition
