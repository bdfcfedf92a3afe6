import FloWatcher.Transition.Basic

/-!
# Reachable states

A property of all runs is refuted by a run. `Reaches step s s'` says that some sequence of actions
leads from `s` to `s'`; such sequences are put together from shorter ones, and what holds of the
actions of all runs holds of an action that can be taken in a state that is reached.
-/

namespace Transition

variable {σ α : Type*} {step : σ → α → Option σ} {P : σ → Prop} {Q : σ → α → Prop} {s t u : σ}
  {a : α}

theorem run_append (s : σ) (as bs : List α) :
    run step s (as ++ bs) = (run step s as).bind fun t => run step t bs := by
  induction as generalizing s with
  | nil => rfl
  | cons a as ih =>
      rw [List.cons_append, run, run, Option.bind_assoc]
      exact congrArg _ (funext ih)

def Reaches (step : σ → α → Option σ) (s t : σ) : Prop := ∃ as, run step s as = some t

theorem Reaches.refl (s : σ) : Reaches step s s := ⟨[], rfl⟩

theorem Reaches.of_step (h : step s a = some t) : Reaches step s t :=
  ⟨[a], by rw [run, h]; rfl⟩

theorem Reaches.trans (h : Reaches step s t) (h' : Reaches step t u) : Reaches step s u := by
  obtain ⟨as, has⟩ := h
  obtain ⟨bs, hbs⟩ := h'
  exact ⟨as ++ bs, by rw [run_append, has]; exact hbs⟩

theorem Reaches.tail (h : Reaches step s t) (ha : step t a = some u) : Reaches step s u :=
  h.trans (.of_step ha)

theorem IsInvariant.reaches {I : σ → Prop} (h : IsInvariant step s I) (ht : Reaches step s t) :
    I t := by
  obtain ⟨as, has⟩ := ht
  exact h.run has

/-- What holds of every state of every run holds of a state that is reached. -/
theorem Reaches.of_always (h : Reaches step s t) (hall : ∀ as, Always step P s as) : P t := by
  obtain ⟨as, has⟩ := h
  exact always_iff_forall_run.mp (hall as) as List.prefix_rfl t has

/-- What holds of every action of every run holds of an action that can be taken in a state that is
reached. -/
theorem Reaches.of_each (h : Reaches step s t) (ha : step t a = some u)
    (hall : ∀ as, Each step Q s as) : Q t a := by
  obtain ⟨as, has⟩ := h
  have heach : ∀ s, run step s as = some t → Each step Q s (as ++ [a]) → Q t a := by
    clear has hall
    induction as with
    | nil =>
        intro s hs hQ
        cases hs
        exact (hQ u ha).1
    | cons b as ih =>
        intro s hs hQ
        obtain ⟨s', hs', hrest⟩ := Option.bind_eq_some_iff.mp hs
        exact ih s' hrest (hQ s' hs').2
  exact heach s has (hall _)

end Transition
