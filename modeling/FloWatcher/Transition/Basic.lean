import Mathlib.Data.List.Infix

/-!
# Runs of a transition system

`step s a` is the state that the action `a` leads to from `s`, if `a` can be taken there. An
interleaving of the parties of a concurrent system is a list of actions. `Always P` says that `P`
holds of every state on the way, `Each Q` that `Q` holds of every action taken.
-/

namespace Transition

variable {σ α : Type*}

/-- The state after a sequence of actions, if all of them can be taken. -/
def run (step : σ → α → Option σ) : σ → List α → Option σ
  | s, [] => some s
  | s, a :: as => (step s a).bind fun s' => run step s' as

/-- `P` holds of every state that a sequence of actions leads through. -/
def Always (step : σ → α → Option σ) (P : σ → Prop) : σ → List α → Prop
  | s, [] => P s
  | s, a :: as => P s ∧ ∀ s', step s a = some s' → Always step P s' as

/-- `Q` holds of every action of a sequence, in the state in which it is taken. -/
def Each (step : σ → α → Option σ) (Q : σ → α → Prop) : σ → List α → Prop
  | _, [] => True
  | s, a :: as => ∀ s', step s a = some s' → Q s a ∧ Each step Q s' as

instance Each.decidable {step : σ → α → Option σ} {Q : σ → α → Prop} [∀ s a, Decidable (Q s a)] :
    (s : σ) → (as : List α) → Decidable (Each step Q s as)
  | _, [] => isTrue trivial
  | s, a :: as =>
      match h : step s a with
      | none => isTrue fun s' hs' => by rw [h] at hs'; cases hs'
      | some t =>
          have : Decidable (Each step Q t as) := Each.decidable t as
          decidable_of_iff (Q s a ∧ Each step Q t as)
            ⟨fun hQ s' hs' => by rw [h] at hs'; cases hs'; exact hQ, fun hall => hall t h⟩

/-- `I` holds initially and every action keeps it. -/
structure IsInvariant (step : σ → α → Option σ) (init : σ) (I : σ → Prop) : Prop where
  init : I init
  step : ∀ s a s', I s → step s a = some s' → I s'

variable {step : σ → α → Option σ} {P : σ → Prop} {Q : σ → α → Prop}

theorem Always.head {s : σ} {as : List α} (h : Always step P s as) : P s := by
  cases as with
  | nil => exact h
  | cons a as => exact h.1

/-- `Always P` says that `P` holds after every initial part of the sequence. -/
theorem always_iff_forall_run {s : σ} {as : List α} :
    Always step P s as ↔ ∀ pre, pre <+: as → ∀ s', run step s pre = some s' → P s' := by
  induction as generalizing s with
  | nil =>
      constructor
      · rintro h pre hpre s' hs'
        rw [List.prefix_nil.mp hpre] at hs'
        cases hs'
        exact h
      · intro h
        exact h [] List.prefix_rfl s rfl
  | cons a as ih =>
      constructor
      · rintro ⟨hs, has⟩ pre hpre s' hs'
        cases pre with
        | nil =>
            cases hs'
            exact hs
        | cons b pre =>
            obtain ⟨rfl, hpre'⟩ := List.cons_prefix_cons.mp hpre
            obtain ⟨t, ht, hs'⟩ := Option.bind_eq_some_iff.mp hs'
            exact ih.mp (has t ht) pre hpre' s' hs'
      · intro h
        refine ⟨h [] (List.nil_prefix ..) s rfl, fun t ht => ih.mpr ?_⟩
        intro pre hpre s' hs'
        apply h (a :: pre) (List.cons_prefix_cons.mpr ⟨rfl, hpre⟩)
        rw [run, ht]
        exact hs'

/-- An invariant holds in every state of every run. -/
theorem IsInvariant.run {I : σ → Prop} {init : σ} (h : IsInvariant step init I) {as : List α}
    {s : σ} (hs : run step init as = some s) : I s := by
  obtain ⟨hinit, hstep⟩ := h
  induction as generalizing init with
  | nil =>
      cases hs
      exact hinit
  | cons a as ih =>
      obtain ⟨t, ht, hs⟩ := Option.bind_eq_some_iff.mp hs
      exact ih hs (hstep init a t hinit ht)

/-- What an invariant implies of a state holds of every state of every run. -/
theorem IsInvariant.always {I : σ → Prop} {init : σ} (h : IsInvariant step init I)
    (himp : ∀ s, I s → P s) (as : List α) : Always step P init as :=
  always_iff_forall_run.mpr fun _ _ s hs => himp s (h.run hs)

theorem IsInvariant.and {I J : σ → Prop} {init : σ} (h : IsInvariant step init I)
    (h' : IsInvariant step init J) : IsInvariant step init fun s => I s ∧ J s where
  init := ⟨h.init, h'.init⟩
  step s a s' hs hstep := ⟨h.step s a s' hs.1 hstep, h'.step s a s' hs.2 hstep⟩

/-- What an invariant implies of the next action holds of every action of every run. -/
theorem IsInvariant.each {I : σ → Prop} {init : σ} (h : IsInvariant step init I)
    (hQ : ∀ s a s', I s → step s a = some s' → Q s a) (as : List α) : Each step Q init as := by
  obtain ⟨hinit, hstep⟩ := h
  induction as generalizing init with
  | nil => exact trivial
  | cons a as ih =>
      intro s' hs'
      exact ⟨hQ init a s' hinit hs', ih (hstep init a s' hinit hs')⟩

/-- What holds initially and is kept by the actions with `Q` holds all the way when `Q` holds of
every action. -/
theorem always_of_each {I : σ → Prop} {s : σ} (hs : I s)
    (hstep : ∀ s a s', I s → Q s a → step s a = some s' → I s') {as : List α}
    (h : Each step Q s as) : Always step I s as := by
  induction as generalizing s with
  | nil => exact hs
  | cons a as ih =>
      refine ⟨hs, fun s' hs' => ?_⟩
      obtain ⟨hQ, hrest⟩ := h s' hs'
      exact ih (hstep s a s' hs hQ hs') hrest

theorem Always.imp {P' : σ → Prop} (himp : ∀ s, P s → P' s) {s : σ} {as : List α}
    (h : Always step P s as) : Always step P' s as := by
  induction as generalizing s with
  | nil => exact himp s h
  | cons a as ih => exact ⟨himp s h.1, fun s' hs' => ih (h.2 s' hs')⟩

/-- If, of the actions, exactly those with `Q` keep `P`, then `P` holds all the way exactly when
`Q` holds of every action. -/
theorem always_iff_each {I : σ → Prop} {init : σ} (hI : IsInvariant step init I) (hP : P init)
    (h : ∀ s a s', I s → step s a = some s' → P s → (P s' ↔ Q s a)) (as : List α) :
    Always step P init as ↔ Each step Q init as := by
  obtain ⟨hinit, hstep⟩ := hI
  induction as generalizing init with
  | nil => exact iff_of_true hP trivial
  | cons a as ih =>
      constructor
      · rintro ⟨-, has⟩ s' hs'
        have hP' : P s' := (has s' hs').head
        exact ⟨(h init a s' hinit hs' hP).mp hP', (ih hP' (hstep init a s' hinit hs')).mp (has s' hs')⟩
      · intro has
        refine ⟨hP, fun s' hs' => ?_⟩
        obtain ⟨hQ, hrest⟩ := has s' hs'
        have hP' : P s' := (h init a s' hinit hs' hP).mpr hQ
        exact (ih hP' (hstep init a s' hinit hs')).mpr hrest

end Transition
