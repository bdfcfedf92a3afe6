import FloWatcher.Shared.Basic

/-!
# Threads with regions of their own

A logic for the code of one thread that works in a region of the memory: `Safe` says that the
code stays within its region, that an assertion holds at every jump, and how many steps are left.
Threads that are safe in disjoint regions do not disturb each other. Whatever the interleaving,
each stays safe, and what is in no region stays as it was (`Separated.run`).
-/

namespace Shared

variable {ι Loc β Addr L : Type} {Val : Loc → Type}

/-- The assertions about the code of a thread in its region of the memory. -/
structure Spec (L : Type) (Val : Loc → Type) (β Addr : Type) where
  /-- in every state -/
  inv : Set (β ⊕ Addr) → (∀ x, Val x) → Prop
  /-- at a jump, with the number of steps that are left behind it -/
  jump : L → ℕ → Set (β ⊕ Addr) → (∀ x, Val x) → Prop
  /-- at the end -/
  done : Set (β ⊕ Addr) → (∀ x, Val x) → Prop

/-- An assertion holds as far as the region goes: of a memory that is the same there. -/
def Locally (site : Loc → β ⊕ Addr) (P : Set (β ⊕ Addr) → (∀ x, Val x) → Prop)
    (R : Set (β ⊕ Addr)) (m : ∀ x, Val x) : Prop :=
  ∃ m₀, AgreeOn site R m₀ m ∧ P R m₀

section Locally

variable {site : Loc → β ⊕ Addr} {P : Set (β ⊕ Addr) → (∀ x, Val x) → Prop}
  {R : Set (β ⊕ Addr)} {m m' : ∀ x, Val x}

theorem locally_of (h : P R m) : Locally site P R m := ⟨m, .refl m, h⟩

theorem Locally.congr (hm : AgreeOn site R m m') (h : Locally site P R m) : Locally site P R m' := by
  obtain ⟨m₀, h₀, hP⟩ := h
  exact ⟨m₀, fun x hx => (hm x hx).trans (h₀ x hx), hP⟩

end Locally

variable [DecidableEq β] [DecidableEq Addr] [DecidableEq Loc] (zero : ∀ x, Val x)
  (site : Loc → β ⊕ Addr)

/-- The code is safe in the region `R` of the memory `m` and reaches its end, or the next jump, in
less than `n` steps. A node that it allocates becomes part of the region. -/
def Safe (S : Spec L Val β Addr) :
    Code Val Addr L → ℕ → Set (β ⊕ Addr) → (∀ x, Val x) → Prop
  | .halt, _, R, m => Locally site S.inv R m ∧ Locally site S.done R m
  | .crash, _, _, _ => False
  | .goto l, n, R, m => Locally site S.inv R m ∧ ∃ n' < n, Locally site (S.jump l n') R m
  | .read x k, n, R, m =>
      Locally site S.inv R m ∧ site x ∈ R ∧ ∃ n' < n, Safe S (k (m x)) n' R m
  | .write x v k, n, R, m =>
      Locally site S.inv R m ∧ site x ∈ R ∧ ∃ n' < n, Safe S k n' R (Function.update m x v)
  | .alloc k, n, R, m =>
      Locally site S.inv R m ∧ ∀ a, Sum.inr a ∉ R →
        ∃ n' < n, Safe S (k a) n' (insert (.inr a) R) (blank zero site a m)

/-! ## Rules -/

section Rules

variable {zero site} {S : Spec L Val β Addr} {n : ℕ} {R : Set (β ⊕ Addr)} {m : ∀ x, Val x}

theorem Safe.goto {l : L} {n' : ℕ} (hinv : S.inv R m) (h : S.jump l n' R m) (hn : n' ≤ n) :
    Safe zero site S (.goto l) (n + 1) R m :=
  ⟨locally_of hinv, n', Nat.lt_succ_of_le hn, locally_of h⟩

theorem Safe.read {x : Loc} {k : Val x → Code Val Addr L} (hinv : S.inv R m) (hx : site x ∈ R)
    (h : Safe zero site S (k (m x)) n R m) : Safe zero site S (.read x k) (n + 1) R m :=
  ⟨locally_of hinv, hx, n, Nat.lt_succ_self n, h⟩

theorem Safe.write {x : Loc} {v : Val x} {k : Code Val Addr L} (hinv : S.inv R m)
    (hx : site x ∈ R) (h : Safe zero site S k n R (Function.update m x v)) :
    Safe zero site S (.write x v k) (n + 1) R m :=
  ⟨locally_of hinv, hx, n, Nat.lt_succ_self n, h⟩

theorem Safe.alloc {k : Addr → Code Val Addr L} (hinv : S.inv R m)
    (h : ∀ a, Sum.inr a ∉ R → Safe zero site S (k a) n (insert (.inr a) R) (blank zero site a m)) :
    Safe zero site S (.alloc k) (n + 1) R m :=
  ⟨locally_of hinv, fun a ha => ⟨n, Nat.lt_succ_self n, h a ha⟩⟩

theorem Safe.halt (hinv : S.inv R m) (h : S.done R m) :
    Safe zero site S (.halt : Code Val Addr L) n R m :=
  ⟨locally_of hinv, locally_of h⟩

/-- More steps than needed do no harm. -/
theorem Safe.mono {c : Code Val Addr L} {n' : ℕ} (h : Safe zero site S c n R m) (hn : n ≤ n') :
    Safe zero site S c n' R m := by
  cases c with
  | halt => exact h
  | crash => exact h
  | goto l =>
      obtain ⟨hinv, k, hk, h⟩ := h
      exact ⟨hinv, k, hk.trans_le hn, h⟩
  | read x c =>
      obtain ⟨hinv, hx, k, hk, h⟩ := h
      exact ⟨hinv, hx, k, hk.trans_le hn, h⟩
  | write x v c =>
      obtain ⟨hinv, hx, k, hk, h⟩ := h
      exact ⟨hinv, hx, k, hk.trans_le hn, h⟩
  | alloc c =>
      refine ⟨h.1, fun a ha => ?_⟩
      obtain ⟨k, hk, h⟩ := h.2 a ha
      exact ⟨k, hk.trans_le hn, h⟩

theorem Safe.inv {c : Code Val Addr L} (h : Safe zero site S c n R m) :
    Locally site S.inv R m := by
  cases c with
  | crash => exact h.elim
  | halt => exact h.1
  | goto l => exact h.1
  | read x k => exact h.1
  | write x v k => exact h.1
  | alloc k => exact h.1

/-- Safety is a matter of the region alone. -/
theorem Safe.congr {c : Code Val Addr L} {m' : ∀ x, Val x} (hm : AgreeOn site R m m')
    (h : Safe zero site S c n R m) : Safe zero site S c n R m' := by
  induction c generalizing n R m m' with
  | halt => exact ⟨Locally.congr hm h.1, Locally.congr hm h.2⟩
  | crash => exact h.elim
  | goto l =>
      obtain ⟨hinv, n', hn, hl⟩ := h
      exact ⟨Locally.congr hm hinv, n', hn, Locally.congr hm hl⟩
  | read x k ih =>
      obtain ⟨hinv, hx, n', hn, hk⟩ := h
      refine ⟨Locally.congr hm hinv, hx, n', hn, ?_⟩
      rw [hm x hx]
      exact ih _ hm hk
  | write x v k ih =>
      obtain ⟨hinv, hx, n', hn, hk⟩ := h
      refine ⟨Locally.congr hm hinv, hx, n', hn, ih ?_ hk⟩
      intro y hy
      rcases eq_or_ne y x with rfl | hne
      · rw [Function.update_self, Function.update_self]
      · rw [Function.update_of_ne hne, Function.update_of_ne hne, hm y hy]
  | alloc k ih =>
      obtain ⟨hinv, halloc⟩ := h
      refine ⟨Locally.congr hm hinv, fun a ha => ?_⟩
      obtain ⟨n', hn, hk⟩ := halloc a ha
      refine ⟨n', hn, ih a ?_ hk⟩
      intro y hy
      unfold blank
      split
      · rfl
      · next hne => exact hm y (hy.resolve_left hne)

end Rules

/-! ## Threads together -/

/-- The threads are safe in disjoint regions, with at most `N w` steps left for thread `w`, and
the sites in `F`, which are in none of the regions, are as in the memory `m₀`. -/
structure Separated (S : ι → Spec L Val β Addr) (F : Set (β ⊕ Addr)) (m₀ : ∀ x, Val x) (N : ι → ℕ)
    (R : ι → Set (β ⊕ Addr)) (s : State ι Addr L Val) : Prop where
  safe : ∀ w, Safe zero site (S w) (s.code w) (N w) (R w) s.mem
  disjoint : ∀ w w', w ≠ w' → Disjoint (R w) (R w')
  frame_disjoint : ∀ w, Disjoint (R w) F
  used : ∀ a, (Sum.inr a ∈ F ∨ ∃ w, Sum.inr a ∈ R w) → a ∈ s.used
  frame : AgreeOn site F m₀ s.mem

variable {zero site} {S : ι → Spec L Val β Addr} {F : Set (β ⊕ Addr)} {m₀ : ∀ x, Val x} {N : ι → ℕ}
  {R : ι → Set (β ⊕ Addr)} {s s' : State ι Addr L Val} [DecidableEq ι]

/-- A step of thread `w` to the code `c` and the memory `m`, without an allocation. -/
theorem Separated.update (h : Separated zero site S F m₀ N R s) {w : ι} {c : Code Val Addr L}
    {m : ∀ x, Val x} {n : ℕ} (hsafe : Safe zero site (S w) c n (R w) m)
    (hm : ∀ R', Disjoint (R w) R' → AgreeOn site R' s.mem m) :
    Separated zero site S F m₀ (Function.update N w n) R
      { s with code := Function.update s.code w c, mem := m } where
  safe := by
    intro w'
    rcases eq_or_ne w' w with rfl | hne
    · simpa only [Function.update_self] using hsafe
    · simpa only [Function.update_of_ne hne] using
        (h.safe w').congr (hm (R w') (h.disjoint w w' hne.symm))
  disjoint := h.disjoint
  frame_disjoint := h.frame_disjoint
  used := h.used
  frame := fun x hx => (hm F (h.frame_disjoint w) x hx).trans (h.frame x hx)

/-- The allocation of the node at `a` by thread `w`. -/
theorem Separated.allocate (h : Separated zero site S F m₀ N R s) {w : ι} {a : Addr}
    (ha : a ∉ s.used) {c : Code Val Addr L} {n : ℕ}
    (hsafe : Safe zero site (S w) c n (insert (.inr a) (R w)) (blank zero site a s.mem)) :
    Separated zero site S F m₀ (Function.update N w n)
      (Function.update R w (insert (.inr a) (R w)))
      { code := Function.update s.code w c
        mem := blank zero site a s.mem
        used := a :: s.used } := by
  have hfresh : ∀ w', Sum.inr a ∉ R w' := fun w' hmem => ha (h.used a (.inr ⟨w', hmem⟩))
  have hF : Sum.inr a ∉ F := fun hmem => ha (h.used a (.inl hmem))
  have hdisj : ∀ w' ≠ w, Disjoint (insert (.inr a) (R w)) (R w') := fun w' hne =>
    Set.disjoint_insert_left.mpr ⟨hfresh w', h.disjoint w w' hne.symm⟩
  refine ⟨fun w' => ?_, fun w₁ w₂ hne => ?_, fun w' => ?_, fun b hb => ?_, ?_⟩
  · rcases eq_or_ne w' w with rfl | hne
    · simpa only [Function.update_self] using hsafe
    · simpa only [Function.update_of_ne hne] using (h.safe w').congr (agreeOn_blank (hfresh w'))
  · -- only the region of `w` has grown
    rcases eq_or_ne w₁ w with rfl | h₁
    · rw [Function.update_self, Function.update_of_ne hne.symm]
      exact hdisj w₂ hne.symm
    · rcases eq_or_ne w₂ w with rfl | h₂
      · rw [Function.update_self, Function.update_of_ne h₁]
        exact (hdisj w₁ h₁).symm
      · rw [Function.update_of_ne h₁, Function.update_of_ne h₂]
        exact h.disjoint w₁ w₂ hne
  · rcases eq_or_ne w' w with rfl | hne
    · rw [Function.update_self]
      exact Set.disjoint_insert_left.mpr ⟨hF, h.frame_disjoint w'⟩
    · rw [Function.update_of_ne hne]
      exact h.frame_disjoint w'
  · rcases eq_or_ne b a with rfl | hba
    · exact List.mem_cons_self
    · refine List.mem_cons_of_mem a (h.used b (hb.imp_right ?_))
      rintro ⟨w', hb⟩
      rcases eq_or_ne w' w with rfl | hne
      · rw [Function.update_self, Set.mem_insert_iff, Sum.inr.injEq] at hb
        exact ⟨w', hb.resolve_left hba⟩
      · rw [Function.update_of_ne hne] at hb
        exact ⟨w', hb⟩
  · exact fun x hx => (agreeOn_blank hF x hx).trans (h.frame x hx)

variable {prog : L → Code Val Addr L}

/-- A thread that has not finished can take a step. -/
theorem Separated.progress [Infinite Addr] (h : Separated zero site S F m₀ N R s) {w : ι}
    (hw : s.code w ≠ .halt) : ∃ a, (Shared.step zero site prog s (w, a)).isSome := by
  obtain ⟨a, ha⟩ := Infinite.exists_notMem_finset s.used.toFinset
  rw [List.mem_toFinset] at ha
  refine ⟨a, ?_⟩
  have hsafe := h.safe w
  unfold Shared.step
  split
  · next hcode => exact absurd hcode hw
  · next hcode =>
      rw [hcode] at hsafe
      exact hsafe.elim
  · rfl
  · rfl
  · rfl
  · rw [if_neg ha]
    rfl

variable [Fintype ι]

/-- A step that takes `w` from `N w` to fewer steps takes a step off the sum. -/
theorem sum_update_lt {w : ι} {n : ℕ} (hn : n < N w) :
    ∑ w', Function.update N w n w' < ∑ w', N w' := by
  apply Finset.sum_lt_sum
  · intro w' _
    rcases eq_or_ne w' w with rfl | hne
    · rw [Function.update_self]
      exact hn.le
    · rw [Function.update_of_ne hne]
  · exact ⟨w, Finset.mem_univ w, by rwa [Function.update_self]⟩

/-- **The step lemma**: the threads stay separated, and there is a step less to go. -/
theorem Separated.step
    (hprog : ∀ w l n R m, (S w).jump l n R m → Safe zero site (S w) (prog l) n R m)
    (h : Separated zero site S F m₀ N R s) {act : ι × Addr}
    (hs : step zero site prog s act = some s') :
    ∃ N' R', Separated zero site S F m₀ N' R' s' ∧ ∑ w, N' w < ∑ w, N w := by
  obtain ⟨w, a⟩ := act
  have hsafe := h.safe w
  unfold Shared.step at hs
  split at hs
  · cases hs
  · cases hs
  · next l hcode =>
      cases hs
      rw [hcode] at hsafe
      -- the assertion is about a memory that agrees on the region, and that is enough
      obtain ⟨-, n, hn, m, hm, hl⟩ := hsafe
      have hnext := (hprog w l n (R w) m hl).congr hm
      exact ⟨_, R, h.update hnext fun _ _ _ _ => rfl, sum_update_lt hn⟩
  · next x k hcode =>
      cases hs
      rw [hcode] at hsafe
      obtain ⟨-, -, n, hn, hk⟩ := hsafe
      exact ⟨_, R, h.update hk fun _ _ _ _ => rfl, sum_update_lt hn⟩
  · next x v k hcode =>
      -- the location is in the region of `w`, and so in no other
      cases hs
      rw [hcode] at hsafe
      obtain ⟨-, hx, n, hn, hk⟩ := hsafe
      refine ⟨_, R, h.update hk fun R' hR' => ?_, sum_update_lt hn⟩
      exact agreeOn_update v (Set.disjoint_left.mp hR' hx)
  · next k hcode =>
      split at hs
      · cases hs
      · next ha =>
          -- all nodes in the regions are in use
          cases hs
          rw [hcode] at hsafe
          have hfresh : Sum.inr a ∉ R w := fun hmem => ha (h.used a (.inr ⟨w, hmem⟩))
          obtain ⟨n, hn, hk⟩ := hsafe.2 a hfresh
          exact ⟨_, _, h.allocate ha hk, sum_update_lt hn⟩

/-- **The run lemma**: separated threads stay separated in every interleaving, and none is longer
than the sum of the steps that the threads had left. -/
theorem Separated.run
    (hprog : ∀ w l n R m, (S w).jump l n R m → Safe zero site (S w) (prog l) n R m)
    (h : Separated zero site S F m₀ N R s) {acts : List (ι × Addr)}
    (hs : Transition.run (Shared.step zero site prog) s acts = some s') :
    ∃ N' R', Separated zero site S F m₀ N' R' s' ∧ acts.length + ∑ w, N' w ≤ ∑ w, N w := by
  induction acts generalizing s N R with
  | nil =>
      cases hs
      exact ⟨N, R, h, by simp⟩
  | cons act acts ih =>
      obtain ⟨t, ht, hs⟩ := Option.bind_eq_some_iff.mp hs
      obtain ⟨N₁, R₁, h₁, hlt⟩ := h.step hprog ht
      obtain ⟨N', R', h', hle⟩ := ih h₁ hs
      refine ⟨N', R', h', ?_⟩
      rw [List.length_cons]
      omega

end Shared
