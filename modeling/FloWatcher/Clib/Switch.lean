import Mathlib.Data.List.Basic

/-!
# The `switch` statement

A `switch` goes to the `case` of its value and runs what is written from there on, through the
labels that follow, up to a `break`. Where the labels descend, the cases that are run are those up
to the value.
-/

namespace Clib

variable {σ : Type*}

structure Case (σ : Type*) where
  label : Nat
  run : σ → σ
  breaks : Bool := false

/-- Run cases one after the other, up to a `break`. -/
def fallThrough : List (Case σ) → σ → σ
  | [], s => s
  | c :: cs, s => if c.breaks then c.run s else fallThrough cs (c.run s)

def switch (v : Nat) (cases : List (Case σ)) (s : σ) : σ :=
  fallThrough (cases.dropWhile fun c => c.label ≠ v) s

/-- The labels get smaller from case to case. -/
def Descending (cases : List (Case σ)) : Prop := cases.Pairwise fun c d => d.label < c.label

instance (cases : List (Case σ)) : Decidable (Descending cases) :=
  inferInstanceAs (Decidable (List.Pairwise _ _))

variable {v : Nat} {c : Case σ} {cases : List (Case σ)}

theorem switch_cons_of_ne (h : c.label ≠ v) : switch v (c :: cases) = switch v cases := by
  unfold switch
  rw [List.dropWhile_cons_of_pos (by simpa using h)]

theorem switch_cons_self : switch c.label (c :: cases) = fallThrough (c :: cases) := by
  unfold switch
  rw [List.dropWhile_cons_of_neg (by simp)]

/-- Cases without a `break` are all run. -/
theorem fallThrough_eq_foldl (h : ∀ c ∈ cases, c.breaks = false) (s : σ) :
    fallThrough cases s = cases.foldl (fun s c => c.run s) s := by
  induction cases generalizing s with
  | nil => rfl
  | cons c cs ih =>
      rw [fallThrough, h c List.mem_cons_self, ih fun d hd => h d (List.mem_cons_of_mem _ hd)]
      rfl

/-- Cases that would do nothing need not be skipped. -/
theorem switch_eq_fallThrough (hdesc : Descending cases) {s : σ}
    (hv : v ∈ cases.map Case.label ∨ ∀ c ∈ cases, v < c.label)
    (hbreaks : ∀ c ∈ cases, c.breaks = false)
    (hskip : ∀ c ∈ cases, v < c.label → c.run s = s) :
    switch v cases s = fallThrough cases s := by
  induction cases with
  | nil => rfl
  | cons c cs ih =>
      obtain ⟨hc, hcs⟩ := List.pairwise_cons.mp hdesc
      rcases eq_or_ne c.label v with rfl | hne
      · rw [switch_cons_self]
      · have hv' : v ∈ cs.map Case.label ∨ ∀ d ∈ cs, v < d.label := by
          rcases hv with hmem | hlt
          · exact .inl ((List.mem_cons.mp hmem).resolve_left hne.symm)
          · exact .inr fun d hd => hlt d (List.mem_cons_of_mem _ hd)
        have hlt : v < c.label := by
          rcases hv with hmem | hlt
          · obtain ⟨d, hd, rfl⟩ :=
              List.mem_map.mp ((List.mem_cons.mp hmem).resolve_left hne.symm)
            exact hc d hd
          · exact hlt c List.mem_cons_self
        rw [switch_cons_of_ne hne, ih hcs hv' (fun d hd => hbreaks d (List.mem_cons_of_mem _ hd))
          fun d hd => hskip d (List.mem_cons_of_mem _ hd), fallThrough,
          hskip c List.mem_cons_self hlt, hbreaks c List.mem_cons_self]
        rfl

/-- **A countdown of labels, and a value that is one of them or 0: where the cases that are skipped
would do nothing, all cases might as well be run.** -/
theorem switch_of_countdown {n : Nat} (hlabels : cases.map Case.label = (List.range' 1 n).reverse)
    (hv : v ≤ n) {s : σ} (hbreaks : ∀ c ∈ cases, c.breaks = false)
    (hskip : ∀ c ∈ cases, v < c.label → c.run s = s) :
    switch v cases s = cases.foldl (fun s c => c.run s) s := by
  have hdesc : (cases.map Case.label).Pairwise fun a b => b < a := by
    rw [hlabels, List.pairwise_reverse]
    exact List.pairwise_lt_range'
  rw [← fallThrough_eq_foldl hbreaks]
  refine switch_eq_fallThrough (List.pairwise_map.mp hdesc) ?_ hbreaks hskip
  rcases Nat.eq_zero_or_pos v with rfl | hpos
  · refine .inr fun c hc => ?_
    have hmem : c.label ∈ cases.map Case.label := List.mem_map.mpr ⟨c, hc, rfl⟩
    rw [hlabels, List.mem_reverse, List.mem_range'_1] at hmem
    omega
  · left
    rw [hlabels, List.mem_reverse, List.mem_range'_1]
    omega

/-- Two cases of one label that do the same if it is at most `v`. -/
structure AgreeUpTo (v : Nat) (c d : Case σ) : Prop where
  label : c.label = d.label
  breaks : c.breaks = d.breaks
  run : c.label ≤ v → c.run = d.run

theorem fallThrough_congr {cases cases' : List (Case σ)}
    (h : List.Forall₂ (AgreeUpTo v) cases cases') (hle : ∀ c ∈ cases, c.label ≤ v) :
    fallThrough cases = fallThrough cases' := by
  induction h with
  | nil => rfl
  | @cons c d cs ds hcd _ ih =>
      funext s
      rw [fallThrough, fallThrough, hcd.breaks, hcd.run (hle c List.mem_cons_self),
        ih fun x hx => hle x (List.mem_cons_of_mem _ hx)]

/-- A `switch` does not depend on the cases above its value. -/
theorem switch_congr {cases' : List (Case σ)} (hdesc : Descending cases)
    (h : List.Forall₂ (AgreeUpTo v) cases cases') : switch v cases = switch v cases' := by
  induction h with
  | nil => rfl
  | @cons c d cs ds hcd hrest ih =>
      obtain ⟨hc, hcs⟩ := List.pairwise_cons.mp hdesc
      rcases eq_or_ne c.label v with rfl | hne
      · have hle : ∀ x ∈ c :: cs, x.label ≤ c.label := by
          intro x hx
          rcases List.mem_cons.mp hx with rfl | hx
          · exact Nat.le_refl _
          · exact Nat.le_of_lt (hc x hx)
        have hd : switch c.label (d :: ds) = fallThrough (d :: ds) := hcd.label ▸ switch_cons_self
        rw [switch_cons_self, hd]
        exact fallThrough_congr (.cons hcd hrest) hle
      · rw [switch_cons_of_ne hne, switch_cons_of_ne (hcd.label ▸ hne), ih hcs]

theorem fallThrough_injective (h : ∀ c ∈ cases, Function.Injective c.run) :
    Function.Injective (fallThrough cases) := by
  induction cases with
  | nil => exact Function.injective_id
  | cons c cs ih =>
      intro s t hst
      rw [fallThrough, fallThrough] at hst
      have hrun := h c List.mem_cons_self
      cases hbreaks : c.breaks with
      | true => exact hrun (by simpa [hbreaks] using hst)
      | false =>
          rw [hbreaks] at hst
          exact hrun (ih (fun d hd => h d (List.mem_cons_of_mem _ hd)) hst)

theorem switch_injective (h : ∀ c ∈ cases, Function.Injective c.run) :
    Function.Injective (switch v cases) :=
  fallThrough_injective fun c hc => h c ((List.dropWhile_sublist _).subset hc)

end Clib
