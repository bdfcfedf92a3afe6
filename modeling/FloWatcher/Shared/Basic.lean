import Mathlib
import FloWatcher.Transition.Basic

/-!
# Threads over a shared memory

Threads run code that reads and writes single locations of a shared memory and allocates nodes in
it. One action is one such access of one thread, so the interleavings of the threads are the lists
of actions of `step`, in the sense of `Transition.run`.

A location `x` holds a value of type `Val x` and belongs to a site, `site x`: one of the sites `β`
that are there from the start, or the node at an address. The locations of a node hold `zero` when
it is allocated.
-/

namespace Shared

variable {ι Loc β Addr L : Type} {Val : Loc → Type}

inductive Code (Val : Loc → Type) (Addr L : Type) where
  /-- nothing is left to do -/
  | halt
  /-- undefined behaviour -/
  | crash
  | goto (l : L)
  | read (x : Loc) (k : Val x → Code Val Addr L)
  | write (x : Loc) (v : Val x) (k : Code Val Addr L)
  | alloc (k : Addr → Code Val Addr L)

/-- The threads, the memory and the addresses allocated so far. -/
structure State (ι Addr L : Type) (Val : Loc → Type) where
  code : ι → Code Val Addr L
  mem : ∀ x, Val x
  used : List Addr

section Step

variable [DecidableEq β] [DecidableEq Addr] (zero : ∀ x, Val x) (site : Loc → β ⊕ Addr)

/-- The memory with the node at `a` cleared. -/
def blank (a : Addr) (m : ∀ x, Val x) : ∀ x, Val x :=
  fun x => if site x = .inr a then zero x else m x

variable [DecidableEq ι] [DecidableEq Loc] (prog : L → Code Val Addr L)

/-- The action `(w, a)`: thread `w` makes its next step. If the step is an allocation, the
allocator returns the address `a`, which is not in use. -/
def step (s : State ι Addr L Val) (act : ι × Addr) : Option (State ι Addr L Val) :=
  match s.code act.1 with
  | .halt => none
  | .crash => none
  | .goto l => some { s with code := Function.update s.code act.1 (prog l) }
  | .read x k => some { s with code := Function.update s.code act.1 (k (s.mem x)) }
  | .write x v k =>
      some { s with
        code := Function.update s.code act.1 k
        mem := Function.update s.mem x v }
  | .alloc k =>
      if act.2 ∈ s.used then none
      else
        some
          { code := Function.update s.code act.1 (k act.2)
            mem := blank zero site act.2 s.mem
            used := act.2 :: s.used }

def Finished (s : State ι Addr L Val) : Prop := ∀ w, s.code w = .halt

end Step

/-! ## Memories that agree on a region -/

/-- The memories hold the same values at the locations of the sites in `R`. -/
def AgreeOn (site : Loc → β ⊕ Addr) (R : Set (β ⊕ Addr)) (m m' : ∀ x, Val x) : Prop :=
  ∀ x, site x ∈ R → m' x = m x

variable {site : Loc → β ⊕ Addr} {zero : ∀ x, Val x} {R R' : Set (β ⊕ Addr)} {m m' : ∀ x, Val x}

theorem AgreeOn.refl (m : ∀ x, Val x) : AgreeOn site R m m := fun _ _ => rfl

theorem AgreeOn.mono (h : AgreeOn site R' m m') (hR : R ⊆ R') : AgreeOn site R m m' :=
  fun x hx => h x (hR hx)

/-- A write outside of a region does not change it. -/
theorem agreeOn_update [DecidableEq Loc] {x : Loc} (v : Val x) (hx : site x ∉ R) :
    AgreeOn site R m (Function.update m x v) := by
  intro y hy
  have hne : y ≠ x := fun h => hx (h ▸ hy)
  exact Function.update_of_ne hne v m

/-- Nor does the allocation of a node outside of it. -/
theorem agreeOn_blank [DecidableEq β] [DecidableEq Addr] {a : Addr} (ha : Sum.inr a ∉ R) :
    AgreeOn site R m (blank zero site a m) := by
  intro y hy
  have hne : site y ≠ .inr a := fun h => ha (h ▸ hy)
  rw [blank, if_neg hne]

end Shared
