import Mathlib.Data.List.Basic

/-!
# Programs that call out

The initialisation of a program is a sequence of calls to libraries, of which the first one that
fails ends the program. What a call answers is up to the environment, and may depend on the calls
made before. The calls of a loop are made one after the other, so that a program without data from
its calls is a list of calls, made up to the first one that fails.
-/

namespace Calls

variable {γ α : Type}

/-- Whether a call succeeds, given those made before. -/
abbrev Env (γ : Type) := List γ → γ → Bool

/-- Programs, which append their calls to those made before. -/
abbrev Prog (γ : Type) := OptionT (StateM (List γ))

def call (env : Env γ) (c : γ) : Prog γ Unit :=
  OptionT.mk fun before => (if env before c then some () else none, before ++ [c])

def calls (p : Prog γ Unit) : List γ := (p.run.run []).2

def Completes (p : Prog γ Unit) : Prop := (p.run.run []).1 = some ()

/-! ## Splitting lists of calls -/

/-- Where a call of a loop is made. -/
theorem flatMap_eq_append_cons {l : List α} {f : α → List γ} {pre post : List γ} {c : γ}
    (h : l.flatMap f = pre ++ c :: post) :
    ∃ l₁ a l₂ before after, l = l₁ ++ a :: l₂ ∧ f a = before ++ c :: after ∧
      pre = l₁.flatMap f ++ before := by
  induction l generalizing pre with
  | nil => exact absurd h.symm (by simp)
  | cons a l ih =>
      rw [List.flatMap_cons] at h
      rcases List.append_eq_append_iff.mp h with ⟨mid, rfl, hmid⟩ | ⟨mid, hmid, hpost⟩
      · obtain ⟨l₁, b, l₂, before, after, rfl, hb, rfl⟩ := ih hmid
        exact ⟨a :: l₁, b, l₂, before, after, rfl, hb, by simp⟩
      · cases mid with
        | nil =>
            have htail : l.flatMap f = [] ++ c :: post := hpost.symm
            obtain ⟨l₁, b, l₂, before, after, rfl, hb, hpre⟩ := ih htail
            refine ⟨a :: l₁, b, l₂, before, after, rfl, hb, ?_⟩
            rw [List.flatMap_cons, List.append_assoc, ← hpre, hmid]
            simp
        | cons d mid =>
            cases hpost
            exact ⟨[], a, l, pre, mid, rfl, hmid, rfl⟩

/-- A call that is not in the first part is in the second. -/
theorem append_eq_append_cons {cs ds pre post : List γ} {c : γ} (hc : c ∉ cs)
    (h : cs ++ ds = pre ++ c :: post) : ∃ mid, pre = cs ++ mid ∧ ds = mid ++ c :: post := by
  rcases List.append_eq_append_iff.mp h with hright | ⟨mid, rfl, hpost⟩
  · exact hright
  · cases mid with
    | nil => exact ⟨[], by simp, hpost.symm⟩
    | cons d mid =>
        cases hpost
        exact absurd (List.mem_append_right pre List.mem_cons_self) hc

/-! ## Lists of calls -/

def Succeed (env : Env γ) : List γ → List γ → Prop
  | _, [] => True
  | before, c :: cs => env before c = true ∧ Succeed env (before ++ [c]) cs

def made (env : Env γ) : List γ → List γ → List γ
  | _, [] => []
  | before, c :: cs => c :: if env before c then made env (before ++ [c]) cs else []

variable {env : Env γ}

theorem run_call (before : List γ) (c : γ) :
    (call env c).run.run before = (if env before c then some () else none, before ++ [c]) := rfl

theorem run_forM_call (before cs : List γ) :
    ((forM cs (call env) : Prog γ Unit).run.run before).2 = before ++ made env before cs ∧
      (((forM cs (call env) : Prog γ Unit).run.run before).1 = some () ↔ Succeed env before cs) := by
  induction cs generalizing before with
  | nil => exact ⟨(List.append_nil before).symm, iff_of_true rfl trivial⟩
  | cons c cs ih =>
      have hrun : (forM (c :: cs) (call env) : Prog γ Unit).run.run before =
          if env before c then (forM cs (call env) : Prog γ Unit).run.run (before ++ [c])
          else (none, before ++ [c]) := by
        rw [List.forM_cons, OptionT.run_bind, Option.elimM, StateT.run_bind, run_call]
        split
        · rfl
        · rfl
      rw [hrun, made, Succeed]
      split
      · next h =>
          obtain ⟨hcalls, hcompletes⟩ := ih (before ++ [c])
          rw [hcalls, hcompletes, List.append_assoc]
          exact ⟨rfl, (and_iff_right h).symm⟩
      · next h =>
          refine ⟨rfl, iff_of_false (fun hnone => ?_) fun hand => h hand.1⟩
          cases hnone

theorem calls_forM (env : Env γ) (cs : List γ) :
    calls (forM cs (call env) : Prog γ Unit) = made env [] cs :=
  (run_forM_call [] cs).1

theorem completes_forM (env : Env γ) (cs : List γ) :
    Completes (forM cs (call env) : Prog γ Unit) ↔ Succeed env [] cs :=
  (run_forM_call [] cs).2

/-- A loop whose bodies are lists of calls. -/
theorem forM_flatMap (l : List α) (f : α → List γ) :
    (forM l fun a => forM (f a) (call env) : Prog γ Unit) = forM (l.flatMap f) (call env) := by
  induction l with
  | nil => rfl
  | cons a l ih => rw [List.forM_cons, ih, List.flatMap_cons, List.forM_append]

theorem succeed_append {before cs ds : List γ} :
    Succeed env before (cs ++ ds) ↔ Succeed env before cs ∧ Succeed env (before ++ cs) ds := by
  induction cs generalizing before with
  | nil => simp [Succeed]
  | cons c cs ih => simp [Succeed, ih, and_assoc]

theorem made_of_succeed {before cs : List γ} (h : Succeed env before cs) :
    made env before cs = cs := by
  induction cs generalizing before with
  | nil => rfl
  | cons c cs ih => rw [made, if_pos h.1, ih h.2]

/-- A call is made when all calls before it succeed. -/
theorem made_append_cons {before cs : List γ} (h : Succeed env before cs) (c : γ) (ds : List γ) :
    ∃ post, made env before (cs ++ c :: ds) = cs ++ c :: post := by
  induction cs generalizing before with
  | nil => exact ⟨_, rfl⟩
  | cons d cs ih =>
      obtain ⟨post, hpost⟩ := ih h.2
      exact ⟨post, by rw [List.cons_append, made, if_pos h.1, hpost]; rfl⟩

/-- And only then. -/
theorem succeed_of_made {before cs pre post : List γ} {c : γ}
    (h : made env before cs = pre ++ c :: post) :
    Succeed env before pre ∧ ∃ rest, cs = pre ++ c :: rest := by
  induction pre generalizing before cs with
  | nil =>
      cases cs with
      | nil => cases h
      | cons d cs =>
          cases h
          exact ⟨trivial, cs, rfl⟩
  | cons p pre ih =>
      cases cs with
      | nil => cases h
      | cons d cs =>
          rw [made, List.cons_append, List.cons_eq_cons] at h
          obtain ⟨rfl, h⟩ := h
          split at h
          · next hd =>
              obtain ⟨hpre, rest, rfl⟩ := ih h
              exact ⟨⟨hd, hpre⟩, rest, rfl⟩
          · cases pre <;> cases h

/-- Every call of a list that succeeds has succeeded after those before it. -/
theorem Succeed.of_mem {before cs : List γ} (h : Succeed env before cs) {c : γ} (hc : c ∈ cs) :
    ∃ pre post, cs = pre ++ c :: post ∧ env (before ++ pre) c = true := by
  obtain ⟨pre, post, rfl⟩ := List.append_of_mem hc
  exact ⟨pre, post, rfl, (succeed_append.mp h).2.1⟩

/-- A list of calls of which each one succeeds after those before it. -/
theorem succeed_of_forall {before cs : List γ}
    (h : ∀ pre c post, cs = pre ++ c :: post → env (before ++ pre) c = true) :
    Succeed env before cs := by
  induction cs generalizing before with
  | nil => trivial
  | cons c cs ih =>
      refine ⟨by simpa using h [] c cs rfl, ih fun pre d post hcs => ?_⟩
      have hd := h (c :: pre) d post (by rw [hcs]; rfl)
      rwa [List.append_cons] at hd

end Calls
