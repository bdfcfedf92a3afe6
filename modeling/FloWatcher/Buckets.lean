import Mathlib

/-!
# Tables of independent buckets

A table is a function from buckets to bucket states, and each item updates the state of its own
bucket. What one bucket looks like after a run is decided by the items of that bucket alone
(`run_apply`), so a statement about the table is a statement about each bucket and a sum over
them.
-/

namespace Buckets

variable {α β τ ε : Type*} [DecidableEq β] {bucket : α → β}

/-- An item `x` updates the state of its own bucket with `f x`. -/
def step (bucket : α → β) (f : α → ε → ε) (T : β → ε) (x : α) : β → ε :=
  Function.update T (bucket x) (f x (T (bucket x)))

def run (bucket : α → β) (f : α → ε → ε) (xs : List α) (T : β → ε) : β → ε :=
  xs.foldl (step bucket f) T

theorem run_append (bucket : α → β) (f : α → ε → ε) (xs ys : List α) (T : β → ε) :
    run bucket f (xs ++ ys) T = run bucket f ys (run bucket f xs T) := List.foldl_append

/-- The state of a bucket after a run, from the items of that bucket. -/
theorem run_apply (bucket : α → β) (f : α → ε → ε) (xs : List α) (T : β → ε) (b : β) :
    run bucket f xs T b = (xs.filter (bucket · = b)).foldl (fun e x => f x e) (T b) := by
  induction xs generalizing T with
  | nil => rfl
  | cons x xs ih =>
      rw [run, List.foldl_cons, ← run, ih]
      by_cases hb : bucket x = b
      · subst hb
        simp [step]
      · rw [List.filter_cons_of_neg (by simpa using hb), step, Function.update_of_ne (Ne.symm hb)]

/-- A bucket without items stays as it is. -/
theorem run_apply_of_forall_ne (f : α → ε → ε) {xs : List α} (T : β → ε) {b : β}
    (h : ∀ x ∈ xs, bucket x ≠ b) : run bucket f xs T b = T b := by
  rw [run_apply, List.filter_eq_nil_iff.mpr fun x hx => by simpa using h x hx, List.foldl_nil]

/-- When the items of a bucket come from one source, running the sources one after another is, for
this bucket, running that source. -/
theorem run_flatMap_apply {ι : Type*} (f : α → ε → ε) (T : β → ε) {b : β} {source : ι → List α}
    {w : ι} (h : ∀ w' ≠ w, ∀ x ∈ source w', bucket x ≠ b) {order : List ι} (hnodup : order.Nodup)
    (hw : w ∈ order) :
    run bucket f (order.flatMap source) T b = run bucket f (source w) T b := by
  induction order generalizing T with
  | nil => exact absurd hw List.not_mem_nil
  | cons w' order ih =>
      obtain ⟨hnot, hnodup⟩ := List.nodup_cons.mp hnodup
      rw [List.flatMap_cons, run_append]
      rcases eq_or_ne w' w with rfl | hne
      · apply run_apply_of_forall_ne
        intro x hx
        obtain ⟨v, hv, hx⟩ := List.mem_flatMap.mp hx
        exact h v (fun he => hnot (he ▸ hv)) x hx
      · have hmem : w ∈ order := (List.mem_cons.mp hw).resolve_left (Ne.symm hne)
        rw [ih _ hnodup hmem, run_apply, run_apply_of_forall_ne f T (h w' hne), ← run_apply]

/-- A relation between buckets that every item keeps holds between two runs, if it holds between
the tables they start from. -/
theorem run_rel {ε' : Type*} (R : ε → ε' → Prop) {f : α → ε → ε} {f' : α → ε' → ε'}
    (hR : ∀ x e e', R e e' → R (f x e) (f' x e')) (xs : List α) {T : β → ε} {T' : β → ε'}
    (hT : ∀ b, R (T b) (T' b)) (b : β) :
    R (run bucket f xs T b) (run bucket f' xs T' b) := by
  rw [run_apply, run_apply]
  exact List.foldl_rel (r := R) (hT b) fun x _ e e' h => hR x e e' h

/-- Summing a measure over the table, with the updated bucket taken out. -/
theorem sum_update {M : Type*} [AddCommMonoid M] [Fintype β] (g : ε → M) (T : β → ε) (i : β)
    (e : ε) : ∑ b, g (Function.update T i e b) = g e + ∑ b ∈ Finset.univ.erase i, g (T b) := by
  rw [← Finset.add_sum_erase _ _ (Finset.mem_univ i), Function.update_self]
  congr 1
  refine Finset.sum_congr rfl fun b hb => ?_
  rw [Function.update_of_ne (Finset.ne_of_mem_erase hb)]

/-- A measure that each item raises by one in its own bucket counts the items when summed over
the table. -/
theorem sum_run {M : Type*} [AddCommMonoidWithOne M] [Fintype β] (bucket : α → β)
    (f : α → ε → ε) (g : ε → M) (hg : ∀ x e, g (f x e) = g e + 1) (xs : List α) (T : β → ε) :
    ∑ b, g (run bucket f xs T b) = ∑ b, g (T b) + xs.length := by
  induction xs generalizing T with
  | nil => simp [run]
  | cons x xs ih =>
      have hstep : ∑ b, g (step bucket f T x b) = ∑ b, g (T b) + 1 := by
        rw [step, sum_update, hg, add_right_comm, Finset.add_sum_erase _ (fun b => g (T b))
          (Finset.mem_univ _)]
      rw [run, List.foldl_cons, ← run, ih, hstep, List.length_cons, Nat.cast_succ, add_assoc,
        add_comm 1]

/-- A loop over a table that adds to a part of its state adds up a sum over the buckets. -/
theorem foldl_finRange {σ M : Type*} [AddCommMonoid M] {n : Nat} (view : σ → M)
    (visit : σ → Fin n → σ) (g : Fin n → M) (hview : ∀ acc i, view (visit acc i) = view acc + g i)
    (acc : σ) : view ((List.finRange n).foldl visit acc) = view acc + ∑ i, g i := by
  have hfold : ∀ (l : List (Fin n)) (acc : σ),
      view (l.foldl visit acc) = view acc + (l.map g).sum := by
    intro l
    induction l with
    | nil => intro acc; exact (add_zero (view acc)).symm
    | cons i l ih =>
        intro acc
        rw [List.foldl_cons, ih, hview, List.map_cons, List.sum_cons, add_assoc]
  rw [hfold, ← List.ofFn_eq_map, List.sum_ofFn]

/-! ## The items of one bucket

With a tag beside the bucket, and bucket and tag together naming the item, counting items is
counting tags within the bucket. -/

def tagsOf (bucket : α → β) (tag : α → τ) (b : β) (xs : List α) : List τ :=
  (xs.filter (bucket · = b)).map tag

variable {tag : α → τ}

theorem tagsOf_append (b : β) (xs ys : List α) :
    tagsOf bucket tag b (xs ++ ys) = tagsOf bucket tag b xs ++ tagsOf bucket tag b ys := by
  simp [tagsOf]

theorem tagsOf_cons_self (x : α) (xs : List α) :
    tagsOf bucket tag (bucket x) (x :: xs) = tag x :: tagsOf bucket tag (bucket x) xs := by
  simp [tagsOf]

/-- A split of the tags of a bucket comes from a split of the items. -/
theorem exists_split_of_tagsOf {b : β} {xs : List α} {pre post : List τ} {t : τ}
    (h : tagsOf bucket tag b xs = pre ++ t :: post) :
    ∃ xpre x xpost, xs = xpre ++ x :: xpost ∧ bucket x = b ∧ tag x = t ∧
      tagsOf bucket tag b xpre = pre := by
  obtain ⟨l₁, l₂, hl, rfl, hl₂⟩ := List.map_eq_append_iff.mp h
  obtain ⟨x, l₃, rfl, rfl, -⟩ := List.map_eq_cons_iff.mp hl₂
  obtain ⟨ys, zs, rfl, hys, hzs⟩ := List.filter_eq_append_iff.mp hl
  obtain ⟨us, vs, rfl, hus, hx, -⟩ := List.filter_eq_cons_iff.mp hzs
  refine ⟨ys ++ us, x, vs, by simp, by simpa using hx, rfl, ?_⟩
  have hnil : us.filter (bucket · = b) = [] := List.filter_eq_nil_iff.mpr hus
  rw [tagsOf, List.filter_append, hys, hnil, List.append_nil]

section Injective

variable [DecidableEq α] [DecidableEq τ]
  (hinj : ∀ x y, bucket x = bucket y → tag x = tag y → x = y)

include hinj

theorem count_tagsOf (x : α) (xs : List α) :
    (tagsOf bucket tag (bucket x) xs).count (tag x) = xs.count x := by
  induction xs with
  | nil => rfl
  | cons y ys ih =>
      by_cases hb : bucket y = bucket x
      · have hiff : tag y = tag x ↔ y = x := ⟨hinj y x hb, fun h => h ▸ rfl⟩
        rw [← hb] at ih ⊢
        rw [tagsOf_cons_self, List.count_cons, List.count_cons, ih]
        simp [hiff]
      · have hne : y ≠ x := fun h => hb (h ▸ rfl)
        rw [tagsOf, List.filter_cons_of_neg (by simpa using hb), ← tagsOf, ih,
          List.count_cons_of_ne hne]

/-- The distinct items are the distinct tags of each bucket, taken together. -/
theorem sum_card_tagsOf [Fintype β] (xs : List α) :
    ∑ b, (tagsOf bucket tag b xs).toFinset.card = xs.toFinset.card := by
  rw [Finset.card_eq_sum_card_fiberwise (f := bucket) (t := Finset.univ)
    fun x _ => Finset.mem_coe.mpr (Finset.mem_univ _)]
  refine Finset.sum_congr rfl fun b _ => ?_
  rw [← Finset.card_image_of_injOn (f := tag)]
  · congr 1
    ext t
    simp [tagsOf]
  · intro x hx y hy hxy
    simp only [Finset.coe_filter, Set.mem_ofPred_eq] at hx hy
    exact hinj x y (hx.2.trans hy.2.symm) hxy

end Injective

end Buckets
