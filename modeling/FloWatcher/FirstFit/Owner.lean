import FloWatcher.FirstFit.Basic

/-!
# The history of an entry

From the first arrival of a nonzero tag on, its entry sees the arrivals with that tag and no
others. So what the entry holds is decided by the position at which the tag was first recorded,
by what a free entry held there, and by the tag's own arrivals: `getElem?_records` gives the load
at the end of a run, `observed_records` the loads after each of the tag's arrivals.
-/

namespace FirstFit

variable {α τ κ : Type*} [DecidableEq τ] [Zero τ]

/-- Record a sequence of arrivals. An arrival `x` is tagged `tag x`, and `f x` updates the load of
the entry that it is recorded in. -/
def records (tag : α → τ) (f : α → Nat → τ × κ → κ) (new : κ) (xs : List α)
    (es : List (τ × κ)) : List (τ × κ) :=
  xs.foldl (fun es x => record (tag x) (f x) new es) es

def lookup (t : τ) (es : List (τ × κ)) : Option κ := (es.find? (fun e => e.1 = t)).map Prod.snd

/-- The load of the entry of `t` after each of the arrivals tagged `t`. -/
def observed (tag : α → τ) (f : α → Nat → τ × κ → κ) (new : κ) (t : τ) :
    List α → List (τ × κ) → List (Option κ)
  | [], _ => []
  | x :: xs, es =>
      let es' := record (tag x) (f x) new es
      if tag x = t then lookup t es' :: observed tag f new t xs es'
      else observed tag f new t xs es'

/-- The loads of an entry tagged `t` at position `p`, starting from the load `l`, after each of
the arrivals `xs`. -/
def loads (f : α → Nat → τ × κ → κ) (t : τ) (p : Nat) : κ → List α → List κ
  | _, [] => []
  | l, x :: xs => f x p (t, l) :: loads f t p (f x p (t, l)) xs

variable {tag : α → τ} {f : α → Nat → τ × κ → κ} {new : κ}

theorem records_append (xs ys : List α) (es : List (τ × κ)) :
    records tag f new (xs ++ ys) es = records tag f new ys (records tag f new xs es) :=
  List.foldl_append

theorem length_le_record (t : τ) (g : Nat → τ × κ → κ) (new : κ) (es : List (τ × κ)) :
    es.length ≤ (record t g new es).length := by
  rw [length_record]
  exact le_max_left _ _

theorem length_le_records (tag : α → τ) (f : α → Nat → τ × κ → κ) (new : κ) (xs : List α)
    (es : List (τ × κ)) :
    es.length ≤ (records tag f new xs es).length := by
  induction xs generalizing es with
  | nil => exact le_rfl
  | cons x xs ih => exact (length_le_record ..).trans (ih _)

/-! ## While an entry is owned -/

theorem Owns.lookup {es : List (τ × κ)} {t : τ} {p : Nat} {l : κ} (h : Owns es t p)
    (he : es[p]? = some (t, l)) : lookup t es = some l := by
  obtain ⟨hp, hget⟩ := List.getElem?_eq_some_iff.mp he
  have hfind : es.find? (fun e => e.1 = t) = some (t, l) := by
    rw [List.find?_eq_some_iff_getElem]
    refine ⟨by simp, p, hp, hget, ?_⟩
    intro j hj
    have hj' := List.getElem?_eq_getElem (show j < es.length by omega)
    have hnot := not_takes_of_lt_place (by rw [h.2]; exact hj) hj'
    have htag : es[j].1 ≠ t := fun htag => hnot (Or.inr htag)
    simp [htag]
  rw [FirstFit.lookup, hfind]
  rfl

/-- An arrival of the owner updates its load and leaves it the owner. -/
theorem Owns.record_self {es : List (τ × κ)} {t : τ} {p : Nat} {l : κ} (h : Owns es t p)
    (he : es[p]? = some (t, l)) (g : Nat → τ × κ → κ) (new : κ) :
    (record t g new es)[p]? = some (t, g p (t, l)) ∧ Owns (record t g new es) t p := by
  have howns := owns_record t g new es
  rw [h.2] at howns
  refine ⟨?_, howns⟩
  rw [getElem?_record, h.2, if_pos rfl, he]
  rfl

/-- **The load of an owned entry after a run.** -/
theorem Owns.records {es : List (τ × κ)} {t : τ} {p : Nat} {l : κ} (h : Owns es t p) (ht : t ≠ 0)
    (he : es[p]? = some (t, l)) (xs : List α) :
    (records tag f new xs es)[p]? =
        some (t, (xs.filter (tag · = t)).foldl (fun l x => f x p (t, l)) l) ∧
      Owns (records tag f new xs es) t p := by
  induction xs generalizing es l with
  | nil => exact ⟨he, h⟩
  | cons x xs ih =>
      rcases eq_or_ne (tag x) t with rfl | hx
      · obtain ⟨he', h'⟩ := h.record_self he (f x) new
        rw [List.filter_cons_of_pos (by simp), List.foldl_cons]
        exact ih h' he'
      · obtain ⟨he', h'⟩ := h.record_of_ne ht hx (f x) new
        rw [List.filter_cons_of_neg (by simpa using hx)]
        exact ih h' (he'.trans he)

/-- **The loads of an owned entry during a run.** -/
theorem Owns.observed {es : List (τ × κ)} {t : τ} {p : Nat} {l : κ} (h : Owns es t p) (ht : t ≠ 0)
    (he : es[p]? = some (t, l)) (xs : List α) :
    observed tag f new t xs es = (loads f t p l (xs.filter (tag · = t))).map some := by
  induction xs generalizing es l with
  | nil => rfl
  | cons x xs ih =>
      rw [FirstFit.observed]
      rcases eq_or_ne (tag x) t with rfl | hx
      · obtain ⟨he', h'⟩ := h.record_self he (f x) new
        rw [if_pos rfl, List.filter_cons_of_pos (by simp), loads, List.map_cons, h'.lookup he',
          ih h' he']
      · obtain ⟨he', h'⟩ := h.record_of_ne ht hx (f x) new
        rw [if_neg hx, List.filter_cons_of_neg (by simpa using hx)]
        exact ih h' (he'.trans he)

/-! ## From the first arrival on -/

/-- What the first arrival `x` of a tag finds at position `p` of `es`, and makes of it. -/
def firstLoad (f : α → Nat → τ × κ → κ) (new : κ) (x : α) (p : Nat) (es : List (τ × κ)) : κ :=
  (es[p]?).elim new (f x p)

theorem getElem?_record_place (tag : α → τ) (f : α → Nat → τ × κ → κ) (new : κ) (x : α) (es : List (τ × κ)) :
    (record (tag x) (f x) new es)[place (tag x) es]? =
      some (tag x, firstLoad f new x (place (tag x) es) es) := by
  rw [getElem?_record, if_pos rfl]
  rfl

/-- **The load of a tag at the end of a run**, from its first arrival `x` on. -/
theorem getElem?_records (tag : α → τ) (f : α → Nat → τ × κ → κ) (new : κ) (pre : List α) (x : α)
    (post : List α) (es : List (τ × κ)) (hx : tag x ≠ 0) :
    let es₁ := records tag f new pre es
    let p := place (tag x) es₁
    (records tag f new (pre ++ x :: post) es)[p]? =
        some (tag x, (post.filter (tag · = tag x)).foldl (fun l y => f y p (tag x, l))
          (firstLoad f new x p es₁)) ∧
      Owns (records tag f new (pre ++ x :: post) es) (tag x) p := by
  intro es₁ p
  rw [records_append]
  exact (owns_record (tag x) (f x) new es₁).records hx
    (getElem?_record_place tag f new x es₁) post

/-- Arrivals before the first one with tag `t` do not count. -/
theorem observed_append (pre xs : List α) (es : List (τ × κ)) {t : τ}
    (hpre : ∀ x ∈ pre, tag x ≠ t) :
    observed tag f new t (pre ++ xs) es = observed tag f new t xs (records tag f new pre es) := by
  induction pre generalizing es with
  | nil => rfl
  | cons x pre ih =>
      rw [List.cons_append, observed, if_neg (hpre x (by simp))]
      exact ih _ fun y hy => hpre y (by simp [hy])

/-- **The loads of a tag during a run**, from its first arrival `x` on. -/
theorem observed_records (tag : α → τ) (f : α → Nat → τ × κ → κ) (new : κ) (pre : List α) (x : α)
    (post : List α) (es : List (τ × κ)) (hx : tag x ≠ 0) (hpre : ∀ y ∈ pre, tag y ≠ tag x) :
    let es₁ := records tag f new pre es
    let p := place (tag x) es₁
    let l := firstLoad f new x p es₁
    observed tag f new (tag x) (pre ++ x :: post) es =
      (l :: loads f (tag x) p l (post.filter (tag · = tag x))).map some := by
  intro es₁ p l
  have howns := owns_record (tag x) (f x) new es₁
  have hp := getElem?_record_place tag f new x es₁
  rw [observed_append pre _ es hpre, observed, if_pos rfl, howns.lookup hp, howns.observed hx hp]
  rfl

omit [DecidableEq τ] [Zero τ] in
/-- The first arrival of a tag. -/
theorem exists_first (tag : α → τ) {t : τ} {xs : List α} (h : ∃ x ∈ xs, tag x = t) :
    ∃ pre x post, xs = pre ++ x :: post ∧ tag x = t ∧ ∀ y ∈ pre, tag y ≠ t := by
  induction xs with
  | nil => simp at h
  | cons x xs ih =>
      rcases eq_or_ne (tag x) t with hx | hx
      · exact ⟨[], x, xs, rfl, hx, by simp⟩
      · obtain ⟨y, hy, hyt⟩ := h
        have hy' : y ∈ xs := by
          rcases List.mem_cons.mp hy with rfl | hy
          · exact absurd hyt hx
          · exact hy
        obtain ⟨pre, z, post, rfl, hz, hpre⟩ := ih ⟨y, hy', hyt⟩
        refine ⟨x :: pre, z, post, rfl, hz, ?_⟩
        intro w hw
        rcases List.mem_cons.mp hw with rfl | hw
        · exact hx
        · exact hpre w hw

/-! ## Free entries -/

/-- A tag that has not arrived is on no entry. -/
theorem tag_ne_records {t : τ} {xs : List α} (hxs : ∀ x ∈ xs, tag x ≠ t) {es : List (τ × κ)}
    (hes : ∀ e ∈ es, e.1 ≠ t) : ∀ e ∈ records tag f new xs es, e.1 ≠ t := by
  induction xs generalizing es with
  | nil => exact hes
  | cons x xs ih =>
      apply ih fun y hy => hxs y (List.mem_cons_of_mem x hy)
      intro e he
      obtain ⟨i, hi⟩ := List.mem_iff_getElem?.mp he
      rw [getElem?_record] at hi
      split at hi
      · cases hi
        exact hxs x (List.mem_cons_self ..)
      · exact hes e (List.mem_of_getElem? hi)

/-- What the first arrival of a tag finds is a free entry, or the end of the list. -/
theorem free_at_place {t : τ} {es : List (τ × κ)} (hes : ∀ e ∈ es, e.1 ≠ t) :
    es[place t es]? = none ∨ ∃ l, es[place t es]? = some (0, l) := by
  cases he : es[place t es]? with
  | none => exact Or.inl rfl
  | some e =>
      rcases takes_place he with h | h
      · exact Or.inr ⟨e.2, by rw [← h]⟩
      · exact absurd h (hes e (List.mem_of_getElem? he))

/-- A property of the loads of free entries that arrivals tagged `0` keep. -/
theorem free_records (Q : Nat → κ → Prop) {xs : List α}
    (hf : ∀ x ∈ xs, tag x = 0 → ∀ i l, Q i l → Q i (f x i (0, l)))
    {es : List (τ × κ)} (hnew : ∀ i, es.length ≤ i → Q i new)
    (hes : ∀ i l, es[i]? = some (0, l) → Q i l) :
    ∀ i l, (records tag f new xs es)[i]? = some (0, l) → Q i l := by
  induction xs generalizing es with
  | nil => exact hes
  | cons x xs ih =>
      apply ih fun y hy => hf y (List.mem_cons_of_mem x hy)
      · intro i hi
        exact hnew i ((length_le_record ..).trans hi)
      · intro i l hil
        rw [getElem?_record] at hil
        split at hil
        · next hp =>
            obtain ⟨h0, rfl⟩ := Prod.mk.inj (Option.some.inj hil)
            cases he : es[i]? with
            | none => exact hnew i (List.getElem?_eq_none_iff.mp he)
            | some e =>
                obtain ⟨t, l⟩ := e
                have ht : t = 0 := by
                  have htakes : Takes (tag x) (t, l) := takes_place (by rw [← hp, he])
                  rcases htakes with h | h
                  · exact h
                  · exact h.trans h0
                subst ht
                exact hf x (List.mem_cons_self ..) h0 i l (hes i l he)
        · exact hes i l hil

end FirstFit
