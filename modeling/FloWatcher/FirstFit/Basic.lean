import Mathlib

/-!
# First-fit recording

A list of tagged entries in which the tag `0` marks a free entry. An arrival with tag `t` is
recorded in the first entry that is free or already tagged `t`; when there is none, a new entry
is appended. `place` says *where* an arrival is recorded, `record` what the list looks like
afterwards, and `getElem?_record` is the one characterization the rest is derived from.

The load of an entry is arbitrary, and the update may depend on the position and on the entry it
replaces, so that counters, running averages and the like are all instances. `0` is an ordinary
tag as far as arrivals go: an arrival tagged `0` is recorded in a free entry and leaves it free.
-/

namespace FirstFit

variable {τ κ : Type*} [DecidableEq τ] [Zero τ]

/-- Entry `e` can record an arrival tagged `t`: it is free, or it is tagged `t` already. -/
def Takes (t : τ) (e : τ × κ) : Prop := e.1 = 0 ∨ e.1 = t

instance (t : τ) (e : τ × κ) : Decidable (Takes t e) := inferInstanceAs (Decidable (_ ∨ _))

/-- The position at which an arrival tagged `t` is recorded; the length of the list when no entry
takes it. -/
def place (t : τ) (es : List (τ × κ)) : Nat := es.findIdx (fun e => decide (Takes t e))

/-- Record an arrival tagged `t`: the entry at `place t es` is tagged `t` and its load updated by
`f`, or a new entry with load `new` is appended. -/
def record (t : τ) (f : Nat → τ × κ → κ) (new : κ) (es : List (τ × κ)) : List (τ × κ) :=
  match es[place t es]? with
  | some e => es.set (place t es) (t, f (place t es) e)
  | none => es ++ [(t, new)]

/-! ## Where an arrival is recorded -/

theorem place_le_length (t : τ) (es : List (τ × κ)) : place t es ≤ es.length :=
  List.findIdx_le_length

theorem place_cons (t : τ) (e : τ × κ) (es : List (τ × κ)) :
    place t (e :: es) = if Takes t e then 0 else place t es + 1 := by
  simp only [place, List.findIdx_cons]
  by_cases h : Takes t e <;> simp [h]

/-- The entry an arrival is recorded in takes it. -/
theorem takes_place {t : τ} {es : List (τ × κ)} {e : τ × κ} (h : es[place t es]? = some e) :
    Takes t e := by
  obtain ⟨hlt, rfl⟩ := List.getElem?_eq_some_iff.mp h
  exact of_decide_eq_true (List.findIdx_getElem (p := fun e => decide (Takes t e)) (w := hlt))

/-- No entry before the place of an arrival takes it. -/
theorem not_takes_of_lt_place {t : τ} {es : List (τ × κ)} {i : Nat} {e : τ × κ}
    (hi : i < place t es) (he : es[i]? = some e) : ¬ Takes t e := by
  obtain ⟨hlt, rfl⟩ := List.getElem?_eq_some_iff.mp he
  simpa using List.not_of_lt_findIdx (p := fun e => decide (Takes t e)) hi

/-- A position that takes the arrival (or ends the list) with none before it is the place. -/
theorem place_eq {t : τ} {es : List (τ × κ)} {i : Nat}
    (hle : i ≤ es.length) (hi : ∀ e, es[i]? = some e → Takes t e)
    (hlt : ∀ j < i, ∀ e, es[j]? = some e → ¬ Takes t e) : place t es = i := by
  rcases Nat.lt_trichotomy (place t es) i with h | h | h
  · have hlen : place t es < es.length := by omega
    have he := List.getElem?_eq_getElem hlen
    exact absurd (takes_place he) (hlt _ h _ he)
  · exact h
  · have hlen : i < es.length := by have := place_le_length t es; omega
    have he := List.getElem?_eq_getElem hlen
    exact absurd (hi _ he) (not_takes_of_lt_place h he)

/-! ## What recording changes -/

/-- Recording changes the entry at `place t es` and no other. -/
theorem getElem?_record (t : τ) (f : Nat → τ × κ → κ) (new : κ) (es : List (τ × κ)) (i : Nat) :
    (record t f new es)[i]? =
      if i = place t es then some (t, (es[i]?).elim new (f i)) else es[i]? := by
  unfold record
  cases he : es[place t es]? with
  | some e =>
      have hlt : place t es < es.length := (List.getElem?_eq_some_iff.mp he).1
      rw [List.getElem?_set]
      by_cases hi : i = place t es
      · subst hi
        rw [if_pos rfl, if_pos hlt, if_pos rfl, he]
        rfl
      · simp [hi, Ne.symm hi]
  | none =>
      have hlen : place t es = es.length := by
        have := List.getElem?_eq_none_iff.mp he
        have := place_le_length t es
        omega
      rw [hlen, List.getElem?_append]
      split
      · next hlt => simp [hlt.ne]
      · next hge =>
          by_cases hi : i = es.length
          · subst hi; simp
          · have h1 : i - es.length ≠ 0 := by omega
            have h2 : es.length ≤ i := by omega
            simp [hi, h1, h2]

theorem record_nil (t : τ) (f : Nat → τ × κ → κ) (new : κ) : record t f new [] = [(t, new)] := rfl

theorem record_cons (t : τ) (f : Nat → τ × κ → κ) (new : κ) (e : τ × κ) (es : List (τ × κ)) :
    record t f new (e :: es) =
      if Takes t e then (t, f 0 e) :: es else e :: record t (fun i => f (i + 1)) new es := by
  by_cases h : Takes t e
  · simp [record, place_cons, h]
  · simp only [record, place_cons, h, if_false, List.getElem?_cons_succ, List.set_cons_succ]
    cases es[place t es]? <;> rfl

theorem length_record (t : τ) (f : Nat → τ × κ → κ) (new : κ) (es : List (τ × κ)) :
    (record t f new es).length = max es.length (place t es + 1) := by
  have hle := place_le_length t es
  unfold record
  cases he : es[place t es]? with
  | some e =>
      have hlt : place t es < es.length := (List.getElem?_eq_some_iff.mp he).1
      simp only [List.length_set]
      omega
  | none =>
      have := List.getElem?_eq_none_iff.mp he
      simp only [List.length_append, List.length_singleton]
      omega

/-- Recording commutes with a projection of the loads that the update respects. -/
theorem map_record {κ' : Type*} (g : κ → κ') (t : τ) {f : Nat → τ × κ → κ}
    {f' : Nat → τ × κ' → κ'} (hf : ∀ i e, g (f i e) = f' i (e.1, g e.2)) (new : κ)
    (es : List (τ × κ)) :
    (record t f new es).map (Prod.map id g) = record t f' (g new) (es.map (Prod.map id g)) := by
  induction es generalizing f f' with
  | nil => rfl
  | cons e es ih =>
      have htakes : Takes t (Prod.map id g e) ↔ Takes t e := Iff.rfl
      rw [List.map_cons, record_cons, record_cons]
      by_cases h : Takes t e
      · rw [if_pos h, if_pos (htakes.mpr h), List.map_cons]
        exact congrArg (· :: _) (Prod.ext rfl (hf 0 e))
      · rw [if_neg h, if_neg (htakes.not.mpr h), List.map_cons, ih fun i => hf (i + 1)]

/-! ## Entries that have an owner

Once a nonzero tag has been recorded, its entry is where every later arrival with that tag goes,
and no other arrival touches it. -/

/-- Tag `t` owns position `p`: the entry there is tagged `t`, and it is where `t` is recorded. -/
def Owns (es : List (τ × κ)) (t : τ) (p : Nat) : Prop :=
  (es[p]?.map Prod.fst) = some t ∧ place t es = p

theorem owns_record (t : τ) (f : Nat → τ × κ → κ) (new : κ) (es : List (τ × κ)) :
    Owns (record t f new es) t (place t es) := by
  have hp : (record t f new es)[place t es]? =
      some (t, (es[place t es]?).elim new (f (place t es))) := by
    rw [getElem?_record, if_pos rfl]
  refine ⟨by rw [hp]; rfl, ?_⟩
  apply place_eq
  · rw [length_record]; omega
  · intro e he
    rw [hp] at he
    cases he
    exact Or.inr rfl
  · intro j hj e he
    rw [getElem?_record, if_neg (by omega)] at he
    exact not_takes_of_lt_place hj he

/-- An arrival with another tag is recorded elsewhere. -/
theorem Owns.place_ne {es : List (τ × κ)} {t s : τ} {p : Nat} (h : Owns es t p) (ht : t ≠ 0)
    (hs : s ≠ t) : place s es ≠ p := by
  intro hp
  obtain ⟨e, he, htag⟩ := Option.map_eq_some_iff.mp h.1
  rw [← hp] at he
  rcases takes_place he with h0 | h1
  · exact ht (htag.symm.trans h0)
  · exact hs (h1.symm.trans htag)

/-- An arrival with another tag leaves an owned entry, and its ownership, alone. -/
theorem Owns.record_of_ne {es : List (τ × κ)} {t s : τ} {p : Nat} (h : Owns es t p) (ht : t ≠ 0)
    (hs : s ≠ t) (f : Nat → τ × κ → κ) (new : κ) :
    (record s f new es)[p]? = es[p]? ∧ Owns (record s f new es) t p := by
  have hne := h.place_ne ht hs
  have hp : (record s f new es)[p]? = es[p]? := by
    rw [getElem?_record, if_neg (Ne.symm hne)]
  refine ⟨hp, by rw [hp]; exact h.1, ?_⟩
  obtain ⟨e, he, htag⟩ := Option.map_eq_some_iff.mp h.1
  have hlt : p < es.length := (List.getElem?_eq_some_iff.mp he).1
  apply place_eq
  · rw [length_record]; omega
  · intro e' he'
    rw [hp, he] at he'
    cases he'
    exact Or.inr htag
  · intro j hj e' he'
    have hj' : j < place t es := by rw [h.2]; exact hj
    rw [getElem?_record] at he'
    split at he'
    · next hjs =>
        -- the arrival was recorded before `p`, where nothing is free: it is tagged `s`, not `0`
        cases he'
        have hold := List.getElem?_eq_getElem (show j < es.length by omega)
        have hnot := not_takes_of_lt_place hj' hold
        have htakes : Takes s (es[j]) := takes_place (by rw [← hjs]; exact hold)
        rcases htakes with h0 | h1
        · exact absurd (Or.inl h0) hnot
        · rintro (h0 | h2)
          · exact hnot (Or.inl (h1.trans h0))
          · exact hs h2
    · exact not_takes_of_lt_place hj' he'

end FirstFit
