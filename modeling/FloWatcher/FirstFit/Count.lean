import FloWatcher.FirstFit.Basic

/-!
# Counting by first fit

The instance of `record` whose load is a counter: `bump` counts one arrival, `bumps` a sequence of
them. Starting from free, zeroed entries the list is determined by the sequence alone, whatever
number of entries was there to begin with (`entryAt_bumps`): the nonzero tags stand in order of
first arrival, each with its own count *plus* the `0`-arrivals recorded in its entry while that
entry was the first free one.

Counters live in any additive monoid with a one, so that `Nat` and the `w`-bit machine words are
both instances; `((n : Nat) : M)` then is the count modulo the width.
-/

namespace FirstFit

variable {τ M : Type*} [DecidableEq τ] [Zero τ] [AddMonoidWithOne M]

def bump (t : τ) (es : List (τ × M)) : List (τ × M) := record t (fun _ e => e.2 + 1) 1 es

def bumps (ts : List τ) (es : List (τ × M)) : List (τ × M) := ts.foldl (fun es t => bump t es) es

/-- Entry `i`, reading `(0, 0)` past the end: a list stands for itself and any number of free,
zeroed entries behind it. -/
def entryAt (es : List (τ × M)) (i : Nat) : τ × M := es[i]?.getD (0, 0)

@[simp] theorem bumps_nil (es : List (τ × M)) : bumps ([] : List τ) es = es := rfl

theorem bumps_append (ts us : List τ) (es : List (τ × M)) :
    bumps (ts ++ us) es = bumps us (bumps ts es) := List.foldl_append

theorem bumps_concat (ts : List τ) (t : τ) (es : List (τ × M)) :
    bumps (ts ++ [t]) es = bump t (bumps ts es) := bumps_append ts [t] es

theorem entryAt_bump (t : τ) (es : List (τ × M)) (i : Nat) :
    entryAt (bump t es) i = if i = place t es then (t, (entryAt es i).2 + 1) else entryAt es i := by
  unfold entryAt bump
  rw [getElem?_record]
  split
  · cases es[i]? <;> simp
  · rfl

omit [DecidableEq τ] in
theorem entryAt_replicate (k i : Nat) :
    entryAt (List.replicate k ((0, 0) : τ × M)) i = (0, 0) := by
  unfold entryAt
  rw [List.getElem?_replicate]
  split <;> rfl

omit [DecidableEq τ] in
theorem eq_entryAt {es : List (τ × M)} {i : Nat} {e : τ × M} (h : es[i]? = some e) :
    e = entryAt es i := by
  rw [entryAt, h]
  rfl

omit [DecidableEq τ] in
/-- What does not read as a free entry is there. -/
theorem getElem?_of_entryAt {es : List (τ × M)} {i : Nat} (h : entryAt es i ≠ (0, 0)) :
    es[i]? = some (entryAt es i) := by
  unfold entryAt at h ⊢
  cases he : es[i]? with
  | some e => rfl
  | none => rw [he] at h; exact absurd rfl h

/-- The place of an arrival, read off the padded list. -/
theorem place_eq_of_entryAt {t : τ} {es : List (τ × M)} {i : Nat}
    (hi : Takes t (entryAt es i)) (hlt : ∀ j < i, ¬ Takes t (entryAt es j)) : place t es = i := by
  have hle : i ≤ es.length := by
    by_contra hgt
    refine hlt es.length (by omega) (Or.inl ?_)
    simp [entryAt]
  refine place_eq hle ?_ ?_
  · intro e he
    simpa [entryAt, he] using hi
  · intro j hj e he
    simpa [entryAt, he] using hlt j hj

/-! ## Trailing free entries -/

def trim [DecidableEq M] (es : List (τ × M)) : List (τ × M) :=
  es.rdropWhile (fun e => decide (e = (0, 0)))

omit [DecidableEq τ] in
theorem entryAt_concat_free (es : List (τ × M)) (i : Nat) :
    entryAt (es ++ [(0, 0)]) i = entryAt es i := by
  unfold entryAt
  by_cases hi : i < es.length
  · rw [List.getElem?_append_left hi]
  · rw [List.getElem?_append_right (by omega), List.getElem?_eq_none (by omega : es.length ≤ i)]
    cases i - es.length <;> rfl

theorem entryAt_trim [DecidableEq M] (es : List (τ × M)) (i : Nat) :
    entryAt (trim es) i = entryAt es i := by
  induction es using List.reverseRecOn with
  | nil => rfl
  | append_singleton es e ih =>
      by_cases he : e = (0, 0)
      · subst he
        rw [entryAt_concat_free, ← ih, trim, List.rdropWhile_concat_pos _ _ _ (by simp), ← trim]
      · rw [trim, List.rdropWhile_concat_neg _ _ _ (by simpa using he)]

/-- No list that reads the same is shorter than the trimmed one: its last entry is not free. -/
theorem length_trim_le [DecidableEq M] {es es' : List (τ × M)}
    (h : ∀ i, entryAt es i = entryAt es' i) : (trim es).length ≤ es'.length := by
  by_cases hnil : trim es = []
  · simp [hnil]
  · have hpos : 0 < (trim es).length := List.length_pos_iff.mpr hnil
    have hlast := List.rdropWhile_last_not (fun e : τ × M => decide (e = (0, 0))) es hnil
    have hat : entryAt (trim es) ((trim es).length - 1) = (trim es).getLast hnil := by
      rw [List.getLast_eq_getElem, entryAt, List.getElem?_eq_getElem (by omega)]
      rfl
    by_contra hgt
    have hfree : entryAt es' ((trim es).length - 1) = (0, 0) := by
      rw [entryAt, List.getElem?_eq_none (by omega)]
      rfl
    rw [← h, ← entryAt_trim, hat] at hfree
    exact hlast (decide_eq_true hfree)

/-- Lists that read the same agree once the trailing free entries are removed. -/
theorem trim_eq_of_entryAt [DecidableEq M] {es es' : List (τ × M)}
    (h : ∀ i, entryAt es i = entryAt es' i) : trim es = trim es' := by
  have hle : (trim es).length ≤ (trim es').length :=
    length_trim_le fun i => (h i).trans (entryAt_trim es' i).symm
  have hge : (trim es').length ≤ (trim es).length :=
    length_trim_le fun i => (h i).symm.trans (entryAt_trim es i).symm
  apply List.ext_getElem (by omega)
  intro i h1 h2
  have hi := (entryAt_trim es i).trans ((h i).trans (entryAt_trim es' i).symm)
  simpa [entryAt, List.getElem?_eq_getElem h1, List.getElem?_eq_getElem h2] using hi

/-! ## The order of first arrival -/

/-- The distinct nonzero tags of `ts`, in order of first arrival. -/
def arrivals (ts : List τ) : List τ :=
  ts.foldl (fun seen t => if t = 0 ∨ t ∈ seen then seen else seen ++ [t]) []

@[simp] theorem arrivals_nil : arrivals ([] : List τ) = [] := rfl

theorem arrivals_concat (ts : List τ) (t : τ) :
    arrivals (ts ++ [t]) =
      if t = 0 ∨ t ∈ arrivals ts then arrivals ts else arrivals ts ++ [t] := by
  unfold arrivals
  rw [List.foldl_append]
  rfl

@[simp] theorem mem_arrivals {ts : List τ} {t : τ} : t ∈ arrivals ts ↔ t ≠ 0 ∧ t ∈ ts := by
  induction ts using List.reverseRecOn with
  | nil => simp
  | append_singleton ts s ih =>
      rw [arrivals_concat]
      split
      · next hs =>
          simp only [ih, List.mem_append, List.mem_singleton]
          constructor
          · rintro ⟨h0, hm⟩; exact ⟨h0, Or.inl hm⟩
          · rintro ⟨h0, hm | rfl⟩
            · exact ⟨h0, hm⟩
            · exact ih.mp (hs.resolve_left h0)
      · next hs =>
          simp only [List.mem_append, ih, List.mem_singleton]
          grind

theorem nodup_arrivals (ts : List τ) : (arrivals ts).Nodup := by
  induction ts using List.reverseRecOn with
  | nil => simp
  | append_singleton ts t ih =>
      rw [arrivals_concat]
      split
      · exact ih
      · next h =>
          rw [List.nodup_append]
          refine ⟨ih, List.nodup_singleton t, ?_⟩
          intro a ha b hb hab
          rw [List.mem_singleton.mp hb] at hab
          exact h (Or.inr (hab ▸ ha))

/-- Later arrivals only extend the order. -/
theorem arrivals_prefix (ts us : List τ) : arrivals ts <+: arrivals (ts ++ us) := by
  induction us using List.reverseRecOn with
  | nil => simp
  | append_singleton us u ih =>
      rw [← List.append_assoc, arrivals_concat]
      split
      · exact ih
      · exact ih.trans (List.prefix_append _ _)

theorem arrivals_getElem?_concat {ts : List τ} {i : Nat} (hi : i < (arrivals ts).length) (t : τ) :
    (arrivals (ts ++ [t]))[i]? = (arrivals ts)[i]? := by
  obtain ⟨us, hus⟩ := arrivals_prefix ts [t]
  rw [← hus, List.getElem?_append_left hi]

/-! ## The list a sequence leaves behind

Entry `i` is claimed by the `i`-th nonzero tag to arrive. Before that, and after the claim of
entry `i - 1`, it is the first free entry, so the `0`-arrivals of that interval are recorded in
it. -/

/-- How many arrivals precede the claim of entry `i`; all of them when it is never claimed. -/
def closes (ts : List τ) (i : Nat) : Nat := (arrivals ts)[i]?.elim ts.length (ts.idxOf ·)

/-- How many arrivals precede the claim of the entry before `i`; none for the first entry. -/
def opens (ts : List τ) : Nat → Nat
  | 0 => 0
  | i + 1 => closes ts i

/-- The `0`-arrivals between the claim of entry `i - 1` and that of entry `i`. -/
def freeCount (ts : List τ) (i : Nat) : Nat := ((ts.take (closes ts i)).drop (opens ts i)).count 0

/-- Entry `i` after the arrivals `ts`. -/
def node (ts : List τ) (i : Nat) : τ × M :=
  match (arrivals ts)[i]? with
  | some t => (t, ((ts.count t + freeCount ts i : ℕ) : M))
  | none => (0, (freeCount ts i : M))

theorem closes_le (ts : List τ) (i : Nat) : closes ts i ≤ ts.length := by
  unfold closes
  cases (arrivals ts)[i]? with
  | none => exact le_rfl
  | some t => exact List.idxOf_le_length

theorem closes_of_le {ts : List τ} {i : Nat} (hi : (arrivals ts).length ≤ i) :
    closes ts i = ts.length := by
  rw [closes, List.getElem?_eq_none hi]
  rfl

theorem closes_concat_of_lt {ts : List τ} {i : Nat} (hi : i < (arrivals ts).length) (t : τ) :
    closes (ts ++ [t]) i = closes ts i := by
  have hmem : (arrivals ts)[i] ∈ ts := (mem_arrivals.mp (List.getElem_mem hi)).2
  rw [closes, closes, arrivals_getElem?_concat hi, List.getElem?_eq_getElem hi]
  exact (List.idxOf_append.trans (if_pos hmem))

theorem opens_le (ts : List τ) (i : Nat) : opens ts i ≤ ts.length := by
  cases i with
  | zero => exact Nat.zero_le _
  | succ i => exact closes_le ts i

theorem opens_concat_of_le {ts : List τ} {i : Nat} (hi : i ≤ (arrivals ts).length) (t : τ) :
    opens (ts ++ [t]) i = opens ts i := by
  cases i with
  | zero => rfl
  | succ i => exact closes_concat_of_lt hi t

/-- The entry the next claim takes stays open to the end, or is claimed by the last arrival. -/
theorem closes_concat_length (ts : List τ) (t : τ) :
    closes (ts ++ [t]) (arrivals ts).length =
      if t = 0 ∨ t ∈ arrivals ts then ts.length + 1 else ts.length := by
  split
  · next h =>
      rw [closes_of_le (by rw [arrivals_concat, if_pos h])]
      simp
  · next h =>
      have hnot : t ∉ ts := fun hm => h (Or.inr (mem_arrivals.mpr ⟨fun h0 => h (Or.inl h0), hm⟩))
      rw [closes, arrivals_concat, if_neg h]
      simp [List.idxOf_append, hnot]

/-- The only open entry is the first free one. -/
theorem freeCount_of_lt {ts : List τ} {i : Nat} (hi : (arrivals ts).length < i) :
    freeCount ts i = 0 := by
  obtain ⟨j, rfl⟩ : ∃ j, i = j + 1 := ⟨i - 1, by omega⟩
  have ho : opens ts (j + 1) = ts.length := closes_of_le (by omega)
  rw [freeCount, ho, List.drop_eq_nil_of_le (by simp)]
  rfl

theorem freeCount_concat (ts : List τ) (t : τ) (i : Nat) :
    freeCount (ts ++ [t]) i =
      freeCount ts i + if t = 0 ∧ i = (arrivals ts).length then 1 else 0 := by
  rcases Nat.lt_trichotomy i (arrivals ts).length with hi | hi | hi
  · rw [freeCount, freeCount, closes_concat_of_lt hi, opens_concat_of_le hi.le,
      List.take_append_of_le_length (closes_le ts i), if_neg (by omega)]
    rfl
  · rw [freeCount, freeCount, opens_concat_of_le hi.le, hi, closes_concat_length,
      closes_of_le le_rfl, List.take_length]
    have ho := opens_le ts (arrivals ts).length
    split
    · next h =>
        rw [List.take_of_length_le (by simp), List.drop_append_of_le_length ho, List.count_append]
        by_cases h0 : t = 0 <;> simp [h0]
    · next h =>
        have h0 : t ≠ 0 := fun h0 => h (Or.inl h0)
        rw [List.take_left, if_neg (by simp [h0])]
        rfl
  · rw [freeCount_of_lt hi, if_neg (by omega)]
    by_cases hnew : t = 0 ∨ t ∈ arrivals ts
    · exact freeCount_of_lt (by rw [arrivals_concat, if_pos hnew]; exact hi)
    · -- the last arrival opened entry `i` at the earliest, and it is not a `0`-arrival
      have h0 : t ≠ 0 := fun h0 => hnew (Or.inl h0)
      rcases Nat.eq_or_lt_of_le (Nat.succ_le_of_lt hi) with hi' | hi'
      · have ho : opens (ts ++ [t]) i = ts.length := by
          rw [← hi']
          exact (closes_concat_length ts t).trans (if_neg hnew)
        rw [freeCount, ho, closes_of_le (by rw [arrivals_concat, if_neg hnew]; simp; omega),
          List.take_length, List.drop_left]
        simp [h0]
      · exact freeCount_of_lt (by rw [arrivals_concat, if_neg hnew]; simp; omega)

/-- Where the next arrival is recorded: in the entry its tag claimed, or in the first free one. -/
theorem place_of_entryAt {ts : List τ} {es : List (τ × M)}
    (h : ∀ i, entryAt es i = node ts i) (t : τ) : place t es = (arrivals ts).idxOf t := by
  apply place_eq_of_entryAt
  · rw [h, node]
    by_cases ht : t ∈ arrivals ts
    · have hlt := List.idxOf_lt_length_of_mem ht
      rw [List.getElem?_eq_getElem hlt]
      exact Or.inr (List.getElem_idxOf hlt)
    · rw [List.idxOf_eq_length ht, List.getElem?_eq_none le_rfl]
      exact Or.inl rfl
  · intro j hj
    have hlt : j < (arrivals ts).length := lt_of_lt_of_le hj List.idxOf_le_length
    rw [h, node, List.getElem?_eq_getElem hlt]
    rintro (h0 | h1)
    · exact (mem_arrivals.mp (List.getElem_mem hlt)).1 h0
    · have hne := List.not_of_lt_findIdx (p := (· == t)) hj
      simp only [beq_eq_false_iff_ne] at hne
      exact hne h1

theorem node_concat (ts : List τ) (t : τ) (i : Nat) :
    (node (ts ++ [t]) i : τ × M) =
      if i = (arrivals ts).idxOf t then (t, (node ts i).2 + 1) else node ts i := by
  have hcount : ∀ a, a ≠ t → (ts ++ [t]).count a = ts.count a := by
    intro a ha
    simp [List.count_append, Ne.symm ha]
  rcases Nat.lt_or_ge i (arrivals ts).length with hi | hi
  · -- a claimed entry: its own count grows exactly when the arrival carries its tag
    have hget := List.getElem?_eq_getElem hi
    have hmem := List.getElem_mem hi
    have hfree : freeCount (ts ++ [t]) i = freeCount ts i := by
      rw [freeCount_concat, if_neg (by omega)]
      rfl
    simp only [node, arrivals_getElem?_concat hi, hget, hfree]
    by_cases hit : (arrivals ts)[i] = t
    · have hidx : i = (arrivals ts).idxOf t := by
        rw [← hit]
        exact ((nodup_arrivals ts).idxOf_getElem i hi).symm
      rw [if_pos hidx, hit, List.count_append, List.count_singleton_self, ← Nat.cast_succ,
        Nat.succ_eq_add_one, Nat.add_right_comm]
    · have hidx : i ≠ (arrivals ts).idxOf t := by
        intro h
        have ht : t ∈ arrivals ts := List.idxOf_lt_length_iff.mp (h ▸ hi)
        exact hit (by simp [h])
      rw [if_neg hidx, hcount _ hit]
  · have hold : (node ts i : τ × M) = (0, (freeCount ts i : M)) := by
      rw [node, List.getElem?_eq_none hi]
    rw [hold]
    by_cases hnew : t = 0 ∨ t ∈ arrivals ts
    · -- an arrival that claims nothing
      have hnode : (node (ts ++ [t]) i : τ × M) = (0, (freeCount (ts ++ [t]) i : M)) := by
        rw [node, arrivals_concat, if_pos hnew, List.getElem?_eq_none hi]
      rw [hnode, freeCount_concat]
      by_cases ht : t = 0
      · subst ht
        have hidx : (arrivals ts).idxOf 0 = (arrivals ts).length :=
          List.idxOf_eq_length fun h => (mem_arrivals.mp h).1 rfl
        rw [hidx]
        by_cases hl : i = (arrivals ts).length <;> simp [hl]
      · have hlt := List.idxOf_lt_length_of_mem (hnew.resolve_left ht)
        rw [if_neg (by simp [ht]), if_neg (by omega), Nat.add_zero]
    · -- the first arrival of a nonzero tag claims the first free entry
      have ht : t ≠ 0 := fun h => hnew (Or.inl h)
      have hnot : t ∉ ts := fun hm => hnew (Or.inr (mem_arrivals.mpr ⟨ht, hm⟩))
      have hidx : (arrivals ts).idxOf t = (arrivals ts).length :=
        List.idxOf_eq_length fun h => hnew (Or.inr h)
      have hfree : freeCount (ts ++ [t]) i = freeCount ts i := by
        rw [freeCount_concat, if_neg (by simp [ht])]
        rfl
      rw [hidx, node, arrivals_concat, if_neg hnew, hfree]
      by_cases hl : i = (arrivals ts).length
      · subst hl
        simp [List.count_append, List.count_eq_zero_of_not_mem hnot, Nat.add_comm 1]
      · rw [List.getElem?_eq_none (by simp; omega), if_neg hl]

/-- **The closed form**: whatever number of free entries the list started with, entry `i` is
`node ts i`. -/
theorem entryAt_bumps (ts : List τ) (k i : Nat) :
    entryAt (bumps ts (List.replicate k ((0, 0) : τ × M))) i = node ts i := by
  induction ts using List.reverseRecOn generalizing i with
  | nil => simp [entryAt_replicate, node, freeCount]
  | append_singleton ts t ih =>
      rw [bumps_concat, entryAt_bump, place_of_entryAt ih, ih, node_concat]

end FirstFit
