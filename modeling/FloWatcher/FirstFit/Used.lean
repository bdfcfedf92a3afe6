import FloWatcher.FirstFit.Unmixed

/-!
# Used entries come first

First fit takes a free entry only when all entries before it are owned. So an entry that has counted
an arrival has none before it that has not, whatever number of entries was there to begin with.
-/

namespace FirstFit

variable {τ M : Type*} [DecidableEq τ] [Zero τ]

/-- An owned entry has counted its first arrival at least. -/
theorem node_snd_pos {ts : List τ} {i : Nat} (hi : i < (arrivals ts).length) :
    0 < (node ts i : τ × ℕ).2 := by
  have hmem := (mem_arrivals.mp (List.getElem_mem hi)).2
  rw [node, List.getElem?_eq_getElem hi]
  show 0 < ts.count (arrivals ts)[i] + freeCount ts i
  have hcount := List.count_pos_iff.mpr hmem
  omega

/-- Behind the first free entry nothing has been counted. -/
theorem node_snd_eq_zero {ts : List τ} {i : Nat} (hi : (arrivals ts).length < i) :
    (node ts i : τ × ℕ).2 = 0 := by
  rw [node, List.getElem?_eq_none hi.le]
  exact freeCount_of_lt hi

/-- **The used entries come first.** -/
theorem pairwise_bumps (ts : List τ) (k : Nat) :
    (bumps ts (List.replicate k ((0, 0) : τ × ℕ))).Pairwise fun e e' => 0 < e'.2 → 0 < e.2 := by
  rw [List.pairwise_iff_getElem]
  intro i j hi hj hij hpos
  have hentry : ∀ {i : Nat} (hi : i < (bumps ts (List.replicate k ((0, 0) : τ × ℕ))).length),
      (bumps ts (List.replicate k ((0, 0) : τ × ℕ)))[i] = node ts i := by
    intro i hi
    rw [eq_entryAt (List.getElem?_eq_getElem hi), entryAt_bumps]
  rw [hentry] at hpos ⊢
  have hle : j ≤ (arrivals ts).length := by
    by_contra hlt
    rw [node_snd_eq_zero (Nat.lt_of_not_le hlt)] at hpos
    exact absurd hpos (Nat.lt_irrefl 0)
  exact node_snd_pos (Nat.lt_of_lt_of_le hij hle)

/-- No entry counts more arrivals than there are. -/
theorem snd_le_of_mem_bumps {ts : List τ} {k : Nat} {e : τ × ℕ}
    (he : e ∈ bumps ts (List.replicate k (0, 0))) : e.2 ≤ ts.length := by
  have hsum : ∀ (ts : List τ) (es : List (τ × ℕ)),
      ((bumps ts es).map Prod.snd).sum = (es.map Prod.snd).sum + ts.length := by
    intro ts
    induction ts with
    | nil => intro es; rfl
    | cons t ts ih =>
        intro es
        show ((bumps ts (bump t es)).map Prod.snd).sum = _
        rw [ih, sum_bump, List.length_cons, Nat.add_assoc, Nat.add_comm 1]
  calc e.2
    _ ≤ ((bumps ts (List.replicate k (0, 0))).map Prod.snd).sum :=
        List.le_sum_of_mem (List.mem_map_of_mem he)
    _ = ts.length := by rw [hsum, List.map_replicate, List.sum_replicate, smul_zero, Nat.zero_add]

/-! ## How many entries are used -/

/-- The number of entries that have counted an arrival: the owned ones, and the first free one when
`0`-arrivals are in it. -/
def used (ts : List τ) : ℕ :=
  (arrivals ts).length + if freeCount ts (arrivals ts).length = 0 then 0 else 1

theorem node_snd_pos_iff {ts : List τ} {i : Nat} : 0 < (node ts i : τ × ℕ).2 ↔ i < used ts := by
  unfold used
  rcases Nat.lt_trichotomy i (arrivals ts).length with hi | rfl | hi
  · exact iff_of_true (node_snd_pos hi) (by omega)
  · rw [node, List.getElem?_eq_none le_rfl]
    show 0 < freeCount ts (arrivals ts).length ↔ _
    split <;> omega
  · rw [node_snd_eq_zero hi]
    split <;> omega

/-- A `0`-arrival, if there is one, comes when all other tags have arrived. -/
def ZeroLast (ts : List τ) : Prop :=
  0 ∈ ts → ∃ pre post, ts = pre ++ 0 :: post ∧ ∀ t ∈ post, t = 0 ∨ t ∈ pre

/-- The first free entry has counted the `0`-arrivals that come when all other tags have. -/
theorem freeCount_ne_zero_iff {ts : List τ} : freeCount ts (arrivals ts).length ≠ 0 ↔
    ∃ pre post, ts = pre ++ 0 :: post ∧ ∀ t ∈ post, t = 0 ∨ t ∈ pre := by
  induction ts using List.reverseRecOn with
  | nil => exact iff_of_false (fun h => h rfl) fun ⟨pre, post, h, _⟩ => by simp at h
  | append_singleton ts t ih =>
      by_cases h0 : t = 0
      · subst h0
        rw [freeCount_concat, arrivals_concat, if_pos (.inl rfl), if_pos ⟨rfl, rfl⟩]
        exact iff_of_true (Nat.succ_ne_zero _) ⟨ts, [], rfl, fun _ h => absurd h List.not_mem_nil⟩
      · have hlast : ∀ {pre post}, ts ++ [t] = pre ++ 0 :: post →
            ∃ post', post = post' ++ [t] ∧ ts = pre ++ 0 :: post' := by
          intro pre post h
          rcases List.eq_nil_or_concat post with rfl | ⟨post', u, rfl⟩
          · exact absurd (List.append_inj_right' h rfl) (by simpa using h0)
          · rw [List.concat_eq_append, ← List.cons_append, ← List.append_assoc] at h
            obtain ⟨hts, hu⟩ := List.append_inj' h rfl
            exact ⟨post', by rw [List.concat_eq_append, List.singleton_inj.mp hu], hts⟩
        by_cases hold : t ∈ arrivals ts
        · have hmem := (mem_arrivals.mp hold).2
          rw [freeCount_concat, arrivals_concat, if_pos (.inr hold), if_neg (by simp [h0]),
            Nat.add_zero, ih]
          constructor
          · rintro ⟨pre, post, rfl, hpost⟩
            refine ⟨pre, post ++ [t], by simp, fun u hu => ?_⟩
            rcases List.mem_append.mp hu with hu | hu
            · exact hpost u hu
            · rw [List.mem_singleton.mp hu]
              rcases List.mem_append.mp hmem with hpre | hrest
              · exact .inr hpre
              · exact hpost t ((List.mem_cons.mp hrest).resolve_left h0)
          · rintro ⟨pre, post, h, hpost⟩
            obtain ⟨post', rfl, rfl⟩ := hlast h
            exact ⟨pre, post', rfl, fun u hu => hpost u (List.mem_append_left _ hu)⟩
        · -- a new tag claims the entry
          rw [arrivals_concat, if_neg (not_or.mpr ⟨h0, hold⟩), List.length_append,
            List.length_singleton, freeCount_concat, if_neg (by simp [h0]),
            freeCount_of_lt (Nat.lt_succ_self _)]
          refine iff_of_false (fun h => h rfl) ?_
          rintro ⟨pre, post, h, hpost⟩
          obtain ⟨post', rfl, rfl⟩ := hlast h
          have hpre := (hpost t (List.mem_append_right _ List.mem_cons_self)).resolve_left h0
          exact hold (mem_arrivals.mpr ⟨h0, List.mem_append_left _ hpre⟩)

theorem length_arrivals (ts : List τ) :
    (arrivals ts).length + (if 0 ∈ ts then 1 else 0) = ts.toFinset.card := by
  have harrivals : (arrivals ts).toFinset = ts.toFinset.erase 0 := by
    ext t
    simp
  rw [← List.toFinset_card_of_nodup (nodup_arrivals ts), harrivals]
  split
  · next h => exact Finset.card_erase_add_one (List.mem_toFinset.mpr h)
  · next h => rw [Finset.erase_eq_of_notMem (fun hm => h (List.mem_toFinset.mp hm)), Nat.add_zero]

/-- **No more entries are used than there are tags**, and as many when the tag `0` keeps one. -/
theorem used_le_card (ts : List τ) : used ts ≤ ts.toFinset.card := by
  rw [← length_arrivals, used]
  split
  · split <;> omega
  · next h =>
      obtain ⟨pre, post, rfl, -⟩ := freeCount_ne_zero_iff.mp h
      rw [if_pos (by simp)]

theorem used_eq_card_iff (ts : List τ) : used ts = ts.toFinset.card ↔ ZeroLast ts := by
  rw [← length_arrivals, used, ZeroLast, ← freeCount_ne_zero_iff]
  by_cases hzero : 0 ∈ ts
  · rw [if_pos hzero]
    by_cases hfree : freeCount ts (arrivals ts).length = 0
    · simp [hfree, hzero]
    · simp [hfree]
  · have hfree : freeCount ts (arrivals ts).length = 0 := by
      by_contra hne
      obtain ⟨pre, post, rfl, -⟩ := freeCount_ne_zero_iff.mp hne
      exact hzero (by simp)
    simp [hzero, hfree]

theorem node_snd_le (ts : List τ) (i : Nat) : (node ts i : τ × ℕ).2 ≤ ts.length := by
  by_cases hfree : (node ts i : τ × ℕ) = (0, 0)
  · rw [hfree]
    exact Nat.zero_le _
  · rw [← entryAt_bumps ts 0 i] at hfree ⊢
    exact snd_le_of_mem_bumps (List.mem_of_getElem? (getElem?_of_entryAt hfree))

/-! ## When the first entries list all tags -/

/-- Without late claims, a tag that arrives has the entry at its place. -/
theorem NoLateClaim.node_of_mem {ts : List τ} (h : NoLateClaim ts) {t : τ} (ht : t ∈ ts) :
    (node ts ((arrivals ts).idxOf t) : τ × ℕ) = (t, ts.count t) := by
  refine Prod.ext ?_ ((h.node_idxOf fun _ hnot => absurd ht hnot).trans (Nat.cast_id _))
  by_cases h0 : t = 0
  · have hnot : t ∉ arrivals ts := fun hm => (mem_arrivals.mp hm).1 h0
    rw [List.idxOf_eq_length hnot, node, List.getElem?_eq_none le_rfl, h0]
  · have hlt := List.idxOf_lt_length_of_mem (mem_arrivals.mpr ⟨h0, ht⟩)
    rw [node, List.getElem?_eq_getElem hlt]
    exact List.getElem_idxOf hlt

/-- When the first free entry has counted all `0`-arrivals, no tag has claimed one. -/
theorem noLateClaim_of_freeCount {ts : List τ}
    (h : freeCount ts (arrivals ts).length = ts.count 0) : NoLateClaim ts := by
  induction ts using List.reverseRecOn with
  | nil => exact noLateClaim_nil
  | append_singleton ts t ih =>
      rw [freeCount_concat, arrivals_concat, List.count_append, List.count_singleton] at h
      by_cases hold : t = 0 ∨ t ∈ arrivals ts
      · rw [if_pos hold] at h
        refine noLateClaim_concat.mpr ⟨ih ?_, fun h0 hnot => ?_⟩
        · by_cases h0 : t = 0
          · simp only [h0, and_self, if_true, beq_self_eq_true] at h
            exact Nat.succ.inj h
          · simpa [h0] using h
        · exact absurd (mem_arrivals.mp (hold.resolve_left h0)).2 hnot
      · -- the new tag has left the first free entry without `0`-arrivals
        have h0 : t ≠ 0 := fun h0 => hold (.inl h0)
        rw [if_neg hold, List.length_append, List.length_singleton,
          freeCount_of_lt (Nat.lt_succ_self _), if_neg (by simp [h0]), if_neg (by simpa using h0)] at h
        have hzero : (0 : τ) ∉ ts := List.count_eq_zero.mp h.symm
        refine noLateClaim_concat.mpr ⟨fun pre s post hs _ _ hm => hzero ?_, fun _ _ => hzero⟩
        rw [hs]
        exact List.mem_append_left _ hm

/-- **The first `k` entries list every tag with its count** when there are no more tags, and none
claims its entry late. -/
theorem forall_node_iff (ts : List τ) (k : Nat) :
    (∀ t ∈ ts, ∃ i < k, (node ts i : τ × ℕ) = (t, ts.count t)) ↔
      ts.toFinset.card ≤ k ∧ NoLateClaim ts := by
  constructor
  · intro h
    constructor
    · have hsub : ts.toFinset ⊆ (Finset.range k).image fun i => (node ts i : τ × ℕ).1 := by
        intro t ht
        obtain ⟨i, hi, hnode⟩ := h t (List.mem_toFinset.mp ht)
        exact Finset.mem_image.mpr ⟨i, Finset.mem_range.mpr hi, by rw [hnode]⟩
      calc ts.toFinset.card
        _ ≤ ((Finset.range k).image fun i => (node ts i : τ × ℕ).1).card :=
            Finset.card_le_card hsub
        _ ≤ (Finset.range k).card := Finset.card_image_le
        _ = k := Finset.card_range k
    · by_cases hzero : (0 : τ) ∈ ts
      · obtain ⟨i, -, hnode⟩ := h 0 hzero
        have hpos := List.count_pos_iff.mpr hzero
        have hi : i = (arrivals ts).idxOf 0 := by
          apply eq_idxOf_of_node (by rw [hnode])
          rw [hnode]
          exact fun h => hpos.ne' (congrArg Prod.snd h)
        rw [List.idxOf_eq_length fun hm => (mem_arrivals.mp hm).1 rfl] at hi
        apply noLateClaim_of_freeCount
        have hcount := congrArg Prod.snd hnode
        rw [hi, node, List.getElem?_eq_none le_rfl] at hcount
        exact hcount
      · intro pre t post hs _ _ hm
        exact hzero (hs ▸ List.mem_append_left _ hm)
  · rintro ⟨hcard, hlate⟩ t ht
    refine ⟨(arrivals ts).idxOf t, ?_, hlate.node_of_mem ht⟩
    rw [← length_arrivals] at hcard
    by_cases h0 : t = 0
    · rw [if_pos (h0 ▸ ht)] at hcard
      rw [List.idxOf_eq_length fun hm => (mem_arrivals.mp hm).1 h0]
      omega
    · have hlt := List.idxOf_lt_length_of_mem (mem_arrivals.mpr ⟨h0, ht⟩)
      omega

section Cast

variable [AddMonoidWithOne M]

/-- Counters of any type are those of unbounded counters. -/
theorem map_bumps (ts : List τ) (es : List (τ × ℕ)) :
    (bumps ts es).map (Prod.map id (Nat.cast : ℕ → M)) =
      bumps ts (es.map (Prod.map id Nat.cast)) := by
  induction ts generalizing es with
  | nil => rfl
  | cons t ts ih =>
      have hbump : (bump t es).map (Prod.map id (Nat.cast : ℕ → M)) =
          bump t (es.map (Prod.map id Nat.cast)) := by
        have hmap : (record t (fun _ e => e.2 + 1) 1 es).map (Prod.map id (Nat.cast : ℕ → M)) =
            record t (fun _ e => e.2 + 1) ((1 : ℕ) : M) (es.map (Prod.map id Nat.cast)) :=
          map_record Nat.cast t (fun _ e => Nat.cast_succ e.2) 1 es
        rw [Nat.cast_one] at hmap
        exact hmap
      show (bumps ts (bump t es)).map _ = bumps ts (bump t _)
      rw [ih, hbump]

/-- Counters that start at zero. -/
theorem map_bumps_replicate (ts : List τ) (k : Nat) :
    (bumps ts (List.replicate k ((0, 0) : τ × ℕ))).map (Prod.map id (Nat.cast : ℕ → M)) =
      bumps ts (List.replicate k (0, 0)) := by
  rw [map_bumps, List.map_replicate, Prod.map_apply, Nat.cast_zero]
  rfl

end Cast

end FirstFit
