import FloWatcher.FirstFit.Count

/-!
# When an entry keeps the arrivals of one tag only

Arrivals tagged `0` are recorded in the first free entry, and the next new tag claims that entry
together with what was counted in it. So entries keep tags apart exactly when no tag claims an
entry after a `0`-arrival: `unmixed_iff`. Under that condition every tag is attributed its own
count (`attributes_bumps`) and the entries in use are as many as the distinct tags
(`countP_bumps`).
-/

namespace FirstFit

variable {τ M : Type*} [DecidableEq τ] [Zero τ]

/-- No nonzero tag arrives for the first time after a `0`-arrival. -/
def NoLateClaim (ts : List τ) : Prop :=
  ∀ pre t post, ts = pre ++ t :: post → t ≠ 0 → t ∉ pre → (0 : τ) ∉ pre

omit [DecidableEq τ] in
theorem noLateClaim_nil : NoLateClaim ([] : List τ) := by
  intro pre t post h
  simp at h

omit [DecidableEq τ] in
theorem noLateClaim_concat {ts : List τ} {t : τ} :
    NoLateClaim (ts ++ [t]) ↔ NoLateClaim ts ∧ (t ≠ 0 → t ∉ ts → (0 : τ) ∉ ts) := by
  constructor
  · intro h
    refine ⟨fun pre s post hs => h pre s (post ++ [t]) (by simp [hs]), h ts t [] rfl⟩
  · rintro ⟨hts, ht⟩ pre s post h
    rcases List.eq_nil_or_concat post with rfl | ⟨post', u, rfl⟩
    · obtain ⟨rfl, hst⟩ := List.append_inj' h rfl
      cases hst
      exact ht
    · rw [List.concat_eq_append, ← List.cons_append, ← List.append_assoc] at h
      exact hts pre s post' (List.append_inj' h rfl).1

/-- After a `0`-arrival nothing new is claimed. -/
theorem NoLateClaim.arrivals_eq {pre post : List τ} (h : NoLateClaim (pre ++ 0 :: post)) :
    arrivals (pre ++ 0 :: post) = arrivals pre := by
  induction post using List.reverseRecOn with
  | nil => rw [arrivals_concat, if_pos (Or.inl rfl)]
  | append_singleton post u ih =>
      rw [← List.cons_append, ← List.append_assoc] at h ⊢
      obtain ⟨hts, hu⟩ := noLateClaim_concat.mp h
      rw [arrivals_concat, if_pos, ih hts]
      by_contra hnew
      rw [not_or, mem_arrivals] at hnew
      exact hu hnew.1 (fun hm => hnew.2 ⟨hnew.1, hm⟩) (by simp)

/-- Without late claims every arrival of a tag is recorded at the same position. -/
theorem NoLateClaim.idxOf_arrivals {ts pre post : List τ} {s : τ} (h : NoLateClaim ts)
    (hs : ts = pre ++ s :: post) : (arrivals pre).idxOf s = (arrivals ts).idxOf s := by
  by_cases h0 : s = 0
  · subst h0
    rw [hs] at h ⊢
    rw [h.arrivals_eq]
  · obtain ⟨us, hus⟩ := arrivals_prefix (pre ++ [s]) post
    have hts : arrivals ts = arrivals (pre ++ [s]) ++ us := by
      rw [hus, hs, List.append_assoc, List.singleton_append]
    rw [hts, arrivals_concat]
    by_cases hm : s ∈ arrivals pre
    · rw [if_pos (Or.inr hm), List.idxOf_append, if_pos hm]
    · rw [if_neg (by simp [h0, hm]), List.append_assoc, List.idxOf_append, if_neg hm,
        List.idxOf_eq_length hm]
      simp

theorem eq_of_idxOf_arrivals {ts : List τ} {s t : τ} (hs : s ∈ ts) (ht : t ∈ ts)
    (h : (arrivals ts).idxOf s = (arrivals ts).idxOf t) : s = t := by
  by_cases hm : s ∈ arrivals ts
  · exact (List.idxOf_inj hm).mp h
  · have hm' : t ∉ arrivals ts := fun h' => hm ((List.idxOf_inj h').mp h.symm ▸ h')
    have h0 : s = 0 := by_contra fun h0 => hm (mem_arrivals.mpr ⟨h0, hs⟩)
    have h0' : t = 0 := by_contra fun h0 => hm' (mem_arrivals.mpr ⟨h0, ht⟩)
    rw [h0, h0']

variable [AddMonoidWithOne M]

/-- No entry records arrivals of two different tags, counting from the list `es₀`. -/
def Unmixed (es₀ : List (τ × M)) (ts : List τ) : Prop :=
  ∀ pre s post pre' t post', ts = pre ++ s :: post → ts = pre' ++ t :: post' →
    place s (bumps pre es₀) = place t (bumps pre' es₀) → s = t

theorem place_bumps (ts : List τ) (k : Nat) (t : τ) :
    place t (bumps ts (List.replicate k ((0, 0) : τ × M))) = (arrivals ts).idxOf t :=
  place_of_entryAt (entryAt_bumps ts k) t

/-- The list is as long as it was, or as long as its counters that are not zero need. -/
theorem lt_length_bumps_iff (ts : List τ) (k i : Nat) :
    i < (bumps ts (List.replicate k ((0, 0) : τ × M))).length ↔
      i < k ∨ 0 < (node ts i : τ × ℕ).2 := by
  induction ts using List.reverseRecOn with
  | nil => simp [node, freeCount]
  | append_singleton ts t ih =>
      have hle := place_le_length t (bumps ts (List.replicate k ((0, 0) : τ × M)))
      rw [place_bumps] at hle
      rw [bumps_concat, bump, length_record, place_bumps, node_concat, lt_max_iff]
      by_cases hi : i = (arrivals ts).idxOf t
      · rw [if_pos hi]
        exact iff_of_true (Or.inr (by omega)) (Or.inr (Nat.succ_pos _))
      · rw [if_neg hi, ← ih]
        omega

/-- **Tags are kept apart exactly when none claims its entry after a `0`-arrival.** -/
theorem unmixed_iff (ts : List τ) (k : Nat) :
    Unmixed (List.replicate k ((0, 0) : τ × M)) ts ↔ NoLateClaim ts := by
  constructor
  · intro h
    induction ts using List.reverseRecOn with
    | nil => exact noLateClaim_nil
    | append_singleton ts t ih =>
        have hts : NoLateClaim ts := ih fun pre s post pre' s' post' hs hs' =>
          h pre s (post ++ [t]) pre' s' (post' ++ [t]) (by simp [hs]) (by simp [hs'])
        refine noLateClaim_concat.mpr ⟨hts, fun h0 hnot hmem => ?_⟩
        -- a `0` recorded earlier shares the entry that `t` claims now
        obtain ⟨pre, post, hsplit⟩ := List.append_of_mem hmem
        have hzero : (arrivals pre).idxOf 0 = (arrivals ts).length :=
          (hts.idxOf_arrivals hsplit).trans
            (List.idxOf_eq_length fun hm => (mem_arrivals.mp hm).1 rfl)
        have hclaim : (arrivals ts).idxOf t = (arrivals ts).length :=
          List.idxOf_eq_length fun hm => hnot (mem_arrivals.mp hm).2
        refine h0 (h pre 0 (post ++ [t]) ts t [] (by simp [hsplit]) rfl ?_).symm
        rw [place_bumps, place_bumps, hzero, hclaim]
  · intro h pre s post pre' t post' hs ht hplace
    rw [place_bumps, place_bumps, h.idxOf_arrivals hs, h.idxOf_arrivals ht] at hplace
    exact eq_of_idxOf_arrivals (by simp [hs]) (by simp [ht]) hplace

/-! ## Attribution -/

/-- The list attributes the counter `c` to tag `t`: `c` is in the one entry tagged `t` that is not
a free, zeroed one, and is zero if there is none. -/
def Attributes (es : List (τ × M)) (t : τ) (c : M) : Prop :=
  (∃ i : Nat, es[i]? = some (t, c) ∧
    ∀ (j : Nat) (e : τ × M), es[j]? = some e → e.1 = t → e ≠ (0, 0) → j = i) ∨
    (c = 0 ∧ ∀ e ∈ es, e.1 = t → e = (0, 0))

omit [AddMonoidWithOne M] in
/-- Without late claims, no `0`-arrival precedes a claim. -/
theorem NoLateClaim.count_take_closes {ts : List τ} (h : NoLateClaim ts) {i : Nat}
    (hi : i < (arrivals ts).length) : (ts.take (closes ts i)).count 0 = 0 := by
  have hmem := mem_arrivals.mp (List.getElem_mem hi)
  obtain ⟨pre, post, hsplit, hnot⟩ := List.eq_append_cons_of_mem hmem.2
  have hcloses : closes ts i = pre.length := by
    rw [closes, List.getElem?_eq_getElem hi, Option.elim_some]
    calc ts.idxOf (arrivals ts)[i] = (pre ++ (arrivals ts)[i] :: post).idxOf (arrivals ts)[i] := by
          rw [← hsplit]
      _ = pre.length := by simp [List.idxOf_append, hnot]
  have hzero : (0 : τ) ∉ pre := h pre _ post hsplit hmem.1 hnot
  rw [hcloses, hsplit, List.take_left]
  exact List.count_eq_zero_of_not_mem hzero

omit [AddMonoidWithOne M] in
theorem NoLateClaim.freeCount_of_lt {ts : List τ} (h : NoLateClaim ts) {i : Nat}
    (hi : i < (arrivals ts).length) : freeCount ts i = 0 := by
  have hle := (List.drop_sublist (opens ts i) (ts.take (closes ts i))).count_le (0 : τ)
  rw [h.count_take_closes hi] at hle
  exact Nat.le_zero.mp hle

omit [AddMonoidWithOne M] in
theorem NoLateClaim.freeCount_length {ts : List τ} (h : NoLateClaim ts) :
    freeCount ts (arrivals ts).length = ts.count 0 := by
  have hopen : (ts.take (opens ts (arrivals ts).length)).count 0 = 0 := by
    cases hm : (arrivals ts).length with
    | zero => simp [opens]
    | succ m => exact h.count_take_closes (by omega)
  rw [freeCount, closes_of_le le_rfl, List.take_length]
  conv_rhs => rw [← List.take_append_drop (opens ts (arrivals ts).length) ts, List.count_append,
    hopen, Nat.zero_add]

theorem NoLateClaim.node_idxOf {ts : List τ} (h : NoLateClaim ts) {t : τ}
    (ht : t ≠ 0 → t ∉ ts → (0 : τ) ∉ ts) :
    (node ts ((arrivals ts).idxOf t) : τ × M).2 = (ts.count t : M) := by
  by_cases hm : t ∈ arrivals ts
  · have hlt := List.idxOf_lt_length_of_mem hm
    rw [node, List.getElem?_eq_getElem hlt, List.getElem_idxOf hlt, h.freeCount_of_lt hlt]
    rfl
  · rw [List.idxOf_eq_length hm, node, List.getElem?_eq_none le_rfl, h.freeCount_length]
    by_cases h0 : t = 0
    · rw [h0]
    · have hnot : t ∉ ts := fun hts => hm (mem_arrivals.mpr ⟨h0, hts⟩)
      rw [List.count_eq_zero_of_not_mem hnot, List.count_eq_zero_of_not_mem (ht h0 hnot)]

/-- The only entry of `node ts` tagged `t` that is not free and zeroed is at `t`'s own place. -/
theorem eq_idxOf_of_node {ts : List τ} {t : τ} {j : Nat} (htag : (node ts j : τ × M).1 = t)
    (hne : (node ts j : τ × M) ≠ (0, 0)) : j = (arrivals ts).idxOf t := by
  rcases Nat.lt_trichotomy j (arrivals ts).length with hj | hj | hj
  · rw [node, List.getElem?_eq_getElem hj] at htag
    rw [← htag]
    exact ((nodup_arrivals ts).idxOf_getElem j hj).symm
  · rw [node, List.getElem?_eq_none hj.ge] at htag
    rw [hj, ← htag]
    exact (List.idxOf_eq_length fun h => (mem_arrivals.mp h).1 rfl).symm
  · rw [node, List.getElem?_eq_none hj.le, FirstFit.freeCount_of_lt hj, Nat.cast_zero] at hne
    exact absurd rfl hne

/-- **Without late claims every tag is attributed its own count.** -/
theorem attributes_bumps {ts : List τ} (h : NoLateClaim ts) (k : Nat) (t : τ) :
    Attributes (bumps ts (List.replicate k ((0, 0) : τ × M))) t (ts.count t : M) := by
  have hat := entryAt_bumps (M := M) ts k
  generalize bumps ts (List.replicate k ((0, 0) : τ × M)) = es at hat
  have hget : ∀ {j e}, es[j]? = some e → e = node ts j := by
    intro j e he
    rw [← hat, entryAt, he]
    rfl
  have huniq : ∀ (j : Nat) (e : τ × M), es[j]? = some e → e.1 = t → e ≠ (0, 0) →
      j = (arrivals ts).idxOf t := by
    intro j e he htag hne
    rw [hget he] at htag hne
    exact eq_idxOf_of_node htag hne
  by_cases hts : t ∈ arrivals ts ∨ t = 0
  · have hnode : (node ts ((arrivals ts).idxOf t) : τ × M) = (t, (ts.count t : M)) := by
      refine Prod.ext ?_ (h.node_idxOf fun h0 hnot => ?_)
      · rcases hts with hm | rfl
        · have hlt := List.idxOf_lt_length_of_mem hm
          rw [node, List.getElem?_eq_getElem hlt]
          exact List.getElem_idxOf hlt
        · have hm : (0 : τ) ∉ arrivals ts := fun hm => (mem_arrivals.mp hm).1 rfl
          rw [List.idxOf_eq_length hm, node, List.getElem?_eq_none le_rfl]
      · exact absurd hts (by simp [h0, hnot])
    cases he : es[(arrivals ts).idxOf t]? with
    | some e =>
        left
        exact ⟨_, by rw [he, hget he, hnode], huniq⟩
    | none =>
        -- the list ends before `t`'s place, so `t` is `0` and was never counted
        right
        have hfree := hat ((arrivals ts).idxOf t)
        rw [hnode, entryAt, he] at hfree
        refine ⟨(congrArg Prod.snd hfree).symm, fun e hmem htag => ?_⟩
        by_contra hne
        obtain ⟨j, hj⟩ := List.mem_iff_getElem?.mp hmem
        rw [huniq j e hj htag hne, he] at hj
        cases hj
  · right
    rw [not_or] at hts
    have hnot : t ∉ ts := fun hm => hts.1 (mem_arrivals.mpr ⟨hts.2, hm⟩)
    refine ⟨by rw [List.count_eq_zero_of_not_mem hnot, Nat.cast_zero], fun e hmem htag => ?_⟩
    by_contra hne
    obtain ⟨j, hj⟩ := List.mem_iff_getElem?.mp hmem
    have hj' := huniq j e hj htag hne
    rw [List.idxOf_eq_length hts.1] at hj'
    rw [hget hj, hj', node, List.getElem?_eq_none le_rfl] at htag
    exact hts.2 htag.symm

/-! ## Entries in use -/

/-- Counting an arrival puts one more entry in use exactly when its entry read zero. -/
theorem countP_bump [DecidableEq M] (t : τ) (es : List (τ × M))
    (hne : (entryAt es (place t es)).2 + 1 ≠ 0) (hone : (1 : M) ≠ 0) :
    (bump t es).countP (fun e => e.2 ≠ 0) =
      es.countP (fun e => e.2 ≠ 0) + if (entryAt es (place t es)).2 = 0 then 1 else 0 := by
  induction es with
  | nil => simp [bump, record_nil, entryAt, hone]
  | cons e es ih =>
      rw [bump, record_cons]
      rw [place_cons] at hne ⊢
      split
      · next h =>
          rw [if_pos h] at hne
          have hne' : e.2 + 1 ≠ 0 := hne
          by_cases h0 : e.2 = 0 <;> simp [entryAt, h0, hone, hne']
      · next h =>
          rw [if_neg h] at hne
          have hrec := ih hne
          rw [bump] at hrec
          have hshift : entryAt (e :: es) (place t es + 1) = entryAt es (place t es) := rfl
          rw [hshift, List.countP_cons, List.countP_cons, hrec]
          omega

/-- **Without late claims, the entries in use are as many as the distinct tags**, as long as no
counter has come back to zero. -/
theorem countP_bumps [DecidableEq M] {ts : List τ} (h : NoLateClaim ts) (k : Nat)
    (hcast : ∀ n : Nat, 0 < n → n ≤ ts.length → (n : M) ≠ 0) :
    (bumps ts (List.replicate k ((0, 0) : τ × M))).countP (fun e => e.2 ≠ 0) =
      ts.toFinset.card := by
  induction ts using List.reverseRecOn with
  | nil => simp [List.countP_replicate]
  | append_singleton ts t ih =>
      obtain ⟨hts, ht⟩ := noLateClaim_concat.mp h
      have hlen : (ts ++ [t]).length = ts.length + 1 := by simp
      have hold := ih hts fun n h0 hn => hcast n h0 (by omega)
      have hval : (entryAt (bumps ts (List.replicate k ((0, 0) : τ × M)))
          ((arrivals ts).idxOf t)).2 = (ts.count t : M) := by
        rw [entryAt_bumps, hts.node_idxOf ht]
      have hcount := List.count_le_length (a := t) (l := ts)
      have hone : (1 : M) ≠ 0 := by simpa using hcast 1 (by omega) (by omega)
      rw [bumps_concat, countP_bump, hold, place_bumps, hval]
      · by_cases hm : t ∈ ts
        · have hpos := List.count_pos_iff.mpr hm
          rw [if_neg (hcast _ hpos (by omega))]
          simp [List.toFinset_append, hm]
        · rw [List.count_eq_zero_of_not_mem hm, Nat.cast_zero, if_pos rfl, List.toFinset_append,
            List.toFinset_cons, List.toFinset_nil, Finset.union_comm, Finset.insert_union,
            Finset.empty_union, Finset.card_insert_of_notMem (by simpa using hm)]
      · rw [place_bumps, hval, ← Nat.cast_succ]
        exact hcast _ (by omega) (by omega)
      · exact hone

/-- Every arrival adds one to the sum of the counters. -/
theorem sum_bump {M : Type*} [AddCommMonoidWithOne M] (t : τ) (es : List (τ × M)) :
    ((bump t es).map Prod.snd).sum = (es.map Prod.snd).sum + 1 := by
  induction es with
  | nil => simp [bump, record_nil]
  | cons e es ih =>
      rw [bump, record_cons]
      split
      · simp [add_right_comm]
      · rw [bump] at ih
        simp [ih, add_assoc]

end FirstFit
