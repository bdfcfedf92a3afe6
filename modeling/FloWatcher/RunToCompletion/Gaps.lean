import FloWatcher.RunToCompletion.Burstiness
import FloWatcher.RunToCompletion.Placement

/-!
# The gaps that reach the quantile estimator

`curr` is an `int64_t`, the parameter of `get_qt` a `uint64_t`: a negative gap becomes a huge one.
`global` stands still during a burst, so the gap after a packet of the same burst is `-1`. A slot
starts to remember `global` only at the second packet of its flow, so the second gap is counted
from `0`. `nonnegGaps_iff` says from the bursts alone when no gap is negative.
-/

namespace FloWatcher
namespace RunToCompletion

open FirstFit Loop

variable {n : Nat}

/-! ## Which gaps are stored -/

/-- The slot whose quantile state takes the gap of a packet, and the gap: the last two slot
branches. -/
def slotGap (global : BitVec 64) (indexH : Tag) (s : Slots 32 EntryStats) :
    Option (Fin 2 × BitVec 64) :=
  if s.hiF1 = 0 then
    none
  else if s.hiF2 = 0 ∧ s.hiF1 ≠ indexH then
    none
  else if s.hiF1 = indexH then
    some (0, gap global s.stats0.ipg)
  else if s.hiF2 = indexH then
    some (1, gap global s.stats1.ipg)
  else
    none

def slotQt (s : Slots 32 EntryStats) : Fin 2 → Option Quantile := ![s.stats0.qt, s.stats1.qt]

/-- The gaps that go into a quantile state, packet by packet. -/
def storedGaps (P : Quantile.Percentile) :
    List (BitVec 64 × Hash) → (Bucket → HashList.PktCount 32 EntryStats) → List (BitVec 64)
  | [], _ => []
  | p :: ps, T =>
      let T' := recordAll (HashList.packet (hashListIpg (some P))) [p] T
      match slotGap p.1 (indexH p.2) (T (indexL p.2)).toSlots with
      | some (_, curr) => curr :: storedGaps P ps T'
      | none => storedGaps P ps T'

/-- The quantile states of the slots observe these gaps and nothing else. -/
theorem slotQt_packet (P : Quantile.Percentile) (global : BitVec 64) (t : Tag)
    (e : HashList.PktCount 32 EntryStats) (j : Fin 2) :
    slotQt (HashList.packet (hashListIpg (some P)) global t e).toSlots j =
      match slotGap global t e.toSlots with
      | some (i, curr) =>
          if i = j then (slotQt e.toSlots j).bind fun qt => Quantile.observe P qt curr
          else slotQt e.toSlots j
      | none => slotQt e.toSlots j := by
  rw [HashList.packet, Slots.update, slotGap]
  by_cases h1 : e.hiF1 = 0
  · rw [if_pos h1, if_pos h1]
    fin_cases j
    · rfl
    · rfl
  · rw [if_neg h1, if_neg h1]
    by_cases h2 : e.hiF2 = 0 ∧ e.hiF1 ≠ t
    · rw [if_pos h2, if_pos h2]
      fin_cases j
      · rfl
      · rfl
    · rw [if_neg h2, if_neg h2]
      by_cases h3 : e.hiF1 = t
      · rw [if_pos h3, if_pos h3]
        fin_cases j
        · rfl
        · rfl
      · rw [if_neg h3, if_neg h3]
        by_cases h4 : e.hiF2 = t
        · rw [if_pos h4, if_pos h4]
          fin_cases j
          · rfl
          · rfl
        · rw [if_neg h4, if_neg h4]

/-- The quantile states of the chain stay as `rte_calloc` leaves them. -/
theorem walk_qt (P : Quantile.Percentile) (global : BitVec 64) (t : Tag)
    (flows : List (FlowEntry 32 EntryStats)) (h : ∀ f ∈ flows, f.stats.qt = some zeroQuantile) :
    ∀ f ∈ HashList.walk (hashListIpg (some P)) global t flows, f.stats.qt = some zeroQuantile := by
  induction flows with
  | nil =>
      intro f hf
      rw [HashList.walk, List.mem_singleton] at hf
      rw [hf]
      rfl
  | cons f next ih =>
      obtain ⟨hhead, hnext⟩ := List.forall_mem_cons.mp h
      rw [HashList.walk]
      split
      · exact List.forall_mem_cons.mpr ⟨hhead, hnext⟩
      · split
        · exact List.forall_mem_cons.mpr ⟨hhead, hnext⟩
        · exact List.forall_mem_cons.mpr ⟨hhead, ih hnext⟩

theorem mem_storedGaps (P : Quantile.Percentile) (ps : List (BitVec 64 × Hash))
    (T : Bucket → HashList.PktCount 32 EntryStats) (curr : BitVec 64) :
    curr ∈ storedGaps P ps T ↔
      ∃ pre p post, ps = pre ++ p :: post ∧ ∃ j,
        slotGap p.1 (indexH p.2)
          (recordAll (HashList.packet (hashListIpg (some P))) pre T (indexL p.2)).toSlots =
            some (j, curr) := by
  induction ps generalizing T with
  | nil => simp [storedGaps]
  | cons p ps ih =>
      have hmem : curr ∈ storedGaps P (p :: ps) T ↔
          (∃ j, slotGap p.1 (indexH p.2) (T (indexL p.2)).toSlots = some (j, curr)) ∨
            curr ∈ storedGaps P ps
              (recordAll (HashList.packet (hashListIpg (some P))) [p] T) := by
        rw [storedGaps]
        split
        · next j c heq => simp [heq, eq_comm]
        · next heq => simp [heq]
      rw [hmem, ih]
      constructor
      · rintro (⟨j, hj⟩ | ⟨pre, q, post, rfl, hq⟩)
        · exact ⟨[], p, ps, rfl, j, hj⟩
        · exact ⟨p :: pre, q, post, rfl, hq⟩
      · rintro ⟨pre, q, post, hsplit, hq⟩
        cases pre with
        | nil =>
            obtain ⟨rfl, rfl⟩ := List.cons.inj hsplit
            exact Or.inl hq
        | cons p' pre =>
            obtain ⟨rfl, rfl⟩ := List.cons.inj hsplit
            exact Or.inr ⟨pre, q, post, rfl, hq⟩

/-! ## The gap of a packet -/

/-- What a slot remembers of the packets of its flow so far, from the values of `global` that they
met: the last one, but nothing of the first. -/
def remembered {α : Type} [Zero α] (globals : List α) : α := globals.tail.getLastD 0

/-- The gap of a packet is that of the entry it is recorded in, when that is a slot of its flow. -/
theorem slotGap_eq_some_iff (global : BitVec 64) (t : Tag) (e : HashList.PktCount 32 EntryStats)
    (curr : BitVec 64) :
    (∃ j, slotGap global t e.toSlots = some (j, curr)) ↔
      t ≠ 0 ∧ place t e.entries < 2 ∧
        ∃ l, e.entries[place t e.entries]? = some (t, l) ∧ gap global l.2.ipg = curr := by
  have hlist : e.entries = (e.hiF1, e.ctr0, e.stats0) :: (e.hiF2, e.ctr1, e.stats1) ::
      e.flows.map FlowEntry.keyed := rfl
  have htakes1 : Takes t (e.hiF1, e.ctr0, e.stats0) ↔ e.hiF1 = 0 ∨ e.hiF1 = t := Iff.rfl
  have htakes2 : Takes t (e.hiF2, e.ctr1, e.stats1) ↔ e.hiF2 = 0 ∨ e.hiF2 = t := Iff.rfl
  rw [hlist, place_cons, place_cons, slotGap]
  by_cases h1 : e.hiF1 = 0
  · rw [if_pos h1, if_pos (htakes1.mpr (Or.inl h1))]
    simp +contextual [h1, eq_comm]
  · by_cases h1t : e.hiF1 = t
    · rw [if_neg h1, if_neg fun h => h.2 h1t, if_pos h1t, if_pos (htakes1.mpr (Or.inr h1t))]
      simp [h1t, h1t ▸ h1]
    · have hnot : ¬ Takes t (e.hiF1, e.ctr0, e.stats0) := fun h => (htakes1.mp h).elim h1 h1t
      rw [if_neg h1, if_neg hnot, if_neg h1t]
      by_cases h2 : e.hiF2 = 0
      · rw [if_pos ⟨h2, h1t⟩, if_pos (htakes2.mpr (Or.inl h2))]
        simp +contextual [h2, eq_comm]
      · rw [if_neg fun h => h2 h.1]
        by_cases h2t : e.hiF2 = t
        · rw [if_pos h2t, if_pos (htakes2.mpr (Or.inr h2t))]
          simp [h2t, h2t ▸ h2]
        · have hnot' : ¬ Takes t (e.hiF2, e.ctr1, e.stats1) := fun h =>
            (htakes2.mp h).elim h2 h2t
          rw [if_neg h2t, if_neg hnot']
          constructor
          · rintro ⟨j, hj⟩
            cases hj
          · rintro ⟨-, hlt, -⟩
            omega

/-- A place depends on the tags only. -/
theorem place_map_fst {κ κ' : Type} (g : κ → κ') (t : Tag) (es : List (Tag × κ)) :
    place t (es.map (Prod.map id g)) = place t es := by
  rw [place, place, List.findIdx_map]
  rfl

/-- A flow is recorded at the position of its tag among the tags that have arrived in its
bucket. -/
theorem place_entries (P : Quantile.Percentile) (pre : List (BitVec 64 × Hash)) (h : Hash) :
    place (indexH h)
        (recordAll (HashList.packet (hashListIpg (some P))) pre (freshTable (some P))
          (indexL h)).entries =
      (arrivals (bucketTags (indexL h) (pre.map Prod.snd))).idxOf (indexH h) := by
  have hcounts : (recordAll (HashList.packet (hashListIpg (some P))) pre (freshTable (some P))
      (indexL h)).counts = bumps (bucketTags (indexL h) (pre.map Prod.snd))
        (List.replicate (HashList.entryPerFlow + 2) (0, 0)) :=
    HashList.counts_recordAll _ (by decide) pre (indexL h)
  rw [← place_map_fst Prod.fst, ← HashList.PktCount.counts_eq, hcounts, place_bumps]

/-- What a slot remembers after later packets of its flow. -/
theorem foldl_update_ipg (P : Quantile.Percentile) {t : Tag} (ht : t ≠ 0) {i : Nat} (hi : i < 2)
    (ys : List (BitVec 64 × Hash)) (l : BitVec 32 × EntryStats) :
    (ys.foldl (fun l y => update (some P) y i (t, l)) l).2.ipg =
      (ys.map Prod.fst).getLastD l.2.ipg := by
  induction ys generalizing l with
  | nil => rfl
  | cons y ys ih =>
      have hstep : (update (some P) y i (t, l)).2.ipg = y.1 := by
        match i, hi with
        | 0, _ => exact congrArg EntryStats.ipg (if_neg ht)
        | 1, _ => exact congrArg EntryStats.ipg (if_neg ht)
      rw [List.foldl_cons, ih, hstep, List.map_cons, List.getLastD_cons]

/-- **The gap of a packet, from the packets before it.** -/
theorem slotGap_recordAll (P : Quantile.Percentile) (pre : List (BitVec 64 × Hash)) (h : Hash)
    (global curr : BitVec 64) :
    (∃ j, slotGap global (indexH h)
        (recordAll (HashList.packet (hashListIpg (some P))) pre (freshTable (some P))
          (indexL h)).toSlots = some (j, curr)) ↔
      indexH h ≠ 0 ∧ h ∈ pre.map Prod.snd ∧
        (arrivals (bucketTags (indexL h) (pre.map Prod.snd))).idxOf (indexH h) < 2 ∧
          gap global (remembered ((pre.filter (·.2 = h)).map Prod.fst)) = curr := by
  rw [slotGap_eq_some_iff, place_entries]
  apply and_congr_right
  intro h0
  rcases em (h ∈ pre.map Prod.snd) with hmem | hmem
  -- the first packet of the flow found its place; every later one updates the same entry
  · obtain ⟨xs, x, ys, hsplit, rfl, hxs, hown⟩ := exists_first_packet hmem
    let es₀ := (HashList.PktCount.init (hashListIpg (some P)) 1).entries
    let new : BitVec 32 × EntryStats := (1, (hashListIpg (some P)).zero)
    have hentries : (recordAll (HashList.packet (hashListIpg (some P))) pre (freshTable (some P))
        (indexL x.2)).entries =
          records (fun p => indexH p.2) (update (some P)) new (xs ++ x :: ys) es₀ := by
      rw [← hsplit]
      exact entries_recordAll (hashListIpg (some P)) pre (freshTable (some P)) (indexL x.2)
    have hidx := place_entries P pre x.2
    obtain ⟨es₁, hes₁⟩ : ∃ es₁, es₁ = records (fun p => indexH p.2) (update (some P)) new xs es₀ :=
      ⟨_, rfl⟩
    have hfirst : (firstLoad (update (some P)) new x (place (indexH x.2) es₁) es₁).2 =
        firstStats (some P) (placeIn (indexH x.2) es₁) x.1 := by
      rw [hes₁]
      exact firstLoad_records (some P) h0 hxs
    obtain ⟨hload, -, hplace⟩ := getElem?_records (fun p : BitVec 64 × Hash => indexH p.2)
      (update (some P)) new xs x ys es₀ h0
    rw [← hes₁] at hload hplace
    rw [hentries] at hidx ⊢
    rw [← hidx, hplace, hload, hown]
    -- only the two entries with a slot remember a global counter
    have hipg : place (indexH x.2) es₁ < 2 →
        ((ys.filter (fun p => indexH p.2 = indexH x.2)).foldl
          (fun l y => update (some P) y (place (indexH x.2) es₁) (indexH x.2, l))
          (firstLoad (update (some P)) new x (place (indexH x.2) es₁) es₁)).2.ipg =
          remembered ((x :: ys.filter (fun p => indexH p.2 = indexH x.2)).map Prod.fst) := by
      intro hlt
      rw [foldl_update_ipg P h0 hlt, hfirst, placeIn, if_pos hlt]
      rfl
    constructor
    · rintro ⟨hlt, l, hl, hcurr⟩
      cases hl
      rw [hipg hlt] at hcurr
      exact ⟨hmem, hlt, hcurr⟩
    · rintro ⟨-, hlt, hcurr⟩
      rw [← hipg hlt] at hcurr
      exact ⟨hlt, _, rfl, hcurr⟩
  · -- the tag has not arrived in its bucket, so no entry has it
    refine iff_of_false ?_ fun hright => hmem hright.1
    rintro ⟨-, l, hl, -⟩
    have htag : ∀ e ∈ (recordAll (HashList.packet (hashListIpg (some P))) pre (freshTable (some P))
        (indexL h)).entries, e.1 ≠ indexH h := by
      rw [entries_recordAll]
      apply tag_ne_records
      · intro y hy hyh
        obtain ⟨hy, hyl⟩ := List.mem_filter.mp hy
        rw [← hash_ext y.2 h (of_decide_eq_true hyl) hyh] at hmem
        exact hmem (List.mem_map_of_mem hy)
      · intro e he
        rw [entries_init (some P) e he]
        exact h0.symm
    exact htag _ (List.mem_of_getElem? hl) rfl

/-! ## Runs -/

/-- The packets that hit a slot lie far enough apart: each comes in a later burst than the packet
that its slot remembers, but less than `2 ^ 63` packets later. A packet hits a slot when its flow
is one of the first two of the bucket, tag `0` left out, and has arrived before. -/
def Spaced (bursts : List (Fin 1 × List Hash)) : Prop :=
  ∀ pre p post, burstStarts 0 bursts = pre ++ p :: post →
    indexH p.2 ≠ 0 → p.2 ∈ pre.map Prod.snd →
    (arrivals (bucketTags (indexL p.2) (pre.map Prod.snd))).idxOf (indexH p.2) < 2 →
    let last := remembered ((pre.filter (·.2 = p.2)).map Prod.fst)
    last < p.1 ∧ (p.1 - 1 - last) % 2 ^ 64 < 2 ^ 63

theorem le_of_mem_burstStarts {k : Nat} {bursts : List (Fin n × List Hash)} {p : Nat × Hash}
    (hp : p ∈ burstStarts k bursts) : k ≤ p.1 := by
  induction bursts generalizing k with
  | nil => simp [burstStarts] at hp
  | cons b bs ih =>
      rcases List.mem_append.mp hp with hp | hp
      · obtain ⟨h, -, rfl⟩ := List.mem_map.mp hp
        exact le_rfl
      · exact (Nat.le_add_right k _).trans (ih hp)

theorem pairwise_burstStarts (k : Nat) (bursts : List (Fin n × List Hash)) :
    (burstStarts k bursts).Pairwise fun p q => p.1 ≤ q.1 := by
  induction bursts generalizing k with
  | nil => exact List.Pairwise.nil
  | cons b bs ih =>
      rw [burstStarts, List.pairwise_append]
      refine ⟨?_, ih _, ?_⟩
      · exact List.pairwise_map.mpr (List.pairwise_of_forall fun _ _ => le_rfl)
      · intro p hp q hq
        obtain ⟨h, -, rfl⟩ := List.mem_map.mp hp
        exact (Nat.le_add_right k _).trans (le_of_mem_burstStarts hq)

/-- What a slot remembers is at most the present value of `global`. -/
theorem remembered_le {bursts : List (Fin n × List Hash)} {pre : List (Nat × Hash)}
    {p : Nat × Hash} {post : List (Nat × Hash)} (h : burstStarts 0 bursts = pre ++ p :: post) :
    remembered ((pre.filter (·.2 = p.2)).map Prod.fst) ≤ p.1 := by
  have hpair := pairwise_burstStarts 0 bursts
  rw [h, List.pairwise_append] at hpair
  have hle : ∀ r ∈ (pre.filter (·.2 = p.2)).map Prod.fst, r ≤ p.1 := by
    intro r hr
    obtain ⟨q, hq, rfl⟩ := List.mem_map.mp hr
    exact hpair.2.2 q (List.mem_of_mem_filter hq) p (List.mem_cons_self ..)
  unfold remembered
  cases hlast : ((pre.filter (·.2 = p.2)).map Prod.fst).tail.getLast? with
  | none =>
      rw [List.getLastD_eq_getLast?, hlast]
      exact Nat.zero_le _
  | some r =>
      rw [List.getLastD_eq_getLast?, hlast]
      exact hle r (List.mem_of_mem_tail (List.mem_of_getLast? hlast))

theorem remembered_map_cast (l : List Nat) :
    remembered (l.map fun k : Nat => (k : BitVec 64)) = ((remembered l : Nat) : BitVec 64) := by
  unfold remembered
  rw [← List.map_tail, List.getLastD_eq_getLast?, List.getLastD_eq_getLast?, List.getLast?_map]
  cases l.tail.getLast? with
  | none => rfl
  | some r => rfl

theorem toInt_nonneg_iff (x : BitVec 64) : 0 ≤ x.toInt ↔ x.toNat < 2 ^ 63 := by
  have hlt := x.isLt
  rw [BitVec.toInt_eq_toNat_cond]
  split <;> omega

/-- The sign of a gap. -/
theorem gap_nonneg_iff {k r : Nat} (hr : r ≤ k) :
    0 ≤ (gap (k : BitVec 64) (r : BitVec 64)).toInt ↔
      r < k ∧ (k - 1 - r) % 2 ^ 64 < 2 ^ 63 := by
  rcases hr.lt_or_eq with hlt | rfl
  · have hgap : gap (k : BitVec 64) (r : BitVec 64) = BitVec.ofNat 64 (k - 1 - r) := by
      rw [gap, ← BitVec.natCast_eq_ofNat, Nat.cast_sub (by omega), Nat.cast_sub (by omega)]
      rfl
    rw [hgap, toInt_nonneg_iff, BitVec.toNat_ofNat]
    omega
  · have hgap : gap (r : BitVec 64) (r : BitVec 64) = BitVec.ofInt 64 (-1) := by
      rw [gap, sub_right_comm, sub_self]
      rfl
    rw [hgap]
    exact iff_of_false (by decide) fun h => lt_irrefl r h.1

/-- The conversion to an unsigned value. -/
theorem toNat_eq_toInt_iff (x : BitVec 64) : (x.toNat : Int) = x.toInt ↔ 0 ≤ x.toInt := by
  constructor
  · intro h
    rw [← h]
    exact Int.natCast_nonneg _
  · intro h
    have hlt := (toInt_nonneg_iff x).mp h
    rw [BitVec.toInt_eq_toNat_of_lt (by omega)]

/-- **When no negative gap reaches the estimator.** -/
theorem nonnegGaps_iff (P : Quantile.Percentile) (bursts : List (Fin 1 × List Hash)) :
    (∀ curr ∈ storedGaps P (met .before 0 bursts) (freshTable (some P)),
      0 ≤ curr.toInt ∧ (curr.toNat : Int) = curr.toInt) ↔ Spaced bursts := by
  have hmet : met .before 0 bursts =
      (burstStarts 0 bursts).map fun p : Nat × Hash => ((p.1 : BitVec 64), p.2) :=
    met_before 0 0 (by simp) bursts
  -- a packet that stores a gap, and the gap, in terms of the packets before it
  have hstored : ∀ pre p post, burstStarts 0 bursts = pre ++ p :: post → ∀ curr,
      (∃ j, slotGap (p.1 : BitVec 64) (indexH p.2)
        (recordAll (HashList.packet (hashListIpg (some P)))
          (pre.map fun p : Nat × Hash => ((p.1 : BitVec 64), p.2)) (freshTable (some P))
          (indexL p.2)).toSlots = some (j, curr)) ↔
        indexH p.2 ≠ 0 ∧ p.2 ∈ pre.map Prod.snd ∧
          (arrivals (bucketTags (indexL p.2) (pre.map Prod.snd))).idxOf (indexH p.2) < 2 ∧
          gap p.1 (remembered ((pre.filter (·.2 = p.2)).map Prod.fst) : Nat) = curr := by
    intro pre p post hsplit curr
    rw [slotGap_recordAll, List.map_map, List.filter_map, List.map_map, ← remembered_map_cast,
      List.map_map]
    rfl
  constructor
  · intro hall pre p post hsplit h0 hmem hidx
    rw [← gap_nonneg_iff (remembered_le hsplit)]
    refine (hall _ ((mem_storedGaps ..).mpr ?_)).1
    rw [hmet, hsplit, List.map_append, List.map_cons]
    exact ⟨_, _, _, rfl, (hstored pre p post hsplit _).mpr ⟨h0, hmem, hidx, rfl⟩⟩
  · intro hspaced curr hcurr
    rw [toNat_eq_toInt_iff, and_self]
    obtain ⟨pre', p', post', hsplit, hgap⟩ := (mem_storedGaps ..).mp hcurr
    rw [hmet] at hsplit
    obtain ⟨pre, rest, hrest, rfl, htail⟩ := List.map_eq_append_iff.mp hsplit
    obtain ⟨p, post, rfl, rfl, rfl⟩ := List.map_eq_cons_iff.mp htail
    obtain ⟨h0, hmem, hidx, rfl⟩ := (hstored pre p post hrest curr).mp hgap
    exact (gap_nonneg_iff (remembered_le hrest)).mpr (hspaced pre p post hrest h0 hmem hidx)

/-- Two packets of a flow in the first burst. -/
theorem not_nonnegGaps_same_burst :
    (BitVec.ofInt 64 (-1)) ∈ storedGaps Quantile.runToCompletionP
        (met .before 0 [((0 : Fin 1), [0x00010000#32, 0x00010000#32])])
        (freshTable (some Quantile.runToCompletionP)) ∧
      ¬ ∀ curr ∈ storedGaps Quantile.runToCompletionP
          (met .before 0 [((0 : Fin 1), [0x00010000#32, 0x00010000#32])])
          (freshTable (some Quantile.runToCompletionP)),
        0 ≤ curr.toInt ∧ (curr.toNat : Int) = curr.toInt := by
  have hmem : (BitVec.ofInt 64 (-1)) ∈ storedGaps Quantile.runToCompletionP
      (met .before 0 [((0 : Fin 1), [0x00010000#32, 0x00010000#32])])
      (freshTable (some Quantile.runToCompletionP)) := by
    decide +kernel
  exact ⟨hmem, fun hall => absurd (hall _ hmem).1 (by decide)⟩

end RunToCompletion
end FloWatcher
