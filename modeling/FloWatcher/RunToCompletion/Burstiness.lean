import FloWatcher.RunToCompletion.Ipg

/-!
# Burstiness in `double_hash`

The burstiness of a flow is the number of packets of other flows between two packets of the flow,
on average. `double_hash` measures packets by the value of `global`, which stands still during a
burst, starts a flow at `0` and divides by the number of packets. What it computes telescopes
(`avg_eq`), so it is the burstiness exactly when one equation holds between the first and the last
packet of the flow (`avg_eq_burstiness_iff`).
-/

namespace FloWatcher
namespace RunToCompletion

open FirstFit Loop

variable {n : Nat}

/-! ## What burstiness is -/

/-- The positions of the packets of flow `h` among the packets received. -/
def positions (h : Hash) (hs : List Hash) : List Nat := (hs.zipIdx.filter (·.1 = h)).map Prod.snd

/-- The packets of other flows between each two consecutive packets of flow `h`. -/
def between (h : Hash) (hs : List Hash) : List ℚ :=
  List.zipWith (fun i j : Nat => (j : ℚ) - i - 1) (positions h hs) (positions h hs).tail

def burstiness (h : Hash) (hs : List Hash) : ℚ := (between h hs).sum / (between h hs).length

theorem length_positions (h : Hash) (hs : List Hash) : (positions h hs).length = hs.count h := by
  have hmap : hs.zipIdx.map Prod.fst = hs := List.zipIdx_map_fst 0 hs
  calc (positions h hs).length = (hs.zipIdx.filter (·.1 = h)).length := List.length_map _
    _ = ((hs.zipIdx.map Prod.fst).filter (· = h)).length := by
        rw [List.filter_map, List.length_map]
        rfl
    _ = hs.count h := by
        rw [hmap, ← List.countP_eq_length_filter]
        rfl

theorem sum_zipWith_tail (l : List Nat) (hl : l ≠ []) :
    (List.zipWith (fun i j : Nat => (j : ℚ) - i - 1) l l.tail).sum =
      l.getLastD 0 - l.headD 0 - (l.length - 1) := by
  induction l with
  | nil => exact absurd rfl hl
  | cons a l ih =>
      cases l with
      | nil => simp
      | cons b l =>
          have hrec := ih (List.cons_ne_nil b l)
          simp only [List.tail_cons, List.zipWith_cons_cons, List.sum_cons, List.headD_cons,
            List.length_cons, List.getLastD_cons] at hrec ⊢
          rw [hrec]
          push_cast
          ring

/-- Burstiness in terms of the first and the last packet of the flow. -/
theorem burstiness_eq (h : Hash) (hs : List Hash) (hm : 2 ≤ hs.count h) :
    burstiness h hs =
      (((positions h hs).getLastD 0 : ℚ) - (positions h hs).headD 0 - (hs.count h - 1)) /
        (hs.count h - 1) := by
  have hlen := length_positions h hs
  have hne : positions h hs ≠ [] := List.ne_nil_of_length_pos (by omega)
  have hcount : (between h hs).length = hs.count h - 1 := by
    rw [between, List.length_zipWith, List.length_tail, hlen]
    omega
  rw [burstiness, hcount, between, sum_zipWith_tail _ hne, hlen, Nat.cast_sub (by omega)]
  rfl

/-! ## What `global` is -/

/-- Each packet with the number of packets received before its burst. -/
def burstStarts : Nat → List (Fin n × List Hash) → List (Nat × Hash)
  | _, [] => []
  | k, b :: bs => b.2.map (fun h => (k, h)) ++ burstStarts (k + b.2.length) bs

/-- The number of packets received before the burst with the last packet of flow `h`. -/
def lastBurstStart (h : Hash) (bursts : List (Fin n × List Hash)) : Nat :=
  (((burstStarts 0 bursts).filter (·.2 = h)).map Prod.fst).getLastD 0

theorem map_snd_burstStarts (k : Nat) (bursts : List (Fin n × List Hash)) :
    (burstStarts k bursts).map Prod.snd = received bursts := by
  induction bursts generalizing k with
  | nil => rfl
  | cons b bs ih =>
      have hcons : received (b :: bs) = b.2 ++ received bs := List.flatMap_cons
      rw [burstStarts, List.map_append, ih, hcons, List.map_map]
      simp [Function.comp_def]

theorem burstStarts_le {k : Nat} {bursts : List (Fin n × List Hash)} {p : Nat × Hash}
    (hp : p ∈ burstStarts k bursts) : p.1 ≤ k + (received bursts).length := by
  induction bursts generalizing k with
  | nil => simp [burstStarts] at hp
  | cons b bs ih =>
      have hcons : received (b :: bs) = b.2 ++ received bs := List.flatMap_cons
      rw [hcons, List.length_append]
      rcases List.mem_append.mp hp with hp | hp
      · obtain ⟨h, -, rfl⟩ := List.mem_map.mp hp
        exact Nat.le_add_right _ _
      · have := ih hp
        omega

theorem length_filter_burstStarts (h : Hash) (bursts : List (Fin n × List Hash)) :
    ((burstStarts 0 bursts).filter (·.2 = h)).length = (received bursts).count h := by
  rw [← map_snd_burstStarts 0 bursts, List.count, List.countP_map, List.countP_eq_length_filter]
  rfl

/-- Refreshed before the burst is counted, `global` is the number of packets before the burst. -/
theorem met_before (re : Fin n → BitVec 64) (k : Nat) (hre : ∑ q, re q = (k : BitVec 64))
    (bursts : List (Fin n × List Hash)) :
    met .before re bursts = (burstStarts k bursts).map fun p : Nat × Hash => ((p.1 : BitVec 64), p.2) := by
  induction bursts generalizing re k with
  | nil => rfl
  | cons b bs ih =>
      have hcount : ∑ q, count re b.1 b.2.length q = ((k + b.2.length : ℕ) : BitVec 64) := by
        rw [sum_count, hre, Nat.cast_add]
      have hglobal : Refresh.global .before re b.1 b.2.length = (k : BitVec 64) := by
        rw [← hre]
        exact globalOf_eq_sum re
      rw [met, burstStarts, List.map_append, ih _ _ hcount, hglobal, List.map_map]
      rfl

/-! ## What a slot computes -/

theorem gap_toInt {a b : BitVec 64} (ha : a.toNat < 2 ^ 32) (hb : b.toNat < 2 ^ 32) :
    (gap a b).toInt = (a.toNat : Int) - 1 - b.toNat := by
  have ha' : a.toInt = a.toNat := BitVec.toInt_eq_toNat_of_lt (by omega)
  have hb' : b.toInt = b.toNat := BitVec.toInt_eq_toNat_of_lt (by omega)
  have h1 : (1 : BitVec 64).toInt = 1 := by decide
  rw [gap, BitVec.toInt_sub, BitVec.toInt_sub, ha', hb', h1,
    Int.bmod_eq_of_le (n := (a.toNat : Int) - 1) (by omega) (by omega),
    Int.bmod_eq_of_le (by omega) (by omega)]

/-- A later packet of the flow in a slot: counter and fields. -/
def slotHit (l : BitVec 32 × SlotStats) (global : BitVec 64) : BitVec 32 × SlotStats :=
  (l.1 + 1, doubleHashIpg.hit 0 global (l.1 + 1) l.2)

/-- The average telescopes: after `j` packets, `j` times the average is what `ipg` remembers, less
the `j - 1` packets of the flow before. -/
theorem foldl_slotHit (Gs : List Nat) (hG : ∀ G ∈ Gs, G < 2 ^ 32) (j : Nat)
    (hj : j + Gs.length < 2 ^ 32) (l : BitVec 32 × SlotStats) (hctr : l.1 = (j : BitVec 32))
    (hipg : l.2.ipg.toNat < 2 ^ 32) (havg : l.2.avg * j = l.2.ipg.toNat - ((j : ℚ) - 1)) :
    ((Gs.map fun G : Nat => (G : BitVec 64)).foldl slotHit l).2.avg * (j + Gs.length) =
      (Gs.getLastD l.2.ipg.toNat : ℚ) - (j + Gs.length - 1) := by
  induction Gs generalizing j l with
  | nil => simpa using havg
  | cons G Gs ih =>
      have hGlt := hG G (List.mem_cons_self ..)
      have hGnat : ((G : BitVec 64)).toNat = G := by
        rw [BitVec.natCast_eq_ofNat, BitVec.toNat_ofNat, Nat.mod_eq_of_lt (by omega)]
      have hlen : (G :: Gs).length = Gs.length + 1 := List.length_cons
      have hctr' : l.1 + 1 = ((j + 1 : ℕ) : BitVec 32) := by
        rw [hctr, Nat.cast_succ]
      have hold : (((j + 1 : ℕ) : BitVec 32) - 1).toNat = j := by
        rw [Nat.cast_succ, add_sub_cancel_right, BitVec.natCast_eq_ofNat, BitVec.toNat_ofNat,
          Nat.mod_eq_of_lt (by omega)]
      have hnew : ((j + 1 : ℕ) : BitVec 32).toNat = j + 1 := by
        rw [BitVec.natCast_eq_ofNat, BitVec.toNat_ofNat, Nat.mod_eq_of_lt (by omega)]
      have hj1 : ((j : ℚ) + 1) ≠ 0 := by positivity
      have hstep : (slotHit l (G : BitVec 64)).2.avg * ((j + 1 : ℕ) : ℚ) =
          ((slotHit l (G : BitVec 64)).2.ipg.toNat : ℚ) - (((j + 1 : ℕ) : ℚ) - 1) := by
        show average l.2.avg (l.1 + 1) (gap G l.2.ipg) * ((j + 1 : ℕ) : ℚ) =
          (((G : BitVec 64)).toNat : ℚ) - (((j + 1 : ℕ) : ℚ) - 1)
        rw [hctr', average, hold, hnew, gap_toInt (by omega) hipg, hGnat]
        push_cast
        rw [div_mul_cancel₀ _ hj1, havg]
        ring
      have hrec := ih (fun G' hG' => hG G' (List.mem_cons_of_mem G hG')) (j + 1) (by omega)
        (slotHit l (G : BitVec 64)) hctr' (by show ((G : BitVec 64)).toNat < _; omega) hstep
      have hlast : (G :: Gs).getLastD l.2.ipg.toNat =
          Gs.getLastD (slotHit l (G : BitVec 64)).2.ipg.toNat := by
        show _ = Gs.getLastD ((G : BitVec 64)).toNat
        rw [hGnat, List.getLastD_cons]
      rw [List.map_cons, List.foldl_cons, hlast, hlen]
      push_cast at hrec ⊢
      rw [← add_assoc, add_right_comm]
      exact hrec

/-! ## The slot of a flow -/

def slotAvg (e : DoubleHash.PktCount 32 SlotStats) (t : Tag) : Option ℚ :=
  if e.hiF1 = t then some e.stats0.avg else if e.hiF2 = t then some e.stats1.avg else none

theorem loadUpdate_slot {t : Tag} (ht : t ≠ 0) (t' : Tag) {i : Nat} (hi : i < 2)
    (global : BitVec 64) (l : BitVec 32 × SlotStats) :
    HashList.loadUpdate (DoubleHash.listIpg doubleHashIpg) global t' i (t, l) =
      slotHit l global := by
  match i, hi with
  | 0, _ => simp [HashList.loadUpdate, ht, slotHit, DoubleHash.listIpg, doubleHashIpg]
  | 1, _ => simp [HashList.loadUpdate, ht, slotHit, DoubleHash.listIpg, doubleHashIpg]

/-- The first packet of a flow in a slot: without tag-`0` packets the slot was never used. -/
theorem firstLoad_slot {pre : List (BitVec 64 × Hash)} {x : BitVec 64 × Hash}
    (hzero : ∀ y ∈ pre, indexH y.2 ≠ 0) (hx : indexH x.2 ≠ 0)
    (hpre : ∀ y ∈ pre, indexH y.2 ≠ indexH x.2) :
    let ipg' := DoubleHash.listIpg doubleHashIpg
    let f := fun p : BitVec 64 × Hash => HashList.loadUpdate ipg' p.1 (indexH p.2)
    let es₁ := records (fun p => indexH p.2) f (1, ipg'.zero) pre
      (HashList.PktCount.init ipg' 1).entries
    let p := place (indexH x.2) es₁
    p < 2 → firstLoad f (1, ipg'.zero) x p es₁ = (1, { ipg := 0, avg := 0 }) := by
  intro ipg' f es₁ p hp
  have hinit : ∀ e ∈ (HashList.PktCount.init ipg' 1).entries, e.1 = 0 ∧ e.2 = (0, ⟨0, 0⟩) := by
    decide
  have hfree : ∀ (i : Nat) (l : BitVec 32 × SlotStats), es₁[i]? = some (0, l) →
      i < 2 → l = (0, ⟨0, 0⟩) := by
    apply free_records (fun (i : Nat) (l : BitVec 32 × SlotStats) => i < 2 → l = (0, ⟨0, 0⟩))
    · intro y hy h0
      exact absurd h0 (hzero y hy)
    · intro i hi hlt
      exact absurd (show 3 ≤ i from hi) (by omega)
    · intro i l hil _
      exact (hinit _ (List.mem_of_getElem? hil)).2
  have hplace : es₁[p]? = none ∨ ∃ l, es₁[p]? = some (0, l) := by
    apply free_at_place
    apply tag_ne_records hpre
    intro e he
    rw [(hinit e he).1]
    exact hx.symm
  rcases hplace with hnone | ⟨l, hl⟩
  · have hlen : 3 ≤ es₁.length := length_le_records _ f _ pre (HashList.PktCount.init ipg' 1).entries
    have := List.getElem?_eq_none_iff.mp hnone
    omega
  · rw [firstLoad, hl, hfree p l hl hp]
    show HashList.loadUpdate ipg' x.1 (indexH x.2) p (0, 0, ⟨0, 0⟩) = _
    match p, hp with
    | 0, _ => rfl
    | 1, _ => rfl

/-- The slot that is tagged `t` is the entry that `t` owns. -/
theorem slotAvg_of_owns {d : DoubleHash.PktCount 32 SlotStats}
    {e : HashList.PktCount 32 SlotStats} (hslots : d.toSlots = e.toSlots) {t : Tag} {p : Nat}
    {l : BitVec 32 × SlotStats} (howns : Owns e.entries t p) (hp : e.entries[p]? = some (t, l))
    {a : ℚ} (ha : slotAvg d t = some a) : p < 2 ∧ l.2.avg = a := by
  have hlist : e.entries = (e.hiF1, e.ctr0, e.stats0) :: (e.hiF2, e.ctr1, e.stats1) ::
      e.flows.map FlowEntry.keyed := rfl
  have hplace := howns.2
  have hF1 : d.hiF1 = e.hiF1 := congrArg Slots.hiF1 hslots
  have hF2 : d.hiF2 = e.hiF2 := congrArg Slots.hiF2 hslots
  have hs0 : d.stats0 = e.stats0 := congrArg Slots.stats0 hslots
  have hs1 : d.stats1 = e.stats1 := congrArg Slots.stats1 hslots
  rw [slotAvg, hF1, hF2, hs0, hs1] at ha
  rw [hlist, place_cons, place_cons] at hplace
  rw [hlist] at hp
  split at hplace
  · subst hplace
    cases hp
    rw [if_pos rfl] at ha
    exact ⟨by omega, Option.some.inj ha⟩
  · next hnot =>
      have hne : e.hiF1 ≠ t := fun h => hnot (Or.inr h)
      rw [if_neg hne] at ha
      split at hplace
      · subst hplace
        cases hp
        rw [if_pos rfl] at ha
        exact ⟨by omega, Option.some.inj ha⟩
      · next hnot' =>
          have hne' : e.hiF2 ≠ t := fun h => hnot' (Or.inr h)
          rw [if_neg hne'] at ha
          cases ha

/-- The average in a flow's slot is computed from the values of `global` that its packets meet,
the first one left out. -/
theorem slotAvg_eq_foldl {bursts : List (Fin n × List Hash)} {h : Hash} {a : ℚ}
    (hzero : (0 : Tag) ∉ bucketTags (indexL h) (received bursts)) (hmem : h ∈ received bursts)
    (ha : slotAvg ((doubleHash doubleHashIpg bursts).table (indexL h)) (indexH h) = some a) :
    a = ((((met .before (0 : Fin n → BitVec 64) bursts).filter (·.2 = h)).map Prod.fst).tail.foldl
      slotHit (1, ⟨0, 0⟩)).2.avg := by
  have hsnd := map_snd_met .before (0 : Fin n → BitVec 64) bursts
  let ipg' := DoubleHash.listIpg doubleHashIpg
  -- the slots are those of a `hash_list` bucket, whose entries have a history
  have hslots := DoubleHash.toSlots_recordAll doubleHashIpg 1 (met .before 0 bursts) (indexL h)
  rw [doubleHash, table_foldl_burst] at ha
  have hentries := entries_recordAll ipg' (met .before 0 bursts)
    (fun _ => HashList.PktCount.init ipg' 1) (indexL h)
  obtain ⟨pre, x, post, hsplit, rfl, hpre, hown⟩ := exists_first_packet (hsnd ▸ hmem)
  have hne : ∀ y ∈ pre ++ x :: post, indexH y.2 ≠ 0 := by
    intro y hy h0
    rw [← hsplit] at hy
    obtain ⟨hy, hb⟩ := List.mem_filter.mp hy
    apply hzero
    rw [← h0, ← of_decide_eq_true hb]
    apply List.mem_map_of_mem
    exact List.mem_filter.mpr ⟨hsnd ▸ List.mem_map_of_mem hy, by simp⟩
  have hx := hne x (by simp)
  obtain ⟨hload, howns⟩ := getElem?_records (fun p : BitVec 64 × Hash => indexH p.2)
    (fun p => HashList.loadUpdate ipg' p.1 (indexH p.2)) (1, ipg'.zero) pre x post
    (HashList.PktCount.init ipg' 1).entries hx
  rw [hsplit] at hentries
  rw [← hentries] at hload howns
  obtain ⟨hp, rfl⟩ := slotAvg_of_owns hslots howns hload ha
  have hfold : ∀ (l : BitVec 32 × SlotStats) (ys : List (BitVec 64 × Hash)) {p : Nat}, p < 2 →
      ys.foldl (fun l y => HashList.loadUpdate ipg' y.1 (indexH y.2) p (indexH x.2, l)) l =
        (ys.map Prod.fst).foldl slotHit l := by
    intro l ys p hp
    rw [List.foldl_map]
    simp only [ipg', loadUpdate_slot hx _ hp]
  rw [firstLoad_slot (fun y hy => hne y (by simp [hy])) hx hpre hp, hfold _ _ hp, hown,
    List.map_cons, List.tail_cons]

/-- **The average in a flow's slot**: the packets before the burst with its last packet, less the
earlier packets of the flow itself, over the number of its packets. -/
theorem avg_eq {bursts : List (Fin n × List Hash)} {h : Hash} {a : ℚ}
    (hlen : (received bursts).length < 2 ^ 32)
    (hzero : (0 : Tag) ∉ bucketTags (indexL h) (received bursts))
    (hm : 2 ≤ (received bursts).count h)
    (ha : slotAvg ((doubleHash doubleHashIpg bursts).table (indexL h)) (indexH h) = some a) :
    a * (received bursts).count h =
      lastBurstStart h bursts - (((received bursts).count h : ℚ) - 1) := by
  have hmem : h ∈ received bursts := List.count_pos_iff.mp (by omega)
  have hmet : met .before (0 : Fin n → BitVec 64) bursts =
      (burstStarts 0 bursts).map fun p : Nat × Hash => ((p.1 : BitVec 64), p.2) :=
    met_before 0 0 (by simp) bursts
  have hglobals : ((met .before (0 : Fin n → BitVec 64) bursts).filter (·.2 = h)).map Prod.fst =
      (((burstStarts 0 bursts).filter (·.2 = h)).map Prod.fst).map
        fun G : Nat => (G : BitVec 64) := by
    rw [hmet, List.filter_map, List.map_map, List.map_map]
    rfl
  have hcount := length_filter_burstStarts h bursts
  have hbound : ∀ G ∈ ((burstStarts 0 bursts).filter (·.2 = h)).map Prod.fst, G < 2 ^ 32 := by
    intro G hG
    obtain ⟨p, hp, rfl⟩ := List.mem_map.mp hG
    have := burstStarts_le (List.mem_of_mem_filter hp)
    omega
  -- from here on only the burst starts of the flow matter, and the sum of their gaps telescopes
  rw [slotAvg_eq_foldl hzero hmem ha, hglobals, lastBurstStart]
  rw [← List.length_map (f := Prod.fst)] at hcount
  generalize ((burstStarts 0 bursts).filter (·.2 = h)).map Prod.fst = Gs at hcount hbound ⊢
  match Gs with
  | [] => simp at hcount; omega
  | G :: Gs =>
      have hle := List.count_le_length (a := h) (l := received bursts)
      have hlen' : (G :: Gs).length = Gs.length + 1 := List.length_cons
      have hne : Gs ≠ [] := List.ne_nil_of_length_pos (by omega)
      have htel := foldl_slotHit Gs (fun G' hG' => hbound G' (List.mem_cons_of_mem G hG')) 1
        (by omega) (1, ⟨0, 0⟩) rfl (by decide) (by norm_num)
      have hlast : (G :: Gs).getLastD 0 = Gs.getLastD 0 := by
        rw [List.getLastD_cons]
        cases Gs with
        | nil => exact absurd rfl hne
        | cons G' Gs => rw [List.getLastD_cons, List.getLastD_cons]
      rw [List.map_cons, List.tail_cons, hlast, ← hcount, hlen']
      push_cast at htel ⊢
      rw [add_comm (Gs.length : ℚ)]
      exact htel

/-- **When `double_hash` computes the burstiness of a flow.** With `m` packets of the flow, the
first and the last of them at positions `i` and `j`, and `G` packets before the burst with the
last: when `(m - 1) (G - (m - 1)) = m (j - i - (m - 1))`. -/
theorem avg_eq_burstiness_iff (bursts : List (Fin n × List Hash)) (h : Hash) (a : ℚ)
    (hlen : (received bursts).length < 2 ^ 32)
    (hzero : (0 : Tag) ∉ bucketTags (indexL h) (received bursts))
    (hm : 2 ≤ (received bursts).count h)
    (ha : slotAvg ((doubleHash doubleHashIpg bursts).table (indexL h)) (indexH h) = some a) :
    let m : ℚ := (received bursts).count h
    let i : ℚ := (positions h (received bursts)).headD 0
    let j : ℚ := (positions h (received bursts)).getLastD 0
    let G : ℚ := lastBurstStart h bursts
    a = burstiness h (received bursts) ↔ (m - 1) * (G - (m - 1)) = m * (j - i - (m - 1)) := by
  intro m i j G
  have havg : a * m = G - (m - 1) := avg_eq hlen hzero hm ha
  have hb : burstiness h (received bursts) = (j - i - (m - 1)) / (m - 1) :=
    burstiness_eq h (received bursts) hm
  have hm2 : (2 : ℚ) ≤ ((received bursts).count h : ℚ) := by exact_mod_cast hm
  have hm0 : m ≠ 0 := (zero_lt_two.trans_le hm2).ne'
  have hm1 : m - 1 ≠ 0 := (sub_pos.mpr (one_lt_two.trans_le hm2)).ne'
  rw [hb, eq_div_iff hm1, ← havg]
  constructor
  · intro heq
    rw [← heq]
    ring
  · intro heq
    apply mul_left_cancel₀ hm0
    rw [← heq]
    ring

/-- A flow with two packets, one burst each, and a packet of another flow in between. -/
def threeBursts : List (Fin 1 × List Hash) :=
  [(0, [0x00010000#32]), (0, [0x00020000#32]), (0, [0x00010000#32])]

theorem slotAvg_threeBursts :
    slotAvg ((doubleHash doubleHashIpg threeBursts).table (indexL 0x00010000#32))
      (indexH 0x00010000#32) = some (1 / 2) := by
  decide +kernel

theorem avg_eq_burstiness_iff_three_bursts :
    let m : ℚ := (received threeBursts).count 0x00010000#32
    let i : ℚ := (positions 0x00010000#32 (received threeBursts)).headD 0
    let j : ℚ := (positions 0x00010000#32 (received threeBursts)).getLastD 0
    let G : ℚ := lastBurstStart 0x00010000#32 threeBursts
    1 / 2 = burstiness 0x00010000#32 (received threeBursts) ↔
      (m - 1) * (G - (m - 1)) = m * (j - i - (m - 1)) :=
  avg_eq_burstiness_iff threeBursts 0x00010000#32 (1 / 2) (by decide) (by decide) (by decide)
    slotAvg_threeBursts

/-- The slot says one half where there was one packet of another flow between the two. -/
theorem avg_ne_burstiness_three_bursts :
    slotAvg ((doubleHash doubleHashIpg threeBursts).table (indexL 0x00010000#32))
      (indexH 0x00010000#32) ≠ some (burstiness 0x00010000#32 (received threeBursts)) := by
  have hb : burstiness 0x00010000#32 (received threeBursts) = 1 := by decide +kernel
  rw [slotAvg_threeBursts, hb]
  decide +kernel

end RunToCompletion
end FloWatcher
