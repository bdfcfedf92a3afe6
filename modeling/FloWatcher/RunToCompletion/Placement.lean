import FloWatcher.RunToCompletion.Ipg

/-!
# Does it matter where `hash_list` keeps a flow?

The same measurement is coded separately for the slots, for an entry of the chain that is hit, for
an entry of the chain that is claimed and for one that is allocated online. What a flow's entry
goes through (`statsFrom`) depends on the place where its first packet is recorded: only the slots
remember the packet before and keep a quantile state, and an entry that is claimed starts from the
first packet while the others start from `0`. `flowStats_eq_iff` says for which places two runs
with the same `global`s and counters agree.
-/

namespace FloWatcher
namespace RunToCompletion

open FirstFit Loop

variable {n n₁ n₂ : Nat}

/-! ## What is recorded about a flow -/

def measurements (quantile : Option Quantile.Percentile) (h : Hash) :
    List (BitVec 64 × Hash) → (Bucket → HashList.PktCount 32 EntryStats) →
      List (Option (BitVec 32 × EntryStats))
  | [], _ => []
  | p :: ps, T =>
      let T' := recordAll (HashList.packet (hashListIpg quantile)) [p] T
      if p.2 = h then
        lookup (indexH h) (T' (indexL h)).entries :: measurements quantile h ps T'
      else
        measurements quantile h ps T'

def flowGlobals (h : Hash) (bursts : List (Fin n × List Hash)) : List (BitVec 64) :=
  ((met .before 0 bursts).filter (·.2 = h)).map Prod.fst

def freshTable (quantile : Option Quantile.Percentile) :
    Bucket → HashList.PktCount 32 EntryStats :=
  fun _ => HashList.PktCount.init (hashListIpg quantile) HashList.entryPerFlow

def flowCounts (quantile : Option Quantile.Percentile) (h : Hash)
    (bursts : List (Fin n × List Hash)) : List (Option (BitVec 32)) :=
  (measurements quantile h (met .before 0 bursts) (freshTable quantile)).map (Option.map Prod.fst)

def flowStats (quantile : Option Quantile.Percentile) (h : Hash)
    (bursts : List (Fin n × List Hash)) : List (Option EntryStats) :=
  (measurements quantile h (met .before 0 bursts) (freshTable quantile)).map (Option.map Prod.snd)

/-! ## Where a flow is kept -/

/-- The places for a flow: one of the slots, an entry of the chain that was there (with the
standard deviation that tag-`0` packets may have left in it), or a new entry. -/
inductive Place where
  | slot
  | claimed (stdDev : ℚ)
  | online
  deriving DecidableEq

/-- The place that a bucket gives to a tag it does not hold yet. -/
def placeIn (t : Tag) (es : List (Tag × BitVec 32 × EntryStats)) : Place :=
  if place t es < 2 then .slot
  else
    match es[place t es]? with
    | some e => .claimed e.2.2.stdDev
    | none => .online

/-- The place of flow `h`, from the table before its first packet. -/
def firstPlace (quantile : Option Quantile.Percentile) (h : Hash)
    (bursts : List (Fin n × List Hash)) : Place :=
  let before := (met .before 0 bursts).takeWhile (·.2 ≠ h)
  placeIn (indexH h)
    (recordAll (HashList.packet (hashListIpg quantile)) before (freshTable quantile)
      (indexL h)).entries

/-! ## What a place makes of the packets of a flow -/

section Places

variable (quantile : Option Quantile.Percentile)

/-- The fields after the first packet. -/
def firstStats (place : Place) (global : BitVec 64) : EntryStats :=
  match place with
  | .slot => (hashListIpg quantile).slot.init
  | .claimed stdDev =>
      { ipg := global, avg := (gap global 0).toNat, stdDev := stdDev
        qt := (hashListIpg quantile).zero.qt }
  | .online => (hashListIpg quantile).zero

def nextStats (place : Place) (global : BitVec 64) (ctr : BitVec 32) (s : EntryStats) :
    EntryStats :=
  match place with
  | .slot => (hashListIpg quantile).slot.hit 0 global ctr s
  | .claimed _ | .online => (hashListIpg quantile).hit global ctr s

def laterStats (place : Place) : EntryStats → List (BitVec 64 × BitVec 32) → List EntryStats
  | _, [] => []
  | s, p :: ps =>
      nextStats quantile place p.1 p.2 s :: laterStats place (nextStats quantile place p.1 p.2 s) ps

def statsFrom (place : Place) : List (BitVec 64 × BitVec 32) → List EntryStats
  | [] => []
  | p :: ps =>
      firstStats quantile place p.1 :: laterStats quantile place (firstStats quantile place p.1) ps

/-! ### Comparing places -/

/-- Two places measure a flow with these `global`s in the same way. -/
def SameMeasure (globals : List (BitVec 64)) : Place → Place → Prop
  | .slot, .slot | .online, .online => True
  | .claimed stdDev, .claimed stdDev' => stdDev = stdDev'
  | .slot, .online | .online, .slot => quantile = none ∧ ∀ g ∈ globals.tail, g = 0
  | .claimed _, .slot | .claimed _, .online | .slot, .claimed _ | .online, .claimed _ => False

/-- An entry that was claimed has measured its first packet, the others have not. -/
theorem firstStats_claimed_ne (stdDev : ℚ) {g : BitVec 64} {s : EntryStats} (hipg : s.ipg = 0)
    (havg : s.avg = 0) : firstStats quantile (.claimed stdDev) g ≠ s := by
  rintro rfl
  have hg : g = 0 := hipg
  have hgap : ((gap g 0).toNat : ℚ) = 0 := havg
  rw [hg] at hgap
  exact absurd hgap (by decide +kernel)

/-- Without a quantile state a slot and a new entry start alike, but only the slot moves on with
`global`. -/
theorem laterStats_slot_eq_online_iff {s : EntryStats} (hipg : s.ipg = 0) (hqt : s.qt = none)
    (ps : List (BitVec 64 × BitVec 32)) :
    laterStats none .slot s ps = laterStats none .online s ps ↔ ∀ g ∈ ps.map Prod.fst, g = 0 := by
  induction ps generalizing s with
  | nil => simp [laterStats]
  | cons p ps ih =>
      have honline : nextStats none .online p.1 p.2 s = s.measure p.2 (gap p.1 s.ipg) := rfl
      have hslot : nextStats none .slot p.1 p.2 s =
          { s.measure p.2 (gap p.1 s.ipg) with ipg := p.1, qt := none } := rfl
      have hnext : laterStats none .slot (nextStats none .online p.1 p.2 s) ps =
          laterStats none .online (nextStats none .online p.1 p.2 s) ps ↔
            ∀ g ∈ ps.map Prod.fst, g = 0 := by
        apply ih
        · exact hipg
        · exact hqt
      rw [laterStats, laterStats, List.cons_eq_cons, List.map_cons, List.forall_mem_cons]
      constructor
      · rintro ⟨hhead, htail⟩
        have hg : p.1 = 0 := by
          rw [hslot, honline] at hhead
          exact (congrArg EntryStats.ipg hhead).trans hipg
        rw [hhead] at htail
        exact ⟨hg, hnext.mp htail⟩
      · rintro ⟨hg, hps⟩
        have hhead : nextStats none .slot p.1 p.2 s = nextStats none .online p.1 p.2 s := by
          rw [hslot, honline, hg, ← hipg, ← hqt]
          rfl
        rw [hhead]
        exact ⟨rfl, hnext.mpr hps⟩

theorem statsFrom_slot_eq_online_iff (p : BitVec 64 × BitVec 32) (ps : List (BitVec 64 × BitVec 32)) :
    statsFrom quantile .slot (p :: ps) = statsFrom quantile .online (p :: ps) ↔
      quantile = none ∧ ∀ g ∈ ps.map Prod.fst, g = 0 := by
  rw [statsFrom, statsFrom, List.cons_eq_cons]
  cases quantile with
  | none =>
      have hfirst : firstStats none .slot p.1 = firstStats none .online p.1 := rfl
      rw [hfirst]
      have hlater := laterStats_slot_eq_online_iff (s := firstStats none .online p.1) rfl rfl ps
      exact ⟨fun h => ⟨rfl, hlater.mp h.2⟩, fun h => ⟨rfl, hlater.mpr h.2⟩⟩
  | some P =>
      constructor
      · rintro ⟨hhead, -⟩
        have hqt := Option.some.inj (congrArg EntryStats.qt hhead)
        have hn : (1 : Int) = 0 := congrFun (congrArg Quantile.n hqt) 0
        exact absurd hn (by decide)
      · rintro ⟨h, -⟩
        cases h

/-- **Which places measure alike.** -/
theorem statsFrom_eq_iff (place place' : Place) (p : BitVec 64 × BitVec 32)
    (ps : List (BitVec 64 × BitVec 32)) :
    statsFrom quantile place (p :: ps) = statsFrom quantile place' (p :: ps) ↔
      SameMeasure quantile ((p :: ps).map Prod.fst) place place' := by
  have hslot := statsFrom_slot_eq_online_iff quantile p ps
  have hclaimed : ∀ stdDev s, s.ipg = 0 → s.avg = 0 → ∀ ss,
      ¬ statsFrom quantile (.claimed stdDev) (p :: ps) = s :: ss := by
    intro stdDev s hipg havg ss h
    exact firstStats_claimed_ne quantile stdDev hipg havg (List.cons.inj h).1
  match place, place' with
  | .slot, .slot => exact iff_of_true rfl trivial
  | .online, .online => exact iff_of_true rfl trivial
  | .slot, .online => exact hslot
  | .online, .slot => exact eq_comm.trans hslot
  | .claimed stdDev, .slot => exact iff_of_false (hclaimed stdDev _ rfl rfl _) id
  | .claimed stdDev, .online => exact iff_of_false (hclaimed stdDev _ rfl rfl _) id
  | .slot, .claimed stdDev => exact iff_of_false (fun h => hclaimed stdDev _ rfl rfl _ h.symm) id
  | .online, .claimed stdDev => exact iff_of_false (fun h => hclaimed stdDev _ rfl rfl _ h.symm) id
  | .claimed stdDev, .claimed stdDev' =>
      constructor
      · intro h
        exact congrArg EntryStats.stdDev (List.cons.inj h).1
      · rintro rfl
        rfl

end Places

/-! ## Runs -/

section Runs

variable (quantile : Option Quantile.Percentile)

def update (p : BitVec 64 × Hash) :
    Nat → Tag × BitVec 32 × EntryStats → BitVec 32 × EntryStats :=
  HashList.loadUpdate (hashListIpg quantile) p.1 (indexH p.2)

/-- The measurements of a flow are those of its tag in its bucket. -/
theorem measurements_eq_observed (h : Hash) (ps : List (BitVec 64 × Hash))
    (T : Bucket → HashList.PktCount 32 EntryStats) :
    measurements quantile h ps T =
      observed (fun p => indexH p.2) (update quantile) (1, (hashListIpg quantile).zero) (indexH h)
        (ps.filter (indexL ·.2 = indexL h)) (T (indexL h)).entries := by
  induction ps generalizing T with
  | nil => rfl
  | cons p ps ih =>
      have hentries := entries_recordAll (hashListIpg quantile) [p] T (indexL h)
      rw [measurements, ih]
      rcases eq_or_ne (indexL p.2) (indexL h) with hl | hl
      · have hstep : (recordAll (HashList.packet (hashListIpg quantile)) [p] T (indexL h)).entries =
            record (indexH p.2) (update quantile p) (1, (hashListIpg quantile).zero)
              (T (indexL h)).entries := by
          rw [hentries, List.filter_cons_of_pos (by simpa using hl)]
          rfl
        rw [List.filter_cons_of_pos (by simpa using hl), observed, hstep]
        rcases eq_or_ne (indexH p.2) (indexH h) with hh | hh
        · rw [if_pos (hash_ext p.2 h hl hh), if_pos hh]
        · rw [if_neg fun hp => hh (congrArg indexH hp), if_neg hh]
      · have hframe : (recordAll (HashList.packet (hashListIpg quantile)) [p] T (indexL h)).entries =
            (T (indexL h)).entries := by
          rw [hentries, List.filter_cons_of_neg (by simpa using hl)]
          rfl
        rw [List.filter_cons_of_neg (by simpa using hl), hframe,
          if_neg fun hp => hl (congrArg indexL hp)]

/-- Free entries are as they were initialised, apart from what tag-`0` packets do to counter,
average and standard deviation of a free entry of the chain. -/
def FreeLoad (i : Nat) (l : BitVec 32 × EntryStats) : Prop :=
  (i < 2 → l.2 = (hashListIpg quantile).slot.init) ∧
    (2 ≤ i → l.2.ipg = 0 ∧ l.2.qt = (hashListIpg quantile).zero.qt)

theorem freeLoad_update {p : BitVec 64 × Hash} (h0 : indexH p.2 = 0) (i : Nat)
    (l : BitVec 32 × EntryStats) (h : FreeLoad quantile i l) :
    FreeLoad quantile i (update quantile p i (0, l)) := by
  obtain ⟨hslot, hchain⟩ := h
  match i with
  | 0 =>
      refine ⟨fun _ => ?_, fun hi => absurd hi (by decide)⟩
      show (hashListIpg quantile).slot.start l.2 = _
      rw [hslot (by decide)]
      rfl
  | 1 =>
      refine ⟨fun _ => ?_, fun hi => absurd hi (by decide)⟩
      show (hashListIpg quantile).slot.start l.2 = _
      rw [hslot (by decide)]
      rfl
  | i + 2 =>
      refine ⟨fun hi => absurd hi (by omega), fun hi => ?_⟩
      have hhit : (update quantile p (i + 2) (0, l)).2 =
          (hashListIpg quantile).hit p.1 (l.1 + 1) l.2 := by
        show (if (0 : Tag) = indexH p.2 then _ else _) = _
        rw [if_pos h0.symm]
      rw [hhit]
      exact hchain hi

theorem freeLoad_records (xs : List (BitVec 64 × Hash)) :
    ∀ i l, (records (fun p => indexH p.2) (update quantile) (1, (hashListIpg quantile).zero) xs
      (HashList.PktCount.init (hashListIpg quantile) 1).entries)[i]? = some (0, l) →
        FreeLoad quantile i l := by
  apply free_records
  · intro p _ h0 i l h
    exact freeLoad_update quantile h0 i l h
  · intro i hi
    exact ⟨fun hlt => absurd (show 3 ≤ i from hi) (by omega), fun _ => ⟨rfl, rfl⟩⟩
  · intro i l hil
    match i, hil with
    | 0, rfl => exact ⟨fun _ => rfl, fun hi => absurd hi (by decide)⟩
    | 1, rfl => exact ⟨fun _ => rfl, fun hi => absurd hi (by decide)⟩
    | 2, rfl => exact ⟨fun hi => absurd hi (by decide), fun _ => ⟨rfl, rfl⟩⟩

/-- The loads of a flow's entry carry the fields that its place makes of its packets. -/
theorem loads_snd {h : Hash} (h0 : indexH h ≠ 0) {p : Nat} {place : Place}
    (hplace : place = .slot ↔ p < 2) (ys : List (BitVec 64 × Hash))
    (hys : ∀ y ∈ ys, indexH y.2 = indexH h) (l : BitVec 32 × EntryStats) :
    (loads (update quantile) (indexH h) p l ys).map Prod.snd =
      laterStats quantile place l.2
        ((ys.map Prod.fst).zip ((loads (update quantile) (indexH h) p l ys).map Prod.fst)) := by
  induction ys generalizing l with
  | nil => rfl
  | cons y ys ih =>
      have hy := hys y (List.mem_cons_self ..)
      have hnext : (update quantile y p (indexH h, l)).2 =
          nextStats quantile place y.1 (l.1 + 1) l.2 := by
        match p, place, hplace with
        | 0, .slot, _ => exact if_neg h0
        | 1, .slot, _ => exact if_neg h0
        | 0, .online, hp => cases hp.mpr (by decide)
        | 0, .claimed _, hp => cases hp.mpr (by decide)
        | 1, .online, hp => cases hp.mpr (by decide)
        | 1, .claimed _, hp => cases hp.mpr (by decide)
        | p + 2, .slot, hp => exact absurd (hp.mp rfl) (by omega)
        | p + 2, .online, _ => exact if_pos hy.symm
        | p + 2, .claimed _, _ => exact if_pos hy.symm
      rw [loads, List.map_cons, List.map_cons, List.map_cons, List.zip_cons_cons, laterStats,
        ih fun z hz => hys z (List.mem_cons_of_mem y hz)]
      rw [hnext]
      rfl

/-- The first packet of a flow makes of a free entry what its place says. -/
theorem firstLoad_snd {x : BitVec 64 × Hash} (h0 : indexH x.2 ≠ 0)
    {es : List (Tag × BitVec 32 × EntryStats)} (hlen : 3 ≤ es.length)
    (hes : ∀ e ∈ es, e.1 ≠ indexH x.2) (hfree : ∀ i l, es[i]? = some (0, l) → FreeLoad quantile i l) :
    (firstLoad (update quantile) (1, (hashListIpg quantile).zero) x (place (indexH x.2) es) es).2 =
      firstStats quantile (placeIn (indexH x.2) es) x.1 := by
  have hplace := free_at_place hes
  unfold placeIn
  generalize place (indexH x.2) es = p at hplace ⊢
  rcases hplace with hnone | ⟨l, hl⟩
  · have hle := List.getElem?_eq_none_iff.mp hnone
    rw [if_neg (by omega), hnone, firstLoad, hnone]
    rfl
  · obtain ⟨hslot, hchain⟩ := hfree p l hl
    rw [firstLoad, hl]
    match p, hslot, hchain with
    | 0, hslot, _ =>
        show (hashListIpg quantile).slot.start l.2 = (hashListIpg quantile).slot.init
        rw [hslot (by decide)]
        rfl
    | 1, hslot, _ =>
        show (hashListIpg quantile).slot.start l.2 = (hashListIpg quantile).slot.init
        rw [hslot (by decide)]
        rfl
    | p + 2, _, hchain =>
        obtain ⟨hipg, hqt⟩ := hchain (by omega)
        have hclaim : (update quantile x (p + 2) (0, l)).2 =
            (hashListIpg quantile).claim x.1 l.2 := if_neg (Ne.symm h0)
        rw [if_neg (by omega)]
        show (update quantile x (p + 2) (0, l)).2 = firstStats quantile (.claimed l.2.stdDev) x.1
        rw [hclaim, firstStats, ← hqt, ← hipg]
        rfl

theorem length_loads (t : Tag) (p : Nat) (l : BitVec 32 × EntryStats)
    (ys : List (BitVec 64 × Hash)) : (loads (update quantile) t p l ys).length = ys.length := by
  induction ys generalizing l with
  | nil => rfl
  | cons y ys ih => rw [loads, List.length_cons, List.length_cons, ih]

theorem entries_init (e : Tag × BitVec 32 × EntryStats)
    (he : e ∈ (HashList.PktCount.init (hashListIpg quantile) 1).entries) : e.1 = 0 := by
  rw [show (HashList.PktCount.init (hashListIpg quantile) 1).entries =
    [(0, 0, (hashListIpg quantile).slot.init), (0, 0, (hashListIpg quantile).slot.init),
      (0, 0, (hashListIpg quantile).zero)] from rfl] at he
  simp only [List.mem_cons, List.not_mem_nil, or_false] at he
  rcases he with rfl | rfl | rfl <;> rfl

/-- What the first packet of a flow finds in a fresh bucket, and makes of it. -/
theorem firstLoad_records {x : BitVec 64 × Hash} (h0 : indexH x.2 ≠ 0)
    {pre : List (BitVec 64 × Hash)} (hpre : ∀ y ∈ pre, indexH y.2 ≠ indexH x.2) :
    let es₀ := (HashList.PktCount.init (hashListIpg quantile) 1).entries
    let new := (1, (hashListIpg quantile).zero)
    let es₁ := records (fun p => indexH p.2) (update quantile) new pre es₀
    (firstLoad (update quantile) new x (place (indexH x.2) es₁) es₁).2 =
      firstStats quantile (placeIn (indexH x.2) es₁) x.1 := by
  intro es₀ new es₁
  have htags : ∀ e ∈ es₁, e.1 ≠ indexH x.2 := by
    apply tag_ne_records hpre
    intro e he
    rw [entries_init quantile e he]
    exact h0.symm
  exact firstLoad_snd quantile h0 (length_le_records _ (update quantile) new pre es₀) htags
    (freeLoad_records quantile pre)

/-- The same, of the packets of a bucket. -/
theorem observed_eq_statsFrom {x : BitVec 64 × Hash} (h0 : indexH x.2 ≠ 0)
    {pre : List (BitVec 64 × Hash)} (hpre : ∀ y ∈ pre, indexH y.2 ≠ indexH x.2)
    (post : List (BitVec 64 × Hash)) :
    let es₀ := (HashList.PktCount.init (hashListIpg quantile) 1).entries
    let new := (1, (hashListIpg quantile).zero)
    let es₁ := records (fun p => indexH p.2) (update quantile) new pre es₀
    let own := x :: post.filter (fun p => indexH p.2 = indexH x.2)
    ∃ ls : List (BitVec 32 × EntryStats),
      observed (fun p => indexH p.2) (update quantile) new (indexH x.2) (pre ++ x :: post) es₀ =
        ls.map some ∧
      ls.length = own.length ∧
      ls.map Prod.snd = statsFrom quantile (placeIn (indexH x.2) es₁)
        ((own.map Prod.fst).zip (ls.map Prod.fst)) := by
  intro es₀ new es₁ own
  have hfirst := firstLoad_records quantile h0 hpre
  have hobs := observed_records (fun p : BitVec 64 × Hash => indexH p.2) (update quantile) new pre x
    post es₀ h0 hpre
  refine ⟨_, hobs, ?_, ?_⟩
  · rw [List.length_cons, length_loads]
    rfl
  · have hplace : placeIn (indexH x.2) es₁ = .slot ↔ place (indexH x.2) es₁ < 2 := by
      unfold placeIn
      split
      · next hlt => exact iff_of_true rfl hlt
      · next hge =>
          refine iff_of_false ?_ hge
          cases es₁[place (indexH x.2) es₁]? <;> exact Place.noConfusion
    have hown : ∀ y ∈ post.filter (fun p => indexH p.2 = indexH x.2), indexH y.2 = indexH x.2 := by
      intro y hy
      simpa using (List.mem_filter.mp hy).2
    rw [List.map_cons, loads_snd quantile h0 hplace _ hown, hfirst]
    rfl

/-- **The statistics of a flow during a run** are what its place makes of the values of `global`
and of the counters that its packets meet. -/
theorem flowStats_eq_statsFrom {h : Hash} (h0 : indexH h ≠ 0) (bursts : List (Fin n × List Hash)) :
    ∃ counts : List (BitVec 32), flowCounts quantile h bursts = counts.map some ∧
      counts.length = (flowGlobals h bursts).length ∧
      flowStats quantile h bursts =
        (statsFrom quantile (firstPlace quantile h bursts)
          ((flowGlobals h bursts).zip counts)).map some := by
  have hfresh : (freshTable quantile (indexL h)).entries =
      (HashList.PktCount.init (hashListIpg quantile) 1).entries := rfl
  rw [flowCounts, flowStats, measurements_eq_observed, hfresh, flowGlobals, firstPlace,
    entries_recordAll, hfresh, ← filter_flow]
  generalize met .before (0 : Fin n → BitVec 64) bursts = ps
  rcases em (∃ p ∈ ps, p.2 = h) with hex | hnone
  · obtain ⟨pre, x, post, rfl, rfl, hpre⟩ := exists_first Prod.snd hex
    have htake : (pre ++ x :: post).takeWhile (·.2 ≠ x.2) = pre := by
      rw [List.takeWhile_append_of_pos (by simpa using hpre), List.takeWhile_cons_of_neg (by simp),
        List.append_nil]
    have hbucket : (pre ++ x :: post).filter (indexL ·.2 = indexL x.2) =
        pre.filter (indexL ·.2 = indexL x.2) ++ x :: post.filter (indexL ·.2 = indexL x.2) := by
      rw [List.filter_append, List.filter_cons_of_pos (by simp)]
    have hpre' : ∀ y ∈ pre.filter (indexL ·.2 = indexL x.2), indexH y.2 ≠ indexH x.2 := by
      intro y hy hh
      obtain ⟨hy, hl⟩ := List.mem_filter.mp hy
      exact hpre y hy (hash_ext y.2 x.2 (of_decide_eq_true hl) hh)
    -- nothing before the first packet has the tag of the flow in its bucket
    have hnone : (pre.filter (indexL ·.2 = indexL x.2)).filter
        (fun p => indexH p.2 = indexH x.2) = [] := by
      apply List.filter_eq_nil_iff.mpr
      intro y hy
      simpa using hpre' y hy
    obtain ⟨ls, hobs, hlen, hstats⟩ := observed_eq_statsFrom quantile h0 hpre'
      (post.filter (indexL ·.2 = indexL x.2))
    rw [htake, hbucket, hobs, List.filter_append, hnone, List.nil_append,
      List.filter_cons_of_pos (by simp)]
    refine ⟨ls.map Prod.fst, ?_, ?_, ?_⟩
    · simp [Function.comp_def]
    · rw [List.length_map, List.length_map, hlen]
    · have hmap : (ls.map some).map (Option.map Prod.snd) = (ls.map Prod.snd).map some := by
        simp [Function.comp_def]
      rw [hmap, hstats]
      rfl
  -- no packet of the flow: both sides are empty
  · have hfilter : ps.filter (·.2 = h) = [] := by
      apply List.filter_eq_nil_iff.mpr
      intro p hp
      simpa using fun hph => hnone ⟨p, hp, hph⟩
    have hne : ∀ y ∈ ps.filter (indexL ·.2 = indexL h), indexH y.2 ≠ indexH h := by
      intro y hy hh
      obtain ⟨hy, hl⟩ := List.mem_filter.mp hy
      exact hnone ⟨y, hy, hash_ext y.2 h (of_decide_eq_true hl) hh⟩
    have hobs : observed (fun p => indexH p.2) (update quantile) (1, (hashListIpg quantile).zero)
        (indexH h) (ps.filter (indexL ·.2 = indexL h))
        (HashList.PktCount.init (hashListIpg quantile) 1).entries = [] := by
      rw [← List.append_nil (ps.filter (indexL ·.2 = indexL h)), observed_append _ [] _ hne]
      rfl
    rw [hobs, filter_flow, hfilter]
    exact ⟨[], rfl, rfl, rfl⟩

end Runs

/-- **When the place of a flow does not matter.** -/
theorem flowStats_eq_iff (quantile : Option Quantile.Percentile) (h : Hash) (h0 : indexH h ≠ 0)
    (bursts₁ : List (Fin n₁ × List Hash)) (bursts₂ : List (Fin n₂ × List Hash))
    (hglobals : flowGlobals h bursts₁ = flowGlobals h bursts₂)
    (hcounts : flowCounts quantile h bursts₁ = flowCounts quantile h bursts₂) :
    flowStats quantile h bursts₁ = flowStats quantile h bursts₂ ↔
      flowGlobals h bursts₁ = [] ∨
        SameMeasure quantile (flowGlobals h bursts₁) (firstPlace quantile h bursts₁)
          (firstPlace quantile h bursts₂) := by
  obtain ⟨counts₁, hc₁, hlen, hs₁⟩ := flowStats_eq_statsFrom quantile h0 bursts₁
  obtain ⟨counts₂, hc₂, -, hs₂⟩ := flowStats_eq_statsFrom quantile h0 bursts₂
  have hsome : Function.Injective (some : BitVec 32 → _) := Option.some_injective _
  have hsome' : Function.Injective (some : EntryStats → _) := Option.some_injective _
  have hc : counts₁ = counts₂ := by
    apply List.map_injective_iff.mpr hsome
    rw [← hc₁, ← hc₂, hcounts]
  have hfst : ((flowGlobals h bursts₁).zip counts₁).map Prod.fst = flowGlobals h bursts₁ :=
    List.map_fst_zip hlen.ge
  rw [hs₁, hs₂, ← hc, ← hglobals, (List.map_injective_iff.mpr hsome').eq_iff]
  generalize (flowGlobals h bursts₁).zip counts₁ = z at hfst
  rw [← hfst]
  cases z with
  | nil => simp [statsFrom]
  | cons p ps =>
      rw [statsFrom_eq_iff]
      simp

/-- Flow `0x00010000` gets a slot: no other flow of its bucket has arrived. -/
def slotRun : List (Fin 1 × List Hash) :=
  [(0, [0x00010000#32, 0x00010001#32, 0x00010001#32, 0x00010001#32]), (0, [0x00010000#32])]

/-- Flow `0x00010000` gets a new entry: three other flows of its bucket have arrived. -/
def onlineRun : List (Fin 1 × List Hash) :=
  [(0, [0x00020000#32, 0x00030000#32, 0x00040000#32, 0x00010000#32]), (0, [0x00010000#32])]

theorem flowStats_eq_iff_slot_online :
    indexH 0x00010000#32 ≠ 0 ∧
      (flowStats none 0x00010000#32 slotRun = flowStats none 0x00010000#32 onlineRun ↔
        flowGlobals 0x00010000#32 slotRun = [] ∨
          SameMeasure none (flowGlobals 0x00010000#32 slotRun)
            (firstPlace none 0x00010000#32 slotRun) (firstPlace none 0x00010000#32 onlineRun)) :=
  ⟨by decide, flowStats_eq_iff none 0x00010000#32 (by decide) slotRun onlineRun (by decide +kernel)
    (by decide +kernel)⟩

/-- The second packet meets `global = 4` in both runs. The slot remembers it, the new entry does
not. -/
theorem flowStats_slot_ne_online :
    flowGlobals 0x00010000#32 slotRun = flowGlobals 0x00010000#32 onlineRun ∧
      flowCounts none 0x00010000#32 slotRun = flowCounts none 0x00010000#32 onlineRun ∧
      flowStats none 0x00010000#32 slotRun ≠ flowStats none 0x00010000#32 onlineRun := by
  refine ⟨by decide +kernel, by decide +kernel, fun h => ?_⟩
  have hipg := congrArg (List.map (Option.map EntryStats.ipg)) h
  exact absurd hipg (by decide +kernel)

end RunToCompletion
end FloWatcher
