import FloWatcher.Table.Branches
import FloWatcher.Table.DoubleHash

/-!
# Dividing by the counter

In a tag-match branch the running average is divided by the counter that has just been incremented.
The counter has `w` bits and the number of packets has no bound. In the layouts with two slots it is
the traffic of the bucket alone that decides which packets get to such a branch and how many packets
their counter has recorded, so it decides where the divisor is right (`divisorsRight_iff`).
-/

namespace FloWatcher

open FirstFit Loop

variable {w : Nat} {S E : Type}

/-- A flow table: what a packet does to its bucket, and the branch that it takes there, with the
divisor seen in a tag-match branch. -/
structure FlowTable (w : Nat) (E : Type) where
  init : E
  packet : BitVec 64 → Tag → E → E
  branch : Tag → E → Branch (BitVec w)

def FlowTable.after (L : FlowTable w E) (ps : List (BitVec 64 × Hash)) : Bucket → E :=
  recordAll L.packet ps fun _ => L.init

def FlowTable.branches (L : FlowTable w E) (ps : List (BitVec 64 × Hash)) (b : Bucket) :
    List (Branch (BitVec w)) :=
  trace L.packet (fun _ => L.branch) ps (fun _ => L.init) b

/-- Whenever a running average is updated, the divisor is not `0` and it is the number of packets
recorded in the counter since the start, this one included. -/
def FlowTable.DivisorsRight (L : FlowTable w E) (ps : List (BitVec 64 × Hash)) : Prop :=
  ∀ pre p post, ps = pre ++ p :: post →
    ∀ i ctr, L.branch (indexH p.2) (L.after pre (indexL p.2)) = .hit i ctr →
      ctr ≠ 0 ∧ ctr.toNat = packetsIn i (L.branches (pre ++ [p]) (indexL p.2))

/-! ## The traffic decides -/

/-- How many packets the counter of a packet with tag `t` has recorded, this one included, when the
tags `ts` have arrived in the bucket before. -/
def recordedWith (ts : List Tag) (t : Tag) : ℕ := (node ts ((arrivals ts).idxOf t) : Tag × ℕ).2 + 1

/-- The branches of a layout that tries the entries of a bucket in order and has its average in the
first entries only (`InUse`); `Hits` says which packets get to a tag-match branch. -/
structure FlowTable.ByTags (L : FlowTable w E) (InUse : ℕ → Prop) (Hits : List Tag → Tag → Prop) :
    Prop where
  counter : ∀ ps b t i, InUse i →
    ((L.branch t (L.after ps b)).counter = some i ↔
      (arrivals (bucketTags b (ps.map Prod.snd))).idxOf t = i)
  hit : ∀ ps b t i ctr,
    L.branch t (L.after ps b) = .hit i ctr ↔
      Hits (bucketTags b (ps.map Prod.snd)) t ∧
        (arrivals (bucketTags b (ps.map Prod.snd))).idxOf t = i ∧
        ctr = (recordedWith (bucketTags b (ps.map Prod.snd)) t : BitVec w)
  inUse : ∀ ts t, Hits ts t → InUse ((arrivals ts).idxOf t)

section

variable {L : FlowTable w E} {InUse : ℕ → Prop} {Hits : List Tag → Tag → Prop}

theorem bucketTags_concat (hs : List Hash) (h : Hash) (b : Bucket) :
    bucketTags b (hs ++ [h]) = bucketTags b hs ++ if indexL h = b then [indexH h] else [] := by
  unfold bucketTags
  rw [Buckets.tagsOf_append]
  congr 1
  by_cases hb : indexL h = b
  · rw [if_pos hb, ← hb, Buckets.tagsOf_cons_self]
    rfl
  · rw [if_neg hb, Buckets.tagsOf, List.filter_cons_of_neg (by simpa using hb)]
    rfl

/-- A counter has recorded the packets that first fit sends to its entry. -/
theorem FlowTable.ByTags.packetsIn_branches (hL : L.ByTags InUse Hits) {i : ℕ} (hi : InUse i)
    (ps : List (BitVec 64 × Hash)) (b : Bucket) :
    packetsIn i (L.branches ps b) = (node (bucketTags b (ps.map Prod.snd)) i : Tag × ℕ).2 := by
  induction ps using List.reverseRecOn with
  | nil =>
      simp [packetsIn, FlowTable.branches, trace, sights, bucketTags, Buckets.tagsOf, node,
        freeCount]
  | append_singleton ps p ih =>
      rw [FlowTable.branches, trace_concat, List.map_append, List.map_singleton, bucketTags_concat]
      by_cases hb : indexL p.2 = b
      · rw [if_pos hb, if_pos hb, packetsIn_concat, node_concat]
        have hcounter := hL.counter ps b (indexH p.2) i hi
        by_cases hidx : (arrivals (bucketTags b (ps.map Prod.snd))).idxOf (indexH p.2) = i
        · rw [if_pos hidx.symm, ← ih]
          exact congrArg _ (if_pos (hcounter.mpr hidx))
        · rw [if_neg (Ne.symm hidx), ← ih]
          exact congrArg _ (if_neg (hcounter.not.mpr hidx))
      · rw [if_neg hb, if_neg hb, List.append_nil, List.append_nil]
        exact ih

/-- **Where the divisor is right**: the packets that get to a tag-match branch find less than `2 ^
w` packets in their counter, themselves included. -/
theorem FlowTable.ByTags.divisorsRight_iff (hL : L.ByTags InUse Hits)
    (ps : List (BitVec 64 × Hash)) :
    L.DivisorsRight ps ↔
      ∀ pre h post, ps.map Prod.snd = pre ++ h :: post →
        Hits (bucketTags (indexL h) pre) (indexH h) →
        recordedWith (bucketTags (indexL h) pre) (indexH h) < 2 ^ w := by
  -- one packet
  have hone : ∀ (pre : List (BitVec 64 × Hash)) (p : BitVec 64 × Hash),
      Hits (bucketTags (indexL p.2) (pre.map Prod.snd)) (indexH p.2) →
      let r := recordedWith (bucketTags (indexL p.2) (pre.map Prod.snd)) (indexH p.2)
      let i := (arrivals (bucketTags (indexL p.2) (pre.map Prod.snd))).idxOf (indexH p.2)
      ((r : BitVec w) ≠ 0 ∧ (r : BitVec w).toNat =
        packetsIn i (L.branches (pre ++ [p]) (indexL p.2))) ↔ r < 2 ^ w := by
    intro pre p hhits r i
    have hin := hL.inUse _ _ hhits
    have hr : packetsIn i (L.branches (pre ++ [p]) (indexL p.2)) = r := by
      rw [hL.packetsIn_branches hin, List.map_append, List.map_singleton, bucketTags_concat,
        if_pos rfl, node_concat, if_pos rfl]
      rfl
    have hpos : 0 < r := Nat.succ_pos _
    rw [hr, BitVec.natCast_eq_ofNat, BitVec.toNat_ofNat]
    constructor
    · rintro ⟨-, hmod⟩
      rw [← hmod]
      exact Nat.mod_lt _ (Nat.two_pow_pos w)
    · intro hlt
      have hmod := Nat.mod_eq_of_lt hlt
      refine ⟨fun h0 => ?_, hmod⟩
      have hnat := congrArg BitVec.toNat h0
      rw [BitVec.toNat_ofNat, hmod] at hnat
      exact hpos.ne' hnat
  constructor
  · intro hright pre h post hsplit hhits
    obtain ⟨pre, rest, rfl, rfl, htail⟩ := List.map_eq_append_iff.mp hsplit
    obtain ⟨p, post, rfl, rfl, rfl⟩ := List.map_eq_cons_iff.mp htail
    apply (hone pre p hhits).mp
    apply hright pre p post rfl
    exact (hL.hit pre _ _ _ _).mpr ⟨hhits, rfl, rfl⟩
  · rintro hlt pre p post rfl i ctr hbranch
    obtain ⟨hhits, rfl, rfl⟩ := (hL.hit pre _ _ _ _).mp hbranch
    apply (hone pre p hhits).mpr
    apply hlt _ _ (post.map Prod.snd) ?_ hhits
    rw [List.map_append, List.map_cons]

end

/-! ## The two layouts -/

def HashList.flowTable (ipg : HashList.Ipg w S) (size : Nat) : FlowTable w (HashList.PktCount w S) where
  init := HashList.PktCount.init ipg size
  packet := HashList.packet ipg
  branch := HashList.branch fun ctr _ => ctr

/-- `DOUBLE_HASH`, where the packets behind the slots have a counter and no average. -/
def DoubleHash.flowTable (ipg : SlotIpg w S) : FlowTable w (DoubleHash.PktCount w S) where
  init := DoubleHash.PktCount.init ipg
  packet := DoubleHash.packet ipg
  branch t e := e.toSlots.branch (fun ctr _ => ctr) t

/-- A packet gets to a tag-match branch when its tag has an entry, or when it has tag `0` and the
first free entry is a node of the chain. -/
def HashList.Hits (size : Nat) (ts : List Tag) (t : Tag) : Prop :=
  t ∈ arrivals ts ∨
    t = 0 ∧ 2 ≤ (arrivals ts).length ∧
      ((arrivals ts).length < size + 2 ∨ 0 < (node ts (arrivals ts).length : Tag × ℕ).2)

theorem node_snd_cast (ts : List Tag) (i : ℕ) :
    (((node ts i : Tag × ℕ).2 : ℕ) : BitVec w) = (node ts i : Tag × BitVec w).2 := by
  unfold node
  cases (arrivals ts)[i]? with
  | some t => rfl
  | none => rfl

section Branch

variable {e : HashList.PktCount w S} {size : Nat} {ts : List Tag}

theorem recordedWith_cast (ts : List Tag) (t : Tag) : ((recordedWith ts t : ℕ) : BitVec w) =
    (node ts ((arrivals ts).idxOf t) : Tag × BitVec w).2 + 1 := by
  rw [recordedWith, Nat.cast_succ, node_snd_cast]

/-- A packet whose tag has an entry. -/
theorem HashList.branch_of_mem (h : e.counts = bumps ts (List.replicate (size + 2) (0, 0)))
    {t : Tag} (hmem : t ∈ arrivals ts) :
    HashList.branch (fun ctr _ => ctr) t e =
      .hit ((arrivals ts).idxOf t) (recordedWith ts t : BitVec w) := by
  have ht := (mem_arrivals.mp hmem).1
  have hnode : (node ts ((arrivals ts).idxOf t) : Tag × BitVec w).1 = t := by
    rw [node, List.getElem?_idxOf hmem]
  have hentry : entryAt e.counts ((arrivals ts).idxOf t) = node ts ((arrivals ts).idxOf t) := by
    rw [h, entryAt_bumps]
  have hget : e.counts[(arrivals ts).idxOf t]? = some (node ts ((arrivals ts).idxOf t)) := by
    rw [← hentry]
    apply getElem?_of_entryAt
    rw [hentry]
    exact fun h0 => ht (hnode.symm.trans (congrArg Prod.fst h0))
  have hplace : place t e.counts = (arrivals ts).idxOf t := by
    rw [h, place_bumps]
  rw [HashList.branch_eq, hplace, recordedWith_cast, hget]
  exact if_pos ⟨hnode, Or.inl ht⟩

/-- A packet whose tag has no entry gets to the first free one, and is a hit there only if its tag
is `0` and the entry is a node that exists. -/
theorem HashList.branch_of_notMem (h : e.counts = bumps ts (List.replicate (size + 2) (0, 0)))
    {t : Tag} (hmem : t ∉ arrivals ts) :
    HashList.branch (fun ctr _ => ctr) t e =
      if t = 0 ∧ 2 ≤ (arrivals ts).length ∧ (arrivals ts).length < e.counts.length then
        .hit ((arrivals ts).idxOf t) (recordedWith ts t : BitVec w)
      else .start ((arrivals ts).idxOf t) := by
  have hidx := List.idxOf_eq_length hmem
  have hnode : (node ts (arrivals ts).length : Tag × BitVec w).1 = 0 := by
    rw [node, List.getElem?_eq_none le_rfl]
  have hplace : place t e.counts = (arrivals ts).length := by
    rw [h, place_bumps, hidx]
  rw [HashList.branch_eq, hplace, recordedWith_cast, hidx]
  cases hget : e.counts[(arrivals ts).length]? with
  | none =>
      have hout := List.getElem?_eq_none_iff.mp hget
      exact (if_neg fun hhit => absurd hhit.2.2 (Nat.not_lt.mpr hout)).symm
  | some c =>
      have hin := (List.getElem?_eq_some_iff.mp hget).1
      have hc : c = node ts (arrivals ts).length := by
        rw [eq_entryAt hget, h, entryAt_bumps]
      rw [hc]
      dsimp only
      rw [hnode]
      congr 1
      apply propext
      constructor
      · rintro ⟨rfl, hhit⟩
        exact ⟨rfl, hhit.resolve_left fun hne => hne rfl, hin⟩
      · rintro ⟨rfl, htwo, -⟩
        exact ⟨rfl, Or.inr htwo⟩

theorem HashList.branch_cases (h : e.counts = bumps ts (List.replicate (size + 2) (0, 0)))
    (t : Tag) :
    (HashList.Hits size ts t ∧
      HashList.branch (fun ctr _ => ctr) t e =
        .hit ((arrivals ts).idxOf t) (recordedWith ts t : BitVec w)) ∨
    (¬ HashList.Hits size ts t ∧
      HashList.branch (fun ctr _ => ctr) t e = .start ((arrivals ts).idxOf t)) := by
  by_cases hmem : t ∈ arrivals ts
  · exact Or.inl ⟨Or.inl hmem, HashList.branch_of_mem h hmem⟩
  · have hlength : (arrivals ts).length < e.counts.length ↔
        (arrivals ts).length < size + 2 ∨ 0 < (node ts (arrivals ts).length : Tag × ℕ).2 := by
      rw [h]
      exact lt_length_bumps_iff ts (size + 2) _
    have hhits : HashList.Hits size ts t ↔
        t = 0 ∧ 2 ≤ (arrivals ts).length ∧ (arrivals ts).length < e.counts.length := by
      rw [hlength]
      exact or_iff_right hmem
    rw [HashList.branch_of_notMem h hmem]
    split
    · next hhit => exact Or.inl ⟨hhits.mpr hhit, rfl⟩
    · next hhit => exact Or.inr ⟨mt hhits.mp hhit, rfl⟩

end Branch

/-- A hit on a slot is one on an entry of the tag. -/
theorem HashList.Hits.mem_arrivals {size : Nat} {ts : List Tag} {t : Tag}
    (h : HashList.Hits size ts t) (hlt : (arrivals ts).idxOf t < 2) : t ∈ arrivals ts := by
  rcases h with hmem | ⟨rfl, hle, -⟩
  · exact hmem
  · rw [List.idxOf_eq_length fun h => (FirstFit.mem_arrivals.mp h).1 rfl] at hlt
    omega

/-- The slots take part of the branches. -/
theorem HashList.branch_slots {D : Type} (seen : BitVec w → S → D) (t : Tag)
    (e : HashList.PktCount w S) :
    (HashList.branch seen t e = e.toSlots.branch seen t ∧
      ∃ i < 2, (e.toSlots.branch seen t).counter = some i) ∨
    (e.toSlots.branch seen t = .other ∧
      ∃ i, 2 ≤ i ∧ (HashList.branch seen t e).counter = some i) := by
  unfold HashList.branch
  cases hslots : e.toSlots.branch seen t with
  | start i => exact Or.inl ⟨rfl, i, Slots.counter_lt (congrArg Branch.counter hslots), rfl⟩
  | hit i d => exact Or.inl ⟨rfl, i, Slots.counter_lt (congrArg Branch.counter hslots), rfl⟩
  | other => exact Or.inr ⟨rfl, HashList.le_counter_walkBranch seen t 2 e.flows⟩

theorem HashList.byTags (ipg : HashList.Ipg w S) {size : Nat} (hsize : 0 < size) :
    (HashList.flowTable ipg size).ByTags (fun _ => True) (HashList.Hits size) := by
  have hcounts : ∀ ps b, ((HashList.flowTable ipg size).after ps b).counts =
      bumps (bucketTags b (ps.map Prod.snd)) (List.replicate (size + 2) (0, 0)) :=
    HashList.counts_recordAll ipg hsize
  constructor
  · intro ps b t i _
    rcases HashList.branch_cases (hcounts ps b) t with ⟨-, hbranch⟩ | ⟨-, hbranch⟩
    · show (HashList.branch _ t _).counter = some i ↔ _
      rw [hbranch, Branch.counter_hit, Option.some.injEq]
    · show (HashList.branch _ t _).counter = some i ↔ _
      rw [hbranch, Branch.counter_start, Option.some.injEq]
  · intro ps b t i ctr
    show HashList.branch _ t _ = _ ↔ _
    rcases HashList.branch_cases (hcounts ps b) t with ⟨hhits, hbranch⟩ | ⟨hnot, hbranch⟩
    · rw [hbranch, Branch.hit.injEq]
      exact ⟨fun h => ⟨hhits, h.1, h.2.symm⟩, fun h => ⟨h.2.1, h.2.2.symm⟩⟩
    · rw [hbranch]
      exact ⟨fun h => (by cases h), fun h => absurd h.1 hnot⟩
  · intro ts t _
    exact trivial

/-- The first two tags of a bucket own the slots. -/
theorem mem_take_two_iff (ts : List Tag) (t : Tag) :
    t ∈ (arrivals ts).take 2 ↔ t ∈ arrivals ts ∧ (arrivals ts).idxOf t < 2 := by
  constructor
  · intro h
    have hmem := List.mem_of_mem_take h
    refine ⟨hmem, ?_⟩
    obtain ⟨i, hi, rfl⟩ := List.mem_iff_getElem.mp h
    rw [List.length_take] at hi
    rw [List.getElem_take, (nodup_arrivals ts).idxOf_getElem]
    omega
  · rintro ⟨hmem, hlt⟩
    have hidx := List.idxOf_lt_length_of_mem hmem
    apply List.mem_iff_getElem.mpr
    refine ⟨(arrivals ts).idxOf t, ?_, ?_⟩
    · rw [List.length_take]
      omega
    · rw [List.getElem_take, List.getElem_idxOf hidx]

theorem DoubleHash.byTags (ipg : SlotIpg w S) :
    (DoubleHash.flowTable ipg).ByTags (· < 2) (fun ts t => t ∈ (arrivals ts).take 2) := by
  -- the same packets in `HASH_LIST` buckets with these slots
  let list := HashList.flowTable (DoubleHash.listIpg ipg) 1
  have hlist : list.ByTags (fun _ => True) (HashList.Hits 1) := HashList.byTags _ Nat.one_pos
  have hslots : ∀ ps b,
      ((DoubleHash.flowTable ipg).after ps b).toSlots = (list.after ps b).toSlots :=
    DoubleHash.toSlots_recordAll ipg 1
  have hbranch : ∀ ps b t,
      (DoubleHash.flowTable ipg).branch t ((DoubleHash.flowTable ipg).after ps b) =
        (list.after ps b).toSlots.branch (fun ctr _ => ctr) t := by
    intro ps b t
    rw [← hslots]
    rfl
  constructor
  · intro ps b t i hi
    rw [← hlist.counter ps b t i trivial, hbranch]
    rcases HashList.branch_slots (fun ctr _ => ctr) t (list.after ps b) with
      ⟨heq, -⟩ | ⟨hother, k, hk, hcounter⟩
    · show _ ↔ (HashList.branch _ t _).counter = some i
      rw [heq]
    · show _ ↔ (HashList.branch _ t _).counter = some i
      rw [hother, hcounter, Branch.counter_other, Option.some.injEq]
      exact ⟨fun h => (by cases h), fun h => by omega⟩
  · intro ps b t i ctr
    have hhit := hlist.hit ps b t i ctr
    have hidx := hlist.counter ps b t
    rw [hbranch, mem_take_two_iff]
    rcases HashList.branch_slots (fun ctr _ => ctr) t (list.after ps b) with
      ⟨heq, k, hk, hcounter⟩ | ⟨hother, k, hk, hcounter⟩
    · rw [← heq] at hcounter ⊢
      have hidx := (hidx k trivial).mp hcounter
      rw [← hidx] at hk
      refine hhit.trans ⟨fun h => ⟨⟨h.1.mem_arrivals hk, hk⟩, h.2⟩, fun h => ⟨Or.inl h.1.1, h.2⟩⟩
    · have hidx := (hidx k trivial).mp hcounter
      rw [hother]
      refine iff_of_false (fun h => (by cases h)) fun h => ?_
      have hlt := h.1.2
      omega
  · intro ts t h
    exact ((mem_take_two_iff ts t).mp h).2

end FloWatcher
