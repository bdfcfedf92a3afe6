import FloWatcher.Pthread.DoubleHash

/-!
# The `HASH_LIST` build of the pthread program

`lcore_main_count_hash_list` records every packet, those behind the slots in the chain. At the end
the signal handler goes through the table to count the flows in `sum`, one for each counter that is
not zero, but at the nodes of the chain it adds the counter to `sum` as well. So what it prints is
the number of flows only if the chains have recorded no packet (`printsFlows_iff`).
-/

namespace FloWatcher
namespace Pthread

open FirstFit Loop

variable {n : Nat} {S : Type}

/-! ## The loop -/

def entryPerFlow : Nat := 1

/-- The counting threads, with the bursts that they dequeue in the order in which they process
them. The hashes are those that `rte_softrss_be` computes. -/
def lcoreMainCountHashList (ipg : HashList.Ipg 64 S) (bursts : List (Fin n × List Hash)) :
    State n (HashList.PktCount 64 S) :=
  bursts.foldl (burst .after (HashList.packet ipg))
    { re := 0, table := fun _ => HashList.PktCount.init ipg entryPerFlow }

def hashListTable (ipg : HashList.Ipg 64 S) (ps : List (BitVec 64 × Hash)) :
    Bucket → HashList.PktCount 64 S :=
  recordAll (HashList.packet ipg) ps fun _ => HashList.PktCount.init ipg entryPerFlow

theorem table_lcoreMainCountHashList (ipg : HashList.Ipg 64 S)
    (bursts : List (Fin n × List Hash)) :
    (lcoreMainCountHashList ipg bursts).table = hashListTable ipg (met .after 0 bursts) :=
  table_foldl_burst ..

/-! ## The handler -/

/-- `if (pkt_ctr[i].ctr[j]>0) sum+=1;` -/
def visitSlot (sum ctr : BitVec 64) : BitVec 64 := if 0 < ctr then sum + 1 else sum

/-- `if (f->ctr > 0) sum += 1; sum += f->ctr;` -/
def visitNode (sum ctr : BitVec 64) : BitVec 64 := (if 0 < ctr then sum + 1 else sum) + ctr

/-- `handler` of the `HASH_LIST` build: the value printed as the total number of flows. -/
def hashListHandler (pktCtr : Bucket → HashList.PktCount 64 S) : BitVec 64 :=
  (List.finRange flowNum).foldl
    (fun sum i =>
      (pktCtr i).flows.foldl (fun sum f => visitNode sum f.ctr)
        (visitSlot (visitSlot sum (pktCtr i).ctr0) (pktCtr i).ctr1)) 0

/-- The counters of a bucket that are greater than zero, in the slots and in the chain. -/
def positive (e : HashList.PktCount 64 S) : ℕ := e.counts.countP fun c => 0 < c.2

/-- What is printed is the number of counters that are greater than zero. -/
def PrintsFlows (pktCtr : Bucket → HashList.PktCount 64 S) : Prop :=
  (hashListHandler pktCtr).toNat = ∑ b, positive (pktCtr b)

def chainSum (e : HashList.PktCount 64 S) : BitVec 64 := (e.flows.map FlowEntry.ctr).sum

theorem foldl_visitNode (flows : List (FlowEntry 64 S)) (sum : BitVec 64) :
    flows.foldl (fun sum f => visitNode sum f.ctr) sum =
      sum + ((flows.countP fun f => 0 < f.ctr : ℕ) : BitVec 64) + (flows.map FlowEntry.ctr).sum := by
  induction flows generalizing sum with
  | nil => simp
  | cons f flows ih =>
      rw [List.foldl_cons, ih, List.countP_cons, List.map_cons, List.sum_cons, visitNode]
      by_cases hf : 0 < f.ctr
      · simp only [hf, decide_true, if_true]
        push_cast
        ring
      · simp only [hf, decide_false, if_false, Bool.false_eq_true, Nat.add_zero]
        ring

theorem visitSlot_eq (sum ctr : BitVec 64) :
    visitSlot sum ctr = sum + ((if 0 < ctr then 1 else 0 : ℕ) : BitVec 64) := by
  unfold visitSlot
  split
  · rfl
  · exact (add_zero sum).symm

/-- What the handler adds for a bucket. -/
theorem visit_bucket (e : HashList.PktCount 64 S) (sum : BitVec 64) :
    e.flows.foldl (fun sum f => visitNode sum f.ctr) (visitSlot (visitSlot sum e.ctr0) e.ctr1) =
      sum + ((positive e : ℕ) : BitVec 64) + chainSum e := by
  have hcounts : positive e = (if 0 < e.ctr0 then 1 else 0) + (if 0 < e.ctr1 then 1 else 0) +
      e.flows.countP fun f => 0 < f.ctr := by
    have hlist : e.counts = (e.hiF1, e.ctr0) :: (e.hiF2, e.ctr1) ::
        e.flows.map FlowEntry.count := rfl
    rw [positive, hlist, List.countP_cons, List.countP_cons, List.countP_map]
    simp only [decide_eq_true_eq]
    rw [Nat.add_assoc, Nat.add_comm]
    exact congrArg₂ _ (Nat.add_comm _ _) rfl
  rw [foldl_visitNode, visitSlot_eq, visitSlot_eq, hcounts, chainSum]
  push_cast
  ring

/-- **The value printed**: the flows, and the packets in the chains. -/
theorem hashListHandler_eq (pktCtr : Bucket → HashList.PktCount 64 S) :
    hashListHandler pktCtr =
      ((∑ b, positive (pktCtr b) : ℕ) : BitVec 64) + ∑ b, chainSum (pktCtr b) := by
  have hsum := Buckets.foldl_finRange id
    (fun sum i => (pktCtr i).flows.foldl (fun sum f => visitNode sum f.ctr)
      (visitSlot (visitSlot sum (pktCtr i).ctr0) (pktCtr i).ctr1))
    (fun b => ((positive (pktCtr b) : ℕ) : BitVec 64) + chainSum (pktCtr b))
    (fun sum b => (visit_bucket (pktCtr b) sum).trans (add_assoc ..)) 0
  rw [Finset.sum_add_distrib, ← Nat.cast_sum, id, id, zero_add] at hsum
  rw [hashListHandler, hsum]

/-! ## The packets in the chains -/

/-- The packets that find both slots of their bucket taken. -/
def behindSlots (hs : List Hash) : ℕ := hs.length - recorded [] hs

/-- `DOUBLE_HASH` buckets that count the packets behind the slots, as the other programs do. -/
def counted (ps : List (BitVec 64 × Hash)) : Bucket → DoubleHash.PktCount 64 Unit :=
  recordAll (DoubleHash.packet (SlotIpg.off 64)) ps
    fun _ => DoubleHash.PktCount.init (SlotIpg.off 64)

theorem ctr2_counted (ipg : HashList.Ipg 64 S) (ps : List (BitVec 64 × Hash)) (b : Bucket) :
    (counted ps b).ctr2 = chainSum (hashListTable ipg ps b) :=
  (DoubleHash.abstracts_recordAll (SlotIpg.off 64) ipg entryPerFlow ps b).ctr2

theorem sum_total_counted (ps : List (BitVec 64 × Hash)) :
    ∑ b, (counted ps b).total = (ps.length : BitVec 64) := by
  have hzero : ∑ _b : Bucket, (DoubleHash.PktCount.init (SlotIpg.off 64)).total = 0 :=
    Finset.sum_eq_zero fun _ _ => rfl
  have hsum := Buckets.sum_run (fun p : BitVec 64 × Hash => indexL p.2)
    (fun p => DoubleHash.packet (SlotIpg.off 64) p.1 (indexH p.2)) DoubleHash.PktCount.total
    (fun p e => DoubleHash.total_packet (SlotIpg.off 64) p.1 (indexH p.2) e) ps
    fun _ => DoubleHash.PktCount.init (SlotIpg.off 64)
  rw [hzero, zero_add] at hsum
  exact hsum

/-- The chains record what the `DOUBLE_HASH` build misses. -/
theorem sum_chainSum (ipg : HashList.Ipg 64 S) (ps : List (BitVec 64 × Hash)) :
    ∑ b, chainSum (hashListTable ipg ps b) = (behindSlots (ps.map Prod.snd) : BitVec 64) := by
  have hsplit : ∑ b, (counted ps b).total =
      ∑ b, (table (SlotIpg.off 64) ps b).total + ∑ b, chainSum (hashListTable ipg ps b) := by
    rw [← Finset.sum_add_distrib]
    apply Finset.sum_congr rfl
    intro b _
    -- the `DOUBLE_HASH` build of this program has the same slots
    have htoSlots : (table (SlotIpg.off 64) ps b).toSlots = (counted ps b).toSlots :=
      toSlots_table (SlotIpg.off 64) ps b
    have h0 : (table (SlotIpg.off 64) ps b).ctr0 = (counted ps b).ctr0 :=
      congrArg Slots.ctr0 htoSlots
    have h1 : (table (SlotIpg.off 64) ps b).ctr1 = (counted ps b).ctr1 :=
      congrArg Slots.ctr1 htoSlots
    rw [DoubleHash.PktCount.total, DoubleHash.PktCount.total, h0, h1, ctr2_table, ctr2_counted ipg,
      add_zero]
  have hle := recorded_le_length [] (ps.map Prod.snd)
  have hlen : (ps.map Prod.snd).length = ps.length := List.length_map _
  rw [sum_total_counted, sum_total_table] at hsplit
  rw [behindSlots, Nat.cast_sub hle, hlen, hsplit, add_sub_cancel_left]

/-! ## The number of counters -/

/-- A bucket has an entry for each of its tags, one for tag `0`, and three at least. -/
theorem positive_le (ipg : HashList.Ipg 64 S) (ps : List (BitVec 64 × Hash)) (b : Bucket) :
    positive (hashListTable ipg ps b) ≤ 2 ^ 17 := by
  let ts := bucketTags b (ps.map Prod.snd)
  have hcounts : (hashListTable ipg ps b).counts = bumps ts (List.replicate 3 (0, 0)) :=
    HashList.counts_recordAll ipg Nat.one_pos ps b
  have harrivals : (arrivals ts).length ≤ 2 ^ 16 := by
    have hnodup : ((arrivals ts).map UInt16.toNat).Nodup :=
      (nodup_arrivals ts).map fun s t h => UInt16.toNat_inj.mp h
    have hsub : (arrivals ts).map UInt16.toNat ⊆ List.range (2 ^ 16) := by
      intro x hx
      obtain ⟨t, -, rfl⟩ := List.mem_map.mp hx
      exact List.mem_range.mpr t.toNat_lt
    have hle := (hnodup.subperm hsub).length_le
    rwa [List.length_map, List.length_range] at hle
  have hlength : (hashListTable ipg ps b).counts.length ≤ 2 ^ 17 := by
    by_contra hlt
    have hlast : 2 ^ 17 < (bumps ts (List.replicate 3 ((0, 0) : Tag × BitVec 64))).length := by
      rw [← hcounts]
      omega
    rcases (lt_length_bumps_iff ts 3 _).mp hlast with hinit | hpos
    · omega
    · have hnode : (node ts (2 ^ 17) : Tag × ℕ).2 = 0 := by
        rw [node, List.getElem?_eq_none (by omega)]
        exact freeCount_of_lt (by omega)
      omega
  exact List.countP_le_length.trans hlength

theorem sum_positive_lt (ipg : HashList.Ipg 64 S) (ps : List (BitVec 64 × Hash)) :
    ∑ b, positive (hashListTable ipg ps b) < 2 ^ 64 := by
  calc ∑ b, positive (hashListTable ipg ps b)
    _ ≤ ∑ _b : Bucket, 2 ^ 17 := Finset.sum_le_sum fun b _ => positive_le ipg ps b
    _ = 2 ^ 33 := by
        rw [Finset.sum_const, Finset.card_univ, Fintype.card_fin, smul_eq_mul]
        rfl
    _ < 2 ^ 64 := by norm_num

theorem printsFlows_iff_sum (ipg : HashList.Ipg 64 S) (ps : List (BitVec 64 × Hash)) :
    PrintsFlows (hashListTable ipg ps) ↔ (behindSlots (ps.map Prod.snd) : BitVec 64) = 0 := by
  have hlt := sum_positive_lt ipg ps
  unfold PrintsFlows
  rw [hashListHandler_eq, sum_chainSum]
  generalize ∑ b, positive (hashListTable ipg ps b) = r at hlt
  generalize (behindSlots (ps.map Prod.snd) : BitVec 64) = c
  have hr : (r : BitVec 64).toNat = r := by
    rw [BitVec.natCast_eq_ofNat, BitVec.toNat_ofNat, Nat.mod_eq_of_lt hlt]
  constructor
  · intro h
    have heq : (r : BitVec 64) + c = (r : BitVec 64) := BitVec.eq_of_toNat_eq (h.trans hr.symm)
    exact add_eq_left.mp heq
  · rintro rfl
    rw [add_zero, hr]

/-- **When the number of flows is printed**: no packet gets behind the slots of its bucket, or a
multiple of `2 ^ 64` of them. -/
theorem printsFlows_iff (ipg : HashList.Ipg 64 S) (ps : List (BitVec 64 × Hash)) :
    PrintsFlows (hashListTable ipg ps) ↔ 2 ^ 64 ∣ behindSlots (ps.map Prod.snd) := by
  rw [printsFlows_iff_sum, Nat.dvd_iff_mod_eq_zero, BitVec.natCast_eq_ofNat]
  constructor
  · intro h
    have hmod := congrArg BitVec.toNat h
    rwa [BitVec.toNat_ofNat] at hmod
  · intro h
    apply BitVec.eq_of_toNat_eq
    rw [BitVec.toNat_ofNat]
    exact h

/-- Three flows in one bucket: the third is counted with its packet. -/
theorem not_printsFlows_three_flows :
    ¬ PrintsFlows (hashListTable (HashList.Ipg.off 64)
      [(0, 0x00010000#32), (0, 0x00020000#32), (0, 0x00030000#32)]) := by
  rw [printsFlows_iff_sum]
  decide

end Pthread
end FloWatcher
