import FloWatcher.Lthread.Counting
import FloWatcher.Pthread.DoubleHash

/-!
# What the signal handler of the lthread program prints

`handler` adds up `ctr[0]` and `ctr[1]` of all buckets and prints the sum under `[In total]`.
`lthread_tx_per_ring` counts the packets of a third flow of a bucket in `ctr[2]`, which is read
nowhere. So what is printed is the number of packets that found a slot (`inTotal_packets_eq`), and
not the number of packets dequeued.
-/

namespace FloWatcher
namespace Lthread

open FirstFit Loop

variable {S : Type}

/-! ## The handler -/

/-- `flows` and `sum` of `handler`, the first two values of the line
`[In total]: %d flows with %lu packets %d ring loss`. -/
structure InTotal where
  flows : BitVec 32
  packets : BitVec 64
  deriving DecidableEq, Repr

/-- `if (pkt_ctr[i].ctr[j] > 0) { flows+=1; sum += pkt_ctr[i].ctr[j]; }` -/
def visitSlot (acc : InTotal) (ctr : BitVec 32) : InTotal :=
  if 0 < ctr then { flows := acc.flows + 1, packets := acc.packets + ctr.setWidth 64 } else acc

def inTotal (pktCtr : Bucket → DoubleHash.PktCount 32 S) : InTotal :=
  (List.finRange flowNum).foldl
    (fun acc i => visitSlot (visitSlot acc (pktCtr i).ctr0) (pktCtr i).ctr1) ⟨0, 0⟩

/-- The number of packets under `[In total]` is the number of packets that the only consumer has
dequeued. -/
def PrintsDequeued (s : State 1 (DoubleHash.PktCount 32 S)) : Prop :=
  (inTotal s.table).packets = s.re 0

theorem visitSlot_packets (acc : InTotal) (ctr : BitVec 32) :
    (visitSlot acc ctr).packets = acc.packets + (ctr.toNat : BitVec 64) := by
  have hcast : ctr.setWidth 64 = (ctr.toNat : BitVec 64) := by
    apply BitVec.eq_of_toNat_eq
    rw [BitVec.natCast_eq_ofNat, BitVec.toNat_setWidth, BitVec.toNat_ofNat]
  unfold visitSlot
  split
  · rw [hcast]
  · next hzero =>
      have h0 : ctr.toNat = 0 := Nat.eq_zero_of_not_pos hzero
      rw [h0, Nat.cast_zero, add_zero]

/-- The sum of the two counters of every bucket. -/
theorem inTotal_packets (pktCtr : Bucket → DoubleHash.PktCount 32 S) :
    (inTotal pktCtr).packets =
      ((∑ b, ((pktCtr b).ctr0.toNat + (pktCtr b).ctr1.toNat) : ℕ) : BitVec 64) := by
  have hsum := Buckets.foldl_finRange InTotal.packets
    (fun acc i => visitSlot (visitSlot acc (pktCtr i).ctr0) (pktCtr i).ctr1)
    (fun b => (((pktCtr b).ctr0.toNat + (pktCtr b).ctr1.toNat : ℕ) : BitVec 64))
    (fun acc b => by rw [visitSlot_packets, visitSlot_packets, Nat.cast_add, add_assoc]) ⟨0, 0⟩
  rw [inTotal, hsum, Nat.cast_sum]
  exact zero_add _

/-! ## The counters of the slots -/

/-- How many of the arrivals `ts` of a bucket have been counted in its slots. -/
def slotted (ts : List Tag) : ℕ := (node ts 0 : Tag × ℕ).2 + (node ts 1 : Tag × ℕ).2

theorem slotted_concat (ts : List Tag) (t : Tag) :
    slotted (ts ++ [t]) = slotted ts + if (arrivals ts).idxOf t < 2 then 1 else 0 := by
  unfold slotted
  rw [node_concat, node_concat]
  by_cases h0 : 0 = (arrivals ts).idxOf t
  · rw [if_pos h0, if_neg (by omega), if_pos (by omega), Nat.add_right_comm]
  · by_cases h1 : 1 = (arrivals ts).idxOf t
    · rw [if_neg h0, if_pos h1, if_pos (by omega), Nat.add_assoc]
    · rw [if_neg h0, if_neg h1, if_neg (by omega), Nat.add_zero]

theorem slotted_le_length (ts : List Tag) : slotted ts ≤ ts.length := by
  induction ts using List.reverseRecOn with
  | nil => exact le_rfl
  | append_singleton ts t ih =>
      rw [slotted_concat, List.length_append, List.length_singleton]
      split <;> omega

/-- The slots are the first two entries. -/
theorem findsSlot_iff_idxOf (pre : List Hash) (h : Hash) :
    Pthread.FindsSlot pre h ↔ (arrivals (bucketTags (indexL h) pre)).idxOf (indexH h) < 2 := by
  rw [Pthread.FindsSlot, mem_take_two_iff]
  by_cases hmem : indexH h ∈ arrivals (bucketTags (indexL h) pre)
  · have hlt := List.idxOf_lt_length_of_mem hmem
    constructor
    · rintro (hlen | ⟨-, hidx⟩)
      · omega
      · exact hidx
    · intro hidx
      exact Or.inr ⟨hmem, hidx⟩
  · rw [List.idxOf_eq_length hmem]
    constructor
    · rintro (hlen | ⟨hin, -⟩)
      · exact hlen
      · exact absurd hin hmem
    · exact Or.inl

/-- **Over all buckets** these are the packets that found a slot. -/
theorem sum_slotted (hs : List Hash) :
    ∑ b, slotted (bucketTags b hs) = Pthread.recorded [] hs := by
  induction hs using List.reverseRecOn with
  | nil => exact Finset.sum_eq_zero fun b _ => rfl
  | append_singleton hs h ih =>
      have hbucket : ∀ b, slotted (bucketTags b (hs ++ [h])) =
          slotted (bucketTags b hs) +
            if indexL h = b then (if Pthread.FindsSlot hs h then 1 else 0) else 0 := by
        intro b
        rw [bucketTags_concat]
        by_cases hb : indexL h = b
        · rw [if_pos hb, if_pos hb, slotted_concat, ← hb]
          simp only [findsSlot_iff_idxOf]
        · rw [if_neg hb, if_neg hb, List.append_nil, Nat.add_zero]
      rw [Finset.sum_congr rfl fun b _ => hbucket b, Finset.sum_add_distrib, ih,
        Finset.sum_ite_eq Finset.univ (indexL h), if_pos (Finset.mem_univ _),
        Pthread.recorded_append]
      rfl

/-- Below `2 ^ 32` packets the counters of the slots have not wrapped. -/
theorem slots_after (ipg : SlotIpg 32 S) (ps : List (BitVec 64 × Hash)) (hlt : ps.length < 2 ^ 32)
    (b : Bucket) :
    ((DoubleHash.flowTable ipg).after ps b).ctr0.toNat +
        ((DoubleHash.flowTable ipg).after ps b).ctr1.toNat =
      slotted (bucketTags b (ps.map Prod.snd)) := by
  let ts := bucketTags b (ps.map Prod.snd)
  let list := HashList.flowTable (HashList.Ipg.off 32) 1
  have habs : DoubleHash.Abstracts ((DoubleHash.flowTable ipg).after ps b) (list.after ps b) :=
    DoubleHash.abstracts_recordAll ipg _ 1 ps b
  have hcounts : (list.after ps b).counts = bumps ts (List.replicate 3 (0, 0)) :=
    HashList.counts_recordAll _ Nat.one_pos ps b
  have hctr : ∀ i, (entryAt (list.after ps b).counts i).2 =
      (((node ts i : Tag × ℕ).2 : ℕ) : BitVec 32) := by
    intro i
    rw [hcounts, entryAt_bumps, node_snd_cast]
  have hts : ts.length ≤ ps.length := by
    show (bucketTags b (ps.map Prod.snd)).length ≤ ps.length
    rw [bucketTags, Buckets.tagsOf, List.length_map, ← List.length_map Prod.snd]
    exact List.length_filter_le ..
  have hsum := slotted_le_length ts
  have h0 : ((DoubleHash.flowTable ipg).after ps b).ctr0 =
      (((node ts 0 : Tag × ℕ).2 : ℕ) : BitVec 32) := habs.ctr0.trans (hctr 0)
  have h1 : ((DoubleHash.flowTable ipg).after ps b).ctr1 =
      (((node ts 1 : Tag × ℕ).2 : ℕ) : BitVec 32) := habs.ctr1.trans (hctr 1)
  unfold slotted at hsum ⊢
  rw [h0, h1, BitVec.natCast_eq_ofNat, BitVec.natCast_eq_ofNat, BitVec.toNat_ofNat,
    BitVec.toNat_ofNat, Nat.mod_eq_of_lt (by omega), Nat.mod_eq_of_lt (by omega)]

/-! ## The packets printed -/

/-- **The number printed** is that of the packets that found a slot. -/
theorem inTotal_packets_eq (ipg : SlotIpg 32 S) (ps : List (BitVec 64 × Hash))
    (hlt : ps.length < 2 ^ 32) :
    (inTotal ((DoubleHash.flowTable ipg).after ps)).packets =
      (Pthread.recorded [] (ps.map Prod.snd) : BitVec 64) := by
  rw [inTotal_packets, Finset.sum_congr rfl fun b _ => slots_after ipg ps hlt b, sum_slotted]

theorem re_lthreadTxPerRing (ipg : SlotIpg 32 S) (bursts : List (Fin 1 × List Hash)) :
    (lthreadTxPerRing ipg bursts).re 0 = ((received bursts).length : BitVec 64) := by
  have hsum : ∑ q, (lthreadTxPerRing ipg bursts).re q =
      ∑ _q : Fin 1, 0 + ((received bursts).length : BitVec 64) := sum_re_foldl_burst ..
  rwa [Fin.sum_univ_one, Fin.sum_univ_one, zero_add] at hsum

/-- **When the handler prints the packets dequeued**: every packet has found a slot. -/
theorem printsDequeued_iff (ipg : SlotIpg 32 S) (bursts : List (Fin 1 × List Hash))
    (hlt : (received bursts).length < 2 ^ 32) :
    PrintsDequeued (lthreadTxPerRing ipg bursts) ↔
      ∀ pre h post, received bursts = pre ++ h :: post → Pthread.FindsSlot pre h := by
  have hle := Pthread.recorded_le_length [] (received bursts)
  rw [PrintsDequeued, table_lthreadTxPerRing, inTotal_packets_eq ipg _ (by rwa [length_met]),
    map_snd_met, re_lthreadTxPerRing, BitVec.natCast_eq_ofNat, BitVec.natCast_eq_ofNat,
    ← BitVec.toNat_inj, BitVec.toNat_ofNat, BitVec.toNat_ofNat, Nat.mod_eq_of_lt (by omega),
    Nat.mod_eq_of_lt (by omega)]
  exact Pthread.recorded_eq_length_iff [] (received bursts)

/-- Two flows of one bucket, in two bursts. -/
theorem printsDequeued_iff_two_flows :
    PrintsDequeued (lthreadTxPerRing (SlotIpg.off 32)
        [((0 : Fin 1), [0x00010000#32]), (0, [0x00020000#32])]) ↔
      ∀ pre h post, received [((0 : Fin 1), [0x00010000#32]), (0, [0x00020000#32])] =
        pre ++ h :: post → Pthread.FindsSlot pre h :=
  printsDequeued_iff (SlotIpg.off 32) _ (by decide)

/-- Three flows of one bucket: three packets are dequeued and two are printed. -/
theorem not_printsDequeued_three_flows :
    ¬ PrintsDequeued (lthreadTxPerRing (SlotIpg.off 32)
      [((0 : Fin 1), [0x00010000#32, 0x00020000#32, 0x00030000#32])]) := by
  rw [PrintsDequeued, table_lthreadTxPerRing,
    inTotal_packets_eq _ _ (by rw [length_met]; decide), map_snd_met, re_lthreadTxPerRing]
  decide

end Lthread
end FloWatcher
