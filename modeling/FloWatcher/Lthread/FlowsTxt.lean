import FloWatcher.Clib.Printf
import FloWatcher.Lthread.Counting
import FloWatcher.Table.SlotsUsed

/-!
# `flows.txt`

The signal handler of the lthread program writes the two slots of every bucket to `flows.txt`, one
line for each bucket. The lines can be read back, whatever the slots hold (`readLines_flowsTxt`).
`listsFlows_iff` says for which packets the file is a list of the flows: there are at most two flows
in a bucket, and none comes to a bucket for the first time after a packet with the tag `0`.
-/

namespace FloWatcher
namespace Lthread

open Clib FirstFit Loop

variable {n : Nat} {S : Type}

def flowsFormat : List Directive := directives "%u: %u  %u: %u \n".toList

def flowsArgs (e : DoubleHash.PktCount 32 S) : List Nat :=
  [e.hiF1.toNat, e.ctr0.toNat, e.hiF2.toNat, e.ctr1.toNat]

def flowsTxt (pktCtr : Bucket → DoubleHash.PktCount 32 S) : List Char :=
  (List.finRange flowNum).foldl (fun f1 i => f1 ++ fprintf flowsFormat (flowsArgs (pktCtr i))) []

example : fprintf flowsFormat [0, 96899078, 0, 0] = "0: 96899078  0: 0 \n".toList := by decide

/-- One of the two slots in a line has the tag and the number of packets. -/
def Lists (line : List Nat) (t : Tag) (packets : Nat) : Prop :=
  line.take 2 = [t.toNat, packets] ∨ line.drop 2 = [t.toNat, packets]

/-- Each flow is in the line of its bucket, with the number of its packets. -/
def ListsFlows (f : List Char) (hs : List Hash) : Prop :=
  ∃ lines, readLines flowsFormat flowNum f = some lines ∧
    ∀ h ∈ hs, ∃ line ∈ lines[(indexL h).val]?, Lists line (indexH h) (hs.count h)

/-- **Reading `flows.txt`** gives the slots of all buckets. -/
theorem readLines_flowsTxt (pktCtr : Bucket → DoubleHash.PktCount 32 S) :
    readLines flowsFormat flowNum (flowsTxt pktCtr) =
      some ((List.finRange flowNum).map fun i => flowsArgs (pktCtr i)) := by
  have hfmt : flowsFormat = .num :: flowsFormat.tail := by decide
  have hargs : ∀ args ∈ (List.finRange flowNum).map fun i => flowsArgs (pktCtr i),
      arity (.num :: flowsFormat.tail) = args.length := by
    intro args hargs
    obtain ⟨i, -, rfl⟩ := List.mem_map.mp hargs
    rw [← hfmt]
    rfl
  have hread := readLines_flatMap (by decide) hargs
  rw [← hfmt, List.length_map, List.length_finRange, List.flatMap_map, List.flatMap_eq_foldl] at hread
  exact hread

/-- The line of a bucket. -/
theorem line_flowsTxt (pktCtr : Bucket → DoubleHash.PktCount 32 S) (b : Bucket) :
    ((List.finRange flowNum).map fun i => flowsArgs (pktCtr i))[b.val]? =
      some (flowsArgs (pktCtr b)) := by
  rw [List.getElem?_map, List.getElem?_eq_getElem (by rw [List.length_finRange]; exact b.isLt),
    List.getElem_finRange]
  rfl

/-- A line lists what the first two entries count. -/
theorem lists_flowsArgs_iff (ipg : SlotIpg 32 S) {ps : List (BitVec 64 × Hash)}
    (hlt : ps.length < 2 ^ 32) (b : Bucket) (t : Tag) (packets : Nat) :
    Lists (flowsArgs (recordAll (DoubleHash.packet ipg) ps (fun _ => DoubleHash.PktCount.init ipg) b))
        t packets ↔
      ∃ i < 2, (node (bucketTags b (ps.map Prod.snd)) i : Tag × ℕ) = (t, packets) := by
  obtain ⟨h0, h1⟩ := DoubleHash.slots_recordAll ipg ps b
  obtain ⟨hctr0, hctr1⟩ := DoubleHash.ctr_recordAll ipg hlt b
  have htag : ∀ i, (node (bucketTags b (ps.map Prod.snd)) i : Tag × BitVec 32).1 =
      (node (bucketTags b (ps.map Prod.snd)) i : Tag × ℕ).1 := by
    intro i
    unfold node
    split <;> rfl
  have hslot : ∀ i (hi : Tag) (ctr : Nat), hi = (node (bucketTags b (ps.map Prod.snd)) i : Tag × ℕ).1 →
      ctr = (node (bucketTags b (ps.map Prod.snd)) i : Tag × ℕ).2 →
      ([hi.toNat, ctr] = [t.toNat, packets] ↔
        (node (bucketTags b (ps.map Prod.snd)) i : Tag × ℕ) = (t, packets)) := by
    rintro i hi ctr rfl rfl
    rw [List.cons_eq_cons, List.singleton_inj, UInt16.toNat_inj, Prod.ext_iff]
  rw [Lists]
  refine (or_congr (hslot 0 _ _ ((congrArg Prod.fst h0).trans (htag 0)) hctr0)
    (hslot 1 _ _ ((congrArg Prod.fst h1).trans (htag 1)) hctr1)).trans ?_
  constructor
  · rintro (h | h)
    · exact ⟨0, Nat.zero_lt_two, h⟩
    · exact ⟨1, Nat.one_lt_two, h⟩
  · rintro ⟨i, hi, h⟩
    obtain rfl | rfl : i = 0 ∨ i = 1 := by omega
    · exact .inl h
    · exact .inr h

/-- **When `flows.txt` is a list of the flows** of the packets that the tx lthreads have dequeued
and processed, one after the other. -/
theorem listsFlows_iff (ipg : SlotIpg 32 S) (bursts : List (Fin n × List Hash))
    (hlt : (received bursts).length < 2 ^ 32) :
    ListsFlows (flowsTxt (lthreadTxPerRing ipg bursts).table) (received bursts) ↔
      ∀ b, (bucketTags b (received bursts)).toFinset.card ≤ 2 ∧
        NoLateClaim (bucketTags b (received bursts)) := by
  have hline : ∀ b t packets,
      Lists (flowsArgs ((lthreadTxPerRing ipg bursts).table b)) t packets ↔
        ∃ i < 2, (node (bucketTags b (received bursts)) i : Tag × ℕ) = (t, packets) := by
    intro b t packets
    have hlen : (met .after 0 bursts).length < 2 ^ 32 := by rwa [length_met]
    have hlists := lists_flowsArgs_iff ipg hlen b t packets
    rw [map_snd_met] at hlists
    rw [table_lthreadTxPerRing]
    exact hlists
  have hlists : ListsFlows (flowsTxt (lthreadTxPerRing ipg bursts).table) (received bursts) ↔
      ∀ h ∈ received bursts, ∃ i < 2, (node (bucketTags (indexL h) (received bursts)) i : Tag × ℕ) =
        (indexH h, (received bursts).count h) := by
    rw [ListsFlows, readLines_flowsTxt]
    simp only [Option.some.injEq, exists_eq_left', line_flowsTxt, Option.mem_def, hline]
  rw [hlists]
  simp only [← forall_node_iff]
  constructor
  · intro h b t ht
    obtain ⟨x, hx, rfl, rfl⟩ : ∃ x ∈ received bursts, indexL x = b ∧ indexH x = t := by
      obtain ⟨x, hx, htag⟩ := List.mem_map.mp ht
      obtain ⟨hmem, hb⟩ := List.mem_filter.mp hx
      exact ⟨x, hmem, of_decide_eq_true hb, htag⟩
    rw [bucketTags, Buckets.count_tagsOf hash_ext]
    exact h x hx
  · intro h x hx
    rw [← Buckets.count_tagsOf hash_ext x (received bursts)]
    apply h (indexL x) (indexH x)
    exact List.mem_map.mpr ⟨x, List.mem_filter.mpr ⟨hx, decide_eq_true rfl⟩, rfl⟩

/-- Two packets of a flow and one of another, in one bucket. -/
theorem listsFlows_iff_two_flows :
    let bursts : List (Fin 1 × List Hash) :=
      [(0, [0x00010000#32, 0x00020000#32]), (0, [0x00010000#32])]
    ListsFlows (flowsTxt (lthreadTxPerRing (SlotIpg.off 32) bursts).table) (received bursts) ↔
      ∀ b, (bucketTags b (received bursts)).toFinset.card ≤ 2 ∧
        NoLateClaim (bucketTags b (received bursts)) :=
  listsFlows_iff (SlotIpg.off 32) _ (by decide)

end Lthread
end FloWatcher
