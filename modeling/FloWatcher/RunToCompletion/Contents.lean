import FloWatcher.RunToCompletion.Handler

/-!
# What the tables hold

The three layouts after any traffic. `LINKED_LIST` and `HASH_LIST` are the same first-fit list of
counters and differ in the number of entries allocated in advance, so the closed form of the
library describes both (`linkedList_nodes`) and makes them agree
(`hashList_simulates_linkedList`). `DOUBLE_HASH` keeps the slots and sums up the chain
(`doubleHash_abstracts_hashList`).
-/

namespace FloWatcher
namespace RunToCompletion

open FirstFit Loop

variable {n : Nat} {S S' : Type}

/-! ## Buckets during and after a run -/

def linkedListAfter (ipg : LinkedListIpg 32 S) (bursts : List (Fin n × List Hash)) (k : Nat) :
    Bucket → List (FlowEntry 32 S) :=
  recordAll (linkedListPacket ipg) ((met .after 0 bursts).take k)
    fun _ => chainInit 32 ipg.zero LinkedList.entryPerFlow

def hashListAfter (ipg : HashList.Ipg 32 S) (bursts : List (Fin n × List Hash)) (k : Nat) :
    Bucket → HashList.PktCount 32 S :=
  recordAll (HashList.packet ipg) ((met .before 0 bursts).take k)
    fun _ => HashList.PktCount.init ipg HashList.entryPerFlow

def linkedListCounts (ipg : LinkedListIpg 32 S) (bursts : List (Fin n × List Hash)) (k : Nat)
    (b : Bucket) : List (Tag × BitVec 32) :=
  (linkedListAfter ipg bursts k b).map FlowEntry.count

def hashListCounts (ipg : HashList.Ipg 32 S) (bursts : List (Fin n × List Hash)) (k : Nat)
    (b : Bucket) : List (Tag × BitVec 32) :=
  (hashListAfter ipg bursts k b).counts

theorem linkedListCounts_length (ipg : LinkedListIpg 32 S) (bursts : List (Fin n × List Hash)) :
    linkedListCounts ipg bursts (received bursts).length =
      fun b => ((linkedList ipg bursts).table b).map FlowEntry.count := by
  funext b
  rw [linkedListCounts, linkedListAfter, ← length_met .after 0, List.take_length, linkedList,
    table_foldl_burst]

theorem hashListCounts_length (ipg : HashList.Ipg 32 S) (bursts : List (Fin n × List Hash)) :
    hashListCounts ipg bursts (received bursts).length =
      fun b => ((hashList ipg bursts).table b).counts := by
  funext b
  rw [hashListCounts, hashListAfter, ← length_met .before 0, List.take_length, hashList,
    table_foldl_burst]

theorem linkedListCounts_eq (ipg : LinkedListIpg 32 S) (bursts : List (Fin n × List Hash))
    (k : Nat) (b : Bucket) :
    linkedListCounts ipg bursts k b =
      bumps (bucketTags b ((received bursts).take k))
        (List.replicate LinkedList.entryPerFlow (0, 0)) := by
  rw [linkedListCounts, linkedListAfter, map_count_recordAll ipg (by decide), List.map_take,
    map_snd_met]

theorem hashListCounts_eq (ipg : HashList.Ipg 32 S) (bursts : List (Fin n × List Hash))
    (k : Nat) (b : Bucket) :
    hashListCounts ipg bursts k b =
      bumps (bucketTags b ((received bursts).take k))
        (List.replicate (HashList.entryPerFlow + 2) (0, 0)) := by
  rw [hashListCounts, hashListAfter, HashList.counts_recordAll ipg (by decide), List.map_take,
    map_snd_met]

theorem linkedList_counts (ipg : LinkedListIpg 32 S) (bursts : List (Fin n × List Hash))
    (b : Bucket) :
    ((linkedList ipg bursts).table b).map FlowEntry.count =
      bumps (bucketTags b (received bursts)) (List.replicate LinkedList.entryPerFlow (0, 0)) := by
  have h := linkedListCounts_eq ipg bursts (received bursts).length b
  rwa [linkedListCounts_length, List.take_length] at h

theorem hashList_counts (ipg : HashList.Ipg 32 S) (bursts : List (Fin n × List Hash))
    (b : Bucket) :
    ((hashList ipg bursts).table b).counts =
      bumps (bucketTags b (received bursts))
        (List.replicate (HashList.entryPerFlow + 2) (0, 0)) := by
  have h := hashListCounts_eq ipg bursts (received bursts).length b
  rwa [hashListCounts_length, List.take_length] at h

/-! ## The nodes of a linked list -/

/-- **The nodes of `flows[b]` after any traffic**: the nonzero tags in order of first arrival,
each with its own packets and the tag-`0` packets that arrived between the claim of the node
before and its own; then a node with the tag-`0` packets since the last claim; then free nodes. -/
theorem linkedList_nodes (ipg : LinkedListIpg 32 S) (bursts : List (Fin n × List Hash)) :
    (∀ b : Bucket,
      let ts := bucketTags b (received bursts)
      let nodes := ((linkedList ipg bursts).table b).map FlowEntry.count
      (∀ (i : Nat) (t : Tag), (arrivals ts)[i]? = some t →
        nodes[i]? = some (t, ((ts.count t + freeCount ts i : ℕ) : BitVec 32))) ∧
      (∀ e, nodes[(arrivals ts).length]? = some e →
        e = (0, (freeCount ts (arrivals ts).length : BitVec 32))) ∧
      (∀ i, (arrivals ts).length < i → ∀ e, nodes[i]? = some e → e = (0, 0))) ∧
    ∑ b, (((linkedList ipg bursts).table b).map FlowEntry.ctr).sum =
      ((received bursts).length : BitVec 32) := by
  constructor
  · intro b ts nodes
    have hat : ∀ i, entryAt nodes i = node ts i := by
      intro i
      rw [show nodes = _ from linkedList_counts ipg bursts b, entryAt_bumps]
    refine ⟨?_, ?_, ?_⟩
    · intro i t ht
      have hnode : (node ts i : Tag × BitVec 32) =
          (t, ((ts.count t + freeCount ts i : ℕ) : BitVec 32)) := by
        rw [node, ht]
      have hne : (node ts i : Tag × BitVec 32) ≠ (0, 0) := by
        rw [hnode]
        intro h
        exact (mem_arrivals.mp (List.mem_of_getElem? ht)).1 (congrArg Prod.fst h)
      rw [← hat] at hne
      rw [getElem?_of_entryAt hne, hat, hnode]
    · intro e he
      rw [eq_entryAt he, hat, node, List.getElem?_eq_none le_rfl]
    · intro i hi e he
      rw [eq_entryAt he, hat, node, List.getElem?_eq_none hi.le, freeCount_of_lt hi]
      rfl
  · rw [linkedList, sum_table_foldl_burst .after (linkedListPacket ipg)
      (fun es => (es.map FlowEntry.ctr).sum) (sum_ctr_linkedListPacket ipg)]
    simp [chainInit, FlowEntry.zeroed]

/-! ## The layouts against each other -/

/-- **`HASH_LIST` and `LINKED_LIST` stay in step**: slots and chain hold what the linked list of
the bucket holds, up to free entries at the end, and the handlers print the same totals. -/
theorem hashList_simulates_linkedList (ipg : HashList.Ipg 32 S) (ipg' : LinkedListIpg 32 S')
    (bursts : List (Fin n × List Hash)) :
    (∀ b, trim ((hashList ipg bursts).table b).counts =
      trim (((linkedList ipg' bursts).table b).map FlowEntry.count)) ∧
    hashListHandler (hashList ipg bursts).table = linkedListHandler (linkedList ipg' bursts).table := by
  have hat : ∀ b i, entryAt ((hashList ipg bursts).table b).counts i =
      entryAt (((linkedList ipg' bursts).table b).map FlowEntry.count) i := by
    intro b i
    rw [hashList_counts, linkedList_counts, entryAt_bumps, entryAt_bumps]
  constructor
  · intro b
    exact trim_eq_of_entryAt (hat b)
  · rw [hashListHandler_eq, linkedListHandler_eq]
    exact totals_congr hat

/-- **`DOUBLE_HASH` is an exact abstraction of `HASH_LIST`**: the same slots, and `ctr[2]` the sum
over the chain; no packet is missing from the three counters. -/
theorem doubleHash_abstracts_hashList (ipg : SlotIpg 32 S) (ipg' : HashList.Ipg 32 S')
    (bursts : List (Fin n × List Hash)) :
    (∀ b, DoubleHash.Abstracts ((doubleHash ipg bursts).table b) ((hashList ipg' bursts).table b)) ∧
    ∑ b, ((doubleHash ipg bursts).table b).total = ((received bursts).length : BitVec 32) := by
  constructor
  · intro b
    rw [doubleHash, hashList, table_foldl_burst, table_foldl_burst]
    exact DoubleHash.abstracts_recordAll ipg ipg' _ _ b
  · rw [doubleHash, sum_table_foldl_burst .before (DoubleHash.packet ipg)
      DoubleHash.PktCount.total (DoubleHash.total_packet ipg)]
    simp [DoubleHash.PktCount.init, DoubleHash.PktCount.total, Slots.init]

end RunToCompletion
end FloWatcher
