import FloWatcher.Loop
import FloWatcher.Table.Basic

/-!
# The `LINKED_LIST` layout

A bucket is a chain of entries. A packet is recorded in the first entry that is empty
(`rss_high == 0`) or carries its tag, *in this order of tests*, and in a new entry at the end when
there is none: the first fit of `FirstFit`.
-/

namespace FloWatcher

open FirstFit Loop

variable {w : Nat} {S : Type}

/-- The `IPG` blocks of the walk. -/
structure LinkedListIpg (w : Nat) (S : Type) where
  /-- the fields after initialisation -/
  zero : S
  /-- an empty entry takes the packet -/
  claim : S → S
  /-- an entry with the packet's tag, with `global` and the counter after its increment -/
  hit : BitVec 64 → BitVec w → S → S
  /-- a newly allocated entry, with `global` -/
  alloc : BitVec 64 → S → S

def LinkedListIpg.off (w : Nat) : LinkedListIpg w Unit where
  zero := ()
  claim := id
  hit _ _ := id
  alloc _ := id

/-- The walk of `linked_list` along `flows[hash_l]` for a packet with upper half `hashH`. -/
def linkedListPacket (ipg : LinkedListIpg w S) (global : BitVec 64) (hashH : Tag) :
    List (FlowEntry w S) → List (FlowEntry w S)
  | [] =>
      -- `hit == 0`: allocate, set tag and counter, and link behind the last entry
      [{ rssHigh := hashH, ctr := 1, stats := ipg.alloc global ipg.zero }]
  | f :: next =>
      if f.rssHigh = 0 then
        { rssHigh := hashH, ctr := f.ctr + 1, stats := ipg.claim f.stats } :: next
      else if f.rssHigh = hashH then
        { f with ctr := f.ctr + 1, stats := ipg.hit global (f.ctr + 1) f.stats } :: next
      else
        f :: linkedListPacket ipg global hashH next

/-- On tags and counters the walk is the counting first fit. -/
theorem linkedListPacket_map_count (ipg : LinkedListIpg w S) (global : BitVec 64) (t : Tag)
    (es : List (FlowEntry w S)) :
    (linkedListPacket ipg global t es).map FlowEntry.count = bump t (es.map FlowEntry.count) := by
  induction es with
  | nil => rfl
  | cons f next ih =>
      rw [List.map_cons, bump, record_cons, linkedListPacket]
      by_cases h0 : f.rssHigh = 0
      · simp [h0, Takes, FlowEntry.count]
      · by_cases ht : f.rssHigh = t
        · subst ht
          simp [h0, Takes, FlowEntry.count]
        · have hnot : ¬ Takes t f.count := by simp [Takes, FlowEntry.count, h0, ht]
          rw [if_neg h0, if_neg ht, if_neg hnot, List.map_cons, ih]
          rfl

/-- **The entries of a bucket** after the packets `ps`. -/
theorem map_count_recordAll (ipg : LinkedListIpg w S) {size : Nat} (h : 0 < size)
    (ps : List (BitVec 64 × Hash)) (b : Bucket) :
    (recordAll (linkedListPacket ipg) ps (fun _ => chainInit w ipg.zero size) b).map
        FlowEntry.count =
      bumps (bucketTags b (ps.map Prod.snd)) (List.replicate size (0, 0)) := by
  rw [← chainInit_map_count ipg.zero h]
  exact view_recordAll_tags _ (fun es : List (FlowEntry w S) => es.map FlowEntry.count) bump
    (linkedListPacket_map_count ipg) ps _ b

/-- Every packet adds one to the sum of the counters of its chain. -/
theorem sum_ctr_linkedListPacket (ipg : LinkedListIpg w S) (global : BitVec 64) (t : Tag)
    (es : List (FlowEntry w S)) :
    ((linkedListPacket ipg global t es).map FlowEntry.ctr).sum =
      (es.map FlowEntry.ctr).sum + 1 := by
  have hctr : ∀ es : List (FlowEntry w S),
      es.map FlowEntry.ctr = (es.map FlowEntry.count).map Prod.snd := by
    intro es
    rw [List.map_map]
    rfl
  rw [hctr, hctr, linkedListPacket_map_count, sum_bump]

end FloWatcher
