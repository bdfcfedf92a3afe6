import FloWatcher.Loop
import FloWatcher.Table.Basic

/-!
# The `HASH_LIST` layout

A bucket has two slots and a chain for the tags that found both slots taken. The chain is walked
as in `LINKED_LIST`, but with the tests in the opposite order and with `IPG` blocks of its own.
Slots and chain together are again a first-fit list (`packet_entries`): slot 1, slot 2, then the
nodes of the chain.
-/

namespace FloWatcher
namespace HashList

open FirstFit Loop

variable {w : Nat} {S : Type}

/-- `struct pkt_count` of the `HASH_LIST` build: two slots and the chain `flows`. -/
structure PktCount (w : Nat) (S : Type) extends Slots w S where
  flows : List (FlowEntry w S)
  deriving DecidableEq, Repr

/-- The `IPG` blocks of `hash_list`. The branch that allocates a node online has none. -/
structure Ipg (w : Nat) (S : Type) where
  slot : SlotIpg w S
  /-- the fields of a node as `rte_calloc` leaves it -/
  zero : S
  /-- a node with the packet's tag, with `global` and the counter after its increment -/
  hit : BitVec 64 → BitVec w → S → S
  /-- an empty node takes the packet, with `global` -/
  claim : BitVec 64 → S → S

def Ipg.off (w : Nat) : Ipg w Unit where
  slot := SlotIpg.off w
  zero := ()
  hit _ _ := id
  claim _ := id

/-- The walk along `pkt_ctr[index_l].flows`. -/
def walk (ipg : Ipg w S) (global : BitVec 64) (indexH : Tag) :
    List (FlowEntry w S) → List (FlowEntry w S)
  | [] =>
      -- online allocation: `rte_calloc`, then `f->ctr++`
      [{ rssHigh := indexH, ctr := 0 + 1, stats := ipg.zero }]
  | f :: next =>
      if f.rssHigh = indexH then
        { f with ctr := f.ctr + 1, stats := ipg.hit global (f.ctr + 1) f.stats } :: next
      else if f.rssHigh = 0 then
        { rssHigh := indexH, ctr := f.ctr + 1, stats := ipg.claim global f.stats } :: next
      else
        f :: walk ipg global indexH next

def packet (ipg : Ipg w S) (global : BitVec 64) (indexH : Tag) (e : PktCount w S) : PktCount w S :=
  match e.toSlots.update ipg.slot global indexH with
  | some s => { e with toSlots := s }
  | none => { e with flows := walk ipg global indexH e.flows }

def PktCount.init (ipg : Ipg w S) (size : Nat) : PktCount w S :=
  { toSlots := Slots.init ipg.slot, flows := chainInit w ipg.zero size }

/-! ## Slots and chain as one list -/

/-- The entries of a bucket in the order in which a packet tries them. -/
def PktCount.entries (e : PktCount w S) : List (Tag × BitVec w × S) :=
  e.toSlots.keyed ++ e.flows.map FlowEntry.keyed

/-- The pairs `(hi_f1, ctr[0])`, `(hi_f2, ctr[1])` and the `(rss_high, ctr)` of the chain. -/
def PktCount.counts (e : PktCount w S) : List (Tag × BitVec w) :=
  e.toSlots.counts ++ e.flows.map FlowEntry.count

theorem PktCount.counts_eq (e : PktCount w S) :
    e.counts = e.entries.map (Prod.map id Prod.fst) := by
  simp only [counts, entries, Slots.counts, Slots.keyed, List.map_append, List.map_map,
    List.map_cons, List.map_nil]
  rfl

/-- What the branch at position `i` does to the load of an entry: positions `0` and `1` are the
slots, the rest is the chain. -/
def loadUpdate (ipg : Ipg w S) (global : BitVec 64) (t : Tag) (i : Nat) (e : Tag × BitVec w × S) :
    BitVec w × S :=
  (e.2.1 + 1,
    match i with
    | 0 => if e.1 = 0 then ipg.slot.start e.2.2 else ipg.slot.hit 0 global (e.2.1 + 1) e.2.2
    | 1 => if e.1 = 0 then ipg.slot.start e.2.2 else ipg.slot.hit 1 global (e.2.1 + 1) e.2.2
    | _ + 2 => if e.1 = t then ipg.hit global (e.2.1 + 1) e.2.2 else ipg.claim global e.2.2)

theorem walk_map_keyed (ipg : Ipg w S) (global : BitVec 64) (t : Tag)
    (es : List (FlowEntry w S)) :
    (walk ipg global t es).map FlowEntry.keyed =
      record t (fun i => loadUpdate ipg global t (i + 2)) (1, ipg.zero)
        (es.map FlowEntry.keyed) := by
  induction es with
  | nil => simp [walk, record_nil, FlowEntry.keyed]
  | cons f next ih =>
      rw [List.map_cons, record_cons, walk]
      by_cases ht : f.rssHigh = t
      · simp [ht, Takes, FlowEntry.keyed, loadUpdate]
      · by_cases h0 : f.rssHigh = 0
        · have ht0 : ¬ (0 : Tag) = t := fun h => ht (h0.trans h)
          simp [h0, ht0, Takes, FlowEntry.keyed, loadUpdate]
        · have hnot : ¬ Takes t f.keyed := by simp [Takes, FlowEntry.keyed, h0, ht]
          rw [if_neg ht, if_neg h0, if_neg hnot, List.map_cons, ih]
          rfl

/-- **A packet is recorded by first fit** over slot 1, slot 2 and the chain. -/
theorem packet_entries (ipg : Ipg w S) (global : BitVec 64) (t : Tag) (e : PktCount w S) :
    (packet ipg global t e).entries =
      record t (loadUpdate ipg global t) (1, ipg.zero) e.entries := by
  have hlist : e.entries = (e.hiF1, e.ctr0, e.stats0) :: (e.hiF2, e.ctr1, e.stats1) ::
      e.flows.map FlowEntry.keyed := rfl
  have htakes1 : Takes t (e.hiF1, e.ctr0, e.stats0) ↔ e.hiF1 = 0 ∨ e.hiF1 = t := Iff.rfl
  have htakes2 : Takes t (e.hiF2, e.ctr1, e.stats1) ↔ e.hiF2 = 0 ∨ e.hiF2 = t := Iff.rfl
  rw [hlist, record_cons, record_cons, packet]
  rcases e.toSlots.update_cases ipg.slot global t with ⟨h1, h⟩ | ⟨h1, h2, h⟩ | ⟨h1, h2, h⟩
  · rw [h, if_pos (htakes1.mpr h1)]
    rfl
  · rw [h, if_neg (htakes1.not.mpr h1), if_pos (htakes2.mpr h2)]
    rfl
  · rw [h, if_neg (htakes1.not.mpr h1), if_neg (htakes2.not.mpr h2), ← walk_map_keyed]
    rfl

/-- On tags and counters a packet is the counting first fit. -/
theorem packet_counts (ipg : Ipg w S) (global : BitVec 64) (t : Tag) (e : PktCount w S) :
    (packet ipg global t e).counts = bump t e.counts := by
  rw [PktCount.counts_eq, packet_entries, PktCount.counts_eq, bump]
  exact map_record Prod.fst t (f := loadUpdate ipg global t)
    (fun _ _ => rfl) (1, ipg.zero) e.entries

theorem PktCount.init_counts (ipg : Ipg w S) {size : Nat} (h : 0 < size) :
    (PktCount.init ipg size).counts = List.replicate (size + 2) (0, 0) := by
  rw [PktCount.counts, init, chainInit_map_count ipg.zero h]
  rfl

/-- **The entries of a bucket** after the packets `ps`. -/
theorem counts_recordAll (ipg : Ipg w S) {size : Nat} (h : 0 < size)
    (ps : List (BitVec 64 × Hash)) (b : Bucket) :
    (recordAll (packet ipg) ps (fun _ => PktCount.init ipg size) b).counts =
      bumps (bucketTags b (ps.map Prod.snd)) (List.replicate (size + 2) (0, 0)) := by
  rw [← PktCount.init_counts ipg h]
  exact view_recordAll_tags _ PktCount.counts bump (packet_counts ipg) ps _ b

end HashList
end FloWatcher
