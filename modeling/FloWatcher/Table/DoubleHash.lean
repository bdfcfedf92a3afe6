import FloWatcher.Table.HashList

/-!
# The `DOUBLE_HASH` layout

A bucket has the two slots and a single counter `ctr[2]` for every packet that belongs to neither:
the chain of `HASH_LIST` collapsed into one number (`Abstracts`).
-/

namespace FloWatcher
namespace DoubleHash

open FirstFit Loop

variable {w : Nat} {S S' : Type}

structure PktCount (w : Nat) (S : Type) extends Slots w S where
  ctr2 : BitVec w
  deriving DecidableEq, Repr

def packet (ipg : SlotIpg w S) (global : BitVec 64) (indexH : Tag) (e : PktCount w S) :
    PktCount w S :=
  match e.toSlots.update ipg global indexH with
  | some s => { e with toSlots := s }
  | none => { e with ctr2 := e.ctr2 + 1 }

/-- A bucket after `port_init`. -/
def PktCount.init (ipg : SlotIpg w S) : PktCount w S :=
  { toSlots := Slots.init ipg, ctr2 := 0 }

/-- The packets recorded in the bucket: `ctr[0] + ctr[1] + ctr[2]`. -/
def PktCount.total (e : PktCount w S) : BitVec w := e.ctr0 + e.ctr1 + e.ctr2

theorem total_packet (ipg : SlotIpg w S) (global : BitVec 64) (t : Tag) (e : PktCount w S) :
    (packet ipg global t e).total = e.total + 1 := by
  unfold packet
  rcases e.toSlots.update_cases ipg global t with ⟨-, h⟩ | ⟨-, -, h⟩ | ⟨-, -, h⟩ <;>
    · rw [h]
      simp only [PktCount.total]
      ring

/-! ## `DOUBLE_HASH` as an abstraction of `HASH_LIST` -/

/-- Slots and slot counters agree, and `ctr[2]` is the sum of the counters of the chain. -/
structure Abstracts (d : PktCount w S) (e : HashList.PktCount w S') : Prop where
  hiF1 : d.hiF1 = e.hiF1
  hiF2 : d.hiF2 = e.hiF2
  ctr0 : d.ctr0 = e.ctr0
  ctr1 : d.ctr1 = e.ctr1
  ctr2 : d.ctr2 = (e.flows.map FlowEntry.ctr).sum

theorem abstracts_init (ipg : SlotIpg w S) (ipg' : HashList.Ipg w S') (size : Nat) :
    Abstracts (PktCount.init ipg) (HashList.PktCount.init ipg' size) where
  hiF1 := rfl
  hiF2 := rfl
  ctr0 := rfl
  ctr1 := rfl
  ctr2 := by simp [PktCount.init, HashList.PktCount.init, chainInit, FlowEntry.zeroed]

/-- Walking the chain adds one to the sum of its counters. -/
theorem sum_ctr_walk (ipg : HashList.Ipg w S') (global : BitVec 64) (t : Tag)
    (es : List (FlowEntry w S')) :
    ((HashList.walk ipg global t es).map FlowEntry.ctr).sum =
      (es.map FlowEntry.ctr).sum + 1 := by
  induction es with
  | nil => simp [HashList.walk]
  | cons f next ih =>
      rw [HashList.walk]
      split
      · simp only [List.map_cons, List.sum_cons]; ring
      · split
        · simp only [List.map_cons, List.sum_cons]; ring
        · simp only [List.map_cons, List.sum_cons, ih]; ring

/-- **The simulation step**: the same packet keeps the two buckets related. Both updates read the
slots only, so they take the same branch. -/
theorem Abstracts.packet {d : PktCount w S} {e : HashList.PktCount w S'} (h : Abstracts d e)
    (ipg : SlotIpg w S) (ipg' : HashList.Ipg w S') (global global' : BitVec 64) (t : Tag) :
    Abstracts (packet ipg global t d) (HashList.packet ipg' global' t e) := by
  obtain ⟨h1, h2, h3, h4, h5⟩ := h
  unfold DoubleHash.packet HashList.packet
  rcases d.toSlots.update_cases ipg global t with ⟨c1, hd⟩ | ⟨c1, c2, hd⟩ | ⟨c1, c2, hd⟩ <;>
    rcases e.toSlots.update_cases ipg'.slot global' t with ⟨c1', he⟩ | ⟨c1', c2', he⟩ | ⟨c1', c2', he⟩ <;>
    rw [hd, he]
  · exact ⟨rfl, h2, by simp [h3], h4, h5⟩
  · exact absurd c1 (by rwa [h1])
  · exact absurd c1 (by rwa [h1])
  · exact absurd c1' (by rwa [← h1])
  · exact ⟨h1, rfl, h3, by simp [h4], h5⟩
  · exact absurd c2 (by rwa [h2])
  · exact absurd c1' (by rwa [← h1])
  · exact absurd c2' (by rwa [← h2])
  · exact ⟨h1, h2, h3, h4, by rw [sum_ctr_walk, h5]⟩

/-- **The simulation**, in every bucket. -/
theorem abstracts_recordAll (ipg : SlotIpg w S) (ipg' : HashList.Ipg w S') (size : Nat)
    (ps : List (BitVec 64 × Hash)) (b : Bucket) :
    Abstracts (recordAll (packet ipg) ps (fun _ => PktCount.init ipg) b)
      (recordAll (HashList.packet ipg') ps (fun _ => HashList.PktCount.init ipg' size) b) :=
  rel_recordAll Abstracts _ _ (fun g t _ _ h => h.packet ipg ipg' g g t) ps _ _
    (fun _ => abstracts_init ipg ipg' size) b

/-- A `HASH_LIST` build with the same slot blocks. -/
def listIpg (ipg : SlotIpg w S) : HashList.Ipg w S where
  slot := ipg
  zero := ipg.init
  hit _ _ := id
  claim _ := id

/-- The slots themselves, their `IPG` fields included, do not depend on what is behind them. -/
theorem toSlots_packet (ipg : SlotIpg w S) (global : BitVec 64) (t : Tag) {d : PktCount w S}
    {e : HashList.PktCount w S} (h : d.toSlots = e.toSlots) :
    (packet ipg global t d).toSlots = (HashList.packet (listIpg ipg) global t e).toSlots := by
  unfold DoubleHash.packet HashList.packet
  rw [h]
  have hslot : (listIpg ipg).slot = ipg := rfl
  rw [hslot]
  cases e.toSlots.update ipg global t with
  | some s => rfl
  | none => rfl

theorem toSlots_recordAll (ipg : SlotIpg w S) (size : Nat) (ps : List (BitVec 64 × Hash))
    (b : Bucket) :
    (recordAll (packet ipg) ps (fun _ => PktCount.init ipg) b).toSlots =
      (recordAll (HashList.packet (listIpg ipg)) ps
        (fun _ => HashList.PktCount.init (listIpg ipg) size) b).toSlots :=
  rel_recordAll (fun (d : PktCount w S) (e : HashList.PktCount w S) => d.toSlots = e.toSlots) _ _
    (fun g t _ _ h => toSlots_packet ipg g t h) ps _ _ (fun _ => rfl) b

end DoubleHash
end FloWatcher
