import FloWatcher.FirstFit.Used
import FloWatcher.Table.Divisors

/-!
# How many slots are in use

At the end, the programs with the `DOUBLE_HASH` layout print the number of slots with a counter
greater than zero as the number of flows. A bucket has two slots for any number of flows, so this is
too low when a third flow comes to a bucket; and a flow with the tag `0` loses its packets, and its
slot, to the next new flow of the bucket. `sum_inUse_eq_iff` says that it is right otherwise.
-/

namespace FloWatcher
namespace DoubleHash

open FirstFit Loop

variable {w : Nat} {S : Type}

def inUse (s : Slots w S) : ℕ := (if 0 < s.ctr0 then 1 else 0) + if 0 < s.ctr1 then 1 else 0

/-- In each bucket there are at most two flows, and of the one with the tag `0` a packet comes when
the other one has come, if it comes. -/
def SlotsSuffice (hs : List Hash) : Prop :=
  ∀ b, (bucketTags b hs).toFinset.card ≤ 2 ∧ ZeroLast (bucketTags b hs)

/-- **The slots are the first two entries.** -/
theorem slots_recordAll (ipg : SlotIpg w S) (ps : List (BitVec 64 × Hash)) (b : Bucket) :
    ((recordAll (packet ipg) ps (fun _ => PktCount.init ipg) b).hiF1,
        (recordAll (packet ipg) ps (fun _ => PktCount.init ipg) b).ctr0) =
      node (bucketTags b (ps.map Prod.snd)) 0 ∧
    ((recordAll (packet ipg) ps (fun _ => PktCount.init ipg) b).hiF2,
        (recordAll (packet ipg) ps (fun _ => PktCount.init ipg) b).ctr1) =
      node (bucketTags b (ps.map Prod.snd)) 1 := by
  have habs := abstracts_recordAll ipg (HashList.Ipg.off w) 1 ps b
  have hcounts := HashList.counts_recordAll (HashList.Ipg.off w) Nat.one_pos ps b
  rw [habs.hiF1, habs.ctr0, habs.hiF2, habs.ctr1]
  generalize recordAll (HashList.packet (HashList.Ipg.off w)) ps
    (fun _ => HashList.PktCount.init (HashList.Ipg.off w) 1) b = e at hcounts
  have hnode := entryAt_bumps (M := BitVec w) (bucketTags b (ps.map Prod.snd)) (1 + 2)
  rw [← hcounts] at hnode
  exact ⟨hnode 0, hnode 1⟩

theorem length_bucketTags_le (b : Bucket) (hs : List Hash) :
    (bucketTags b hs).length ≤ hs.length := by
  rw [bucketTags, Buckets.tagsOf, List.length_map]
  exact List.length_filter_le ..

/-- The counters have not wrapped. -/
theorem ctr_recordAll (ipg : SlotIpg w S) {ps : List (BitVec 64 × Hash)} (hlt : ps.length < 2 ^ w)
    (b : Bucket) :
    (recordAll (packet ipg) ps (fun _ => PktCount.init ipg) b).ctr0.toNat =
        (node (bucketTags b (ps.map Prod.snd)) 0 : Tag × ℕ).2 ∧
      (recordAll (packet ipg) ps (fun _ => PktCount.init ipg) b).ctr1.toNat =
        (node (bucketTags b (ps.map Prod.snd)) 1 : Tag × ℕ).2 := by
  obtain ⟨h0, h1⟩ := slots_recordAll ipg ps b
  have hcast : ∀ i {ctr : BitVec w},
      ctr = (node (bucketTags b (ps.map Prod.snd)) i : Tag × BitVec w).2 →
        ctr.toNat = (node (bucketTags b (ps.map Prod.snd)) i : Tag × ℕ).2 := by
    intro i ctr h
    have hle := node_snd_le (bucketTags b (ps.map Prod.snd)) i
    have hlen := length_bucketTags_le b (ps.map Prod.snd)
    rw [List.length_map] at hlen
    rw [h, ← node_snd_cast, BitVec.natCast_eq_ofNat, BitVec.toNat_ofNat,
      Nat.mod_eq_of_lt (by omega)]
  exact ⟨hcast 0 (congrArg Prod.snd h0), hcast 1 (congrArg Prod.snd h1)⟩

theorem inUse_recordAll (ipg : SlotIpg w S) {ps : List (BitVec 64 × Hash)}
    (hlt : ps.length < 2 ^ w) (b : Bucket) :
    inUse (recordAll (packet ipg) ps (fun _ => PktCount.init ipg) b).toSlots =
      min 2 (used (bucketTags b (ps.map Prod.snd))) := by
  obtain ⟨h0, h1⟩ := ctr_recordAll ipg hlt b
  have hpos : ∀ ctr : BitVec w, 0 < ctr ↔ 0 < ctr.toNat := by
    intro ctr
    rw [BitVec.lt_def]
    rfl
  rw [inUse]
  simp only [hpos, h0, h1, node_snd_pos_iff]
  split <;> split <;> omega

/-- **The slots in use and the flows.** -/
theorem sum_inUse_eq_iff (ipg : SlotIpg w S) {ps : List (BitVec 64 × Hash)}
    (hlt : ps.length < 2 ^ w) :
    ∑ b, inUse (recordAll (packet ipg) ps (fun _ => PktCount.init ipg) b).toSlots ≤
        (ps.map Prod.snd).toFinset.card ∧
      (∑ b, inUse (recordAll (packet ipg) ps (fun _ => PktCount.init ipg) b).toSlots =
          (ps.map Prod.snd).toFinset.card ↔ SlotsSuffice (ps.map Prod.snd)) := by
  have hcard : ∑ b, (bucketTags b (ps.map Prod.snd)).toFinset.card =
      (ps.map Prod.snd).toFinset.card := Buckets.sum_card_tagsOf hash_ext _
  have hle : ∀ b ∈ Finset.univ,
      inUse (recordAll (packet ipg) ps (fun _ => PktCount.init ipg) b).toSlots ≤
        (bucketTags b (ps.map Prod.snd)).toFinset.card := by
    intro b _
    rw [inUse_recordAll ipg hlt]
    exact (Nat.min_le_right _ _).trans (used_le_card _)
  rw [← hcard]
  refine ⟨Finset.sum_le_sum hle, ?_⟩
  rw [Finset.sum_eq_sum_iff_of_le hle, SlotsSuffice]
  simp only [Finset.mem_univ, true_imp_iff]
  apply forall_congr'
  intro b
  have hused := used_le_card (bucketTags b (ps.map Prod.snd))
  rw [inUse_recordAll ipg hlt, ← used_eq_card_iff]
  omega

end DoubleHash
end FloWatcher
