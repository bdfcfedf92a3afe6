import FloWatcher.Lthread.Totals
import FloWatcher.RunToCompletion.Handler
import FloWatcher.Table.SlotsUsed

/-!
# The miscounted packets

With the `DOUBLE_HASH` layout, the signal handler prints the sum of the counters `ctr[2]` as the
number of miscounted packets. These are the packets that find no slot, modulo `2 ^ 32` in each
bucket (`printedMiscounted_iff`).
-/

namespace FloWatcher
namespace RunToCompletion

open FirstFit Loop

variable {n w : Nat} {S : Type}

/-- How many of the packets `us` come to bucket `b` and find no slot there, when they follow
`pre`. -/
def miscounted (b : Bucket) (pre : List Hash) : List Hash → Nat
  | [] => 0
  | h :: us =>
      (if indexL h = b ∧ ¬ Pthread.FindsSlot pre h then 1 else 0) + miscounted b (pre ++ [h]) us

theorem miscounted_concat (b : Bucket) (pre us : List Hash) (h : Hash) :
    miscounted b pre (us ++ [h]) =
      miscounted b pre us + if indexL h = b ∧ ¬ Pthread.FindsSlot (pre ++ us) h then 1 else 0 := by
  induction us generalizing pre with
  | nil => simp [miscounted]
  | cons u us ih =>
      rw [List.cons_append, miscounted, ih, miscounted, List.append_assoc, Nat.add_assoc]
      rfl

/-- A packet is in a slot, or it is miscounted. -/
theorem slotted_add_miscounted (b : Bucket) (hs : List Hash) :
    Lthread.slotted (bucketTags b hs) + miscounted b [] hs = (bucketTags b hs).length := by
  induction hs using List.reverseRecOn with
  | nil => rfl
  | append_singleton hs h ih =>
      rw [miscounted_concat, bucketTags_concat, List.nil_append]
      by_cases hb : indexL h = b
      · subst hb
        rw [if_pos rfl, Lthread.slotted_concat, List.length_append, List.length_singleton, ← ih]
        by_cases hslot : Pthread.FindsSlot hs h
        · rw [if_pos ((Lthread.findsSlot_iff_idxOf hs h).mp hslot), if_neg (by simp [hslot])]
          omega
        · rw [if_neg (fun hidx => hslot ((Lthread.findsSlot_iff_idxOf hs h).mpr hidx)),
            if_pos ⟨rfl, hslot⟩]
          omega
      · rw [if_neg hb, if_neg (by simp [hb]), List.append_nil, Nat.add_zero, ih]

/-- Over all buckets, the packets that found a slot and the others. -/
theorem sum_miscounted (pre us : List Hash) :
    ∑ b, miscounted b pre us + Pthread.recorded pre us = us.length := by
  induction us generalizing pre with
  | nil =>
      rw [Pthread.recorded, Nat.add_zero]
      exact Finset.sum_eq_zero fun b _ => rfl
  | cons h us ih =>
      have hand : ∀ b, (if indexL h = b ∧ ¬ Pthread.FindsSlot pre h then 1 else 0) =
          if indexL h = b then (if Pthread.FindsSlot pre h then 0 else 1) else 0 := by
        intro b
        by_cases hb : indexL h = b <;> by_cases hslot : Pthread.FindsSlot pre h <;> simp [hb, hslot]
      have hsum : ∑ b, miscounted b pre (h :: us) =
          (if Pthread.FindsSlot pre h then 0 else 1) + ∑ b, miscounted b (pre ++ [h]) us := by
        simp only [miscounted, hand]
        rw [Finset.sum_add_distrib, Finset.sum_ite_eq Finset.univ (indexL h),
          if_pos (Finset.mem_univ _)]
      rw [hsum, Pthread.recorded, List.length_cons, ← ih (pre ++ [h])]
      split <;> omega

/-! ## The counters -/

/-- A bucket records every packet that comes to it. -/
theorem total_recordAll (ipg : SlotIpg w S) (ps : List (BitVec 64 × Hash)) (b : Bucket) :
    (recordAll (DoubleHash.packet ipg) ps (fun _ => DoubleHash.PktCount.init ipg) b).total =
      ((bucketTags b (ps.map Prod.snd)).length : BitVec w) := by
  have hcount : ∀ (ts : List Tag) (n : BitVec w),
      ts.foldl (fun n _ => n + 1) n = n + (ts.length : BitVec w) := by
    intro ts
    induction ts with
    | nil => simp
    | cons t ts ih =>
        intro n
        rw [List.foldl_cons, ih, List.length_cons, Nat.cast_succ, add_assoc, add_comm 1]
  have hinit : (DoubleHash.PktCount.init ipg).total = 0 := by
    show (0 : BitVec w) + 0 + 0 = 0
    simp
  rw [view_recordAll_tags _ DoubleHash.PktCount.total (fun _ n => n + 1)
    (DoubleHash.total_packet ipg), hcount, hinit, zero_add]

/-- `ctr[2]` has counted the miscounted packets of its bucket. -/
theorem ctr2_recordAll (ipg : SlotIpg w S) (ps : List (BitVec 64 × Hash)) (b : Bucket) :
    (recordAll (DoubleHash.packet ipg) ps (fun _ => DoubleHash.PktCount.init ipg) b).ctr2 =
      (miscounted b [] (ps.map Prod.snd) : BitVec w) := by
  have htotal := total_recordAll ipg ps b
  obtain ⟨hslot0, hslot1⟩ := DoubleHash.slots_recordAll ipg ps b
  generalize recordAll (DoubleHash.packet ipg) ps (fun _ => DoubleHash.PktCount.init ipg) b = e
    at htotal hslot0 hslot1 ⊢
  have h0 : e.ctr0 = (node (bucketTags b (ps.map Prod.snd)) 0 : Tag × BitVec w).2 :=
    congrArg Prod.snd hslot0
  have h1 : e.ctr1 = (node (bucketTags b (ps.map Prod.snd)) 1 : Tag × BitVec w).2 :=
    congrArg Prod.snd hslot1
  rw [DoubleHash.PktCount.total, h0, h1, ← node_snd_cast, ← node_snd_cast,
    ← slotted_add_miscounted, Lthread.slotted, Nat.cast_add, Nat.cast_add] at htotal
  exact add_left_cancel htotal

theorem toNat_doubleHashHandler (pktCtr : Bucket → DoubleHash.PktCount 32 S) :
    (doubleHashHandler pktCtr).toNat = ∑ b, (pktCtr b).ctr2.toNat := by
  have hsum := Buckets.foldl_finRange id
    (fun (sum : BitVec 64) i => sum + (pktCtr i).ctr2.setWidth 64)
    (fun b => (((pktCtr b).ctr2.toNat : ℕ) : BitVec 64)) (fun acc b => by
      have hcast : (pktCtr b).ctr2.setWidth 64 = ((pktCtr b).ctr2.toNat : BitVec 64) := by
        apply BitVec.eq_of_toNat_eq
        rw [BitVec.natCast_eq_ofNat, BitVec.toNat_setWidth, BitVec.toNat_ofNat]
      rw [id, id, hcast]) 0
  have hlt : ∑ b, (pktCtr b).ctr2.toNat < 2 ^ 64 := by
    calc ∑ b, (pktCtr b).ctr2.toNat
      _ ≤ ∑ _b : Bucket, 2 ^ 32 := Finset.sum_le_sum fun b _ => (pktCtr b).ctr2.isLt.le
      _ = flowNum * 2 ^ 32 := by
          rw [Finset.sum_const, Finset.card_univ, Fintype.card_fin, smul_eq_mul]
      _ < 2 ^ 64 := by decide
  rw [id, id] at hsum
  rw [doubleHashHandler, hsum, zero_add, ← Nat.cast_sum, BitVec.natCast_eq_ofNat,
    BitVec.toNat_ofNat, Nat.mod_eq_of_lt hlt]

/-- **The number of miscounted packets** that is printed is never too high, and it is right as long
as fewer than `2 ^ 32` packets find no slot in any one bucket. -/
theorem printedMiscounted_iff (ipg : SlotIpg 32 S) (bursts : List (Fin n × List Hash)) :
    (doubleHashHandler (doubleHash ipg bursts).table).toNat +
        Pthread.recorded [] (received bursts) ≤ (received bursts).length ∧
      ((doubleHashHandler (doubleHash ipg bursts).table).toNat +
          Pthread.recorded [] (received bursts) = (received bursts).length ↔
        ∀ b, miscounted b [] (received bursts) < 2 ^ 32) := by
  have hctr : ∀ b, ((doubleHash ipg bursts).table b).ctr2.toNat =
      miscounted b [] (received bursts) % 2 ^ 32 := by
    intro b
    have hctr2 := ctr2_recordAll ipg (met .before 0 bursts) b
    rw [map_snd_met] at hctr2
    rw [doubleHash, table_foldl_burst, hctr2, BitVec.natCast_eq_ofNat, BitVec.toNat_ofNat]
  have hle : ∀ b ∈ Finset.univ,
      miscounted b [] (received bursts) % 2 ^ 32 ≤ miscounted b [] (received bursts) :=
    fun b _ => Nat.mod_le _ _
  have hsum := sum_miscounted [] (received bursts)
  have hprinted := Finset.sum_le_sum hle
  have hright := Finset.sum_eq_sum_iff_of_le hle
  rw [toNat_doubleHashHandler, Finset.sum_congr rfl fun b _ => hctr b]
  refine ⟨by omega, ?_⟩
  have hiff : ∑ b, miscounted b [] (received bursts) % 2 ^ 32 +
      Pthread.recorded [] (received bursts) = (received bursts).length ↔
      ∑ b, miscounted b [] (received bursts) % 2 ^ 32 = ∑ b, miscounted b [] (received bursts) := by
    omega
  rw [hiff, hright]
  simp only [Finset.mem_univ, true_imp_iff, Nat.mod_eq_iff_lt (Nat.two_pow_pos 32).ne']

end RunToCompletion
end FloWatcher
