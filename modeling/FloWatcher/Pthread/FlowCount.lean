import FloWatcher.Pthread.HashList
import FloWatcher.Table.SlotsUsed

/-!
# The flows that the `DOUBLE_HASH` build of the pthread program prints

The signal handler counts the slots with a counter greater than zero.
-/

namespace FloWatcher
namespace Pthread

open DoubleHash Loop

variable {n : Nat} {S : Type}

/-- `handler` of the `DOUBLE_HASH` build: the value printed as the total number of flows. -/
def doubleHashHandler (pktCtr : Bucket → DoubleHash.PktCount 64 S) : BitVec 64 :=
  (List.finRange flowNum).foldl
    (fun sum i => visitSlot (visitSlot sum (pktCtr i).ctr0) (pktCtr i).ctr1) 0

theorem inUse_le_two {w : Nat} (s : Slots w S) : inUse s ≤ 2 := by
  unfold inUse
  split <;> split <;> omega

theorem toNat_doubleHashHandler (pktCtr : Bucket → DoubleHash.PktCount 64 S) :
    (doubleHashHandler pktCtr).toNat = ∑ b, inUse (pktCtr b).toSlots := by
  have hsum := Buckets.foldl_finRange id
    (fun sum i => visitSlot (visitSlot sum (pktCtr i).ctr0) (pktCtr i).ctr1)
    (fun b => ((inUse (pktCtr b).toSlots : ℕ) : BitVec 64))
    (fun acc b => by rw [visitSlot_eq, visitSlot_eq, inUse, Nat.cast_add, id, id, add_assoc]) 0
  have hle : ∑ b, inUse (pktCtr b).toSlots < 2 ^ 64 := by
    calc ∑ b, inUse (pktCtr b).toSlots
      _ ≤ ∑ _b : Bucket, 2 := Finset.sum_le_sum fun b _ => inUse_le_two _
      _ = flowNum * 2 := by rw [Finset.sum_const, Finset.card_univ, Fintype.card_fin, smul_eq_mul]
      _ < 2 ^ 64 := by decide
  rw [id, id] at hsum
  rw [doubleHashHandler, hsum, zero_add, ← Nat.cast_sum, BitVec.natCast_eq_ofNat, BitVec.toNat_ofNat,
    Nat.mod_eq_of_lt hle]

/-- **The number of flows printed** is never above that of the flows counted, and right when the
slots suffice for the flows of every bucket. Flows whose packets are still in a ring when `handler`
runs are not counted. -/
theorem printedFlows_eq_iff (ipg : SlotIpg 64 S) (bursts : List (Fin n × List Hash))
    (hlt : (received bursts).length < 2 ^ 64) :
    (doubleHashHandler (lcoreMainCountDoubleHash ipg bursts).table).toNat ≤
        (received bursts).toFinset.card ∧
      ((doubleHashHandler (lcoreMainCountDoubleHash ipg bursts).table).toNat =
          (received bursts).toFinset.card ↔ SlotsSuffice (received bursts)) := by
  have hprinted : (doubleHashHandler (lcoreMainCountDoubleHash ipg bursts).table).toNat =
      ∑ b, inUse (recordAll (DoubleHash.packet ipg) (met .after 0 bursts)
        (fun _ => DoubleHash.PktCount.init ipg) b).toSlots := by
    rw [toNat_doubleHashHandler, table_lcoreMainCountDoubleHash]
    exact Finset.sum_congr rfl fun b _ => congrArg inUse (toSlots_table ipg _ b)
  have hlen : (met .after 0 bursts).length < 2 ^ 64 := by rwa [length_met]
  have hslots := sum_inUse_eq_iff ipg hlen
  rwa [map_snd_met, ← hprinted] at hslots

/-- Two flows of one bucket. -/
theorem printedFlows_eq_iff_two_flows :
    let bursts : List (Fin 1 × List Hash) := [(0, [0x00010000#32, 0x00020000#32])]
    (doubleHashHandler (lcoreMainCountDoubleHash (SlotIpg.off 64) bursts).table).toNat ≤
        (received bursts).toFinset.card ∧
      ((doubleHashHandler (lcoreMainCountDoubleHash (SlotIpg.off 64) bursts).table).toNat =
          (received bursts).toFinset.card ↔ SlotsSuffice (received bursts)) :=
  printedFlows_eq_iff (SlotIpg.off 64) _ (by decide)

end Pthread
end FloWatcher
