import FloWatcher.Pthread.DoubleHash
import FloWatcher.RunToCompletion.Ipg
import FloWatcher.Statistics.Moments
import FloWatcher.Table.Branches

/-!
# The running mean of the pthread program

With `IPG` on, a slot of `DOUBLE_HASH` keeps the mean of its gaps: it multiplies `avg` by `ctr - 1`
after it has incremented `ctr`, and adds the new gap. A branch that starts a slot increments `ctr`
as well and copies `ipg` to `avg`. This does no harm because nothing has been measured in a slot
whose tag is still `0` (`MeanOf`).
-/

namespace FloWatcher
namespace Pthread

open Loop
open RunToCompletion (gap)
open Statistics (addValue addValue_mul)

variable {n : Nat}

/-- The fields `ipg[j]`, `avg[j]` and `stdDev[j]`. -/
structure SlotStats where
  ipg : BitVec 64
  avg : ℚ
  stdDev : ℚ
  deriving DecidableEq, Repr

/-- `(avg * (ctr - 1) + curr) / (float)ctr`, in exact arithmetic. -/
def average (avg : ℚ) (ctr : BitVec 64) (curr : BitVec 64) : ℚ :=
  (avg * (ctr - 1).toNat + curr.toInt) / ctr.toNat

/-- The `IPG` blocks of `lcore_main_count_double_hash`. `sqrt(pow(x, 2))` is `|x|`. -/
def doubleHashIpg : SlotIpg 64 SlotStats where
  init := { ipg := 0, avg := 0, stdDev := 0 }
  start s := { s with avg := s.ipg.toNat }
  hit _ global ctr s :=
    let curr := gap global s.ipg
    { ipg := global, avg := average s.avg ctr curr, stdDev := |curr.toInt - s.avg| }

/-- In a tag-match branch: the divisor and `curr`. -/
def seen (global : BitVec 64) (ctr : BitVec 64) (s : SlotStats) : BitVec 64 × BitVec 64 :=
  (ctr, gap global s.ipg)

def branches (ps : List (BitVec 64 × Hash)) (b : Bucket) : List (Branch (BitVec 64 × BitVec 64)) :=
  trace (packet doubleHashIpg) (fun global indexH e => e.toSlots.branch (seen global) indexH) ps
    (fun _ => DoubleHash.PktCount.init doubleHashIpg) b

def hits {D : Type} (j : Nat) (branches : List (Branch D)) : List D :=
  branches.filterMap fun
    | .hit i d => if i = j then some d else none
    | _ => none

def currs (j : Nat) (branches : List (Branch (BitVec 64 × BitVec 64))) : List ℚ :=
  (hits j branches).map fun d => d.2.toInt

/-- The slot `(hi_f, ctr, stats)` has the running mean of what happened in it. -/
structure RunningMean (j : Nat) (branches : List (Branch (BitVec 64 × BitVec 64)))
    (slot : Tag × BitVec 64 × SlotStats) : Prop where
  /-- `ctr` counts the packets that are recorded in the slot -/
  counts : slot.2.1.toNat = packetsIn j branches
  /-- `avg` times `ctr` is the sum of the gaps -/
  sum : slot.2.2.avg * slot.2.1.toNat = (currs j branches).sum
  /-- nothing is divided by `0` -/
  divisors : ∀ d ∈ hits j branches, 1 ≤ d.1.toNat

/-! ## One slot -/

/-- After `r` packets, with the gaps adding up to `s`. -/
structure MeanOf (r : ℕ) (s : ℚ) (slot : Tag × BitVec 64 × SlotStats) : Prop where
  ctr : slot.2.1 = BitVec.ofNat 64 r
  mean : slot.2.2.avg * r = s
  /-- a free slot has measured nothing, but it may have counted packets -/
  free : slot.1 = 0 → slot.2.2.ipg = 0 ∧ s = 0

theorem meanOf_init (j : Fin 2) :
    MeanOf 0 0 ((DoubleHash.PktCount.init doubleHashIpg).toSlots.slot j) := by
  have hslot : (DoubleHash.PktCount.init doubleHashIpg).toSlots.slot j =
      (0, 0, doubleHashIpg.init) := by
    fin_cases j <;> rfl
  rw [hslot]
  exact ⟨rfl, mul_zero _, fun _ => ⟨rfl, rfl⟩⟩

/-- A branch that starts a slot, for the first time or again: `avg` becomes `ipg`, which is `0`, and
so is the sum. -/
theorem MeanOf.start {r : ℕ} {s : ℚ} {slot : Tag × BitVec 64 × SlotStats} (h : MeanOf r s slot)
    (hfree : slot.1 = 0) (t : Tag) :
    MeanOf (r + 1) s (t, slot.2.1 + 1, doubleHashIpg.start slot.2.2) := by
  obtain ⟨hipg, hs⟩ := h.free hfree
  refine ⟨?_, ?_, fun _ => ⟨hipg, hs⟩⟩
  · show slot.2.1 + 1 = _
    rw [h.ctr, BitVec.ofNat_add]
    rfl
  · show (slot.2.2.ipg.toNat : ℚ) * _ = s
    rw [hipg, hs]
    exact zero_mul _

/-- A counter that has not wrapped, before its increment and after it. -/
theorem toNat_ofNat_succ {r : ℕ} (hr : r + 1 < 2 ^ 64) :
    (BitVec.ofNat 64 r + 1).toNat = r + 1 ∧ (BitVec.ofNat 64 r + 1 - 1).toNat = r := by
  constructor
  · rw [BitVec.toNat_add, BitVec.toNat_ofNat]
    show (r % 2 ^ 64 + 1) % 2 ^ 64 = r + 1
    omega
  · rw [BitVec.add_sub_cancel, BitVec.toNat_ofNat]
    omega

/-- A tag-match branch: the mean gets one more value. -/
theorem MeanOf.hit {r : ℕ} {s : ℚ} {slot : Tag × BitVec 64 × SlotStats} (h : MeanOf r s slot)
    (hr : r + 1 < 2 ^ 64) {t : Tag} (ht : t ≠ 0) (j : Fin 2) (global : BitVec 64) :
    MeanOf (r + 1) (s + (gap global slot.2.2.ipg).toInt)
      (t, slot.2.1 + 1, doubleHashIpg.hit j global (slot.2.1 + 1) slot.2.2) := by
  obtain ⟨hnew, hold⟩ := toNat_ofNat_succ hr
  refine ⟨?_, ?_, fun h0 => absurd h0 ht⟩
  · show slot.2.1 + 1 = _
    rw [h.ctr, BitVec.ofNat_add]
    rfl
  · have havg : average slot.2.2.avg (slot.2.1 + 1) (gap global slot.2.2.ipg) =
        addValue slot.2.2.avg r (gap global slot.2.2.ipg).toInt := by
      rw [average, h.ctr, hnew, hold, addValue, Nat.cast_succ]
    show average slot.2.2.avg (slot.2.1 + 1) (gap global slot.2.2.ipg) * _ = _
    rw [havg, Nat.cast_succ, addValue_mul, h.mean]

/-! ## Runs -/

theorem hits_concat {D : Type} (j : Nat) (bs : List (Branch D)) (b : Branch D) :
    hits j (bs ++ [b]) = hits j bs ++ hits j [b] := List.filterMap_append

theorem currs_concat (j : Nat) (bs : List (Branch (BitVec 64 × BitVec 64)))
    (b : Branch (BitVec 64 × BitVec 64)) : currs j (bs ++ [b]) = currs j bs ++ currs j [b] := by
  rw [currs, hits_concat, List.map_append]
  rfl

/-- A branch that starts a slot computes no gap. -/
theorem hits_start {D : Type} (j i : Nat) : hits j [(Branch.start i : Branch D)] = [] := rfl

theorem hits_hit {D : Type} (j : Nat) (d : D) : hits j [Branch.hit j d] = [d] :=
  List.filterMap_cons_some (if_pos rfl)

theorem hits_of_counter_ne {D : Type} {j : Nat} {b : Branch D} (h : b.counter ≠ some j) :
    hits j [b] = [] := by
  cases b with
  | start i => rfl
  | hit i d => exact List.filterMap_cons_none (if_neg fun hij => h (congrArg some hij))
  | other => rfl

theorem toSlots_packet_eq {S : Type} (ipg : SlotIpg 64 S) (global : BitVec 64) (t : Tag)
    (e : DoubleHash.PktCount 64 S) :
    (packet ipg global t e).toSlots = (e.toSlots.update ipg global t).getD e.toSlots := by
  unfold packet
  cases e.toSlots.update ipg global t with
  | some s => rfl
  | none => rfl

/-- One packet in its bucket. -/
theorem meanOf_packet {bs : List (Branch (BitVec 64 × BitVec 64))}
    {e : DoubleHash.PktCount 64 SlotStats} (global : BitVec 64) (t : Tag) (j : Fin 2)
    (hmean : MeanOf (packetsIn j bs) (currs j bs).sum (e.toSlots.slot j))
    (hdiv : ∀ d ∈ hits j bs, 1 ≤ d.1.toNat) {b : Branch (BitVec 64 × BitVec 64)}
    (hb : e.toSlots.branch (seen global) t = b) (hlt : packetsIn j (bs ++ [b]) < 2 ^ 64) :
    MeanOf (packetsIn j (bs ++ [b])) (currs j (bs ++ [b])).sum
        ((packet doubleHashIpg global t e).toSlots.slot j) ∧
      ∀ d ∈ hits j (bs ++ [b]), 1 ≤ d.1.toNat := by
  rw [packetsIn_concat] at hlt ⊢
  rw [toSlots_packet_eq, hits_concat, currs_concat, List.sum_append]
  -- a packet that concerns the other slot, or none
  have hskip : b.counter ≠ some (j : Nat) →
      ((e.toSlots.update doubleHashIpg global t).getD e.toSlots).slot j = e.toSlots.slot j →
      MeanOf (packetsIn j bs + if b.counter = some (j : Nat) then 1 else 0)
          ((currs j bs).sum + (currs j [b]).sum)
          (((e.toSlots.update doubleHashIpg global t).getD e.toSlots).slot j) ∧
        ∀ d ∈ hits j bs ++ hits j [b], 1 ≤ d.1.toNat := by
    intro hne hslot
    rw [if_neg hne, hslot, currs, currs, hits_of_counter_ne hne, List.append_nil, List.map_nil,
      List.sum_nil, add_zero, add_zero]
    exact ⟨hmean, hdiv⟩
  have hne : ∀ {i : Fin 2}, i ≠ j → some (i : Nat) ≠ some (j : Nat) :=
    fun hij h => hij (Fin.ext (Option.some.inj h))
  rcases e.toSlots.branch_cases doubleHashIpg (seen global) global t with
    ⟨i, hbranch, hfree, hupdate⟩ | ⟨i, hbranch, -, ht, hupdate⟩ | ⟨hbranch, hupdate⟩
  · obtain rfl := hb.symm.trans hbranch
    by_cases hij : i = j
    · subst hij
      rw [Branch.counter_start, if_pos rfl, hupdate, Function.update_self, currs, currs, hits_start,
        List.append_nil, List.map_nil, List.sum_nil, add_zero]
      exact ⟨hmean.start hfree t, hdiv⟩
    · apply hskip (hne hij)
      rw [hupdate, Function.update_of_ne (Ne.symm hij)]
  · obtain rfl := hb.symm.trans hbranch
    by_cases hij : i = j
    · subst hij
      rw [Branch.counter_hit, if_pos rfl] at hlt ⊢
      rw [hupdate, Function.update_self, currs, currs, hits_hit, List.map_singleton,
        List.sum_singleton]
      refine ⟨hmean.hit hlt ht i global, ?_⟩
      intro d hd
      rcases List.mem_append.mp hd with hd | hd
      · exact hdiv d hd
      · obtain rfl := List.mem_singleton.mp hd
        show 1 ≤ ((e.toSlots.slot i).2.1 + 1).toNat
        rw [hmean.ctr, (toNat_ofNat_succ hlt).1]
        exact Nat.le_add_left 1 _
    · apply hskip (hne hij)
      rw [hupdate, Function.update_of_ne (Ne.symm hij)]
  · obtain rfl := hb.symm.trans hbranch
    apply hskip
    · intro h
      cases h
    · rw [hupdate]
      rfl

theorem branches_concat (ps : List (BitVec 64 × Hash)) (p : BitVec 64 × Hash) (b : Bucket) :
    branches (ps ++ [p]) b =
      branches ps b ++
        if indexL p.2 = b then
          [(table doubleHashIpg ps b).toSlots.branch (seen p.1) (indexH p.2)]
        else [] := trace_concat ..

theorem table_concat {S : Type} (ipg : SlotIpg 64 S) (ps : List (BitVec 64 × Hash))
    (p : BitVec 64 × Hash) (b : Bucket) :
    table ipg (ps ++ [p]) b =
      if indexL p.2 = b then packet ipg p.1 (indexH p.2) (table ipg ps b) else table ipg ps b :=
  recordAll_concat ..

/-- **After any packets, with any values of `global`**, as long as the counter of the slot is below
`2 ^ 64`. -/
theorem meanOf_table (ps : List (BitVec 64 × Hash)) (b : Bucket) (j : Fin 2)
    (hlt : packetsIn j (branches ps b) < 2 ^ 64) :
    MeanOf (packetsIn j (branches ps b)) (currs j (branches ps b)).sum
        ((table doubleHashIpg ps b).toSlots.slot j) ∧
      ∀ d ∈ hits j (branches ps b), 1 ≤ d.1.toNat := by
  induction ps using List.reverseRecOn with
  | nil =>
      refine ⟨meanOf_init j, ?_⟩
      intro d hd
      exact absurd hd List.not_mem_nil
  | append_singleton ps p ih =>
      rw [branches_concat] at hlt ⊢
      rw [table_concat]
      by_cases hb : indexL p.2 = b
      · rw [if_pos hb] at hlt ⊢
        rw [if_pos hb]
        have hle : packetsIn j (branches ps b) < 2 ^ 64 := by
          rw [packetsIn_concat] at hlt
          exact lt_of_le_of_lt (Nat.le_add_right _ _) hlt
        obtain ⟨hmean, hdiv⟩ := ih hle
        exact meanOf_packet p.1 (indexH p.2) j hmean hdiv rfl hlt
      · rw [if_neg hb, List.append_nil] at hlt ⊢
        rw [if_neg hb]
        exact ih hlt

/-- **The running mean is exact** after the first `k` packets of a run, for every `k`. What the loop
leaves is what the other packets make of the table after these. -/
theorem runningMean_lcoreMainCountDoubleHash (bursts : List (Fin n × List Hash)) (k : ℕ)
    (b : Bucket) (j : Fin 2)
    (hlt : packetsIn j (branches ((met .after 0 bursts).take k) b) < 2 ^ 64) :
    RunningMean j (branches ((met .after 0 bursts).take k) b)
        ((table doubleHashIpg ((met .after 0 bursts).take k) b).toSlots.slot j) ∧
      (lcoreMainCountDoubleHash doubleHashIpg bursts).table =
        recordAll (packet doubleHashIpg) ((met .after 0 bursts).drop k)
          (table doubleHashIpg ((met .after 0 bursts).take k)) := by
  obtain ⟨hmean, hdiv⟩ := meanOf_table ((met .after 0 bursts).take k) b j hlt
  have hcounts : ((table doubleHashIpg ((met .after 0 bursts).take k) b).toSlots.slot j).2.1.toNat =
      packetsIn j (branches ((met .after 0 bursts).take k) b) := by
    rw [hmean.ctr, BitVec.toNat_ofNat, Nat.mod_eq_of_lt hlt]
  refine ⟨⟨hcounts, ?_, hdiv⟩, ?_⟩
  · rw [hcounts]
    exact hmean.mean
  · rw [table_lcoreMainCountDoubleHash, table, table, recordAll, recordAll, recordAll,
      ← Buckets.run_append, List.take_append_drop]

/-- A packet with tag `0` and two of a flow, from two queues, in bucket `0`. -/
theorem runningMean_lcoreMainCountDoubleHash_restarted :
    let ps := (met .after 0 [((0 : Fin 2), [0x00000000#32, 0x00010000#32]), (1, [0x00010000#32])]).take 3
    packetsIn 0 (branches ps (indexL 0)) < 2 ^ 64 ∧
      RunningMean 0 (branches ps (indexL 0))
        ((table doubleHashIpg ps (indexL 0)).toSlots.slot 0) ∧
      (lcoreMainCountDoubleHash doubleHashIpg
        [((0 : Fin 2), [0x00000000#32, 0x00010000#32]), (1, [0x00010000#32])]).table =
          recordAll (packet doubleHashIpg) [] (table doubleHashIpg ps) := by
  have hlt : packetsIn ((0 : Fin 2) : Nat) (branches ((met .after 0
      [((0 : Fin 2), [0x00000000#32, 0x00010000#32]), (1, [0x00010000#32])]).take 3) (indexL 0)) <
        2 ^ 64 := by
    decide +kernel
  exact ⟨hlt, runningMean_lcoreMainCountDoubleHash _ 3 (indexL 0) 0 hlt⟩

end Pthread
end FloWatcher
