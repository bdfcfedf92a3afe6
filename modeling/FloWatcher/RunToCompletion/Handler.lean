import FloWatcher.RunToCompletion.Loop

/-!
# What the signal handler prints

`handler` walks the whole table once and adds up flows and packets in 64-bit variables. Both
table layouts with chains come down to visiting a list of counters per bucket (`totals`), and free
entries behind the last used one contribute nothing, so the totals are a matter of the padded
lists alone (`totals_congr`).
-/

namespace FloWatcher
namespace RunToCompletion

open FirstFit

variable {S : Type}

/-- The variables `fls`/`flows` and `sum` of `handler`. -/
structure Totals where
  flows : BitVec 64
  packets : BitVec 64
  deriving DecidableEq, Repr

/-- `sum += f->ctr; if (f->ctr) fls += 1;` -/
def visit (acc : Totals) (ctr : BitVec 32) : Totals :=
  { flows := if ctr ≠ 0 then acc.flows + 1 else acc.flows
    packets := acc.packets + ctr.setWidth 64 }

/-- `if (ctr[j] > 0) { flows += 1; sum += ctr[j]; }` -/
def visitSlot (acc : Totals) (ctr : BitVec 32) : Totals :=
  if 0 < ctr then { flows := acc.flows + 1, packets := acc.packets + ctr.setWidth 64 } else acc

/-- `handler` of the `LINKED_LIST` build. -/
def linkedListHandler (flows : Bucket → List (FlowEntry 32 S)) : Totals :=
  (List.finRange flowNum).foldl
    (fun acc i => (flows i).foldl (fun acc f => visit acc f.ctr) acc) ⟨0, 0⟩

/-- `handler` of the `HASH_LIST` build. -/
def hashListHandler (pktCtr : Bucket → HashList.PktCount 32 S) : Totals :=
  (List.finRange flowNum).foldl
    (fun acc i =>
      (pktCtr i).flows.foldl (fun acc f => visit acc f.ctr)
        (visitSlot (visitSlot acc (pktCtr i).ctr0) (pktCtr i).ctr1)) ⟨0, 0⟩

/-- `handler` of the `DOUBLE_HASH` build: the number of miscounted packets. -/
def doubleHashHandler (pktCtr : Bucket → DoubleHash.PktCount 32 S) : BitVec 64 :=
  (List.finRange flowNum).foldl (fun sum i => sum + (pktCtr i).ctr2.setWidth 64) 0

/-! ## The totals of a table of counters -/

def totals (counts : Bucket → List (Tag × BitVec 32)) : Totals :=
  (List.finRange flowNum).foldl (fun acc i => (counts i).foldl (fun acc e => visit acc e.2) acc)
    ⟨0, 0⟩

theorem visit_zero (acc : Totals) : visit acc 0 = acc := by
  simp [visit]

theorem visitSlot_eq_visit (acc : Totals) (ctr : BitVec 32) : visitSlot acc ctr = visit acc ctr := by
  have hpos : 0 < ctr ↔ ctr ≠ 0 := by
    constructor
    · intro h h0
      subst h0
      exact absurd h (by decide)
    · intro h
      exact Nat.pos_of_ne_zero fun h0 => h (BitVec.eq_of_toNat_eq h0)
  unfold visitSlot
  split
  · next h => rw [visit, if_pos (hpos.mp h)]
  · next h =>
      have h0 : ctr = 0 := by_contra fun h0 => h (hpos.mpr h0)
      rw [h0, visit_zero]

theorem linkedListHandler_eq (flows : Bucket → List (FlowEntry 32 S)) :
    linkedListHandler flows = totals fun b => (flows b).map FlowEntry.count := by
  unfold linkedListHandler totals
  simp only [List.foldl_map]
  rfl

theorem hashListHandler_eq (pktCtr : Bucket → HashList.PktCount 32 S) :
    hashListHandler pktCtr = totals fun b => (pktCtr b).counts := by
  unfold hashListHandler totals HashList.PktCount.counts
  simp only [visitSlot_eq_visit, List.foldl_append, List.foldl_map]
  rfl

/-- Free entries at the end of a list are visited in vain. -/
theorem foldl_visit_trim (es : List (Tag × BitVec 32)) (acc : Totals) :
    (trim es).foldl (fun acc e => visit acc e.2) acc = es.foldl (fun acc e => visit acc e.2) acc := by
  induction es using List.reverseRecOn with
  | nil => rfl
  | append_singleton es e ih =>
      by_cases he : e = (0, 0)
      · subst he
        rw [trim, List.rdropWhile_concat_pos _ _ _ (by simp), ← trim, ih, List.foldl_append]
        exact (visit_zero _).symm
      · rw [trim, List.rdropWhile_concat_neg _ _ _ (by simpa using he)]

/-- **The totals depend on the padded lists only.** -/
theorem totals_congr {counts counts' : Bucket → List (Tag × BitVec 32)}
    (h : ∀ b i, entryAt (counts b) i = entryAt (counts' b) i) : totals counts = totals counts' := by
  unfold totals
  congr 1
  funext acc b
  rw [← foldl_visit_trim, trim_eq_of_entryAt (h b), foldl_visit_trim]

/-! ## The number of flows printed -/

theorem foldl_visit_flows (es : List (Tag × BitVec 32)) (acc : Totals) :
    (es.foldl (fun acc e => visit acc e.2) acc).flows =
      acc.flows + (es.countP (fun e => e.2 ≠ 0) : ℕ) := by
  induction es generalizing acc with
  | nil => simp
  | cons e es ih =>
      rw [List.foldl_cons, ih, List.countP_cons, visit]
      by_cases h : e.2 = 0
      · simp [h]
      · simp only [ne_eq, h, not_false_eq_true, if_true, decide_true]
        push_cast
        ring

/-- The flows printed are the entries with a nonzero counter. -/
theorem totals_flows (counts : Bucket → List (Tag × BitVec 32)) :
    (totals counts).flows = (∑ b, (counts b).countP (fun e => e.2 ≠ 0) : ℕ) := by
  have hsum := Buckets.foldl_finRange Totals.flows
    (fun acc i => (counts i).foldl (fun acc e => visit acc e.2) acc)
    (fun b => ((((counts b).countP fun e => e.2 ≠ 0) : ℕ) : BitVec 64))
    (fun acc b => foldl_visit_flows (counts b) acc) ⟨0, 0⟩
  rw [totals, hsum, Nat.cast_sum]
  exact zero_add _

end RunToCompletion
end FloWatcher
