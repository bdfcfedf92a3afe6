import FloWatcher.Loop
import FloWatcher.Table.HashList

/-!
# The branches of a bucket

Which counter of its bucket a packet raises, and in which branch: one that starts an entry, or the
tag-match branch, where a build with `IPG` divides by the counter it has just incremented. The trace
of a bucket lists the branches that its packets take.
-/

namespace FloWatcher

open FirstFit

variable {w : Nat} {S D : Type}

/-- The branch that a packet takes in its bucket. Counters `0` and `1` are those of the slots, the
others those of the chain. -/
inductive Branch (D : Type) where
  /-- counter `i`, of an entry that was empty or that is new -/
  | start (i : Nat)
  /-- counter `i`, of an entry with the packet's tag, and what is seen there -/
  | hit (i : Nat) (seen : D)
  /-- neither of the slots -/
  | other

def Branch.counter : Branch D → Option Nat
  | .start i | .hit i _ => some i
  | .other => none

@[simp] theorem Branch.counter_start (i : Nat) : (start i : Branch D).counter = some i := rfl

@[simp] theorem Branch.counter_hit (i : Nat) (seen : D) : (hit i seen).counter = some i := rfl

@[simp] theorem Branch.counter_other : (other : Branch D).counter = none := rfl

def packetsIn (i : Nat) (branches : List (Branch D)) : Nat :=
  branches.countP fun b => b.counter = some i

theorem packetsIn_concat (i : Nat) (branches : List (Branch D)) (b : Branch D) :
    packetsIn i (branches ++ [b]) =
      packetsIn i branches + if b.counter = some i then 1 else 0 := by
  unfold packetsIn
  rw [List.countP_append, List.countP_singleton]
  simp only [decide_eq_true_eq]

/-! ## The slots -/

/-- The slot branches, in the order of the code. `seen` gets the counter after its increment and
the fields of the slot. -/
def Slots.branch (seen : BitVec w → S → D) (indexH : Tag) (s : Slots w S) : Branch D :=
  if s.hiF1 = 0 then
    .start 0
  else if s.hiF2 = 0 ∧ s.hiF1 ≠ indexH then
    .start 1
  else if s.hiF1 = indexH then
    .hit 0 (seen (s.ctr0 + 1) s.stats0)
  else if s.hiF2 = indexH then
    .hit 1 (seen (s.ctr1 + 1) s.stats1)
  else
    .other

theorem Slots.counter_lt {seen : BitVec w → S → D} {t : Tag} {s : Slots w S} {i : Nat}
    (h : (s.branch seen t).counter = some i) : i < 2 := by
  unfold Slots.branch at h
  split at h
  · cases h
    exact Nat.two_pos
  · split at h
    · cases h
      exact Nat.one_lt_two
    · split at h
      · cases h
        exact Nat.two_pos
      · split at h
        · cases h
          exact Nat.one_lt_two
        · cases h

def Slots.slot (s : Slots w S) : Fin 2 → Tag × BitVec w × S :=
  ![(s.hiF1, s.ctr0, s.stats0), (s.hiF2, s.ctr1, s.stats1)]

/-- What a packet does to the slots, and the branch that it takes there: it starts a slot that is
free, it hits a slot of its tag, or it finds no slot. -/
theorem Slots.branch_cases (ipg : SlotIpg w S) (seen : BitVec w → S → D) (global : BitVec 64)
    (t : Tag) (s : Slots w S) :
    (∃ j : Fin 2, s.branch seen t = .start j ∧ (s.slot j).1 = 0 ∧
      ((s.update ipg global t).getD s).slot =
        Function.update s.slot j (t, (s.slot j).2.1 + 1, ipg.start (s.slot j).2.2)) ∨
    (∃ j : Fin 2, s.branch seen t = .hit j (seen ((s.slot j).2.1 + 1) (s.slot j).2.2) ∧
      (s.slot j).1 = t ∧ t ≠ 0 ∧
      ((s.update ipg global t).getD s).slot =
        Function.update s.slot j
          (t, (s.slot j).2.1 + 1, ipg.hit j global ((s.slot j).2.1 + 1) (s.slot j).2.2)) ∨
    (s.branch seen t = .other ∧ s.update ipg global t = none) := by
  have hzero : ∀ a b c : Tag × BitVec w × S, Function.update ![a, b] 0 c = ![c, b] := by
    intro a b c
    funext i
    fin_cases i <;> rfl
  have hone : ∀ a b c : Tag × BitVec w × S, Function.update ![a, b] 1 c = ![a, c] := by
    intro a b c
    funext i
    fin_cases i <;> rfl
  unfold Slots.branch Slots.update
  by_cases h1 : s.hiF1 = 0
  · left
    rw [if_pos h1, if_pos h1]
    exact ⟨0, rfl, h1, (hzero ..).symm⟩
  · rw [if_neg h1, if_neg h1]
    by_cases h2 : s.hiF2 = 0 ∧ s.hiF1 ≠ t
    · left
      rw [if_pos h2, if_pos h2]
      exact ⟨1, rfl, h2.1, (hone ..).symm⟩
    · rw [if_neg h2, if_neg h2]
      right
      by_cases h3 : s.hiF1 = t
      · left
        rw [if_pos h3, if_pos h3]
        refine ⟨0, rfl, h3, fun h => h1 (h3.trans h), ?_⟩
        rw [← h3]
        exact (hzero ..).symm
      · rw [if_neg h3, if_neg h3]
        by_cases h4 : s.hiF2 = t
        · left
          rw [if_pos h4, if_pos h4]
          refine ⟨1, rfl, h4, fun h => h2 ⟨h4.trans h, h3⟩, ?_⟩
          rw [← h4]
          exact (hone ..).symm
        · right
          rw [if_neg h4, if_neg h4]
          exact ⟨rfl, rfl⟩

/-! ## The chain -/

namespace HashList

/-- The branch taken at the nodes of a chain that starts with counter `i`. -/
def walkBranch (seen : BitVec w → S → D) (indexH : Tag) : Nat → List (FlowEntry w S) → Branch D
  | i, [] => .start i
  | i, f :: next =>
      if f.rssHigh = indexH then
        .hit i (seen (f.ctr + 1) f.stats)
      else if f.rssHigh = 0 then
        .start i
      else
        walkBranch seen indexH (i + 1) next

/-- The branch that a packet takes in a bucket of `HASH_LIST`. -/
def branch (seen : BitVec w → S → D) (indexH : Tag) (e : PktCount w S) : Branch D :=
  match e.toSlots.branch seen indexH with
  | .other => walkBranch seen indexH 2 e.flows
  | b => b

/-- In the first entry that takes the packet. A node with tag `0` that is found by a packet with tag
`0` is hit. -/
theorem walkBranch_eq (seen : BitVec w → D) (t : Tag) (i : Nat) (es : List (FlowEntry w S)) :
    walkBranch (fun ctr _ => seen ctr) t i es =
      match (es.map FlowEntry.count)[place t (es.map FlowEntry.count)]? with
      | some (t', ctr) =>
          if t' = t then .hit (i + place t (es.map FlowEntry.count)) (seen (ctr + 1))
          else .start (i + place t (es.map FlowEntry.count))
      | none => .start (i + place t (es.map FlowEntry.count)) := by
  induction es generalizing i with
  | nil => rfl
  | cons f next ih =>
      rw [walkBranch, List.map_cons, place_cons]
      by_cases ht : f.rssHigh = t
      · have htakes : Takes t f.count := Or.inr ht
        rw [if_pos ht, if_pos htakes]
        exact (if_pos ht).symm
      · rw [if_neg ht]
        by_cases h0 : f.rssHigh = 0
        · have htakes : Takes t f.count := Or.inl h0
          rw [if_pos h0, if_pos htakes]
          exact (if_neg ht).symm
        · have hnot : ¬ Takes t f.count := fun h => h.elim h0 ht
          rw [if_neg h0, if_neg hnot, ih, Nat.add_right_comm, Nat.add_assoc]
          rfl

/-- In the first entry of the bucket that takes the packet. A free slot is started even by a packet
with tag `0`. -/
theorem branch_eq (seen : BitVec w → D) (t : Tag) (e : PktCount w S) :
    branch (fun ctr _ => seen ctr) t e =
      match e.counts[place t e.counts]? with
      | some (t', ctr) =>
          if t' = t ∧ (t ≠ 0 ∨ 2 ≤ place t e.counts) then .hit (place t e.counts) (seen (ctr + 1))
          else .start (place t e.counts)
      | none => .start (place t e.counts) := by
  have hlist : e.counts = (e.hiF1, e.ctr0) :: (e.hiF2, e.ctr1) :: e.flows.map FlowEntry.count := rfl
  have htakes1 : Takes t (e.hiF1, e.ctr0) ↔ e.hiF1 = 0 ∨ e.hiF1 = t := Iff.rfl
  have htakes2 : Takes t (e.hiF2, e.ctr1) ↔ e.hiF2 = 0 ∨ e.hiF2 = t := Iff.rfl
  rw [hlist, place_cons, place_cons, branch, Slots.branch]
  by_cases h1 : e.hiF1 = 0
  · rw [if_pos h1, if_pos (htakes1.mpr (Or.inl h1))]
    refine (if_neg ?_).symm
    rintro ⟨h, h0 | hle⟩
    · exact h0 (h.symm.trans h1)
    · exact absurd hle (by omega)
  · rw [if_neg h1]
    by_cases h1t : e.hiF1 = t
    · rw [if_neg fun h => h.2 h1t, if_pos h1t, if_pos (htakes1.mpr (Or.inr h1t))]
      exact (if_pos ⟨h1t, Or.inl fun h => h1 (h1t.trans h)⟩).symm
    · rw [if_neg fun h => (htakes1.mp h).elim h1 h1t]
      by_cases h2 : e.hiF2 = 0
      · rw [if_pos ⟨h2, h1t⟩, if_pos (htakes2.mpr (Or.inl h2))]
        refine (if_neg ?_).symm
        rintro ⟨h, h0 | hle⟩
        · exact h0 (h.symm.trans h2)
        · exact absurd hle (by omega)
      · rw [if_neg fun h => h2 h.1, if_neg h1t]
        by_cases h2t : e.hiF2 = t
        · rw [if_pos h2t, if_pos (htakes2.mpr (Or.inr h2t))]
          exact (if_pos ⟨h2t, Or.inl fun h => h2 (h2t.trans h)⟩).symm
        · rw [if_neg h2t, if_neg fun h => (htakes2.mp h).elim h2 h2t]
          show walkBranch _ t 2 e.flows = _
          rw [walkBranch_eq, List.getElem?_cons_succ, List.getElem?_cons_succ, Nat.add_comm 2]
          simp only [Nat.le_add_left, or_true, and_true]

/-- A packet that finds no slot goes to a counter behind them. -/
theorem le_counter_walkBranch (seen : BitVec w → S → D) (t : Tag) (i : Nat)
    (es : List (FlowEntry w S)) :
    ∃ k, i ≤ k ∧ (walkBranch seen t i es).counter = some k := by
  induction es generalizing i with
  | nil => exact ⟨i, le_rfl, rfl⟩
  | cons f next ih =>
      rw [walkBranch]
      split
      · exact ⟨i, le_rfl, rfl⟩
      · split
        · exact ⟨i, le_rfl, rfl⟩
        · obtain ⟨k, hk, hcounter⟩ := ih (i + 1)
          exact ⟨k, by omega, hcounter⟩

end HashList

/-! ## Traces -/

namespace Loop

variable {E α : Type}

/-- What `obs` sees of each packet, when the bucket `e` gets the packets `ps`. -/
def sights (packet : BitVec 64 → Tag → E → E) (obs : BitVec 64 → Tag → E → α) :
    List (BitVec 64 × Hash) → E → List α
  | [], _ => []
  | p :: ps, e => obs p.1 (indexH p.2) e :: sights packet obs ps (packet p.1 (indexH p.2) e)

def trace (packet : BitVec 64 → Tag → E → E) (obs : BitVec 64 → Tag → E → α)
    (ps : List (BitVec 64 × Hash)) (T : Bucket → E) (b : Bucket) : List α :=
  sights packet obs (ps.filter (indexL ·.2 = b)) (T b)

theorem sights_concat (packet : BitVec 64 → Tag → E → E) (obs : BitVec 64 → Tag → E → α)
    (ps : List (BitVec 64 × Hash)) (p : BitVec 64 × Hash) (e : E) :
    sights packet obs (ps ++ [p]) e =
      sights packet obs ps e ++
        [obs p.1 (indexH p.2) (ps.foldl (fun e p => packet p.1 (indexH p.2) e) e)] := by
  induction ps generalizing e with
  | nil => rfl
  | cons q ps ih =>
      rw [List.cons_append, sights, ih]
      rfl

/-- One more packet is in the trace of its bucket, as it finds it. -/
theorem trace_concat (packet : BitVec 64 → Tag → E → E) (obs : BitVec 64 → Tag → E → α)
    (ps : List (BitVec 64 × Hash)) (p : BitVec 64 × Hash) (T : Bucket → E) (b : Bucket) :
    trace packet obs (ps ++ [p]) T b =
      trace packet obs ps T b ++
        if indexL p.2 = b then [obs p.1 (indexH p.2) (recordAll packet ps T b)] else [] := by
  unfold trace
  rw [List.filter_append]
  by_cases hb : indexL p.2 = b
  · rw [List.filter_singleton, if_pos hb, decide_eq_true hb, cond_true, sights_concat, recordAll,
      Buckets.run_apply]
  · rw [List.filter_singleton, if_neg hb, decide_eq_false hb, cond_false, List.append_nil,
      List.append_nil]

/-- One more packet changes its bucket. -/
theorem recordAll_concat (packet : BitVec 64 → Tag → E → E) (ps : List (BitVec 64 × Hash))
    (p : BitVec 64 × Hash) (T : Bucket → E) (b : Bucket) :
    recordAll packet (ps ++ [p]) T b =
      if indexL p.2 = b then packet p.1 (indexH p.2) (recordAll packet ps T b)
      else recordAll packet ps T b := by
  rw [recordAll, Buckets.run_append]
  show Function.update (recordAll packet ps T) (indexL p.2) _ b = _
  by_cases hb : indexL p.2 = b
  · rw [if_pos hb, ← hb, Function.update_self]
    rfl
  · rw [if_neg hb, Function.update_of_ne (Ne.symm hb)]

end Loop
end FloWatcher
