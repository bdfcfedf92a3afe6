import FloWatcher.FirstFit.Used
import FloWatcher.Pthread.HashList
import FloWatcher.RunToCompletion.Handler

/-!
# The `LINKED_LIST` build of the pthread program

At the end the signal handler goes through the chains to count the flows. Other than the handler of
the run-to-completion program, which visits every node, it leaves a chain at the first node that
has counted no packet. Nothing is lost: a packet that walks past a node leaves it used, so the used
nodes are the first of their chain (`usedFirst_linkedListTable`), and both handlers find the same
flows (`sameFlows_linkedList`).
-/

namespace FloWatcher
namespace Pthread

open FirstFit Loop

variable {n w : Nat} {S : Type}

/-! ## The loop -/

/-- The counting threads, with the bursts that they dequeue in the order in which they process
them. The hashes are those of the NIC, and no `rte_calloc` fails. -/
def lcoreMainCountLinkedList (ipg : LinkedListIpg 64 S) (bursts : List (Fin n × List Hash)) :
    State n (List (FlowEntry 64 S)) :=
  bursts.foldl (burst .after (linkedListPacket ipg))
    { re := 0, table := fun _ => chainInit 64 ipg.zero entryPerFlow }

def linkedListTable (ipg : LinkedListIpg 64 S) (ps : List (BitVec 64 × Hash)) :
    Bucket → List (FlowEntry 64 S) :=
  recordAll (linkedListPacket ipg) ps fun _ => chainInit 64 ipg.zero entryPerFlow

theorem table_lcoreMainCountLinkedList (ipg : LinkedListIpg 64 S)
    (bursts : List (Fin n × List Hash)) :
    (lcoreMainCountLinkedList ipg bursts).table = linkedListTable ipg (met .after 0 bursts) :=
  table_foldl_burst ..

/-! ## The handlers -/

/-- `while (f != NULL && f->ctr > 0) { sum += 1; f = f -> next; }` -/
def visitUsed (sum : BitVec 64) : List (FlowEntry 64 S) → BitVec 64
  | [] => sum
  | f :: next => if 0 < f.ctr then visitUsed (sum + 1) next else sum

/-- `handler` of the `LINKED_LIST` build: the value printed as the total number of flows. -/
def linkedListHandler (flows : Bucket → List (FlowEntry 64 S)) : BitVec 64 :=
  (List.finRange flowNum).foldl (fun sum i => visitUsed sum (flows i)) 0

/-- `while (f != NULL) { ... if (f -> ctr) fls += 1; f = f -> next; }`, the walk of the
run-to-completion program, for counters of any width. -/
def visitAll (fls : BitVec 64) : List (FlowEntry w S) → BitVec 64
  | [] => fls
  | f :: next => visitAll (if f.ctr ≠ 0 then fls + 1 else fls) next

/-- The flows that `handler` of the run-to-completion program finds. -/
def visitAllHandler (flows : Bucket → List (FlowEntry w S)) : BitVec 64 :=
  (List.finRange flowNum).foldl (fun fls i => visitAll fls (flows i)) 0

/-- At the width of that program's counters these are the flows it prints. -/
theorem visitAllHandler_eq (flows : Bucket → List (FlowEntry 32 S)) :
    visitAllHandler flows = (RunToCompletion.linkedListHandler flows).flows := by
  have hchain : ∀ (es : List (FlowEntry 32 S)) (acc : RunToCompletion.Totals),
      (es.foldl (fun acc f => RunToCompletion.visit acc f.ctr) acc).flows =
        visitAll acc.flows es := by
    intro es
    induction es with
    | nil => intro acc; rfl
    | cons f next ih => intro acc; exact ih (RunToCompletion.visit acc f.ctr)
  have htable : ∀ (l : List Bucket) (acc : RunToCompletion.Totals),
      (l.foldl (fun acc i => (flows i).foldl (fun acc f => RunToCompletion.visit acc f.ctr) acc)
        acc).flows = l.foldl (fun fls i => visitAll fls (flows i)) acc.flows := by
    intro l
    induction l with
    | nil => intro acc; rfl
    | cons b l ih => intro acc; rw [List.foldl_cons, List.foldl_cons, ih, hchain]
  exact (htable (List.finRange flowNum) ⟨0, 0⟩).symm

/-! ## The two walks -/

/-- The nodes that have counted a packet form a prefix of the chain. -/
def UsedFirst (es : List (FlowEntry 64 S)) : Prop := (es.filter fun f => 0 < f.ctr) <+: es

theorem usedFirst_of_pairwise {es : List (FlowEntry 64 S)}
    (h : es.Pairwise fun f g => 0 < g.ctr → 0 < f.ctr) : UsedFirst es := by
  induction h with
  | nil => exact List.nil_prefix
  | @cons f next hf _ ih =>
      unfold UsedFirst
      by_cases hused : 0 < f.ctr
      · rw [List.filter_cons_of_pos (by simpa using hused)]
        exact (List.prefix_cons_inj f).mpr ih
      · have hnone : (next.filter fun g => 0 < g.ctr) = [] := by
          apply List.filter_eq_nil_iff.mpr
          intro g hg hpos
          exact hused (hf g hg (of_decide_eq_true hpos))
        rw [List.filter_cons_of_neg (by simpa using hused), hnone]
        exact List.nil_prefix

theorem ctr_ne_zero_iff {c : BitVec w} : c ≠ 0 ↔ 0 < c := by
  rw [ne_eq, ← BitVec.toNat_inj, BitVec.lt_def]
  exact Nat.pos_iff_ne_zero.symm

/-- The full walk counts the used nodes. -/
theorem visitAll_eq (es : List (FlowEntry 64 S)) (fls : BitVec 64) :
    visitAll fls es = fls + (((es.filter fun f => 0 < f.ctr).length : ℕ) : BitVec 64) := by
  induction es generalizing fls with
  | nil => exact (add_zero fls).symm
  | cons f next ih =>
      rw [visitAll, ih]
      by_cases hused : 0 < f.ctr
      · rw [if_pos (ctr_ne_zero_iff.mpr hused), List.filter_cons_of_pos (by simpa using hused),
          List.length_cons, Nat.cast_succ, add_assoc, add_comm 1]
      · rw [if_neg (ctr_ne_zero_iff.not.mpr hused), List.filter_cons_of_neg (by simpa using hused)]

/-- The walk that stops at the first unused node counts the same nodes if these come first. -/
theorem UsedFirst.visitUsed_eq {es : List (FlowEntry 64 S)} (h : UsedFirst es) (sum : BitVec 64) :
    visitUsed sum es = visitAll sum es := by
  rw [visitAll_eq]
  induction es generalizing sum with
  | nil => exact (add_zero sum).symm
  | cons f next ih =>
      rw [visitUsed]
      by_cases hused : 0 < f.ctr
      · rw [UsedFirst, List.filter_cons_of_pos (by simpa using hused), List.prefix_cons_inj] at h
        rw [if_pos hused, ih h, List.filter_cons_of_pos (by simpa using hused), List.length_cons,
          Nat.cast_succ, add_assoc, add_comm 1]
      · rw [UsedFirst, List.filter_cons_of_neg (by simpa using hused)] at h
        have hnone : (next.filter fun g => 0 < g.ctr) = [] := by
          cases hfilter : next.filter fun g => 0 < g.ctr with
          | nil => rfl
          | cons g gs =>
              -- the first used node behind `f` would stand in the place of `f`
              rw [hfilter] at h
              have hmem : g ∈ next.filter fun g => 0 < g.ctr := hfilter ▸ List.mem_cons_self
              rw [(List.cons_prefix_cons.mp h).1] at hmem
              exact absurd (of_decide_eq_true (List.mem_filter.mp hmem).2) hused
        rw [if_neg hused, List.filter_cons_of_neg (by simpa using hused), hnone]
        exact (add_zero sum).symm

/-! ## The chains after any traffic -/

/-- No counter of the table gets to `2 ^ 64`: counters without a bound stay below it. -/
def CountersFit (hs : List Hash) : Prop :=
  ∀ b, ∀ e ∈ bumps (bucketTags b hs) (List.replicate entryPerFlow ((0, 0) : Tag × ℕ)), e.2 < 2 ^ 64

/-- Every traffic of fewer than `2 ^ 64` packets is of this kind. -/
theorem countersFit_of_length {hs : List Hash} (h : hs.length < 2 ^ 64) : CountersFit hs := by
  intro b e he
  have hle := snd_le_of_mem_bumps he
  have hbucket : (bucketTags b hs).length ≤ hs.length := by
    rw [bucketTags, Buckets.tagsOf, List.length_map]
    exact List.length_filter_le ..
  omega

theorem linkedListTable_counts (ipg : LinkedListIpg 64 S) (ps : List (BitVec 64 × Hash))
    (b : Bucket) :
    (linkedListTable ipg ps b).map FlowEntry.count =
      (bumps (bucketTags b (ps.map Prod.snd)) (List.replicate entryPerFlow ((0, 0) : Tag × ℕ))).map
        (Prod.map id Nat.cast) := by
  rw [map_bumps_replicate]
  exact map_count_recordAll ipg (by decide) ps b

/-- **The used nodes come first**, with or without packets of tag `0`. -/
theorem usedFirst_linkedListTable (ipg : LinkedListIpg 64 S) (ps : List (BitVec 64 × Hash))
    (hfit : CountersFit (ps.map Prod.snd)) (b : Bucket) : UsedFirst (linkedListTable ipg ps b) := by
  have hpos : ∀ {c : ℕ}, c < 2 ^ 64 → (0 < (c : BitVec 64) ↔ 0 < c) := by
    intro c hc
    rw [BitVec.lt_def, BitVec.natCast_eq_ofNat, BitVec.toNat_ofNat, Nat.mod_eq_of_lt hc]
    rfl
  have hcounts : ((linkedListTable ipg ps b).map FlowEntry.count).Pairwise
      fun e e' => 0 < e'.2 → 0 < e.2 := by
    rw [linkedListTable_counts, List.pairwise_map]
    apply (pairwise_bumps (bucketTags b (ps.map Prod.snd)) entryPerFlow).imp_of_mem
    intro e e' he he' hused h
    exact (hpos (hfit b e he)).mpr (hused ((hpos (hfit b e' he')).mp h))
  exact usedFirst_of_pairwise (List.pairwise_map.mp hcounts)

/-- What the handler prints is what the full walk counts, in every bucket and in all. -/
structure SameFlows (flows : Bucket → List (FlowEntry 64 S)) : Prop where
  usedFirst : ∀ b, UsedFirst (flows b)
  bucket : ∀ b sum, visitUsed sum (flows b) = visitAll sum (flows b)
  total : linkedListHandler flows = visitAllHandler flows

theorem sameFlows_of_usedFirst {flows : Bucket → List (FlowEntry 64 S)}
    (h : ∀ b, UsedFirst (flows b)) : SameFlows flows where
  usedFirst := h
  bucket b sum := (h b).visitUsed_eq sum
  total := by
    have hvisit : (fun sum b => visitUsed sum (flows b)) = fun sum b => visitAll sum (flows b) := by
      funext sum b
      exact (h b).visitUsed_eq sum
    rw [linkedListHandler, visitAllHandler, hvisit]

/-- **The walk that stops early misses no flow.** -/
theorem sameFlows_linkedList (ipg : LinkedListIpg 64 S) (bursts : List (Fin n × List Hash))
    (hfit : CountersFit (received bursts)) :
    SameFlows (lcoreMainCountLinkedList ipg bursts).table := by
  rw [table_lcoreMainCountLinkedList]
  apply sameFlows_of_usedFirst
  intro b
  apply usedFirst_linkedListTable
  rwa [map_snd_met]

/-- A packet of tag `0` between two flows of its bucket. -/
theorem sameFlows_linkedList_three_packets :
    SameFlows (lcoreMainCountLinkedList (LinkedListIpg.off 64)
      [((0 : Fin 1), [0x00010000#32, 0x00000000#32, 0x00020000#32])]).table :=
  sameFlows_linkedList (LinkedListIpg.off 64) _ (countersFit_of_length (by decide))

end Pthread
end FloWatcher
