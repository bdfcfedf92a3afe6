import FloWatcher.Basic

/-!
# Counting loops

All three programs count packets the same way: a worker takes a burst from its queue (of the NIC,
or the ring of its thread), adds the length of the burst to the counter of that queue, refreshes
`global` and records every packet in the flow table. The loops differ in the layout they update
and in whether `global` is refreshed before or after the burst is counted.

A run is given by its bursts, each with the queue it was taken from. Bursts are cut anywhere: what
the loop does to the table is what it does packet by packet, each packet with the value of
`global` it meets (`table_foldl_burst`).
-/

namespace FloWatcher
namespace Loop

variable {n : Nat} {E F : Type}

/-- The statics that a counting loop works on: the packet counters of the `n` queues (`re`, in
the pthread program `gCtr`) and the flow table. -/
structure State (n : Nat) (E : Type) where
  re : Fin n → BitVec 64
  table : Bucket → E

def globalOf (re : Fin n → BitVec 64) : BitVec 64 :=
  (List.finRange n).foldr (fun i global => global + re i) 0

theorem globalOf_eq_sum (re : Fin n → BitVec 64) : globalOf re = ∑ i, re i := by
  have hfold : ∀ l : List (Fin n), l.foldr (fun i global => global + re i) 0 = (l.map re).sum := by
    intro l
    induction l with
    | nil => rfl
    | cons i l ih => rw [List.foldr_cons, ih, List.map_cons, List.sum_cons, add_comm]
  rw [globalOf, hfold, ← List.ofFn_eq_map, List.sum_ofFn]

/-- Whether `global` is refreshed before or after `re[q] += nb_rx`. -/
inductive Refresh
  | before
  | after

def count (re : Fin n → BitVec 64) (q : Fin n) (nbRx : Nat) : Fin n → BitVec 64 :=
  Function.update re q (re q + BitVec.ofNat 64 nbRx)

/-- The value of `global` that the packets of a burst meet. -/
def Refresh.global (order : Refresh) (re : Fin n → BitVec 64) (q : Fin n) (nbRx : Nat) :
    BitVec 64 :=
  match order with
  | .before => globalOf re
  | .after => globalOf (count re q nbRx)

/-- One pass of a counting loop. -/
def burst (order : Refresh) (packet : BitVec 64 → Tag → E → E) (s : State n E)
    (b : Fin n × List Hash) : State n E :=
  if b.2 = [] then
    s -- `nb_rx == 0`: poll again
  else
    { re := count s.re b.1 b.2.length
      table := Buckets.run indexL (fun h => packet (order.global s.re b.1 b.2.length) (indexH h))
        b.2 s.table }

/-! ## Packet by packet -/

def received (bursts : List (Fin n × List Hash)) : List Hash := bursts.flatMap Prod.snd

def met (order : Refresh) : (Fin n → BitVec 64) → List (Fin n × List Hash) →
    List (BitVec 64 × Hash)
  | _, [] => []
  | re, b :: bs =>
      b.2.map (fun h => (order.global re b.1 b.2.length, h)) ++
        met order (count re b.1 b.2.length) bs

/-- Record a sequence of packets, each with its `global`. -/
def recordAll (packet : BitVec 64 → Tag → E → E) (ps : List (BitVec 64 × Hash)) (T : Bucket → E) :
    Bucket → E :=
  Buckets.run (fun p => indexL p.2) (fun p => packet p.1 (indexH p.2)) ps T

theorem map_snd_met (order : Refresh) (re : Fin n → BitVec 64)
    (bursts : List (Fin n × List Hash)) :
    (met order re bursts).map Prod.snd = received bursts := by
  induction bursts generalizing re with
  | nil => rfl
  | cons b bs ih =>
      have hcons : received (b :: bs) = b.2 ++ received bs := List.flatMap_cons
      rw [met, List.map_append, ih, hcons, List.map_map]
      simp [Function.comp_def]

theorem length_met (order : Refresh) (re : Fin n → BitVec 64)
    (bursts : List (Fin n × List Hash)) :
    (met order re bursts).length = (received bursts).length := by
  rw [← map_snd_met order re, List.length_map]

theorem count_zero (re : Fin n → BitVec 64) (q : Fin n) : count re q 0 = re := by
  simp [count]

/-- **A run of a counting loop, packet by packet.** -/
theorem table_foldl_burst (order : Refresh) (packet : BitVec 64 → Tag → E → E)
    (bursts : List (Fin n × List Hash)) (s : State n E) :
    (bursts.foldl (burst order packet) s).table = recordAll packet (met order s.re bursts) s.table := by
  induction bursts generalizing s with
  | nil => rfl
  | cons b bs ih =>
      rw [List.foldl_cons, ih, met, recordAll, recordAll, Buckets.run_append]
      unfold burst
      split
      · next h => rw [h, List.length_nil, count_zero]; rfl
      · rw [Buckets.run, Buckets.run, Buckets.run, Buckets.run, List.foldl_map]
        rfl

theorem sum_count (re : Fin n → BitVec 64) (q : Fin n) (nbRx : Nat) :
    ∑ i, count re q nbRx i = ∑ i, re i + (nbRx : BitVec 64) := by
  rw [count, Finset.sum_update_of_mem (Finset.mem_univ _), ← Finset.add_sum_erase _ re
    (Finset.mem_univ q), Finset.sdiff_singleton_eq_erase, add_right_comm, BitVec.natCast_eq_ofNat]

/-- The counters of the queues add up to the packets received. -/
theorem sum_re_foldl_burst (order : Refresh) (packet : BitVec 64 → Tag → E → E)
    (bursts : List (Fin n × List Hash)) (s : State n E) :
    ∑ q, (bursts.foldl (burst order packet) s).re q =
      ∑ q, s.re q + ((received bursts).length : BitVec 64) := by
  induction bursts generalizing s with
  | nil => simp [received]
  | cons b bs ih =>
      have hburst : ∑ q, (burst order packet s b).re q = ∑ q, s.re q + (b.2.length : BitVec 64) := by
        unfold burst
        split
        · next h => rw [h, List.length_nil, Nat.cast_zero, add_zero]
        · exact sum_count s.re b.1 b.2.length
      have hcons : received (b :: bs) = b.2 ++ received bs := List.flatMap_cons
      rw [List.foldl_cons, ih, hburst, hcons, List.length_append, Nat.cast_add, add_assoc]

/-- A measure of buckets that every packet raises by one counts the packets received. -/
theorem sum_table_foldl_burst {M : Type*} [AddCommMonoidWithOne M] (order : Refresh)
    (packet : BitVec 64 → Tag → E → E) (g : E → M) (hg : ∀ G t e, g (packet G t e) = g e + 1)
    (bursts : List (Fin n × List Hash)) (s : State n E) :
    ∑ b, g ((bursts.foldl (burst order packet) s).table b) =
      ∑ b, g (s.table b) + (received bursts).length := by
  rw [table_foldl_burst, ← map_snd_met order s.re, List.length_map]
  exact Buckets.sum_run (fun p : BitVec 64 × Hash => indexL p.2) _ g
    (fun p e => hg p.1 (indexH p.2) e) _ _

/-- A relation between the buckets of two tables that every packet keeps. -/
theorem rel_recordAll (R : E → F → Prop) (packet : BitVec 64 → Tag → E → E)
    (packet' : BitVec 64 → Tag → F → F)
    (hR : ∀ g t e e', R e e' → R (packet g t e) (packet' g t e')) (ps : List (BitVec 64 × Hash))
    (T : Bucket → E) (T' : Bucket → F) (hT : ∀ b, R (T b) (T' b)) (b : Bucket) :
    R (recordAll packet ps T b) (recordAll packet' ps T' b) :=
  Buckets.run_rel R (fun p e e' h => hR p.1 (indexH p.2) e e' h) ps hT b

/-- A view of the buckets that the packets respect depends, in each bucket, on its packets. -/
theorem view_recordAll (packet : BitVec 64 → Tag → E → E) (view : E → F)
    (f : BitVec 64 → Tag → F → F) (hview : ∀ g t e, view (packet g t e) = f g t (view e))
    (ps : List (BitVec 64 × Hash)) (T : Bucket → E) (b : Bucket) :
    view (recordAll packet ps T b) =
      (ps.filter (indexL ·.2 = b)).foldl (fun e p => f p.1 (indexH p.2) e) (view (T b)) := by
  rw [recordAll, Buckets.run_apply]
  exact (List.foldl_hom view fun e p => (hview p.1 (indexH p.2) e).symm).symm

/-- A view that a packet updates by its tag alone depends on the tags of the bucket. -/
theorem view_recordAll_tags (packet : BitVec 64 → Tag → E → E) (view : E → F) (f : Tag → F → F)
    (hview : ∀ g t e, view (packet g t e) = f t (view e)) (ps : List (BitVec 64 × Hash))
    (T : Bucket → E) (b : Bucket) :
    view (recordAll packet ps T b) =
      (bucketTags b (ps.map Prod.snd)).foldl (fun e t => f t e) (view (T b)) := by
  have htags : bucketTags b (ps.map Prod.snd) =
      (ps.filter (indexL ·.2 = b)).map (fun p => indexH p.2) := by
    rw [bucketTags, Buckets.tagsOf, List.filter_map, List.map_map]
    rfl
  rw [view_recordAll packet view (fun _ => f) hview, htags, List.foldl_map]

end Loop
end FloWatcher
