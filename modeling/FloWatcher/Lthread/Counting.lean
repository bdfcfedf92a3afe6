import FloWatcher.RunToCompletion.Ipg
import FloWatcher.Table.Divisors

/-!
# Counting in the lthread program

`lthread_tx_per_ring` has the branches of `double_hash`, with blocks of its own under `IPG`. Like
the counters of the run-to-completion program its counters have 32 bits, and all of them divide the
average by a counter that wraps: `divisorsRight_iff_fit` says for which packets this is right.
-/

namespace FloWatcher
namespace Lthread

open FirstFit Loop RunToCompletion

variable {n : Nat} {S : Type}

/-- The `IPG` blocks of `lthread_tx_per_ring`; `quantile` is `P` in a build with `QUANTILE`. A
branch that starts a slot sets `avg = ipg = 0`; the tag-match branches are those of `hash_list`. -/
def lthreadTxPerRingIpg (quantile : Option Quantile.Percentile) : SlotIpg 32 EntryStats where
  init :=
    { ipg := 0, avg := 0, stdDev := 0
      qt := quantile.map fun P => Quantile.init P zeroQuantile }
  start s := { s with avg := 0, ipg := 0 }
  hit := (hashListIpg quantile).slot.hit

/-- The tx lthreads, with the bursts that they dequeue, one after the other. Nothing keeps two tx
lthreads from updating a bucket at the same time, so every bucket has its packets from one of them;
and what is still in a ring is in none of the bursts. -/
def lthreadTxPerRing (ipg : SlotIpg 32 S) (bursts : List (Fin n × List Hash)) :
    State n (DoubleHash.PktCount 32 S) :=
  bursts.foldl (burst .after (DoubleHash.packet ipg))
    { re := 0, table := fun _ => DoubleHash.PktCount.init ipg }

/-! ## The tables of the three loops -/

theorem table_doubleHash (ipg : SlotIpg 32 S) (bursts : List (Fin n × List Hash)) :
    (doubleHash ipg bursts).table = (DoubleHash.flowTable ipg).after (met .before 0 bursts) :=
  table_foldl_burst ..

theorem table_hashList (ipg : HashList.Ipg 32 S) (bursts : List (Fin n × List Hash)) :
    (hashList ipg bursts).table =
      (HashList.flowTable ipg HashList.entryPerFlow).after (met .before 0 bursts) :=
  table_foldl_burst ..

theorem table_lthreadTxPerRing (ipg : SlotIpg 32 S) (bursts : List (Fin n × List Hash)) :
    (lthreadTxPerRing ipg bursts).table = (DoubleHash.flowTable ipg).after (met .after 0 bursts) :=
  table_foldl_burst ..

/-! ## The divisors -/

/-- A packet of a flow that has a slot finds less than `2 ^ 32` packets in its counter, itself
included. -/
def SlotsFit (hs : List Hash) : Prop :=
  ∀ pre h post, hs = pre ++ h :: post →
    indexH h ∈ (arrivals (bucketTags (indexL h) pre)).take 2 →
    recordedWith (bucketTags (indexL h) pre) (indexH h) < 2 ^ 32

/-- So does a packet that finds a node of the chain with its tag. -/
def EntriesFit (hs : List Hash) : Prop :=
  ∀ pre h post, hs = pre ++ h :: post →
    HashList.Hits HashList.entryPerFlow (bucketTags (indexL h) pre) (indexH h) →
    recordedWith (bucketTags (indexL h) pre) (indexH h) < 2 ^ 32

theorem divisorsRight_slots_iff (ipg : SlotIpg 32 S) (order : Refresh)
    (bursts : List (Fin n × List Hash)) :
    (DoubleHash.flowTable ipg).DivisorsRight (met order 0 bursts) ↔ SlotsFit (received bursts) := by
  rw [(DoubleHash.byTags ipg).divisorsRight_iff, map_snd_met]
  rfl

theorem divisorsRight_entries_iff (ipg : HashList.Ipg 32 S) (order : Refresh)
    (bursts : List (Fin n × List Hash)) :
    (HashList.flowTable ipg HashList.entryPerFlow).DivisorsRight (met order 0 bursts) ↔
      EntriesFit (received bursts) := by
  have hsize : 0 < HashList.entryPerFlow := Nat.one_pos
  rw [(HashList.byTags ipg hsize).divisorsRight_iff, map_snd_met]
  rfl

/-- **When the three programs divide by the number of packets.** -/
theorem divisorsRight_iff_fit (quantile : Option Quantile.Percentile)
    (bursts : List (Fin n × List Hash)) :
    ((DoubleHash.flowTable doubleHashIpg).DivisorsRight (met .before 0 bursts) ↔
      SlotsFit (received bursts)) ∧
    ((HashList.flowTable (hashListIpg quantile) HashList.entryPerFlow).DivisorsRight
        (met .before 0 bursts) ↔ EntriesFit (received bursts)) ∧
    ((DoubleHash.flowTable (lthreadTxPerRingIpg quantile)).DivisorsRight (met .after 0 bursts) ↔
      SlotsFit (received bursts)) :=
  ⟨divisorsRight_slots_iff doubleHashIpg .before bursts,
    divisorsRight_entries_iff (hashListIpg quantile) .before bursts,
    divisorsRight_slots_iff (lthreadTxPerRingIpg quantile) .after bursts⟩

/-! ## One heavy flow -/

theorem arrivals_replicate {t : Tag} (ht : t ≠ 0) (k : ℕ) :
    arrivals (List.replicate (k + 1) t) = [t] := by
  induction k with
  | zero => exact if_neg (by simpa using ht)
  | succ k ih =>
      rw [List.replicate_succ', arrivals_concat, ih]
      exact if_pos (Or.inr (List.mem_singleton_self t))

/-- When all packets so far are of one flow, its counter has recorded them. -/
theorem recordedWith_replicate {t : Tag} (ht : t ≠ 0) (k : ℕ) :
    recordedWith (List.replicate k t) t = k + 1 := by
  have hidx : ∀ k, (arrivals (List.replicate k t)).idxOf t = 0 := by
    intro k
    cases k with
    | zero => rfl
    | succ k => rw [arrivals_replicate ht, List.idxOf_cons_self]
  induction k with
  | zero => rfl
  | succ k ih =>
      unfold recordedWith at ih ⊢
      rw [hidx] at ih ⊢
      rw [List.replicate_succ', node_concat, hidx, if_pos rfl, ih]

theorem bucketTags_replicate (h : Hash) (k : ℕ) :
    bucketTags (indexL h) (List.replicate k h) = List.replicate k (indexH h) := by
  rw [bucketTags, Buckets.tagsOf, List.filter_replicate, if_pos (decide_eq_true rfl),
    List.map_replicate]

theorem received_replicate (q : Fin n) (a b : ℕ) (h : Hash) :
    received (List.replicate a (q, List.replicate b h)) = List.replicate (a * b) h := by
  induction a with
  | zero => rw [Nat.zero_mul]; rfl
  | succ a ih =>
      rw [List.replicate_succ, received, List.flatMap_cons, ← received, ih,
        List.replicate_append_replicate, Nat.succ_mul, Nat.add_comm]

/-- The last of more than `2 ^ 32 - 1` packets does not fit. -/
theorem not_fit_replicate {h : Hash} (ht : indexH h ≠ 0) {k : ℕ} (hk : 2 ^ 32 ≤ k) :
    ¬ SlotsFit (List.replicate k h) ∧ ¬ EntriesFit (List.replicate k h) := by
  obtain ⟨m, rfl⟩ : ∃ m, k = m + 2 := ⟨k - 2, by omega⟩
  have hsplit : List.replicate (m + 2) h = List.replicate (m + 1) h ++ h :: [] :=
    List.replicate_succ'
  have harrivals : arrivals (bucketTags (indexL h) (List.replicate (m + 1) h)) = [indexH h] := by
    rw [bucketTags_replicate, arrivals_replicate ht]
  have hrecorded : recordedWith (bucketTags (indexL h) (List.replicate (m + 1) h)) (indexH h) =
      m + 1 + 1 := by
    rw [bucketTags_replicate, recordedWith_replicate ht]
  constructor
  · intro hfit
    have hlt := hfit _ h [] hsplit (by rw [harrivals]; exact List.mem_singleton_self _)
    omega
  · intro hfit
    have hlt := hfit _ h [] hsplit (Or.inl (by rw [harrivals]; exact List.mem_singleton_self _))
    omega

/-- `2 ^ 27` bursts of `32` packets of one flow: at the last packet the counter is `0`. -/
theorem not_divisorsRight_heavy_flow :
    let bursts := List.replicate (2 ^ 27) ((0 : Fin 1), List.replicate 32 0x00010000#32)
    ¬ (DoubleHash.flowTable doubleHashIpg).DivisorsRight (met .before 0 bursts) ∧
      ¬ (HashList.flowTable (hashListIpg none) HashList.entryPerFlow).DivisorsRight
        (met .before 0 bursts) ∧
      ¬ (DoubleHash.flowTable (lthreadTxPerRingIpg none)).DivisorsRight (met .after 0 bursts) := by
  intro bursts
  have hreceived : received bursts = List.replicate (2 ^ 27 * 32) 0x00010000#32 :=
    received_replicate ..
  have htag : indexH 0x00010000#32 ≠ 0 := by decide
  obtain ⟨hslots, hentries⟩ := not_fit_replicate htag (show 2 ^ 32 ≤ 2 ^ 27 * 32 by norm_num)
  rw [← hreceived] at hslots hentries
  refine ⟨?_, ?_, ?_⟩
  · rwa [divisorsRight_slots_iff]
  · rwa [divisorsRight_entries_iff]
  · rwa [divisorsRight_slots_iff]

end Lthread
end FloWatcher
