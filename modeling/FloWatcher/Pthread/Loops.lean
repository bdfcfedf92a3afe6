import FloWatcher.Clib.For
import FloWatcher.Config.Parse
import FloWatcher.Pthread.Launch

/-!
# Do the loops over the rx threads end?

`n_rx_thread` has 16 bits, since it is one more than a thread id of 8 bits. The loops of `timer_cb`,
in both programs, and the loop over the queues in `main` count up to it with a `uint8_t`. They end
unless some tuple names thread `255` (`loopsEnd_iff`).
-/

namespace FloWatcher
namespace Pthread

open Clib.For

/-- The body of `for (i = 0; i < n_rx_thread; i++)` in `timer_cb`. `counters` is `gCtr`, in the
lthread program `re`; the `double` `j` is a plain number, since only the passes count here. -/
def timerCbPass (counters : Nat → Nat) (i : BitVec 8) (j : Nat) : Option Nat :=
  some (j + counters i.toNat)

def queueOf (portid : UInt8) (qid : BitVec 8) : LcoreRxQueue where
  portId := portid
  queueId := UInt8.ofBitVec qid

/-- The body of `for (qid = 0; qid < n_rx_thread; qid++)` in `main`. `setUp` says whether the pool
of a queue can be created and the queue set up, behind those that are; otherwise `main` exits. The
store of the pool in `pktmbuf_pool[qid]`, an array of `NB_SOCKETS` entries, is left out: here the
passes are counted, as if the array had room for every `qid`. -/
def qidPass (setUp : List LcoreRxQueue → LcoreRxQueue → Bool) (portid : UInt8) (qid : BitVec 8)
    (queues : List LcoreRxQueue) : Option (List LcoreRxQueue) :=
  if setUp queues (queueOf portid qid) then some (queues ++ [queueOf portid qid]) else none

def firstQueues (portid : UInt8) (k : Nat) : List LcoreRxQueue :=
  (List.range k).map fun qid => queueOf portid (BitVec.ofNat 8 qid)

theorem firstQueues_succ (portid : UInt8) (k : Nat) :
    firstQueues portid (k + 1) = firstQueues portid k ++ [queueOf portid (BitVec.ofNat 8 k)] := by
  rw [firstQueues, List.range_succ, List.map_append]
  rfl

/-- `timer_cb` adds up the counters of the rx threads. -/
theorem timerCbPass_sum (counters : Nat → Nat) (k : Nat) :
    timerCbPass counters (BitVec.ofNat 8 k)
        (((List.range k).map fun i => counters (BitVec.ofNat 8 i).toNat).sum) =
      some (((List.range (k + 1)).map fun i => counters (BitVec.ofNat 8 i).toNat).sum) := by
  rw [List.range_succ, List.map_append, List.sum_append, List.map_singleton, List.sum_singleton]
  rfl

theorem endsAfter_timerCbPass_iff (counters : Nat → Nat) (n : Nat) :
    EndsAfter n (timerCbPass counters) 0 n ↔ n < 256 := by
  apply endsAfter_iff
    (f := fun k => ((List.range k).map fun i => counters (BitVec.ofNat 8 i).toNat).sum)
  exact fun k _ => timerCbPass_sum counters k

section Queues

variable {setUp : List LcoreRxQueue → LcoreRxQueue → Bool} {portid : UInt8}
  {queues : List LcoreRxQueue} {n : Nat}

def SetsUp (setUp : List LcoreRxQueue → LcoreRxQueue → Bool) (portid : UInt8)
    (queues : List LcoreRxQueue) (n : Nat) : Prop :=
  ∀ qid < n, setUp (queues ++ firstQueues portid qid) (queueOf portid (BitVec.ofNat 8 qid)) = true

theorem qidPass_firstQueues (h : SetsUp setUp portid queues n) :
    ∀ qid < n, qidPass setUp portid (BitVec.ofNat 8 qid) (queues ++ firstQueues portid qid) =
      some (queues ++ firstQueues portid (qid + 1)) := by
  intro qid hqid
  rw [qidPass, if_pos (h qid hqid), firstQueues_succ, List.append_assoc]

theorem endsAfter_qidPass_iff (h : SetsUp setUp portid queues n) :
    EndsAfter n (qidPass setUp portid) queues n ↔ n < 256 := by
  have hends := endsAfter_iff (f := fun k => queues ++ firstQueues portid k) (qidPass_firstQueues h)
  rw [firstQueues, List.range_zero, List.map_nil, List.append_nil] at hends
  exact hends

theorem setUp_of_passes {k : Nat} {i : BitVec 8} {queues' : List LcoreRxQueue}
    (h : passes n (qidPass setUp portid) queues k = some (i, queues')) :
    queues' = queues ++ firstQueues portid k ∧ SetsUp setUp portid queues k := by
  induction k generalizing i queues' with
  | zero =>
      cases h
      exact ⟨(List.append_nil queues).symm, fun qid hqid => absurd hqid (Nat.not_lt_zero qid)⟩
  | succ k ih =>
      obtain ⟨j, qs, hk, -, hbody, -⟩ := of_passes_succ h
      obtain rfl := counter_passes hk
      obtain ⟨rfl, hsets⟩ := ih hk
      unfold qidPass at hbody
      split at hbody
      · next hset =>
          cases hbody
          rw [firstQueues_succ, List.append_assoc]
          refine ⟨rfl, fun qid hqid => ?_⟩
          rcases Nat.lt_succ_iff_lt_or_eq.mp hqid with hlt | rfl
          · exact hsets qid hlt
          · exact hset
      · cases hbody

end Queues

/-- The calls for the queues, when they only depend on the queue. -/
theorem setsUp_iff {setUp : Nat → Bool} {portid : UInt8} {n : Nat} (hn : n < 256) :
    SetsUp (fun _ queue => setUp queue.queueId.toNat) portid [] n ↔ ∀ qid < n, setUp qid = true := by
  have hqueue : ∀ qid < n, (queueOf portid (BitVec.ofNat 8 qid)).queueId.toNat = qid :=
    fun qid hqid => Nat.mod_eq_of_lt (by omega)
  constructor
  · intro hsets qid hqid
    rw [← hqueue qid hqid]
    exact hsets qid hqid
  · intro hset qid hqid
    show setUp (queueOf portid (BitVec.ofNat 8 qid)).queueId.toNat = true
    rw [hqueue qid hqid]
    exact hset qid hqid

/-- A port is set up when the loop over its queues ends. -/
theorem setUpPort_eq_some_iff {configure setUp : Nat → Nat → Bool} {nRxThread : Nat} {portid : UInt8}
    {queues : List LcoreRxQueue} :
    setUpPort configure setUp nRxThread portid.toNat = some queues ↔
      configure portid.toNat nRxThread = true ∧
        ∃ i, passes nRxThread (qidPass (fun _ queue => setUp portid.toNat queue.queueId.toNat) portid)
          [] nRxThread = some (i, queues) ∧ nRxThread ≤ i.toNat := by
  have hfirst : (List.range nRxThread).map (fun qid =>
      { portId := UInt8.ofNat portid.toNat, queueId := UInt8.ofNat qid : LcoreRxQueue }) =
        firstQueues portid nRxThread := by
    rw [UInt8.ofNat_toNat]
    rfl
  unfold setUpPort
  rw [hfirst]
  constructor
  · intro h
    split at h
    · next hok =>
        obtain ⟨hconf, hlt, hset⟩ := hok
        cases h
        refine ⟨hconf, BitVec.ofNat 8 nRxThread, passes_eq (f := firstQueues portid)
          (qidPass_firstQueues ((setsUp_iff hlt).mpr hset)) nRxThread (Nat.le_refl _), ?_⟩
        rw [BitVec.toNat_ofNat, Nat.mod_eq_of_lt hlt]
    · cases h
  · rintro ⟨hconf, i, hpasses, hle⟩
    have hlt : nRxThread < 256 := Nat.lt_of_le_of_lt hle i.isLt
    obtain ⟨rfl, hsets⟩ := setUp_of_passes hpasses
    rw [if_pos ⟨hconf, hlt, (setsUp_iff hlt).mp hsets⟩]
    rfl

/-- The loops over the rx threads end after `n_rx_thread` passes. -/
structure LoopsEnd (c : Config) : Prop where
  timerCb : ∀ counters, EndsAfter c.nRxThread (timerCbPass counters) 0 c.nRxThread
  qid : ∀ setUp portid queues, SetsUp setUp portid queues c.nRxThread →
    EndsAfter c.nRxThread (qidPass setUp portid) queues c.nRxThread

/-- **When the loops over the rx threads end**: when no tuple names thread `255`. -/
theorem loopsEnd_iff (rx : List RxThreadParams) (c : Config)
    (h : initRxQueues rx Config.zero = some c) : LoopsEnd c ↔ ∀ p ∈ rx, p.threadId ≠ 255 := by
  have hcount : c.nRxThread < 256 ↔ ∀ p ∈ rx, p.threadId ≠ 255 := by
    have hle := (rxThreadsOf_initRxQueues h).forall_lt_iff 255
    have hid : ∀ id : UInt8, id.toNat < 255 ↔ id ≠ 255 := by
      intro id
      have hlt : id.toNat < 256 := id.toNat_lt
      rw [ne_eq, ← UInt8.toNat_inj]
      show id.toNat < 255 ↔ ¬ id.toNat = 255
      omega
    simp only [hid] at hle
    rw [← hle]
    constructor
    · intro hlt i hi
      omega
    · intro hall
      by_contra hge
      exact absurd (hall 255 (by omega)) (Nat.lt_irrefl 255)
  rw [← hcount]
  constructor
  · exact fun hends => (endsAfter_timerCbPass_iff (fun _ => 0) _).mp (hends.timerCb fun _ => 0)
  · intro hlt
    exact ⟨fun counters => (endsAfter_timerCbPass_iff counters _).mpr hlt,
      fun setUp portid queues hsets => (endsAfter_qidPass_iff hsets).mpr hlt⟩

/-- The default threads. -/
theorem loopsEnd_iff_default : ∃ c, initRxQueues rxThreadParamsArrayDefault Config.zero = some c ∧
    (LoopsEnd c ↔ ∀ p ∈ rxThreadParamsArrayDefault, p.threadId ≠ 255) :=
  ⟨_, rfl, loopsEnd_iff rxThreadParamsArrayDefault _ rfl⟩

/-- `timer_cb` does not return when there are 256 rx threads. -/
theorem timerCb_not_endsAfter {c : Config} (h : c.nRxThread = 256) (counters : Nat → Nat)
    (k : Nat) :
    ¬ EndsAfter c.nRxThread (timerCbPass counters) 0 k :=
  not_endsAfter (w := 8) (h ▸ Nat.le_refl 256) k

/-- One tuple, which names thread `255`. -/
theorem not_loopsEnd_255 : ∃ c, initRxQueues [⟨3, 0, 2, 255⟩] Config.zero = some c ∧ ¬ LoopsEnd c := by
  refine ⟨_, rfl, fun h => ?_⟩
  exact not_endsAfter (w := 8) (Nat.le_refl 256) _ (h.timerCb fun _ => 0)

end Pthread
end FloWatcher
