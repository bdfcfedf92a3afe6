import FloWatcher.Config.Rings
import FloWatcher.Lthread.Accounting

/-!
# Does every rx lthread have a queue and a ring?

`lthread_spawner` starts an rx lthread for every thread id up to the highest one. Its queues come
from `--rx` and its rings from `--tx`, and nothing compares the two: `check_lcore_params` looks at
queue ids and lcores only. Without a queue, the outer loop of `lthread_rx` has nothing to do and
never yields. Without a ring, the first packet is a division by zero.
-/

namespace FloWatcher
namespace Lthread

def maxRxQueuePerPort : Nat := 128

inductive LcoreError where
  | invalidQueueNumber (queue : UInt8)
  | lcoreNotEnabled (lcore : UInt8)
  deriving DecidableEq, Repr

/-- `check_lcore_params`, up to a warning about sockets. -/
def checkLcoreParams (rteLcoreIsEnabled : Nat → Bool) :
    List RxThreadParams → Except LcoreError Unit
  | [] => .ok ()
  | p :: ps =>
      if maxRxQueuePerPort ≤ p.queueId.toNat then .error (.invalidQueueNumber p.queueId)
      else if rteLcoreIsEnabled p.lcoreId.toNat then checkLcoreParams rteLcoreIsEnabled ps
      else .error (.lcoreNotEnabled p.lcoreId)

/-- The checks and initialisations of `main`, in their order. `none` is the end of the program. -/
def acceptParams (rteLcoreIsEnabled : Nat → Bool) (rteRingCreate : String → Bool)
    (rteLcoreToSocketId : Nat → Nat) (rx : List RxThreadParams) (tx : List TxThreadParams) :
    Option Config :=
  match checkLcoreParams rteLcoreIsEnabled rx with
  | .ok () => initThreads rteRingCreate rteLcoreToSocketId rx tx
  | .error _ => none

/-- `rx_thread_params_array_default` of the lthread program. -/
def rxThreadParamsArrayDefault : List RxThreadParams :=
  [⟨0, 0, 2, 0⟩, ⟨0, 1, 2, 1⟩, ⟨0, 2, 2, 2⟩, ⟨1, 0, 2, 3⟩, ⟨1, 1, 2, 4⟩, ⟨1, 2, 2, 5⟩,
    ⟨2, 0, 2, 6⟩, ⟨3, 0, 3, 7⟩, ⟨3, 1, 3, 8⟩]

/-- `tx_thread_params_array_default` of the lthread program. -/
def txThreadParamsArrayDefault : List TxThreadParams := [⟨4, 0⟩, ⟨5, 1⟩, ⟨6, 2⟩]

section Accepted

variable {rteLcoreIsEnabled : Nat → Bool} {rteRingCreate : String → Bool}
  {rteLcoreToSocketId : Nat → Nat} {rx : List RxThreadParams} {tx : List TxThreadParams}
  {cfg : Config}

theorem checkLcoreParams_ok_iff :
    checkLcoreParams rteLcoreIsEnabled rx = .ok () ↔
      ∀ p ∈ rx, p.queueId.toNat < maxRxQueuePerPort ∧ rteLcoreIsEnabled p.lcoreId.toNat = true := by
  induction rx with
  | nil => simp [checkLcoreParams]
  | cons p ps ih =>
      rw [checkLcoreParams, List.forall_mem_cons, ← ih]
      split
      · next hq => simp [Nat.not_lt.mpr hq]
      · next hq =>
          split
          · next hl => simp [Nat.lt_of_not_le hq, hl]
          · next hl => simp [hl]

/-- What is known of accepted parameters. -/
theorem acceptParams_eq_some
    (h : acceptParams rteLcoreIsEnabled rteRingCreate rteLcoreToSocketId rx tx = some cfg) :
    (∀ p ∈ rx, p.queueId.toNat < maxRxQueuePerPort ∧ rteLcoreIsEnabled p.lcoreId.toNat = true) ∧
      initThreads rteRingCreate rteLcoreToSocketId rx tx = some cfg := by
  unfold acceptParams at h
  split at h
  · next hok => exact ⟨checkLcoreParams_ok_iff.mp hok, h⟩
  · cases h

/-- The spawner leaves the queues of the rx threads as they are. -/
theorem rxQueueList_lthreadSpawner (c : Config) (r : Nat) :
    ((lthreadSpawner c).rxThread r).rxQueueList = (c.rxThread r).rxQueueList := by
  dsimp only [lthreadSpawner]
  split <;> rfl

end Accepted

/-! ## One pass of the outer loop -/

/-- `worker_id` after a poll that returned `nb_rx`. `none` is a division by zero. -/
def nextWorker (nRing nbRx workerId : Nat) : Option Nat :=
  if nbRx = 0 then some workerId
  else if nRing = 0 then none
  else some ((workerId + 1) % nRing)

/-- The `for` loop of `lthread_rx`, given what the polls of its queues return: `worker_id` at the
end, and how often the lthread has yielded. -/
def rxPass (nRing : Nat) : List Nat → Nat → Option (Nat × Nat)
  | [], workerId => some (workerId, 0)
  | nbRx :: rest, workerId =>
      (nextWorker nRing nbRx workerId).bind fun workerId =>
        (rxPass nRing rest workerId).map fun (workerId, yields) => (workerId, yields + 1)

/-- The pipeline turns over its rings in the same way. -/
theorem nextWorker_polled {M : Type} (conf : ThreadRxConf) (th : RxThread M) (burst : List M)
    (h : burst = [] ∨ 0 < conf.ring.length) :
    nextWorker conf.ring.length burst.length th.workerId =
      some (th.polled conf burst).workerId := by
  unfold nextWorker
  cases burst with
  | nil => rfl
  | cons m burst =>
      have hring : conf.ring.length ≠ 0 := by
        rcases h with h | h
        · cases h
        · exact Nat.ne_of_gt h
      have hburst : (m :: burst).length ≠ 0 := Nat.succ_ne_zero burst.length
      rw [if_neg hburst, if_neg hring]
      rfl

/-- With a ring, every pass goes through, and yields once for each queue. -/
theorem rxPass_eq_some {nRing : Nat} (hring : 0 < nRing) (nbRx : List Nat) (workerId : Nat) :
    ∃ workerId', rxPass nRing nbRx workerId = some (workerId', nbRx.length) := by
  induction nbRx generalizing workerId with
  | nil => exact ⟨workerId, rfl⟩
  | cons n rest ih =>
      have hnext : ∃ w, nextWorker nRing n workerId = some w := by
        unfold nextWorker
        split
        · exact ⟨_, rfl⟩
        · rw [if_neg (Nat.ne_of_gt hring)]
          exact ⟨_, rfl⟩
      obtain ⟨w, hw⟩ := hnext
      obtain ⟨workerId', hrest⟩ := ih w
      exact ⟨workerId', by rw [rxPass, hw, Option.bind_some, hrest]; rfl⟩

/-! ## Working lthreads -/

/-- An rx lthread has work: a queue to poll and a ring to fill. Its passes divide by a positive
number and reach `lthread_yield`. -/
structure Works (conf : ThreadRxConf) : Prop where
  queue : 0 < conf.rxQueueList.length
  ring : 0 < conf.ring.length
  pass : ∀ nbRx : List Nat, nbRx.length = conf.rxQueueList.length → ∀ workerId,
    ∃ workerId' yields, rxPass conf.ring.length nbRx workerId = some (workerId', yields) ∧ 0 < yields

theorem works_iff (conf : ThreadRxConf) :
    Works conf ↔ 0 < conf.rxQueueList.length ∧ 0 < conf.ring.length := by
  constructor
  · exact fun h => ⟨h.queue, h.ring⟩
  · rintro ⟨hqueue, hring⟩
    refine ⟨hqueue, hring, fun nbRx hlen workerId => ?_⟩
    obtain ⟨workerId', hpass⟩ := rxPass_eq_some hring nbRx workerId
    exact ⟨workerId', _, hpass, by rw [hlen]; exact hqueue⟩

/-- **When every rx lthread works**: when every thread id up to the highest one has a tuple in `--rx`
and a pair in `--tx`. -/
theorem works_iff_listed (rteLcoreIsEnabled : Nat → Bool) (rteRingCreate : String → Bool)
    (rteLcoreToSocketId : Nat → Nat) (rx : List RxThreadParams) (tx : List TxThreadParams)
    (cfg : Config)
    (h : acceptParams rteLcoreIsEnabled rteRingCreate rteLcoreToSocketId rx tx = some cfg) :
    (∀ r < (lthreadSpawner cfg).nRxThread, Works ((lthreadSpawner cfg).rxThread r)) ↔
      ∀ p ∈ rx, ∀ r ≤ p.threadId.toNat,
        (∃ q ∈ rx, q.threadId.toNat = r) ∧ ∃ q ∈ tx, q.threadId.toNat = r := by
  obtain ⟨-, hinit⟩ := acceptParams_eq_some h
  obtain ⟨hqueues, -, hcount⟩ := (threadsOf_initThreads hinit).1
  have hrings := (ringsOf_initThreads hinit).length
  have hqueue : ∀ r, 0 < ((lthreadSpawner cfg).rxThread r).rxQueueList.length ↔
      ∃ q ∈ rx, q.threadId.toNat = r := by
    intro r
    rw [rxQueueList_lthreadSpawner, hqueues, List.length_map, List.length_pos_iff_exists_mem]
    simp only [tuplesOf, List.mem_filter, decide_eq_true_eq]
  have hring : ∀ r, 0 < ((lthreadSpawner cfg).rxThread r).ring.length ↔
      ∃ q ∈ tx, q.threadId.toNat = r := by
    intro r
    rw [rxThread_lthreadSpawner, hrings, List.take_length, List.countP_pos_iff]
    simp only [decide_eq_true_eq]
  have hstarted : ∀ r, r < (lthreadSpawner cfg).nRxThread ↔ ∃ p ∈ rx, r ≤ p.threadId.toNat :=
    hcount
  simp only [works_iff, hqueue, hring, hstarted]
  constructor
  · exact fun hall p hp r hr => hall r ⟨p, hp, hr⟩
  · rintro hall r ⟨p, hp, hr⟩
    exact hall p hp r hr

/-- One tuple and one pair. -/
theorem works_iff_listed_one_ring :
    ∃ cfg, acceptParams (fun _ => true) (fun _ => true) (fun _ => 0) [⟨0, 0, 2, 0⟩] [⟨4, 0⟩] =
        some cfg ∧
      ((∀ r < (lthreadSpawner cfg).nRxThread, Works ((lthreadSpawner cfg).rxThread r)) ↔
        ∀ p ∈ [(⟨0, 0, 2, 0⟩ : RxThreadParams)], ∀ r ≤ p.threadId.toNat,
          (∃ q ∈ [(⟨0, 0, 2, 0⟩ : RxThreadParams)], q.threadId.toNat = r) ∧
            ∃ q ∈ [(⟨4, 0⟩ : TxThreadParams)], q.threadId.toNat = r) :=
  ⟨_, rfl, works_iff_listed (fun _ => true) (fun _ => true) (fun _ => 0) [⟨0, 0, 2, 0⟩] [⟨4, 0⟩] _
    rfl⟩

/-- In the default configuration, rx lthread `3` has a queue and no ring. -/
theorem not_works_default :
    ∃ cfg, acceptParams (fun _ => true) (fun _ => true) (fun _ => 0) rxThreadParamsArrayDefault
        txThreadParamsArrayDefault = some cfg ∧
      3 < (lthreadSpawner cfg).nRxThread ∧
      ((lthreadSpawner cfg).rxThread 3).rxQueueList.length = 1 ∧
      rxPass ((lthreadSpawner cfg).rxThread 3).ring.length [1] 0 = none ∧
      ¬ Works ((lthreadSpawner cfg).rxThread 3) := by
  refine ⟨_, rfl, by decide, by decide, by decide, fun hworks => ?_⟩
  exact absurd hworks.ring (by decide)

end Lthread
end FloWatcher
