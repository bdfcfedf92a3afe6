import FloWatcher.Config.Rings
import FloWatcher.Pthread.Pipeline
import Mathlib.Data.List.Nodup

/-!
# Which threads run, and which queues do they poll?

`main` launches `pthread_run` on every slave lcore. It looks for an rx thread of its lcore, then for
a tx thread, and runs the first that it finds; a running `lcore_main_rx` polls the first queue of
its thread. What this makes of the `--rx` and `--tx` tuples is said here in terms of the tuples:
`Polls`, `served_iff` and `polledSetUp_iff`.
-/

namespace FloWatcher
namespace Pthread

inductive Thread
  | rx (r : Nat)
  | tx (t : Nat)
  deriving DecidableEq, Repr

/-- `pthread_run` on the lcore `lcoreId`: the thread that it runs, if any. -/
def pthreadRun (c : Config) (lcoreId : Nat) : Option Thread :=
  match (List.range c.nRxThread).find? (fun i => (c.rxThread i).lcoreId = lcoreId) with
  | some i => some (.rx i)
  | none =>
      match (List.range c.nTxThread).find? (fun i => (c.txThread i).lcoreId = lcoreId) with
      | some i => some (.tx i)
      | none => none

/-- The threads that run once `pthread_run` has been launched on the slave lcores. -/
def Runs (c : Config) (slaves : List Nat) (th : Thread) : Prop :=
  ∃ lcoreId ∈ slaves, pthreadRun c lcoreId = some th

theorem find_lcore_eq_some_iff (lcore : Nat → Nat) {n lcoreId i : Nat} :
    (List.range n).find? (fun i => lcore i = lcoreId) = some i ↔
      i < n ∧ lcore i = lcoreId ∧ ∀ j < i, lcore j ≠ lcoreId := by
  rw [List.find?_range_eq_some]
  simp only [decide_eq_true_eq, List.mem_range, Bool.not_eq_eq_eq_not, Bool.not_true,
    decide_eq_false_iff_not]
  exact and_left_comm

theorem find_lcore_eq_none_iff (lcore : Nat → Nat) {n lcoreId : Nat} :
    (List.range n).find? (fun i => lcore i = lcoreId) = none ↔ ∀ i < n, lcore i ≠ lcoreId := by
  rw [List.find?_range_eq_none]
  simp only [Bool.not_eq_eq_eq_not, Bool.not_true, decide_eq_false_iff_not]

/-- The rx thread with the lowest id runs on an lcore. -/
theorem pthreadRun_eq_rx_iff (c : Config) (lcoreId r : Nat) :
    pthreadRun c lcoreId = some (.rx r) ↔
      r < c.nRxThread ∧ (c.rxThread r).lcoreId = lcoreId ∧
        ∀ r' < r, (c.rxThread r').lcoreId ≠ lcoreId := by
  rw [← find_lcore_eq_some_iff fun i => (c.rxThread i).lcoreId]
  unfold pthreadRun
  cases (List.range c.nRxThread).find? (fun i => (c.rxThread i).lcoreId = lcoreId) with
  | some i => simp
  | none =>
      cases (List.range c.nTxThread).find? (fun i => (c.txThread i).lcoreId = lcoreId) <;> simp

/-- A tx thread runs on an lcore without rx threads. -/
theorem pthreadRun_eq_tx_iff (c : Config) (lcoreId t : Nat) :
    pthreadRun c lcoreId = some (.tx t) ↔
      (∀ r < c.nRxThread, (c.rxThread r).lcoreId ≠ lcoreId) ∧
        t < c.nTxThread ∧ (c.txThread t).lcoreId = lcoreId ∧
          ∀ t' < t, (c.txThread t').lcoreId ≠ lcoreId := by
  rw [← find_lcore_eq_some_iff fun i => (c.txThread i).lcoreId,
    ← find_lcore_eq_none_iff fun i => (c.rxThread i).lcoreId]
  unfold pthreadRun
  cases (List.range c.nRxThread).find? (fun i => (c.rxThread i).lcoreId = lcoreId) with
  | some i => simp
  | none =>
      cases (List.range c.nTxThread).find? (fun i => (c.txThread i).lcoreId = lcoreId) <;> simp

/-! ## In terms of the tuples -/

/-- There is an rx thread `r`: some tuple has its id or a higher one. -/
def IsRxThread (rx : List RxThreadParams) (r : Nat) : Prop := ∃ p ∈ rx, r ≤ p.threadId.toNat

/-- Rx thread `r` leads its lcore: no rx thread with a lower id is on it. -/
def Leads (rx : List RxThreadParams) (r : Nat) : Prop :=
  IsRxThread rx r ∧ ∀ r' < r, lcoreOf rx r' ≠ lcoreOf rx r

/-- The queue of the first tuple of rx thread `r`; without a tuple, queue `0` of port `0`. -/
def firstQueue (rx : List RxThreadParams) (r : Nat) : LcoreRxQueue :=
  ((tuplesOf rx r).map RxThreadParams.queue).headD { portId := 0, queueId := 0 }

section Tuples

variable {rteRingCreate : String → Bool} {rteLcoreToSocketId : Nat → Nat}
  {rx : List RxThreadParams} {tx : List TxThreadParams} {c : Config} {slaves : List Nat}

theorem pollQueue_eq (h : initThreads rteRingCreate rteLcoreToSocketId rx tx = some c) (r : Nat) :
    pollQueue c r = firstQueue rx r := by
  rw [pollQueue, (threadsOf_initThreads h).1.queues, firstQueue]

/-- Which rx threads run. -/
theorem runs_rx_iff (h : initThreads rteRingCreate rteLcoreToSocketId rx tx = some c) (r : Nat) :
    Runs c slaves (.rx r) ↔ Leads rx r ∧ lcoreOf rx r ∈ slaves := by
  obtain ⟨-, hlcore, hcount⟩ := (threadsOf_initThreads h).1
  have hrun : ∀ lcoreId, pthreadRun c lcoreId = some (.rx r) ↔ Leads rx r ∧ lcoreOf rx r = lcoreId := by
    intro lcoreId
    rw [pthreadRun_eq_rx_iff, hcount]
    simp only [hlcore]
    constructor
    · rintro ⟨hr, rfl, hfirst⟩
      exact ⟨⟨hr, hfirst⟩, rfl⟩
    · rintro ⟨⟨hr, hfirst⟩, rfl⟩
      exact ⟨hr, rfl, hfirst⟩
  constructor
  · rintro ⟨lcoreId, hmem, hth⟩
    obtain ⟨hleads, rfl⟩ := (hrun lcoreId).mp hth
    exact ⟨hleads, hmem⟩
  · rintro ⟨hleads, hmem⟩
    exact ⟨lcoreOf rx r, hmem, (hrun _).mpr ⟨hleads, rfl⟩⟩

/-- Which tx threads run. -/
theorem runs_tx_iff (h : initThreads rteRingCreate rteLcoreToSocketId rx tx = some c) {t : Nat}
    {p : TxThreadParams} (hp : tx[t]? = some p) :
    Runs c slaves (.tx t) ↔ p.lcoreId.toNat ∈ slaves ∧
      (∀ r, IsRxThread rx r → lcoreOf rx r ≠ p.lcoreId.toNat) ∧
        ∀ t' < t, ∀ p', tx[t']? = some p' → p'.lcoreId ≠ p.lcoreId := by
  obtain ⟨⟨-, hlcore, hcount⟩, hlen, hthread⟩ := threadsOf_initThreads h
  have ht : t < tx.length := (List.getElem?_eq_some_iff.mp hp).1
  have hrun : ∀ lcoreId, pthreadRun c lcoreId = some (.tx t) ↔ p.lcoreId.toNat = lcoreId ∧
      (∀ r, IsRxThread rx r → lcoreOf rx r ≠ lcoreId) ∧
        ∀ t' < t, ∀ p', tx[t']? = some p' → p'.lcoreId.toNat ≠ lcoreId := by
    intro lcoreId
    rw [pthreadRun_eq_tx_iff, (hthread t p hp).2, hlen]
    simp only [hlcore, hcount]
    constructor
    · rintro ⟨hrx, -, hl, hfirst⟩
      refine ⟨hl, hrx, fun t' ht' p' hp' => ?_⟩
      rw [← (hthread t' p' hp').2]
      exact hfirst t' ht'
    · rintro ⟨hl, hrx, hfirst⟩
      refine ⟨hrx, ht, hl, fun t' ht' => ?_⟩
      have hp' := List.getElem?_eq_getElem (show t' < tx.length by omega)
      rw [(hthread t' _ hp').2]
      exact hfirst t' ht' _ hp'
  constructor
  · rintro ⟨lcoreId, hmem, hth⟩
    obtain ⟨rfl, hrx, hfirst⟩ := (hrun lcoreId).mp hth
    refine ⟨hmem, hrx, fun t' ht' p' hp' heq => hfirst t' ht' p' hp' ?_⟩
    rw [heq]
  · rintro ⟨hmem, hrx, hfirst⟩
    refine ⟨p.lcoreId.toNat, hmem, (hrun _).mpr ⟨rfl, hrx, fun t' ht' p' hp' heq => ?_⟩⟩
    exact hfirst t' ht' p' hp' (UInt8.toNat_inj.mp heq)

end Tuples

/-! ## Is everything served? -/

/-- Every queue of `--rx` is polled by a running rx thread, and every thread of `--tx` runs. -/
def Served (rx : List RxThreadParams) (tx : List TxThreadParams) (c : Config) (slaves : List Nat) :
    Prop :=
  (∀ p ∈ rx, ∃ r, Runs c slaves (.rx r) ∧ pollQueue c r = p.queue) ∧
    ∀ t < tx.length, Runs c slaves (.tx t)

/-- The lcore of an rx thread is one of its tuples', if it has any. -/
theorem lcoreOf_mem_iff {rx : List RxThreadParams} {slaves : List Nat}
    (hrx : ∀ p ∈ rx, p.lcoreId.toNat ∈ slaves) (r : Nat) :
    lcoreOf rx r ∈ slaves ↔ (tuplesOf rx r = [] → 0 ∈ slaves) := by
  unfold lcoreOf
  cases hlast : (tuplesOf rx r).getLast? with
  | none =>
      have hnil : tuplesOf rx r = [] := List.getLast?_eq_none_iff.mp hlast
      simp [hnil]
  | some p =>
      have hmem : p ∈ tuplesOf rx r := List.mem_of_getLast? hlast
      exact iff_of_true (hrx p (List.mem_of_mem_filter hmem)) fun hnil => by simp [hnil] at hmem

/-- **When everything is served**: each listed queue is the first one of an rx thread that leads its
lcore, and the tx threads are on lcores of their own, without rx threads. -/
theorem served_iff (rteRingCreate : String → Bool) (rteLcoreToSocketId : Nat → Nat)
    (rx : List RxThreadParams) (tx : List TxThreadParams) (c : Config)
    (h : initThreads rteRingCreate rteLcoreToSocketId rx tx = some c) (slaves : List Nat)
    (hrx : ∀ p ∈ rx, p.lcoreId.toNat ∈ slaves) (htx : ∀ p ∈ tx, p.lcoreId.toNat ∈ slaves) :
    Served rx tx c slaves ↔
      (∀ p ∈ rx, ∃ r, Leads rx r ∧ (tuplesOf rx r = [] → 0 ∈ slaves) ∧
        firstQueue rx r = p.queue) ∧
      (tx.map TxThreadParams.lcoreId).Nodup ∧
        ∀ p ∈ tx, ∀ r, IsRxThread rx r → lcoreOf rx r ≠ p.lcoreId.toNat := by
  unfold Served
  apply and_congr
  · simp only [runs_rx_iff h, pollQueue_eq h, lcoreOf_mem_iff hrx, and_assoc]
  · constructor
    · intro hruns
      have hall : ∀ (t : Nat) p, tx[t]? = some p →
          (∀ r, IsRxThread rx r → lcoreOf rx r ≠ p.lcoreId.toNat) ∧
            ∀ t' < t, ∀ p', tx[t']? = some p' → p'.lcoreId ≠ p.lcoreId := by
        intro t p hp
        exact ((runs_tx_iff h hp).mp (hruns t (List.getElem?_eq_some_iff.mp hp).1)).2
      constructor
      · rw [List.nodup_iff_getElem?_ne_getElem?]
        intro i j hij hj heq
        rw [List.length_map] at hj
        rw [List.getElem?_map, List.getElem?_map, List.getElem?_eq_getElem hj,
          List.getElem?_eq_getElem (hij.trans hj)] at heq
        exact (hall j _ (List.getElem?_eq_getElem hj)).2 i hij _
          (List.getElem?_eq_getElem (hij.trans hj)) (Option.some.inj heq)
      · intro p hp
        obtain ⟨t, ht⟩ := List.mem_iff_getElem?.mp hp
        exact (hall t p ht).1
    · rintro ⟨hnodup, hrxlcore⟩ t ht
      have hp := List.getElem?_eq_getElem ht
      rw [runs_tx_iff h hp]
      refine ⟨htx _ (List.getElem_mem ht), hrxlcore _ (List.getElem_mem ht), ?_⟩
      intro t' ht' p' hp' heq
      rw [List.nodup_iff_getElem?_ne_getElem?] at hnodup
      apply hnodup t' t ht' (by rwa [List.length_map])
      rw [List.getElem?_map, List.getElem?_map, hp, hp', Option.map_some, Option.map_some, heq]

/-- The default threads, on the lcores `2`, `4`, `6` and `8`. -/
theorem served_iff_default :
    ∃ c, initThreads (fun _ => true) (fun _ => 0) rxThreadParamsArrayDefault
        txThreadParamsArrayDefault = some c ∧
      (Served rxThreadParamsArrayDefault txThreadParamsArrayDefault c [2, 4, 6, 8] ↔
        (∀ p ∈ rxThreadParamsArrayDefault, ∃ r, Leads rxThreadParamsArrayDefault r ∧
          (tuplesOf rxThreadParamsArrayDefault r = [] → 0 ∈ [2, 4, 6, 8]) ∧
            firstQueue rxThreadParamsArrayDefault r = p.queue) ∧
        (txThreadParamsArrayDefault.map TxThreadParams.lcoreId).Nodup ∧
          ∀ p ∈ txThreadParamsArrayDefault, ∀ r, IsRxThread rxThreadParamsArrayDefault r →
            lcoreOf rxThreadParamsArrayDefault r ≠ p.lcoreId.toNat) :=
  ⟨_, rfl, served_iff (fun _ => true) (fun _ => 0) rxThreadParamsArrayDefault
    txThreadParamsArrayDefault _ rfl [2, 4, 6, 8] (by decide) (by decide)⟩

/-- Both queues of port `3` in one rx thread: the second one is not polled. -/
theorem not_served_two_queues :
    ∃ c, initThreads (fun _ => true) (fun _ => 0) [⟨3, 0, 2, 0⟩, ⟨3, 1, 2, 0⟩] [⟨4, 0⟩] = some c ∧
      (∀ p ∈ [(⟨3, 0, 2, 0⟩ : RxThreadParams), ⟨3, 1, 2, 0⟩], p.lcoreId.toNat ∈ [2, 4]) ∧
      (∀ p ∈ [(⟨4, 0⟩ : TxThreadParams)], p.lcoreId.toNat ∈ [2, 4]) ∧
      ¬ Served [⟨3, 0, 2, 0⟩, ⟨3, 1, 2, 0⟩] [⟨4, 0⟩] c [2, 4] := by
  refine ⟨_, rfl, by decide, by decide, fun hserved => ?_⟩
  obtain ⟨r, ⟨lcoreId, hmem, hrun⟩, hqueue⟩ := hserved.1 ⟨3, 1, 2, 0⟩ (by simp)
  obtain ⟨hr, -, -⟩ := (pthreadRun_eq_rx_iff _ lcoreId r).mp hrun
  obtain rfl : r = 0 := Nat.lt_one_iff.mp hr
  exact absurd hqueue (by decide)

/-! ## Are the polled queues set up? -/

section SetUp

variable (configure : Nat → Nat → Bool) (setUp : Nat → Nat → Bool)

/-- `(enabled_port_mask & (1 << portid)) != 0` -/
def portEnabled (enabledPortMask : BitVec 32) (portid : Nat) : Bool :=
  enabledPortMask &&& (1#32 <<< portid) ≠ 0

/-- The initialisation of a port in `main`: the queues that are set up, or `none` when `main` does
not get past it, because a call fails or because `qid`, a `uint8_t`, never reaches `n_rx_thread`.
`configure` says whether the port can be configured and started, `setUp` whether the pool of a queue
can be created and the queue set up. -/
def setUpPort (nRxThread portid : Nat) : Option (List LcoreRxQueue) :=
  if configure portid nRxThread ∧ nRxThread < 256 ∧ ∀ qid < nRxThread, setUp portid qid then
    some ((List.range nRxThread).map fun qid =>
      { portId := UInt8.ofNat portid, queueId := UInt8.ofNat qid })
  else none

def setUpPorts (enabledPortMask : BitVec 32) (nRxThread : Nat) :
    List Nat → Option (List LcoreRxQueue)
  | [] => some []
  | portid :: ports =>
      if portEnabled enabledPortMask portid then
        (setUpPort configure setUp nRxThread portid).bind fun queues =>
          (setUpPorts enabledPortMask nRxThread ports).map fun rest => queues ++ rest
      else
        setUpPorts enabledPortMask nRxThread ports -- skip the disabled port

variable {configure : Nat → Nat → Bool} {setUp : Nat → Nat → Bool}

theorem portEnabled_lt {enabledPortMask : BitVec 32} {portid : Nat}
    (h : portEnabled enabledPortMask portid = true) : portid < 32 := by
  by_contra hge
  have hzero : 1#32 <<< portid = 0#32 := BitVec.shiftLeft_eq_zero (by omega)
  unfold portEnabled at h
  rw [hzero] at h
  simp at h

theorem mem_setUpPort_iff {nRxThread portid : Nat} (hport : portid < 256)
    {queues : List LcoreRxQueue} (h : setUpPort configure setUp nRxThread portid = some queues)
    (queue : LcoreRxQueue) :
    queue ∈ queues ↔ queue.portId.toNat = portid ∧ queue.queueId.toNat < nRxThread := by
  unfold setUpPort at h
  split at h
  · next hok =>
      obtain ⟨-, hn, -⟩ := hok
      cases h
      constructor
      · intro hmem
        obtain ⟨qid, hqid, rfl⟩ := List.mem_map.mp hmem
        have hlt := List.mem_range.mp hqid
        refine ⟨?_, ?_⟩
        · rw [UInt8.toNat_ofNat', Nat.mod_eq_of_lt hport]
        · rw [UInt8.toNat_ofNat', Nat.mod_eq_of_lt (by omega)]
          exact hlt
      · rintro ⟨rfl, hqid⟩
        refine List.mem_map.mpr ⟨queue.queueId.toNat, List.mem_range.mpr hqid, ?_⟩
        rw [UInt8.ofNat_toNat, UInt8.ofNat_toNat]
  · cases h

/-- **Which queues are set up.** -/
theorem mem_setUpPorts_iff {nRxThread : Nat} {enabledPortMask : BitVec 32} {ports : List Nat}
    {queues : List LcoreRxQueue}
    (h : setUpPorts configure setUp enabledPortMask nRxThread ports = some queues)
    (queue : LcoreRxQueue) :
    queue ∈ queues ↔ queue.portId.toNat ∈ ports ∧
      portEnabled enabledPortMask queue.portId.toNat = true ∧ queue.queueId.toNat < nRxThread := by
  induction ports generalizing queues with
  | nil =>
      cases h
      simp
  | cons portid ports ih =>
      rw [setUpPorts] at h
      split at h
      · next henabled =>
          obtain ⟨qs, hqs, h⟩ := Option.bind_eq_some_iff.mp h
          obtain ⟨rest, hrest, rfl⟩ := Option.map_eq_some_iff.mp h
          have hport := portEnabled_lt henabled
          rw [List.mem_append, mem_setUpPort_iff (by omega) hqs, ih hrest, List.mem_cons]
          constructor
          · rintro (⟨rfl, hqid⟩ | ⟨hmem, hen, hqid⟩)
            · exact ⟨Or.inl rfl, henabled, hqid⟩
            · exact ⟨Or.inr hmem, hen, hqid⟩
          · rintro ⟨rfl | hmem, hen, hqid⟩
            · exact Or.inl ⟨rfl, hqid⟩
            · exact Or.inr ⟨hmem, hen, hqid⟩
      · next hdisabled =>
          rw [ih h, List.mem_cons]
          constructor
          · rintro ⟨hmem, hen, hqid⟩
            exact ⟨Or.inr hmem, hen, hqid⟩
          · rintro ⟨rfl | hmem, hen, hqid⟩
            · exact absurd hen hdisabled
            · exact ⟨hmem, hen, hqid⟩

end SetUp

/-- **When the polled queues are set up**: the first queue of every rx thread that leads a slave
lcore is on a port that exists and is enabled, and its id is at most the highest thread id. -/
theorem polledSetUp_iff (rteRingCreate : String → Bool) (rteLcoreToSocketId : Nat → Nat)
    (configure : Nat → Nat → Bool) (setUp : Nat → Nat → Bool) (rx : List RxThreadParams)
    (tx : List TxThreadParams) (c : Config)
    (h : initThreads rteRingCreate rteLcoreToSocketId rx tx = some c) (nbPorts : Nat)
    (enabledPortMask : BitVec 32) (queues : List LcoreRxQueue)
    (hmain : setUpPorts configure setUp enabledPortMask c.nRxThread (List.range nbPorts) =
      some queues) (slaves : List Nat) :
    (∀ r, Runs c slaves (.rx r) → pollQueue c r ∈ queues) ↔
      ∀ r, Leads rx r → lcoreOf rx r ∈ slaves →
        (firstQueue rx r).portId.toNat < nbPorts ∧
          portEnabled enabledPortMask (firstQueue rx r).portId.toNat = true ∧
            IsRxThread rx (firstQueue rx r).queueId.toNat := by
  have hcount := (threadsOf_initThreads h).1.count
  simp only [runs_rx_iff h, pollQueue_eq h, mem_setUpPorts_iff hmain, List.mem_range, hcount,
    and_imp]
  rfl

/-- The default threads, with port `3` enabled. -/
theorem polledSetUp_iff_default :
    ∃ c queues, initThreads (fun _ => true) (fun _ => 0) rxThreadParamsArrayDefault
        txThreadParamsArrayDefault = some c ∧
      setUpPorts (fun _ _ => true) (fun _ _ => true) 0x8#32 c.nRxThread (List.range 4) =
        some queues ∧
      ((∀ r, Runs c [2, 4, 6, 8] (.rx r) → pollQueue c r ∈ queues) ↔
        ∀ r, Leads rxThreadParamsArrayDefault r → lcoreOf rxThreadParamsArrayDefault r ∈ [2, 4, 6, 8] →
          (firstQueue rxThreadParamsArrayDefault r).portId.toNat < 4 ∧
            portEnabled 0x8#32 (firstQueue rxThreadParamsArrayDefault r).portId.toNat = true ∧
              IsRxThread rxThreadParamsArrayDefault
                (firstQueue rxThreadParamsArrayDefault r).queueId.toNat) :=
  ⟨_, _, rfl, rfl, polledSetUp_iff (fun _ => true) (fun _ => 0) (fun _ _ => true) (fun _ _ => true)
    rxThreadParamsArrayDefault txThreadParamsArrayDefault _ rfl 4 0x8#32 _ rfl [2, 4, 6, 8]⟩

/-- Rx thread `0` polls queue `5` of port `3`, of which only queue `0` is set up. -/
theorem not_polledSetUp_queue_five :
    ∃ c queues, initThreads (fun _ => true) (fun _ => 0) [⟨3, 5, 2, 0⟩] [⟨4, 0⟩] = some c ∧
      setUpPorts (fun _ _ => true) (fun _ _ => true) 0x8#32 c.nRxThread (List.range 4) =
        some queues ∧
      ¬ ∀ r, Runs c [2, 4] (.rx r) → pollQueue c r ∈ queues := by
  refine ⟨_, _, rfl, rfl, fun hall => ?_⟩
  have hrun := hall 0 ⟨2, by decide, by decide⟩
  exact absurd hrun (by decide)

end Pthread
end FloWatcher
