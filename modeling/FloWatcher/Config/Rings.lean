import FloWatcher.Config.Threads
import Mathlib.Tactic.Linarith

/-!
# Which layouts does `init_rx_rings` accept?

Every tx thread names the rx thread that it takes its packets from. `init_rx_rings` reports that an
rx thread is "not defined" when its id is greater than the number of *tx* threads, and appends the
ring to an array of `RTE_MAX_LCORE` entries without a look at the index. `checksLayout_iff` says on
which parameters the check does what it reports and the index stays within the array; elsewhere the
arrays `ring` and `ready` of an rx thread are assumed to have room for all its rings. The pthread
and the lthread program have the same code, up to the condition variables.
-/

namespace FloWatcher

variable {rteRingCreate : String → Bool} {rteLcoreToSocketId : Nat → Nat} {ready : Bool}

/-! ## The loop -/

theorem rxThreadsOf_connect {rx : List RxThreadParams} {c c' : Config} {k : Nat}
    (hc : RxThreadsOf rx c) (h : connect rteRingCreate rteLcoreToSocketId ready c k = .ok c') :
    RxThreadsOf rx c' := by
  obtain ⟨-, ring, -, -, rfl⟩ := connect_ok h
  refine ⟨fun r => ?_, fun r => ?_, hc.count⟩
  · rcases eq_or_ne r ring.rxThreadId with rfl | hr
    · simp only [Function.update_self]
      exact hc.queues _
    · simp only [Function.update_of_ne hr]
      exact hc.queues r
  · rcases eq_or_ne r ring.rxThreadId with rfl | hr
    · simp only [Function.update_self]
      exact hc.lcore _
    · simp only [Function.update_of_ne hr]
      exact hc.lcore r

theorem txThreadsOf_connect {tx : List TxThreadParams} {c c' : Config} {k : Nat}
    (hc : TxThreadsOf tx c) (h : connect rteRingCreate rteLcoreToSocketId ready c k = .ok c') :
    TxThreadsOf tx c' := by
  obtain ⟨-, ring, -, -, rfl⟩ := connect_ok h
  refine ⟨hc.count, fun t p hp => ?_⟩
  rcases eq_or_ne t k with rfl | ht
  · simp only [Function.update_self]
    exact hc.thread t p hp
  · simp only [Function.update_of_ne ht]
    exact hc.thread t p hp

/-- Each rx thread has a ring for every pair so far that names it. -/
structure RingsOf (tx : List TxThreadParams) (k : Nat) (c : Config) : Prop where
  threads : TxThreadsOf tx c
  defined : ∀ t < k, (c.txThread t).threadId ≤ tx.length
  length : ∀ r, (c.rxThread r).ring.length = (tx.take k).countP (·.threadId.toNat = r)

theorem ringsOf_connect {tx : List TxThreadParams} {c c' : Config} {k : Nat} (hk : k < tx.length)
    (hc : RingsOf tx k c) (h : connect rteRingCreate rteLcoreToSocketId ready c k = .ok c') :
    RingsOf tx (k + 1) c' := by
  obtain ⟨hthreads, hdefined, hlength⟩ := hc
  have hthread := hthreads.thread k tx[k] (List.getElem?_eq_getElem hk)
  have hthreads' := txThreadsOf_connect hthreads h
  obtain ⟨hle, ring, hrx, -, rfl⟩ := connect_ok h
  refine ⟨hthreads', fun t ht => ?_, fun r => ?_⟩
  · rcases eq_or_ne t k with rfl | hne
    · rw [← hthreads.count]
      simp only [Function.update_self]
      exact hle
    · simp only [Function.update_of_ne hne]
      exact hdefined t (by omega)
  · rw [← List.take_append_getElem hk, List.countP_append, List.countP_singleton]
    rcases eq_or_ne r ring.rxThreadId with rfl | hr
    · have htag : tx[k].threadId.toNat = ring.rxThreadId := by rw [hrx, hthread.1]
      simp only [Function.update_self, List.length_append, List.length_singleton, hlength, htag,
        decide_true, if_true]
    · have htag : ¬ tx[k].threadId.toNat = r := by
        rw [← hthread.1, ← hrx]
        exact Ne.symm hr
      simp only [Function.update_of_ne hr, hlength, htag, decide_false, Bool.false_eq_true, if_false,
        add_zero]

/-- The rings when `init_rx_rings` returns `0`. -/
theorem ringsOf_initRxRings {rx : List RxThreadParams} {tx : List TxThreadParams} {c₀ c : Config}
    (hrx : initRxQueues rx Config.zero = some c₀)
    (h : initRxRings rteRingCreate rteLcoreToSocketId ready (initTxThreads tx c₀) = .ok c) :
    RingsOf tx tx.length c := by
  have hthreads := txThreadsOf_initTxThreads tx c₀
  rw [← hthreads.count]
  apply initRxRings_induct (P := RingsOf tx) _ _ h
  · refine ⟨hthreads, fun t ht => absurd ht (Nat.not_lt_zero t), fun r => ?_⟩
    rw [rxThread_initTxThreads, ring_initRxQueues hrx]
    rfl
  · intro k hk d d' hd hconnect
    rw [hthreads.count] at hk
    exact ringsOf_connect hk hd hconnect

/-- Each rx thread has a ring for every pair that names it. -/
theorem ringsOf_initThreads {rx : List RxThreadParams} {tx : List TxThreadParams} {c : Config}
    (h : initThreads rteRingCreate rteLcoreToSocketId ready rx tx = some c) :
    RingsOf tx tx.length c := by
  obtain ⟨c₀, hc₀, hrings⟩ := Option.bind_eq_some_iff.mp h
  cases hr : initRxRings rteRingCreate rteLcoreToSocketId ready (initTxThreads tx c₀) with
  | error e =>
      rw [hr] at hrings
      cases hrings
  | ok d =>
      rw [hr] at hrings
      cases hrings
      exact ringsOf_initRxRings hc₀ hr

/-- The threads that both programs run with. -/
theorem threadsOf_initThreads {rx : List RxThreadParams} {tx : List TxThreadParams} {c : Config}
    (h : initThreads rteRingCreate rteLcoreToSocketId ready rx tx = some c) :
    RxThreadsOf rx c ∧ TxThreadsOf tx c := by
  apply initThreads_induct (P := fun _ c => RxThreadsOf rx c ∧ TxThreadsOf tx c) _ _ h
  · intro c₀ hc₀
    obtain ⟨hqueues, hlcore, hcount⟩ := rxThreadsOf_initRxQueues hc₀
    refine ⟨⟨fun r => ?_, fun r => ?_, fun r => ?_⟩, txThreadsOf_initTxThreads tx c₀⟩
    · rw [rxThread_initTxThreads]
      exact hqueues r
    · rw [rxThread_initTxThreads]
      exact hlcore r
    · rw [nRxThread_initTxThreads]
      exact hcount r
  · intro k d d' hd hconnect
    obtain ⟨-, ring, -, -, hd'⟩ := connect_ok hconnect
    exact ⟨⟨rxThreadsOf_connect hd.1 hconnect, txThreadsOf_connect hd.2 hconnect⟩, by rw [hd']⟩

/-- When every ring can be created, only the comparison makes `init_rx_rings` fail. -/
theorem initRxRings_ok (hcreate : ∀ name, rteRingCreate name = true) {c : Config}
    (hdefined : ∀ t < c.nTxThread, (c.txThread t).threadId ≤ c.nTxThread) :
    ∃ c', initRxRings rteRingCreate rteLcoreToSocketId ready c = .ok c' := by
  have hloop : ∀ n ≤ c.nTxThread, ∃ d : Config, (List.range n).foldlM
      (connect rteRingCreate rteLcoreToSocketId ready) c = .ok d ∧ d.nTxThread = c.nTxThread ∧
        ∀ t, (d.txThread t).threadId = (c.txThread t).threadId := by
    intro n
    induction n with
    | zero => exact fun _ => ⟨c, rfl, rfl, fun _ => rfl⟩
    | succ n ih =>
        intro hn
        obtain ⟨d, hd, hcount, hid⟩ := ih (by omega)
        have hle : ¬ (d.txThread n).threadId > d.nTxThread := by
          rw [hid, hcount]
          exact Nat.not_lt.mpr (hdefined n hn)
        have hconnect : ∃ d', connect rteRingCreate rteLcoreToSocketId ready d n = .ok d' := by
          dsimp only [connect]
          rw [if_neg hle, if_pos (hcreate _)]
          exact ⟨_, rfl⟩
        obtain ⟨d', hd'⟩ := hconnect
        refine ⟨d', ?_, ?_, fun t => ?_⟩
        · rw [List.range_succ, List.foldlM_append, hd]
          change (connect rteRingCreate rteLcoreToSocketId ready d n >>= pure) = .ok d'
          rw [bind_pure, hd']
        · obtain ⟨-, ring, -, -, rfl⟩ := connect_ok hd'
          exact hcount
        · obtain ⟨-, ring, -, -, rfl⟩ := connect_ok hd'
          rw [← hid]
          rcases eq_or_ne t n with rfl | ht
          · simp only [Function.update_self]
          · simp only [Function.update_of_ne ht]
  obtain ⟨d, hd, -⟩ := hloop c.nTxThread le_rfl
  exact ⟨d, hd⟩

/-- `init_rx_rings` returns `0` when no pair names an rx thread beyond the number of pairs. -/
theorem initRxRings_ok_iff (hcreate : ∀ name, rteRingCreate name = true) {rx : List RxThreadParams}
    {tx : List TxThreadParams} {c₀ : Config} (hrx : initRxQueues rx Config.zero = some c₀) :
    (∃ c, initRxRings rteRingCreate rteLcoreToSocketId ready (initTxThreads tx c₀) = .ok c) ↔
      ∀ p ∈ tx, p.threadId.toNat ≤ tx.length := by
  have hthreads := txThreadsOf_initTxThreads tx c₀
  constructor
  · rintro ⟨c, hc⟩ p hp
    obtain ⟨hthreads', hdefined, -⟩ := ringsOf_initRxRings hrx hc
    obtain ⟨t, ht⟩ := List.mem_iff_getElem?.mp hp
    rw [← (hthreads'.thread t p ht).1]
    exact hdefined t (List.getElem?_eq_some_iff.mp ht).1
  · intro hle
    apply initRxRings_ok hcreate
    intro t ht
    rw [hthreads.count] at ht ⊢
    rw [(hthreads.thread t tx[t] (List.getElem?_eq_getElem ht)).1]
    exact hle _ (List.getElem_mem ht)

/-! ## Good layouts -/

/-- Every pair names an rx thread that some tuple defines. -/
def AllDefined (rx : List RxThreadParams) (tx : List TxThreadParams) : Prop :=
  ∀ p ∈ tx, ∃ q ∈ rx, q.threadId = p.threadId

/-- What `init_rx_rings` should do: accept the layouts in which every rx thread is defined, and
store every ring within its array. -/
def ChecksLayout (rteMaxLcore : Nat) (rx : List RxThreadParams) (tx : List TxThreadParams)
    (result : Except RingError Config) : Prop :=
  ((∃ c, result = .ok c) ↔ AllDefined rx tx) ∧
    ∀ c, result = .ok c → ∀ r, ∀ i < (c.rxThread r).ring.length, i < rteMaxLcore

/-- **When `init_rx_rings` checks the layout**: the rx thread ids of the pairs are at most the
number of pairs exactly if all of them are defined, and then none is named more than `RTE_MAX_LCORE`
times. -/
theorem checksLayout_iff (rteRingCreate : String → Bool) (rteLcoreToSocketId : Nat → Nat)
    (ready : Bool) (rteMaxLcore : Nat) (rx : List RxThreadParams) (tx : List TxThreadParams)
    (c₀ : Config) (hrx : initRxQueues rx Config.zero = some c₀)
    (hcreate : ∀ name, rteRingCreate name = true) :
    ChecksLayout rteMaxLcore rx tx
        (initRxRings rteRingCreate rteLcoreToSocketId ready (initTxThreads tx c₀)) ↔
      ((∀ p ∈ tx, p.threadId.toNat ≤ tx.length) ↔ AllDefined rx tx) ∧
        ((∀ p ∈ tx, p.threadId.toNat ≤ tx.length) →
          ∀ r, tx.countP (·.threadId.toNat = r) ≤ rteMaxLcore) := by
  have hok : (∃ c, initRxRings rteRingCreate rteLcoreToSocketId ready (initTxThreads tx c₀) =
      .ok c) ↔ ∀ p ∈ tx, p.threadId.toNat ≤ tx.length := initRxRings_ok_iff hcreate hrx
  have hlength : ∀ c, initRxRings rteRingCreate rteLcoreToSocketId ready (initTxThreads tx c₀) =
      .ok c → ∀ r, (c.rxThread r).ring.length = tx.countP (·.threadId.toNat = r) := by
    intro c hc r
    rw [(ringsOf_initRxRings hrx hc).length, List.take_length]
  rw [ChecksLayout, hok]
  apply and_congr_right
  intro _
  constructor
  · intro hindex hle r
    obtain ⟨c, hc⟩ := hok.mpr hle
    rw [← hlength c hc r]
    by_contra hgt
    exact absurd (hindex c hc r rteMaxLcore (by omega)) (lt_irrefl _)
  · intro hcount c hc r i hi
    rw [hlength c hc r] at hi
    exact hi.trans_le (hcount (hok.mp ⟨c, hc⟩) r)

/-- `rx_thread_params_array_default` of the pthread program. -/
def rxThreadParamsArrayDefault : List RxThreadParams := [⟨3, 0, 2, 0⟩, ⟨3, 1, 4, 1⟩]

/-- `tx_thread_params_array_default` of the pthread program. -/
def txThreadParamsArrayDefault : List TxThreadParams := [⟨6, 0⟩, ⟨8, 1⟩]

theorem checksLayout_iff_default :
    ∃ c₀, initRxQueues rxThreadParamsArrayDefault Config.zero = some c₀ ∧
      (ChecksLayout 128 rxThreadParamsArrayDefault txThreadParamsArrayDefault
          (initRxRings (fun _ => true) (fun _ => 0) false
            (initTxThreads txThreadParamsArrayDefault c₀)) ↔
        ((∀ p ∈ txThreadParamsArrayDefault,
            p.threadId.toNat ≤ txThreadParamsArrayDefault.length) ↔
          AllDefined rxThreadParamsArrayDefault txThreadParamsArrayDefault) ∧
        ((∀ p ∈ txThreadParamsArrayDefault,
            p.threadId.toNat ≤ txThreadParamsArrayDefault.length) →
          ∀ r, txThreadParamsArrayDefault.countP (·.threadId.toNat = r) ≤ 128)) :=
  ⟨_, rfl, checksLayout_iff (fun _ => true) (fun _ => 0) false 128 rxThreadParamsArrayDefault
    txThreadParamsArrayDefault _ rfl fun _ => rfl⟩

/-- Two tx threads, of which the second names an rx thread without a tuple: both programs accept
it. -/
theorem not_checksLayout_undefined :
    ∃ c₀, initRxQueues [⟨3, 0, 2, 0⟩] Config.zero = some c₀ ∧ ∀ ready,
      ¬ ChecksLayout 128 [⟨3, 0, 2, 0⟩] [⟨4, 0⟩, ⟨5, 1⟩]
        (initRxRings (fun _ => true) (fun _ => 0) ready (initTxThreads [⟨4, 0⟩, ⟨5, 1⟩] c₀)) := by
  refine ⟨_, rfl, fun ready h => ?_⟩
  have hdefined : AllDefined [⟨3, 0, 2, 0⟩] [⟨4, 0⟩, ⟨5, 1⟩] := h.1.mp ⟨_, rfl⟩
  obtain ⟨q, hq, hid⟩ := hdefined ⟨5, 1⟩ (by simp)
  rw [List.mem_singleton.mp hq] at hid
  exact absurd hid (by decide)

end FloWatcher
