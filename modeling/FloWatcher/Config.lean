import Mathlib.Data.List.Induction
import Mathlib.Logic.Function.Basic

/-!
# Threads and rings

The two pipelines are configured alike. Every `--rx` tuple gives a queue to an rx thread, every
`--tx` tuple makes a tx thread, and `init_rx_rings` connects each tx thread with the rx thread that
it names by a ring of its own. What the threads rely on is `Wired`: the rings of the rx threads are
rings of tx threads, and no two tx threads share one.
-/

namespace FloWatcher

def maxRxQueuePerLcore : Nat := 16

/-- `struct rx_thread_params`, a tuple of `--rx`. -/
structure RxThreadParams where
  portId : UInt8
  queueId : UInt8
  lcoreId : UInt8
  threadId : UInt8
  deriving DecidableEq, Repr

/-- `struct tx_thread_params`, a pair of `--tx`. -/
structure TxThreadParams where
  lcoreId : UInt8
  threadId : UInt8
  deriving DecidableEq, Repr

structure LcoreRxQueue where
  portId : UInt8
  queueId : UInt8
  deriving DecidableEq, Repr

/-- A ring is known by what its name is made of. -/
structure Ring where
  socketIo : Nat
  rxThreadId : Nat
  txThreadId : Nat
  deriving DecidableEq, Repr

/-- The name that a ring is created with. -/
def Ring.name (ring : Ring) : String :=
  "app_ring_s" ++ toString ring.socketIo ++ "_rx" ++ toString ring.rxThreadId ++
    "_tx" ++ toString ring.txThreadId

/-- `struct thread_rx_conf`. The lengths of the lists are `n_rx_queue` and `n_ring`. -/
structure ThreadRxConf where
  lcoreId : Nat
  threadId : Nat
  rxQueueList : List LcoreRxQueue
  ring : List Ring

/-- `struct thread_tx_conf`. `ready` points into the `ready` array of an rx thread; the pthread
program does not have it. -/
structure ThreadTxConf where
  lcoreId : Nat
  threadId : Nat
  ring : Option Ring
  ready : Option (Nat × Nat)

/-- `n_rx_thread`, `rx_thread`, `n_tx_thread` and `tx_thread`. -/
structure Config where
  nRxThread : Nat
  rxThread : Nat → ThreadRxConf
  nTxThread : Nat
  txThread : Nat → ThreadTxConf

/-- The globals at the start of the program. -/
def Config.zero : Config where
  nRxThread := 0
  rxThread _ := { lcoreId := 0, threadId := 0, rxQueueList := [], ring := [] }
  nTxThread := 0
  txThread _ := { lcoreId := 0, threadId := 0, ring := none, ready := none }

/-! ## Initialisation -/

/-- The body of the loop in `init_rx_queues`. -/
def addRxQueue (c : Config) (p : RxThreadParams) : Option Config :=
  let thread := p.threadId.toNat
  let rx := c.rxThread thread
  if maxRxQueuePerLcore ≤ rx.rxQueueList.length then none
  else
    some
      { c with
        rxThread := Function.update c.rxThread thread
          { rx with
            threadId := thread
            lcoreId := p.lcoreId.toNat
            rxQueueList := rx.rxQueueList ++ [{ portId := p.portId, queueId := p.queueId }] }
        nRxThread := if c.nRxThread ≤ thread then thread + 1 else c.nRxThread }

/-- `init_rx_queues`. `none` is the error return of one program and the exit of the other. -/
def initRxQueues (rxThreadParams : List RxThreadParams) (c : Config) : Option Config :=
  rxThreadParams.foldlM addRxQueue { c with nRxThread := 0 }

/-- The body of the loop in `init_tx_threads`. -/
def addTxThread (c : Config) (p : TxThreadParams) : Config :=
  { c with
    txThread := Function.update c.txThread c.nTxThread
      { c.txThread c.nTxThread with threadId := p.threadId.toNat, lcoreId := p.lcoreId.toNat }
    nTxThread := c.nTxThread + 1 }

def initTxThreads (txThreadParams : List TxThreadParams) (c : Config) : Config :=
  txThreadParams.foldl addTxThread { c with nTxThread := 0 }

/-- How `init_rx_rings` fails: with `-1`, or with `rte_panic`. -/
inductive RingError where
  | rxThreadNotDefined
  | cannotCreateRing
  deriving DecidableEq, Repr

section Rings

variable (rteRingCreate : String → Bool) (rteLcoreToSocketId : Nat → Nat)

/-- The body of the loop in `init_rx_rings`; `ready` says whether there are condition variables. -/
def connect (ready : Bool) (c : Config) (txThreadId : Nat) : Except RingError Config :=
  let txConf := c.txThread txThreadId
  let rxThreadId := txConf.threadId
  -- the bound is `n_tx_thread`, and the comparison is strict
  if rxThreadId > c.nTxThread then .error .rxThreadNotDefined
  else
    let rxConf := c.rxThread rxThreadId
    let ring : Ring :=
      { socketIo := rteLcoreToSocketId rxConf.lcoreId
        rxThreadId := rxThreadId
        txThreadId := txThreadId }
    if rteRingCreate ring.name then
      .ok
        { c with
          rxThread := Function.update c.rxThread rxThreadId
            { rxConf with ring := rxConf.ring ++ [ring] }
          txThread := Function.update c.txThread txThreadId
            { txConf with
              ring := some ring
              ready := if ready then some (rxThreadId, rxConf.ring.length) else txConf.ready } }
    else .error .cannotCreateRing

def initRxRings (ready : Bool) (c : Config) : Except RingError Config :=
  (List.range c.nTxThread).foldlM (connect rteRingCreate rteLcoreToSocketId ready) c

def initThreads (ready : Bool) (rxThreadParams : List RxThreadParams)
    (txThreadParams : List TxThreadParams) : Option Config :=
  (initRxQueues rxThreadParams Config.zero).bind fun c =>
    (initRxRings rteRingCreate rteLcoreToSocketId ready (initTxThreads txThreadParams c)).toOption

end Rings

/-! ## What is connected with what -/

/-- Tx threads `0 … k - 1` are connected, each by a ring of its own. -/
structure WiredTo (c : Config) (k : Nat) : Prop where
  tx : ∀ t < k, ∃ ring, (c.txThread t).ring = some ring ∧ ring.txThreadId = t
  rx : ∀ r, ∀ ring ∈ (c.rxThread r).ring,
    ring.rxThreadId = r ∧ ring.txThreadId < k ∧ (c.txThread ring.txThreadId).ring = some ring

def Wired (c : Config) : Prop := WiredTo c c.nTxThread

/-- Two tx threads do not share a ring. -/
theorem Wired.ring_inj {c : Config} (hc : Wired c) {t t' : Nat} (ht : t < c.nTxThread)
    (ht' : t' < c.nTxThread) {ring : Ring} (hring : (c.txThread t).ring = some ring)
    (hring' : (c.txThread t').ring = some ring) : t = t' := by
  obtain ⟨x, hx, rfl⟩ := hc.tx t ht
  obtain ⟨y, hy, rfl⟩ := hc.tx t' ht'
  have hxy : x = y := Option.some.inj (hx.symm.trans (hring.trans (hring'.symm.trans hy)))
  rw [hxy]

/-- A tuple that fits changes its own rx thread and `n_rx_thread`, and nothing else. -/
theorem addRxQueue_some {c c' : Config} {p : RxThreadParams} (h : addRxQueue c p = some c') :
    c' = { c with
      rxThread := Function.update c.rxThread p.threadId.toNat
        { c.rxThread p.threadId.toNat with
          threadId := p.threadId.toNat
          lcoreId := p.lcoreId.toNat
          rxQueueList := (c.rxThread p.threadId.toNat).rxQueueList ++
            [{ portId := p.portId, queueId := p.queueId }] }
      nRxThread :=
        if c.nRxThread ≤ p.threadId.toNat then p.threadId.toNat + 1 else c.nRxThread } := by
  dsimp only [addRxQueue] at h
  split at h
  · cases h
  · cases h
    rfl

theorem ring_addRxQueue {c c' : Config} {p : RxThreadParams} (h : addRxQueue c p = some c')
    (r : Nat) : (c'.rxThread r).ring = (c.rxThread r).ring := by
  rw [addRxQueue_some h]
  rcases eq_or_ne r p.threadId.toNat with rfl | hr
  · simp only [Function.update_self]
  · simp only [Function.update_of_ne hr]

/-- What holds before the tuples and is kept by each of them holds after `init_rx_queues`. -/
theorem initRxQueues_induct {P : List RxThreadParams → Config → Prop} {c₀ : Config}
    (hzero : P [] { c₀ with nRxThread := 0 })
    (hstep : ∀ rx p c c', P rx c → addRxQueue c p = some c' → P (rx ++ [p]) c')
    {rx : List RxThreadParams} {c : Config} (h : initRxQueues rx c₀ = some c) : P rx c := by
  have hfold : ∀ ps rx d, P rx d → ps.foldlM addRxQueue d = some c → P (rx ++ ps) c := by
    intro ps
    induction ps with
    | nil =>
        intro rx d hd h
        cases h
        rw [List.append_nil]
        exact hd
    | cons p ps ih =>
        intro rx d hd h
        rw [List.foldlM_cons] at h
        obtain ⟨e, he, h⟩ := Option.bind_eq_some_iff.mp h
        rw [List.append_cons]
        exact ih _ e (hstep rx p d e hd he) h
  exact hfold rx [] _ hzero h

theorem ring_initRxQueues {ps : List RxThreadParams} {c c' : Config}
    (h : initRxQueues ps c = some c') (r : Nat) : (c'.rxThread r).ring = (c.rxThread r).ring := by
  apply initRxQueues_induct (P := fun _ d => (d.rxThread r).ring = (c.rxThread r).ring) rfl _ h
  intro rx p d d' hd hadd
  exact (ring_addRxQueue hadd r).trans hd

/-- What holds before the pairs and is kept by each of them holds after `init_tx_threads`. -/
theorem initTxThreads_induct {P : List TxThreadParams → Config → Prop} {c : Config}
    (hzero : P [] { c with nTxThread := 0 })
    (hstep : ∀ tx p d, P tx d → P (tx ++ [p]) (addTxThread d p)) (tx : List TxThreadParams) :
    P tx (initTxThreads tx c) := by
  induction tx using List.reverseRecOn with
  | nil => exact hzero
  | append_singleton tx p ih =>
      rw [initTxThreads, List.foldl_append, List.foldl_cons, List.foldl_nil]
      exact hstep tx p _ ih

theorem rxThread_initTxThreads (ps : List TxThreadParams) (c : Config) :
    (initTxThreads ps c).rxThread = c.rxThread :=
  initTxThreads_induct (P := fun _ d => d.rxThread = c.rxThread) rfl (fun _ _ _ hd => hd) ps

section Rings

variable {rteRingCreate : String → Bool} {rteLcoreToSocketId : Nat → Nat}

/-- What connecting a tx thread does. -/
theorem connect_ok {ready : Bool} {c c' : Config} {k : Nat}
    (h : connect rteRingCreate rteLcoreToSocketId ready c k = .ok c') :
    (c.txThread k).threadId ≤ c.nTxThread ∧
      ∃ ring : Ring, ring.rxThreadId = (c.txThread k).threadId ∧ ring.txThreadId = k ∧
        c' =
          { c with
            rxThread := Function.update c.rxThread ring.rxThreadId
              { c.rxThread ring.rxThreadId with
                ring := (c.rxThread ring.rxThreadId).ring ++ [ring] }
            txThread := Function.update c.txThread k
              { c.txThread k with
                ring := some ring
                ready :=
                  if ready then some (ring.rxThreadId, (c.rxThread ring.rxThreadId).ring.length)
                  else (c.txThread k).ready } } := by
  dsimp only [connect] at h
  split at h
  · cases h
  · next hdef =>
      split at h
      · cases h
        let ring : Ring :=
          { socketIo := rteLcoreToSocketId (c.rxThread (c.txThread k).threadId).lcoreId
            rxThreadId := (c.txThread k).threadId
            txThreadId := k }
        exact ⟨Nat.le_of_not_lt hdef, ring, rfl, rfl, rfl⟩
      · cases h

/-- Connecting the next tx thread. -/
theorem wiredTo_connect {ready : Bool} {c c' : Config} {k : Nat} (hc : WiredTo c k)
    (h : connect rteRingCreate rteLcoreToSocketId ready c k = .ok c') :
    WiredTo c' (k + 1) ∧ c'.nTxThread = c.nTxThread := by
  obtain ⟨htx, hrx⟩ := hc
  obtain ⟨-, ring, -, hid, rfl⟩ := connect_ok h
  refine ⟨⟨?_, ?_⟩, rfl⟩
  · intro t ht
    rcases eq_or_ne t k with rfl | hne
    · exact ⟨ring, by simp only [Function.update_self], hid⟩
    · obtain ⟨ring', hring', hid'⟩ := htx t (by omega)
      exact ⟨ring', by simp only [Function.update_of_ne hne, hring'], hid'⟩
  · intro r ring' hmem
    have hold : ring' ∈ (c.rxThread r).ring → ∀ conf, ring'.rxThreadId = r ∧
        ring'.txThreadId < k + 1 ∧
        (Function.update c.txThread k conf ring'.txThreadId).ring = some ring' := by
      intro hmem conf
      obtain ⟨hr, hlt, hring'⟩ := hrx r ring' hmem
      exact ⟨hr, by omega, by rw [Function.update_of_ne (by omega), hring']⟩
    rcases eq_or_ne r ring.rxThreadId with rfl | hr
    · simp only [Function.update_self, List.mem_append, List.mem_singleton] at hmem
      rcases hmem with hmem | rfl
      · exact hold hmem _
      · refine ⟨rfl, by omega, ?_⟩
        simp only [hid, Function.update_self]
    · simp only [Function.update_of_ne hr] at hmem
      exact hold hmem _

/-- What holds of the threads at the start of `init_rx_rings` and is kept by its loop. -/
theorem initRxRings_induct {ready : Bool} {P : Nat → Config → Prop} {c c' : Config}
    (hstart : P 0 c)
    (hstep : ∀ k < c.nTxThread, ∀ d d', P k d →
      connect rteRingCreate rteLcoreToSocketId ready d k = .ok d' → P (k + 1) d')
    (h : initRxRings rteRingCreate rteLcoreToSocketId ready c = .ok c') : P c.nTxThread c' := by
  have hloop : ∀ n ≤ c.nTxThread, ∀ d : Config, ((List.range n).foldlM
      (connect rteRingCreate rteLcoreToSocketId ready) c) = .ok d → P n d := by
    intro n
    induction n with
    | zero =>
        intro _ d hd
        cases hd
        exact hstart
    | succ n ih =>
        intro hn d hd
        rw [List.range_succ, List.foldlM_append] at hd
        cases he : (List.range n).foldlM (connect rteRingCreate rteLcoreToSocketId ready) c with
        | error e =>
            rw [he] at hd
            cases hd
        | ok e =>
            rw [he] at hd
            change (connect rteRingCreate rteLcoreToSocketId ready e n >>= pure) = .ok d at hd
            rw [bind_pure] at hd
            exact hstep n hn e d (ih (by omega) e he) hd
  exact hloop c.nTxThread (Nat.le_refl _) c' h

/-- The same, from the parameters on. -/
theorem initThreads_induct {ready : Bool} {rx : List RxThreadParams} {tx : List TxThreadParams}
    {P : Nat → Config → Prop} {c : Config}
    (hstart : ∀ c₀, initRxQueues rx Config.zero = some c₀ → P 0 (initTxThreads tx c₀))
    (hstep : ∀ k d d', P k d → connect rteRingCreate rteLcoreToSocketId ready d k = .ok d' →
      P (k + 1) d' ∧ d'.nTxThread = d.nTxThread)
    (h : initThreads rteRingCreate rteLcoreToSocketId ready rx tx = some c) :
    P c.nTxThread c := by
  obtain ⟨c₀, hc₀, hrings⟩ := Option.bind_eq_some_iff.mp h
  have hok : initRxRings rteRingCreate rteLcoreToSocketId ready (initTxThreads tx c₀) = .ok c := by
    cases hr : initRxRings rteRingCreate rteLcoreToSocketId ready (initTxThreads tx c₀) with
    | error e =>
        rw [hr] at hrings
        cases hrings
    | ok d =>
        rw [hr] at hrings
        cases hrings
        rfl
  have hend : P (initTxThreads tx c₀).nTxThread c ∧
      c.nTxThread = (initTxThreads tx c₀).nTxThread := by
    apply initRxRings_induct (P := fun k d => P k d ∧ d.nTxThread = (initTxThreads tx c₀).nTxThread)
      ⟨hstart c₀ hc₀, rfl⟩ _ hok
    rintro k - d d' ⟨hd, hn⟩ hconnect
    obtain ⟨hd', hn'⟩ := hstep k d d' hd hconnect
    exact ⟨hd', hn'.trans hn⟩
  rw [hend.2]
  exact hend.1

/-- **The rings after `init_rx_rings`.** -/
theorem wired_initThreads {ready : Bool} {rx : List RxThreadParams} {tx : List TxThreadParams}
    {c : Config} (h : initThreads rteRingCreate rteLcoreToSocketId ready rx tx = some c) :
    Wired c := by
  apply initThreads_induct (P := fun k c => WiredTo c k) _ _ h
  · intro c₀ hc₀
    refine ⟨fun t ht => absurd ht (Nat.not_lt_zero t), fun r ring hmem => ?_⟩
    rw [rxThread_initTxThreads, ring_initRxQueues hc₀ r] at hmem
    exact absurd hmem (List.not_mem_nil)
  · intro k d d' hd hconnect
    exact wiredTo_connect hd hconnect

end Rings

end FloWatcher
