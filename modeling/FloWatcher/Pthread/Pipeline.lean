import FloWatcher.Config
import FloWatcher.Transition.Basic

/-!
# The pthread pipeline

`lcore_main_rx` polls the first queue of its thread and puts every burst into the first ring of the
thread, without a look at how much of it the ring takes. The counting thread of the ring takes
bursts off it and frees their mbufs. All mbufs of a queue come from a pool of its own, so the model
follows every mbuf: free in its pool, with the NIC as a receive buffer, in a burst, or in a ring.
-/

namespace FloWatcher
namespace Pthread

/-- The number of mbufs that `rte_pktmbuf_pool_create` is asked for. -/
def poolSize : Nat := 5000

def rxRingSz : Nat := 65536

/-- A ring holds one object less than its size. -/
def ringCapacity : Nat := rxRingSz - 1

/-- `init_rx_queues`, `init_tx_threads` and `init_rx_rings`, in the version without condition
variables. -/
def initThreads (rteRingCreate : String → Bool) (rteLcoreToSocketId : Nat → Nat)
    (rxThreadParams : List RxThreadParams) (txThreadParams : List TxThreadParams) :
    Option Config :=
  FloWatcher.initThreads rteRingCreate rteLcoreToSocketId false rxThreadParams txThreadParams

/-- An mbuf of the pool `mbuf_pool_%d` of a queue. -/
structure Mbuf where
  pool : Nat
  index : Fin poolSize
  deriving DecidableEq, Repr

/-! ## States -/

/-- Where `lcore_main_rx` is; `bufs` is `bufs[0 .. nb_rx)`. -/
inductive RxPc where
  | poll
  | enqueue (bufs : List Mbuf)

/-- Where a counting thread is; `bufs` is `bufs[0 .. nb_rx)`. -/
inductive TxPc where
  | dequeue
  | packet (bufs : List Mbuf) (buf : Nat)

structure State where
  free : List Mbuf
  nic : LcoreRxQueue → List Mbuf
  rx : Nat → RxPc
  ring : Ring → List Mbuf
  tx : Nat → TxPc
  /-- ghost: the mbufs that a ring did not take, which nobody knows of any more -/
  lost : Nat → List Mbuf
  /-- ghost: the number of packets that an rx thread has received -/
  received : Nat → Nat
  /-- ghost: the number of packets that a counting thread has dequeued -/
  dequeued : Nat → Nat

/-- The pools as `main` creates them, one for each `qid` below `n_rx_thread`. -/
def pools (cfg : Config) : List Mbuf :=
  (List.range cfg.nRxThread ×ˢ List.finRange poolSize).map fun p => { pool := p.1, index := p.2 }

def State.init (cfg : Config) : State where
  free := pools cfg
  nic _ := []
  rx _ := .poll
  ring _ := []
  tx _ := .dequeue
  lost _ := []
  received _ := 0
  dequeued _ := 0

/-- `rx_queue_list[0]`; the array starts as zeros. -/
def pollQueue (cfg : Config) (r : Nat) : LcoreRxQueue :=
  (cfg.rxThread r).rxQueueList.headD { portId := 0, queueId := 0 }

def RxPc.held : RxPc → List Mbuf
  | .poll => []
  | .enqueue bufs => bufs

def TxPc.held : TxPc → List Mbuf
  | .dequeue => []
  | .packet bufs buf => bufs.drop buf

/-! ## Steps -/

/-- An action; `rxBurst` has the number of packets that are there. -/
inductive Action where
  | refill (queue : LcoreRxQueue) (m : Mbuf)
  | rxBurst (r nbRx : Nat)
  | enqueueBurst (r : Nat)
  | dequeueBurst (t : Nat)
  | packet (t : Nat)

/-- The NIC takes a free mbuf of its pool for a queue that `main` has set up, on the enabled port
`portId`. -/
def refill (cfg : Config) (portId : UInt8) (s : State) (queue : LcoreRxQueue) (m : Mbuf) :
    Option State :=
  if queue.portId = portId ∧ queue.queueId.toNat < cfg.nRxThread ∧
      m.pool = queue.queueId.toNat ∧ m ∈ s.free then
    some
      { s with
        free := s.free.erase m
        nic := Function.update s.nic queue (s.nic queue ++ [m]) }
  else none

/-- The loop of `lcore_main_rx`, up to the enqueue. With `nb_rx == 0` it polls again. -/
def rxBurst (cfg : Config) (burstSize : UInt16) (s : State) (r nbRx : Nat) : Option State :=
  let queue := pollQueue cfg r
  match s.rx r with
  | .poll =>
      if nbRx ≤ burstSize.toNat ∧ nbRx ≤ (s.nic queue).length then
        if nbRx = 0 then some s
        else
          some
            { s with
              nic := Function.update s.nic queue ((s.nic queue).drop nbRx)
              rx := Function.update s.rx r (.enqueue ((s.nic queue).take nbRx))
              received := Function.update s.received r (s.received r + nbRx) }
      else none
  | .enqueue _ => none

/-- `rte_ring_enqueue_burst(rx_conf->ring[0], bufs, nb_rx, 0)`: the ring takes as many as it has
room for, and the result is not looked at. -/
def enqueueBurst (cfg : Config) (s : State) (r : Nat) : Option State :=
  match s.rx r, (cfg.rxThread r).ring[0]? with
  | .enqueue bufs, some x =>
      let n := ringCapacity - (s.ring x).length
      some
        { s with
          rx := Function.update s.rx r .poll
          ring := Function.update s.ring x (s.ring x ++ bufs.take n)
          lost := Function.update s.lost r (s.lost r ++ bufs.drop n) }
  | _, _ => none

/-- The loop of `lcore_main_count_double_hash`, up to the packets. -/
def dequeueBurst (cfg : Config) (burstSize : UInt16) (s : State) (t : Nat) : Option State :=
  match s.tx t, (cfg.txThread t).ring with
  | .dequeue, some x =>
      let bufs := (s.ring x).take burstSize.toNat
      if bufs.length = 0 then some s
      else
        some
          { s with
            ring := Function.update s.ring x ((s.ring x).drop burstSize.toNat)
            tx := Function.update s.tx t (.packet bufs 0)
            dequeued := Function.update s.dequeued t (s.dequeued t + bufs.length) }
  | _, _ => none

/-- One packet of `lcore_main_count_double_hash`: its mbuf is freed. -/
def packetFree (s : State) (t : Nat) : Option State :=
  match s.tx t with
  | .packet bufs buf =>
      match bufs[buf]? with
      | some m =>
          some
            { s with
              free := s.free ++ [m]
              tx := Function.update s.tx t (.packet bufs (buf + 1)) }
      | none => some { s with tx := Function.update s.tx t .dequeue }
  | .dequeue => none

def step (cfg : Config) (portId : UInt8) (burstSize : UInt16) (s : State) : Action → Option State
  | .refill queue m => refill cfg portId s queue m
  | .rxBurst r nbRx => if r < cfg.nRxThread then rxBurst cfg burstSize s r nbRx else none
  | .enqueueBurst r => if r < cfg.nRxThread then enqueueBurst cfg s r else none
  | .dequeueBurst t => if t < cfg.nTxThread then dequeueBurst cfg burstSize s t else none
  | .packet t => if t < cfg.nTxThread then packetFree s t else none

end Pthread
end FloWatcher
