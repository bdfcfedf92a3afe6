import FloWatcher.Config
import FloWatcher.Transition.Basic
import Mathlib.Algebra.BigOperators.Group.Finset.Basic

/-!
# The lthread pipeline

Every rx lthread polls its queues in turn and spreads the bursts round robin over its rings. Every
ring has a tx lthread that takes bursts off it, counts them and frees them. The lthreads run on
several schedulers, so their statements interleave: an action is one access to what they share (a
port, a ring, a condition variable, `re`, `ring_loss`, the allocator), together with the local
statements up to the next one. `ring_loss` is a plain `int` that all rx lthreads add to, so
`ring_loss += nb_rx - ret` is a read and a write.

Packets are tracked by the mbufs that carry them. What a thread has counted, lost or freed and what
a ring has accepted is remembered in ghost lists that no step reads.
-/

namespace FloWatcher
namespace Lthread

open Transition

def maxPktBurst : Nat := 256

def burstSize : Nat := maxPktBurst

/-- `init_rx_queues`, `init_tx_threads` and `init_rx_rings`, in the version with condition
variables. -/
def initThreads (rteRingCreate : String → Bool) (rteLcoreToSocketId : Nat → Nat)
    (rxThreadParams : List RxThreadParams) (txThreadParams : List TxThreadParams) :
    Option Config :=
  FloWatcher.initThreads rteRingCreate rteLcoreToSocketId true rxThreadParams txThreadParams

/-- `lthread_spawner` numbers the threads that it starts. -/
def lthreadSpawner (c : Config) : Config :=
  { c with
    rxThread := fun i =>
      if i < c.nRxThread then { c.rxThread i with threadId := i } else c.rxThread i
    txThread := fun i =>
      if i < c.nTxThread then { c.txThread i with threadId := i } else c.txThread i }

variable {M : Type}

/-! ## States -/

/-- Where an rx lthread is. `burst` is `pkts_burst[0 .. nb_rx)`. -/
inductive RxPc (M : Type) where
  | poll
  | enqueue (burst : List M)
  | signal (burst : List M) (ret : Nat)
  | readLoss (burst : List M) (ret : Nat)
  | writeLoss (burst : List M) (ret loss : Nat)
  | free (burst : List M) (k : Nat)
  | yield

structure RxThread (M : Type) where
  i : Nat
  workerId : Nat
  len : Nat → Nat
  pc : RxPc M
  /-- ghost: the mbufs added to `ring_loss` -/
  lost : List M
  /-- ghost: the mbufs freed -/
  freed : List M

/-- Where a tx lthread is. `burst` is `pkts_burst[0 .. nb_rx)`. -/
inductive TxPc (M : Type) where
  | dequeue
  | count (burst : List M)
  | packet (burst : List M) (buf : Nat)
  | wait
  | blocked

structure TxThread (M : Type) where
  pc : TxPc M
  /-- ghost: the mbufs added to `re` -/
  counted : List M
  /-- ghost: the mbufs freed -/
  freed : List M

/-- The threads and what they share. `ring_loss`, an `int`, and the counters of `re`, `uint64_t`, are
plain numbers, as they are before they wrap: with fewer than `2 ^ 31` packets lost and `2 ^ 64`
counted. -/
structure State (M : Type) where
  rx : Nat → RxThread M
  tx : Nat → TxThread M
  ring : Ring → List M
  ringLoss : Nat
  re : Nat → Nat
  /-- ghost: the mbufs received from the ports -/
  received : List M
  /-- ghost: the mbufs that a ring has accepted -/
  enqueued : Ring → List M

def State.init : State M where
  rx _ := { i := 0, workerId := 0, len := fun _ => 0, pc := .poll, lost := [], freed := [] }
  tx _ := { pc := .dequeue, counted := [], freed := [] }
  ring _ := []
  ringLoss := 0
  re _ := 0
  received := []
  enqueued _ := []

/-! ## What the threads hold -/

/-- Received, but neither in a ring nor in `ring_loss`. -/
def RxPc.held : RxPc M → List M
  | .enqueue burst => burst
  | .signal burst ret | .readLoss burst ret | .writeLoss burst ret _ => burst.drop ret
  | .poll | .free _ _ | .yield => []

/-- In `ring_loss`, but not freed. -/
def RxPc.unfreed : RxPc M → List M
  | .free burst k => burst.drop k
  | _ => []

/-- Dequeued, but not in `re`. -/
def TxPc.held : TxPc M → List M
  | .count burst => burst
  | _ => []

/-- In `re`, but not freed. -/
def TxPc.unfreed : TxPc M → List M
  | .packet burst buf => burst.drop buf
  | _ => []

def State.content (cfg : Config) (s : State M) (t : Nat) : List M :=
  match (cfg.txThread t).ring with
  | some x => s.ring x
  | none => []

/-- A sum over all rx lthreads, all tx lthreads and all rings. -/
def State.total (cfg : Config) (rx : RxThread M → Nat) (tx : TxThread M → Nat) (μ : List M → Nat)
    (s : State M) : Nat :=
  ∑ r ∈ Finset.range cfg.nRxThread, rx (s.rx r) + ∑ t ∈ Finset.range cfg.nTxThread, tx (s.tx t) +
    ∑ t ∈ Finset.range cfg.nTxThread, μ (s.content cfg t)

/-- The mbufs that are not free, weighed by `μ`. -/
def State.live (cfg : Config) (μ : List M → Nat) (s : State M) : Nat :=
  s.total cfg (fun th => μ th.pc.held + μ th.pc.unfreed)
    (fun th => μ th.pc.held + μ th.pc.unfreed) μ

/-! ## Steps -/

/-- An action of an rx lthread. `rx_burst` and `enqueue_burst` have their outcome. -/
inductive RxAction (M : Type) where
  | rxBurst (burst : List M)
  | enqueueBurst (ret : Nat)
  | signal
  | readLoss
  | writeLoss
  | free
  | yield

inductive TxAction where
  | dequeueBurst
  | addRe
  | packet
  | condWait
  | wake

inductive Action (M : Type) where
  | rx (r : Nat) (a : RxAction M)
  | tx (t : Nat) (a : TxAction)

def TxThread.awake (th : TxThread M) : TxThread M :=
  match th.pc with
  | .blocked => { th with pc := .dequeue }
  | _ => th

/-- `lthread_cond_signal` on the condition variable `ready[workerId]` of rx lthread `r`. -/
def signal (cfg : Config) (r workerId : Nat) (tx : Nat → TxThread M) : Nat → TxThread M :=
  fun t => if (cfg.txThread t).ready = some (r, workerId) then (tx t).awake else tx t

/-- The statements after the poll. Without a ring, `worker_id` is reduced modulo `0` and the
program ends: there is no ring to go on with. -/
def RxThread.polled (conf : ThreadRxConf) (th : RxThread M) : List M → RxThread M
  | [] => { th with pc := .yield }
  | m :: burst =>
      { th with workerId := (th.workerId + 1) % conf.ring.length, pc := .enqueue (m :: burst) }

def stepRx [DecidableEq M] (cfg : Config) (s : State M) (r : Nat) (a : RxAction M) :
    Option (State M) :=
  let th := s.rx r
  let conf := cfg.rxThread r
  match a, th.pc with
  | .rxBurst burst, .poll =>
      -- the port hands out mbufs that are free
      if th.i < conf.rxQueueList.length ∧ burst.length ≤ maxPktBurst ∧
          ∀ m ∈ burst, burst.count m + s.live cfg (List.count m) ≤ 1 then
        some
          { s with
            rx := Function.update s.rx r (th.polled conf burst)
            received := s.received ++ burst }
      else none
  | .enqueueBurst ret, .enqueue burst =>
      match conf.ring[th.workerId]? with
      | some x =>
          if ret ≤ burst.length then
            some
              { s with
                rx := Function.update s.rx r { th with pc := .signal burst ret }
                ring := Function.update s.ring x (s.ring x ++ burst.take ret)
                enqueued := Function.update s.enqueued x (s.enqueued x ++ burst.take ret) }
          else none
      | none => none
  | .signal, .signal burst ret =>
      let newLen := th.len th.workerId + ret
      let pc := if ret < burst.length then .readLoss burst ret else .yield
      if burstSize ≤ newLen then
        some
          { s with
            rx := Function.update s.rx r
              { th with len := Function.update th.len th.workerId 0, pc := pc }
            tx := signal cfg r th.workerId s.tx }
      else
        some
          { s with
            rx := Function.update s.rx r
              { th with len := Function.update th.len th.workerId newLen, pc := pc } }
  | .readLoss, .readLoss burst ret =>
      some { s with rx := Function.update s.rx r { th with pc := .writeLoss burst ret s.ringLoss } }
  | .writeLoss, .writeLoss burst ret loss =>
      some
        { s with
          rx := Function.update s.rx r
            { th with pc := .free burst ret, lost := th.lost ++ burst.drop ret }
          ringLoss := loss + (burst.length - ret) }
  | .free, .free burst k =>
      match burst[k]? with
      | some m =>
          some
            { s with
              rx := Function.update s.rx r
                { th with pc := .free burst (k + 1), freed := th.freed ++ [m] } }
      | none => some { s with rx := Function.update s.rx r { th with pc := .yield } }
  | .yield, .yield =>
      let next := if th.i + 1 < conf.rxQueueList.length then th.i + 1 else 0
      some { s with rx := Function.update s.rx r { th with i := next, pc := .poll } }
  | _, _ => none

def stepTx (cfg : Config) (s : State M) (t : Nat) (a : TxAction) : Option (State M) :=
  let th := s.tx t
  let conf := cfg.txThread t
  match a, th.pc with
  | .dequeueBurst, .dequeue =>
      match conf.ring with
      | some x =>
          match s.ring x with
          | [] => some { s with tx := Function.update s.tx t { th with pc := .wait } }
          | m :: ms =>
              some
                { s with
                  tx := Function.update s.tx t
                    { th with pc := .count ((m :: ms).take maxPktBurst) }
                  ring := Function.update s.ring x ((m :: ms).drop maxPktBurst) }
      | none => none
  | .addRe, .count burst =>
      some
        { s with
          tx := Function.update s.tx t
            { th with pc := .packet burst 0, counted := th.counted ++ burst }
          re := Function.update s.re conf.threadId (s.re conf.threadId + burst.length) }
  | .packet, .packet burst buf =>
      match burst[buf]? with
      | some m =>
          some
            { s with
              tx := Function.update s.tx t
                { th with pc := .packet burst (buf + 1), freed := th.freed ++ [m] } }
      | none => some { s with tx := Function.update s.tx t { th with pc := .dequeue } }
  | .condWait, .wait => some { s with tx := Function.update s.tx t { th with pc := .blocked } }
  -- the wait may also end without a signal; it does so at once when the condition variable was
  -- not initialised, which happens to the rings of an rx lthread beyond the number of its queues
  | .wake, .blocked => some { s with tx := Function.update s.tx t { th with pc := .dequeue } }
  | _, _ => none

def step [DecidableEq M] (cfg : Config) (s : State M) : Action M → Option (State M)
  | .rx r a => if r < cfg.nRxThread then stepRx cfg s r a else none
  | .tx t a => if t < cfg.nTxThread then stepTx cfg s t a else none

/-! ## What an action does -/

/-- What the actions of rx lthread `r` do, and when they are possible. -/
inductive RxStep [DecidableEq M] (cfg : Config) (s : State M) (r : Nat) :
    RxAction M → State M → Prop where
  | rxBurst {burst : List M} (hpc : (s.rx r).pc = .poll)
      (hi : (s.rx r).i < (cfg.rxThread r).rxQueueList.length) (hlen : burst.length ≤ maxPktBurst)
      (hfree : ∀ m ∈ burst, burst.count m + s.live cfg (List.count m) ≤ 1) :
      RxStep cfg s r (.rxBurst burst)
        { s with
          rx := Function.update s.rx r ((s.rx r).polled (cfg.rxThread r) burst)
          received := s.received ++ burst }
  | enqueueBurst {burst : List M} {ret : Nat} {x : Ring} (hpc : (s.rx r).pc = .enqueue burst)
      (hx : (cfg.rxThread r).ring[(s.rx r).workerId]? = some x) (hret : ret ≤ burst.length) :
      RxStep cfg s r (.enqueueBurst ret)
        { s with
          rx := Function.update s.rx r { s.rx r with pc := .signal burst ret }
          ring := Function.update s.ring x (s.ring x ++ burst.take ret)
          enqueued := Function.update s.enqueued x (s.enqueued x ++ burst.take ret) }
  | signal {burst : List M} {ret : Nat} (hpc : (s.rx r).pc = .signal burst ret)
      (hsent : burstSize ≤ (s.rx r).len (s.rx r).workerId + ret) :
      RxStep cfg s r .signal
        { s with
          rx := Function.update s.rx r
            { s.rx r with
              len := Function.update (s.rx r).len (s.rx r).workerId 0
              pc := if ret < burst.length then .readLoss burst ret else .yield }
          tx := Lthread.signal cfg r (s.rx r).workerId s.tx }
  | noSignal {burst : List M} {ret : Nat} (hpc : (s.rx r).pc = .signal burst ret)
      (hsent : (s.rx r).len (s.rx r).workerId + ret < burstSize) :
      RxStep cfg s r .signal
        { s with
          rx := Function.update s.rx r
            { s.rx r with
              len := Function.update (s.rx r).len (s.rx r).workerId
                ((s.rx r).len (s.rx r).workerId + ret)
              pc := if ret < burst.length then .readLoss burst ret else .yield } }
  | readLoss {burst : List M} {ret : Nat} (hpc : (s.rx r).pc = .readLoss burst ret) :
      RxStep cfg s r .readLoss
        { s with
          rx := Function.update s.rx r { s.rx r with pc := .writeLoss burst ret s.ringLoss } }
  | writeLoss {burst : List M} {ret loss : Nat} (hpc : (s.rx r).pc = .writeLoss burst ret loss) :
      RxStep cfg s r .writeLoss
        { s with
          rx := Function.update s.rx r
            { s.rx r with pc := .free burst ret, lost := (s.rx r).lost ++ burst.drop ret }
          ringLoss := loss + (burst.length - ret) }
  | free {burst : List M} {k : Nat} {m : M} (hpc : (s.rx r).pc = .free burst k)
      (hm : burst[k]? = some m) :
      RxStep cfg s r .free
        { s with
          rx := Function.update s.rx r
            { s.rx r with pc := .free burst (k + 1), freed := (s.rx r).freed ++ [m] } }
  | allFree {burst : List M} {k : Nat} (hpc : (s.rx r).pc = .free burst k)
      (hk : burst.length ≤ k) :
      RxStep cfg s r .free { s with rx := Function.update s.rx r { s.rx r with pc := .yield } }
  | yield (hpc : (s.rx r).pc = .yield) :
      RxStep cfg s r .yield
        { s with
          rx := Function.update s.rx r
            { s.rx r with
              i := if (s.rx r).i + 1 < (cfg.rxThread r).rxQueueList.length then (s.rx r).i + 1 else 0
              pc := .poll } }

/-- What the actions of tx lthread `t` do, and when they are possible. -/
inductive TxStep (cfg : Config) (s : State M) (t : Nat) : TxAction → State M → Prop where
  | empty {x : Ring} (hpc : (s.tx t).pc = .dequeue) (hx : (cfg.txThread t).ring = some x)
      (hring : s.ring x = []) :
      TxStep cfg s t .dequeueBurst
        { s with tx := Function.update s.tx t { s.tx t with pc := .wait } }
  | dequeueBurst {x : Ring} (hpc : (s.tx t).pc = .dequeue) (hx : (cfg.txThread t).ring = some x)
      (hring : s.ring x ≠ []) :
      TxStep cfg s t .dequeueBurst
        { s with
          tx := Function.update s.tx t { s.tx t with pc := .count ((s.ring x).take maxPktBurst) }
          ring := Function.update s.ring x ((s.ring x).drop maxPktBurst) }
  | addRe {burst : List M} (hpc : (s.tx t).pc = .count burst) :
      TxStep cfg s t .addRe
        { s with
          tx := Function.update s.tx t
            { s.tx t with pc := .packet burst 0, counted := (s.tx t).counted ++ burst }
          re := Function.update s.re (cfg.txThread t).threadId
            (s.re (cfg.txThread t).threadId + burst.length) }
  | packet {burst : List M} {buf : Nat} {m : M} (hpc : (s.tx t).pc = .packet burst buf)
      (hm : burst[buf]? = some m) :
      TxStep cfg s t .packet
        { s with
          tx := Function.update s.tx t
            { s.tx t with pc := .packet burst (buf + 1), freed := (s.tx t).freed ++ [m] } }
  | allPackets {burst : List M} {buf : Nat} (hpc : (s.tx t).pc = .packet burst buf)
      (hbuf : burst.length ≤ buf) :
      TxStep cfg s t .packet { s with tx := Function.update s.tx t { s.tx t with pc := .dequeue } }
  | condWait (hpc : (s.tx t).pc = .wait) :
      TxStep cfg s t .condWait
        { s with tx := Function.update s.tx t { s.tx t with pc := .blocked } }
  | wake (hpc : (s.tx t).pc = .blocked) :
      TxStep cfg s t .wake { s with tx := Function.update s.tx t { s.tx t with pc := .dequeue } }

section Inversion

variable {cfg : Config} {s s' : State M}

/-- **An rx lthread does nothing else.** -/
theorem rxStep_of_stepRx [DecidableEq M] {r : Nat} {a : RxAction M}
    (hs : stepRx cfg s r a = some s') : RxStep cfg s r a s' := by
  dsimp only [stepRx] at hs
  split at hs
  · next burst hpc =>
      split at hs
      · next hok =>
          cases hs
          exact .rxBurst hpc hok.1 hok.2.1 hok.2.2
      · cases hs
  · next ret burst hpc =>
      split at hs
      · next x hx =>
          split at hs
          · next hret =>
              cases hs
              exact .enqueueBurst hpc hx hret
          · cases hs
      · cases hs
  · next burst ret hpc =>
      split at hs
      · next hsent =>
          cases hs
          exact .signal hpc hsent
      · next hsent =>
          cases hs
          exact .noSignal hpc (Nat.lt_of_not_le hsent)
  · next hpc =>
      cases hs
      exact .readLoss hpc
  · next hpc =>
      cases hs
      exact .writeLoss hpc
  · next burst k hpc =>
      split at hs
      · next m hm =>
          cases hs
          exact .free hpc hm
      · next hnone =>
          cases hs
          exact .allFree hpc (List.getElem?_eq_none_iff.mp hnone)
  · next hpc =>
      cases hs
      exact .yield hpc
  · cases hs

/-- **A tx lthread does nothing else.** -/
theorem txStep_of_stepTx {t : Nat} {a : TxAction} (hs : stepTx cfg s t a = some s') :
    TxStep cfg s t a s' := by
  dsimp only [stepTx] at hs
  split at hs
  · next hpc =>
      split at hs
      · next x hx =>
          split at hs
          · next hring =>
              cases hs
              exact .empty hpc hx hring
          · next m ms hring =>
              cases hs
              rw [← hring]
              exact .dequeueBurst hpc hx (by rw [hring]; exact List.cons_ne_nil m ms)
      · cases hs
  · next burst hpc =>
      cases hs
      exact .addRe hpc
  · next burst buf hpc =>
      split at hs
      · next m hm =>
          cases hs
          exact .packet hpc hm
      · next hnone =>
          cases hs
          exact .allPackets hpc (List.getElem?_eq_none_iff.mp hnone)
  · next hpc =>
      cases hs
      exact .condWait hpc
  · next hpc =>
      cases hs
      exact .wake hpc
  · cases hs

/-- Only running lthreads act. -/
theorem step_rx [DecidableEq M] {r : Nat} {a : RxAction M} (hs : step cfg s (.rx r a) = some s') :
    r < cfg.nRxThread ∧ stepRx cfg s r a = some s' := Option.ite_none_right_eq_some.mp hs

theorem step_tx [DecidableEq M] {t : Nat} {a : TxAction} (hs : step cfg s (.tx t a) = some s') :
    t < cfg.nTxThread ∧ stepTx cfg s t a = some s' := Option.ite_none_right_eq_some.mp hs

end Inversion

end Lthread
end FloWatcher
