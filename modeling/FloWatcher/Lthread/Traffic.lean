import FloWatcher.Lthread.Wakeup
import FloWatcher.Transition.Reaches
import Mathlib.Algebra.Order.BigOperators.Group.Finset

/-!
# Packets get everywhere

Any of the queues of an rx lthread may be the one that packets come in on, and a burst goes into any
of its rings when its turn comes. So every tx lthread behind an rx lthread with a queue may have to
count packets. Mbufs are numbers here: burst number `j` is mbuf `j`.
-/

namespace FloWatcher
namespace Lthread

open Transition

variable {cfg : Config} {r : Nat}

/-! ## Fresh mbufs -/

/-- An mbuf that is in use has been received. -/
theorem Conserved.live_le_received {M : Type} [DecidableEq M] {s : State M} (h : Conserved cfg s)
    (m : M) : s.live cfg (List.count m) ≤ s.received.count m := by
  rw [h.place (List.count m) (isWeight_count m)]
  unfold State.live State.total
  refine Nat.add_le_add (Nat.add_le_add (Finset.sum_le_sum fun r hr => ?_)
    (Finset.sum_le_sum fun t ht => ?_)) le_rfl
  · have hfrees := h.rejected r (Finset.mem_range.mp hr)
    unfold RxThread.Frees at hfrees
    unfold RxThread.accounted
    rw [hfrees, List.count_append]
    change (s.rx r).pc.held.count m + (s.rx r).pc.unfreed.count m ≤ _
    omega
  · have hfrees := h.dequeued t (Finset.mem_range.mp ht)
    unfold TxThread.Frees at hfrees
    unfold TxThread.accounted
    rw [hfrees, List.count_append]
    change (s.tx t).pc.held.count m + (s.tx t).pc.unfreed.count m ≤ _
    omega

/-- A port can hand out a fresh mbuf. -/
theorem stepRx_fresh {s : State Nat} (h : Conserved cfg s) {m : Nat} (hfresh : m ∉ s.received)
    (hpc : (s.rx r).pc = .poll) (hi : (s.rx r).i < (cfg.rxThread r).rxQueueList.length) :
    stepRx cfg s r (.rxBurst [m]) =
      some
        { s with
          rx := Function.update s.rx r ((s.rx r).polled (cfg.rxThread r) [m])
          received := s.received ++ [m] } := by
  have hlength : [m].length ≤ maxPktBurst := by
    rw [List.length_singleton]
    decide
  apply stepRx_rxBurst hpc hi hlength (List.nodup_singleton m)
  intro m' hm'
  obtain rfl := List.mem_singleton.mp hm'
  have hle := h.live_le_received m'
  rw [List.count_eq_zero_of_not_mem hfresh] at hle
  exact Nat.le_zero.mp hle

/-! ## Every queue is polled -/

theorem stepRx_yield {s : State Nat} (hpc : (s.rx r).pc = .yield) :
    stepRx cfg s r .yield =
      some
        { s with
          rx := Function.update s.rx r
            { s.rx r with
              i := if (s.rx r).i + 1 < (cfg.rxThread r).rxQueueList.length then (s.rx r).i + 1 else 0
              pc := .poll } } := by
  simp only [stepRx, hpc]

/-- By polls that return nothing, an rx lthread gets to any of its queues. -/
theorem reaches_queue (hr : r < cfg.nRxThread) {q : Nat}
    (hq : q < (cfg.rxThread r).rxQueueList.length) :
    ∃ s : State Nat, Reaches (step cfg) State.init s ∧ (s.rx r).pc = .poll ∧ (s.rx r).i = q ∧
      s.received = [] := by
  induction q with
  | zero => exact ⟨State.init, .refl _, rfl, rfl, rfl⟩
  | succ q ih =>
      obtain ⟨s, hs, hpc, hi, hreceived⟩ := ih (Nat.lt_of_succ_lt hq)
      have hpoll : step cfg s (.rx r (.rxBurst [])) = some
          { s with
            rx := Function.update s.rx r { s.rx r with pc := .yield }
            received := s.received ++ [] } := by
        rw [step, if_pos hr]
        apply stepRx_rxBurst hpc (by omega) (by decide) List.nodup_nil
        intro m hm
        cases hm
      have hyield : ∀ t : State Nat, (t.rx r).pc = .yield → step cfg t (.rx r .yield) = _ :=
        fun t ht => (if_pos hr).trans (stepRx_yield ht)
      refine ⟨_, (hs.tail hpoll).tail (hyield _ (by simp only [Function.update_self])), ?_, ?_, ?_⟩
      · simp only [Function.update_self]
      · simp only [Function.update_self, hi, if_pos hq]
      · rw [hreceived]
        rfl

/-! ## Every ring gets its turn -/

/-- An rx lthread has filled its rings in turn with `j` packets, and nobody has taken them off. -/
structure Turn (cfg : Config) (r j : Nat) (s : State Nat) : Prop where
  reached : Reaches (step cfg) State.init s
  pc : (s.rx r).pc = .poll
  workerId : (s.rx r).workerId = j % (cfg.rxThread r).ring.length
  queue : (s.rx r).i < (cfg.rxThread r).rxQueueList.length
  tx : ∀ t, (s.tx t).pc = .dequeue
  fresh : ∀ m ∈ s.received, m < j

/-- Packet `j` is in its ring, and the lthread is about to count it in `len`. -/
structure Filled (cfg : Config) (r j : Nat) (x : Ring) (s : State Nat) : Prop where
  reached : Reaches (step cfg) State.init s
  pc : (s.rx r).pc = .signal [j] 1
  workerId : (s.rx r).workerId = (j + 1) % (cfg.rxThread r).ring.length
  queue : (s.rx r).i < (cfg.rxThread r).rxQueueList.length
  tx : ∀ t, (s.tx t).pc = .dequeue
  fresh : ∀ m ∈ s.received, m < j + 1
  ring : s.ring x ≠ []

theorem Turn.fill (hcfg : Spawned cfg) (hr : r < cfg.nRxThread) {j : Nat} {s : State Nat}
    (h : Turn cfg r j s) {x : Ring}
    (hx : (cfg.rxThread r).ring[(j + 1) % (cfg.rxThread r).ring.length]? = some x) :
    ∃ s', Filled cfg r j x s' := by
  -- the ring that takes the burst is the one after `worker_id`
  have hworker : ((s.rx r).workerId + 1) % (cfg.rxThread r).ring.length =
      (j + 1) % (cfg.rxThread r).ring.length := by
    rw [h.workerId, Nat.mod_add_mod]
  have hpoll : step cfg s (.rx r (.rxBurst [j])) = some
      { s with
        rx := Function.update s.rx r ((s.rx r).polled (cfg.rxThread r) [j])
        received := s.received ++ [j] } := by
    rw [step, if_pos hr]
    exact stepRx_fresh ((isInvariant_conserved hcfg).reaches h.reached)
      (fun hmem => lt_irrefl _ (h.fresh j hmem)) h.pc h.queue
  -- a ring may accept a burst of one packet whole, whatever else the state holds
  have henqueue : ∀ t : State Nat, (t.rx r).pc = .enqueue [j] →
      (t.rx r).workerId = (j + 1) % (cfg.rxThread r).ring.length →
      step cfg t (.rx r (.enqueueBurst 1)) = some
        { t with
          rx := Function.update t.rx r { t.rx r with pc := .signal [j] 1 }
          ring := Function.update t.ring x (t.ring x ++ [j])
          enqueued := Function.update t.enqueued x (t.enqueued x ++ [j]) } := by
    intro t hpc hw
    rw [step, if_pos hr]
    simp only [stepRx, hpc, hw, hx]
    rfl
  have hpolled := henqueue
    { s with
      rx := Function.update s.rx r ((s.rx r).polled (cfg.rxThread r) [j])
      received := s.received ++ [j] }
    (by simp only [Function.update_self]; rfl)
    (by simp only [Function.update_self]; exact hworker)
  refine ⟨_, (h.reached.tail hpoll).tail hpolled, ?_, ?_, ?_, h.tx, fun m hm => ?_, ?_⟩
  · simp only [Function.update_self]
  · simp only [Function.update_self]
    exact hworker
  · simp only [Function.update_self]
    exact h.queue
  · rcases List.mem_append.mp hm with hm | hm
    · exact (h.fresh m hm).trans (Nat.lt_succ_self j)
    · rw [List.mem_singleton.mp hm]
      exact Nat.lt_succ_self j
  · simp only [Function.update_self]
    exact List.append_ne_nil_of_right_ne_nil _ (List.cons_ne_nil j [])

/-- A signal to lthreads that do not wait. -/
theorem signal_dequeue {r w : Nat} {tx : Nat → TxThread Nat} (h : ∀ t, (tx t).pc = .dequeue) :
    ∀ t, (signal cfg r w tx t).pc = .dequeue := by
  intro t
  unfold signal TxThread.awake
  split
  · rw [h t]
    exact h t
  · exact h t

theorem Filled.next (hr : r < cfg.nRxThread) {j : Nat} {s : State Nat} {x : Ring}
    (h : Filled cfg r j x s) : ∃ s', Turn cfg r (j + 1) s' := by
  have hsignal : ∃ len tx, step cfg s (.rx r .signal) = some
      { s with rx := Function.update s.rx r { s.rx r with len := len, pc := .yield }, tx := tx } ∧
      ∀ t, (tx t).pc = .dequeue := by
    rw [step, if_pos hr]
    simp only [stepRx, h.pc]
    split
    · exact ⟨_, _, rfl, signal_dequeue h.tx⟩
    · exact ⟨_, _, rfl, h.tx⟩
  obtain ⟨len, tx, hsignal, htx⟩ := hsignal
  have hyield : ∀ t : State Nat, (t.rx r).pc = .yield → step cfg t (.rx r .yield) = _ :=
    fun t ht => (if_pos hr).trans (stepRx_yield ht)
  refine ⟨_, (h.reached.tail hsignal).tail (hyield _ (by simp only [Function.update_self])), ?_, ?_,
    ?_, htx, h.fresh⟩
  · simp only [Function.update_self]
  · simp only [Function.update_self]
    exact h.workerId
  · simp only [Function.update_self]
    have hqueue := h.queue
    split <;> omega

/-- Every turn comes. -/
theorem exists_turn (hcfg : Spawned cfg) (hr : r < cfg.nRxThread)
    (hqueue : 0 < (cfg.rxThread r).rxQueueList.length) (hring : 0 < (cfg.rxThread r).ring.length)
    (j : Nat) : ∃ s, Turn cfg r j s := by
  induction j with
  | zero =>
      exact ⟨State.init, .refl _, rfl, (Nat.zero_mod _).symm, hqueue, fun _ => rfl,
        fun m hm => absurd hm List.not_mem_nil⟩
  | succ j ih =>
      obtain ⟨s, hs⟩ := ih
      have hlt := Nat.mod_lt (j + 1) hring
      obtain ⟨s', hs'⟩ := hs.fill hcfg hr (List.getElem?_eq_getElem hlt)
      exact hs'.next hr

/-- **Every tx lthread behind an rx lthread with a queue may have a burst to count.** -/
theorem reaches_count (hcfg : Spawned cfg) (hr : r < cfg.nRxThread)
    (hqueue : 0 < (cfg.rxThread r).rxQueueList.length) {t w : Nat} {x : Ring}
    (ht : t < cfg.nTxThread) (htx : (cfg.txThread t).ring = some x)
    (hx : (cfg.rxThread r).ring[w]? = some x) :
    ∃ (s : State Nat) (m : Nat) (ms : List Nat), Reaches (step cfg) State.init s ∧
      (s.tx t).pc = .count (m :: ms) := by
  have hw : w < (cfg.rxThread r).ring.length := (List.getElem?_eq_some_iff.mp hx).1
  have hturn : (w + (cfg.rxThread r).ring.length - 1 + 1) % (cfg.rxThread r).ring.length = w := by
    rw [Nat.sub_add_cancel (by omega), Nat.add_mod_right, Nat.mod_eq_of_lt hw]
  obtain ⟨s, hs⟩ := exists_turn hcfg hr hqueue (Nat.zero_lt_of_lt hw)
    (w + (cfg.rxThread r).ring.length - 1)
  obtain ⟨s', hs'⟩ := hs.fill hcfg hr (by rw [hturn]; exact hx)
  obtain ⟨m, ms, hms⟩ := List.exists_cons_of_ne_nil hs'.ring
  have hdequeue : ∃ u, step cfg s' (.tx t .dequeueBurst) = some u ∧
      (u.tx t).pc = .count ((m :: ms).take maxPktBurst) := by
    rw [step, if_pos ht]
    simp only [stepTx, hs'.tx t, htx, hms]
    exact ⟨_, rfl, by simp only [Function.update_self]⟩
  obtain ⟨u, hu, hpc⟩ := hdequeue
  exact ⟨u, m, ms.take (maxPktBurst - 1), hs'.reached.tail hu, hpc⟩

end Lthread
end FloWatcher
