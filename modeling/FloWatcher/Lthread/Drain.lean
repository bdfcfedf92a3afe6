import FloWatcher.Lthread.RingLoss
import FloWatcher.Lthread.Wakeup

/-!
# What is left in the rings

A tx lthread is only woken for a full burst: `lthread_rx` gates its signal by
`new_len >= BURST_SIZE`. When the traffic stops, what has gone into a ring since the last signal
stays there, and the totals that `handler` prints miss it. `quiescent_rings` says that it is less
than a burst in each ring, and all that the totals miss.
-/

namespace FloWatcher
namespace Lthread

open Transition

variable {M : Type} {cfg : Config}

/-- All rx lthreads are between two bursts and all tx lthreads are blocked. -/
structure Quiescent (cfg : Config) (s : State M) : Prop where
  rx : ∀ r < cfg.nRxThread, (s.rx r).pc.Between
  tx : ∀ t < cfg.nTxThread, (s.tx t).pc = .blocked

/-- The packets in the rings. -/
def State.left (cfg : Config) (s : State M) : Nat :=
  ∑ t ∈ Finset.range cfg.nTxThread, (s.content cfg t).length

theorem RxPc.Between.held {pc : RxPc M} (h : pc.Between) : pc.held = [] := by
  cases pc with
  | poll => rfl
  | yield => rfl
  | _ => exact h.elim

/-- Without a packet in the hands of a lthread, the books are the totals and the rings. -/
theorem Quiescent.books {s : State M} (h : Quiescent cfg s) :
    s.books cfg = ∑ t ∈ Finset.range cfg.nTxThread, s.re t + s.ringLoss + s.left cfg := by
  have hrx : ∑ r ∈ Finset.range cfg.nRxThread, (s.rx r).pc.held.length = 0 := by
    apply Finset.sum_eq_zero
    intro r hr
    rw [(h.rx r (Finset.mem_range.mp hr)).held]
    rfl
  have htx : ∑ t ∈ Finset.range cfg.nTxThread, (s.tx t).pc.held.length = 0 := by
    apply Finset.sum_eq_zero
    intro t ht
    rw [h.tx t (Finset.mem_range.mp ht)]
    rfl
  unfold State.books State.total State.left
  dsimp only
  omega

/-- An rx lthread that was not started never acts. -/
theorem isInvariant_notStarted [DecidableEq M] :
    IsInvariant (step cfg) (State.init : State M)
      fun s => ∀ r, cfg.nRxThread ≤ r → (s.rx r).pc.Between where
  init _ _ := trivial
  step s a s' h hs := by
    intro r hr
    cases a with
    | rx r' a =>
        obtain ⟨hlt, hs⟩ := step_rx hs
        have hrx : ∃ th, s'.rx = Function.update s.rx r' th := by
          rcases em (a = .writeLoss) with rfl | ha
          · obtain ⟨_, _, _, _, _, th, hth, _⟩ := stepRx_writeLoss hs
            exact ⟨th, hth⟩
          · obtain ⟨_, th, hth, _⟩ := stepRx_frame ha hs
            exact ⟨th, hth⟩
        obtain ⟨th, hth⟩ := hrx
        rw [hth, Function.update_of_ne (by omega)]
        exact h r hr
    | tx t a =>
        obtain ⟨-, hs⟩ := step_tx hs
        rw [(stepTx_frame hs).1]
        exact h r hr

/-- **What the totals miss when the traffic stops**: less than a burst in each ring. No signal may
have been lost, and no update of `ring_loss`. -/
theorem quiescent_rings [DecidableEq M] (rteRingCreate : String → Bool)
    (rteLcoreToSocketId : Nat → Nat) (rx : List RxThreadParams) (tx : List TxThreadParams)
    (cfg : Config)
    (hcfg : initThreads rteRingCreate rteLcoreToSocketId rx tx = some cfg) (as : List (Action M))
    (hheard : Each (step (lthreadSpawner cfg)) (Heard (lthreadSpawner cfg)) State.init as)
    (hwrites : Each (step (lthreadSpawner cfg)) WritesOverRead State.init as) (s : State M)
    (hs : run (step (lthreadSpawner cfg)) State.init as = some s)
    (hquiet : Quiescent (lthreadSpawner cfg) s) :
    (∀ t < (lthreadSpawner cfg).nTxThread,
      (s.content (lthreadSpawner cfg) t).length < burstSize) ∧
    s.received.length =
      ∑ t ∈ Finset.range (lthreadSpawner cfg).nTxThread, s.re t + s.ringLoss +
        s.left (lthreadSpawner cfg) := by
  have hsignalled := signalled_lthreadSpawner (signalled_initThreads hcfg)
  have hkept : WakeupsKept (lthreadSpawner cfg) s :=
    (always_iff_forall_run.mp (always_metered hsignalled hheard) as List.prefix_rfl s hs).wakeupsKept
  have hacc : Accounted (lthreadSpawner cfg) s :=
    always_iff_forall_run.mp
      ((accounted_iff_writesOverRead rteRingCreate rteLcoreToSocketId rx tx cfg hcfg as).mpr hwrites)
      as List.prefix_rfl s hs
  refine ⟨fun t ht => ?_, hacc.total.trans hquiet.books⟩
  obtain ⟨x, hx, -⟩ := hsignalled.wired.tx t ht
  obtain ⟨w, hready, -⟩ := hsignalled.ready t ht x hx
  have hbetween : (s.rx x.rxThreadId).pc.Between := by
    rcases Nat.lt_or_ge x.rxThreadId (lthreadSpawner cfg).nRxThread with hlt | hge
    · exact hquiet.rx _ hlt
    · exact isInvariant_notStarted.run hs _ hge
  unfold State.content
  rw [hx]
  exact hkept t ht x x.rxThreadId w hx hready (hquiet.tx t ht) hbetween

/-- The end of the run `onePacket`. -/
theorem run_onePacket : ∃ s, run (step (lthreadSpawner oneRing)) State.init onePacket = some s ∧
    Quiescent (lthreadSpawner oneRing) s ∧ s.content (lthreadSpawner oneRing) 0 = [10] ∧
      s.received.length = 1 ∧ s.re 0 = 0 ∧ s.ringLoss = 0 := by
  have hend : (run (step (lthreadSpawner oneRing)) State.init onePacket).map
      (fun s => ((s.rx 0).pc, (s.tx 0).pc, s.content (lthreadSpawner oneRing) 0,
        s.received.length, s.re 0, s.ringLoss)) = some (.poll, .blocked, [10], 1, 0, 0) := by
    decide +kernel
  obtain ⟨s, hs, hstate⟩ := Option.map_eq_some_iff.mp hend
  simp only [Prod.mk.injEq] at hstate
  obtain ⟨hrx, htx, hcontent, hreceived, hre, hloss⟩ := hstate
  refine ⟨s, hs, ⟨fun r hr => ?_, fun t ht => ?_⟩, hcontent, hreceived, hre, hloss⟩
  · obtain rfl : r = 0 := Nat.lt_one_iff.mp hr
    rw [hrx]
    trivial
  · obtain rfl : t = 0 := Nat.lt_one_iff.mp ht
    exact htx

theorem quiescent_rings_one_packet :
    ∃ s, run (step (lthreadSpawner oneRing)) State.init onePacket = some s ∧
      (∀ t < (lthreadSpawner oneRing).nTxThread,
        (s.content (lthreadSpawner oneRing) t).length < burstSize) ∧
      s.received.length =
        ∑ t ∈ Finset.range (lthreadSpawner oneRing).nTxThread, s.re t + s.ringLoss +
          s.left (lthreadSpawner oneRing) := by
  obtain ⟨s, hs, hquiet, -⟩ := run_onePacket
  exact ⟨s, hs, quiescent_rings (fun _ => true) (fun _ => 0) [⟨0, 0, 2, 0⟩] [⟨4, 0⟩] oneRing rfl
    onePacket (by decide +kernel) (by decide +kernel) s hs hquiet⟩

/-- One packet is received, and stays in the ring. -/
theorem not_drained_one_packet :
    ∃ s, run (step (lthreadSpawner oneRing)) State.init onePacket = some s ∧
      Quiescent (lthreadSpawner oneRing) s ∧ s.content (lthreadSpawner oneRing) 0 ≠ [] ∧
      s.received.length ≠
        ∑ t ∈ Finset.range (lthreadSpawner oneRing).nTxThread, s.re t + s.ringLoss := by
  obtain ⟨s, hs, hquiet, hcontent, hreceived, hre, hloss⟩ := run_onePacket
  refine ⟨s, hs, hquiet, by rw [hcontent]; exact List.cons_ne_nil 10 [], ?_⟩
  have hone : (lthreadSpawner oneRing).nTxThread = 1 := rfl
  rw [hone, Finset.sum_range_one, hre, hloss, hreceived]
  decide

end Lthread
end FloWatcher
