import FloWatcher.Lthread.Accounting

/-!
# `ring_loss`

The number of packets received is the number of packets that the threads hold, that are in the
rings, in `re` and in `ring_loss`, as long as `ring_loss` is the number of packets lost. All rx
lthreads add to it, on any scheduler and without a lock: when one of them writes it between the read
and the write of another, an update is lost. `always_accounted_iff` says that nothing else spoils
the totals.
-/

namespace FloWatcher
namespace Lthread

open Transition

variable {M : Type} {cfg : Config}

/-! ## The totals -/

section Totals

variable [DecidableEq M] {s : State M}

/-- What the threads hold, what is in the rings, `re` and `ring_loss`. -/
def State.books (cfg : Config) (s : State M) : Nat :=
  s.total cfg (fun th => th.pc.held.length) (fun th => th.pc.held.length) List.length +
    ∑ t ∈ Finset.range cfg.nTxThread, s.re t + s.ringLoss

/-- **The books balance.** What was received is what the threads hold, what is in the rings, `re`
and `ring_loss`; every mbuf is in one of these places, is freed once, by the thread that rejected
or dequeued it, and rings are first in, first out. -/
structure Accounted (cfg : Config) (s : State M) : Prop where
  total : s.received.length = s.books cfg
  place : ∀ m, s.received.count m =
    s.total cfg (fun th => th.pc.held.count m + th.lost.count m)
      (fun th => th.pc.held.count m + th.counted.count m) (List.count m)
  live : ∀ m, s.live cfg (List.count m) ≤ 1
  rejected : ∀ r < cfg.nRxThread, (s.rx r).lost = (s.rx r).freed ++ (s.rx r).pc.unfreed
  dequeued : ∀ t < cfg.nTxThread, (s.tx t).counted = (s.tx t).freed ++ (s.tx t).pc.unfreed
  re : ∀ t < cfg.nTxThread, s.re t = (s.tx t).counted.length
  fifo : ∀ t < cfg.nTxThread, ∀ x, (cfg.txThread t).ring = some x →
    s.enqueued x = (s.tx t).counted ++ (s.tx t).pc.held ++ s.ring x

def State.losses (cfg : Config) (s : State M) : Nat :=
  ∑ r ∈ Finset.range cfg.nRxThread, (s.rx r).lost.length

/-- All that can be wrong about a state is `ring_loss`. -/
theorem Conserved.accounted_iff (h : Conserved cfg s) :
    Accounted cfg s ↔ s.ringLoss = s.losses cfg := by
  have hre : ∑ t ∈ Finset.range cfg.nTxThread, s.re t =
      ∑ t ∈ Finset.range cfg.nTxThread, (s.tx t).counted.length := by
    apply Finset.sum_congr rfl
    intro t ht
    exact h.re t (Finset.mem_range.mp ht)
  have hplace := h.place List.length isWeight_length
  unfold State.total RxThread.accounted TxThread.accounted at hplace
  rw [Finset.sum_add_distrib, Finset.sum_add_distrib] at hplace
  constructor
  · intro hacc
    have htotal := hacc.total
    dsimp only [State.books, State.total] at htotal
    unfold State.losses
    omega
  · intro hloss
    refine ⟨?_, fun m => h.place _ (isWeight_count m), h.live, h.rejected, h.dequeued, h.re, h.fifo⟩
    unfold State.losses at hloss
    dsimp only [State.books, State.total]
    omega

/-- A write of `ring_loss` writes over the value that was read. -/
def WritesOverRead (s : State M) : Action M → Prop
  | .rx r .writeLoss =>
      match (s.rx r).pc with
      | .writeLoss _ _ loss => loss = s.ringLoss
      | _ => True
  | _ => True

instance (s : State M) : (a : Action M) → Decidable (WritesOverRead s a)
  | .rx r .writeLoss => by
      dsimp only [WritesOverRead]
      split <;> infer_instance
  | .rx _ (.rxBurst _) | .rx _ (.enqueueBurst _) | .rx _ .signal | .rx _ .readLoss
  | .rx _ .free | .rx _ .yield | .tx _ _ => isTrue trivial

omit [DecidableEq M] in
theorem stepTx_frame {t : Nat} {a : TxAction} {s' : State M} (hs : stepTx cfg s t a = some s') :
    s'.rx = s.rx ∧ s'.ringLoss = s.ringLoss := by
  cases txStep_of_stepTx hs with
  | empty hpc hx hring => exact ⟨rfl, rfl⟩
  | dequeueBurst hpc hx hring => exact ⟨rfl, rfl⟩
  | addRe hpc => exact ⟨rfl, rfl⟩
  | packet hpc hm => exact ⟨rfl, rfl⟩
  | allPackets hpc hbuf => exact ⟨rfl, rfl⟩
  | condWait hpc => exact ⟨rfl, rfl⟩
  | wake hpc => exact ⟨rfl, rfl⟩

/-- Only the write changes `ring_loss` and what is lost. -/
theorem stepRx_frame {r : Nat} {a : RxAction M} (ha : a ≠ .writeLoss) {s' : State M}
    (hs : stepRx cfg s r a = some s') :
    s'.ringLoss = s.ringLoss ∧
      ∃ th, s'.rx = Function.update s.rx r th ∧ th.lost = (s.rx r).lost := by
  cases rxStep_of_stepRx hs with
  | @rxBurst burst hpc hi hlen hfree =>
      exact ⟨rfl, _, rfl, (polled_spec (cfg.rxThread r) (s.rx r) burst).2.2.1⟩
  | writeLoss hpc => exact absurd rfl ha
  | enqueueBurst hpc hx hret => exact ⟨rfl, _, rfl, rfl⟩
  | signal hpc hsent => exact ⟨rfl, _, rfl, rfl⟩
  | noSignal hpc hsent => exact ⟨rfl, _, rfl, rfl⟩
  | readLoss hpc => exact ⟨rfl, _, rfl, rfl⟩
  | free hpc hm => exact ⟨rfl, _, rfl, rfl⟩
  | allFree hpc hk => exact ⟨rfl, _, rfl, rfl⟩
  | yield hpc => exact ⟨rfl, _, rfl, rfl⟩

theorem stepRx_writeLoss {r : Nat} {s' : State M} (hs : stepRx cfg s r .writeLoss = some s') :
    ∃ burst ret loss, (s.rx r).pc = .writeLoss burst ret loss ∧
      s'.ringLoss = loss + (burst.drop ret).length ∧
      ∃ th, s'.rx = Function.update s.rx r th ∧ th.lost = (s.rx r).lost ++ burst.drop ret := by
  cases rxStep_of_stepRx hs with
  | @writeLoss burst ret loss hpc =>
      refine ⟨burst, ret, loss, hpc, ?_, _, rfl, rfl⟩
      rw [List.length_drop]

omit [DecidableEq M] in
theorem losses_update {s' : State M} {r : Nat} (hr : r < cfg.nRxThread) {th : RxThread M}
    (hs : s'.rx = Function.update s.rx r th) :
    s'.losses cfg + (s.rx r).lost.length = s.losses cfg + th.lost.length := by
  unfold State.losses
  rw [hs]
  exact sum_update _ (fun th : RxThread M => th.lost.length) s.rx (Finset.mem_range.mpr hr) th

/-- An action keeps `ring_loss` right exactly when it does not write over somebody else's update. -/
theorem ringLoss_step {a : Action M} {s' : State M} (hs : step cfg s a = some s')
    (hloss : s.ringLoss = s.losses cfg) :
    s'.ringLoss = s'.losses cfg ↔ WritesOverRead s a := by
  cases a with
  | rx r a =>
      obtain ⟨hr, hs⟩ := step_rx hs
      rcases em (a = .writeLoss) with rfl | ha
      · obtain ⟨burst, ret, loss, hpc, hnew, th, hrx, hlost⟩ := stepRx_writeLoss hs
        have hlosses := losses_update hr hrx
        rw [hlost, List.length_append] at hlosses
        dsimp only [WritesOverRead]
        rw [hpc, hnew]
        dsimp only
        omega
      · obtain ⟨hnew, th, hrx, hlost⟩ := stepRx_frame ha hs
        have hlosses := losses_update hr hrx
        rw [hlost] at hlosses
        have hwrites : WritesOverRead s (.rx r a) := by
          cases a <;> first | exact trivial | exact absurd rfl ha
        refine iff_of_true ?_ hwrites
        omega
  | tx t a =>
      obtain ⟨-, hs⟩ := step_tx hs
      obtain ⟨hrx, hnew⟩ := stepTx_frame hs
      refine iff_of_true ?_ trivial
      unfold State.losses
      rw [hnew, hrx]
      exact hloss

/-- The books balance all the way exactly when every write of `ring_loss` writes over the value
that was read. -/
theorem always_accounted_iff (hcfg : Spawned cfg) (as : List (Action M)) :
    Always (step cfg) (Accounted cfg) State.init as ↔
      Each (step cfg) WritesOverRead State.init as := by
  apply always_iff_each (isInvariant_conserved hcfg)
  · rw [conserved_init.accounted_iff]
    simp [State.losses, State.init]
  · intro s a s' h hs hacc
    have h' := (isInvariant_conserved hcfg).step s a s' h hs
    rw [h.accounted_iff] at hacc
    rw [h'.accounted_iff]
    exact ringLoss_step hs hacc

/-- An rx lthread is about to write only after it has read. -/
theorem stepRx_reads {r : Nat} {a : RxAction M} {s' : State M} (hs : stepRx cfg s r a = some s')
    {burst : List M} {ret loss : Nat} (hpc : (s'.rx r).pc = .writeLoss burst ret loss) :
    loss = s'.ringLoss := by
  cases rxStep_of_stepRx hs with
  | @rxBurst burst' hpoll hi hlen hfree =>
      simp only [Function.update_self] at hpc
      cases burst' <;> cases hpc
  | signal hsignal hsent =>
      simp only [Function.update_self] at hpc
      split at hpc <;> cases hpc
  | noSignal hsignal hsent =>
      simp only [Function.update_self] at hpc
      split at hpc <;> cases hpc
  | readLoss hread =>
      simp only [Function.update_self] at hpc
      cases hpc
      rfl
  | enqueueBurst hqueue hx hret =>
      simp only [Function.update_self] at hpc
      cases hpc
  | writeLoss hwrite =>
      simp only [Function.update_self] at hpc
      cases hpc
  | free hfree hm =>
      simp only [Function.update_self] at hpc
      cases hpc
  | allFree hfree hk =>
      simp only [Function.update_self] at hpc
      cases hpc
  | yield hyield =>
      simp only [Function.update_self] at hpc
      cases hpc

/-- **With one rx lthread the books always balance.** -/
theorem always_accounted_of_one_rx (hcfg : Spawned cfg) (hone : cfg.nRxThread ≤ 1)
    (as : List (Action M)) : Always (step cfg) (Accounted cfg) State.init as := by
  rw [always_accounted_iff hcfg]
  have hcurrent : IsInvariant (step cfg) (State.init : State M) fun s =>
      ∀ r < cfg.nRxThread, ∀ burst ret loss,
        (s.rx r).pc = .writeLoss burst ret loss → loss = s.ringLoss := by
    refine ⟨fun r _ burst ret loss hpc => (nomatch hpc), ?_⟩
    intro s a s' h hs r hr burst ret loss hpc
    cases a with
    | rx r' a =>
        obtain ⟨hr', hs⟩ := step_rx hs
        obtain rfl : r = r' := by omega
        exact stepRx_reads hs hpc
    | tx t a =>
        obtain ⟨-, hs⟩ := step_tx hs
        obtain ⟨hrx, hnew⟩ := stepTx_frame hs
        rw [hrx] at hpc
        rw [hnew]
        exact h r hr burst ret loss hpc
  apply hcurrent.each
  intro s a s' h hs
  cases a with
  | rx r a =>
      obtain ⟨hr, hs⟩ := step_rx hs
      cases a with
      | writeLoss =>
          dsimp only [WritesOverRead]
          split
          · next hpc => exact h r hr _ _ _ hpc
          · trivial
      | _ => trivial
  | tx t a => trivial

end Totals

/-! ## The program -/

/-- **When the packets of the lthread pipeline are accounted for**, in every state of a run: when
no rx lthread writes `ring_loss` between the read and the write of another. -/
theorem accounted_iff_writesOverRead [DecidableEq M] (rteRingCreate : String → Bool)
    (rteLcoreToSocketId : Nat → Nat) (rx : List RxThreadParams) (tx : List TxThreadParams)
    (cfg : Config) (hcfg : initThreads rteRingCreate rteLcoreToSocketId rx tx = some cfg)
    (as : List (Action M)) :
    Always (step (lthreadSpawner cfg)) (Accounted (lthreadSpawner cfg)) State.init as ↔
      Each (step (lthreadSpawner cfg)) WritesOverRead State.init as :=
  always_accounted_iff (spawned_lthreadSpawner (wired_initThreads hcfg)) as

def twoRxThreads : List RxThreadParams := [⟨0, 0, 2, 0⟩, ⟨1, 0, 3, 1⟩]

def twoTxThreads : List TxThreadParams := [⟨4, 0⟩, ⟨5, 1⟩]

def twoRings : Config :=
  (initThreads (fun _ => true) (fun _ => 0) twoRxThreads twoTxThreads).getD Config.zero

/-- Both rings reject a packet, and both rx lthreads read `ring_loss` before one of them writes
it. -/
def lostUpdate : List (Action Nat) :=
  [.rx 0 (.rxBurst [10]), .rx 1 (.rxBurst [11]), .rx 0 (.enqueueBurst 0), .rx 1 (.enqueueBurst 0),
    .rx 0 .signal, .rx 1 .signal, .rx 0 .readLoss, .rx 1 .readLoss, .rx 0 .writeLoss,
    .rx 1 .writeLoss]

theorem accounted_iff_writesOverRead_two_rings :
    initThreads (fun _ => true) (fun _ => 0) twoRxThreads twoTxThreads = some twoRings ∧
      (Always (step (lthreadSpawner twoRings)) (Accounted (lthreadSpawner twoRings)) State.init
          lostUpdate ↔
        Each (step (lthreadSpawner twoRings)) WritesOverRead State.init lostUpdate) :=
  ⟨rfl, accounted_iff_writesOverRead (fun _ => true) (fun _ => 0) twoRxThreads twoTxThreads
    twoRings rfl lostUpdate⟩

/-- Two packets are received and rejected, but `ring_loss` is `1`. -/
theorem not_accounted_lost_update :
    ¬ Always (step (lthreadSpawner twoRings)) (Accounted (lthreadSpawner twoRings)) State.init
      lostUpdate := by
  intro h
  have hend : (run (step (lthreadSpawner twoRings)) State.init lostUpdate).map
      (fun s => (s.received.length, s.books (lthreadSpawner twoRings))) = some (2, 1) := by
    decide +kernel
  obtain ⟨s, hs, hpair⟩ := Option.map_eq_some_iff.mp hend
  obtain ⟨hreceived, hbooks⟩ := Prod.mk.inj hpair
  have htotal := (always_iff_forall_run.mp h lostUpdate List.prefix_rfl s hs).total
  omega

end Lthread
end FloWatcher
