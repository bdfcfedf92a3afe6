import FloWatcher.Lthread.Reports
import FloWatcher.TimerCb

/-!
# The reports of the lthread program

The main lcore runs `timer_cb` while the lthreads of the others count. For the parameters for which
its report is complete (`reported_iff`), what it prints counts every packet that was dequeued before
it began, but for those about to be counted, and no packet that has not been counted when it ends
(`reports_dequeued`).
-/

namespace FloWatcher
namespace Lthread

open Transition

variable {M : Type} [DecidableEq M] {cfg : Config}

def State.readCounter (s : State M) (i : Nat) : Option (BitVec 64) :=
  (s.readRe i).map (BitVec.ofNat 64)

theorem counts_readCounter (cfg : Config) :
    TimerCb.Counts (step cfg : State M → _) State.readCounter State.re where
  grows := by
    intro s a s' h i
    cases a with
    | rx r a =>
        obtain ⟨-, hs⟩ := step_rx h
        rw [(stepRx_footprint hs).2.1]
    | tx t a =>
        obtain ⟨-, hs⟩ := step_tx h
        cases txStep_of_stepTx hs with
        | addRe hpc =>
            rcases eq_or_ne i (cfg.txThread t).threadId with rfl | hne
            · simp only [Function.update_self]
              exact Nat.le_add_right _ _
            · simp only [Function.update_of_ne hne, Nat.le_refl]
        | _ => exact Nat.le_refl _
  read := by
    intro s i counter h
    unfold State.readCounter State.readRe at h
    split at h
    · cases h
      rfl
    · cases h

/-- The counters are never above the number of packets received. -/
theorem Conserved.sum_re_le {s : State M} (h : Conserved cfg s) (hquiet : Quiet cfg s) (k : Nat) :
    ∑ i ∈ Finset.range k, s.re i ≤ s.received.length := by
  have hplace := h.place _ isWeight_length
  have hcounted : ∑ i ∈ Finset.range cfg.nTxThread, s.re i ≤
      ∑ i ∈ Finset.range cfg.nTxThread, (s.tx i).accounted List.length := by
    refine Finset.sum_le_sum fun i hi => ?_
    rw [h.re i (Finset.mem_range.mp hi)]
    exact Nat.le_add_left _ _
  calc ∑ i ∈ Finset.range k, s.re i
      ≤ ∑ i ∈ Finset.range cfg.nTxThread, s.re i :=
        Finset.sum_le_sum_of_ne_zero fun i _ hne => Finset.mem_range.mpr <|
          not_le.mp fun hi => hne (hquiet.re i hi)
    _ ≤ s.received.length := by
        rw [hplace, State.total]
        omega

section Accepted

variable {rteLcoreIsEnabled : Nat → Bool} {rteRingCreate : String → Bool}
  {rteLcoreToSocketId : Nat → Nat} {rx : List RxThreadParams} {tx : List TxThreadParams}

/-- When every thread that counts is reported, the report is complete. -/
theorem reported_of_run
    (h : acceptParams rteLcoreIsEnabled rteRingCreate rteLcoreToSocketId rx tx = some cfg)
    (hlow : ∀ p ∈ rx, p.threadId.toNat < rxRings)
    (hpairs : ∀ t q, tx[t]? = some q → (∀ p ∈ rx, p.threadId.toNat < t) →
      ∀ p ∈ rx, p.threadId ≠ q.threadId)
    {s : State M} {as : List (Action M)}
    (hs : run (step (lthreadSpawner cfg)) State.init as = some s) :
    ∑ i ∈ Finset.range (lthreadSpawner cfg).nRxThread, s.re i + s.uncounted (lthreadSpawner cfg) =
      s.dequeued (lthreadSpawner cfg) := by
  obtain ⟨-, hinit⟩ := acceptParams_eq_some h
  have hspawned := spawned_lthreadSpawner (wired_initThreads hinit)
  have hids := (threadsOf_initThreads hinit).1.forall_lt_iff
  have hquiet := (isInvariant_quiet (M := M) hspawned).run hs
  have hconserved := (isInvariant_conserved (M := M) hspawned).run hs
  refine ((reported_iff_sum s).mp ((hquiet.reported_iff_rest hspawned hconserved).mpr
    ⟨(hids rxRings).mpr hlow, fun t ht hge => ?_⟩)).2
  obtain ⟨q, x, hq, hx, hmem, hqueue⟩ := exists_pair hinit ht
  have hlt := (hids t).mp fun i hi => hi.trans_le hge
  rw [hconserved.re t ht,
    (hquiet.nothing hconserved ht hx hmem (hqueue (hpairs t q hq hlt))).1]
  rfl

end Accepted

/-- **What `timer_cb` prints**, however the actions of the lthreads and the reads of `timer_cb` are
interleaved, for the parameters with complete reports: the total of a callback that begins after
`s` and ends before `s'` counts all packets dequeued by `s`, but for those that were about to be
counted, and only packets dequeued by `s'` and not about to be counted. -/
theorem reports_dequeued (rteLcoreIsEnabled : Nat → Bool) (rteRingCreate : String → Bool)
    (rteLcoreToSocketId : Nat → Nat) (rx : List RxThreadParams) (tx : List TxThreadParams)
    (cfg : Config)
    (h : acceptParams rteLcoreIsEnabled rteRingCreate rteLcoreToSocketId rx tx = some cfg)
    (hlow : ∀ p ∈ rx, p.threadId.toNat < rxRings)
    (hpairs : ∀ t q, tx[t]? = some q → (∀ p ∈ rx, p.threadId.toNat < t) →
      ∀ p ∈ rx, p.threadId ≠ q.threadId)
    (as as' : List (TimerCb.Action (Action M))) (s s' : TimerCb.State (State M))
    (hs : run (TimerCb.step (step (lthreadSpawner cfg)) State.readCounter
      (lthreadSpawner cfg).nRxThread) (TimerCb.State.init State.init) as = some s)
    (hwaiting : s.pc = .waiting)
    (hs' : run (TimerCb.step (step (lthreadSpawner cfg)) State.readCounter
      (lthreadSpawner cfg).nRxThread) s as' = some s')
    (hfits : s'.program.received.length < 2 ^ 53) :
    (∃ new, s'.lines = s.lines ++ new ∧ ∀ line ∈ new,
      (s.program.dequeued (lthreadSpawner cfg) : ℤ) ≤
          line.total + s.program.uncounted (lthreadSpawner cfg) ∧
        line.total + s'.program.uncounted (lthreadSpawner cfg) ≤
          s'.program.dequeued (lthreadSpawner cfg)) ∧
    TimerCb.Coherent s'.lines := by
  have hspawned := spawned_lthreadSpawner (wired_initThreads (acceptParams_eq_some h).2)
  have hcounts := counts_readCounter (M := M) (lthreadSpawner cfg)
  have hrun : run (TimerCb.step (step (lthreadSpawner cfg)) State.readCounter
      (lthreadSpawner cfg).nRxThread) (TimerCb.State.init State.init) (as ++ as') = some s' := by
    rw [run_append, hs]
    exact hs'
  obtain ⟨bs, hbs⟩ := TimerCb.exists_run_program hs
  obtain ⟨bs', hbs'⟩ := TimerCb.exists_run_program hrun
  have hfits' : TimerCb.Fits State.re (lthreadSpawner cfg).nRxThread s' :=
    (((isInvariant_conserved hspawned).run hbs').sum_re_le ((isInvariant_quiet hspawned).run hbs')
      _).trans_lt hfits
  obtain ⟨new, hnew, hall⟩ := (TimerCb.since_run hcounts hwaiting hs' hfits').lines
  refine ⟨⟨new, hnew, fun line hline => ?_⟩, TimerCb.coherent_run hcounts hrun hfits'⟩
  obtain ⟨hge, hle⟩ := hall line hline
  rw [← reported_of_run h hlow hpairs hbs, ← reported_of_run h hlow hpairs hbs']
  omega

/-- One packet is counted before the callback begins. -/
theorem reports_dequeued_one_ring :
    ∃ cfg, acceptParams (fun _ => true) (fun _ => true) (fun _ => 0) [⟨0, 0, 2, 0⟩] [⟨4, 0⟩] =
        some cfg ∧
      ∃ s s' : TimerCb.State (State Nat),
        ((∃ new, s'.lines = s.lines ++ new ∧ ∀ line ∈ new,
          (s.program.dequeued (lthreadSpawner cfg) : ℤ) ≤
              line.total + s.program.uncounted (lthreadSpawner cfg) ∧
            line.total + s'.program.uncounted (lthreadSpawner cfg) ≤
              s'.program.dequeued (lthreadSpawner cfg)) ∧
        TimerCb.Coherent s'.lines) ∧
        s.program.dequeued (lthreadSpawner cfg) = 1 ∧ s'.lines.map TimerCb.Line.total = [1] :=
  ⟨_, rfl, _, _, reports_dequeued (fun _ => true) (fun _ => true) (fun _ => 0) [⟨0, 0, 2, 0⟩]
    [⟨4, 0⟩] _ rfl (by decide)
    (fun t q hq hlt => by
      obtain rfl : t = 0 := Nat.lt_one_iff.mp (List.getElem?_eq_some_iff.mp hq).1
      exact absurd (hlt _ List.mem_cons_self) (Nat.not_lt_zero _))
    [.program (.rx 0 (.rxBurst [1])), .program (.rx 0 (.enqueueBurst 1)),
      .program (.tx 0 .dequeueBurst), .program (.tx 0 .addRe)]
    [.timer, .timer, .timer] _ _ rfl rfl rfl (by decide +kernel),
    by decide +kernel, by decide +kernel⟩

end Lthread
end FloWatcher
