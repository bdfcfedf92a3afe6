import FloWatcher.Lthread.Layout
import FloWatcher.Lthread.RingLoss
import FloWatcher.Lthread.Traffic

/-!
# What is counted and what is reported

Tx lthreads count the packets that they dequeue in `re`, an array of `RX_RINGS` entries, under the
number that `lthread_spawner` gave them. `timer_cb` and `handler` report the entries of as many
threads as there are *rx* lthreads. `reported_iff` says for which parameters the two agree, and
`countersInBounds_iff` for which all indices into `re` and `batch_n` are within the arrays.
-/

namespace FloWatcher
namespace Lthread

open Transition

variable {M : Type} {cfg : Config}

def rxRings : Nat := 10

/-- The entries of `re` that `timer_cb` and `handler` read; `handler` reads those of `batch_n`, too. -/
def reportIndices (cfg : Config) : List Nat := List.range cfg.nRxThread

/-- A read of `re[i]`. There is nothing to read beyond the array. -/
def State.readRe (s : State M) (i : Nat) : Option Nat :=
  if i < rxRings then some (s.re i) else none

/-- The total that `timer_cb` prints, as long as `j`, a `double`, is below `2 ^ 53`. -/
def timerCb (cfg : Config) (s : State M) : Option Nat :=
  (reportIndices cfg).foldlM (fun j i => (s.readRe i).map (j + ·)) 0

def handler (cfg : Config) (s : State M) : Option (List Nat) :=
  (reportIndices cfg).mapM s.readRe

def State.accepted (cfg : Config) (s : State M) (t : Nat) : List M :=
  match (cfg.txThread t).ring with
  | some x => s.enqueued x
  | none => []

def State.dequeued (cfg : Config) (s : State M) : Nat :=
  ∑ t ∈ Finset.range cfg.nTxThread, ((s.accepted cfg t).length - (s.content cfg t).length)

/-- The number of packets in bursts that are dequeued and about to be counted. -/
def State.uncounted (cfg : Config) (s : State M) : Nat :=
  ∑ t ∈ Finset.range cfg.nTxThread, (s.tx t).pc.held.length

/-- **The reports are complete**: they say how many packets have been dequeued, up to the bursts
that are about to be counted. -/
def Reported (cfg : Config) (s : State M) : Prop :=
  ∃ total counts, timerCb cfg s = some total ∧ handler cfg s = some counts ∧
    total + s.uncounted cfg = s.dequeued cfg ∧ counts.sum + s.uncounted cfg = s.dequeued cfg

/-! ## The reports as sums -/

theorem foldlM_readRe (s : State M) (l : List Nat) (j : Nat) :
    l.foldlM (fun j i => (s.readRe i).map (j + ·)) j =
      if ∀ i ∈ l, i < rxRings then some (j + (l.map s.re).sum) else none := by
  induction l generalizing j with
  | nil => simp
  | cons i l ih =>
      rw [List.foldlM_cons, State.readRe]
      by_cases hi : i < rxRings
      · rw [if_pos hi]
        simp only [Option.map_some, Option.bind_eq_bind, Option.bind_some, ih, List.forall_mem_cons,
          hi, true_and, List.map_cons, List.sum_cons, Nat.add_assoc]
      · rw [if_neg hi, if_neg fun hall => hi (hall i List.mem_cons_self)]
        rfl

theorem mapM_readRe (s : State M) (l : List Nat) :
    l.mapM s.readRe = if ∀ i ∈ l, i < rxRings then some (l.map s.re) else none := by
  induction l with
  | nil => rfl
  | cons i l ih =>
      rw [List.mapM_cons, ih, State.readRe]
      by_cases hi : i < rxRings
      · rw [if_pos hi]
        simp only [Option.bind_eq_bind, Option.bind_some, List.forall_mem_cons, hi, true_and,
          List.map_cons]
        split <;> rfl
      · have hall : ¬ ∀ j ∈ i :: l, j < rxRings := fun hall => hi (hall i List.mem_cons_self)
        rw [if_neg hi, if_neg hall]
        rfl

theorem sum_map_range (f : Nat → Nat) (n : Nat) :
    ((List.range n).map f).sum = ∑ i ∈ Finset.range n, f i :=
  (Multiset.sum_coe _).symm

/-- Both reports are complete when one sum is. -/
theorem reported_iff_sum (s : State M) :
    Reported cfg s ↔ (∀ i < cfg.nRxThread, i < rxRings) ∧
      ∑ i ∈ Finset.range cfg.nRxThread, s.re i + s.uncounted cfg = s.dequeued cfg := by
  have htimer := foldlM_readRe s (reportIndices cfg) 0
  have hhandler := mapM_readRe s (reportIndices cfg)
  unfold Reported timerCb handler
  rw [htimer, hhandler]
  simp only [reportIndices, List.mem_range, Nat.zero_add, sum_map_range]
  by_cases hall : ∀ i < cfg.nRxThread, i < rxRings
  · rw [if_pos hall, if_pos hall]
    constructor
    · rintro ⟨total, counts, htotal, -, hsum, -⟩
      cases htotal
      exact ⟨hall, hsum⟩
    · rintro ⟨-, hsum⟩
      exact ⟨_, _, rfl, rfl, hsum, by rw [sum_map_range]; exact hsum⟩
  · rw [if_neg hall]
    constructor
    · rintro ⟨total, counts, htotal, -⟩
      cases htotal
    · rintro ⟨hall', -⟩
      exact absurd hall' hall

/-! ## What stays untouched -/

/-- An rx lthread changes its own state, its rings and what waits for them, and polls a queue. -/
theorem stepRx_footprint [DecidableEq M] {s s' : State M} {r : Nat} {a : RxAction M}
    (hs : stepRx cfg s r a = some s') :
    (∃ th, s'.rx = Function.update s.rx r th) ∧ s'.re = s.re ∧
      (∀ x ∉ (cfg.rxThread r).ring, s'.enqueued x = s.enqueued x) ∧
      ((s.rx r).pc = .poll → (s.rx r).i < (cfg.rxThread r).rxQueueList.length) ∧
      (s'.tx = s.tx ∨ ∃ w, s'.tx = signal cfg r w s.tx) := by
  cases rxStep_of_stepRx hs with
  | rxBurst hpc hi hlen hfree =>
      exact ⟨⟨_, rfl⟩, rfl, fun _ _ => rfl, fun _ => hi, Or.inl rfl⟩
  | @enqueueBurst burst ret x hpc hx hret =>
      refine ⟨⟨_, rfl⟩, rfl, fun y hy => ?_, by simp [hpc], Or.inl rfl⟩
      have hne : y ≠ x := by
        rintro rfl
        exact hy (List.mem_of_getElem? hx)
      simp only [Function.update_of_ne hne]
  | signal hpc hsent => exact ⟨⟨_, rfl⟩, rfl, fun _ _ => rfl, by simp [hpc], Or.inr ⟨_, rfl⟩⟩
  | noSignal hpc hsent => exact ⟨⟨_, rfl⟩, rfl, fun _ _ => rfl, by simp [hpc], Or.inl rfl⟩
  | readLoss hpc => exact ⟨⟨_, rfl⟩, rfl, fun _ _ => rfl, by simp [hpc], Or.inl rfl⟩
  | writeLoss hpc => exact ⟨⟨_, rfl⟩, rfl, fun _ _ => rfl, by simp [hpc], Or.inl rfl⟩
  | free hpc hm => exact ⟨⟨_, rfl⟩, rfl, fun _ _ => rfl, by simp [hpc], Or.inl rfl⟩
  | allFree hpc hk => exact ⟨⟨_, rfl⟩, rfl, fun _ _ => rfl, by simp [hpc], Or.inl rfl⟩
  | yield hpc => exact ⟨⟨_, rfl⟩, rfl, fun _ _ => rfl, by simp [hpc], Or.inl rfl⟩

theorem stepTx_re {s s' : State M} {t : Nat} {a : TxAction} (hs : stepTx cfg s t a = some s') :
    s'.enqueued = s.enqueued ∧ ∀ i ≠ (cfg.txThread t).threadId, s'.re i = s.re i := by
  cases txStep_of_stepTx hs with
  | addRe hpc => exact ⟨rfl, fun i hi => by simp only [Function.update_of_ne hi]⟩
  | empty hpc hx hring => exact ⟨rfl, fun _ _ => rfl⟩
  | dequeueBurst hpc hx hring => exact ⟨rfl, fun _ _ => rfl⟩
  | packet hpc hm => exact ⟨rfl, fun _ _ => rfl⟩
  | allPackets hpc hbuf => exact ⟨rfl, fun _ _ => rfl⟩
  | condWait hpc => exact ⟨rfl, fun _ _ => rfl⟩
  | wake hpc => exact ⟨rfl, fun _ _ => rfl⟩

/-- Rx lthreads without queues receive nothing, and only the tx lthreads count. -/
structure Quiet (cfg : Config) (s : State M) : Prop where
  poll : ∀ r, (cfg.rxThread r).rxQueueList = [] → (s.rx r).pc = .poll
  enqueued : ∀ r, (cfg.rxThread r).rxQueueList = [] → ∀ x ∈ (cfg.rxThread r).ring, s.enqueued x = []
  re : ∀ i, cfg.nTxThread ≤ i → s.re i = 0

theorem isInvariant_quiet [DecidableEq M] (hcfg : Spawned cfg) :
    IsInvariant (step cfg) (State.init : State M) (Quiet cfg) where
  init := ⟨fun _ _ => rfl, fun _ _ _ _ => rfl, fun _ _ => rfl⟩
  step s a s' h hs := by
    cases a with
    | rx r a =>
        obtain ⟨-, hs⟩ := step_rx hs
        obtain ⟨⟨th, hth⟩, hre, henqueued, hqueue, -⟩ := stepRx_footprint hs
        -- the lthread that acts has a queue
        have hne : ∀ r', (cfg.rxThread r').rxQueueList = [] → r' ≠ r := by
          rintro r' hr' rfl
          have hlt := hqueue (h.poll r' hr')
          rw [hr'] at hlt
          exact absurd hlt (Nat.not_lt_zero _)
        refine ⟨fun r' hr' => ?_, fun r' hr' x hx => ?_, fun i hi => ?_⟩
        · rw [hth, Function.update_of_ne (hne r' hr')]
          exact h.poll r' hr'
        · rw [henqueued x, h.enqueued r' hr' x hx]
          intro hx'
          exact hne r' hr' ((hcfg.wired.rx r' x hx).1.symm.trans (hcfg.wired.rx r x hx').1)
        · rw [hre]
          exact h.re i hi
    | tx t a =>
        obtain ⟨ht, hs⟩ := step_tx hs
        obtain ⟨henqueued, hre⟩ := stepTx_re hs
        refine ⟨fun r hr => ?_, fun r hr x hx => ?_, fun i hi => ?_⟩
        · rw [(stepTx_frame hs).1]
          exact h.poll r hr
        · rw [henqueued]
          exact h.enqueued r hr x hx
        · rw [hre i (by rw [hcfg.threadId t ht]; omega)]
          exact h.re i hi

/-- A tx lthread behind an rx lthread without queues has nothing to count. -/
theorem Quiet.nothing [DecidableEq M] {s : State M} (h : Quiet cfg s) (hc : Conserved cfg s)
    {t r : Nat} {x : Ring} (ht : t < cfg.nTxThread) (hx : (cfg.txThread t).ring = some x)
    (hr : x ∈ (cfg.rxThread r).ring) (hqueue : (cfg.rxThread r).rxQueueList = []) :
    (s.tx t).counted = [] ∧ (s.tx t).pc.held = [] := by
  have hfifo := hc.fifo t ht x hx
  rw [h.enqueued r hqueue x hr] at hfifo
  have hnil := List.append_eq_nil_iff.mp (List.append_eq_nil_iff.mp hfifo.symm).1
  exact hnil

/-- What has been dequeued has been counted, or is about to be. -/
theorem Conserved.dequeued_eq [DecidableEq M] (hcfg : Spawned cfg) {s : State M}
    (h : Conserved cfg s) :
    s.dequeued cfg = ∑ t ∈ Finset.range cfg.nTxThread, s.re t + s.uncounted cfg := by
  unfold State.dequeued State.uncounted
  rw [← Finset.sum_add_distrib]
  apply Finset.sum_congr rfl
  intro t ht
  have hlt := Finset.mem_range.mp ht
  obtain ⟨x, hx, -⟩ := hcfg.wired.tx t hlt
  have haccepted : s.accepted cfg t = s.enqueued x := by rw [State.accepted, hx]
  have hcontent : s.content cfg t = s.ring x := by rw [State.content, hx]
  rw [haccepted, hcontent, h.fifo t hlt x hx, h.re t hlt, List.length_append, List.length_append]
  omega

theorem sum_range_tail {f : Nat → Nat} {a b : Nat} (hab : a ≤ b) :
    ∑ i ∈ Finset.range a, f i = ∑ i ∈ Finset.range b, f i ↔ ∀ i < b, a ≤ i → f i = 0 := by
  rw [← Finset.sum_sdiff (Finset.range_subset_range.mpr hab), Nat.right_eq_add,
    Finset.sum_eq_zero_iff]
  simp only [Finset.mem_sdiff, Finset.mem_range]
  grind

/-- The reports are complete when the counts that they leave out are zero. -/
theorem Quiet.reported_iff_rest [DecidableEq M] (hcfg : Spawned cfg) {s : State M} (h : Quiet cfg s)
    (hc : Conserved cfg s) :
    Reported cfg s ↔ (∀ i < cfg.nRxThread, i < rxRings) ∧
      ∀ t < cfg.nTxThread, cfg.nRxThread ≤ t → s.re t = 0 := by
  rw [reported_iff_sum, hc.dequeued_eq hcfg, Nat.add_right_cancel_iff]
  apply and_congr_right
  intro _
  rcases Nat.le_total cfg.nRxThread cfg.nTxThread with hle | hle
  · exact sum_range_tail hle
  · have hsum := (sum_range_tail hle).mpr fun i _ hi => h.re i hi
    exact iff_of_true hsum.symm fun t ht hge => absurd ht (by omega)

/-! ## Who counts whose packets -/

section Accepted

variable {rteLcoreIsEnabled : Nat → Bool} {rteRingCreate : String → Bool}
  {rteLcoreToSocketId : Nat → Nat} {rx : List RxThreadParams} {tx : List TxThreadParams}

/-- The ring of a tx thread is the one that its pair asks for. -/
theorem rxThreadId_initThreads
    (h : initThreads rteRingCreate rteLcoreToSocketId rx tx = some cfg) {t : Nat}
    (ht : t < cfg.nTxThread) {x : Ring} (hx : (cfg.txThread t).ring = some x) :
    x.rxThreadId = (cfg.txThread t).threadId := by
  have hall : ∀ t < cfg.nTxThread, ∀ x, (cfg.txThread t).ring = some x →
      x.rxThreadId = (cfg.txThread t).threadId := by
    apply initThreads_induct (P := fun k c => ∀ t < k, ∀ x, (c.txThread t).ring = some x →
      x.rxThreadId = (c.txThread t).threadId) _ _ h
    · exact fun _ _ t ht => absurd ht (Nat.not_lt_zero t)
    · intro k d d' hd hconnect
      obtain ⟨-, ring, hid, -, rfl⟩ := connect_ok hconnect
      refine ⟨fun t ht x hx => ?_, rfl⟩
      rcases eq_or_ne t k with rfl | hne
      · simp only [Function.update_self, Option.some.injEq] at hx ⊢
        rw [← hx, hid]
      · simp only [Function.update_of_ne hne] at hx ⊢
        exact hd t (by omega) x hx
  exact hall t ht x hx

/-- The packets of a tx lthread come from the rx lthread that its pair names. -/
theorem ring_of_pair (h : initThreads rteRingCreate rteLcoreToSocketId rx tx = some cfg) {t : Nat}
    {q : TxThreadParams} (hq : tx[t]? = some q) :
    t < (lthreadSpawner cfg).nTxThread ∧ ∃ (x : Ring) (w : Nat),
      ((lthreadSpawner cfg).txThread t).ring = some x ∧
        ((lthreadSpawner cfg).rxThread q.threadId.toNat).ring[w]? = some x := by
  have hthreads := (threadsOf_initThreads h).2
  have ht : t < cfg.nTxThread := by
    rw [hthreads.count]
    exact (List.getElem?_eq_some_iff.mp hq).1
  have hsignalled := signalled_initThreads h
  obtain ⟨x, hx, -⟩ := hsignalled.wired.tx t ht
  obtain ⟨w, -, hw⟩ := hsignalled.ready t ht x hx
  rw [rxThreadId_initThreads h ht hx, (hthreads.thread t q hq).1] at hw
  refine ⟨ht, x, w, (txThread_lthreadSpawner cfg t).1.trans hx, ?_⟩
  rw [rxThread_lthreadSpawner]
  exact hw

theorem rxQueueList_eq_nil_iff (h : initThreads rteRingCreate rteLcoreToSocketId rx tx = some cfg)
    (r : Nat) : ((lthreadSpawner cfg).rxThread r).rxQueueList = [] ↔
      ∀ p ∈ rx, p.threadId.toNat ≠ r := by
  rw [rxQueueList_lthreadSpawner, (threadsOf_initThreads h).1.queues, List.map_eq_nil_iff, tuplesOf,
    List.filter_eq_nil_iff]
  simp only [decide_eq_true_eq]

/-- Every tx lthread has a pair and a ring, and nothing comes in behind it without a tuple. -/
theorem exists_pair (h : initThreads rteRingCreate rteLcoreToSocketId rx tx = some cfg) {t : Nat}
    (ht : t < (lthreadSpawner cfg).nTxThread) :
    ∃ (q : TxThreadParams) (x : Ring), tx[t]? = some q ∧
      ((lthreadSpawner cfg).txThread t).ring = some x ∧
      x ∈ ((lthreadSpawner cfg).rxThread q.threadId.toNat).ring ∧
      ((∀ p ∈ rx, p.threadId ≠ q.threadId) →
        ((lthreadSpawner cfg).rxThread q.threadId.toNat).rxQueueList = []) := by
  have hlt : t < tx.length := (threadsOf_initThreads h).2.count ▸ ht
  have hq := List.getElem?_eq_getElem hlt
  obtain ⟨-, x, w, hx, hw⟩ := ring_of_pair h hq
  refine ⟨_, x, hq, hx, List.mem_of_getElem? hw, fun hnone => ?_⟩
  rw [rxQueueList_eq_nil_iff h]
  exact fun p hp hid => hnone p hp (UInt8.toNat_inj.mp hid)

/-- Tx lthread `t` may have to count packets when its rx lthread has a queue. -/
theorem reaches_count_of_pair
    (h : initThreads rteRingCreate rteLcoreToSocketId rx tx = some cfg) {t : Nat}
    {q : TxThreadParams} (hq : tx[t]? = some q) {p : RxThreadParams} (hp : p ∈ rx)
    (hpq : p.threadId = q.threadId) :
    ∃ (s : State Nat) (m : Nat) (ms : List Nat),
      Reaches (step (lthreadSpawner cfg)) State.init s ∧ (s.tx t).pc = .count (m :: ms) := by
  obtain ⟨ht, x, w, hx, hw⟩ := ring_of_pair h hq
  have hr : q.threadId.toNat < (lthreadSpawner cfg).nRxThread :=
    hpq ▸ (threadsOf_initThreads h).1.lt_count hp
  have hqueue : 0 < ((lthreadSpawner cfg).rxThread q.threadId.toNat).rxQueueList.length := by
    rw [List.length_pos_iff_ne_nil, ne_eq, rxQueueList_eq_nil_iff h]
    exact fun hnone => hnone p hp (congrArg UInt8.toNat hpq)
  exact reaches_count (spawned_lthreadSpawner (wired_initThreads h)) hr hqueue ht hx hw

end Accepted

/-- **When the reports are complete**: when there are entries for all rx threads, and the tx threads
that are not among the reported ones have nothing to count. -/
theorem reported_iff (rteLcoreIsEnabled : Nat → Bool) (rteRingCreate : String → Bool)
    (rteLcoreToSocketId : Nat → Nat) (rx : List RxThreadParams) (tx : List TxThreadParams)
    (cfg : Config)
    (h : acceptParams rteLcoreIsEnabled rteRingCreate rteLcoreToSocketId rx tx = some cfg) :
    (∀ (M : Type) [DecidableEq M] (as : List (Action M)),
        Always (step (lthreadSpawner cfg)) (Reported (lthreadSpawner cfg)) State.init as) ↔
      (∀ p ∈ rx, p.threadId.toNat < rxRings) ∧
        ∀ t q, tx[t]? = some q → (∀ p ∈ rx, p.threadId.toNat < t) →
          ∀ p ∈ rx, p.threadId ≠ q.threadId := by
  obtain ⟨-, hinit⟩ := acceptParams_eq_some h
  have hspawned := spawned_lthreadSpawner (wired_initThreads hinit)
  have hids : ∀ n, (∀ i < (lthreadSpawner cfg).nRxThread, i < n) ↔
      ∀ p ∈ rx, p.threadId.toNat < n := (threadsOf_initThreads hinit).1.forall_lt_iff
  rw [← hids]
  constructor
  · intro hall
    have hreported : ∀ s : State Nat, Reaches (step (lthreadSpawner cfg)) State.init s →
        (∀ i < (lthreadSpawner cfg).nRxThread, i < rxRings) ∧
          ∀ t < (lthreadSpawner cfg).nTxThread, (lthreadSpawner cfg).nRxThread ≤ t → s.re t = 0 :=
      fun s hs => (((isInvariant_quiet hspawned).reaches hs).reported_iff_rest hspawned
        ((isInvariant_conserved hspawned).reaches hs)).mp (hs.of_always (hall Nat))
    -- the pair of `p` and `q` is a queue that TX thread `t` serves: one packet through it is
    -- counted in `re[t]`, which the report leaves out
    refine ⟨(hreported _ (.refl _)).1, fun t q hq hlt p hp hpq => ?_⟩
    have ht := (ring_of_pair hinit hq).1
    have hge : (lthreadSpawner cfg).nRxThread ≤ t := by
      by_contra hnot
      have hself := (hids t).mpr hlt t (Nat.lt_of_not_le hnot)
      exact absurd hself (Nat.lt_irrefl t)
    obtain ⟨s, m, ms, hs, hpc⟩ := reaches_count_of_pair hinit hq hp hpq
    have hadd : step (lthreadSpawner cfg) s (.tx t .addRe) = some
        { s with
          tx := Function.update s.tx t
            { s.tx t with pc := .packet (m :: ms) 0, counted := (s.tx t).counted ++ m :: ms }
          re := Function.update s.re t (s.re t + (m :: ms).length) } := by
      rw [step, if_pos ht]
      simp only [stepTx, hpc, hspawned.threadId t ht]
    have hzero := (hreported _ (hs.tail hadd)).2 t ht hge
    simp only [Function.update_self, List.length_cons] at hzero
    omega
  · rintro ⟨hlow, hpairs⟩ M _ as
    -- a TX thread the report leaves out has no queue, so nothing reaches its counter
    have hinv : ∀ s : State M, Quiet (lthreadSpawner cfg) s ∧ Conserved (lthreadSpawner cfg) s →
        Reported (lthreadSpawner cfg) s := by
      rintro s ⟨hquiet, hconserved⟩
      refine (hquiet.reported_iff_rest hspawned hconserved).mpr ⟨hlow, fun t ht hge => ?_⟩
      obtain ⟨q, x, hq, hx, hmem, hqueue⟩ := exists_pair hinit ht
      have hlt := (hids t).mp fun i hi => hi.trans_le hge
      have hnothing := hquiet.nothing hconserved ht hx hmem (hqueue (hpairs t q hq hlt))
      rw [hconserved.re t ht, hnothing.1]
      rfl
    exact ((isInvariant_quiet hspawned).and (isInvariant_conserved hspawned)).always hinv as

/-- One tuple and one pair. -/
theorem reported_iff_one_ring :
    ∃ cfg, acceptParams (fun _ => true) (fun _ => true) (fun _ => 0) [⟨0, 0, 2, 0⟩] [⟨4, 0⟩] =
        some cfg ∧
      ((∀ (M : Type) [DecidableEq M] (as : List (Action M)),
          Always (step (lthreadSpawner cfg)) (Reported (lthreadSpawner cfg)) State.init as) ↔
        (∀ p ∈ [(⟨0, 0, 2, 0⟩ : RxThreadParams)], p.threadId.toNat < rxRings) ∧
          ∀ t q, [(⟨4, 0⟩ : TxThreadParams)][t]? = some q →
            (∀ p ∈ [(⟨0, 0, 2, 0⟩ : RxThreadParams)], p.threadId.toNat < t) →
              ∀ p ∈ [(⟨0, 0, 2, 0⟩ : RxThreadParams)], p.threadId ≠ q.threadId) :=
  ⟨_, rfl, reported_iff (fun _ => true) (fun _ => true) (fun _ => 0) [⟨0, 0, 2, 0⟩] [⟨4, 0⟩] _ rfl⟩

def twoTx : Config :=
  (acceptParams (fun _ => true) (fun _ => true) (fun _ => 0) [⟨0, 0, 2, 0⟩]
    [⟨4, 0⟩, ⟨5, 0⟩]).getD Config.zero

def countedBySecond : List (Action Nat) :=
  [.rx 0 (.rxBurst [1]), .rx 0 (.enqueueBurst 1), .tx 1 .dequeueBurst, .tx 1 .addRe]

/-- The packet is dequeued and counted, and `timer_cb` prints a total of `0`. -/
theorem not_reported_two_tx :
    acceptParams (fun _ => true) (fun _ => true) (fun _ => 0) [⟨0, 0, 2, 0⟩] [⟨4, 0⟩, ⟨5, 0⟩] =
        some twoTx ∧
      (run (step (lthreadSpawner twoTx)) State.init countedBySecond).map (fun s =>
          (timerCb (lthreadSpawner twoTx) s, handler (lthreadSpawner twoTx) s, s.re 1)) =
        some (some 0, some [0], 1) ∧
      ¬ Always (step (lthreadSpawner twoTx)) (Reported (lthreadSpawner twoTx)) State.init
        countedBySecond := by
  refine ⟨rfl, by decide, fun hall => ?_⟩
  have hrun : ∃ s, run (step (lthreadSpawner twoTx)) State.init countedBySecond = some s ∧
      timerCb (lthreadSpawner twoTx) s = some 0 ∧
      s.uncounted (lthreadSpawner twoTx) = 0 ∧ s.dequeued (lthreadSpawner twoTx) = 1 :=
    ⟨_, rfl, rfl, rfl, rfl⟩
  obtain ⟨s, hs, htimer, huncounted, hdequeued⟩ := hrun
  obtain ⟨total, counts, htotal, -, hsum, -⟩ :=
    always_iff_forall_run.mp hall countedBySecond List.prefix_rfl s hs
  rw [htimer] at htotal
  cases htotal
  rw [huncounted, hdequeued] at hsum
  cases hsum

/-! ## Indices into the counters -/

/-- The entries of `re` and `batch_n` that an action uses. With `IPG`, a tx lthread adds up the
entries of all rx threads, from the last one down. -/
def counterIndices (ipg : Bool) (cfg : Config) (s : State M) : Action M → List Nat
  | .rx r (.rxBurst (_ :: _)) =>
      (((cfg.rxThread r).rxQueueList[(s.rx r).i]?).map (·.queueId.toNat)).toList
  | .tx t .addRe =>
      (cfg.txThread t).threadId :: if ipg then (reportIndices cfg).reverse else []
  | _ => []

def CountersInBounds (ipg : Bool) (cfg : Config) (s : State M) (a : Action M) : Prop :=
  ∀ i ∈ counterIndices ipg cfg s a, i < rxRings

theorem stepTx_counts {s s' : State M} {t : Nat} {a : TxAction} (hs : stepTx cfg s t a = some s') :
    ∃ th, s'.tx = Function.update s.tx t th ∧ th.pc ≠ .count [] := by
  cases txStep_of_stepTx hs with
  | @dequeueBurst x hpc hx hring =>
      refine ⟨_, rfl, fun hcount => ?_⟩
      rcases List.take_eq_nil_iff.mp (TxPc.count.inj hcount) with hzero | hnil
      · cases hzero
      · exact hring hnil
  | empty hpc hx hring => exact ⟨_, rfl, by simp⟩
  | addRe hpc => exact ⟨_, rfl, by simp⟩
  | packet hpc hm => exact ⟨_, rfl, by simp⟩
  | allPackets hpc hbuf => exact ⟨_, rfl, by simp⟩
  | condWait hpc => exact ⟨_, rfl, by simp⟩
  | wake hpc => exact ⟨_, rfl, by simp⟩

/-- A tx lthread never counts an empty burst. -/
theorem isInvariant_counts [DecidableEq M] :
    IsInvariant (step cfg) (State.init : State M) fun s => ∀ t, (s.tx t).pc ≠ .count [] where
  init _ := nofun
  step s a s' h hs := by
    cases a with
    | rx r a =>
        obtain ⟨-, hs⟩ := step_rx hs
        obtain ⟨-, -, -, -, htx | ⟨w, htx⟩⟩ := stepRx_footprint hs
        · rw [htx]
          exact h
        · intro t
          rw [htx]
          unfold signal TxThread.awake
          split
          · split
            · exact nofun
            · exact h t
          · exact h t
    | tx t a =>
        obtain ⟨-, hs⟩ := step_tx hs
        obtain ⟨th, htx, hth⟩ := stepTx_counts hs
        intro t'
        rw [htx, Function.update_apply]
        split
        · exact hth
        · exact h t'

/-- A tx lthread that counts packets is behind an rx lthread with a queue. -/
theorem Quiet.addRe [DecidableEq M] {s s' : State M} (h : Quiet cfg s) (hc : Conserved cfg s)
    (hcounts : ∀ t, (s.tx t).pc ≠ .count []) {t r : Nat} {x : Ring} (ht : t < cfg.nTxThread)
    (hs : stepTx cfg s t .addRe = some s') (hx : (cfg.txThread t).ring = some x)
    (hr : x ∈ (cfg.rxThread r).ring) : (cfg.rxThread r).rxQueueList ≠ [] := by
  intro hqueue
  have hheld := (h.nothing hc ht hx hr hqueue).2
  cases txStep_of_stepTx hs with
  | addRe hpc =>
      rw [hpc] at hheld
      exact hcounts t (hpc.trans (congrArg TxPc.count hheld))

section Accepted

variable {rteLcoreIsEnabled : Nat → Bool} {rteRingCreate : String → Bool}
  {rteLcoreToSocketId : Nat → Nat} {rx : List RxThreadParams} {tx : List TxThreadParams}

/-- Every tuple has a queue in the list of its rx lthread, and nothing else has. -/
theorem mem_rxQueueList_iff (h : initThreads rteRingCreate rteLcoreToSocketId rx tx = some cfg)
    {r : Nat} {q : LcoreRxQueue} : q ∈ ((lthreadSpawner cfg).rxThread r).rxQueueList ↔
      ∃ p ∈ rx, p.threadId.toNat = r ∧ p.queue = q := by
  rw [rxQueueList_lthreadSpawner, (threadsOf_initThreads h).1.queues]
  simp only [tuplesOf, List.mem_map, List.mem_filter, decide_eq_true_eq, and_assoc]

/-- The queue id of every tuple may be used as an index. -/
theorem reaches_batch (h : initThreads rteRingCreate rteLcoreToSocketId rx tx = some cfg)
    {p : RxThreadParams} (hp : p ∈ rx) (ipg : Bool) :
    ∃ (s : State Nat) (a : Action Nat), Reaches (step (lthreadSpawner cfg)) State.init s ∧
      (∃ u, step (lthreadSpawner cfg) s a = some u) ∧
        p.queueId.toNat ∈ counterIndices ipg (lthreadSpawner cfg) s a := by
  have hspawned := spawned_lthreadSpawner (wired_initThreads h)
  have hr : p.threadId.toNat < (lthreadSpawner cfg).nRxThread :=
    (threadsOf_initThreads h).1.lt_count hp
  obtain ⟨i, hi⟩ := List.mem_iff_getElem?.mp ((mem_rxQueueList_iff h).mpr ⟨p, hp, rfl, rfl⟩)
  have hlt := (List.getElem?_eq_some_iff.mp hi).1
  obtain ⟨s, hs, hpc, hsi, hreceived⟩ := reaches_queue hr hlt
  have hfresh : 0 ∉ s.received := by
    rw [hreceived]
    exact List.not_mem_nil
  refine ⟨s, .rx p.threadId.toNat (.rxBurst [0]), hs, ?_, ?_⟩
  · rw [step, if_pos hr]
    rw [← hsi] at hlt
    exact ⟨_, stepRx_fresh ((isInvariant_conserved hspawned).reaches hs) hfresh hpc hlt⟩
  · rw [counterIndices, hsi, hi]
    exact List.mem_singleton_self _

end Accepted

/-- **When all indices into `re` and `batch_n` are in bounds**: when the thread ids and queue ids of
`--rx` are, and the tx threads beyond the arrays have nothing to count. -/
theorem countersInBounds_iff (ipg : Bool) (rteLcoreIsEnabled : Nat → Bool)
    (rteRingCreate : String → Bool) (rteLcoreToSocketId : Nat → Nat) (rx : List RxThreadParams)
    (tx : List TxThreadParams) (cfg : Config)
    (h : acceptParams rteLcoreIsEnabled rteRingCreate rteLcoreToSocketId rx tx = some cfg) :
    ((∀ i ∈ reportIndices (lthreadSpawner cfg), i < rxRings) ∧
        ∀ (M : Type) [DecidableEq M] (as : List (Action M)),
          Each (step (lthreadSpawner cfg)) (CountersInBounds ipg (lthreadSpawner cfg)) State.init
            as) ↔
      (∀ p ∈ rx, p.threadId.toNat < rxRings ∧ p.queueId.toNat < rxRings) ∧
        ∀ t q, tx[t]? = some q → rxRings ≤ t → ∀ p ∈ rx, p.threadId ≠ q.threadId := by
  obtain ⟨-, hinit⟩ := acceptParams_eq_some h
  have hspawned := spawned_lthreadSpawner (wired_initThreads hinit)
  have hreports : (∀ i ∈ reportIndices (lthreadSpawner cfg), i < rxRings) ↔
      ∀ p ∈ rx, p.threadId.toNat < rxRings := by
    rw [← (threadsOf_initThreads hinit).1.forall_lt_iff]
    simp only [reportIndices, List.mem_range]
    rfl
  constructor
  · rintro ⟨hids, hall⟩
    refine ⟨fun p hp => ⟨hreports.mp hids p hp, ?_⟩, fun t q hq hge p hp hpq => ?_⟩
    -- a run in which the RX thread of `p` counts a burst of its queue
    · obtain ⟨s, a, hs, ⟨u, hu⟩, hmem⟩ := reaches_batch hinit hp ipg
      exact hs.of_each hu (hall Nat) _ hmem
    · have ht := (ring_of_pair hinit hq).1
      obtain ⟨s, m, ms, hs, hpc⟩ := reaches_count_of_pair hinit hq hp hpq
      have hadd : ∃ u, step (lthreadSpawner cfg) s (.tx t .addRe) = some u := by
        rw [step, if_pos ht]
        simp only [stepTx, hpc]
        exact ⟨_, rfl⟩
      obtain ⟨u, hu⟩ := hadd
      -- `re[t]` is the first counter that `addRe` touches
      have hlt := hs.of_each hu (hall Nat) t
      rw [counterIndices, hspawned.threadId t ht] at hlt
      exact absurd (hlt List.mem_cons_self) (Nat.not_lt.mpr hge)
  · rintro ⟨hids, hpairs⟩
    have hreported := hreports.mpr fun p hp => (hids p hp).1
    refine ⟨hreported, fun M _ as => ?_⟩
    have hinv := ((isInvariant_quiet (M := M) hspawned).and (isInvariant_conserved hspawned)).and
      isInvariant_counts
    apply hinv.each
    rintro s a s' ⟨⟨hquiet, hconserved⟩, hcounts⟩ hs i hi
    unfold counterIndices at hi
    split at hi
    · obtain ⟨q, hq, rfl⟩ := Option.map_eq_some_iff.mp (Option.mem_toList.mp hi)
      obtain ⟨p, hp, -, rfl⟩ := (mem_rxQueueList_iff hinit).mp (List.mem_of_getElem? hq)
      exact (hids p hp).2
    · next t =>
        obtain ⟨ht, hs⟩ := step_tx hs
        rw [hspawned.threadId t ht] at hi
        rcases List.mem_cons.mp hi with rfl | hi
        · by_contra hge
          obtain ⟨q, x, hq, hx, hmem, hqueue⟩ := exists_pair hinit ht
          apply hquiet.addRe hconserved hcounts ht hs hx hmem
          exact hqueue (hpairs i q hq (Nat.le_of_not_lt hge))
        · split at hi
          · exact hreported i (List.mem_reverse.mp hi)
          · cases hi
    · cases hi

/-- One tuple and one pair. -/
theorem countersInBounds_iff_one_ring :
    ∃ cfg, acceptParams (fun _ => true) (fun _ => true) (fun _ => 0) [⟨0, 0, 2, 0⟩] [⟨4, 0⟩] =
        some cfg ∧
      (((∀ i ∈ reportIndices (lthreadSpawner cfg), i < rxRings) ∧
          ∀ (M : Type) [DecidableEq M] (as : List (Action M)),
            Each (step (lthreadSpawner cfg)) (CountersInBounds true (lthreadSpawner cfg))
              State.init as) ↔
        (∀ p ∈ [(⟨0, 0, 2, 0⟩ : RxThreadParams)],
            p.threadId.toNat < rxRings ∧ p.queueId.toNat < rxRings) ∧
          ∀ t q, [(⟨4, 0⟩ : TxThreadParams)][t]? = some q → rxRings ≤ t →
            ∀ p ∈ [(⟨0, 0, 2, 0⟩ : RxThreadParams)], p.threadId ≠ q.threadId) :=
  ⟨_, rfl, countersInBounds_iff true (fun _ => true) (fun _ => true) (fun _ => 0) [⟨0, 0, 2, 0⟩]
    [⟨4, 0⟩] _ rfl⟩

def elevenPairs : List TxThreadParams := (List.range 11).map fun t => ⟨UInt8.ofNat (4 + t), 0⟩

def elevenRings : Config :=
  (acceptParams (fun _ => true) (fun _ => true) (fun _ => 0) [⟨0, 0, 2, 0⟩] elevenPairs).getD
    Config.zero

/-- Ten bursts of one packet: the last one goes into ring `10` and is dequeued there. -/
def tenBursts : List (Action Nat) :=
  (List.range 10).flatMap (fun j =>
    [.rx 0 (.rxBurst [j]), .rx 0 (.enqueueBurst 1), .rx 0 .signal, .rx 0 .yield]) ++
    [.tx 10 .dequeueBurst]

/-- The last tx lthread adds to `re[10]`. -/
theorem not_countersInBounds_eleven_rings :
    acceptParams (fun _ => true) (fun _ => true) (fun _ => 0) [⟨0, 0, 2, 0⟩] elevenPairs =
        some elevenRings ∧
      (run (step (lthreadSpawner elevenRings)) State.init tenBursts).map (fun s =>
          ((s.tx 10).pc.held, counterIndices false (lthreadSpawner elevenRings) s (.tx 10 .addRe))) =
        some ([9], [10]) ∧
      ¬ ∀ as : List (Action Nat), Each (step (lthreadSpawner elevenRings))
        (CountersInBounds false (lthreadSpawner elevenRings)) State.init as := by
  have hrun : (run (step (lthreadSpawner elevenRings)) State.init tenBursts).map (fun s =>
      ((s.tx 10).pc.held, counterIndices false (lthreadSpawner elevenRings) s (.tx 10 .addRe))) =
        some ([9], [10]) := by decide +kernel
  refine ⟨rfl, hrun, fun hall => ?_⟩
  obtain ⟨s, hs, hend⟩ := Option.map_eq_some_iff.mp hrun
  obtain ⟨hheld, hindices⟩ := Prod.mk.inj hend
  have hadd : ∃ u, step (lthreadSpawner elevenRings) s (.tx 10 .addRe) = some u := by
    cases hpc : (s.tx 10).pc with
    | count burst =>
        simp only [step, stepTx, hpc]
        exact ⟨_, if_pos (by decide)⟩
    | _ =>
        rw [hpc] at hheld
        cases hheld
  obtain ⟨u, hu⟩ := hadd
  have hlt := Reaches.of_each ⟨_, hs⟩ hu hall
  unfold CountersInBounds at hlt
  rw [hindices] at hlt
  exact absurd (hlt 10 (List.mem_singleton_self 10)) (by decide)

end Lthread
end FloWatcher
