import FloWatcher.Lthread.Pipeline
import FloWatcher.Transition.Parties

/-!
# Where the packets of the lthread pipeline are

Whatever the interleaving, every mbuf received is in one place: with the rx lthread that received
it, in a ring, with the tx lthread that dequeued it, in `re` or lost; the lost ones are freed by the
rx lthread and the counted ones by the tx lthread, once each. `Conserved` says so with weights of
lists of mbufs in the place of numbers, and every action keeps it.
-/

namespace FloWatcher
namespace Lthread

open Transition

variable {M : Type} {cfg : Config}

/-! ## Waking up changes no packet -/

@[simp] theorem awake_held (th : TxThread M) : th.awake.pc.held = th.pc.held := by
  unfold TxThread.awake
  split
  · next hpc => rw [hpc]; rfl
  · rfl

@[simp] theorem awake_unfreed (th : TxThread M) : th.awake.pc.unfreed = th.pc.unfreed := by
  unfold TxThread.awake
  split
  · next hpc => rw [hpc]; rfl
  · rfl

@[simp] theorem awake_counted (th : TxThread M) : th.awake.counted = th.counted := by
  unfold TxThread.awake
  split <;> rfl

@[simp] theorem awake_freed (th : TxThread M) : th.awake.freed = th.freed := by
  unfold TxThread.awake
  split <;> rfl

/-! ## Sums over the threads and rings -/

section Total

variable {f : RxThread M → Nat} {g : TxThread M → Nat} {μ : List M → Nat}

theorem total_init (hf : f ((State.init : State M).rx 0) = 0)
    (hg : g ((State.init : State M).tx 0) = 0) (hμ : μ [] = 0) :
    State.total cfg f g μ State.init = 0 := by
  have hcontent : ∀ t, μ ((State.init : State M).content cfg t) = 0 := by
    intro t
    unfold State.content
    split <;> exact hμ
  have hrx : ∀ r, f ((State.init : State M).rx r) = 0 := fun r => hf
  have htx : ∀ t, g ((State.init : State M).tx t) = 0 := fun t => hg
  simp [State.total, hrx, htx, hcontent]

theorem total_setRx (f : RxThread M → Nat) (g : TxThread M → Nat) (μ : List M → Nat) (s : State M)
    {r : Nat} (hr : r < cfg.nRxThread) (th : RxThread M) :
    State.total cfg f g μ { s with rx := Function.update s.rx r th } + f (s.rx r) =
      s.total cfg f g μ + f th := by
  have hsum := sum_update (Finset.range cfg.nRxThread) f s.rx (Finset.mem_range.mpr hr) th
  have hcontent : ∀ t, State.content cfg { s with rx := Function.update s.rx r th } t =
      s.content cfg t := fun t => rfl
  simp only [State.total, hcontent]
  omega

theorem total_setTx (f : RxThread M → Nat) (g : TxThread M → Nat) (μ : List M → Nat) (s : State M)
    {t : Nat} (ht : t < cfg.nTxThread) (th : TxThread M) :
    State.total cfg f g μ { s with tx := Function.update s.tx t th } + g (s.tx t) =
      s.total cfg f g μ + g th := by
  have hsum := sum_update (Finset.range cfg.nTxThread) g s.tx (Finset.mem_range.mpr ht) th
  have hcontent : ∀ t', State.content cfg { s with tx := Function.update s.tx t th } t' =
      s.content cfg t' := fun t' => rfl
  simp only [State.total, hcontent]
  omega

/-- A ring belongs to one tx lthread, so changing it changes one summand. -/
theorem total_setRing (f : RxThread M → Nat) (g : TxThread M → Nat) (μ : List M → Nat)
    (hw : Wired cfg) (s : State M) {t : Nat} (ht : t < cfg.nTxThread) {x : Ring}
    (hx : (cfg.txThread t).ring = some x) (ms : List M) :
    State.total cfg f g μ { s with ring := Function.update s.ring x ms } + μ (s.ring x) =
      s.total cfg f g μ + μ ms := by
  have hsum := sum_update (Finset.range cfg.nTxThread) μ (s.content cfg) (Finset.mem_range.mpr ht) ms
  have hself : s.content cfg t = s.ring x := by
    rw [State.content, hx]
  have hcontent : ∀ t' ∈ Finset.range cfg.nTxThread,
      μ (State.content cfg { s with ring := Function.update s.ring x ms } t') =
        μ (Function.update (s.content cfg) t ms t') := by
    intro t' ht'
    rcases eq_or_ne t' t with rfl | hne
    · rw [Function.update_self, State.content, hx]
      simp only [Function.update_self]
    · obtain ⟨y, hy, -⟩ := hw.tx t' (Finset.mem_range.mp ht')
      have hyx : y ≠ x := by
        rintro rfl
        exact hne (hw.ring_inj (Finset.mem_range.mp ht') ht hy hx)
      rw [Function.update_of_ne hne, State.content, State.content, hy]
      simp only [Function.update_of_ne hyx]
  simp only [State.total]
  rw [Finset.sum_congr rfl hcontent]
  rw [hself] at hsum
  omega

/-- A signal changes nothing that is summed up. -/
theorem total_signal (f : RxThread M → Nat) (hg : ∀ th : TxThread M, g th.awake = g th)
    (μ : List M → Nat) (s : State M) (r w : Nat) :
    State.total cfg f g μ { s with tx := signal cfg r w s.tx } = s.total cfg f g μ := by
  have hcontent : ∀ t, State.content cfg { s with tx := signal cfg r w s.tx } t =
      s.content cfg t := fun t => rfl
  have htx : ∀ t, g (signal cfg r w s.tx t) = g (s.tx t) := by
    intro t
    unfold signal
    split
    · exact hg _
    · rfl
  simp only [State.total, hcontent, htx]

end Total

/-! ## The invariant -/

def RxThread.accounted (μ : List M → Nat) (th : RxThread M) : Nat := μ th.pc.held + μ th.lost

def TxThread.accounted (μ : List M → Nat) (th : TxThread M) : Nat := μ th.pc.held + μ th.counted

/-- Every packet lost is freed, or still to be freed. -/
def RxThread.Frees (th : RxThread M) : Prop := th.lost = th.freed ++ th.pc.unfreed

/-- Every packet counted is freed, or still to be freed. -/
def TxThread.Frees (th : TxThread M) : Prop := th.counted = th.freed ++ th.pc.unfreed

theorem polled_spec (conf : ThreadRxConf) (th : RxThread M) (burst : List M) :
    (th.polled conf burst).pc.held = burst ∧ (th.polled conf burst).pc.unfreed = [] ∧
      (th.polled conf burst).lost = th.lost ∧ (th.polled conf burst).freed = th.freed := by
  cases burst <;> exact ⟨rfl, rfl, rfl, rfl⟩

/-- One packet of a burst is freed. -/
theorem append_drop_succ {burst : List M} {k : Nat} {m : M} (hm : burst[k]? = some m)
    (freed : List M) : freed ++ burst.drop k = freed ++ [m] ++ burst.drop (k + 1) := by
  obtain ⟨hk, hget⟩ := List.getElem?_eq_some_iff.mp hm
  rw [List.append_assoc, List.singleton_append, ← hget, ← List.drop_eq_getElem_cons hk]

/-- **No packet disappears or is duplicated**, and rings are first in, first out. -/
structure Conserved [DecidableEq M] (cfg : Config) (s : State M) : Prop where
  place : ∀ μ, IsWeight μ →
    μ s.received = s.total cfg (RxThread.accounted μ) (TxThread.accounted μ) μ
  live : ∀ m, s.live cfg (List.count m) ≤ 1
  rejected : ∀ r < cfg.nRxThread, (s.rx r).Frees
  dequeued : ∀ t < cfg.nTxThread, (s.tx t).Frees
  re : ∀ t < cfg.nTxThread, s.re t = (s.tx t).counted.length
  fifo : ∀ t < cfg.nTxThread, ∀ x, (cfg.txThread t).ring = some x →
    s.enqueued x = (s.tx t).counted ++ (s.tx t).pc.held ++ s.ring x

/-- The spawner leaves the rings of the rx threads as they are. -/
theorem rxThread_lthreadSpawner (c : Config) (r : Nat) :
    ((lthreadSpawner c).rxThread r).ring = (c.rxThread r).ring := by
  dsimp only [lthreadSpawner]
  split <;> rfl

/-- And the rings and condition variables of the tx threads. -/
theorem txThread_lthreadSpawner (c : Config) (t : Nat) :
    ((lthreadSpawner c).txThread t).ring = (c.txThread t).ring ∧
      ((lthreadSpawner c).txThread t).ready = (c.txThread t).ready := by
  dsimp only [lthreadSpawner]
  split <;> exact ⟨rfl, rfl⟩

/-- The configuration that the lthreads run with: rings as `init_rx_rings` connects them, and
threads numbered by `lthread_spawner`. -/
structure Spawned (cfg : Config) : Prop where
  wired : Wired cfg
  threadId : ∀ t < cfg.nTxThread, (cfg.txThread t).threadId = t

theorem spawned_lthreadSpawner {c : Config} (hc : Wired c) : Spawned (lthreadSpawner c) := by
  refine ⟨⟨fun t ht => ?_, fun r x hx => ?_⟩, fun t ht => ?_⟩
  · obtain ⟨x, hx, hid⟩ := hc.tx t ht
    exact ⟨x, (txThread_lthreadSpawner c t).1.trans hx, hid⟩
  · rw [rxThread_lthreadSpawner] at hx
    obtain ⟨hid, hlt, hring⟩ := hc.rx r x hx
    exact ⟨hid, hlt, (txThread_lthreadSpawner c _).1.trans hring⟩
  · have hlt : t < c.nTxThread := ht
    dsimp only [lthreadSpawner]
    rw [if_pos hlt]

/-- A property of all threads after one of them has changed. -/
theorem forall_update {β : Type} {P : β → Prop} {n : Nat} {h : Nat → β} {i : Nat} {b : β}
    (hall : ∀ j < n, P (h j)) (hb : P b) : ∀ j < n, P (Function.update h i b j) := by
  intro j hj
  rcases eq_or_ne j i with rfl | hne
  · rwa [Function.update_self]
  · rw [Function.update_of_ne hne]
    exact hall j hj

/-! ## Steps -/

section Steps

variable [DecidableEq M] {s : State M}

theorem conserved_init : Conserved cfg (State.init : State M) where
  place μ hμ := by
    rw [total_init]
    · exact hμ.nil
    · simp [State.init, RxThread.accounted, RxPc.held, hμ.nil]
    · simp [State.init, TxThread.accounted, TxPc.held, hμ.nil]
    · exact hμ.nil
  live m := by
    rw [State.live, total_init]
    · exact Nat.zero_le 1
    · rfl
    · rfl
    · rfl
  rejected _ _ := rfl
  dequeued _ _ := rfl
  re _ _ := rfl
  fifo _ _ _ _ := rfl

/-- An action of an rx lthread on its own. -/
theorem Conserved.setRx (h : Conserved cfg s) {r : Nat} (hr : r < cfg.nRxThread)
    {th : RxThread M} (hplace : ∀ μ, IsWeight μ → th.accounted μ = (s.rx r).accounted μ)
    (hlive : ∀ m, th.pc.held.count m + th.pc.unfreed.count m ≤
      (s.rx r).pc.held.count m + (s.rx r).pc.unfreed.count m)
    (hfrees : th.Frees) (ringLoss : Nat) :
    Conserved cfg { s with rx := Function.update s.rx r th, ringLoss := ringLoss } where
  place μ hμ := by
    have hsum := total_setRx (RxThread.accounted μ) (TxThread.accounted μ) μ s hr th
    have hold := h.place μ hμ
    have hth := hplace μ hμ
    show μ s.received = State.total cfg (RxThread.accounted μ) (TxThread.accounted μ) μ
      { s with rx := Function.update s.rx r th }
    omega
  live m := by
    have hsum := total_setRx (fun th => th.pc.held.count m + th.pc.unfreed.count m)
      (fun th => th.pc.held.count m + th.pc.unfreed.count m) (List.count m) s hr th
    have hold := h.live m
    have hth := hlive m
    show State.live cfg (List.count m) { s with rx := Function.update s.rx r th } ≤ 1
    unfold State.live at hold ⊢
    omega
  rejected := forall_update h.rejected hfrees
  dequeued := h.dequeued
  re := h.re
  fifo := h.fifo

/-- An action of a tx lthread on its own. -/
theorem Conserved.setTx (h : Conserved cfg s) {t : Nat} (ht : t < cfg.nTxThread)
    {th : TxThread M} (hseq : th.counted ++ th.pc.held = (s.tx t).counted ++ (s.tx t).pc.held)
    (hlive : ∀ m, th.pc.held.count m + th.pc.unfreed.count m ≤
      (s.tx t).pc.held.count m + (s.tx t).pc.unfreed.count m)
    (hfrees : th.Frees) {re : Nat → Nat} (hre : re t = th.counted.length)
    (hre' : ∀ t', t' ≠ t → re t' = s.re t') :
    Conserved cfg { s with tx := Function.update s.tx t th, re := re } where
  place μ hμ := by
    have hsum := total_setTx (RxThread.accounted μ) (TxThread.accounted μ) μ s ht th
    have hold := h.place μ hμ
    have hth : th.accounted μ = (s.tx t).accounted μ := by
      have hweight := congrArg μ hseq
      rw [hμ.append, hμ.append] at hweight
      unfold TxThread.accounted
      omega
    show μ s.received = State.total cfg (RxThread.accounted μ) (TxThread.accounted μ) μ
      { s with tx := Function.update s.tx t th }
    omega
  live m := by
    have hsum := total_setTx (fun th => th.pc.held.count m + th.pc.unfreed.count m)
      (fun th => th.pc.held.count m + th.pc.unfreed.count m) (List.count m) s ht th
    have hold := h.live m
    have hth := hlive m
    show State.live cfg (List.count m) { s with tx := Function.update s.tx t th } ≤ 1
    unfold State.live at hold ⊢
    omega
  rejected := h.rejected
  dequeued := forall_update h.dequeued hfrees
  re t' ht' := by
    rcases eq_or_ne t' t with rfl | hne
    · simpa only [Function.update_self] using hre
    · simp only [Function.update_of_ne hne]
      rw [hre' t' hne, h.re t' ht']
  fifo t' ht' x hx := by
    rcases eq_or_ne t' t with rfl | hne
    · simp only [Function.update_self]
      rw [hseq]
      exact h.fifo t' ht' x hx
    · simp only [Function.update_of_ne hne]
      exact h.fifo t' ht' x hx

/-- An rx lthread goes on with the packets that it has. -/
theorem Conserved.goOnRx (h : Conserved cfg s) {r : Nat} (hr : r < cfg.nRxThread) {th : RxThread M}
    (hheld : th.pc.held = (s.rx r).pc.held) (hunfreed : th.pc.unfreed = (s.rx r).pc.unfreed)
    (hlost : th.lost = (s.rx r).lost) (hfreed : th.freed = (s.rx r).freed) :
    Conserved cfg { s with rx := Function.update s.rx r th } := by
  apply h.setRx hr _ _ _ s.ringLoss
  · intro μ _
    rw [RxThread.accounted, hheld, hlost]
    rfl
  · intro m
    rw [hheld, hunfreed]
  · show th.lost = th.freed ++ th.pc.unfreed
    rw [hlost, hfreed, hunfreed]
    exact h.rejected r hr

/-- A tx lthread goes on with the packets that it has. -/
theorem Conserved.goOnTx (h : Conserved cfg s) {t : Nat} (ht : t < cfg.nTxThread) {th : TxThread M}
    (hheld : th.pc.held = (s.tx t).pc.held) (hunfreed : th.pc.unfreed = (s.tx t).pc.unfreed)
    (hcounted : th.counted = (s.tx t).counted) (hfreed : th.freed = (s.tx t).freed) :
    Conserved cfg { s with tx := Function.update s.tx t th } := by
  show Conserved cfg { s with tx := Function.update s.tx t th, re := s.re }
  apply h.setTx ht
  · rw [hheld, hcounted]
  · intro m
    rw [hheld, hunfreed]
  · show th.counted = th.freed ++ th.pc.unfreed
    rw [hcounted, hfreed, hunfreed]
    exact h.dequeued t ht
  · rw [hcounted]
    exact h.re t ht
  · exact fun _ _ => rfl

/-- A signal. -/
theorem Conserved.signal (h : Conserved cfg s) (r w : Nat) :
    Conserved cfg { s with tx := signal cfg r w s.tx } := by
  have hsame : ∀ t, (Lthread.signal cfg r w s.tx t).pc.held = (s.tx t).pc.held ∧
      (Lthread.signal cfg r w s.tx t).pc.unfreed = (s.tx t).pc.unfreed ∧
      (Lthread.signal cfg r w s.tx t).counted = (s.tx t).counted ∧
      (Lthread.signal cfg r w s.tx t).freed = (s.tx t).freed := by
    intro t
    unfold Lthread.signal
    split
    · exact ⟨awake_held _, awake_unfreed _, awake_counted _, awake_freed _⟩
    · exact ⟨rfl, rfl, rfl, rfl⟩
  refine ⟨fun μ hμ => ?_, fun m => ?_, h.rejected, fun t ht => ?_, fun t ht => ?_, fun t ht x hx => ?_⟩
  · rw [total_signal _ (fun th => by rw [TxThread.accounted, awake_held, awake_counted]; rfl)]
    exact h.place μ hμ
  · have hold := h.live m
    unfold State.live at hold ⊢
    rw [total_signal _ (fun th => by rw [awake_held, awake_unfreed])]
    exact hold
  · obtain ⟨-, hunfreed, hcounted, hfreed⟩ := hsame t
    have hold := h.dequeued t ht
    unfold TxThread.Frees at hold ⊢
    rw [hunfreed, hcounted, hfreed]
    exact hold
  · rw [(hsame t).2.2.1]
    exact h.re t ht
  · rw [(hsame t).1, (hsame t).2.2.1]
    exact h.fifo t ht x hx

/-- A burst arrives: its mbufs were free. -/
theorem Conserved.receive (h : Conserved cfg s) {r : Nat} (hr : r < cfg.nRxThread)
    {th : RxThread M} {burst : List M} (hold : (s.rx r).pc.held = [] ∧ (s.rx r).pc.unfreed = [])
    (hth : th.pc.held = burst ∧ th.pc.unfreed = [])
    (hghost : th.lost = (s.rx r).lost ∧ th.freed = (s.rx r).freed)
    (hfree : ∀ m ∈ burst, burst.count m + s.live cfg (List.count m) ≤ 1) :
    Conserved cfg
      { s with rx := Function.update s.rx r th, received := s.received ++ burst } where
  place μ hμ := by
    have hsum := total_setRx (RxThread.accounted μ) (TxThread.accounted μ) μ s hr th
    have hplace := h.place μ hμ
    have hbefore : (s.rx r).accounted μ = μ (s.rx r).lost := by
      rw [RxThread.accounted, hold.1, hμ.nil, Nat.zero_add]
    have hafter : th.accounted μ = μ burst + μ (s.rx r).lost := by
      rw [RxThread.accounted, hth.1, hghost.1]
    show μ (s.received ++ burst) = State.total cfg (RxThread.accounted μ) (TxThread.accounted μ) μ
      { s with rx := Function.update s.rx r th }
    rw [hμ.append]
    omega
  live m := by
    have hsum := total_setRx (fun th => th.pc.held.count m + th.pc.unfreed.count m)
      (fun th => th.pc.held.count m + th.pc.unfreed.count m) (List.count m) s hr th
    have hlive := h.live m
    rw [hold.1, hold.2, hth.1, hth.2, List.count_nil] at hsum
    show State.live cfg (List.count m) { s with rx := Function.update s.rx r th } ≤ 1
    rcases em (m ∈ burst) with hm | hm
    · have hfree' := hfree m hm
      unfold State.live at hlive hfree' ⊢
      omega
    · rw [List.count_eq_zero_of_not_mem hm] at hsum
      unfold State.live at hlive ⊢
      omega
  rejected := by
    apply forall_update h.rejected
    have hfrees := h.rejected r hr
    unfold RxThread.Frees at hfrees ⊢
    rw [hghost.1, hghost.2, hth.2, hfrees, hold.2]
  dequeued := h.dequeued
  re := h.re
  fifo := h.fifo

/-- A ring accepts the first part of a burst. -/
theorem Conserved.accept (hcfg : Spawned cfg) (h : Conserved cfg s) {r : Nat}
    (hr : r < cfg.nRxThread) {x : Ring} (hx : x ∈ (cfg.rxThread r).ring) {th : RxThread M}
    {accepted : List M} (hold : (s.rx r).pc.held = accepted ++ th.pc.held)
    (hunfreed : th.pc.unfreed = (s.rx r).pc.unfreed)
    (hghost : th.lost = (s.rx r).lost ∧ th.freed = (s.rx r).freed) :
    Conserved cfg
      { s with
        rx := Function.update s.rx r th
        ring := Function.update s.ring x (s.ring x ++ accepted)
        enqueued := Function.update s.enqueued x (s.enqueued x ++ accepted) } := by
  obtain ⟨-, ht, htx⟩ := hcfg.wired.rx r x hx
  refine ⟨fun μ hμ => ?_, fun m => ?_, ?_, h.dequeued, h.re, fun t ht' y hy => ?_⟩
  -- every weight: what the thread gives up is what the ring gains
  · have hrx := total_setRx (RxThread.accounted μ) (TxThread.accounted μ) μ
      { s with ring := Function.update s.ring x (s.ring x ++ accepted) } hr th
    have hring := total_setRing (RxThread.accounted μ) (TxThread.accounted μ) μ hcfg.wired s ht htx
      (s.ring x ++ accepted)
    have hplace := h.place μ hμ
    have hbefore : (s.rx r).accounted μ = μ accepted + th.accounted μ := by
      rw [RxThread.accounted, RxThread.accounted, hold, hμ.append, hghost.1, Nat.add_assoc]
    rw [hμ.append] at hring
    show μ s.received = State.total cfg (RxThread.accounted μ) (TxThread.accounted μ) μ
      { s with
        rx := Function.update s.rx r th
        ring := Function.update s.ring x (s.ring x ++ accepted) }
    dsimp only at hrx
    omega
  · have hrx := total_setRx (fun th => th.pc.held.count m + th.pc.unfreed.count m)
      (fun th => th.pc.held.count m + th.pc.unfreed.count m) (List.count m)
      { s with ring := Function.update s.ring x (s.ring x ++ accepted) } hr th
    have hring := total_setRing (fun th => th.pc.held.count m + th.pc.unfreed.count m)
      (fun th => th.pc.held.count m + th.pc.unfreed.count m) (List.count m) hcfg.wired s ht htx
      (s.ring x ++ accepted)
    have hlive := h.live m
    rw [List.count_append] at hring
    dsimp only at hrx
    rw [hold, List.count_append, hunfreed] at hrx
    show State.live cfg (List.count m)
      { s with
        rx := Function.update s.rx r th
        ring := Function.update s.ring x (s.ring x ++ accepted) } ≤ 1
    unfold State.live at hlive ⊢
    omega
  · apply forall_update h.rejected
    have hfrees := h.rejected r hr
    unfold RxThread.Frees at hfrees ⊢
    rw [hghost.1, hghost.2, hunfreed, hfrees]
  -- the ring and its history grow by the same packets at the same end
  · have hfifo := h.fifo t ht' y hy
    rcases eq_or_ne y x with rfl | hne
    · simp only [Function.update_self]
      rw [hfifo, List.append_assoc]
    · simp only [Function.update_of_ne hne]
      exact hfifo

/-- A tx lthread takes the first part of its ring. -/
theorem Conserved.take (hcfg : Spawned cfg) (h : Conserved cfg s) {t : Nat}
    (ht : t < cfg.nTxThread) {x : Ring} (hx : (cfg.txThread t).ring = some x) {th : TxThread M}
    {rest : List M} (hold : (s.tx t).pc.held = [] ∧ (s.tx t).pc.unfreed = [])
    (hring : s.ring x = th.pc.held ++ rest) (hunfreed : th.pc.unfreed = [])
    (hghost : th.counted = (s.tx t).counted ∧ th.freed = (s.tx t).freed) :
    Conserved cfg
      { s with
        tx := Function.update s.tx t th
        ring := Function.update s.ring x rest } := by
  refine ⟨fun μ hμ => ?_, fun m => ?_, h.rejected, ?_, fun t' ht' => ?_, fun t' ht' y hy => ?_⟩
  · have htx := total_setTx (RxThread.accounted μ) (TxThread.accounted μ) μ
      { s with ring := Function.update s.ring x rest } ht th
    have hsum := total_setRing (RxThread.accounted μ) (TxThread.accounted μ) μ hcfg.wired s ht hx rest
    have hplace := h.place μ hμ
    have hbefore : (s.tx t).accounted μ = μ (s.tx t).counted := by
      rw [TxThread.accounted, hold.1, hμ.nil, Nat.zero_add]
    have hafter : th.accounted μ = μ th.pc.held + μ (s.tx t).counted := by
      rw [TxThread.accounted, hghost.1]
    rw [hring, hμ.append] at hsum
    show μ s.received = State.total cfg (RxThread.accounted μ) (TxThread.accounted μ) μ
      { s with tx := Function.update s.tx t th, ring := Function.update s.ring x rest }
    dsimp only at htx
    omega
  · have htx := total_setTx (fun th => th.pc.held.count m + th.pc.unfreed.count m)
      (fun th => th.pc.held.count m + th.pc.unfreed.count m) (List.count m)
      { s with ring := Function.update s.ring x rest } ht th
    have hsum := total_setRing (fun th => th.pc.held.count m + th.pc.unfreed.count m)
      (fun th => th.pc.held.count m + th.pc.unfreed.count m) (List.count m) hcfg.wired s ht hx rest
    have hlive := h.live m
    rw [hring, List.count_append] at hsum
    dsimp only at htx
    rw [hold.1, hold.2, hunfreed, List.count_nil] at htx
    show State.live cfg (List.count m)
      { s with tx := Function.update s.tx t th, ring := Function.update s.ring x rest } ≤ 1
    unfold State.live at hlive ⊢
    omega
  · apply forall_update h.dequeued
    have hfrees := h.dequeued t ht
    unfold TxThread.Frees at hfrees ⊢
    rw [hghost.1, hghost.2, hunfreed, hfrees, hold.2]
  · rcases eq_or_ne t' t with rfl | hne
    · simp only [Function.update_self]
      rw [hghost.1]
      exact h.re t' ht'
    · simp only [Function.update_of_ne hne]
      exact h.re t' ht'
  · have hfifo := h.fifo t' ht' y hy
    rcases eq_or_ne t' t with rfl | hne
    · cases hx.symm.trans hy
      simp only [Function.update_self]
      rw [hfifo, hring, hold.1, hghost.1, List.append_nil, List.append_assoc]
    -- each ring has one TX thread, so the rings of the others stay as they are
    · have hyx : y ≠ x := by
        rintro rfl
        exact hne (hcfg.wired.ring_inj ht' ht hy hx)
      simp only [Function.update_of_ne hne, Function.update_of_ne hyx]
      exact hfifo

omit [DecidableEq M] in
/-- Behind `signal`, nothing is held when the whole burst was accepted. -/
theorem held_counted {r : Nat} {burst : List M} {ret : Nat}
    (hpc : (s.rx r).pc = .signal burst ret) :
    (if ret < burst.length then RxPc.readLoss burst ret else .yield).held = (s.rx r).pc.held ∧
      (if ret < burst.length then RxPc.readLoss burst ret else .yield).unfreed =
        (s.rx r).pc.unfreed := by
  rw [hpc]
  split
  · exact ⟨rfl, rfl⟩
  · next hge => exact ⟨(List.drop_eq_nil_of_le (Nat.le_of_not_lt hge)).symm, rfl⟩

/-- **What an rx lthread does keeps all packets.** -/
theorem Conserved.stepRx (hcfg : Spawned cfg) (h : Conserved cfg s) {r : Nat}
    (hr : r < cfg.nRxThread) {a : RxAction M} {s' : State M} (hs : stepRx cfg s r a = some s') :
    Conserved cfg s' := by
  have hfrees := h.rejected r hr
  unfold RxThread.Frees at hfrees
  cases rxStep_of_stepRx hs with
  | @rxBurst burst hpc hi hlen hfree =>
      obtain ⟨hheld, hunfreed, hlost, hfreed⟩ := polled_spec (cfg.rxThread r) (s.rx r) burst
      exact h.receive hr (by rw [hpc]; exact ⟨rfl, rfl⟩) ⟨hheld, hunfreed⟩ ⟨hlost, hfreed⟩ hfree
  | @enqueueBurst burst ret x hpc hx hret =>
      apply h.accept hcfg hr (List.mem_of_getElem? hx)
      · rw [hpc]
        exact (List.take_append_drop ret burst).symm
      · rw [hpc]
        rfl
      · exact ⟨rfl, rfl⟩
  | signal hpc hsent =>
      obtain ⟨hheld, hunfreed⟩ := held_counted hpc
      exact (h.signal r _).goOnRx hr hheld hunfreed rfl rfl
  | noSignal hpc hsent =>
      obtain ⟨hheld, hunfreed⟩ := held_counted hpc
      exact h.goOnRx hr hheld hunfreed rfl rfl
  | readLoss hpc => exact h.goOnRx hr (by rw [hpc]; rfl) (by rw [hpc]; rfl) rfl rfl
  -- the packets the ring refused: lost from here on, and still to be freed
  | @writeLoss burst ret loss hpc =>
      apply h.setRx hr
      · intro μ hμ
        rw [RxThread.accounted, RxThread.accounted, hpc]
        show μ [] + μ (_ ++ burst.drop ret) = μ (burst.drop ret) + _
        rw [hμ.nil, hμ.append]
        omega
      · intro m
        rw [hpc]
        show List.count m [] + List.count m (burst.drop ret) ≤ List.count m (burst.drop ret) + _
        rw [List.count_nil]
        omega
      · rw [hpc] at hfrees
        show (s.rx r).lost ++ burst.drop ret = (s.rx r).freed ++ burst.drop ret
        rw [hfrees]
        exact congrArg (· ++ burst.drop ret) (List.append_nil _)
  | @free burst k m hpc hm =>
      rw [hpc] at hfrees
      apply h.setRx hr
      · intro μ _
        rw [RxThread.accounted, RxThread.accounted, hpc]
        rfl
      · intro m'
        rw [hpc]
        show List.count m' [] + List.count m' (burst.drop (k + 1)) ≤
          List.count m' [] + List.count m' (burst.drop k)
        have hweight := (isWeight_count m').drop_of_getElem? hm
        omega
      · exact hfrees.trans (append_drop_succ hm _)
  | allFree hpc hk =>
      refine h.goOnRx hr ?_ ?_ rfl rfl
      · rw [hpc]
        rfl
      · rw [hpc]
        exact (List.drop_eq_nil_of_le hk).symm
  | yield hpc => exact h.goOnRx hr (by rw [hpc]; rfl) (by rw [hpc]; rfl) rfl rfl

/-- **What a tx lthread does keeps all packets.** -/
theorem Conserved.stepTx (hcfg : Spawned cfg) (h : Conserved cfg s) {t : Nat}
    (ht : t < cfg.nTxThread) {a : TxAction} {s' : State M} (hs : stepTx cfg s t a = some s') :
    Conserved cfg s' := by
  have hfrees := h.dequeued t ht
  have hre := h.re t ht
  unfold TxThread.Frees at hfrees
  cases txStep_of_stepTx hs with
  | empty hpc hx hring => exact h.goOnTx ht (by rw [hpc]; rfl) (by rw [hpc]; rfl) rfl rfl
  | @dequeueBurst x hpc hx hring =>
      rw [hpc] at hfrees
      apply h.take hcfg ht hx
      · rw [hpc]
        exact ⟨rfl, rfl⟩
      · exact (List.take_append_drop maxPktBurst (s.ring x)).symm
      · rfl
      · exact ⟨rfl, rfl⟩
  -- the counted burst is no longer held, and none of it is freed yet
  | @addRe burst hpc =>
      rw [hpc] at hfrees
      apply h.setTx ht
      · rw [hpc]
        exact List.append_nil _
      · intro m
        rw [hpc]
        show List.count m [] + List.count m (burst.drop 0) ≤ List.count m burst + List.count m []
        rw [List.drop_zero]
        omega
      · show (s.tx t).counted ++ burst = (s.tx t).freed ++ burst.drop 0
        rw [hfrees, List.drop_zero]
        exact congrArg (· ++ burst) (List.append_nil _)
      · rw [hcfg.threadId t ht, Function.update_self, hre]
        exact List.length_append.symm
      · intro t' hne
        rw [hcfg.threadId t ht, Function.update_of_ne hne]
  | @packet burst buf m hpc hm =>
      rw [hpc] at hfrees
      apply h.setTx ht
      · rw [hpc]
        rfl
      · intro m'
        rw [hpc]
        show List.count m' [] + List.count m' (burst.drop (buf + 1)) ≤
          List.count m' [] + List.count m' (burst.drop buf)
        have hweight := (isWeight_count m').drop_of_getElem? hm
        omega
      · exact hfrees.trans (append_drop_succ hm _)
      · exact hre
      · exact fun _ _ => rfl
  | allPackets hpc hbuf =>
      refine h.goOnTx ht ?_ ?_ rfl rfl
      · rw [hpc]
        rfl
      · rw [hpc]
        exact (List.drop_eq_nil_of_le hbuf).symm
  | condWait hpc => exact h.goOnTx ht (by rw [hpc]; rfl) (by rw [hpc]; rfl) rfl rfl
  | wake hpc => exact h.goOnTx ht (by rw [hpc]; rfl) (by rw [hpc]; rfl) rfl rfl

theorem isInvariant_conserved (hcfg : Spawned cfg) :
    IsInvariant (step cfg) (State.init : State M) (Conserved cfg) where
  init := conserved_init
  step s a s' h hs := by
    cases a with
    | rx r a =>
        obtain ⟨hr, hs⟩ := step_rx hs
        exact h.stepRx hcfg hr hs
    | tx t a =>
        obtain ⟨ht, hs⟩ := step_tx hs
        exact h.stepTx hcfg ht hs

end Steps

end Lthread
end FloWatcher
