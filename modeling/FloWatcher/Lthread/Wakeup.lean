import FloWatcher.Lthread.Accounting

/-!
# Are wakeups lost?

A tx lthread that finds its ring empty goes to wait on its condition variable, and the rx lthread
signals the variable whenever another `BURST_SIZE` packets have gone into the ring. The empty
dequeue and `lthread_cond_wait` are separate statements, and a signal that nobody waits for is not
remembered: when it falls between the two, the tx lthread sleeps over a ring that it was told to
empty. `wakeupsKept_of_heard` says that nothing else goes wrong.
-/

namespace FloWatcher
namespace Lthread

open Transition

variable {M : Type} {cfg : Config}

/-! ## Who signals whom -/

/-- Tx threads `0 … k - 1` wait for the rx thread that fills their ring, each on a condition
variable of its own. -/
structure SignalledTo (c : Config) (k : Nat) : Prop where
  wired : WiredTo c k
  ready : ∀ t < k, ∀ x, (c.txThread t).ring = some x →
    ∃ w, (c.txThread t).ready = some (x.rxThreadId, w) ∧
      (c.rxThread x.rxThreadId).ring[w]? = some x
  nodup : ∀ r, (c.rxThread r).ring.Nodup

/-- All tx threads do. -/
def Signalled (c : Config) : Prop := SignalledTo c c.nTxThread

theorem signalledTo_connect {rteRingCreate : String → Bool} {rteLcoreToSocketId : Nat → Nat}
    {c c' : Config} {k : Nat} (hc : SignalledTo c k)
    (h : connect rteRingCreate rteLcoreToSocketId true c k = .ok c') :
    SignalledTo c' (k + 1) ∧ c'.nTxThread = c.nTxThread := by
  obtain ⟨hwired, hready, hnodup⟩ := hc
  obtain ⟨hwired', hn⟩ := wiredTo_connect hwired h
  obtain ⟨-, ring, -, hid, rfl⟩ := connect_ok h
  refine ⟨⟨hwired', ?_, ?_⟩, hn⟩
  · intro t ht x hx
    rcases eq_or_ne t k with rfl | hne
    · simp only [Function.update_self, Option.some.injEq] at hx
      subst hx
      refine ⟨(c.rxThread ring.rxThreadId).ring.length, ?_, ?_⟩
      · simp only [Function.update_self, if_true]
      · simp only [Function.update_self, List.getElem?_concat_length]
    · simp only [Function.update_of_ne hne] at hx ⊢
      obtain ⟨w, hw, hget⟩ := hready t (by omega) x hx
      refine ⟨w, hw, ?_⟩
      rcases eq_or_ne x.rxThreadId ring.rxThreadId with hr | hr
      · have hlt := (List.getElem?_eq_some_iff.mp hget).1
        simp only [hr, Function.update_self] at hget hlt ⊢
        rw [List.getElem?_append_left hlt, hget]
      · simp only [Function.update_of_ne hr, hget]
  · intro r
    rcases eq_or_ne r ring.rxThreadId with rfl | hr
    · simp only [Function.update_self]
      refine List.nodup_append.mpr ⟨hnodup _, List.nodup_singleton ring, ?_⟩
      -- the rings that are there lead to earlier tx threads
      intro x hx y hy hxy
      obtain rfl := List.mem_singleton.mp hy
      have hlt := (hwired.rx _ x hx).2.1
      rw [hxy] at hlt
      omega
    · simp only [Function.update_of_ne hr]
      exact hnodup r

/-- **Who signals whom in the program.** -/
theorem signalled_initThreads {rteRingCreate : String → Bool} {rteLcoreToSocketId : Nat → Nat}
    {rx : List RxThreadParams} {tx : List TxThreadParams} {c : Config}
    (h : initThreads rteRingCreate rteLcoreToSocketId rx tx = some c) : Signalled c := by
  apply initThreads_induct (P := fun k c => SignalledTo c k) _ _ h
  · intro c₀ hc₀
    have hring : ∀ r, ((initTxThreads tx c₀).rxThread r).ring = [] := by
      intro r
      rw [rxThread_initTxThreads, ring_initRxQueues hc₀ r]
      rfl
    refine ⟨⟨fun t ht => absurd ht (Nat.not_lt_zero t), fun r ring hmem => ?_⟩,
      fun t ht => absurd ht (Nat.not_lt_zero t), fun r => ?_⟩
    · rw [hring] at hmem
      exact absurd hmem List.not_mem_nil
    · rw [hring]
      exact List.nodup_nil
  · intro k d d' hd hconnect
    exact signalledTo_connect hd hconnect

/-- Whose ring is in the array of an rx thread is signalled there. -/
theorem Signalled.ready_eq (hcfg : Signalled cfg) {t r w : Nat} {x : Ring} (ht : t < cfg.nTxThread)
    (hx : (cfg.txThread t).ring = some x) (hw : (cfg.rxThread r).ring[w]? = some x) :
    (cfg.txThread t).ready = some (r, w) := by
  obtain ⟨hwired, hready, hnodup⟩ := hcfg
  obtain ⟨w', hw', hget⟩ := hready t ht x hx
  obtain ⟨rfl, -, -⟩ := hwired.rx r x (List.mem_of_getElem? hw)
  have hidx : w' = w :=
    (List.getElem?_inj (List.getElem?_eq_some_iff.mp hget).1 (hnodup _)).mp (hget.trans hw.symm)
  rw [hw', hidx]

/-! ## What the program promises -/

def RxPc.Between : RxPc M → Prop
  | .poll | .yield => True
  | _ => False

/-- An rx lthread has counted in `len` what it put into a ring. -/
def RxPc.Settled : RxPc M → Prop
  | .signal _ _ => False
  | _ => True

/-- A tx lthread has found its ring empty and has not been woken since. -/
def TxPc.Waits : TxPc M → Prop
  | .wait | .blocked => True
  | _ => False

/-- **No wakeup is lost**: a tx lthread that is blocked while the rx lthread that fills its ring is
between bursts has fewer than `BURST_SIZE` packets in the ring. -/
def WakeupsKept (cfg : Config) (s : State M) : Prop :=
  ∀ t < cfg.nTxThread, ∀ x r w, (cfg.txThread t).ring = some x →
    (cfg.txThread t).ready = some (r, w) → (s.tx t).pc = .blocked → (s.rx r).pc.Between →
      (s.ring x).length < burstSize

/-- A signal that is sent is not sent between the empty dequeue and the wait of the tx lthread that
it is meant for. -/
def Heard (cfg : Config) (s : State M) : Action M → Prop
  | .rx r .signal =>
      match (s.rx r).pc with
      | .signal _ ret =>
          burstSize ≤ (s.rx r).len (s.rx r).workerId + ret →
            ∀ t < cfg.nTxThread, (cfg.txThread t).ready = some (r, (s.rx r).workerId) →
              (s.tx t).pc ≠ .wait
      | _ => True
  | _ => True

/-! ## What a waiting lthread sleeps over -/

/-- What is in ring `w`, but not in `len[w]` yet. -/
def RxThread.pending (th : RxThread M) (w : Nat) : Nat :=
  match th.pc with
  | .signal _ ret => if th.workerId = w then ret else 0
  | _ => 0

/-- While a tx lthread waits, `len` counts what goes into its ring. -/
structure Metered (cfg : Config) (s : State M) : Prop where
  len : ∀ r w, (s.rx r).len w < burstSize
  ring : ∀ t < cfg.nTxThread, ∀ x r w, (cfg.txThread t).ring = some x →
    (cfg.txThread t).ready = some (r, w) → (s.tx t).pc.Waits →
      (s.ring x).length ≤ (s.rx r).len w + (s.rx r).pending w

theorem Metered.wakeupsKept {s : State M} (h : Metered cfg s) : WakeupsKept cfg s := by
  intro t ht x r w hx hready hblocked hbetween
  have hlen := h.len r w
  have hring := h.ring t ht x r w hx hready (by rw [hblocked]; trivial)
  have hpending : (s.rx r).pending w = 0 := by
    unfold RxThread.pending
    split
    · next hpc =>
        rw [hpc] at hbetween
        exact hbetween.elim
    · rfl
  omega

theorem metered_init : Metered cfg (State.init : State M) :=
  ⟨fun _ _ => Nat.succ_pos 255, fun _ _ _ _ _ _ _ _ => Nat.zero_le _⟩

/-- A signal wakes the tx lthreads that wait for it, and no other. -/
theorem waits_signal {r w t : Nat} {tx : Nat → TxThread M}
    (h : (signal cfg r w tx t).pc.Waits) :
    (tx t).pc.Waits ∧ ((cfg.txThread t).ready = some (r, w) → (tx t).pc = .wait) := by
  unfold signal at h
  split at h
  · unfold TxThread.awake at h
    split at h
    · exact h.elim
    · next hne =>
        refine ⟨h, fun _ => ?_⟩
        cases hpc : (tx t).pc with
        | wait => rfl
        | blocked => exact absurd hpc hne
        | _ =>
            rw [hpc] at h
            exact h.elim
  · next hne => exact ⟨h, fun hready => absurd hready hne⟩

/-- An action of rx lthread `r` that leaves the rings and the tx lthreads alone. -/
theorem Metered.setRx {s : State M} (h : Metered cfg s) {r : Nat} {th : RxThread M}
    (hlen : th.len = (s.rx r).len) (hold : ∀ w, (s.rx r).pending w = 0) (ringLoss : Nat)
    (received : List M) :
    Metered cfg
      { s with rx := Function.update s.rx r th, ringLoss := ringLoss, received := received } where
  len := by
    intro r' w
    rcases eq_or_ne r' r with rfl | hr
    · simp only [Function.update_self, hlen]
      exact h.len r' w
    · simp only [Function.update_of_ne hr]
      exact h.len r' w
  ring := by
    intro t ht x r' w hx hready hwaits
    have hring := h.ring t ht x r' w hx hready hwaits
    rcases eq_or_ne r' r with rfl | hr
    · simp only [Function.update_self, hlen]
      rw [hold w] at hring
      exact hring.trans (Nat.le_add_right _ _)
    · simp only [Function.update_of_ne hr]
      exact hring

/-- An action of tx lthread `t` that may take packets off its ring. -/
theorem Metered.setTx {s : State M} (h : Metered cfg s) {t : Nat} {th : TxThread M}
    {ring : Ring → List M} (re : Nat → Nat) (hring : ∀ x, (ring x).length ≤ (s.ring x).length)
    (hwaits : th.pc.Waits → (s.tx t).pc.Waits ∨
      ∀ x, (cfg.txThread t).ring = some x → ring x = []) :
    Metered cfg { s with tx := Function.update s.tx t th, ring := ring, re := re } where
  len := h.len
  ring := by
    intro t' ht' x r w hx hready hw
    rcases eq_or_ne t' t with rfl | hne
    · simp only [Function.update_self] at hw
      rcases hwaits hw with hold | hempty
      · exact (hring x).trans (h.ring t' ht' x r w hx hready hold)
      · show (ring x).length ≤ _
        rw [hempty x hx]
        exact Nat.zero_le _
    · simp only [Function.update_of_ne hne] at hw
      exact (hring x).trans (h.ring t' ht' x r w hx hready hw)

theorem Metered.stepTx {s : State M} (h : Metered cfg s) {t : Nat} {a : TxAction} {s' : State M}
    (hs : stepTx cfg s t a = some s') : Metered cfg s' := by
  cases txStep_of_stepTx hs with
  | @empty x hpc hx hempty =>
      -- the ring is empty when the lthread goes to wait
      refine h.setTx s.re (fun _ => le_rfl) fun _ => Or.inr fun y hy => ?_
      rw [hx] at hy
      cases hy
      exact hempty
  | @dequeueBurst x hpc hx hring =>
      apply h.setTx s.re
      · intro y
        rcases eq_or_ne y x with rfl | hy
        · rw [Function.update_self, List.length_drop]
          exact Nat.sub_le ..
        · rw [Function.update_of_ne hy]
      · exact fun hwaits => hwaits.elim
  | addRe hpc => exact h.setTx _ (fun _ => le_rfl) fun hwaits => hwaits.elim
  | packet hpc hm => exact h.setTx s.re (fun _ => le_rfl) fun hwaits => hwaits.elim
  | allPackets hpc hbuf => exact h.setTx s.re (fun _ => le_rfl) fun hwaits => hwaits.elim
  | condWait hpc => exact h.setTx s.re (fun _ => le_rfl) fun _ => Or.inl (by rw [hpc]; trivial)
  | wake hpc => exact h.setTx s.re (fun _ => le_rfl) fun hwaits => hwaits.elim

/-- The packets that go into a ring are pending until `len` counts them. -/
theorem Metered.enqueue (hcfg : Signalled cfg) {s : State M} (h : Metered cfg s) {r : Nat}
    {x : Ring} {burst : List M} {ret : Nat} (hpc : (s.rx r).pc = .enqueue burst)
    (hx : (cfg.rxThread r).ring[(s.rx r).workerId]? = some x) :
    Metered cfg
      { s with
        rx := Function.update s.rx r { s.rx r with pc := .signal burst ret }
        ring := Function.update s.ring x (s.ring x ++ burst.take ret)
        enqueued := Function.update s.enqueued x (s.enqueued x ++ burst.take ret) } where
  len := by
    intro r' w
    rcases eq_or_ne r' r with rfl | hr
    · simp only [Function.update_self]
      exact h.len r' w
    · simp only [Function.update_of_ne hr]
      exact h.len r' w
  ring := by
    intro t ht y r' w hy hready hwaits
    have hring := h.ring t ht y r' w hy hready hwaits
    rcases eq_or_ne y x with rfl | hyx
    · -- the ring of the lthread: its rx lthread is `r`, and `len` counts it at `workerId`
      have hready' := hcfg.ready_eq ht hy hx
      rw [hready] at hready'
      obtain ⟨rfl, rfl⟩ := Prod.mk.inj (Option.some.inj hready')
      have hold : (s.rx r').pending (s.rx r').workerId = 0 := by
        unfold RxThread.pending
        rw [hpc]
      have hnew : RxThread.pending { s.rx r' with pc := .signal burst ret } (s.rx r').workerId =
          ret := if_pos rfl
      simp only [Function.update_self, hnew, List.length_append, List.length_take]
      omega
    · simp only [Function.update_of_ne hyx]
      rcases eq_or_ne r' r with rfl | hr
      · have hold : (s.rx r').pending w = 0 := by
          unfold RxThread.pending
          rw [hpc]
        rw [hold] at hring
        simp only [Function.update_self]
        exact hring.trans (Nat.le_add_right _ _)
      · simp only [Function.update_of_ne hr]
        exact hring

/-- `len` after it has counted the packets that are pending. -/
theorem Metered.count {s : State M} (h : Metered cfg s) {r : Nat} {burst : List M} {ret newLen : Nat}
    (hpc : (s.rx r).pc = .signal burst ret) (hlt : newLen < burstSize) {pc : RxPc M}
    {tx : Nat → TxThread M} (htx : ∀ t < cfg.nTxThread, (tx t).pc.Waits → (s.tx t).pc.Waits ∧
      ((cfg.txThread t).ready = some (r, (s.rx r).workerId) →
        (s.rx r).len (s.rx r).workerId + ret ≤ newLen)) :
    Metered cfg
      { s with
        rx := Function.update s.rx r
          { s.rx r with
            len := Function.update (s.rx r).len (s.rx r).workerId newLen
            pc := pc }
        tx := tx } where
  len := by
    intro r' w
    rcases eq_or_ne r' r with rfl | hr
    · simp only [Function.update_self]
      rcases eq_or_ne w (s.rx r').workerId with rfl | hw
      · rw [Function.update_self]
        exact hlt
      · rw [Function.update_of_ne hw]
        exact h.len r' w
    · simp only [Function.update_of_ne hr]
      exact h.len r' w
  ring := by
    intro t ht x r' w hx hready hwaits
    obtain ⟨hold, hcount⟩ := htx t ht hwaits
    have hring := h.ring t ht x r' w hx hready hold
    rcases eq_or_ne r' r with rfl | hr
    · simp only [Function.update_self]
      unfold RxThread.pending at hring
      rw [hpc] at hring
      dsimp only at hring
      rcases eq_or_ne w (s.rx r').workerId with rfl | hw
      -- the ring of this count: `newLen` covers what was pending
      · have hle := hcount hready
        rw [if_pos rfl] at hring
        rw [Function.update_self]
        omega
      · rw [if_neg (Ne.symm hw)] at hring
        rw [Function.update_of_ne hw]
        omega
    · simp only [Function.update_of_ne hr]
      exact hring

theorem Metered.stepRx [DecidableEq M] (hcfg : Signalled cfg) {s : State M} (h : Metered cfg s)
    {r : Nat} {a : RxAction M} (hheard : Heard cfg s (.rx r a)) {s' : State M}
    (hs : stepRx cfg s r a = some s') : Metered cfg s' := by
  -- packets are pending only between the enqueue and the count
  have hpending : (s.rx r).pc.Settled → ∀ w, (s.rx r).pending w = 0 := by
    intro hsettled w
    unfold RxThread.pending
    split
    · next hpc =>
        rw [hpc] at hsettled
        exact hsettled.elim
    · rfl
  cases rxStep_of_stepRx hs with
  | @rxBurst burst hpc hi hlen hfree =>
      apply h.setRx _ (hpending (by rw [hpc]; trivial))
      cases burst <;> rfl
  | enqueueBurst hpc hx hret => exact h.enqueue hcfg hpc hx
  | @signal burst ret hpc hsent =>
      apply h.count hpc (Nat.succ_pos 255)
      intro t ht hwaits
      obtain ⟨hold, hwait⟩ := waits_signal hwaits
      -- who still waits after the signal had not blocked yet, which `hheard` excludes
      refine ⟨hold, fun hready => ?_⟩
      dsimp only [Heard] at hheard
      rw [hpc] at hheard
      exact absurd (hwait hready) (hheard hsent t ht hready)
  | noSignal hpc hsent =>
      apply h.count hpc hsent
      exact fun t ht hwaits => ⟨hwaits, fun _ => le_rfl⟩
  | readLoss hpc =>
      refine h.setRx ?_ (hpending (by rw [hpc]; trivial)) s.ringLoss s.received
      rfl
  | writeLoss hpc =>
      refine h.setRx ?_ (hpending (by rw [hpc]; trivial)) _ s.received
      rfl
  | free hpc hm =>
      refine h.setRx ?_ (hpending (by rw [hpc]; trivial)) s.ringLoss s.received
      rfl
  | allFree hpc hk =>
      refine h.setRx ?_ (hpending (by rw [hpc]; trivial)) s.ringLoss s.received
      rfl
  | yield hpc =>
      refine h.setRx ?_ (hpending (by rw [hpc]; trivial)) s.ringLoss s.received
      rfl

/-- An action whose signal is heard keeps `len` a meter. -/
theorem Metered.step [DecidableEq M] (hcfg : Signalled cfg) {s : State M} (h : Metered cfg s)
    {a : Action M} (hheard : Heard cfg s a) {s' : State M} (hs : step cfg s a = some s') :
    Metered cfg s' := by
  cases a with
  | rx r a =>
      obtain ⟨-, hs⟩ := step_rx hs
      exact h.stepRx hcfg hheard hs
  | tx t a =>
      obtain ⟨-, hs⟩ := step_tx hs
      exact h.stepTx hs

/-- Without unheard signals `len` is a meter all the way. -/
theorem always_metered [DecidableEq M] (hcfg : Signalled cfg) {as : List (Action M)}
    (h : Each (step cfg) (Heard cfg) State.init as) :
    Always (step cfg) (Metered cfg) State.init as :=
  always_of_each metered_init (fun _ _ _ hmetered hheard hs => hmetered.step hcfg hheard hs) h

/-! ## The program -/

theorem signalled_lthreadSpawner {c : Config} (hc : Signalled c) : Signalled (lthreadSpawner c) := by
  obtain ⟨hwired, hready, hnodup⟩ := hc
  refine ⟨(spawned_lthreadSpawner hwired).wired, fun t ht x hx => ?_, fun r => ?_⟩
  · obtain ⟨hring, hcond⟩ := txThread_lthreadSpawner c t
    rw [hring] at hx
    obtain ⟨w, hw, hget⟩ := hready t ht x hx
    refine ⟨w, hcond.trans hw, ?_⟩
    rw [rxThread_lthreadSpawner]
    exact hget
  · rw [rxThread_lthreadSpawner]
    exact hnodup r

/-- **When no wakeup is lost**, in every state of a run: when no signal falls between an empty
dequeue and the wait. -/
theorem wakeupsKept_of_heard [DecidableEq M] (rteRingCreate : String → Bool)
    (rteLcoreToSocketId : Nat → Nat) (rx : List RxThreadParams) (tx : List TxThreadParams)
    (cfg : Config) (hcfg : initThreads rteRingCreate rteLcoreToSocketId rx tx = some cfg)
    (as : List (Action M))
    (hheard : Each (step (lthreadSpawner cfg)) (Heard (lthreadSpawner cfg)) State.init as) :
    Always (step (lthreadSpawner cfg)) (WakeupsKept (lthreadSpawner cfg)) State.init as :=
  (always_metered (signalled_lthreadSpawner (signalled_initThreads hcfg)) hheard).imp
    fun _ h => h.wakeupsKept

/-- A port can hand out distinct mbufs that are free. -/
theorem stepRx_rxBurst [DecidableEq M] {s : State M} {r : Nat} {burst : List M}
    (hpc : (s.rx r).pc = .poll) (hi : (s.rx r).i < (cfg.rxThread r).rxQueueList.length)
    (hlen : burst.length ≤ maxPktBurst) (hnodup : burst.Nodup)
    (hlive : ∀ m ∈ burst, s.live cfg (List.count m) = 0) :
    stepRx cfg s r (.rxBurst burst) =
      some
        { s with
          rx := Function.update s.rx r ((s.rx r).polled (cfg.rxThread r) burst)
          received := s.received ++ burst } := by
  have hfree : ∀ m ∈ burst, burst.count m + s.live cfg (List.count m) ≤ 1 := by
    intro m hm
    rw [hlive m hm]
    exact List.nodup_iff_count_le_one.mp hnodup m
  simp only [stepRx, hpc]
  exact if_pos ⟨hi, hlen, hfree⟩

deriving instance DecidableEq for RxPc, TxPc

def RxPc.decidableSignal (P : List M → Nat → Prop) [∀ burst ret, Decidable (P burst ret)] :
    (pc : RxPc M) → Decidable (match pc with | .signal burst ret => P burst ret | _ => True)
  | .signal burst ret => inferInstanceAs (Decidable (P burst ret))
  | .poll | .enqueue _ | .readLoss .. | .writeLoss .. | .free .. | .yield => isTrue trivial

instance [DecidableEq M] (s : State M) : (a : Action M) → Decidable (Heard cfg s a)
  | .rx r .signal => RxPc.decidableSignal _ (s.rx r).pc
  | .rx _ (.rxBurst _) | .rx _ (.enqueueBurst _) | .rx _ .readLoss | .rx _ .writeLoss
  | .rx _ .free | .rx _ .yield | .tx _ _ => isTrue trivial

def oneRing : Config :=
  (initThreads (fun _ => true) (fun _ => 0) [⟨0, 0, 2, 0⟩] [⟨4, 0⟩]).getD Config.zero

def onePacket : List (Action Nat) :=
  [.tx 0 .dequeueBurst, .tx 0 .condWait, .rx 0 (.rxBurst [10]), .rx 0 (.enqueueBurst 1),
    .rx 0 .signal, .rx 0 .yield]

/-- A burst goes into the ring before the tx lthread is blocked. -/
def lostSignal : List (Action Nat) :=
  [.tx 0 .dequeueBurst, .rx 0 (.rxBurst (List.range 256)), .rx 0 (.enqueueBurst 256),
    .rx 0 .signal, .tx 0 .condWait]

theorem wakeupsKept_of_heard_one_ring :
    initThreads (fun _ => true) (fun _ => 0) [⟨0, 0, 2, 0⟩] [⟨4, 0⟩] = some oneRing ∧
      Each (step (lthreadSpawner oneRing)) (Heard (lthreadSpawner oneRing)) State.init onePacket ∧
      Always (step (lthreadSpawner oneRing)) (WakeupsKept (lthreadSpawner oneRing)) State.init
        onePacket := by
  have hheard : Each (step (lthreadSpawner oneRing)) (Heard (lthreadSpawner oneRing)) State.init
      onePacket := by
    decide +kernel
  exact ⟨rfl, hheard, wakeupsKept_of_heard (fun _ => true) (fun _ => 0) [⟨0, 0, 2, 0⟩] [⟨4, 0⟩]
    oneRing rfl onePacket hheard⟩

/-- The tx lthread of `oneRing` has found its ring empty. -/
def emptied : State Nat :=
  { State.init with
    tx := Function.update State.init.tx 0 { State.init.tx 0 with pc := .wait } }

/-- The tx lthread sleeps over `256` packets. -/
theorem not_wakeupsKept_lost_signal :
    ¬ Always (step (lthreadSpawner oneRing)) (WakeupsKept (lthreadSpawner oneRing)) State.init
      lostSignal := by
  intro h
  have hemptied : step (lthreadSpawner oneRing) State.init (.tx 0 .dequeueBurst) = some emptied :=
    rfl
  have hburst : ∀ burst : List Nat, burst.length ≤ maxPktBurst → burst.Nodup →
      step (lthreadSpawner oneRing) emptied (.rx 0 (.rxBurst burst)) =
        some
          { emptied with
            rx := Function.update emptied.rx 0
              ((emptied.rx 0).polled ((lthreadSpawner oneRing).rxThread 0) burst)
            received := emptied.received ++ burst } := by
    intro burst hlen hnodup
    have hcore : 0 < (lthreadSpawner oneRing).nRxThread := by decide
    rw [step, if_pos hcore]
    exact stepRx_rxBurst rfl (by decide) hlen hnodup fun _ _ => rfl
  have hend : (run (step (lthreadSpawner oneRing)) State.init lostSignal).map
      (fun s => ((s.tx 0).pc, (s.rx 0).pc, (s.ring ⟨0, 0, 0⟩).length)) =
        some (.blocked, .yield, 256) := by
    rw [lostSignal, run, hemptied, Option.bind_some, run,
      hburst _ (by rw [List.length_range]; decide) List.nodup_range, Option.bind_some]
    decide +kernel
  obtain ⟨s, hs, hstate⟩ := Option.map_eq_some_iff.mp hend
  obtain ⟨hblocked, hrest⟩ := Prod.mk.inj hstate
  obtain ⟨hyield, hlength⟩ := Prod.mk.inj hrest
  have hkept := always_iff_forall_run.mp h lostSignal List.prefix_rfl s hs 0 (by decide) ⟨0, 0, 0⟩
    0 0 rfl rfl hblocked (by rw [hyield]; trivial)
  rw [hlength] at hkept
  exact absurd hkept (by decide)

end Lthread
end FloWatcher
