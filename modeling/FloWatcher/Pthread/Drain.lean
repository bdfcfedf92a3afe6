import FloWatcher.Pthread.Delivery
import FloWatcher.Transition.Parties
import FloWatcher.Transition.Progress

/-!
# When the traffic stops

The rx threads and the counting threads of the pthread program poll: nobody waits for a signal, so
nothing stays in a ring. Once no more packets are received, the threads have a bounded number of
actions left that do anything, and when none of these is possible everything has been counted, by
the counting threads of the rx threads' first rings.
-/

namespace FloWatcher
namespace Pthread

open Transition

variable {cfg : Config} {portId : UInt8} {burstSize : UInt16} {s s' : State}

/-! ## What is left to do -/

def content (cfg : Config) (ring : Ring → List Mbuf) (t : Nat) : List Mbuf :=
  ((cfg.txThread t).ring.map ring).getD []

/-- What an rx thread has left: for each packet the enqueue, and what the packet needs in the
ring. -/
def RxPc.left : RxPc → Nat
  | .poll => 0
  | .enqueue bufs => 4 * bufs.length + 1

/-- What a counting thread has left: the packets of its burst, and the end of the burst. -/
def TxPc.left : TxPc → Nat
  | .dequeue => 0
  | .packet bufs buf => (bufs.drop buf).length + 1

/-- What is left to do when no more packets come. -/
def State.left (cfg : Config) (s : State) : Nat :=
  ∑ r ∈ Finset.range cfg.nRxThread, (s.rx r).left +
    (∑ t ∈ Finset.range cfg.nTxThread, 3 * (content cfg s.ring t).length +
      ∑ t ∈ Finset.range cfg.nTxThread, (s.tx t).left)

def Quiet (a : Action × List Hash) : Prop := a.1.nbRx = 0

/-- An action that takes packets further, or ends a burst. -/
def Working (cfg : Config) (burstSize : UInt16) (l : Loaded) : Action × List Hash → Prop
  | (.enqueueBurst _, _) => True
  | (.dequeueBurst t, _) => (content cfg l.threads.ring t).take burstSize.toNat ≠ []
  | (.packet _, _) => True
  | _ => False

instance (l : Loaded) (a : Action × List Hash) : Decidable (Working cfg burstSize l a) := by
  unfold Working
  split <;> infer_instance

/-- A ring that changes is the ring of one counting thread. -/
theorem sum_content (hw : Wired cfg) (ring : Ring → List Mbuf) {t : Nat} (ht : t < cfg.nTxThread)
    {x : Ring} (hx : (cfg.txThread t).ring = some x) (ms : List Mbuf) :
    ∑ t' ∈ Finset.range cfg.nTxThread, 3 * (content cfg (Function.update ring x ms) t').length +
        3 * (ring x).length =
      ∑ t' ∈ Finset.range cfg.nTxThread, 3 * (content cfg ring t').length + 3 * ms.length := by
  have hself : content cfg ring t = ring x := by
    rw [content, hx]
    rfl
  have hsum := sum_update (Finset.range cfg.nTxThread) (fun ms : List Mbuf => 3 * ms.length)
    (content cfg ring) (Finset.mem_range.mpr ht) ms
  rw [hself] at hsum
  rw [← hsum]
  congr 1
  apply Finset.sum_congr rfl
  intro t' ht'
  rcases eq_or_ne t' t with rfl | hne
  · rw [Function.update_self, content, hx, Option.map_some, Option.getD_some, Function.update_self]
  · obtain ⟨y, hy, -⟩ := hw.tx t' (Finset.mem_range.mp ht')
    have hyx : y ≠ x := by
      rintro rfl
      exact hne (hw.ring_inj (Finset.mem_range.mp ht') ht hy hx)
    rw [Function.update_of_ne hne, content, content, hy, Option.map_some, Option.map_some,
      Option.getD_some, Option.getD_some, Function.update_of_ne hyx]

theorem enqueueBurst_left (hw : Wired cfg) {r : Nat} (hr : r < cfg.nRxThread)
    (h : enqueueBurst cfg s r = some s') : s'.left cfg < s.left cfg := by
  obtain ⟨bufs, x, hpc, hx, rfl⟩ := enqueueBurst_some h
  obtain ⟨-, hxt, htx⟩ := hw.rx r x (List.mem_of_getElem? hx)
  have hrx := sum_update (Finset.range cfg.nRxThread) RxPc.left s.rx (Finset.mem_range.mpr hr) .poll
  have hring := sum_content hw s.ring hxt htx
    (s.ring x ++ bufs.take (ringCapacity - (s.ring x).length))
  have htake := List.length_take_le (ringCapacity - (s.ring x).length) bufs
  have htake' := List.length_take_le' (ringCapacity - (s.ring x).length) bufs
  rw [hpc, RxPc.left, RxPc.left] at hrx
  rw [List.length_append] at hring
  simp only [State.left]
  omega

theorem dequeueBurst_left (hw : Wired cfg) {t : Nat} (ht : t < cfg.nTxThread)
    (h : dequeueBurst cfg burstSize s t = some s') :
    s'.left cfg ≤ s.left cfg ∧
      ((content cfg s.ring t).take burstSize.toNat ≠ [] → s'.left cfg < s.left cfg) := by
  obtain ⟨x, hpc, hx, ⟨hnil, rfl⟩ | ⟨hne, rfl⟩⟩ := dequeueBurst_some h
  · refine ⟨Nat.le_refl _, fun hne => absurd ?_ hne⟩
    rw [content, hx]
    exact hnil
  · have htx := sum_update (Finset.range cfg.nTxThread) TxPc.left s.tx (Finset.mem_range.mpr ht)
      (.packet ((s.ring x).take burstSize.toNat) 0)
    have hring := sum_content hw s.ring ht hx ((s.ring x).drop burstSize.toNat)
    have hsplit := congrArg List.length (List.take_append_drop burstSize.toNat (s.ring x))
    have hpos := List.length_pos_iff.mpr hne
    rw [List.length_append] at hsplit
    rw [hpc, TxPc.left, TxPc.left, List.drop_zero] at htx
    have hlt : State.left cfg { s with
        ring := Function.update s.ring x ((s.ring x).drop burstSize.toNat)
        tx := Function.update s.tx t (.packet ((s.ring x).take burstSize.toNat) 0)
        dequeued := Function.update s.dequeued t
          (s.dequeued t + ((s.ring x).take burstSize.toNat).length) } < s.left cfg := by
      simp only [State.left]
      omega
    exact ⟨hlt.le, fun _ => hlt⟩

theorem packetFree_left {t : Nat} (ht : t < cfg.nTxThread) (h : packetFree s t = some s') :
    s'.left cfg < s.left cfg := by
  obtain ⟨bufs, buf, hpc, ⟨m, hm, rfl⟩ | ⟨hbuf, rfl⟩⟩ := packetFree_some h
  · have htx := sum_update (Finset.range cfg.nTxThread) TxPc.left s.tx (Finset.mem_range.mpr ht)
      (.packet bufs (buf + 1))
    have hlt := (List.getElem?_eq_some_iff.mp hm).1
    rw [hpc, TxPc.left, TxPc.left, List.length_drop, List.length_drop] at htx
    simp only [State.left]
    omega
  · have htx := sum_update (Finset.range cfg.nTxThread) TxPc.left s.tx (Finset.mem_range.mpr ht)
      .dequeue
    rw [hpc, TxPc.left, TxPc.left] at htx
    simp only [State.left]
    omega

/-! ## The end of the work -/

variable {l l' : Loaded} {rss : Mbuf → Hash}

theorem left_step (hw : Wired cfg) {a : Action} {hashes : List Hash} (hquiet : Quiet (a, hashes))
    (h : loadedStep cfg portId burstSize l (a, hashes) = some l') :
    l'.threads.left cfg ≤ l.threads.left cfg ∧
      (Working cfg burstSize l (a, hashes) → l'.threads.left cfg < l.threads.left cfg) := by
  obtain ⟨-, threads, hs, rfl⟩ := loadedStep_some h
  rw [threads_after]
  cases a with
  | refill queue m =>
      rw [refill_some hs]
      exact ⟨Nat.le_refl _, fun hworking => hworking.elim⟩
  | rxBurst r nbRx =>
      obtain rfl : nbRx = 0 := hquiet
      obtain ⟨-, hs⟩ := Option.ite_none_right_eq_some.mp hs
      obtain ⟨-, -, -, ⟨-, rfl⟩ | ⟨hne, -⟩⟩ := rxBurst_some hs
      · exact ⟨Nat.le_refl _, fun hworking => hworking.elim⟩
      · exact absurd rfl hne
  | enqueueBurst r =>
      obtain ⟨hr, hs⟩ := Option.ite_none_right_eq_some.mp hs
      have hlt := enqueueBurst_left hw hr hs
      exact ⟨hlt.le, fun _ => hlt⟩
  | dequeueBurst t =>
      obtain ⟨ht, hs⟩ := Option.ite_none_right_eq_some.mp hs
      exact dequeueBurst_left hw ht hs
  | packet t =>
      obtain ⟨ht, hs⟩ := Option.ite_none_right_eq_some.mp hs
      have hlt := packetFree_left ht hs
      exact ⟨hlt.le, fun _ => hlt⟩

theorem worksOff (hw : Wired cfg) :
    WorksOff (loadedStep cfg portId burstSize) (fun _ => True) Quiet (Working cfg burstSize)
      fun l => l.threads.left cfg where
  inv _ _ _ _ _ := trivial
  quiet_le _ _ _ _ hquiet h := (left_step hw hquiet h).1
  working_lt _ _ _ _ hquiet hworking h := (left_step hw hquiet h).2 hworking

theorem Working.quiet {a : Action × List Hash} (h : Working cfg burstSize l a) : Quiet a := by
  obtain ⟨a, hashes⟩ := a
  cases a with
  | refill queue m => rfl
  | rxBurst r nbRx => exact h.elim
  | enqueueBurst r => rfl
  | dequeueBurst t => rfl
  | packet t => rfl

/-- With a burst size of 0 nothing is received. -/
theorem isInvariant_inFlight_nil (hw : Wired cfg) (hburst : burstSize.toNat = 0) :
    IsInvariant (loadedStep cfg portId burstSize) (Loaded.init cfg rss) fun l =>
      Delivered cfg l ∧
        ∀ r x, (cfg.rxThread r).ring[0]? = some x → inFlight l.threads r x = [] where
  init :=
    have hinv : IsInvariant (loadedStep cfg portId burstSize) _ _ := isInvariant_delivered hw rss
    ⟨hinv.init, fun _ _ _ => rfl⟩
  step := by
    rintro l ⟨a, hashes⟩ l' ⟨hdelivered, hnil⟩ hs
    refine ⟨(isInvariant_delivered hw rss).step _ _ _ hdelivered hs, fun r x hx => ?_⟩
    obtain ⟨-, threads, hthreads, rfl⟩ := loadedStep_some hs
    have hflight := inFlight_step hw hx hdelivered.pooled hthreads
    have harriving : a.arriving cfg l.threads r = [] := by
      cases a with
      | rxBurst r' nbRx =>
          obtain ⟨-, hthreads⟩ := Option.ite_none_right_eq_some.mp hthreads
          have hle := (rxBurst_some hthreads).2.1
          obtain rfl : nbRx = 0 := by omega
          simp only [Action.arriving, List.take_zero, ite_self]
      | _ => rfl
    rw [hnil r x hx, harriving, List.append_nil] at hflight
    rw [threads_after]
    exact (List.append_eq_nil_iff.mp hflight.symm).2

/-- When nothing can be done any more, no packet is on its way. -/
theorem inFlight_eq_nil (hw : Wired cfg)
    (hdone : ∀ a, Working cfg burstSize l a → loadedStep cfg portId burstSize l a = none)
    (hburst : burstSize.toNat ≠ 0) {r : Nat} (hr : r < cfg.nRxThread) {x : Ring}
    (hx : (cfg.rxThread r).ring[0]? = some x) : inFlight l.threads r x = [] := by
  obtain ⟨-, hxt, htx⟩ := hw.rx r x (List.mem_of_getElem? hx)
  have hrx : l.threads.rx r = .poll := by
    cases hpc : l.threads.rx r with
    | poll => rfl
    | enqueue bufs =>
        have hnone := hdone (.enqueueBurst r, []) trivial
        simp [loadedStep, step, enqueueBurst, Action.nbRx, hr, hpc, hx] at hnone
  have htx' : l.threads.tx x.txThreadId = .dequeue := by
    cases hpc : l.threads.tx x.txThreadId with
    | dequeue => rfl
    | packet bufs buf =>
        have hnone := hdone (.packet x.txThreadId, []) trivial
        cases hbuf : bufs[buf]? <;>
          simp [loadedStep, step, packetFree, Action.nbRx, hxt, hpc, hbuf] at hnone
  have hring : l.threads.ring x = [] := by
    by_contra hne
    have hcontent : content cfg l.threads.ring x.txThreadId = l.threads.ring x := by
      rw [content, htx]
      rfl
    have htake : (l.threads.ring x).take burstSize.toNat ≠ [] := by
      intro hnil
      rcases List.take_eq_nil_iff.mp hnil with h0 | h0
      · exact hburst h0
      · exact hne h0
    have hnone := hdone (.dequeueBurst x.txThreadId, []) (by
      show (content cfg l.threads.ring x.txThreadId).take burstSize.toNat ≠ []
      rwa [hcontent])
    simp [loadedStep, step, dequeueBurst, Action.nbRx, hxt, htx', htx, hburst, hne] at hnone
  rw [inFlight, hrx, htx', hring]
  rfl

/-- **When the traffic stops, everything gets counted.** From any state on, actions that receive
nothing do a bounded amount of work, in whatever order they are taken and whatever idle polls are
between them, and when none of them can do any work, the counting thread of an rx thread's first
ring has counted all that the rx thread has received. -/
theorem drains (rteRingCreate : String → Bool) (rteLcoreToSocketId : Nat → Nat)
    (rx : List RxThreadParams) (tx : List TxThreadParams) (cfg : Config)
    (hcfg : initThreads rteRingCreate rteLcoreToSocketId rx tx = some cfg) (portId : UInt8)
    (burstSize : UInt16) (rss : Mbuf → Hash) (as : List (Action × List Hash)) (l : Loaded)
    (hl : run (loadedStep cfg portId burstSize) (Loaded.init cfg rss) as = some l) :
    (∀ bs l', (∀ a ∈ bs, Quiet a) → run (loadedStep cfg portId burstSize) l bs = some l' →
      workDone (loadedStep cfg portId burstSize) (Working cfg burstSize) l bs +
        l'.threads.left cfg ≤ l.threads.left cfg) ∧
    ((∀ a, Working cfg burstSize l a → loadedStep cfg portId burstSize l a = none) →
      ∀ r < cfg.nRxThread, ∀ x, (cfg.rxThread r).ring[0]? = some x →
        l.countedBy x.txThreadId = l.arrived r) := by
  have hw := wired_initThreads hcfg
  refine ⟨fun bs l' hquiet hbs => (worksOff hw).workDone_le trivial hquiet hbs,
    fun hdone r hr x hx => ?_⟩
  have hdelivered : Delivered cfg l := (isInvariant_delivered hw rss).run hl
  have hnil : inFlight l.threads r x = [] := by
    rcases eq_or_ne burstSize.toNat 0 with hburst | hburst
    · exact ((isInvariant_inFlight_nil hw hburst).run hl).2 r x hx
    · exact inFlight_eq_nil hw hdone hburst hr hx
  have horder := hdelivered.inOrder r x hx
  rwa [hnil, List.map_nil, List.append_nil] at horder

/-- Both packets are counted. -/
def drained : List (Action × List Hash) := twoHashes ++ [(.packet 0, []), (.packet 0, [])]

theorem isSome_drained :
    (run (loadedStep oneRing 3 256) (Loaded.init oneRing fun _ => 0) drained).isSome := by
  decide +kernel

def drainedState : Loaded :=
  (run (loadedStep oneRing 3 256) (Loaded.init oneRing fun _ => 0) drained).get isSome_drained

theorem wired_oneRing : Wired oneRing := by
  have h : initThreads (fun _ => true) (fun _ => 0) [⟨3, 0, 1, 0⟩] [⟨2, 0⟩] = some oneRing := rfl
  exact wired_initThreads h

theorem drains_two_hashes :
    let l := drainedState
    ((∀ bs l', (∀ a ∈ bs, Quiet a) → run (loadedStep oneRing 3 256) l bs = some l' →
      workDone (loadedStep oneRing 3 256) (Working oneRing 256) l bs + l'.threads.left oneRing ≤
        l.threads.left oneRing) ∧
    ((∀ a, Working oneRing 256 l a → loadedStep oneRing 3 256 l a = none) →
      ∀ r < oneRing.nRxThread, ∀ x, (oneRing.rxThread r).ring[0]? = some x →
        l.countedBy x.txThreadId = l.arrived r)) ∧
    (∀ a, Working oneRing 256 l a → loadedStep oneRing 3 256 l a = none) ∧
    l.arrived 0 = [5, 7] ∧ l.countedBy 0 = [5, 7] :=
  ⟨drains (fun _ => true) (fun _ => 0) [⟨3, 0, 1, 0⟩] [⟨2, 0⟩] oneRing rfl 3 256 (fun _ => 0)
    drained drainedState (Option.some_get isSome_drained).symm,
    fun _ hworking => (worksOff wired_oneRing).eq_none trivial hworking.quiet hworking
      (by decide +kernel),
    by decide +kernel, by decide +kernel⟩

end Pthread
end FloWatcher
