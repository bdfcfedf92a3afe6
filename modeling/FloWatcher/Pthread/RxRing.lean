import FloWatcher.Pthread.Pipeline
import FloWatcher.Transition.Places
import Mathlib.Data.Fintype.Card
import Mathlib.Data.List.ProdSigma

/-!
# Why `lcore_main_rx` may ignore what the ring takes

The burst of an rx thread and what is in its ring are mbufs of one pool, and an mbuf is in one place
at a time. So the two together are at most the 5000 mbufs of the pool, and a ring of 65535 always
has room: as long as all mbufs come from the pool of the queue, no packet is lost.
-/

namespace FloWatcher
namespace Pthread

open Transition

variable {cfg : Config} {portId : UInt8} {burstSize : UInt16} {s : State}

/-! ## Places -/

inductive Place where
  | free
  | nic (queue : LcoreRxQueue)
  | rx (r : Nat)
  | ring (x : Ring)
  | tx (t : Nat)
  | lost (r : Nat)
  deriving DecidableEq

def State.places (s : State) : Place → List Mbuf
  | .free => s.free
  | .nic queue => s.nic queue
  | .rx r => (s.rx r).held
  | .ring x => s.ring x
  | .tx t => (s.tx t).held
  | .lost r => s.lost r

theorem places_refill (queue : LcoreRxQueue) (m : Mbuf) :
    State.places
        { s with
          free := s.free.erase m
          nic := Function.update s.nic queue (s.nic queue ++ [m]) } =
      move s.places .free (.nic queue) [m] (s.free.erase m) := by
  funext p
  cases p <;> simp [State.places, move, Function.update_apply]

theorem places_rxBurst {r : Nat} (hpc : s.rx r = .poll) (queue : LcoreRxQueue) (n : Nat)
    (received : Nat → Nat) :
    State.places
        { s with
          nic := Function.update s.nic queue ((s.nic queue).drop n)
          rx := Function.update s.rx r (.enqueue ((s.nic queue).take n))
          received := received } =
      move s.places (.nic queue) (.rx r) ((s.nic queue).take n) ((s.nic queue).drop n) := by
  funext p
  cases p with
  | rx r' =>
      rcases eq_or_ne r' r with rfl | hr
      · simp [State.places, move, hpc, RxPc.held]
      · simp [State.places, move, hr]
  | _ => simp [State.places, move, Function.update_apply]

theorem places_enqueueBurst {r : Nat} {bufs : List Mbuf} (x : Ring) :
    State.places
        { s with
          rx := Function.update s.rx r .poll
          ring := Function.update s.ring x (s.ring x ++ bufs) } =
      move s.places (.rx r) (.ring x) bufs [] := by
  funext p
  cases p with
  | rx r' =>
      rcases eq_or_ne r' r with rfl | hr
      · simp [State.places, move, RxPc.held]
      · simp [State.places, move, hr]
  | _ => simp [State.places, move, Function.update_apply]

theorem places_dequeueBurst {t : Nat} (hpc : s.tx t = .dequeue) (x : Ring) (n : Nat)
    (dequeued : Nat → Nat) :
    State.places
        { s with
          ring := Function.update s.ring x ((s.ring x).drop n)
          tx := Function.update s.tx t (.packet ((s.ring x).take n) 0)
          dequeued := dequeued } =
      move s.places (.ring x) (.tx t) ((s.ring x).take n) ((s.ring x).drop n) := by
  funext p
  cases p with
  | tx t' =>
      rcases eq_or_ne t' t with rfl | ht
      · simp [State.places, move, hpc, TxPc.held]
      · simp [State.places, move, ht]
  | _ => simp [State.places, move, Function.update_apply]

theorem places_packet {t : Nat} {bufs : List Mbuf} {buf : Nat} (m : Mbuf) :
    State.places
        { s with
          free := s.free ++ [m]
          tx := Function.update s.tx t (.packet bufs (buf + 1)) } =
      move s.places (.tx t) .free [m] (bufs.drop (buf + 1)) := by
  funext p
  cases p with
  | tx t' =>
      rcases eq_or_ne t' t with rfl | ht
      · simp [State.places, move, TxPc.held]
      · simp [State.places, move, ht]
  | _ => simp [State.places, move]

theorem places_next {t : Nat} {bufs : List Mbuf} {buf : Nat} (hpc : s.tx t = .packet bufs buf)
    (hbuf : bufs.length ≤ buf) :
    State.places { s with tx := Function.update s.tx t .dequeue } = s.places := by
  funext p
  cases p with
  | tx t' =>
      rcases eq_or_ne t' t with rfl | ht
      · simp [State.places, hpc, TxPc.held, List.drop_eq_nil_of_le hbuf]
      · simp [State.places, ht]
  | _ => rfl

/-- Different mbufs of one pool are at most as many as the pool has. -/
theorem length_le_poolSize {ms : List Mbuf} (hnodup : ms.Nodup) {q : Nat}
    (hpool : ∀ m ∈ ms, m.pool = q) : ms.length ≤ poolSize := by
  have hindex : (ms.map Mbuf.index).Nodup := by
    apply hnodup.map_on
    rintro ⟨p, i⟩ hm ⟨p', i'⟩ hm' hi
    cases hi
    cases hpool _ hm
    cases hpool _ hm'
    rfl
  have hcard := hindex.length_le_card
  rwa [List.length_map, Fintype.card_fin] at hcard

/-! ## The invariant -/

/-- Every mbuf is in one place, what comes from a queue is of its pool, and nothing is lost. -/
structure Pooled (cfg : Config) (s : State) : Prop where
  places : Partition (fun m => m.pool < cfg.nRxThread) s.places
  nic : ∀ queue, ∀ m ∈ s.nic queue, m.pool = queue.queueId.toNat
  rx : ∀ r, ∀ m ∈ (s.rx r).held, m.pool = (pollQueue cfg r).queueId.toNat
  ring : ∀ r x, (cfg.rxThread r).ring[0]? = some x →
    ∀ m ∈ s.ring x, m.pool = (pollQueue cfg r).queueId.toNat
  lost : ∀ r, s.lost r = []
  received : ∀ r x, (cfg.rxThread r).ring[0]? = some x →
    s.received r = (s.rx r).held.length + (s.ring x).length + s.dequeued x.txThreadId

/-- **The burst of an rx thread and its ring share the mbufs of a pool.** -/
theorem Pooled.length_le (h : Pooled cfg s) {r : Nat} {x : Ring}
    (hx : (cfg.rxThread r).ring[0]? = some x) :
    (s.rx r).held.length + (s.ring x).length ≤ poolSize := by
  have hnodup : ((s.rx r).held ++ s.ring x).Nodup :=
    h.places.nodup_append (i := .rx r) (j := .ring x) Place.noConfusion
  rw [← List.length_append]
  apply length_le_poolSize hnodup
  intro m hm
  rcases List.mem_append.mp hm with hm | hm
  · exact h.rx r m hm
  · exact h.ring r x hx m hm

theorem pooled_init : Pooled cfg (State.init cfg) where
  places := by
    have hfree : (pools cfg).Nodup := by
      apply List.Nodup.map
      · rintro ⟨p, i⟩ ⟨p', i'⟩ h
        cases h
        rfl
      · exact List.nodup_range.product (List.nodup_finRange poolSize)
    refine ⟨fun p => ?_, fun p p' hne => ?_, fun m hm => ⟨.free, ?_⟩⟩
    · cases p with
      | free => exact hfree
      | _ => exact List.nodup_nil
    · cases p with
      | free =>
          cases p' with
          | free => exact absurd rfl hne
          | _ => exact List.disjoint_nil_right _
      | _ => exact List.disjoint_nil_left _
    · show m ∈ pools cfg
      apply List.mem_map.mpr
      refine ⟨(m.pool, m.index), ?_, rfl⟩
      exact List.mem_product.mpr ⟨List.mem_range.mpr hm, List.mem_finRange _⟩
  nic _ _ hm := by cases hm
  rx _ _ hm := by cases hm
  ring _ _ _ _ hm := by cases hm
  lost _ := rfl
  received _ _ _ := rfl

/-- The first rings of different rx threads differ. -/
theorem first_ring_ne (hw : Wired cfg) {r r' : Nat} {x y : Ring}
    (hx : (cfg.rxThread r).ring[0]? = some x) (hy : (cfg.rxThread r').ring[0]? = some y)
    (hne : r' ≠ r) : y ≠ x := by
  rintro rfl
  have hr := (hw.rx r y (List.mem_of_getElem? hx)).1
  have hr' := (hw.rx r' y (List.mem_of_getElem? hy)).1
  exact hne (hr'.symm.trans hr)

theorem Pooled.refill (h : Pooled cfg s) {queue : LcoreRxQueue} {m : Mbuf} {s' : State}
    (hs : refill cfg portId s queue m = some s') : Pooled cfg s' := by
  unfold Pthread.refill at hs
  split at hs
  · next hok =>
      cases hs
      obtain ⟨-, -, hpool, hm⟩ := hok
      refine ⟨?_, fun queue' m' hm' => ?_, h.rx, h.ring, h.lost, h.received⟩
      · rw [places_refill]
        apply h.places.move Place.noConfusion
        exact List.perm_cons_erase hm
      · rcases eq_or_ne queue' queue with rfl | hne
        · simp only [Function.update_self, List.mem_append, List.mem_singleton] at hm'
          rcases hm' with hm' | rfl
          · exact h.nic queue' m' hm'
          · exact hpool
        · simp only [Function.update_of_ne hne] at hm'
          exact h.nic queue' m' hm'
  · cases hs

theorem Pooled.rxBurst (h : Pooled cfg s) {r nbRx : Nat} {s' : State}
    (hs : rxBurst cfg burstSize s r nbRx = some s') : Pooled cfg s' := by
  dsimp only [Pthread.rxBurst] at hs
  split at hs
  · next hpc =>
      split at hs
      · next hok =>
          split at hs
          · cases hs
            exact h
          · cases hs
            refine ⟨?_, fun queue m hm => ?_, fun r' m hm => ?_, h.ring, h.lost, fun r' x hx => ?_⟩
            · rw [places_rxBurst hpc]
              apply h.places.move Place.noConfusion
              show List.Perm (s.nic _) _
              rw [List.take_append_drop]
            · rcases eq_or_ne queue (pollQueue cfg r) with rfl | hne
              · simp only [Function.update_self] at hm
                exact h.nic _ m (List.mem_of_mem_drop hm)
              · simp only [Function.update_of_ne hne] at hm
                exact h.nic queue m hm
            · rcases eq_or_ne r' r with rfl | hne
              · simp only [Function.update_self] at hm
                exact h.nic _ m (List.mem_of_mem_take hm)
              · simp only [Function.update_of_ne hne] at hm
                exact h.rx r' m hm
            · have hreceived := h.received r' x hx
              rcases eq_or_ne r' r with rfl | hne
              · rw [hpc] at hreceived
                simp only [Function.update_self]
                rw [hreceived]
                show ([] : List Mbuf).length + _ + _ + nbRx = ((s.nic _).take nbRx).length + _ + _
                rw [List.length_take, List.length_nil]
                omega
              · simp only [Function.update_of_ne hne]
                exact hreceived
      · cases hs
  · cases hs

/-- The ring takes the whole burst. -/
theorem Pooled.enqueueBurst (hw : Wired cfg) (h : Pooled cfg s) {r : Nat} {s' : State}
    (hs : enqueueBurst cfg s r = some s') : Pooled cfg s' := by
  dsimp only [Pthread.enqueueBurst] at hs
  split at hs
  · next bufs x hpc hx =>
      cases hs
      -- what the ring holds and what the burst holds are mbufs of one pool, so they fit together
      have hroom : bufs.length ≤ ringCapacity - (s.ring x).length := by
        have hle := h.length_le hx
        rw [hpc] at hle
        have hlt : poolSize ≤ ringCapacity := by decide
        show bufs.length ≤ _
        change bufs.length + _ ≤ _ at hle
        omega
      rw [List.take_of_length_le hroom, List.drop_eq_nil_of_le hroom, List.append_nil,
        Function.update_eq_self]
      refine ⟨?_, h.nic, fun r' m hm => ?_, fun r' y hy m hm => ?_, h.lost, fun r' y hy => ?_⟩
      · rw [places_enqueueBurst]
        apply h.places.move Place.noConfusion
        show List.Perm (s.rx r).held _
        rw [hpc, List.append_nil]
        exact List.Perm.refl bufs
      · rcases eq_or_ne r' r with rfl | hne
        · simp only [Function.update_self] at hm
          cases hm
        · simp only [Function.update_of_ne hne] at hm
          exact h.rx r' m hm
      · rcases eq_or_ne r' r with rfl | hne
        -- the ring takes over the burst, and both are of the pool of thread `r`
        · cases hx.symm.trans hy
          simp only [Function.update_self, List.mem_append] at hm
          rcases hm with hm | hm
          · exact h.ring r' x hx m hm
          · exact h.rx r' m (by rw [hpc]; exact hm)
        · simp only [Function.update_of_ne (first_ring_ne hw hx hy hne)] at hm
          exact h.ring r' y hy m hm
      · have hreceived := h.received r' y hy
        rcases eq_or_ne r' r with rfl | hne
        · cases hx.symm.trans hy
          rw [hpc] at hreceived
          simp only [Function.update_self]
          rw [hreceived, List.length_append]
          show bufs.length + _ + _ = ([] : List Mbuf).length + _ + _
          rw [List.length_nil]
          omega
        · simp only [Function.update_of_ne (first_ring_ne hw hx hy hne), Function.update_of_ne hne]
          exact hreceived
  · cases hs

theorem Pooled.dequeueBurst (hw : Wired cfg) (h : Pooled cfg s) {t : Nat}
    (ht : t < cfg.nTxThread) {s' : State} (hs : dequeueBurst cfg burstSize s t = some s') :
    Pooled cfg s' := by
  dsimp only [Pthread.dequeueBurst] at hs
  split at hs
  · next x hpc hx =>
      split at hs
      · cases hs
        exact h
      · cases hs
        refine ⟨?_, h.nic, h.rx, fun r y hy m hm => ?_, h.lost, fun r y hy => ?_⟩
        · rw [places_dequeueBurst hpc]
          apply h.places.move Place.noConfusion
          show List.Perm (s.ring x) _
          rw [List.take_append_drop]
        · rcases eq_or_ne y x with rfl | hne
          · simp only [Function.update_self] at hm
            exact h.ring r y hy m (List.mem_of_mem_drop hm)
          · simp only [Function.update_of_ne hne] at hm
            exact h.ring r y hy m hm
        · have hreceived := h.received r y hy
          obtain ⟨-, hlt, htx⟩ := hw.rx r y (List.mem_of_getElem? hy)
          rcases eq_or_ne y x with rfl | hne
          · obtain rfl : t = y.txThreadId := hw.ring_inj ht hlt hx htx
            simp only [Function.update_self]
            rw [hreceived, List.length_drop, List.length_take]
            omega
          · have htne : y.txThreadId ≠ t := by
              rintro rfl
              exact hne (Option.some.inj (htx.symm.trans hx))
            simp only [Function.update_of_ne hne, Function.update_of_ne htne]
            exact hreceived
  · cases hs

theorem Pooled.packetFree (h : Pooled cfg s) {t : Nat} {s' : State}
    (hs : packetFree s t = some s') : Pooled cfg s' := by
  unfold Pthread.packetFree at hs
  split at hs
  · next bufs buf hpc =>
      split at hs
      · next m hm =>
          cases hs
          refine ⟨?_, h.nic, h.rx, h.ring, h.lost, h.received⟩
          rw [places_packet]
          apply h.places.move Place.noConfusion
          obtain ⟨hbuf, rfl⟩ := List.getElem?_eq_some_iff.mp hm
          show List.Perm (s.tx t).held _
          rw [hpc, List.singleton_append, ← List.drop_eq_getElem_cons hbuf]
          exact List.Perm.refl _
      · next hnone =>
          cases hs
          refine ⟨?_, h.nic, h.rx, h.ring, h.lost, h.received⟩
          rw [places_next hpc (List.getElem?_eq_none_iff.mp hnone)]
          exact h.places
  · cases hs

theorem isInvariant_pooled (hw : Wired cfg) :
    IsInvariant (step cfg portId burstSize) (State.init cfg) (Pooled cfg) where
  init := pooled_init
  step s a s' h hs := by
    cases a with
    | refill queue m => exact h.refill hs
    | rxBurst r nbRx =>
        dsimp only [step] at hs
        split at hs
        · exact h.rxBurst hs
        · cases hs
    | enqueueBurst r =>
        dsimp only [step] at hs
        split at hs
        · exact h.enqueueBurst hw hs
        · cases hs
    | dequeueBurst t =>
        dsimp only [step] at hs
        split at hs
        · next ht => exact h.dequeueBurst hw ht hs
        · cases hs
    | packet t =>
        dsimp only [step] at hs
        split at hs
        · exact h.packetFree hs
        · cases hs

/-! ## The program -/

/-- **The first ring of an rx thread never fills up**, whatever the traffic, the burst size and the
interleaving: it takes every burst whole, and no mbuf gets lost. -/
theorem rxRing_never_full (rteRingCreate : String → Bool) (rteLcoreToSocketId : Nat → Nat)
    (rx : List RxThreadParams) (tx : List TxThreadParams) (cfg : Config)
    (hcfg : initThreads rteRingCreate rteLcoreToSocketId rx tx = some cfg) (portId : UInt8)
    (burstSize : UInt16) (as : List Action) (s : State)
    (hs : run (step cfg portId burstSize) (State.init cfg) as = some s) (r : Nat) (x : Ring)
    (hx : (cfg.rxThread r).ring[0]? = some x) :
    (s.ring x).length ≤ poolSize ∧ poolSize < ringCapacity ∧
      (s.rx r).held.length ≤ ringCapacity - (s.ring x).length ∧
      (∀ m ∈ pools cfg, ∃ p, (∀ r', p ≠ .lost r') ∧ m ∈ s.places p) ∧
      s.lost r = [] ∧
      s.received r = (s.rx r).held.length + (s.ring x).length + s.dequeued x.txThreadId := by
  have h : Pooled cfg s := (isInvariant_pooled (wired_initThreads hcfg)).run hs
  have hle := h.length_le hx
  have hlt : poolSize < ringCapacity := by decide
  refine ⟨by omega, hlt, by omega, fun m hm => ?_, h.lost r, h.received r x hx⟩
  have hpool : m.pool < cfg.nRxThread := by
    obtain ⟨p, hp, rfl⟩ := List.mem_map.mp hm
    exact List.mem_range.mp (List.mem_product.mp hp).1
  obtain ⟨p, hp⟩ := h.places.cover m hpool
  refine ⟨p, fun r' hlost => ?_, hp⟩
  rw [hlost, State.places, h.lost r'] at hp
  cases hp

def oneRing : Config :=
  (initThreads (fun _ => true) (fun _ => 0) [⟨3, 0, 1, 0⟩] [⟨2, 0⟩]).getD Config.zero

def onePacket : List Action :=
  [.refill ⟨3, 0⟩ ⟨0, 0, by decide⟩, .rxBurst 0 1, .enqueueBurst 0, .dequeueBurst 0]

theorem isSome_onePacket :
    (run (step oneRing 3 256) (State.init oneRing) onePacket).isSome := by
  decide +kernel

def onePacketState : State :=
  (run (step oneRing 3 256) (State.init oneRing) onePacket).get isSome_onePacket

theorem rxRing_never_full_one_packet :
    let x : Ring := { socketIo := 0, rxThreadId := 0, txThreadId := 0 }
    let s := onePacketState
    (s.ring x).length ≤ poolSize ∧ poolSize < ringCapacity ∧
      (s.rx 0).held.length ≤ ringCapacity - (s.ring x).length ∧
      (∀ m ∈ pools oneRing, ∃ p, (∀ r', p ≠ .lost r') ∧ m ∈ s.places p) ∧
      s.lost 0 = [] ∧
      s.received 0 = (s.rx 0).held.length + (s.ring x).length + s.dequeued x.txThreadId :=
  rxRing_never_full (fun _ => true) (fun _ => 0) [⟨3, 0, 1, 0⟩] [⟨2, 0⟩] oneRing rfl 3 256 onePacket
    onePacketState (Option.some_get isSome_onePacket).symm 0 _ rfl

end Pthread
end FloWatcher
