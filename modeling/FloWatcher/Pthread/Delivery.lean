import FloWatcher.Pthread.DoubleHash
import FloWatcher.Pthread.RxRing

/-!
# What arrives is what is counted

The packets of a queue go through the hands of its rx thread, the first ring of the rx thread and
the counting thread of this ring. Their mbufs are used again and again, but never while a packet is
on its way: the counting thread reads the hashes of the queue in the order of their arrival, each of
them once. An rx thread enqueues to its first ring only, so the counting threads of its other rings
count nothing.
-/

namespace FloWatcher
namespace Pthread

open Transition

variable {cfg : Config} {portId : UInt8} {burstSize : UInt16} {s s' : State}

/-! ## What a step does -/

theorem refill_some {queue : LcoreRxQueue} {m : Mbuf} (h : refill cfg portId s queue m = some s') :
    s' = { s with
      free := s.free.erase m
      nic := Function.update s.nic queue (s.nic queue ++ [m]) } := by
  unfold refill at h
  split at h
  · cases h
    rfl
  · cases h

theorem rxBurst_some {r nbRx : Nat} (h : rxBurst cfg burstSize s r nbRx = some s') :
    s.rx r = .poll ∧ nbRx ≤ burstSize.toNat ∧ nbRx ≤ (s.nic (pollQueue cfg r)).length ∧
      (nbRx = 0 ∧ s' = s ∨
        nbRx ≠ 0 ∧ s' = { s with
          nic := Function.update s.nic (pollQueue cfg r) ((s.nic (pollQueue cfg r)).drop nbRx)
          rx := Function.update s.rx r (.enqueue ((s.nic (pollQueue cfg r)).take nbRx))
          received := Function.update s.received r (s.received r + nbRx) }) := by
  dsimp only [rxBurst] at h
  split at h
  · next hpc =>
      split at h
      · next hok =>
          split at h
          · next h0 =>
              cases h
              exact ⟨hpc, hok.1, hok.2, .inl ⟨h0, rfl⟩⟩
          · next h0 =>
              cases h
              exact ⟨hpc, hok.1, hok.2, .inr ⟨h0, rfl⟩⟩
      · cases h
  · cases h

theorem enqueueBurst_some {r : Nat} (h : enqueueBurst cfg s r = some s') :
    ∃ bufs x, s.rx r = .enqueue bufs ∧ (cfg.rxThread r).ring[0]? = some x ∧
      s' = { s with
        rx := Function.update s.rx r .poll
        ring := Function.update s.ring x
          (s.ring x ++ bufs.take (ringCapacity - (s.ring x).length))
        lost := Function.update s.lost r
          (s.lost r ++ bufs.drop (ringCapacity - (s.ring x).length)) } := by
  dsimp only [enqueueBurst] at h
  split at h
  · next bufs x hpc hx =>
      cases h
      exact ⟨bufs, x, hpc, hx, rfl⟩
  · cases h

theorem dequeueBurst_some {t : Nat} (h : dequeueBurst cfg burstSize s t = some s') :
    ∃ x, s.tx t = .dequeue ∧ (cfg.txThread t).ring = some x ∧
      ((s.ring x).take burstSize.toNat = [] ∧ s' = s ∨
        (s.ring x).take burstSize.toNat ≠ [] ∧ s' = { s with
          ring := Function.update s.ring x ((s.ring x).drop burstSize.toNat)
          tx := Function.update s.tx t (.packet ((s.ring x).take burstSize.toNat) 0)
          dequeued := Function.update s.dequeued t
            (s.dequeued t + ((s.ring x).take burstSize.toNat).length) }) := by
  dsimp only [dequeueBurst] at h
  split at h
  · next x hpc hx =>
      split at h
      · next h0 =>
          cases h
          exact ⟨x, hpc, hx, .inl ⟨List.eq_nil_of_length_eq_zero h0, rfl⟩⟩
      · next h0 =>
          cases h
          exact ⟨x, hpc, hx, .inr ⟨fun hnil => h0 (by rw [hnil]; rfl), rfl⟩⟩
  · cases h

theorem packetFree_some {t : Nat} (h : packetFree s t = some s') :
    ∃ bufs buf, s.tx t = .packet bufs buf ∧
      ((∃ m, bufs[buf]? = some m ∧ s' = { s with
          free := s.free ++ [m]
          tx := Function.update s.tx t (.packet bufs (buf + 1)) }) ∨
        bufs.length ≤ buf ∧ s' = { s with tx := Function.update s.tx t .dequeue }) := by
  unfold packetFree at h
  split at h
  · next bufs buf hpc =>
      split at h
      · next m hm =>
          cases h
          exact ⟨bufs, buf, hpc, .inl ⟨m, hm, rfl⟩⟩
      · next hm =>
          cases h
          exact ⟨bufs, buf, hpc, .inr ⟨List.getElem?_eq_none_iff.mp hm, rfl⟩⟩
  · cases h

/-! ## The packets on their way -/

/-- The mbufs between the queue of an rx thread and the table, the first one to be counted first. -/
def inFlight (s : State) (r : Nat) (x : Ring) : List Mbuf :=
  (s.tx x.txThreadId).held ++ s.ring x ++ (s.rx r).held

/-- What an action adds at the end. -/
def Action.arriving (cfg : Config) (s : State) (r : Nat) : Action → List Mbuf
  | .rxBurst r' nbRx => if r' = r then (s.nic (pollQueue cfg r)).take nbRx else []
  | _ => []

/-- What an action takes away at the front. -/
def Action.leaving (s : State) (t : Nat) : Action → List Mbuf
  | .packet t' => if t' = t then (s.tx t).held.take 1 else []
  | _ => []

section InFlight

variable (hw : Wired cfg) {r : Nat} {x : Ring} (hx : (cfg.rxThread r).ring[0]? = some x)

theorem inFlight_rxBurst {r' nbRx : Nat} (hs : rxBurst cfg burstSize s r' nbRx = some s') :
    inFlight s' r x = inFlight s r x ++ (Action.rxBurst r' nbRx).arriving cfg s r := by
  obtain ⟨hpc, -, -, ⟨rfl, rfl⟩ | ⟨-, rfl⟩⟩ := rxBurst_some hs
  · simp only [Action.arriving, List.take_zero, ite_self, List.append_nil]
  · simp only [inFlight, Action.arriving]
    rcases eq_or_ne r' r with rfl | hne
    · rw [if_pos rfl, Function.update_self, hpc]
      simp only [RxPc.held, List.append_nil]
    · rw [if_neg hne, Function.update_of_ne hne.symm, List.append_nil]

include hw hx

/-- The ring takes the whole burst. -/
theorem inFlight_enqueueBurst (h : Pooled cfg s) {r' : Nat}
    (hs : enqueueBurst cfg s r' = some s') : inFlight s' r x = inFlight s r x := by
  obtain ⟨bufs, y, hpc, hy, rfl⟩ := enqueueBurst_some hs
  simp only [inFlight]
  rcases eq_or_ne r' r with rfl | hne
  · cases Option.some.inj (hx.symm.trans hy)
    have hroom : bufs.length ≤ ringCapacity - (s.ring x).length := by
      have hle := h.length_le hx
      have hlt : poolSize < ringCapacity := by decide
      rw [hpc, RxPc.held] at hle
      omega
    rw [Function.update_self, Function.update_self, hpc, List.take_of_length_le hroom,
      List.append_assoc, List.append_assoc, List.append_assoc]
    exact congrArg _ (congrArg _ (List.append_nil bufs))
  · rw [Function.update_of_ne (first_ring_ne hw hy hx hne.symm), Function.update_of_ne hne.symm]

theorem inFlight_dequeueBurst {t : Nat} (ht : t < cfg.nTxThread)
    (hs : dequeueBurst cfg burstSize s t = some s') : inFlight s' r x = inFlight s r x := by
  obtain ⟨-, hxt, htx⟩ := hw.rx r x (List.mem_of_getElem? hx)
  obtain ⟨y, hpc, hy, ⟨-, rfl⟩ | ⟨-, rfl⟩⟩ := dequeueBurst_some hs
  · rfl
  · simp only [inFlight]
    rcases eq_or_ne t x.txThreadId with rfl | hne
    · cases Option.some.inj (htx.symm.trans hy)
      rw [Function.update_self, Function.update_self, hpc]
      simp only [TxPc.held, List.drop_zero, List.take_append_drop, List.nil_append]
    · have hyx : x ≠ y := by
        rintro rfl
        exact hne (hw.ring_inj ht hxt hy htx)
      rw [Function.update_of_ne hyx, Function.update_of_ne hne.symm]

omit hw hx in
theorem inFlight_packetFree {t : Nat} (hs : packetFree s t = some s') :
    inFlight s r x = (Action.packet t).leaving s x.txThreadId ++ inFlight s' r x := by
  obtain ⟨bufs, buf, hpc, ⟨m, hm, rfl⟩ | ⟨hbuf, rfl⟩⟩ := packetFree_some hs
  all_goals
    simp only [inFlight, Action.leaving]
    rcases eq_or_ne t x.txThreadId with rfl | hne
  · obtain ⟨hlt, rfl⟩ := List.getElem?_eq_some_iff.mp hm
    rw [if_pos rfl, Function.update_self, hpc]
    simp only [TxPc.held, List.drop_eq_getElem_cons hlt, List.take_succ_cons, List.take_zero,
      List.cons_append, List.nil_append]
  · rw [if_neg hne, Function.update_of_ne hne.symm, List.nil_append]
  · rw [if_pos rfl, Function.update_self, hpc]
    simp only [TxPc.held, List.drop_eq_nil_of_le hbuf, List.take_nil, List.nil_append]
  · rw [if_neg hne, Function.update_of_ne hne.symm, List.nil_append]

/-- **No action changes the order of the packets on their way**, or loses one of them. -/
theorem inFlight_step (h : Pooled cfg s) {a : Action}
    (hs : step cfg portId burstSize s a = some s') :
    inFlight s r x ++ a.arriving cfg s r = a.leaving s x.txThreadId ++ inFlight s' r x := by
  cases a with
  | refill queue m =>
      rw [refill_some hs]
      exact List.append_nil _
  | rxBurst r' nbRx =>
      obtain ⟨-, hs⟩ := Option.ite_none_right_eq_some.mp hs
      exact (inFlight_rxBurst hs).symm
  | enqueueBurst r' =>
      obtain ⟨-, hs⟩ := Option.ite_none_right_eq_some.mp hs
      exact (List.append_nil _).trans (inFlight_enqueueBurst hw hx h hs).symm
  | dequeueBurst t =>
      obtain ⟨ht, hs⟩ := Option.ite_none_right_eq_some.mp hs
      exact (List.append_nil _).trans (inFlight_dequeueBurst hw hx ht hs).symm
  | packet t =>
      obtain ⟨-, hs⟩ := Option.ite_none_right_eq_some.mp hs
      exact (List.append_nil _).trans (inFlight_packetFree hs)

end InFlight

/-! ## What the mbufs hold -/

/-- The pipeline, `hash.rss` of every mbuf, and the flow table without IPG. -/
structure Loaded where
  threads : State
  rss : Mbuf → Hash
  table : Bucket → DoubleHash.PktCount 64 Unit
  /-- ghost: the hashes of the packets that an rx thread has received -/
  arrived : Nat → List Hash
  /-- ghost: the hashes that have been counted, each with its counting thread -/
  counted : List (Nat × Hash)

/-- The mbufs hold what they happen to hold. -/
def Loaded.init (cfg : Config) (rss : Mbuf → Hash) : Loaded where
  threads := State.init cfg
  rss := rss
  table _ := DoubleHash.PktCount.init (SlotIpg.off 64)
  arrived _ := []
  counted := []

def Action.nbRx : Action → Nat
  | .rxBurst _ nbRx => nbRx
  | _ => 0

/-- What becomes of the mbufs and the table. The counting thread reads `hash.rss` before it frees
the mbuf. -/
def Loaded.after (cfg : Config) (l : Loaded) (hashes : List Hash) (threads : State) :
    Action → Loaded
  | .rxBurst r nbRx =>
      { l with
        threads := threads
        rss := write l.rss ((l.threads.nic (pollQueue cfg r)).take nbRx) hashes
        arrived := Function.update l.arrived r (l.arrived r ++ hashes) }
  | .packet t =>
      let counted := ((l.threads.tx t).held.take 1).map l.rss
      { l with
        threads := threads
        table := Loop.recordAll (packet (SlotIpg.off 64)) (counted.map fun h => (0, h)) l.table
        counted := l.counted ++ counted.map fun h => (t, h) }
  | _ => { l with threads := threads }

def loadedStep (cfg : Config) (portId : UInt8) (burstSize : UInt16) (l : Loaded)
    (a : Action × List Hash) : Option Loaded :=
  if a.2.length = a.1.nbRx then
    (step cfg portId burstSize l.threads a.1).map fun threads => l.after cfg a.2 threads a.1
  else none

def Loaded.countedBy (s : Loaded) (t : Nat) : List Hash :=
  (s.counted.filter fun p => p.1 = t).map Prod.snd

def Action.received (r : Nat) (hashes : List Hash) : Action → List Hash
  | .rxBurst r' _ => if r' = r then hashes else []
  | _ => []

variable {l l' : Loaded} {a : Action} {hashes : List Hash} {threads : State}

theorem loadedStep_some (h : loadedStep cfg portId burstSize l (a, hashes) = some l') :
    hashes.length = a.nbRx ∧ ∃ threads, step cfg portId burstSize l.threads a = some threads ∧
      l' = l.after cfg hashes threads a := by
  unfold loadedStep at h
  split at h
  · next hlen =>
      obtain ⟨threads, hthreads, rfl⟩ := Option.map_eq_some_iff.mp h
      exact ⟨hlen, threads, hthreads, rfl⟩
  · cases h

theorem threads_after (a : Action) : (l.after cfg hashes threads a).threads = threads := by
  cases a <;> rfl

theorem arrived_after (a : Action) (r : Nat) :
    (l.after cfg hashes threads a).arrived r = l.arrived r ++ a.received r hashes := by
  cases a with
  | rxBurst r' nbRx =>
      simp only [Loaded.after, Action.received]
      rcases eq_or_ne r' r with rfl | hne
      · rw [Function.update_self, if_pos rfl]
      · rw [Function.update_of_ne hne.symm, if_neg hne, List.append_nil]
  | _ => exact (List.append_nil _).symm

theorem countedBy_after (a : Action) (t : Nat) :
    (l.after cfg hashes threads a).countedBy t =
      l.countedBy t ++ (a.leaving l.threads t).map l.rss := by
  cases a with
  | packet t' =>
      simp only [Loaded.countedBy, Loaded.after, Action.leaving, List.filter_append,
        List.map_append, List.filter_map]
      rcases eq_or_ne t' t with rfl | hne
      · simp [Function.comp_def]
      · simp [Function.comp_def, hne]
  | _ => exact (List.append_nil _).symm

/-- Packets are written into mbufs that are not on their way. -/
theorem rss_after (hlen : hashes.length = a.nbRx)
    (hs : step cfg portId burstSize l.threads a = some threads) (hpooled : Pooled cfg l.threads)
    (r : Nat) (x : Ring) :
    (∀ m ∈ inFlight l.threads r x, (l.after cfg hashes threads a).rss m = l.rss m) ∧
      (a.arriving cfg l.threads r).map (l.after cfg hashes threads a).rss =
        a.received r hashes := by
  cases a with
  | rxBurst r' nbRx =>
      have hnodup := hpooled.places.nodup (.nic (pollQueue cfg r'))
      refine ⟨fun m hm => write_of_not_mem (fun htake => ?_) _ _, ?_⟩
      · have hnic : m ∈ l.threads.places (.nic (pollQueue cfg r')) := List.mem_of_mem_take htake
        simp only [inFlight, List.mem_append] at hm
        rcases hm with (hm | hm) | hm
        · exact hpooled.places.disjoint _ (.tx x.txThreadId) Place.noConfusion hnic hm
        · exact hpooled.places.disjoint _ (.ring x) Place.noConfusion hnic hm
        · exact hpooled.places.disjoint _ (.rx r) Place.noConfusion hnic hm
      · simp only [Action.arriving, Action.received]
        rcases eq_or_ne r' r with rfl | hne
        · rw [if_pos rfl, if_pos rfl]
          apply map_write ((List.take_sublist _ _).nodup hnodup)
          obtain ⟨-, hs⟩ := Option.ite_none_right_eq_some.mp hs
          exact List.length_take.trans ((Nat.min_eq_left (rxBurst_some hs).2.2.1).trans hlen.symm)
        · rw [if_neg hne, if_neg hne]
          rfl
  | _ => exact ⟨fun _ _ => rfl, rfl⟩

/-- What leaves is not written to. -/
theorem rss_leaving (a : Action) (t : Nat) :
    (a.leaving l.threads t).map (l.after cfg hashes threads a).rss =
      (a.leaving l.threads t).map l.rss := by
  cases a <;> rfl

/-- Only packets that a counting thread counts change the table. -/
theorem table_after (hashes : List Hash)
    (hs : step cfg portId burstSize l.threads a = some threads) :
    ∃ new, (∀ p ∈ new, p.1 < cfg.nTxThread) ∧
      (l.after cfg hashes threads a).counted = l.counted ++ new ∧
      (l.after cfg hashes threads a).table =
        Loop.recordAll (packet (SlotIpg.off 64)) (new.map fun p => (0, p.2)) l.table := by
  cases a with
  | packet t =>
      obtain ⟨ht, -⟩ := Option.ite_none_right_eq_some.mp hs
      refine ⟨_, fun p hp => ?_, rfl, ?_⟩
      · obtain ⟨h, -, rfl⟩ := List.mem_map.mp hp
        exact ht
      · simp only [Loaded.after, List.map_map]
        rfl
  | _ => exact ⟨[], fun _ hp => absurd hp List.not_mem_nil, (List.append_nil _).symm, rfl⟩

/-! ## The invariant -/

/-- What has been counted and what is on its way is what has arrived, and the table is that of what
has been counted. The mbufs on their way from a queue are of one pool. -/
structure Delivered (cfg : Config) (l : Loaded) : Prop where
  pooled : Pooled cfg l.threads
  pool : ∀ r x, (cfg.rxThread r).ring[0]? = some x →
    ∀ m ∈ inFlight l.threads r x, m.pool = (pollQueue cfg r).queueId.toNat
  inOrder : ∀ r x, (cfg.rxThread r).ring[0]? = some x →
    l.countedBy x.txThreadId ++ (inFlight l.threads r x).map l.rss = l.arrived r
  counters : ∀ p ∈ l.counted, p.1 < cfg.nTxThread
  table : l.table = table (SlotIpg.off 64) (l.counted.map fun p => (0, p.2))

theorem arriving_subset (a : Action) (s : State) (r : Nat) :
    a.arriving cfg s r ⊆ s.nic (pollQueue cfg r) := by
  cases a with
  | rxBurst r' nbRx =>
      simp only [Action.arriving]
      rcases eq_or_ne r' r with rfl | hne
      · rw [if_pos rfl]
        exact List.take_subset _ _
      · rw [if_neg hne]
        exact List.nil_subset _
  | _ => exact List.nil_subset _

theorem isInvariant_delivered (hw : Wired cfg) (rss : Mbuf → Hash) :
    IsInvariant (loadedStep cfg portId burstSize) (Loaded.init cfg rss) (Delivered cfg) where
  init := ⟨pooled_init, fun _ _ _ _ hm => absurd hm List.not_mem_nil, fun _ _ _ => rfl,
    fun _ hp => absurd hp List.not_mem_nil, rfl⟩
  step := by
    rintro l ⟨a, hashes⟩ l' h hs
    obtain ⟨hlen, threads, hthreads, rfl⟩ := loadedStep_some hs
    obtain ⟨new, hnew, hcounted, htable⟩ := table_after hashes hthreads
    refine ⟨?_, fun r x hx m hm => ?_, fun r x hx => ?_, fun p hp => ?_, ?_⟩
    · rw [threads_after]
      exact (isInvariant_pooled hw).step _ _ _ h.pooled hthreads
    · rw [threads_after] at hm
      have hmem : m ∈ inFlight l.threads r x ++ a.arriving cfg l.threads r := by
        rw [inFlight_step hw hx h.pooled hthreads]
        exact List.mem_append_right _ hm
      rcases List.mem_append.mp hmem with hmem | hmem
      · exact h.pool r x hx m hmem
      · exact h.pooled.nic _ m (arriving_subset a l.threads r hmem)
    · obtain ⟨hsame, hreceived⟩ := rss_after hlen hthreads h.pooled r x
      have hflight := congrArg (List.map (l.after cfg hashes threads a).rss)
        (inFlight_step hw hx h.pooled hthreads)
      rw [List.map_append, List.map_append, hreceived, List.map_congr_left hsame,
        rss_leaving] at hflight
      rw [threads_after, arrived_after, countedBy_after, ← h.inOrder r x hx, List.append_assoc,
        List.append_assoc, hflight]
    · rw [hcounted] at hp
      rcases List.mem_append.mp hp with hp | hp
      · exact h.counters p hp
      · exact hnew p hp
    · rw [hcounted, htable, h.table, List.map_append, table, table, Loop.recordAll, Loop.recordAll,
        Loop.recordAll, Buckets.run_append]

/-- The packets on their way are held by different mbufs of one pool. -/
theorem Delivered.length_le (h : Delivered cfg l) {r : Nat} {x : Ring}
    (hx : (cfg.rxThread r).ring[0]? = some x) : (inFlight l.threads r x).length ≤ poolSize := by
  apply length_le_poolSize _ (h.pool r x hx)
  have hplaces := h.pooled.places
  have htx := hplaces.nodup_append (i := .tx x.txThreadId) (j := .ring x) Place.noConfusion
  apply List.nodup_append'.mpr
  refine ⟨htx, hplaces.nodup (.rx r), fun m hm hrx => ?_⟩
  rcases List.mem_append.mp hm with hm | hm
  · exact hplaces.disjoint (.tx x.txThreadId) (.rx r) Place.noConfusion hm hrx
  · exact hplaces.disjoint (.ring x) (.rx r) Place.noConfusion hm hrx

/-! ## The other rings -/

/-- The ring of a counting thread is the first ring of an rx thread. -/
def HasFirstRing (cfg : Config) (t : Nat) : Prop :=
  ∃ r < cfg.nRxThread, ∃ x, (cfg.rxThread r).ring[0]? = some x ∧ x.txThreadId = t

/-- Nothing comes to the counting threads of the other rings. -/
structure Unfed (cfg : Config) (l : Loaded) : Prop where
  ring : ∀ t < cfg.nTxThread, ¬ HasFirstRing cfg t → ∀ x, (cfg.txThread t).ring = some x →
    l.threads.ring x = []
  tx : ∀ t < cfg.nTxThread, ¬ HasFirstRing cfg t → l.threads.tx t = .dequeue
  counted : ∀ t < cfg.nTxThread, ¬ HasFirstRing cfg t → l.countedBy t = []

/-- The rings that no rx thread enqueues to stay empty. -/
theorem Unfed.ring_step (hw : Wired cfg) (h : Unfed cfg l) {a : Action}
    (hs : step cfg portId burstSize l.threads a = some threads) {t : Nat} (ht : t < cfg.nTxThread)
    (hnot : ¬ HasFirstRing cfg t) {x : Ring} (hx : (cfg.txThread t).ring = some x) :
    threads.ring x = [] := by
  have hnil := h.ring t ht hnot x hx
  cases a with
  | refill queue m =>
      rw [refill_some hs]
      exact hnil
  | rxBurst r nbRx =>
      obtain ⟨-, hs⟩ := Option.ite_none_right_eq_some.mp hs
      obtain ⟨-, -, -, ⟨-, rfl⟩ | ⟨-, rfl⟩⟩ := rxBurst_some hs <;> exact hnil
  | enqueueBurst r =>
      obtain ⟨hr, hs⟩ := Option.ite_none_right_eq_some.mp hs
      obtain ⟨bufs, y, -, hy, rfl⟩ := enqueueBurst_some hs
      obtain ⟨-, hyt, hytx⟩ := hw.rx r y (List.mem_of_getElem? hy)
      have hne : x ≠ y := by
        rintro rfl
        exact hnot ⟨r, hr, x, hy, hw.ring_inj hyt ht hytx hx⟩
      exact (Function.update_of_ne hne ..).trans hnil
  | dequeueBurst t' =>
      obtain ⟨-, hs⟩ := Option.ite_none_right_eq_some.mp hs
      obtain ⟨y, -, -, ⟨-, rfl⟩ | ⟨-, rfl⟩⟩ := dequeueBurst_some hs
      · exact hnil
      · show Function.update l.threads.ring y ((l.threads.ring y).drop burstSize.toNat) x = []
        rcases eq_or_ne x y with rfl | hne
        · rw [Function.update_self, hnil, List.drop_nil]
        · rw [Function.update_of_ne hne, hnil]
  | packet t' =>
      obtain ⟨-, hs⟩ := Option.ite_none_right_eq_some.mp hs
      obtain ⟨bufs, buf, -, ⟨m, -, rfl⟩ | ⟨-, rfl⟩⟩ := packetFree_some hs <;> exact hnil

/-- Nor do their counting threads ever have a burst. -/
theorem Unfed.tx_step (h : Unfed cfg l) {a : Action}
    (hs : step cfg portId burstSize l.threads a = some threads) {t : Nat} (ht : t < cfg.nTxThread)
    (hnot : ¬ HasFirstRing cfg t) : threads.tx t = .dequeue := by
  have hpc := h.tx t ht hnot
  cases a with
  | refill queue m =>
      rw [refill_some hs]
      exact hpc
  | rxBurst r nbRx =>
      obtain ⟨-, hs⟩ := Option.ite_none_right_eq_some.mp hs
      obtain ⟨-, -, -, ⟨-, rfl⟩ | ⟨-, rfl⟩⟩ := rxBurst_some hs <;> exact hpc
  | enqueueBurst r =>
      obtain ⟨-, hs⟩ := Option.ite_none_right_eq_some.mp hs
      obtain ⟨bufs, y, -, -, rfl⟩ := enqueueBurst_some hs
      exact hpc
  | dequeueBurst t' =>
      obtain ⟨-, hs⟩ := Option.ite_none_right_eq_some.mp hs
      obtain ⟨y, -, hy, ⟨-, rfl⟩ | ⟨hne, rfl⟩⟩ := dequeueBurst_some hs
      · exact hpc
      · have htt : t ≠ t' := by
          rintro rfl
          rw [h.ring t ht hnot y hy, List.take_nil] at hne
          exact hne rfl
        exact (Function.update_of_ne htt ..).trans hpc
  | packet t' =>
      obtain ⟨-, hs⟩ := Option.ite_none_right_eq_some.mp hs
      obtain ⟨bufs, buf, hpc', hcase⟩ := packetFree_some hs
      have htt : t ≠ t' := by
        rintro rfl
        rw [hpc] at hpc'
        cases hpc'
      obtain ⟨m, -, rfl⟩ | ⟨-, rfl⟩ := hcase <;> exact (Function.update_of_ne htt ..).trans hpc

theorem isInvariant_unfed (hw : Wired cfg) (rss : Mbuf → Hash) :
    IsInvariant (loadedStep cfg portId burstSize) (Loaded.init cfg rss) (Unfed cfg) where
  init := ⟨fun _ _ _ _ _ => rfl, fun _ _ _ => rfl, fun _ _ _ => rfl⟩
  step := by
    rintro l ⟨a, hashes⟩ l' h hs
    obtain ⟨-, threads, hthreads, rfl⟩ := loadedStep_some hs
    refine ⟨fun t ht hnot x hx => ?_, fun t ht hnot => ?_, fun t ht hnot => ?_⟩
    · rw [threads_after]
      exact h.ring_step hw hthreads ht hnot hx
    · rw [threads_after]
      exact h.tx_step hthreads ht hnot
    · have hleaving : a.leaving l.threads t = [] := by
        cases a with
        | packet t' =>
            simp only [Action.leaving, h.tx t ht hnot, TxPc.held, List.take_nil, ite_self]
        | _ => rfl
      rw [countedBy_after, hleaving, h.counted t ht hnot]
      rfl

/-! ## What is counted -/

/-- **What arrives is what is counted**, whatever the traffic, the burst size and the interleaving:
the hashes that the counting thread of an rx thread's first ring has counted are those that the rx
thread has received, in the order of their arrival, but for those of the packets on their way, of
which there are never more than a pool holds. With one counting thread, the flow table is the table
of what it has counted. The counting threads of the other rings count nothing. -/
theorem counted_append_inFlight (rteRingCreate : String → Bool) (rteLcoreToSocketId : Nat → Nat)
    (rx : List RxThreadParams) (tx : List TxThreadParams) (cfg : Config)
    (hcfg : initThreads rteRingCreate rteLcoreToSocketId rx tx = some cfg) (portId : UInt8)
    (burstSize : UInt16) (rss : Mbuf → Hash) (as : List (Action × List Hash)) (l : Loaded)
    (hl : run (loadedStep cfg portId burstSize) (Loaded.init cfg rss) as = some l) :
    (∀ r x, (cfg.rxThread r).ring[0]? = some x →
      l.countedBy x.txThreadId ++ (inFlight l.threads r x).map l.rss = l.arrived r ∧
        (inFlight l.threads r x).length ≤ poolSize ∧
        (cfg.nTxThread = 1 →
          l.table = table (SlotIpg.off 64) ((l.countedBy x.txThreadId).map fun h => (0, h)))) ∧
    ∀ t < cfg.nTxThread, ¬ HasFirstRing cfg t → l.countedBy t = [] := by
  have hw := wired_initThreads hcfg
  have h : Delivered cfg l := (isInvariant_delivered hw rss).run hl
  refine ⟨fun r x hx => ⟨h.inOrder r x hx, h.length_le hx, fun hone => ?_⟩,
    ((isInvariant_unfed hw rss).run hl).counted⟩
  have hall : l.counted.filter (fun p => p.1 = x.txThreadId) = l.counted := by
    apply List.filter_eq_self.mpr
    intro p hp
    have hp' := h.counters p hp
    have hx' := (hw.rx r x (List.mem_of_getElem? hx)).2.1
    rw [hone] at hp' hx'
    simp only [decide_eq_true_eq]
    omega
  rw [h.table, Loaded.countedBy, hall, List.map_map]
  rfl

def secondRing : Config :=
  (initThreads (fun _ => true) (fun _ => 0) [⟨3, 0, 1, 0⟩] [⟨2, 0⟩, ⟨3, 0⟩]).getD Config.zero

/-- Nobody enqueues to the second ring. -/
example : secondRing.nTxThread = 2 ∧ ¬ HasFirstRing secondRing 1 := by
  refine ⟨rfl, ?_⟩
  rintro ⟨r, hr, x, hx, hxt⟩
  obtain rfl : r = 0 := Nat.lt_one_iff.mp hr
  cases hx
  cases hxt

theorem poolSize_pos : 0 < poolSize := by decide

theorem one_lt_poolSize : 1 < poolSize := by decide

/-- Two packets are received, and the first of them is counted. -/
def twoHashes : List (Action × List Hash) :=
  [(.refill ⟨3, 0⟩ ⟨0, 0, poolSize_pos⟩, []),
    (.refill ⟨3, 0⟩ ⟨0, 1, one_lt_poolSize⟩, []), (.rxBurst 0 2, [5, 7]), (.enqueueBurst 0, []),
    (.dequeueBurst 0, []), (.packet 0, [])]

theorem isSome_twoHashes :
    (run (loadedStep oneRing 3 256) (Loaded.init oneRing fun _ => 0) twoHashes).isSome := by
  decide +kernel

def twoHashesState : Loaded :=
  (run (loadedStep oneRing 3 256) (Loaded.init oneRing fun _ => 0) twoHashes).get isSome_twoHashes

theorem counted_append_inFlight_two_hashes :
    let l := twoHashesState
    ((∀ r x, (oneRing.rxThread r).ring[0]? = some x →
      l.countedBy x.txThreadId ++ (inFlight l.threads r x).map l.rss = l.arrived r ∧
        (inFlight l.threads r x).length ≤ poolSize ∧
        (oneRing.nTxThread = 1 →
          l.table = table (SlotIpg.off 64) ((l.countedBy x.txThreadId).map fun h => (0, h)))) ∧
    ∀ t < oneRing.nTxThread, ¬ HasFirstRing oneRing t → l.countedBy t = []) ∧
    l.countedBy 0 = [5] ∧ l.arrived 0 = [5, 7] :=
  ⟨counted_append_inFlight (fun _ => true) (fun _ => 0) [⟨3, 0, 1, 0⟩] [⟨2, 0⟩] oneRing rfl 3 256
    (fun _ => 0) twoHashes twoHashesState (Option.some_get isSome_twoHashes).symm,
    by decide +kernel, by decide +kernel⟩

end Pthread
end FloWatcher
