import FloWatcher.Lthread.Counting
import FloWatcher.Lthread.Packets
import FloWatcher.Lthread.Wakeup
import FloWatcher.Transition.Places
import FloWatcher.Transition.Simulation

/-!
# The hashes that the lthreads count

A packet is no more than an mbuf with a hash in it, and the mbufs are used again and again. Yet the
pipeline of the mbufs is simulated by a pipeline in which every packet carries its hash with it
(`simulates_packets`): nothing is written into an mbuf while it is in use. So each hash received is
counted once, lost or still on its way, and each tx lthread counts its hashes in the order of their
arrival (`hashes_delivered`).
-/

namespace FloWatcher
namespace Lthread

open Transition

variable {M : Type} {cfg : Config}

/-! ## The order of arrival -/

/-- What an rx lthread has received and not yet offered to a ring. -/
def RxPc.offered : RxPc M → List M
  | .enqueue burst => burst
  | _ => []

/-- A ring has accepted packets in the order of their arrival, before those that are about to be
offered to it. -/
def InOrder (cfg : Config) (s : State M) : Prop :=
  ∀ r x, x ∈ (cfg.rxThread r).ring → (s.enqueued x ++ (s.rx r).pc.offered).Sublist s.received

theorem offered_polled (conf : ThreadRxConf) (th : RxThread M) (burst : List M) :
    (th.polled conf burst).pc.offered = burst := by
  cases burst <;> rfl

/-- An rx lthread that has nothing to offer any more. -/
theorem InOrder.goOnRx {s : State M} (h : InOrder cfg s) {r : Nat} {th : RxThread M}
    (hoffered : th.pc.offered = []) : InOrder cfg { s with rx := Function.update s.rx r th } := by
  intro r' x hx
  dsimp only
  rcases eq_or_ne r' r with rfl | hne
  · rw [Function.update_self, hoffered, List.append_nil]
    exact (List.sublist_append_left _ _).trans (h r' x hx)
  · rw [Function.update_of_ne hne]
    exact h r' x hx

theorem inOrder_stepRx [DecidableEq M] (hw : Wired cfg) {s s' : State M} (h : InOrder cfg s)
    {r : Nat} {a : RxAction M} (hs : stepRx cfg s r a = some s') : InOrder cfg s' := by
  cases rxStep_of_stepRx hs with
  | @rxBurst burst hpc hi hlen hfree =>
      intro r' x hx
      have hold := h r' x hx
      dsimp only
      rcases eq_or_ne r' r with rfl | hne
      · have hnone : (s.rx r').pc.offered = [] := by rw [hpc]; rfl
        rw [hnone, List.append_nil] at hold
        rw [Function.update_self, offered_polled]
        exact hold.append (List.Sublist.refl burst)
      · rw [Function.update_of_ne hne]
        exact hold.trans (List.sublist_append_left _ _)
  | @enqueueBurst burst ret x hpc hx hret =>
      intro r' y hy
      have hold := h r' y hy
      dsimp only
      rcases eq_or_ne r' r with rfl | hne
      · rw [hpc] at hold
        rw [Function.update_self]
        refine List.Sublist.trans ?_ hold
        rcases eq_or_ne y x with rfl | hyx
        · rw [Function.update_self, List.append_assoc]
          apply List.Sublist.append_left
          exact (List.append_nil (burst.take ret)).symm ▸ List.take_sublist ret burst
        · rw [Function.update_of_ne hyx]
          exact List.Sublist.append_left (List.nil_sublist burst) _
      · have hyx : y ≠ x := by
          rintro rfl
          exact hne ((hw.rx r' y hy).1.symm.trans (hw.rx r y (List.mem_of_getElem? hx)).1)
        rw [Function.update_of_ne hne, Function.update_of_ne hyx]
        exact hold
  | @signal burst ret hpc hsent =>
      apply InOrder.goOnRx h
      split <;> rfl
  | @noSignal burst ret hpc hsent =>
      apply InOrder.goOnRx h
      split <;> rfl
  | _ => exact InOrder.goOnRx h rfl

theorem isInvariant_inOrder [DecidableEq M] (hw : Wired cfg) :
    IsInvariant (step cfg) (State.init : State M) (InOrder cfg) where
  init _ _ _ := List.Sublist.refl []
  step s a s' h hs := by
    cases a with
    | rx r a => exact inOrder_stepRx hw h (step_rx hs).2
    | tx t a => cases txStep_of_stepTx (step_tx hs).2 <;> exact h

/-! ## What the mbufs hold -/

/-- The pipeline, `hash.rss` of every mbuf, and the flow table without IPG. -/
structure Loaded (M : Type) where
  threads : State M
  rss : M → Hash
  table : Bucket → DoubleHash.PktCount 32 Unit
  /-- ghost: the hashes of the packets received -/
  arrived : List Hash
  /-- ghost: the hashes of the packets that an rx lthread has added to `ring_loss` -/
  lost : Nat → List Hash
  /-- ghost: the hashes that have been counted, each with its tx lthread -/
  counted : List (Nat × Hash)

/-- The mbufs hold what they happen to hold. -/
def Loaded.init (rss : M → Hash) : Loaded M where
  threads := State.init
  rss := rss
  table _ := DoubleHash.PktCount.init (SlotIpg.off 32)
  arrived := []
  lost _ := []
  counted := []

/-- What becomes of the mbufs and the table. The tx lthread reads `hash.rss` before it frees the
mbuf. -/
def Loaded.after [DecidableEq M] (l : Loaded M) (hashes : List Hash) (threads : State M) :
    Action M → Loaded M
  | .rx _ (.rxBurst burst) =>
      { l with
        threads := threads
        rss := write l.rss burst hashes
        arrived := l.arrived ++ hashes }
  | .rx r .writeLoss =>
      { l with
        threads := threads
        lost := Function.update l.lost r (l.lost r ++ (l.threads.rx r).pc.held.map l.rss) }
  | .tx t .packet =>
      let counted := ((l.threads.tx t).pc.unfreed.take 1).map l.rss
      { l with
        threads := threads
        table :=
          Loop.recordAll (DoubleHash.packet (SlotIpg.off 32)) (counted.map fun h => (0, h)) l.table
        counted := l.counted ++ counted.map fun h => (t, h) }
  | _ => { l with threads := threads }

def loadedStep [DecidableEq M] (cfg : Config) (l : Loaded M) (a : Action M × List Hash) :
    Option (Loaded M) :=
  if a.2.length = a.1.arriving.length then
    (step cfg l.threads a.1).map fun threads => l.after a.2 threads a.1
  else none

def Loaded.countedBy (l : Loaded M) (t : Nat) : List Hash :=
  (l.counted.filter fun p => p.1 = t).map Prod.snd

/-- The hashes of the packets that tx lthread `t` has yet to count, in this order. -/
def Loaded.uncounted (cfg : Config) (l : Loaded M) (t : Nat) : List Hash :=
  ((l.threads.tx t).pc.unfreed ++ (l.threads.tx t).pc.held ++ l.threads.content cfg t).map l.rss

/-- The hashes of the packets that rx lthread `r` has yet to offer or to add to `ring_loss`. -/
def Loaded.inHand (l : Loaded M) (r : Nat) : List Hash := (l.threads.rx r).pc.held.map l.rss

section Loaded

variable [DecidableEq M] {l l' : Loaded M} {a : Action M} {hashes : List Hash} {threads : State M}

theorem loadedStep_some (h : loadedStep cfg l (a, hashes) = some l') :
    hashes.length = a.arriving.length ∧ ∃ threads, step cfg l.threads a = some threads ∧
      l' = l.after hashes threads a := by
  unfold loadedStep at h
  split at h
  · next hlen =>
      obtain ⟨threads, hthreads, rfl⟩ := Option.map_eq_some_iff.mp h
      exact ⟨hlen, threads, hthreads, rfl⟩
  · cases h

theorem threads_after : (l.after hashes threads a).threads = threads := by
  rcases a with ⟨r, a⟩ | ⟨t, a⟩ <;> cases a <;> rfl

theorem arrived_after (hlen : hashes.length = a.arriving.length) :
    (l.after hashes threads a).arrived = l.arrived ++ hashes := by
  have hnone : a.arriving = [] → l.arrived = l.arrived ++ hashes := by
    intro h
    rw [h] at hlen
    rw [List.eq_nil_of_length_eq_zero hlen, List.append_nil]
  cases a with
  | rx r a =>
      cases a with
      | rxBurst burst => rfl
      | _ => exact hnone rfl
  | tx t a => cases a <;> exact hnone rfl

theorem lost_after (r : Nat) :
    (l.after hashes threads a).lost r = l.lost r ++ (a.losing l.threads r).map l.rss := by
  have hsame : l.lost r = l.lost r ++ List.map l.rss [] := (List.append_nil _).symm
  cases a with
  | rx r' a =>
      cases a with
      | writeLoss =>
          dsimp only [Loaded.after, Action.losing]
          rcases eq_or_ne r' r with rfl | hne
          · rw [Function.update_self, if_pos rfl]
          · rw [Function.update_of_ne hne.symm, if_neg hne]
            exact hsame
      | _ => exact hsame
  | tx t a => cases a <;> exact hsame

theorem countedBy_after (t : Nat) :
    (l.after hashes threads a).countedBy t =
      l.countedBy t ++ (a.leaving l.threads t).map l.rss := by
  have hsame : l.countedBy t = l.countedBy t ++ List.map l.rss [] := (List.append_nil _).symm
  cases a with
  | rx r a => cases a <;> exact hsame
  | tx t' a =>
      cases a with
      | packet =>
          simp only [Loaded.countedBy, Loaded.after, Action.leaving, List.filter_append,
            List.map_append, List.filter_map]
          rcases eq_or_ne t' t with rfl | hne
          · simp [Function.comp_def]
          · simp [Function.comp_def, hne]
      | _ => exact hsame

/-- Only packets that a tx lthread counts change the table. -/
theorem table_after (hs : step cfg l.threads a = some threads) :
    ∃ new, (∀ p ∈ new, p.1 < cfg.nTxThread) ∧
      (l.after hashes threads a).counted = l.counted ++ new ∧
      (l.after hashes threads a).table =
        Loop.recordAll (DoubleHash.packet (SlotIpg.off 32)) (new.map fun p => (0, p.2)) l.table := by
  have hsame : ∃ new, (∀ p ∈ new, p.1 < cfg.nTxThread) ∧ l.counted = l.counted ++ new ∧
      l.table = Loop.recordAll (DoubleHash.packet (SlotIpg.off 32)) (new.map fun p => (0, p.2))
        l.table :=
    ⟨[], fun _ hp => absurd hp List.not_mem_nil, (List.append_nil _).symm, rfl⟩
  cases a with
  | rx r a => cases a <;> exact hsame
  | tx t a =>
      cases a with
      | packet =>
          refine ⟨_, fun p hp => ?_, rfl, ?_⟩
          · obtain ⟨h, -, rfl⟩ := List.mem_map.mp hp
            exact (step_tx hs).1
          · simp only [Loaded.after, List.map_map]
            rfl
      | _ => exact hsame

end Loaded

/-! ## The simulation -/

def RxAction.load (hashes : List Hash) : RxAction M → RxAction (M × Hash)
  | .rxBurst burst => .rxBurst (burst.zip hashes)
  | .enqueueBurst ret => .enqueueBurst ret
  | .signal => .signal
  | .readLoss => .readLoss
  | .writeLoss => .writeLoss
  | .free => .free
  | .yield => .yield

def Action.load (hashes : List Hash) : Action M → Action (M × Hash)
  | .rx r a => .rx r (a.load hashes)
  | .tx t a => .tx t a

structure Carries (cfg : Config) (l : Loaded M) (p : State (M × Hash)) : Prop where
  threads : l.threads = p.map Prod.fst
  rss : ∀ q, p.InUse cfg q → l.rss q.1 = q.2
  arrived : l.arrived = p.received.map Prod.snd
  lost : ∀ r, l.lost r = (p.rx r).lost.map Prod.snd
  counted : ∀ t, l.countedBy t = (p.tx t).freed.map Prod.snd

theorem InUse_map {s : State M} {N : Type} (f : M → N) {m : M} (h : s.InUse cfg m) :
    (s.map f).InUse cfg (f m) := by
  rcases h with ⟨r, hr, hm⟩ | ⟨t, ht, hm⟩
  · refine .inl ⟨r, hr, ?_⟩
    have hmap := List.mem_map_of_mem (f := f) hm
    rwa [List.map_append, ← RxPc.held_map, ← RxPc.unfreed_map] at hmap
  · refine .inr ⟨t, ht, ?_⟩
    have hmap := List.mem_map_of_mem (f := f) hm
    rwa [List.map_append, List.map_append, ← TxPc.held_map, ← TxPc.unfreed_map,
      ← content_map] at hmap

/-- Mbufs in use hold the hashes of their packets. -/
theorem Carries.map_rss {l : Loaded M} {p : State (M × Hash)} (h : Carries cfg l p)
    {qs : List (M × Hash)} (hqs : ∀ q ∈ qs, p.InUse cfg q) :
    (qs.map Prod.fst).map l.rss = qs.map Prod.snd := by
  rw [List.map_map]
  exact List.map_congr_left fun q hq => h.rss q (hqs q hq)

section Simulation

variable {l : Loaded M} {p : State (M × Hash)} {a : Action M} {hashes : List Hash}
  {threads : State M}

theorem arriving_load (hlen : hashes.length = a.arriving.length) :
    (a.load hashes).arriving.map Prod.fst = a.arriving ∧
      (a.load hashes).arriving.map Prod.snd = hashes := by
  have hnone : a.arriving = [] → hashes = [] := by
    intro h
    rw [h] at hlen
    exact List.eq_nil_of_length_eq_zero hlen
  cases a with
  | rx r a =>
      cases a with
      | rxBurst burst => exact ⟨List.map_fst_zip hlen.ge, List.map_snd_zip hlen.le⟩
      | _ => exact ⟨rfl, (hnone rfl).symm⟩
  | tx t a => cases a <;> exact ⟨rfl, (hnone rfl).symm⟩

theorem losing_load (hashes : List Hash) (p : State (M × Hash)) (r : Nat) :
    ((a.load hashes).losing p r).map Prod.fst = a.losing (p.map Prod.fst) r := by
  cases a with
  | rx r' a =>
      cases a with
      | writeLoss =>
          dsimp only [Action.load, RxAction.load, Action.losing]
          split
          · exact (RxPc.held_map Prod.fst (p.rx r).pc).symm
          · rfl
      | _ => rfl
  | tx t a => rfl

theorem leaving_load (hashes : List Hash) (p : State (M × Hash)) (t : Nat) :
    ((a.load hashes).leaving p t).map Prod.fst = a.leaving (p.map Prod.fst) t := by
  cases a with
  | rx r a => rfl
  | tx t' a =>
      cases a with
      | packet =>
          dsimp only [Action.load, Action.leaving]
          split
          · rw [List.map_take]
            exact congrArg (List.take 1) (TxPc.unfreed_map Prod.fst (p.tx t).pc).symm
          · rfl
      | _ => rfl

variable [DecidableEq M]

/-- A port hands out different mbufs, which are not in use. -/
theorem arriving_free (hs : step cfg l.threads a = some threads) :
    a.arriving.Nodup ∧ ∀ m ∈ a.arriving, ¬ l.threads.InUse cfg m := by
  have hnone : ([] : List M).Nodup ∧ ∀ m ∈ ([] : List M), ¬ l.threads.InUse cfg m :=
    ⟨List.nodup_nil, fun _ hm => absurd hm List.not_mem_nil⟩
  cases a with
  | rx r a =>
      cases rxStep_of_stepRx (step_rx hs).2 with
      | @rxBurst burst hpc hi hlen hfree =>
          refine ⟨List.nodup_iff_count_le_one.mpr fun m => ?_, fun m hm hin => ?_⟩
          · show burst.count m ≤ 1
            by_cases hm : m ∈ burst
            · exact (Nat.le_add_right _ _).trans (hfree m hm)
            · rw [List.count_eq_zero_of_not_mem hm]
              exact Nat.zero_le 1
          · have hpos : 0 < burst.count m := List.count_pos_iff.mpr hm
            have hlive := (inUse_iff _ m).mp hin
            have hle := hfree m hm
            omega
      | _ => exact hnone
  | tx t a => exact hnone

/-- An action on the mbufs is one on the packets in them. -/
theorem Carries.exists_step (h : Carries cfg l p) (hlen : hashes.length = a.arriving.length)
    (hs : step cfg l.threads a = some threads) :
    ∃ p', step cfg p (a.load hashes) = some p' ∧ threads = p'.map Prod.fst := by
  have hfresh := arriving_free hs
  obtain ⟨hfst, -⟩ := arriving_load hlen
  rw [h.threads] at hs hfresh
  cases a with
  | tx t a =>
      obtain ⟨ht, hs⟩ := step_tx hs
      rw [stepTx_map] at hs
      obtain ⟨p', hp', rfl⟩ := Option.map_eq_some_iff.mp hs
      exact ⟨p', (if_pos ht).trans hp', rfl⟩
  | rx r a =>
      obtain ⟨hr, hs⟩ := step_rx hs
      have hother : (∀ burst, a.load hashes ≠ .rxBurst burst) → (a.load hashes).map Prod.fst = a →
          ∃ p', step cfg p (.rx r (a.load hashes)) = some p' ∧ threads = p'.map Prod.fst := by
        intro ha hload
        rw [← hload, stepRx_map Prod.fst p r ha] at hs
        obtain ⟨p', hp', rfl⟩ := Option.map_eq_some_iff.mp hs
        exact ⟨p', (if_pos hr).trans hp', rfl⟩
      cases a with
      | rxBurst burst =>
          cases rxStep_of_stepRx hs with
          | rxBurst hpc hi hburst hfree =>
              have hmap : (burst.zip hashes).map Prod.fst = burst := hfst
              have hpc' : (p.rx r).pc = .poll := by
                have hpoll : (p.rx r).pc.map Prod.fst = .poll := hpc
                cases hp : (p.rx r).pc <;> rw [hp] at hpoll <;> first | rfl | cases hpoll
              have hnodup : (burst.zip hashes).Nodup := List.Nodup.of_map Prod.fst (by
                rw [hmap]
                exact hfresh.1)
              have hlen' : (burst.zip hashes).length ≤ maxPktBurst := by
                rwa [← List.length_map Prod.fst, hmap]
              have hfree' : ∀ q ∈ burst.zip hashes, ¬ p.InUse cfg q := fun q hq hin =>
                hfresh.2 _ (hmap ▸ List.mem_map_of_mem hq) (InUse_map Prod.fst hin)
              refine ⟨_, (if_pos hr).trans (stepRx_rxBurst_of_free hpc' hi hlen' hnodup hfree'), ?_⟩
              have hpolled := polled_map Prod.fst (cfg.rxThread r) (p.rx r) (burst.zip hashes)
              rw [hmap] at hpolled
              simp only [State.map, Function.comp_update, List.map_append, hmap, ← hpolled]
              rfl
      | _ =>
          refine hother (fun burst h => ?_) rfl
          cases h

theorem rss_after {m : M} (hm : m ∉ a.arriving) :
    (l.after hashes threads a).rss m = l.rss m := by
  cases a with
  | rx r a =>
      cases a with
      | rxBurst burst => exact write_of_not_mem hm _ _
      | _ => rfl
  | tx t a => cases a <;> rfl

/-- An mbuf that is received holds the hash of its packet. -/
theorem rss_arriving (hlen : hashes.length = a.arriving.length) (hnodup : a.arriving.Nodup)
    {q : M × Hash} (hq : q ∈ (a.load hashes).arriving) :
    (l.after hashes threads a).rss q.1 = q.2 := by
  cases a with
  | rx r a =>
      cases a with
      | rxBurst burst =>
          have hzip : burst.zip hashes = burst.map fun m => (m, write l.rss burst hashes m) := by
            have hmap : (burst.map id).zip (burst.map (write l.rss burst hashes)) =
                burst.map fun m => (m, write l.rss burst hashes m) := List.zip_map'
            have hwritten : burst.map (write l.rss burst hashes) = hashes :=
              map_write hnodup _ hlen.symm
            rwa [List.map_id, hwritten] at hmap
          have hmem : q ∈ burst.zip hashes := hq
          rw [hzip] at hmem
          obtain ⟨m, -, rfl⟩ := List.mem_map.mp hmem
          rfl
      | _ => cases hq
  | tx t a => cases hq

/-- **The mbufs are simulated by packets that carry their hashes.** -/
theorem simulates_packets (rss : M → Hash) :
    Simulates (loadedStep cfg) (Loaded.init rss) (step cfg) (State.init : State (M × Hash))
      (Carries cfg) where
  init :=
    { threads := rfl
      rss := by
        rintro q (⟨r, -, hq⟩ | ⟨t, -, hq⟩)
        · cases hq
        · have hcontent : (State.init : State (M × Hash)).content cfg t = [] := by
            unfold State.content
            split <;> rfl
          rw [hcontent] at hq
          cases hq
      arrived := rfl
      lost := fun _ => rfl
      counted := fun _ => rfl }
  step := by
    rintro l p ⟨a, hashes⟩ l' h hs
    obtain ⟨hlen, threads, hthreads, rfl⟩ := loadedStep_some hs
    have hfresh := arriving_free hthreads
    obtain ⟨-, hhashes⟩ := arriving_load hlen
    obtain ⟨p', hp', rfl⟩ := h.exists_step hlen hthreads
    refine ⟨a.load hashes, p', hp', threads_after, fun q hq => ?_, ?_, fun r => ?_, fun t => ?_⟩
    · rcases inUse_step hp' hq with hold | hnew
      · rw [rss_after, h.rss q hold]
        intro hmem
        refine hfresh.2 q.1 hmem ?_
        rw [h.threads]
        exact InUse_map Prod.fst hold
      · exact rss_arriving hlen hfresh.1 hnew
    · rw [arrived_after hlen, received_step hp', List.map_append, hhashes, h.arrived]
    · rw [lost_after, lost_step hp', List.map_append, h.lost, h.threads,
        ← losing_load hashes]
      exact congrArg _ (h.map_rss fun q hq => .of_losing hp' hq)
    · rw [countedBy_after, freed_step hp', List.map_append, h.counted, h.threads,
        ← leaving_load hashes]
      exact congrArg _ (h.map_rss fun q hq => .of_leaving hp' hq)

end Simulation

/-! ## The table -/

structure Tabled (cfg : Config) (l : Loaded M) : Prop where
  counters : ∀ p ∈ l.counted, p.1 < cfg.nTxThread
  table : l.table =
    (DoubleHash.flowTable (SlotIpg.off 32)).after (l.counted.map fun p => (0, p.2))

theorem isInvariant_tabled [DecidableEq M] (rss : M → Hash) :
    IsInvariant (loadedStep cfg) (Loaded.init rss) (Tabled cfg) where
  init := ⟨fun _ hp => absurd hp List.not_mem_nil, rfl⟩
  step := by
    rintro l ⟨a, hashes⟩ l' h hs
    obtain ⟨-, threads, hthreads, rfl⟩ := loadedStep_some hs
    obtain ⟨new, hnew, hcounted, htable⟩ := table_after hthreads
    refine ⟨fun p hp => ?_, ?_⟩
    · rw [hcounted] at hp
      rcases List.mem_append.mp hp with hp | hp
      · exact h.counters p hp
      · exact hnew p hp
    · rw [hcounted, htable, h.table, List.map_append]
      exact (Buckets.run_append ..).symm

/-- One tx lthread has counted everything. -/
theorem Tabled.countedBy_zero {l : Loaded M} (h : Tabled cfg l) (hone : cfg.nTxThread = 1) :
    l.countedBy 0 = l.counted.map Prod.snd := by
  rw [Loaded.countedBy, List.filter_eq_self.mpr]
  intro p hp
  have hlt := h.counters p hp
  rw [hone] at hlt
  exact decide_eq_true (Nat.lt_one_iff.mp hlt)

/-! ## What is delivered -/

section Delivered

variable {l : Loaded M} {p : State (M × Hash)}

theorem Carries.inHand (h : Carries cfg l p) {r : Nat} (hr : r < cfg.nRxThread) :
    l.inHand r = (p.rx r).pc.held.map Prod.snd := by
  rw [Loaded.inHand, h.threads]
  refine Eq.trans ?_ (h.map_rss fun q hq => .inl ⟨r, hr, List.mem_append_left _ hq⟩)
  exact congrArg _ (RxPc.held_map Prod.fst (p.rx r).pc)

theorem Carries.uncounted (h : Carries cfg l p) {t : Nat} (ht : t < cfg.nTxThread) :
    l.uncounted cfg t =
      ((p.tx t).pc.unfreed ++ (p.tx t).pc.held ++ p.content cfg t).map Prod.snd := by
  have hin : ∀ q ∈ (p.tx t).pc.unfreed ++ (p.tx t).pc.held ++ p.content cfg t, p.InUse cfg q := by
    intro q hq
    refine .inr ⟨t, ht, ?_⟩
    simp only [List.mem_append] at hq ⊢
    exact hq.imp_left Or.symm
  rw [Loaded.uncounted, h.threads, content_map]
  refine Eq.trans ?_ (h.map_rss hin)
  simp only [List.map_append]
  exact congrArg₂ _ (congrArg₂ _ (congrArg _ (TxPc.unfreed_map Prod.fst (p.tx t).pc))
    (congrArg _ (TxPc.held_map Prod.fst (p.tx t).pc))) rfl

variable [DecidableEq M]

/-- Every hash is in one place. -/
theorem Carries.count_arrived (h : Carries cfg l p) (hp : Conserved cfg p) (x : Hash) :
    l.arrived.count x =
      ∑ r ∈ Finset.range cfg.nRxThread, ((l.inHand r).count x + (l.lost r).count x) +
        ∑ t ∈ Finset.range cfg.nTxThread, ((l.countedBy t).count x + (l.uncounted cfg t).count x) := by
  have hweight : IsWeight fun qs : List (M × Hash) => (qs.map Prod.snd).count x :=
    ⟨rfl, fun qs qs' => by rw [List.map_append, List.count_append]⟩
  have hplace := hp.place _ hweight
  have hrx : ∀ r ∈ Finset.range cfg.nRxThread, (l.inHand r).count x + (l.lost r).count x =
      (p.rx r).accounted fun qs => (qs.map Prod.snd).count x := by
    intro r hr
    rw [h.inHand (Finset.mem_range.mp hr), h.lost, RxThread.accounted]
  have htx : ∀ t ∈ Finset.range cfg.nTxThread,
      (l.countedBy t).count x + (l.uncounted cfg t).count x =
        ((p.tx t).accounted fun qs => (qs.map Prod.snd).count x) +
          ((p.content cfg t).map Prod.snd).count x := by
    intro t ht
    have hcounted := hp.dequeued t (Finset.mem_range.mp ht)
    rw [h.counted, h.uncounted (Finset.mem_range.mp ht), TxThread.accounted, hcounted]
    simp only [List.map_append, List.count_append]
    omega
  rw [h.arrived, Finset.sum_congr rfl hrx, Finset.sum_congr rfl htx, Finset.sum_add_distrib,
    hplace, State.total, Nat.add_assoc]

/-- Every tx lthread gets its hashes in the order of their arrival. -/
theorem Carries.sublist_arrived (h : Carries cfg l p) (hw : Wired cfg) (hp : Conserved cfg p)
    (horder : InOrder cfg p) {r : Nat} {x : Ring} (hx : x ∈ (cfg.rxThread r).ring) :
    (l.countedBy x.txThreadId ++ l.uncounted cfg x.txThreadId).Sublist l.arrived := by
  obtain ⟨-, ht, hring⟩ := hw.rx r x hx
  have hfifo := hp.fifo _ ht x hring
  have hcontent : p.content cfg x.txThreadId = p.ring x := by
    rw [State.content, hring]
  have haccepted : l.countedBy x.txThreadId ++ l.uncounted cfg x.txThreadId =
      (p.enqueued x).map Prod.snd := by
    rw [h.counted, h.uncounted ht, hfifo, hp.dequeued _ ht, hcontent]
    simp only [List.map_append, List.append_assoc]
  rw [haccepted, h.arrived]
  exact ((List.sublist_append_left _ _).trans (horder r x hx)).map _

end Delivered

/-- **What arrives is what is counted**, lost or on its way, whatever the interleaving, the traffic
and the packets that the rings accept. Each hash has arrived as often as it has been counted or
added to `ring_loss` or is with a thread or in a ring. The hashes that a tx lthread has counted and
will count next are some of those that have arrived, in the same order. With one tx lthread, the
flow table is the table of what it has counted. -/
theorem hashes_delivered [DecidableEq M] (rteRingCreate : String → Bool)
    (rteLcoreToSocketId : Nat → Nat) (rx : List RxThreadParams) (tx : List TxThreadParams)
    (cfg : Config) (hcfg : initThreads rteRingCreate rteLcoreToSocketId rx tx = some cfg)
    (rss : M → Hash) (as : List (Action M × List Hash)) (l : Loaded M)
    (hl : run (loadedStep (lthreadSpawner cfg)) (Loaded.init rss) as = some l) :
    (∀ x, l.arrived.count x =
      ∑ r ∈ Finset.range cfg.nRxThread, ((l.inHand r).count x + (l.lost r).count x) +
        ∑ t ∈ Finset.range cfg.nTxThread,
          ((l.countedBy t).count x + (l.uncounted (lthreadSpawner cfg) t).count x)) ∧
    (∀ r, ∀ x ∈ (cfg.rxThread r).ring,
      (l.countedBy x.txThreadId ++ l.uncounted (lthreadSpawner cfg) x.txThreadId).Sublist
        l.arrived) ∧
    (cfg.nTxThread = 1 → l.table =
      (DoubleHash.flowTable (SlotIpg.off 32)).after ((l.countedBy 0).map fun h => (0, h))) := by
  have hspawned := spawned_lthreadSpawner (wired_initThreads hcfg)
  obtain ⟨p, h, hp, horder⟩ := ((simulates_packets rss).isInvariant
    ((isInvariant_conserved hspawned).and (isInvariant_inOrder hspawned.wired))).run hl
  have htable := (isInvariant_tabled rss).run hl
  refine ⟨h.count_arrived hp, fun r x hx => ?_, fun hone => ?_⟩
  · apply h.sublist_arrived hspawned.wired hp horder
    rwa [rxThread_lthreadSpawner]
  · rw [htable.countedBy_zero hone, List.map_map]
    exact htable.table

/-- Two packets are received. The ring takes one, which is counted, and the other one is lost. -/
def twoHashes : List (Action Nat × List Hash) :=
  [(.rx 0 (.rxBurst [10, 11]), [5, 6]), (.rx 0 (.enqueueBurst 1), []), (.rx 0 .signal, []),
    (.rx 0 .readLoss, []), (.rx 0 .writeLoss, []), (.tx 0 .dequeueBurst, []), (.tx 0 .addRe, []),
    (.tx 0 .packet, [])]

theorem isSome_twoHashes :
    (run (loadedStep (lthreadSpawner oneRing)) (Loaded.init fun _ => 0) twoHashes).isSome := by
  decide +kernel

def twoHashesState : Loaded Nat :=
  (run (loadedStep (lthreadSpawner oneRing)) (Loaded.init fun _ => 0) twoHashes).get isSome_twoHashes

theorem hashes_delivered_one_lost :
    let l := twoHashesState
    (∀ x, l.arrived.count x =
      ∑ r ∈ Finset.range oneRing.nRxThread, ((l.inHand r).count x + (l.lost r).count x) +
        ∑ t ∈ Finset.range oneRing.nTxThread,
          ((l.countedBy t).count x + (l.uncounted (lthreadSpawner oneRing) t).count x)) ∧
    (∀ r, ∀ x ∈ (oneRing.rxThread r).ring,
      (l.countedBy x.txThreadId ++ l.uncounted (lthreadSpawner oneRing) x.txThreadId).Sublist
        l.arrived) ∧
    (oneRing.nTxThread = 1 → l.table =
      (DoubleHash.flowTable (SlotIpg.off 32)).after ((l.countedBy 0).map fun h => (0, h))) :=
  hashes_delivered (fun _ => true) (fun _ => 0) [⟨0, 0, 2, 0⟩] [⟨4, 0⟩] oneRing rfl (fun _ => 0)
    twoHashes twoHashesState (Option.some_get isSome_twoHashes).symm

end Lthread
end FloWatcher
