import FloWatcher.Lthread.Layout
import Mathlib.Algebra.Order.BigOperators.Group.Finset

/-!
# The start of the lthreads

The spawner creates the rx lthreads, waits until all of them have counted themselves in `rx_counter`,
and then creates the tx lthreads. An rx lthread initialises its condition variables before it counts
itself, and a tx lthread loads its variable once, at its start. The three kinds of lthreads run on
different schedulers, so that their steps interleave; `Starting` is what holds all the same.
-/

namespace FloWatcher
namespace Lthread
namespace Startup

open Transition

inductive SpawnerPc where
  | createRx (i : Nat)
  | waitRx
  | createTx (i : Nat)
  | join
  deriving DecidableEq, Repr

/-- Where an rx lthread is. In its loop it has `worker_id` and `len`. -/
inductive RxPc where
  | notCreated
  | condInit (i : Nat)
  | count
  | loop (workerId : Nat) (len : Nat → Nat)

/-- Where a tx lthread is: `lthread_tx` creates `lthread_tx_per_ring`, which loads `*tx_conf->ready`.
In its loop it has the place that it loaded from, and whether something was there. -/
inductive TxPc where
  | notCreated
  | create
  | load
  | loop (place : Nat × Nat) (initialised : Bool)
  deriving DecidableEq, Repr

/-- The threads, `rx_counter`, and which `ready[i]` of which rx thread have been initialised. -/
structure State where
  spawner : SpawnerPc
  rx : Nat → RxPc
  tx : Nat → TxPc
  rxCounter : Nat
  ready : Nat → Nat → Bool

def State.init : State where
  spawner := .createRx 0
  rx _ := .notCreated
  tx _ := .notCreated
  rxCounter := 0
  ready _ _ := false

/-- An action of the spawner, of an rx lthread in front of its loop or in it (the burst that it polls,
and how much of it the ring accepts), of a tx lthread in front of its loop, and a wait. -/
inductive Action where
  | spawner
  | rxInit (r : Nat)
  | rxBurst (r nbRx ret : Nat)
  | txInit (t : Nat)
  | condWait (t : Nat)
  deriving DecidableEq, Repr

def stepSpawner (cfg : Config) (s : State) : Option State :=
  match s.spawner with
  | .createRx i =>
      if i < cfg.nRxThread then
        some { s with spawner := .createRx (i + 1), rx := Function.update s.rx i (.condInit 0) }
      else some { s with spawner := .waitRx }
  | .waitRx =>
      if s.rxCounter < cfg.nRxThread then some s -- sleep
      else some { s with spawner := .createTx 0 }
  | .createTx i =>
      if i < cfg.nTxThread then
        some { s with spawner := .createTx (i + 1), tx := Function.update s.tx i .create }
      else some { s with spawner := .join }
  | .join => none

/-- `lthread_rx` in front of its loop. -/
def stepRxInit (cfg : Config) (s : State) (r : Nat) : Option State :=
  match s.rx r with
  | .condInit i =>
      -- the bound is the number of queues
      if i < (cfg.rxThread r).rxQueueList.length then
        some
          { s with
            rx := Function.update s.rx r (.condInit (i + 1))
            ready := Function.update s.ready r (Function.update (s.ready r) i true) }
      else some { s with rx := Function.update s.rx r .count }
  | .count =>
      some
        { s with
          rx := Function.update s.rx r (.loop 0 fun _ => 0)
          rxCounter := s.rxCounter + 1 }
  | .notCreated | .loop _ _ => none

/-- What `lthread_rx` does with a burst. A full `len` is reset, with a signal. -/
def stepRxBurst (cfg : Config) (s : State) (r nbRx ret : Nat) : Option State :=
  match s.rx r with
  | .loop workerId len =>
      if 0 < (cfg.rxThread r).rxQueueList.length ∧ nbRx ≤ maxPktBurst ∧ ret ≤ nbRx then
        (nextWorker (cfg.rxThread r).ring.length nbRx workerId).map fun w =>
          if nbRx = 0 then s
          else
            let newLen := if burstSize ≤ len w + ret then 0 else len w + ret
            { s with rx := Function.update s.rx r (.loop w (Function.update len w newLen)) }
      else none
  | .notCreated | .condInit _ | .count => none

def stepTxInit (cfg : Config) (s : State) (t : Nat) : Option State :=
  match s.tx t with
  | .create => some { s with tx := Function.update s.tx t .load }
  | .load =>
      (cfg.txThread t).ready.map fun place =>
        { s with tx := Function.update s.tx t (.loop place (s.ready place.1 place.2)) }
  | .notCreated | .loop _ _ => none

/-- One action of the start of the program, and of the lthreads that it starts. -/
def step (cfg : Config) (s : State) : Action → Option State
  | .spawner => stepSpawner cfg s
  | .rxInit r => stepRxInit cfg s r
  | .rxBurst r nbRx ret => stepRxBurst cfg s r nbRx ret
  | .txInit t => stepTxInit cfg s t
  | .condWait t =>
      match s.tx t with
      | .loop _ _ => some s
      | .notCreated | .create | .load => none

/-- An action uses initialised condition variables only: the one that `lthread_rx` signals, the one
that `lthread_tx_per_ring` loads, and the one that it waits on. -/
def UsesInitialised (cfg : Config) (s : State) : Action → Prop
  | .rxBurst r nbRx ret =>
      match s.rx r with
      | .loop workerId len =>
          ∀ w, nextWorker (cfg.rxThread r).ring.length nbRx workerId = some w → nbRx ≠ 0 →
            burstSize ≤ len w + ret → s.ready r w = true
      | _ => True
  | .txInit t =>
      match s.tx t with
      | .load => ∀ place, (cfg.txThread t).ready = some place → s.ready place.1 place.2 = true
      | _ => True
  | .condWait t =>
      match s.tx t with
      | .loop _ initialised => initialised = true
      | _ => True
  | .spawner | .rxInit _ => True

/-! ## The order of the steps -/

def RxPc.inits (nRxQueue : Nat) : RxPc → Nat
  | .notCreated => 0
  | .condInit i => i
  | .count | .loop _ _ => nRxQueue

/-- What an rx lthread has added to `rx_counter`. -/
def RxPc.counted : RxPc → Nat
  | .loop _ _ => 1
  | .notCreated | .condInit _ | .count => 0

def SpawnerPc.rxCreated (nRxThread : Nat) : SpawnerPc → Nat
  | .createRx i => i
  | .waitRx | .createTx _ | .join => nRxThread

/-- The spawner has waited for the rx lthreads. -/
def SpawnerPc.Waited : SpawnerPc → Prop
  | .createTx _ | .join => True
  | .createRx _ | .waitRx => False

structure Starting (cfg : Config) (s : State) : Prop where
  bound : s.spawner.rxCreated cfg.nRxThread ≤ cfg.nRxThread
  created : ∀ r, s.spawner.rxCreated cfg.nRxThread ≤ r → s.rx r = .notCreated
  inits : ∀ r i, s.rx r = .condInit i → i ≤ (cfg.rxThread r).rxQueueList.length
  ready : ∀ r w, s.ready r w = true ↔ w < (s.rx r).inits (cfg.rxThread r).rxQueueList.length
  counter : s.rxCounter = ∑ r ∈ Finset.range cfg.nRxThread, (s.rx r).counted
  waited : s.spawner.Waited → ∀ r < cfg.nRxThread, (s.rx r).counted = 1
  tx : ∀ t, s.tx t ≠ .notCreated → s.spawner.Waited ∧ t < cfg.nTxThread

variable {cfg : Config} {s s' : State}

theorem starting_init : Starting cfg State.init where
  bound := Nat.zero_le _
  created _ _ := rfl
  inits _ _ h := nomatch h
  ready _ w := by simp [State.init, RxPc.inits]
  counter := by simp [State.init, RxPc.counted]
  waited h := h.elim
  tx _ h := (h rfl).elim

/-- Only rx lthreads that were created act. -/
theorem Starting.lt_of_ne (h : Starting cfg s) {r : Nat} (hr : s.rx r ≠ .notCreated) :
    r < cfg.nRxThread := by
  by_contra hge
  exact hr (h.created r (h.bound.trans (by omega)))

/-- All rx lthreads have been counted when `rx_counter` has reached their number. -/
theorem Starting.counted_of_le (h : Starting cfg s) (hle : cfg.nRxThread ≤ s.rxCounter) :
    ∀ r < cfg.nRxThread, (s.rx r).counted = 1 := by
  have hone : ∀ r ∈ Finset.range cfg.nRxThread, (s.rx r).counted ≤ 1 := by
    intro r _
    cases s.rx r <;> simp [RxPc.counted]
  have hsum : ∑ r ∈ Finset.range cfg.nRxThread, (s.rx r).counted =
      ∑ _r ∈ Finset.range cfg.nRxThread, 1 := by
    apply le_antisymm (Finset.sum_le_sum hone)
    rw [← Finset.card_eq_sum_ones, Finset.card_range, ← h.counter]
    exact hle
  intro r hr
  exact (Finset.sum_eq_sum_iff_of_le hone).mp hsum r (Finset.mem_range.mpr hr)

/-- The spawner creates an rx lthread. -/
theorem Starting.createRx (h : Starting cfg s) {i : Nat} (hpc : s.spawner = .createRx i)
    (hi : i < cfg.nRxThread) :
    Starting cfg
      { s with spawner := .createRx (i + 1), rx := Function.update s.rx i (.condInit 0) } := by
  have hcreated := h.created
  rw [hpc] at hcreated
  have hnot : s.rx i = .notCreated := hcreated i le_rfl
  refine ⟨hi, fun r hr => ?_, fun r j hj => ?_, fun r w => ?_, ?_, fun hw => hw.elim, fun t ht => ?_⟩
  · have hlt : i < r := hr
    simp only [Function.update_of_ne hlt.ne']
    exact hcreated r hlt.le
  · rcases eq_or_ne r i with rfl | hne
    · simp only [Function.update_self] at hj
      cases hj
      exact Nat.zero_le _
    · simp only [Function.update_of_ne hne] at hj
      exact h.inits r j hj
  · rw [h.ready]
    rcases eq_or_ne r i with rfl | hne
    · simp only [Function.update_self, hnot]
      rfl
    · simp only [Function.update_of_ne hne]
  · have hsum := sum_update (Finset.range cfg.nRxThread) RxPc.counted s.rx
      (Finset.mem_range.mpr hi) (.condInit 0)
    rw [hnot] at hsum
    exact h.counter.trans hsum.symm
  · have hwaited := (h.tx t ht).1
    rw [hpc] at hwaited
    exact hwaited.elim

theorem Starting.stepSpawner (h : Starting cfg s) (hs : stepSpawner cfg s = some s') :
    Starting cfg s' := by
  unfold Startup.stepSpawner at hs
  split at hs
  · next i hpc =>
      split at hs
      · next hi =>
          cases hs
          exact h.createRx hpc hi
      · next hi =>
          cases hs
          have hcreated := h.created
          have hbound := h.bound
          rw [hpc] at hcreated hbound
          -- the loop over the RX threads is over, so all of them exist
          obtain rfl : i = cfg.nRxThread := le_antisymm hbound (Nat.le_of_not_lt hi)
          refine ⟨le_rfl, hcreated, h.inits, h.ready, h.counter, fun hw => hw.elim, fun t ht => ?_⟩
          have hwaited := (h.tx t ht).1
          rw [hpc] at hwaited
          exact hwaited.elim
  · next hpc =>
      have hcreated := h.created
      rw [hpc] at hcreated
      split at hs
      · cases hs
        exact h
      · next hcount =>
          cases hs
          exact ⟨le_rfl, hcreated, h.inits, h.ready, h.counter,
            fun _ => h.counted_of_le (Nat.le_of_not_lt hcount), fun t ht => ⟨trivial, (h.tx t ht).2⟩⟩
  · next i hpc =>
      have hcreated := h.created
      have hwaited := h.waited
      rw [hpc] at hcreated hwaited
      split at hs
      · next hi =>
          cases hs
          refine ⟨le_rfl, hcreated, h.inits, h.ready, h.counter, hwaited, fun t ht => ⟨trivial, ?_⟩⟩
          rcases eq_or_ne t i with rfl | hne
          · exact hi
          · simp only [Function.update_of_ne hne] at ht
            exact (h.tx t ht).2
      · cases hs
        exact ⟨le_rfl, hcreated, h.inits, h.ready, h.counter, hwaited,
          fun t ht => ⟨trivial, (h.tx t ht).2⟩⟩
  · cases hs

/-- An rx lthread goes on in front of its loop, or in it. -/
theorem Starting.setRx (h : Starting cfg s) {r : Nat} (hne : s.rx r ≠ .notCreated) (pc : RxPc)
    (rxCounter : Nat) (ready : Nat → Bool)
    (hinits : ∀ i, pc = .condInit i → i ≤ (cfg.rxThread r).rxQueueList.length)
    (hready : ∀ w, ready w = true ↔ w < pc.inits (cfg.rxThread r).rxQueueList.length)
    (hcounted : (s.rx r).counted ≤ pc.counted)
    (hcounter : rxCounter + (s.rx r).counted = s.rxCounter + pc.counted) :
    Starting cfg
      { s with
        rx := Function.update s.rx r pc
        rxCounter := rxCounter
        ready := Function.update s.ready r ready } := by
  refine ⟨h.bound, fun r' hr' => ?_, fun r' i hi => ?_, fun r' w => ?_, ?_, fun hw r' hr' => ?_, h.tx⟩
  · have hother : r' ≠ r := by
      rintro rfl
      exact hne (h.created r' hr')
    simp only [Function.update_of_ne hother]
    exact h.created r' hr'
  · rcases eq_or_ne r' r with rfl | hother
    · simp only [Function.update_self] at hi
      exact hinits i hi
    · simp only [Function.update_of_ne hother] at hi
      exact h.inits r' i hi
  · rcases eq_or_ne r' r with rfl | hother
    · simp only [Function.update_self]
      exact hready w
    · simp only [Function.update_of_ne hother]
      exact h.ready r' w
  · have hsum := sum_update (Finset.range cfg.nRxThread) RxPc.counted s.rx
      (Finset.mem_range.mpr (h.lt_of_ne hne)) pc
    have hold := h.counter
    dsimp only
    omega
  · rcases eq_or_ne r' r with rfl | hother
    · have hone := h.waited hw r' hr'
      simp only [Function.update_self]
      apply le_antisymm _ (hone ▸ hcounted)
      cases pc <;> simp [RxPc.counted]
    · simp only [Function.update_of_ne hother]
      exact h.waited hw r' hr'

theorem Starting.stepRxInit (h : Starting cfg s) {r : Nat} (hs : stepRxInit cfg s r = some s') :
    Starting cfg s' := by
  have hready := h.ready r
  unfold Startup.stepRxInit at hs
  split at hs
  · next i hpc =>
      have hne : s.rx r ≠ .notCreated := by rw [hpc]; exact nofun
      have hle := h.inits r i hpc
      rw [hpc] at hready
      split at hs
      · next hi =>
          cases hs
          -- `ready[i]` is set, and `i + 1` conditions are now initialised
          apply h.setRx hne (.condInit (i + 1)) s.rxCounter (Function.update (s.ready r) i true)
          · intro j hj
            cases hj
            exact hi
          · intro w
            rcases eq_or_ne w i with rfl | hw
            · simp [RxPc.inits]
            · rw [Function.update_of_ne hw, hready]
              simp only [RxPc.inits]
              omega
          · rw [hpc]
            exact le_rfl
          · rw [hpc]
            rfl
      · next hi =>
          cases hs
          rw [← Function.update_eq_self r s.ready]
          apply h.setRx hne .count s.rxCounter (s.ready r) nofun
          · intro w
            rw [hready]
            simp only [RxPc.inits]
            omega
          · rw [hpc]
            exact le_rfl
          · rw [hpc]
            rfl
  · next hpc =>
      have hne : s.rx r ≠ .notCreated := by rw [hpc]; exact nofun
      rw [hpc] at hready
      cases hs
      rw [← Function.update_eq_self r s.ready]
      apply h.setRx hne (.loop 0 fun _ => 0) (s.rxCounter + 1) (s.ready r) nofun hready
      · rw [hpc]
        exact Nat.zero_le _
      · rw [hpc]
        rfl
  · cases hs
  · cases hs

theorem Starting.stepRxBurst (h : Starting cfg s) {r nbRx ret : Nat}
    (hs : stepRxBurst cfg s r nbRx ret = some s') : Starting cfg s' := by
  have hready := h.ready r
  unfold Startup.stepRxBurst at hs
  split at hs
  · next workerId len hpc =>
      have hne : s.rx r ≠ .notCreated := by rw [hpc]; exact nofun
      rw [hpc] at hready
      split at hs
      · obtain ⟨w, -, rfl⟩ := Option.map_eq_some_iff.mp hs
        split
        · exact h
        · dsimp only
          rw [← Function.update_eq_self r s.ready]
          apply h.setRx hne (.loop w _) s.rxCounter (s.ready r) nofun hready
          · rw [hpc]
            exact le_rfl
          · rw [hpc]
            rfl
      · cases hs
  · cases hs
  · cases hs
  · cases hs

theorem Starting.stepTxInit (h : Starting cfg s) {t : Nat} (hs : stepTxInit cfg s t = some s') :
    Starting cfg s' := by
  have hset : s.tx t ≠ .notCreated → ∀ pc, Starting cfg { s with tx := Function.update s.tx t pc } := by
    intro hne pc
    refine ⟨h.bound, h.created, h.inits, h.ready, h.counter, h.waited, fun t' ht' => ?_⟩
    rcases eq_or_ne t' t with rfl | hother
    · exact h.tx t' hne
    · simp only [Function.update_of_ne hother] at ht'
      exact h.tx t' ht'
  unfold Startup.stepTxInit at hs
  split at hs
  · next hpc =>
      cases hs
      exact hset (by rw [hpc]; exact nofun) .load
  · next hpc =>
      obtain ⟨place, -, rfl⟩ := Option.map_eq_some_iff.mp hs
      exact hset (by rw [hpc]; exact nofun) _
  · cases hs
  · cases hs

theorem isInvariant_starting : IsInvariant (step cfg) State.init (Starting cfg) where
  init := starting_init
  step s a s' h hs := by
    cases a with
    | spawner => exact h.stepSpawner hs
    | rxInit r => exact h.stepRxInit hs
    | rxBurst r nbRx ret => exact h.stepRxBurst hs
    | txInit t => exact h.stepTxInit hs
    | condWait t =>
        dsimp only [step] at hs
        split at hs
        · cases hs
          exact h
        all_goals cases hs

end Startup
end Lthread
end FloWatcher
