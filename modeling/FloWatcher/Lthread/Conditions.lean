import FloWatcher.Lthread.Startup
import FloWatcher.Lthread.Wakeup
import FloWatcher.Transition.Reaches

/-!
# Are the condition variables initialised before they are used?

The spawner sees to the order: every rx lthread has been through its initialisation when a tx lthread
loads a variable. But an rx lthread has a variable for every ring and initialises one for every
queue. `usesInitialised_iff` says that this is all that can go wrong, and that it does go wrong.
-/

namespace FloWatcher
namespace Lthread
namespace Startup

open Transition

variable {cfg : Config} {s s' : State}

/-! ## Enough queues -/

/-- The variable of a tx lthread is that of its ring. -/
theorem ready_spec (hcfg : Signalled cfg) {t : Nat} (ht : t < cfg.nTxThread) {place : Nat × Nat}
    (hplace : (cfg.txThread t).ready = some place) :
    place.2 < (cfg.rxThread place.1).ring.length := by
  obtain ⟨x, hx, -⟩ := hcfg.wired.tx t ht
  obtain ⟨w, hw, hget⟩ := hcfg.ready t ht x hx
  cases hw.symm.trans hplace
  exact (List.getElem?_eq_some_iff.mp hget).1

/-- An rx lthread in its loop has initialised a variable for each queue. -/
theorem Starting.ready_of_counted (h : Starting cfg s) {r w : Nat} (hr : (s.rx r).counted = 1)
    (hw : w < (cfg.rxThread r).rxQueueList.length) : s.ready r w = true := by
  rw [h.ready]
  cases hpc : s.rx r with
  | loop workerId len => exact hw
  | _ =>
      rw [hpc] at hr
      cases hr

/-- No rx lthread has more rings than queues. -/
def QueuePerRing (cfg : Config) : Prop :=
  ∀ r, (cfg.rxThread r).ring.length ≤ (cfg.rxThread r).rxQueueList.length

def LoadedInitialised (s : State) : Prop :=
  ∀ t place initialised, s.tx t = .loop place initialised → initialised = true

/-- With a queue for every ring, all actions use initialised variables. -/
theorem usesInitialised_of_queuePerRing (hcfg : Signalled cfg)
    (hstarted : ∀ r, 0 < (cfg.rxThread r).rxQueueList.length → r < cfg.nRxThread)
    (hqueues : QueuePerRing cfg) (h : Starting cfg s) (hloaded : LoadedInitialised s) (a : Action) :
    UsesInitialised cfg s a := by
  cases a with
  | spawner => trivial
  | rxInit r => trivial
  | rxBurst r nbRx ret =>
      dsimp only [UsesInitialised]
      split
      · next workerId len hpc =>
          intro w hw hne _
          have hcounted : (s.rx r).counted = 1 := by rw [hpc]; rfl
          apply h.ready_of_counted hcounted (Nat.lt_of_lt_of_le _ (hqueues r))
          unfold nextWorker at hw
          rw [if_neg hne] at hw
          split at hw
          · cases hw
          · next hring =>
              cases hw
              exact Nat.mod_lt _ (Nat.pos_of_ne_zero hring)
      · trivial
  | txInit t =>
      dsimp only [UsesInitialised]
      split
      · next hpc =>
          intro place hplace
          have hne : s.tx t ≠ .notCreated := by rw [hpc]; exact nofun
          obtain ⟨hwaited, ht⟩ := h.tx t hne
          have hw := (ready_spec hcfg ht hplace).trans_le (hqueues place.1)
          exact h.ready_of_counted (h.waited hwaited _ (hstarted _ (Nat.zero_lt_of_lt hw))) hw
      · trivial
  | condWait t =>
      dsimp only [UsesInitialised]
      split
      · next place initialised hpc => exact hloaded t place initialised hpc
      · trivial

theorem loadedInitialised_init : LoadedInitialised State.init := by
  intro t place initialised ht
  cases ht

/-- A tx lthread goes on, with an initialised variable if it has loaded one. -/
theorem LoadedInitialised.setTx (hloaded : LoadedInitialised s) {t : Nat} {pc : TxPc}
    (htx : s'.tx = Function.update s.tx t pc)
    (hpc : ∀ place initialised, pc = .loop place initialised → initialised = true) :
    LoadedInitialised s' := by
  intro t' place initialised ht
  rw [htx, Function.update_apply] at ht
  split at ht
  · exact hpc place initialised ht
  · exact hloaded t' place initialised ht

theorem loadedInitialised_step (hloaded : LoadedInitialised s) {a : Action}
    (huses : UsesInitialised cfg s a) (hs : step cfg s a = some s') : LoadedInitialised s' := by
  cases a with
  | spawner =>
      dsimp only [step, stepSpawner] at hs
      split at hs
      · split at hs <;> cases hs <;> exact hloaded
      · split at hs <;> cases hs <;> exact hloaded
      · split at hs
        · cases hs
          apply hloaded.setTx rfl
          intro place initialised ht
          cases ht
        · cases hs
          exact hloaded
      · cases hs
  | rxInit r =>
      dsimp only [step, stepRxInit] at hs
      split at hs
      · split at hs <;> cases hs <;> exact hloaded
      all_goals cases hs
      exact hloaded
  | rxBurst r nbRx ret =>
      dsimp only [step, stepRxBurst] at hs
      split at hs
      · split at hs
        · obtain ⟨w, -, rfl⟩ := Option.map_eq_some_iff.mp hs
          split <;> exact hloaded
        · cases hs
      all_goals cases hs
  | txInit t =>
      dsimp only [step, stepTxInit] at hs
      split at hs
      · cases hs
        apply hloaded.setTx rfl
        intro place initialised ht
        cases ht
      -- the one step that loads a condition: what it loads is what `huses` speaks of
      · next hpc =>
          obtain ⟨loaded, hplace, rfl⟩ := Option.map_eq_some_iff.mp hs
          dsimp only [UsesInitialised] at huses
          rw [hpc] at huses
          apply hloaded.setTx rfl
          intro place initialised ht
          cases ht
          exact huses loaded hplace
      all_goals cases hs
  | condWait t =>
      dsimp only [step] at hs
      split at hs
      · cases hs
        exact hloaded
      all_goals cases hs

/-! ## A start of every tx lthread -/

/-- The spawner creates rx lthreads `0 … k - 1`. -/
theorem reaches_createRx {k : Nat} (hk : k ≤ cfg.nRxThread) :
    ∃ s, Reaches (step cfg) State.init s ∧ s.spawner = .createRx k ∧
      (∀ r < k, s.rx r = .condInit 0) ∧ ∀ t, s.tx t = .notCreated := by
  induction k with
  | zero => exact ⟨State.init, .refl _, rfl, fun r hr => absurd hr (Nat.not_lt_zero r), fun _ => rfl⟩
  | succ k ih =>
      obtain ⟨s, hs, hspawner, hrx, htx⟩ := ih (Nat.le_of_succ_le hk)
      have hstep : step cfg s .spawner = some
          { s with spawner := .createRx (k + 1), rx := Function.update s.rx k (.condInit 0) } := by
        simp only [step, stepSpawner, hspawner]
        exact if_pos hk
      refine ⟨_, hs.tail hstep, rfl, fun r hr => ?_, htx⟩
      rcases eq_or_ne r k with rfl | hne
      · simp only [Function.update_self]
      · simp only [Function.update_of_ne hne]
        exact hrx r (by omega)

/-- An rx lthread gets to its loop. -/
theorem reaches_loop (s : State) {r i : Nat} (hpc : s.rx r = .condInit i) :
    ∃ s', Reaches (step cfg) s s' ∧ (s'.rx r).counted = 1 ∧ (∀ r' ≠ r, s'.rx r' = s.rx r') ∧
      s'.spawner = s.spawner ∧ s'.tx = s.tx := by
  obtain ⟨n, hn⟩ : ∃ n, n = (cfg.rxThread r).rxQueueList.length - i := ⟨_, rfl⟩
  induction n generalizing s i with
  | zero =>
      have hcount : step cfg s (.rxInit r) = some { s with rx := Function.update s.rx r .count } := by
        simp only [step, stepRxInit, hpc]
        exact if_neg (by omega)
      have hloop : step cfg { s with rx := Function.update s.rx r .count } (.rxInit r) = some
          { s with
            rx := Function.update s.rx r (.loop 0 fun _ => 0)
            rxCounter := s.rxCounter + 1 } := by
        simp only [step, stepRxInit, Function.update_self, Function.update_idem]
      refine ⟨_, (Reaches.of_step hcount).tail hloop, ?_, fun r' hne => ?_, rfl, rfl⟩
      · simp only [Function.update_self]
        rfl
      · simp only [Function.update_of_ne hne]
  | succ n ih =>
      have hinit : step cfg s (.rxInit r) = some
          { s with
            rx := Function.update s.rx r (.condInit (i + 1))
            ready := Function.update s.ready r (Function.update (s.ready r) i true) } := by
        simp only [step, stepRxInit, hpc]
        exact if_pos (by omega)
      obtain ⟨s', hs', hloop, hother, hrest⟩ := ih
        { s with
          rx := Function.update s.rx r (.condInit (i + 1))
          ready := Function.update s.ready r (Function.update (s.ready r) i true) }
        (i := i + 1) (Function.update_self ..) (by omega)
      refine ⟨s', (Reaches.of_step hinit).trans hs', hloop, fun r' hne => ?_, hrest⟩
      rw [hother r' hne]
      exact Function.update_of_ne hne ..

/-- All rx lthreads get to their loops. -/
theorem reaches_waitRx {k : Nat} (hk : k ≤ cfg.nRxThread) :
    ∃ s, Reaches (step cfg) State.init s ∧ s.spawner = .waitRx ∧
      (∀ r < k, (s.rx r).counted = 1) ∧ (∀ r < cfg.nRxThread, k ≤ r → s.rx r = .condInit 0) ∧
      ∀ t, s.tx t = .notCreated := by
  induction k with
  | zero =>
      obtain ⟨s, hs, hspawner, hrx, htx⟩ := reaches_createRx (le_refl cfg.nRxThread)
      have hstep : step cfg s .spawner = some { s with spawner := .waitRx } := by
        simp only [step, stepSpawner, hspawner]
        exact if_neg (lt_irrefl _)
      exact ⟨_, hs.tail hstep, rfl, fun r hr => absurd hr (Nat.not_lt_zero r),
        fun r hr _ => hrx r hr, htx⟩
  | succ k ih =>
      obtain ⟨s, hs, hspawner, hcounted, hrx, htx⟩ := ih (Nat.le_of_succ_le hk)
      obtain ⟨s', hs', hloop, hother, hspawner', htx'⟩ := reaches_loop s (hrx k hk le_rfl)
      refine ⟨s', hs.trans hs', hspawner'.trans hspawner, fun r hr => ?_, fun r hr hge => ?_, fun t => ?_⟩
      · rcases eq_or_ne r k with rfl | hne
        · exact hloop
        · rw [hother r hne]
          exact hcounted r (by omega)
      · rw [hother r (by omega)]
        exact hrx r hr (by omega)
      · rw [htx']
        exact htx t

/-- The spawner creates tx lthreads `0 … k - 1`. -/
theorem reaches_createTx {k : Nat} (hk : k ≤ cfg.nTxThread) :
    ∃ s, Reaches (step cfg) State.init s ∧ s.spawner = .createTx k ∧ ∀ t < k, s.tx t = .create := by
  induction k with
  | zero =>
      obtain ⟨s, hs, hspawner, hcounted, -, -⟩ := reaches_waitRx (le_refl cfg.nRxThread)
      have hcounter : ¬ s.rxCounter < cfg.nRxThread := by
        have hsum : s.rxCounter = ∑ _r ∈ Finset.range cfg.nRxThread, 1 := by
          rw [(isInvariant_starting.reaches hs).counter]
          exact Finset.sum_congr rfl fun r hr => hcounted r (Finset.mem_range.mp hr)
        rw [hsum, ← Finset.card_eq_sum_ones, Finset.card_range]
        exact lt_irrefl _
      have hstep : step cfg s .spawner = some { s with spawner := .createTx 0 } := by
        simp only [step, stepSpawner, hspawner]
        exact if_neg hcounter
      exact ⟨_, hs.tail hstep, rfl, fun t ht => absurd ht (Nat.not_lt_zero t)⟩
  | succ k ih =>
      obtain ⟨s, hs, hspawner, htx⟩ := ih (Nat.le_of_succ_le hk)
      have hstep : step cfg s .spawner = some
          { s with spawner := .createTx (k + 1), tx := Function.update s.tx k .create } := by
        simp only [step, stepSpawner, hspawner]
        exact if_pos hk
      refine ⟨_, hs.tail hstep, rfl, fun t ht => ?_⟩
      rcases eq_or_ne t k with rfl | hne
      · simp only [Function.update_self]
      · simp only [Function.update_of_ne hne]
        exact htx t (by omega)

/-- Every tx lthread gets to the load of its variable. -/
theorem reaches_load {t : Nat} (ht : t < cfg.nTxThread) :
    ∃ s, Reaches (step cfg) State.init s ∧ s.tx t = .load := by
  obtain ⟨s, hs, -, htx⟩ := reaches_createTx ht
  have hstep : step cfg s (.txInit t) = some { s with tx := Function.update s.tx t .load } := by
    simp only [step, stepTxInit, htx t (Nat.lt_succ_self t)]
  exact ⟨_, hs.tail hstep, Function.update_self ..⟩

/-- A ring without a queue has a variable that is loaded and never initialised. -/
theorem queuePerRing_of_usesInitialised (hcfg : Signalled cfg)
    (hall : ∀ as, Each (step cfg) (UsesInitialised cfg) State.init as) : QueuePerRing cfg := by
  intro r
  by_contra hgt
  have hlt : (cfg.rxThread r).rxQueueList.length < (cfg.rxThread r).ring.length :=
    Nat.lt_of_not_le hgt
  obtain ⟨x, hx⟩ : ∃ x, (cfg.rxThread r).ring[(cfg.rxThread r).rxQueueList.length]? = some x :=
    ⟨_, List.getElem?_eq_getElem hlt⟩
  obtain ⟨-, ht, hring⟩ := hcfg.wired.rx r x (List.mem_of_getElem? hx)
  have hplace := hcfg.ready_eq ht hring hx
  obtain ⟨s, hs, hload⟩ := reaches_load ht
  have hstep : ∃ s', step cfg s (.txInit x.txThreadId) = some s' := by
    simp only [step, stepTxInit, hload, hplace, Option.map_some]
    exact ⟨_, rfl⟩
  obtain ⟨s', hstep⟩ := hstep
  have huses := hs.of_each hstep hall
  simp only [UsesInitialised, hload] at huses
  have hready := huses _ hplace
  rw [(isInvariant_starting.reaches hs).ready] at hready
  cases hpc : s.rx r with
  | condInit i =>
      have hle := (isInvariant_starting.reaches hs).inits r i hpc
      rw [hpc] at hready
      exact absurd (hready.trans_le hle) (lt_irrefl _)
  | notCreated =>
      rw [hpc] at hready
      exact absurd hready (Nat.not_lt_zero _)
  | _ =>
      rw [hpc] at hready
      exact absurd hready (lt_irrefl _)

/-- **When the variables are initialised before they are used**, whatever the interleaving: when no rx
thread has more pairs in `--tx` than tuples in `--rx`. -/
theorem usesInitialised_iff (rteLcoreIsEnabled : Nat → Bool) (rteRingCreate : String → Bool)
    (rteLcoreToSocketId : Nat → Nat) (rx : List RxThreadParams) (tx : List TxThreadParams)
    (cfg : Config)
    (h : acceptParams rteLcoreIsEnabled rteRingCreate rteLcoreToSocketId rx tx = some cfg) :
    (∀ as, Each (step cfg) (UsesInitialised cfg) State.init as) ↔
      ∀ r, tx.countP (·.threadId.toNat = r) ≤ (tuplesOf rx r).length := by
  obtain ⟨-, hinit⟩ := acceptParams_eq_some h
  have hsignalled := signalled_initThreads hinit
  obtain ⟨hqueues, -, hcount⟩ := (threadsOf_initThreads hinit).1
  have hrings := (ringsOf_initThreads hinit).length
  have hcond : QueuePerRing cfg ↔ ∀ r, tx.countP (·.threadId.toNat = r) ≤ (tuplesOf rx r).length := by
    simp only [QueuePerRing, hqueues, hrings, List.take_length, List.length_map]
  have hstarted : ∀ r, 0 < (cfg.rxThread r).rxQueueList.length → r < cfg.nRxThread := by
    intro r hpos
    rw [hqueues, List.length_map, List.length_pos_iff_exists_mem] at hpos
    obtain ⟨p, hp⟩ := hpos
    simp only [tuplesOf, List.mem_filter, decide_eq_true_eq] at hp
    exact (hcount r).mpr ⟨p, hp.1, hp.2.ge⟩
  rw [← hcond]
  constructor
  · exact queuePerRing_of_usesInitialised hsignalled
  · intro hper
    have huses : ∀ s, Starting cfg s ∧ LoadedInitialised s → ∀ a, UsesInitialised cfg s a :=
      fun s hs a => usesInitialised_of_queuePerRing hsignalled hstarted hper hs.1 hs.2 a
    have hinv : IsInvariant (step cfg) State.init fun s => Starting cfg s ∧ LoadedInitialised s :=
      ⟨⟨starting_init, loadedInitialised_init⟩, fun s a s' hs hstep =>
        ⟨isInvariant_starting.step s a s' hs.1 hstep,
          loadedInitialised_step hs.2 (huses s hs a) hstep⟩⟩
    exact hinv.each fun s a s' hs _ => huses s hs a

/-- One ring of a queue. -/
theorem usesInitialised_iff_one_ring :
    ∃ cfg, acceptParams (fun _ => true) (fun _ => true) (fun _ => 0) [⟨0, 0, 2, 0⟩] [⟨4, 0⟩] =
        some cfg ∧
      ((∀ as, Each (step cfg) (UsesInitialised cfg) State.init as) ↔
        ∀ r, [(⟨4, 0⟩ : TxThreadParams)].countP (·.threadId.toNat = r) ≤
          (tuplesOf [⟨0, 0, 2, 0⟩] r).length) :=
  ⟨_, rfl, usesInitialised_iff (fun _ => true) (fun _ => true) (fun _ => 0) [⟨0, 0, 2, 0⟩] [⟨4, 0⟩] _
    rfl⟩

def twoRings : Config :=
  (acceptParams (fun _ => true) (fun _ => true) (fun _ => 0) [⟨0, 0, 2, 0⟩]
    [⟨4, 0⟩, ⟨5, 0⟩]).getD Config.zero

/-- The rx lthread initialises a variable and is counted, and the tx lthreads load theirs. -/
def twoLoads : List Action :=
  [.spawner, .spawner, .rxInit 0, .rxInit 0, .rxInit 0, .spawner, .spawner, .spawner, .txInit 0,
    .txInit 0, .txInit 1, .txInit 1]

/-- The second tx lthread loads a variable that was not initialised. -/
theorem not_usesInitialised_two_rings :
    acceptParams (fun _ => true) (fun _ => true) (fun _ => 0) [⟨0, 0, 2, 0⟩] [⟨4, 0⟩, ⟨5, 0⟩] =
        some twoRings ∧
      (run (step twoRings) State.init twoLoads).map (fun s => (s.tx 0, s.tx 1)) =
        some (.loop (0, 0) true, .loop (0, 1) false) ∧
      ¬ ∀ as, Each (step twoRings) (UsesInitialised twoRings) State.init as := by
  refine ⟨rfl, by decide, fun hall => ?_⟩
  have hload : ∃ s, run (step twoRings) State.init (twoLoads.take 11) = some s ∧
      s.tx 1 = .load ∧ s.ready 0 1 = false := ⟨_, rfl, rfl, rfl⟩
  obtain ⟨s, hs, htx, hready⟩ := hload
  have hplace : (twoRings.txThread 1).ready = some (0, 1) := rfl
  have hstep : ∃ s', step twoRings s (.txInit 1) = some s' := by
    simp only [step, stepTxInit, htx, hplace, Option.map_some]
    exact ⟨_, rfl⟩
  obtain ⟨s', hstep⟩ := hstep
  have huses := Reaches.of_each ⟨_, hs⟩ hstep hall
  simp only [UsesInitialised, htx] at huses
  rw [huses _ hplace] at hready
  cases hready

end Startup
end Lthread
end FloWatcher
