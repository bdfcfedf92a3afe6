import FloWatcher.Config
import Mathlib.Data.List.Basic

/-!
# The threads that the parameters describe

What `init_rx_queues` and `init_tx_threads` make of the tuples: an rx thread has the queues of its
tuples, in order, and the lcore of its last one; `n_rx_thread` is one more than the highest thread
id, so that thread ids without a tuple get a thread without queues. Every pair makes a tx thread.
-/

namespace FloWatcher

/-! ## Rx threads -/

def tuplesOf (rx : List RxThreadParams) (r : Nat) : List RxThreadParams :=
  rx.filter (·.threadId.toNat = r)

def RxThreadParams.queue (p : RxThreadParams) : LcoreRxQueue :=
  { portId := p.portId, queueId := p.queueId }

/-- The lcore of rx thread `r`, which is `0` when it has no tuple. -/
def lcoreOf (rx : List RxThreadParams) (r : Nat) : Nat :=
  (tuplesOf rx r).getLast?.elim 0 (·.lcoreId.toNat)

structure RxThreadsOf (rx : List RxThreadParams) (c : Config) : Prop where
  queues : ∀ r, (c.rxThread r).rxQueueList = (tuplesOf rx r).map RxThreadParams.queue
  lcore : ∀ r, (c.rxThread r).lcoreId = lcoreOf rx r
  count : ∀ r, r < c.nRxThread ↔ ∃ p ∈ rx, r ≤ p.threadId.toNat

section RxThreadsOf

variable {rx : List RxThreadParams} {c : Config}

/-- Every tuple has its rx thread. -/
theorem RxThreadsOf.lt_count (h : RxThreadsOf rx c) {p : RxThreadParams} (hp : p ∈ rx) :
    p.threadId.toNat < c.nRxThread :=
  (h.count _).mpr ⟨p, hp, Nat.le_refl _⟩

/-- The rx threads are numbered up to the highest id of a tuple. -/
theorem RxThreadsOf.forall_lt_iff (h : RxThreadsOf rx c) (n : Nat) :
    (∀ i < c.nRxThread, i < n) ↔ ∀ p ∈ rx, p.threadId.toNat < n := by
  constructor
  · exact fun hall p hp => hall _ (h.lt_count hp)
  · intro hall i hi
    obtain ⟨p, hp, hle⟩ := (h.count i).mp hi
    exact Nat.lt_of_le_of_lt hle (hall p hp)

end RxThreadsOf

theorem tuplesOf_concat (rx : List RxThreadParams) (p : RxThreadParams) (r : Nat) :
    tuplesOf (rx ++ [p]) r =
      if p.threadId.toNat = r then tuplesOf rx r ++ [p] else tuplesOf rx r := by
  rw [tuplesOf, List.filter_append]
  split
  · next h => rw [List.filter_cons_of_pos (by simpa using h)]; rfl
  · next h => rw [List.filter_cons_of_neg (by simpa using h), List.filter_nil, List.append_nil]; rfl

theorem rxThreadsOf_addRxQueue {rx : List RxThreadParams} {c c' : Config} {p : RxThreadParams}
    (hc : RxThreadsOf rx c) (h : addRxQueue c p = some c') : RxThreadsOf (rx ++ [p]) c' := by
  obtain ⟨hqueues, hlcore, hcount⟩ := hc
  rw [addRxQueue_some h]
  refine ⟨fun r => ?_, fun r => ?_, fun r => ?_⟩
  · rw [tuplesOf_concat]
    rcases eq_or_ne r p.threadId.toNat with rfl | hr
    · simp only [Function.update_self, if_true, List.map_append, hqueues]
      rfl
    · simp only [Function.update_of_ne hr]
      rw [if_neg (Ne.symm hr), hqueues]
  · rw [lcoreOf, tuplesOf_concat]
    rcases eq_or_ne r p.threadId.toNat with rfl | hr
    · simp only [Function.update_self, if_true, List.getLast?_concat]
      rfl
    · simp only [Function.update_of_ne hr]
      rw [if_neg (Ne.symm hr), hlcore]
      rfl
  · have hmem : (∃ q ∈ rx ++ [p], r ≤ q.threadId.toNat) ↔
        (∃ q ∈ rx, r ≤ q.threadId.toNat) ∨ r ≤ p.threadId.toNat := by
      simp only [List.mem_append, List.mem_singleton, or_and_right, exists_or, exists_eq_left]
    rw [hmem, ← hcount]
    dsimp only
    split <;> omega

/-- No rx thread before the first tuple. -/
theorem rxThreadsOf_zero : RxThreadsOf [] Config.zero :=
  ⟨fun _ => rfl, fun _ => rfl, fun r => by simp [Config.zero]⟩

/-- **The rx threads after `init_rx_queues`.** -/
theorem rxThreadsOf_initRxQueues {rx : List RxThreadParams} {c : Config}
    (h : initRxQueues rx Config.zero = some c) : RxThreadsOf rx c :=
  initRxQueues_induct rxThreadsOf_zero (fun _ _ _ _ => rxThreadsOf_addRxQueue) h

/-- `n_rx_thread` is one more than the highest id, and `0` without tuples. -/
theorem RxThreadsOf.nRxThread_eq {rx : List RxThreadParams} {c : Config} (h : RxThreadsOf rx c) :
    c.nRxThread = (rx.map (·.threadId.toNat)).max?.elim 0 (· + 1) := by
  cases hmax : (rx.map (·.threadId.toNat)).max? with
  | none =>
      obtain rfl := List.map_eq_nil_iff.mp (List.max?_eq_none_iff.mp hmax)
      apply Nat.eq_zero_of_not_pos
      intro hpos
      obtain ⟨p, hp, -⟩ := (h.count 0).mp hpos
      cases hp
  | some m =>
      obtain ⟨hmem, hle⟩ := List.max?_eq_some_iff.mp hmax
      obtain ⟨p, hp, rfl⟩ := List.mem_map.mp hmem
      have hlt : p.threadId.toNat < c.nRxThread := h.lt_count hp
      have hge : ¬ p.threadId.toNat + 1 < c.nRxThread := by
        intro hgt
        obtain ⟨q, hq, hpq⟩ := (h.count _).mp hgt
        have hqp : q.threadId.toNat ≤ p.threadId.toNat :=
          hle _ (List.mem_map.mpr ⟨q, hq, rfl⟩)
        omega
      show c.nRxThread = p.threadId.toNat + 1
      omega

/-- An rx thread that no tuple names is as it was. -/
theorem rxThread_initRxQueues {rx : List RxThreadParams} {c : Config}
    (h : initRxQueues rx Config.zero = some c) {t : Nat} (ht : ∀ p ∈ rx, p.threadId.toNat ≠ t) :
    c.rxThread t = Config.zero.rxThread t := by
  revert ht
  apply initRxQueues_induct (P := fun rx c => (∀ p ∈ rx, p.threadId.toNat ≠ t) →
    c.rxThread t = Config.zero.rxThread t) _ _ h
  · exact fun _ => rfl
  · intro rx p c c' hc hadd ht
    have hne : t ≠ p.threadId.toNat := Ne.symm (ht p (by simp))
    rw [← hc fun q hq => ht q (List.mem_append_left _ hq), addRxQueue_some hadd]
    simp only [Function.update_of_ne hne]

theorem txThread_initRxQueues {rx : List RxThreadParams} {c : Config}
    (h : initRxQueues rx Config.zero = some c) : c.txThread = Config.zero.txThread := by
  apply initRxQueues_induct (P := fun _ c => c.txThread = Config.zero.txThread) rfl _ h
  intro rx p c c' hc hadd
  rw [addRxQueue_some hadd]
  exact hc

/-- The tuple that is one too many for its thread stops `init_rx_queues`. -/
theorem addRxQueue_isSome_iff {rx : List RxThreadParams} {c : Config} (hc : RxThreadsOf rx c)
    (p : RxThreadParams) : (∃ c', addRxQueue c p = some c') ↔
      (tuplesOf rx p.threadId.toNat).length < maxRxQueuePerLcore := by
  dsimp only [addRxQueue]
  rw [hc.queues, List.length_map]
  split
  · next hfull =>
      apply iff_of_false _ (Nat.not_lt.mpr hfull)
      intro h
      cases h.choose_spec
  · next hfree => exact iff_of_true ⟨_, rfl⟩ (Nat.lt_of_not_le hfree)

theorem foldlM_addRxQueue_isSome_iff (ps : List RxThreadParams) {rx : List RxThreadParams}
    {c : Config} (hc : RxThreadsOf rx c)
    (hfit : ∀ t, (tuplesOf rx t).length ≤ maxRxQueuePerLcore) :
    (∃ c', ps.foldlM addRxQueue c = some c') ↔
      ∀ t, (tuplesOf (rx ++ ps) t).length ≤ maxRxQueuePerLcore := by
  induction ps generalizing rx c with
  | nil =>
      rw [List.append_nil]
      exact iff_of_true ⟨c, rfl⟩ hfit
  | cons p ps ih =>
      rw [List.foldlM_cons, List.append_cons]
      cases hadd : addRxQueue c p with
      | none =>
          apply iff_of_false
          · intro h
            cases h.choose_spec
          · intro hall
            -- the tuples so far and this one are too many for the thread
            have hfull : ¬ (tuplesOf rx p.threadId.toNat).length < maxRxQueuePerLcore := by
              rw [← addRxQueue_isSome_iff hc p, hadd]
              intro h
              cases h.choose_spec
            have hle := hall p.threadId.toNat
            have happ : tuplesOf (rx ++ [p] ++ ps) p.threadId.toNat =
                tuplesOf (rx ++ [p]) p.threadId.toNat ++ tuplesOf ps p.threadId.toNat :=
              List.filter_append ..
            rw [happ, tuplesOf_concat, if_pos rfl, List.length_append, List.length_append,
              List.length_singleton] at hle
            omega
      | some d =>
          have hlt := (addRxQueue_isSome_iff hc p).mp ⟨d, hadd⟩
          apply ih (rxThreadsOf_addRxQueue hc hadd)
          intro t
          rw [tuplesOf_concat]
          split
          · next ht =>
              subst ht
              rw [List.length_append, List.length_singleton]
              exact hlt
          · exact hfit t

/-- `init_rx_queues` has grouped the tuples by their threads. -/
structure Grouped (rx : List RxThreadParams) (c : Config) : Prop extends RxThreadsOf rx c where
  highest : c.nRxThread = (rx.map (·.threadId.toNat)).max?.elim 0 (· + 1)
  others : ∀ t, (∀ p ∈ rx, p.threadId.toNat ≠ t) → c.rxThread t = Config.zero.rxThread t

/-- What `init_rx_queues` promises: it fails when a thread has too many tuples, and groups the
tuples otherwise. -/
def GroupsQueues (rx : List RxThreadParams) : Option Config → Prop
  | none => ∃ t, maxRxQueuePerLcore < (tuplesOf rx t).length
  | some c => (∀ t, (tuplesOf rx t).length ≤ maxRxQueuePerLcore) ∧ Grouped rx c

/-- **`init_rx_queues` groups the queues by thread**, whatever the order of the tuples is. -/
theorem groupsQueues_initRxQueues (rx : List RxThreadParams) :
    GroupsQueues rx (initRxQueues rx Config.zero) := by
  have hiff : (∃ c, initRxQueues rx Config.zero = some c) ↔
      ∀ t, (tuplesOf rx t).length ≤ maxRxQueuePerLcore :=
    foldlM_addRxQueue_isSome_iff rx rxThreadsOf_zero fun _ => Nat.zero_le _
  cases h : initRxQueues rx Config.zero with
  | none =>
      have hnot : ¬ ∀ t, (tuplesOf rx t).length ≤ maxRxQueuePerLcore := by
        rw [← hiff, h]
        intro h
        cases h.choose_spec
      obtain ⟨t, ht⟩ := not_forall.mp hnot
      exact ⟨t, Nat.lt_of_not_le ht⟩
  | some c =>
      have hrx := rxThreadsOf_initRxQueues h
      exact ⟨hiff.mp ⟨c, h⟩, hrx, hrx.nRxThread_eq, fun t => rxThread_initRxQueues h⟩

/-! ## Tx threads -/

structure TxThreadsOf (tx : List TxThreadParams) (c : Config) : Prop where
  count : c.nTxThread = tx.length
  thread : ∀ t p, tx[t]? = some p →
    (c.txThread t).threadId = p.threadId.toNat ∧ (c.txThread t).lcoreId = p.lcoreId.toNat

theorem txThreadsOf_addTxThread {tx : List TxThreadParams} {c : Config} (p : TxThreadParams)
    (hc : TxThreadsOf tx c) : TxThreadsOf (tx ++ [p]) (addTxThread c p) := by
  obtain ⟨hcount, hthread⟩ := hc
  refine ⟨by rw [List.length_append, ← hcount]; rfl, fun t q hq => ?_⟩
  dsimp only [addTxThread]
  rcases eq_or_ne t tx.length with rfl | ht
  · rw [List.getElem?_concat_length] at hq
    cases hq
    simp only [hcount, Function.update_self, and_self]
  · have hlt : t < tx.length := by
      have := (List.getElem?_eq_some_iff.mp hq).1
      rw [List.length_append, List.length_singleton] at this
      omega
    rw [List.getElem?_append_left hlt] at hq
    rw [hcount]
    simp only [Function.update_of_ne ht]
    exact hthread t q hq

/-- **The tx threads after `init_tx_threads`.** -/
theorem txThreadsOf_initTxThreads (tx : List TxThreadParams) (c : Config) :
    TxThreadsOf tx (initTxThreads tx c) :=
  initTxThreads_induct ⟨rfl, nofun⟩ (fun _ p _ => txThreadsOf_addTxThread p) tx

theorem nRxThread_initTxThreads (tx : List TxThreadParams) (c : Config) :
    (initTxThreads tx c).nRxThread = c.nRxThread :=
  initTxThreads_induct (P := fun _ d => d.nRxThread = c.nRxThread) rfl (fun _ _ _ hd => hd) tx

end FloWatcher
