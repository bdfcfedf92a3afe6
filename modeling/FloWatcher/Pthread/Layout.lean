import FloWatcher.Pthread.Launch

/-!
# A layout that works

Not every layout that `main` accepts is one in which all threads run and all queues are polled. It
is enough that the threads come in pairs (`Paired`): an rx thread for every id up to their number,
with one queue, one tx thread for each of them, and an lcore for each thread. Then every thread
runs, exactly the listed queues are polled, all of them have been set up, and every rx thread has a
ring, at the other end of which a tx thread runs (`operates_of_paired`).
-/

namespace FloWatcher
namespace Pthread

/-- `NB_SOCKETS`, the length of `pktmbuf_pool`. -/
def nbSockets : Nat := 4

/-- The threads come in pairs, no lcore has two of them, and there is room for the pools of their
queues. -/
structure Paired (rx : List RxThreadParams) (tx : List TxThreadParams) (slaves : List Nat) :
    Prop where
  rxIds : (rx.map (·.threadId.toNat)).Perm (List.range rx.length)
  txIds : (tx.map (·.threadId.toNat)).Perm (List.range rx.length)
  lcores : (rx.map RxThreadParams.lcoreId ++ tx.map TxThreadParams.lcoreId).Nodup
  rxSlaves : ∀ p ∈ rx, p.lcoreId.toNat ∈ slaves
  txSlaves : ∀ p ∈ tx, p.lcoreId.toNat ∈ slaves
  pools : rx.length ≤ nbSockets

/-- The queues of the tuples are on ports that exist and are enabled, and are numbered like the rx
threads. -/
def OnPorts (nbPorts : Nat) (enabledPortMask : BitVec 32) (rx : List RxThreadParams) : Prop :=
  ∀ p ∈ rx, p.portId.toNat < nbPorts ∧ portEnabled enabledPortMask p.portId.toNat = true ∧
    p.queueId.toNat < rx.length

def PortsUp (configure setUp : Nat → Nat → Bool) (enabledPortMask : BitVec 32)
    (nRxThread nbPorts : Nat) : Prop :=
  ∀ portid < nbPorts, portEnabled enabledPortMask portid = true →
    configure portid nRxThread = true ∧ ∀ qid < nRxThread, setUp portid qid = true

/-- All threads run, and a ring leads from every listed queue to a counting thread. -/
structure Operates (rx : List RxThreadParams) (c : Config) (slaves : List Nat)
    (queues : List LcoreRxQueue) : Prop where
  polled : ∀ queue, (∃ r, Runs c slaves (.rx r) ∧ pollQueue c r = queue) ↔
    ∃ p ∈ rx, p.queue = queue
  setUp : ∀ r, Runs c slaves (.rx r) → pollQueue c r ∈ queues
  ring : ∀ r, Runs c slaves (.rx r) → ∃ t ring, (c.rxThread r).ring = [ring] ∧
    (c.txThread t).ring = some ring ∧ Runs c slaves (.tx t)
  fed : ∀ t < c.nTxThread, Runs c slaves (.tx t) ∧ ∃ r ring, (c.txThread t).ring = some ring ∧
    (c.rxThread r).ring = [ring] ∧ Runs c slaves (.rx r)

/-- What has a key of its own. -/
theorem filter_key {α : Type} {key : α → Nat} {l : List α} (h : (l.map key).Nodup) {a : α}
    (ha : a ∈ l) : l.filter (key · = key a) = [a] := by
  obtain ⟨l₁, l₂, rfl⟩ := List.append_of_mem ha
  rw [List.map_append, List.map_cons, List.nodup_middle, List.nodup_cons, List.mem_append] at h
  obtain ⟨h₁, h₂⟩ := not_or.mp h.1
  have hnone : ∀ l : List α, key a ∉ l.map key → l.filter (key · = key a) = [] := by
    intro l hl
    rw [List.filter_eq_nil_iff]
    intro b hb heq
    exact hl (List.mem_map.mpr ⟨b, hb, of_decide_eq_true heq⟩)
  rw [List.filter_append, List.filter_cons, if_pos (decide_eq_true rfl), hnone l₁ h₁, hnone l₂ h₂,
    List.nil_append]

section Paired

variable {rx : List RxThreadParams} {tx : List TxThreadParams} {slaves : List Nat}

theorem Paired.length_tx (h : Paired rx tx slaves) : tx.length = rx.length := by
  have hlength := h.txIds.length_eq
  rwa [List.length_map, List.length_range] at hlength

theorem Paired.lt_iff (h : Paired rx tx slaves) (r : Nat) :
    r < rx.length ↔ ∃ p ∈ rx, p.threadId.toNat = r := by
  rw [← List.mem_range, ← h.rxIds.mem_iff, List.mem_map]

/-- Every rx thread has one tuple. -/
theorem Paired.tuplesOf_eq (h : Paired rx tx slaves) {p : RxThreadParams} (hp : p ∈ rx) :
    tuplesOf rx p.threadId.toNat = [p] :=
  filter_key (h.rxIds.nodup_iff.mpr List.nodup_range) hp

theorem Paired.lcoreOf_eq (h : Paired rx tx slaves) {p : RxThreadParams} (hp : p ∈ rx) :
    lcoreOf rx p.threadId.toNat = p.lcoreId.toNat := by
  rw [lcoreOf, h.tuplesOf_eq hp]
  rfl

theorem Paired.firstQueue_eq (h : Paired rx tx slaves) {p : RxThreadParams} (hp : p ∈ rx) :
    firstQueue rx p.threadId.toNat = p.queue := by
  rw [firstQueue, h.tuplesOf_eq hp]
  rfl

theorem Paired.isRxThread_iff (h : Paired rx tx slaves) (r : Nat) :
    IsRxThread rx r ↔ r < rx.length := by
  constructor
  · rintro ⟨p, hp, hle⟩
    exact Nat.lt_of_le_of_lt hle ((h.lt_iff _).mpr ⟨p, hp, rfl⟩)
  · intro hlt
    obtain ⟨p, hp, rfl⟩ := (h.lt_iff r).mp hlt
    exact ⟨p, hp, Nat.le_refl _⟩

/-- Rx threads on one lcore are the same. -/
theorem Paired.lcoreOf_inj (h : Paired rx tx slaves) {r r' : Nat} (hr : r < rx.length)
    (hr' : r' < rx.length) (heq : lcoreOf rx r = lcoreOf rx r') : r = r' := by
  obtain ⟨p, hp, rfl⟩ := (h.lt_iff r).mp hr
  obtain ⟨p', hp', rfl⟩ := (h.lt_iff r').mp hr'
  rw [h.lcoreOf_eq hp, h.lcoreOf_eq hp'] at heq
  have hnodup := (List.nodup_append.mp h.lcores).1
  rw [List.inj_on_of_nodup_map hnodup hp hp' (UInt8.toNat_inj.mp heq)]

theorem Paired.leads_iff (h : Paired rx tx slaves) (r : Nat) : Leads rx r ↔ r < rx.length := by
  rw [Leads, h.isRxThread_iff]
  apply and_iff_left_of_imp
  intro hr r' hlt heq
  exact Nat.ne_of_lt hlt (h.lcoreOf_inj (hlt.trans hr) hr heq)

end Paired

/-! ## The threads that run -/

section Threads

variable {rteRingCreate : String → Bool} {rteLcoreToSocketId : Nat → Nat}
  {rx : List RxThreadParams} {tx : List TxThreadParams} {c : Config} {slaves : List Nat}

/-- The initialisation gets to its end. -/
theorem Paired.initThreads_eq (h : Paired rx tx slaves)
    (hcreate : ∀ name, rteRingCreate name = true) :
    ∃ c, initThreads rteRingCreate rteLcoreToSocketId rx tx = some c := by
  have hfit : ∀ t, (tuplesOf rx t).length ≤ maxRxQueuePerLcore := by
    intro t
    by_cases ht : ∃ p ∈ rx, p.threadId.toNat = t
    · obtain ⟨p, hp, rfl⟩ := ht
      rw [h.tuplesOf_eq hp, List.length_singleton, maxRxQueuePerLcore]
      omega
    · have hnil : tuplesOf rx t = [] := by
        rw [tuplesOf, List.filter_eq_nil_iff]
        exact fun p hp hid => ht ⟨p, hp, of_decide_eq_true hid⟩
      rw [hnil]
      exact Nat.zero_le _
  have hnamed : ∀ p ∈ tx, p.threadId.toNat ≤ tx.length := by
    intro p hp
    have hmem := (h.txIds.mem_iff).mp (List.mem_map_of_mem hp)
    rw [h.length_tx]
    exact Nat.le_of_lt (List.mem_range.mp hmem)
  obtain ⟨c₀, hrx⟩ : ∃ c₀, initRxQueues rx Config.zero = some c₀ :=
    (foldlM_addRxQueue_isSome_iff rx rxThreadsOf_zero fun _ => Nat.zero_le _).mpr hfit
  obtain ⟨c, hc⟩ : ∃ c, initRxRings rteRingCreate rteLcoreToSocketId false (initTxThreads tx c₀) =
      .ok c := (initRxRings_ok_iff hcreate hrx).mpr hnamed
  refine ⟨c, ?_⟩
  rw [initThreads, FloWatcher.initThreads, hrx, Option.bind_some, hc]
  rfl

theorem Paired.runs_rx_iff (h : Paired rx tx slaves)
    (hinit : initThreads rteRingCreate rteLcoreToSocketId rx tx = some c) (r : Nat) :
    Runs c slaves (.rx r) ↔ r < rx.length := by
  rw [Pthread.runs_rx_iff hinit, h.leads_iff]
  apply and_iff_left_of_imp
  intro hr
  obtain ⟨p, hp, rfl⟩ := (h.lt_iff r).mp hr
  rw [h.lcoreOf_eq hp]
  exact h.rxSlaves p hp

theorem Paired.runs_tx (h : Paired rx tx slaves)
    (hinit : initThreads rteRingCreate rteLcoreToSocketId rx tx = some c) {t : Nat}
    (ht : t < tx.length) : Runs c slaves (.tx t) := by
  obtain ⟨-, htx, hdisjoint⟩ := List.nodup_append.mp h.lcores
  rw [runs_tx_iff hinit (List.getElem?_eq_getElem ht)]
  refine ⟨h.txSlaves _ (List.getElem_mem ht), fun r hr heq => ?_, fun t' ht' p' hp' heq => ?_⟩
  · obtain ⟨p, hp, rfl⟩ := (h.lt_iff r).mp ((h.isRxThread_iff r).mp hr)
    rw [h.lcoreOf_eq hp] at heq
    exact hdisjoint _ (List.mem_map_of_mem hp) _ (List.mem_map_of_mem (List.getElem_mem ht))
      (UInt8.toNat_inj.mp heq)
  · rw [List.nodup_iff_getElem?_ne_getElem?] at htx
    apply htx t' t ht' (by rwa [List.length_map])
    rw [List.getElem?_map, List.getElem?_map, hp', List.getElem?_eq_getElem ht, Option.map_some,
      Option.map_some, heq]

/-- The ring of a tx thread is one of the rx thread that it is named after. -/
theorem mem_ring_initThreads (hinit : initThreads rteRingCreate rteLcoreToSocketId rx tx = some c) :
    ∀ t < c.nTxThread, ∃ ring, (c.txThread t).ring = some ring ∧
      ring ∈ (c.rxThread ring.rxThreadId).ring ∧ ring.rxThreadId = (c.txThread t).threadId := by
  apply initThreads_induct (P := fun k c => ∀ t < k, ∃ ring, (c.txThread t).ring = some ring ∧
    ring ∈ (c.rxThread ring.rxThreadId).ring ∧ ring.rxThreadId = (c.txThread t).threadId) _ _ hinit
  · exact fun _ _ t ht => absurd ht (Nat.not_lt_zero t)
  · intro k d d' hd hconnect
    obtain ⟨-, ring, hid, -, rfl⟩ := connect_ok hconnect
    refine ⟨fun t ht => ?_, rfl⟩
    rcases eq_or_ne t k with rfl | hne
    · simp only [Function.update_self]
      exact ⟨ring, rfl, by simp, hid⟩
    · obtain ⟨ring', hring', hmem, hid'⟩ := hd t (by omega)
      simp only [Function.update_of_ne hne]
      refine ⟨ring', hring', ?_, hid'⟩
      rcases eq_or_ne ring'.rxThreadId ring.rxThreadId with heq | hother
      · rw [heq] at hmem ⊢
        simp only [Function.update_self]
        exact List.mem_append_left _ hmem
      · simp only [Function.update_of_ne hother]
        exact hmem

/-- Every rx thread has one ring. -/
theorem Paired.ring_length (h : Paired rx tx slaves)
    (hinit : initThreads rteRingCreate rteLcoreToSocketId rx tx = some c) {r : Nat}
    (hr : r < rx.length) : (c.rxThread r).ring.length = 1 := by
  have hmem : r ∈ tx.map (·.threadId.toNat) := h.txIds.mem_iff.mpr (List.mem_range.mpr hr)
  obtain ⟨p, hp, rfl⟩ := List.mem_map.mp hmem
  have hkey := filter_key (h.txIds.nodup_iff.mpr List.nodup_range) hp
  rw [(ringsOf_initThreads hinit).length, List.take_length, List.countP_eq_length_filter, hkey]
  rfl

theorem Paired.nRxThread_eq (h : Paired rx tx slaves)
    (hinit : initThreads rteRingCreate rteLcoreToSocketId rx tx = some c) :
    c.nRxThread = rx.length := by
  apply eq_of_forall_lt_iff
  intro r
  rw [(threadsOf_initThreads hinit).1.count, ← h.isRxThread_iff]
  rfl

theorem Paired.pollQueue_eq (h : Paired rx tx slaves)
    (hinit : initThreads rteRingCreate rteLcoreToSocketId rx tx = some c) {p : RxThreadParams}
    (hp : p ∈ rx) : pollQueue c p.threadId.toNat = p.queue := by
  rw [Pthread.pollQueue_eq hinit, h.firstQueue_eq hp]

/-- Every rx thread has a tx thread behind its ring. -/
theorem Paired.exists_tx (h : Paired rx tx slaves)
    (hinit : initThreads rteRingCreate rteLcoreToSocketId rx tx = some c) {r : Nat}
    (hr : r < rx.length) :
    ∃ t ring, (c.rxThread r).ring = [ring] ∧ (c.txThread t).ring = some ring ∧
      Runs c slaves (.tx t) := by
  obtain ⟨ring, hone⟩ := List.length_eq_one_iff.mp (h.ring_length hinit hr)
  have hmem : ring ∈ (c.rxThread r).ring := by
    rw [hone]
    exact List.mem_singleton_self ring
  obtain ⟨-, hlt, hring⟩ := (wired_initThreads hinit).rx r ring hmem
  refine ⟨ring.txThreadId, ring, hone, hring, h.runs_tx hinit ?_⟩
  rwa [← (threadsOf_initThreads hinit).2.count]

/-- Every tx thread has an rx thread in front of its ring. -/
theorem Paired.exists_rx (h : Paired rx tx slaves)
    (hinit : initThreads rteRingCreate rteLcoreToSocketId rx tx = some c) {t : Nat}
    (ht : t < c.nTxThread) :
    ∃ r ring, (c.txThread t).ring = some ring ∧ (c.rxThread r).ring = [ring] ∧
      Runs c slaves (.rx r) := by
  obtain ⟨hcount, hthread⟩ := (threadsOf_initThreads hinit).2
  obtain ⟨ring, hring, hmem, hid⟩ := mem_ring_initThreads hinit t ht
  rw [hcount] at ht
  have hr : ring.rxThreadId < rx.length := by
    rw [hid, (hthread t _ (List.getElem?_eq_getElem ht)).1]
    exact List.mem_range.mp (h.txIds.mem_iff.mp (List.mem_map_of_mem (List.getElem_mem ht)))
  obtain ⟨ring', hone⟩ := List.length_eq_one_iff.mp (h.ring_length hinit hr)
  rw [hone, List.mem_singleton] at hmem
  refine ⟨ring.rxThreadId, ring, hring, ?_, (h.runs_rx_iff hinit _).mpr hr⟩
  rw [hone, hmem]

end Threads

/-! ## The whole program -/

section Main

variable {configure : Nat → Nat → Bool} {setUp : Nat → Nat → Bool}

/-- The enabled ports are set up when no call for them fails. -/
theorem setUpPorts_ok {enabledPortMask : BitVec 32} {nRxThread : Nat} (hn : nRxThread < 256)
    {ports : List Nat}
    (hup : ∀ portid ∈ ports, portEnabled enabledPortMask portid = true →
      configure portid nRxThread = true ∧ ∀ qid < nRxThread, setUp portid qid = true) :
    ∃ queues, setUpPorts configure setUp enabledPortMask nRxThread ports = some queues := by
  induction ports with
  | nil => exact ⟨[], rfl⟩
  | cons portid ports ih =>
      obtain ⟨hport, hports⟩ := List.forall_mem_cons.mp hup
      obtain ⟨queues, hqueues⟩ := ih hports
      rw [setUpPorts]
      split
      · next henabled =>
          obtain ⟨hconfigure, hsetUp⟩ := hport henabled
          rw [setUpPort, if_pos ⟨hconfigure, hn, hsetUp⟩, Option.bind_some, hqueues]
          exact ⟨_, rfl⟩
      · exact ⟨queues, hqueues⟩

variable {rteRingCreate : String → Bool} {rteLcoreToSocketId : Nat → Nat}
  {rx : List RxThreadParams} {tx : List TxThreadParams} {slaves : List Nat} {nbPorts : Nat}
  {enabledPortMask : BitVec 32}

/-- **Threads in pairs work**, when neither a ring nor an enabled port fails. -/
theorem operates_of_paired (h : Paired rx tx slaves) (hports : OnPorts nbPorts enabledPortMask rx)
    (hcreate : ∀ name, rteRingCreate name = true)
    (hup : PortsUp configure setUp enabledPortMask rx.length nbPorts) :
    ∃ c queues, initThreads rteRingCreate rteLcoreToSocketId rx tx = some c ∧
      setUpPorts configure setUp enabledPortMask c.nRxThread (List.range nbPorts) = some queues ∧
      Operates rx c slaves queues := by
  obtain ⟨c, hinit⟩ : ∃ c, initThreads rteRingCreate rteLcoreToSocketId rx tx = some c :=
    h.initThreads_eq hcreate
  have hcount := h.nRxThread_eq hinit
  have hlt : rx.length < 256 := Nat.lt_of_le_of_lt h.pools (by decide)
  obtain ⟨queues, hqueues⟩ := setUpPorts_ok hlt fun portid hmem =>
    hup portid (List.mem_range.mp hmem)
  rw [← hcount] at hqueues
  refine ⟨c, queues, hinit, hqueues, fun queue => ?_, fun r hr => ?_, fun r hr => ?_,
    fun t ht => ?_⟩
  · constructor
    · rintro ⟨r, hr, rfl⟩
      obtain ⟨p, hp, rfl⟩ := (h.lt_iff r).mp ((h.runs_rx_iff hinit r).mp hr)
      exact ⟨p, hp, (h.pollQueue_eq hinit hp).symm⟩
    · rintro ⟨p, hp, rfl⟩
      refine ⟨p.threadId.toNat, ?_, h.pollQueue_eq hinit hp⟩
      exact (h.runs_rx_iff hinit _).mpr ((h.lt_iff _).mpr ⟨p, hp, rfl⟩)
  · obtain ⟨p, hp, rfl⟩ := (h.lt_iff r).mp ((h.runs_rx_iff hinit r).mp hr)
    obtain ⟨hport, henabled, hqueue⟩ := hports p hp
    rw [h.pollQueue_eq hinit hp, mem_setUpPorts_iff hqueues, hcount]
    exact ⟨List.mem_range.mpr hport, henabled, hqueue⟩
  · exact h.exists_tx hinit ((h.runs_rx_iff hinit r).mp hr)
  · refine ⟨h.runs_tx hinit ?_, h.exists_rx hinit ht⟩
    rwa [← (threadsOf_initThreads hinit).2.count]

end Main

end Pthread
end FloWatcher
