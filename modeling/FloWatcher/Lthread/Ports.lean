import FloWatcher.Calls
import FloWatcher.Lthread.Layout
import FloWatcher.Pthread.Launch

/-!
# The ports and their queues

`main` of the lthread program configures the enabled ports and creates mbuf pools, and then walks
through the rx threads to set up their queues. The pools are numbered by rx thread, created once for
each port, kept in an array with an entry for each socket and looked up by queue id. The number of
queues of a port is one more than the highest queue id, whether or not the others are listed.
-/

namespace FloWatcher
namespace Lthread

open Calls
open Pthread (portEnabled)

/-- `NB_SOCKETS`, the length of `pktmbuf_pool` -/
def nbSockets : Nat := 4

def getPortNRxQueues (rx : List RxThreadParams) (port : Nat) : Nat :=
  let queue : Int := rx.foldl (fun queue p =>
    if p.portId.toNat = port ∧ queue < p.queueId.toNat then p.queueId.toNat else queue) (-1)
  ((queue + 1) % 256).toNat

/-- The calls of `main` after which it may exit. A pool is known by the number in its name. -/
inductive Call where
  /-- `rte_eth_dev_configure` -/
  | configure (port nbRxQueue : Nat)
  /-- `rte_pktmbuf_pool_create`, with a result for `pktmbuf_pool[queueId]` -/
  | poolCreate (queueId : Nat)
  /-- the return of `init_mem1`, whose value is undefined -/
  | initMem1Return
  /-- `rte_lcore_is_enabled` -/
  | lcoreIsEnabled (lcore : Nat)
  /-- `rte_eth_rx_queue_setup`, with `pktmbuf_pool[queue]` -/
  | rxQueueSetup (port queue : Nat)
  deriving DecidableEq

section Main

variable (env : Env Call) (rx : List RxThreadParams) (cfg : Config)

def initMem1 : Prog Call Unit :=
  forM (List.range cfg.nRxThread) fun queueId => call env (.poolCreate queueId)

def initPort (portid : Nat) : Prog Call Unit := do
  call env (.configure portid (getPortNRxQueues rx portid))
  initMem1 env cfg
  call env .initMem1Return

def initPorts (enabledPortMask : BitVec 32) (nbPorts : Nat) : Prog Call Unit :=
  forM (List.range nbPorts) fun portid =>
    if portEnabled enabledPortMask portid then initPort env rx cfg portid else pure ()

def setUpQueues : Prog Call Unit :=
  forM (List.range cfg.nRxThread) fun i => do
    call env (.lcoreIsEnabled (cfg.rxThread i).lcoreId)
    forM (cfg.rxThread i).rxQueueList fun q =>
      call env (.rxQueueSetup q.portId.toNat q.queueId.toNat)

/-- `main` from the ports to the queues. -/
def mainSetUp (enabledPortMask : BitVec 32) (nbPorts : Nat) : Prog Call Unit := do
  initPorts env rx cfg enabledPortMask nbPorts
  setUpQueues env cfg

end Main

/-! ## The calls -/

/-- The ports that exist and are enabled. -/
def enabledPorts (enabledPortMask : BitVec 32) (nbPorts : Nat) : List Nat :=
  (List.range nbPorts).filter (portEnabled enabledPortMask)

def portCalls (rx : List RxThreadParams) (cfg : Config) (portid : Nat) : List Call :=
  .configure portid (getPortNRxQueues rx portid) ::
    ((List.range cfg.nRxThread).map .poolCreate ++ [.initMem1Return])

def threadCalls (cfg : Config) (i : Nat) : List Call :=
  .lcoreIsEnabled (cfg.rxThread i).lcoreId ::
    (cfg.rxThread i).rxQueueList.map fun q => .rxQueueSetup q.portId.toNat q.queueId.toNat

def mainCalls (rx : List RxThreadParams) (cfg : Config) (ports : List Nat) : List Call :=
  ports.flatMap (portCalls rx cfg) ++ (List.range cfg.nRxThread).flatMap (threadCalls cfg)

variable {env : Env Call} {rx : List RxThreadParams} {cfg : Config}

theorem initPorts_eq (enabledPortMask : BitVec 32) (nbPorts : Nat) :
    initPorts env rx cfg enabledPortMask nbPorts =
      forM ((enabledPorts enabledPortMask nbPorts).flatMap (portCalls rx cfg)) (call env) := by
  have hport : ∀ portid, initPort env rx cfg portid = forM (portCalls rx cfg portid) (call env) := by
    intro portid
    simp only [initPort, initMem1, portCalls, List.forM_cons, List.forM_append, List.forM_map,
      List.forM_nil, bind_pure_comp, id_map']
  rw [← forM_flatMap]
  unfold initPorts enabledPorts
  induction List.range nbPorts with
  | nil => rfl
  | cons portid ports ih =>
      rw [List.forM_cons, ih, List.filter_cons]
      split
      · rw [List.forM_cons, hport]
      · exact pure_bind ..

theorem setUpQueues_eq :
    setUpQueues env cfg =
      forM ((List.range cfg.nRxThread).flatMap (threadCalls cfg)) (call env) := by
  rw [← forM_flatMap]
  simp only [setUpQueues, threadCalls, List.forM_cons, List.forM_map]

/-- `main` makes these calls until one fails. -/
theorem mainSetUp_eq (enabledPortMask : BitVec 32) (nbPorts : Nat) :
    mainSetUp env rx cfg enabledPortMask nbPorts =
      forM (mainCalls rx cfg (enabledPorts enabledPortMask nbPorts)) (call env) := by
  rw [mainSetUp, initPorts_eq, setUpQueues_eq, mainCalls, List.forM_append]

theorem poolCreate_mem_portCalls {i port : Nat} :
    .poolCreate i ∈ portCalls rx cfg port ↔ i < cfg.nRxThread := by
  simp [portCalls]

theorem count_portCalls (i port : Nat) : (portCalls rx cfg port).count (.poolCreate i) ≤ 1 := by
  have hinj : Function.Injective Call.poolCreate := fun i j h => by cases h; rfl
  have hmap := List.count_map_of_injective (List.range cfg.nRxThread) Call.poolCreate hinj i
  have hrange := List.nodup_iff_count_le_one.mp (List.nodup_range (n := cfg.nRxThread)) i
  simpa [portCalls, hmap] using hrange

theorem poolCreate_not_mem_threadCalls {i r : Nat} : .poolCreate i ∉ threadCalls cfg r := by
  simp [threadCalls]

theorem rxQueueSetup_not_mem_portCalls {port queue portid : Nat} :
    .rxQueueSetup port queue ∉ portCalls rx cfg portid := by
  simp [portCalls]

theorem lcoreIsEnabled_mem_threadCalls {l r : Nat} :
    .lcoreIsEnabled l ∈ threadCalls cfg r ↔ l = (cfg.rxThread r).lcoreId := by
  simp [threadCalls]

/-! ## Are the pools there? -/

/-- Every pool is created once, whether an lcore is enabled does not change, and nothing is known of
the other calls. -/
structure PoolNames (rteLcoreIsEnabled : Nat → Bool) (env : Env Call) : Prop where
  pool : ∀ before i, env before (.poolCreate i) = true ↔ .poolCreate i ∉ before
  lcore : ∀ before l, env before (.lcoreIsEnabled l) = rteLcoreIsEnabled l

/-- The index into `pktmbuf_pool` is within the array, and a pool that is used was created. -/
def PoolThere (before : List Call) : Call → Prop
  | .poolCreate queueId => queueId < nbSockets
  | .rxQueueSetup _ queue => queue < nbSockets ∧ .poolCreate queue ∈ before
  | _ => True

def PoolsThere (cs : List Call) : Prop :=
  ∀ pre c post, cs = pre ++ c :: post → PoolThere pre c

def allowing (rteLcoreIsEnabled : Nat → Bool) : Env Call := fun before c =>
  match c with
  | .poolCreate _ => c ∉ before
  | .lcoreIsEnabled l => rteLcoreIsEnabled l
  | _ => true

variable {rteLcoreIsEnabled : Nat → Bool}

theorem poolNames_allowing : PoolNames rteLcoreIsEnabled (allowing rteLcoreIsEnabled) where
  pool before i := by simp [allowing]
  lcore _ _ := rfl

theorem succeed_allowing {cs : List Call} (hpool : ∀ i, cs.count (.poolCreate i) ≤ 1)
    (hlcore : ∀ l, .lcoreIsEnabled l ∈ cs → rteLcoreIsEnabled l = true) :
    Succeed (allowing rteLcoreIsEnabled) [] cs := by
  apply succeed_of_forall
  rintro pre c post rfl
  cases c with
  | poolCreate i =>
      have hcount := hpool i
      rw [List.count_append, List.count_cons_self] at hcount
      have hnot : .poolCreate i ∉ pre := List.count_eq_zero.mp (by omega)
      simpa [allowing] using hnot
  | lcoreIsEnabled l => exact hlcore l (by simp)
  | _ => rfl

/-- A port for which the program goes on has created pools that were not there. -/
theorem ports_length_le_one {env : Env Call} (henv : PoolNames rteLcoreIsEnabled env) {ports : List Nat}
    (h : Succeed env [] (ports.flatMap (portCalls rx cfg))) (hrx : 0 < cfg.nRxThread) :
    ports.length ≤ 1 := by
  match ports with
  | [] | [_] => exact Nat.le_of_lt_succ (by simp)
  | port :: port' :: ports =>
      have hfirst : .poolCreate 0 ∈ portCalls rx cfg port := poolCreate_mem_portCalls.mpr hrx
      have hsecond : .poolCreate 0 ∈ portCalls rx cfg port' := poolCreate_mem_portCalls.mpr hrx
      obtain ⟨pre, post, hsplit⟩ := List.append_of_mem hsecond
      have hcalls : (port :: port' :: ports).flatMap (portCalls rx cfg) =
          (portCalls rx cfg port ++ pre) ++
            .poolCreate 0 :: (post ++ ports.flatMap (portCalls rx cfg)) := by
        rw [List.flatMap_cons, List.flatMap_cons, hsplit]
        simp
      rw [hcalls] at h
      have hfresh := (henv.pool _ 0).mp (succeed_append.mp h).2.1
      exact absurd (List.mem_append_left pre hfirst) (by simpa using hfresh)

theorem mem_of_lt_of_range {n i r : Nat} {l₁ l₂ : List Nat} (h : List.range n = l₁ ++ i :: l₂) :
    r ∈ l₁ ↔ r < i := by
  have hsorted := List.pairwise_lt_range (n := n)
  have hmem : ∀ r, r < n ↔ r ∈ l₁ ++ i :: l₂ := fun r => by rw [← h, List.mem_range]
  rw [h, List.pairwise_append, List.pairwise_cons] at hsorted
  obtain ⟨-, ⟨hafter, -⟩, hbefore⟩ := hsorted
  constructor
  · exact fun hr => hbefore r hr i List.mem_cons_self
  · intro hr
    have hi : i < n := (hmem i).mpr (by simp)
    have hrange := (hmem r).mp (by omega)
    grind

section Accepted

variable {rteRingCreate : String → Bool} {rteLcoreToSocketId : Nat → Nat} {tx : List TxThreadParams}

/-- The lcore of an rx thread: an enabled one if the thread has a tuple, or else lcore `0`. -/
theorem lcoreId_spec (hthreads : RxThreadsOf rx cfg)
    (hlcore : ∀ p ∈ rx, rteLcoreIsEnabled p.lcoreId.toNat = true) (r : Nat) :
    (∃ q ∈ rx, q.threadId.toNat = r) ∧ rteLcoreIsEnabled (cfg.rxThread r).lcoreId = true ∨
      (¬ ∃ q ∈ rx, q.threadId.toNat = r) ∧ (cfg.rxThread r).lcoreId = 0 := by
  rw [hthreads.lcore, lcoreOf]
  cases hlast : (tuplesOf rx r).getLast? with
  | none =>
      right
      have hnil := List.getLast?_eq_none_iff.mp hlast
      refine ⟨?_, rfl⟩
      rintro ⟨q, hq, hid⟩
      have hmem : q ∈ tuplesOf rx r := List.mem_filter.mpr ⟨hq, decide_eq_true hid⟩
      rw [hnil] at hmem
      exact List.not_mem_nil hmem
  | some q =>
      left
      have hmem := List.mem_filter.mp (List.mem_of_getLast? hlast)
      exact ⟨⟨q, hmem.1, of_decide_eq_true hmem.2⟩, hlcore q hmem.1⟩

theorem rxQueueSetup_mem_threadCalls (hthreads : RxThreadsOf rx cfg) {port queue r : Nat} :
    .rxQueueSetup port queue ∈ threadCalls cfg r ↔
      ∃ p ∈ rx, p.threadId.toNat = r ∧ p.portId.toNat = port ∧ p.queueId.toNat = queue := by
  simp [threadCalls, hthreads.queues, tuplesOf, RxThreadParams.queue, and_assoc]

/-- `main` gets to the tuples of an rx thread when it does not exit for the lcore of an earlier one. -/
def Reached (rteLcoreIsEnabled : Nat → Bool) (rx : List RxThreadParams) (p : RxThreadParams) : Prop :=
  rteLcoreIsEnabled 0 = true ∨ ∀ r < p.threadId.toNat, ∃ q ∈ rx, q.threadId.toNat = r

/-- Nothing fails on the way to a tuple, through the ports and the rx threads up to its own. -/
theorem succeed_before (hthreads : RxThreadsOf rx cfg)
    (hlcore : ∀ p ∈ rx, rteLcoreIsEnabled p.lcoreId.toNat = true) {ports : List Nat}
    (hports : ports.length ≤ 1) {p : RxThreadParams} (hp : p ∈ rx)
    (hreached : Reached rteLcoreIsEnabled rx p) {cs : List Call}
    (hcs : ∀ c ∈ cs, ∃ r ≤ p.threadId.toNat, c ∈ threadCalls cfg r) :
    Succeed (allowing rteLcoreIsEnabled) [] (ports.flatMap (portCalls rx cfg) ++ cs) := by
  apply succeed_allowing
  · intro i
    have hpool : .poolCreate i ∉ cs := by
      intro hi
      obtain ⟨r, -, hc⟩ := hcs _ hi
      exact poolCreate_not_mem_threadCalls hc
    rw [List.count_append, List.count_eq_zero_of_not_mem hpool, Nat.add_zero]
    match ports with
    | [] => exact Nat.zero_le 1
    | [port] =>
        rw [List.flatMap_singleton]
        exact count_portCalls i port
  · intro l hl
    rcases List.mem_append.mp hl with hl | hl
    · obtain ⟨port, -, hl⟩ := List.mem_flatMap.mp hl
      simp [portCalls] at hl
    · obtain ⟨r, hle, hl⟩ := hcs _ hl
      rw [lcoreIsEnabled_mem_threadCalls.mp hl]
      -- lcore `0` is asked for where an id has no tuple, which is before the thread of `p`
      rcases lcoreId_spec hthreads hlcore r with ⟨-, henabled⟩ | ⟨hnone, hzero⟩
      · exact henabled
      · rw [hzero]
        rcases hreached with hzero | htuples
        · exact hzero
        · rcases Nat.lt_or_eq_of_le hle with hlt | rfl
          · exact absurd (htuples r hlt) hnone
          · exact absurd ⟨p, hp, rfl⟩ hnone

/-- A pool is handed over for a tuple. -/
theorem handed_over (hthreads : RxThreadsOf rx cfg)
    (hlcore : ∀ p ∈ rx, rteLcoreIsEnabled p.lcoreId.toNat = true) {ports : List Nat}
    (hports : ports.length ≤ 1) {p : RxThreadParams} (hp : p ∈ rx)
    (hreached : Reached rteLcoreIsEnabled rx p) :
    ∃ pre post, made (allowing rteLcoreIsEnabled) [] (mainCalls rx cfg ports) =
        pre ++ .rxQueueSetup p.portId.toNat p.queueId.toNat :: post ∧
      ∀ i, .poolCreate i ∈ pre → ports ≠ [] ∧ i < cfg.nRxThread := by
  have hr := hthreads.lt_count hp
  obtain ⟨l₁, l₂, hrange⟩ := List.append_of_mem (List.mem_range.mpr hr)
  obtain ⟨before, after, hbefore⟩ := List.append_of_mem
    ((rxQueueSetup_mem_threadCalls hthreads).mpr ⟨p, hp, rfl, rfl, rfl⟩)
  have hcalls : mainCalls rx cfg ports =
      (ports.flatMap (portCalls rx cfg) ++ (l₁.flatMap (threadCalls cfg) ++ before)) ++
        .rxQueueSetup p.portId.toNat p.queueId.toNat ::
          (after ++ l₂.flatMap (threadCalls cfg)) := by
    rw [mainCalls, hrange, List.flatMap_append, List.flatMap_cons, hbefore]
    simp
  have hthread : ∀ c ∈ l₁.flatMap (threadCalls cfg) ++ before,
      ∃ r ≤ p.threadId.toNat, c ∈ threadCalls cfg r := by
    intro c hc
    rcases List.mem_append.mp hc with hc | hc
    · obtain ⟨r, hr, hc⟩ := List.mem_flatMap.mp hc
      exact ⟨r, ((mem_of_lt_of_range hrange).mp hr).le, hc⟩
    · exact ⟨_, le_rfl, by rw [hbefore]; exact List.mem_append_left _ hc⟩
  have hsucceed := succeed_before hthreads hlcore hports hp hreached hthread
  obtain ⟨post, hpost⟩ := made_append_cons hsucceed
    (.rxQueueSetup p.portId.toNat p.queueId.toNat) (after ++ l₂.flatMap (threadCalls cfg))
  refine ⟨_, post, by rw [hcalls, hpost], fun i hi => ?_⟩
  rcases List.mem_append.mp hi with hi | hi
  · obtain ⟨port, hport, hi⟩ := List.mem_flatMap.mp hi
    exact ⟨List.ne_nil_of_mem hport, poolCreate_mem_portCalls.mp hi⟩
  · obtain ⟨r, -, hc⟩ := hthread _ hi
    exact absurd hc poolCreate_not_mem_threadCalls

/-- Every pool of the first port is stored. -/
theorem stored {i : Nat} (hi : i < cfg.nRxThread) (port : Nat) (ports : List Nat) :
    ∃ pre post, made (allowing rteLcoreIsEnabled) [] (mainCalls rx cfg (port :: ports)) =
      pre ++ .poolCreate i :: post := by
  have hmem : .poolCreate i ∈ portCalls rx cfg port := poolCreate_mem_portCalls.mpr hi
  obtain ⟨pre, post, hport⟩ := List.append_of_mem hmem
  have hsucceed : Succeed (allowing rteLcoreIsEnabled) [] pre := by
    have hsub : pre.Sublist (portCalls rx cfg port) := by
      rw [hport]
      exact List.sublist_append_left ..
    apply succeed_allowing
    · exact fun j => (hsub.count_le _).trans (count_portCalls j port)
    · intro l hl
      have hmem := hsub.subset hl
      simp [portCalls] at hmem
  obtain ⟨rest, hrest⟩ := made_append_cons hsucceed (.poolCreate i)
    (post ++ ports.flatMap (portCalls rx cfg) ++
      (List.range cfg.nRxThread).flatMap (threadCalls cfg))
  refine ⟨pre, rest, ?_⟩
  rw [mainCalls, List.flatMap_cons, hport, ← hrest]
  simp

/-- When a pool is handed over, `main` has got past the ports and the lcores of earlier rx threads. -/
theorem handed_over_spec (hthreads : RxThreadsOf rx cfg)
    (hlcore : ∀ p ∈ rx, rteLcoreIsEnabled p.lcoreId.toNat = true) {env : Env Call}
    (henv : PoolNames rteLcoreIsEnabled env) {ports : List Nat} {port queue : Nat}
    {pre rest : List Call} (hsucceed : Succeed env [] pre)
    (h : mainCalls rx cfg ports = pre ++ .rxQueueSetup port queue :: rest) :
    ports.length ≤ 1 ∧ (∃ p ∈ rx, Reached rteLcoreIsEnabled rx p ∧ p.queueId.toNat = queue) ∧
      ∀ i < cfg.nRxThread, ports ≠ [] → .poolCreate i ∈ pre := by
  have hnot : .rxQueueSetup port queue ∉ ports.flatMap (portCalls rx cfg) := by
    intro hmem
    obtain ⟨portid, -, hmem⟩ := List.mem_flatMap.mp hmem
    exact rxQueueSetup_not_mem_portCalls hmem
  obtain ⟨mid, rfl, hmid⟩ := append_eq_append_cons hnot h
  obtain ⟨l₁, r, l₂, before, after, hrange, hthread, rfl⟩ := flatMap_eq_append_cons hmid
  obtain ⟨hportcalls, hmidcalls⟩ := succeed_append.mp hsucceed
  have hsetup : .rxQueueSetup port queue ∈ threadCalls cfg r := by
    rw [hthread]
    exact List.mem_append_right _ List.mem_cons_self
  obtain ⟨p, hp, rfl, rfl, rfl⟩ := (rxQueueSetup_mem_threadCalls hthreads).mp hsetup
  have hr := hthreads.lt_count hp
  refine ⟨ports_length_le_one henv hportcalls (Nat.zero_lt_of_lt hr), ⟨p, hp, ?_, rfl⟩, ?_⟩
  · by_contra hnot
    obtain ⟨hzero, r, hlt, hnone⟩ : rteLcoreIsEnabled 0 = false ∧
        ∃ r < p.threadId.toNat, ¬ ∃ q ∈ rx, q.threadId.toNat = r := by
      simpa [Reached] using hnot
    have hcheck : .lcoreIsEnabled 0 ∈ l₁.flatMap (threadCalls cfg) ++ before := by
      apply List.mem_append_left
      refine List.mem_flatMap.mpr ⟨r, (mem_of_lt_of_range hrange).mpr hlt, ?_⟩
      rw [lcoreIsEnabled_mem_threadCalls]
      rcases lcoreId_spec hthreads hlcore r with ⟨htuple, -⟩ | ⟨-, hzero⟩
      · exact absurd htuple hnone
      · exact hzero.symm
    obtain ⟨_, _, -, henabled⟩ := hmidcalls.of_mem hcheck
    rw [henv.lcore, hzero] at henabled
    cases henabled
  · intro i hi hne
    obtain ⟨portid, hportid⟩ := List.exists_mem_of_ne_nil _ hne
    apply List.mem_append_left
    exact List.mem_flatMap.mpr ⟨portid, hportid, poolCreate_mem_portCalls.mpr hi⟩

end Accepted

/-- **When the pools are there**: when the array is long enough for all rx threads, unless no port is
enabled, and every queue id is also the number of an rx thread, unless a second port is enabled, for
which the program exits. -/
theorem poolsThere_iff (rteLcoreIsEnabled : Nat → Bool) (rteRingCreate : String → Bool)
    (rteLcoreToSocketId : Nat → Nat) (rx : List RxThreadParams) (tx : List TxThreadParams)
    (cfg : Config)
    (h : acceptParams rteLcoreIsEnabled rteRingCreate rteLcoreToSocketId rx tx = some cfg)
    (enabledPortMask : BitVec 32) (nbPorts : Nat) :
    (∀ env, PoolNames rteLcoreIsEnabled env →
        PoolsThere (calls (mainSetUp env rx cfg enabledPortMask nbPorts))) ↔
      (enabledPorts enabledPortMask nbPorts ≠ [] → ∀ p ∈ rx, p.threadId.toNat < nbSockets) ∧
        ((enabledPorts enabledPortMask nbPorts).length ≤ 1 →
          ∀ p ∈ rx, Reached rteLcoreIsEnabled rx p →
            enabledPorts enabledPortMask nbPorts ≠ [] ∧
              ∃ q ∈ rx, p.queueId.toNat ≤ q.threadId.toNat) := by
  obtain ⟨hcheck, hinit⟩ := acceptParams_eq_some h
  have hlcore : ∀ p ∈ rx, rteLcoreIsEnabled p.lcoreId.toNat = true := fun p hp => (hcheck p hp).2
  have hthreads := (threadsOf_initThreads hinit).1
  simp only [mainSetUp_eq, calls_forM]
  generalize enabledPorts enabledPortMask nbPorts = ports
  constructor
  -- an environment that allows every call makes every call of the list
  · intro hall
    have hthere := hall _ poolNames_allowing
    refine ⟨fun hne p hp => ?_, fun hports p hp hreached => ?_⟩
    · obtain ⟨port, ports, rfl⟩ := List.exists_cons_of_ne_nil hne
      have hr := hthreads.lt_count hp
      obtain ⟨pre, post, hmade⟩ := stored hr port ports
      exact hthere pre _ post hmade
    · obtain ⟨pre, post, hmade, hpre⟩ := handed_over hthreads hlcore hports hp hreached
      obtain ⟨hne, hlt⟩ := hpre _ (hthere pre _ post hmade).2
      exact ⟨hne, (hthreads.count _).mp hlt⟩
  · rintro ⟨hindex, hfilled⟩ env henv pre c post hmade
    obtain ⟨hsucceed, rest, hcalls⟩ := succeed_of_made hmade
    have hlt : ports ≠ [] → ∀ i < cfg.nRxThread, i < nbSockets :=
      fun hne => (hthreads.forall_lt_iff nbSockets).mpr (hindex hne)
    cases c with
    | poolCreate i =>
        have hmem : .poolCreate i ∈ mainCalls rx cfg ports := by
          rw [hcalls]
          exact List.mem_append_right _ List.mem_cons_self
        rcases List.mem_append.mp hmem with hmem | hmem
        · obtain ⟨port, hport, hmem⟩ := List.mem_flatMap.mp hmem
          exact hlt (List.ne_nil_of_mem hport) i (poolCreate_mem_portCalls.mp hmem)
        · obtain ⟨r, -, hmem⟩ := List.mem_flatMap.mp hmem
          exact absurd hmem poolCreate_not_mem_threadCalls
    | rxQueueSetup port queue =>
        obtain ⟨hports, ⟨p, hp, hreached, rfl⟩, hpools⟩ :=
          handed_over_spec hthreads hlcore henv hsucceed hcalls
        obtain ⟨hne, hqueue⟩ := hfilled hports p hp hreached
        have hqueue' := (hthreads.count _).mpr hqueue
        exact ⟨hlt hne _ hqueue', hpools _ hqueue' hne⟩
    | _ => trivial

/-- One tuple, on the one port. -/
theorem poolsThere_iff_one_port :
    ∃ cfg, acceptParams (fun _ => true) (fun _ => true) (fun _ => 0) [⟨0, 0, 2, 0⟩] [⟨4, 0⟩] =
        some cfg ∧
      ((∀ env, PoolNames (fun _ => true) env →
          PoolsThere (calls (mainSetUp env [⟨0, 0, 2, 0⟩] cfg 1#32 1))) ↔
        (enabledPorts 1#32 1 ≠ [] →
          ∀ p ∈ [(⟨0, 0, 2, 0⟩ : RxThreadParams)], p.threadId.toNat < nbSockets) ∧
        ((enabledPorts 1#32 1).length ≤ 1 →
          ∀ p ∈ [(⟨0, 0, 2, 0⟩ : RxThreadParams)], Reached (fun _ => true) [⟨0, 0, 2, 0⟩] p →
            enabledPorts 1#32 1 ≠ [] ∧
              ∃ q ∈ [(⟨0, 0, 2, 0⟩ : RxThreadParams)], p.queueId.toNat ≤ q.threadId.toNat)) :=
  ⟨_, rfl, poolsThere_iff (fun _ => true) (fun _ => true) (fun _ => 0) [⟨0, 0, 2, 0⟩] [⟨4, 0⟩] _ rfl
    1#32 1⟩

/-- One rx thread with two queues: the pool of the second one is never created. -/
theorem not_poolsThere_two_queues :
    ∃ cfg, acceptParams (fun _ => true) (fun _ => true) (fun _ => 0)
        [⟨0, 0, 2, 0⟩, ⟨0, 1, 2, 0⟩] [⟨4, 0⟩] = some cfg ∧
      calls (mainSetUp (allowing fun _ => true) [⟨0, 0, 2, 0⟩, ⟨0, 1, 2, 0⟩] cfg 1#32 1) =
        [.configure 0 2, .poolCreate 0, .initMem1Return, .lcoreIsEnabled 2, .rxQueueSetup 0 0,
          .rxQueueSetup 0 1] ∧
      ¬ ∀ env, PoolNames (fun _ => true) env →
        PoolsThere (calls (mainSetUp env [⟨0, 0, 2, 0⟩, ⟨0, 1, 2, 0⟩] cfg 1#32 1)) := by
  have hcalls : ∃ cfg, acceptParams (fun _ => true) (fun _ => true) (fun _ => 0)
        [⟨0, 0, 2, 0⟩, ⟨0, 1, 2, 0⟩] [⟨4, 0⟩] = some cfg ∧
      calls (mainSetUp (allowing fun _ => true) [⟨0, 0, 2, 0⟩, ⟨0, 1, 2, 0⟩] cfg 1#32 1) =
        [.configure 0 2, .poolCreate 0, .initMem1Return, .lcoreIsEnabled 2, .rxQueueSetup 0 0,
          .rxQueueSetup 0 1] := ⟨_, rfl, by decide⟩
  obtain ⟨cfg, hcfg, hcalls⟩ := hcalls
  refine ⟨cfg, hcfg, hcalls, fun hall => ?_⟩
  have hthere := hall _ poolNames_allowing
  rw [hcalls] at hthere
  have hpool := (hthere [.configure 0 2, .poolCreate 0, .initMem1Return, .lcoreIsEnabled 2,
    .rxQueueSetup 0 0] (.rxQueueSetup 0 1) [] rfl).2
  exact absurd hpool (by decide)

/-! ## Are all queues set up? -/

def setUpOn (port : Nat) (cs : List Call) : List Nat :=
  cs.filterMap fun c =>
    match c with
    | .rxQueueSetup portid queue => if portid = port then some queue else none
    | _ => none

def queueIds (rx : List RxThreadParams) (port : Nat) : List Nat :=
  rx.filterMap fun p => if p.portId.toNat = port then some p.queueId.toNat else none

/-- A port is configured with `n` queues, and these are set up, each of them once. -/
def SetUpAll (cs : List Call) (port n : Nat) : Prop :=
  .configure port n ∈ cs ∧ (setUpOn port cs).Perm (List.range n)

theorem le_foldl_queue (rx : List RxThreadParams) (port : Nat) (i queue : Int) :
    i ≤ rx.foldl (fun queue p =>
        if p.portId.toNat = port ∧ queue < p.queueId.toNat then (p.queueId.toNat : Int) else queue)
        queue ↔
      i ≤ queue ∨ ∃ j ∈ queueIds rx port, i ≤ j := by
  induction rx generalizing queue with
  | nil => simp [queueIds]
  | cons p ps ih =>
      have hcons : queueIds (p :: ps) port =
          if p.portId.toNat = port then p.queueId.toNat :: queueIds ps port
          else queueIds ps port := by
        by_cases hp : p.portId.toNat = port
        · simp [queueIds, hp]
        · simp [queueIds, hp]
      rw [List.foldl_cons, ih, hcons]
      grind

/-- `get_port_n_rx_queues` is one more than the highest queue id of the port. -/
theorem lt_getPortNRxQueues (hqueue : ∀ p ∈ rx, p.queueId.toNat < maxRxQueuePerPort) (port i : Nat) :
    i < getPortNRxQueues rx port ↔ ∃ j ∈ queueIds rx port, i ≤ j := by
  have hle := fun i => le_foldl_queue rx port i (-1)
  unfold getPortNRxQueues
  dsimp only
  generalize rx.foldl (fun queue p => if p.portId.toNat = port ∧ queue < p.queueId.toNat then
    (p.queueId.toNat : Int) else queue) (-1) = queue at *
  -- the queue ids fit into a byte, and so does their number
  have hlow : -1 ≤ queue := (hle (-1)).mpr (Or.inl le_rfl)
  have hhigh : ¬ (maxRxQueuePerPort : Int) ≤ queue := by
    rw [hle]
    rintro (hneg | ⟨j, hj, hge⟩)
    · exact absurd hneg (by decide)
    · simp only [queueIds, List.mem_filterMap, Option.ite_none_right_eq_some, Option.some.injEq] at hj
      obtain ⟨p, hp, -, rfl⟩ := hj
      exact absurd (hqueue p hp) (by omega)
  have hmod : (queue + 1) % 256 = queue + 1 := by
    unfold maxRxQueuePerPort at hhigh
    omega
  have hi := hle i
  rw [hmod]
  simp only [Int.ofNat_le] at hi
  rw [or_iff_right (by omega)] at hi
  rw [← hi]
  omega

theorem perm_range_iff {l : List Nat} {n : Nat} (hn : ∀ i, i < n ↔ ∃ j ∈ l, i ≤ j) :
    l.Perm (List.range n) ↔ l.Nodup ∧ ∀ i ∈ l, ∀ j < i, j ∈ l := by
  constructor
  · intro hperm
    refine ⟨hperm.nodup_iff.mpr List.nodup_range, fun i hi j hj => ?_⟩
    rw [hperm.mem_iff, List.mem_range, hn]
    exact ⟨i, hi, hj.le⟩
  · rintro ⟨hnodup, hclosed⟩
    rw [List.perm_ext_iff_of_nodup hnodup List.nodup_range]
    intro i
    rw [List.mem_range, hn]
    constructor
    · exact fun hi => ⟨i, hi, le_rfl⟩
    · rintro ⟨j, hj, hle⟩
      rcases Nat.lt_or_eq_of_le hle with hlt | rfl
      · exact hclosed j hj i hlt
      · exact hj

/-- Sorting the tuples by their rx threads loses none. -/
theorem perm_tuplesOf {n : Nat} (h : ∀ p ∈ rx, p.threadId.toNat < n) :
    ((List.range n).flatMap (tuplesOf rx)).Perm rx := by
  have hbelow : ∀ n, ((List.range n).flatMap (tuplesOf rx)).Perm
      (rx.filter (·.threadId.toNat < n)) := by
    intro n
    induction n with
    | zero => simp
    | succ n ih =>
        have hsplit := List.filter_append_perm (·.threadId.toNat < n)
          (rx.filter (·.threadId.toNat < n + 1))
        have hlt : (rx.filter (·.threadId.toNat < n + 1)).filter (·.threadId.toNat < n) =
            rx.filter (·.threadId.toNat < n) := by
          rw [List.filter_filter]
          exact List.filter_congr fun p _ => by grind
        have heq : (rx.filter (·.threadId.toNat < n + 1)).filter
            (fun p => !decide (p.threadId.toNat < n)) = tuplesOf rx n := by
          rw [List.filter_filter]
          exact List.filter_congr fun p _ => by grind
        rw [hlt, heq] at hsplit
        rw [List.range_succ, List.flatMap_append, List.flatMap_singleton]
        exact (ih.append_right _).trans hsplit
  have hall := hbelow n
  rwa [List.filter_eq_self.mpr fun p hp => decide_eq_true (h p hp)] at hall

theorem setUpOn_mainCalls (hthreads : RxThreadsOf rx cfg) (ports : List Nat) (port : Nat) :
    (setUpOn port (mainCalls rx cfg ports)).Perm (queueIds rx port) := by
  have hports : setUpOn port (ports.flatMap (portCalls rx cfg)) = [] := by
    apply List.filterMap_eq_nil_iff.mpr
    intro c hc
    obtain ⟨portid, -, hc⟩ := List.mem_flatMap.mp hc
    cases c with
    | rxQueueSetup port queue => exact absurd hc rxQueueSetup_not_mem_portCalls
    | _ => rfl
  have hthread : ∀ r, setUpOn port (threadCalls cfg r) = queueIds (tuplesOf rx r) port := by
    intro r
    unfold setUpOn threadCalls queueIds
    rw [List.filterMap_cons_none rfl, hthreads.queues, List.map_map, List.filterMap_map]
    rfl
  have hall : setUpOn port (mainCalls rx cfg ports) =
      queueIds ((List.range cfg.nRxThread).flatMap (tuplesOf rx)) port := by
    have happend : ∀ cs ds, setUpOn port (cs ++ ds) = setUpOn port cs ++ setUpOn port ds :=
      fun cs ds => List.filterMap_append
    rw [mainCalls, happend, hports, List.nil_append, setUpOn, List.filterMap_flatMap, queueIds,
      List.filterMap_flatMap]
    exact congrArg (fun f => (List.range cfg.nRxThread).flatMap f) (funext hthread)
  rw [hall]
  exact (perm_tuplesOf fun p hp => hthreads.lt_count hp).filterMap _

/-- **When all queues of the enabled ports are set up**: when the queue ids that are listed for each of
them are distinct and have no gaps. -/
theorem setUpAll_iff (rteLcoreIsEnabled : Nat → Bool) (rx : List RxThreadParams) (cfg : Config)
    (hcheck : checkLcoreParams rteLcoreIsEnabled rx = .ok ())
    (hinit : initRxQueues rx Config.zero = some cfg) (enabledPortMask : BitVec 32) (nbPorts : Nat)
    (env : Env Call) (hdone : Completes (mainSetUp env rx cfg enabledPortMask nbPorts)) :
    (∀ port ∈ enabledPorts enabledPortMask nbPorts,
        SetUpAll (calls (mainSetUp env rx cfg enabledPortMask nbPorts)) port
          (getPortNRxQueues rx port)) ↔
      ∀ port ∈ enabledPorts enabledPortMask nbPorts,
        (queueIds rx port).Nodup ∧ ∀ i ∈ queueIds rx port, ∀ j < i, j ∈ queueIds rx port := by
  have hthreads := rxThreadsOf_initRxQueues hinit
  have hqueue : ∀ p ∈ rx, p.queueId.toNat < maxRxQueuePerPort :=
    fun p hp => (checkLcoreParams_ok_iff.mp hcheck p hp).1
  rw [mainSetUp_eq, completes_forM] at hdone
  rw [mainSetUp_eq, calls_forM, made_of_succeed hdone]
  apply forall₂_congr
  intro port hport
  have hconfigured : .configure port (getPortNRxQueues rx port) ∈
      mainCalls rx cfg (enabledPorts enabledPortMask nbPorts) :=
    List.mem_append_left _ (List.mem_flatMap.mpr ⟨port, hport, List.mem_cons_self⟩)
  rw [SetUpAll, and_iff_right hconfigured, (setUpOn_mainCalls hthreads _ port).congr_left,
    perm_range_iff (lt_getPortNRxQueues hqueue port)]

/-- Two queues of one port, for two rx threads. -/
theorem setUpAll_iff_two_queues :
    ∃ cfg, checkLcoreParams (fun _ => true) [⟨0, 1, 2, 0⟩, ⟨0, 0, 3, 1⟩] = .ok () ∧
      initRxQueues [⟨0, 1, 2, 0⟩, ⟨0, 0, 3, 1⟩] Config.zero = some cfg ∧
      Completes (mainSetUp (allowing fun _ => true) [⟨0, 1, 2, 0⟩, ⟨0, 0, 3, 1⟩] cfg 1#32 1) ∧
      ((∀ port ∈ enabledPorts 1#32 1,
          SetUpAll (calls (mainSetUp (allowing fun _ => true) [⟨0, 1, 2, 0⟩, ⟨0, 0, 3, 1⟩] cfg 1#32 1))
            port (getPortNRxQueues [⟨0, 1, 2, 0⟩, ⟨0, 0, 3, 1⟩] port)) ↔
        ∀ port ∈ enabledPorts 1#32 1,
          (queueIds [⟨0, 1, 2, 0⟩, ⟨0, 0, 3, 1⟩] port).Nodup ∧
            ∀ i ∈ queueIds [⟨0, 1, 2, 0⟩, ⟨0, 0, 3, 1⟩] port, ∀ j < i,
              j ∈ queueIds [⟨0, 1, 2, 0⟩, ⟨0, 0, 3, 1⟩] port) := by
  have hdone : ∃ cfg, initRxQueues [⟨0, 1, 2, 0⟩, ⟨0, 0, 3, 1⟩] Config.zero = some cfg ∧
      Completes (mainSetUp (allowing fun _ => true) [⟨0, 1, 2, 0⟩, ⟨0, 0, 3, 1⟩] cfg 1#32 1) :=
    ⟨_, rfl, rfl⟩
  obtain ⟨cfg, hinit, hdone⟩ := hdone
  exact ⟨cfg, rfl, hinit, hdone,
    setUpAll_iff (fun _ => true) [⟨0, 1, 2, 0⟩, ⟨0, 0, 3, 1⟩] cfg rfl hinit 1#32 1 _ hdone⟩

/-- The only tuple names queue `1`: the port is configured with two queues, and queue `0` is not set
up. -/
theorem not_setUpAll_queue_one :
    ∃ cfg, checkLcoreParams (fun _ => true) [⟨0, 1, 2, 0⟩] = .ok () ∧
      initRxQueues [⟨0, 1, 2, 0⟩] Config.zero = some cfg ∧
      Completes (mainSetUp (allowing fun _ => true) [⟨0, 1, 2, 0⟩] cfg 1#32 1) ∧
      getPortNRxQueues [⟨0, 1, 2, 0⟩] 0 = 2 ∧
      setUpOn 0 (calls (mainSetUp (allowing fun _ => true) [⟨0, 1, 2, 0⟩] cfg 1#32 1)) = [1] ∧
      ¬ SetUpAll (calls (mainSetUp (allowing fun _ => true) [⟨0, 1, 2, 0⟩] cfg 1#32 1)) 0
        (getPortNRxQueues [⟨0, 1, 2, 0⟩] 0) := by
  have hcalls : ∃ cfg, initRxQueues [⟨0, 1, 2, 0⟩] Config.zero = some cfg ∧
      Completes (mainSetUp (allowing fun _ => true) [⟨0, 1, 2, 0⟩] cfg 1#32 1) ∧
      setUpOn 0 (calls (mainSetUp (allowing fun _ => true) [⟨0, 1, 2, 0⟩] cfg 1#32 1)) = [1] :=
    ⟨_, rfl, rfl, rfl⟩
  obtain ⟨cfg, hinit, hdone, hset⟩ := hcalls
  refine ⟨cfg, rfl, hinit, hdone, by decide, hset, fun hall => ?_⟩
  have hperm := hall.2
  rw [hset] at hperm
  exact absurd hperm.length_eq (by decide)

end Lthread
end FloWatcher
