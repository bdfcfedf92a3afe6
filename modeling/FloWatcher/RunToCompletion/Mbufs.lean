import FloWatcher.RunToCompletion.Loop

/-!
# Who frees the mbufs?

`rte_eth_rx_burst` hands a burst of mbufs over to the loop, which has to give each of them back
exactly once and must not look at it afterwards. The three loops place their `rte_pktmbuf_free`
differently: `double_hash` (`FLOW_LEVEL` on) frees in the packet loop and again at the end of the
burst, `linked_list` at the end only, `hash_list` in the packet loop only, before it reads the
timestamp. A pass is modelled here together with the trace of its accesses to the mbufs.
-/

namespace FloWatcher
namespace RunToCompletion

open Loop

variable {n : Nat} {E S : Type}

/-! ## Passes with their accesses -/

/-- An access to `bufs[buf]`: a read of its field `hash.rss` or `timestamp`, or a free. -/
inductive Access
  | rss (buf : Nat)
  | timestamp (buf : Nat)
  | free (buf : Nat)
  deriving DecidableEq, Repr

def Access.reads : Access → Option Nat
  | .rss buf | .timestamp buf => some buf
  | .free _ => none

/-- What a loop does with a burst. -/
structure Pass (E : Type) where
  order : Refresh
  /-- the accesses to `bufs[buf]` in the packet loop, before the table is updated; the flag is
  `TIMESTAMP` -/
  accesses : Bool → Nat → List Access
  packet : BitVec 64 → Tag → E → E
  /-- does the packet end with `hit == 0`, so that a node is allocated online? -/
  online : Tag → E → Bool
  /-- is there a `for (buf = 0; buf < nb_rx; buf++) rte_pktmbuf_free(bufs[buf]);` at the end? -/
  freeLoop : Bool

def noHit (t : Tag) (es : List (FlowEntry 32 S)) : Bool :=
  es.all fun f => f.rssHigh ≠ 0 ∧ f.rssHigh ≠ t

/-- `double_hash`, with `FLOW_LEVEL` on. -/
def doubleHashPass (ipg : SlotIpg 32 S) : Pass (DoubleHash.PktCount 32 S) where
  order := .before
  accesses timestamp buf :=
    [.rss buf, .rss buf] ++ (if timestamp then [.timestamp buf] else []) ++ [.free buf]
  packet := DoubleHash.packet ipg
  online _ _ := false
  freeLoop := true

def linkedListPass (ipg : LinkedListIpg 32 S) : Pass (List (FlowEntry 32 S)) where
  order := .after
  accesses timestamp buf := [.rss buf] ++ (if timestamp then [.timestamp buf] else [])
  packet := linkedListPacket ipg
  online := noHit
  freeLoop := true

/-- `hash_list`. Its loop at the end is commented out. -/
def hashListPass (ipg : HashList.Ipg 32 S) : Pass (HashList.PktCount 32 S) where
  order := .before
  accesses timestamp buf :=
    [.rss buf, .rss buf, .free buf] ++ (if timestamp then [.timestamp buf] else [])
  packet := HashList.packet ipg
  online t e := (e.toSlots.update ipg.slot 0 t).isNone && noHit t e.flows
  freeLoop := false

/-- The packet loop from `bufs[buf]` on: its accesses, and the table unless the program exits. The
`rte_calloc` for `bufs[buf]`, if there is one, succeeds when `calloc buf`. -/
def packetLoop (L : Pass E) (timestamp : Bool) (calloc : Nat → Bool) (global : BitVec 64) :
    Nat → List Hash → (Bucket → E) → List Access × Option (Bucket → E)
  | _, [], T => ([], some T)
  | buf, h :: hs, T =>
      if L.online (indexH h) (T (indexL h)) ∧ ¬ calloc buf then
        (L.accesses timestamp buf, none) -- `rte_exit`
      else
        let rest := packetLoop L timestamp calloc global (buf + 1) hs
          (Function.update T (indexL h) (L.packet global (indexH h) (T (indexL h))))
        (L.accesses timestamp buf ++ rest.1, rest.2)

/-- One pass of a loop, from `rte_eth_rx_burst` to the next poll. -/
def pass (L : Pass E) (timestamp : Bool) (calloc : Nat → Bool) (s : State n E)
    (b : Fin n × List Hash) : List Access × Option (State n E) :=
  if b.2 = [] then
    ([], some s)
  else
    let r := packetLoop L timestamp calloc (L.order.global s.re b.1 b.2.length) 0 b.2 s.table
    match r.2 with
    | none => (r.1, none)
    | some T =>
        (r.1 ++ if L.freeLoop then (List.range b.2.length).map .free else [],
          some { re := count s.re b.1 b.2.length, table := T })

/-! ## The table -/

theorem packetLoop_table (L : Pass E) (timestamp : Bool) (calloc : Nat → Bool) (global : BitVec 64)
    (buf : Nat) (hs : List Hash) (T T' : Bucket → E)
    (h : (packetLoop L timestamp calloc global buf hs T).2 = some T') :
    T' = Buckets.run indexL (fun h => L.packet global (indexH h)) hs T := by
  induction hs generalizing buf T with
  | nil =>
      cases h
      rfl
  | cons x hs ih =>
      rw [packetLoop] at h
      split at h
      · cases h
      · exact ih _ _ h

/-- A pass that comes back to the poll is a pass of the counting loop. -/
theorem pass_table (L : Pass E) (timestamp : Bool) (calloc : Nat → Bool) (s s' : State n E)
    (b : Fin n × List Hash) (h : (pass L timestamp calloc s b).2 = some s') :
    s' = Loop.burst L.order L.packet s b := by
  unfold pass at h
  unfold Loop.burst
  split at h
  · next hb =>
      cases h
      rw [if_pos hb]
  · next hb =>
      rw [if_neg hb]
      dsimp only at h
      split at h
      · cases h
      · next T hT =>
          cases h
          rw [packetLoop_table L _ _ _ _ _ _ _ hT]

/-- When every allocation succeeds, a pass comes back. -/
theorem pass_isSome (L : Pass E) (timestamp : Bool) {calloc : Nat → Bool}
    (hcalloc : ∀ t e buf, L.online t e → calloc buf) (s : State n E) (b : Fin n × List Hash) :
    (pass L timestamp calloc s b).2.isSome := by
  have hloop : ∀ global buf hs (T : Bucket → E),
      (packetLoop L timestamp calloc global buf hs T).2.isSome := by
    intro global buf hs
    induction hs generalizing buf with
    | nil => intro T; rfl
    | cons x hs ih =>
        intro T
        rw [packetLoop, if_neg fun h => h.2 (hcalloc _ _ _ h.1)]
        exact ih _ _
  unfold pass
  split
  · rfl
  · obtain ⟨T, hT⟩ := Option.isSome_iff_exists.mp
      (hloop (L.order.global s.re b.1 b.2.length) 0 b.2 s.table)
    dsimp only
    rw [hT]
    rfl

/-- A packet that no node takes is recorded behind the last one. -/
theorem length_record_map {κ : Type} (g : FlowEntry 32 S → Tag × κ)
    (hg : ∀ f, (g f).1 = f.rssHigh) (t : Tag) (f : Nat → Tag × κ → κ) (new : κ)
    (es : List (FlowEntry 32 S)) :
    (FirstFit.record t f new (es.map g)).length = es.length + if noHit t es then 1 else 0 := by
  induction es generalizing f with
  | nil => rfl
  | cons e next ih =>
      have htakes : FirstFit.Takes t (g e) ↔ e.rssHigh = 0 ∨ e.rssHigh = t := by
        rw [FirstFit.Takes, hg]
      have hcons : noHit t (e :: next) = true ↔ ¬ FirstFit.Takes t (g e) ∧ noHit t next = true := by
        rw [htakes, noHit, noHit, List.all_cons, Bool.and_eq_true, decide_eq_true_iff, not_or]
      rw [List.map_cons, FirstFit.record_cons]
      by_cases h : FirstFit.Takes t (g e)
      · rw [if_pos h, if_neg fun hno => (hcons.mp hno).1 h, List.length_cons, List.length_cons,
          List.length_map, add_zero]
      · rw [if_neg h, List.length_cons, ih, List.length_cons, add_right_comm]
        simp only [hcons, h, not_false_eq_true, true_and]

/-- `linked_list` allocates a node exactly when the chain gets longer. -/
theorem length_linkedListPacket (ipg : LinkedListIpg 32 S) (global : BitVec 64) (t : Tag)
    (es : List (FlowEntry 32 S)) :
    (linkedListPacket ipg global t es).length =
      es.length + if (linkedListPass ipg).online t es then 1 else 0 := by
  have hlen := congrArg List.length (linkedListPacket_map_count ipg global t es)
  rw [List.length_map, FirstFit.bump, length_record_map _ fun _ => rfl] at hlen
  exact hlen

/-- So does `hash_list`. -/
theorem length_flows_packet (ipg : HashList.Ipg 32 S) (global : BitVec 64) (t : Tag)
    (e : HashList.PktCount 32 S) :
    (HashList.packet ipg global t e).flows.length =
      e.flows.length + if (hashListPass ipg).online t e then 1 else 0 := by
  have hwalk := congrArg List.length (HashList.walk_map_keyed ipg global t e.flows)
  rw [List.length_map, length_record_map _ fun _ => rfl] at hwalk
  have hnone : (e.toSlots.update ipg.slot 0 t).isNone =
      (e.toSlots.update ipg.slot global t).isNone := by
    unfold Slots.update
    split_ifs <;> rfl
  show _ = _ + if (_ && _) = true then 1 else 0
  rw [hnone, HashList.packet]
  cases e.toSlots.update ipg.slot global t with
  | none => exact hwalk
  | some s => rfl

/-! ## The accesses -/

/-- What a pass over a burst of `n` mbufs has to do: no field of an mbuf is read after it was freed,
and each mbuf is freed exactly once before the next poll. -/
structure Released (n : Nat) (accesses : List Access) (polls : Bool) : Prop where
  reads : accesses.Pairwise fun a b => ∀ buf, a = .free buf → b.reads ≠ some buf
  frees : polls → ∀ buf < n, accesses.count (.free buf) = 1

/-- The packet loop gets through the burst or exits at some packet. -/
theorem packetLoop_accesses (L : Pass E) (timestamp : Bool) (calloc : Nat → Bool)
    (global : BitVec 64) (buf : Nat) (hs : List Hash) (T : Bucket → E) :
    ∃ k ≤ hs.length, (packetLoop L timestamp calloc global buf hs T).1 =
        (List.range' buf k).flatMap (L.accesses timestamp) ∧ (hs ≠ [] → 0 < k) ∧
      ((packetLoop L timestamp calloc global buf hs T).2.isSome → k = hs.length) := by
  induction hs generalizing buf T with
  | nil => exact ⟨0, le_rfl, rfl, fun h => absurd rfl h, fun _ => rfl⟩
  | cons h hs ih =>
      rw [packetLoop]
      split
      · exact ⟨1, by simp, by simp, fun _ => one_pos, fun h => by cases h⟩
      · obtain ⟨k, hk, htrace, -, hdone⟩ := ih (buf + 1)
          (Function.update T (indexL h) (L.packet global (indexH h) (T (indexL h))))
        refine ⟨k + 1, ?_, ?_, fun _ => Nat.succ_pos k, ?_⟩
        · rw [List.length_cons]
          omega
        · rw [List.range'_succ, List.flatMap_cons, ← htrace]
        · intro hsome
          rw [hdone hsome, List.length_cons]

/-- The accesses of a pass: it comes back to the poll, or it exits at some packet. -/
theorem pass_accesses (L : Pass E) (timestamp : Bool) (calloc : Nat → Bool) (s : State n E)
    (b : Fin n × List Hash) :
    ((pass L timestamp calloc s b).2.isSome = true ∧ (pass L timestamp calloc s b).1 =
        (List.range b.2.length).flatMap (L.accesses timestamp) ++
          if L.freeLoop then (List.range b.2.length).map .free else []) ∨
      (pass L timestamp calloc s b).2.isSome = false ∧ ∃ k ≤ b.2.length, 0 < k ∧
        (pass L timestamp calloc s b).1 = (List.range k).flatMap (L.accesses timestamp) := by
  unfold pass
  split
  · next hb => simp [hb]
  · next hb =>
      obtain ⟨k, hk, htrace, hpos, hdone⟩ := packetLoop_accesses L timestamp calloc
        (L.order.global s.re b.1 b.2.length) 0 b.2 s.table
      rw [← List.range_eq_range'] at htrace
      dsimp only
      split
      · exact Or.inr ⟨rfl, k, hk, hpos hb, htrace⟩
      · next T hT =>
          rw [hdone (by rw [hT]; rfl)] at htrace
          rw [htrace]
          exact Or.inl ⟨rfl, rfl⟩

/-- Accesses that come packet by packet and do not read after a free, for each packet alone. -/
theorem pairwise_flatMap_accesses {accesses : Nat → List Access}
    (hbuf : ∀ buf, ∀ a ∈ accesses buf, a = .rss buf ∨ a = .timestamp buf ∨ a = .free buf)
    (hpair : ∀ buf, (accesses buf).Pairwise fun a b => ∀ i, a = .free i → b.reads ≠ some i)
    (k : Nat) :
    ((List.range k).flatMap accesses).Pairwise
      fun a b => ∀ i, a = .free i → b.reads ≠ some i := by
  rw [List.pairwise_flatMap]
  refine ⟨fun buf _ => hpair buf, List.nodup_range.imp ?_⟩
  intro buf buf' hne a ha b hb i hi
  subst hi
  have hi : i = buf := by
    rcases hbuf buf _ ha with h | h | h <;> cases h
    rfl
  rw [hi]
  rcases hbuf buf' b hb with rfl | rfl | rfl
  · exact fun h => hne (Option.some.inj h).symm
  · exact fun h => hne (Option.some.inj h).symm
  · exact nofun

/-- How often an mbuf is freed. -/
theorem count_free_flatMap {accesses : Nat → List Access} {c : Nat}
    (hcount : ∀ buf i, (accesses buf).count (.free i) = if buf = i then c else 0) {k i : Nat}
    (hi : i < k) : ((List.range k).flatMap accesses).count (.free i) = c := by
  have hsum : ((List.range k).map fun buf => if buf = i then c else 0).sum = c := by
    rw [← List.sum_toFinset _ List.nodup_range, Finset.sum_ite_eq', if_pos (by simpa using hi)]
  rw [List.count_flatMap, ← hsum]
  congr 1
  apply List.map_congr_left
  intro buf _
  exact hcount buf i

theorem count_free_map {k i : Nat} (hi : i < k) :
    ((List.range k).map Access.free).count (.free i) = 1 := by
  rw [List.count_map_of_injective _ _ (fun _ _ h => Access.free.inj h), List.count_eq_one_of_mem
    List.nodup_range (List.mem_range.mpr hi)]

/-! ## The three loops -/

/-- `double_hash` frees the mbufs of every burst twice. -/
theorem doubleHash_released_iff (ipg : SlotIpg 32 S) (timestamp : Bool) (calloc : Nat → Bool)
    (s : State n (DoubleHash.PktCount 32 S)) (b : Fin n × List Hash) :
    let r := pass (doubleHashPass ipg) timestamp calloc s b
    Released b.2.length r.1 r.2.isSome ↔ b.2 = [] := by
  intro r
  have hsome : r.2.isSome = true := by
    apply pass_isSome
    intro t e buf h
    cases h
  constructor
  · rintro ⟨-, hfrees⟩
    by_contra hb
    have hpos := List.length_pos_iff.mpr hb
    have htwice : r.1.count (.free 0) = 2 := by
      rcases pass_accesses (doubleHashPass ipg) timestamp calloc s b with ⟨-, htrace⟩ | ⟨hnone, -⟩
      · have hpacket : ∀ buf i, ((doubleHashPass ipg).accesses timestamp buf).count (.free i) =
            if buf = i then 1 else 0 := by
          intro buf i
          cases timestamp <;> simp [doubleHashPass, List.count_cons]
        have hloop : (doubleHashPass ipg).freeLoop = true := rfl
        rw [htrace, if_pos hloop, List.count_append, count_free_flatMap hpacket hpos,
          count_free_map hpos]
      · exact absurd (hsome.symm.trans hnone) (by decide)
    have honce := hfrees hsome 0 hpos
    omega
  · intro hb
    have hr : r.1 = [] := congrArg Prod.fst (if_pos hb)
    rw [hr, hb]
    exact ⟨List.Pairwise.nil, fun _ buf hbuf => absurd hbuf (Nat.not_lt_zero buf)⟩

/-- `linked_list` frees each mbuf once, after its last use. -/
theorem linkedList_released (ipg : LinkedListIpg 32 S) (timestamp : Bool) (calloc : Nat → Bool)
    (s : State n (List (FlowEntry 32 S))) (b : Fin n × List Hash) :
    let r := pass (linkedListPass ipg) timestamp calloc s b
    Released b.2.length r.1 r.2.isSome := by
  intro r
  -- the accesses of the packets read only: every free is in the loop after them
  have hread : ∀ buf, ∀ a ∈ (linkedListPass ipg).accesses timestamp buf,
      a = .rss buf ∨ a = .timestamp buf := by
    intro buf a ha
    cases timestamp with
    | false => exact Or.inl (List.mem_singleton.mp ha)
    | true => simpa [linkedListPass] using ha
  have hnofree : ∀ k, ∀ a ∈ (List.range k).flatMap ((linkedListPass ipg).accesses timestamp),
      ∀ i, a ≠ .free i := by
    intro k a ha i hi
    obtain ⟨buf, -, ha⟩ := List.mem_flatMap.mp ha
    rcases hread buf a ha with rfl | rfl <;> cases hi
  have hpair : ∀ k, ((List.range k).flatMap
      ((linkedListPass ipg).accesses timestamp)).Pairwise
        fun a b => ∀ i, a = .free i → b.reads ≠ some i := by
    intro k
    apply List.Pairwise.imp_of_mem _ (List.pairwise_of_forall (R := fun _ _ => True) fun _ _ => trivial)
    intro a b ha _ _ i hi
    exact absurd hi (hnofree k a ha i)
  rcases pass_accesses (linkedListPass ipg) timestamp calloc s b with
    ⟨-, htrace⟩ | ⟨hnone, k, -, -, htrace⟩
  · have hloop : (linkedListPass ipg).freeLoop = true := rfl
    rw [show r.1 = _ from htrace, if_pos hloop]
    constructor
    · rw [List.pairwise_append]
      refine ⟨hpair _, ?_, ?_⟩
      · rw [List.pairwise_map]
        exact List.pairwise_of_forall fun _ _ _ _ => nofun
      · intro a ha _ _ i hi
        exact absurd hi (hnofree _ a ha i)
    · intro _ buf hbuf
      have hzero : ((List.range b.2.length).flatMap
          ((linkedListPass ipg).accesses timestamp)).count (.free buf) = 0 :=
        List.count_eq_zero.mpr fun hmem => hnofree _ _ hmem buf rfl
      rw [List.count_append, hzero, count_free_map hbuf]
  · rw [show r.1 = _ from htrace, show r.2.isSome = false from hnone]
    exact ⟨hpair k, nofun⟩

/-- `hash_list` frees each mbuf once, but then reads its timestamp. -/
theorem hashList_released_iff (ipg : HashList.Ipg 32 S) (timestamp : Bool) (calloc : Nat → Bool)
    (s : State n (HashList.PktCount 32 S)) (b : Fin n × List Hash) :
    let r := pass (hashListPass ipg) timestamp calloc s b
    Released b.2.length r.1 r.2.isSome ↔ b.2 = [] ∨ timestamp = false := by
  intro r
  have htrace : ∃ k ≤ b.2.length, (r.2.isSome → k = b.2.length) ∧ (b.2 ≠ [] → 0 < k) ∧
      r.1 = (List.range k).flatMap ((hashListPass ipg).accesses timestamp) := by
    rcases pass_accesses (hashListPass ipg) timestamp calloc s b with
      ⟨-, htrace⟩ | ⟨hnone, k, hk, hpos, htrace⟩
    · refine ⟨_, le_rfl, fun _ => rfl, List.length_pos_iff.mpr, ?_⟩
      have hloop : (hashListPass ipg).freeLoop ≠ true := Bool.false_ne_true
      rw [if_neg hloop, List.append_nil] at htrace
      exact htrace
    · exact ⟨k, hk, fun h => absurd (h.symm.trans hnone) (by decide), fun _ => hpos, htrace⟩
  obtain ⟨k, -, hdone, hpos, htrace⟩ := htrace
  rw [htrace]
  constructor
  · rintro ⟨hreads, -⟩
    by_contra hnot
    obtain ⟨hb, hts⟩ := not_or.mp hnot
    rw [Bool.not_eq_false] at hts
    subst hts
    -- the first packet: its timestamp is read after the free
    obtain ⟨m, hm⟩ := Nat.exists_eq_add_of_lt (hpos hb)
    rw [hm, zero_add, List.range_succ_eq_map, List.flatMap_cons, List.pairwise_append] at hreads
    exact absurd hreads.1 (by simp [hashListPass, Access.reads])
  · rintro (hb | rfl)
    · have hk : k = 0 := by
        rw [hdone (by rw [show r = ([], some s) from if_pos hb]; rfl), hb]
        rfl
      rw [hk, hb]
      exact ⟨List.Pairwise.nil, fun _ buf hbuf => absurd hbuf (Nat.not_lt_zero buf)⟩
    · constructor
      · apply pairwise_flatMap_accesses
        · intro buf a ha
          simp only [hashListPass, Bool.false_eq_true, if_false, List.append_nil, List.mem_cons,
            List.not_mem_nil, or_false] at ha
          grind
        · intro buf
          simp [hashListPass, Access.reads]
      · intro hsome buf hbuf
        rw [hdone hsome]
        apply count_free_flatMap _ hbuf
        intro buf i
        simp [hashListPass, List.count_cons]

/-- **Which loop releases its mbufs.** -/
theorem released_iff (timestamp : Bool) (calloc : Nat → Bool) (b : Fin n × List Hash)
    (slotIpg : SlotIpg 32 S) (listIpg : LinkedListIpg 32 S) (hashIpg : HashList.Ipg 32 S)
    (s₁ : State n (DoubleHash.PktCount 32 S)) (s₂ : State n (List (FlowEntry 32 S)))
    (s₃ : State n (HashList.PktCount 32 S)) :
    let r₁ := pass (doubleHashPass slotIpg) timestamp calloc s₁ b
    let r₂ := pass (linkedListPass listIpg) timestamp calloc s₂ b
    let r₃ := pass (hashListPass hashIpg) timestamp calloc s₃ b
    (Released b.2.length r₁.1 r₁.2.isSome ↔ b.2 = []) ∧
      Released b.2.length r₂.1 r₂.2.isSome ∧
      (Released b.2.length r₃.1 r₃.2.isSome ↔ b.2 = [] ∨ timestamp = false) :=
  ⟨doubleHash_released_iff slotIpg timestamp calloc s₁ b,
    linkedList_released listIpg timestamp calloc s₂ b,
    hashList_released_iff hashIpg timestamp calloc s₃ b⟩

/-- One packet in a fresh `double_hash` table. -/
theorem not_released_one_packet :
    let s : State 1 (DoubleHash.PktCount 32 Unit) :=
      { re := 0, table := fun _ => DoubleHash.PktCount.init (SlotIpg.off 32) }
    let r := pass (doubleHashPass (SlotIpg.off 32)) false (fun _ => true) s (0, [0x00010000#32])
    r.1 = [.rss 0, .rss 0, .free 0, .free 0] ∧ ¬ Released 1 r.1 r.2.isSome := by
  intro s r
  have hr : r.1 = [.rss 0, .rss 0, .free 0, .free 0] := rfl
  refine ⟨hr, fun h => ?_⟩
  have honce := h.frees rfl 0 one_pos
  rw [hr] at honce
  exact absurd honce (by decide)

end RunToCompletion
end FloWatcher
