import FloWatcher.RunToCompletion.Loop
import FloWatcher.TimerCb
import FloWatcher.Transition.Parties
import FloWatcher.Transition.Reaches

/-!
# The reports of the run-to-completion program

The main lcore runs `timer_cb` while the workers of the `RX_RINGS` queues poll, each with a counter
of its own. A worker has received a burst before it counts it, and a callback may come in between.
Whatever the interleaving, what is printed counts every packet that was received before the
callback began, but for those in the hands of a worker, and no packet that has not been counted when
it ends (`reports_received`).
-/

namespace FloWatcher
namespace RunToCompletion

open Loop Transition

variable {n : Nat} {E : Type} {order : Refresh} {packet : BitVec 64 → Tag → E → E}

/-! ## The workers -/

def burstSize : Nat := 256

/-- The workers, one for each queue. The statics are what the bursts in `passes` make of them. -/
structure Polling (n : Nat) where
  /-- what a worker has received and not counted yet -/
  bufs : Fin n → List Hash
  passes : List (Fin n × List Hash)
  /-- ghost: the bursts received -/
  arrived : List (Fin n × List Hash)

def Polling.init (n : Nat) : Polling n where
  bufs _ := []
  passes := []
  arrived := []

/-- What the worker of a queue does next. No one else writes to the counter of its queue. -/
inductive PollAction (n : Nat) where
  /-- `rte_eth_rx_burst(port, q, bufs, BURST_SIZE)` -/
  | rxBurst (q : Fin n) (hashes : List Hash)
  /-- the rest of the pass, where `re[q] += nb_rx` is all that changes a counter -/
  | pass (q : Fin n)

def poll (s : Polling n) : PollAction n → Option (Polling n)
  | .rxBurst q hashes =>
      if s.bufs q = [] ∧ hashes.length ≤ burstSize then
        some
          { s with
            bufs := Function.update s.bufs q hashes
            arrived := s.arrived ++ [(q, hashes)] }
      else none
  | .pass q =>
      if s.bufs q = [] then none -- `nb_rx == 0`: poll again
      else
        some
          { s with
            bufs := Function.update s.bufs q []
            passes := s.passes ++ [(q, s.bufs q)] }

def Polling.inHand (s : Polling n) : Nat := ∑ q, (s.bufs q).length

theorem poll_cases {s s' : Polling n} {a : PollAction n} (h : poll s a = some s') :
    (∃ q hashes, s.bufs q = [] ∧ hashes.length ≤ burstSize ∧ s' = { s with
      bufs := Function.update s.bufs q hashes
      arrived := s.arrived ++ [(q, hashes)] }) ∨
    (∃ q, s' = { s with
      bufs := Function.update s.bufs q []
      passes := s.passes ++ [(q, s.bufs q)] }) := by
  cases a with
  | rxBurst q hashes =>
      obtain ⟨⟨hnil, hlen⟩, hs'⟩ := Option.ite_none_right_eq_some.mp h
      exact .inl ⟨q, hashes, hnil, hlen, (Option.some.inj hs').symm⟩
  | pass q =>
      obtain ⟨-, hs'⟩ := Option.ite_none_left_eq_some.mp h
      exact .inr ⟨q, (Option.some.inj hs').symm⟩

/-! ## The counters -/

def statics (order : Refresh) (packet : BitVec 64 → Tag → E → E) (table : Bucket → E)
    (bursts : List (Fin n × List Hash)) : State n E :=
  bursts.foldl (burst order packet) { re := 0, table := table }

def readRe (order : Refresh) (packet : BitVec 64 → Tag → E → E) (table : Bucket → E)
    (s : Polling n) (i : Nat) : Option (BitVec 64) :=
  if hi : i < n then some ((statics order packet table s.passes).re ⟨i, hi⟩) else none

def receivedOn (bursts : List (Fin n × List Hash)) (i : Nat) : Nat :=
  (received (bursts.filter fun b => b.1.val = i)).length

theorem receivedOn_append (bursts bursts' : List (Fin n × List Hash)) (i : Nat) :
    receivedOn (bursts ++ bursts') i = receivedOn bursts i + receivedOn bursts' i := by
  simp only [receivedOn, received, List.filter_append, List.flatMap_append, List.length_append]

theorem receivedOn_cons (b : Fin n × List Hash) (bursts : List (Fin n × List Hash)) (i : Nat) :
    receivedOn (b :: bursts) i = (if b.1.val = i then b.2.length else 0) + receivedOn bursts i := by
  unfold receivedOn received
  by_cases hb : b.1.val = i
  · rw [List.filter_cons_of_pos (by simpa using hb), if_pos hb, List.flatMap_cons,
      List.length_append]
  · rw [List.filter_cons_of_neg (by simpa using hb), if_neg hb, Nat.zero_add]

/-- `re[q]` counts the packets of queue `q`. -/
theorem re_foldl_burst (bursts : List (Fin n × List Hash)) (s : State n E) (q : Fin n) :
    (bursts.foldl (burst order packet) s).re q =
      s.re q + BitVec.ofNat 64 (receivedOn bursts q) := by
  induction bursts generalizing s with
  | nil => exact (BitVec.add_zero _).symm
  | cons b bursts ih =>
      have hburst : (burst order packet s b).re = count s.re b.1 b.2.length := by
        unfold burst
        split
        · next h => rw [h, List.length_nil, count_zero]
        · rfl
      rw [List.foldl_cons, ih, hburst, receivedOn_cons, BitVec.ofNat_add, ← BitVec.add_assoc, count]
      rcases eq_or_ne q b.1 with rfl | hne
      · rw [Function.update_self, if_pos rfl]
      · rw [Function.update_of_ne hne, if_neg fun he => hne (Fin.ext he.symm), BitVec.add_zero]

/-- All queues together. -/
theorem sum_receivedOn (bursts : List (Fin n × List Hash)) :
    ∑ i ∈ Finset.range n, receivedOn bursts i = (received bursts).length := by
  induction bursts with
  | nil => exact Finset.sum_eq_zero fun _ _ => rfl
  | cons b bursts ih =>
      have hcons : received (b :: bursts) = b.2 ++ received bursts := List.flatMap_cons
      simp only [receivedOn_cons, Finset.sum_add_distrib, ih, hcons, List.length_append,
        Finset.sum_ite_eq, Finset.mem_range, b.1.isLt, if_true]

/-- The counters count what the passes have. -/
theorem counts_readRe (n : Nat) (table : Bucket → E) :
    TimerCb.Counts (poll : Polling n → _) (readRe order packet table)
      fun s => receivedOn s.passes where
  grows := by
    intro s a s' h i
    rcases poll_cases h with ⟨q, hashes, -, -, rfl⟩ | ⟨q, rfl⟩
    · exact Nat.le_refl _
    · exact (Nat.le_add_right _ _).trans_eq (receivedOn_append ..).symm
  read := by
    intro s i counter h
    unfold readRe at h
    split at h
    · cases h
      exact (re_foldl_burst s.passes _ _).trans (BitVec.zero_add _)
    · cases h

/-! ## The packets in between -/

/-- What is received is counted or in the hands of a worker. -/
structure Polled (s : Polling n) : Prop where
  arrived : (received s.arrived).length = (received s.passes).length + s.inHand
  bufs : ∀ q, (s.bufs q).length ≤ burstSize

theorem received_concat (bursts : List (Fin n × List Hash)) (b : Fin n × List Hash) :
    (received (bursts ++ [b])).length = (received bursts).length + b.2.length := by
  simp only [received, List.flatMap_append, List.length_append, List.flatMap_singleton]

/-- A worker has other packets in its hands. -/
theorem inHand_update (s : Polling n) (q : Fin n) (hashes : List Hash) :
    ∑ q', (Function.update s.bufs q hashes q').length + (s.bufs q).length =
      s.inHand + hashes.length :=
  sum_update Finset.univ List.length s.bufs (Finset.mem_univ q) hashes

theorem isInvariant_polled : IsInvariant (poll : Polling n → _) (Polling.init n) Polled where
  init := by
    refine ⟨?_, fun _ => Nat.zero_le _⟩
    have hnone : (Polling.init n).inHand = 0 := Finset.sum_eq_zero fun _ _ => rfl
    rw [hnone]
    rfl
  step := by
    intro s a s' h hs
    have hupdate : ∀ q hashes, hashes.length ≤ burstSize →
        ∀ q', (Function.update s.bufs q hashes q').length ≤ burstSize := by
      intro q hashes hlen q'
      rcases eq_or_ne q' q with rfl | hne
      · rwa [Function.update_self]
      · rw [Function.update_of_ne hne]
        exact h.bufs q'
    have harrived := h.arrived
    rcases poll_cases hs with ⟨q, hashes, hnil, hlen, rfl⟩ | ⟨q, rfl⟩
    · have hsum := inHand_update s q hashes
      rw [hnil, List.length_nil, Nat.add_zero] at hsum
      refine ⟨?_, hupdate q hashes hlen⟩
      show (received (s.arrived ++ [(q, hashes)])).length =
        (received s.passes).length + ∑ q', (Function.update s.bufs q hashes q').length
      rw [received_concat, hsum, harrived, Nat.add_assoc]
    · have hsum := inHand_update s q []
      rw [List.length_nil, Nat.add_zero] at hsum
      refine ⟨?_, hupdate q [] (Nat.zero_le _)⟩
      show (received s.arrived).length = (received (s.passes ++ [(q, s.bufs q)])).length +
        ∑ q', (Function.update s.bufs q [] q').length
      rw [received_concat, harrived, ← hsum, Nat.add_right_comm, Nat.add_assoc]

theorem Polled.inHand_le {s : Polling n} (h : Polled s) : s.inHand ≤ n * burstSize := by
  have hsum := Finset.sum_le_card_nsmul Finset.univ (fun q => (s.bufs q).length) burstSize
    fun q _ => h.bufs q
  rwa [Finset.card_univ, Fintype.card_fin, smul_eq_mul] at hsum

/-! ## What is printed -/

/-- **What `timer_cb` prints**, for each of the three loops and however the bursts received, the
passes and the reads of `timer_cb` are interleaved: the total of a callback that begins after `s`
and ends before `s'` counts all packets received by `s`, but for those in the hands of the workers,
and only packets received by `s'` that are in nobody's hands. -/
theorem reports_received (order : Refresh) (packet : BitVec 64 → Tag → E → E) (table : Bucket → E)
    (as as' : List (TimerCb.Action (PollAction n))) (s s' : TimerCb.State (Polling n))
    (hs : run (TimerCb.step poll (readRe order packet table) n)
      (TimerCb.State.init (Polling.init n)) as = some s)
    (hwaiting : s.pc = .waiting)
    (hs' : run (TimerCb.step poll (readRe order packet table) n) s as' = some s')
    (hfits : (received s'.program.arrived).length < 2 ^ 53) :
    (∃ new, s'.lines = s.lines ++ new ∧ ∀ line ∈ new,
      ((received s.program.arrived).length : ℤ) ≤ line.total + s.program.inHand ∧
        line.total + s'.program.inHand ≤ (received s'.program.arrived).length) ∧
    s.program.inHand ≤ n * burstSize ∧ TimerCb.Coherent s'.lines := by
  have hcounts : TimerCb.Counts poll (readRe order packet table) fun s => receivedOn s.passes :=
    counts_readRe n table
  have hrun : run (TimerCb.step poll (readRe order packet table) n)
      (TimerCb.State.init (Polling.init n)) (as ++ as') = some s' := by
    rw [run_append, hs]
    exact hs'
  obtain ⟨bs, hbs⟩ := TimerCb.exists_run_program hs
  obtain ⟨bs', hbs'⟩ := TimerCb.exists_run_program hrun
  have hpolled : Polled s.program := isInvariant_polled.run hbs
  have hpolled' : Polled s'.program := isInvariant_polled.run hbs'
  have harrived := hpolled.arrived
  have harrived' := hpolled'.arrived
  have hfits' : TimerCb.Fits (fun s => receivedOn s.passes) n s' := by
    rw [TimerCb.Fits, sum_receivedOn]
    omega
  obtain ⟨new, hnew, hall⟩ := (TimerCb.since_run hcounts hwaiting hs' hfits').lines
  refine ⟨⟨new, hnew, fun line hline => ?_⟩, hpolled.inHand_le,
    TimerCb.coherent_run hcounts hrun hfits'⟩
  obtain ⟨hge, hle⟩ := hall line hline
  rw [sum_receivedOn] at hge hle
  omega

/-- One packet is counted before the callback begins, and one is received and not yet counted. -/
theorem reports_received_two_packets :
    ∃ s s' : TimerCb.State (Polling 1),
      ((∃ new, s'.lines = s.lines ++ new ∧ ∀ line ∈ new,
        ((received s.program.arrived).length : ℤ) ≤ line.total + s.program.inHand ∧
          line.total + s'.program.inHand ≤ (received s'.program.arrived).length) ∧
      s.program.inHand ≤ 1 * burstSize ∧ TimerCb.Coherent s'.lines) ∧
      (received s'.program.arrived).length = 2 ∧ s'.program.inHand = 1 ∧
      s'.lines.map TimerCb.Line.total = [1] :=
  ⟨_, _, reports_received .before (fun _ _ e => e) (fun _ => ())
    [.program (.rxBurst 0 [5]), .program (.pass 0)]
    [.program (.rxBurst 0 [5]), .timer, .timer, .timer] _ _ rfl rfl rfl (by decide +kernel),
    by decide +kernel, by decide +kernel, by decide +kernel⟩

end RunToCompletion
end FloWatcher
