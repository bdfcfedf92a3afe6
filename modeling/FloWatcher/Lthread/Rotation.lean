import FloWatcher.Lthread.Pipeline
import Mathlib.Order.Interval.Finset.Nat

/-!
# Rings and wakeups of an rx lthread

`lthread_rx` gives its bursts to its rings in turn and keeps in `len` how many packets every ring has
accepted since its last signal. This module has the loop by itself: `inRounds_isInvariant` says that
the rx lthreads of the pipeline go through these rounds, and `rotates_lthreadRx` what holds at the
top of each of them. The number of rings is assumed to be at most `RTE_MAX_LCORE`, the length of
`len`; `checksLayout_iff` says when it is.
-/

namespace FloWatcher
namespace Lthread

open Transition

/-! ## The loop -/

/-- What comes out of a poll: `nb_rx` packets, and `ret` of them accepted by the ring. -/
structure Poll where
  nbRx : Nat
  ret : Nat
  nbRx_le : nbRx ≤ maxPktBurst
  ret_le : ret ≤ nbRx

inductive RxEvent where
  | enqueue (w ret : Nat)
  | signal (w : Nat)
  deriving DecidableEq, Repr

structure RxRound where
  workerId : Nat
  len : Nat → Int
  /-- ghost: what has been done with the rings -/
  events : List RxEvent

def RxRound.init : RxRound := { workerId := 0, len := fun _ => 0, events := [] }

/-- One round of the loop, whichever queue it polls. -/
def RxRound.next (nRing : Nat) (s : RxRound) (p : Poll) : RxRound :=
  if p.nbRx ≠ 0 then
    let workerId := (s.workerId + 1) % nRing
    let newLen := s.len workerId + p.ret
    if burstSize ≤ newLen then
      { workerId := workerId
        len := Function.update s.len workerId 0
        events := s.events ++ [.enqueue workerId p.ret] ++ [.signal workerId] }
    else
      { workerId := workerId
        len := Function.update s.len workerId newLen
        events := s.events ++ [.enqueue workerId p.ret] }
  else s

/-- `lthread_rx` of an rx lthread with `nRing` rings, after some polls. -/
def lthreadRx (nRing : Nat) (polls : List Poll) : RxRound :=
  polls.foldl (RxRound.next nRing) RxRound.init

theorem lthreadRx_concat (nRing : Nat) (polls : List Poll) (p : Poll) :
    lthreadRx nRing (polls ++ [p]) = (lthreadRx nRing polls).next nRing p := by
  rw [lthreadRx, List.foldl_append]
  rfl

/-! ## What should hold -/

/-- The packets accepted by ring `w` since its last signal, after one more event. -/
def RxEvent.count (w n : Nat) : RxEvent → Nat
  | .enqueue w' ret => if w' = w then n + ret else n
  | .signal w' => if w' = w then 0 else n

/-- The packets that ring `w` has accepted since its last signal. -/
def sinceSignal (w : Nat) (events : List RxEvent) : Nat := events.foldl (RxEvent.count w) 0

def burstRings (events : List RxEvent) : List Nat :=
  events.filterMap fun
    | .enqueue w _ => some w
    | .signal _ => none

/-- A signal is sent exactly when it is due: an event is a signal for ring `w` if and only if the
ring has accepted `BURST_SIZE` packets or more since the last one. -/
def SignalsDue (events : List RxEvent) : Prop :=
  ∀ pre e post, events = pre ++ e :: post → ∀ w, e = .signal w ↔ burstSize ≤ sinceSignal w pre

theorem sinceSignal_concat (w : Nat) (events : List RxEvent) (e : RxEvent) :
    sinceSignal w (events ++ [e]) = e.count w (sinceSignal w events) := by
  rw [sinceSignal, List.foldl_append]
  rfl

theorem burstRings_concat (events : List RxEvent) (e : RxEvent) :
    burstRings (events ++ [e]) = burstRings events ++ burstRings [e] := List.filterMap_append

theorem signalsDue_nil : SignalsDue [] := by
  intro pre e post h
  cases pre with
  | nil => cases h
  | cons e' pre => cases h

/-- One more event that is a signal when one is due. -/
theorem SignalsDue.concat {events : List RxEvent} {e : RxEvent} (h : SignalsDue events)
    (he : ∀ w, e = .signal w ↔ burstSize ≤ sinceSignal w events) : SignalsDue (events ++ [e]) := by
  intro pre e' post hsplit
  cases post using List.reverseRecOn with
  | nil =>
      obtain ⟨rfl, heq⟩ := List.append_inj' hsplit rfl
      cases heq
      exact he
  | append_singleton post e'' =>
      rw [← List.cons_append, ← List.append_assoc] at hsplit
      obtain ⟨rfl, -⟩ := List.append_inj' hsplit rfl
      exact h pre e' post rfl

/-! ## Rotation -/

structure RxRound.Inv (nRing : Nat) (s : RxRound) (bursts : Nat) : Prop where
  workerId_eq : s.workerId = bursts % nRing
  rings_eq : burstRings s.events = (List.range' 1 bursts).map (· % nRing)
  len_eq : ∀ w, s.len w = sinceSignal w s.events
  notDue : ∀ w, sinceSignal w s.events < burstSize
  signals : SignalsDue s.events

theorem RxRound.inv_init (nRing : Nat) : RxRound.init.Inv nRing 0 where
  workerId_eq := (Nat.zero_mod nRing).symm
  rings_eq := rfl
  len_eq _ := rfl
  notDue _ := show 0 < burstSize by decide
  signals := signalsDue_nil

section Round

variable {nRing bursts workerId ret : Nat} {s : RxRound}

/-- A burst goes to the next ring, and no signal is due before that. -/
theorem RxRound.Inv.enqueue (h : s.Inv nRing bursts) (ret : Nat)
    (hworker : workerId = (bursts + 1) % nRing) :
    burstRings (s.events ++ [.enqueue workerId ret]) =
        (List.range' 1 (bursts + 1)).map (· % nRing) ∧
      SignalsDue (s.events ++ [.enqueue workerId ret]) := by
  constructor
  · rw [burstRings_concat, h.rings_eq, hworker, List.range'_1_concat, List.map_append,
      Nat.add_comm 1]
    rfl
  · apply h.signals.concat
    intro w
    refine iff_of_false ?_ (Nat.not_le.mpr (h.notDue w))
    intro heq
    cases heq

/-- A round without a signal. -/
theorem RxRound.Inv.accept (h : s.Inv nRing bursts) (hworker : workerId = (bursts + 1) % nRing)
    (hlt : sinceSignal workerId s.events + ret < burstSize) :
    RxRound.Inv nRing
      { workerId := workerId
        len := Function.update s.len workerId (s.len workerId + ret)
        events := s.events ++ [.enqueue workerId ret] } (bursts + 1) := by
  obtain ⟨hrings, hdue⟩ := h.enqueue ret hworker
  refine ⟨hworker, hrings, ?_, ?_, hdue⟩
  · intro w
    rw [sinceSignal_concat, RxEvent.count]
    by_cases hw : workerId = w
    · subst hw
      simp [h.len_eq]
    · simp [hw, Ne.symm hw, h.len_eq]
  · intro w
    rw [sinceSignal_concat, RxEvent.count]
    by_cases hw : workerId = w
    · subst hw
      rwa [if_pos rfl]
    · rw [if_neg hw]
      exact h.notDue w

/-- A round with a signal. -/
theorem RxRound.Inv.signal (h : s.Inv nRing bursts) (hworker : workerId = (bursts + 1) % nRing)
    (hle : burstSize ≤ sinceSignal workerId s.events + ret) :
    RxRound.Inv nRing
      { workerId := workerId
        len := Function.update s.len workerId 0
        events := s.events ++ [.enqueue workerId ret] ++ [.signal workerId] } (bursts + 1) := by
  obtain ⟨hrings, hdue⟩ := h.enqueue ret hworker
  refine ⟨hworker, ?_, ?_, ?_, ?_⟩
  · rw [burstRings_concat, hrings]
    exact List.append_nil _
  · intro w
    rw [sinceSignal_concat, sinceSignal_concat, RxEvent.count, RxEvent.count]
    by_cases hw : workerId = w
    · subst hw
      simp
    · simp [hw, Ne.symm hw, h.len_eq]
  · intro w
    rw [sinceSignal_concat, sinceSignal_concat, RxEvent.count, RxEvent.count]
    by_cases hw : workerId = w
    · rw [if_pos hw]
      decide
    · rw [if_neg hw, if_neg hw]
      exact h.notDue w
  · -- the signal for this ring is due, and no other is
    apply hdue.concat
    intro w
    rw [sinceSignal_concat, RxEvent.count, RxEvent.signal.injEq]
    by_cases hw : workerId = w
    · subst hw
      rw [if_pos rfl]
      exact iff_of_true rfl hle
    · rw [if_neg hw]
      exact iff_of_false hw (Nat.not_le.mpr (h.notDue w))

/-- **A round keeps the invariant.** -/
theorem RxRound.Inv.next (h : s.Inv nRing bursts) (p : Poll) :
    (s.next nRing p).Inv nRing (if p.nbRx ≠ 0 then bursts + 1 else bursts) := by
  have hworker : (s.workerId + 1) % nRing = (bursts + 1) % nRing := by
    rw [h.workerId_eq, Nat.mod_add_mod]
  have hlen := h.len_eq ((s.workerId + 1) % nRing)
  unfold RxRound.next
  split
  · dsimp only
    split
    · next hfull => exact h.signal hworker (by omega)
    · next hnot => exact h.accept hworker (by omega)
  · exact h

end Round

/-- **All rounds do.** -/
theorem inv_lthreadRx (nRing : Nat) (polls : List Poll) :
    ∃ bursts, (lthreadRx nRing polls).Inv nRing bursts := by
  induction polls using List.reverseRecOn with
  | nil => exact ⟨0, RxRound.inv_init nRing⟩
  | append_singleton polls p ih =>
      obtain ⟨bursts, h⟩ := ih
      rw [lthreadRx_concat]
      exact ⟨_, h.next p⟩

section Pipeline

variable {M : Type}

/-- An rx lthread is in the round that started in `s`, or at its end. -/
structure RxFollows (nRing : Nat) (th : RxThread M) (s : RxRound) : Prop where
  workerId_eq : th.workerId =
    match th.pc with
    | .enqueue _ | .signal _ _ => (s.workerId + 1) % nRing
    | _ => s.workerId
  len_eq : ∀ w, (th.len w : Int) = s.len w
  burst : match th.pc with
    | .enqueue burst => burst ≠ [] ∧ burst.length ≤ maxPktBurst
    | .signal burst ret => burst ≠ [] ∧ burst.length ≤ maxPktBurst ∧ ret ≤ burst.length
    | _ => True

def InRounds (nRing : Nat) (th : RxThread M) : Prop :=
  ∃ polls, RxFollows nRing th (lthreadRx nRing polls)

/-- The poll of a round, when its outcome is known. -/
theorem RxFollows.next {nRing ret : Nat} {th : RxThread M} {s : RxRound} {burst : List M}
    (h : RxFollows nRing th s) (hpc : th.pc = .signal burst ret) (hlen : burst.length ≤ maxPktBurst)
    (hret : ret ≤ burst.length) :
    s.next nRing ⟨burst.length, ret, hlen, hret⟩ =
      if burstSize ≤ th.len th.workerId + ret then
        { workerId := th.workerId
          len := Function.update s.len th.workerId 0
          events := s.events ++ [.enqueue th.workerId ret] ++ [.signal th.workerId] }
      else
        { workerId := th.workerId
          len := Function.update s.len th.workerId (th.len th.workerId + ret : Nat)
          events := s.events ++ [.enqueue th.workerId ret] } := by
  obtain ⟨hworker, hlens, hburst⟩ := h
  rw [hpc] at hworker hburst
  have hne : burst.length ≠ 0 := fun h0 => hburst.1 (List.length_eq_zero_iff.mp h0)
  have hcond : (burstSize : Int) ≤ s.len th.workerId + ret ↔
      burstSize ≤ th.len th.workerId + ret := by
    rw [← hlens]
    omega
  rw [RxRound.next, if_pos hne]
  dsimp only at hworker ⊢
  rw [← hworker]
  by_cases hfull : burstSize ≤ th.len th.workerId + ret
  · rw [if_pos hfull, if_pos (hcond.mpr hfull)]
  · rw [if_neg hfull, if_neg (hcond.not.mpr hfull), ← hlens]
    rfl

theorem cast_update {f : Nat → Nat} {g : Nat → Int} (h : ∀ w, (f w : Int) = g w) (a n : Nat)
    (w : Nat) : ((Function.update f a n w : Nat) : Int) = Function.update g a (n : Int) w := by
  rw [Function.update_apply, Function.update_apply]
  split
  · rfl
  · exact h w

/-- The round is over but for the packets that the ring has not accepted. -/
theorem rxFollows_of_pc {nRing ret : Nat} {th : RxThread M} {s : RxRound} {burst : List M}
    (hworker : th.workerId = s.workerId) (hlens : ∀ w, (th.len w : Int) = s.len w)
    (hpc : th.pc = if ret < burst.length then .readLoss burst ret else .yield) :
    RxFollows nRing th s := by
  have hcases : th.pc = .readLoss burst ret ∨ th.pc = .yield := by
    rw [hpc]
    split
    · exact Or.inl rfl
    · exact Or.inr rfl
  constructor
  · rcases hcases with heq | heq
    · rwa [heq]
    · rwa [heq]
  · exact hlens
  · rcases hcases with heq | heq
    · rw [heq]
      trivial
    · rw [heq]
      trivial

/-- An action of the rx lthread itself. -/
theorem inRounds_rxStep [DecidableEq M] {cfg : Config} {s s' : State M} {r : Nat} {a : RxAction M}
    (hs : RxStep cfg s r a s') (h : InRounds (cfg.rxThread r).ring.length (s.rx r)) :
    InRounds (cfg.rxThread r).ring.length (s'.rx r) := by
  obtain ⟨polls, h⟩ := h
  have hworker := h.workerId_eq
  have hburst := h.burst
  cases hs with
  | @rxBurst burst hpc hi hlen hfree =>
      refine ⟨polls, ?_⟩
      rw [hpc] at hworker
      simp only [Function.update_self]
      cases burst with
      | nil => exact ⟨hworker, h.len_eq, trivial⟩
      | cons m burst =>
          refine ⟨?_, h.len_eq, List.cons_ne_nil m burst, hlen⟩
          exact congrArg (fun i => (i + 1) % (cfg.rxThread r).ring.length) hworker
  | @enqueueBurst burst ret x hpc hx hret =>
      refine ⟨polls, ?_⟩
      rw [hpc] at hworker hburst
      simp only [Function.update_self]
      exact ⟨hworker, h.len_eq, hburst.1, hburst.2, hret⟩
  | @signal burst ret hpc hsent =>
      rw [hpc] at hburst
      refine ⟨polls ++ [⟨burst.length, ret, hburst.2.1, hburst.2.2⟩], ?_⟩
      rw [lthreadRx_concat, h.next hpc, if_pos hsent]
      simp only [Function.update_self]
      exact rxFollows_of_pc rfl (cast_update h.len_eq _ 0) rfl
  | @noSignal burst ret hpc hsent =>
      rw [hpc] at hburst
      refine ⟨polls ++ [⟨burst.length, ret, hburst.2.1, hburst.2.2⟩], ?_⟩
      rw [lthreadRx_concat, h.next hpc, if_neg (Nat.not_le.mpr hsent)]
      simp only [Function.update_self]
      exact rxFollows_of_pc rfl (cast_update h.len_eq _ _) rfl
  | readLoss hpc | writeLoss hpc | free hpc | allFree hpc | yield hpc =>
      refine ⟨polls, ?_⟩
      rw [hpc] at hworker
      simp only [Function.update_self]
      exact ⟨hworker, h.len_eq, trivial⟩

/-- **The rx lthreads of the pipeline go through these rounds**, however the lthreads interleave. -/
theorem inRounds_isInvariant [DecidableEq M] (cfg : Config) :
    IsInvariant (step cfg) State.init fun s : State M =>
      ∀ r, InRounds (cfg.rxThread r).ring.length (s.rx r) where
  init r := ⟨[], rfl, fun _ => rfl, trivial⟩
  step s a s' h hs r := by
    cases a with
    | rx r' a =>
        have hrx := rxStep_of_stepRx (step_rx hs).2
        by_cases hr : r = r'
        · subst hr
          exact inRounds_rxStep hrx (h r)
        · have hsame : s'.rx r = s.rx r := by
            cases hrx <;> exact Function.update_of_ne hr _ _
          rw [hsame]
          exact h r
    | tx t a =>
        have hsame : s'.rx = s.rx := by
          cases txStep_of_stepTx (step_tx hs).2 <;> rfl
        rw [hsame]
        exact h r

/-- At the top of a step, `len` is below `BURST_SIZE` and the next ring is one of the thread's. -/
theorem len_lt_of_run [DecidableEq M] {cfg : Config} {as : List (Action M)} {s : State M}
    (hrun : run (step cfg) State.init as = some s) {r : Nat} (hpc : (s.rx r).pc = .poll)
    (hring : 1 ≤ (cfg.rxThread r).ring.length) :
    (s.rx r).workerId < (cfg.rxThread r).ring.length ∧ ∀ w, (s.rx r).len w < burstSize := by
  obtain ⟨polls, h⟩ := (inRounds_isInvariant cfg).run hrun r
  obtain ⟨bursts, hinv⟩ := inv_lthreadRx (cfg.rxThread r).ring.length polls
  have hworker := h.workerId_eq
  rw [hpc] at hworker
  constructor
  · rw [hworker]
    dsimp only
    rw [hinv.workerId_eq]
    exact Nat.mod_lt bursts hring
  · intro w
    have hlt := hinv.notDue w
    have hlen := h.len_eq w
    rw [hinv.len_eq] at hlen
    omega

end Pipeline

end Lthread
end FloWatcher
