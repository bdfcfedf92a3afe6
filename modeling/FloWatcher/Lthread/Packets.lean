import FloWatcher.Lthread.Accounting
import Mathlib.Algebra.Order.BigOperators.Group.Finset

/-!
# Packets and the mbufs that carry them

The pipeline treats mbufs as tokens, and does not look into them. So it does the same with tokens
that carry more: what the threads do with packets, read as mbufs, is what they do with the mbufs
(`stepRx_map`, `stepTx_map`). Only a port looks at them: it hands out mbufs that are not in use.
-/

namespace FloWatcher
namespace Lthread

open Transition

variable {M N : Type} {cfg : Config}

/-! ## Tokens under another name -/

def RxPc.map (f : M → N) : RxPc M → RxPc N
  | .poll => .poll
  | .enqueue burst => .enqueue (burst.map f)
  | .signal burst ret => .signal (burst.map f) ret
  | .readLoss burst ret => .readLoss (burst.map f) ret
  | .writeLoss burst ret loss => .writeLoss (burst.map f) ret loss
  | .free burst k => .free (burst.map f) k
  | .yield => .yield

def RxThread.map (f : M → N) (th : RxThread M) : RxThread N where
  i := th.i
  workerId := th.workerId
  len := th.len
  pc := th.pc.map f
  lost := th.lost.map f
  freed := th.freed.map f

def TxPc.map (f : M → N) : TxPc M → TxPc N
  | .dequeue => .dequeue
  | .count burst => .count (burst.map f)
  | .packet burst buf => .packet (burst.map f) buf
  | .wait => .wait
  | .blocked => .blocked

def TxThread.map (f : M → N) (th : TxThread M) : TxThread N where
  pc := th.pc.map f
  counted := th.counted.map f
  freed := th.freed.map f

def State.map (f : M → N) (s : State M) : State N where
  rx := RxThread.map f ∘ s.rx
  tx := TxThread.map f ∘ s.tx
  ring := List.map f ∘ s.ring
  ringLoss := s.ringLoss
  re := s.re
  received := s.received.map f
  enqueued := List.map f ∘ s.enqueued

def RxAction.map (f : M → N) : RxAction M → RxAction N
  | .rxBurst burst => .rxBurst (burst.map f)
  | .enqueueBurst ret => .enqueueBurst ret
  | .signal => .signal
  | .readLoss => .readLoss
  | .writeLoss => .writeLoss
  | .free => .free
  | .yield => .yield

@[simp] theorem RxPc.held_map (f : M → N) (pc : RxPc M) : (pc.map f).held = pc.held.map f := by
  cases pc <;> simp [RxPc.map, RxPc.held]

@[simp] theorem RxPc.unfreed_map (f : M → N) (pc : RxPc M) :
    (pc.map f).unfreed = pc.unfreed.map f := by
  cases pc <;> simp [RxPc.map, RxPc.unfreed]

@[simp] theorem TxPc.held_map (f : M → N) (pc : TxPc M) : (pc.map f).held = pc.held.map f := by
  cases pc <;> simp [TxPc.map, TxPc.held]

@[simp] theorem TxPc.unfreed_map (f : M → N) (pc : TxPc M) :
    (pc.map f).unfreed = pc.unfreed.map f := by
  cases pc <;> simp [TxPc.map, TxPc.unfreed]

theorem content_map (f : M → N) (s : State M) (t : Nat) :
    (s.map f).content cfg t = (s.content cfg t).map f := by
  unfold State.content
  split <;> rfl

theorem awake_map (f : M → N) (th : TxThread M) : (th.map f).awake = th.awake.map f := by
  cases hpc : th.pc <;> simp [TxThread.awake, TxThread.map, TxPc.map, hpc]

theorem signal_map (f : M → N) (r workerId : Nat) (tx : Nat → TxThread M) :
    signal cfg r workerId (TxThread.map f ∘ tx) = TxThread.map f ∘ signal cfg r workerId tx := by
  funext t
  simp only [signal, Function.comp_apply]
  split
  · exact awake_map f _
  · rfl

theorem polled_map (f : M → N) (conf : ThreadRxConf) (th : RxThread M) (burst : List M) :
    (th.map f).polled conf (burst.map f) = (th.polled conf burst).map f := by
  cases burst <;> rfl

/-- A tx lthread does not look at the tokens. -/
theorem stepTx_map (f : M → N) (s : State M) (t : Nat) (a : TxAction) :
    stepTx cfg (s.map f) t a = (stepTx cfg s t a).map (State.map f) := by
  have hth : (s.map f).tx t = (s.tx t).map f := rfl
  dsimp only [stepTx]
  rw [hth]
  cases a <;> cases hpc : (s.tx t).pc <;> simp only [TxThread.map, hpc, TxPc.map, Option.map_none]
  case dequeueBurst.dequeue =>
    cases (cfg.txThread t).ring with
    | none => rfl
    | some x =>
        have hring : (s.map f).ring x = (s.ring x).map f := rfl
        dsimp only
        rw [hring]
        cases s.ring x with
        | nil => simp [State.map, Function.comp_update, TxThread.map, TxPc.map]
        | cons m ms => simp [State.map, Function.comp_update, TxThread.map, TxPc.map]
  case packet.packet burst buf =>
    rw [List.getElem?_map]
    cases burst[buf]? with
    | none => simp [State.map, Function.comp_update, TxThread.map, TxPc.map]
    | some m => simp [State.map, Function.comp_update, TxThread.map, TxPc.map]
  all_goals simp [State.map, Function.comp_update, TxThread.map, TxPc.map]

/-- Nor does an rx lthread, behind the poll. -/
theorem stepRx_map [DecidableEq M] [DecidableEq N] (f : M → N) (s : State M) (r : Nat)
    {a : RxAction M} (ha : ∀ burst, a ≠ .rxBurst burst) :
    stepRx cfg (s.map f) r (a.map f) = (stepRx cfg s r a).map (State.map f) := by
  have hth : (s.map f).rx r = (s.rx r).map f := rfl
  dsimp only [stepRx]
  rw [hth]
  cases a <;> cases hpc : (s.rx r).pc <;>
    simp only [RxAction.map, RxThread.map, hpc, RxPc.map, Option.map_none]
  case rxBurst.poll burst => exact absurd rfl (ha burst)
  case enqueueBurst.enqueue ret burst =>
    cases (cfg.rxThread r).ring[(s.rx r).workerId]? with
    | none => rfl
    | some x =>
        dsimp only
        rw [List.length_map]
        split
        · simp [State.map, Function.comp_update, RxThread.map, RxPc.map]
        · rfl
  case signal.signal burst ret =>
    have hpc' : (if ret < burst.length then RxPc.readLoss (burst.map f) ret else .yield) =
        (if ret < burst.length then RxPc.readLoss burst ret else .yield).map f := by
      split <;> rfl
    rw [List.length_map, hpc']
    split
    · simp [State.map, Function.comp_update, RxThread.map, signal_map]
    · simp [State.map, Function.comp_update, RxThread.map]
  case free.free burst k =>
    rw [List.getElem?_map]
    cases burst[k]? with
    | none => simp [State.map, Function.comp_update, RxThread.map, RxPc.map]
    | some m => simp [State.map, Function.comp_update, RxThread.map, RxPc.map]
  all_goals simp [State.map, Function.comp_update, RxThread.map, RxPc.map]

/-! ## Which packets are in use -/

def State.InUse (cfg : Config) (s : State M) (m : M) : Prop :=
  (∃ r < cfg.nRxThread, m ∈ (s.rx r).pc.held ++ (s.rx r).pc.unfreed) ∨
    ∃ t < cfg.nTxThread, m ∈ (s.tx t).pc.held ++ (s.tx t).pc.unfreed ++ s.content cfg t

theorem inUse_iff [DecidableEq M] (s : State M) (m : M) :
    s.InUse cfg m ↔ 0 < s.live cfg (List.count m) := by
  have hsum : s.live cfg (List.count m) =
      ∑ r ∈ Finset.range cfg.nRxThread, ((s.rx r).pc.held ++ (s.rx r).pc.unfreed).count m +
        ∑ t ∈ Finset.range cfg.nTxThread,
          ((s.tx t).pc.held ++ (s.tx t).pc.unfreed ++ s.content cfg t).count m := by
    simp only [State.live, State.total, List.count_append, Finset.sum_add_distrib]
    omega
  rw [hsum, Nat.add_pos_iff_pos_or_pos, Finset.sum_pos_iff, Finset.sum_pos_iff, State.InUse]
  simp only [Finset.mem_range, List.count_pos_iff]

def Action.arriving : Action M → List M
  | .rx _ (.rxBurst burst) => burst
  | _ => []

def Action.leaving (s : State M) (t : Nat) : Action M → List M
  | .tx t' .packet => if t' = t then (s.tx t).pc.unfreed.take 1 else []
  | _ => []

def Action.losing (s : State M) (r : Nat) : Action M → List M
  | .rx r' .writeLoss => if r' = r then (s.rx r).pc.held else []
  | _ => []

section Steps

variable {s s' : State M} {m : M}

theorem State.InUse.of_rx (h : s'.InUse cfg m) {r : Nat} (hr : r < cfg.nRxThread) {th : RxThread M}
    (hrx : s'.rx = Function.update s.rx r th)
    (hth : m ∈ th.pc.held ++ th.pc.unfreed → s.InUse cfg m)
    (htx : ∀ t, (s'.tx t).pc.held ++ (s'.tx t).pc.unfreed = (s.tx t).pc.held ++ (s.tx t).pc.unfreed)
    (hcontent : ∀ t, m ∈ s'.content cfg t → m ∈ s.content cfg t ∨ s.InUse cfg m) :
    s.InUse cfg m := by
  rcases h with ⟨r', hr', hm⟩ | ⟨t, ht, hm⟩
  · rw [hrx] at hm
    rcases eq_or_ne r' r with rfl | hne
    · rw [Function.update_self] at hm
      exact hth hm
    · rw [Function.update_of_ne hne] at hm
      exact .inl ⟨r', hr', hm⟩
  · rw [htx, List.mem_append] at hm
    rcases hm with hm | hm
    · exact .inr ⟨t, ht, List.mem_append_left _ hm⟩
    · rcases hcontent t hm with hm | hm
      · exact .inr ⟨t, ht, List.mem_append_right _ hm⟩
      · exact hm

theorem State.InUse.of_tx (h : s'.InUse cfg m) {t : Nat} (ht : t < cfg.nTxThread) {th : TxThread M}
    (hrx : s'.rx = s.rx) (htx : s'.tx = Function.update s.tx t th)
    (hth : m ∈ th.pc.held ++ th.pc.unfreed → s.InUse cfg m)
    (hcontent : ∀ t', m ∈ s'.content cfg t' → m ∈ s.content cfg t') : s.InUse cfg m := by
  rcases h with ⟨r, hr, hm⟩ | ⟨t', ht', hm⟩
  · rw [hrx] at hm
    exact .inl ⟨r, hr, hm⟩
  · rw [htx, List.mem_append] at hm
    rcases hm with hm | hm
    · rcases eq_or_ne t' t with rfl | hne
      · rw [Function.update_self] at hm
        exact hth hm
      · rw [Function.update_of_ne hne] at hm
        exact .inr ⟨t', ht', List.mem_append_left _ hm⟩
    · exact .inr ⟨t', ht', List.mem_append_right _ (hcontent t' hm)⟩

variable [DecidableEq M]

theorem inUse_stepRx {r : Nat} (hr : r < cfg.nRxThread) {a : RxAction M}
    (hs : stepRx cfg s r a = some s') (h : s'.InUse cfg m) :
    s.InUse cfg m ∨ m ∈ (Action.rx r a).arriving := by
  have hin : m ∈ (s.rx r).pc.held ++ (s.rx r).pc.unfreed → s.InUse cfg m :=
    fun hm => .inl ⟨r, hr, hm⟩
  cases rxStep_of_stepRx hs with
  | @rxBurst burst hpc hi hlen hfree =>
      obtain ⟨hheld, hunfreed, -⟩ := polled_spec (cfg.rxThread r) (s.rx r) burst
      by_cases hm : m ∈ burst
      · exact .inr hm
      · refine .inl (h.of_rx hr rfl (fun hm' => ?_) (fun _ => rfl) fun _ => .inl)
        rw [hheld, hunfreed, List.append_nil] at hm'
        exact absurd hm' hm
  | @enqueueBurst burst ret x hpc hx hret =>
      rw [hpc] at hin
      refine .inl (h.of_rx hr rfl (fun hm => hin ?_) (fun _ => rfl) fun t hm => ?_)
      · have hdrop := (List.mem_append.mp hm).resolve_right List.not_mem_nil
        exact List.mem_append_left _ (List.mem_of_mem_drop hdrop)
      · unfold State.content at hm ⊢
        split at hm
        · next y hy =>
            dsimp only at hm
            rcases eq_or_ne y x with rfl | hne
            · rw [Function.update_self] at hm
              rcases List.mem_append.mp hm with hm | hm
              · exact .inl hm
              · exact .inr (hin (List.mem_append_left _ (List.mem_of_mem_take hm)))
            · rw [Function.update_of_ne hne] at hm
              exact .inl hm
        · cases hm
  | @signal burst ret hpc hsent =>
      obtain ⟨hheld, hunfreed⟩ := held_counted hpc
      refine .inl (h.of_rx hr rfl (fun hm => hin ?_) (fun t => ?_) fun _ => .inl)
      · rwa [hheld, hunfreed] at hm
      · dsimp only [Lthread.signal]
        split
        · rw [awake_held, awake_unfreed]
        · rfl
  | @noSignal burst ret hpc hsent =>
      obtain ⟨hheld, hunfreed⟩ := held_counted hpc
      refine .inl (h.of_rx hr rfl (fun hm => hin ?_) (fun _ => rfl) fun _ => .inl)
      rwa [hheld, hunfreed] at hm
  | readLoss hpc =>
      rw [hpc] at hin
      exact .inl (h.of_rx hr rfl hin (fun _ => rfl) fun _ => .inl)
  | @writeLoss burst ret loss hpc =>
      rw [hpc] at hin
      exact .inl (h.of_rx hr rfl (fun hm => hin (List.mem_append_left _ hm)) (fun _ => rfl)
        fun _ => .inl)
  | @free burst k m' hpc hm' =>
      rw [hpc] at hin
      refine .inl (h.of_rx hr rfl (fun hm => hin ?_) (fun _ => rfl) fun _ => .inl)
      exact List.drop_subset_drop_left _ (Nat.le_succ k) hm
  | allFree hpc hk =>
      exact .inl (h.of_rx hr rfl (fun hm => absurd hm List.not_mem_nil) (fun _ => rfl) fun _ => .inl)
  | yield hpc =>
      exact .inl (h.of_rx hr rfl (fun hm => absurd hm List.not_mem_nil) (fun _ => rfl) fun _ => .inl)

omit [DecidableEq M] in
theorem inUse_stepTx {t : Nat} (ht : t < cfg.nTxThread) {a : TxAction}
    (hs : stepTx cfg s t a = some s') (h : s'.InUse cfg m) : s.InUse cfg m := by
  have hin : m ∈ (s.tx t).pc.held ++ (s.tx t).pc.unfreed ++ s.content cfg t → s.InUse cfg m :=
    fun hm => .inr ⟨t, ht, hm⟩
  have hnil : m ∈ ([] : List M) ++ [] → s.InUse cfg m := fun hm => absurd hm List.not_mem_nil
  cases txStep_of_stepTx hs with
  | empty hpc hx hring => exact h.of_tx ht rfl rfl hnil fun _ => id
  | @dequeueBurst x hpc hx hring =>
      refine h.of_tx ht rfl rfl (fun hm => hin ?_) fun t' hm => ?_
      · have htake := (List.mem_append.mp hm).resolve_right List.not_mem_nil
        rw [State.content, hx]
        exact List.mem_append_right _ (List.mem_of_mem_take htake)
      · unfold State.content at hm ⊢
        split at hm
        · next y hy =>
            dsimp only at hm
            rcases eq_or_ne y x with rfl | hne
            · rw [Function.update_self] at hm
              exact List.mem_of_mem_drop hm
            · rwa [Function.update_of_ne hne] at hm
        · cases hm
  | @addRe burst hpc =>
      rw [hpc] at hin
      refine h.of_tx ht rfl rfl (fun hm => hin ?_) fun _ => id
      simpa [TxPc.held, TxPc.unfreed] using .inl hm
  | @packet burst buf m' hpc hm' =>
      rw [hpc] at hin
      refine h.of_tx ht rfl rfl (fun hm => hin (List.mem_append_left _ ?_)) fun _ => id
      exact List.drop_subset_drop_left _ (Nat.le_succ buf) hm
  | allPackets hpc hbuf => exact h.of_tx ht rfl rfl hnil fun _ => id
  | condWait hpc => exact h.of_tx ht rfl rfl hnil fun _ => id
  | wake hpc => exact h.of_tx ht rfl rfl hnil fun _ => id

/-- **Only a port takes tokens into use.** -/
theorem inUse_step {a : Action M} (hs : step cfg s a = some s') (h : s'.InUse cfg m) :
    s.InUse cfg m ∨ m ∈ a.arriving := by
  cases a with
  | rx r a =>
      obtain ⟨hr, hs⟩ := step_rx hs
      exact inUse_stepRx hr hs h
  | tx t a =>
      obtain ⟨ht, hs⟩ := step_tx hs
      exact .inl (inUse_stepTx ht hs h)

/-- What an action loses or takes away is in use. -/
theorem State.InUse.of_losing {r : Nat} {a : Action M} (hs : step cfg s a = some s')
    (hm : m ∈ a.losing s r) : s.InUse cfg m := by
  unfold Action.losing at hm
  split at hm
  · split at hm
    · next hr =>
        subst hr
        exact .inl ⟨_, (step_rx hs).1, List.mem_append_left _ hm⟩
    · cases hm
  · cases hm

theorem State.InUse.of_leaving {t : Nat} {a : Action M} (hs : step cfg s a = some s')
    (hm : m ∈ a.leaving s t) : s.InUse cfg m := by
  unfold Action.leaving at hm
  split at hm
  · split at hm
    · next ht =>
        subst ht
        have hunfreed := List.mem_of_mem_take hm
        exact .inr ⟨_, (step_tx hs).1, List.mem_append_left _ (List.mem_append_right _ hunfreed)⟩
    · cases hm
  · cases hm

/-- A port may hand out different tokens that are not in use. -/
theorem stepRx_rxBurst_of_free {r : Nat} {burst : List M} (hpc : (s.rx r).pc = .poll)
    (hi : (s.rx r).i < (cfg.rxThread r).rxQueueList.length) (hlen : burst.length ≤ maxPktBurst)
    (hnodup : burst.Nodup) (hfree : ∀ m ∈ burst, ¬ s.InUse cfg m) :
    stepRx cfg s r (.rxBurst burst) =
      some
        { s with
          rx := Function.update s.rx r ((s.rx r).polled (cfg.rxThread r) burst)
          received := s.received ++ burst } := by
  dsimp only [stepRx]
  rw [hpc]
  refine if_pos ⟨hi, hlen, fun m hm => ?_⟩
  have hcount := List.nodup_iff_count_le_one.mp hnodup m
  have hlive : ¬ 0 < s.live cfg (List.count m) := fun hlive => hfree m hm ((inUse_iff s m).mpr hlive)
  omega

/-! ## What is remembered -/

theorem received_step {a : Action M} (hs : step cfg s a = some s') :
    s'.received = s.received ++ a.arriving := by
  cases a with
  | rx r a =>
      cases rxStep_of_stepRx (step_rx hs).2 with
      | rxBurst hpc hi hlen hfree => rfl
      | _ => exact (List.append_nil _).symm
  | tx t a => cases txStep_of_stepTx (step_tx hs).2 <;> exact (List.append_nil _).symm

omit [DecidableEq M] in
theorem lost_update {r r' : Nat} {th : RxThread M} {new : List M}
    (h : th.lost = (s.rx r').lost ++ new) :
    (Function.update s.rx r' th r).lost = (s.rx r).lost ++ if r' = r then new else [] := by
  rcases eq_or_ne r' r with rfl | hne
  · rw [Function.update_self, if_pos rfl, h]
  · rw [Function.update_of_ne hne.symm, if_neg hne, List.append_nil]

theorem lost_step {a : Action M} (hs : step cfg s a = some s') (r : Nat) :
    (s'.rx r).lost = (s.rx r).lost ++ a.losing s r := by
  cases a with
  | rx r' a =>
      have hsame : ∀ {th : RxThread M}, th.lost = (s.rx r').lost →
          (Function.update s.rx r' th r).lost = (s.rx r).lost ++ [] := by
        intro th h
        rw [lost_update (h.trans (List.append_nil _).symm), ite_self]
      cases rxStep_of_stepRx (step_rx hs).2 with
      | @rxBurst burst hpc hi hlen hfree =>
          exact hsame (polled_spec (cfg.rxThread r') (s.rx r') burst).2.2.1
      | @writeLoss burst ret loss hpc =>
          have hheld : (s.rx r').pc.held = burst.drop ret := by rw [hpc, RxPc.held]
          refine (lost_update rfl).trans ?_
          rcases eq_or_ne r' r with rfl | hne
          · simp only [Action.losing, if_true, hheld]
          · simp only [Action.losing, if_neg hne]
      | _ => exact hsame rfl
  | tx t a => cases txStep_of_stepTx (step_tx hs).2 <;> exact (List.append_nil _).symm

theorem freed_step {a : Action M} (hs : step cfg s a = some s') (t : Nat) :
    (s'.tx t).freed = (s.tx t).freed ++ a.leaving s t := by
  cases a with
  | rx r a =>
      cases rxStep_of_stepRx (step_rx hs).2 with
      | signal hpc hsent =>
          refine Eq.trans ?_ (List.append_nil _).symm
          dsimp only [Lthread.signal]
          split
          · exact awake_freed _
          · rfl
      | _ => exact (List.append_nil _).symm
  | tx t' a =>
      have hsame : ∀ th : TxThread M, th.freed = (s.tx t').freed →
          (Function.update s.tx t' th t).freed = (s.tx t).freed ++ [] := by
        intro th h
        rw [List.append_nil]
        rcases eq_or_ne t t' with rfl | hne
        · rw [Function.update_self, h]
        · rw [Function.update_of_ne hne]
      have htake : ∀ {burst : List M} {buf : Nat}, (s.tx t').pc = .packet burst buf →
          (s.tx t').pc.unfreed = burst.drop buf := by
        intro burst buf hpc
        rw [hpc, TxPc.unfreed]
      cases txStep_of_stepTx (step_tx hs).2 with
      | @packet burst buf m hpc hm =>
          obtain ⟨hlt, rfl⟩ := List.getElem?_eq_some_iff.mp hm
          rcases eq_or_ne t' t with rfl | hne
          · simp only [Action.leaving, if_true, Function.update_self, htake hpc,
              List.drop_eq_getElem_cons hlt, List.take_succ_cons, List.take_zero]
          · simp only [Action.leaving, if_neg hne, Function.update_of_ne hne.symm, List.append_nil]
      | @allPackets burst buf hpc hbuf =>
          refine (hsame { s.tx t' with pc := .dequeue } rfl).trans ?_
          rcases eq_or_ne t' t with rfl | hne
          · simp only [Action.leaving, if_true, htake hpc, List.drop_eq_nil_of_le hbuf, List.take_nil]
          · simp only [Action.leaving, if_neg hne]
      | _ => exact hsame _ rfl

end Steps

end Lthread
end FloWatcher
