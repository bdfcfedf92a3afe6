import FloWatcher.Config.Threads
import FloWatcher.Lthread.Wakeup

/-!
# Whom does a signal wake?

`init_rx_rings` runs over the tx threads. It puts the ring of each behind those that its rx thread
has, and makes its `ready` point into the parallel array, at the same index; `lthread_rx` signals
the index whose ring it has filled. `connected_initThreads` says that the two arrays agree: the
signal for a ring wakes the one tx lthread that reads the ring.
-/

namespace FloWatcher

/-! ## The names of the rings -/

theorem toDigits_inj {m n : Nat} (h : Nat.toDigits 10 m = Nat.toDigits 10 n) : m = n := by
  calc m
    _ = Nat.ofDigitChars 10 (Nat.toDigits 10 m) 0 := Nat.ofDigitChars_ten_toDigits.symm
    _ = Nat.ofDigitChars 10 (Nat.toDigits 10 n) 0 := by rw [h]
    _ = n := Nat.ofDigitChars_ten_toDigits

/-- A number ends where the digits end. -/
theorem toDigits_append_inj {m n : Nat} {c : Char} (hc : c.isDigit = false) {l l' : List Char}
    (h : Nat.toDigits 10 m ++ c :: l = Nat.toDigits 10 n ++ c :: l') : m = n ∧ l = l' := by
  have htake : ∀ n l, (Nat.toDigits 10 n ++ c :: l).takeWhile Char.isDigit = Nat.toDigits 10 n := by
    intro n l
    have hdigits : ∀ d ∈ Nat.toDigits 10 n, d.isDigit = true :=
      fun d hd => Nat.isDigit_of_mem_toDigits (by decide) (by decide) hd
    rw [List.takeWhile_append_of_pos hdigits, List.takeWhile_cons_of_neg (by rw [hc]; simp),
      List.append_nil]
  have hdigits : Nat.toDigits 10 m = Nat.toDigits 10 n := by
    rw [← htake m l, h, htake]
  rw [hdigits] at h
  exact ⟨toDigits_inj hdigits, (List.cons.inj (List.append_cancel_left h)).2⟩

/-- Rings with one name are made for the same threads. -/
theorem Ring.name_injective : Function.Injective Ring.name := by
  rintro ⟨s, r, t⟩ ⟨s', r', t'⟩ h
  have hlist := congrArg String.toList h
  simp only [Ring.name, String.toList_append, Nat.toString_eq_repr, Nat.toList_repr,
    List.append_assoc] at hlist
  -- the literals are split where the numbers end
  have hrx : "_rx".toList = '_' :: "rx".toList := by decide
  have htx : "_tx".toList = '_' :: "tx".toList := by decide
  rw [hrx, htx] at hlist
  simp only [List.cons_append] at hlist
  obtain ⟨hs, hlist⟩ := toDigits_append_inj (by decide) (List.append_cancel_left hlist)
  obtain ⟨hr, hlist⟩ := toDigits_append_inj (by decide) (List.append_cancel_left hlist)
  rw [hs, hr, toDigits_inj (List.append_cancel_left hlist)]

/-! ## The places of the rings -/

/-- How many of the tx threads before `t` name rx thread `r`. -/
def Config.ringsBefore (c : Config) (r t : Nat) : Nat :=
  (List.range t).countP fun t' => (c.txThread t').threadId = r

theorem ringsBefore_succ (c : Config) (r t : Nat) : c.ringsBefore r (t + 1) =
    c.ringsBefore r t + if (c.txThread t).threadId = r then 1 else 0 := by
  rw [Config.ringsBefore, List.range_succ, List.countP_append, List.countP_singleton]
  simp only [decide_eq_true_eq]
  rfl

namespace Lthread

/-- Tx threads `0 … k - 1` have the next places in the arrays of the rx threads that they name. -/
structure PlacedTo (c : Config) (k : Nat) : Prop where
  rings : ∀ r, (c.rxThread r).ring.length = c.ringsBefore r k
  ready : ∀ t < k, (c.txThread t).ready =
    some ((c.txThread t).threadId, c.ringsBefore (c.txThread t).threadId t)
  unset : ∀ t, k ≤ t → (c.txThread t).ready = none

section Connect

variable {rteRingCreate : String → Bool} {rteLcoreToSocketId : Nat → Nat} {c c' : Config} {k : Nat}

/-- Connecting leaves the threads that the tx threads name. -/
theorem threadId_connect (h : connect rteRingCreate rteLcoreToSocketId true c k = .ok c') (t : Nat) :
    (c'.txThread t).threadId = (c.txThread t).threadId := by
  obtain ⟨-, ring, -, -, rfl⟩ := connect_ok h
  rcases eq_or_ne t k with rfl | hne
  · simp only [Function.update_self]
  · simp only [Function.update_of_ne hne]

theorem ringsBefore_connect (h : connect rteRingCreate rteLcoreToSocketId true c k = .ok c')
    (r t : Nat) : c'.ringsBefore r t = c.ringsBefore r t := by
  simp only [Config.ringsBefore, threadId_connect h]

theorem placedTo_connect (hc : PlacedTo c k)
    (h : connect rteRingCreate rteLcoreToSocketId true c k = .ok c') : PlacedTo c' (k + 1) := by
  obtain ⟨hrings, hready, hunset⟩ := hc
  have hthread := threadId_connect h
  have hbefore := ringsBefore_connect h
  obtain ⟨-, ring, hid, -, rfl⟩ := connect_ok h
  refine ⟨fun r => ?_, fun t ht => ?_, fun t ht => ?_⟩
  · rw [hbefore, ringsBefore_succ, ← hid]
    rcases eq_or_ne r ring.rxThreadId with rfl | hr
    · simp only [Function.update_self, List.length_append, List.length_singleton, hrings, if_true]
    · simp only [Function.update_of_ne hr, hrings, hr.symm, if_false, Nat.add_zero]
  · rw [hbefore, hthread]
    rcases eq_or_ne t k with rfl | hne
    · simp only [Function.update_self, if_true, hrings, hid]
    · simp only [Function.update_of_ne hne]
      exact hready t (by omega)
  · have hne : t ≠ k := by omega
    simp only [Function.update_of_ne hne]
    exact hunset t (by omega)

end Connect

variable {rteRingCreate : String → Bool} {rteLcoreToSocketId : Nat → Nat}
  {rx : List RxThreadParams} {tx : List TxThreadParams} {c : Config}

theorem ready_initTxThreads (hc : ∀ t, (c.txThread t).ready = none) (t : Nat) :
    ((initTxThreads tx c).txThread t).ready = none := by
  revert t
  apply initTxThreads_induct (P := fun _ d => ∀ t, (d.txThread t).ready = none) hc
  intro tx p d hd t
  dsimp only [addTxThread]
  rcases eq_or_ne t d.nTxThread with rfl | hne
  · simp only [Function.update_self]
    exact hd _
  · simp only [Function.update_of_ne hne]
    exact hd t

/-- The places when the program runs. -/
theorem placedTo_initThreads (h : initThreads rteRingCreate rteLcoreToSocketId rx tx = some c) :
    PlacedTo c c.nTxThread := by
  apply initThreads_induct (P := fun k c => PlacedTo c k) _ _ h
  · intro c₀ hc₀
    refine ⟨fun r => ?_, fun t ht => absurd ht (Nat.not_lt_zero t), fun t _ => ?_⟩
    · rw [rxThread_initTxThreads, ring_initRxQueues hc₀ r]
      rfl
    · apply ready_initTxThreads
      rw [txThread_initRxQueues hc₀]
      exact fun _ => rfl
  · intro k d d' hd hconnect
    obtain ⟨-, ring, -, -, hd'⟩ := connect_ok hconnect
    exact ⟨placedTo_connect hd hconnect, by rw [hd']⟩

/-! ## What `init_rx_rings` promises -/

/-- The rx threads and the tx threads are connected. The place of a tx thread is behind the tx
threads before it that name the same rx thread. -/
structure Connected (c : Config) : Prop where
  place : ∀ t < c.nTxThread, ∃ x, (c.txThread t).ring = some x ∧
    (c.txThread t).ready = some ((c.txThread t).threadId, c.ringsBefore (c.txThread t).threadId t) ∧
    ∀ r k, (c.rxThread r).ring[k]? = some x ↔
      r = (c.txThread t).threadId ∧ k = c.ringsBefore (c.txThread t).threadId t
  count : ∀ r, (c.rxThread r).ring.length = c.ringsBefore r c.nTxThread
  distinct : ∀ t < c.nTxThread, ∀ t' < c.nTxThread, ∀ x x', (c.txThread t).ring = some x →
    (c.txThread t').ring = some x' → t ≠ t' → x ≠ x' ∧ x.name ≠ x'.name
  wakes : ∀ r k x, (c.rxThread r).ring[k]? = some x → ∃ t < c.nTxThread,
    (c.txThread t).ring = some x ∧ ∀ (M : Type) (tx : Nat → TxThread M),
      signal (lthreadSpawner c) r k tx = Function.update tx t (tx t).awake

/-- A ring is read by the tx thread whose condition variable is at the same index. -/
theorem signal_eq_update (hsignalled : Signalled c) (hunset : ∀ t, c.nTxThread ≤ t →
    (c.txThread t).ready = none) {r k : Nat} {x : Ring} (hx : (c.rxThread r).ring[k]? = some x)
    {M : Type} (tx : Nat → TxThread M) :
    signal (lthreadSpawner c) r k tx = Function.update tx x.txThreadId (tx x.txThreadId).awake := by
  obtain ⟨-, hlt, hring⟩ := hsignalled.wired.rx r x (List.mem_of_getElem? hx)
  funext t
  unfold signal
  rw [(txThread_lthreadSpawner c t).2]
  rcases eq_or_ne t x.txThreadId with rfl | hne
  · rw [if_pos (hsignalled.ready_eq hlt hring hx), Function.update_self]
  · rw [Function.update_of_ne hne, if_neg]
    intro hready
    rcases Nat.lt_or_ge t c.nTxThread with ht | ht
    · -- the ring of `t` would be at the same index
      obtain ⟨y, hy, hid⟩ := hsignalled.wired.tx t ht
      obtain ⟨w, hw, hget⟩ := hsignalled.ready t ht y hy
      rw [hready] at hw
      obtain ⟨rfl, rfl⟩ := Prod.mk.inj (Option.some.inj hw)
      rw [hget] at hx
      cases hx
      exact hne hid.symm
    · rw [hunset t ht] at hready
      cases hready

/-- **A signal wakes the tx lthread that reads the ring.** -/
theorem connected_initThreads (rteRingCreate : String → Bool) (rteLcoreToSocketId : Nat → Nat)
    (rx : List RxThreadParams) (tx : List TxThreadParams) (c : Config)
    (h : initThreads rteRingCreate rteLcoreToSocketId rx tx = some c) : Connected c := by
  have hsignalled := signalled_initThreads h
  have hplaced := placedTo_initThreads h
  refine ⟨fun t ht => ?_, hplaced.rings, fun t ht t' ht' x x' hx hx' hne => ?_, fun r k x hx => ?_⟩
  · obtain ⟨x, hx, -⟩ := hsignalled.wired.tx t ht
    have hready := hplaced.ready t ht
    obtain ⟨w, hw, hget⟩ := hsignalled.ready t ht x hx
    rw [hready] at hw
    obtain ⟨hid, rfl⟩ := Prod.mk.inj (Option.some.inj hw)
    refine ⟨x, hx, hready, fun r k => ⟨fun hk => ?_, ?_⟩⟩
    · have hready' := hsignalled.ready_eq ht hx hk
      rw [hready] at hready'
      obtain ⟨rfl, rfl⟩ := Prod.mk.inj (Option.some.inj hready')
      exact ⟨rfl, rfl⟩
    · rintro ⟨rfl, rfl⟩
      rw [hid]
      rw [hid] at hget
      exact hget
  · have hring : x ≠ x' := by
      rintro rfl
      exact hne (Wired.ring_inj hsignalled.wired ht ht' hx hx')
    exact ⟨hring, fun hname => hring (Ring.name_injective hname)⟩
  · obtain ⟨-, hlt, hring⟩ := hsignalled.wired.rx r x (List.mem_of_getElem? hx)
    exact ⟨x.txThreadId, hlt, hring, fun M tx => signal_eq_update hsignalled hplaced.unset hx tx⟩

/-- Two rx threads, and three tx threads that name them in turn. -/
theorem connected_initThreads_interleaved :
    ∃ c, initThreads (fun _ => true) (fun _ => 0) [⟨0, 0, 2, 0⟩, ⟨0, 1, 4, 1⟩]
      [⟨6, 1⟩, ⟨8, 0⟩, ⟨10, 1⟩] = some c ∧ Connected c :=
  ⟨_, rfl, connected_initThreads (fun _ => true) (fun _ => 0) [⟨0, 0, 2, 0⟩, ⟨0, 1, 4, 1⟩]
    [⟨6, 1⟩, ⟨8, 0⟩, ⟨10, 1⟩] _ rfl⟩

end Lthread
end FloWatcher
