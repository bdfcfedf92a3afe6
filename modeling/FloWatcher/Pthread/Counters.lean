import FloWatcher.Pthread.Launch

/-!
# The array `gCtr`

`main` allocates `gCtr` in its first statement, with `n_rx_thread` elements. The number of rx threads
is only known after the command line has been parsed and the queues have been counted; until then
`n_rx_thread` is `0`. So whatever is counted, summed up or printed lies outside of the array:
`gCtrInBounds_iff` says that nothing may be.
-/

namespace FloWatcher
namespace Pthread

/-- The number of elements of `gCtr`: `n_rx_thread` at the start of `main`. -/
def gCtrElements : Nat := Config.zero.nRxThread

/-- Packets get to counting thread `t`: a running rx thread puts what it receives into the ring of
`t`, the first of its rings. -/
def Fed (c : Config) (slaves : List Nat) (t : Nat) : Prop :=
  ∃ r, Runs c slaves (.rx r) ∧ ∃ x, (c.rxThread r).ring[0]? = some x ∧ (c.txThread t).ring = some x

/-- An index at which `gCtr` is read or written. The flags are `IPG` and `write_on`. -/
inductive GCtrIndex (c : Config) (slaves : List Nat) (ipg writeOn : Bool) : Nat → Prop
  /-- `gCtr[q] += nb_rx;` in a counting thread that gets packets -/
  | count {t : Nat} (hruns : Runs c slaves (.tx t)) (hfed : Fed c slaves t) :
      GCtrIndex c slaves ipg writeOn (c.txThread t).threadId
  /-- `while (qNum > 0) global += gCtr[--qNum];` after it -/
  | global {t i : Nat} (hipg : ipg = true) (hruns : Runs c slaves (.tx t)) (hfed : Fed c slaves t)
      (hi : i < c.nRxThread) : GCtrIndex c slaves ipg writeOn i
  /-- `for(i=0; i < n_rx_thread; i++) j += gCtr[i];` in `timer_cb` -/
  | timerCb {i : Nat} (hi : i < c.nRxThread) : GCtrIndex c slaves ipg writeOn i
  /-- `for(i=0; i<n_rx_thread; i++)` in `handler` -/
  | handler {i : Nat} (hi : i < c.nRxThread) : GCtrIndex c slaves ipg writeOn i
  /-- `gCtr[0], gCtr[1]` in the line that `handler` writes to the file -/
  | file {i : Nat} (hwrite : writeOn = true) (hi : i < 2) : GCtrIndex c slaves ipg writeOn i

/-- **When `gCtr` is large enough**: when there is no rx thread and no file to write, so that it is
not used at all. -/
theorem gCtrInBounds_iff (rteRingCreate : String → Bool) (rteLcoreToSocketId : Nat → Nat)
    (rx : List RxThreadParams) (tx : List TxThreadParams) (c : Config)
    (h : initThreads rteRingCreate rteLcoreToSocketId rx tx = some c) (slaves : List Nat)
    (ipg writeOn : Bool) :
    (∀ i, GCtrIndex c slaves ipg writeOn i → i < gCtrElements) ↔ rx = [] ∧ writeOn = false := by
  have hcount := (threadsOf_initThreads h).1.count
  constructor
  · intro hall
    refine ⟨?_, ?_⟩
    · by_contra hne
      obtain ⟨p, hp⟩ := List.exists_mem_of_ne_nil rx hne
      have hpos : 0 < c.nRxThread := (hcount 0).mpr ⟨p, hp, Nat.zero_le _⟩
      exact absurd (hall 0 (.handler hpos)) (Nat.not_lt_zero 0)
    · cases writeOn with
      | false => rfl
      | true => exact absurd (hall 0 (.file rfl two_pos)) (Nat.not_lt_zero 0)
  · rintro ⟨rfl, rfl⟩ i hi
    have hnone : ∀ r, ¬ r < c.nRxThread := by
      intro r hr
      obtain ⟨p, hp, -⟩ := (hcount r).mp hr
      exact absurd hp List.not_mem_nil
    -- nobody feeds a counting thread
    have hunfed : ∀ t, ¬ Fed c slaves t := by
      rintro t ⟨r, ⟨lcoreId, -, hrun⟩, -⟩
      exact hnone r ((pthreadRun_eq_rx_iff c lcoreId r).mp hrun).1
    cases hi with
    | count hruns hfed => exact absurd hfed (hunfed _)
    | global hipg hruns hfed hi => exact absurd hi (hnone i)
    | timerCb hi => exact absurd hi (hnone i)
    | handler hi => exact absurd hi (hnone i)
    | file hwrite hi => cases hwrite

/-- The default threads. -/
theorem gCtrInBounds_iff_default :
    ∃ c, initThreads (fun _ => true) (fun _ => 0) rxThreadParamsArrayDefault
        txThreadParamsArrayDefault = some c ∧
      ((∀ i, GCtrIndex c [2, 4, 6, 8] false false i → i < gCtrElements) ↔
        rxThreadParamsArrayDefault = [] ∧ false = false) :=
  ⟨_, rfl, gCtrInBounds_iff (fun _ => true) (fun _ => 0) rxThreadParamsArrayDefault
    txThreadParamsArrayDefault _ rfl [2, 4, 6, 8] false false⟩

/-- With the default threads, the thread on lcore `8` counts in `gCtr[1]`. -/
theorem not_gCtrInBounds_default :
    ∃ c, initThreads (fun _ => true) (fun _ => 0) rxThreadParamsArrayDefault
        txThreadParamsArrayDefault = some c ∧
      GCtrIndex c [2, 4, 6, 8] false false 1 ∧ ¬ 1 < gCtrElements := by
  refine ⟨_, rfl, ?_, by decide⟩
  apply GCtrIndex.count (t := 1)
  · exact ⟨8, by decide, by decide⟩
  · exact ⟨1, ⟨4, by decide, by decide⟩, _, rfl, rfl⟩

end Pthread
end FloWatcher
