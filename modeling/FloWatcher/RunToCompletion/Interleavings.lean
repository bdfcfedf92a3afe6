import FloWatcher.RunToCompletion.Chains

/-!
# Workers without a lock

The workers update one table with plain reads and writes. The NIC keeps the packets of a bucket on
one queue, so no bucket has two workers, and then the interleaving of their accesses does not
matter: the table is the one that the models compute for the packets of one worker after the other
(`table_of_finished`).
-/

namespace FloWatcher
namespace RunToCompletion
namespace Heap

open Shared

variable {ι : Type} {L : Layout} {ps : ι → List Hash}

def bucketsOf (ps : ι → List Hash) (w : ι) : Set Bucket := {b | ∃ h ∈ ps w, indexL h = b}

/-- No two workers receive hashes with the same lower half. -/
def Spread (ps : ι → List Hash) : Prop :=
  ∀ w w', w ≠ w' → ∀ h ∈ ps w, ∀ h' ∈ ps w', indexL h ≠ indexL h'

theorem Spread.disjoint (hps : Spread ps) {w w' : ι} (hne : w ≠ w') :
    Disjoint (bucketsOf ps w) (bucketsOf ps w') := by
  apply Set.disjoint_left.mpr
  rintro b ⟨h, hh, rfl⟩ ⟨h', hh', he⟩
  exact hps w w' hne h hh h' hh' he.symm

/-- In its own buckets, a worker alone leaves what all workers leave one after the other. -/
theorem Spread.record_eq (hps : Spread ps) {order : List ι} (hnodup : order.Nodup)
    (hall : ∀ w, w ∈ order) (T : Bucket → Row) {w : ι} {b : Bucket} (hb : b ∈ bucketsOf ps w) :
    L.record (ps w) T b = L.record (order.flatMap ps) T b := by
  obtain ⟨h, hh, rfl⟩ := hb
  refine (Buckets.run_flatMap_apply _ T (fun w' hne x hx => ?_) hnodup (hall w)).symm
  exact hps w' w hne x hx h hh

/-- Owners with regions of their own, one for each bucket, make up a table. -/
theorem exists_table {κ : Type} (own : κ → Set Bucket) (R : κ → Set (Bucket ⊕ Addr))
    (nodes : κ → Bucket → List Addr) {target : Bucket → Row} {m : Memory}
    (hchains : ∀ o, Chains (own o) (nodes o) m) (hregion : ∀ o, sites (own o) (nodes o) ⊆ R o)
    (hdisj : ∀ o o', o ≠ o' → Disjoint (R o) (R o'))
    (htarget : ∀ o, ∀ b ∈ own o, table m (nodes o) b = target b) (hcover : ∀ b, ∃ o, b ∈ own o) :
    ∃ nodes, Chains Set.univ nodes m ∧ table m nodes = target := by
  choose owner howner using hcover
  refine ⟨fun b => nodes (owner b) b, ⟨fun b _ => ?_, fun b _ => ?_, fun b _ b' _ hne => ?_⟩, ?_⟩
  · exact (hchains (owner b)).linked b (howner b)
  · exact (hchains (owner b)).nodup b (howner b)
  · by_cases he : owner b = owner b'
    · have hdisjoint := (hchains (owner b)).disjoint b (howner b) b' (he ▸ howner b') hne
      rwa [he] at hdisjoint ⊢
    · intro f hf hf'
      have hmem : ∀ b, f ∈ nodes (owner b) b → Sum.inr f ∈ R (owner b) := fun b hf =>
        hregion (owner b) (inr_mem_sites.mpr ⟨b, howner b, hf⟩)
      exact Set.disjoint_left.mp (hdisj _ _ he) (hmem b hf) (hmem b' hf')
  · funext b
    exact htarget (owner b) b (howner b)

/-- The buckets of finished workers are at their targets, and the others as they were. -/
theorem table_of_separated {own : ι → Set Bucket} {target : Bucket → Row} {C N : ι → ℕ}
    {R : ι → Set (Bucket ⊕ Addr)} {nodes₀ : Bucket → List Addr} {m₀ : Memory}
    {s : State ι Addr Label Field.Val}
    (h : Separated Field.zero Field.site (fun w => spec L (own w) target (C w))
      (sites {b | ∀ w, b ∉ own w} nodes₀) m₀ N R s)
    (hnodes₀ : Chains {b | ∀ w, b ∉ own w} nodes₀ m₀)
    (htarget : ∀ b, (∀ w, b ∉ own w) → table m₀ nodes₀ b = target b) (hs : Finished s) :
    ∃ nodes, Chains Set.univ nodes s.mem ∧ table s.mem nodes = target := by
  have hdone : ∀ w, ∃ nodes, Holds L (own w) (R w) nodes s.mem ∧
      ∀ b ∈ own w, table s.mem nodes b = target b := by
    intro w
    have hsafe := h.safe w
    rw [hs w] at hsafe
    obtain ⟨-, m, hm, nodes, hholds, hT⟩ := hsafe
    refine ⟨nodes, holds_of_locally hm hholds, fun b hb => ?_⟩
    rw [table_agreeOn (hm.mono hholds.region) hb, hT b hb]
  choose nodes hholds hT using hdone
  -- the owners are the workers, and nobody
  let own' : Option ι → Set Bucket := fun o => o.elim {b | ∀ w, b ∉ own w} own
  let R' : Option ι → Set (Bucket ⊕ Addr) := fun o => o.elim (sites {b | ∀ w, b ∉ own w} nodes₀) R
  let nodes' : Option ι → Bucket → List Addr := fun o => o.elim nodes₀ nodes
  refine exists_table own' R' nodes' ?_ ?_ ?_ ?_ ?_
  · rintro (_ | w)
    · exact hnodes₀.congr h.frame
    · exact (hholds w).chains
  · rintro (_ | w)
    · exact subset_rfl
    · exact (hholds w).region
  · rintro (_ | w) (_ | w') hne
    · exact absurd rfl hne
    · exact (h.frame_disjoint w').symm
    · exact h.frame_disjoint w
    · exact h.disjoint w w' fun he => hne (congrArg some he)
  · rintro (_ | w) b hb
    · exact (table_agreeOn h.frame hb).trans (htarget b hb)
    · exact hT w b hb
  · intro b
    by_cases hb : ∃ w, b ∈ own w
    · obtain ⟨w, hb⟩ := hb
      exact ⟨some w, hb⟩
    · exact ⟨none, not_exists.mp hb⟩

/-- The workers might as well run one after the other. -/
structure Serializable [DecidableEq ι] (L : Layout) (addr : Bucket × Nat ↪ Addr)
    (ps : ι → List Hash) : Prop where
  /-- no interleaving goes on for ever -/
  bounded : ∃ N, ∀ acts s, Transition.run L.step (L.launch addr ps) acts = some s → acts.length ≤ N
  /-- a worker that has not come to its end can go on -/
  progress : ∀ acts s, Transition.run L.step (L.launch addr ps) acts = some s →
    ∀ w, s.code w ≠ .halt → ∃ f, (L.step s (w, f)).isSome
  /-- and once all have, the table is the one of the packets of one worker after the other, in any
  order of the workers -/
  final : ∀ acts s, Transition.run L.step (L.launch addr ps) acts = some s → Finished s →
    ∀ order : List ι, order.Nodup → (∀ w, w ∈ order) →
      ∃ nodes, Chains Set.univ nodes s.mem ∧
        table s.mem nodes = L.record (order.flatMap ps) fun _ => L.init

/-- **The workers need no lock** when no two of them receive hashes with the same lower half. -/
theorem serializable_of_spread [Fintype ι] [DecidableEq ι] (L : Layout)
    (addr : Bucket × Nat ↪ Addr) (ps : ι → List Hash) (hps : Spread ps) :
    Serializable L addr ps := by
  have hsep := fun (order : List ι) (hnodup : order.Nodup) (hall : ∀ w, w ∈ order) =>
    separated_launch L addr ps (bucketsOf ps) (L.record (order.flatMap ps) fun _ => L.init)
      (fun _ _ hne => hps.disjoint hne) (fun _ h hh => ⟨h, hh, rfl⟩)
      (fun _ _ hb => hps.record_eq hnodup hall _ hb)
  have hany := hsep Finset.univ.toList (Finset.nodup_toList _) fun w => by simp
  constructor
  · refine ⟨∑ w, (budget (chainBound L (ps w)) (ps w) + 1), fun acts s hrun => ?_⟩
    obtain ⟨N, R, -, hle⟩ := hany.run safe_label hrun
    exact (Nat.le_add_right _ _).trans hle
  · intro acts s hrun w hw
    obtain ⟨N, R, h, -⟩ := hany.run safe_label hrun
    exact h.progress hw
  · intro acts s hrun hs order hnodup hall
    obtain ⟨N, R, h, -⟩ := (hsep order hnodup hall).run safe_label hrun
    refine table_of_separated h (chains_portInit L addr _) (fun b hb => ?_) hs
    rw [table_portInit, Layout.record, Buckets.run_apply_of_forall_ne]
    intro x hx he
    obtain ⟨w, -, hx⟩ := List.mem_flatMap.mp hx
    exact hb w ⟨x, hx, he⟩

/-- An allocator that returns one node behind the other, bucket by bucket. -/
def oneByOne : Bucket × Nat ↪ Addr where
  toFun p := p.2 * flowNum + p.1
  inj' := by
    rintro ⟨b, i⟩ ⟨b', j⟩ h
    have hb : b.val < 65536 := b.isLt
    have hb' : b'.val < 65536 := b'.isLt
    have h : i * 65536 + b.val = j * 65536 + b'.val := h
    rw [Prod.mk.injEq, Fin.ext_iff]
    omega

def twoWorkers : Fin 2 → List Hash
  | 0 => [0x00010001#32, 0x00020001#32]
  | 1 => [0x00010002#32]

theorem spread_twoWorkers : Spread twoWorkers := by
  have hindex : ∀ w, ∀ h ∈ twoWorkers w, (indexL h).val = w.val + 1 := by
    intro w h hh
    rw [indexL_val]
    match w, hh with
    | 0, hh =>
        rcases List.mem_pair.mp hh with rfl | rfl
        · rfl
        · rfl
    | 1, hh =>
        rw [List.mem_singleton.mp hh]
        rfl
  intro w w' hne h hh h' hh' he
  have hval := congrArg Fin.val he
  rw [hindex w h hh, hindex w' h' hh'] at hval
  exact hne (Fin.ext (by omega))

theorem serializable_of_spread_two_workers : Serializable .hashList oneByOne twoWorkers :=
  serializable_of_spread .hashList oneByOne twoWorkers spread_twoWorkers

/-! ## The loops -/

theorem linkedListPacket_off (g : BitVec 64) (t : Tag) (es : List (FlowEntry 32 Unit)) :
    linkedListPacket (LinkedListIpg.off 32) g t es = linkedListPacket (LinkedListIpg.off 32) 0 t es := by
  induction es with
  | nil => rfl
  | cons f next ih =>
      rw [linkedListPacket, linkedListPacket, ih]

theorem hashListPacket_off (g : BitVec 64) (t : Tag) (e : HashList.PktCount 32 Unit) :
    HashList.packet (HashList.Ipg.off 32) g t e = HashList.packet (HashList.Ipg.off 32) 0 t e := by
  have hwalk : ∀ es, HashList.walk (HashList.Ipg.off 32) g t es =
      HashList.walk (HashList.Ipg.off 32) 0 t es := by
    intro es
    induction es with
    | nil => rfl
    | cons f next ih =>
        rw [HashList.walk, HashList.walk, ih]
  rw [HashList.packet, HashList.packet, hwalk]
  rfl

/-- What the rows of a layout hold of a bucket of its model. -/
theorem record_view {E : Type} (L : Layout) (packet : BitVec 64 → Tag → E → E) (view : Row → E)
    (hview : ∀ g t r, view (L.packet t r) = packet g t (view r)) (ps : List (BitVec 64 × Hash))
    (T : Bucket → Row) (b : Bucket) :
    view (L.record (ps.map Prod.snd) T b) = Loop.recordAll packet ps (fun b => view (T b)) b := by
  rw [Layout.record, Loop.recordAll, Buckets.run_apply, Buckets.run_apply, List.filter_map,
    List.foldl_map]
  exact (List.foldl_hom view fun r p => (hview p.1 (indexH p.2) r).symm).symm

variable {n : Nat}

/-- **The rows are the buckets of the loops**: what the workers leave is what the receive loops
leave that are modelled packet by packet. -/
theorem record_eq_table (bursts : List (Fin n × List Hash)) (b : Bucket) :
    (doubleHash (SlotIpg.off 32) bursts).table b =
        (Layout.doubleHash.record (Loop.received bursts) (fun _ => Layout.doubleHash.init) b).toPktCount ∧
      (linkedList (LinkedListIpg.off 32) bursts).table b =
        (Layout.linkedList.record (Loop.received bursts) (fun _ => Layout.linkedList.init) b).flows ∧
      (hashList (HashList.Ipg.off 32) bursts).table b =
        (Layout.hashList.record (Loop.received bursts) (fun _ => Layout.hashList.init) b).hashList := by
  refine ⟨?_, ?_, ?_⟩
  · rw [doubleHash, Loop.table_foldl_burst, ← Loop.map_snd_met .before 0,
      record_view .doubleHash (DoubleHash.packet (SlotIpg.off 32)) Row.toPktCount fun _ _ _ => rfl]
    rfl
  · rw [linkedList, Loop.table_foldl_burst, ← Loop.map_snd_met .after 0,
      record_view .linkedList (linkedListPacket (LinkedListIpg.off 32)) Row.flows
        fun g t r => (linkedListPacket_off g t r.flows).symm]
    rfl
  · rw [hashList, Loop.table_foldl_burst, ← Loop.map_snd_met .before 0,
      record_view .hashList (HashList.packet (HashList.Ipg.off 32)) Row.hashList
        fun g t r => (hashListPacket_off g t r.hashList).symm]
    rfl

end Heap
end RunToCompletion
end FloWatcher
