import FloWatcher.Loop
import FloWatcher.Table.DoubleHash

/-!
# The counting threads of the pthread program

`lcore_main_count_double_hash` keeps the `DOUBLE_HASH` buckets with 64-bit counters. Its struct
has the third counter of the other two programs, but its loop does not have their last branch: a
packet that belongs to neither slot is added to `gCtr` and to no counter of the table. Which
packets these are is decided by the packets before them (`FindsSlot`), and the table misses no
packet exactly when all of them find a slot (`recorded_iff`).
-/

namespace FloWatcher
namespace Pthread

open FirstFit Loop

variable {n : Nat} {S : Type}

/-! ## The masks -/

/-- `bits = log(FLOW_NUM)/log(2)` -/
def bits : Nat := Nat.log2 flowNum

/-- `while (i < bits) { result |= (1<<i); i++; }` -/
def result : BitVec 32 := (List.range bits).foldl (fun result i => result ||| 1#32 <<< i) 0

/-- `b1 = result << bits` -/
def b1 : BitVec 32 := result <<< bits

theorem result_eq : result = 0xffff#32 := by decide

theorem b1_eq : b1 = 0xffff0000#32 := by decide

/-- The masks computed at start are the constants of the other programs, so `index_l` and
`index_h` are theirs. -/
theorem indexL_val_eq (h : Hash) : (h &&& result).toNat = (indexL h).val := by
  rw [result_eq]
  rfl

theorem indexH_eq_masked (h : Hash) :
    UInt16.ofBitVec (((h &&& b1) >>> bits).setWidth 16) = indexH h := by
  rw [b1_eq]
  rfl

/-! ## The loop -/

/-- One packet of `lcore_main_count_double_hash`, in its bucket. There is no last `else`. -/
def packet (ipg : SlotIpg 64 S) (global : BitVec 64) (indexH : Tag)
    (e : DoubleHash.PktCount 64 S) : DoubleHash.PktCount 64 S :=
  match e.toSlots.update ipg global indexH with
  | some s => { e with toSlots := s }
  | none => e

/-- The counting threads, with the bursts that they dequeue in the order in which they process
them; the counters are `gCtr`. -/
def lcoreMainCountDoubleHash (ipg : SlotIpg 64 S) (bursts : List (Fin n × List Hash)) :
    State n (DoubleHash.PktCount 64 S) :=
  bursts.foldl (burst .after (packet ipg))
    { re := 0, table := fun _ => DoubleHash.PktCount.init ipg }

/-- Every packet added to `gCtr` is in a counter of the table. -/
def AllRecorded (s : State n (DoubleHash.PktCount 64 S)) : Prop :=
  ∑ b, (s.table b).total = ∑ q, s.re q

/-! ## Which packets find a slot -/

/-- After the packets `pre`, the packet `h` finds a slot: fewer than two tags have taken one in
its bucket, or its own tag was among the first two. -/
def FindsSlot (pre : List Hash) (h : Hash) : Prop :=
  (arrivals (bucketTags (indexL h) pre)).length < 2 ∨
    indexH h ∈ (arrivals (bucketTags (indexL h) pre)).take 2

instance (pre : List Hash) (h : Hash) : Decidable (FindsSlot pre h) :=
  inferInstanceAs (Decidable (_ ∨ _))

/-- The slots are those of the complete update. -/
theorem toSlots_packet (ipg : SlotIpg 64 S) (global : BitVec 64) (t : Tag)
    {e d : DoubleHash.PktCount 64 S} (h : e.toSlots = d.toSlots) :
    (packet ipg global t e).toSlots = (DoubleHash.packet ipg global t d).toSlots := by
  unfold packet DoubleHash.packet
  rw [h]
  cases d.toSlots.update ipg global t with
  | some s => rfl
  | none => exact h

def table (ipg : SlotIpg 64 S) (ps : List (BitVec 64 × Hash)) : Bucket → DoubleHash.PktCount 64 S :=
  recordAll (packet ipg) ps fun _ => DoubleHash.PktCount.init ipg

theorem table_lcoreMainCountDoubleHash (ipg : SlotIpg 64 S)
    (bursts : List (Fin n × List Hash)) :
    (lcoreMainCountDoubleHash ipg bursts).table = table ipg (met .after 0 bursts) := by
  rw [lcoreMainCountDoubleHash, table_foldl_burst]
  rfl

theorem toSlots_table (ipg : SlotIpg 64 S) (ps : List (BitVec 64 × Hash)) (b : Bucket) :
    (table ipg ps b).toSlots =
      (recordAll (DoubleHash.packet ipg) ps (fun _ => DoubleHash.PktCount.init ipg) b).toSlots :=
  rel_recordAll (fun e d : DoubleHash.PktCount 64 S => e.toSlots = d.toSlots) _ _
    (fun g t _ _ h => toSlots_packet ipg g t h) ps _ _ (fun _ => rfl) b

/-- The third counter is not used. -/
theorem ctr2_table (ipg : SlotIpg 64 S) (ps : List (BitVec 64 × Hash)) (b : Bucket) :
    (table ipg ps b).ctr2 = 0 := by
  apply rel_recordAll (fun e _ : DoubleHash.PktCount 64 S => e.ctr2 = 0) _ (packet ipg) ?_ ps _
    (fun _ => DoubleHash.PktCount.init ipg) (fun _ => rfl)
  intro g t e _ h
  unfold packet
  cases e.toSlots.update ipg g t with
  | some s => exact h
  | none => exact h

/-- The slots belong to the first two nonzero tags to arrive. -/
theorem table_tags (ipg : SlotIpg 64 S) (ps : List (BitVec 64 × Hash)) (b : Bucket) :
    (table ipg ps b).hiF1 = (arrivals (bucketTags b (ps.map Prod.snd)))[0]?.getD 0 ∧
      (table ipg ps b).hiF2 = (arrivals (bucketTags b (ps.map Prod.snd)))[1]?.getD 0 := by
  have hslots := toSlots_table ipg ps b
  have hf := DoubleHash.abstracts_recordAll ipg (HashList.Ipg.off 64) 1 ps b
  have hcounts := HashList.counts_recordAll (HashList.Ipg.off 64) Nat.one_pos ps b
  generalize recordAll (HashList.packet (HashList.Ipg.off 64)) ps _ b = f at hf hcounts
  have htag : ∀ i, (entryAt f.counts i).1 =
      (arrivals (bucketTags b (ps.map Prod.snd)))[i]?.getD 0 := by
    intro i
    rw [hcounts, entryAt_bumps, node]
    cases (arrivals (bucketTags b (ps.map Prod.snd)))[i]? <;> rfl
  have h1 : (table ipg ps b).hiF1 = f.hiF1 := (congrArg Slots.hiF1 hslots).trans hf.hiF1
  have h2 : (table ipg ps b).hiF2 = f.hiF2 := (congrArg Slots.hiF2 hslots).trans hf.hiF2
  rw [h1, h2]
  exact ⟨htag 0, htag 1⟩

/-- A packet is recorded exactly when it finds a slot. -/
theorem update_eq_none_iff (ipg : SlotIpg 64 S) (ps : List (BitVec 64 × Hash)) (global : BitVec 64)
    (h : Hash) :
    (table ipg ps (indexL h)).toSlots.update ipg global (indexH h) = none ↔
      ¬ FindsSlot (ps.map Prod.snd) h := by
  obtain ⟨h1, h2⟩ := table_tags ipg ps (indexL h)
  have hnone : ∀ s : Slots 64 S, s.update ipg global (indexH h) = none ↔
      ¬ (s.hiF1 = 0 ∨ s.hiF1 = indexH h) ∧ ¬ (s.hiF2 = 0 ∨ s.hiF2 = indexH h) := by
    intro s
    rcases s.update_cases ipg global (indexH h) with ⟨c, hs⟩ | ⟨-, c, hs⟩ | ⟨c1, c2, hs⟩
    · rw [hs]
      exact ⟨fun hf => (nomatch hf), fun hf => absurd c hf.1⟩
    · rw [hs]
      exact ⟨fun hf => (nomatch hf), fun hf => absurd c hf.2⟩
    · exact ⟨fun _ => ⟨c1, c2⟩, fun _ => hs⟩
  have hne : ∀ t ∈ arrivals (bucketTags (indexL h) (ps.map Prod.snd)), t ≠ 0 :=
    fun t ht => (mem_arrivals.mp ht).1
  rw [hnone, h1, h2, FindsSlot]
  match hseen : arrivals (bucketTags (indexL h) (ps.map Prod.snd)) with
  | [] => simp
  | [t] => simp
  | t :: u :: rest =>
      rw [hseen] at hne
      have ht := hne t (by simp)
      have hu := hne u (by simp)
      simp [ht, hu, eq_comm]

/-- One more packet is in the table, unless it found no slot. -/
theorem sum_total_concat (ipg : SlotIpg 64 S) (ps : List (BitVec 64 × Hash))
    (p : BitVec 64 × Hash) :
    ∑ b, (table ipg (ps ++ [p]) b).total =
      ∑ b, (table ipg ps b).total + if FindsSlot (ps.map Prod.snd) p.2 then 1 else 0 := by
  have hpacket : (packet ipg p.1 (indexH p.2) (table ipg ps (indexL p.2))).total =
      (table ipg ps (indexL p.2)).total + if FindsSlot (ps.map Prod.snd) p.2 then 1 else 0 := by
    have hnone := update_eq_none_iff ipg ps p.1 p.2
    unfold packet
    generalize table ipg ps (indexL p.2) = e at hnone ⊢
    rcases e.toSlots.update_cases ipg p.1 (indexH p.2) with ⟨-, hs⟩ | ⟨-, -, hs⟩ | ⟨-, -, hs⟩
    · rw [hs] at hnone ⊢
      rw [if_pos (by_contra fun hf => Option.some_ne_none _ (hnone.mpr hf))]
      simp only [DoubleHash.PktCount.total]
      ring
    · rw [hs] at hnone ⊢
      rw [if_pos (by_contra fun hf => Option.some_ne_none _ (hnone.mpr hf))]
      simp only [DoubleHash.PktCount.total]
      ring
    · rw [hs] at hnone ⊢
      rw [if_neg (hnone.mp rfl), add_zero]
  have hstep : table ipg (ps ++ [p]) =
      Function.update (table ipg ps) (indexL p.2)
        (packet ipg p.1 (indexH p.2) (table ipg ps (indexL p.2))) := by
    rw [table, recordAll, Buckets.run_append]
    rfl
  rw [hstep, Buckets.sum_update DoubleHash.PktCount.total, hpacket, add_right_comm,
    Finset.add_sum_erase _ (fun b => (table ipg ps b).total) (Finset.mem_univ _)]

/-! ## How many packets are recorded -/

/-- How many of the packets `us` find a slot when they follow `pre`. -/
def recorded (pre : List Hash) : List Hash → Nat
  | [] => 0
  | h :: us => (if FindsSlot pre h then 1 else 0) + recorded (pre ++ [h]) us

theorem recorded_append (pre us vs : List Hash) :
    recorded pre (us ++ vs) = recorded pre us + recorded (pre ++ us) vs := by
  induction us generalizing pre with
  | nil => simp [recorded]
  | cons h us ih =>
      rw [List.cons_append, recorded, ih, recorded, List.append_assoc, Nat.add_assoc]
      rfl

theorem recorded_le_length (pre us : List Hash) : recorded pre us ≤ us.length := by
  induction us generalizing pre with
  | nil => exact le_rfl
  | cons h us ih =>
      have := ih (pre ++ [h])
      rw [recorded, List.length_cons]
      split <;> omega

/-- All are recorded exactly when each finds a slot. -/
theorem recorded_eq_length_iff (pre us : List Hash) :
    recorded pre us = us.length ↔
      ∀ vs h ws, us = vs ++ h :: ws → FindsSlot (pre ++ vs) h := by
  constructor
  · rintro heq vs h ws rfl
    by_contra hnot
    rw [recorded_append, recorded, if_neg hnot, List.length_append, List.length_cons] at heq
    have := recorded_le_length pre vs
    have := recorded_le_length (pre ++ vs ++ [h]) ws
    omega
  · intro hall
    induction us generalizing pre with
    | nil => rfl
    | cons h us ih =>
        have hh : FindsSlot pre h := by simpa using hall [] h us rfl
        have hus : recorded (pre ++ [h]) us = us.length := by
          apply ih
          intro vs u ws hsplit
          have := hall (h :: vs) u ws (by rw [hsplit]; rfl)
          rwa [List.append_assoc]
        rw [recorded, if_pos hh, hus, List.length_cons, Nat.add_comm]

/-- **What the table holds**: the packets that found a slot. -/
theorem sum_total_table (ipg : SlotIpg 64 S) (ps : List (BitVec 64 × Hash)) :
    ∑ b, (table ipg ps b).total = (recorded [] (ps.map Prod.snd) : BitVec 64) := by
  induction ps using List.reverseRecOn with
  | nil =>
      show ∑ b : Bucket, (DoubleHash.PktCount.init ipg).total = 0
      apply Finset.sum_eq_zero
      intro b _
      rfl
  | append_singleton ps p ih =>
      have hlast : recorded ([] ++ ps.map Prod.snd) ([p].map Prod.snd) =
          if FindsSlot (ps.map Prod.snd) p.2 then 1 else 0 := Nat.add_zero _
      rw [sum_total_concat, ih, List.map_append, recorded_append, Nat.cast_add, hlast,
        Nat.cast_ite, Nat.cast_one, Nat.cast_zero]

theorem allRecorded_iff (ipg : SlotIpg 64 S) (bursts : List (Fin n × List Hash)) :
    AllRecorded (lcoreMainCountDoubleHash ipg bursts) ↔
      (recorded [] (received bursts) : BitVec 64) = ((received bursts).length : BitVec 64) := by
  have hre : ∑ q, (lcoreMainCountDoubleHash ipg bursts).re q =
      ((received bursts).length : BitVec 64) := by
    rw [lcoreMainCountDoubleHash, sum_re_foldl_burst]
    simp
  rw [AllRecorded, hre, table_lcoreMainCountDoubleHash, sum_total_table, map_snd_met]

/-- **When the pthread program records every packet it counts**: after every burst the table
accounts for `gCtr` exactly when each packet finds a slot. Bursts have at most `burst_size`
packets. -/
theorem allRecorded_prefix_iff (ipg : SlotIpg 64 S) (burstSize : UInt16)
    (bursts : List (Fin n × List Hash)) (hsize : ∀ b ∈ bursts, b.2.length ≤ burstSize.toNat) :
    (∀ pre, pre <+: bursts → AllRecorded (lcoreMainCountDoubleHash ipg pre)) ↔
      ∀ pre h post, received bursts = pre ++ h :: post → FindsSlot pre h := by
  have hall : recorded [] (received bursts) = (received bursts).length ↔
      ∀ pre h post, received bursts = pre ++ h :: post → FindsSlot pre h :=
    recorded_eq_length_iff [] (received bursts)
  rw [← hall]
  constructor
  · -- burst by burst: modulo `2^64` no burst can hide a packet
    intro hrec
    clear hall
    induction bursts using List.reverseRecOn with
    | nil => rfl
    | append_singleton bursts b ih =>
        have hbs := ih (fun c hc => hsize c (List.mem_append_left _ hc))
          fun pre hpre => hrec pre (hpre.trans (List.prefix_append _ _))
        have hsplit : received (bursts ++ [b]) = received bursts ++ b.2 := by
          simp [received]
        have hlast := (allRecorded_iff ipg _).mp (hrec _ (List.prefix_refl _))
        have hlt := burstSize.toNat_lt
        have hlen := hsize b (by simp)
        have hle := recorded_le_length (received bursts) b.2
        rw [hsplit, recorded_append, List.nil_append, hbs, List.length_append, Nat.cast_add,
          Nat.cast_add, add_right_inj, BitVec.natCast_eq_ofNat, BitVec.natCast_eq_ofNat] at hlast
        have hmod := congrArg BitVec.toNat hlast
        rw [BitVec.toNat_ofNat, BitVec.toNat_ofNat, Nat.mod_eq_of_lt (by omega),
          Nat.mod_eq_of_lt (by omega)] at hmod
        rw [hsplit, recorded_append, List.nil_append, hbs, hmod, List.length_append]
  · rintro hfull pre ⟨post, rfl⟩
    have hsplit : received (pre ++ post) = received pre ++ received post := by
      simp [received]
    rw [hsplit, recorded_append, List.length_append, List.nil_append] at hfull
    have h1 := recorded_le_length [] (received pre)
    have h2 := recorded_le_length (received pre) (received post)
    rw [allRecorded_iff, show recorded [] (received pre) = (received pre).length by omega]

/-- A burst of two packets of two flows. -/
theorem allRecorded_prefix_iff_two_flows :
    (∀ pre, pre <+: [((0 : Fin 1), [0x00010000#32, 0x00020000#32])] →
      AllRecorded (lcoreMainCountDoubleHash (SlotIpg.off 64) pre)) ↔
    ∀ pre h post, received [((0 : Fin 1), [0x00010000#32, 0x00020000#32])] = pre ++ h :: post →
      FindsSlot pre h :=
  allRecorded_prefix_iff (SlotIpg.off 64) 256 _ (by decide)

/-- Three flows in one bucket: the packet of the third is counted and not recorded. -/
theorem not_allRecorded_three_flows :
    ¬ ∀ pre, pre <+: [((0 : Fin 1), [0x00010000#32, 0x00020000#32, 0x00030000#32])] →
      AllRecorded (lcoreMainCountDoubleHash (SlotIpg.off 64) pre) := by
  intro h
  have hrec := (allRecorded_iff _ _).mp (h _ (List.prefix_refl _))
  exact absurd hrec (by decide)

end Pthread
end FloWatcher
