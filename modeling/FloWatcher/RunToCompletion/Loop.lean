import FloWatcher.FirstFit.Owner
import FloWatcher.Loop
import FloWatcher.Table.DoubleHash
import FloWatcher.Table.LinkedList

/-!
# The receive loops of the run-to-completion program

One worker per RX queue (`RX_RINGS` of them) polls the NIC and counts what it gets. `linked_list`
refreshes `global` after it has counted the burst, the other two before.
-/

namespace FloWatcher
namespace RunToCompletion

open Loop

variable {n : Nat} {S : Type}

/-- The `double_hash` loop, with `FLOW_LEVEL` on. -/
def doubleHash (ipg : SlotIpg 32 S) (bursts : List (Fin n × List Hash)) :
    State n (DoubleHash.PktCount 32 S) :=
  bursts.foldl (burst .before (DoubleHash.packet ipg))
    { re := 0, table := fun _ => DoubleHash.PktCount.init ipg }

/-- `ENTRY_PER_FLOW` of the `LINKED_LIST` build. -/
def LinkedList.entryPerFlow : Nat := 2

def linkedList (ipg : LinkedListIpg 32 S) (bursts : List (Fin n × List Hash)) :
    State n (List (FlowEntry 32 S)) :=
  bursts.foldl (burst .after (linkedListPacket ipg))
    { re := 0, table := fun _ => chainInit 32 ipg.zero LinkedList.entryPerFlow }

/-- `ENTRY_PER_FLOW` of the `HASH_LIST` build. -/
def HashList.entryPerFlow : Nat := 1

def hashList (ipg : HashList.Ipg 32 S) (bursts : List (Fin n × List Hash)) :
    State n (HashList.PktCount 32 S) :=
  bursts.foldl (burst .before (HashList.packet ipg))
    { re := 0, table := fun _ => HashList.PktCount.init ipg HashList.entryPerFlow }

/-- The entries of a `hash_list` bucket, with all their fields, after the packets `ps`. -/
theorem entries_recordAll (ipg : HashList.Ipg 32 S) (ps : List (BitVec 64 × Hash))
    (T : Bucket → HashList.PktCount 32 S) (b : Bucket) :
    (recordAll (HashList.packet ipg) ps T b).entries =
      FirstFit.records (fun p => indexH p.2) (fun p => HashList.loadUpdate ipg p.1 (indexH p.2))
        (1, ipg.zero) (ps.filter (indexL ·.2 = b)) (T b).entries :=
  view_recordAll (HashList.packet ipg) HashList.PktCount.entries _ (HashList.packet_entries ipg) ps
    T b

/-- The packets of flow `h` are those of its tag in its bucket. -/
theorem filter_flow (ps : List (BitVec 64 × Hash)) (h : Hash) :
    (ps.filter (indexL ·.2 = indexL h)).filter (fun p => indexH p.2 = indexH h) =
      ps.filter (·.2 = h) := by
  rw [List.filter_filter]
  apply List.filter_congr
  intro p _
  rw [← Bool.decide_and, decide_eq_decide]
  constructor
  · rintro ⟨hh, hl⟩
    exact hash_ext p.2 h hl hh
  · intro hp
    rw [hp]
    exact ⟨rfl, rfl⟩

/-- The packets of a bucket, split at the first packet of flow `h`. -/
theorem exists_first_packet {ps : List (BitVec 64 × Hash)} {h : Hash}
    (hmem : h ∈ ps.map Prod.snd) :
    ∃ pre x post, ps.filter (indexL ·.2 = indexL h) = pre ++ x :: post ∧ x.2 = h ∧
      (∀ y ∈ pre, indexH y.2 ≠ indexH h) ∧
      ps.filter (·.2 = h) = x :: post.filter (fun p => indexH p.2 = indexH h) := by
  obtain ⟨y, hy, rfl⟩ := List.mem_map.mp hmem
  have hbucket : y ∈ ps.filter (indexL ·.2 = indexL y.2) := List.mem_filter.mpr ⟨hy, by simp⟩
  obtain ⟨pre, x, post, hsplit, hx, hpre⟩ :=
    FirstFit.exists_first (fun p : BitVec 64 × Hash => indexH p.2) ⟨y, hbucket, rfl⟩
  have hxmem : x ∈ ps.filter (indexL ·.2 = indexL y.2) := by
    rw [hsplit]
    simp
  have hxl : indexL x.2 = indexL y.2 := by simpa using (List.mem_filter.mp hxmem).2
  refine ⟨pre, x, post, hsplit, hash_ext x.2 y.2 hxl hx, hpre, ?_⟩
  have hnone : pre.filter (fun p => indexH p.2 = indexH y.2) = [] := by
    apply List.filter_eq_nil_iff.mpr
    intro z hz
    simpa using hpre z hz
  rw [← filter_flow, hsplit, List.filter_append, hnone, List.nil_append,
    List.filter_cons_of_pos (by simpa using hx)]

end RunToCompletion
end FloWatcher
