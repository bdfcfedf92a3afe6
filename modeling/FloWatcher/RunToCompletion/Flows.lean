import FloWatcher.RunToCompletion.Contents
import FloWatcher.Scripts.FlowLevel

/-!
# Do the tables count flows?

What a flow table is for: to attribute to every flow the number of its packets, to keep flows
apart, and to know how many there are (`ExactFlows`); `scripts/flow-level.lua` does. The two
layouts with chains do so on some traffic only. They mark a free entry by the tag `0`, which is
also the upper half of one hash in each bucket: a packet of that flow leaves its entry free, and
the next new flow of the bucket takes over the entry with the packets counted in it. That this
does not happen is the exact condition (`exactFlows_iff`).
-/

namespace FloWatcher
namespace RunToCompletion

open FirstFit FlowLevel Loop

variable {n : Nat} {S S' : Type}

/-! ## Exact flow counts -/

/-- A flow table that went through the lists of entries `es k` (after `k` packets, per bucket)
while it received `hs`, and whose handler then printed `printed` flows, has counted the flows
exactly. -/
structure ExactFlows (hs : List Hash) (es : Nat → Bucket → List (Tag × BitVec 32))
    (printed : BitVec 64) : Prop where
  /-- every flow is attributed the number of its packets, modulo the width of the counters -/
  attributes : ∀ h, Attributes (es hs.length (indexL h)) (indexH h) (hs.count h : BitVec 32)
  /-- as the script does -/
  script : ∀ h, (dumpSlave hs (indexL h) (indexH h)).getD 0 = hs.count h
  /-- packets recorded in the same entry of the same bucket belong to the same flow -/
  unmixed : ∀ pre h post pre' h' post', hs = pre ++ h :: post → hs = pre' ++ h' :: post' →
    indexL h = indexL h' →
    place (indexH h) (es pre.length (indexL h)) =
      place (indexH h') (es pre'.length (indexL h')) → h = h'
  /-- as many flows are printed as there are -/
  flows : hs.length < 2 ^ 32 → printed.toNat = hs.toFinset.card

theorem unmixed_of_exactFlows {hs : List Hash} {es : Nat → Bucket → List (Tag × BitVec 32)}
    {printed : BitVec 64} {k : Nat}
    (hes : ∀ i b, es i b = bumps (bucketTags b (hs.take i)) (List.replicate k (0, 0)))
    (h : ExactFlows hs es printed) (b : Bucket) :
    Unmixed (List.replicate k ((0, 0) : Tag × BitVec 32)) (bucketTags b hs) := by
  intro pre s post pre' t post' hs1 hs2 hplace
  obtain ⟨xpre, x, xpost, hx, rfl, rfl, rfl⟩ := Buckets.exists_split_of_tagsOf hs1
  obtain ⟨ypre, y, ypost, hy, hb, rfl, rfl⟩ := Buckets.exists_split_of_tagsOf hs2
  have hxpre : hs.take xpre.length = xpre := by rw [hx, List.take_left]
  have hypre : hs.take ypre.length = ypre := by rw [hy, List.take_left]
  have hxy : x = y := by
    apply h.unmixed xpre x xpost ypre y ypost hx hy hb.symm
    rw [hes, hes, hxpre, hypre, hb]
    exact hplace
  rw [hxy]

theorem exactFlows_of_noLateClaim {hs : List Hash} {es : Nat → Bucket → List (Tag × BitVec 32)}
    {printed : BitVec 64} {k : Nat}
    (hes : ∀ i b, es i b = bumps (bucketTags b (hs.take i)) (List.replicate k (0, 0)))
    (hprinted : printed = (totals (es hs.length)).flows)
    (h : ∀ b, NoLateClaim (bucketTags b hs)) : ExactFlows hs es printed where
  attributes x := by
    rw [hes, List.take_length, ← Buckets.count_tagsOf hash_ext x hs]
    exact attributes_bumps (h (indexL x)) k (indexH x)
  script := getD_dumpSlave hs
  unmixed := by
    intro pre x post pre' y post' hx hy hb hplace
    have hxpre : hs.take pre.length = pre := by rw [hx, List.take_left]
    have hypre : hs.take pre'.length = pre' := by rw [hy, List.take_left]
    have hsplit : ∀ {zs us : List Hash} {z : Hash}, hs = zs ++ z :: us →
        bucketTags (indexL z) hs =
          bucketTags (indexL z) zs ++ indexH z :: bucketTags (indexL z) us := by
      intro zs us z hz
      rw [hz, bucketTags, Buckets.tagsOf_append, Buckets.tagsOf_cons_self]
      rfl
    have htags : indexH x = indexH y := by
      have hy' := hsplit hy
      rw [← hb] at hy'
      rw [hes, hes, hxpre, hypre, ← hb] at hplace
      exact (unmixed_iff (bucketTags (indexL x) hs) k).mpr (h _) _ _ _ _ _ _ (hsplit hx) hy' hplace
    exact hash_ext x y hb htags
  flows := by
    intro hlen
    have hcard : ∀ b, (es hs.length b).countP (fun e => e.2 ≠ 0) =
        (bucketTags b hs).toFinset.card := by
      intro b
      rw [hes, List.take_length]
      apply countP_bumps (h b)
      intro m hpos hm hzero
      have hle : (bucketTags b hs).length ≤ hs.length := by
        rw [bucketTags, Buckets.tagsOf, List.length_map]
        exact List.length_filter_le _ _
      have hmod := congrArg BitVec.toNat hzero
      rw [BitVec.natCast_eq_ofNat, BitVec.toNat_ofNat, Nat.mod_eq_of_lt (by omega)] at hmod
      exact hpos.ne' hmod
    -- a flow is a tag in a bucket, so the buckets together count each flow once
    have hsum : ∑ b, (es hs.length b).countP (fun e => e.2 ≠ 0) = hs.toFinset.card := by
      rw [Finset.sum_congr rfl fun b _ => hcard b]
      exact Buckets.sum_card_tagsOf hash_ext hs
    have hle : hs.toFinset.card ≤ hs.length := List.toFinset_card_le hs
    rw [hprinted, totals_flows, hsum, BitVec.natCast_eq_ofNat, BitVec.toNat_ofNat,
      Nat.mod_eq_of_lt (by omega)]

theorem exactFlows_iff_noLateClaim {hs : List Hash}
    {es : Nat → Bucket → List (Tag × BitVec 32)} {printed : BitVec 64} (k : Nat)
    (hes : ∀ i b, es i b = bumps (bucketTags b (hs.take i)) (List.replicate k (0, 0)))
    (hprinted : printed = (totals (es hs.length)).flows) :
    ExactFlows hs es printed ↔ ∀ b, NoLateClaim (bucketTags b hs) :=
  ⟨fun h b => (unmixed_iff _ k).mp (unmixed_of_exactFlows hes h b),
    exactFlows_of_noLateClaim hes hprinted⟩

/-- **When the chains count flows exactly**: in no bucket does a nonzero tag arrive for the first
time after a packet with tag `0`. -/
theorem exactFlows_iff (ipg : LinkedListIpg 32 S) (ipg' : HashList.Ipg 32 S')
    (bursts : List (Fin n × List Hash)) :
    (ExactFlows (received bursts) (linkedListCounts ipg bursts)
        (linkedListHandler (linkedList ipg bursts).table).flows ↔
      ∀ b, NoLateClaim (bucketTags b (received bursts))) ∧
    (ExactFlows (received bursts) (hashListCounts ipg' bursts)
        (hashListHandler (hashList ipg' bursts).table).flows ↔
      ∀ b, NoLateClaim (bucketTags b (received bursts))) := by
  constructor
  · apply exactFlows_iff_noLateClaim LinkedList.entryPerFlow (linkedListCounts_eq ipg bursts)
    rw [linkedListHandler_eq, linkedListCounts_length]
  · apply exactFlows_iff_noLateClaim (HashList.entryPerFlow + 2) (hashListCounts_eq ipg' bursts)
    rw [hashListHandler_eq, hashListCounts_length]

/-- Two flows of bucket `0`, the first with tag `0`: the second takes over its entry. -/
theorem not_exactFlows_zero_tag :
    let bursts : List (Fin 1 × List Hash) := [(0, [0x00000000#32, 0x00010000#32])]
    ¬ ExactFlows (received bursts) (linkedListCounts (LinkedListIpg.off 32) bursts)
        (linkedListHandler (linkedList (LinkedListIpg.off 32) bursts).table).flows ∧
      ¬ ExactFlows (received bursts) (hashListCounts (HashList.Ipg.off 32) bursts)
        (hashListHandler (hashList (HashList.Ipg.off 32) bursts).table).flows := by
  intro bursts
  -- the entry of the second flow counts a packet too many
  have hmixed : ∀ {es : Nat → Bucket → List (Tag × BitVec 32)} {printed},
      (1, 1) ∉ es 2 (indexL 0x00010000#32) → ¬ ExactFlows (received bursts) es printed := by
    intro es printed hnot h
    have hattr := h.attributes 0x00010000#32
    rw [show (received bursts).length = 2 from rfl, show indexH 0x00010000#32 = 1 by decide,
      show (received bursts).count 0x00010000#32 = 1 by decide] at hattr
    rcases hattr with ⟨i, hi, -⟩ | ⟨h0, -⟩
    · exact hnot (List.mem_of_getElem? hi)
    · exact absurd h0 (by decide)
  have hlinked : linkedListCounts (LinkedListIpg.off 32) bursts 2 (indexL 0x00010000#32) =
      [(1, 2), (0, 0)] := by decide
  have hhash : hashListCounts (HashList.Ipg.off 32) bursts 2 (indexL 0x00010000#32) =
      [(1, 2), (0, 0), (0, 0)] := by decide
  constructor
  · apply hmixed
    rw [hlinked]
    decide
  · apply hmixed
    rw [hhash]
    decide

end RunToCompletion
end FloWatcher
