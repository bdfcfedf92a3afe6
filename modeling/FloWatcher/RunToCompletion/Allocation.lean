import FloWatcher.RunToCompletion.Chains

/-!
# When allocations fail

`port_init` takes every node from `rte_calloc`, which may return `NULL` at any call. For
`LINKED_LIST`, `flow_struct_init` tests the pointer of the first node of a bucket, and then, in its
loop, the node that it appends to in place of the one that it has just obtained. For `HASH_LIST`,
nothing is tested. `prepared_iff` says which failures are handled.
-/

namespace FloWatcher
namespace RunToCompletion
namespace Heap

open Shared

inductive Stop where
  /-- `return -1` -/
  | failed
  /-- a `NULL` pointer is dereferenced -/
  | nullPointer
  deriving DecidableEq

structure Init where
  mem : Memory
  calls : Nat

/-- The node behind a pointer. -/
def deref : Option Addr → Except Stop Addr
  | none => .error .nullPointer
  | some f => .ok f

section Initialisation

variable (succeeds : Nat → Bool)

/-- `rte_calloc`, which succeeds at the calls that `succeeds` lists. The address of a node is the
number of the call that returned it. -/
def rteCalloc (s : Init) : Option Addr × Init :=
  if succeeds s.calls then
    (some s.calls, { mem := calloc s.calls s.mem, calls := s.calls + 1 })
  else (none, { s with calls := s.calls + 1 })

/-- `n` more passes of the `while` loops of `flow_struct_init` and `port_init`, which append nodes
behind `f`. What is tested behind the call is `test`, what is done to a node before `f->next = NULL`
is `clear`. -/
def appendLoop (test : Option Addr → Bool) (clear : Addr → Memory → Memory) :
    Nat → Option Addr → Init → Except Stop Init
  | 0, _, s => .ok s
  | n + 1, f, s =>
      (deref f).bind fun tail =>
        let (p, s) := rteCalloc succeeds s
        let m := set (.next tail) p s.mem
        if test f then .error .failed
        else
          (deref (m (.next tail))).bind fun g =>
            appendLoop test clear n (some g) { s with mem := set (.next g) none (clear g m) }

/-- `flow_struct_init` for bucket `b`. -/
def structBucket (size : Nat) (s : Init) (b : Bucket) : Except Stop Init :=
  let (p, s) := rteCalloc succeeds s
  let m := set (.flows b) p s.mem
  if p = none then .error .failed
  else
    (deref p).bind fun f =>
      let m := set (.nodeCtr f) (0 : BitVec 32) (set (.rssHigh f) (0 : Tag) m)
      -- the pointer that is tested is `f`, not `f->next`
      appendLoop succeeds (fun f => f = none)
        (fun g m => set (.nodeCtr g) (0 : BitVec 32) (set (.rssHigh g) (0 : Tag) m)) (size - 1)
        (some f) { s with mem := set (.next f) none m }

def flowStructInit (size : Nat) : Except Stop Init :=
  (List.finRange flowNum).foldlM (structBucket succeeds size) { mem := Field.zero, calls := 0 }

def clearSlots (b : Bucket) (m : Memory) : Memory :=
  let m := set (.hiF1 b) (0 : Tag) (set (.hiF2 b) (0 : Tag) m)
  set (.ctr b 1) (0 : BitVec 32) (set (.ctr b 0) (0 : BitVec 32) m)

/-- `port_init` for bucket `b` of the `HASH_LIST` table. -/
def hashBucket (size : Nat) (s : Init) (b : Bucket) : Except Stop Init :=
  let (p, s) := rteCalloc succeeds { s with mem := clearSlots b s.mem }
  appendLoop succeeds (fun _ => false) (fun _ m => m) (size - 1) p
    { s with mem := set (.flows b) p s.mem }

/-- `port_init` up to the configuration of the port, for `HASH_LIST`. -/
def hashListInit (size : Nat) : Except Stop Init :=
  (List.finRange flowNum).foldlM (hashBucket succeeds size) { mem := Field.zero, calls := 0 }

end Initialisation

/-- What the initialisation promises for chains of `size` nodes: it reports a failure, or every
bucket has a chain of `size` nodes that are zero. -/
def Prepared (size : Nat) : Except Stop Init → Prop
  | .error .nullPointer => False
  | .error .failed => True
  | .ok s => ∀ b, ∃ fs : List Addr, fs.length = size ∧ Linked s.mem (s.mem (.flows b)) fs ∧
      ∀ f ∈ fs, s.mem (.rssHigh f) = (0 : Tag) ∧ s.mem (.nodeCtr f) = (0 : BitVec 32)

variable {succeeds : Nat → Bool}

/-! ## A bucket -/

theorem rteCalloc_ok {s : Init} (h : succeeds s.calls = true) : rteCalloc succeeds s =
    (some s.calls, { mem := calloc s.calls s.mem, calls := s.calls + 1 }) := if_pos h

theorem rteCalloc_failed {s : Init} (h : succeeds s.calls = false) :
    rteCalloc succeeds s = (none, { s with calls := s.calls + 1 }) := by
  rw [rteCalloc, if_neg (by rw [h]; exact Bool.false_ne_true)]

section AppendLoop

variable {test : Option Addr → Bool} {clear : Addr → Memory → Memory} {f : Addr} {s : Init}

/-- A pass whose call succeeds appends the node, and leaves the others to it. -/
theorem appendLoop_succ_ok (htest : ∀ f, test (some f) = false) {n : Nat}
    (h : succeeds s.calls = true) :
    appendLoop succeeds test clear (n + 1) (some f) s =
      appendLoop succeeds test clear n (some s.calls)
        { mem := set (.next s.calls) none
            (clear s.calls (set (.next f) (some s.calls) (calloc s.calls s.mem)))
          calls := s.calls + 1 } := by
  rw [appendLoop, rteCalloc_ok h]
  show (if test (some f) = true then _ else _) = _
  rw [if_neg (by rw [htest]; exact Bool.false_ne_true)]
  simp only [set, Function.update_self]
  rfl

/-- A pass whose call fails dereferences what it returned: the pointer is not tested. -/
theorem appendLoop_succ_failed (htest : ∀ f, test (some f) = false) {n : Nat}
    (h : succeeds s.calls = false) :
    appendLoop succeeds test clear (n + 1) (some f) s = .error .nullPointer := by
  rw [appendLoop, rteCalloc_failed h]
  show (if test (some f) = true then _ else _) = _
  rw [if_neg (by rw [htest]; exact Bool.false_ne_true)]
  simp only [set, Function.update_self]
  rfl

/-- The loop when its calls succeed. -/
theorem appendLoop_ok (htest : ∀ f, test (some f) = false) {n : Nat}
    (h : ∀ j < n, succeeds (s.calls + j) = true) :
    appendLoop succeeds test clear n (some f) s =
      .ok { mem := appendNodes clear f (List.range' s.calls n) s.mem, calls := s.calls + n } := by
  induction n generalizing f s with
  | zero => rfl
  | succ n ih =>
      rw [appendLoop_succ_ok htest (h 0 (Nat.succ_pos n)), ih]
      · rw [List.range'_succ, appendNodes]
        simp only [Nat.add_assoc, Nat.add_comm 1 n]
      · intro j hj
        have hnext := h (j + 1) (by omega)
        simp only [Nat.add_assoc, Nat.add_comm 1 j]
        exact hnext

/-- The loop when one of its calls fails. -/
theorem appendLoop_failed (htest : ∀ f, test (some f) = false) {n : Nat}
    (h : ∃ j < n, succeeds (s.calls + j) = false) :
    appendLoop succeeds test clear n (some f) s = .error .nullPointer := by
  induction n generalizing f s with
  | zero =>
      obtain ⟨j, hj, -⟩ := h
      exact absurd hj (Nat.not_lt_zero j)
  | succ n ih =>
      cases hcall : succeeds s.calls with
      | false => exact appendLoop_succ_failed htest hcall
      | true =>
          rw [appendLoop_succ_ok htest hcall]
          apply ih
          obtain ⟨j, hj, hfail⟩ := h
          cases j with
          | zero =>
              rw [Nat.add_zero, hcall] at hfail
              cases hfail
          | succ j =>
              refine ⟨j, by omega, ?_⟩
              simp only [Nat.add_assoc, Nat.add_comm 1 j]
              exact hfail

end AppendLoop

/-- A bucket of `L` is initialised as if no call could fail, when none does. -/
def BucketOk (succeeds : Nat → Bool) (L : Layout) (size : Nat)
    (bucket : Init → Bucket → Except Stop Init) : Prop :=
  ∀ s b, (∀ j < size, succeeds (s.calls + j) = true) → bucket s b =
    .ok
      { mem := L.initBucket b s.calls (List.range' (s.calls + 1) (size - 1)) s.mem
        calls := s.calls + size }

/-- The first call that fails, if it is call `j` for the bucket, makes it stop with `stop j`. -/
def BucketStops (succeeds : Nat → Bool) (size : Nat) (stop : Nat → Stop)
    (bucket : Init → Bucket → Except Stop Init) : Prop :=
  ∀ s b, ∀ j < size, (∀ i < j, succeeds (s.calls + i) = true) → succeeds (s.calls + j) = false →
    bucket s b = .error (stop j)

section Buckets

variable {size : Nat}

/-- The calls behind the first one. -/
theorem succeeds_tail {calls : Nat} (h : ∀ j < size, succeeds (calls + j) = true) :
    ∀ j < size - 1, succeeds (calls + 1 + j) = true := by
  intro j hj
  rw [Nat.add_assoc, Nat.add_comm 1 j]
  exact h (j + 1) (by omega)

theorem bucketOk_structBucket (hsize : 1 ≤ size) :
    BucketOk succeeds .linkedList size (structBucket succeeds size) := by
  intro s b h
  rw [structBucket, rteCalloc_ok (h 0 hsize)]
  dsimp only
  rw [if_neg (Option.some_ne_none s.calls)]
  show appendLoop succeeds _ _ (size - 1) (some s.calls) _ = _
  rw [appendLoop_ok (fun _ => rfl) (succeeds_tail h)]
  dsimp only
  rw [Nat.add_assoc, Nat.add_sub_cancel' hsize]
  rfl

theorem bucketOk_hashBucket (hsize : 1 ≤ size) :
    BucketOk succeeds .hashList size (hashBucket succeeds size) := by
  intro s b h
  rw [hashBucket, rteCalloc_ok (s := { s with mem := clearSlots b s.mem }) (h 0 hsize)]
  dsimp only
  rw [appendLoop_ok (fun _ => rfl) (succeeds_tail h)]
  dsimp only
  rw [Nat.add_assoc, Nat.add_sub_cancel' hsize]
  rfl

/-- One of the calls behind the first one. -/
theorem fails_tail {calls j : Nat} (hj : j < size) (hpos : j ≠ 0)
    (h : succeeds (calls + j) = false) : ∃ i < size - 1, succeeds (calls + 1 + i) = false := by
  refine ⟨j - 1, by omega, ?_⟩
  rw [Nat.add_assoc, Nat.add_sub_cancel' (by omega)]
  exact h

/-- `flow_struct_init` reports that the first node could not be allocated. -/
theorem bucketStops_structBucket : BucketStops succeeds size
    (fun j => if j = 0 then .failed else .nullPointer) (structBucket succeeds size) := by
  intro s b j hj hbefore hfail
  rcases eq_or_ne j 0 with rfl | hpos
  · rw [structBucket, rteCalloc_failed hfail]
    rfl
  · rw [structBucket, rteCalloc_ok (hbefore 0 (by omega))]
    dsimp only
    rw [if_neg (Option.some_ne_none s.calls), if_neg hpos]
    exact appendLoop_failed (fun _ => rfl) (fails_tail hj hpos hfail)

/-- `port_init` goes on along the pointer that it has obtained, when it wants more than one node. -/
theorem bucketStops_hashBucket (hsize : 2 ≤ size) :
    BucketStops succeeds size (fun _ => .nullPointer) (hashBucket succeeds size) := by
  intro s b j hj hbefore hfail
  rw [hashBucket]
  rcases eq_or_ne j 0 with rfl | hpos
  · rw [rteCalloc_failed (s := { s with mem := clearSlots b s.mem }) hfail]
    obtain ⟨n, rfl⟩ := Nat.exists_eq_add_of_le hsize
    rw [show 2 + n - 1 = n + 1 by omega]
    rfl
  · rw [rteCalloc_ok (s := { s with mem := clearSlots b s.mem }) (hbefore 0 (by omega))]
    exact appendLoop_failed (fun _ => rfl) (fails_tail hj hpos hfail)

end Buckets

/-! ## All buckets -/

/-- The chains of the buckets `done` are there. -/
structure Progress (size : Nat) (done : List Bucket) (s : Init) : Prop where
  zeroed : Zeroed s.mem
  chains : ∀ b ∈ done, ∃ fs : List Addr, fs.length = size ∧ Linked s.mem (s.mem (.flows b)) fs ∧
    ∀ f ∈ fs, f < s.calls

section Run

variable {L : Layout} {size : Nat} {bucket : Init → Bucket → Except Stop Init}

/-- One more bucket. -/
theorem Progress.concat (hL : L ≠ .doubleHash) (hsize : 1 ≤ size) {done : List Bucket} {s : Init}
    (h : Progress size done s) {b : Bucket} (hb : b ∉ done) :
    Progress size (done ++ [b])
      { mem := L.initBucket b s.calls (List.range' (s.calls + 1) (size - 1)) s.mem
        calls := s.calls + size } := by
  have hnodes : s.calls :: List.range' (s.calls + 1) (size - 1) = List.range' s.calls size := by
    obtain ⟨n, rfl⟩ := Nat.exists_eq_add_of_le' hsize
    rw [List.range'_succ]
    rfl
  have hbuilt := built_initBucket hL b h.zeroed (hnodes ▸ List.nodup_range')
  rw [hnodes] at hbuilt
  refine ⟨hbuilt.zeroed, fun b' hb' => ?_⟩
  rcases List.mem_append.mp hb' with hb' | hb'
  · -- the nodes of an earlier bucket have been returned by earlier calls
    obtain ⟨fs, hlen, hlinked, hlt⟩ := h.chains b' hb'
    have hne : b' ≠ b := fun he => hb (he ▸ hb')
    have hflows := hbuilt.off (.flows b') (by simpa [Field.site] using hne) (by simp [Field.site])
    dsimp only
    rw [hflows]
    refine ⟨fs, hlen, hlinked.congr fun f hf => ?_, fun f hf => ?_⟩
    · apply hbuilt.off (.next f) (by simp [Field.site])
      intro g hg he
      cases he
      have hge := (List.mem_range'_1.mp hg).1
      exact absurd (hlt f hf) (Nat.not_lt.mpr hge)
    · exact Nat.lt_of_lt_of_le (hlt f hf) (Nat.le_add_right _ _)
  · rw [List.mem_singleton.mp hb']
    refine ⟨List.range' s.calls size, List.length_range', hbuilt.linked, fun f hf => ?_⟩
    exact (List.mem_range'_1.mp hf).2

/-- No call fails. -/
theorem foldlM_ok (hL : L ≠ .doubleHash) (hsize : 1 ≤ size) (hok : BucketOk succeeds L size bucket)
    (bs : List Bucket) {done : List Bucket} {s : Init} (h : Progress size done s)
    (hnodup : (done ++ bs).Nodup)
    (hcalls : ∀ j < bs.length * size, succeeds (s.calls + j) = true) :
    ∃ s', bs.foldlM bucket s = .ok s' ∧ Progress size (done ++ bs) s' := by
  induction bs generalizing done s with
  | nil => exact ⟨s, rfl, by rwa [List.append_nil]⟩
  | cons b bs ih =>
      rw [List.length_cons, Nat.succ_mul] at hcalls
      have hb : b ∉ done := fun hmem =>
        (List.nodup_append.mp hnodup).2.2 b hmem b List.mem_cons_self rfl
      rw [List.foldlM_cons, hok s b fun j hj => hcalls j (by omega), List.append_cons]
      apply ih (h.concat hL hsize hb)
      · rwa [List.append_cons] at hnodup
      · intro j hj
        dsimp only
        rw [Nat.add_assoc]
        exact hcalls (size + j) (by omega)

/-- The first call that fails is call `k`. -/
theorem foldlM_failed {stop : Nat → Stop} (hok : BucketOk succeeds L size bucket)
    (hstop : BucketStops succeeds size stop bucket) (bs : List Bucket) {s : Init} {k : Nat}
    (hk : k < bs.length * size) (hbefore : ∀ j < k, succeeds (s.calls + j) = true)
    (hfail : succeeds (s.calls + k) = false) : bs.foldlM bucket s = .error (stop (k % size)) := by
  induction bs generalizing s k with
  | nil =>
      rw [List.length_nil, Nat.zero_mul] at hk
      exact absurd hk (Nat.not_lt_zero k)
  | cons b bs ih =>
      rw [List.length_cons, Nat.succ_mul] at hk
      rw [List.foldlM_cons]
      rcases Nat.lt_or_ge k size with hlt | hge
      · rw [hstop s b k hlt hbefore hfail, Nat.mod_eq_of_lt hlt]
        rfl
      · rw [hok s b fun j hj => hbefore j (by omega), Nat.mod_eq_sub_mod hge]
        apply ih (by omega)
        · intro j hj
          dsimp only
          rw [Nat.add_assoc]
          exact hbefore (size + j) (by omega)
        · dsimp only
          rw [Nat.add_assoc, Nat.add_sub_cancel' hge]
          exact hfail

end Run

/-! ## Which failures are handled -/

section Prepared

variable {size : Nat}

/-- Nothing has been initialised. -/
theorem progress_zero : Progress size [] { mem := Field.zero, calls := 0 } :=
  ⟨fun _ _ _ => rfl, fun _ hb => absurd hb List.not_mem_nil⟩

theorem prepared_of_ok {L : Layout} {bucket : Init → Bucket → Except Stop Init}
    (hL : L ≠ .doubleHash) (hsize : 1 ≤ size) (hok : BucketOk succeeds L size bucket)
    {bs : List Bucket} (hnodup : bs.Nodup) (hbs : ∀ b, b ∈ bs)
    (hcalls : ∀ k < bs.length * size, succeeds k = true) :
    Prepared size (bs.foldlM bucket { mem := Field.zero, calls := 0 }) := by
  obtain ⟨s, hs, hprogress⟩ := foldlM_ok hL hsize hok bs progress_zero hnodup fun j hj => by
    rw [Nat.zero_add]
    exact hcalls j hj
  rw [hs]
  intro b
  obtain ⟨fs, hlen, hlinked, -⟩ := hprogress.chains b (hbs b)
  exact ⟨fs, hlen, hlinked, fun f _ =>
    ⟨hprogress.zeroed _ (by simp) (by simp), hprogress.zeroed _ (by simp) (by simp)⟩⟩

/-- What the first call that fails leads to. -/
theorem foldlM_first_failed {L : Layout} {bucket : Init → Bucket → Except Stop Init}
    {stop : Nat → Stop} (hok : BucketOk succeeds L size bucket)
    (hstop : BucketStops succeeds size stop bucket) {bs : List Bucket} {k : Nat}
    (hk : k < bs.length * size) (hbefore : ∀ j < k, succeeds j = true)
    (hfail : succeeds k = false) :
    bs.foldlM bucket { mem := Field.zero, calls := 0 } = .error (stop (k % size)) := by
  apply foldlM_failed hok hstop bs hk
  · intro j hj
    rw [Nat.zero_add]
    exact hbefore j hj
  · rwa [Nat.zero_add]

/-- There is a first call that fails, if there is one. -/
theorem exists_first_failed {n : Nat} (h : ¬ ∀ k < n, succeeds k = true) :
    ∃ k < n, (∀ j < k, succeeds j = true) ∧ succeeds k = false := by
  have hex : ∃ k, k < n ∧ succeeds k = false := by
    obtain ⟨k, hk⟩ := not_forall.mp h
    obtain ⟨hlt, hne⟩ := Classical.not_imp.mp hk
    exact ⟨k, hlt, Bool.eq_false_of_not_eq_true hne⟩
  obtain ⟨hlt, hfail⟩ := Nat.find_spec hex
  refine ⟨Nat.find hex, hlt, fun j hj => ?_, hfail⟩
  by_contra hne
  exact Nat.find_min hex hj ⟨hj.trans hlt, Bool.eq_false_of_not_eq_true hne⟩

theorem prepared_structBucket_iff (succeeds : Nat → Bool) (hsize : 1 ≤ size) {bs : List Bucket}
    (hnodup : bs.Nodup) (hbs : ∀ b, b ∈ bs) :
    Prepared size (bs.foldlM (structBucket succeeds size) { mem := Field.zero, calls := 0 }) ↔
      ∀ k < bs.length * size, (∀ j < k, succeeds j = true) → succeeds k = false → size ∣ k := by
  have hfirst : ∀ k < bs.length * size, (∀ j < k, succeeds j = true) → succeeds k = false →
      (Prepared size (bs.foldlM (structBucket succeeds size) { mem := Field.zero, calls := 0 }) ↔
        size ∣ k) := by
    intro k hk hbefore hfail
    rw [foldlM_first_failed (bucketOk_structBucket hsize) bucketStops_structBucket hk hbefore hfail,
      Nat.dvd_iff_mod_eq_zero]
    split
    · next hmod => exact iff_of_true trivial hmod
    · next hmod => exact iff_of_false id hmod
  constructor
  · exact fun h k hk hbefore hfail => (hfirst k hk hbefore hfail).mp h
  · intro hdvd
    by_cases hall : ∀ k < bs.length * size, succeeds k = true
    · exact prepared_of_ok (by simp) hsize (bucketOk_structBucket hsize) hnodup hbs hall
    · obtain ⟨k, hk, hbefore, hfail⟩ := exists_first_failed hall
      exact (hfirst k hk hbefore hfail).mpr (hdvd k hk hbefore hfail)

theorem calloc_flows (f : Addr) (m : Memory) (b : Bucket) :
    calloc f m (.flows b) = m (.flows b) := by
  unfold calloc blank
  rw [if_neg (show (Field.flows b).site ≠ .inr f by simp [Field.site])]

/-- With one node for a bucket, nothing stops `port_init`. -/
theorem hashBucket_one (succeeds : Nat → Bool) (s : Init) (b : Bucket) :
    ∃ s', hashBucket succeeds 1 s b = .ok s' ∧ s'.calls = s.calls + 1 ∧
      (∀ b' ≠ b, s'.mem (.flows b') = s.mem (.flows b')) ∧
      (succeeds s.calls = false → s'.mem (.flows b) = none) := by
  have hslots : ∀ b', clearSlots b s.mem (.flows b') = s.mem (.flows b') := by
    intro b'
    simp [clearSlots, set]
  rw [hashBucket]
  cases hcall : succeeds s.calls with
  | true =>
      rw [rteCalloc_ok (s := { s with mem := clearSlots b s.mem }) hcall]
      refine ⟨_, rfl, rfl, fun b' hb' => ?_, fun hfail => by cases hfail⟩
      dsimp only
      rw [set, Function.update_of_ne (by simpa using hb'), calloc_flows, hslots]
  | false =>
      rw [rteCalloc_failed (s := { s with mem := clearSlots b s.mem }) hcall]
      refine ⟨_, rfl, rfl, fun b' hb' => ?_, fun _ => Function.update_self ..⟩
      dsimp only
      rw [set, Function.update_of_ne (by simpa using hb'), hslots]

/-- It leaves the buckets without a chain whose calls fail. -/
theorem foldlM_hashBucket_one (succeeds : Nat → Bool) (bs : List Bucket) (hnodup : bs.Nodup)
    (s : Init) :
    ∃ s', bs.foldlM (hashBucket succeeds 1) s = .ok s' ∧
      (∀ b ∉ bs, s'.mem (.flows b) = s.mem (.flows b)) ∧
      ∀ j b, bs[j]? = some b → succeeds (s.calls + j) = false → s'.mem (.flows b) = none := by
  induction bs generalizing s with
  | nil => exact ⟨s, rfl, fun _ _ => rfl, fun j b hb => by simp at hb⟩
  | cons b bs ih =>
      obtain ⟨hb, hnodup⟩ := List.nodup_cons.mp hnodup
      obtain ⟨s₁, hs₁, hcalls, hoff, hnone⟩ := hashBucket_one succeeds s b
      obtain ⟨s', hs', hoff', hnone'⟩ := ih hnodup s₁
      rw [List.foldlM_cons, hs₁]
      refine ⟨s', hs', fun b' hb' => ?_, fun j b' hb' hfail => ?_⟩
      · rw [hoff' b' (List.not_mem_of_not_mem_cons hb'), hoff b' (List.ne_of_not_mem_cons hb')]
      · cases j with
        | zero =>
            cases hb'
            rw [hoff' b hb, hnone hfail]
        | succ j =>
            apply hnone' j b' hb'
            rw [hcalls, Nat.add_assoc, Nat.add_comm 1 j]
            exact hfail

theorem prepared_hashBucket_iff (succeeds : Nat → Bool) (hsize : 1 ≤ size) {bs : List Bucket}
    (hnodup : bs.Nodup) (hbs : ∀ b, b ∈ bs) :
    Prepared size (bs.foldlM (hashBucket succeeds size) { mem := Field.zero, calls := 0 }) ↔
      ∀ k < bs.length * size, succeeds k = true := by
  constructor
  · intro hprepared
    by_contra hall
    obtain ⟨k, hk, hbefore, hfail⟩ := exists_first_failed hall
    rcases Nat.lt_or_ge size 2 with hone | htwo
    · -- the bucket of call `k` has no chain in the end
      obtain rfl : size = 1 := by omega
      rw [Nat.mul_one] at hk
      obtain ⟨s, hs, -, hnone⟩ := foldlM_hashBucket_one succeeds bs hnodup
        { mem := Field.zero, calls := 0 }
      rw [hs] at hprepared
      obtain ⟨fs, hlen, hlinked, -⟩ := hprepared bs[k]
      rw [hnone k bs[k] (List.getElem?_eq_getElem hk) (by rwa [Nat.zero_add])] at hlinked
      have hhead := hlinked.head?
      rw [eq_comm, List.head?_eq_none_iff] at hhead
      rw [hhead] at hlen
      cases hlen
    · rw [foldlM_first_failed (bucketOk_hashBucket hsize) (bucketStops_hashBucket htwo) hk hbefore
        hfail] at hprepared
      exact hprepared
  · exact prepared_of_ok (by simp) hsize (bucketOk_hashBucket hsize) hnodup hbs

theorem prepared_flowStructInit_iff (hsize : 1 ≤ size) :
    Prepared size (flowStructInit succeeds size) ↔ ∀ k < flowNum * size,
      (∀ j < k, succeeds j = true) → succeeds k = false → size ∣ k := by
  have hiff := prepared_structBucket_iff succeeds hsize (List.nodup_finRange flowNum)
    List.mem_finRange
  rw [List.length_finRange] at hiff
  exact hiff

theorem prepared_hashListInit_iff (hsize : 1 ≤ size) :
    Prepared size (hashListInit succeeds size) ↔ ∀ k < flowNum * size, succeeds k = true := by
  have hiff := prepared_hashBucket_iff succeeds hsize (List.nodup_finRange flowNum)
    List.mem_finRange
  rw [List.length_finRange] at hiff
  exact hiff

/-- **Which failures are handled**: for `LINKED_LIST`, that of the first node of a bucket, if no
call before it has failed; for `HASH_LIST`, none. -/
theorem prepared_iff (succeeds : Nat → Bool) (size : Nat) (hsize : 1 ≤ size) :
    (Prepared size (flowStructInit succeeds size) ↔ ∀ k < flowNum * size,
      (∀ j < k, succeeds j = true) → succeeds k = false → size ∣ k) ∧
    (Prepared size (hashListInit succeeds size) ↔ ∀ k < flowNum * size, succeeds k = true) :=
  ⟨prepared_flowStructInit_iff hsize, prepared_hashListInit_iff hsize⟩

/-- Every call succeeds, and a bucket has two nodes. -/
theorem prepared_iff_succeeds : 1 ≤ 2 ∧
    ((Prepared 2 (flowStructInit (fun _ => true) 2) ↔ ∀ k < flowNum * 2,
      (∀ j < k, true = true) → true = false → 2 ∣ k) ∧
    (Prepared 2 (hashListInit (fun _ => true) 2) ↔ ∀ k < flowNum * 2, true = true)) :=
  ⟨by decide, prepared_iff (fun _ => true) 2 (by decide)⟩

/-- There are at least as many calls as nodes in a bucket. -/
theorem le_flowNum_mul (size : Nat) : size ≤ flowNum * size :=
  Nat.le_mul_of_pos_left size (Fin.pos (indexL 0))

/-- The second node of the first bucket cannot be allocated; with one node for a bucket, the first
one. -/
theorem not_prepared : ¬ Prepared 2 (flowStructInit (fun k => k ≠ 1) 2) ∧
    ¬ Prepared 1 (hashListInit (fun k => k ≠ 0) 1) := by
  rw [prepared_flowStructInit_iff (by omega), prepared_hashListInit_iff (by omega)]
  constructor
  · intro h
    have hdvd : 2 ∣ 1 := by
      apply h 1 (le_flowNum_mul 2) _ rfl
      intro j hj
      obtain rfl := Nat.lt_one_iff.mp hj
      rfl
    omega
  · intro h
    have hfirst := h 0 (le_flowNum_mul 1)
    simp at hfirst

end Prepared

end Heap
end RunToCompletion
end FloWatcher
