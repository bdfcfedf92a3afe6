import FloWatcher.Basic
import FloWatcher.FirstFit.Unmixed

/-!
# Entries of the flow tables

The three table layouts (`DOUBLE_HASH`, `LINKED_LIST`, `HASH_LIST`) are built from two kinds of
entry: the nodes of a chain and the two slots of a bucket. The programs that use them
differ in the width of the counters and in the fields that the build option `IPG` adds, so the
width `w` and the type `S` of those fields are parameters; `S` is `Unit` in a build without `IPG`.

What the code does under `#ifdef IPG` in each branch is collected in a record of functions on `S`
(`SlotIpg` here, one record per chain walk in the modules of the walks), and the branches
themselves are written once.
-/

namespace FloWatcher

variable {w : Nat} {S : Type}

/-- `struct flow_entry`. A chain linked by `next` and ended by `NULL` is a list of these. -/
structure FlowEntry (w : Nat) (S : Type) where
  rssHigh : Tag
  ctr : BitVec w
  stats : S
  deriving DecidableEq, Repr

def FlowEntry.keyed (f : FlowEntry w S) : Tag × BitVec w × S := (f.rssHigh, f.ctr, f.stats)

def FlowEntry.count (f : FlowEntry w S) : Tag × BitVec w := (f.rssHigh, f.ctr)

/-- A node as `rte_calloc` and the initialisation loops leave it. -/
def FlowEntry.zeroed (w : Nat) (zero : S) : FlowEntry w S :=
  { rssHigh := 0, ctr := 0, stats := zero }

/-- The chain of one bucket after initialisation with `size` nodes: the first node, then the
`while` loop that appends `size - 1` more. Every `rte_calloc` succeeds. -/
def chainInit (w : Nat) (zero : S) (size : Nat) : List (FlowEntry w S) :=
  FlowEntry.zeroed w zero :: List.replicate (size - 1) (FlowEntry.zeroed w zero)

theorem chainInit_map_count (zero : S) {size : Nat} (h : 0 < size) :
    (chainInit w zero size).map FlowEntry.count = List.replicate size (0, 0) := by
  obtain ⟨n, rfl⟩ : ∃ n, size = n + 1 := ⟨size - 1, by omega⟩
  simp [chainInit, FlowEntry.zeroed, FlowEntry.count, List.replicate_succ]

/-! ## The two slots of a bucket -/

/-- The fields of `struct pkt_count` that describe its two slots. -/
structure Slots (w : Nat) (S : Type) where
  hiF1 : Tag
  hiF2 : Tag
  ctr0 : BitVec w
  ctr1 : BitVec w
  stats0 : S
  stats1 : S
  deriving DecidableEq, Repr

/-- The `IPG` blocks of the slot branches. -/
structure SlotIpg (w : Nat) (S : Type) where
  /-- the slot fields after initialisation -/
  init : S
  /-- a packet that found the slot empty -/
  start : S → S
  /-- a packet of the slot's tag, with `global` and the counter after its increment; the slots'
  blocks are separate code -/
  hit : Fin 2 → BitVec 64 → BitVec w → S → S

def SlotIpg.off (w : Nat) : SlotIpg w Unit where
  init := ()
  start := id
  hit _ _ _ := id

/-- `hi_f1 = hi_f2 = 0; ctr[j] = 0; ...` -/
def Slots.init (ipg : SlotIpg w S) : Slots w S :=
  { hiF1 := 0, hiF2 := 0, ctr0 := 0, ctr1 := 0, stats0 := ipg.init, stats1 := ipg.init }

/-- The four slot branches, in the order of the code. `none` when none of them is taken: what
happens to such a packet is the last `else` of each layout. -/
def Slots.update (ipg : SlotIpg w S) (global : BitVec 64) (indexH : Tag) (s : Slots w S) :
    Option (Slots w S) :=
  if s.hiF1 = 0 then
    some { s with hiF1 := indexH, ctr0 := s.ctr0 + 1, stats0 := ipg.start s.stats0 }
  else if s.hiF2 = 0 ∧ s.hiF1 ≠ indexH then
    some { s with hiF2 := indexH, ctr1 := s.ctr1 + 1, stats1 := ipg.start s.stats1 }
  else if s.hiF1 = indexH then
    some { s with ctr0 := s.ctr0 + 1, stats0 := ipg.hit 0 global (s.ctr0 + 1) s.stats0 }
  else if s.hiF2 = indexH then
    some { s with ctr1 := s.ctr1 + 1, stats1 := ipg.hit 1 global (s.ctr1 + 1) s.stats1 }
  else
    none

/-- What a packet can do to the slots: it is recorded in the first, in the second, or in
neither. -/
theorem Slots.update_cases (ipg : SlotIpg w S) (global : BitVec 64) (t : Tag) (s : Slots w S) :
    ((s.hiF1 = 0 ∨ s.hiF1 = t) ∧
      s.update ipg global t = some { s with
        hiF1 := t, ctr0 := s.ctr0 + 1,
        stats0 := if s.hiF1 = 0 then ipg.start s.stats0
          else ipg.hit 0 global (s.ctr0 + 1) s.stats0 }) ∨
    (¬ (s.hiF1 = 0 ∨ s.hiF1 = t) ∧ (s.hiF2 = 0 ∨ s.hiF2 = t) ∧
      s.update ipg global t = some { s with
        hiF2 := t, ctr1 := s.ctr1 + 1,
        stats1 := if s.hiF2 = 0 then ipg.start s.stats1
          else ipg.hit 1 global (s.ctr1 + 1) s.stats1 }) ∨
    (¬ (s.hiF1 = 0 ∨ s.hiF1 = t) ∧ ¬ (s.hiF2 = 0 ∨ s.hiF2 = t) ∧
      s.update ipg global t = none) := by
  unfold Slots.update
  by_cases h1 : s.hiF1 = 0
  · left
    simp [h1]
  · by_cases h1t : s.hiF1 = t
    · left
      refine ⟨Or.inr h1t, ?_⟩
      subst h1t
      simp [h1]
    · by_cases h2 : s.hiF2 = 0
      · right; left
        simp [h1, h1t, h2]
      · by_cases h2t : s.hiF2 = t
        · right; left
          refine ⟨by simp [h1, h1t], Or.inr h2t, ?_⟩
          subst h2t
          simp [h1, h1t, h2]
        · right; right
          simp [h1, h1t, h2, h2t]

def Slots.keyed (s : Slots w S) : List (Tag × BitVec w × S) :=
  [(s.hiF1, s.ctr0, s.stats0), (s.hiF2, s.ctr1, s.stats1)]

/-- The pairs `(hi_f1, ctr[0])` and `(hi_f2, ctr[1])`. -/
def Slots.counts (s : Slots w S) : List (Tag × BitVec w) := [(s.hiF1, s.ctr0), (s.hiF2, s.ctr1)]

end FloWatcher
