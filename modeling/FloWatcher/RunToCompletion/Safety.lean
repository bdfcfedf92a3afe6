import FloWatcher.RunToCompletion.Workers

/-!
# What a worker keeps true

A worker that has some of the buckets to itself keeps their chains chains, in every state between
two accesses, and brings the buckets to the rows that the models of the layouts compute for its
packets (`safe_code`).
-/

namespace FloWatcher
namespace RunToCompletion
namespace Heap

open Shared

/-! ## The table of the models -/

def Layout.packet : Layout → Tag → Row → Row
  | .doubleHash, t, r =>
      { r with toPktCount := DoubleHash.packet (SlotIpg.off 32) 0 t r.toPktCount }
  | .linkedList, t, r => { r with flows := linkedListPacket (LinkedListIpg.off 32) 0 t r.flows }
  | .hashList, t, r =>
      let e := HashList.packet (HashList.Ipg.off 32) 0 t r.hashList
      { r with toSlots := e.toSlots, flows := e.flows }

def Layout.record (L : Layout) (hs : List Hash) (T : Bucket → Row) : Bucket → Row :=
  Buckets.run indexL (fun h => L.packet (indexH h)) hs T

/-- What the walk of a layout with chains makes of the rest of a chain. -/
def Layout.walk : Layout → Tag → List (FlowEntry 32 Unit) → List (FlowEntry 32 Unit)
  | .doubleHash, _, es => es
  | .linkedList, t, es => linkedListPacket (LinkedListIpg.off 32) 0 t es
  | .hashList, t, es => HashList.walk (HashList.Ipg.off 32) 0 t es

def withFlows (T : Bucket → Row) (b : Bucket) (es : List (FlowEntry 32 Unit)) : Bucket → Row :=
  Function.update T b { T b with flows := es }

def newEntry (t : Tag) : FlowEntry 32 Unit := { rssHigh := t, ctr := 1, stats := () }

variable {L : Layout} {own : Set Bucket}

theorem record_agree {hs : List Hash} {T T' : Bucket → Row} (hT : ∀ b ∈ own, T' b = T b) {b : Bucket}
    (hb : b ∈ own) : L.record hs T' b = L.record hs T b := by
  rw [Layout.record, Layout.record, Buckets.run_apply, Buckets.run_apply, hT b hb]

theorem withFlows_agree {T T' : Bucket → Row} (hT : ∀ b ∈ own, T' b = T b) {b₀ : Bucket}
    (hb₀ : b₀ ∈ own) (es : List (FlowEntry 32 Unit)) {b : Bucket} (hb : b ∈ own) :
    withFlows T' b₀ es b = withFlows T b₀ es b := by
  unfold withFlows
  rcases eq_or_ne b b₀ with rfl | hne
  · rw [Function.update_self, Function.update_self, hT b hb]
  · rw [Function.update_of_ne hne, Function.update_of_ne hne, hT b hb]

/-- A packet that the slots take. -/
theorem packet_of_slots (hL : L ≠ .linkedList) {t : Tag} {r : Row} {s : Slots 32 Unit}
    (h : r.toSlots.update (SlotIpg.off 32) 0 t = some s) : L.packet t r = { r with toSlots := s } := by
  cases L with
  | doubleHash => simp only [Layout.packet, DoubleHash.packet, h]
  | linkedList => exact absurd rfl hL
  | hashList => simp only [Layout.packet, HashList.packet, HashList.Ipg.off, Row.hashList, h]

theorem hashList_packet_of_none {t : Tag} {r : Row}
    (h : r.toSlots.update (SlotIpg.off 32) 0 t = none) :
    Layout.hashList.packet t r = { r with flows := Layout.hashList.walk t r.flows } := by
  simp only [Layout.packet, Layout.walk, HashList.packet, HashList.Ipg.off, Row.hashList, h]

theorem doubleHash_packet_of_none {t : Tag} {r : Row}
    (h : r.toSlots.update (SlotIpg.off 32) 0 t = none) :
    Layout.doubleHash.packet t r = { r with ctr2 := r.ctr2 + 1 } := by
  simp only [Layout.packet, DoubleHash.packet, h]

/-- Both walks end with the same entry. -/
theorem walk_nil (hL : L ≠ .doubleHash) (t : Tag) : L.walk t [] = [newEntry t] := by
  cases L with
  | doubleHash => exact absurd rfl hL
  | linkedList => rfl
  | hashList => rfl

theorem walk_cons_of_not_taken (hL : L ≠ .doubleHash) {t : Tag} {e : FlowEntry 32 Unit}
    (h0 : e.rssHigh ≠ 0) (ht : e.rssHigh ≠ t) (es : List (FlowEntry 32 Unit)) :
    L.walk t (e :: es) = e :: L.walk t es := by
  cases L with
  | doubleHash => exact absurd rfl hL
  | linkedList => rw [Layout.walk, linkedListPacket, if_neg h0, if_neg ht, Layout.walk]
  | hashList => rw [Layout.walk, HashList.walk, if_neg ht, if_neg h0, Layout.walk]

/-- Whichever of the two tests comes first, the entry is the same afterwards. -/
theorem walk_cons_of_taken (hL : L ≠ .doubleHash) {t : Tag} {e : FlowEntry 32 Unit}
    (h : e.rssHigh = 0 ∨ e.rssHigh = t) (es : List (FlowEntry 32 Unit)) :
    L.walk t (e :: es) = { rssHigh := t, ctr := e.ctr + 1, stats := () } :: es := by
  cases L with
  | doubleHash => exact absurd rfl hL
  | linkedList =>
      rw [Layout.walk, linkedListPacket]
      split
      · rfl
      · next h0 =>
          have ht := h.resolve_left h0
          rw [if_pos ht, ← ht]
  | hashList =>
      rw [Layout.walk, HashList.walk]
      split
      · next ht => rw [← ht]
      · next ht => rw [if_pos (h.resolve_right ht)]

/-! ## Assertions -/

variable {R R' : Set (Bucket ⊕ Addr)} {nodes : Bucket → List Addr} {m m' : Memory}

structure Holds (L : Layout) (own : Set Bucket) (R : Set (Bucket ⊕ Addr))
    (nodes : Bucket → List Addr) (m : Memory) : Prop where
  chains : Chains own nodes m
  region : sites own nodes ⊆ R
  nonempty : L ≠ .doubleHash → ∀ b ∈ own, nodes b ≠ []

theorem Holds.congr (h : Holds L own R nodes m) (hR : R ⊆ R')
    (hm : AgreeOn Field.site (sites own nodes) m m') : Holds L own R' nodes m' :=
  ⟨h.chains.congr hm, h.region.trans hR, h.nonempty⟩

/-- An assignment that is not to a pointer. -/
theorem Holds.assign (h : Holds L own R nodes m) {x : Field} (v : x.Val)
    (hflows : ∀ b, Field.flows b ≠ x) (hnext : ∀ f, Field.next f ≠ x) :
    Holds L own R nodes (Function.update m x v) :=
  ⟨h.chains.of_pointers (fun b => Function.update_of_ne (hflows b) v m)
    fun f => Function.update_of_ne (hnext f) v m, h.region, h.nonempty⟩

theorem Holds.inl_mem (h : Holds L own R nodes m) {b : Bucket} (hb : b ∈ own) : Sum.inl b ∈ R :=
  h.region (inl_mem_sites.mpr hb)

theorem Holds.inr_mem (h : Holds L own R nodes m) {b : Bucket} (hb : b ∈ own) {f : Addr}
    (hf : f ∈ nodes b) : Sum.inr f ∈ R :=
  h.region (inr_mem_sites.mpr ⟨b, hb, hf⟩)

/-- With the table at `T` once the current packet is done, the packets `todo` lead to the table
`target`. The chains have at most `C` nodes then, `k` of them for the current packet. -/
structure Pending (L : Layout) (own : Set Bucket) (target : Bucket → Row) (C : ℕ)
    (R : Set (Bucket ⊕ Addr)) (nodes : Bucket → List Addr) (m : Memory) (todo : List Hash) (k : ℕ)
    (T : Bucket → Row) : Prop where
  holds : Holds L own R nodes m
  owned : ∀ h ∈ todo, indexL h ∈ own
  short : ∀ b ∈ own, (nodes b).length + todo.length + k ≤ C
  target : ∀ b ∈ own, L.record todo T b = target b

def budget (C : ℕ) (todo : List Hash) : ℕ := todo.length * (40 + 4 * C) + 1

theorem budget_cons (C : ℕ) (h : Hash) (todo : List Hash) :
    budget C (h :: todo) = budget C todo + (40 + 4 * C) := by
  rw [budget, budget, List.length_cons, Nat.succ_mul]
  omega

/-- What holds at the labels. -/
inductive At (L : Layout) (own : Set Bucket) (target : Bucket → Row) (C : ℕ)
    (R : Set (Bucket ⊕ Addr)) (nodes : Bucket → List Addr) (m : Memory) : Label → ℕ → Prop
  | packet {tmp todo} (hp : Pending L own target C R nodes m todo 0 (table m nodes)) :
      At L own target C R nodes m (.packet tmp todo) (budget C todo)
  /-- the nodes `pre` are behind the walk, and `tmp` is the last of them -/
  | walk {f tmp h todo pre rest} (hL : L ≠ .doubleHash) (hb : indexL h ∈ own)
      (hnodes : nodes (indexL h) = pre ++ rest) (hf : f = rest.head?)
      (htmp : pre ≠ [] → tmp = pre.getLast?)
      (hp : Pending L own target C R nodes m todo 1 (withFlows (table m nodes) (indexL h)
        (pre.map (entry m) ++ L.walk (indexH h) (rest.map (entry m))))) :
      At L own target C R nodes m (.walk f tmp h todo) (budget C todo + 4 * rest.length + 20)
  | append {tmp h todo} (hL : L ≠ .doubleHash) (hb : indexL h ∈ own)
      (htmp : tmp = (nodes (indexL h)).getLast?)
      (hp : Pending L own target C R nodes m todo 1 (withFlows (table m nodes) (indexL h)
        ((table m nodes (indexL h)).flows ++ [newEntry (indexH h)]))) :
      At L own target C R nodes m (.append tmp h todo) (budget C todo + 12)
  | link {f tmp h todo} (hL : L ≠ .doubleHash) (hb : indexL h ∈ own)
      (htmp : tmp = (nodes (indexL h)).getLast?) (hR : Sum.inr f ∈ R)
      (hf : ∀ b ∈ own, f ∉ nodes b) (hnext : m (.next f) = none)
      (hentry : entry m f = newEntry (indexH h))
      (hp : Pending L own target C R nodes m todo 1 (withFlows (table m nodes) (indexL h)
        ((table m nodes (indexL h)).flows ++ [newEntry (indexH h)]))) :
      At L own target C R nodes m (.link f tmp h todo) (budget C todo + 4)

theorem At.holds {target : Bucket → Row} {C n : ℕ} {l : Label}
    (h : At L own target C R nodes m l n) : Holds L own R nodes m := by
  cases h with
  | packet hp => exact hp.holds
  | walk _ _ _ _ _ hp => exact hp.holds
  | append _ _ _ hp => exact hp.holds
  | link _ _ _ _ _ _ _ hp => exact hp.holds

theorem Holds.exists_last (h : Holds L own R nodes m) (hL : L ≠ .doubleHash) {b : Bucket}
    (hb : b ∈ own) : ∃ last, (nodes b).getLast? = some last :=
  ⟨_, List.getLast?_eq_some_getLast (h.nonempty hL b hb)⟩

/-- The assertions about a worker that owns the buckets `own` and is to bring them to `target`. -/
def spec (L : Layout) (own : Set Bucket) (target : Bucket → Row) (C : ℕ) :
    Spec Label Field.Val Bucket Addr where
  inv R m := ∃ nodes, Holds L own R nodes m
  jump l n R m := ∃ nodes, At L own target C R nodes m l n
  done R m := ∃ nodes, Holds L own R nodes m ∧ ∀ b ∈ own, table m nodes b = target b

/-! ## Pieces of code -/

variable {target : Bucket → Row} {C n : ℕ}

abbrev SafeIn (L : Layout) (own : Set Bucket) (target : Bucket → Row) (C : ℕ)
    (R : Set (Bucket ⊕ Addr)) (c : Worker) (n : ℕ) (m : Memory) : Prop :=
  Safe Field.zero Field.site (spec L own target C) c n R m

theorem safe_incCtr (hm : Holds L own R nodes m) {b : Bucket} (hb : b ∈ own) {j : Fin 3} {k : Worker}
    (h : SafeIn L own target C R k n (Function.update m (.ctr b j) (m (.ctr b j) + 1 : BitVec 32))) :
    SafeIn L own target C R (incCtr b j k) (n + 2) m :=
  .read ⟨nodes, hm⟩ (hm.inl_mem hb) (.write ⟨nodes, hm⟩ (hm.inl_mem hb) h)

theorem safe_incNode (hm : Holds L own R nodes m) {f : Addr} (hf : Sum.inr f ∈ R) {k : Worker}
    (h : SafeIn L own target C R k n
      (Function.update m (.nodeCtr f) (m (.nodeCtr f) + 1 : BitVec 32))) :
    SafeIn L own target C R (incNode f k) (n + 2) m :=
  .read ⟨nodes, hm⟩ hf (.write ⟨nodes, hm⟩ hf h)

/-- A packet is recorded in a slot of bucket `b`: its tag `t` is in the field `x` already, or is
written there, and `ctr[j]` is incremented. -/
theorem safe_record (hm : Holds L own R nodes m) {b : Bucket} (hb : b ∈ own) {x : Field} {t : x.Val}
    {j : Fin 3} (hx : x.site = .inl b) (hflows : ∀ b, Field.flows b ≠ x) (hctr : Field.ctr b j ≠ x)
    {next : Worker}
    (hnext : ∀ m', Holds L own R nodes m' → m' = Function.update (Function.update m x t) (.ctr b j)
      (m (.ctr b j) + 1 : BitVec 32) → SafeIn L own target C R next n m') :
    (m x = t → SafeIn L own target C R (incCtr b j next) (n + 2) m) ∧
      SafeIn L own target C R (.write x t <| incCtr b j next) (n + 3) m := by
  have hnode : ∀ f, Field.next f ≠ x := by
    rintro f rfl
    cases hx
  have hm₁ : Holds L own R nodes (Function.update m x t) := hm.assign _ hflows hnode
  constructor
  · intro ht
    refine safe_incCtr hm hb (hnext _ (hm.assign _ (by simp) (by simp)) ?_)
    rw [← ht, Function.update_eq_self]
  · refine Safe.write ⟨nodes, hm⟩ (hx ▸ hm.inl_mem hb) (safe_incCtr hm₁ hb ?_)
    refine hnext _ (hm₁.assign _ (by simp) (by simp)) ?_
    rw [Function.update_of_ne hctr]

/-- The slot branches do to the slots what `Slots.update` says, and run `last` when it says
`none`. -/
theorem safe_slots (hm : Holds L own R nodes m) {b : Bucket} (hb : b ∈ own) {t : Tag}
    {next last : Worker}
    (hnext : ∀ m' s, (table m nodes b).toSlots.update (SlotIpg.off 32) 0 t = some s →
      Holds L own R nodes m' →
      table m' nodes = Function.update (table m nodes) b { table m nodes b with toSlots := s } →
      SafeIn L own target C R next n m')
    (hlast : (table m nodes b).toSlots.update (SlotIpg.off 32) 0 t = none →
      SafeIn L own target C R last n m) :
    SafeIn L own target C R (slots b t next last) (n + 8) m := by
  have hinv : (spec L own target C).inv R m := ⟨nodes, hm⟩
  have hR : Sum.inl b ∈ R := hm.inl_mem hb
  have hcases := (table m nodes b).toSlots.update_cases (SlotIpg.off 32) 0 t
  -- the outcomes of `Slots.update`, with the code that each of them may run
  have h1 : (m (.hiF1 b) = (0 : Tag) ∨ m (.hiF1 b) = t) →
      (m (.hiF1 b) = t → SafeIn L own target C R (incCtr b 0 next) (n + 2) m) ∧
        SafeIn L own target C R (.write (.hiF1 b) t <| incCtr b 0 next) (n + 3) m := by
    intro hc
    rcases hcases with ⟨-, h⟩ | ⟨hn, -, -⟩ | ⟨hn, -, -⟩
    · refine safe_record hm hb rfl (by simp) (by simp) fun m' hm' he => hnext m' _ h hm' ?_
      rw [he, table_ctr0, table_hiF1, Function.update_idem, Function.update_self]
      rfl
    · exact absurd hc hn
    · exact absurd hc hn
  have h2 : ¬ (m (.hiF1 b) = (0 : Tag) ∨ m (.hiF1 b) = t) →
      (m (.hiF2 b) = (0 : Tag) ∨ m (.hiF2 b) = t) →
      (m (.hiF2 b) = t → SafeIn L own target C R (incCtr b 1 next) (n + 2) m) ∧
        SafeIn L own target C R (.write (.hiF2 b) t <| incCtr b 1 next) (n + 3) m := by
    intro hc1 hc2
    rcases hcases with ⟨hn, -⟩ | ⟨-, -, h⟩ | ⟨-, hn, -⟩
    · exact absurd hn hc1
    · refine safe_record hm hb rfl (by simp) (by simp) fun m' hm' he => hnext m' _ h hm' ?_
      rw [he, table_ctr1, table_hiF2, Function.update_idem, Function.update_self]
      rfl
    · exact absurd hc2 hn
  have h3 : ¬ (m (.hiF1 b) = (0 : Tag) ∨ m (.hiF1 b) = t) →
      ¬ (m (.hiF2 b) = (0 : Tag) ∨ m (.hiF2 b) = t) → SafeIn L own target C R last n m := by
    intro hc1 hc2
    rcases hcases with ⟨hn, -⟩ | ⟨-, hn, -⟩ | ⟨-, -, h⟩
    · exact absurd hn hc1
    · exact absurd hn hc2
    · exact hlast h
  have helse : m (.hiF1 b) ≠ (0 : Tag) → (m (.hiF2 b) = (0 : Tag) → m (.hiF1 b) = t) →
      SafeIn L own target C R (slotsElse b t next last) (n + 5) m := by
    intro hne1 h20
    refine Safe.read hinv hR ?_
    split
    · next ht => exact ((h1 (.inr ht)).1 ht).mono (by omega)
    · next hnt =>
        have hc1 : ¬ (m (.hiF1 b) = (0 : Tag) ∨ m (.hiF1 b) = t) := not_or.mpr ⟨hne1, hnt⟩
        refine Safe.read hinv hR ?_
        split
        · next ht => exact ((h2 hc1 (.inr ht)).1 ht).mono (by omega)
        · next hnt2 =>
            exact (h3 hc1 (not_or.mpr ⟨fun h0 => hnt (h20 h0), hnt2⟩)).mono (by omega)
  -- the branches in the order of the code
  refine Safe.read hinv hR ?_
  split
  · next h0 => exact ((h1 (.inl h0)).2).mono (by omega)
  · next hne1 =>
      refine Safe.read hinv hR ?_
      split
      · next h20 =>
          refine Safe.read hinv hR ?_
          split
          · next hnt => exact ((h2 (not_or.mpr ⟨hne1, hnt⟩) (.inl h20)).2).mono (by omega)
          · next ht => exact helse hne1 fun _ => not_not.mp ht
      · next hne2 => exact (helse hne1 fun h0 => absurd h0 hne2).mono (by omega)

/-- The end of a packet: the table has become what was pending. -/
theorem safe_next {nodes' : Bucket → List Addr} {tmp : Option Addr} {todo : List Hash} {k : ℕ}
    {T : Bucket → Row} (hp : Pending L own target C R nodes m todo k T)
    (hm' : Holds L own R nodes' m') (hlen : ∀ b ∈ own, (nodes' b).length ≤ (nodes b).length + k)
    (hT : ∀ b ∈ own, table m' nodes' b = T b) (hn : budget C todo ≤ n) :
    SafeIn L own target C R (.goto (.packet tmp todo)) (n + 1) m' := by
  refine Safe.goto ⟨nodes', hm'⟩ ⟨nodes', .packet ⟨hm', hp.owned, fun b hb => ?_, fun b hb => ?_⟩⟩ hn
  · have hshort := hp.short b hb
    have hle := hlen b hb
    omega
  · rw [record_agree hT hb]
    exact hp.target b hb

/-! ## The walk -/

variable {h : Hash} {todo : List Hash} {tmp : Option Addr} {pre post : List Addr} {f : Addr}

/-- The node `f` takes the packet: its tag is the tag of the packet already, or
`f->rss_high = index_h`. -/
theorem safe_taken (tmp : Option Addr) (hL : L ≠ .doubleHash) (hb : indexL h ∈ own)
    (hnodes : nodes (indexL h) = pre ++ f :: post)
    (htaken : m (.rssHigh f) = (0 : Tag) ∨ m (.rssHigh f) = indexH h)
    (hp : Pending L own target C R nodes m todo 1 (withFlows (table m nodes) (indexL h)
      (pre.map (entry m) ++ L.walk (indexH h) ((f :: post).map (entry m)))))
    (hn : budget C todo ≤ n) :
    (m (.rssHigh f) = indexH h →
        SafeIn L own target C R (incNode f <| .goto (.packet tmp todo)) (n + 3) m) ∧
      SafeIn L own target C R
        (.write (.rssHigh f) (indexH h) <| incNode f <| .goto (.packet tmp todo)) (n + 4) m := by
  have hm := hp.holds
  have hf : f ∈ nodes (indexL h) := hnodes ▸ List.mem_append_right pre List.mem_cons_self
  have hR : Sum.inr f ∈ R := hm.inr_mem hb hf
  rw [List.map_cons, walk_cons_of_taken hL htaken] at hp
  -- only the entry of `f` changes, and it becomes the one of the model
  have hend : ∀ m', Holds L own R nodes m' → (∀ x : Field, x.site ≠ .inr f → m' x = m x) →
      entry m' f = { rssHigh := indexH h, ctr := m (.nodeCtr f) + 1, stats := () } →
      SafeIn L own target C R (.goto (.packet tmp todo)) (n + 1) m' := by
    intro m' hm' hoff hentry
    refine safe_next hp hm' (fun b _ => Nat.le_succ _) (fun b hb' => ?_) hn
    rw [table_node hm.chains hb hnodes hoff hb', hentry]
    rfl
  have hm₁ : Holds L own R nodes (Function.update m (.rssHigh f) (indexH h)) :=
    hm.assign _ (by simp) (by simp)
  constructor
  · intro ht
    refine safe_incNode hm hR (hend _ (hm.assign _ (by simp) (by simp)) ?_ ?_)
    · intro x hx
      rw [Function.update_of_ne (by rintro rfl; exact hx rfl)]
    · simp [entry, ht]
  · refine Safe.write ⟨nodes, hm⟩ hR
      (safe_incNode hm₁ hR (hend _ (hm₁.assign _ (by simp) (by simp)) ?_ ?_))
    · intro x hx
      rw [Function.update_of_ne (by rintro rfl; exact hx rfl),
        Function.update_of_ne (by rintro rfl; exact hx rfl)]
    · simp [entry]

/-- The node `f` does not take the packet: `tmp = f; f = f->next`. -/
theorem safe_advance (hL : L ≠ .doubleHash) (hb : indexL h ∈ own)
    (hnodes : nodes (indexL h) = pre ++ f :: post) (h0 : m (.rssHigh f) ≠ (0 : Tag))
    (ht : m (.rssHigh f) ≠ indexH h)
    (hp : Pending L own target C R nodes m todo 1 (withFlows (table m nodes) (indexL h)
      (pre.map (entry m) ++ L.walk (indexH h) ((f :: post).map (entry m))))) :
    SafeIn L own target C R (.read (.next f) fun next => .goto (.walk next (some f) h todo))
      (budget C todo + 4 * post.length + 22) m := by
  have hm := hp.holds
  have hf : f ∈ nodes (indexL h) := hnodes ▸ List.mem_append_right pre List.mem_cons_self
  have hnodes' : nodes (indexL h) = (pre ++ [f]) ++ post := by
    rw [hnodes, List.append_assoc, List.singleton_append]
  refine Safe.read ⟨nodes, hm⟩ (hm.inr_mem hb hf) ?_
  refine Safe.goto ⟨nodes, hm⟩ ⟨nodes, .walk hL hb hnodes' ?_ ?_ ?_⟩ le_rfl
  · have hlinked := hm.chains.linked _ hb
    rw [hnodes] at hlinked
    exact hlinked.next.head?
  · intro _
    simp
  · rw [List.map_cons, walk_cons_of_not_taken hL h0 ht] at hp
    rw [List.map_append, List.append_assoc]
    exact hp

/-! ## The new node -/

/-- The memories differ at the node `f` only. -/
def OffNode (f : Addr) (m m' : Memory) : Prop := ∀ x : Field, x.site ≠ .inr f → m' x = m x

theorem offNode_calloc (f : Addr) (m : Memory) : OffNode f m (calloc f m) :=
  fun _ hx => if_neg hx

theorem OffNode.assign (hm : OffNode f m m') {x : Field} (hx : x.site = .inr f) (v : x.Val) :
    OffNode f m (Function.update m' x v) := by
  intro y hy
  rw [Function.update_of_ne (by rintro rfl; exact hy hx), hm y hy]

/-- What happens at a node outside of the region does not concern the chains. -/
theorem Holds.offNode (h : Holds L own R nodes m) (hf : Sum.inr f ∉ R) (hm : OffNode f m m') :
    Holds L own (insert (.inr f) R) nodes m' ∧
      ∀ b ∈ own, table m' nodes b = table m nodes b := by
  have hagree : AgreeOn Field.site (sites own nodes) m m' :=
    fun x hx => hm x fun he => hf (h.region (he ▸ hx))
  exact ⟨h.congr (Set.subset_insert _ _) hagree, fun b hb => table_agreeOn hagree hb⟩

/-- A new node that has been filled in is linked. -/
theorem safe_filled (hL : L ≠ .doubleHash) (hb : indexL h ∈ own)
    (htmp : tmp = (nodes (indexL h)).getLast?)
    (hp : Pending L own target C R nodes m todo 1 (withFlows (table m nodes) (indexL h)
      ((table m nodes (indexL h)).flows ++ [newEntry (indexH h)])))
    (hf : Sum.inr f ∉ R) (hm : OffNode f m m') (hrss : m' (.rssHigh f) = indexH h)
    (hctr : m' (.nodeCtr f) = (1 : BitVec 32)) :
    SafeIn L own target C (insert (.inr f) R)
      (.write (.next f) none <| .goto (.link f tmp h todo)) (budget C todo + 6) m' := by
  have hm₁ : OffNode f m (Function.update m' (.next f) none) := hm.assign rfl _
  obtain ⟨hholds, -⟩ := hp.holds.offNode hf hm
  obtain ⟨hholds₁, hT⟩ := hp.holds.offNode hf hm₁
  refine Safe.write ⟨nodes, hholds⟩ (Set.mem_insert _ _) ?_
  refine Safe.goto ⟨nodes, hholds₁⟩ ⟨nodes, .link hL hb htmp (Set.mem_insert _ _) ?_ ?_ ?_ ?_⟩
    le_rfl
  · exact fun b hb' hmem => hf (hp.holds.inr_mem hb' hmem)
  · rw [Function.update_self]
  · simp [entry, newEntry, hrss, hctr]
  · refine ⟨hholds₁, hp.owned, hp.short, fun b hb' => ?_⟩
    rw [hT _ hb, record_agree (fun b hb' => withFlows_agree hT hb _ hb') hb']
    exact hp.target b hb'

/-- `tmp->next = f` -/
theorem safe_link (hat : At L own target C R nodes m (.link f tmp h todo) n)
    (tmp' : Addr → Option Addr) :
    SafeIn L own target C R (link f tmp fun tmp => .goto (.packet (tmp' tmp) todo)) n m := by
  cases hat with
  | link hL hb htmp hR hf hnext hentry hp =>
      have hm := hp.holds
      obtain ⟨last, hlast⟩ := hm.exists_last hL hb
      rw [hlast] at htmp
      subst htmp
      have hchains := hm.chains.append hb hlast hf hnext
      have hlen : ∀ b, (Function.update nodes (indexL h) (nodes (indexL h) ++ [f]) b).length ≤
          (nodes b).length + 1 := by
        intro b
        rcases eq_or_ne b (indexL h) with rfl | hneb
        · rw [Function.update_self, List.length_append, List.length_singleton]
        · rw [Function.update_of_ne hneb]
          exact Nat.le_succ _
      refine Safe.write ⟨nodes, hm⟩ (hm.inr_mem hb (List.mem_of_getLast? hlast)) ?_
      refine safe_next hp ⟨hchains, ?_, ?_⟩ (fun b _ => hlen b) ?_ (Nat.le_add_right _ 2)
      · -- the new node is in the region
        rintro y (⟨b, hb', rfl⟩ | ⟨b, hb', g, hg, rfl⟩)
        · exact hm.inl_mem hb'
        · rcases eq_or_ne b (indexL h) with rfl | hneb
          · rw [Function.update_self] at hg
            rcases List.mem_append.mp hg with hg | hg
            · exact hm.inr_mem hb' hg
            · rw [List.mem_singleton.mp hg]
              exact hR
          · rw [Function.update_of_ne hneb] at hg
            exact hm.inr_mem hb' hg
      · intro _ b hb' hnil
        rcases eq_or_ne b (indexL h) with rfl | hneb
        · simp at hnil
        · rw [Function.update_of_ne hneb] at hnil
          exact hm.nonempty hL b hb' hnil
      · intro b _
        rw [table_append, hentry]
        rfl

/-! ## The labels -/

theorem Pending.cons {T : Bucket → Row} (hp : Pending L own target C R nodes m (h :: todo) 0 T) :
    indexL h ∈ own ∧ Pending L own target C R nodes m todo 1
      (Function.update T (indexL h) (L.packet (indexH h) (T (indexL h)))) := by
  refine ⟨hp.owned h List.mem_cons_self, hp.holds, fun x hx => hp.owned x (List.mem_cons_of_mem h hx),
    fun b hb => ?_, fun b hb => hp.target b hb⟩
  have hshort := hp.short b hb
  rw [List.length_cons] at hshort
  omega

/-- `f = flows` in front of the `while` loop. -/
theorem safe_first (hL : L ≠ .doubleHash) (hb : indexL h ∈ own)
    (hp : Pending L own target C R nodes m todo 1 (withFlows (table m nodes) (indexL h)
      (L.walk (indexH h) (table m nodes (indexL h)).flows))) :
    SafeIn L own target C R (.read (.flows (indexL h)) fun f => .goto (.walk f tmp h todo))
      (budget C todo + 4 * C + 22) m := by
  have hm := hp.holds
  have hshort := hp.short _ hb
  have hnodes : nodes (indexL h) = [] ++ nodes (indexL h) := rfl
  refine Safe.read ⟨nodes, hm⟩ (hm.inl_mem hb) ?_
  refine Safe.goto ⟨nodes, hm⟩ ⟨nodes, .walk hL hb hnodes ?_ ?_ hp⟩ (by omega)
  · exact (hm.chains.linked _ hb).head?
  · intro hne
    exact absurd rfl hne

/-- Both layouts with slots, up to what they do when no slot takes the packet. -/
theorem safe_packet_slots {last : Worker} (hL : L ≠ .linkedList)
    (hp : Pending L own target C R nodes m (h :: todo) 0 (table m nodes))
    (hlast : (table m nodes (indexL h)).toSlots.update (SlotIpg.off 32) 0 (indexH h) = none →
      SafeIn L own target C R last (budget C todo + 4 * C + 30) m) :
    SafeIn L own target C R
      (slots (indexL h) (indexH h) (.goto (.packet tmp todo)) last) (budget C (h :: todo)) m := by
  obtain ⟨hb, hp'⟩ := hp.cons
  rw [budget_cons]
  refine (safe_slots hp.holds hb (fun m' s hs hm' hT => ?_) hlast).mono (by omega)
  refine safe_next hp' hm' (fun b _ => Nat.le_succ _) (fun b _ => ?_) (by omega)
  rw [hT, packet_of_slots hL hs]

/-- The head of the packet loop. -/
theorem safe_packet (hp : Pending L own target C R nodes m todo 0 (table m nodes)) :
    SafeIn L own target C R (L.code (.packet tmp todo)) (budget C todo) m := by
  have hm := hp.holds
  cases todo with
  | nil =>
      have hcode : L.code (.packet tmp []) = .halt := by cases L <;> rfl
      rw [hcode]
      exact Safe.halt ⟨nodes, hm⟩ ⟨nodes, hm, hp.target⟩
  | cons h todo =>
      obtain ⟨hb, hp'⟩ := hp.cons
      cases L with
      | doubleHash =>
          refine safe_packet_slots (by simp) hp fun hnone => ?_
          refine (safe_incCtr hm hb (safe_next hp' (hm.assign _ (by simp) (by simp))
            (fun b _ => Nat.le_succ _) (fun b _ => ?_) le_rfl)).mono (by omega)
          rw [table_ctr2, doubleHash_packet_of_none hnone]
          rfl
      | linkedList =>
          rw [budget_cons]
          exact (safe_first (by simp) hb hp').mono (by omega)
      | hashList =>
          refine safe_packet_slots (by simp) hp fun hnone => ?_
          rw [hashList_packet_of_none hnone] at hp'
          have hinv : (spec .hashList own target C).inv R m := ⟨nodes, hm⟩
          exact (Safe.read hinv (hm.inl_mem hb) (safe_first (by simp) hb hp')).mono (by omega)

/-- The head of the `while` loop at the node `f`. -/
theorem safe_walk_some (hat : At L own target C R nodes m (.walk (some f) tmp h todo) n) :
    SafeIn L own target C R (L.code (.walk (some f) tmp h todo)) n m := by
  cases hat with
  | @walk _ _ _ _ pre rest hL hb hnodes hf htmp hp =>
      obtain ⟨post, rfl⟩ := List.head?_eq_some_iff.mp hf.symm
      have hinv : (spec L own target C).inv R m := ⟨nodes, hp.holds⟩
      have hR : Sum.inr f ∈ R :=
        hp.holds.inr_mem hb (hnodes ▸ List.mem_append_right pre List.mem_cons_self)
      have hlen : (f :: post).length = post.length + 1 := rfl
      have htaken : ∀ tmp, m (.rssHigh f) = (0 : Tag) ∨ m (.rssHigh f) = indexH h → _ :=
        fun tmp ht => safe_taken tmp hL hb hnodes ht hp le_rfl
      cases L with
      | doubleHash => exact absurd rfl hL
      | linkedList =>
          refine Safe.read hinv hR ?_
          split
          · next h0 => exact (htaken none (.inl h0)).2.mono (by omega)
          · next h0 =>
              refine Safe.read hinv hR ?_
              split
              · next ht => exact ((htaken none (.inr ht)).1 ht).mono (by omega)
              · next ht => exact (safe_advance hL hb hnodes h0 ht hp).mono (by omega)
      | hashList =>
          refine Safe.read hinv hR ?_
          split
          · next ht => exact ((htaken tmp (.inr ht)).1 ht).mono (by omega)
          · next ht =>
              refine Safe.read hinv hR ?_
              split
              · next h0 => exact (htaken tmp (.inl h0)).2.mono (by omega)
              · next h0 => exact (safe_advance hL hb hnodes h0 ht hp).mono (by omega)

/-- The head of the `while` loop, behind the last node. -/
theorem safe_walk_none (hat : At L own target C R nodes m (.walk none tmp h todo) n) :
    SafeIn L own target C R (.goto (.append tmp h todo)) n m := by
  cases hat with
  | @walk _ _ _ _ pre rest hL hb hnodes hf htmp hp =>
      -- the whole chain is behind the walk, and it is not empty: `tmp` has been assigned
      obtain rfl := List.head?_eq_none_iff.mp hf.symm
      rw [List.append_nil] at hnodes
      rw [List.map_nil, walk_nil hL, ← hnodes] at hp
      have hne := hp.holds.nonempty hL _ hb
      refine Safe.goto ⟨nodes, hp.holds⟩ ⟨nodes, .append hL hb ?_ hp⟩ (by omega)
      rw [hnodes] at hne ⊢
      exact htmp hne

/-- Behind the `while` loop, with `hit == 0`. -/
theorem safe_append (hat : At L own target C R nodes m (.append tmp h todo) n) :
    SafeIn L own target C R (L.code (.append tmp h todo)) n m := by
  cases hat with
  | append hL hb htmp hp =>
      have hm := hp.holds
      have hinv : (spec L own target C).inv R m := ⟨nodes, hm⟩
      cases L with
      | doubleHash => exact absurd rfl hL
      | linkedList =>
          refine Safe.alloc hinv fun f hf => ?_
          have h₀ : OffNode f m (calloc f m) := offNode_calloc f m
          have h₁ := h₀.assign (x := .rssHigh f) rfl (indexH h)
          have h₂ := h₁.assign (x := .nodeCtr f) rfl (1 : BitVec 32)
          refine Safe.write ⟨nodes, (hm.offNode hf h₀).1⟩ (Set.mem_insert _ _) ?_
          refine Safe.write ⟨nodes, (hm.offNode hf h₁).1⟩ (Set.mem_insert _ _) ?_
          refine (safe_filled hL hb htmp hp hf h₂ ?_ ?_).mono (by omega)
          · simp
          · simp
      | hashList =>
          refine Safe.alloc hinv fun f hf => ?_
          have h₀ : OffNode f m (calloc f m) := offNode_calloc f m
          have h₁ := h₀.assign (x := .rssHigh f) rfl (indexH h)
          refine Safe.write ⟨nodes, (hm.offNode hf h₀).1⟩ (Set.mem_insert _ _) ?_
          refine (safe_incNode (hm.offNode hf h₁).1 (Set.mem_insert _ _)
            (safe_filled hL hb htmp hp hf (h₁.assign rfl _) ?_ ?_)).mono (by omega)
          · simp
          · simp [calloc, blank, Field.site, Field.zero]

/-- **The code of a worker is safe**: from each label on, it keeps to its buckets, keeps their
chains, and goes on to the next label with what has to hold there. -/
theorem safe_code {l : Label} (hat : At L own target C R nodes m l n) :
    SafeIn L own target C R (L.code l) n m := by
  cases l with
  | packet tmp todo =>
      cases hat with
      | packet hp => exact safe_packet hp
  | walk f tmp h todo =>
      cases f with
      | some f => exact safe_walk_some hat
      | none =>
          have hgoto := safe_walk_none hat
          cases L with
          | doubleHash =>
              cases hat with
              | walk hL => exact absurd rfl hL
          | linkedList => exact hgoto
          | hashList => exact hgoto
  | append tmp h todo => exact safe_append hat
  | link f tmp h todo =>
      have hlink := safe_link hat
      cases L with
      | doubleHash =>
          cases hat with
          | link hL => exact absurd rfl hL
      | linkedList => exact hlink fun _ => none
      | hashList => exact hlink some

end Heap
end RunToCompletion
end FloWatcher
