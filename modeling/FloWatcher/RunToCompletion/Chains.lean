import FloWatcher.RunToCompletion.Safety

/-!
# The life of the chains

`port_init` builds the chains, and from then on the workers, as long as no bucket has two of them,
keep them (`separated_launch`). With one worker for all buckets this is what `hash_list` does to
the chains over any sequence of packets, in particular with a `tmp` that it never resets
(`hashList_chains`).
-/

namespace FloWatcher
namespace RunToCompletion
namespace Heap

open Shared

variable {L : Layout} {addr : Bucket × Nat ↪ Addr} {m : Memory}

/-! ## After `port_init` -/

/-- A bucket after `port_init`. -/
def Layout.init (L : Layout) : Row where
  toPktCount := DoubleHash.PktCount.init (SlotIpg.off 32)
  flows := match L with
    | .doubleHash => []
    | .linkedList | .hashList => chainInit 32 () L.entryPerFlow

def Zeroed (m : Memory) : Prop :=
  ∀ x : Field, (∀ b, x ≠ .flows b) → (∀ f, x ≠ .next f) → m x = x.zero

theorem Zeroed.flows (h : Zeroed m) (b : Bucket) (p : Option Addr) :
    Zeroed (set (.flows b) p m) := by
  intro x hx hx'
  rw [set, Function.update_of_ne (hx b), h x hx hx']

theorem Zeroed.next (h : Zeroed m) (f : Addr) (p : Option Addr) : Zeroed (set (.next f) p m) := by
  intro x hx hx'
  rw [set, Function.update_of_ne (hx' f), h x hx hx']

theorem Zeroed.calloc (h : Zeroed m) (f : Addr) : Zeroed (calloc f m) := by
  intro x hx hx'
  unfold Heap.calloc blank
  split
  · rfl
  · exact h x hx hx'

/-- A tag or counter is set to `0` in vain. -/
theorem Zeroed.set_zero (h : Zeroed m) (x : Field) (hx : ∀ b, x ≠ .flows b) (hx' : ∀ f, x ≠ .next f)
    {v : x.Val} (hv : v = x.zero) : set x v m = m := by
  rw [set, hv, ← h x hx hx', Function.update_eq_self]

theorem Zeroed.set_node (h : Zeroed m) (f : Addr) :
    set (.nodeCtr f) (0 : BitVec 32) (set (.rssHigh f) (0 : Tag) m) = m := by
  have hrss : set (.rssHigh f) (0 : Tag) m = m := h.set_zero _ (by simp) (by simp) rfl
  have hctr : set (.nodeCtr f) (0 : BitVec 32) m = m := h.set_zero _ (by simp) (by simp) rfl
  rw [hrss, hctr]

theorem Zeroed.set_slots (h : Zeroed m) (b : Bucket) :
    set (.ctr b 1) (0 : BitVec 32) (set (.ctr b 0) (0 : BitVec 32)
      (set (.hiF1 b) (0 : Tag) (set (.hiF2 b) (0 : Tag) m))) = m := by
  have hhiF1 : set (.hiF1 b) (0 : Tag) m = m := h.set_zero _ (by simp) (by simp) rfl
  have hhiF2 : set (.hiF2 b) (0 : Tag) m = m := h.set_zero _ (by simp) (by simp) rfl
  have hctr : ∀ j, set (.ctr b j) (0 : BitVec 32) m = m := fun j =>
    h.set_zero _ (by simp) (by simp) rfl
  rw [hhiF2, hhiF1, hctr, hctr]

/-- The `while` loop links the nodes behind `f`. -/
theorem appendNodes_spec {clear : Addr → Memory → Memory}
    (hclear : ∀ g m, Zeroed m → clear g m = m) {f : Addr} {fs : List Addr} (h : Zeroed m)
    (hnodup : (f :: fs).Nodup) (hnext : m (.next f) = none) :
    Zeroed (appendNodes clear f fs m) ∧
      Linked (appendNodes clear f fs m) (appendNodes clear f fs m (.next f)) fs ∧
      ∀ x : Field, (∀ g ∈ f :: fs, x.site ≠ .inr g) → appendNodes clear f fs m x = m x := by
  induction fs generalizing f m with
  | nil => exact ⟨h, hnext, fun _ _ => rfl⟩
  | cons g gs ih =>
      obtain ⟨hfg, hnodup⟩ := List.nodup_cons.mp hnodup
      have hne : f ≠ g := fun he => hfg (he ▸ List.mem_cons_self)
      have h₁ : Zeroed (set (.next f) (some g) (calloc g m)) := (h.calloc g).next f _
      rw [appendNodes, hclear g _ h₁]
      obtain ⟨hz, hlinked, hoff⟩ := ih (h₁.next g none) hnodup (Function.update_self ..)
      refine ⟨hz, ⟨?_, hlinked⟩, ?_⟩
      · rw [hoff (.next f) fun a ha => by
          rintro ⟨⟩
          exact hfg ha]
        simp [set, hne]
      · intro x hx
        rw [hoff x fun a ha => hx a (List.mem_cons_of_mem f ha)]
        have hxf : x ≠ .next f := fun he => hx f List.mem_cons_self (he ▸ rfl)
        have hxg := hx g (List.mem_cons_of_mem f List.mem_cons_self)
        have hxg' : x ≠ .next g := fun he => hxg (he ▸ rfl)
        rw [set, set, Function.update_of_ne hxg', Function.update_of_ne hxf]
        exact if_neg hxg

/-- The chain through the nodes `fs` has been built in bucket `b`, and nothing else. -/
structure Built (b : Bucket) (fs : List Addr) (m m' : Memory) : Prop where
  zeroed : Zeroed m'
  linked : Linked m' (m' (.flows b)) fs
  off : ∀ x : Field, x.site ≠ .inl b → (∀ g ∈ fs, x.site ≠ .inr g) → m' x = m x

theorem built_appendNodes {clear : Addr → Memory → Memory}
    (hclear : ∀ g m, Zeroed m → clear g m = m) {b : Bucket} {f : Addr} {fs : List Addr}
    {m₁ : Memory} (h : Zeroed m₁) (hnodup : (f :: fs).Nodup) (hflows : m₁ (.flows b) = some f)
    (hnext : m₁ (.next f) = none)
    (hoff : ∀ x : Field, x.site ≠ .inl b → x.site ≠ .inr f → m₁ x = m x) :
    Built b (f :: fs) m (appendNodes clear f fs m₁) := by
  obtain ⟨hz, hlinked, hoff'⟩ := appendNodes_spec hclear h hnodup hnext
  refine ⟨hz, ⟨?_, hlinked⟩, fun x hx hx' => ?_⟩
  · rw [hoff' _ fun g _ => by simp [Field.site], hflows]
  · rw [hoff' x hx', hoff x hx (hx' f List.mem_cons_self)]

/-- What `port_init` does for a bucket with a chain. -/
theorem built_initBucket (hL : L ≠ .doubleHash) (b : Bucket) {f : Addr} {fs : List Addr}
    (h : Zeroed m) (hnodup : (f :: fs).Nodup) : Built b (f :: fs) m (L.initBucket b f fs m) := by
  have h₁ : Zeroed (set (.flows b) (some f) (calloc f m)) := (h.calloc f).flows b _
  have hoff : ∀ x : Field, x.site ≠ .inl b → x.site ≠ .inr f →
      set (.flows b) (some f) (calloc f m) x = m x := by
    intro x hx hxf
    have hxb : x ≠ .flows b := fun he => hx (he ▸ rfl)
    rw [set, Function.update_of_ne hxb]
    exact if_neg hxf
  cases L with
  | doubleHash => exact absurd rfl hL
  | linkedList =>
      rw [Layout.initBucket, h₁.set_node]
      refine built_appendNodes (fun g _ hm => hm.set_node g) (h₁.next f none) hnodup ?_ ?_ ?_
      · simp [set]
      · simp [set]
      · intro x hx hxf
        have hxn : x ≠ .next f := fun he => hxf (he ▸ rfl)
        rw [set, Function.update_of_ne hxn, hoff x hx hxf]
  | hashList =>
      rw [Layout.initBucket, h.set_slots]
      refine built_appendNodes (fun _ _ _ => rfl) h₁ hnodup ?_ ?_ hoff
      · simp [set]
      · simp [set, calloc, blank, Field.site, Field.zero]

theorem nodup_initNodes (L : Layout) (addr : Bucket × Nat ↪ Addr) (b : Bucket) :
    (L.initNodes addr b).Nodup := by
  refine List.Nodup.map (fun i j hij => ?_) List.nodup_range
  exact (Prod.mk.inj (addr.injective hij)).2

theorem mem_initNodes {b : Bucket} {f : Addr} :
    f ∈ L.initNodes addr b ↔ ∃ j < L.entryPerFlow, addr (b, j) = f := by
  simp [Layout.initNodes]

theorem disjoint_initNodes {b b' : Bucket} (hne : b ≠ b') :
    (L.initNodes addr b).Disjoint (L.initNodes addr b') := by
  intro f hf hf'
  obtain ⟨j, -, rfl⟩ := mem_initNodes.mp hf
  obtain ⟨j', -, he⟩ := mem_initNodes.mp hf'
  exact hne (Prod.mk.inj (addr.injective he)).1.symm

theorem initNodes_eq (hL : L ≠ .doubleHash) (addr : Bucket × Nat ↪ Addr) (b : Bucket) :
    L.initNodes addr b =
      addr (b, 0) :: (List.range (L.entryPerFlow - 1)).map fun j => addr (b, j + 1) := by
  have hpos : L.entryPerFlow = (L.entryPerFlow - 1) + 1 := by
    cases L with
    | doubleHash => exact absurd rfl hL
    | linkedList => rfl
    | hashList => rfl
  rw [Layout.initNodes, hpos, List.range_succ_eq_map, List.map_cons, List.map_map]
  rfl

/-- The buckets with chains, one after the other. -/
theorem linked_initBuckets (hL : L ≠ .doubleHash) (addr : Bucket × Nat ↪ Addr) {bs : List Bucket}
    (hnodup : bs.Nodup) :
    Zeroed (L.initBuckets addr bs) ∧
      ∀ b ∈ bs, Linked (L.initBuckets addr bs) (L.initBuckets addr bs (.flows b))
        (L.initNodes addr b) := by
  induction bs using List.reverseRecOn with
  | nil => exact ⟨fun _ _ _ => rfl, fun b hb => absurd hb List.not_mem_nil⟩
  | append_singleton bs b ih =>
      obtain ⟨hbs, -, hdisj⟩ := List.nodup_append.mp hnodup
      obtain ⟨hz, hlinked⟩ := ih hbs
      have hnodes := nodup_initNodes L addr b
      rw [initNodes_eq hL] at hnodes
      have hbuilt := built_initBucket hL b hz hnodes
      rw [← initNodes_eq hL] at hbuilt
      have hconcat : L.initBuckets addr (bs ++ [b]) = L.initBucket b (addr (b, 0))
          ((List.range (L.entryPerFlow - 1)).map fun j => addr (b, j + 1)) (L.initBuckets addr bs) :=
        List.foldl_append
      rw [hconcat]
      refine ⟨hbuilt.zeroed, fun b' hb' => ?_⟩
      rcases List.mem_append.mp hb' with hb' | hb'
      · -- an earlier bucket: nothing of it has been touched
        have hne : b' ≠ b := hdisj b' hb' b List.mem_cons_self
        have hflows := hbuilt.off (.flows b') (by simpa [Field.site] using hne)
          (by simp [Field.site])
        rw [hflows]
        refine (hlinked b' hb').congr fun f hf => hbuilt.off (.next f) (by simp [Field.site]) ?_
        intro g hg he
        cases he
        exact disjoint_initNodes hne hf hg
      · rw [List.mem_singleton.mp hb']
        exact hbuilt.linked

/-- Without chains, only zeros are assigned. -/
theorem initBuckets_doubleHash (addr : Bucket × Nat ↪ Addr) (bs : List Bucket) :
    Layout.doubleHash.initBuckets addr bs = Field.zero := by
  refine List.foldl_fixed' (fun b => ?_) bs
  have hz : Zeroed Field.zero := fun _ _ _ => rfl
  have hctr : set (.ctr b 2) (0 : BitVec 32) Field.zero = Field.zero :=
    hz.set_zero _ (by simp) (by simp) rfl
  rw [Layout.initBucket, hz.set_slots, hctr]

/-- **`port_init`** leaves a table of zeros with the chains through the nodes it allocated. -/
theorem portInit_spec (L : Layout) (addr : Bucket × Nat ↪ Addr) :
    Zeroed (L.portInit addr) ∧
      ∀ b, Linked (L.portInit addr) (L.portInit addr (.flows b)) (L.initNodes addr b) := by
  by_cases hL : L = .doubleHash
  · subst hL
    rw [Layout.portInit, initBuckets_doubleHash]
    exact ⟨fun _ _ _ => rfl, fun _ => rfl⟩
  · obtain ⟨hz, hlinked⟩ := linked_initBuckets hL addr (List.nodup_finRange flowNum)
    exact ⟨hz, fun b => hlinked b (List.mem_finRange b)⟩

theorem chains_portInit (L : Layout) (addr : Bucket × Nat ↪ Addr) (o : Set Bucket) :
    Chains o (L.initNodes addr) (L.portInit addr) :=
  ⟨fun b _ => (portInit_spec L addr).2 b, fun b _ => nodup_initNodes L addr b,
    fun _ _ _ _ hne => disjoint_initNodes hne⟩

/-- The table that the models start from. -/
theorem table_portInit (L : Layout) (addr : Bucket × Nat ↪ Addr) :
    table (L.portInit addr) (L.initNodes addr) = fun _ => L.init := by
  obtain ⟨hz, -⟩ := portInit_spec L addr
  have hentry : ∀ f, entry (L.portInit addr) f = FlowEntry.zeroed 32 () := by
    intro f
    rw [entry, hz (.rssHigh f) (by simp) (by simp), hz (.nodeCtr f) (by simp) (by simp)]
    rfl
  funext b
  have hflows : (L.initNodes addr b).map (entry (L.portInit addr)) = L.init.flows := by
    rw [funext hentry, List.map_const', Layout.initNodes, List.length_map, List.length_range]
    cases L <;> rfl
  rw [table, hflows, hz (.hiF1 b) (by simp) (by simp), hz (.hiF2 b) (by simp) (by simp),
    hz (.ctr b 0) (by simp) (by simp), hz (.ctr b 1) (by simp) (by simp),
    hz (.ctr b 2) (by simp) (by simp)]
  rfl

/-! ## From the launch on -/

variable {ι : Type} {ps : ι → List Hash} {own : ι → Set Bucket} {target : Bucket → Row}

/-- A bound on the lengths of the chains of a worker. -/
def chainBound (L : Layout) (hs : List Hash) : ℕ := L.entryPerFlow + hs.length

theorem mem_launch : (L.launch addr ps).mem = L.portInit addr := by
  dsimp only [Layout.launch]

/-- Workers that are launched with buckets of their own are separated from each other and from
the buckets that nobody owns. -/
theorem separated_launch (L : Layout) (addr : Bucket × Nat ↪ Addr) (ps : ι → List Hash)
    (own : ι → Set Bucket) (target : Bucket → Row)
    (hdisj : ∀ w w', w ≠ w' → Disjoint (own w) (own w'))
    (howned : ∀ w, ∀ h ∈ ps w, indexL h ∈ own w)
    (htarget : ∀ w, ∀ b ∈ own w, L.record (ps w) (fun _ => L.init) b = target b) :
    Separated Field.zero Field.site
      (fun w => spec L (own w) target (chainBound L (ps w)))
      (sites {b | ∀ w, b ∉ own w} (L.initNodes addr)) (L.portInit addr)
      (fun w => budget (chainBound L (ps w)) (ps w) + 1)
      (fun w => sites (own w) (L.initNodes addr)) (L.launch addr ps) := by
  -- no node is in the chains of two buckets, so disjoint sets of buckets have disjoint sites
  have hsites : ∀ {o o' : Set Bucket}, Disjoint o o' →
      Disjoint (sites o (L.initNodes addr)) (sites o' (L.initNodes addr)) := by
    intro o o' ho
    apply Set.disjoint_left.mpr
    rintro _ (⟨b, hb, rfl⟩ | ⟨b, hb, f, hf, rfl⟩) hy
    · exact Set.disjoint_left.mp ho hb (inl_mem_sites.mp hy)
    · obtain ⟨b', hb', hf'⟩ := inr_mem_sites.mp hy
      have hne : b ≠ b' := fun he => Set.disjoint_left.mp ho hb (he ▸ hb')
      exact disjoint_initNodes hne hf hf'
  refine ⟨fun w => ?_, fun w w' hne => hsites (hdisj w w' hne), fun w => hsites ?_, ?_, ?_⟩
  -- every worker starts at its first packet, with the chains as the launch leaves them
  · rw [mem_launch]
    have hholds : Holds L (own w) (sites (own w) (L.initNodes addr)) (L.initNodes addr)
        (L.portInit addr) := by
      refine ⟨chains_portInit L addr _, subset_rfl, fun hL b _ => ?_⟩
      rw [initNodes_eq hL]
      exact List.cons_ne_nil _ _
    refine Safe.goto ⟨_, hholds⟩ ⟨_, .packet ⟨hholds, howned w, fun b _ => ?_, fun b hb => ?_⟩⟩ le_rfl
    · rw [Layout.initNodes, List.length_map, List.length_range]
      exact le_rfl
    · rw [table_portInit]
      exact htarget w b hb
  · exact Set.disjoint_left.mpr fun b hb hnone => hnone w hb
  · intro f hf
    have hmem : ∃ b, f ∈ L.initNodes addr b := by
      rcases hf with hf | ⟨w, hf⟩
      · obtain ⟨b, -, hf⟩ := inr_mem_sites.mp hf
        exact ⟨b, hf⟩
      · obtain ⟨b, -, hf⟩ := inr_mem_sites.mp hf
        exact ⟨b, hf⟩
    obtain ⟨b, hf⟩ := hmem
    dsimp only [Layout.launch]
    exact List.mem_flatMap.mpr ⟨b, List.mem_finRange b, hf⟩
  · rw [mem_launch]
    exact .refl _

/-- The code behind every label is safe. -/
theorem safe_label {C : ι → ℕ} (w : ι) (l : Label) (n : ℕ) (R : Set (Bucket ⊕ Addr)) (m : Memory)
    (h : (spec L (own w) target (C w)).jump l n R m) :
    Safe Field.zero Field.site (spec L (own w) target (C w)) (L.code l) n R m := by
  obtain ⟨nodes, hat⟩ := h
  exact safe_code hat

theorem holds_of_locally {o : Set Bucket} {R : Set (Bucket ⊕ Addr)} {m₀ : Memory}
    {nodes : Bucket → List Addr} (hm : AgreeOn Field.site R m₀ m) (h : Holds L o R nodes m₀) :
    Holds L o R nodes m :=
  h.congr subset_rfl (hm.mono h.region)

/-! ## The chains of `hash_list` -/

/-- What is true of the chains of `hash_list` in a state of its worker. -/
structure WellChained (s : State Unit Addr Label Field.Val) (nodes : Bucket → List Addr) : Prop where
  /-- `pkt_ctr[b].flows` leads along the nodes of a chain -/
  nonempty : ∀ b, nodes b ≠ []
  /-- that ends in `NULL`, has no node twice and shares none with another bucket -/
  chains : Chains Set.univ nodes s.mem
  /-- when a search ends with `hit == 0`, `tmp` is the last node of the packet's own bucket -/
  last : ∀ tmp h todo, s.code () = .goto (.append tmp h todo) →
    ∃ f, tmp = some f ∧ (nodes (indexL h)).getLast? = some f
  /-- `tmp->next = f` appends the new node there and changes no other chain -/
  append : ∀ f tmp h todo, s.code () = .goto (.link f tmp h todo) →
    ∃ last, tmp = some last ∧ (nodes (indexL h)).getLast? = some last ∧ (∀ b, f ∉ nodes b) ∧
      Chains Set.univ (Function.update nodes (indexL h) (nodes (indexL h) ++ [f]))
        (Function.update s.mem (.next last) (some f))

/-- **The chains of `hash_list`** are well formed in every state between two accesses, over any
sequence of packets. -/
theorem hashList_chains (addr : Bucket × Nat ↪ Addr) (hs : List Hash) (acts : List (Unit × Addr)) :
    Transition.Always Layout.hashList.step (fun s => ∃ nodes, WellChained s nodes)
      (Layout.hashList.launch addr fun _ => hs) acts := by
  have hsep := separated_launch .hashList addr (fun _ : Unit => hs) (fun _ => Set.univ)
    (Layout.hashList.record hs fun _ => Layout.hashList.init)
    (fun w w' hne => absurd rfl hne) (fun _ _ _ => Set.mem_univ _) (fun _ _ _ => rfl)
  rw [Transition.always_iff_forall_run]
  intro pre _ s hrun
  obtain ⟨N, R, h, -⟩ := hsep.run safe_label hrun
  have hsafe := h.safe ()
  obtain ⟨m₀, hm₀, nodes, hholds⟩ := hsafe.inv
  have hchains := (holds_of_locally hm₀ hholds).chains
  -- at a label, the chains are those that the assertion there is about
  have hlabel : ∀ l, s.code () = .goto l → ∃ m₁ n, AgreeOn Field.site (R ()) m₁ s.mem ∧
      At .hashList Set.univ (Layout.hashList.record hs fun _ => Layout.hashList.init)
        (chainBound .hashList hs) (R ()) nodes m₁ l n := by
    intro l hl
    rw [hl] at hsafe
    obtain ⟨-, n, -, m₁, hm₁, nodes', hat⟩ := hsafe
    have hchains' := (holds_of_locally hm₁ hat.holds).chains
    have heq : nodes' = nodes :=
      funext fun b => (hchains'.linked b trivial).unique (hchains.linked b trivial)
    exact ⟨m₁, n, hm₁, heq ▸ hat⟩
  refine ⟨nodes, fun b => hholds.nonempty (by simp) b trivial, hchains, ?_, ?_⟩
  · intro tmp h todo hcode
    obtain ⟨m₁, n, -, hat⟩ := hlabel _ hcode
    cases hat with
    | append hL hb htmp hp =>
        obtain ⟨last, hlast⟩ := hp.holds.exists_last hL hb
        exact ⟨last, htmp.trans hlast, hlast⟩
  · intro f tmp h todo hcode
    obtain ⟨m₁, n, hm₁, hat⟩ := hlabel _ hcode
    cases hat with
    | link hL hb htmp hR hf hnext hentry hp =>
        obtain ⟨last, hlast⟩ := hp.holds.exists_last hL hb
        have hnext' : s.mem (.next f) = none := (hm₁ (.next f) hR).trans hnext
        exact ⟨last, htmp.trans hlast, hlast, fun b => hf b trivial,
          hchains.append hb hlast hf hnext'⟩

end Heap
end RunToCompletion
end FloWatcher
