import FloWatcher.RunToCompletion.Loop
import FloWatcher.Shared.Safe

/-!
# The tables in memory

The workers of a program share one table. Here it is laid out in memory, field by field and node
by node: `pkt_ctr` and `flows` with their pointers, and the nodes of the chains at addresses. The
table of the models before is what one reads off such a memory along the chains (`table`).
-/

namespace FloWatcher
namespace RunToCompletion
namespace Heap

open Shared

/-- Addresses of nodes; a pointer is an `Option Addr`, with `none` for `NULL`. -/
abbrev Addr := Nat

/-- The fields of `pkt_ctr[b]` (or of `flows[b]`) and of the nodes. -/
inductive Field where
  | hiF1 (b : Bucket)
  | hiF2 (b : Bucket)
  | ctr (b : Bucket) (j : Fin 3)
  | flows (b : Bucket)
  | rssHigh (f : Addr)
  | nodeCtr (f : Addr)
  | next (f : Addr)
  deriving DecidableEq

abbrev Field.Val : Field → Type
  | .hiF1 _ | .hiF2 _ | .rssHigh _ => Tag
  | .ctr _ _ | .nodeCtr _ => BitVec 32
  | .flows _ | .next _ => Option Addr

def Field.site : Field → Bucket ⊕ Addr
  | .hiF1 b | .hiF2 b | .ctr b _ | .flows b => .inl b
  | .rssHigh f | .nodeCtr f | .next f => .inr f

def Field.zero : ∀ x : Field, x.Val
  | .hiF1 _ | .hiF2 _ | .rssHigh _ => (0 : Tag)
  | .ctr _ _ | .nodeCtr _ => (0 : BitVec 32)
  | .flows _ | .next _ => none

abbrev Memory := ∀ x : Field, x.Val

/-! ## Chains -/

/-- The pointer `p` leads along the nodes and then to `NULL`. -/
def Linked (m : Memory) : Option Addr → List Addr → Prop
  | p, [] => p = none
  | p, f :: fs => p = some f ∧ Linked m (m (.next f)) fs

/-- The nodes of the chains of the buckets in `own`: each chain ends in `NULL`, visits no node
twice and shares none with the others. -/
structure Chains (own : Set Bucket) (nodes : Bucket → List Addr) (m : Memory) : Prop where
  linked : ∀ b ∈ own, Linked m (m (.flows b)) (nodes b)
  nodup : ∀ b ∈ own, (nodes b).Nodup
  disjoint : ∀ b ∈ own, ∀ b' ∈ own, b ≠ b' → (nodes b).Disjoint (nodes b')

/-- The buckets in `own` and the nodes of their chains. -/
def sites (own : Set Bucket) (nodes : Bucket → List Addr) : Set (Bucket ⊕ Addr) :=
  {y | (∃ b ∈ own, y = .inl b) ∨ ∃ b ∈ own, ∃ f ∈ nodes b, y = .inr f}

variable {own : Set Bucket} {nodes : Bucket → List Addr} {m m' : Memory}

theorem inl_mem_sites {b : Bucket} : Sum.inl b ∈ sites own nodes ↔ b ∈ own := by
  simp [sites]

theorem inr_mem_sites {f : Addr} : Sum.inr f ∈ sites own nodes ↔ ∃ b ∈ own, f ∈ nodes b := by
  simp [sites]

/-- A chain determines its nodes. -/
theorem Linked.unique {p : Option Addr} {fs gs : List Addr} (hf : Linked m p fs)
    (hg : Linked m p gs) : fs = gs := by
  induction fs generalizing p gs with
  | nil =>
      cases gs with
      | nil => rfl
      | cons g gs =>
          rw [hf] at hg
          exact absurd hg.1 (by simp)
  | cons f fs ih =>
      cases gs with
      | nil =>
          rw [hg] at hf
          exact absurd hf.1 (by simp)
      | cons g gs =>
          obtain ⟨rfl, hf⟩ := hf
          obtain ⟨hfg, hg⟩ := hg
          cases hfg
          rw [ih hf hg]

theorem Linked.head? {p : Option Addr} {fs : List Addr} (h : Linked m p fs) : p = fs.head? := by
  cases fs with
  | nil => exact h
  | cons f fs => exact h.1

theorem Linked.congr {p : Option Addr} {fs : List Addr} (h : Linked m p fs)
    (hnext : ∀ f ∈ fs, m' (.next f) = m (.next f)) : Linked m' p fs := by
  induction fs generalizing p with
  | nil => exact h
  | cons f fs ih =>
      refine ⟨h.1, ?_⟩
      rw [hnext f List.mem_cons_self]
      exact ih h.2 fun g hg => hnext g (List.mem_cons_of_mem f hg)

/-- What the pointer of the node behind `pre` leads to. -/
theorem Linked.next {p : Option Addr} {pre post : List Addr} {f : Addr}
    (h : Linked m p (pre ++ f :: post)) : Linked m (m (.next f)) post := by
  induction pre generalizing p with
  | nil => exact h.2
  | cons g pre ih => exact ih h.2

/-- `tmp->next = f` at the last node of a chain appends `f` to it. -/
theorem Linked.append {p : Option Addr} {fs : List Addr} {tmp f : Addr} (h : Linked m p fs)
    (htmp : fs.getLast? = some tmp) (hnodup : fs.Nodup) (hf : f ∉ fs)
    (hnext : m (.next f) = none) :
    Linked (Function.update m (.next tmp) (some f)) p (fs ++ [f]) := by
  obtain ⟨pre, rfl⟩ := List.getLast?_eq_some_iff.mp htmp
  rw [List.append_assoc]
  have htf : f ≠ tmp := fun he => hf (by simp [he])
  have hpre : tmp ∉ pre := fun hmem =>
    (List.nodup_append.mp hnodup).2.2 tmp hmem tmp List.mem_cons_self rfl
  clear htmp hnodup hf
  induction pre generalizing p with
  | nil =>
      refine ⟨h.1, ?_⟩
      rw [Function.update_self]
      refine ⟨rfl, ?_⟩
      rw [Function.update_of_ne (by simpa using htf)]
      exact hnext
  | cons g pre ih =>
      refine ⟨h.1, ?_⟩
      rw [Function.update_of_ne (by simpa using (List.ne_of_not_mem_cons hpre).symm)]
      exact ih h.2 (List.not_mem_of_not_mem_cons hpre)

theorem Chains.congr (h : Chains own nodes m) (hm : AgreeOn Field.site (sites own nodes) m m') :
    Chains own nodes m' where
  linked := by
    intro b hb
    rw [hm (.flows b) (inl_mem_sites.mpr hb)]
    exact (h.linked b hb).congr fun f hf => hm (.next f) (inr_mem_sites.mpr ⟨b, hb, hf⟩)
  nodup := h.nodup
  disjoint := h.disjoint

/-- Only the pointers make the chains. -/
theorem Chains.of_pointers (h : Chains own nodes m) (hflows : ∀ b, m' (.flows b) = m (.flows b))
    (hnext : ∀ f, m' (.next f) = m (.next f)) : Chains own nodes m' where
  linked := by
    intro b hb
    rw [hflows b]
    exact (h.linked b hb).congr fun f _ => hnext f
  nodup := h.nodup
  disjoint := h.disjoint

/-- The nodes of a bucket are its own. -/
theorem Chains.not_mem (h : Chains own nodes m) {b b' : Bucket} (hb : b ∈ own) (hb' : b' ∈ own)
    (hne : b' ≠ b) {f : Addr} (hf : f ∈ nodes b) : f ∉ nodes b' :=
  fun hf' => h.disjoint b' hb' b hb hne hf' hf

/-- **`tmp->next = f`**, where `tmp` is the last node of its chain and `f` a node outside of all
chains, appends `f` to this chain and leaves the others as they are. -/
theorem Chains.append (h : Chains own nodes m) {b : Bucket} (hb : b ∈ own) {tmp f : Addr}
    (htmp : (nodes b).getLast? = some tmp) (hf : ∀ b' ∈ own, f ∉ nodes b')
    (hnext : m (.next f) = none) :
    Chains own (Function.update nodes b (nodes b ++ [f]))
      (Function.update m (.next tmp) (some f)) where
  linked := by
    intro b' hb'
    rw [Function.update_of_ne (by simp)]
    rcases eq_or_ne b' b with rfl | hne
    · rw [Function.update_self]
      exact (h.linked b' hb').append htmp (h.nodup b' hb') (hf b' hb') hnext
    · rw [Function.update_of_ne hne]
      apply (h.linked b' hb').congr
      intro g hg
      -- the assignment is to the last node of the chain of `b`, which is in no other chain
      have hgt : g ≠ tmp := by
        rintro rfl
        exact h.not_mem hb hb' hne (List.mem_of_getLast? htmp) hg
      rw [Function.update_of_ne (by simpa using hgt)]
  nodup := by
    intro b' hb'
    rcases eq_or_ne b' b with rfl | hne
    · rw [Function.update_self]
      rw [← List.concat_eq_append]
      exact List.Nodup.concat (hf b' hb') (h.nodup b' hb')
    · rw [Function.update_of_ne hne]
      exact h.nodup b' hb'
  disjoint := by
    have hb' : ∀ b' ∈ own, b' ≠ b → (nodes b ++ [f]).Disjoint (nodes b') := by
      intro b' hb' hne
      rw [List.disjoint_append_left, List.singleton_disjoint]
      exact ⟨h.disjoint b hb b' hb' hne.symm, hf b' hb'⟩
    intro b₁ h₁ b₂ h₂ hne
    rcases eq_or_ne b₁ b with rfl | hne₁
    · rw [Function.update_self, Function.update_of_ne hne.symm]
      exact hb' b₂ h₂ hne.symm
    · rcases eq_or_ne b₂ b with rfl | hne₂
      · rw [Function.update_self, Function.update_of_ne hne₁]
        exact (hb' b₁ h₁ hne₁).symm
      · rw [Function.update_of_ne hne₁, Function.update_of_ne hne₂]
        exact h.disjoint b₁ h₁ b₂ h₂ hne

/-! ## The table -/

/-- What a bucket holds: the slots and `ctr[2]` of `DOUBLE_HASH`, the chain of `LINKED_LIST`, the
slots and the chain of `HASH_LIST`. The fields that a layout does not have stay `0` or empty. -/
structure Row extends DoubleHash.PktCount 32 Unit where
  flows : List (FlowEntry 32 Unit)
  deriving DecidableEq

def Row.hashList (r : Row) : HashList.PktCount 32 Unit where
  toSlots := r.toSlots
  flows := r.flows

def entry (m : Memory) (f : Addr) : FlowEntry 32 Unit :=
  { rssHigh := m (.rssHigh f), ctr := m (.nodeCtr f), stats := () }

/-- The table that one reads off the memory when the chains go through `nodes`. -/
def table (m : Memory) (nodes : Bucket → List Addr) (b : Bucket) : Row :=
  { hiF1 := m (.hiF1 b), hiF2 := m (.hiF2 b)
    ctr0 := m (.ctr b 0), ctr1 := m (.ctr b 1), ctr2 := m (.ctr b 2)
    stats0 := (), stats1 := ()
    flows := (nodes b).map (entry m) }

theorem entry_congr {f : Addr} (hm : ∀ x : Field, x.site = .inr f → m' x = m x) :
    entry m' f = entry m f := by
  rw [entry, entry, hm (.rssHigh f) rfl, hm (.nodeCtr f) rfl]

theorem table_congr {b : Bucket}
    (hm : ∀ x : Field, x.site = .inl b ∨ (∃ f ∈ nodes b, x.site = .inr f) → m' x = m x) :
    table m' nodes b = table m nodes b := by
  have hentries : (nodes b).map (entry m') = (nodes b).map (entry m) :=
    List.map_congr_left fun f hf => entry_congr fun x hx => hm x (.inr ⟨f, hf, hx⟩)
  rw [table, table, hm (.hiF1 b) (.inl rfl), hm (.hiF2 b) (.inl rfl), hm (.ctr b 0) (.inl rfl),
    hm (.ctr b 1) (.inl rfl), hm (.ctr b 2) (.inl rfl), hentries]

theorem table_agreeOn (hm : AgreeOn Field.site (sites own nodes) m m') {b : Bucket} (hb : b ∈ own) :
    table m' nodes b = table m nodes b := by
  apply table_congr
  rintro x (hx | ⟨f, hf, hx⟩)
  · exact hm x (hx ▸ inl_mem_sites.mpr hb)
  · exact hm x (hx ▸ inr_mem_sites.mpr ⟨b, hb, hf⟩)

/-- Writing a field of a bucket changes its row only. -/
theorem table_update {b : Bucket} {x : Field} (hx : x.site = .inl b) (v : x.Val) :
    table (Function.update m x v) nodes =
      Function.update (table m nodes) b (table (Function.update m x v) nodes b) := by
  funext b'
  rcases eq_or_ne b' b with rfl | hne
  · rw [Function.update_self]
  · rw [Function.update_of_ne hne]
    apply table_congr
    rintro y (hy | ⟨f, -, hy⟩)
    · rw [Function.update_of_ne]
      rintro rfl
      exact hne (Sum.inl.inj (hy.symm.trans hx))
    · rw [Function.update_of_ne]
      rintro rfl
      exact absurd (hy.symm.trans hx) (by simp)

theorem table_hiF1 (b : Bucket) (v : Tag) :
    table (Function.update m (.hiF1 b) v) nodes =
      Function.update (table m nodes) b { table m nodes b with hiF1 := v } := by
  rw [table_update rfl]
  congr 1
  simp [table, entry]

theorem table_hiF2 (b : Bucket) (v : Tag) :
    table (Function.update m (.hiF2 b) v) nodes =
      Function.update (table m nodes) b { table m nodes b with hiF2 := v } := by
  rw [table_update rfl]
  congr 1
  simp [table, entry]

theorem table_ctr0 (b : Bucket) (v : BitVec 32) :
    table (Function.update m (.ctr b 0) v) nodes =
      Function.update (table m nodes) b { table m nodes b with ctr0 := v } := by
  rw [table_update rfl]
  congr 1
  simp [table, entry]

theorem table_ctr1 (b : Bucket) (v : BitVec 32) :
    table (Function.update m (.ctr b 1) v) nodes =
      Function.update (table m nodes) b { table m nodes b with ctr1 := v } := by
  rw [table_update rfl]
  congr 1
  simp [table, entry]

theorem table_ctr2 (b : Bucket) (v : BitVec 32) :
    table (Function.update m (.ctr b 2) v) nodes =
      Function.update (table m nodes) b { table m nodes b with ctr2 := v } := by
  rw [table_update rfl]
  congr 1
  simp [table, entry]

/-- Writing the tag or the counter of a node changes its entry only. -/
theorem table_node (h : Chains own nodes m) {b : Bucket} (hb : b ∈ own) {pre post : List Addr}
    {f : Addr} (hnodes : nodes b = pre ++ f :: post)
    (hm : ∀ x : Field, x.site ≠ .inr f → m' x = m x) {b' : Bucket} (hb' : b' ∈ own) :
    table m' nodes b' =
      Function.update (table m nodes) b
        { table m nodes b with
          flows := pre.map (entry m) ++ entry m' f :: post.map (entry m) } b' := by
  rcases eq_or_ne b' b with rfl | hne
  · -- `f` occurs once in its chain
    rw [Function.update_self]
    have hnodup := h.nodup b' hb
    rw [hnodes] at hnodup
    have hentry : ∀ g ≠ f, entry m' g = entry m g := fun g hg =>
      entry_congr fun x hx => hm x (by simpa [hx] using hg)
    have hpre : pre.map (entry m') = pre.map (entry m) := List.map_congr_left fun g hg =>
      hentry g fun he => (List.nodup_append.mp hnodup).2.2 g hg f List.mem_cons_self he
    have hpost : post.map (entry m') = post.map (entry m) := List.map_congr_left fun g hg =>
      hentry g fun he => (List.nodup_cons.mp (List.nodup_append.mp hnodup).2.1).1 (he ▸ hg)
    have hbucket : ∀ x : Field, x.site = .inl b' → m' x = m x := fun x hx => hm x (by simp [hx])
    rw [table, table, hnodes, List.map_append, List.map_cons, hpre, hpost, hbucket (.hiF1 b') rfl,
      hbucket (.hiF2 b') rfl, hbucket (.ctr b' 0) rfl, hbucket (.ctr b' 1) rfl,
      hbucket (.ctr b' 2) rfl]
  · rw [Function.update_of_ne hne]
    apply table_congr
    rintro x (hx | ⟨g, hg, hx⟩)
    · exact hm x (by simp [hx])
    · apply hm x
      rw [hx]
      intro he
      cases he
      exact h.not_mem hb hb' hne (hnodes ▸ List.mem_append_right pre List.mem_cons_self) hg

/-- Appending a node to a chain appends its entry. -/
theorem table_append (b : Bucket) (tmp f : Addr) :
    table (Function.update m (.next tmp) (some f))
        (Function.update nodes b (nodes b ++ [f])) =
      Function.update (table m nodes) b
        { table m nodes b with flows := (nodes b).map (entry m) ++ [entry m f] } := by
  funext b'
  rcases eq_or_ne b' b with rfl | hne
  · simp [table, entry]
  · rw [Function.update_of_ne hne]
    simp [table, entry, Function.update_of_ne hne]

end Heap
end RunToCompletion
end FloWatcher
