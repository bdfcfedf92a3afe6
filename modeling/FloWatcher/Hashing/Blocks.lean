import Mathlib.Data.List.Flatten
import Mathlib.Data.List.Basic

/-!
# Messages in blocks

A hash function takes a message in blocks of `n` bytes, which it mixes into a state one after the
other, and then a rest that is shorter than a block. Where the message comes in fragments, the
blocks are those of the whole message, since a fragment that ends with a block leaves no rest
(`blocks_append`, `rest_append`). Where every step can be undone, two messages of one length that
differ in one block only end in different states (`separates`).
-/

namespace Hashing

variable {α S : Type*} {n : Nat}

def blocks (n : Nat) (xs : List α) : List (List α) :=
  (List.range (xs.length / n)).map fun i => (xs.drop (n * i)).take n

def rest (n : Nat) (xs : List α) : List α := xs.drop (n * (xs.length / n))

/-- Mix blocks into a state, one after the other. -/
def absorb (mix : List α → S → S) (bs : List (List α)) (s : S) : S :=
  bs.foldl (fun s b => mix b s) s

theorem absorb_append (mix : List α → S → S) (bs cs : List (List α)) (s : S) :
    absorb mix (bs ++ cs) s = absorb mix cs (absorb mix bs s) := List.foldl_append

theorem length_blocks (xs : List α) : (blocks n xs).length = xs.length / n := by
  rw [blocks, List.length_map, List.length_range]

theorem length_rest (xs : List α) : (rest n xs).length = xs.length % n := by
  rw [rest, List.length_drop, Nat.sub_eq_of_eq_add (Nat.mod_add_div _ _).symm]

/-- A message that is shorter than a block is its own rest. -/
theorem blocks_of_lt {xs : List α} (h : xs.length < n) : blocks n xs = [] := by
  rw [blocks, Nat.div_eq_of_lt h]
  rfl

theorem rest_of_lt {xs : List α} (h : xs.length < n) : rest n xs = xs := by
  rw [rest, Nat.div_eq_of_lt h]
  rfl

theorem length_of_mem_blocks {xs b : List α} (h : b ∈ blocks n xs) : b.length = n := by
  obtain ⟨i, hi, rfl⟩ := List.mem_map.mp h
  have hle : n * (i + 1) ≤ xs.length :=
    Nat.le_trans (Nat.mul_le_mul_left n (List.mem_range.mp hi)) (Nat.mul_div_le _ _)
  rw [Nat.mul_succ] at hle
  rw [List.length_take, List.length_drop]
  omega

/-- The first block of a message that has one. -/
theorem blocks_of_le (hn : 0 < n) {xs : List α} (h : n ≤ xs.length) :
    blocks n xs = xs.take n :: blocks n (xs.drop n) := by
  have hdiv : xs.length / n = (xs.length - n) / n + 1 := Nat.div_eq_sub_div hn h
  rw [blocks, blocks, List.length_drop, hdiv, List.range_succ_eq_map, List.map_cons, List.map_map]
  simp only [Nat.mul_zero, List.drop_zero, List.drop_drop]
  congr 1
  apply List.map_congr_left
  intro i _
  show (xs.drop (n * (i + 1))).take n = _
  rw [Nat.mul_succ, Nat.add_comm]

theorem rest_of_le (hn : 0 < n) {xs : List α} (h : n ≤ xs.length) :
    rest n xs = rest n (xs.drop n) := by
  have hdiv : xs.length / n = (xs.length - n) / n + 1 := Nat.div_eq_sub_div hn h
  rw [rest, rest, List.length_drop, hdiv, List.drop_drop, Nat.mul_succ, Nat.add_comm]

/-- A message is its blocks and the rest. -/
theorem flatten_blocks_append_rest (hn : 0 < n) (xs : List α) :
    (blocks n xs).flatten ++ rest n xs = xs := by
  induction hlen : xs.length using Nat.strongRecOn generalizing xs with
  | _ len ih =>
      rcases Nat.lt_or_ge xs.length n with hlt | hge
      · rw [blocks_of_lt hlt, rest_of_lt hlt]
        rfl
      · have hdrop : (xs.drop n).length < len := by
          rw [List.length_drop]
          omega
        rw [blocks_of_le hn hge, rest_of_le hn hge, List.flatten_cons, List.append_assoc,
          ih _ hdrop _ rfl, List.take_append_drop]

/-! ## Parts of a message -/

/-- Messages that begin with the same `n` bytes have the same parts within them. -/
theorem take_drop_congr {xs ys : List α} {k m : Nat} (h : xs.take n = ys.take n) (hle : k + m ≤ n) :
    (xs.drop k).take m = (ys.drop k).take m := by
  have hcut : ∀ l : List α, (l.drop k).take m = ((l.take n).drop k).take m := fun l => by
    rw [List.drop_take, List.take_take, Nat.min_eq_left (by omega)]
  rw [hcut xs, hcut ys, h]

theorem getD_congr {xs ys : List α} {i : Nat} (h : xs.take n = ys.take n) (hi : i < n) (d : α) :
    xs.getD i d = ys.getD i d := by
  have hcut : ∀ l : List α, l.getD i d = (l.take n).getD i d := fun l => by
    rw [List.getD_eq_getElem?_getD, List.getD_eq_getElem?_getD, List.getElem?_take_of_lt hi]
  rw [hcut xs, hcut ys, h]

section Fragments

variable {xs : List α}

/-- Behind whole blocks, the blocks start anew. -/
theorem blocks_append (hn : 0 < n) (h : n ∣ xs.length) (ys : List α) :
    blocks n (xs ++ ys) = blocks n xs ++ blocks n ys := by
  obtain ⟨k, hk⟩ := h
  induction k generalizing xs with
  | zero =>
      rw [List.eq_nil_of_length_eq_zero hk, blocks_of_lt (show ([] : List α).length < n from hn)]
      rfl
  | succ k ih =>
      have hle : n ≤ xs.length := by
        rw [hk, Nat.mul_succ]
        exact Nat.le_add_left _ _
      have hdrop : (xs.drop n).length = n * k := by
        rw [List.length_drop, hk, Nat.mul_succ, Nat.add_sub_cancel]
      rw [blocks_of_le hn hle, blocks_of_le hn (Nat.le_trans hle (by simp)),
        List.take_append_of_le_length hle, List.drop_append_of_le_length hle, ih hdrop]
      rfl

theorem rest_append (hn : 0 < n) (h : n ∣ xs.length) (ys : List α) :
    rest n (xs ++ ys) = rest n ys := by
  have hflat := flatten_blocks_append_rest hn (xs ++ ys)
  have hxs := flatten_blocks_append_rest hn xs
  have hnil : rest n xs = [] := by
    apply List.eq_nil_of_length_eq_zero
    rw [length_rest, Nat.mod_eq_zero_of_dvd h]
  rw [hnil, List.append_nil] at hxs
  rw [blocks_append hn h, List.flatten_append, hxs, List.append_assoc] at hflat
  have hys := List.append_cancel_left hflat
  exact List.append_cancel_left (hys.trans (flatten_blocks_append_rest hn ys).symm)

/-- What a stream knows of a message `xs`: its state `s` has seen whole blocks of it, and the stash
holds the bytes behind them. -/
def Absorbed (n : Nat) (mix : List α → S → S) (s₀ : S) (xs : List α) (s : S) (stash : List α) :
    Prop :=
  ∃ done, xs = done ++ stash ∧ n ∣ done.length ∧ s = absorb mix (blocks n done) s₀

namespace Absorbed

variable {mix : List α → S → S} {s₀ s : S} {stash ys : List α}

theorem nil (s₀ : S) (xs : List α) : Absorbed n mix s₀ xs s₀ xs :=
  ⟨[], rfl, Nat.dvd_zero n, by rw [blocks, List.length_nil, Nat.zero_div]; rfl⟩

/-- A fragment goes to the stash. -/
theorem append (h : Absorbed n mix s₀ xs s stash) (ys : List α) :
    Absorbed n mix s₀ (xs ++ ys) s (stash ++ ys) := by
  obtain ⟨done, rfl, hdvd, hs⟩ := h
  exact ⟨done, List.append_assoc .., hdvd, hs⟩

/-- Whole blocks of the stash are mixed into the state. -/
theorem mix_blocks (hn : 0 < n) (hdvd : n ∣ ys.length)
    (h : Absorbed n mix s₀ xs s (ys ++ stash)) :
    Absorbed n mix s₀ xs (absorb mix (blocks n ys) s) stash := by
  obtain ⟨done, rfl, hdone, rfl⟩ := h
  refine ⟨done ++ ys, (List.append_assoc ..).symm, ?_, ?_⟩
  · rw [List.length_append]
    exact Nat.dvd_add hdone hdvd
  · rw [blocks_append hn hdone, absorb_append]

theorem mix_all (hn : 0 < n) (h : Absorbed n mix s₀ xs s ys) :
    Absorbed n mix s₀ xs (absorb mix (blocks n ys) s) (rest n ys) := by
  have hlen : (ys.take (n * (ys.length / n))).length = n * (ys.length / n) := by
    rw [List.length_take, Nat.min_eq_left (Nat.mul_div_le _ _)]
  have hdvd : n ∣ (ys.take (n * (ys.length / n))).length := by
    rw [hlen]
    exact Nat.dvd_mul_right _ _
  have hsplit : ys.take (n * (ys.length / n)) ++ rest n ys = ys := List.take_append_drop _ _
  have hblocks : blocks n ys = blocks n (ys.take (n * (ys.length / n))) := by
    have happend := blocks_append hn hdvd (rest n ys)
    rwa [hsplit, blocks_of_lt (show (rest n ys).length < n by rw [length_rest]; exact Nat.mod_lt _ hn),
      List.append_nil] at happend
  rw [hblocks]
  exact mix_blocks hn hdvd (hsplit.symm ▸ h)

theorem length_le (h : Absorbed n mix s₀ xs s stash) : stash.length ≤ xs.length := by
  obtain ⟨done, rfl, _, _⟩ := h
  rw [List.length_append]
  exact Nat.le_add_left _ _

/-- **The stash is all that is left to do.** -/
theorem finish (hn : 0 < n) (h : Absorbed n mix s₀ xs s stash) :
    absorb mix (blocks n xs) s₀ = absorb mix (blocks n stash) s ∧ rest n xs = rest n stash := by
  obtain ⟨done, rfl, hdvd, rfl⟩ := h
  rw [blocks_append hn hdvd, absorb_append, rest_append hn hdvd]
  exact ⟨rfl, rfl⟩

end Absorbed

end Fragments

/-! ## Steps that can be undone -/

/-- Mixing a block of `n` bytes loses neither the state nor the block. -/
structure Mixes (n : Nat) (mix : List α → S → S) : Prop where
  state : ∀ b, Function.Injective (mix b)
  block : ∀ s b c, b.length = n → c.length = n → mix b s = mix c s → b = c

variable {mix tail : List α → S → S}

theorem absorb_injective (h : ∀ b, Function.Injective (mix b)) (bs : List (List α)) :
    Function.Injective (absorb mix bs) := by
  induction bs with
  | nil => exact Function.injective_id
  | cons b bs ih =>
      intro s s' hs
      exact h b (ih hs)

/-- Blocks that differ in one place only are told apart. -/
theorem Mixes.absorb (h : Mixes n mix) {bs cs : List (List α)} (hb : ∀ b ∈ bs, b.length = n)
    (hc : ∀ c ∈ cs, c.length = n) (hlen : bs.length = cs.length) {j : Nat}
    (hj : ∀ i, i ≠ j → bs[i]? = cs[i]?) (s : S)
    (hs : Hashing.absorb mix bs s = Hashing.absorb mix cs s) : bs = cs := by
  induction bs generalizing cs j s with
  | nil =>
      rw [List.length_nil] at hlen
      exact (List.eq_nil_of_length_eq_zero hlen.symm).symm
  | cons b bs ih =>
      cases cs with
      | nil => cases hlen
      | cons c cs =>
          have hlen' : bs.length = cs.length := Nat.succ.inj hlen
          cases j with
          | zero =>
              -- the blocks behind the first are the same, and keep apart what it has told apart
              have htail : bs = cs := List.ext_getElem? fun i => hj (i + 1) (Nat.succ_ne_zero i)
              subst htail
              have hhead : mix b s = mix c s := absorb_injective h.state bs hs
              rw [h.block s b c (hb b List.mem_cons_self) (hc c List.mem_cons_self) hhead]
          | succ j =>
              have hhead : b = c := Option.some.inj (hj 0 (Nat.succ_ne_zero j).symm)
              subst hhead
              rw [ih (fun b hmem => hb b (List.mem_cons_of_mem _ hmem))
                (fun c hmem => hc c (List.mem_cons_of_mem _ hmem)) hlen'
                (fun i hi => hj (i + 1) fun h => hi (Nat.succ.inj h)) (mix b s) hs]

/-- Two messages of one length that differ within one block (or within the rest) at most. -/
structure DifferWithin (n : Nat) (xs ys : List α) : Prop where
  length : xs.length = ys.length
  block : ∃ j, ∀ i, i / n ≠ j → xs[i]? = ys[i]?

/-- Messages of one length that fit into a block. -/
theorem differWithin_of_length_le {xs ys : List α} (hlen : xs.length = ys.length)
    (hle : xs.length ≤ n) : DifferWithin n xs ys where
  length := hlen
  block := by
    refine ⟨0, fun i hi => ?_⟩
    have hge : n ≤ i := by
      by_contra hlt
      exact hi (Nat.div_eq_of_lt (Nat.lt_of_not_le hlt))
    have hnone : xs.length ≤ i := Nat.le_trans hle hge
    rw [List.getElem?_eq_none hnone, List.getElem?_eq_none (hlen ▸ hnone)]

theorem getElem?_of_mem_block {xs : List α} {i k : Nat} (hk : k < n) :
    ((xs.drop (n * i)).take n)[k]? = xs[n * i + k]? := by
  rw [List.getElem?_take_of_lt hk, List.getElem?_drop]

/-- What tells blocks and rests apart tells messages apart. -/
theorem DifferWithin.eq_of_absorb {xs ys : List α} (hd : DifferWithin n xs ys) (hn : 0 < n)
    (h : Mixes n mix) (htail : Mixes (xs.length % n) tail) (s : S)
    (hs : tail (rest n xs) (Hashing.absorb mix (blocks n xs) s) =
      tail (rest n ys) (Hashing.absorb mix (blocks n ys) s)) : xs = ys := by
  obtain ⟨hlen, j, hj⟩ := hd
  have hblocks : ∀ i, i ≠ j → (blocks n xs)[i]? = (blocks n ys)[i]? := by
    intro i hi
    rw [blocks, blocks, List.getElem?_map, List.getElem?_map, hlen]
    rcases Nat.lt_or_ge i (ys.length / n) with hlt | hge
    · rw [List.getElem?_range hlt, Option.map_some, Option.map_some]
      congr 1
      apply List.ext_getElem?
      intro k
      rcases Nat.lt_or_ge k n with hk | hk
      · rw [getElem?_of_mem_block hk, getElem?_of_mem_block hk]
        apply hj
        rwa [Nat.mul_add_div hn, Nat.div_eq_of_lt hk]
      · rw [List.getElem?_eq_none (Nat.le_trans (List.length_take_le _ _) hk),
          List.getElem?_eq_none (Nat.le_trans (List.length_take_le _ _) hk)]
    · rw [List.getElem?_eq_none (by simpa using hge)]
      rfl
  have hlenBlocks : (blocks n xs).length = (blocks n ys).length := by
    rw [length_blocks, length_blocks, hlen]
  have hparts : blocks n xs = blocks n ys ∧ rest n xs = rest n ys := by
    rcases Nat.lt_or_ge j (ys.length / n) with hlt | hge
    · -- the difference is within a block, so the rests are the same
      have hrest : rest n xs = rest n ys := by
        apply List.ext_getElem?
        intro k
        rw [rest, rest, List.getElem?_drop, List.getElem?_drop, hlen]
        apply hj
        rw [Nat.mul_add_div hn]
        exact Nat.ne_of_gt (Nat.lt_of_lt_of_le hlt (Nat.le_add_right _ _))
      rw [hrest] at hs
      exact ⟨h.absorb (fun _ => length_of_mem_blocks) (fun _ => length_of_mem_blocks) hlenBlocks
        hblocks s (htail.state _ hs), hrest⟩
    · have hsame : blocks n xs = blocks n ys := by
        apply List.ext_getElem?
        intro i
        rcases eq_or_ne i j with rfl | hi
        · rw [List.getElem?_eq_none (by rwa [length_blocks, hlen]),
            List.getElem?_eq_none (by rwa [length_blocks])]
        · exact hblocks i hi
      rw [hsame] at hs
      exact ⟨hsame, htail.block _ _ _ (length_rest xs) (by rw [length_rest, hlen]) hs⟩
  rw [← flatten_blocks_append_rest hn xs, ← flatten_blocks_append_rest hn ys, hparts.1, hparts.2]

/-- A hash with a seed that keeps messages of one length apart where they differ within a block of
`n` bytes only, and keeps seeds apart. -/
structure Separates {Seed D : Type*} (n : Nat) (hash : List α → Seed → D) : Prop where
  key : ∀ {xs ys : List α} {s : Seed}, DifferWithin n xs ys → hash xs s = hash ys s → xs = ys
  seed : ∀ xs : List α, Function.Injective (hash xs)

/-- **A block hash whose steps can be undone keeps messages and seeds apart.** -/
theorem separates {Seed D : Type*} {hash : List α → Seed → D} {init : Seed → S}
    {final : Nat → S → D} (hn : 0 < n) (hmix : Mixes n mix) (htail : ∀ m < n, Mixes m tail)
    (hinit : Function.Injective init) (hfinal : ∀ len, Function.Injective (final len))
    (hhash : ∀ xs s, hash xs s =
      final xs.length (tail (rest n xs) (Hashing.absorb mix (blocks n xs) (init s)))) :
    Separates n hash where
  key := by
    intro xs ys s hd h
    rw [hhash, hhash, hd.length] at h
    exact hd.eq_of_absorb hn hmix (htail _ (Nat.mod_lt _ hn)) _ (hfinal _ h)
  seed := by
    intro xs s s' h
    change hash xs s = hash xs s' at h
    rw [hhash, hhash] at h
    have htails := (htail _ (Nat.mod_lt xs.length hn)).state (rest n xs) (hfinal _ h)
    exact hinit (absorb_injective hmix.state _ htails)

end Hashing
