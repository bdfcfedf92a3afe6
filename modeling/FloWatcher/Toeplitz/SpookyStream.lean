import FloWatcher.Clib.Memory
import FloWatcher.Toeplitz.Spooky

/-!
# SpookyHash of a stream

`spooky_init`, `spooky_update` and `spooky_final` of `toeplitz/spooky.c`. The state keeps the last
bytes of the message in a buffer of two blocks, as a message is hashed as a short one until it has
filled both. Whatever the fragments are, `spooky_final` reports what `spooky_hash128` would report
for all of them in one piece, no copy leaves an array, and the stream can go on behind it.
-/

namespace FloWatcher.Toeplitz

open Clib Hashing

structure SpookyState where
  data : List.Vector Byte scBufsize
  state : Vars
  length : BitVec 64
  left : BitVec 8

/-- `spooky_init(state, seed1, seed2)` leaves the other words and the buffer as they are. -/
def spookyInit (st : SpookyState) (seed1 seed2 : BitVec 64) : SpookyState :=
  let state := assign st.state 0 fun _ => seed1
  let state := assign state 1 fun _ => seed2
  { st with length := 0, left := 0, state := state }

def updateVars (st : SpookyState) : Vars :=
  if st.length.toNat < scBufsize then initVars (hashesOf st.state).1 (hashesOf st.state).2
  else st.state

structure UpdateVars where
  data : List.Vector Byte scBufsize
  h : Vars
  u : List Byte
  length : BitVec 64

/-- `if we've got anything stuffed away, use it now` -/
def useStash (st : SpookyState) (h : Vars) (message : List Byte) (length : BitVec 64) :
    Option UpdateVars :=
  if st.left ≠ 0 then do
    let pre : BitVec 8 := BitVec.ofNat 8 scBufsize - st.left
    let data ← memcpy st.data st.left.toNat message pre.toNat
    let h := spookyMix data.toList h
    let h := spookyMix (data.toList.drop scBlocksize) h
    some ⟨data, h, message.drop pre.toNat, length - pre.setWidth 64⟩
  else some ⟨st.data, h, message, length⟩

def spookyUpdate (st : SpookyState) (message : List Byte) : Option SpookyState :=
  let length := BitVec.ofNat 64 message.length
  let newLength := length + st.left.setWidth 64
  -- is this message fragment too short? if it is, stuff it away
  if newLength.toNat < scBufsize then do
    let data ← memcpy st.data st.left.toNat message length.toNat
    some { st with data := data, length := length + st.length, left := newLength.setWidth 8 }
  else do
    let v ← useStash st (updateVars st) message length
    let k := v.length.toNat / scBlocksize
    let left : BitVec 8 := (v.length - BitVec.ofNat 64 (scBlocksize * k)).setWidth 8
    let h := mixBlocks v.u k v.h
    let data ← memcpy v.data 0 (v.u.drop (scBlocksize * k)) left.toNat
    some { data := data, state := h, length := length + st.length, left := left }

/-- The last partial block at `&data[off]` is filled up with zeros, and its last byte is `left`. -/
def padBlock (data : List.Vector Byte scBufsize) (off : Nat) (left : BitVec 8) :
    Option (List.Vector Byte scBufsize) := do
  let data ← memset data (off + left.toNat) 0 (BitVec.ofNat 32 scBlocksize - left.setWidth 32).toNat
  memset data (off + (scBlocksize - 1)) left 1

/-- `spooky_final(state, &hash1, &hash2)`: the two hashes and the state. -/
def spookyFinal (st : SpookyState) : Option ((BitVec 64 × BitVec 64) × SpookyState) :=
  if st.length.toNat < scBufsize then
    let (hash1, hash2) := hashesOf st.state
    some (spookyShort st.data.toList st.length.toNat hash1 hash2, st)
  else do
    let two := scBlocksize ≤ st.left.toNat
    -- `data` can contain two blocks; handle any whole first block
    let off := if two then scBlocksize else 0
    let left := if two then st.left - BitVec.ofNat 8 scBlocksize else st.left
    let h := if two then spookyMix st.data.toList st.state else st.state
    let data ← padBlock st.data off left
    some (hashesOf (spookyEnd (data.toList.drop off) h), { st with data := data })

/-! ## What the state stands for -/

def SpookyState.stash (st : SpookyState) : List Byte := st.data.toList.take st.left.toNat

/-- The state has been given `m`, since it was initialised with the two seeds. -/
structure Holds (seed1 seed2 : BitVec 64) (m : List Byte) (st : SpookyState) : Prop where
  length : st.length.toNat = m.length
  left : st.left.toNat < scBufsize
  seeds : m.length < scBufsize → hashesOf st.state = (seed1, seed2) ∧ st.stash = m
  absorbed : Absorbed scBlocksize spookyMix (initVars seed1 seed2) m (updateVars st) st.stash

variable {seed1 seed2 : BitVec 64} {m x : List Byte} {st : SpookyState}

theorem scBlocksize_pos : 0 < scBlocksize := by decide

theorem length_stash (h : st.left.toNat < scBufsize) : st.stash.length = st.left.toNat := by
  rw [SpookyState.stash, List.length_take, st.data.toList_length, Nat.min_eq_left h.le]

theorem mixBlocks_eq (p : List Byte) (h : Vars) :
    mixBlocks p (p.length / scBlocksize) h = absorb spookyMix (blocks scBlocksize p) h := by
  have hmix : ∀ i, spookyMix (p.drop (scBlocksize * i)) =
      spookyMix ((p.drop (scBlocksize * i)).take scBlocksize) := fun i =>
    spookyMix_congr (by rw [List.take_take, Nat.min_self])
  simp only [mixBlocks, absorb, blocks, List.foldl_map, hmix]

theorem mixBlocks_two (p : List Byte) (h : Vars) :
    mixBlocks p 2 h = spookyMix (p.drop scBlocksize) (spookyMix p h) := by
  simp only [mixBlocks, List.range, List.range.loop, List.foldl, Nat.mul_zero, List.drop_zero,
    Nat.mul_one]

theorem seeds_spookyInit (st : SpookyState) (seed1 seed2 : BitVec 64) :
    hashesOf (spookyInit st seed1 seed2).state = (seed1, seed2) := by
  have h0 : (0 : Fin scNumvars).val = 0 := rfl
  have h1 : (1 : Fin scNumvars).val = 1 := rfl
  simp only [hashesOf, spookyInit, assign, Vector.getElem_set, h0, h1]
  rfl

theorem holds_spookyInit (st : SpookyState) (seed1 seed2 : BitVec 64) :
    Holds seed1 seed2 [] (spookyInit st seed1 seed2) := by
  have hseeds := seeds_spookyInit st seed1 seed2
  have hvars : updateVars (spookyInit st seed1 seed2) = initVars seed1 seed2 := by
    have hlt : (spookyInit st seed1 seed2).length.toNat < scBufsize := (by decide : 0 < scBufsize)
    rw [updateVars, if_pos hlt, hseeds]
  refine ⟨rfl, (by decide : 0 < scBufsize), fun _ => ⟨hseeds, rfl⟩, ?_⟩
  rw [hvars]
  exact Absorbed.nil _ _

/-- What is stuffed away is used up, or there was nothing. -/
theorem exists_useStash (h : Holds seed1 seed2 m st) (hlen : x.length < 2 ^ 64)
    (hbuf : scBufsize ≤ st.left.toNat + x.length) :
    ∃ v, useStash st (updateVars st) x (BitVec.ofNat 64 x.length) = some v ∧
      Absorbed scBlocksize spookyMix (initVars seed1 seed2) (m ++ x) v.h v.u ∧
      v.length.toNat = v.u.length := by
  have happend := h.absorbed.append x
  have hofNat : (BitVec.ofNat 64 x.length).toNat = x.length := by
    rw [BitVec.toNat_ofNat, Nat.mod_eq_of_lt hlen]
  unfold useStash
  by_cases hleft : st.left ≠ 0
  · rw [if_pos hleft]
    have hpos : st.left.toNat ≠ 0 := fun h0 => hleft (BitVec.eq_of_toNat_eq h0)
    have hlt := h.left
    have hbs : scBufsize = 192 := rfl
    have hpre : (BitVec.ofNat 8 scBufsize - st.left).toNat = scBufsize - st.left.toNat := by
      rw [BitVec.toNat_sub, BitVec.toNat_ofNat]
      omega
    obtain ⟨data, hdata, hlist⟩ := exists_memcpy st.data st.left.toNat x
      (scBufsize - st.left.toNat) (by omega) (by omega)
    have hfull : data.toList = st.stash ++ x.take (scBufsize - st.left.toNat) := by
      rw [hlist, SpookyState.stash, List.drop_of_length_le, List.append_nil]
      rw [st.data.toList_length]
      omega
    refine ⟨⟨data, spookyMix (data.toList.drop scBlocksize) (spookyMix data.toList (updateVars st)),
      x.drop (scBufsize - st.left.toNat),
      BitVec.ofNat 64 x.length - (BitVec.ofNat 8 scBufsize - st.left).setWidth 64⟩, ?_, ?_, ?_⟩
    · simp only [hpre, hdata]
      rfl
    · have htwo : scBufsize / scBlocksize = 2 := rfl
      have hboth :
          spookyMix (data.toList.drop scBlocksize) (spookyMix data.toList (updateVars st)) =
            absorb spookyMix (blocks scBlocksize data.toList) (updateVars st) := by
        rw [← mixBlocks_eq, data.toList_length, ← mixBlocks_two, htwo]
      rw [hboth, hfull]
      refine Absorbed.mix_blocks scBlocksize_pos ?_ ?_
      · rw [← hfull, data.toList_length]
        exact ⟨2, rfl⟩
      · rw [List.append_assoc, List.take_append_drop]
        exact happend
    · have hsub : ((BitVec.ofNat 8 scBufsize - st.left).setWidth 64).toNat =
          scBufsize - st.left.toNat := by
        rw [BitVec.toNat_setWidth, hpre, Nat.mod_eq_of_lt (by omega)]
      rw [BitVec.toNat_sub, hofNat, hsub, List.length_drop]
      omega
  · rw [if_neg hleft]
    refine ⟨_, rfl, ?_, hofNat⟩
    have hnil : st.stash = [] := by
      rw [ne_eq, not_not] at hleft
      rw [SpookyState.stash, hleft]
      rfl
    rwa [hnil] at happend


section Update

variable (h : Holds seed1 seed2 m st) (hlen : m.length + x.length < 2 ^ 64)

include h in
theorem stash_le : st.left.toNat ≤ m.length := length_stash h.left ▸ h.absorbed.length_le

include hlen in
theorem toNat_length : (BitVec.ofNat 64 x.length).toNat = x.length := by
  rw [BitVec.toNat_ofNat, Nat.mod_eq_of_lt (by omega)]

include h hlen

theorem toNat_newLength :
    (BitVec.ofNat 64 x.length + st.left.setWidth 64).toNat = st.left.toNat + x.length := by
  have hstash := stash_le h
  rw [BitVec.toNat_add, toNat_length hlen, BitVec.toNat_setWidth]
  omega

theorem toNat_total : (BitVec.ofNat 64 x.length + st.length).toNat = (m ++ x).length := by
  rw [BitVec.toNat_add, toNat_length hlen, h.length, List.length_append]
  omega

/-- A fragment that is too short is stuffed away. -/
theorem holds_update_short (hshort : st.left.toNat + x.length < scBufsize) :
    ∃ data, memcpy st.data st.left.toNat x x.length = some data ∧
      Holds seed1 seed2 (m ++ x) { st with
        data := data
        length := BitVec.ofNat 64 x.length + st.length
        left := (BitVec.ofNat 64 x.length + st.left.setWidth 64).setWidth 8 } := by
  have hbs : scBufsize = 192 := rfl
  have htotal := toNat_total h hlen
  obtain ⟨data, hdata, hlist⟩ := exists_memcpy st.data st.left.toNat x x.length (by omega)
    (Nat.le_refl _)
  have hleft : ((BitVec.ofNat 64 x.length + st.left.setWidth 64).setWidth 8).toNat =
      st.left.toNat + x.length := by
    rw [BitVec.toNat_setWidth, toNat_newLength h hlen]
    omega
  have hdata' : data.toList.take (st.left.toNat + x.length) = st.stash ++ x := by
    rw [hlist, List.take_length, List.take_left' (by
      rw [List.length_append]
      exact congrArg (· + x.length) (length_stash h.left))]
    rfl
  -- a message that is not in the buffer as a whole has gone through it before
  have hsame : (m ++ x).length < scBufsize ↔ m.length < scBufsize := by
    rw [List.length_append]
    refine ⟨fun hmx => by omega, fun hm => ?_⟩
    rw [← (h.seeds hm).2, length_stash h.left]
    exact hshort
  refine ⟨data, hdata, htotal, by rwa [hleft], fun hmx => ?_, ?_⟩
  · obtain ⟨hseeds, hstash⟩ := h.seeds (hsame.mp hmx)
    refine ⟨hseeds, ?_⟩
    rw [SpookyState.stash, hleft, hdata', hstash]
  · have hvars : updateVars { st with
        data := data
        length := BitVec.ofNat 64 x.length + st.length
        left := (BitVec.ofNat 64 x.length + st.left.setWidth 64).setWidth 8 } = updateVars st := by
      simp only [updateVars, htotal, h.length, hsame]
    rw [hvars, SpookyState.stash, hleft, hdata']
    exact h.absorbed.append x

/-- **What `spooky_update` does**: it stays within its arrays, and the state has been given the
fragment too. -/
theorem holds_spookyUpdate :
    ∃ st', spookyUpdate st x = some st' ∧ Holds seed1 seed2 (m ++ x) st' := by
  have hbs : scBufsize = 192 := rfl
  have htotal := toNat_total h hlen
  unfold spookyUpdate
  simp only [toNat_newLength h hlen]
  by_cases hshort : st.left.toNat + x.length < scBufsize
  · obtain ⟨data, hdata, hholds⟩ := holds_update_short h hlen hshort
    rw [if_pos hshort, toNat_length hlen, hdata]
    exact ⟨_, rfl, hholds⟩
  · rw [if_neg hshort]
    have hlt := h.left
    have hstash := stash_le h
    obtain ⟨v, hv, habsorbed, hvlen⟩ := exists_useStash h (by omega) (Nat.le_of_not_lt hshort)
    have hend : v.u.drop (scBlocksize * (v.u.length / scBlocksize)) = rest scBlocksize v.u := rfl
    have hmod : (rest scBlocksize v.u).length < 96 := by
      rw [length_rest]
      exact Nat.mod_lt _ (by decide)
    have hleft : ((v.length - BitVec.ofNat 64
        (scBlocksize * (v.u.length / scBlocksize))).setWidth 8).toNat =
          (rest scBlocksize v.u).length := by
      have hk : scBlocksize * (v.u.length / scBlocksize) ≤ v.u.length := Nat.mul_div_le _ _
      have hdiv := Nat.div_add_mod v.u.length scBlocksize
      have hvlt := v.length.isLt
      rw [length_rest] at hmod ⊢
      rw [BitVec.toNat_setWidth, BitVec.toNat_sub, BitVec.toNat_ofNat,
        Nat.mod_eq_of_lt (a := scBlocksize * _) (by omega), hvlen]
      omega
    obtain ⟨data, hdata, hlist⟩ := exists_memcpy v.data 0 (rest scBlocksize v.u)
      (rest scBlocksize v.u).length (by omega) (Nat.le_refl _)
    have hdata' : data.toList.take (rest scBlocksize v.u).length = rest scBlocksize v.u := by
      rw [hlist, List.take_zero, List.nil_append, List.take_length, List.take_left' rfl]
    have hlong : ¬ (m ++ x).length < scBufsize := by
      rw [List.length_append]
      omega
    simp only [hv, hvlen, Option.bind_eq_bind, Option.bind_some, hend, hleft, hdata, mixBlocks_eq]
    refine ⟨_, rfl, htotal, ?_, fun hmx => absurd hmx hlong, ?_⟩
    · rw [hleft]
      omega
    · rw [updateVars, if_neg (by rwa [htotal]), SpookyState.stash, hleft, hdata']
      exact habsorbed.mix_all scBlocksize_pos

end Update

/-- A block at `off` that holds `left` bytes is filled up, and what is in front of it stays. -/
theorem exists_padBlock (data : List.Vector Byte scBufsize) {off : Nat} {left : BitVec 8}
    (hoff : off + scBlocksize ≤ scBufsize) (hleft : left.toNat < scBlocksize) :
    ∃ data', padBlock data off left = some data' ∧
      (data'.toList.drop off).take scBlocksize =
        lastBlock ((data.toList.drop off).take left.toNat) ∧
      data'.toList.take (off + left.toNat) = data.toList.take (off + left.toNat) := by
  have hbs : scBufsize = 192 := rfl
  have hbl : scBlocksize = 96 := rfl
  have hzeros : (BitVec.ofNat 32 scBlocksize - left.setWidth 32).toNat =
      scBlocksize - left.toNat := by
    rw [BitVec.toNat_sub, BitVec.toNat_ofNat, BitVec.toNat_setWidth]
    omega
  obtain ⟨data₁, h₁, hlist₁⟩ := exists_memset data (off + left.toNat) (0 : Byte)
    (scBlocksize - left.toNat) (by omega)
  obtain ⟨data₂, h₂, hlist₂⟩ := exists_memset data₁ (off + (scBlocksize - 1)) left 1 (by omega)
  have hlen := data.toList_length
  have hlen₁ := data₁.toList_length
  have hfront : data₁.toList.take (off + (scBlocksize - 1)) =
      data.toList.take (off + left.toNat) ++ List.replicate (scBlocksize - 1 - left.toNat) 0 := by
    have hla : (data.toList.take (off + left.toNat)).length = off + left.toNat := by
      rw [List.length_take, hlen, Nat.min_eq_left (by omega)]
    rw [hlist₁, List.append_assoc, List.take_append, hla, List.take_of_length_le (by omega),
      List.take_append_of_le_length (by rw [List.length_replicate]; omega), List.take_replicate,
      Nat.min_eq_left (by omega)]
    congr 2
    omega
  have hpart : ((data.toList.drop off).take left.toNat).length = left.toNat := by
    rw [List.length_take, List.length_drop, hlen, Nat.min_eq_left (by omega)]
  refine ⟨data₂, ?_, ?_, ?_⟩
  · rw [padBlock, hzeros, h₁]
    exact h₂
  · have hoffset : off ≤ (data.toList.take (off + left.toNat)).length := by
      rw [List.length_take, hlen]
      omega
    rw [hlist₂, hfront, List.append_assoc, List.append_assoc, List.drop_append_of_le_length hoffset,
      List.drop_take, Nat.add_sub_cancel_left, ← List.append_assoc, ← List.append_assoc, lastBlock,
      hpart, BitVec.ofNat_toNat, BitVec.setWidth_eq]
    apply List.take_left'
    simp only [List.length_append, hpart, List.length_replicate]
    omega
  · rw [hlist₂, hfront, List.append_assoc, List.append_assoc]
    apply List.take_left'
    rw [List.length_take, hlen, Nat.min_eq_left (by omega)]

/-- The end of `spooky_final`: the block at `off` is all that is left to do. -/
theorem exists_finish (h : Holds seed1 seed2 m st) (hlong : ¬ m.length < scBufsize) (off : Nat)
    (left : BitVec 8) (g : Vars) (hoff : off + scBlocksize ≤ scBufsize)
    (hleft : left.toNat < scBlocksize) (hsum : off + left.toNat = st.left.toNat)
    (hg : g = absorb spookyMix (blocks scBlocksize st.stash) st.state)
    (hrest : rest scBlocksize st.stash = (st.data.toList.drop off).take left.toNat) :
    ∃ data, padBlock st.data off left = some data ∧
      hashesOf (spookyEnd (data.toList.drop off) g) = spookyHash128 m seed1 seed2 ∧
      Holds seed1 seed2 m { st with data := data } := by
  obtain ⟨data, hdata, hblock, hfront⟩ := exists_padBlock st.data hoff hleft
  rw [hsum] at hfront
  have hvars : updateVars st = st.state := by rw [updateVars, if_neg (by rwa [h.length])]
  refine ⟨data, hdata, ?_, h.length, h.left, fun hm => absurd hm hlong, ?_⟩
  · obtain ⟨hall, hend⟩ := h.absorbed.finish scBlocksize_pos
    have hlast : spookyEnd (data.toList.drop off) = spookyEnd (lastBlock (rest scBlocksize m)) := by
      have hlen : (lastBlock (rest scBlocksize m)).length = scBlocksize := by
        have hmod : (rest scBlocksize m).length < scBlocksize := by
          rw [length_rest]
          exact Nat.mod_lt _ scBlocksize_pos
        simp only [lastBlock, List.length_append, List.length_replicate, List.length_singleton]
        omega
      apply spookyEnd_congr
      rw [hblock, ← hrest, ← hend, List.take_of_length_le hlen.le]
    rw [spookyHash128, hlast, hg, ← hvars, ← hall]
    simp only [if_neg hlong, mixBlocks_eq]
  · have hsame : updateVars { st with data := data } = updateVars st := rfl
    rw [hsame, SpookyState.stash, hfront]
    exact h.absorbed

/-- **What `spooky_final` does**: it reports the hashes of all that the state has been given, and
the stream can go on behind it. -/
theorem holds_spookyFinal (h : Holds seed1 seed2 m st) :
    ∃ st', spookyFinal st = some (spookyHash128 m seed1 seed2, st') ∧ Holds seed1 seed2 m st' := by
  have hbs : scBufsize = 192 := rfl
  have hbl : scBlocksize = 96 := rfl
  unfold spookyFinal
  rw [h.length]
  by_cases hshort : m.length < scBufsize
  · obtain ⟨hseeds, hstash⟩ := h.seeds hshort
    rw [if_pos hshort, spookyHash128]
    simp only [if_pos hshort, hseeds]
    refine ⟨st, ?_, h⟩
    have hdata : st.data.toList.take m.length = m.take m.length := by
      have hleft : st.left.toNat = m.length := by rw [← length_stash h.left, hstash]
      rw [← hleft, ← SpookyState.stash, hstash, hleft, List.take_length]
    rw [spookyShort_congr hdata]
  · rw [if_neg hshort]
    have hlen := length_stash h.left
    have hlt := h.left
    by_cases htwo : scBlocksize ≤ st.left.toNat
    · have hleft : (st.left - BitVec.ofNat 8 scBlocksize).toNat = st.left.toNat - scBlocksize := by
        rw [BitVec.toNat_sub, BitVec.toNat_ofNat]
        omega
      have hdrop : (st.stash.drop scBlocksize).length < scBlocksize := by
        rw [List.length_drop, hlen]
        omega
      have hone : spookyMix st.data.toList = spookyMix (st.stash.take scBlocksize) := by
        apply spookyMix_congr
        rw [SpookyState.stash, List.take_take, List.take_take, Nat.min_self, Nat.min_eq_left htwo]
      obtain ⟨data, hdata, hhash, hholds⟩ := exists_finish h hshort scBlocksize
        (st.left - BitVec.ofNat 8 scBlocksize) (spookyMix st.data.toList st.state) (by omega)
        (by omega) (by omega)
        (by simp only [blocks_of_le scBlocksize_pos (show scBlocksize ≤ st.stash.length by omega),
          blocks_of_lt hdrop, hone, absorb, List.foldl])
        (by rw [rest_of_le scBlocksize_pos (by omega), rest_of_lt hdrop, SpookyState.stash,
          List.drop_take, hleft])
      refine ⟨_, ?_, hholds⟩
      simp only [if_pos htwo, hdata, Option.bind_eq_bind, Option.bind_some, hhash]
    · obtain ⟨data, hdata, hhash, hholds⟩ := exists_finish h hshort 0 st.left st.state (by omega)
        (by omega) (by omega)
        (by simp only [blocks_of_lt (show st.stash.length < scBlocksize by omega), absorb,
          List.foldl])
        (by rw [rest_of_lt (by omega), SpookyState.stash, List.drop_zero])
      refine ⟨_, ?_, hholds⟩
      simp only [if_neg htwo, hdata, Option.bind_eq_bind, Option.bind_some, hhash]

/-! ## Streams -/

inductive StreamOp
  | update (message : List Byte)
  | final

def StreamOp.size : StreamOp → Nat
  | update message => message.length
  | final => 0

/-- The hashes that are reported, and the state behind the last operation. -/
def stream (st : SpookyState) : List StreamOp → Option (List (BitVec 64 × BitVec 64) × SpookyState)
  | [] => some ([], st)
  | .update message :: ops => do
      let st ← spookyUpdate st message
      stream st ops
  | .final :: ops => do
      let (hash, st) ← spookyFinal st
      let (hashes, st) ← stream st ops
      some (hash :: hashes, st)

/-- The hashes of all fragments so far in one piece, for every `final`. -/
def hashesSoFar (seed1 seed2 : BitVec 64) (m : List Byte) :
    List StreamOp → List (BitVec 64 × BitVec 64)
  | [] => []
  | .update message :: ops => hashesSoFar seed1 seed2 (m ++ message) ops
  | .final :: ops => spookyHash128 m seed1 seed2 :: hashesSoFar seed1 seed2 m ops

theorem exists_stream (ops : List StreamOp) (h : Holds seed1 seed2 m st)
    (hlen : m.length + (ops.map StreamOp.size).sum < 2 ^ 64) :
    ∃ st', stream st ops = some (hashesSoFar seed1 seed2 m ops, st') := by
  induction ops generalizing m st with
  | nil => exact ⟨st, rfl⟩
  | cons op ops ih =>
      rw [List.map_cons, List.sum_cons] at hlen
      cases op with
      | update message =>
          rw [StreamOp.size] at hlen
          obtain ⟨st₁, h₁, hholds⟩ := holds_spookyUpdate (x := message) h (by omega)
          obtain ⟨st', hst'⟩ := ih hholds (by rw [List.length_append]; omega)
          exact ⟨st', by rw [stream, h₁]; exact hst'⟩
      | final =>
          obtain ⟨st₁, h₁, hholds⟩ := holds_spookyFinal h
          obtain ⟨st', hst'⟩ := ih hholds (by omega)
          exact ⟨st', by simp only [stream, h₁, hst', Option.bind_eq_bind, Option.bind_some]; rfl⟩

/-- **A stream reports what `spooky_hash128` would**: in whatever fragments a message of less than
`2 ^ 64` bytes comes, every `spooky_final` on the way reports the hash of all fragments so far, and
no copy leaves an array, whatever was in the state before it was initialised. -/
theorem stream_eq_hashesSoFar (st : SpookyState) (seed1 seed2 : BitVec 64) (ops : List StreamOp)
    (hlen : (ops.map StreamOp.size).sum < 2 ^ 64) :
    (stream (spookyInit st seed1 seed2) ops).map Prod.fst =
      some (hashesSoFar seed1 seed2 [] ops) := by
  obtain ⟨st', h⟩ := exists_stream ops (holds_spookyInit st seed1 seed2)
    (by rwa [List.length_nil, Nat.zero_add])
  rw [h]
  rfl

theorem stream_eq_hashesSoFar_two :
    let st : SpookyState := ⟨List.Vector.replicate _ 1, Vector.replicate _ 1, 1, 1⟩
    let m : List Byte := List.replicate 150 7
    (stream (spookyInit st 1 2) [.update m, .final, .update m, .final]).map Prod.fst =
      some [spookyHash128 ([] ++ m) 1 2, spookyHash128 ([] ++ m ++ m) 1 2] :=
  stream_eq_hashesSoFar _ 1 2 _ (by simp [StreamOp.size])

end FloWatcher.Toeplitz
