import FloWatcher.Toeplitz.Murmur

/-!
# MurmurHash3 for 32-bit machines

`MurmurHash3_x86_32` and `MurmurHash3_x86_128` of `toeplitz/murmur3.c`: one state word and blocks of
4 bytes, or four state words and blocks of 16 bytes.
-/

namespace FloWatcher.Toeplitz

open Clib Hashing

theorem five_mul : (5 : BitVec 32) * 0xcccccccd = 1 := by decide

/-! ## `MurmurHash3_x86_32` -/

namespace X86_32

def c1 : BitVec 32 := 0xcc9e2d51
def c2 : BitVec 32 := 0x1b873593

def mixK1 : BitVec 32 → BitVec 32 := mixK c1 15 c2

def body (k1 h1 : BitVec 32) : BitVec 32 :=
  let h1 := h1 ^^^ mixK1 k1
  let h1 := rotl h1 13
  h1 * 5 + 0xe6546b64

structure Tail where
  h1 : BitVec 32
  k1 : BitVec 32 := 0

def loadK1 (tail : List Byte) (i r : Nat) (t : Tail) : Tail :=
  { t with k1 := t.k1 ^^^ (tail.getD i 0).setWidth 32 <<< r }

def mixH1 (t : Tail) : Tail := { k1 := mixK1 t.k1, h1 := t.h1 ^^^ mixK1 t.k1 }

def tailCases (tail : List Byte) : List (Case Tail) :=
  [{ label := 3, run := loadK1 tail 2 16 },
   { label := 2, run := loadK1 tail 1 8 },
   { label := 1, run := fun t => mixH1 (loadK1 tail 0 0 t) }]

def finalization (len : Nat) (h1 : BitVec 32) : BitVec 32 := fmix32 (h1 ^^^ BitVec.ofNat 32 len)

end X86_32

open X86_32 in
/-- `MurmurHash3_x86_32(key, len, seed, out)`: the word of `out`. -/
def murmurHash3_x86_32 (key : List Byte) (seed : BitVec 32) : BitVec 32 :=
  let len := key.length
  let nblocks := len / 4
  -- `i` counts from `-nblocks` up to 0, from the end of the blocks
  let h1 := (List.range nblocks).foldl (fun h1 i => body (getblock 32 key i) h1) seed
  let tail := key.drop (nblocks * 4)
  let t := switch (len &&& 3) (tailCases tail) { h1 := h1 }
  finalization len t.h1

namespace X86_32

theorem mixK1_inj {k l : BitVec 32} : mixK1 k = mixK1 l ↔ k = l :=
  mixK_inj 0xdee13bb1 0x56ed309b (by decide) rfl rfl

theorem eq_of_word {b c : List Byte} (hlen : b.length = c.length) (hle : b.length ≤ 4)
    (h : getblock 32 b 0 = getblock 32 c 0) : b = c := by
  refine eq_of_getblock (w := 32) (m := 1) (by decide) hlen hle fun j hj => ?_
  rwa [Nat.lt_one_iff.mp hj]

def mixBlock (b : List Byte) (h1 : BitVec 32) : BitVec 32 := body (getblock 32 b 0) h1

theorem body_eq {k l h h' : BitVec 32} (heq : body k h = body l h') :
    h ^^^ mixK1 k = h' ^^^ mixK1 l := by
  simp only [body] at heq
  rwa [BitVec.add_left_inj, (mul_injective five_mul).eq_iff, rotl_inj (by decide)] at heq

theorem mixes_body : Mixes 4 mixBlock where
  state := by
    intro b s t h
    exact (BitVec.xor_left_inj _).mp (body_eq h)
  block := by
    intro s b c hb hc h
    have hk := (BitVec.xor_right_inj _).mp (body_eq h)
    exact eq_of_word (hb.trans hc.symm) hb.le (mixK1_inj.mp hk)

def mixTail (b : List Byte) (h1 : BitVec 32) : BitVec 32 := h1 ^^^ mixK1 (getblock 32 b 0)

theorem mixes_tail {m : Nat} (hm : m < 4) : Mixes m mixTail where
  state := by
    intro b s t h
    exact (BitVec.xor_left_inj _).mp h
  block := by
    intro s b c hb hc h
    have hk := (BitVec.xor_right_inj _).mp h
    exact eq_of_word (hb.trans hc.symm) (hb.trans_le hm.le) (mixK1_inj.mp hk)

theorem loadK1_of_le {tail : List Byte} {i r : Nat} {h1 : BitVec 32} (h : tail.length ≤ i) :
    loadK1 tail i r { h1 := h1 } = { h1 := h1 } := by
  unfold loadK1
  rw [List.getD_eq_getElem?_getD, List.getElem?_eq_none h, Option.getD_none]
  simp

theorem mixH1_zero (h1 : BitVec 32) : mixH1 { h1 := h1 } = { h1 := h1 } := by
  have hk : mixK1 0#32 = 0 := by decide
  simp [mixH1, hk]

theorem switch_tailCases {tail : List Byte} (h : tail.length < 4) (h1 : BitVec 32) :
    (switch tail.length (tailCases tail) { h1 := h1 }).h1 = mixTail tail h1 := by
  rw [switch_of_countdown (n := 3) rfl (Nat.le_of_lt_succ h) (by simp [tailCases])]
  · have h3 : tail[4 * 0 + 3]?.getD 0 = 0 := by
      rw [List.getElem?_eq_none (by omega)]
      rfl
    rw [mixTail, getblock_eq]
    simp only [tailCases, List.foldl, loadK1, mixH1, le, leFrom, Nat.reduceDiv, List.range,
      List.range.loop, List.map, List.getD_eq_getElem?_getD, h3]
    rfl
  · intro c hc hlt
    simp only [tailCases, List.mem_cons, List.not_mem_nil, or_false] at hc
    rcases hc with rfl | rfl | rfl <;>
      simp only [loadK1_of_le (Nat.le_of_lt_succ hlt), mixH1_zero]

theorem murmur_eq (key : List Byte) (seed : BitVec 32) :
    murmurHash3_x86_32 key seed = finalization key.length (mixTail (rest 4 key)
      (absorb mixBlock (blocks 4 key) seed)) := by
  have hlen : key.length &&& 3 = (rest 4 key).length := length_and_eq key 2
  have hlt : (rest 4 key).length < 4 := by
    rw [length_rest]
    exact Nat.mod_lt _ (by decide)
  have htail : key.drop (key.length / 4 * 4) = rest 4 key := by rw [rest, Nat.mul_comm]
  have hbody : ∀ i h1, body (getblock 32 key i) h1 = mixBlock ((key.drop (4 * i)).take 4) h1 :=
    fun i h1 => by
      have hword := getblock_block (w := 32) (p := key) (i := i) (m := 1) (j := 0) (by decide)
      rw [Nat.mul_one, Nat.add_zero] at hword
      rw [mixBlock, hword]
  unfold murmurHash3_x86_32
  simp only [hlen, htail, switch_tailCases hlt, hbody, absorb, blocks, List.foldl_map]

theorem finalization_injective (len : Nat) : Function.Injective (finalization len) := by
  intro s t h
  exact (BitVec.xor_left_inj _).mp (fmix32_inj.mp h)

end X86_32

/-- **Keys that differ within one block of 4 bytes never collide, and neither do seeds.** -/
theorem murmurHash3_x86_32_separates : Separates 4 murmurHash3_x86_32 :=
  separates (by decide) X86_32.mixes_body (fun _ => X86_32.mixes_tail)
    (show Function.Injective (id : BitVec 32 → BitVec 32) from Function.injective_id)
    X86_32.finalization_injective X86_32.murmur_eq

/-! ## `MurmurHash3_x86_128` -/

namespace X86_128

def c1 : BitVec 32 := 0x239b961b
def c2 : BitVec 32 := 0xab0e9789
def c3 : BitVec 32 := 0x38b34ae5
def c4 : BitVec 32 := 0xa1e38b93

structure State where
  h1 : BitVec 32
  h2 : BitVec 32
  h3 : BitVec 32
  h4 : BitVec 32
  deriving DecidableEq

def mixK1 : BitVec 32 → BitVec 32 := mixK c1 15 c2
def mixK2 : BitVec 32 → BitVec 32 := mixK c2 16 c3
def mixK3 : BitVec 32 → BitVec 32 := mixK c3 17 c4
def mixK4 : BitVec 32 → BitVec 32 := mixK c4 18 c1

def body (k1 k2 k3 k4 : BitVec 32) (s : State) : State :=
  let h1 := s.h1 ^^^ mixK1 k1
  let h1 := mixH 19 0x561ccd1b h1 s.h2
  let h2 := s.h2 ^^^ mixK2 k2
  let h2 := mixH 17 0x0bcaa747 h2 s.h3
  let h3 := s.h3 ^^^ mixK3 k3
  let h3 := mixH 15 0x96cd1c35 h3 s.h4
  let h4 := s.h4 ^^^ mixK4 k4
  let h4 := mixH 13 0x32ac3b17 h4 h1
  ⟨h1, h2, h3, h4⟩

structure Tail extends State where
  k1 : BitVec 32 := 0
  k2 : BitVec 32 := 0
  k3 : BitVec 32 := 0
  k4 : BitVec 32 := 0

def loadK1 (tail : List Byte) (i r : Nat) (t : Tail) : Tail :=
  { t with k1 := t.k1 ^^^ (tail.getD i 0).setWidth 32 <<< r }

def loadK2 (tail : List Byte) (i r : Nat) (t : Tail) : Tail :=
  { t with k2 := t.k2 ^^^ (tail.getD i 0).setWidth 32 <<< r }

def loadK3 (tail : List Byte) (i r : Nat) (t : Tail) : Tail :=
  { t with k3 := t.k3 ^^^ (tail.getD i 0).setWidth 32 <<< r }

def loadK4 (tail : List Byte) (i r : Nat) (t : Tail) : Tail :=
  { t with k4 := t.k4 ^^^ (tail.getD i 0).setWidth 32 <<< r }

/-- `k1 *= c1; k1 = ROTL32(k1, 15); k1 *= c2; h1 ^= k1;` -/
def mixH1 (t : Tail) : Tail := { t with k1 := mixK1 t.k1, h1 := t.h1 ^^^ mixK1 t.k1 }
def mixH2 (t : Tail) : Tail := { t with k2 := mixK2 t.k2, h2 := t.h2 ^^^ mixK2 t.k2 }
def mixH3 (t : Tail) : Tail := { t with k3 := mixK3 t.k3, h3 := t.h3 ^^^ mixK3 t.k3 }
def mixH4 (t : Tail) : Tail := { t with k4 := mixK4 t.k4, h4 := t.h4 ^^^ mixK4 t.k4 }

def tailCases (tail : List Byte) : List (Case Tail) :=
  [{ label := 15, run := loadK4 tail 14 16 },
   { label := 14, run := loadK4 tail 13 8 },
   { label := 13, run := fun t => mixH4 (loadK4 tail 12 0 t) },
   { label := 12, run := loadK3 tail 11 24 },
   { label := 11, run := loadK3 tail 10 16 },
   { label := 10, run := loadK3 tail 9 8 },
   { label := 9, run := fun t => mixH3 (loadK3 tail 8 0 t) },
   { label := 8, run := loadK2 tail 7 24 },
   { label := 7, run := loadK2 tail 6 16 },
   { label := 6, run := loadK2 tail 5 8 },
   { label := 5, run := fun t => mixH2 (loadK2 tail 4 0 t) },
   { label := 4, run := loadK1 tail 3 24 },
   { label := 3, run := loadK1 tail 2 16 },
   { label := 2, run := loadK1 tail 1 8 },
   { label := 1, run := fun t => mixH1 (loadK1 tail 0 0 t) }]

def xorLen (len : Nat) (s : State) : State :=
  let len := BitVec.ofNat 32 len
  ⟨s.h1 ^^^ len, s.h2 ^^^ len, s.h3 ^^^ len, s.h4 ^^^ len⟩

/-- `h1 += h2; h1 += h3; h1 += h4; h2 += h1; h3 += h1; h4 += h1;` -/
def addUp (s : State) : State :=
  let h1 := s.h1 + s.h2
  let h1 := h1 + s.h3
  let h1 := h1 + s.h4
  ⟨h1, s.h2 + h1, s.h3 + h1, s.h4 + h1⟩

def finalization (len : Nat) (s : State) : State :=
  let s := addUp (xorLen len s)
  addUp ⟨fmix32 s.h1, fmix32 s.h2, fmix32 s.h3, fmix32 s.h4⟩

end X86_128

open X86_128 in
/-- `MurmurHash3_x86_128(key, len, seed, out)`: the four words of `out`. -/
def murmurHash3_x86_128 (key : List Byte) (seed : BitVec 32) : X86_128.State :=
  let len := key.length
  let nblocks := len / 16
  let h : X86_128.State := ⟨seed, seed, seed, seed⟩
  let h := (List.range nblocks).foldl
    (fun h i => body (getblock 32 key (i * 4 + 0)) (getblock 32 key (i * 4 + 1))
      (getblock 32 key (i * 4 + 2)) (getblock 32 key (i * 4 + 3)) h) h
  let tail := key.drop (nblocks * 16)
  let t := switch (len &&& 15) (tailCases tail) { toState := h }
  finalization len t.toState

namespace X86_128

theorem mixK1_inj {k l : BitVec 32} : mixK1 k = mixK1 l ↔ k = l :=
  mixK_inj 0x89c95413 0xdf130eb9 (by decide) rfl rfl

theorem mixK2_inj {k l : BitVec 32} : mixK2 k = mixK2 l ↔ k = l :=
  mixK_inj 0xdf130eb9 0x747862ed (by decide) rfl rfl

theorem mixK3_inj {k l : BitVec 32} : mixK3 k = mixK3 l ↔ k = l :=
  mixK_inj 0x747862ed 0x58d64a9b (by decide) rfl rfl

theorem mixK4_inj {k l : BitVec 32} : mixK4 k = mixK4 l ↔ k = l :=
  mixK_inj 0x58d64a9b 0x89c95413 (by decide) rfl rfl

theorem State.eq {s t : State} (h1 : s.h1 = t.h1) (h2 : s.h2 = t.h2) (h3 : s.h3 = t.h3)
    (h4 : s.h4 = t.h4) : s = t := by
  cases s
  cases t
  exact State.mk.injEq .. ▸ ⟨h1, h2, h3, h4⟩

/-- The four words of a block or of the tail. -/
theorem eq_of_words {b c : List Byte} (hlen : b.length = c.length) (hle : b.length ≤ 16)
    (h1 : getblock 32 b 0 = getblock 32 c 0) (h2 : getblock 32 b 1 = getblock 32 c 1)
    (h3 : getblock 32 b 2 = getblock 32 c 2) (h4 : getblock 32 b 3 = getblock 32 c 3) : b = c := by
  refine eq_of_getblock (w := 32) (m := 4) (by decide) hlen hle fun j hj => ?_
  match j, hj with
  | 0, _ => exact h1
  | 1, _ => exact h2
  | 2, _ => exact h3
  | 3, _ => exact h4

def mixBlock (b : List Byte) (s : State) : State :=
  body (getblock 32 b 0) (getblock 32 b 1) (getblock 32 b 2) (getblock 32 b 3) s

theorem body_eq {k1 k2 k3 k4 l1 l2 l3 l4 : BitVec 32} {s t : State}
    (h : body k1 k2 k3 k4 s = body l1 l2 l3 l4 t) :
    rotl (s.h1 ^^^ mixK1 k1) 19 + s.h2 = rotl (t.h1 ^^^ mixK1 l1) 19 + t.h2 ∧
      rotl (s.h2 ^^^ mixK2 k2) 17 + s.h3 = rotl (t.h2 ^^^ mixK2 l2) 17 + t.h3 ∧
      rotl (s.h3 ^^^ mixK3 k3) 15 + s.h4 = rotl (t.h3 ^^^ mixK3 l3) 15 + t.h4 ∧
      s.h4 ^^^ mixK4 k4 = t.h4 ^^^ mixK4 l4 := by
  obtain ⟨h1, h2, h3, h4⟩ := State.mk.inj h
  rw [h1, mixH_inj five_mul, BitVec.add_left_inj, rotl_inj (by decide)] at h4
  exact ⟨(mixH_inj five_mul).mp h1, (mixH_inj five_mul).mp h2, (mixH_inj five_mul).mp h3, h4⟩

theorem mixes_body : Mixes 16 mixBlock where
  state := by
    intro b s t h
    -- the last word is found first, and each one finds the one before it
    obtain ⟨h1, h2, h3, h4⟩ := body_eq h
    rw [BitVec.xor_left_inj] at h4
    rw [h4, BitVec.add_left_inj, rotl_inj (by decide), BitVec.xor_left_inj] at h3
    rw [h3, BitVec.add_left_inj, rotl_inj (by decide), BitVec.xor_left_inj] at h2
    rw [h2, BitVec.add_left_inj, rotl_inj (by decide), BitVec.xor_left_inj] at h1
    exact State.eq h1 h2 h3 h4
  block := by
    intro s b c hb hc h
    obtain ⟨h1, h2, h3, h4⟩ := body_eq h
    rw [BitVec.add_left_inj, rotl_inj (by decide), BitVec.xor_right_inj, mixK1_inj] at h1
    rw [BitVec.add_left_inj, rotl_inj (by decide), BitVec.xor_right_inj, mixK2_inj] at h2
    rw [BitVec.add_left_inj, rotl_inj (by decide), BitVec.xor_right_inj, mixK3_inj] at h3
    rw [BitVec.xor_right_inj, mixK4_inj] at h4
    exact eq_of_words (hb.trans hc.symm) hb.le h1 h2 h3 h4

def mixTail (b : List Byte) (s : State) : State :=
  ⟨s.h1 ^^^ mixK1 (getblock 32 b 0), s.h2 ^^^ mixK2 (getblock 32 b 1),
    s.h3 ^^^ mixK3 (getblock 32 b 2), s.h4 ^^^ mixK4 (getblock 32 b 3)⟩

theorem mixes_tail {m : Nat} (hm : m < 16) : Mixes m mixTail where
  state := by
    intro b s t h
    obtain ⟨h1, h2, h3, h4⟩ := State.mk.inj h
    rw [BitVec.xor_left_inj] at h1 h2 h3 h4
    exact State.eq h1 h2 h3 h4
  block := by
    intro s b c hb hc h
    obtain ⟨h1, h2, h3, h4⟩ := State.mk.inj h
    rw [BitVec.xor_right_inj, mixK1_inj] at h1
    rw [BitVec.xor_right_inj, mixK2_inj] at h2
    rw [BitVec.xor_right_inj, mixK3_inj] at h3
    rw [BitVec.xor_right_inj, mixK4_inj] at h4
    exact eq_of_words (hb.trans hc.symm) (hb.trans_le hm.le) h1 h2 h3 h4

theorem loadK_of_le {tail : List Byte} {i r : Nat} {s : State} (h : tail.length ≤ i) :
    loadK1 tail i r { toState := s } = { toState := s } ∧
      loadK2 tail i r { toState := s } = { toState := s } ∧
      loadK3 tail i r { toState := s } = { toState := s } ∧
      loadK4 tail i r { toState := s } = { toState := s } := by
  unfold loadK1 loadK2 loadK3 loadK4
  rw [List.getD_eq_getElem?_getD, List.getElem?_eq_none h, Option.getD_none]
  simp

theorem mixH_zero (s : State) : mixH1 { toState := s } = { toState := s } ∧
    mixH2 { toState := s } = { toState := s } ∧ mixH3 { toState := s } = { toState := s } ∧
    mixH4 { toState := s } = { toState := s } := by
  have h1 : mixK1 0#32 = 0 := by decide
  have h2 : mixK2 0#32 = 0 := by decide
  have h3 : mixK3 0#32 = 0 := by decide
  have h4 : mixK4 0#32 = 0 := by decide
  simp [mixH1, mixH2, mixH3, mixH4, h1, h2, h3, h4]

theorem switch_tailCases {tail : List Byte} (h : tail.length < 16) (s : State) :
    (switch tail.length (tailCases tail) { toState := s }).toState = mixTail tail s := by
  rw [switch_of_countdown (n := 15) rfl (Nat.le_of_lt_succ h) (by simp [tailCases])]
  · have h15 : tail[4 * 3 + 3]?.getD 0 = 0 := by
      rw [List.getElem?_eq_none (by omega)]
      rfl
    rw [mixTail, getblock_eq, getblock_eq, getblock_eq, getblock_eq]
    simp only [tailCases, List.foldl, loadK1, loadK2, loadK3, loadK4, mixH1, mixH2, mixH3, mixH4,
      le, leFrom, Nat.reduceDiv, List.range, List.range.loop, List.map,
      List.getD_eq_getElem?_getD, h15]
    rfl
  · intro c hc hlt
    simp only [tailCases, List.mem_cons, List.not_mem_nil, or_false] at hc
    rcases hc with rfl | rfl | rfl | rfl | rfl | rfl | rfl | rfl | rfl | rfl | rfl | rfl | rfl |
      rfl | rfl <;> simp only [loadK_of_le (Nat.le_of_lt_succ hlt), mixH_zero]

theorem murmur_eq (key : List Byte) (seed : BitVec 32) :
    murmurHash3_x86_128 key seed = finalization key.length (mixTail (rest 16 key)
      (absorb mixBlock (blocks 16 key) ⟨seed, seed, seed, seed⟩)) := by
  have hlen : key.length &&& 15 = (rest 16 key).length := length_and_eq key 4
  have hlt : (rest 16 key).length < 16 := by
    rw [length_rest]
    exact Nat.mod_lt _ (by decide)
  have htail : key.drop (key.length / 16 * 16) = rest 16 key := by rw [rest, Nat.mul_comm]
  have hbody : ∀ i h, body (getblock 32 key (i * 4 + 0)) (getblock 32 key (i * 4 + 1))
      (getblock 32 key (i * 4 + 2)) (getblock 32 key (i * 4 + 3)) h =
      mixBlock ((key.drop (16 * i)).take 16) h := fun i h => by
    rw [mixBlock, getblock_block (by decide), getblock_block (by decide),
      getblock_block (by decide), getblock_block (by decide)]
  unfold murmurHash3_x86_128
  simp only [hlen, htail, switch_tailCases hlt, hbody, absorb, blocks, List.foldl_map]

theorem addUp_injective : Function.Injective addUp := by
  intro s t h
  obtain ⟨h1, h2, h3, h4⟩ := State.mk.inj h
  rw [h1, BitVec.add_left_inj] at h2 h3 h4
  rw [h2, h3, h4, BitVec.add_left_inj, BitVec.add_left_inj, BitVec.add_left_inj] at h1
  exact State.eq h1 h2 h3 h4

theorem finalization_injective (len : Nat) : Function.Injective (finalization len) := by
  intro s t h
  obtain ⟨hf1, hf2, hf3, hf4⟩ := State.mk.inj (addUp_injective h)
  have hadd := State.eq (fmix32_inj.mp hf1) (fmix32_inj.mp hf2) (fmix32_inj.mp hf3)
    (fmix32_inj.mp hf4)
  obtain ⟨h1, h2, h3, h4⟩ := State.mk.inj (addUp_injective hadd)
  rw [BitVec.xor_left_inj] at h1 h2 h3 h4
  exact State.eq h1 h2 h3 h4

theorem seed_injective :
    Function.Injective fun seed : BitVec 32 => State.mk seed seed seed seed := by
  intro a b h
  exact (State.mk.inj h).1

end X86_128

/-- **Keys that differ within one block of 16 bytes never collide, and neither do seeds.** -/
theorem murmurHash3_x86_128_separates : Separates 16 murmurHash3_x86_128 :=
  separates (by decide) X86_128.mixes_body (fun _ => X86_128.mixes_tail) X86_128.seed_injective
    X86_128.finalization_injective X86_128.murmur_eq

end FloWatcher.Toeplitz
