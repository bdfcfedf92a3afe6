import FloWatcher.Clib.Switch
import FloWatcher.Hashing.Blocks
import FloWatcher.Hashing.Words

/-!
# MurmurHash3

`toeplitz/murmur3.c`. A key is the list of its bytes, and has fewer than `2 ^ 31` of them, as `len`
is an `int`. The machine is little-endian. Every step of the hash can be undone, so keys that differ
within 16 bytes only never collide.
-/

namespace FloWatcher.Toeplitz

open Clib Hashing

variable {w : Nat}

/-! ## Blocks in words -/

/-- `getblock(p, i)`, for a `p` that points to words of `w` bits. -/
def getblock (w : Nat) (p : List Byte) (i : Nat) : BitVec w :=
  le w ((p.drop (w / 8 * i)).take (w / 8))

/-- A word of a message is a word of one of its blocks. -/
theorem getblock_block {p : List Byte} {i m j : Nat} (hj : j < m) :
    getblock w p (i * m + j) = getblock w ((p.drop (w / 8 * m * i)).take (w / 8 * m)) j := by
  have hle : w / 8 * (j + 1) ≤ w / 8 * m := Nat.mul_le_mul_left _ hj
  have hplace : w / 8 * m * i + w / 8 * j = w / 8 * (i * m + j) := by
    rw [Nat.mul_assoc, ← Nat.mul_add, Nat.mul_comm i m]
  rw [Nat.mul_succ] at hle
  rw [getblock, getblock, List.drop_take, List.take_take, List.drop_drop, hplace,
    Nat.min_eq_left (by omega)]

/-- Where the bytes end within a word, the rest of it is zero. -/
theorem getblock_eq (p : List Byte) (i : Nat) :
    getblock w p i = le w ((List.range (w / 8)).map fun j => p.getD (w / 8 * i + j) 0) := by
  apply le_congr
  intro j _
  rcases Nat.lt_or_ge j (w / 8) with hlt | hge
  · rw [getElem?_of_mem_block hlt, List.getElem?_map, List.getElem?_range hlt,
      Option.map_some, Option.getD_some, List.getD_eq_getElem?_getD]
  · rw [List.getElem?_eq_none (Nat.le_trans (List.length_take_le _ _) hge),
      List.getElem?_eq_none (by simpa using hge)]

/-- Blocks of one length are told apart by their words. -/
theorem eq_of_getblock {b c : List Byte} {m : Nat} (hw : 0 < w / 8) (hlen : b.length = c.length)
    (hle : b.length ≤ w / 8 * m) (h : ∀ j < m, getblock w b j = getblock w c j) : b = c := by
  apply List.ext_getElem?
  intro i
  rcases Nat.lt_or_ge i b.length with hlt | hge
  · have hj : i / (w / 8) < m := Nat.div_lt_of_lt_mul (Nat.lt_of_lt_of_le hlt hle)
    have hfit : 8 * ((b.drop (w / 8 * (i / (w / 8)))).take (w / 8)).length ≤ w := by
      have htake := List.length_take_le (w / 8) (b.drop (w / 8 * (i / (w / 8))))
      omega
    have hword := le_injective (by simp [hlen]) hfit (h _ hj)
    have hplace : w / 8 * (i / (w / 8)) + i % (w / 8) = i := Nat.div_add_mod i _
    rw [← hplace, ← getElem?_of_mem_block (Nat.mod_lt i hw),
      ← getElem?_of_mem_block (Nat.mod_lt i hw), hword]
  · rw [List.getElem?_eq_none hge, List.getElem?_eq_none (hlen ▸ hge)]

/-! ## Steps that the variants share -/

/-- `k *= c; k = ROTL(k, r); k *= c';` -/
def mixK (c : BitVec w) (r : Nat) (c' k : BitVec w) : BitVec w := rotl (k * c) r * c'

/-- `h = ROTL(h, r); h += next; h = h * 5 + d;` -/
def mixH (r : Nat) (d h next : BitVec w) : BitVec w := (rotl h r + next) * 5 + d

/-- `k ^= k >> a; k *= c; k ^= k >> b; k *= c'; k ^= k >> a;` -/
def fmix (a : Nat) (c : BitVec w) (b : Nat) (c' k : BitVec w) : BitVec w :=
  let k := k ^^^ k >>> a
  let k := k * c
  let k := k ^^^ k >>> b
  let k := k * c'
  k ^^^ k >>> a

def fmix32 : BitVec 32 → BitVec 32 := fmix 16 0x85ebca6b 13 0xc2b2ae35

def fmix64 : BitVec 64 → BitVec 64 := fmix 33 0xff51afd7ed558ccd 33 0xc4ceb9fe1a85ec53

theorem mixK_inj {c c' : BitVec w} {r : Nat} (d d' : BitVec w) (hr : r < w) (hc : c * d = 1)
    (hc' : c' * d' = 1) {k l : BitVec w} : mixK c r c' k = mixK c r c' l ↔ k = l := by
  unfold mixK
  rw [(mul_injective hc').eq_iff, rotl_inj hr, (mul_injective hc).eq_iff]

theorem mixH_inj {r : Nat} {d five : BitVec w} (h5 : 5 * five = 1) {h next h' next' : BitVec w} :
    mixH r d h next = mixH r d h' next' ↔ rotl h r + next = rotl h' r + next' := by
  unfold mixH
  rw [BitVec.add_left_inj, (mul_injective h5).eq_iff]

theorem fmix_injective {a b : Nat} {c c' : BitVec w} (d d' : BitVec w) (ha : 0 < a) (hb : 0 < b)
    (hc : c * d = 1) (hc' : c' * d' = 1) : Function.Injective (fmix a c b c') := by
  intro k l h
  exact xorShift_injective ha (mul_injective hc (xorShift_injective hb (mul_injective hc'
    (xorShift_injective ha h))))

theorem fmix32_inj {k l : BitVec 32} : fmix32 k = fmix32 l ↔ k = l :=
  (fmix_injective 0xa5cb9243 0x7ed1b41d (by decide) (by decide) rfl rfl).eq_iff

theorem fmix64_inj {k l : BitVec 64} : fmix64 k = fmix64 l ↔ k = l :=
  (fmix_injective 0x4f74430c22a54005 0x9cb4b2f8129337db (by decide) (by decide) rfl rfl).eq_iff

/-- `len & 15` is the length of the tail (and `len & 3`, for blocks of 4 bytes). -/
theorem length_and_eq (key : List Byte) (k : Nat) :
    key.length &&& 2 ^ k - 1 = (rest (2 ^ k) key).length := by
  rw [length_rest]
  exact Nat.and_two_pow_sub_one_eq_mod _ _

/-! ## `MurmurHash3_x64_128` -/

namespace X64_128

def c1 : BitVec 64 := 0x87c37b91114253d5
def c2 : BitVec 64 := 0x4cf5ad432745937f

structure State where
  h1 : BitVec 64
  h2 : BitVec 64
  deriving DecidableEq

def mixK1 : BitVec 64 → BitVec 64 := mixK c1 31 c2
def mixK2 : BitVec 64 → BitVec 64 := mixK c2 33 c1

def body (k1 k2 : BitVec 64) (s : State) : State :=
  let h1 := s.h1 ^^^ mixK1 k1
  let h1 := mixH 27 0x52dce729 h1 s.h2
  let h2 := s.h2 ^^^ mixK2 k2
  let h2 := mixH 31 0x38495ab5 h2 h1
  ⟨h1, h2⟩

structure Tail extends State where
  k1 : BitVec 64 := 0
  k2 : BitVec 64 := 0

def loadK1 (tail : List Byte) (i r : Nat) (t : Tail) : Tail :=
  { t with k1 := t.k1 ^^^ (tail.getD i 0).setWidth 64 <<< r }

def loadK2 (tail : List Byte) (i r : Nat) (t : Tail) : Tail :=
  { t with k2 := t.k2 ^^^ (tail.getD i 0).setWidth 64 <<< r }

/-- `k1 *= c1; k1 = ROTL64(k1, 31); k1 *= c2; h1 ^= k1;` -/
def mixH1 (t : Tail) : Tail := { t with k1 := mixK1 t.k1, h1 := t.h1 ^^^ mixK1 t.k1 }

def mixH2 (t : Tail) : Tail := { t with k2 := mixK2 t.k2, h2 := t.h2 ^^^ mixK2 t.k2 }

def tailCases (tail : List Byte) : List (Case Tail) :=
  [{ label := 15, run := loadK2 tail 14 48 },
   { label := 14, run := loadK2 tail 13 40 },
   { label := 13, run := loadK2 tail 12 32 },
   { label := 12, run := loadK2 tail 11 24 },
   { label := 11, run := loadK2 tail 10 16 },
   { label := 10, run := loadK2 tail 9 8 },
   { label := 9, run := fun t => mixH2 (loadK2 tail 8 0 t) },
   { label := 8, run := loadK1 tail 7 56 },
   { label := 7, run := loadK1 tail 6 48 },
   { label := 6, run := loadK1 tail 5 40 },
   { label := 5, run := loadK1 tail 4 32 },
   { label := 4, run := loadK1 tail 3 24 },
   { label := 3, run := loadK1 tail 2 16 },
   { label := 2, run := loadK1 tail 1 8 },
   { label := 1, run := fun t => mixH1 (loadK1 tail 0 0 t) }]

def xorLen (len : Nat) (s : State) : State :=
  ⟨s.h1 ^^^ BitVec.ofNat 64 len, s.h2 ^^^ BitVec.ofNat 64 len⟩

def addUp (s : State) : State :=
  let h1 := s.h1 + s.h2
  let h2 := s.h2 + h1
  ⟨h1, h2⟩

def finalization (len : Nat) (s : State) : State :=
  let s := addUp (xorLen len s)
  addUp ⟨fmix64 s.h1, fmix64 s.h2⟩

end X64_128

open X64_128 in
/-- `MurmurHash3_x64_128(key, len, seed, out)`: the two words of `out`. -/
def murmurHash3_x64_128 (key : List Byte) (seed : BitVec 32) : X64_128.State :=
  let len := key.length
  let nblocks := len / 16
  let h : X64_128.State := ⟨seed.setWidth 64, seed.setWidth 64⟩
  let h := (List.range nblocks).foldl
    (fun h i => body (getblock 64 key (i * 2 + 0)) (getblock 64 key (i * 2 + 1)) h) h
  let tail := key.drop (nblocks * 16)
  let t := switch (len &&& 15) (tailCases tail) { toState := h }
  finalization len t.toState

namespace X64_128

theorem mixK1_inj {k l : BitVec 64} : mixK1 k = mixK1 l ↔ k = l :=
  mixK_inj 0xa98409e882ce4d7d 0xa81e14edd9de2c7f (by decide) rfl rfl

theorem mixK2_inj {k l : BitVec 64} : mixK2 k = mixK2 l ↔ k = l :=
  mixK_inj 0xa81e14edd9de2c7f 0xa98409e882ce4d7d (by decide) rfl rfl

theorem State.eq {s t : State} (h1 : s.h1 = t.h1) (h2 : s.h2 = t.h2) : s = t := by
  cases s
  cases t
  exact State.mk.injEq .. ▸ ⟨h1, h2⟩

/-- The two words of a block or of the tail. -/
theorem eq_of_words {b c : List Byte} (hlen : b.length = c.length) (hle : b.length ≤ 16)
    (h1 : getblock 64 b 0 = getblock 64 c 0) (h2 : getblock 64 b 1 = getblock 64 c 1) : b = c := by
  refine eq_of_getblock (w := 64) (m := 2) (by decide) hlen hle fun j hj => ?_
  match j, hj with
  | 0, _ => exact h1
  | 1, _ => exact h2

def mixBlock (b : List Byte) (s : State) : State := body (getblock 64 b 0) (getblock 64 b 1) s

theorem body_eq {k1 k2 l1 l2 : BitVec 64} {s t : State} (h : body k1 k2 s = body l1 l2 t) :
    rotl (s.h1 ^^^ mixK1 k1) 27 + s.h2 = rotl (t.h1 ^^^ mixK1 l1) 27 + t.h2 ∧
      s.h2 ^^^ mixK2 k2 = t.h2 ^^^ mixK2 l2 := by
  have h5 : (5 : BitVec 64) * 0xcccccccccccccccd = 1 := by decide
  obtain ⟨h1, h2⟩ := State.mk.inj h
  rw [h1, mixH_inj h5, BitVec.add_left_inj, rotl_inj (by decide)] at h2
  exact ⟨(mixH_inj h5).mp h1, h2⟩

theorem mixes_body : Mixes 16 mixBlock where
  state := by
    intro b s t h
    obtain ⟨h1, h2⟩ := body_eq h
    rw [BitVec.xor_left_inj] at h2
    rw [h2, BitVec.add_left_inj, rotl_inj (by decide), BitVec.xor_left_inj] at h1
    exact State.eq h1 h2
  block := by
    intro s b c hb hc h
    obtain ⟨h1, h2⟩ := body_eq h
    rw [BitVec.add_left_inj, rotl_inj (by decide), BitVec.xor_right_inj, mixK1_inj] at h1
    rw [BitVec.xor_right_inj, mixK2_inj] at h2
    exact eq_of_words (hb.trans hc.symm) hb.le h1 h2

def mixTail (b : List Byte) (s : State) : State :=
  ⟨s.h1 ^^^ mixK1 (getblock 64 b 0), s.h2 ^^^ mixK2 (getblock 64 b 1)⟩

theorem mixes_tail {m : Nat} (hm : m < 16) : Mixes m mixTail where
  state := by
    intro b s t h
    obtain ⟨h1, h2⟩ := State.mk.inj h
    rw [BitVec.xor_left_inj] at h1 h2
    exact State.eq h1 h2
  block := by
    intro s b c hb hc h
    obtain ⟨h1, h2⟩ := State.mk.inj h
    rw [BitVec.xor_right_inj, mixK1_inj] at h1
    rw [BitVec.xor_right_inj, mixK2_inj] at h2
    exact eq_of_words (hb.trans hc.symm) (hb.trans_le hm.le) h1 h2

theorem loadK_of_le {tail : List Byte} {i r : Nat} {s : State} (h : tail.length ≤ i) :
    loadK1 tail i r { toState := s } = { toState := s } ∧
      loadK2 tail i r { toState := s } = { toState := s } := by
  unfold loadK1 loadK2
  rw [List.getD_eq_getElem?_getD, List.getElem?_eq_none h, Option.getD_none]
  simp

theorem mixH_zero (s : State) : mixH1 { toState := s } = { toState := s } ∧
    mixH2 { toState := s } = { toState := s } := by
  have h1 : mixK1 0#64 = 0 := by decide
  have h2 : mixK2 0#64 = 0 := by decide
  simp [mixH1, mixH2, h1, h2]

theorem switch_tailCases {tail : List Byte} (h : tail.length < 16) (s : State) :
    (switch tail.length (tailCases tail) { toState := s }).toState = mixTail tail s := by
  rw [switch_of_countdown (n := 15) rfl (Nat.le_of_lt_succ h) (by simp [tailCases])]
  · -- `k2` has no byte 7, as the tail is shorter than a block
    have h15 : tail[8 * 1 + 7]?.getD 0 = 0 := by
      rw [List.getElem?_eq_none (by omega)]
      rfl
    rw [mixTail, getblock_eq, getblock_eq]
    simp only [tailCases, List.foldl, loadK1, loadK2, mixH1, mixH2, le, leFrom, Nat.reduceDiv,
      List.range, List.range.loop, List.map, List.getD_eq_getElem?_getD, h15]
    rfl
  · intro c hc hlt
    simp only [tailCases, List.mem_cons, List.not_mem_nil, or_false] at hc
    rcases hc with rfl | rfl | rfl | rfl | rfl | rfl | rfl | rfl | rfl | rfl | rfl | rfl | rfl |
      rfl | rfl <;> simp only [loadK_of_le (Nat.le_of_lt_succ hlt), mixH_zero]

theorem murmur_eq (key : List Byte) (seed : BitVec 32) :
    murmurHash3_x64_128 key seed = finalization key.length (mixTail (rest 16 key)
      (absorb mixBlock (blocks 16 key) ⟨seed.setWidth 64, seed.setWidth 64⟩)) := by
  have hlen : key.length &&& 15 = (rest 16 key).length := length_and_eq key 4
  have hlt : (rest 16 key).length < 16 := by
    rw [length_rest]
    exact Nat.mod_lt _ (by decide)
  have htail : key.drop (key.length / 16 * 16) = rest 16 key := by rw [rest, Nat.mul_comm]
  have hbody : ∀ i h, body (getblock 64 key (i * 2 + 0)) (getblock 64 key (i * 2 + 1)) h =
      mixBlock ((key.drop (16 * i)).take 16) h := fun i h => by
    rw [mixBlock, getblock_block (by decide), getblock_block (by decide)]
  unfold murmurHash3_x64_128
  simp only [hlen, htail, switch_tailCases hlt, hbody, absorb, blocks, List.foldl_map]

theorem addUp_injective : Function.Injective addUp := by
  intro s t h
  obtain ⟨h1, h2⟩ := State.mk.inj h
  rw [h1, BitVec.add_left_inj] at h2
  rw [h2, BitVec.add_left_inj] at h1
  exact State.eq h1 h2

theorem finalization_injective (len : Nat) : Function.Injective (finalization len) := by
  intro s t h
  obtain ⟨hf1, hf2⟩ := State.mk.inj (addUp_injective h)
  have hadd := State.eq (fmix64_inj.mp hf1) (fmix64_inj.mp hf2)
  obtain ⟨h1, h2⟩ := State.mk.inj (addUp_injective hadd)
  rw [BitVec.xor_left_inj] at h1 h2
  exact State.eq h1 h2

theorem seed_injective :
    Function.Injective fun seed : BitVec 32 => State.mk (seed.setWidth 64) (seed.setWidth 64) := by
  intro a b h
  have hlow := congrArg (BitVec.setWidth 32) (State.mk.inj h).1
  simpa using hlow

end X64_128

/-- **Keys that differ within one block of 16 bytes never collide, and neither do seeds.** -/
theorem murmurHash3_x64_128_separates : Separates 16 murmurHash3_x64_128 :=
  separates (by decide) X64_128.mixes_body (fun _ => X64_128.mixes_tail) X64_128.seed_injective
    X64_128.finalization_injective X64_128.murmur_eq

end FloWatcher.Toeplitz
