import FloWatcher.Toeplitz.Murmur
import FloWatcher.Toeplitz.Spooky

/-!
# The loads of two queues

`toeplitz/main.c` hashes one random 5-tuple after the other, with the hash function it was compiled
for, and counts for two queues which of them the lowest bit of the hash would choose (`RAND`).
-/

namespace FloWatcher.Toeplitz

open Hashing

/-- `struct ipv4_5tuple`. Three bytes behind `proto` are padding. -/
structure Ipv4_5tuple where
  proto : BitVec 8
  pad : BitVec 24
  srcAddr : BitVec 32
  dstAddr : BitVec 32
  sport : BitVec 16
  dport : BitVec 16
  deriving DecidableEq

namespace Ipv4_5tuple

def bytes (t : Ipv4_5tuple) : List Byte :=
  bytesOf 1 t.proto ++ bytesOf 3 t.pad ++ bytesOf 4 t.srcAddr ++ bytesOf 4 t.dstAddr ++
    bytesOf 2 t.sport ++ bytesOf 2 t.dport

theorem length_bytes (t : Ipv4_5tuple) : t.bytes.length = 16 := by
  simp only [bytes, List.length_append, length_bytesOf]

theorem bytes_injective : Function.Injective bytes := by
  intro t t' h
  have hcut : ∀ {n w : Nat} {xs xs' : List Byte} {x x' : BitVec w}, w ≤ 8 * n →
      xs ++ bytesOf n x = xs' ++ bytesOf n x' → xs = xs' ∧ x = x' := by
    intro n w xs xs' x x' hw happend
    obtain ⟨hxs, hx⟩ := List.append_inj' happend (by rw [length_bytesOf, length_bytesOf])
    exact ⟨hxs, bytesOf_injective hw hx⟩
  obtain ⟨h, hdport⟩ := hcut (by decide) h
  obtain ⟨h, hsport⟩ := hcut (by decide) h
  obtain ⟨h, hdst⟩ := hcut (by decide) h
  obtain ⟨h, hsrc⟩ := hcut (by decide) h
  obtain ⟨h, hpad⟩ := hcut (by decide) h
  have hproto := bytesOf_injective (w := 8) (by decide) h
  cases t
  cases t'
  simp only at hproto hpad hsrc hdst hsport hdport
  rw [hproto, hpad, hsrc, hdst, hsport, hdport]

end Ipv4_5tuple

/-- A hash function of the program: the variables that it leaves its hash in, and whether the hash
is odd. -/
structure Hasher (σ : Type) where
  hash : Ipv4_5tuple → σ → σ
  odd : σ → Bool

/-- `hash % 2`, for the `int hash`. -/
def oddInt (hash : BitVec 32) : Bool := hash.toInt.tmod 2 ≠ 0

def add : Hasher (BitVec 32) where
  hash t _ := t.proto.setWidth 32 + t.srcAddr + t.dstAddr + t.sport.setWidth 32 +
    t.dport.setWidth 32
  odd := oddInt

def xor : Hasher (BitVec 32) where
  hash t _ := t.proto.setWidth 32 ^^^ t.srcAddr ^^^ t.dstAddr ^^^ t.sport.setWidth 32 ^^^
    t.dport.setWidth 32
  odd := oddInt

/-- `MURMUR`: `murmur[3]` is the upper half of the second word. -/
def murmur : Hasher X64_128.State where
  hash t _ := murmurHash3_x64_128 t.bytes 42
  odd s := (s.h2 >>> 32).setWidth 32 % 2#32 ≠ 0

/-- `BOB`: the two hashes of a tuple are the seeds of the next one. -/
def bob : Hasher (BitVec 64 × BitVec 64) where
  hash t h := spookyHash128 t.bytes h.1 h.2
  odd h := h.2 % 2#64 ≠ 0

/-- `TOE`, which calls the `rte_softrss` of the library. -/
def toe (rteSoftrss : Ipv4_5tuple → BitVec 32) : Hasher (BitVec 32) where
  hash t _ := rteSoftrss t
  odd := oddInt

structure Loads (σ : Type) where
  tuple : Ipv4_5tuple
  hash : σ
  ib0 : BitVec 64 := 0
  ib1 : BitVec 64 := 0
  ctr : BitVec 64 := 0

def Hasher.round {σ : Type} (hasher : Hasher σ) (rand : Fin 6 → BitVec 32) (s : Loads σ) :
    Loads σ :=
  let hash := hasher.hash s.tuple s.hash
  let s := { s with hash := hash }
  let s := if hasher.odd hash then { s with ib1 := s.ib1 + 1 } else { s with ib0 := s.ib0 + 1 }
  { s with
    ctr := (rand 0).setWidth 64
    tuple := { s.tuple with
      proto := (rand 1).setWidth 8
      srcAddr := rand 2
      dstAddr := rand 3
      sport := (rand 4).setWidth 16
      dport := (rand 5).setWidth 16 } }

def Hasher.lcoreHello {σ : Type} (hasher : Hasher σ) (rands : List (Fin 6 → BitVec 32))
    (s : Loads σ) : Loads σ :=
  rands.foldl (fun s rand => hasher.round rand s) s

/-- **Different tuples never collide under `MURMUR`**, whatever the hash variable held before. -/
theorem murmur_injective (before : Ipv4_5tuple → X64_128.State) :
    Function.Injective fun t => murmur.hash t (before t) := by
  intro t t' h
  have hlen : t.bytes.length = t'.bytes.length := by
    rw [Ipv4_5tuple.length_bytes, Ipv4_5tuple.length_bytes]
  exact Ipv4_5tuple.bytes_injective <| murmurHash3_x64_128_separates.key
    (differWithin_of_length_le hlen (Ipv4_5tuple.length_bytes t).le) h

/-- An `int` is odd when its lowest bit is set, whatever its sign. -/
theorem oddInt_eq (hash : BitVec 32) : oddInt hash = hash.getLsbD 0 := by
  have hbit : hash.getLsbD 0 = decide (hash.toNat % 2 = 1) := by
    rw [BitVec.getLsbD, Nat.testBit_zero]
  rw [oddInt, hbit]
  apply decide_eq_decide.mpr
  rw [ne_eq, ← Int.dvd_iff_tmod_eq_zero, BitVec.toInt_eq_toNat_cond]
  split <;> omega

theorem getLsbD_zero_add (x y : BitVec 32) :
    (x + y).getLsbD 0 = (x.getLsbD 0 ^^ y.getLsbD 0) := by
  rw [BitVec.getLsbD_add (by decide), BitVec.carry_zero, Bool.xor_false]

/-- `ADD` and `XOR` agree in the lowest bit. -/
theorem odd_add_eq_odd_xor (t : Ipv4_5tuple) (h h' : BitVec 32) :
    add.odd (add.hash t h) = xor.odd (xor.hash t h') := by
  simp only [add, xor, oddInt_eq, getLsbD_zero_add, BitVec.getLsbD_xor]

section Loops

variable {σ τ : Type} (hasher : Hasher σ)

/-- Both queues together get every tuple. -/
theorem load_round (rand : Fin 6 → BitVec 32) (s : Loads σ) :
    (hasher.round rand s).ib0 + (hasher.round rand s).ib1 = s.ib0 + s.ib1 + 1 := by
  unfold Hasher.round
  by_cases hodd : hasher.odd (hasher.hash s.tuple s.hash)
  · simp only [hodd, if_true]
    exact (add_assoc _ _ _).symm
  · simp only [hodd, Bool.false_eq_true, if_false]
    exact add_right_comm _ _ _

theorem load_lcoreHello (rands : List (Fin 6 → BitVec 32)) (s : Loads σ) :
    (hasher.lcoreHello rands s).ib0 + (hasher.lcoreHello rands s).ib1 =
      s.ib0 + s.ib1 + BitVec.ofNat 64 rands.length := by
  induction rands generalizing s with
  | nil => simp [Hasher.lcoreHello]
  | cons rand rands ih =>
      have hround := ih (hasher.round rand s)
      rw [load_round] at hround
      simp only [Hasher.lcoreHello, List.foldl_cons] at hround ⊢
      rw [hround, List.length_cons, BitVec.ofNat_add, add_assoc, add_comm 1]
      rfl

/-- Two hash functions whose hashes have the same lowest bit for every tuple. -/
theorem sameLoads {hasher : Hasher σ} {hasher' : Hasher τ}
    (hodd : ∀ t h h', hasher.odd (hasher.hash t h) = hasher'.odd (hasher'.hash t h'))
    (rands : List (Fin 6 → BitVec 32)) {s : Loads σ} {s' : Loads τ} (htuple : s.tuple = s'.tuple)
    (h0 : s.ib0 = s'.ib0) (h1 : s.ib1 = s'.ib1) :
    let r := hasher.lcoreHello rands s
    let r' := hasher'.lcoreHello rands s'
    r.tuple = r'.tuple ∧ r.ib0 = r'.ib0 ∧ r.ib1 = r'.ib1 := by
  induction rands generalizing s s' with
  | nil => exact ⟨htuple, h0, h1⟩
  | cons rand rands ih =>
      have hsame := hodd s.tuple s.hash s'.hash
      rw [htuple] at hsame
      refine ih ?_ ?_ ?_
      all_goals
        unfold Hasher.round
        by_cases h : hasher'.odd (hasher'.hash s'.tuple s'.hash) <;>
          simp [htuple, hsame, h, h0, h1]

end Loops

/-- **What the loads are**: both queues together get every tuple, with every hash function, and
`ADD` and `XOR` choose the same queue for every tuple. -/
theorem loads_eq (rands : List (Fin 6 → BitVec 32)) (tuple : Ipv4_5tuple) (h h' : BitVec 32) :
    (∀ (σ : Type) (hasher : Hasher σ) (hash : σ),
      let r := hasher.lcoreHello rands { tuple := tuple, hash := hash }
      r.ib0 + r.ib1 = BitVec.ofNat 64 rands.length) ∧
    (add.lcoreHello rands { tuple := tuple, hash := h }).ib0 =
      (xor.lcoreHello rands { tuple := tuple, hash := h' }).ib0 ∧
    (add.lcoreHello rands { tuple := tuple, hash := h }).ib1 =
      (xor.lcoreHello rands { tuple := tuple, hash := h' }).ib1 := by
  let s : Loads (BitVec 32) := { tuple := tuple, hash := h }
  let s' : Loads (BitVec 32) := { tuple := tuple, hash := h' }
  have hsame := sameLoads odd_add_eq_odd_xor rands (show s.tuple = s'.tuple from rfl)
    (show s.ib0 = s'.ib0 from rfl) (show s.ib1 = s'.ib1 from rfl)
  refine ⟨fun σ hasher hash => ?_, hsame.2⟩
  have hload := load_lcoreHello hasher rands { tuple := tuple, hash := hash }
  simpa using hload

end FloWatcher.Toeplitz
