import FloWatcher.Clib.Switch
import FloWatcher.Hashing.Blocks
import FloWatcher.Hashing.Words

/-!
# SpookyHash

`toeplitz/spooky.c`. A message shorter than 192 bytes is hashed by `spooky_short` in four words, a
longer one in twelve, 96 bytes at a time. Both are built from lines that add, XOR or rotate one
word and lose none. `spooky_short` and `spooky_mix` read no further than they are told to.
-/

namespace FloWatcher.Toeplitz

open Clib Hashing

/-- `SC_NUMVARS`, the number of words of the internal state. -/
def scNumvars : Nat := 12

/-- `SC_BLOCKSIZE`, the bytes of a block. -/
def scBlocksize : Nat := scNumvars * 8

/-- `SC_BUFSIZE`, the bytes of the buffer of unhashed data. -/
def scBufsize : Nat := 2 * scBlocksize

def scConst : BitVec 64 := 0xDEADBEEFDEADBEEF

abbrev Vars := Vector (BitVec 64) scNumvars

instance : NeZero scNumvars := ⟨by decide⟩

/-- `spooky_read_le64(&p[i])`, for a `p` that points to words. -/
def spookyReadLe64 (p : List Byte) (i : Nat) : BitVec 64 := le 64 ((p.drop (8 * i)).take 8)

/-! ## The mixing functions -/

/-- `s[i] += data[i]; s[i+2] ^= s[i+10]; s[i+11] ^= s[i]; s[i] = ROTL64(s[i], r);` and
`s[i+11] += s[i+1];`, with indices modulo 12. -/
def mixLine (data : List Byte) (s : Vars) (line : Fin scNumvars × Nat) : Vars :=
  let i := line.1
  let s := assign s i (· + spookyReadLe64 data i)
  let s := assign s (i + 2) (· ^^^ s[i + 10])
  let s := assign s (i + 11) (· ^^^ s[i])
  let s := assign s i (rotl · line.2)
  assign s (i + 11) (· + s[i + 1])

def spookyMix (data : List Byte) (s : Vars) : Vars :=
  [(0, 11), (1, 32), (2, 43), (3, 31), (4, 17), (5, 28), (6, 39), (7, 57), (8, 55), (9, 54),
    (10, 22), (11, 46)].foldl (mixLine data) s

/-- `h[i+11] += h[i+1]; h[i+2] ^= h[i+11]; h[i+1] = ROTL64(h[i+1], r);`, with indices modulo 12. -/
def endLine (h : Vars) (line : Fin scNumvars × Nat) : Vars :=
  let i := line.1
  let h := assign h (i + 11) (· + h[i + 1])
  let h := assign h (i + 2) (· ^^^ h[i + 11])
  assign h (i + 1) (rotl · line.2)

def spookyEndPartial (h : Vars) : Vars :=
  [(0, 44), (1, 15), (2, 34), (3, 21), (4, 38), (5, 33), (6, 10), (7, 13), (8, 38), (9, 53),
    (10, 42), (11, 54)].foldl endLine h

def spookyEnd (data : List Byte) (h : Vars) : Vars :=
  let h := Vector.ofFn fun i : Fin scNumvars => h[i] + spookyReadLe64 data i
  let h := spookyEndPartial h
  let h := spookyEndPartial h
  spookyEndPartial h

abbrev ShortVars := Vector (BitVec 64) 4

/-- `h[i] = ROTL64(h[i], r); h[i] += h[i+1]; h[i+2] ^= h[i];`, with indices modulo 4. -/
def shortMixLine (h : ShortVars) (line : Fin 4 × Nat) : ShortVars :=
  let i := line.1
  let h := assign h i (rotl · line.2)
  let h := assign h i (· + h[i + 1])
  assign h (i + 2) (· ^^^ h[i])

def spookyShortMix (h : ShortVars) : ShortVars :=
  [(2, 50), (3, 52), (0, 30), (1, 41), (2, 54), (3, 48), (0, 38), (1, 37), (2, 62), (3, 34), (0, 5),
    (1, 36)].foldl shortMixLine h

/-- `h[i+1] ^= h[i]; h[i] = ROTL64(h[i], r); h[i+1] += h[i];`, with indices modulo 4. -/
def shortEndLine (h : ShortVars) (line : Fin 4 × Nat) : ShortVars :=
  let i := line.1
  let h := assign h (i + 1) (· ^^^ h[i])
  let h := assign h i (rotl · line.2)
  assign h (i + 1) (· + h[i])

def spookyShortEnd (h : ShortVars) : ShortVars :=
  [(2, 15), (3, 52), (0, 26), (1, 51), (2, 28), (3, 9), (0, 47), (1, 54), (2, 32), (3, 25),
    (0, 63)].foldl shortEndLine h

/-! ## Short messages -/

/-- `h[2] += u.p64[0]; h[3] += u.p64[1]; spooky_short_mix(h);` -/
def shortHalf (u : List Byte) (h : ShortVars) : ShortVars :=
  let h := assign h 2 (· + spookyReadLe64 u 0)
  let h := assign h 3 (· + spookyReadLe64 u 1)
  spookyShortMix h

/-- A complete set of 32 bytes. -/
def shortRound (u : List Byte) (h : ShortVars) : ShortVars :=
  let h := shortHalf u h
  let h := assign h 0 (· + spookyReadLe64 u 2)
  assign h 1 (· + spookyReadLe64 u 3)

/-- `h[k] += ((uint64_t) u.p8[i]) << r;` -/
def shortAdd (u : List Byte) (k : Fin 4) (i r : Nat) (h : ShortVars) : ShortVars :=
  assign h k (· + (u.getD i 0).setWidth 64 <<< r)

/-- The last 0 to 15 bytes. -/
def shortCases (u : List Byte) : List (Case ShortVars) :=
  [{ label := 15, run := shortAdd u 3 14 48 },
   { label := 14, run := shortAdd u 3 13 40 },
   { label := 13, run := shortAdd u 3 12 32 },
   { label := 12, run := shortAdd u 3 11 24 },
   { label := 11, run := shortAdd u 3 10 16 },
   { label := 10, run := shortAdd u 3 9 8 },
   { label := 9, run := shortAdd u 3 8 0 },
   { label := 8, run := fun h => assign h 2 (· + spookyReadLe64 u 0), breaks := true },
   { label := 7, run := shortAdd u 2 6 48 },
   { label := 6, run := shortAdd u 2 5 40 },
   { label := 5, run := shortAdd u 2 4 32 },
   { label := 4, run := shortAdd u 2 3 24 },
   { label := 3, run := shortAdd u 2 2 16 },
   { label := 2, run := shortAdd u 2 1 8 },
   { label := 1, run := shortAdd u 2 0 0, breaks := true },
   { label := 0, run := fun h => assign (assign h 2 (· + scConst)) 3 (· + scConst) }]

/-- `u`, `left` and `h` before the last 0 to 15 bytes. -/
structure ShortTail where
  u : List Byte
  left : Nat
  h : ShortVars

/-- The loop over complete sets of 32 bytes, and the 16 bytes that may follow them. -/
def shortBody (p : List Byte) (length : Nat) (h : ShortVars) : ShortTail :=
  let left := length % 32
  if length > 15 then
    let h := (List.range (length / 32)).foldl (fun h i => shortRound (p.drop (32 * i)) h) h
    let u := p.drop (32 * (length / 32))
    if left ≥ 16 then ⟨u.drop 16, left - 16, shortHalf u h⟩ else ⟨u, left, h⟩
  else ⟨p, left, h⟩

def shortVars (p : List Byte) (length : Nat) (h : ShortVars) : ShortVars :=
  let t := shortBody p length h
  let h := assign t.h 3 (· + BitVec.ofNat 64 length <<< 56)
  let h := switch t.left (shortCases t.u) h
  spookyShortEnd h

/-- `spooky_short(p, length, &hash1, &hash2)`: the two hashes. -/
def spookyShort (p : List Byte) (length : Nat) (hash1 hash2 : BitVec 64) : BitVec 64 × BitVec 64 :=
  let h := shortVars p length #v[hash1, hash2, scConst, scConst]
  (h[0], h[1])

/-! ## Long messages -/

/-- `h[0] = h[3] = h[6] = h[9] = hash1; h[1] = h[4] = h[7] = h[10] = hash2;` and `SC_CONST` for the
others. -/
def initVars (hash1 hash2 : BitVec 64) : Vars :=
  #v[hash1, hash2, scConst, hash1, hash2, scConst, hash1, hash2, scConst, hash1, hash2, scConst]

/-- `*hash1 = h[0]; *hash2 = h[1];` -/
def hashesOf (h : Vars) : BitVec 64 × BitVec 64 := (h[0], h[1])

def mixBlocks (p : List Byte) (k : Nat) (h : Vars) : Vars :=
  (List.range k).foldl (fun h i => spookyMix (p.drop (scBlocksize * i)) h) h

/-- The last partial block, filled up with zeros; its last byte is the number of bytes it holds. -/
def lastBlock (p : List Byte) : List Byte :=
  p ++ List.replicate (scBlocksize - 1 - p.length) 0 ++ [BitVec.ofNat 8 p.length]

/-- `spooky_hash128(message, length, &hash1, &hash2)`: the two hashes. -/
def spookyHash128 (message : List Byte) (hash1 hash2 : BitVec 64) : BitVec 64 × BitVec 64 :=
  let length := message.length
  if length < scBufsize then spookyShort message length hash1 hash2
  else
    -- the `do … while` has a block to begin with, as there are at least two
    let h := mixBlocks message (length / scBlocksize) (initVars hash1 hash2)
    hashesOf (spookyEnd (lastBlock (rest scBlocksize message)) h)

def spookyHash64 (message : List Byte) (seed : BitVec 64) : BitVec 64 :=
  (spookyHash128 message seed seed).1

def spookyHash32 (message : List Byte) (seed : BitVec 32) : BitVec 32 :=
  (spookyHash128 message (seed.setWidth 64) (seed.setWidth 64)).1.setWidth 32

/-! ## No line loses a word -/

theorem rotl_injective {r : Nat} (hr : r < 64) : Function.Injective fun x : BitVec 64 => rotl x r :=
  fun _ _ h => (rotl_inj hr).mp h

/-- No line reads the word that it assigns from another one. -/
theorem places_ne (i : Fin scNumvars) :
    i + 10 ≠ i + 2 ∧ i ≠ i + 11 ∧ i + 1 ≠ i + 11 ∧ i + 11 ≠ i + 2 := by
  revert i
  decide

theorem shortPlaces_ne (i : Fin 4) : i ≠ i + 1 ∧ i + 1 ≠ i ∧ i ≠ i + 2 := by
  revert i
  decide

theorem mixLine_injective (data : List Byte) {line : Fin scNumvars × Nat} (hr : line.2 < 64) :
    Function.Injective fun s => mixLine data s line := by
  obtain ⟨i, r⟩ := line
  obtain ⟨h10, h0, h1, _⟩ := places_ne i
  exact (assign_from_injective h1 add_injective).comp <|
    (assign_injective i (rotl_injective hr)).comp <|
    (assign_from_injective h0 xor_injective).comp <|
    (assign_from_injective h10 xor_injective).comp <|
    assign_injective i (add_injective _)

theorem spookyMix_injective (data : List Byte) : Function.Injective (spookyMix data) :=
  foldl_injective fun line hline => mixLine_injective data (by revert line; decide)

theorem endLine_injective {line : Fin scNumvars × Nat} (hr : line.2 < 64) :
    Function.Injective fun h => endLine h line := by
  obtain ⟨i, r⟩ := line
  obtain ⟨_, _, h1, h11⟩ := places_ne i
  exact (assign_injective (i + 1) (rotl_injective hr)).comp <|
    (assign_from_injective h11 xor_injective).comp <|
    assign_from_injective h1 add_injective

theorem spookyEndPartial_injective : Function.Injective spookyEndPartial :=
  foldl_injective fun line hline => endLine_injective (by revert line; decide)

theorem spookyEnd_injective (data : List Byte) : Function.Injective (spookyEnd data) := by
  intro s t h
  have hsum := spookyEndPartial_injective (spookyEndPartial_injective
    (spookyEndPartial_injective h))
  apply Vector.ext
  intro i hi
  have hi' := congrArg (·[i]) hsum
  simpa using hi'

theorem shortMixLine_injective {line : Fin 4 × Nat} (hr : line.2 < 64) :
    Function.Injective fun h => shortMixLine h line := by
  obtain ⟨i, r⟩ := line
  obtain ⟨_, h1, h2⟩ := shortPlaces_ne i
  exact (assign_from_injective h2 xor_injective).comp <|
    (assign_from_injective h1 add_injective).comp <|
    assign_injective i (rotl_injective hr)

theorem spookyShortMix_injective : Function.Injective spookyShortMix :=
  foldl_injective fun line hline => shortMixLine_injective (by revert line; decide)

theorem shortEndLine_injective {line : Fin 4 × Nat} (hr : line.2 < 64) :
    Function.Injective fun h => shortEndLine h line := by
  obtain ⟨i, r⟩ := line
  obtain ⟨h0, _⟩ := shortPlaces_ne i
  exact (assign_from_injective h0 add_injective).comp <|
    (assign_injective i (rotl_injective hr)).comp <|
    assign_from_injective h0 xor_injective

theorem spookyShortEnd_injective : Function.Injective spookyShortEnd :=
  foldl_injective fun line hline => shortEndLine_injective (by revert line; decide)

theorem shortHalf_injective (u : List Byte) : Function.Injective (shortHalf u) := by
  intro s t h
  simp only [shortHalf] at h
  exact assign_injective 2 (add_injective _) (assign_injective 3 (add_injective _)
    (spookyShortMix_injective h))

theorem shortRound_injective (u : List Byte) : Function.Injective (shortRound u) := by
  intro s t h
  simp only [shortRound] at h
  exact shortHalf_injective u (assign_injective 0 (add_injective _)
    (assign_injective 1 (add_injective _) h))

theorem shortBody_injective {p : List Byte} {length : Nat} {s t : ShortVars}
    (h : (shortBody p length s).h = (shortBody p length t).h) : s = t := by
  have hfold : Function.Injective fun h : ShortVars =>
      (List.range (length / 32)).foldl (fun h i => shortRound (p.drop (32 * i)) h) h :=
    foldl_injective fun i _ => shortRound_injective _
  by_cases hlong : length > 15
  · by_cases hhalf : length % 32 ≥ 16
    · simp only [shortBody, if_pos hlong, if_pos hhalf] at h
      exact hfold (shortHalf_injective _ h)
    · simp only [shortBody, if_pos hlong, if_neg hhalf] at h
      exact hfold h
  · simpa only [shortBody, if_neg hlong] using h

theorem shortCases_injective (u : List Byte) : ∀ c ∈ shortCases u, Function.Injective c.run := by
  have hadd : ∀ k i r, Function.Injective (shortAdd u k i r) := fun k i r =>
    assign_injective k (add_injective _)
  have hconst := (assign_injective (3 : Fin 4) (add_injective scConst)).comp
    (assign_injective 2 (add_injective scConst))
  simp only [shortCases, List.forall_mem_cons, hadd, true_and]
  exact ⟨assign_injective 2 (add_injective _), hconst, fun _ h => absurd h List.not_mem_nil⟩

/-- What `u` and `left` are does not depend on the words. -/
theorem shortBody_u_left (p : List Byte) (length : Nat) (s t : ShortVars) :
    (shortBody p length s).u = (shortBody p length t).u ∧
      (shortBody p length s).left = (shortBody p length t).left := by
  by_cases hlong : length > 15
  · by_cases hhalf : length % 32 ≥ 16
    · simp only [shortBody, if_pos hlong, if_pos hhalf, and_self]
    · simp only [shortBody, if_pos hlong, if_neg hhalf, and_self]
  · simp only [shortBody, if_neg hlong, and_self]

theorem shortVars_injective (p : List Byte) (length : Nat) :
    Function.Injective (shortVars p length) := by
  intro s t h
  simp only [shortVars] at h
  have hend := spookyShortEnd_injective h
  rw [(shortBody_u_left p length s t).1, (shortBody_u_left p length s t).2] at hend
  exact shortBody_injective (assign_injective 3 (add_injective _)
    (switch_injective (shortCases_injective _) hend))

theorem mixBlocks_injective (p : List Byte) (k : Nat) : Function.Injective (mixBlocks p k) :=
  foldl_injective fun _ _ => spookyMix_injective _

/-- **SpookyHash never merges two states**: neither the four words of a short message nor the twelve
words of a long one, whatever is in the message and wherever it ends. -/
theorem spooky_injective (p data : List Byte) (length k : Nat) :
    Function.Injective (shortVars p length) ∧
      Function.Injective fun h => spookyEnd data (mixBlocks p k h) :=
  ⟨shortVars_injective p length,
    fun _ _ h => mixBlocks_injective p k (spookyEnd_injective data h)⟩

/-! ## What is read -/

section Reads

variable {p q : List Byte} {n : Nat}

theorem spookyReadLe64_congr {i : Nat} (h : p.take n = q.take n) (hi : 8 * i + 8 ≤ n) :
    spookyReadLe64 p i = spookyReadLe64 q i := by
  unfold spookyReadLe64
  rw [take_drop_congr h hi]

theorem spookyMix_congr (h : p.take scBlocksize = q.take scBlocksize) :
    spookyMix p = spookyMix q := by
  have hline : mixLine p = mixLine q := by
    funext s line
    have hi : 8 * line.1.val + 8 ≤ scBlocksize := by
      have := line.1.isLt
      simp only [scBlocksize, scNumvars] at *
      omega
    simp only [mixLine, spookyReadLe64_congr h hi]
  funext s
  rw [spookyMix, spookyMix, hline]

theorem spookyEnd_congr (h : p.take scBlocksize = q.take scBlocksize) :
    spookyEnd p = spookyEnd q := by
  have hi : ∀ i : Fin scNumvars, spookyReadLe64 p i = spookyReadLe64 q i := fun i => by
    apply spookyReadLe64_congr h
    have := i.isLt
    simp only [scBlocksize, scNumvars] at *
    omega
  funext s
  simp only [spookyEnd, hi]

theorem shortHalf_congr (h : p.take 16 = q.take 16) : shortHalf p = shortHalf q := by
  funext s
  simp only [shortHalf, spookyReadLe64_congr (i := 0) h (by decide),
    spookyReadLe64_congr (i := 1) h (by decide)]

theorem shortRound_congr (h : p.take 32 = q.take 32) : shortRound p = shortRound q := by
  funext s
  have h16 : p.take 16 = q.take 16 := take_drop_congr (k := 0) h (by decide)
  simp only [shortRound, shortHalf_congr h16, spookyReadLe64_congr (i := 2) h (by decide),
    spookyReadLe64_congr (i := 3) h (by decide)]

theorem shortAdd_congr {k : Fin 4} {i r : Nat} (h : p.take n = q.take n) (hi : i < n) :
    shortAdd p k i r = shortAdd q k i r := by
  funext s
  rw [shortAdd, shortAdd, getD_congr h hi]

theorem shortCases_agree {left : Nat} (h : p.take left = q.take left) :
    List.Forall₂ (AgreeUpTo left) (shortCases p) (shortCases q) := by
  have hadd : ∀ {k : Fin 4} {i r : Nat} {b : Bool},
      AgreeUpTo left ⟨i + 1, shortAdd p k i r, b⟩ ⟨i + 1, shortAdd q k i r, b⟩ :=
    ⟨rfl, rfl, fun hle => shortAdd_congr h hle⟩
  have hword : AgreeUpTo left ⟨8, fun h => assign h (2 : Fin 4) (· + spookyReadLe64 p 0), true⟩
      ⟨8, fun h => assign h 2 (· + spookyReadLe64 q 0), true⟩ :=
    ⟨rfl, rfl, fun hle => by
      simp only [spookyReadLe64_congr (i := 0) h hle]⟩
  exact .cons hadd <| .cons hadd <| .cons hadd <| .cons hadd <| .cons hadd <| .cons hadd <|
    .cons hadd <| .cons hword <| .cons hadd <| .cons hadd <| .cons hadd <| .cons hadd <|
    .cons hadd <| .cons hadd <| .cons hadd <| .cons ⟨rfl, rfl, fun _ => rfl⟩ .nil

theorem shortBody_congr {length : Nat} (h : p.take length = q.take length) (s : ShortVars) :
    let t := shortBody p length s
    let t' := shortBody q length s
    t.u.take t.left = t'.u.take t'.left ∧ t.left = t'.left ∧ t.h = t'.h := by
  have hdiv := Nat.div_add_mod length 32
  by_cases hlong : length > 15
  · have hfold : (List.range (length / 32)).foldl (fun h i => shortRound (p.drop (32 * i)) h) s =
        (List.range (length / 32)).foldl (fun h i => shortRound (q.drop (32 * i)) h) s := by
      apply List.foldl_ext
      intro s i hi
      have hlt := List.mem_range.mp hi
      rw [shortRound_congr (take_drop_congr h (by omega))]
    by_cases hhalf : length % 32 ≥ 16
    · simp only [shortBody, if_pos hlong, if_pos hhalf, hfold, List.drop_drop]
      refine ⟨take_drop_congr h (by omega), trivial, ?_⟩
      rw [shortHalf_congr (take_drop_congr h (by omega))]
    · simp only [shortBody, if_pos hlong, if_neg hhalf, hfold]
      exact ⟨take_drop_congr h (by omega), trivial, trivial⟩
  · have hmod : length % 32 = length := Nat.mod_eq_of_lt (by omega)
    simp only [shortBody, if_neg hlong, hmod]
    exact ⟨h, trivial, trivial⟩

/-- **`spooky_short` reads the message only.** -/
theorem spookyShort_congr {length : Nat} (h : p.take length = q.take length)
    (hash1 hash2 : BitVec 64) :
    spookyShort p length hash1 hash2 = spookyShort q length hash1 hash2 := by
  have hvars : ∀ s, shortVars p length s = shortVars q length s := fun s => by
    obtain ⟨hu, hleft, hh⟩ := shortBody_congr h s
    rw [hleft] at hu
    have hdesc : ∀ u, Descending (shortCases u) := fun u => by simp [Descending, shortCases]
    simp only [shortVars]
    rw [hleft, hh, switch_congr (hdesc _) (shortCases_agree hu)]
  rw [spookyShort, spookyShort, hvars]

end Reads

end FloWatcher.Toeplitz
