import FloWatcher.Pthread.Arguments

/-!
# The value of `--burst_size`

`parse_rx_burst_size` returns the number as an `int`, with `-1` for a failure, and `parse_args` stores
it in a `uint16_t`. Other than `parse_rx_queue_nb` and `parse_rx_desc_nb` it has no limit for the
number, so what is stored may be another number than the one written (`Truncated`), `0` among them.
-/

namespace FloWatcher
namespace Pthread

open Clib

/-! ## The number -/

/-- A value of which another number is stored: one with a minus sign, or one that is too large, as
long as the `int` that it becomes is not `-1`. -/
def Truncated (s : List Char) : Prop :=
  ∃ n, 0 < n ∧ n < 2 ^ 64 ∧
    (SignedNumeral 10 s false n ∧ 2 ^ 16 ≤ n ∧ n % 2 ^ 32 ≠ 2 ^ 32 - 1 ∨
      SignedNumeral 10 s true n ∧ n % 2 ^ 32 ≠ 1)

def storedBurstSize (s : List Char) : UInt16 := UInt16.ofNat (parseRxBurstSize s).toNat

section Number

variable {s : List Char} {minus : Bool} {n : Nat}

/-- What becomes of a number. -/
theorem parseRxBurstSize_of_signedNumeral (h : SignedNumeral 10 s minus n) :
    parseRxBurstSize s =
      if ulongOf minus n = 0 then -1 else BitVec.ofNat 32 (ulongOf minus n) := by
  have hread : ReadAs 10 s (ulongOf minus n) := by
    refine ⟨h.ne_nil, ?_, ?_⟩
    · rw [strtoul_signedNumeral h]
    · rw [strtoul_signedNumeral h]
  exact parsePositive_of_readAs hread

/-- What is no number fails. -/
theorem parseRxBurstSize_of_not_signedNumeral (h : ∀ minus n, ¬ SignedNumeral 10 s minus n) :
    parseRxBurstSize s = -1 := by
  apply parsePositive_of_not_readAs
  intro n hread
  obtain ⟨minus, m, hsigned⟩ := signedNumeral_of_strtoul hread.ne_nil hread.endptr
  exact h minus m hsigned

/-- The `int` is `-1` for a failure, and for numbers that have all bits set there. -/
theorem parseRxBurstSize_eq_neg_one_iff (h : SignedNumeral 10 s minus n) :
    parseRxBurstSize s = -1 ↔
      n = 0 ∨ 2 ^ 64 ≤ n ∨ n % 2 ^ 32 = if minus then 1 else 2 ^ 32 - 1 := by
  have hones : BitVec.ofNat 32 (ulongOf minus n) = -1 ↔
      ulongOf minus n % 2 ^ 32 = 2 ^ 32 - 1 := by
    rw [← BitVec.toNat_inj, BitVec.toNat_ofNat]
    rfl
  have hret : parseRxBurstSize s = -1 ↔
      ulongOf minus n = 0 ∨ ulongOf minus n % 2 ^ 32 = 2 ^ 32 - 1 := by
    rw [parseRxBurstSize_of_signedNumeral h]
    by_cases hzero : ulongOf minus n = 0
    · rw [if_pos hzero]
      exact iff_of_true rfl (Or.inl hzero)
    · rw [if_neg hzero, hones]
      exact (or_iff_right hzero).symm
  rw [hret, ulongOf, ulongMax]
  cases minus with
  | false =>
      simp only [Bool.false_eq_true, if_false]
      split <;> omega
  | true =>
      simp only [if_true]
      split <;> omega

/-- Whether a number is truncated is a matter of the number. -/
theorem truncated_iff (h : SignedNumeral 10 s minus n) :
    Truncated s ↔ 0 < n ∧ n < 2 ^ 64 ∧
      if minus then n % 2 ^ 32 ≠ 1 else 2 ^ 16 ≤ n ∧ n % 2 ^ 32 ≠ 2 ^ 32 - 1 := by
  constructor
  · rintro ⟨m, hpos, hlt, ⟨hm, hcase⟩ | ⟨hm, hcase⟩⟩
    · obtain ⟨rfl, rfl⟩ := h.unique hm
      exact ⟨hpos, hlt, hcase⟩
    · obtain ⟨rfl, rfl⟩ := h.unique hm
      exact ⟨hpos, hlt, hcase⟩
  · rintro ⟨hpos, hlt, hcase⟩
    refine ⟨n, hpos, hlt, ?_⟩
    cases minus with
    | false => exact Or.inl ⟨h, hcase⟩
    | true => exact Or.inr ⟨h, hcase⟩

/-- A number that fits is stored. -/
theorem toNat_storedBurstSize (h : SignedNumeral 10 s false n) (hpos : 0 < n) (hlt : n < 2 ^ 16) :
    (storedBurstSize s).toNat = n := by
  have hulong : ulongOf false n = n := if_neg (by rw [ulongMax]; omega)
  rw [storedBurstSize, parseRxBurstSize_of_signedNumeral h, hulong, if_neg (Nat.ne_of_gt hpos),
    BitVec.toNat_ofNat, UInt16.toNat_ofNat']
  omega

/-- **What becomes of a value**: it fails, it is the number stored, or another number is stored. -/
theorem parseRxBurstSize_cases (s : List Char) :
    (parseRxBurstSize s = -1 ∧ ¬ Truncated s) ∨
    (parseRxBurstSize s ≠ -1 ∧ ¬ Truncated s ∧ 0 < (storedBurstSize s).toNat ∧
      SignedNumeral 10 s false (storedBurstSize s).toNat) ∨
    (parseRxBurstSize s ≠ -1 ∧ Truncated s) := by
  by_cases hsigned : ∃ minus n, SignedNumeral 10 s minus n
  · obtain ⟨minus, n, h⟩ := hsigned
    rw [ne_eq, parseRxBurstSize_eq_neg_one_iff h, truncated_iff h]
    cases minus with
    | true =>
        simp only [if_true]
        omega
    | false =>
        simp only [Bool.false_eq_true, if_false]
        by_cases hfits : 0 < n ∧ n < 2 ^ 16
        · have hstored := toNat_storedBurstSize h hfits.1 hfits.2
          right; left
          rw [hstored]
          exact ⟨by omega, by omega, hfits.1, h⟩
        · omega
  · left
    have hnone : ∀ minus n, ¬ SignedNumeral 10 s minus n :=
      fun minus n h => hsigned ⟨minus, n, h⟩
    refine ⟨parseRxBurstSize_of_not_signedNumeral hnone, ?_⟩
    rintro ⟨n, -, -, ⟨h, -⟩ | ⟨h, -⟩⟩
    · exact hnone false n h
    · exact hnone true n h

end Number

/-! ## The option -/

section Option

variable (rteStrsplit : List Char → Nat → Char → List (List Char))

/-- **What should become of a value of `--burst_size`**: `parse_args` goes on with what has been set
so far, or `burst_size` is the positive number that is written there. -/
def BurstSizeTaken (s : List Char) : Prop :=
  ∀ option argv g g' post, option.val = cmdLineOptBurstSize →
    Reaches rteStrsplit argv g (.long option s) g' post →
      parseArgs rteStrsplit argv g = goesOn rteStrsplit argv g' post ∨
      ∃ b : UInt16, 0 < b.toNat ∧ SignedNumeral 10 s false b.toNat ∧
        parseArgs rteStrsplit argv g = goesOn rteStrsplit argv { g' with burstSize := b } post

variable {rteStrsplit} {argv : List (List Char)} {g : Settings} {option : LongOption}
  {post : List Opt} {s : List Char}

theorem parseOpt_burstSize (hval : option.val = cmdLineOptBurstSize) :
    parseOpt rteStrsplit (.long option s) g =
      (none, if parseRxBurstSize s = -1 then g else { g with burstSize := storedBurstSize s }) := by
  have hrxq : option.val ≠ cmdLineOptNbRxqNum := by
    rw [hval]
    decide
  have hdesc : option.val ≠ cmdLineOptNbRxDesc := by
    rw [hval]
    decide
  rw [parseOpt, if_neg hrxq, if_neg hdesc, if_pos hval]
  rfl

/-- One round of the loop, for `--burst_size`. -/
theorem goesOn_burstSize (hval : option.val = cmdLineOptBurstSize) :
    goesOn rteStrsplit argv g (.long option s :: post) =
      goesOn rteStrsplit argv
        (if parseRxBurstSize s = -1 then g else { g with burstSize := storedBurstSize s }) post := by
  rw [goesOn, optLoop, parseOpt_burstSize hval]
  rfl

/-- `{"burst_size", 1, 0, CMD_LINE_OPT_BURST_SIZE}` -/
def burstSizeOption : LongOption :=
  { name := "burst_size".toList, hasArg := true, val := cmdLineOptBurstSize }

/-- Every string can be the value of `--burst_size`. -/
theorem reaches_burstSize (s : List Char) (g : Settings) :
    Reaches rteStrsplit ["--burst_size".toList, s] g (.long burstSizeOption s) g [] :=
  ⟨[], rfl, rfl⟩

/-- **When a value of `--burst_size` is taken for what it is**: when it is not truncated. -/
theorem burstSizeTaken_iff_not_truncated (s : List Char) :
    BurstSizeTaken rteStrsplit s ↔ ¬ Truncated s := by
  constructor
  · intro htaken htruncated
    have hret : parseRxBurstSize s ≠ -1 := by
      rcases parseRxBurstSize_cases s with ⟨-, hnot⟩ | ⟨hret, -, -⟩ | ⟨hret, -⟩
      · exact absurd htruncated hnot
      · exact hret
      · exact hret
    -- a value before that is not the one stored
    let g := { Settings.initial with burstSize := storedBurstSize s + 1 }
    have hparse : (parseArgs rteStrsplit ["--burst_size".toList, s] g).2.burstSize =
        storedBurstSize s := by
      rw [parseArgs_of_reaches (reaches_burstSize s g), goesOn_burstSize rfl, if_neg hret]
      rfl
    rcases htaken burstSizeOption _ g g [] rfl (reaches_burstSize s g) with
      hrejected | ⟨b, hpos, hwritten, haccepted⟩
    · rw [hrejected] at hparse
      have hsucc : storedBurstSize s + 1 = storedBurstSize s := hparse
      exact absurd (UInt16.add_eq_left.mp hsucc) (by decide)
    · obtain ⟨-, -, hlarge⟩ := (truncated_iff hwritten).mp htruncated
      have hlt := b.toNat_lt
      simp only [Bool.false_eq_true, if_false] at hlarge
      omega
  · intro hnot option argv g g' post hval hreach
    rw [parseArgs_of_reaches hreach, goesOn_burstSize hval]
    rcases parseRxBurstSize_cases s with ⟨hret, -⟩ | ⟨hret, -, hpos, hwritten⟩ | ⟨-, htruncated⟩
    · left
      rw [if_pos hret]
    · right
      refine ⟨storedBurstSize s, hpos, hwritten, ?_⟩
      rw [if_neg hret]
    · exact absurd htruncated hnot

/-- What an option can do to `burst_size`. -/
theorem burstSize_parseOpt (rteStrsplit : List Char → Nat → Char → List (List Char)) (opt : Opt)
    (g : Settings) :
    (parseOpt rteStrsplit opt g).2.burstSize = g.burstSize ∨
      ∃ option s, opt = .long option s ∧ option.val = cmdLineOptBurstSize := by
  cases opt with
  | short c optarg =>
      left
      unfold parseOpt
      grind
  | long option optarg =>
      by_cases hval : option.val = cmdLineOptBurstSize
      · exact Or.inr ⟨option, optarg, rfl, hval⟩
      · left
        unfold parseOpt
        grind
  | unknown => exact Or.inl rfl

/-- Without truncated values `burst_size` does not become `0`. -/
theorem burstSize_parseArgs_ne_zero (hg : g.burstSize ≠ 0)
    (hvalues : ∀ option s, .long option s ∈ (getoptLong options none argv).1 →
      option.val = cmdLineOptBurstSize → ¬ Truncated s) :
    (parseArgs rteStrsplit argv g).2.burstSize ≠ 0 := by
  apply optLoop_invariant (P := fun g : Settings => g.burstSize ≠ 0) ?_ hg
  intro opt hopt g hg
  rcases burstSize_parseOpt rteStrsplit opt g with hsame | ⟨option, s, rfl, hval⟩
  · rw [hsame]
    exact hg
  · rw [parseOpt_burstSize hval]
    rcases parseRxBurstSize_cases s with ⟨hret, -⟩ | ⟨hret, -, hpos, -⟩ | ⟨-, htruncated⟩
    · rw [if_pos hret]
      exact hg
    · rw [if_neg hret]
      intro hzero
      have hzero : storedBurstSize s = 0 := hzero
      rw [hzero] at hpos
      exact absurd hpos (by decide)
    · exact absurd htruncated (hvalues option s hopt hval)

/-- **When the values of `--burst_size` are taken for what they are**: when they are not truncated.
Then `burst_size` is not `0` after `parse_args`. -/
theorem burstSizeTaken_iff (rteStrsplit : List Char → Nat → Char → List (List Char)) :
    (∀ s, BurstSizeTaken rteStrsplit s ↔ ¬ Truncated s) ∧
      ∀ argv g, g.burstSize ≠ 0 →
        (∀ option s, .long option s ∈ (getoptLong options none argv).1 →
          option.val = cmdLineOptBurstSize → ¬ Truncated s) →
        (parseArgs rteStrsplit argv g).2.burstSize ≠ 0 :=
  ⟨burstSizeTaken_iff_not_truncated, fun _ _ => burstSize_parseArgs_ne_zero⟩

/-- `65536` is accepted, and `burst_size` is `0`. -/
theorem not_burstSizeTaken_65536 :
    parseArgs split ["--burst_size".toList, "65536".toList] Settings.initial =
        (2, { Settings.initial with burstSize := 0 }) ∧
      ¬ BurstSizeTaken split "65536".toList := by
  refine ⟨rfl, fun htaken => ?_⟩
  have hnumeral : SignedNumeral 10 "65536".toList false 65536 :=
    ⟨"65536".toList, rfl, by decide, List.all_eq_true.mp rfl, rfl⟩
  apply (burstSizeTaken_iff_not_truncated _).mp htaken
  exact ⟨65536, by decide, by decide, Or.inl ⟨hnumeral, by decide, by decide⟩⟩

end Option

end Pthread
end FloWatcher
