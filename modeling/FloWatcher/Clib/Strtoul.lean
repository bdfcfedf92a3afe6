import FloWatcher.Clib.Strings
import Mathlib.Algebra.Group.Nat.Defs
import Mathlib.Data.List.TakeWhile

/-!
# `strtoul`

The conversion of a string to an `unsigned long` of 64 bits: white space, a sign, the prefix of the
base, digits, and whatever follows. Base `0` is that of an integer constant. A numeral is a string
that consists of digits, in its whole length; `strtoul_numeral` and `numeral_of_strtoul` say that
these are the strings that are converted without white space, sign or rest.
-/

namespace Clib

def isspace (c : Char) : Bool := c = ' ' || (9 ≤ c.toNat && c.toNat ≤ 13)

def digitVal (c : Char) : Option Nat :=
  if '0' ≤ c ∧ c ≤ '9' then some (c.toNat - '0'.toNat)
  else if 'a' ≤ c ∧ c ≤ 'z' then some (c.toNat - 'a'.toNat + 10)
  else if 'A' ≤ c ∧ c ≤ 'Z' then some (c.toNat - 'A'.toNat + 10)
  else none

def isDigitOf (base : Nat) (c : Char) : Bool := (digitVal c).any (· < base)

def ofDigits (base : Nat) (digits : List Char) : Nat :=
  digits.foldl (fun n c => n * base + (digitVal c).getD 0) 0

def hexPrefix : List Char → Bool
  | '0' :: x :: c :: _ => (x = 'x' || x = 'X') && isDigitOf 16 c
  | _ => false

/-- The base that a string is in, and the string after the prefix for it. -/
def radix (base : Nat) (s : List Char) : Nat × List Char :=
  if (base = 0 ∨ base = 16) ∧ hexPrefix s then (16, s.drop 2)
  else if base = 0 then (if s.head? = some '0' then 8 else 10, s)
  else (base, s)

def sign : List Char → Bool × List Char
  | '+' :: s => (false, s)
  | '-' :: s => (true, s)
  | s => (false, s)

def ulongMax : Nat := 2 ^ 64 - 1

/-- What `strtoul` returns, `*endptr`, and whether `errno` is set. -/
structure Strtoul where
  value : Nat
  endptr : List Char
  errno : Bool
  deriving DecidableEq, Repr

def strtoul (str : List Char) (base : Nat) : Strtoul :=
  let (minus, unsigned) := sign (str.dropWhile isspace)
  let (base, s) := radix base unsigned
  let digits := s.takeWhile (isDigitOf base)
  let endptr := s.dropWhile (isDigitOf base)
  let n := ofDigits base digits
  if digits = [] then { value := 0, endptr := str, errno := false }
  else if ulongMax < n then { value := ulongMax, endptr := endptr, errno := true }
  else { value := if minus then (2 ^ 64 - n) % 2 ^ 64 else n, endptr := endptr, errno := false }

structure Numeral (base : Nat) (s : List Char) (n : Nat) : Prop where
  ne_nil : (radix base s).2 ≠ []
  digits : ∀ c ∈ (radix base s).2, isDigitOf (radix base s).1 c = true
  value : n = ofDigits (radix base s).1 (radix base s).2

def StartsWithDigit (s : List Char) : Prop := ∃ c ∈ s.head?, (digitVal c).isSome = true

variable {base n : Nat} {s : List Char} {c : Char}

theorem le_toNat_of_digitVal (h : (digitVal c).isSome = true) : 48 ≤ c.toNat := by
  unfold digitVal at h
  simp only [Char.le_def, UInt32.le_iff_toNat_le] at h
  change (if 48 ≤ c.toNat ∧ c.toNat ≤ 57 then _ else if 97 ≤ c.toNat ∧ c.toNat ≤ 122 then _
    else if 65 ≤ c.toNat ∧ c.toNat ≤ 90 then _ else (none : Option Nat)).isSome = true at h
  split at h
  · omega
  · split at h
    · omega
    · split at h
      · omega
      · cases h

/-- There is no white space and no sign before a digit. -/
theorem sign_dropWhile (h : StartsWithDigit s) : sign (s.dropWhile isspace) = (false, s) := by
  obtain ⟨c, hc, hdigit⟩ := h
  obtain ⟨s, rfl⟩ := List.head?_eq_some_iff.mp hc
  have hle := le_toNat_of_digitVal hdigit
  have hspace : isspace c = false := by
    unfold isspace
    have hne : c ≠ ' ' := by
      rintro rfl
      exact absurd hle (by decide)
    simp only [hne, decide_false, Bool.false_or]
    simp
    omega
  rw [List.dropWhile_cons_of_neg (by simp [hspace])]
  unfold sign
  split
  · next heq =>
      cases heq
      exact absurd hle (by decide)
  · next heq =>
      cases heq
      exact absurd hle (by decide)
  · rfl

theorem isSome_digitVal (h : isDigitOf base c = true) : (digitVal c).isSome = true := by
  unfold isDigitOf at h
  cases hval : digitVal c with
  | none =>
      rw [hval] at h
      cases h
  | some d => rfl

/-- The prefix is `0x`, or there is none. -/
theorem radix_spec (base : Nat) (s : List Char) :
    hexPrefix s = true ∧ radix base s = (16, s.drop 2) ∨ ∃ b, radix base s = (b, s) := by
  unfold radix
  split
  · next h => exact Or.inl ⟨h.2, rfl⟩
  · split
    · exact Or.inr ⟨_, rfl⟩
    · exact Or.inr ⟨_, rfl⟩

theorem startsWithDigit_of_hexPrefix (h : hexPrefix s = true) : StartsWithDigit s := by
  unfold hexPrefix at h
  split at h
  · exact ⟨'0', rfl, by decide⟩
  · cases h

/-- A numeral starts with a digit. -/
theorem Numeral.startsWithDigit (h : Numeral base s n) : StartsWithDigit s := by
  obtain ⟨hne, hdigits, -⟩ := h
  rcases radix_spec base s with ⟨hhex, -⟩ | ⟨b, hb⟩
  · exact startsWithDigit_of_hexPrefix hhex
  · rw [hb] at hne hdigits
    obtain ⟨c, s, rfl⟩ := List.exists_cons_of_ne_nil hne
    exact ⟨c, rfl, isSome_digitVal (hdigits c List.mem_cons_self)⟩

/-- A numeral has no characters below the digits. -/
theorem Numeral.not_mem (h : Numeral base s n) (hc : c.toNat < 48) : c ∉ s := by
  obtain ⟨-, hdigits, -⟩ := h
  have hdigit : c ∉ (radix base s).2 := by
    intro hmem
    exact absurd (le_toNat_of_digitVal (isSome_digitVal (hdigits c hmem))) (Nat.not_le.mpr hc)
  rcases radix_spec base s with ⟨hhex, hradix⟩ | ⟨b, hradix⟩
  · rw [hradix] at hdigit
    unfold hexPrefix at hhex
    split at hhex
    · next x d s =>
        simp only [Bool.and_eq_true, Bool.or_eq_true, decide_eq_true_eq] at hhex
        have hx : c ≠ '0' ∧ c ≠ x := by
          refine ⟨?_, ?_⟩
          · rintro rfl
            exact absurd hc (by decide)
          · rintro rfl
            rcases hhex.1 with rfl | rfl
            · exact absurd hc (by decide)
            · exact absurd hc (by decide)
        simp only [List.drop_succ_cons, List.drop_zero] at hdigit
        rw [List.mem_cons, List.mem_cons]
        rintro (h0 | h1 | hmem)
        · exact hx.1 h0
        · exact hx.2 h1
        · exact hdigit hmem
    · cases hhex
  · rwa [hradix] at hdigit

/-! ## Numbers with a sign -/

/-- A string is a number in its whole length, after white space and a sign. -/
def SignedNumeral (base : Nat) (s : List Char) (minus : Bool) (n : Nat) : Prop :=
  ∃ unsigned, sign (s.dropWhile isspace) = (minus, unsigned) ∧ Numeral base unsigned n

/-- The `unsigned long` that stands for a number with a sign. -/
def ulongOf (minus : Bool) (n : Nat) : Nat :=
  if ulongMax < n then ulongMax else if minus then (2 ^ 64 - n) % 2 ^ 64 else n

/-- A string is no more than one number. -/
theorem SignedNumeral.unique {minus minus' : Bool} {n' : Nat} (h : SignedNumeral base s minus n)
    (h' : SignedNumeral base s minus' n') : minus = minus' ∧ n = n' := by
  obtain ⟨unsigned, hsign, -, -, rfl⟩ := h
  obtain ⟨unsigned', hsign', -, -, rfl⟩ := h'
  cases hsign.symm.trans hsign'
  exact ⟨rfl, rfl⟩

theorem SignedNumeral.ne_nil {minus : Bool} (h : SignedNumeral base s minus n) : s ≠ [] := by
  rintro rfl
  obtain ⟨unsigned, hsign, hnumeral⟩ := h
  cases hsign
  obtain ⟨c, hc, -⟩ := hnumeral.startsWithDigit
  cases hc

/-- **A number with a sign is converted in its whole length.** -/
theorem strtoul_signedNumeral {minus : Bool} (h : SignedNumeral base s minus n) :
    strtoul s base = { value := ulongOf minus n, endptr := [], errno := ulongMax < n } := by
  obtain ⟨unsigned, hsign, hne, hdigits, rfl⟩ := h
  have htake := List.takeWhile_eq_self_iff.mpr hdigits
  have hdrop := List.dropWhile_eq_nil_iff.mpr hdigits
  unfold strtoul ulongOf
  simp only [hsign, htake, hdrop, if_neg hne]
  split
  · next hlarge => rw [decide_eq_true hlarge]
  · next hlarge => rw [decide_eq_false hlarge]

/-- **What is converted to its last character is a number with a sign.** -/
theorem signedNumeral_of_strtoul (hne : s ≠ []) (hend : (strtoul s base).endptr = []) :
    ∃ minus n, SignedNumeral base s minus n := by
  cases hsign : sign (s.dropWhile isspace) with
  | mk minus unsigned =>
      unfold strtoul at hend
      simp only [hsign] at hend
      split at hend
      · exact absurd hend hne
      · next hdigits =>
          have hall : (radix base unsigned).2.dropWhile (isDigitOf (radix base unsigned).1) = [] := by
            split at hend
            · exact hend
            · exact hend
          have hall := List.dropWhile_eq_nil_iff.mp hall
          rw [List.takeWhile_eq_self_iff.mpr hall] at hdigits
          exact ⟨minus, _, unsigned, hsign, hdigits, hall, rfl⟩

/-- A numeral is a number without white space and without a sign. -/
theorem signedNumeral_of_numeral (h : Numeral base s n) : SignedNumeral base s false n :=
  ⟨s, sign_dropWhile h.startsWithDigit, h⟩

/-- **A numeral is converted in its whole length.** -/
theorem strtoul_numeral (h : Numeral base s n) (hn : n ≤ ulongMax) :
    strtoul s base = { value := n, endptr := [], errno := false } := by
  have hle := Nat.not_lt.mpr hn
  rw [strtoul_signedNumeral (signedNumeral_of_numeral h), decide_eq_false hle, ulongOf, if_neg hle]
  rfl

/-- **What is converted from its first character to its last one is a numeral.** -/
theorem numeral_of_strtoul (hs : StartsWithDigit s) (hend : (strtoul s base).endptr = [])
    (herrno : (strtoul s base).errno = false) : Numeral base s (strtoul s base).value := by
  have hne : s ≠ [] := by
    rintro rfl
    obtain ⟨c, hc, -⟩ := hs
    cases hc
  obtain ⟨minus, n, hsigned⟩ := signedNumeral_of_strtoul hne hend
  rw [strtoul_signedNumeral hsigned] at herrno ⊢
  obtain ⟨unsigned, hsign, hnumeral⟩ := hsigned
  cases (sign_dropWhile hs).symm.trans hsign
  rwa [ulongOf, if_neg (of_decide_eq_false herrno)]

/-! ## Decimal notation -/

theorem isDigitOf_ten (h : c.isDigit = true) :
    isDigitOf 10 c = true ∧ (digitVal c).getD 0 = c.toNat - '0'.toNat := by
  have hrange : '0' ≤ c ∧ c ≤ '9' := by
    simpa [Char.isDigit, Char.le_def] using h
  have hval : digitVal c = some (c.toNat - '0'.toNat) := by
    rw [digitVal, if_pos hrange]
  refine ⟨?_, by rw [hval]; rfl⟩
  simp only [Char.le_def, UInt32.le_iff_toNat_le] at hrange
  change 48 ≤ c.toNat ∧ c.toNat ≤ 57 at hrange
  rw [isDigitOf, hval, Option.any_some, decide_eq_true_eq]
  change c.toNat - 48 < 10
  omega

theorem ofDigits_ten {digits : List Char} (h : ∀ c ∈ digits, c.isDigit = true) :
    ofDigits 10 digits = Nat.ofDigitChars 10 digits 0 := by
  have hfold : ∀ n, digits.foldl (fun n c => n * 10 + (digitVal c).getD 0) n =
      Nat.ofDigitChars 10 digits n := by
    induction digits with
    | nil => exact fun n => Nat.ofDigitChars_nil.symm
    | cons c digits ih =>
        intro n
        rw [List.foldl_cons, ih fun d hd => h d (List.mem_cons_of_mem c hd), Nat.ofDigitChars_cons,
          (isDigitOf_ten (h c List.mem_cons_self)).2, Nat.mul_comm]
  exact hfold 0

/-- A positive number is written without a leading zero. -/
theorem head_toDigits (h : 0 < n) : (Nat.toDigits 10 n).head? ≠ some '0' := by
  induction n using Nat.strongRecOn with
  | _ n ih =>
      rcases Nat.lt_or_ge n 10 with hlt | hge
      · rw [Nat.toDigits_of_lt_base hlt, List.head?_cons, Option.some_inj.ne, ne_eq,
          Nat.digitChar_eq_zero]
        exact Nat.ne_of_gt h
      · rw [Nat.toDigits_of_base_le (by decide) hge,
          List.head?_append_of_ne_nil _ Nat.toDigits_ne_nil]
        exact ih (n / 10) (by omega) (by omega)

theorem hexPrefix_toDigits (n : Nat) : hexPrefix (Nat.toDigits 10 n) = false := by
  rcases Nat.eq_zero_or_pos n with rfl | hpos
  · rfl
  · have hhead := head_toDigits hpos
    unfold hexPrefix
    split
    · next heq =>
        rw [heq] at hhead
        exact absurd rfl hhead
    · rfl

/-- **Numbers in decimal notation are numerals.** -/
theorem numeral_toDigits (n : Nat) : Numeral 0 (Nat.toDigits 10 n) n := by
  rcases Nat.eq_zero_or_pos n with rfl | hpos
  · have hradix : radix 0 (Nat.toDigits 10 0) = (8, ['0']) := rfl
    refine ⟨?_, ?_, rfl⟩
    · rw [hradix]
      exact List.cons_ne_nil '0' []
    · rw [hradix]
      exact List.forall_mem_singleton.mpr rfl
  · have hradix : radix 0 (Nat.toDigits 10 n) = (10, Nat.toDigits 10 n) := by
      rw [radix, hexPrefix_toDigits, if_neg (head_toDigits hpos)]
      rfl
    have hdigits : ∀ c ∈ Nat.toDigits 10 n, c.isDigit = true :=
      fun c hc => Nat.isDigit_of_mem_toDigits (by decide) (by decide) hc
    refine ⟨?_, ?_, ?_⟩
    · rw [hradix]
      exact Nat.toDigits_ne_nil
    · rw [hradix]
      exact fun c hc => (isDigitOf_ten (hdigits c hc)).1
    · rw [hradix]
      dsimp only
      rw [ofDigits_ten hdigits, Nat.ofDigitChars_ten_toDigits]

end Clib
