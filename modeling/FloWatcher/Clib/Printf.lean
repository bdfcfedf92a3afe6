import FloWatcher.Clib.Strtoul

/-!
# `fprintf` and `fscanf`

Formats with `%u` and `%lu`, whose arguments are numbers of any size. What `fprintf` has written
with a format, `fscanf` reads back with the same format (`fscanf_fprintf`), when a number is
followed by a character that cannot belong to it; and a file of such lines is read back line by line
(`readLines_flatMap`).
-/

namespace Clib

inductive Directive where
  /-- `%u` or `%lu` -/
  | num
  /-- A character that stands for itself. -/
  | lit (c : Char)
  deriving DecidableEq, Repr

def directives : List Char → List Directive
  | '%' :: 'u' :: s => .num :: directives s
  | '%' :: 'l' :: 'u' :: s => .num :: directives s
  | c :: s => .lit c :: directives s
  | [] => []

/-- `fprintf`. What is printed for a number without an argument is undefined. -/
def fprintf : List Directive → List Nat → List Char
  | [], _ => []
  | .lit c :: fmt, args => c :: fprintf fmt args
  | .num :: fmt, n :: args => Nat.toDigits 10 n ++ fprintf fmt args
  | .num :: fmt, [] => fprintf fmt []

/-- `fscanf`: the numbers read, and the rest of the input. White space of the format stands for any
amount of white space, and a number may have white space before it. Signs are not read. -/
def fscanf : List Directive → List Char → Option (List Nat × List Char)
  | [], s => some ([], s)
  | .lit c :: fmt, s =>
      if isspace c then fscanf fmt (s.dropWhile isspace)
      else if s.head? = some c then fscanf fmt s.tail else none
  | .num :: fmt, s =>
      let digits := (s.dropWhile isspace).takeWhile Char.isDigit
      if digits = [] then none
      else (fscanf fmt ((s.dropWhile isspace).dropWhile Char.isDigit)).map
        (Prod.map (Nat.ofDigitChars 10 digits 0 :: ·) id)

/-- Calls of `fscanf` with one format, until the end of the file. -/
def readLines (fmt : List Directive) : Nat → List Char → Option (List (List Nat))
  | 0, s => if s = [] then some [] else none
  | n + 1, s => (fscanf fmt s).bind fun (args, rest) => (readLines fmt n rest).map (args :: ·)

def arity (fmt : List Directive) : Nat := fmt.count .num

/-- Behind a number there is a character that is not a digit. -/
def Separated : List Directive → Bool
  | .num :: .lit c :: fmt => !c.isDigit && Separated fmt
  | .num :: _ => false
  | .lit _ :: fmt => Separated fmt
  | [] => true

def NoLeadingSpace (s : List Char) : Prop := s.dropWhile isspace = s

variable {fmt : List Directive} {args : List Nat} {s rest : List Char} {c : Char}

theorem isspace_of_isDigit (h : c.isDigit = true) : isspace c = false := by
  have hle : 48 ≤ c.toNat := by
    unfold Char.isDigit at h
    simp only [Bool.and_eq_true, decide_eq_true_eq, ge_iff_le, UInt32.le_iff_toNat_le] at h
    exact h.1
  unfold isspace
  have hne : c ≠ ' ' := by
    rintro rfl
    exact absurd hle (by decide)
  simp only [hne, decide_false, Bool.false_or]
  simp
  omega

theorem isDigit_of_mem_toDigits {n : Nat} {d : Char} (h : d ∈ Nat.toDigits 10 n) :
    d.isDigit = true :=
  Nat.isDigit_of_mem_toDigits (by decide) (by decide) h

/-- There is no white space before a number. -/
theorem noLeadingSpace_toDigits (n : Nat) (s : List Char) :
    NoLeadingSpace (Nat.toDigits 10 n ++ s) := by
  obtain ⟨d, ds, hd⟩ := List.exists_cons_of_ne_nil (Nat.toDigits_ne_nil (n := n) (b := 10))
  have hmem : d ∈ Nat.toDigits 10 n := hd ▸ List.mem_cons_self
  rw [NoLeadingSpace, hd, List.cons_append,
    List.dropWhile_cons_of_neg (by rw [isspace_of_isDigit (isDigit_of_mem_toDigits hmem)]; simp)]

/-- The digits of a number end where its characters end. -/
theorem takeWhile_toDigits (n : Nat) (hc : c.isDigit = false) :
    (Nat.toDigits 10 n ++ c :: s).takeWhile Char.isDigit = Nat.toDigits 10 n := by
  rw [List.takeWhile_append_of_pos fun d hd => isDigit_of_mem_toDigits hd,
    List.takeWhile_cons_of_neg (by rw [hc]; simp), List.append_nil]

theorem dropWhile_toDigits (n : Nat) (hc : c.isDigit = false) :
    (Nat.toDigits 10 n ++ c :: s).dropWhile Char.isDigit = c :: s := by
  rw [List.dropWhile_append_of_pos fun d hd => isDigit_of_mem_toDigits hd,
    List.dropWhile_cons_of_neg (by rw [hc]; simp)]

theorem dropWhile_dropWhile (s : List Char) :
    (s.dropWhile isspace).dropWhile isspace = s.dropWhile isspace := by
  induction s with
  | nil => rfl
  | cons c s ih =>
      by_cases hc : isspace c = true
      · rw [List.dropWhile_cons_of_pos hc, ih]
      · rw [List.dropWhile_cons_of_neg hc, List.dropWhile_cons_of_neg hc]

/-- White space before what is printed is skipped by what comes first in the format. -/
theorem fscanf_dropWhile (hrest : NoLeadingSpace rest) :
    fscanf fmt ((fprintf fmt args ++ rest).dropWhile isspace) =
      fscanf fmt (fprintf fmt args ++ rest) := by
  cases fmt with
  | nil =>
      rw [fprintf, List.nil_append, hrest]
  | cons d fmt =>
      cases d with
      | num => rw [fscanf, fscanf, dropWhile_dropWhile]
      | lit c =>
          by_cases hc : isspace c = true
          · rw [fscanf, fscanf, if_pos hc, if_pos hc, dropWhile_dropWhile]
          · rw [fprintf, List.cons_append, List.dropWhile_cons_of_neg hc]

/-- **What has been printed is read back.** -/
theorem fscanf_fprintf (hsep : Separated fmt) (hargs : arity fmt = args.length)
    (hrest : NoLeadingSpace rest) :
    fscanf fmt (fprintf fmt args ++ rest) = some (args, rest) := by
  induction fmt, args using fprintf.induct with
  | case1 args =>
      have hnil : args = [] := List.eq_nil_of_length_eq_zero hargs.symm
      rw [hnil]
      rfl
  | case2 c fmt args ih =>
      have hread := ih hsep (by simpa [arity] using hargs)
      rw [fprintf, fscanf, List.cons_append]
      split
      · next hc => rw [List.dropWhile_cons_of_pos hc, fscanf_dropWhile hrest, hread]
      · rw [if_pos List.head?_cons, List.tail_cons, hread]
  | case3 fmt n args ih =>
      have hlen : arity fmt = args.length := by simpa [arity] using hargs
      match fmt, hsep with
      | .lit c :: fmt, hsep =>
          obtain ⟨hc, hsep⟩ : c.isDigit = false ∧ Separated fmt = true := by
            simpa [Separated] using hsep
          have hread := ih hsep hlen
          have happend : fprintf (.num :: .lit c :: fmt) (n :: args) ++ rest =
              Nat.toDigits 10 n ++ c :: (fprintf fmt args ++ rest) := by
            rw [fprintf, fprintf, List.append_assoc, List.cons_append]
          rw [happend, fscanf, noLeadingSpace_toDigits, takeWhile_toDigits n hc,
            dropWhile_toDigits n hc, if_neg Nat.toDigits_ne_nil, Nat.ofDigitChars_ten_toDigits,
            ← List.cons_append]
          rw [fprintf] at hread
          rw [hread]
          rfl
  | case4 fmt ih => simp [arity] at hargs

/-- A line that starts with a number does not start with white space. -/
theorem noLeadingSpace_flatMap {rows : List (List Nat)}
    (hargs : ∀ args ∈ rows, arity (.num :: fmt) = args.length) :
    NoLeadingSpace (rows.flatMap (fprintf (.num :: fmt))) := by
  cases rows with
  | nil => rfl
  | cons args rows =>
      have hlen := hargs args List.mem_cons_self
      obtain ⟨n, args, rfl⟩ : ∃ n args', args = n :: args' := by
        cases args with
        | nil => simp [arity] at hlen
        | cons n args => exact ⟨n, args, rfl⟩
      rw [List.flatMap_cons, fprintf, List.append_assoc]
      exact noLeadingSpace_toDigits ..

/-- **A file is read back line by line.** -/
theorem readLines_flatMap (hsep : Separated (.num :: fmt)) {rows : List (List Nat)}
    (hargs : ∀ args ∈ rows, arity (.num :: fmt) = args.length) :
    readLines (.num :: fmt) rows.length (rows.flatMap (fprintf (.num :: fmt))) = some rows := by
  induction rows with
  | nil => rfl
  | cons args rows ih =>
      have htail := fun args' h => hargs args' (List.mem_cons_of_mem _ h)
      rw [List.length_cons, readLines, List.flatMap_cons,
        fscanf_fprintf hsep (hargs args List.mem_cons_self) (noLeadingSpace_flatMap htail),
        Option.bind_some]
      show (readLines _ rows.length _).map (args :: ·) = _
      rw [ih htail, Option.map_some]

end Clib
