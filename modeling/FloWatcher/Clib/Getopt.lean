import Mathlib.Data.List.Basic

/-!
# `getopt_long`

The options of an argument vector, in the order in which `getopt_long` returns them when it is called
until it returns `EOF`. The operands among the arguments are moved behind the options. A program
goes through the options in a loop that it may leave.
-/

namespace Clib

/-- A `struct option` without a flag. -/
structure LongOption where
  name : List Char
  hasArg : Bool
  val : Nat
  deriving DecidableEq, Repr

/-- The options of a program: `optstring`, where a colon says that a character has an argument, and
`longopts`. -/
structure Options where
  optstring : List (Char × Bool)
  longopts : List LongOption

/-- What `getopt_long` returns, with `optarg`, which is empty for an option without argument. It
returns `?` when there is no such option or more than one, when the argument is missing, and when
there is one that should not be. -/
inductive Opt where
  | short (c : Char) (optarg : List Char)
  | long (option : LongOption) (optarg : List Char)
  | unknown
  deriving DecidableEq, Repr

def findLong (longopts : List LongOption) (name : List Char) : Option LongOption :=
  match longopts.find? (·.name = name) with
  | some option => some option
  | none =>
      match longopts.filter (name.isPrefixOf ·.name) with
      | [] => none
      | option :: others =>
          -- options that do the same are not ambiguous
          if others.all fun o => o.hasArg = option.hasArg ∧ o.val = option.val then some option
          else none

/-- An argument that starts with `--`, or what it is with the next argument. -/
def longOption (longopts : List LongOption) (nextchar : List Char) : Opt ⊕ (List Char → Opt) :=
  match findLong longopts (nextchar.takeWhile (· ≠ '=')) with
  | none => .inl .unknown
  | some option =>
      match nextchar.dropWhile (· ≠ '='), option.hasArg with
      | _ :: optarg, true => .inl (.long option optarg)
      | _ :: _, false => .inl .unknown
      | [], true => .inr (.long option)
      | [], false => .inl (.long option [])

/-- The options of an argument that starts with `-`, and what the last of them is with the next
argument. -/
def shortOptions (optstring : List (Char × Bool)) :
    List Char → List Opt × Option (List Char → Opt)
  | [] => ([], none)
  | c :: nextchar =>
      match optstring.lookup c with
      | none =>
          let (opts, last) := shortOptions optstring nextchar
          (.unknown :: opts, last)
      | some false =>
          let (opts, last) := shortOptions optstring nextchar
          (.short c [] :: opts, last)
      | some true => if nextchar = [] then ([], some (.short c)) else ([.short c nextchar], none)

/-- The options of the arguments, and the operands. The first argument may belong to the option in
front of it. -/
def getoptLong (options : Options) :
    Option (List Char → Opt) → List (List Char) → List Opt × List (List Char)
  | none, [] => ([], [])
  | some _, [] => ([.unknown], [])
  | some opt, arg :: argv =>
      let (opts, operands) := getoptLong options none argv
      (opt arg :: opts, operands)
  | none, ['-', '-'] :: argv => ([], argv)
  | none, ('-' :: '-' :: nextchar) :: argv =>
      match longOption options.longopts nextchar with
      | .inl opt =>
          let (opts, operands) := getoptLong options none argv
          (opt :: opts, operands)
      | .inr opt => getoptLong options (some opt) argv
  | none, ('-' :: c :: nextchar) :: argv =>
      let (opts, last) := shortOptions options.optstring (c :: nextchar)
      let (opts', operands) := getoptLong options last argv
      (opts ++ opts', operands)
  | none, arg :: argv =>
      let (opts, operands) := getoptLong options none argv
      (opts, arg :: operands)

def Options.Has (options : Options) : Opt → Prop
  | .short c optarg => ∃ hasArg, (c, hasArg) ∈ options.optstring ∧ (hasArg = false → optarg = [])
  | .long option optarg => option ∈ options.longopts ∧ (option.hasArg = false → optarg = [])
  | .unknown => False

theorem mem_of_findLong {longopts : List LongOption} {name : List Char} {option : LongOption}
    (h : findLong longopts name = some option) : option ∈ longopts := by
  unfold findLong at h
  split at h
  · next hfind =>
      cases h
      exact List.mem_of_find?_eq_some hfind
  · split at h
    · cases h
    · next hfilter =>
        split at h
        · cases h
          have hmem := hfilter ▸ List.mem_cons_self
          exact List.mem_of_mem_filter hmem
        · cases h

theorem longOption_has (options : Options) (nextchar : List Char) :
    match longOption options.longopts nextchar with
    | .inl opt => opt = .unknown ∨ options.Has opt
    | .inr opt => ∀ arg, options.Has (opt arg) := by
  unfold longOption
  cases hfind : findLong options.longopts (nextchar.takeWhile (· ≠ '=')) with
  | none => exact Or.inl rfl
  | some option =>
      have hmem := mem_of_findLong hfind
      dsimp only
      split
      · next hmatch =>
          split at hmatch
          · next harg =>
              cases hmatch
              exact Or.inr ⟨hmem, by rw [harg]; exact nofun⟩
          · cases hmatch
            exact Or.inl rfl
          · cases hmatch
          · cases hmatch
            exact Or.inr ⟨hmem, fun _ => rfl⟩
      · next hmatch =>
          split at hmatch
          · cases hmatch
          · cases hmatch
          · next harg =>
              cases hmatch
              exact fun arg => ⟨hmem, by rw [harg]; exact nofun⟩
          · cases hmatch

theorem shortOptions_has (options : Options) (nextchar : List Char) :
    (∀ opt ∈ (shortOptions options.optstring nextchar).1, opt = .unknown ∨ options.Has opt) ∧
      ∀ opt ∈ (shortOptions options.optstring nextchar).2, ∀ arg, options.Has (opt arg) := by
  induction nextchar with
  | nil => exact ⟨nofun, nofun⟩
  | cons c nextchar ih =>
      have hmem : ∀ hasArg, options.optstring.lookup c = some hasArg →
          (c, hasArg) ∈ options.optstring := by
        intro hasArg hlookup
        obtain ⟨l, l', heq, -⟩ := List.lookup_eq_some_iff.mp hlookup
        rw [heq]
        exact List.mem_append_right l List.mem_cons_self
      unfold shortOptions
      split
      · exact ⟨List.forall_mem_cons.mpr ⟨Or.inl rfl, ih.1⟩, ih.2⟩
      · next hlookup =>
          have hhas : options.Has (.short c []) := ⟨false, hmem _ hlookup, fun _ => rfl⟩
          exact ⟨List.forall_mem_cons.mpr ⟨Or.inr hhas, ih.1⟩, ih.2⟩
      · next hlookup =>
          have hhas : ∀ arg, options.Has (.short c arg) := fun arg => ⟨true, hmem _ hlookup, nofun⟩
          split
          · refine ⟨nofun, fun opt hopt => ?_⟩
            cases hopt
            exact hhas
          · refine ⟨fun opt hopt => ?_, nofun⟩
            rw [List.mem_singleton.mp hopt]
            exact Or.inr (hhas nextchar)

/-- **What is returned is `?` or an option of the program.** -/
theorem getoptLong_has (options : Options) (last : Option (List Char → Opt)) (argv : List (List Char))
    (hlast : ∀ opt ∈ last, ∀ arg, options.Has (opt arg)) :
    ∀ opt ∈ (getoptLong options last argv).1, opt = .unknown ∨ options.Has opt := by
  fun_induction getoptLong options last argv with
  | case1 => exact nofun
  | case2 => exact List.forall_mem_singleton.mpr (Or.inl rfl)
  | case3 opt arg argv opts operands hrest ih =>
      rw [hrest] at ih
      exact List.forall_mem_cons.mpr ⟨Or.inr (hlast opt rfl arg), ih nofun⟩
  | case4 => exact nofun
  | case5 nextchar argv _ opt hopt opts operands hrest ih =>
      have hhas := longOption_has options nextchar
      rw [hopt] at hhas
      rw [hrest] at ih
      exact List.forall_mem_cons.mpr ⟨hhas, ih nofun⟩
  | case6 nextchar argv _ opt hopt ih =>
      have hhas := longOption_has options nextchar
      rw [hopt] at hhas
      refine ih fun opt' hopt' => ?_
      cases hopt'
      exact hhas
  | case7 c nextchar argv _ _ opts last hopts opts' operands hrest ih =>
      have hhas := shortOptions_has options (c :: nextchar)
      rw [hopts] at hhas
      rw [hrest] at ih
      exact List.forall_mem_append.mpr ⟨hhas.1, ih hhas.2⟩
  | case8 arg argv _ _ _ opts operands hrest ih =>
      rw [hrest] at ih
      exact ih nofun

/-- There are not more operands than arguments. -/
theorem length_operands (options : Options) (opt : Option (List Char → Opt))
    (argv : List (List Char)) : (getoptLong options opt argv).2.length ≤ argv.length := by
  fun_induction getoptLong options opt argv with
  | case1 => exact Nat.le_refl _
  | case2 => exact Nat.le_refl _
  | _ => grind

section Loop

variable {σ : Type}

/-- A loop over the options. Its body says what is returned, or that the loop goes on. -/
def optLoop (body : Opt → σ → Option Int × σ) : List Opt → σ → Option Int × σ
  | [], st => (none, st)
  | opt :: opts, st =>
      match body opt st with
      | (some ret, st') => (some ret, st')
      | (none, st') => optLoop body opts st'

/-- The loop, and what is returned after it: `optind - 1`, as many arguments as are no operands. -/
def optParse (options : Options) (body : Opt → σ → Option Int × σ) (argv : List (List Char))
    (st : σ) : Int × σ :=
  let (opts, operands) := getoptLong options none argv
  let (ret, st') := optLoop body opts st
  (ret.getD (argv.length - operands.length), st')

variable {body : Opt → σ → Option Int × σ}

theorem optLoop_append (pre post : List Opt) (st : σ) :
    optLoop body (pre ++ post) st =
      match optLoop body pre st with
      | (some ret, st') => (some ret, st')
      | (none, st') => optLoop body post st' := by
  induction pre generalizing st with
  | nil => rfl
  | cons opt pre ih =>
      rw [List.cons_append, optLoop, optLoop]
      split
      · rfl
      · exact ih _

/-- What the body keeps for these options, the loop keeps. -/
theorem optLoop_invariant {P : σ → Prop} {opts : List Opt}
    (hbody : ∀ opt ∈ opts, ∀ st, P st → P (body opt st).2) {st : σ} (hst : P st) :
    P (optLoop body opts st).2 := by
  induction opts generalizing st with
  | nil => exact hst
  | cons opt opts ih =>
      obtain ⟨hopt, hopts⟩ := List.forall_mem_cons.mp hbody
      have hnext := hopt st hst
      rw [optLoop]
      split
      · next heq =>
          rw [heq] at hnext
          exact hnext
      · next heq =>
          rw [heq] at hnext
          exact ih hopts hnext

/-- When the options alone decide, the first one that ends the loop says what is returned. -/
theorem optLoop_fst {verdict : Opt → Option Int} (opts : List Opt)
    (h : ∀ opt ∈ opts, ∀ st, (body opt st).1 = verdict opt) (st : σ) :
    (optLoop body opts st).1 = opts.findSome? verdict := by
  induction opts generalizing st with
  | nil => rfl
  | cons opt opts ih =>
      obtain ⟨hopt, hopts⟩ := List.forall_mem_cons.mp h
      rw [optLoop, List.findSome?_cons, ← hopt st]
      split
      · next hbody => rw [hbody]
      · next hbody =>
          rw [hbody]
          exact ih hopts _

theorem optParse_fst {verdict : Opt → Option Int} (options : Options) (argv : List (List Char))
    (h : ∀ opt ∈ (getoptLong options none argv).1, ∀ st, (body opt st).1 = verdict opt) (st : σ) :
    ∃ n : Nat, (optParse options body argv st).1 =
      ((getoptLong options none argv).1.findSome? verdict).getD n := by
  have hle := length_operands options none argv
  refine ⟨argv.length - (getoptLong options none argv).2.length, ?_⟩
  rw [← optLoop_fst _ h st, Int.ofNat_sub hle]
  rfl

end Loop

end Clib
