import FloWatcher.Clib.Getopt
import FloWatcher.Config.Malformed
import FloWatcher.Config.Portmask

/-!
# The arguments of the lthread program

`parse_args` goes through the options and returns `-1`, `EXIT_FAILURE`, or the number of arguments
that it has read; `main` exits when this is negative. `EXIT_FAILURE` is not, and `parse_portmask` has
a failure of its own. `accepted_iff` says when `main` goes on with accepted arguments only.
-/

namespace FloWatcher
namespace Lthread

open Clib

def exitFailure : Int := 1

def cmdLineOptRxConfig : List Char := "rx".toList

def cmdLineOptTxConfig : List Char := "tx".toList

def cmdLineOptNoNuma : List Char := "no-numa".toList

def cmdLineOptEnableJumbo : List Char := "enable-jumbo".toList

def cmdLineOptFile : List Char := "write-file".toList

def options : Options where
  optstring := [('p', true), ('P', false)]
  longopts := [
    { name := cmdLineOptRxConfig, hasArg := true, val := 0 },
    { name := cmdLineOptTxConfig, hasArg := true, val := 0 },
    { name := cmdLineOptNoNuma, hasArg := false, val := 0 },
    { name := cmdLineOptEnableJumbo, hasArg := false, val := 0 },
    { name := cmdLineOptFile, hasArg := false, val := 0 }]

structure Settings where
  enabledPortMask : BitVec 32
  promiscuousOn : Bool
  numaOn : Bool
  write : Bool
  rx : ThreadParams RxThreadParams
  tx : ThreadParams TxThreadParams

section ParseArgs

variable (rteStrsplit : List Char → Nat → Char → List (List Char))

def parseOpt : Opt → Settings → Option Int × Settings
  | .short c optarg, g =>
      if c = 'p' then
        let g' := { g with enabledPortMask := parsePortmask optarg }
        if g'.enabledPortMask = 0 then (some exitFailure, g') else (none, g')
      else if c = 'P' then (none, { g with promiscuousOn := true })
      else (some exitFailure, g)
  | .long option optarg, g =>
      -- no two names are the same, so that at most one comparison succeeds
      if option.name = cmdLineOptRxConfig then
        let (ret, rx) := parseRxConfig rteStrsplit optarg g.rx
        (if ret = 0 then none else some (-1), { g with rx := rx })
      else if option.name = cmdLineOptTxConfig then
        let (ret, tx) := parseTxConfig rteStrsplit optarg g.tx
        (if ret = 0 then none else some (-1), { g with tx := tx })
      else if option.name = cmdLineOptFile then (none, { g with write := true })
      else if option.name = cmdLineOptNoNuma then (none, { g with numaOn := false })
      else (none, g)
  | .unknown, g => (some exitFailure, g)

def parseArgs : List (List Char) → Settings → Int × Settings :=
  optParse options (parseOpt rteStrsplit)

/-- The beginning of `main`: `none` when it exits because of what `parse_args` returns. -/
def mainArgs (argv : List (List Char)) (g : Settings) : Option Settings :=
  let (ret, g') := parseArgs rteStrsplit argv g
  if ret < 0 then none else some g'

/-- The options of the arguments are accepted: there is no other option, each has its argument, the
values of `-p` are masks, and those of `--rx` and `--tx` are accepted by their parsers. -/
structure Accepted (opts : List Opt) : Prop where
  has : ∀ opt ∈ opts, options.Has opt
  mask : ∀ optarg, .short 'p' optarg ∈ opts → ∃ n, IsMask optarg n
  rx : ∀ option optarg, .long option optarg ∈ opts → option.name = cmdLineOptRxConfig →
    ∀ st, (parseRxConfig rteStrsplit optarg st).1 = 0
  tx : ∀ option optarg, .long option optarg ∈ opts → option.name = cmdLineOptTxConfig →
    ∀ st, (parseTxConfig rteStrsplit optarg st).1 = 0

/-- An option for which `parse_args` returns `EXIT_FAILURE`: `?`, or a port mask that is `0` after
the conversion to an `int`. -/
def Ends : Opt → Prop
  | .short c optarg => c = 'p' ∧ WrapsToZero optarg
  | .long _ _ => False
  | .unknown => True

/-- An option for which `parse_args` returns `-1`: tuples that do not fit. -/
def Refused : Opt → Prop
  | .long option optarg =>
      option.name = cmdLineOptRxConfig ∧ ¬ AllFit rteStrsplit 4 optarg ∨
        option.name = cmdLineOptTxConfig ∧ ¬ AllFit rteStrsplit 2 optarg
  | _ => False

/-- An option that is not accepted, which `main` is not told: `?`, or a value of `-p` that is no
mask. -/
def Unseen : Opt → Prop
  | .short c optarg => c = 'p' ∧ ∀ n, ¬ IsMask optarg n
  | .long _ _ => False
  | .unknown => True

/-- Tuples that do not fit come before every option that ends the loop otherwise. -/
def RefusedFirst (opts : List Opt) : Prop :=
  ∃ pre opt post, opts = pre ++ opt :: post ∧ Refused rteStrsplit opt ∧ ∀ o ∈ pre, ¬ Ends o

end ParseArgs

section Spec

variable {rteStrsplit : List Char → Nat → Char → List (List Char)} {opt : Opt} {opts : List Opt}

theorem refusedFirst_cons :
    RefusedFirst rteStrsplit (opt :: opts) ↔
      Refused rteStrsplit opt ∨ ¬ Ends opt ∧ RefusedFirst rteStrsplit opts := by
  constructor
  · rintro ⟨pre, opt', post, heq, hrefused, hpre⟩
    cases pre with
    | nil =>
        cases heq
        exact Or.inl hrefused
    | cons o pre =>
        cases heq
        have hpre' := List.forall_mem_cons.mp hpre
        exact Or.inr ⟨hpre'.1, pre, opt', post, rfl, hrefused, hpre'.2⟩
  · intro h
    rcases h with hrefused | ⟨hends, pre, opt', post, rfl, hrefused, hpre⟩
    · exact ⟨[], opt, opts, rfl, hrefused, nofun⟩
    · exact ⟨opt :: pre, opt', post, rfl, hrefused, List.forall_mem_cons.mpr ⟨hends, hpre⟩⟩

theorem Ends.not_refused (h : Ends opt) : ¬ Refused rteStrsplit opt := by
  cases opt with
  | unknown => exact id
  | short c optarg => exact id
  | long option optarg => exact h.elim

theorem Ends.unseen (h : Ends opt) : Unseen opt := by
  cases opt with
  | unknown => trivial
  | short c optarg => exact ⟨h.1, fun n => h.2.not_isMask⟩
  | long option optarg => exact h.elim

theorem parseOpt_of_refused (h : Refused rteStrsplit opt) (g : Settings) :
    (parseOpt rteStrsplit opt g).1 = some (-1) := by
  cases opt with
  | unknown => exact h.elim
  | short c optarg => exact h.elim
  | long option optarg =>
      rcases h with ⟨hname, hfit⟩ | ⟨hname, hfit⟩
      · rw [parseOpt, if_pos hname]
        exact if_neg ((parseRxConfig_eq_zero_iff optarg g.rx).not.mpr hfit)
      · have hrx : option.name ≠ cmdLineOptRxConfig := by
          rw [hname]
          decide
        rw [parseOpt, if_neg hrx, if_pos hname]
        exact if_neg ((parseTxConfig_eq_zero_iff optarg g.tx).not.mpr hfit)

theorem parseOpt_long {option : LongOption} {optarg : List Char}
    (h : ¬ Refused rteStrsplit (.long option optarg)) (g : Settings) :
    (parseOpt rteStrsplit (.long option optarg) g).1 = none := by
  rw [Refused, not_or, not_and_not_right, not_and_not_right] at h
  obtain ⟨hrx, htx⟩ := h
  rw [parseOpt]
  split
  · next hname => exact if_pos ((parseRxConfig_eq_zero_iff optarg g.rx).mpr (hrx hname))
  · split
    · next hname => exact if_pos ((parseTxConfig_eq_zero_iff optarg g.tx).mpr (htx hname))
    · grind

theorem parseOpt_mask (optarg : List Char) (g : Settings) :
    (parseOpt rteStrsplit (.short 'p' optarg) g).1 =
      if parsePortmask optarg = 0 then some exitFailure else none := by
  rw [parseOpt, if_pos rfl]
  exact apply_ite Prod.fst ..

/-- What one option does, whatever the state. -/
theorem parseOpt_spec (hopt : opt = .unknown ∨ options.Has opt) :
    (Ends opt ∧ ∀ g, (parseOpt rteStrsplit opt g).1 = some exitFailure) ∨
      (Refused rteStrsplit opt ∧ ∀ g, (parseOpt rteStrsplit opt g).1 = some (-1)) ∨
      (¬ Ends opt ∧ ¬ Refused rteStrsplit opt ∧ ∀ g, (parseOpt rteStrsplit opt g).1 = none) := by
  cases opt with
  | unknown => exact Or.inl ⟨trivial, fun g => rfl⟩
  | short c optarg =>
      by_cases hp : c = 'p'
      · subst hp
        by_cases hwraps : WrapsToZero optarg
        · refine Or.inl ⟨⟨rfl, hwraps⟩, fun g => ?_⟩
          rw [parseOpt_mask, if_pos (parsePortmask_eq_zero_iff.mpr hwraps)]
        · refine Or.inr (Or.inr ⟨fun h => hwraps h.2, id, fun g => ?_⟩)
          rw [parseOpt_mask, if_neg (parsePortmask_eq_zero_iff.not.mpr hwraps)]
      · -- the other option with one character is `P`
        have hP : c = 'P' := by
          rcases hopt with hopt | ⟨hasArg, hmem, -⟩
          · cases hopt
          · grind [options]
        refine Or.inr (Or.inr ⟨fun h => hp h.1, id, fun g => ?_⟩)
        rw [parseOpt, if_neg hp, if_pos hP]
  | long option optarg =>
      by_cases hrefused : Refused rteStrsplit (.long option optarg)
      · exact Or.inr (Or.inl ⟨hrefused, parseOpt_of_refused hrefused⟩)
      · exact Or.inr (Or.inr ⟨id, hrefused, parseOpt_long hrefused⟩)

/-- What becomes of the options: all are read, or the first that ends the loop is one or the other. -/
theorem findSome_parseOpt (rteStrsplit : List Char → Nat → Char → List (List Char)) (g : Settings)
    (hopts : ∀ opt ∈ opts, opt = .unknown ∨ options.Has opt) :
    (opts.findSome? (fun opt => (parseOpt rteStrsplit opt g).1) = none ∧
        ∀ opt ∈ opts, ¬ Ends opt ∧ ¬ Refused rteStrsplit opt) ∨
      (opts.findSome? (fun opt => (parseOpt rteStrsplit opt g).1) = some (-1) ∧
        RefusedFirst rteStrsplit opts) ∨
      (opts.findSome? (fun opt => (parseOpt rteStrsplit opt g).1) = some exitFailure ∧
        ¬ RefusedFirst rteStrsplit opts ∧ ∃ opt ∈ opts, Ends opt) := by
  induction opts with
  | nil => exact Or.inl ⟨rfl, nofun⟩
  | cons opt opts ih =>
      obtain ⟨hopt, hopts⟩ := List.forall_mem_cons.mp hopts
      rw [List.findSome?_cons, refusedFirst_cons, List.forall_mem_cons, List.exists_mem_cons_iff]
      rcases parseOpt_spec hopt with ⟨hends, hret⟩ | ⟨hrefused, hret⟩ | ⟨hends, hrefused, hret⟩
      · have hrefused : ¬ Refused rteStrsplit opt := hends.not_refused
        rw [hret]
        refine Or.inr (Or.inr ⟨rfl, ?_, Or.inl hends⟩)
        exact not_or.mpr ⟨hrefused, fun h => h.1 hends⟩
      · rw [hret]
        exact Or.inr (Or.inl ⟨rfl, Or.inl hrefused⟩)
      · rw [hret]
        rcases ih hopts with ⟨hnone, hread⟩ | ⟨hsome, hfirst⟩ | ⟨hsome, hfirst, hex⟩
        · exact Or.inl ⟨hnone, ⟨hends, hrefused⟩, hread⟩
        · exact Or.inr (Or.inl ⟨hsome, Or.inr ⟨hends, hfirst⟩⟩)
        · exact Or.inr (Or.inr ⟨hsome, not_or.mpr ⟨hrefused, fun h => hfirst h.2⟩, Or.inr hex⟩)

/-- The options that are not accepted, when all are read. -/
theorem accepted_of_forall (hopts : ∀ opt ∈ opts, opt = .unknown ∨ options.Has opt)
    (hread : ∀ opt ∈ opts, ¬ Ends opt ∧ ¬ Refused rteStrsplit opt)
    (hseen : ∀ opt ∈ opts, ¬ Unseen opt) : Accepted rteStrsplit opts where
  has opt hopt := by
    rcases hopts opt hopt with rfl | hhas
    · exact absurd trivial (hseen _ hopt)
    · exact hhas
  mask optarg hopt := by
    by_contra hmask
    exact hseen _ hopt ⟨rfl, not_exists.mp hmask⟩
  rx option optarg hopt hname st := by
    rw [parseRxConfig_eq_zero_iff]
    by_contra hfit
    exact (hread _ hopt).2 (Or.inl ⟨hname, hfit⟩)
  tx option optarg hopt hname st := by
    rw [parseTxConfig_eq_zero_iff]
    by_contra hfit
    exact (hread _ hopt).2 (Or.inr ⟨hname, hfit⟩)

theorem Accepted.not_unseen (h : Accepted rteStrsplit opts) (hopt : opt ∈ opts) : ¬ Unseen opt := by
  intro hunseen
  cases opt with
  | unknown => exact h.has _ hopt
  | short c optarg =>
      obtain ⟨rfl, hmask⟩ := hunseen
      obtain ⟨n, hn⟩ := h.mask optarg hopt
      exact hmask n hn
  | long option optarg => exact hunseen

end Spec

def givenOpts (argv : List (List Char)) : List Opt := (getoptLong options none argv).1

/-- A cluster, an operand, an abbreviation, and `--`. -/
example : getoptLong options none
      ["-Pp".toList, "3".toList, "x".toList, "--write".toList, "--".toList, "-P".toList] =
    ([.short 'P' [], .short 'p' ['3'],
        .long { name := cmdLineOptFile, hasArg := false, val := 0 } []],
      ["x".toList, "-P".toList]) := by decide

/-- **When `main` goes on with accepted arguments only**: when all options are there and the values of
`-p` are masks, or tuples that do not fit come first. -/
theorem accepted_iff (rteStrsplit : List Char → Nat → Char → List (List Char))
    (argv : List (List Char)) (g : Settings) :
    ((mainArgs rteStrsplit argv g).isSome = true → Accepted rteStrsplit (givenOpts argv)) ↔
      (∀ opt ∈ givenOpts argv, ¬ Unseen opt) ∨ RefusedFirst rteStrsplit (givenOpts argv) := by
  have hopts : ∀ opt ∈ givenOpts argv, opt = .unknown ∨ options.Has opt :=
    getoptLong_has options none argv nofun
  have hmain : (mainArgs rteStrsplit argv g).isSome = true ↔
      0 ≤ (parseArgs rteStrsplit argv g).1 := by
    unfold mainArgs
    dsimp only
    split
    · next hneg => exact iff_of_false nofun (Int.not_le.mpr hneg)
    · next hpos => exact iff_of_true rfl (Int.not_lt.mp hpos)
  have hbody : ∀ opt ∈ givenOpts argv, ∀ g',
      (parseOpt rteStrsplit opt g').1 = (parseOpt rteStrsplit opt g).1 := by
    intro opt hopt g'
    rcases parseOpt_spec (hopts opt hopt) with ⟨-, hret⟩ | ⟨-, hret⟩ | ⟨-, -, hret⟩
    all_goals exact (hret g').trans (hret g).symm
  obtain ⟨n, hret⟩ := optParse_fst options argv hbody g
  rw [hmain, parseArgs, hret]
  change 0 ≤ ((givenOpts argv).findSome? _).getD (n : Int) → _ ↔ _
  rcases findSome_parseOpt rteStrsplit g hopts with ⟨hnone, hread⟩ | ⟨hsome, hfirst⟩ |
    ⟨hsome, hfirst, opt, hopt, hends⟩
  · -- the loop reads all options, and `main` goes on
    have hseen : Accepted rteStrsplit (givenOpts argv) ↔ ∀ opt ∈ givenOpts argv, ¬ Unseen opt :=
      ⟨fun h opt hopt => h.not_unseen hopt, accepted_of_forall hopts hread⟩
    have hfirst : ¬ RefusedFirst rteStrsplit (givenOpts argv) := by
      rintro ⟨pre, opt, post, heq, hrefused, -⟩
      exact (hread opt (heq ▸ by simp)).2 hrefused
    rw [hnone, hseen, or_iff_left hfirst]
    exact forall_prop_of_true (Int.natCast_nonneg n)
  · rw [hsome, Option.getD_some]
    exact iff_of_true (fun h => absurd h (by decide)) (Or.inr hfirst)
  · -- `EXIT_FAILURE` is no failure for `main`
    rw [hsome, Option.getD_some, or_iff_left hfirst]
    refine iff_of_false (fun h => ?_) fun h => h opt hopt hends.unseen
    exact (h (by decide)).not_unseen hopt hends.unseen

/-- `main` goes on after an option that does not exist, and with a port mask that is no number. -/
theorem not_accepted_failures :
    (∀ g, (mainArgs split ["-x".toList] g).isSome = true ∧
        ¬ Accepted split (givenOpts ["-x".toList])) ∧
      ∀ g, (mainArgs split ["-p".toList, "zz".toList] g).isSome = true ∧
        ¬ Accepted split (givenOpts ["-p".toList, "zz".toList]) := by
  have hunknown : givenOpts ["-x".toList] = [.unknown] := by decide
  have hmask : givenOpts ["-p".toList, "zz".toList] = [.short 'p' "zz".toList] := by decide
  refine ⟨fun g => ⟨rfl, fun h => ?_⟩, fun g => ⟨rfl, fun h => ?_⟩⟩
  · rw [hunknown] at h
    exact h.has _ List.mem_cons_self
  · rw [hmask] at h
    obtain ⟨n, hread, -⟩ := h.mask _ List.mem_cons_self
    exact absurd hread.endptr (by decide)

end Lthread
end FloWatcher
