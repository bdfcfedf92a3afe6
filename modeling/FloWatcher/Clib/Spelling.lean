import FloWatcher.Clib.Getopt
import Mathlib.Data.List.TakeWhile

/-!
# How options are spelled

`getopt_long` takes an argument vector apart. The other way round there is more than one argument
vector for the same options: the argument of an option is the next one or follows it, flags are
bundled, a long name is cut where it is still one name, and the operands stand between the options.
`Spells` is this relation, and `getoptLong_eq_iff` says that `getoptLong` is its inverse, where it
has no `?` to return.
-/

namespace Clib

/-- An argument that does not start with `-`, or is no more than that. -/
def IsOperand (arg : List Char) : Prop := ∀ c nextchar, arg ≠ '-' :: c :: nextchar

/-- Characters that stand for options without arguments. -/
def Flags (optstring : List (Char × Bool)) (cs : List Char) : Prop :=
  ∀ c ∈ cs, optstring.lookup c = some false

/-- `Spells options opts operands argv`: the arguments are spellings of the options `opts`, with the
operands between and behind them. -/
inductive Spells (options : Options) : List Opt → List (List Char) → List (List Char) → Prop
  | nil : Spells options [] [] []
  | stop {operands} : Spells options [] operands (['-', '-'] :: operands)
  | operand {arg opts operands argv} : IsOperand arg → Spells options opts operands argv →
      Spells options opts (arg :: operands) (arg :: argv)
  | flags {c cs opts operands argv} : c ≠ '-' → Flags options.optstring (c :: cs) →
      Spells options opts operands argv →
      Spells options ((c :: cs).map (.short · []) ++ opts) operands (('-' :: c :: cs) :: argv)
  | shortAttached {cs c optarg opts operands argv} : (cs ++ [c]).head? ≠ some '-' →
      Flags options.optstring cs → options.optstring.lookup c = some true → optarg ≠ [] →
      Spells options opts operands argv →
      Spells options (cs.map (.short · []) ++ .short c optarg :: opts) operands
        (('-' :: (cs ++ c :: optarg)) :: argv)
  | shortNext {cs c optarg opts operands argv} : (cs ++ [c]).head? ≠ some '-' →
      Flags options.optstring cs → options.optstring.lookup c = some true →
      Spells options opts operands argv →
      Spells options (cs.map (.short · []) ++ .short c optarg :: opts) operands
        (('-' :: (cs ++ [c])) :: optarg :: argv)
  | long {name option opts operands argv} : name ≠ [] → '=' ∉ name →
      findLong options.longopts name = some option → option.hasArg = false →
      Spells options opts operands argv →
      Spells options (.long option [] :: opts) operands (('-' :: '-' :: name) :: argv)
  | longAttached {name option optarg opts operands argv} : '=' ∉ name →
      findLong options.longopts name = some option → option.hasArg = true →
      Spells options opts operands argv →
      Spells options (.long option optarg :: opts) operands
        (('-' :: '-' :: (name ++ '=' :: optarg)) :: argv)
  | longNext {name option optarg opts operands argv} : name ≠ [] → '=' ∉ name →
      findLong options.longopts name = some option → option.hasArg = true →
      Spells options opts operands argv →
      Spells options (.long option optarg :: opts) operands
        (('-' :: '-' :: name) :: optarg :: argv)

/-! ## Short options -/

section Short

variable {optstring : List (Char × Bool)} {cs : List Char}

theorem shortOptions_append (h : Flags optstring cs) (rest : List Char) :
    shortOptions optstring (cs ++ rest) =
      (cs.map (.short · []) ++ (shortOptions optstring rest).1,
        (shortOptions optstring rest).2) := by
  induction cs with
  | nil => rfl
  | cons c cs ih =>
      obtain ⟨hc, hcs⟩ := List.forall_mem_cons.mp h
      rw [List.cons_append, shortOptions, hc]
      dsimp only
      rw [ih hcs]
      rfl

theorem shortOptions_flags (h : Flags optstring cs) :
    shortOptions optstring cs = (cs.map (.short · []), none) := by
  have happend := shortOptions_append h []
  rwa [List.append_nil, shortOptions, List.append_nil] at happend

theorem shortOptions_arg (h : Flags optstring cs) {c : Char} (hc : optstring.lookup c = some true)
    (optarg : List Char) :
    shortOptions optstring (cs ++ c :: optarg) =
      if optarg = [] then (cs.map (.short · []), some (.short c))
      else (cs.map (.short · []) ++ [.short c optarg], none) := by
  rw [shortOptions_append h, shortOptions, hc]
  dsimp only
  split
  · rw [List.append_nil]
  · rfl

/-- Without `?` there are flags, and at most one option with an argument behind them. -/
theorem shortOptions_known {nextchar : List Char}
    (h : .unknown ∉ (shortOptions optstring nextchar).1) :
    Flags optstring nextchar ∨
      ∃ cs c optarg, nextchar = cs ++ c :: optarg ∧ Flags optstring cs ∧
        optstring.lookup c = some true := by
  induction nextchar with
  | nil => exact Or.inl (List.forall_mem_nil _)
  | cons c nextchar ih =>
      rw [shortOptions] at h
      cases hc : optstring.lookup c with
      | none =>
          rw [hc] at h
          exact absurd List.mem_cons_self h
      | some hasArg =>
          cases hasArg with
          | true => exact Or.inr ⟨[], c, nextchar, rfl, List.forall_mem_nil _, hc⟩
          | false =>
              rw [hc] at h
              rcases ih fun hmem => h (List.mem_cons_of_mem _ hmem) with
                hflags | ⟨cs, d, optarg, rfl, hcs, hd⟩
              · exact Or.inl (List.forall_mem_cons.mpr ⟨hc, hflags⟩)
              · exact Or.inr ⟨c :: cs, d, optarg, rfl, List.forall_mem_cons.mpr ⟨hc, hcs⟩, hd⟩

end Short

/-! ## Long options -/

section Long

variable {longopts : List LongOption} {name : List Char} {option : LongOption}

theorem forall_ne_eq_of_not_mem (h : '=' ∉ name) : ∀ c ∈ name, decide (c ≠ '=') = true := by
  intro c hc
  rw [decide_eq_true_eq]
  rintro rfl
  exact h hc

theorem longOption_name (heq : '=' ∉ name) (hfind : findLong longopts name = some option) :
    longOption longopts name =
      if option.hasArg then .inr (.long option) else .inl (.long option []) := by
  have hall := forall_ne_eq_of_not_mem heq
  rw [longOption, List.takeWhile_eq_self_iff.mpr hall, List.dropWhile_eq_nil_iff.mpr hall, hfind]
  dsimp only
  cases option.hasArg with
  | true => rfl
  | false => rfl

theorem longOption_eq (heq : '=' ∉ name) (hfind : findLong longopts name = some option)
    (optarg : List Char) :
    longOption longopts (name ++ '=' :: optarg) =
      .inl (if option.hasArg then .long option optarg else .unknown) := by
  have hall := forall_ne_eq_of_not_mem heq
  have htake : (name ++ '=' :: optarg).takeWhile (· ≠ '=') = name := by
    rw [List.takeWhile_append_of_pos hall, List.takeWhile_cons_of_neg (by simp), List.append_nil]
  have hdrop : (name ++ '=' :: optarg).dropWhile (· ≠ '=') = '=' :: optarg := by
    rw [List.dropWhile_append_of_pos hall, List.dropWhile_cons_of_neg (by simp)]
  rw [longOption, htake, hdrop, hfind]
  dsimp only
  cases option.hasArg with
  | true => rfl
  | false => rfl

/-- A long option is a name, with or without an equals sign behind it. -/
theorem longOption_known {nextchar : List Char} (h : longOption longopts nextchar ≠ .inl .unknown) :
    ∃ name option, '=' ∉ name ∧ findLong longopts name = some option ∧
      (nextchar = name ∨ option.hasArg = true ∧ ∃ optarg, nextchar = name ++ '=' :: optarg) := by
  have hname : '=' ∉ nextchar.takeWhile (· ≠ '=') := by
    intro hmem
    exact absurd (List.mem_takeWhile_imp hmem) (by decide)
  cases hfind : findLong longopts (nextchar.takeWhile (· ≠ '=')) with
  | none =>
      rw [longOption, hfind] at h
      exact absurd rfl h
  | some option =>
      refine ⟨_, option, hname, hfind, ?_⟩
      by_cases heq : '=' ∈ nextchar
      · right
        obtain ⟨name, optarg, rfl, hnot⟩ := List.eq_append_cons_of_mem heq
        have hall := forall_ne_eq_of_not_mem hnot
        rw [List.takeWhile_append_of_pos hall, List.takeWhile_cons_of_neg (by simp),
          List.append_nil] at hfind ⊢
        rw [longOption_eq hnot hfind] at h
        refine ⟨?_, optarg, rfl⟩
        by_contra hnone
        rw [if_neg hnone] at h
        exact h rfl
      · left
        exact (List.takeWhile_eq_self_iff.mpr (forall_ne_eq_of_not_mem heq)).symm

end Long

/-! ## Argument vectors -/

section Vector

variable {options : Options} {opts : List Opt} {operands argv : List (List Char)}

theorem getoptLong_operand {arg : List Char} (h : IsOperand arg) (argv : List (List Char)) :
    getoptLong options none (arg :: argv) =
      ((getoptLong options none argv).1, arg :: (getoptLong options none argv).2) := by
  rw [getoptLong]
  · exact fun harg => h '-' [] harg
  · exact fun nextchar harg => h '-' nextchar harg
  · exact fun c nextchar harg => h c nextchar harg

theorem getoptLong_long {nextchar : List Char} (h : nextchar ≠ []) (argv : List (List Char)) :
    getoptLong options none (('-' :: '-' :: nextchar) :: argv) =
      match longOption options.longopts nextchar with
      | .inl opt =>
          (opt :: (getoptLong options none argv).1, (getoptLong options none argv).2)
      | .inr opt => getoptLong options (some opt) argv := by
  cases nextchar with
  | nil => exact absurd rfl h
  | cons c nextchar => rfl

theorem getoptLong_short {c : Char} (h : c ≠ '-') (nextchar : List Char) (argv : List (List Char)) :
    getoptLong options none (('-' :: c :: nextchar) :: argv) =
      ((shortOptions options.optstring (c :: nextchar)).1 ++
          (getoptLong options (shortOptions options.optstring (c :: nextchar)).2 argv).1,
        (getoptLong options (shortOptions options.optstring (c :: nextchar)).2 argv).2) := by
  rw [getoptLong]
  · exact fun hc _ => h hc
  · exact fun hc => h hc

/-- Options with a value, of which the first is short. -/
theorem getoptLong_shorts {cs rest : List Char} (h : (cs ++ rest).head? ≠ some '-')
    (hne : cs ++ rest ≠ []) (argv : List (List Char)) :
    getoptLong options none (('-' :: (cs ++ rest)) :: argv) =
      ((shortOptions options.optstring (cs ++ rest)).1 ++
          (getoptLong options (shortOptions options.optstring (cs ++ rest)).2 argv).1,
        (getoptLong options (shortOptions options.optstring (cs ++ rest)).2 argv).2) := by
  obtain ⟨c, nextchar, hcons⟩ := List.exists_cons_of_ne_nil hne
  rw [hcons] at h ⊢
  exact getoptLong_short (fun hc => h (congrArg some hc)) nextchar argv

/-- **What is spelled is returned.** -/
theorem getoptLong_of_spells (h : Spells options opts operands argv) :
    getoptLong options none argv = (opts, operands) := by
  induction h with
  | nil => rfl
  | stop => rfl
  | operand harg _ ih => rw [getoptLong_operand harg, ih]
  | flags hc hflags _ ih =>
      rw [getoptLong_short hc, shortOptions_flags hflags, ih]
  | @shortAttached cs c optarg _ _ _ hhead hflags hlookup hoptarg _ ih =>
      have hhead' : (cs ++ c :: optarg).head? ≠ some '-' := by
        cases cs <;> exact hhead
      rw [getoptLong_shorts hhead' (by simp), shortOptions_arg hflags hlookup, if_neg hoptarg, ih,
        List.append_assoc, List.singleton_append]
  | shortNext hhead hflags hlookup _ ih =>
      rw [getoptLong_shorts hhead (by simp), shortOptions_arg hflags hlookup, if_pos rfl]
      dsimp only
      rw [getoptLong, ih]
  | long hname heq hfind hnone _ ih =>
      rw [getoptLong_long hname, longOption_name heq hfind, hnone,
        if_neg Bool.false_ne_true]
      dsimp only
      rw [ih]
  | longAttached heq hfind hsome _ ih =>
      rw [getoptLong_long (by simp), longOption_eq heq hfind, hsome, if_pos rfl]
      dsimp only
      rw [ih]
  | longNext hname heq hfind hsome _ ih =>
      rw [getoptLong_long hname, longOption_name heq hfind, hsome, if_pos rfl]
      dsimp only
      rw [getoptLong, ih]

/-- What is returned behind the start of an option, which takes the next argument if it has to. -/
def SpellsAfter (options : Options) (last : Option (List Char → Opt)) (opts : List Opt)
    (operands argv : List (List Char)) : Prop :=
  match last with
  | none => Spells options opts operands argv
  | some opt => ∃ optarg opts' argv', opts = opt optarg :: opts' ∧ argv = optarg :: argv' ∧
      Spells options opts' operands argv'

theorem spells_short {c : Char} {nextchar : List Char} (hc : c ≠ '-')
    (hknown : .unknown ∉ (shortOptions options.optstring (c :: nextchar)).1)
    (h : SpellsAfter options (shortOptions options.optstring (c :: nextchar)).2 opts operands
      argv) :
    Spells options ((shortOptions options.optstring (c :: nextchar)).1 ++ opts) operands
      (('-' :: c :: nextchar) :: argv) := by
  rcases shortOptions_known hknown with hflags | ⟨cs, d, optarg, hcons, hflags, hlookup⟩
  · rw [shortOptions_flags hflags] at h ⊢
    exact .flags hc hflags h
  · have hhead : (cs ++ [d]).head? ≠ some '-' := by
      have hsame : (cs ++ [d]).head? = (c :: nextchar).head? := by
        rw [hcons]
        cases cs <;> rfl
      rw [hsame]
      exact fun hdash => hc (Option.some.inj hdash)
    rw [hcons, shortOptions_arg hflags hlookup] at h ⊢
    by_cases hoptarg : optarg = []
    · rw [if_pos hoptarg] at h ⊢
      obtain ⟨optarg', opts', argv', rfl, rfl, hrest⟩ := h
      rw [hoptarg]
      exact .shortNext hhead hflags hlookup hrest
    · rw [if_neg hoptarg] at h ⊢
      rw [List.append_assoc, List.singleton_append]
      exact .shortAttached hhead hflags hlookup hoptarg h

theorem spells_long {nextchar : List Char} (hne : nextchar ≠ [])
    (hknown : longOption options.longopts nextchar ≠ .inl .unknown)
    (h : Spells options opts operands argv) :
    match longOption options.longopts nextchar with
    | .inl opt => Spells options (opt :: opts) operands (('-' :: '-' :: nextchar) :: argv)
    | .inr opt => ∀ optarg, Spells options (opt optarg :: opts) operands
        (('-' :: '-' :: nextchar) :: optarg :: argv) := by
  obtain ⟨name, option, heq, hfind, rfl | ⟨hsome, optarg, rfl⟩⟩ := longOption_known hknown
  · rw [longOption_name heq hfind]
    cases harg : option.hasArg with
    | true => exact fun optarg => .longNext hne heq hfind harg h
    | false => exact .long hne heq hfind harg h
  · rw [longOption_eq heq hfind, hsome, if_pos rfl]
    exact .longAttached heq hfind hsome h

theorem spellsAfter_getoptLong (last : Option (List Char → Opt)) (argv : List (List Char))
    (hknown : .unknown ∉ (getoptLong options last argv).1) :
    SpellsAfter options last (getoptLong options last argv).1 (getoptLong options last argv).2
      argv := by
  fun_induction getoptLong options last argv with
  | case1 => exact .nil
  | case2 => exact absurd List.mem_cons_self hknown
  | case3 opt arg argv opts operands hrest ih =>
      rw [hrest] at ih
      exact ⟨arg, opts, argv, rfl, rfl, ih fun hmem => hknown (List.mem_cons_of_mem _ hmem)⟩
  | case4 argv => exact .stop
  | case5 nextchar argv hne opt hopt opts operands hrest ih =>
      rw [hrest] at ih
      have hopt' : longOption options.longopts nextchar ≠ .inl .unknown := by
        rw [hopt]
        intro hunknown
        exact hknown (Sum.inl.inj hunknown ▸ List.mem_cons_self)
      have hspells := spells_long hne hopt' (ih fun hmem => hknown (List.mem_cons_of_mem _ hmem))
      rwa [hopt] at hspells
  | case6 nextchar argv hne opt hopt ih =>
      have hopt' : longOption options.longopts nextchar ≠ .inl .unknown := by
        rw [hopt]
        exact Sum.inr_ne_inl
      obtain ⟨optarg, opts', argv', hopts, rfl, hrest⟩ := ih hknown
      have hspells := spells_long hne hopt' hrest
      rw [hopt] at hspells
      rw [hopts]
      exact hspells optarg
  | case7 c nextchar argv _ hc opts last hopts opts' operands hrest ih =>
      rw [hrest] at ih
      have hspells := @spells_short options opts' operands argv c nextchar hc
      rw [hopts] at hspells
      exact hspells (fun hmem => hknown (List.mem_append_left _ hmem))
        (ih fun hmem => hknown (List.mem_append_right _ hmem))
  | case8 arg argv _ _ hshort opts operands hrest ih =>
      rw [hrest] at ih
      exact .operand (fun c nextchar harg => hshort c nextchar harg) (ih hknown)

theorem unknown_not_mem_shorts (cs : List Char) :
    .unknown ∉ cs.map fun c => Opt.short c [] := by
  intro hmem
  obtain ⟨c, -, hc⟩ := List.mem_map.mp hmem
  cases hc

theorem Spells.unknown_not_mem (h : Spells options opts operands argv) : .unknown ∉ opts := by
  induction h with
  | nil => exact List.not_mem_nil
  | stop => exact List.not_mem_nil
  | operand _ _ ih => exact ih
  | flags _ _ _ ih => exact List.not_mem_append (unknown_not_mem_shorts _) ih
  | shortAttached _ _ _ _ _ ih =>
      apply List.not_mem_append (unknown_not_mem_shorts _)
      exact List.not_mem_cons_of_ne_of_not_mem (by simp) ih
  | shortNext _ _ _ _ ih =>
      apply List.not_mem_append (unknown_not_mem_shorts _)
      exact List.not_mem_cons_of_ne_of_not_mem (by simp) ih
  | long _ _ _ _ _ ih => exact List.not_mem_cons_of_ne_of_not_mem (by simp) ih
  | longAttached _ _ _ _ ih => exact List.not_mem_cons_of_ne_of_not_mem (by simp) ih
  | longNext _ _ _ _ _ ih => exact List.not_mem_cons_of_ne_of_not_mem (by simp) ih

/-- **The options that are returned without `?` are those that are spelled.** -/
theorem getoptLong_eq_iff :
    getoptLong options none argv = (opts, operands) ∧ .unknown ∉ opts ↔
      Spells options opts operands argv := by
  constructor
  · rintro ⟨hget, hknown⟩
    have hspells := @spellsAfter_getoptLong options none argv
    rw [hget] at hspells
    exact hspells hknown
  · intro h
    exact ⟨getoptLong_of_spells h, h.unknown_not_mem⟩

end Vector

end Clib
