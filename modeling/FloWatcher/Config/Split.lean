import FloWatcher.Clib.Strings
import Mathlib.Data.List.TakeWhile

/-!
# `rte_strsplit`

The DPDK function that splits a string in place. It is not part of the program: `Strsplit` is what
its description says, and `split` a function of this kind.
-/

namespace FloWatcher

/-- The tokens of a string, at most as many as there is room for. The last token that there is room
for is the rest of the string; when the rest starts with the delimiter, it may be cut once more. -/
structure Strsplit (rteStrsplit : List Char → Nat → Char → List (List Char)) : Prop where
  empty : ∀ maxtokens delim, rteStrsplit [] maxtokens delim = []
  single : ∀ s n delim, s ≠ [] → delim ∉ s → rteStrsplit s (n + 1) delim = [s]
  cut : ∀ token s n delim, delim ∉ token →
    rteStrsplit (token ++ delim :: s) (n + 2) delim = token :: rteStrsplit s (n + 1) delim
  last : ∀ c s delim, c ≠ delim → rteStrsplit (c :: s) 1 delim = [c :: s]
  lastDelim : ∀ s delim, rteStrsplit (delim :: s) 1 delim = [[]] ∨
    rteStrsplit (delim :: s) 1 delim = [delim :: s]

section Strsplit

variable {rteStrsplit : List Char → Nat → Char → List (List Char)} {delim : Char}

/-- Fields are split where they were joined. -/
theorem Strsplit.split_join (h : Strsplit rteStrsplit) {fields : List (List Char)}
    (hdelim : ∀ field ∈ fields, delim ∉ field) (hne : ∀ field ∈ fields, field ≠ []) :
    rteStrsplit ([delim].intercalate fields) fields.length delim = fields := by
  induction fields with
  | nil => exact h.empty ..
  | cons field fields ih =>
      have hfield := hdelim field List.mem_cons_self
      cases fields with
      | nil =>
          rw [List.intercalate_singleton]
          exact h.single field 0 delim (hne field List.mem_cons_self) hfield
      | cons field' fields =>
          rw [List.intercalate_cons_cons, List.append_assoc, List.singleton_append, List.length_cons,
            List.length_cons, h.cut _ _ _ _ hfield]
          exact congrArg _ (ih (fun f hf => hdelim f (List.mem_cons_of_mem field hf))
            fun f hf => hne f (List.mem_cons_of_mem field hf))

/-- When there are as many tokens as there is room for, and none is empty, they make up the string. -/
theorem Strsplit.join_split (h : Strsplit rteStrsplit) {s : List Char} {n : Nat}
    (hlength : (rteStrsplit s (n + 1) delim).length = n + 1)
    (hne : [] ∉ rteStrsplit s (n + 1) delim) :
    [delim].intercalate (rteStrsplit s (n + 1) delim) = s := by
  induction n generalizing s with
  | zero =>
      cases s with
      | nil =>
          rw [h.empty] at hlength
          cases hlength
      | cons c s =>
          rcases eq_or_ne c delim with rfl | hc
          · rcases h.lastDelim s c with hsplit | hsplit
            · rw [hsplit] at hne
              exact absurd List.mem_cons_self hne
            · rw [hsplit, List.intercalate_singleton]
          · rw [h.last c s delim hc, List.intercalate_singleton]
  | succ n ih =>
      by_cases hdelim : delim ∈ s
      · obtain ⟨token, s, rfl, htoken⟩ := List.eq_append_cons_of_mem hdelim
        rw [h.cut _ _ _ _ htoken] at hlength hne ⊢
        have hlength' : (rteStrsplit s (n + 1) delim).length = n + 1 := Nat.succ.inj hlength
        have hsome : rteStrsplit s (n + 1) delim ≠ [] := by
          intro hnil
          rw [hnil] at hlength'
          cases hlength'
        rw [List.intercalate_cons_of_ne_nil hsome,
          ih hlength' fun hmem => hne (List.mem_cons_of_mem token hmem), List.append_assoc,
          List.singleton_append]
      · cases s with
        | nil =>
            rw [h.empty] at hlength
            cases hlength
        | cons c s =>
            rw [h.single _ _ _ (List.cons_ne_nil c s) hdelim] at hlength
            cases hlength

end Strsplit

def split : List Char → Nat → Char → List (List Char)
  | [], _, _ => []
  | _ :: _, 0, _ => []
  | c :: s, 1, delim => [if c = delim then [] else c :: s]
  | c :: s, n + 2, delim =>
      (c :: s).takeWhile (· ≠ delim) ::
        split ((c :: s).dropWhile (· ≠ delim)).tail (n + 1) delim

theorem forall_ne_of_not_mem {s : List Char} {delim : Char} (h : delim ∉ s) :
    ∀ c ∈ s, decide (c ≠ delim) = true := by
  intro c hc
  rw [decide_eq_true_eq]
  rintro rfl
  exact h hc

theorem strsplit_split : Strsplit split where
  empty _ _ := by rw [split]
  single s n delim hs hdelim := by
    have hall := forall_ne_of_not_mem hdelim
    obtain ⟨c, s, rfl⟩ := List.exists_cons_of_ne_nil hs
    cases n with
    | zero => rw [split, if_neg (of_decide_eq_true (hall c List.mem_cons_self))]
    | succ n =>
        rw [split, List.takeWhile_eq_self_iff.mpr hall, List.dropWhile_eq_nil_iff.mpr hall,
          List.tail_nil, split]
  cut token s n delim htoken := by
    have hall := forall_ne_of_not_mem htoken
    have htake : (token ++ delim :: s).takeWhile (· ≠ delim) = token := by
      rw [List.takeWhile_append_of_pos hall, List.takeWhile_cons_of_neg (by simp), List.append_nil]
    have hdrop : (token ++ delim :: s).dropWhile (· ≠ delim) = delim :: s := by
      rw [List.dropWhile_append_of_pos hall, List.dropWhile_cons_of_neg (by simp)]
    obtain ⟨c, rest, hcons⟩ := List.exists_cons_of_ne_nil (l := token ++ delim :: s) (by simp)
    rw [hcons] at htake hdrop ⊢
    rw [split, htake, hdrop, List.tail_cons]
  last c s delim hc := by rw [split, if_neg hc]
  lastDelim s delim := Or.inl (by rw [split, if_pos rfl])

end FloWatcher
