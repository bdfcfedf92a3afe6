import FloWatcher.Config.Parse

/-!
# Is only what is well formed accepted?

A group should consist of as many unsigned numbers up to `255` as there are fields, with commas
between them. What is accepted is decided by `rte_strsplit`, which leaves additional fields in the
last token, and by `strtoul`, which skips white space, takes signs and stops at the first character
that is no digit. `numberGroups_rx_iff` and `numberGroups_tx_iff` say what this lets pass.
-/

namespace FloWatcher

open Clib

/-! ## Groups -/

/-- The groups of a string from left to right, and whether each of them is closed. The first argument
is the part of a group that has been read, with the last character first. -/
def groupsFrom : Option (List Char) → List Char → List (List Char) × Bool
  | none, [] => ([], true)
  | some _, [] => ([], false)
  | none, c :: s => if c = '(' then groupsFrom (some []) s else groupsFrom none s
  | some g, c :: s =>
      if c = ')' then (g.reverse :: (groupsFrom none s).1, (groupsFrom none s).2)
      else groupsFrom (some (c :: g)) s

/-- The text between each `(` and the next `)`, and whether there always is one. -/
def groups (s : List Char) : List (List Char) × Bool := groupsFrom none s

section Groups

variable {gap g rest s : List Char}

theorem groups_done (hs : '(' ∉ s) : groups s = ([], true) := by
  induction s with
  | nil => rfl
  | cons c s ih =>
      rw [List.mem_cons, not_or] at hs
      rw [groups, groupsFrom, if_neg (Ne.symm hs.1)]
      exact ih hs.2

theorem groups_gap (hgap : '(' ∉ gap) : groups (gap ++ s) = groups s := by
  induction gap with
  | nil => rfl
  | cons c gap ih =>
      rw [List.mem_cons, not_or] at hgap
      rw [List.cons_append, groups, groupsFrom, if_neg (Ne.symm hgap.1)]
      exact ih hgap.2

theorem groupsFrom_append (hg : ')' ∉ g) (read : List Char) :
    groupsFrom (some read) (g ++ s) = groupsFrom (some (g.reverse ++ read)) s := by
  induction g generalizing read with
  | nil => rfl
  | cons c g ih =>
      rw [List.mem_cons, not_or] at hg
      rw [List.cons_append, groupsFrom, if_neg (Ne.symm hg.1), ih hg.2, List.reverse_cons,
        List.append_assoc, List.singleton_append]

theorem groups_unclosed (hgap : '(' ∉ gap) (hg : ')' ∉ g) :
    groups (gap ++ '(' :: g) = ([], false) := by
  have happend := groupsFrom_append (s := []) hg []
  rw [List.append_nil] at happend
  rw [groups_gap hgap, groups, groupsFrom, if_pos rfl, happend, groupsFrom]

theorem groups_group (hgap : '(' ∉ gap) (hg : ')' ∉ g) :
    groups (gap ++ '(' :: (g ++ ')' :: rest)) = (g :: (groups rest).1, (groups rest).2) := by
  rw [groups_gap hgap, groups, groupsFrom, if_pos rfl, groupsFrom_append hg, groupsFrom, if_pos rfl,
    List.append_nil, List.reverse_reverse]
  rfl

end Groups

/-- Fields that are unsigned numbers up to `255` in their whole length, with commas between them. -/
def NumberFields (numFld : Nat) (g : List Char) : Prop :=
  ∃ fields : List (List Char), fields.length = numFld ∧ g = [','].intercalate fields ∧
    ∀ field ∈ fields, ∃ n ≤ 255, Numeral 0 field n

/-- **The groups of a string are well formed.** -/
def NumberGroups (numFld : Nat) (s : List Char) : Prop :=
  (groups s).2 = true ∧ ∀ g ∈ (groups s).1, NumberFields numFld g

/-! ## What is accepted -/

structure HasNumber (strFld : List Char) : Prop where
  errno : (strtoul strFld 0).errno = false
  endptr : (strtoul strFld 0).endptr ≠ strFld
  value : (strtoul strFld 0).value ≤ 255

theorem convertFields_isSome_iff (strFld : List (List Char)) :
    (convertFields strFld).isSome = true ↔ ∀ field ∈ strFld, HasNumber field := by
  induction strFld with
  | nil => simp [convertFields]
  | cons field strFld ih =>
      rw [convertFields, List.forall_mem_cons, ← ih]
      split
      · next hbad =>
          refine iff_of_false nofun fun h => ?_
          obtain ⟨⟨herrno, hend, hvalue⟩, -⟩ := h
          rcases hbad with hbad | hbad | hbad
          · rw [herrno] at hbad
            cases hbad
          · exact hend hbad
          · exact absurd hbad (Nat.not_lt.mpr hvalue)
      · next hgood =>
          rw [not_or, not_or, Bool.not_eq_true, Nat.not_lt] at hgood
          rw [Option.isSome_map, and_iff_right ⟨hgood.1, hgood.2.1, hgood.2.2⟩]

section Accepted

variable (rteStrsplit : List Char → Nat → Char → List (List Char)) (numFld : Nat)

/-- The tokens of a group, of which the buffer has the first part if `size` wraps around. -/
def tokens (g : List Char) : List (List Char) :=
  rteStrsplit (g.take (g.length % 2 ^ 32)) numFld ','

/-- A group fits into the buffer, and has as many tokens as there are fields, with a number each. -/
structure Fits (g : List Char) : Prop where
  size : g.length % 2 ^ 32 < sizeofS
  length : (tokens rteStrsplit numFld g).length = numFld
  number : ∀ token ∈ tokens rteStrsplit numFld g, HasNumber token

structure AllFit (s : List Char) : Prop where
  closed : (groups s).2 = true
  fits : ∀ g ∈ (groups s).1, Fits rteStrsplit numFld g
  length : (groups s).1.length ≤ maxLcoreParams

variable {rteStrsplit numFld} {α : Type}

theorem parseEntry_isSome_iff (entry : List Nat → α) (g rest : List Char) :
    (parseEntry rteStrsplit numFld entry (g ++ rest) g.length).isSome = true ↔
      Fits rteStrsplit numFld g := by
  have htake : (g ++ rest).take (g.length % 2 ^ 32) = g.take (g.length % 2 ^ 32) :=
    List.take_append_of_le_length (Nat.mod_le ..)
  unfold parseEntry
  dsimp only
  rw [htake]
  split
  · next hsize => exact iff_of_false nofun fun h => absurd hsize (Nat.not_le.mpr h.size)
  · next hsize =>
      split
      · next hlength => exact iff_of_false nofun fun h => hlength h.length
      · next hlength =>
          rw [Option.isSome_map, convertFields_isSome_iff]
          exact ⟨fun h => ⟨Nat.lt_of_not_le hsize, not_not.mp hlength, h⟩, fun h => h.number⟩

theorem parseLoop_eq_zero_iff (entry : List Nat → α) (s : List Char) (st : ThreadParams α)
    (hnb : st.nb ≤ maxLcoreParams) :
    (parseLoop rteStrsplit numFld entry s st).1 = 0 ↔
      (groups s).2 = true ∧ (∀ g ∈ (groups s).1, Fits rteStrsplit numFld g) ∧
        st.nb + (groups s).1.length ≤ maxLcoreParams := by
  have hrefused : (-1 : Int) ≠ 0 := by decide
  induction s using groups_induction generalizing st with
  | done s hs =>
      rw [parseLoop_done hs, groups_done hs]
      exact iff_of_true rfl ⟨rfl, nofun, hnb⟩
  | unclosed gap g hgap hg =>
      rw [parseLoop_unclosed hgap hg, groups_unclosed hgap hg]
      exact iff_of_false hrefused fun h => Bool.false_ne_true h.1
  | group gap g rest hgap hg ih =>
      rw [parseLoop_group hgap hg, groups_group hgap hg, List.forall_mem_cons, List.length_cons,
        ← parseEntry_isSome_iff entry g (')' :: rest)]
      cases parseEntry rteStrsplit numFld entry (g ++ ')' :: rest) g.length with
      | none => exact iff_of_false hrefused fun h => Bool.false_ne_true h.2.1.1
      | some e =>
          dsimp only
          split
          · next hfull => exact iff_of_false hrefused fun h => by omega
          · next hfull =>
              have hnext := ih { st with array := Function.update st.array st.nb e, nb := st.nb + 1 }
                (show st.nb + 1 ≤ maxLcoreParams by omega)
              refine hnext.trans ?_
              rw [Option.isSome_some, and_iff_right rfl]
              dsimp only
              rw [Nat.add_right_comm, Nat.add_assoc]

/-- **What is accepted.** -/
theorem parseConfig_eq_zero_iff (entry : List Nat → α) (s : List Char) (st : ThreadParams α) :
    (parseConfig rteStrsplit numFld entry s st).1 = 0 ↔ AllFit rteStrsplit numFld s := by
  rw [parseConfig, parseLoop_eq_zero_iff entry s _ (Nat.zero_le _)]
  dsimp only
  rw [Nat.zero_add]
  exact ⟨fun h => ⟨h.1, h.2.1, h.2.2⟩, fun h => ⟨h.closed, h.fits, h.length⟩⟩

theorem parseRxConfig_eq_zero_iff (s : List Char) (st : ThreadParams RxThreadParams) :
    (parseRxConfig rteStrsplit s st).1 = 0 ↔ AllFit rteStrsplit 4 s :=
  parseConfig_eq_zero_iff rxEntry s st

theorem parseTxConfig_eq_zero_iff (s : List Char) (st : ThreadParams TxThreadParams) :
    (parseTxConfig rteStrsplit s st).1 = 0 ↔ AllFit rteStrsplit 2 s :=
  parseConfig_eq_zero_iff txEntry s st

end Accepted

/-! ## What is well formed -/

structure Clean (token : List Char) : Prop where
  start : StartsWithDigit token
  endptr : (strtoul token 0).endptr = []

/-- All tokens of a group are clean. Of a group of `2 ^ 32` or more characters, which `size` is too
small for, the tokens say nothing, and the condition repeats what a well-formed group is. -/
def CleanGroup (rteStrsplit : List Char → Nat → Char → List (List Char)) (numFld : Nat)
    (g : List Char) : Prop :=
  if g.length < 2 ^ 32 then ∀ token ∈ rteStrsplit g numFld ',', Clean token
  else NumberFields numFld g

section Clean

variable {rteStrsplit : List Char → Nat → Char → List (List Char)} {n : Nat}

theorem HasNumber.numeral_iff {token : List Char} (h : HasNumber token) :
    (∃ n ≤ 255, Numeral 0 token n) ↔ Clean token := by
  constructor
  · rintro ⟨n, hn, hnumeral⟩
    refine ⟨hnumeral.startsWithDigit, ?_⟩
    rw [strtoul_numeral hnumeral (hn.trans (by decide))]
  · intro hclean
    exact ⟨_, h.value, numeral_of_strtoul hclean.start hclean.endptr h.errno⟩

/-- Fields that are numbers are the tokens of their group. -/
theorem Strsplit.split_numerals (hsplit : Strsplit rteStrsplit) {fields : List (List Char)}
    (hnumeral : ∀ field ∈ fields, ∃ n ≤ 255, Numeral 0 field n) :
    rteStrsplit ([','].intercalate fields) fields.length ',' = fields := by
  apply hsplit.split_join
  · intro field hfield
    obtain ⟨n, -, hn⟩ := hnumeral field hfield
    exact hn.not_mem (by decide)
  · rintro field hfield rfl
    obtain ⟨n, -, hn⟩ := hnumeral [] hfield
    obtain ⟨c, hc, -⟩ := hn.startsWithDigit
    cases hc

/-- A group that fits is well formed when its tokens are clean. -/
theorem Fits.numberFields_iff (hsplit : Strsplit rteStrsplit) {g : List Char}
    (h : Fits rteStrsplit (n + 1) g) :
    NumberFields (n + 1) g ↔ CleanGroup rteStrsplit (n + 1) g := by
  unfold CleanGroup
  split
  · next hshort =>
      have htokens : tokens rteStrsplit (n + 1) g = rteStrsplit g (n + 1) ',' := by
        rw [tokens, Nat.mod_eq_of_lt hshort, List.take_length]
      obtain ⟨-, hlength, hnumber⟩ := h
      rw [htokens] at hlength hnumber
      constructor
      · rintro ⟨fields, hfields, rfl, hnumeral⟩
        have hjoin := hsplit.split_numerals hnumeral
        rw [hfields] at hjoin
        rw [hjoin] at hnumber ⊢
        exact fun field hfield => (hnumber field hfield).numeral_iff.mp (hnumeral field hfield)
      · intro hclean
        have hne : [] ∉ rteStrsplit g (n + 1) ',' := by
          intro hmem
          obtain ⟨c, hc, -⟩ := (hclean [] hmem).start
          cases hc
        exact ⟨_, hlength, (hsplit.join_split hlength hne).symm,
          fun token htoken => (hnumber token htoken).numeral_iff.mpr (hclean token htoken)⟩
  · exact Iff.rfl

/-- When an accepted string is well formed. -/
theorem numberGroups_iff {α : Type} (hsplit : Strsplit rteStrsplit) (entry : List Nat → α)
    (s : List Char) (st : ThreadParams α) :
    ((parseConfig rteStrsplit (n + 1) entry s st).1 = 0 → NumberGroups (n + 1) s) ↔
      (AllFit rteStrsplit (n + 1) s → ∀ g ∈ (groups s).1, CleanGroup rteStrsplit (n + 1) g) := by
  rw [parseConfig_eq_zero_iff]
  apply forall_congr'
  intro hfit
  rw [NumberGroups, and_iff_right hfit.closed]
  exact forall₂_congr fun g hg => (hfit.fits g hg).numberFields_iff hsplit

end Clean

/-- **When the parsers accept only what is well formed**: when the string is refused for another
reason, or there is nothing before or after the number in any token. -/
theorem numberGroups_both_iff (rteStrsplit : List Char → Nat → Char → List (List Char))
    (hsplit : Strsplit rteStrsplit) (s : List Char) :
    (∀ st, ((parseRxConfig rteStrsplit s st).1 = 0 → NumberGroups 4 s) ↔
      (AllFit rteStrsplit 4 s → ∀ g ∈ (groups s).1, CleanGroup rteStrsplit 4 g)) ∧
    ∀ st, ((parseTxConfig rteStrsplit s st).1 = 0 → NumberGroups 2 s) ↔
      (AllFit rteStrsplit 2 s → ∀ g ∈ (groups s).1, CleanGroup rteStrsplit 2 g) :=
  ⟨numberGroups_iff hsplit rxEntry s, numberGroups_iff hsplit txEntry s⟩

/-- A tuple and a pair. -/
theorem numberGroups_both_iff_split :
    (∀ st, ((parseRxConfig split "(0,0,2,0)(4,0)".toList st).1 = 0 →
        NumberGroups 4 "(0,0,2,0)(4,0)".toList) ↔
      (AllFit split 4 "(0,0,2,0)(4,0)".toList →
        ∀ g ∈ (groups "(0,0,2,0)(4,0)".toList).1, CleanGroup split 4 g)) ∧
    ∀ st, ((parseTxConfig split "(0,0,2,0)(4,0)".toList st).1 = 0 →
        NumberGroups 2 "(0,0,2,0)(4,0)".toList) ↔
      (AllFit split 2 "(0,0,2,0)(4,0)".toList →
        ∀ g ∈ (groups "(0,0,2,0)(4,0)".toList).1, CleanGroup split 2 g) :=
  numberGroups_both_iff split strsplit_split "(0,0,2,0)(4,0)".toList

/-- A group with a fifth field is accepted as a tuple of four. -/
theorem not_numberGroups_five :
    (∀ st, (parseRxConfig split "(0,0,2,0,9)".toList st).1 = 0) ∧
      split "0,0,2,0,9".toList 4 ',' = ["0".toList, "0".toList, "2".toList, "0,9".toList] ∧
      ¬ NumberGroups 4 "(0,0,2,0,9)".toList := by
  have hgroups : groups "(0,0,2,0,9)".toList = (["0,0,2,0,9".toList], true) := by decide
  have htokens : split "0,0,2,0,9".toList 4 ',' =
      ["0".toList, "0".toList, "2".toList, "0,9".toList] := by decide
  refine ⟨fun st => ?_, htokens, fun h => ?_⟩
  · rw [parseRxConfig_eq_zero_iff]
    refine ⟨by rw [hgroups], fun g hg => ?_, by rw [hgroups]; decide⟩
    rw [hgroups] at hg
    obtain rfl := List.mem_singleton.mp hg
    have hbuffer : tokens split 4 "0,0,2,0,9".toList =
        ["0".toList, "0".toList, "2".toList, "0,9".toList] := htokens
    refine ⟨by decide, by rw [hbuffer]; rfl, ?_⟩
    rw [hbuffer]
    have hzero : HasNumber "0".toList := ⟨by decide, by decide, by decide⟩
    have htwo : HasNumber "2".toList := ⟨by decide, by decide, by decide⟩
    have hrest : HasNumber "0,9".toList := ⟨by decide, by decide, by decide⟩
    intro token htoken
    simp only [List.mem_cons, List.not_mem_nil, or_false] at htoken
    rcases htoken with rfl | rfl | rfl | rfl
    exacts [hzero, hzero, htwo, hrest]
  · obtain ⟨fields, hlength, hjoin, hnumeral⟩ := h.2 "0,0,2,0,9".toList (by rw [hgroups]; simp)
    have hfields := strsplit_split.split_numerals hnumeral
    rw [← hjoin, hlength, htokens] at hfields
    obtain ⟨n, -, hn⟩ := hnumeral "0,9".toList (by rw [← hfields]; simp)
    have hcomma : ',' ∉ "0,9".toList := hn.not_mem (by decide)
    exact absurd hcomma (by decide)

end FloWatcher
