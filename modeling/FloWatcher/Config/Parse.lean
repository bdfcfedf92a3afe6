import FloWatcher.Clib.Strtoul
import FloWatcher.Config
import FloWatcher.Config.Split

/-!
# The tuples of `--rx` and `--tx`

`parse_rx_config` and `parse_tx_config` look for a parenthesis, copy what is between it and the next
closing one, split the copy at the commas and convert the tokens. They are the same function for
tuples of four and of two numbers, in both programs. What is between the groups is skipped.
-/

namespace FloWatcher

open Clib

def maxLcoreParams : Nat := 1024

def sizeofS : Nat := 256

/-- What `rx_thread_params` points to: `rx_thread_params_array_default` or `rx_thread_params_array`. -/
inductive ParamsArray where
  | arrayDefault
  | array
  deriving DecidableEq, Repr

/-- `rx_thread_params_array`, `nb_rx_thread_params` and `rx_thread_params`, or those for tx threads.
The array goes on with what is behind it in memory. -/
structure ThreadParams (α : Type) where
  array : Nat → α
  nb : Nat
  params : ParamsArray

variable {α : Type}

def ThreadParams.list (arrayDefault : List α) (st : ThreadParams α) : List α :=
  match st.params with
  | .arrayDefault => arrayDefault.take st.nb
  | .array => (List.range st.nb).map st.array

/-- The conversion of the tokens, `none` when one of them is not a number up to `255`. -/
def convertFields : List (List Char) → Option (List Nat)
  | [] => some []
  | strFld :: rest =>
      let result := strtoul strFld 0
      if result.errno ∨ result.endptr = strFld ∨ 255 < result.value then none
      else (convertFields rest).map (result.value :: ·)

theorem length_strchr {s p : List Char} {c : Char} (h : strchr s c = some p) :
    p ≠ [] ∧ p.length ≤ s.length := by
  unfold strchr at h
  split at h
  · cases h
  · next hne =>
      cases h
      exact ⟨hne, (List.dropWhile_sublist _).length_le⟩

section Parse

variable (rteStrsplit : List Char → Nat → Char → List (List Char)) (numFld : Nat)
  (entry : List Nat → α)

/-- The entry for a group that starts at `p` and has `length` characters. -/
def parseEntry (p : List Char) (length : Nat) : Option α :=
  -- `size` is an `unsigned`
  let size := length % 2 ^ 32
  if sizeofS ≤ size then none
  else
    let strFld := rteStrsplit (p.take size) numFld ','
    if strFld.length ≠ numFld then none else (convertFields strFld).map entry

def parseLoop (p0 : List Char) (st : ThreadParams α) : Int × ThreadParams α :=
  match _ : strchr p0 '(' with
  | none => (0, { st with params := .array })
  | some p =>
      match _ : strchr p.tail ')' with
      | none => (-1, st)
      | some p0' =>
          match parseEntry rteStrsplit numFld entry p.tail (p.tail.length - p0'.length) with
          | none => (-1, st)
          | some e =>
              if maxLcoreParams ≤ st.nb then (-1, st)
              else
                parseLoop p0'
                  { st with array := Function.update st.array st.nb e, nb := st.nb + 1 }
termination_by p0.length
decreasing_by
  rename_i hopen hclose _
  obtain ⟨hne, hle⟩ := length_strchr hopen
  have hle' := (length_strchr hclose).2
  have hpos := List.length_pos_iff.mpr hne
  rw [List.length_tail] at hle'
  omega

/-- The common part of `parse_rx_config` and `parse_tx_config`. -/
def parseConfig (qArg : List Char) (st : ThreadParams α) : Int × ThreadParams α :=
  parseLoop rteStrsplit numFld entry qArg { st with nb := 0 }

end Parse

section Programs

variable (rteStrsplit : List Char → Nat → Char → List (List Char))

def rxEntry (intFld : List Nat) : RxThreadParams where
  portId := UInt8.ofNat (intFld.getD 0 0)
  queueId := UInt8.ofNat (intFld.getD 1 0)
  lcoreId := UInt8.ofNat (intFld.getD 2 0)
  threadId := UInt8.ofNat (intFld.getD 3 0)

def txEntry (intFld : List Nat) : TxThreadParams where
  lcoreId := UInt8.ofNat (intFld.getD 0 0)
  threadId := UInt8.ofNat (intFld.getD 1 0)

def parseRxConfig : List Char → ThreadParams RxThreadParams → Int × ThreadParams RxThreadParams :=
  parseConfig rteStrsplit 4 rxEntry

def parseTxConfig : List Char → ThreadParams TxThreadParams → Int × ThreadParams TxThreadParams :=
  parseConfig rteStrsplit 2 txEntry

end Programs

/-! ## One group at a time -/

section Loop

variable {rteStrsplit : List Char → Nat → Char → List (List Char)} {numFld : Nat}
  {entry : List Nat → α} {gap g rest s : List Char} {st : ThreadParams α}

/-- One round of the loop. -/
theorem parseLoop_eq (p0 : List Char) (st : ThreadParams α) :
    parseLoop rteStrsplit numFld entry p0 st =
      match strchr p0 '(' with
      | none => (0, { st with params := .array })
      | some p =>
          match strchr p.tail ')' with
          | none => (-1, st)
          | some p0' =>
              match parseEntry rteStrsplit numFld entry p.tail (p.tail.length - p0'.length) with
              | none => (-1, st)
              | some e =>
                  if maxLcoreParams ≤ st.nb then (-1, st)
                  else
                    parseLoop rteStrsplit numFld entry p0'
                      { st with array := Function.update st.array st.nb e, nb := st.nb + 1 } := by
  rw [parseLoop]
  split
  · next hopen => rw [hopen]
  · next hopen =>
      rw [hopen]
      dsimp only
      split
      · next hclose => rw [hclose]
      · next hclose => rw [hclose]

/-- Without a group. -/
theorem parseLoop_done (hs : '(' ∉ s) :
    parseLoop rteStrsplit numFld entry s st = (0, { st with params := .array }) := by
  rw [parseLoop_eq, strchr_of_not_mem hs]

/-- What is in front of a group is skipped. -/
theorem parseLoop_gap (hgap : '(' ∉ gap) :
    parseLoop rteStrsplit numFld entry (gap ++ s) st = parseLoop rteStrsplit numFld entry s st := by
  rw [parseLoop_eq, parseLoop_eq s, strchr_append hgap]

/-- With a group that is not closed. -/
theorem parseLoop_unclosed (hgap : '(' ∉ gap) (hg : ')' ∉ g) :
    parseLoop rteStrsplit numFld entry (gap ++ '(' :: g) st = (-1, st) := by
  rw [parseLoop_gap hgap, parseLoop_eq, strchr_cons_self]
  dsimp only
  rw [List.tail_cons, strchr_of_not_mem hg]

/-- With a group. -/
theorem parseLoop_group (hgap : '(' ∉ gap) (hg : ')' ∉ g) :
    parseLoop rteStrsplit numFld entry (gap ++ '(' :: (g ++ ')' :: rest)) st =
      match parseEntry rteStrsplit numFld entry (g ++ ')' :: rest) g.length with
      | none => (-1, st)
      | some e =>
          if maxLcoreParams ≤ st.nb then (-1, st)
          else
            parseLoop rteStrsplit numFld entry rest
              { st with array := Function.update st.array st.nb e, nb := st.nb + 1 } := by
  have hlength : (g ++ ')' :: rest).length - (')' :: rest).length = g.length := by
    rw [List.length_append, Nat.add_sub_cancel]
  have hskip : ∀ st, parseLoop rteStrsplit numFld entry (')' :: rest) st =
      parseLoop rteStrsplit numFld entry rest st :=
    fun st => parseLoop_gap (show '(' ∉ [')'] by decide)
  rw [parseLoop_gap hgap, parseLoop_eq, strchr_cons_self]
  dsimp only
  rw [List.tail_cons, strchr_append hg, strchr_cons_self]
  dsimp only
  rw [hlength]
  simp only [hskip]

end Loop

/-! ## Every string -/

/-- A string has no group, a group that is not closed, or a group and a shorter string behind it. -/
@[elab_as_elim]
theorem groups_induction {motive : List Char → Prop} (done : ∀ s, '(' ∉ s → motive s)
    (unclosed : ∀ gap g, '(' ∉ gap → ')' ∉ g → motive (gap ++ '(' :: g))
    (group : ∀ gap g rest, '(' ∉ gap → ')' ∉ g → motive rest →
      motive (gap ++ '(' :: (g ++ ')' :: rest)))
    (s : List Char) : motive s := by
  induction hk : s.length using Nat.strongRecOn generalizing s with
  | _ k ih =>
      by_cases hopen : '(' ∈ s
      · obtain ⟨gap, s, rfl, hgap⟩ := List.eq_append_cons_of_mem hopen
        by_cases hclose : ')' ∈ s
        · obtain ⟨g, rest, rfl, hg⟩ := List.eq_append_cons_of_mem hclose
          refine group gap g rest hgap hg (ih rest.length ?_ rest rfl)
          simp only [List.length_append, List.length_cons] at hk
          omega
        · exact unclosed gap s hgap hclose
      · exact done s hopen

section Array

variable {rteStrsplit : List Char → Nat → Char → List (List Char)} {numFld : Nat}
  {entry : List Nat → α}

/-- **No entry past the array is written**, whatever the string. -/
theorem array_parseLoop (s : List Char) (st : ThreadParams α) (i : Nat) (hi : maxLcoreParams ≤ i) :
    (parseLoop rteStrsplit numFld entry s st).2.array i = st.array i := by
  induction s using groups_induction generalizing st with
  | done s hs => rw [parseLoop_done hs]
  | unclosed gap g hgap hg => rw [parseLoop_unclosed hgap hg]
  | group gap g rest hgap hg ih =>
      rw [parseLoop_group hgap hg]
      split
      · rfl
      · split
        · rfl
        · next hnb =>
            rw [ih]
            exact Function.update_of_ne (by omega) ..

end Array

end FloWatcher
