import FloWatcher.Config.Parse

/-!
# What is written is read

Tuples that are written in decimal notation, with any text without parentheses between them, are
read as they are, up to the length of the array.
-/

namespace FloWatcher

open Clib

variable {α : Type}

/-- A group in decimal notation. -/
def tuple (fields : List Nat) : List Char := [','].intercalate (fields.map (Nat.toDigits 10))

/-- `Written fields as s`: the string consists of the tuples of `as` and text around them. -/
inductive Written (fields : α → List Nat) : List α → List Char → Prop
  | nil {gap} : '(' ∉ gap → ')' ∉ gap → Written fields [] gap
  | cons {gap a as s} : '(' ∉ gap → ')' ∉ gap → Written fields as s →
      Written fields (a :: as) (gap ++ '(' :: (tuple (fields a) ++ ')' :: s))

/-! ## One tuple -/

theorem mem_intercalate {c sep : Char} {fields : List (List Char)}
    (h : c ∈ [sep].intercalate fields) : c = sep ∨ ∃ field ∈ fields, c ∈ field := by
  induction fields with
  | nil => cases h
  | cons field fields ih =>
      cases fields with
      | nil =>
          rw [List.intercalate_singleton] at h
          exact Or.inr ⟨field, List.mem_cons_self, h⟩
      | cons field' fields =>
          rw [List.intercalate_cons_cons, List.mem_append, List.mem_append, List.mem_singleton] at h
          rcases h with (h | h) | h
          · exact Or.inr ⟨field, List.mem_cons_self, h⟩
          · exact Or.inl h
          · rcases ih h with h | ⟨f, hf, h⟩
            · exact Or.inl h
            · exact Or.inr ⟨f, List.mem_cons_of_mem field hf, h⟩

theorem length_intercalate_le (sep : Char) {fields : List (List Char)} {k : Nat}
    (h : ∀ field ∈ fields, field.length ≤ k) :
    ([sep].intercalate fields).length ≤ fields.length * (k + 1) := by
  induction fields with
  | nil => exact Nat.zero_le _
  | cons field fields ih =>
      have hfield := h field List.mem_cons_self
      have hfields := ih fun f hf => h f (List.mem_cons_of_mem field hf)
      cases fields with
      | nil =>
          rw [List.intercalate_singleton, List.length_singleton]
          omega
      | cons field' fields =>
          rw [List.intercalate_cons_cons, List.length_append, List.length_append,
            List.length_singleton, List.length_cons, Nat.succ_mul]
          omega

theorem not_isDigit_of_mem {n : Nat} {c : Char} (hc : c.isDigit = false) :
    c ∉ Nat.toDigits 10 n := by
  intro hmem
  rw [Nat.isDigit_of_mem_toDigits (by decide) (by decide) hmem] at hc
  cases hc

theorem close_not_mem_tuple (fields : List Nat) : ')' ∉ tuple fields := by
  intro hmem
  rcases mem_intercalate hmem with hsep | ⟨field, hfield, hmem⟩
  · exact absurd hsep (by decide)
  · obtain ⟨n, -, rfl⟩ := List.mem_map.mp hfield
    exact not_isDigit_of_mem (by decide) hmem

/-- A tuple of numbers up to `255` is short. -/
theorem length_tuple_le {fields : List Nat} (h : ∀ n ∈ fields, n ≤ 255) :
    (tuple fields).length ≤ fields.length * 4 := by
  have hfield : ∀ field ∈ fields.map (Nat.toDigits 10), field.length ≤ 3 := by
    intro field hfield
    obtain ⟨n, hn, rfl⟩ := List.mem_map.mp hfield
    rw [Nat.length_toDigits_le_iff (by decide) (by decide)]
    exact Nat.lt_of_le_of_lt (h n hn) (by decide)
  have hlength := length_intercalate_le ',' hfield
  rwa [List.length_map] at hlength

theorem convertFields_toDigits {fields : List Nat} (h : ∀ n ∈ fields, n ≤ 255) :
    convertFields (fields.map (Nat.toDigits 10)) = some fields := by
  induction fields with
  | nil => rfl
  | cons n fields ih =>
      have hn := h n List.mem_cons_self
      have hstrtoul := strtoul_numeral (numeral_toDigits n) (hn.trans (by decide))
      have hend : [] ≠ Nat.toDigits 10 n := Nat.toDigits_ne_nil.symm
      rw [List.map_cons, convertFields, hstrtoul, ih fun m hm => h m (List.mem_cons_of_mem n hm)]
      simp only [Bool.false_eq_true, hend, false_or, if_neg (Nat.not_lt.mpr hn), Option.map_some]

section Entry

variable {rteStrsplit : List Char → Nat → Char → List (List Char)} {numFld : Nat}
  {entry : List Nat → α}

/-- What is read from a tuple. -/
theorem parseEntry_tuple (hsplit : Strsplit rteStrsplit) {fields : List Nat}
    (hnum : fields.length = numFld) (hfew : numFld * 4 < sizeofS) (h : ∀ n ∈ fields, n ≤ 255)
    (rest : List Char) :
    parseEntry rteStrsplit numFld entry (tuple fields ++ rest) (tuple fields).length =
      some (entry fields) := by
  have hlength := length_tuple_le h
  have hsize : (tuple fields).length % 2 ^ 32 = (tuple fields).length := by
    rw [hnum] at hlength
    unfold sizeofS at hfew
    exact Nat.mod_eq_of_lt (by omega)
  have hsplit' : rteStrsplit (tuple fields) numFld ',' = fields.map (Nat.toDigits 10) := by
    rw [← hnum, ← List.length_map (Nat.toDigits 10)]
    apply hsplit.split_join
    · intro field hfield
      obtain ⟨n, -, rfl⟩ := List.mem_map.mp hfield
      exact not_isDigit_of_mem (by decide)
    · intro field hfield
      obtain ⟨n, -, rfl⟩ := List.mem_map.mp hfield
      exact Nat.toDigits_ne_nil
  unfold parseEntry
  dsimp only
  rw [hsize, if_neg (by omega), List.take_left, hsplit', List.length_map, if_neg (not_not.mpr hnum),
    convertFields_toDigits h]
  rfl

end Entry

/-! ## All tuples -/

def writeAll (array : Nat → α) (nb : Nat) : List α → Nat → α
  | [] => array
  | a :: as => writeAll (Function.update array nb a) (nb + 1) as

theorem map_writeAll (array : Nat → α) (nb : Nat) (as : List α) :
    (List.range (nb + as.length)).map (writeAll array nb as) = (List.range nb).map array ++ as := by
  induction as generalizing array nb with
  | nil =>
      rw [List.append_nil]
      rfl
  | cons a as ih =>
      have hsame : (List.range nb).map (Function.update array nb a) = (List.range nb).map array := by
        apply List.map_congr_left
        intro i hi
        exact Function.update_of_ne (Nat.ne_of_lt (List.mem_range.mp hi)) ..
      have hlength : nb + (a :: as).length = nb + 1 + as.length := by
        rw [List.length_cons]
        omega
      rw [hlength, writeAll, ih, List.range_succ, List.map_append, hsame, List.map_singleton,
        Function.update_self, List.append_assoc, List.singleton_append]

section Written

variable {rteStrsplit : List Char → Nat → Char → List (List Char)} {numFld : Nat}
  {entry : List Nat → α} {fields : α → List Nat}

/-- The tuples that the fields of entries make up are read as these entries. -/
structure Readable (numFld : Nat) (entry : List Nat → α) (fields : α → List Nat) : Prop where
  length : ∀ a, (fields a).length = numFld
  few : numFld * 4 < sizeofS
  small : ∀ a, ∀ n ∈ fields a, n ≤ 255
  entry_fields : ∀ a, entry (fields a) = a

/-- One round of the loop, for a tuple. -/
theorem parseLoop_tuple (hsplit : Strsplit rteStrsplit) (hread : Readable numFld entry fields)
    {gap : List Char} (hgap : '(' ∉ gap) (a : α) (rest : List Char) (st : ThreadParams α) :
    parseLoop rteStrsplit numFld entry (gap ++ '(' :: (tuple (fields a) ++ ')' :: rest)) st =
      if maxLcoreParams ≤ st.nb then (-1, st)
      else
        parseLoop rteStrsplit numFld entry rest
          { st with array := Function.update st.array st.nb a, nb := st.nb + 1 } := by
  rw [parseLoop_group hgap (close_not_mem_tuple _),
    parseEntry_tuple hsplit (hread.length a) hread.few (hread.small a), hread.entry_fields]

/-- **As many tuples as fit are read.** -/
theorem parseLoop_written (hsplit : Strsplit rteStrsplit) (hread : Readable numFld entry fields)
    {as : List α} {s : List Char} (h : Written fields as s) (st : ThreadParams α)
    (hfit : st.nb + as.length ≤ maxLcoreParams) :
    parseLoop rteStrsplit numFld entry s st =
      (0, { array := writeAll st.array st.nb as, nb := st.nb + as.length, params := .array }) := by
  induction h generalizing st with
  | nil hopen hclose =>
      rw [parseLoop_done hopen]
      rfl
  | @cons gap a as s hopen hclose _ ih =>
      rw [List.length_cons] at hfit
      rw [parseLoop_tuple hsplit hread hopen, if_neg (by omega), ih _ (by dsimp only; omega),
        List.length_cons, writeAll, Nat.add_right_comm, Nat.add_assoc]

/-- **More tuples are refused.** -/
theorem parseLoop_too_many (hsplit : Strsplit rteStrsplit) (hread : Readable numFld entry fields)
    {as : List α} {s : List Char} (h : Written fields as s) (st : ThreadParams α)
    (hnb : st.nb ≤ maxLcoreParams) (hmany : maxLcoreParams < st.nb + as.length) :
    (parseLoop rteStrsplit numFld entry s st).1 = -1 := by
  induction h generalizing st with
  | nil => exact absurd hmany (Nat.not_lt.mpr hnb)
  | @cons gap a as s hopen hclose _ ih =>
      rw [List.length_cons] at hmany
      rw [parseLoop_tuple hsplit hread hopen]
      split
      · rfl
      · exact ih _ (by dsimp only; omega) (by dsimp only; omega)

/-- What `parse_rx_config` and `parse_tx_config` do with tuples. -/
def Reads (parse : List Char → ThreadParams α → Int × ThreadParams α) (arrayDefault : List α)
    (fields : α → List Nat) : Prop :=
  ∀ as s, Written fields as s → ∀ st,
    (as.length ≤ maxLcoreParams → (parse s st).1 = 0 ∧ (parse s st).2.nb = as.length ∧
      (parse s st).2.list arrayDefault = as) ∧
    (maxLcoreParams < as.length → (parse s st).1 = -1 ∧
      ∀ i, maxLcoreParams ≤ i → (parse s st).2.array i = st.array i)

theorem reads_parseConfig (hsplit : Strsplit rteStrsplit) (hread : Readable numFld entry fields)
    (arrayDefault : List α) :
    Reads (parseConfig rteStrsplit numFld entry) arrayDefault fields := by
  intro as s hs st
  constructor
  · intro hfit
    have hparse : parseConfig rteStrsplit numFld entry s st = _ :=
      parseLoop_written hsplit hread hs { st with nb := 0 } (by dsimp only; omega)
    rw [hparse]
    refine ⟨rfl, Nat.zero_add _, ?_⟩
    exact map_writeAll st.array 0 as
  · intro hmany
    exact ⟨parseLoop_too_many hsplit hread hs _ (Nat.zero_le _) (by dsimp only; omega),
      fun i hi => array_parseLoop s _ i hi⟩

end Written

/-! ## Both programs -/

def rxFields (p : RxThreadParams) : List Nat :=
  [p.portId.toNat, p.queueId.toNat, p.lcoreId.toNat, p.threadId.toNat]

def txFields (p : TxThreadParams) : List Nat := [p.lcoreId.toNat, p.threadId.toNat]

theorem readable_rx : Readable 4 rxEntry rxFields where
  length _ := rfl
  few := by decide
  small p n hn := by
    have hlt : ∀ b : UInt8, b.toNat ≤ 255 := fun b => Nat.le_of_lt_succ b.toNat_lt
    simp only [rxFields, List.mem_cons, List.not_mem_nil, or_false] at hn
    rcases hn with rfl | rfl | rfl | rfl <;> exact hlt _
  entry_fields p := by simp [rxEntry, rxFields]

theorem readable_tx : Readable 2 txEntry txFields where
  length _ := rfl
  few := by decide
  small p n hn := by
    have hlt : ∀ b : UInt8, b.toNat ≤ 255 := fun b => Nat.le_of_lt_succ b.toNat_lt
    simp only [txFields, List.mem_cons, List.not_mem_nil, or_false] at hn
    rcases hn with rfl | rfl <;> exact hlt _
  entry_fields p := by simp [txEntry, txFields]

/-- **Both parsers read what is written.** -/
theorem reads_both (rteStrsplit : List Char → Nat → Char → List (List Char))
    (hsplit : Strsplit rteStrsplit) (rxDefault : List RxThreadParams)
    (txDefault : List TxThreadParams) :
    Reads (parseRxConfig rteStrsplit) rxDefault rxFields ∧
      Reads (parseTxConfig rteStrsplit) txDefault txFields :=
  ⟨reads_parseConfig hsplit readable_rx rxDefault, reads_parseConfig hsplit readable_tx txDefault⟩

/-- With the splitter of this development. -/
theorem reads_both_split :
    Reads (parseRxConfig split) [] rxFields ∧ Reads (parseTxConfig split) [] txFields :=
  reads_both split strsplit_split [] []

/-- Two queues of port `0`, for one rx thread each. -/
example :
    let queues : List RxThreadParams := [⟨0, 0, 2, 0⟩, ⟨0, 1, 4, 1⟩]
    let s := "(0,0,2,0), (0,1,4,1)".toList
    let st := { array := fun _ => ⟨0, 0, 0, 0⟩, nb := 0, params := .arrayDefault }
    Written rxFields queues s ∧ (parseRxConfig split s st).1 = 0 ∧
      (parseRxConfig split s st).2.list [] = queues :=
  ⟨@Written.cons _ rxFields [] _ _ _ (by decide) (by decide)
    (@Written.cons _ rxFields [',', ' '] _ _ _ (by decide) (by decide)
      (.nil (by decide) (by decide))),
    by decide +kernel, by decide +kernel⟩

end FloWatcher
