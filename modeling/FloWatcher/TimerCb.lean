import FloWatcher.Clib.Double
import FloWatcher.Transition.Reading

/-!
# `timer_cb`

All three programs have the same `timer_cb`: once a second it adds up the counters of the queues in
`j`, prints the total and the rate since the last time, and remembers the total in a static. The
workers go on counting while it reads one counter after the other. `since_run` and
`coherent_run` say what is printed nevertheless, as long as the total is below `2 ^ 53`: `j` and
`old` are of type `double`, and larger totals are rounded. So is every rate, to a `double` and then
to the two decimals that are printed.
-/

namespace FloWatcher
namespace TimerCb

open Clib Transition

/-- Where `timer_cb` is. `i` is a `uint8_t`, and `j` a `double`. -/
inductive Pc where
  | waiting
  | summing (i : BitVec 8) (j : ℚ)

/-- `RX rate: %.2lf Mpps, Total RX pkts: %.0lf`, with the rate in hundredths. -/
structure Line where
  rate : ℤ
  total : ℤ

def printLine (old j : ℚ) : Line where
  rate := fixed 2 (double (double (j - old) / 1000000))
  total := fixed 0 j

/-- A program with its timer, the static `old`, and all that has been printed. -/
structure State (σ : Type) where
  program : σ
  pc : Pc
  old : ℚ
  lines : List Line

def State.init {σ : Type} (program : σ) : State σ where
  program := program
  pc := .waiting
  old := 0
  lines := []

/-- The program does something, or `timer_cb` does, when the main loop calls
`rte_timer_manage`. -/
inductive Action (α : Type) where
  | program (a : α)
  | timer

/-- What `timer_cb` does next: it begins, reads a counter of the array `re`, or prints. There is
nothing to read beyond the array. -/
def timerCb {σ : Type} (re : σ → Nat → Option (BitVec 64)) (n : Nat) (s : State σ) :
    Option (State σ) :=
  match s.pc with
  | .waiting => some { s with pc := .summing 0 0 }
  | .summing i j =>
      if i.toNat < n then
        (re s.program i.toNat).map fun counter =>
          { s with pc := .summing (i + 1) (double (j + double counter.toNat)) }
      else some { s with pc := .waiting, old := j, lines := s.lines ++ [printLine s.old j] }

def step {σ α : Type} (programStep : σ → α → Option σ) (re : σ → Nat → Option (BitVec 64))
    (n : Nat) (s : State σ) : Action α → Option (State σ)
  | .program a => (programStep s.program a).map fun program => { s with program := program }
  | .timer => timerCb re n s

section Reports

variable {σ α : Type} {programStep : σ → α → Option σ} {re : σ → Nat → Option (BitVec 64)}
  {count : σ → Nat → Nat} {n : Nat} {s s' : State σ} {a : Action α}

/-- `re` counts what `count` does, in 64 bits. -/
structure Counts (programStep : σ → α → Option σ) (re : σ → Nat → Option (BitVec 64))
    (count : σ → Nat → Nat) : Prop where
  grows : Grows programStep count
  read : ∀ s k counter, re s k = some counter → counter = BitVec.ofNat 64 (count s k)

/-- **What a step does.** -/
theorem step_cases (h : step programStep re n s a = some s') :
    (∃ b program, a = .program b ∧ programStep s.program b = some program ∧
      s' = { s with program := program }) ∨
    (s.pc = .waiting ∧ s' = { s with pc := .summing 0 0 }) ∨
    (∃ i j counter, s.pc = .summing i j ∧ i.toNat < n ∧ re s.program i.toNat = some counter ∧
      s' = { s with pc := .summing (i + 1) (double (j + double counter.toNat)) }) ∨
    (∃ i j, s.pc = .summing i j ∧ n ≤ i.toNat ∧
      s' = { s with pc := .waiting, old := j, lines := s.lines ++ [printLine s.old j] }) := by
  cases a with
  | program b =>
      obtain ⟨program, hprogram, rfl⟩ := Option.map_eq_some_iff.mp h
      exact .inl ⟨b, program, rfl, hprogram, rfl⟩
  | timer =>
      dsimp only [step, timerCb] at h
      split at h
      · next hpc =>
          cases h
          exact .inr (.inl ⟨hpc, rfl⟩)
      · next i j hpc =>
          split at h
          · next hi =>
              obtain ⟨counter, hcounter, rfl⟩ := Option.map_eq_some_iff.mp h
              exact .inr (.inr (.inl ⟨i, j, counter, hpc, hi, hcounter, rfl⟩))
          · next hi =>
              cases h
              exact .inr (.inr (.inr ⟨i, j, hpc, Nat.le_of_not_lt hi, rfl⟩))

/-- The program goes on as if there were no timer. -/
theorem exists_run_program {as : List (Action α)}
    (hs : run (step programStep re n) s as = some s') :
    ∃ bs, run programStep s.program bs = some s'.program := by
  induction as generalizing s with
  | nil =>
      cases hs
      exact ⟨[], rfl⟩
  | cons a as ih =>
      obtain ⟨t, ht, hrest⟩ := Option.bind_eq_some_iff.mp hs
      obtain ⟨bs, hbs⟩ := ih hrest
      rcases step_cases ht with ⟨b, program, -, hprogram, rfl⟩ | ⟨-, rfl⟩ |
        ⟨i, j, counter, -, -, -, rfl⟩ | ⟨i, j, -, -, rfl⟩
      · refine ⟨b :: bs, ?_⟩
        rw [run, hprogram]
        exact hbs
      · exact ⟨bs, hbs⟩
      · exact ⟨bs, hbs⟩
      · exact ⟨bs, hbs⟩

theorem grows_step (hcounts : Counts programStep re count) :
    Grows (step programStep re n) fun s => count s.program := by
  intro s a s' h k
  rcases step_cases h with ⟨b, program, -, hprogram, rfl⟩ | ⟨-, rfl⟩ |
    ⟨i, j, counter, -, -, -, rfl⟩ | ⟨i, j, -, -, rfl⟩
  · exact hcounts.grows _ _ _ hprogram k
  · exact Nat.le_refl _
  · exact Nat.le_refl _
  · exact Nat.le_refl _

/-- What has been counted is below `2 ^ 53`. -/
def Fits (count : σ → Nat → Nat) (n : Nat) (s : State σ) : Prop :=
  ∑ k ∈ Finset.range n, count s.program k < 2 ^ 53

theorem Fits.of_run (hcounts : Counts programStep re count) {as : List (Action α)}
    (hs : run (step programStep re n) s as = some s') (hfits : Fits count n s') :
    Fits count n s :=
  (Finset.sum_le_sum fun k _ => (grows_step hcounts).run hs k).trans_lt hfits

/-- `timer_cb` began when the counters were at `start` or later. With 256 counters it never comes
to its end. -/
def Began (count : σ → Nat → Nat) (n : Nat) (start : Nat → Nat) (s : State σ) : Prop :=
  ∀ i j, s.pc = .summing i j → n < 256 →
    i.toNat ≤ n ∧ ∃ sum : ℕ, j = sum ∧ Reading start (count s.program) i.toNat sum

/-- Up to `2 ^ 53`, reading a counter adds what has been counted. -/
theorem read_counter {i : BitVec 8} {counter : BitVec 64} (hcounts : Counts programStep re count)
    (hfits : Fits count n s) (hi : i.toNat < n) (hcounter : re s.program i.toNat = some counter)
    {start : Nat → Nat} {sum : ℕ} (h : Reading start (count s.program) i.toNat sum) :
    double (sum + double counter.toNat) = (sum + count s.program i.toNat : ℕ) := by
  have hnext := (h.read (i := i.toNat)).high.trans
    (Finset.sum_le_sum_of_subset (Finset.range_mono (Nat.succ_le_of_lt hi)))
  have hlt : sum + count s.program i.toNat < 2 ^ 53 := hnext.trans_lt hfits
  have hcount : counter.toNat = count s.program i.toNat := by
    rw [hcounts.read _ _ _ hcounter, BitVec.toNat_ofNat, Nat.mod_eq_of_lt (by omega)]
  rw [hcount]
  exact double_add_double hlt

/-- A step that does not begin keeps what `timer_cb` began with. -/
theorem Began.step {start : Nat → Nat} (h : Began count n start s)
    (hcounts : Counts programStep re count) (hstart : ∀ k, start k ≤ count s.program k)
    (hfits : Fits count n s) (hs : TimerCb.step programStep re n s a = some s') :
    Began count n start s' := by
  intro i' j' hpc' hn
  rcases step_cases hs with ⟨b, program, -, hprogram, rfl⟩ | ⟨hpc, rfl⟩ |
    ⟨i, j, counter, hpc, hi, hcounter, rfl⟩ | ⟨i, j, hpc, hi, rfl⟩
  · obtain ⟨hle, sum, hj, hreading⟩ := h i' j' hpc' hn
    exact ⟨hle, sum, hj, hreading.grow (hcounts.grows _ _ _ hprogram)⟩
  · cases hpc'
    exact ⟨Nat.zero_le n, 0, Nat.cast_zero.symm, .nothing hstart⟩
  · cases hpc'
    obtain ⟨-, sum, rfl, hreading⟩ := h i j hpc hn
    have hnext : (i + 1).toNat = i.toNat + 1 := by
      have hone : (1 : BitVec 8).toNat = 1 := rfl
      rw [BitVec.toNat_add, hone, Nat.mod_eq_of_lt (by omega)]
    rw [hnext]
    exact ⟨hi, _, read_counter hcounts hfits hi hcounter hreading, hreading.read⟩
  · cases hpc'

/-- What is printed is a sum that `timer_cb` has read. -/
theorem Began.print {start : Nat → Nat} (h : Began count n start s) {i : BitVec 8} {j : ℚ}
    (hpc : s.pc = .summing i j) (hi : n ≤ i.toNat) :
    ∃ sum : ℕ, j = sum ∧ ∑ k ∈ Finset.range n, start k ≤ sum ∧
      sum ≤ ∑ k ∈ Finset.range n, count s.program k := by
  obtain ⟨hle, sum, hj, hreading⟩ := h i j hpc (by omega)
  obtain rfl : i.toNat = n := Nat.le_antisymm hle hi
  exact ⟨sum, hj, hreading.low, hreading.high⟩

/-! ## The totals -/

/-- The counters were at `start` and the lines `before` had been printed; since then, all callbacks
have begun that are not done. -/
structure Since (count : σ → Nat → Nat) (n : Nat) (start : Nat → Nat) (before : List Line)
    (s : State σ) : Prop where
  grown : ∀ k, start k ≤ count s.program k
  began : Began count n start s
  lines : ∃ new, s.lines = before ++ new ∧ ∀ line ∈ new,
    (∑ k ∈ Finset.range n, start k : ℕ) ≤ line.total ∧
      line.total ≤ (∑ k ∈ Finset.range n, count s.program k : ℕ)

theorem Since.step {start : Nat → Nat} {before : List Line} (h : Since count n start before s)
    (hcounts : Counts programStep re count) (hfits : Fits count n s)
    (hs : TimerCb.step programStep re n s a = some s') : Since count n start before s' := by
  have hgrows := grows_step hcounts s a s' hs
  refine ⟨fun k => (h.grown k).trans (hgrows k), h.began.step hcounts h.grown hfits hs, ?_⟩
  obtain ⟨new, hnew, hall⟩ := h.lines
  have hsum : ((∑ k ∈ Finset.range n, count s.program k : ℕ) : ℤ) ≤
      (∑ k ∈ Finset.range n, count s'.program k : ℕ) :=
    Int.ofNat_le.mpr (Finset.sum_le_sum fun k _ => hgrows k)
  have hall' : ∀ line ∈ new, (∑ k ∈ Finset.range n, start k : ℕ) ≤ line.total ∧
      line.total ≤ (∑ k ∈ Finset.range n, count s'.program k : ℕ) := fun line hline =>
    ⟨(hall line hline).1, (hall line hline).2.trans hsum⟩
  rcases step_cases hs with ⟨b, program, -, -, rfl⟩ | ⟨-, rfl⟩ | ⟨i, j, counter, -, -, -, rfl⟩ |
    ⟨i, j, hpc, hi, rfl⟩
  · exact ⟨new, hnew, hall'⟩
  · exact ⟨new, hnew, hall'⟩
  · exact ⟨new, hnew, hall'⟩
  · refine ⟨new ++ [printLine s.old j], ?_, fun line hline => ?_⟩
    · rw [← List.append_assoc, ← hnew]
    · rcases List.mem_append.mp hline with hline | hline
      · exact hall' line hline
      · obtain ⟨sum, rfl, hlow, hhigh⟩ := h.began.print hpc hi
        rw [List.mem_singleton.mp hline, printLine, fixed_natCast]
        exact ⟨Int.ofNat_le.mpr hlow, Int.ofNat_le.mpr hhigh⟩

/-- **What is printed between two states**: totals between the sums of the counters in the two. -/
theorem since_run (hcounts : Counts programStep re count) (hwaiting : s.pc = .waiting)
    {as : List (Action α)} (hs : run (TimerCb.step programStep re n) s as = some s')
    (hfits : Fits count n s') : Since count n (count s.program) s.lines s' := by
  have hinit : Since count n (count s.program) s.lines s :=
    ⟨fun _ => Nat.le_refl _, fun i j hpc => (by rw [hwaiting] at hpc; cases hpc),
      [], (List.append_nil _).symm, fun _ hline => absurd hline List.not_mem_nil⟩
  generalize count s.program = start, s.lines = before at hinit
  clear hwaiting
  induction as generalizing s with
  | nil =>
      cases hs
      exact hinit
  | cons a as ih =>
      have hbefore : Fits count n s := hfits.of_run hcounts hs
      obtain ⟨t, ht, hrest⟩ := Option.bind_eq_some_iff.mp hs
      exact ih hrest (hinit.step hcounts hbefore ht)

/-! ## The rates -/

inductive Printed : List Line → ℕ → Prop where
  | nil : Printed [] 0
  | snoc {lines : List Line} {old j : ℕ} (h : Printed lines old) (hle : old ≤ j)
      (hlt : j < 2 ^ 53) : Printed (lines ++ [printLine old j]) j

/-- The lines belong to one count: the totals never go down, no rate is negative, and the rates add
up to the last total, but for the decimals that are not printed. -/
structure Coherent (lines : List Line) : Prop where
  totals : (lines.map Line.total).Pairwise (· ≤ ·)
  rate_nonneg : ∀ line ∈ lines, 0 ≤ line.rate
  sum_rates : |((lines.map Line.rate).sum : ℚ) / 100 -
    ((lines.map Line.total).getLastD 0 : ℤ) / 1000000| ≤ lines.length * (1 / 200 + 1 / 1000000)

theorem double_sub {old j : ℕ} (hle : old ≤ j) (hlt : j < 2 ^ 53) :
    double ((j : ℚ) - old) = (j - old : ℕ) := by
  rw [← Nat.cast_sub hle, double_natCast (by omega)]

theorem printLine_rate_nonneg {old j : ℕ} (hle : old ≤ j) (hlt : j < 2 ^ 53) :
    0 ≤ (printLine old j).rate := by
  rw [printLine, double_sub hle hlt]
  exact fixed_nonneg (double_nonneg (by positivity)) 2

/-- A rate is rounded twice, and the second time matters. -/
theorem abs_printLine_rate_sub_le {old j : ℕ} (hle : old ≤ j) (hlt : j < 2 ^ 53) :
    |((printLine old j).rate : ℚ) / 100 - ((j : ℚ) - old) / 1000000| ≤ 1 / 200 + 1 / 1000000 := by
  have hgain : ((j - old : ℕ) : ℚ) = j - old := Nat.cast_sub hle
  have hsmall : ((j - old : ℕ) : ℚ) ≤ 2 ^ 53 := by exact_mod_cast (by omega : j - old ≤ 2 ^ 53)
  let rate : ℚ := ((j - old : ℕ) : ℚ) / 1000000
  have hdouble : |double rate - rate| ≤ 1 / 1000000 := by
    have hround := abs_double_sub_le rate
    rw [abs_of_nonneg (by positivity : 0 ≤ rate)] at hround
    refine hround.trans ?_
    rw [div_le_iff₀ (by positivity)]
    show ((j - old : ℕ) : ℚ) / 1000000 ≤ _
    linarith
  have hfixed := abs_fixed_sub_le 2 (double rate)
  rw [printLine, double_sub hle hlt, ← hgain]
  calc |(fixed 2 (double rate) : ℚ) / 100 - rate|
      ≤ |(fixed 2 (double rate) : ℚ) / 100 - double rate| + |double rate - rate| :=
        abs_sub_le _ _ _
    _ ≤ 1 / 200 + 1 / 1000000 := by
        refine add_le_add ?_ hdouble
        norm_num at hfixed ⊢
        exact hfixed

namespace Printed

variable {lines : List Line} {old : ℕ}

theorem total_le (h : Printed lines old) : ∀ line ∈ lines, line.total ≤ old := by
  induction h with
  | nil => exact fun _ hline => absurd hline List.not_mem_nil
  | snoc _ hle _ ih =>
      intro line hline
      rcases List.mem_append.mp hline with hline | hline
      · exact (ih line hline).trans (Int.ofNat_le.mpr hle)
      · rw [List.mem_singleton.mp hline, printLine, fixed_natCast]

theorem totals (h : Printed lines old) : (lines.map Line.total).Pairwise (· ≤ ·) := by
  induction h with
  | nil => exact List.Pairwise.nil
  | snoc h hle _ ih =>
      rw [List.map_append]
      refine List.pairwise_append.mpr ⟨ih, List.pairwise_singleton _ _, ?_⟩
      intro total htotal j hj
      obtain ⟨line, hline, rfl⟩ := List.mem_map.mp htotal
      rw [List.mem_singleton.mp hj, printLine, fixed_natCast]
      exact (h.total_le line hline).trans (Int.ofNat_le.mpr hle)

theorem rate_nonneg (h : Printed lines old) : ∀ line ∈ lines, 0 ≤ line.rate := by
  induction h with
  | nil => exact fun _ hline => absurd hline List.not_mem_nil
  | snoc _ hle hlt ih =>
      intro line hline
      rcases List.mem_append.mp hline with hline | hline
      · exact ih line hline
      · rw [List.mem_singleton.mp hline]
        exact printLine_rate_nonneg hle hlt

theorem getLastD_total (h : Printed lines old) : (lines.map Line.total).getLastD 0 = old := by
  cases h with
  | nil => rfl
  | snoc _ _ _ => simp [printLine, fixed_natCast]

/-- Each line adds its own error. -/
theorem sum_rates (h : Printed lines old) :
    |((lines.map Line.rate).sum : ℚ) / 100 - (old : ℚ) / 1000000| ≤
      lines.length * (1 / 200 + 1 / 1000000) := by
  induction h with
  | nil => simp
  | @snoc lines old j _ hle hlt ih =>
      have hline := abs_printLine_rate_sub_le hle hlt
      rw [List.map_append, List.sum_append, List.map_singleton, List.sum_singleton,
        List.length_append, List.length_singleton, Int.cast_add, Nat.cast_add, Nat.cast_one]
      calc |(((lines.map Line.rate).sum : ℚ) + (printLine old j).rate) / 100 - (j : ℚ) / 1000000|
          = |(((lines.map Line.rate).sum : ℚ) / 100 - (old : ℚ) / 1000000) +
              (((printLine old j).rate : ℚ) / 100 - ((j : ℚ) - old) / 1000000)| := by
            congr 1
            ring
        _ ≤ lines.length * (1 / 200 + 1 / 1000000) + (1 / 200 + 1 / 1000000) :=
            (abs_add_le _ _).trans (add_le_add ih hline)
        _ = (lines.length + 1) * (1 / 200 + 1 / 1000000) := by ring

theorem coherent (h : Printed lines old) : Coherent lines where
  totals := h.totals
  rate_nonneg := h.rate_nonneg
  sum_rates := by
    rw [h.getLastD_total]
    exact h.sum_rates

end Printed

/-- The last total is not above the counters. -/
def Consistent (count : σ → Nat → Nat) (n : Nat) (s : State σ) : Prop :=
  ∃ old : ℕ, s.old = old ∧ Printed s.lines old ∧
    ∃ start, old ≤ ∑ k ∈ Finset.range n, start k ∧
      (∀ k, start k ≤ count s.program k) ∧ Began count n start s

theorem Consistent.step (h : Consistent count n s) (hcounts : Counts programStep re count)
    (hfits : Fits count n s) (hs : TimerCb.step programStep re n s a = some s') :
    Consistent count n s' := by
  have hgrows := grows_step hcounts s a s' hs
  obtain ⟨old, hold, hprinted, start, hle, hgrown, hbegan⟩ := h
  have hgrown' : ∀ k, start k ≤ count s'.program k := fun k => (hgrown k).trans (hgrows k)
  have hbegan' := hbegan.step hcounts hgrown hfits hs
  rcases step_cases hs with ⟨b, program, -, -, rfl⟩ | ⟨-, rfl⟩ | ⟨i, j, counter, -, -, -, rfl⟩ |
    ⟨i, j, hpc, hi, rfl⟩
  · exact ⟨old, hold, hprinted, start, hle, hgrown', hbegan'⟩
  · exact ⟨old, hold, hprinted, start, hle, hgrown', hbegan'⟩
  · exact ⟨old, hold, hprinted, start, hle, hgrown', hbegan'⟩
  · -- the next callback begins with the counters as they are now
    obtain ⟨sum, rfl, hlow, hhigh⟩ := hbegan.print hpc hi
    refine ⟨sum, rfl, ?_, count s.program, hhigh, fun _ => Nat.le_refl _, fun i' j' hpc' => ?_⟩
    · rw [hold]
      exact .snoc hprinted (hle.trans hlow) (hhigh.trans_lt hfits)
    · cases hpc'

/-- **All that is printed belongs together.** -/
theorem coherent_run (hcounts : Counts programStep re count) {program : σ}
    {as : List (Action α)}
    (hs : run (TimerCb.step programStep re n) (State.init program) as = some s)
    (hfits : Fits count n s) : Coherent s.lines := by
  have hinit : Consistent count n (State.init program) :=
    ⟨0, Nat.cast_zero.symm, .nil, count program, Nat.zero_le _, fun _ => Nat.le_refl _,
      fun i j hpc => (by cases hpc)⟩
  suffices h : Consistent count n s by
    obtain ⟨old, -, hprinted, -⟩ := h
    exact hprinted.coherent
  generalize State.init program = s₀ at hs hinit
  induction as generalizing s₀ with
  | nil =>
      cases hs
      exact hinit
  | cons a as ih =>
      have hbefore : Fits count n s₀ := hfits.of_run hcounts hs
      obtain ⟨t, ht, hrest⟩ := Option.bind_eq_some_iff.mp hs
      exact ih t hrest (hinit.step hcounts hbefore ht)

end Reports

end TimerCb
end FloWatcher
