import FloWatcher.Clib.Spelling
import FloWatcher.Config.RoundTrip
import FloWatcher.Pthread.BurstSize
import FloWatcher.Pthread.Layout

/-!
# What a command line sets

A user of the pthread program has settings in mind (`Setting`) and writes an option for each of them
(`Writes`), in any order and in any of the spellings that `getopt_long` knows. `parse_args` reads
what has been written: it returns how many arguments belong to options, and of the settings of one
kind the last one counts (`parseArgs_written`). When the tuples that count are those of threads in
pairs, what runs then is what has been written (`operates_of_written`).
-/

namespace FloWatcher
namespace Pthread

open Clib

inductive Setting where
  | portMask (n : Nat)
  | promiscuous
  | nbRxq (n : Nat)
  | nbRxDesc (n : Nat)
  | burstSize (n : Nat)
  | rxConf (rx : List RxThreadParams)
  | txConf (tx : List TxThreadParams)
  | writeFile

/-- `Writes setting opt`: the setting is written as the option. -/
inductive Writes : Setting → Opt → Prop
  | portMask {s n} : IsMask s n → Writes (.portMask n) (.short 'p' s)
  | promiscuous : Writes .promiscuous (.short 'P' [])
  | nbRxq {option s n} : option.val = cmdLineOptNbRxqNum → SignedNumeral 10 s false n → 0 < n →
      Writes (.nbRxq n) (.long option s)
  | nbRxDesc {option s n} : option.val = cmdLineOptNbRxDesc → SignedNumeral 10 s false n → 0 < n →
      Writes (.nbRxDesc n) (.long option s)
  | burstSize {option s n} : option.val = cmdLineOptBurstSize → SignedNumeral 10 s false n →
      0 < n → n < 2 ^ 16 → Writes (.burstSize n) (.long option s)
  | rxConf {option s rx} : option.val = cmdLineOptRxConfig → Written rxFields rx s →
      rx.length ≤ maxLcoreParams → Writes (.rxConf rx) (.long option s)
  | txConf {option s tx} : option.val = cmdLineOptTxConfig → Written txFields tx s →
      tx.length ≤ maxLcoreParams → Writes (.txConf tx) (.long option s)
  | writeFile {option} : option.val = cmdLineOptFile → Writes .writeFile (.long option [])

/-- What is set, as the rest of the program reads it. -/
@[ext]
structure Choice where
  portMask : Nat
  nbRxq : Nat
  nbRxDesc : Nat
  burstSize : Nat
  promiscuous : Bool
  writeFile : Bool
  rx : List RxThreadParams
  tx : List TxThreadParams

/-- What the variables of the program stand for. -/
def Settings.choice (g : Settings) : Choice where
  portMask := g.enabledPortMask.toNat
  nbRxq := g.nbRxq.toNat
  nbRxDesc := g.nbRxDesc.toNat
  burstSize := g.burstSize.toNat
  promiscuous := g.promiscuousOn
  writeFile := g.writeOn
  rx := g.rx.list rxThreadParamsArrayDefault
  tx := g.tx.list txThreadParamsArrayDefault

/-- A setting replaces what has been set before. Two of the numbers have limits. -/
def Setting.apply (c : Choice) : Setting → Choice
  | .portMask n => { c with portMask := n }
  | .promiscuous => { c with promiscuous := true }
  | .nbRxq n => { c with nbRxq := min n maxRxQueuePerPort }
  | .nbRxDesc n => { c with nbRxDesc := min n maxRxDesc }
  | .burstSize n => { c with burstSize := n }
  | .rxConf rx => { c with rx := rx }
  | .txConf tx => { c with tx := tx }
  | .writeFile => { c with writeFile := true }

/-! ## One option -/

section Number

variable {s : List Char} {n limit : Nat}

/-- A number with a limit, where the limit is less than any number with a lost bit. -/
theorem parsePositive_min (h : SignedNumeral 10 s false n) (hpos : 0 < n)
    (hlimit : limit < 2 ^ 16) :
    parsePositive 10 (min · limit) s ≠ -1 ∧
      (parsePositive 10 (min · limit) s).toNat = min n limit := by
  have hread : ReadAs 10 s (ulongOf false n) := by
    refine ⟨h.ne_nil, ?_, ?_⟩
    · rw [strtoul_signedNumeral h]
    · rw [strtoul_signedNumeral h]
  have hvalue : ulongOf false n ≠ 0 ∧ min (ulongOf false n) limit = min n limit := by
    rw [ulongOf, ulongMax]
    split
    · omega
    · exact ⟨hpos.ne', rfl⟩
  have htoNat : (parsePositive 10 (min · limit) s).toNat = min n limit := by
    rw [parsePositive_of_readAs hread, if_neg hvalue.1, hvalue.2, BitVec.toNat_ofNat]
    omega
  refine ⟨fun hfail => ?_, htoNat⟩
  rw [hfail] at htoNat
  change 2 ^ 32 - 1 = min n limit at htoNat
  omega

end Number

section ParseOpt

variable {rteStrsplit : List Char → Nat → Char → List (List Char)} {setting : Setting} {opt : Opt}
  {option : LongOption} {s : List Char}

theorem parseOpt_nbRxq (hval : option.val = cmdLineOptNbRxqNum) (g : Settings) :
    parseOpt rteStrsplit (.long option s) g =
      (none, if parseRxQueueNb s = -1 then g
        else { g with nbRxq := UInt8.ofNat (parseRxQueueNb s).toNat }) := by
  rw [parseOpt, hval, if_pos rfl]

theorem parseOpt_nbRxDesc (hval : option.val = cmdLineOptNbRxDesc) (g : Settings) :
    parseOpt rteStrsplit (.long option s) g =
      (none, if parseRxDescNb s = -1 then g
        else { g with nbRxDesc := UInt16.ofNat (parseRxDescNb s).toNat }) := by
  rw [parseOpt, hval, if_neg (by decide), if_pos rfl]

theorem parseOpt_rxConf (hval : option.val = cmdLineOptRxConfig) (g : Settings) :
    parseOpt rteStrsplit (.long option s) g =
      (if (parseRxConfig rteStrsplit s g.rx).1 = 0 then none else some (-1),
        { g with rx := (parseRxConfig rteStrsplit s g.rx).2 }) := by
  rw [parseOpt, hval, if_neg (by decide), if_neg (by decide), if_neg (by decide), if_pos rfl]

theorem parseOpt_txConf (hval : option.val = cmdLineOptTxConfig) (g : Settings) :
    parseOpt rteStrsplit (.long option s) g =
      (if (parseTxConfig rteStrsplit s g.tx).1 = 0 then none else some (-1),
        { g with tx := (parseTxConfig rteStrsplit s g.tx).2 }) := by
  rw [parseOpt, hval, if_neg (by decide), if_neg (by decide), if_neg (by decide),
    if_neg (by decide), if_pos rfl]

theorem parseOpt_writeFile (hval : option.val = cmdLineOptFile) (g : Settings) :
    parseOpt rteStrsplit (.long option s) g = (none, { g with writeOn := true }) := by
  rw [parseOpt, hval, if_neg (by decide), if_neg (by decide), if_neg (by decide),
    if_neg (by decide), if_neg (by decide), if_pos rfl]

/-- **An option sets what is written.** -/
theorem parseOpt_written (hsplit : Strsplit rteStrsplit) (h : Writes setting opt) (g : Settings) :
    ∃ g', parseOpt rteStrsplit opt g = (none, g') ∧ g'.choice = setting.apply g.choice := by
  have hrx : Reads (parseRxConfig rteStrsplit) rxThreadParamsArrayDefault rxFields :=
    reads_parseConfig hsplit readable_rx rxThreadParamsArrayDefault
  have htx : Reads (parseTxConfig rteStrsplit) txThreadParamsArrayDefault txFields :=
    reads_parseConfig hsplit readable_tx txThreadParamsArrayDefault
  cases h with
  | @portMask s n hmask =>
      obtain ⟨hvalue, hne⟩ := parsePortmask_of_isMask hmask
      have hn : (BitVec.ofNat 32 n).toNat = n := by
        rw [BitVec.toNat_ofNat, Nat.mod_eq_of_lt hmask.2.2]
      refine ⟨{ g with enabledPortMask := parsePortmask s }, ?_, ?_⟩
      · rw [parseOpt, if_pos rfl]
        exact if_neg hne
      · rw [hvalue, Settings.choice, hn]
        rfl
  | promiscuous => exact ⟨_, rfl, rfl⟩
  | @nbRxq option s n hval hnum hpos =>
      obtain ⟨hne, hvalue⟩ := @parsePositive_min s n maxRxQueuePerPort hnum hpos (by decide)
      have hn : (UInt8.ofNat (parseRxQueueNb s).toNat).toNat = min n maxRxQueuePerPort := by
        rw [parseRxQueueNb, hvalue, UInt8.toNat_ofNat', maxRxQueuePerPort]
        omega
      refine ⟨{ g with nbRxq := UInt8.ofNat (parseRxQueueNb s).toNat }, ?_, ?_⟩
      · rw [parseOpt_nbRxq hval, parseRxQueueNb, if_neg hne]
      · rw [Settings.choice, hn]
        rfl
  | @nbRxDesc option s n hval hnum hpos =>
      obtain ⟨hne, hvalue⟩ := @parsePositive_min s n maxRxDesc hnum hpos (by decide)
      have hn : (UInt16.ofNat (parseRxDescNb s).toNat).toNat = min n maxRxDesc := by
        rw [parseRxDescNb, hvalue, UInt16.toNat_ofNat', maxRxDesc]
        omega
      refine ⟨{ g with nbRxDesc := UInt16.ofNat (parseRxDescNb s).toNat }, ?_, ?_⟩
      · rw [parseOpt_nbRxDesc hval, parseRxDescNb, if_neg hne]
      · rw [Settings.choice, hn]
        rfl
  | @burstSize option s n hval hnum hpos hlt =>
      have hvalue := toNat_storedBurstSize hnum hpos hlt
      have hne : parseRxBurstSize s ≠ -1 := by
        rw [ne_eq, parseRxBurstSize_eq_neg_one_iff hnum]
        simp only [Bool.false_eq_true, if_false]
        omega
      refine ⟨{ g with burstSize := storedBurstSize s }, ?_, ?_⟩
      · rw [parseOpt_burstSize hval, if_neg hne]
      · rw [Settings.choice, hvalue]
        rfl
  | @rxConf option s rx hval hwritten hlen =>
      obtain ⟨hret, -, hlist⟩ := (hrx rx s hwritten g.rx).1 hlen
      refine ⟨{ g with rx := (parseRxConfig rteStrsplit s g.rx).2 }, ?_, ?_⟩
      · rw [parseOpt_rxConf hval, if_pos hret]
      · rw [Settings.choice, hlist]
        rfl
  | @txConf option s tx hval hwritten hlen =>
      obtain ⟨hret, -, hlist⟩ := (htx tx s hwritten g.tx).1 hlen
      refine ⟨{ g with tx := (parseTxConfig rteStrsplit s g.tx).2 }, ?_, ?_⟩
      · rw [parseOpt_txConf hval, if_pos hret]
      · rw [Settings.choice, hlist]
        rfl
  | writeFile hval => exact ⟨{ g with writeOn := true }, parseOpt_writeFile hval g, rfl⟩

/-- The loop sets what is written, in this order. -/
theorem optLoop_written (hsplit : Strsplit rteStrsplit) {settings : List Setting} {opts : List Opt}
    (h : List.Forall₂ Writes settings opts) (g : Settings) :
    ∃ g', optLoop (parseOpt rteStrsplit) opts g = (none, g') ∧
      g'.choice = settings.foldl Setting.apply g.choice := by
  induction h generalizing g with
  | nil => exact ⟨g, rfl, rfl⟩
  | cons hwrites _ ih =>
      obtain ⟨g₁, hparse, hchoice⟩ := parseOpt_written hsplit hwrites g
      obtain ⟨g₂, hloop, hchoice'⟩ := ih g₁
      refine ⟨g₂, ?_, ?_⟩
      · rw [optLoop, hparse]
        exact hloop
      · rw [List.foldl_cons, ← hchoice]
        exact hchoice'

/-- The loop has read all options. -/
theorem parseArgs_of_loop {opts : List Opt} {operands argv : List (List Char)} {g g' : Settings}
    (hspells : Spells options opts operands argv)
    (hloop : optLoop (parseOpt rteStrsplit) opts g = (none, g')) :
    parseArgs rteStrsplit argv g = ((argv.length : Int) - operands.length, g') := by
  rw [parseArgs, optParse, getoptLong_of_spells hspells]
  dsimp only
  rw [hloop]
  rfl

end ParseOpt

/-! ## The command line -/

/-- **What is written on the command line is set**, and `parse_args` returns how many arguments are
no operands. -/
theorem parseArgs_written (rteStrsplit : List Char → Nat → Char → List (List Char))
    (hsplit : Strsplit rteStrsplit) (settings : List Setting) (opts : List Opt)
    (operands argv : List (List Char)) (hwrites : List.Forall₂ Writes settings opts)
    (hspells : Spells options opts operands argv) (g : Settings) :
    ∃ g', parseArgs rteStrsplit argv g = ((argv.length : Int) - operands.length, g') ∧
      g'.choice = settings.foldl Setting.apply g.choice := by
  obtain ⟨g', hloop, hchoice⟩ := optLoop_written hsplit hwrites g
  exact ⟨g', parseArgs_of_loop hspells hloop, hchoice⟩

/-- The arguments that `test.py` starts the program with. -/
def testArgs : List (List Char) :=
  ["-P".toList, "-p".toList, "8".toList, "--rx=\"(3,0,1,0)(3,1,3,1)\"".toList,
    "--tx=\"(21,0)(23,1)\"".toList, "--write-file".toList]

def testOpts : List Opt :=
  [.short 'P' [], .short 'p' "8".toList,
    .long { name := "rx_conf".toList, hasArg := true, val := cmdLineOptRxConfig }
      "\"(3,0,1,0)(3,1,3,1)\"".toList,
    .long { name := "tx_conf".toList, hasArg := true, val := cmdLineOptTxConfig }
      "\"(21,0)(23,1)\"".toList,
    .long { name := "write-file".toList, hasArg := false, val := cmdLineOptFile } []]

theorem spells_testArgs : Spells options testOpts [] testArgs := by
  rw [← getoptLong_eq_iff]
  decide

theorem writes_testOpts :
    List.Forall₂ Writes
      [.promiscuous, .portMask 8, .rxConf [⟨3, 0, 1, 0⟩, ⟨3, 1, 3, 1⟩], .txConf [⟨21, 0⟩, ⟨23, 1⟩],
        .writeFile] testOpts := by
  have hmask : IsMask "8".toList 8 := ⟨⟨by decide, by decide, by decide⟩, by decide, by decide⟩
  have hrx : Written rxFields [⟨3, 0, 1, 0⟩, ⟨3, 1, 3, 1⟩] "\"(3,0,1,0)(3,1,3,1)\"".toList :=
    @Written.cons _ rxFields ['"'] ⟨3, 0, 1, 0⟩ _ _ (by simp) (by simp)
      (@Written.cons _ rxFields [] ⟨3, 1, 3, 1⟩ [] ['"'] (by simp) (by simp)
        (.nil (by simp) (by simp)))
  have htx : Written txFields [⟨21, 0⟩, ⟨23, 1⟩] "\"(21,0)(23,1)\"".toList :=
    @Written.cons _ txFields ['"'] ⟨21, 0⟩ _ _ (by simp) (by simp)
      (@Written.cons _ txFields [] ⟨23, 1⟩ [] ['"'] (by simp) (by simp)
        (.nil (by simp) (by simp)))
  refine .cons .promiscuous (.cons (.portMask hmask) (.cons (.rxConf rfl hrx (by decide)) ?_))
  exact .cons (.txConf rfl htx (by decide)) (.cons (.writeFile rfl) .nil)

/-- What `test.py` sets. -/
theorem parseArgs_written_testArgs :
    ∃ g', parseArgs split testArgs Settings.initial = (6, g') ∧
      g'.choice =
        { Settings.initial.choice with
          portMask := 8
          promiscuous := true
          rx := [⟨3, 0, 1, 0⟩, ⟨3, 1, 3, 1⟩]
          tx := [⟨21, 0⟩, ⟨23, 1⟩]
          writeFile := true } :=
  parseArgs_written split strsplit_split _ _ _ _ writes_testOpts spells_testArgs _

/-- **The command line says what runs**: `main` gets to the launch, and every thread that is written
there runs, with the queue and the partner that are written. -/
theorem operates_of_written (rteStrsplit : List Char → Nat → Char → List (List Char))
    (hsplit : Strsplit rteStrsplit) (rteRingCreate : String → Bool) (rteLcoreToSocketId : Nat → Nat)
    (configure setUp : Nat → Nat → Bool) (settings : List Setting) (opts : List Opt)
    (operands argv : List (List Char)) (hwrites : List.Forall₂ Writes settings opts)
    (hspells : Spells options opts operands argv) (g : Settings) (choice : Choice)
    (hchoice : settings.foldl Setting.apply g.choice = choice) (nbPorts : Nat) (slaves : List Nat)
    (hpaired : Paired choice.rx choice.tx slaves)
    (hports : OnPorts nbPorts (BitVec.ofNat 32 choice.portMask) choice.rx)
    (hcreate : ∀ name, rteRingCreate name = true)
    (hup : PortsUp configure setUp (BitVec.ofNat 32 choice.portMask) choice.rx.length nbPorts) :
    ∃ g' c queues, parseArgs rteStrsplit argv g = ((argv.length : Int) - operands.length, g') ∧
      initThreads rteRingCreate rteLcoreToSocketId (g'.rx.list rxThreadParamsArrayDefault)
        (g'.tx.list txThreadParamsArrayDefault) = some c ∧
      setUpPorts configure setUp g'.enabledPortMask c.nRxThread (List.range nbPorts) =
        some queues ∧
      Operates choice.rx c slaves queues := by
  obtain ⟨g', hloop, hchoice'⟩ := optLoop_written hsplit hwrites g
  have hparse := parseArgs_of_loop hspells hloop
  obtain rfl : g'.choice = choice := hchoice'.trans hchoice
  have hmask : BitVec.ofNat 32 g'.choice.portMask = g'.enabledPortMask :=
    (BitVec.ofNat_toNat 32 _).trans (BitVec.setWidth_eq _)
  rw [hmask] at hports hup
  obtain ⟨c, queues, hthreads⟩ := operates_of_paired hpaired hports hcreate hup
  exact ⟨g', c, queues, hparse, hthreads⟩

/-- What runs then, on the lcores that `test.py` names. -/
theorem operates_of_written_testArgs :
    ∃ g' c queues, parseArgs split testArgs Settings.initial = (6, g') ∧
      initThreads (fun _ => true) (fun _ => 0) (g'.rx.list rxThreadParamsArrayDefault)
        (g'.tx.list txThreadParamsArrayDefault) = some c ∧
      setUpPorts (fun _ _ => true) (fun _ _ => true) g'.enabledPortMask c.nRxThread
        (List.range 4) = some queues ∧
      Operates [⟨3, 0, 1, 0⟩, ⟨3, 1, 3, 1⟩] c [1, 3, 21, 23] queues := by
  refine operates_of_written split strsplit_split (fun _ => true) (fun _ => 0) (fun _ _ => true)
    (fun _ _ => true) _ _ _ _ writes_testOpts spells_testArgs _ _ rfl 4 [1, 3, 21, 23] ?_ ?_
    (fun _ => rfl) (fun _ _ _ => ⟨rfl, fun _ _ => rfl⟩)
  · exact ⟨.refl _, .refl _, by decide, by decide, by decide, by decide⟩
  · intro p hp
    rcases List.mem_pair.mp hp with rfl | rfl
    · decide
    · decide

end Pthread
end FloWatcher
