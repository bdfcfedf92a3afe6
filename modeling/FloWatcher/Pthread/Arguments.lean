import FloWatcher.Clib.Getopt
import FloWatcher.Config.Parse
import FloWatcher.Config.Portmask

/-!
# The arguments of the pthread program

`parse_args` as in the lthread program, with other options and with `-1` for every failure that it
notices. A port mask passes from the `unsigned long` of `strtoul` through the `int` of
`parse_portmask` to a `uint32_t`; `maskTaken_iff` says for which strings this goes well.
-/

namespace FloWatcher
namespace Pthread

open Clib

def maxRxQueuePerPort : Nat := 128

def maxRxDesc : Nat := 4096

def parseRxQueueNb : List Char → BitVec 32 := parsePositive 10 (min · maxRxQueuePerPort)

def parseRxDescNb : List Char → BitVec 32 := parsePositive 10 (min · maxRxDesc)

def parseRxBurstSize : List Char → BitVec 32 := parsePositive 10 id

def cmdLineOptNbRxqNum : Nat := 256

def cmdLineOptNbRxDesc : Nat := 257

def cmdLineOptBurstSize : Nat := 258

def cmdLineOptRxConfig : Nat := 260

def cmdLineOptTxConfig : Nat := 261

def cmdLineOptFile : Nat := 262

def options : Options where
  optstring := [('p', true), ('P', false)]
  longopts := [
    { name := "nb_rxq".toList, hasArg := true, val := cmdLineOptNbRxqNum },
    { name := "nb_rx_desc".toList, hasArg := true, val := cmdLineOptNbRxDesc },
    { name := "burst_size".toList, hasArg := true, val := cmdLineOptBurstSize },
    { name := "write-file".toList, hasArg := false, val := cmdLineOptFile },
    { name := "rx_conf".toList, hasArg := true, val := cmdLineOptRxConfig },
    { name := "tx_conf".toList, hasArg := true, val := cmdLineOptTxConfig }]

structure Settings where
  enabledPortMask : BitVec 32
  nbRxq : UInt8
  nbRxDesc : UInt16
  burstSize : UInt16
  promiscuousOn : Bool
  writeOn : Bool
  rx : ThreadParams RxThreadParams
  tx : ThreadParams TxThreadParams

def Settings.initial : Settings where
  enabledPortMask := 0x8
  nbRxq := 2
  nbRxDesc := 4096
  burstSize := 256
  promiscuousOn := true
  writeOn := false
  rx := { array := fun _ => ⟨0, 0, 0, 0⟩, nb := 2, params := .arrayDefault }
  tx := { array := fun _ => ⟨0, 0⟩, nb := 2, params := .arrayDefault }

section ParseArgs

variable (rteStrsplit : List Char → Nat → Char → List (List Char))

def parseOpt : Opt → Settings → Option Int × Settings
  | .short c optarg, g =>
      if c = 'p' then
        let g' := { g with enabledPortMask := parsePortmask optarg }
        if g'.enabledPortMask = 0 then (some (-1), g') else (none, g')
      else if c = 'P' then (none, { g with promiscuousOn := true })
      else (some (-1), g)
  | .long option optarg, g =>
      if option.val = cmdLineOptNbRxqNum then
        let ret := parseRxQueueNb optarg
        -- a number that is not accepted is ignored, here and below
        (none, if ret = -1 then g else { g with nbRxq := UInt8.ofNat ret.toNat })
      else if option.val = cmdLineOptNbRxDesc then
        let ret := parseRxDescNb optarg
        (none, if ret = -1 then g else { g with nbRxDesc := UInt16.ofNat ret.toNat })
      else if option.val = cmdLineOptBurstSize then
        let ret := parseRxBurstSize optarg
        (none, if ret = -1 then g else { g with burstSize := UInt16.ofNat ret.toNat })
      else if option.val = cmdLineOptRxConfig then
        let (ret, rx) := parseRxConfig rteStrsplit optarg g.rx
        (if ret = 0 then none else some (-1), { g with rx := rx })
      else if option.val = cmdLineOptTxConfig then
        let (ret, tx) := parseTxConfig rteStrsplit optarg g.tx
        (if ret = 0 then none else some (-1), { g with tx := tx })
      else if option.val = cmdLineOptFile then (none, { g with writeOn := true })
      else (some (-1), g)
  | .unknown, g => (some (-1), g)

def parseArgs : List (List Char) → Settings → Int × Settings :=
  optParse options (parseOpt rteStrsplit)

/-- The loop comes to an option, with what has been set so far and the options after it. -/
def Reaches (argv : List (List Char)) (g : Settings) (opt : Opt) (g' : Settings)
    (post : List Opt) : Prop :=
  ∃ pre, (getoptLong options none argv).1 = pre ++ opt :: post ∧
    optLoop (parseOpt rteStrsplit) pre g = (none, g')

/-- What `parse_args` returns when it goes on with some options. -/
def goesOn (argv : List (List Char)) (g : Settings) (opts : List Opt) : Int × Settings :=
  let (ret, g') := optLoop (parseOpt rteStrsplit) opts g
  (ret.getD (argv.length - (getoptLong options none argv).2.length), g')

/-- **What should become of a value of `-p`**: it is stored and `parse_args` goes on when it is a mask,
and otherwise `parse_args` returns `-1`. -/
structure MaskTaken (s : List Char) : Prop where
  accepted : ∀ n, IsMask s n → ∀ argv g g' post, Reaches rteStrsplit argv g (.short 'p' s) g' post →
    parseArgs rteStrsplit argv g =
      goesOn rteStrsplit argv { g' with enabledPortMask := BitVec.ofNat 32 n } post
  refused : (∀ n, ¬ IsMask s n) → ∀ argv g g' post,
    Reaches rteStrsplit argv g (.short 'p' s) g' post → (parseArgs rteStrsplit argv g).1 = -1

end ParseArgs

section Mask

variable {rteStrsplit : List Char → Nat → Char → List (List Char)} {argv : List (List Char)}
  {g g' : Settings} {opt : Opt} {post : List Opt} {s : List Char}

/-- What comes before an option has no other effect than what it sets. -/
theorem parseArgs_of_reaches (h : Reaches rteStrsplit argv g opt g' post) :
    parseArgs rteStrsplit argv g = goesOn rteStrsplit argv g' (opt :: post) := by
  obtain ⟨pre, hopts, hloop⟩ := h
  show (let (ret, st) := optLoop (parseOpt rteStrsplit) (getoptLong options none argv).1 g
    (ret.getD (argv.length - (getoptLong options none argv).2.length), st)) = _
  rw [hopts, optLoop_append, hloop]
  rfl

/-- One round of the loop, for `-p`. -/
theorem goesOn_mask :
    goesOn rteStrsplit argv g (.short 'p' s :: post) =
      if parsePortmask s = 0 then (-1, { g with enabledPortMask := parsePortmask s })
      else goesOn rteStrsplit argv { g with enabledPortMask := parsePortmask s } post := by
  rw [goesOn, optLoop, parseOpt, if_pos rfl]
  dsimp only
  by_cases hzero : parsePortmask s = 0
  · rw [if_pos hzero, if_pos hzero]
    rfl
  · rw [if_neg hzero, if_neg hzero]
    rfl

/-- Every string can be the value of `-p`. -/
theorem reaches_mask (rteStrsplit : List Char → Nat → Char → List (List Char)) (s : List Char)
    (g : Settings) : Reaches rteStrsplit ["-p".toList, s] g (.short 'p' s) g [] :=
  ⟨[], rfl, rfl⟩

/-- **When a value of `-p` is taken for what it is**: when it is a mask, or a number with a mask of
`0`. -/
theorem maskTaken_iff (rteStrsplit : List Char → Nat → Char → List (List Char)) (s : List Char) :
    MaskTaken rteStrsplit s ↔ (∃ n, IsMask s n) ∨ WrapsToZero s := by
  constructor
  · intro htaken
    by_contra hbad
    obtain ⟨hmask, hwraps⟩ := not_or.mp hbad
    have hreach := reaches_mask rteStrsplit s Settings.initial
    have hret := htaken.refused (not_exists.mp hmask) _ _ _ _ hreach
    rw [parseArgs_of_reaches hreach, goesOn_mask,
      if_neg (parsePortmask_eq_zero_iff.not.mpr hwraps)] at hret
    -- both arguments have been read
    exact absurd hret (show (2 : Int) - 0 ≠ -1 by decide)
  · rintro (⟨n, hmask⟩ | hwraps)
    · refine ⟨fun m hm argv g g' post hreach => ?_, fun hnone => absurd hmask (hnone n)⟩
      obtain ⟨hvalue, hne⟩ := parsePortmask_of_isMask hm
      rw [parseArgs_of_reaches hreach, goesOn_mask, if_neg hne, hvalue]
    · refine ⟨fun m hm => absurd hm hwraps.not_isMask, fun _ argv g g' post hreach => ?_⟩
      rw [parseArgs_of_reaches hreach, goesOn_mask, if_pos (parsePortmask_eq_zero_iff.mpr hwraps)]

/-- A value that is no number is accepted, with all bits of the mask set. -/
theorem not_maskTaken_zz :
    parseArgs split ["-p".toList, "zz".toList] Settings.initial =
        (2, { Settings.initial with enabledPortMask := 0xffffffff }) ∧
      ¬ MaskTaken split "zz".toList := by
  have hparse : parseArgs split ["-p".toList, "zz".toList] Settings.initial =
      (2, { Settings.initial with enabledPortMask := 0xffffffff }) := rfl
  refine ⟨hparse, fun htaken => ?_⟩
  have hnone : ∀ n, ¬ IsMask "zz".toList n := fun n h => absurd h.1.endptr (by decide)
  have hret := htaken.refused hnone _ _ _ _ (reaches_mask split "zz".toList Settings.initial)
  rw [hparse] at hret
  exact absurd hret (by decide)

end Mask

end Pthread
end FloWatcher
