import FloWatcher.RunToCompletion.Loop
import FloWatcher.Quantile.Basic

/-!
# The `IPG` blocks

With `IPG` on, an entry also measures the gaps of its flow: `global` is the number of packets
received so far, and the gap of a packet is `global - 1 - ipg` where `ipg` is what the entry
remembers of the packet before. Averages are exact rationals here; `curr` is an `int64_t` and
`ctr - 1` a `uint32_t`.
-/

namespace FloWatcher
namespace RunToCompletion

def gap (global ipg : BitVec 64) : BitVec 64 := global - 1 - ipg

/-- `(avg * (ctr - 1) + curr) / ctr`, in exact arithmetic. The divisor is cast to `float`, except in
slot `0` of `double_hash`; a `float` holds every `ctr` up to `2 ^ 24`. -/
def average (avg : ℚ) (ctr : BitVec 32) (curr : BitVec 64) : ℚ :=
  (avg * (ctr - 1).toNat + curr.toInt) / ctr.toNat

/-! ## `DOUBLE_HASH` -/

structure SlotStats where
  ipg : BitVec 64
  avg : ℚ
  deriving DecidableEq, Repr

def doubleHashIpg : SlotIpg 32 SlotStats where
  init := { ipg := 0, avg := 0 }
  start s := { s with avg := s.ipg.toNat }
  hit _ global ctr s := { ipg := global, avg := average s.avg ctr (gap global s.ipg) }

/-! ## `HASH_LIST` -/

/-- The fields `ipg`, `avg`, `stdDev` and `qt`. In a build without `QUANTILE` there is no `qt`;
`none` is also a quantile state in which `get_qt` has failed. -/
structure EntryStats where
  ipg : BitVec 64
  avg : ℚ
  stdDev : ℚ
  qt : Option Quantile

/-- A quantile state as `rte_calloc` leaves it. -/
def zeroQuantile : Quantile := { q := fun _ => 0, l := 0, n := fun _ => 0, n1 := fun _ => 0 }

/-- The measurement at a later packet of a flow, apart from `ipg`. `sqrt(pow(x, 2))` is `|x|`. -/
def EntryStats.measure (s : EntryStats) (ctr : BitVec 32) (curr : BitVec 64) : EntryStats :=
  { s with stdDev := |curr.toInt - s.avg|, avg := average s.avg ctr curr }

/-- The blocks of `hash_list`; `quantile` is `P` in a build with `QUANTILE`. -/
def hashListIpg (quantile : Option Quantile.Percentile) : HashList.Ipg 32 EntryStats where
  slot :=
    { init :=
        { ipg := 0, avg := 0, stdDev := 0
          qt := quantile.map fun P => Quantile.init P zeroQuantile }
      start := fun s => { s with avg := s.ipg.toNat }
      hit := fun _ global ctr s =>
        let curr := gap global s.ipg
        { s.measure ctr curr with
          ipg := global
          qt := quantile.bind fun P => s.qt.bind fun qt => Quantile.observe P qt curr } }
  zero := { ipg := 0, avg := 0, stdDev := 0, qt := quantile.map fun _ => zeroQuantile }
  -- neither `ipg` nor the quantile state is updated here
  hit global ctr s := s.measure ctr (gap global s.ipg)
  claim global s := { s with avg := (gap global s.ipg).toNat, ipg := global }

end RunToCompletion
end FloWatcher
