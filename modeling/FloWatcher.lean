import FloWatcher.FirstFit.Basic
import FloWatcher.FirstFit.Count
import FloWatcher.Basic
import FloWatcher.FirstFit.Unmixed
import FloWatcher.Table.Basic
import FloWatcher.Table.LinkedList
import FloWatcher.Table.DoubleHash
import FloWatcher.RunToCompletion.Loop
import FloWatcher.RunToCompletion.Contents
import FloWatcher.RunToCompletion.Flows
import FloWatcher.Pthread.DoubleHash
import FloWatcher.Quantile.Basic
import FloWatcher.Quantile.Markers
import FloWatcher.FirstFit.Owner
import FloWatcher.RunToCompletion.Ipg
import FloWatcher.RunToCompletion.Burstiness
import FloWatcher.RunToCompletion.Placement
import FloWatcher.Transition.Basic
import FloWatcher.Transition.Parties
import FloWatcher.Config
import FloWatcher.Lthread.Pipeline
import FloWatcher.Lthread.Accounting
import FloWatcher.Lthread.RingLoss
import FloWatcher.Transition.Places
import FloWatcher.Pthread.Pipeline
import FloWatcher.Pthread.RxRing
import FloWatcher.RunToCompletion.Gaps
import FloWatcher.Lthread.Wakeup
import FloWatcher.Lthread.Signals
import FloWatcher.RunToCompletion.Mbufs
import FloWatcher.Lthread.Drain
import FloWatcher.Config.Rings
import FloWatcher.Pthread.Launch
import FloWatcher.Clib.For
import FloWatcher.Pthread.Loops
import FloWatcher.Pthread.Counters
import FloWatcher.Shared.Basic
import FloWatcher.Shared.Safe
import FloWatcher.RunToCompletion.Memory
import FloWatcher.RunToCompletion.Safety
import FloWatcher.RunToCompletion.Chains
import FloWatcher.RunToCompletion.Interleavings
import FloWatcher.Lthread.Layout
import FloWatcher.Transition.Reaches
import FloWatcher.Lthread.Startup
import FloWatcher.Lthread.Conditions
import FloWatcher.Lthread.Reports
import FloWatcher.Calls
import FloWatcher.Lthread.Ports
import FloWatcher.Clib.Strings
import FloWatcher.Clib.Strtoul
import FloWatcher.Config.Parse
import FloWatcher.Config.RoundTrip
import FloWatcher.Config.Malformed
import FloWatcher.Clib.Getopt
import FloWatcher.Config.Portmask
import FloWatcher.Lthread.Arguments
import FloWatcher.Pthread.Arguments
import FloWatcher.RunToCompletion.Allocation
import FloWatcher.Statistics.Moments
import FloWatcher.RunToCompletion.Deviation
import FloWatcher.Table.Branches
import FloWatcher.Pthread.Averages
import FloWatcher.Table.Divisors
import FloWatcher.Lthread.Counting
import FloWatcher.Sorting.Insertion
import FloWatcher.Quantile.Sort
import FloWatcher.Quantile.Cells
import FloWatcher.Pthread.HashList
import FloWatcher.FirstFit.Used
import FloWatcher.Pthread.LinkedList
import FloWatcher.Lthread.Totals
import FloWatcher.Pthread.Masks
import FloWatcher.Pthread.BurstSize
import FloWatcher.Lthread.Rotation
import FloWatcher.Clib.Switch
import FloWatcher.Hashing.Blocks
import FloWatcher.Hashing.Words
import FloWatcher.Toeplitz.Murmur
import FloWatcher.Clib.Memory
import FloWatcher.Toeplitz.MurmurX86
import FloWatcher.Toeplitz.Spooky
import FloWatcher.Toeplitz.SpookyStream
import FloWatcher.Toeplitz.Loads
import FloWatcher.Transition.Progress
import FloWatcher.Pthread.Delivery
import FloWatcher.Pthread.Drain
import FloWatcher.Transition.Reading
import FloWatcher.Clib.Double
import FloWatcher.TimerCb
import FloWatcher.RunToCompletion.Timer
import FloWatcher.Lthread.Timer
import FloWatcher.Table.SlotsUsed
import FloWatcher.Pthread.FlowCount
import FloWatcher.Clib.Printf
import FloWatcher.Lthread.FlowsTxt
import FloWatcher.RunToCompletion.Miscounted
import FloWatcher.Transition.Simulation
import FloWatcher.Lthread.Packets
import FloWatcher.Lthread.Delivery
import FloWatcher.Clib.Spelling
import FloWatcher.Pthread.CommandLine
