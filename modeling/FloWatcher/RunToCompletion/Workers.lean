import FloWatcher.RunToCompletion.Memory

/-!
# The workers access by access

The packet loops of `double_hash`, `linked_list` and `hash_list` (without `IPG`), with every read
and write of a field of the table and every `rte_calloc` as a step of its own, and `port_init`,
which sets up the table before the workers are launched. A label is a point of the loops together
with the local variables that are in use there; a jump to a label is a step without an access. An
online `rte_calloc` that fails ends the program, so only those that succeed are steps.
-/

namespace FloWatcher
namespace RunToCompletion
namespace Heap

open Shared

/-- Where a worker is, with the packets that it is still to process. -/
inductive Label where
  /-- the head of the packet loop -/
  | packet (tmp : Option Addr) (todo : List Hash)
  /-- the head of the `while` loop for a packet with hash `h` -/
  | walk (f tmp : Option Addr) (h : Hash) (todo : List Hash)
  /-- behind the `while` loop, with `hit == 0` -/
  | append (tmp : Option Addr) (h : Hash) (todo : List Hash)
  /-- `tmp->next = f` -/
  | link (f : Addr) (tmp : Option Addr) (h : Hash) (todo : List Hash)

abbrev Worker := Code Field.Val Addr Label

def incCtr (b : Bucket) (j : Fin 3) (k : Worker) : Worker :=
  .read (.ctr b j) fun ctr => .write (.ctr b j) (ctr + 1) k

def incNode (f : Addr) (k : Worker) : Worker :=
  .read (.nodeCtr f) fun ctr => .write (.nodeCtr f) (ctr + 1) k

/-- The `else` behind the first two slot branches; `last` is its own last `else`. -/
def slotsElse (b : Bucket) (indexH : Tag) (next last : Worker) : Worker :=
  .read (.hiF1 b) fun hiF1 =>
  if hiF1 = indexH then incCtr b 0 next
  else
    .read (.hiF2 b) fun hiF2 =>
    if hiF2 = indexH then incCtr b 1 next
    else last

def slots (b : Bucket) (indexH : Tag) (next last : Worker) : Worker :=
  .read (.hiF1 b) fun hiF1 =>
  if hiF1 = 0 then .write (.hiF1 b) indexH <| incCtr b 0 next
  else
    .read (.hiF2 b) fun hiF2 =>
    if hiF2 = 0 then
      .read (.hiF1 b) fun hiF1 =>
      if hiF1 ≠ indexH then .write (.hiF2 b) indexH <| incCtr b 1 next
      else slotsElse b indexH next last
    else slotsElse b indexH next last

/-- `tmp->next = f`; `tmp` may not have been assigned. -/
def link (f : Addr) (tmp : Option Addr) (k : Addr → Worker) : Worker :=
  match tmp with
  | some tmp => .write (.next tmp) (some f) (k tmp)
  | none => .crash

/-- `double_hash`, with `FLOW_LEVEL` on. -/
def doubleHashCode : Label → Worker
  | .packet _ [] => .halt
  | .packet tmp (h :: todo) =>
      slots (indexL h) (indexH h) (.goto (.packet tmp todo)) <|
        incCtr (indexL h) 2 (.goto (.packet tmp todo))
  -- there are no chains
  | .walk .. | .append .. | .link .. => .crash

/-- `linked_list`. The variable `tmp` belongs to the body of the packet loop. -/
def linkedListCode : Label → Worker
  | .packet _ [] => .halt
  | .packet _ (h :: todo) => .read (.flows (indexL h)) fun f => .goto (.walk f none h todo)
  | .walk none tmp h todo => .goto (.append tmp h todo)
  | .walk (some f) _ h todo =>
      .read (.rssHigh f) fun rssHigh =>
      if rssHigh = 0 then
        .write (.rssHigh f) (indexH h) <| incNode f <| .goto (.packet none todo)
      else
        .read (.rssHigh f) fun rssHigh =>
        if rssHigh = indexH h then incNode f <| .goto (.packet none todo)
        else .read (.next f) fun next => .goto (.walk next (some f) h todo)
  | .append tmp h todo =>
      .alloc fun f =>
      .write (.rssHigh f) (indexH h) <|
      .write (.nodeCtr f) (1 : BitVec 32) <|
      .write (.next f) none <|
      .goto (.link f tmp h todo)
  | .link f tmp _ todo => link f tmp fun _ => .goto (.packet none todo)

/-- `hash_list`. The variable `tmp` lives as long as the worker. -/
def hashListCode : Label → Worker
  | .packet _ [] => .halt
  | .packet tmp (h :: todo) =>
      slots (indexL h) (indexH h) (.goto (.packet tmp todo)) <|
        -- the argument of `rte_prefetch0`
        .read (.flows (indexL h)) fun _ =>
        .read (.flows (indexL h)) fun f => .goto (.walk f tmp h todo)
  | .walk none tmp h todo => .goto (.append tmp h todo)
  | .walk (some f) tmp h todo =>
      .read (.rssHigh f) fun rssHigh =>
      if rssHigh = indexH h then incNode f <| .goto (.packet tmp todo)
      else
        .read (.rssHigh f) fun rssHigh =>
        if rssHigh = 0 then
          .write (.rssHigh f) (indexH h) <| incNode f <| .goto (.packet tmp todo)
        else .read (.next f) fun next => .goto (.walk next (some f) h todo)
  | .append tmp h todo =>
      .alloc fun f =>
      .write (.rssHigh f) (indexH h) <|
      incNode f <|
      .write (.next f) none <|
      .goto (.link f tmp h todo)
  | .link f tmp _ todo => link f tmp fun tmp => .goto (.packet (some tmp) todo)

inductive Layout where
  | doubleHash
  | linkedList
  | hashList
  deriving DecidableEq

def Layout.code : Layout → Label → Worker
  | .doubleHash => doubleHashCode
  | .linkedList => linkedListCode
  | .hashList => hashListCode

/-! ## `port_init` -/

/-- `ENTRY_PER_FLOW`, for the layouts with chains. -/
def Layout.entryPerFlow : Layout → Nat
  | .doubleHash => 0
  | .linkedList => LinkedList.entryPerFlow
  | .hashList => HashList.entryPerFlow

def calloc (f : Addr) (m : Memory) : Memory := blank Field.zero Field.site f m

def set (x : Field) (v : x.Val) (m : Memory) : Memory := Function.update m x v

/-- The `while` loop behind the node `f`, for the nodes that `rte_calloc` returns. What it does to a
node between `f = f->next` and `f->next = NULL` is `clear`. -/
def appendNodes (clear : Addr → Memory → Memory) : Addr → List Addr → Memory → Memory
  | _, [], m => m
  | f, g :: gs, m =>
      let m := set (.next f) (some g) (calloc g m)
      appendNodes clear g gs (set (.next g) none (clear g m))

def linkedListNodes : Addr → List Addr → Memory → Memory :=
  appendNodes fun g m => set (.nodeCtr g) (0 : BitVec 32) (set (.rssHigh g) (0 : Tag) m)

def hashListNodes : Addr → List Addr → Memory → Memory := appendNodes fun _ m => m

/-- What `port_init` (`flow_struct_init`) does for bucket `b`, where `rte_calloc` returns the node
`f` and then the nodes `fs`. -/
def Layout.initBucket (b : Bucket) (f : Addr) (fs : List Addr) (m : Memory) : Layout → Memory
  | .doubleHash =>
      let m := set (.hiF1 b) (0 : Tag) (set (.hiF2 b) (0 : Tag) m)
      set (.ctr b 2) (0 : BitVec 32) <| set (.ctr b 1) (0 : BitVec 32) <|
        set (.ctr b 0) (0 : BitVec 32) m
  | .linkedList =>
      let m := set (.flows b) (some f) (calloc f m)
      let m := set (.nodeCtr f) (0 : BitVec 32) (set (.rssHigh f) (0 : Tag) m)
      linkedListNodes f fs (set (.next f) none m)
  | .hashList =>
      let m := set (.hiF1 b) (0 : Tag) (set (.hiF2 b) (0 : Tag) m)
      let m := set (.ctr b 1) (0 : BitVec 32) (set (.ctr b 0) (0 : BitVec 32) m)
      hashListNodes f fs (set (.flows b) (some f) (calloc f m))

/-- The memory after `port_init` has done its work for the buckets `bs`. Every `rte_calloc`
succeeds, the `j`-th one for bucket `b` with the address `addr (b, j)`. -/
def Layout.initBuckets (L : Layout) (addr : Bucket × Nat ↪ Addr) (bs : List Bucket) : Memory :=
  bs.foldl
    (fun m b =>
      L.initBucket b (addr (b, 0)) ((List.range (L.entryPerFlow - 1)).map fun j => addr (b, j + 1)) m)
    Field.zero

/-- The memory after `port_init`. -/
def Layout.portInit (L : Layout) (addr : Bucket × Nat ↪ Addr) : Memory :=
  L.initBuckets addr (List.finRange flowNum)

def Layout.initNodes (L : Layout) (addr : Bucket × Nat ↪ Addr) (b : Bucket) : List Addr :=
  (List.range L.entryPerFlow).map fun j => addr (b, j)

variable {ι : Type}

/-- The workers are launched behind `port_init`, worker `w` to process the packets `ps w`. -/
def Layout.launch (L : Layout) (addr : Bucket × Nat ↪ Addr) (ps : ι → List Hash) :
    State ι Addr Label Field.Val where
  code w := .goto (.packet none (ps w))
  mem := L.portInit addr
  used := (List.finRange flowNum).flatMap (L.initNodes addr)

def Layout.step [DecidableEq ι] (L : Layout) :
    State ι Addr Label Field.Val → ι × Addr → Option (State ι Addr Label Field.Val) :=
  Shared.step Field.zero Field.site L.code

end Heap
end RunToCompletion
end FloWatcher
