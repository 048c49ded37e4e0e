import Art.Lib.OrderedMap
import Mathlib.Logic.Function.Basic

/-! The slots of the runs-of-slots allocator (`gc/allocator/rosalloc.cc`, `rosalloc.h`). A `Slot*` is a number: zero is
    null, and the slots of a run are numbered from one on. The first word of a slot is its `next` pointer while the slot
    is on a list, and belongs to the mutator while it is not. A run is known by its address; the run
    `dedicated_full_run_`, which never has a slot, is `none`. -/

namespace Art.RosAllocRuns

/-! ### Free lists -/

/-- A free list by its ends; the slots themselves hold the links. -/
structure SlotFreeList where
  head : Nat
  tail : Nat
  size : Nat
  deriving DecidableEq, Repr

namespace SlotFreeList

def empty : SlotFreeList := ⟨0, 0, 0⟩

variable (useTail : Bool) (next : Nat → Nat) (list : SlotFreeList)

/-- The slot removed, or null, with the memory and the list after it. -/
def remove : Nat × (Nat → Nat) × SlotFreeList :=
  if list.head = 0 then (0, next, list)
  else
    let oldHeadNext := next list.head
    (list.head, Function.update next list.head 0,
      { head := oldHeadNext
        tail := if useTail && oldHeadNext = 0 then 0 else list.tail
        size := list.size - 1 })

def add (slot : Nat) : (Nat → Nat) × SlotFreeList :=
  if list.head = 0 then
    (next, { head := slot, tail := if useTail then slot else list.tail, size := list.size + 1 })
  else (Function.update next slot list.head, { list with head := slot, size := list.size + 1 })

/-- `Merge`: `other` goes in front, and is empty then. -/
def merge (other : SlotFreeList) : (Nat → Nat) × SlotFreeList × SlotFreeList :=
  if other.size = 0 then (next, list, other)
  else if list.head = 0 then
    (next, { head := other.head, tail := if useTail then other.tail else list.tail, size := other.size }, empty)
  else
    (Function.update next other.tail list.head, { list with head := other.head, size := list.size + other.size }, empty)

end SlotFreeList

/-! ### Runs -/

/-- The size brackets. -/
structure Config where
  numOfSlots : Nat → Nat
  kNumThreadLocalSizeBrackets : Nat
  numOfSlots_pos : ∀ idx, 0 < numOfSlots idx

/-- A run: the links of its slots and its free lists. -/
structure Run where
  sizeBracketIdx : Nat
  isThreadLocal : Bool
  next : Nat → Nat
  freeList : SlotFreeList
  bulkFreeList : SlotFreeList
  threadLocalFreeList : SlotFreeList

namespace Run

variable (cfg : Config) (run : Run)

def isFull : Bool := run.freeList.size = 0

def isAllFree : Bool := run.freeList.size = cfg.numOfSlots run.sizeBracketIdx

def setIsThreadLocal (isThreadLocal : Bool) : Run := { run with isThreadLocal }

/-- `InitFreeList`, over the slots from the last one down. -/
def initFreeList : Nat → Run → Run
  | 0, run => run
  | slot + 1, run =>
    let (next, freeList) := run.freeList.add false run.next (slot + 1)
    initFreeList slot { run with next, freeList }

/-- The run made of zeroed pages. -/
def allocated (idx : Nat) : Run :=
  initFreeList (cfg.numOfSlots idx)
    { sizeBracketIdx := idx, isThreadLocal := false, next := fun _ => 0, freeList := .empty, bulkFreeList := .empty,
      threadLocalFreeList := .empty }

def allocSlot : Nat × Run :=
  let (slot, next, freeList) := run.freeList.remove false run.next
  (slot, { run with next, freeList })

def clear (slot : Nat) : Run := { run with next := Function.update run.next slot 0 }

def freeSlot (slot : Nat) : Run :=
  let run := run.clear slot
  let (next, freeList) := run.freeList.add false run.next slot
  { run with next, freeList }

def addToThreadLocalFreeList (slot : Nat) : Run :=
  let run := run.clear slot
  let (next, threadLocalFreeList) := run.threadLocalFreeList.add true run.next slot
  { run with next, threadLocalFreeList }

def addToBulkFreeList (slot : Nat) : Run :=
  let run := run.clear slot
  let (next, bulkFreeList) := run.bulkFreeList.add true run.next slot
  { run with next, bulkFreeList }

/-- Whether a slot was freed, and the run after that. -/
def mergeThreadLocalFreeListToFreeList : Bool × Run :=
  let (next, freeList, threadLocalFreeList) := run.freeList.merge false run.next run.threadLocalFreeList
  (run.freeList.size < freeList.size, { run with next, freeList, threadLocalFreeList })

def mergeBulkFreeListToFreeList : Run :=
  let (next, freeList, bulkFreeList) := run.freeList.merge false run.next run.bulkFreeList
  { run with next, freeList, bulkFreeList }

def mergeBulkFreeListToThreadLocalFreeList : Run :=
  let (next, threadLocalFreeList, bulkFreeList) := run.threadLocalFreeList.merge true run.next run.bulkFreeList
  { run with next, threadLocalFreeList, bulkFreeList }

end Run

/-! ### The allocator -/

/-- The runs of the allocator, and where each of them is kept. -/
structure State (Thread : Type) where
  /-- The runs that have pages, by address. -/
  runs : Nat → Option Run
  rosAllocRun : Thread → Nat → Option Nat
  currentRuns : Nat → Option Nat
  nonFullRuns : Nat → Lib.OrderedSet Nat
  /-- The runs that the second phase of a bulk free has still to look at. -/
  bulkFreeRuns : List Nat
  /-- The runs whose pages have been freed, as they were then. -/
  freed : List Run

namespace State

variable {Thread : Type} [DecidableEq Thread] (cfg : Config) (s : State Thread)

def init : State Thread where
  runs _ := none
  rosAllocRun _ _ := none
  currentRuns _ := none
  nonFullRuns _ := Lib.OrderedMap.empty
  bulkFreeRuns := []
  freed := []

def setRun (r : Nat) (run : Run) : State Thread := { s with runs := Function.update s.runs r (some run) }

def setRosAllocRun (self : Thread) (idx : Nat) (r : Option Nat) : State Thread :=
  { s with rosAllocRun := Function.update s.rosAllocRun self (Function.update (s.rosAllocRun self) idx r) }

def setCurrentRun (idx : Nat) (r : Option Nat) : State Thread :=
  { s with currentRuns := Function.update s.currentRuns idx r }

def insertNonFull (idx r : Nat) : State Thread :=
  { s with nonFullRuns := Function.update s.nonFullRuns idx (Lib.OrderedSet.insert (s.nonFullRuns idx) r) }

def eraseNonFull (idx r : Nat) : State Thread :=
  { s with nonFullRuns := Function.update s.nonFullRuns idx ((s.nonFullRuns idx).erase r) }

def freePages (r : Nat) (run : Run) : State Thread :=
  { s with runs := Function.update s.runs r none, freed := run :: s.freed }

/-- `RefillRun`; `pages` are those that `AllocPages` returns when it is called. -/
def refillRun (pages : Option Nat) (idx : Nat) : State Thread × Option (Nat × Run) :=
  match (s.nonFullRuns idx).keys.head? with
  | some nonFullRun => (s.eraseNonFull idx nonFullRun, (s.runs nonFullRun).map fun run => (nonFullRun, run))
  | none =>
    match pages with
    | some newRun => (s.setRun newRun (Run.allocated cfg idx), some (newRun, Run.allocated cfg idx))
    | none => (s, none)

/-- The slot that a run gives, if there is a run and it has one. -/
def allocSlotFrom (r : Option Nat) : Option (Nat × Nat) × State Thread :=
  match r with
  | none => (none, s)
  | some r =>
    match s.runs r with
    | none => (none, s)
    | some run =>
      let (slot, run) := run.allocSlot
      (if slot = 0 then none else some (r, slot), s.setRun r run)

def allocFromCurrentRunUnlocked (pages : Option Nat) (idx : Nat) : Option (Nat × Nat) × State Thread :=
  match s.allocSlotFrom (s.currentRuns idx) with
  | (some slotAddr, s) => (some slotAddr, s)
  | (none, s) =>
    match s.refillRun cfg pages idx with
    | (s, none) => (none, s.setCurrentRun idx none)
    | (s, some (r, run)) =>
      ((s.setRun r (run.setIsThreadLocal false)).setCurrentRun idx (some r)).allocSlotFrom (some r)

/-- The thread-local run has no slot: it becomes a full run, and another one is looked for. -/
def refillThreadLocal (self : Thread) (pages : Option Nat) (idx : Nat) : Option (Nat × Nat) × State Thread :=
  match s.refillRun cfg pages idx with
  | (s, none) => (none, s.setRosAllocRun self idx none)
  | (s, some (r, run)) =>
    ((s.setRun r (run.setIsThreadLocal true)).setRosAllocRun self idx (some r)).allocSlotFrom (some r)

def allocFromRun (self : Thread) (pages : Option Nat) (idx : Nat) : Option (Nat × Nat) × State Thread :=
  if idx < cfg.kNumThreadLocalSizeBrackets then
    match s.allocSlotFrom (s.rosAllocRun self idx) with
    | (some slotAddr, s) => (some slotAddr, s)
    | (none, s) =>
      match s.rosAllocRun self idx with
      | none => s.refillThreadLocal cfg self pages idx
      | some r =>
        match s.runs r with
        | none => (none, s)
        | some run =>
          match run.mergeThreadLocalFreeListToFreeList with
          | (true, run) => (s.setRun r run).allocSlotFrom (some r)
          | (false, run) => (s.setRun r (run.setIsThreadLocal false)).refillThreadLocal cfg self pages idx
  else s.allocFromCurrentRunUnlocked cfg pages idx

/-- The run is taken from the places where it may be, and its pages are freed. -/
def freeRun (r : Nat) (run : Run) : State Thread :=
  let idx := run.sizeBracketIdx
  let s := if r ∈ (s.nonFullRuns idx).keys then s.eraseNonFull idx r else s
  let s := if s.currentRuns idx = some r then s.setCurrentRun idx none else s
  s.freePages r run

def freeFromRun (r slot : Nat) : State Thread :=
  match s.runs r with
  | none => s
  | some run =>
    let idx := run.sizeBracketIdx
    if run.isThreadLocal then s.setRun r (run.addToThreadLocalFreeList slot)
    else
      let run := run.freeSlot slot
      let s := s.setRun r run
      if run.isAllFree cfg then s.freeRun r run
      else if s.currentRuns idx ≠ some r ∧ r ∉ (s.nonFullRuns idx).keys then s.insertNonFull idx r
      else s

/-- The first phase of `BulkFree`, for one slot. -/
def bulkFreeSlot (r slot : Nat) : State Thread :=
  match s.runs r with
  | none => s
  | some run =>
    { s.setRun r (run.addToBulkFreeList slot) with
      bulkFreeRuns := if r ∈ s.bulkFreeRuns then s.bulkFreeRuns else r :: s.bulkFreeRuns }

/-- A run that is not thread-local after the slots freed in bulk have been merged. -/
def placeBulkFreed (r : Nat) (run : Run) (runWasFull : Bool) : State Thread :=
  let idx := run.sizeBracketIdx
  if run.isAllFree cfg then
    if s.currentRuns idx = some r then s
    else
      let s := if runWasFull then s else s.eraseNonFull idx r
      s.freePages r run
  else
    if s.currentRuns idx = some r then s
    else if runWasFull then s.insertNonFull idx r
    else s

/-- The second phase of `BulkFree`, for one run. -/
def bulkFreeRun (r : Nat) : State Thread :=
  let s := { s with bulkFreeRuns := s.bulkFreeRuns.erase r }
  match s.runs r with
  | none => s
  | some run =>
    if run.isThreadLocal then s.setRun r run.mergeBulkFreeListToThreadLocalFreeList
    else
      let merged := run.mergeBulkFreeListToFreeList
      (s.setRun r merged).placeBulkFreed cfg r merged run.isFull

/-- `BulkFree` of slots of runs: its first phase, and its second one. -/
def bulkFreeMark (ptrs : List (Nat × Nat)) : State Thread := ptrs.foldl (fun s ptr => s.bulkFreeSlot ptr.1 ptr.2) s

def bulkFreeMerge : State Thread := s.bulkFreeRuns.foldl (fun s r => s.bulkFreeRun cfg r) s

def revokeRun (idx r : Nat) (run : Run) : State Thread :=
  if run.isFull then s
  else if run.isAllFree cfg then s.freePages r run
  else s.insertNonFull idx r

def revokeThreadLocalRun (thread : Thread) (idx : Nat) : State Thread :=
  match s.rosAllocRun thread idx with
  | none => s
  | some r =>
    let s := s.setRosAllocRun thread idx none
    match s.runs r with
    | none => s
    | some run =>
      let run := run.mergeThreadLocalFreeListToFreeList.2.setIsThreadLocal false
      (s.setRun r run).revokeRun cfg idx r run

def revokeThreadLocalRuns (thread : Thread) : State Thread :=
  (List.range cfg.kNumThreadLocalSizeBrackets).foldl (fun s idx => s.revokeThreadLocalRun cfg thread idx) s

def revokeCurrentRun (idx : Nat) : State Thread :=
  match s.currentRuns idx with
  | none => s
  | some r =>
    match s.runs r with
    | none => s
    | some run => (s.revokeRun cfg idx r run).setCurrentRun idx none

def revokeThreadUnsafeCurrentRuns : State Thread :=
  (List.range cfg.kNumThreadLocalSizeBrackets).foldl (fun s idx => s.revokeCurrentRun cfg idx) s

/-- The mutator writes the first word of a slot that it has. -/
def write (r slot value : Nat) : State Thread :=
  match s.runs r with
  | none => s
  | some run => s.setRun r { run with next := Function.update run.next slot value }

end State

end Art.RosAllocRuns
