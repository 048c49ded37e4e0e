import Art.Lib.OrderedMap
import Mathlib.Logic.Function.Basic

/-! The pages of the runs-of-slots allocator (`gc/allocator/rosalloc.cc`). Addresses are indices of pages from the base
    of the space, and sizes are counted in pages; the source counts both in bytes that are multiples of the
    page size. -/

namespace Art.RosAlloc

/-- The kinds of a page of the page map. -/
inductive PageMapKind
  | released
  | empty
  | run
  | runPart
  | largeObject
  | largeObjectPart
  deriving DecidableEq, Repr

/-- What pages are allocated for. -/
inductive PageMapType
  | run
  | largeObject
  deriving DecidableEq, Repr

namespace PageMapType

def first : PageMapType → PageMapKind
  | run => .run
  | largeObject => .largeObject

def part : PageMapType → PageMapKind
  | run => .runPart
  | largeObject => .largeObjectPart

end PageMapType

def PageMapKind.isFreePage : PageMapKind → Bool
  | released | empty => true
  | _ => false

/-- When the pages of a freed run are released. -/
inductive PageReleaseMode
  | none
  | atEnd
  | size
  | sizeAndEnd
  | all
  deriving DecidableEq, Repr

/-- The constants of the allocator. -/
structure Config where
  /-- The number of sizes in pages that `size_t` has, for a size in bytes. -/
  maxPages : Nat
  /-- The pages of two megabytes. -/
  growth : Nat
  pageReleaseMode : PageReleaseMode
  pageReleaseSizeThreshold : Nat
  maxPages_pos : 0 < maxPages
  growth_pos : 0 < growth

/-- The pages of the allocator. -/
structure State where
  footprint : Nat
  capacity : Nat
  pageMap : Nat → PageMapKind
  pageMapSize : Nat
  /-- The free page runs, ordered by address. -/
  freePageRuns : Lib.OrderedSet Nat
  freePageRunSizeMap : Nat → Nat

namespace State

variable (cfg : Config) (s : State)

def size (fpr : Nat) : Nat := s.freePageRunSizeMap fpr

def runEnd (fpr : Nat) : Nat := fpr + s.size fpr

def setSize (fpr size : Nat) : State := { s with freePageRunSizeMap := Function.update s.freePageRunSizeMap fpr size }

def erase (fpr : Nat) : State := { s with freePageRuns := s.freePageRuns.erase fpr }

def insert (fpr : Nat) : State := { s with freePageRuns := Lib.OrderedSet.insert s.freePageRuns fpr }

def init (capacity : Nat) : State where
  footprint := capacity
  capacity
  pageMap _ := .released
  pageMapSize := capacity
  freePageRuns := Lib.OrderedSet.insert Lib.OrderedMap.empty 0
  freePageRunSizeMap := Function.update (fun _ => 0) 0 capacity

def takeRun (fpr req : Nat) : State :=
  let fprSize := s.size fpr
  let s := s.erase fpr
  if req < fprSize then ((s.setSize (fpr + req) (fprSize - req)).insert (fpr + req)).setSize fpr req else s

def findRun (req : Nat) : Option Nat := s.freePageRuns.keys.find? fun fpr => decide (req ≤ s.size fpr)

def lastRun : Option Nat :=
  match s.freePageRuns.keys.getLast? with
  | some last => if s.runEnd last = s.footprint then some last else none
  | none => none

/-- `ArtRosAllocMoreCore` and what goes with it. -/
def grow (increment : Nat) : State :=
  let newFootprint := s.footprint + increment
  let s' := { s with pageMapSize := newFootprint }
  let s' := (match s.lastRun with
    | some last => s'.setSize last (s.size last + increment)
    | none => (s'.setSize s.footprint increment).insert s.footprint)
  { s' with footprint := newFootprint }

def markPages (first numPages : Nat) (type : PageMapType) : State :=
  { s with pageMap := fun idx =>
      if idx = first then type.first
      else if first < idx ∧ idx < first + numPages then type.part
      else s.pageMap idx }

/-- `AllocPages`. The size in bytes is a `size_t`. -/
def allocPages (numPages : Nat) (type : PageMapType) : State × Option Nat :=
  let req := numPages % cfg.maxPages
  match s.findRun req with
  | some fpr => ((s.takeRun fpr req).markPages fpr numPages type, some fpr)
  | none =>
    if s.capacity > s.footprint then
      let lastSize := (s.lastRun.map s.size).getD 0
      if s.capacity - s.footprint + lastSize ≥ req then
        let s := s.grow (min (max cfg.growth (req - lastSize)) (s.capacity - s.footprint))
        match s.freePageRuns.keys.getLast? with
        | some fpr => ((s.takeRun fpr req).markPages fpr numPages type, some fpr)
        | none => (s, none)
      else (s, none)
    else (s, none)

/-- The end of the pages from `idx` on that are marked as a part of this type. -/
def partEnd (part : PageMapKind) : Nat → Nat → Nat
  | 0, idx => idx
  | fuel + 1, idx => if idx < s.pageMapSize ∧ s.pageMap idx = part then partEnd part fuel (idx + 1) else idx

/-- Merges the free page runs above `fpr` into it. -/
def coalesceHigher (fpr : Nat) : Nat → State → State
  | 0, s => s
  | fuel + 1, s =>
    match s.freePageRuns.keys.find? (fpr < ·) with
    | none => s
    | some h =>
      if s.runEnd fpr = h then coalesceHigher fpr fuel ((s.erase h).setSize fpr (s.size fpr + s.size h))
      else s

/-- Merges `fpr` into the free page runs below it, and returns the lowest one. -/
def coalesceLower : Nat → State → Nat → State × Nat
  | 0, s, fpr => (s, fpr)
  | fuel + 1, s, fpr =>
    match s.freePageRuns.keys.reverse.find? (· ≤ fpr) with
    | none => (s, fpr)
    | some l =>
      if s.runEnd l = fpr then coalesceLower fuel ((s.erase l).setSize l (s.size l + s.size fpr)) l
      else (s, fpr)

def shouldReleasePages (fpr : Nat) : Bool :=
  match cfg.pageReleaseMode with
  | .none => false
  | .atEnd => s.runEnd fpr == s.footprint
  | .size => decide (s.size fpr ≥ cfg.pageReleaseSizeThreshold)
  | .sizeAndEnd => decide (s.size fpr ≥ cfg.pageReleaseSizeThreshold) && s.runEnd fpr == s.footprint
  | .all => true

/-- `ReleasePages` with `ReleasePageRange`. -/
def releasePages (fpr : Nat) : State :=
  if s.shouldReleasePages cfg fpr then
    { s with pageMap := fun idx =>
        if fpr ≤ idx ∧ idx < s.runEnd fpr ∧ s.pageMap idx = .empty then .released else s.pageMap idx }
  else s

/-- `FreePages` of pages of this type, with the number of pages. -/
def freePagesOf (ptr : Nat) (type : PageMapType) : State × Nat :=
  let last := s.partEnd type.part (s.pageMapSize - (ptr + 1)) (ptr + 1)
  let numPages := last - ptr
  let s := { s with pageMap := fun idx => if ptr ≤ idx ∧ idx < last then .empty else s.pageMap idx }
  let s := s.setSize ptr numPages
  let s := coalesceHigher ptr s.freePageRuns.size s
  let (s, fpr) := coalesceLower s.freePageRuns.size s ptr
  ((s.releasePages cfg fpr).insert fpr, numPages)

/-- `FreePages`: `none` where the source does not return. -/
def freePages (ptr : Nat) : Option (State × Nat) :=
  match s.pageMap ptr with
  | .run => some (s.freePagesOf cfg ptr .run)
  | .largeObject => some (s.freePagesOf cfg ptr .largeObject)
  | _ => none

/-- `SetFootprintLimit`, up to the maximal capacity. -/
def setFootprintLimit (newCapacity : Nat) : State :=
  if s.capacity < newCapacity then { s with capacity := newCapacity } else s

def trim : State × Bool :=
  match s.lastRun with
  | some last =>
    let newFootprint := s.footprint - s.size last
    ({ s.erase last with
        footprint := newFootprint, pageMapSize := newFootprint
        pageMap := fun idx => if newFootprint ≤ idx then .released else s.pageMap idx }, true)
  | none => (s, false)

end State

end Art.RosAlloc
