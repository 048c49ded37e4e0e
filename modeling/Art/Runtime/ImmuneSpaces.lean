import Mathlib.Data.List.Sort
import Mathlib.Data.Prod.Lex
import Mathlib.Algebra.Group.Nat.Defs

/-! # Immune spaces

`runtime/gc/collector/immune_spaces.cc`: the largest region of adjacent immune spaces and oat files. -/

namespace Art.Gc.ImmuneSpaces

def kElfSegmentAlignment : Nat := 4096

def roundUp (x n : Nat) : Nat := (x + n - 1) / n * n

/-- The addresses from `start` to before `stop`. -/
structure Interval where
  start : Nat
  stop : Nat
  isHeap : Bool
  deriving DecidableEq

/-- `Begin()` checks that the file has an address. -/
structure OatFile where
  start : Nat
  stop : Nat
  start_ne_zero : start ≠ 0

/-- The part of an image space that is not in the space's own bounds. -/
structure ImageSpace where
  imageEnd : Nat
  oatFile : Option OatFile

/-- A space with its bounds; an image space has an image. -/
structure ContinuousSpace where
  start : Nat
  limit : Nat
  image : Option ImageSpace

/-- The oat file's interval goes before that of its space, whose end then includes the non-heap sections. -/
def ContinuousSpace.intervals (space : ContinuousSpace) : List Interval :=
  match space.image with
  | none => [⟨space.start, space.limit, true⟩]
  | some image =>
    (image.oatFile.toList.map fun oat => ⟨oat.start, oat.stop, false⟩) ++
      [⟨space.start, roundUp image.imageEnd kElfSegmentAlignment, true⟩]

def intervals (spaces : List ContinuousSpace) : List Interval := spaces.flatMap (·.intervals)

/-- The order of the tuples. -/
def Interval.le (a b : Interval) : Prop :=
  toLex (a.start, toLex (a.stop, a.isHeap)) ≤ toLex (b.start, toLex (b.stop, b.isHeap))

instance : DecidableRel Interval.le := fun _ _ => inferInstanceAs (Decidable (toLex _ ≤ toLex _))

/-- The variables of `CreateLargestImmuneRegion`. -/
structure Regions where
  bestBegin : Nat := 0
  bestEnd : Nat := 0
  bestHeapSize : Nat := 0
  curBegin : Nat := 0
  curEnd : Nat := 0
  curHeapSize : Nat := 0

namespace Regions

def extend (s : Regions) (i : Interval) : Regions :=
  let s := { s with curEnd := i.stop }
  if i.isHeap then
    let s := { s with curHeapSize := (s.curHeapSize + (i.stop - i.start)) % 2 ^ 64 }
    if s.curHeapSize > s.bestHeapSize then
      { s with bestBegin := s.curBegin, bestEnd := s.curEnd, bestHeapSize := s.curHeapSize }
    else s
  else s

/-- A region never starts with an oat file. -/
def visit (s : Regions) (i : Interval) : Regions :=
  if i.start ≠ s.curEnd then
    if i.isHeap then extend { s with curBegin := i.start, curHeapSize := 0 } i else s
  else extend s i

end Regions

/-- The bounds of `largest_immune_region_`. -/
def createLargestImmuneRegion (spaces : List ContinuousSpace) : Nat × Nat :=
  let s := ((intervals spaces).insertionSort Interval.le).foldl Regions.visit {}
  (s.bestBegin, s.bestEnd)

end Art.Gc.ImmuneSpaces
