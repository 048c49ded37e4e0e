import Art.Compiler.ValueRange

/-! # The arithmetic rules of `BCEVisitor`

The ranges that `BCEVisitor` assigns while it walks over a block: remainders (`VisitRem`, and the
`i - (i / c) * c` form of `TryToAssignRangeIfOptimizedRemWithConstantDivisor`), additions and
subtractions (`VisitAdd`, `VisitSub`), quotients and shifts of array lengths, masks, allocations, and the
dominator-based part of `VisitBoundsCheck`. -/

namespace Art.Bce
open Lib

/-- The ranges known in one block, the latest assignment of an instruction first. -/
abbrev RangeMap := List (HInstruction × ValueRange)

/-- The range maps that the visitor sees: of the visited block, and of its dominators from the
    immediate one up to the entry. -/
structure Scope where
  block : RangeMap
  dominators : List RangeMap

namespace Scope

def lookupValueRange (s : Scope) (i : HInstruction) : Option ValueRange :=
  (s.block :: s.dominators).findSome? (·.lookup i)

def assignRange (s : Scope) (i : HInstruction) (r : ValueRange) : Scope :=
  { s with block := (i, r) :: s.block }

@[simp] theorem lookupValueRange_assignRange (s : Scope) (i : HInstruction) (r : ValueRange) :
    (s.assignRange i r).lookupValueRange i = some r := by
  simp [assignRange, lookupValueRange]

end Scope

def narrowByLeft (range : ValueRange) (leftRange : Option ValueRange) : ValueRange :=
  match leftRange with
  | some r => range.narrow r
  | none => range

/-- The range that `VisitRem` assigns to a remainder by `right`, given the range of the dividend. -/
def remRange (right : HInstruction) (leftRange : Option ValueRange) : Option ValueRange :=
  match right.asIntConstant with
  | some c =>
    let rightConst := wrap 31 |c|
    if rightConst = 0 then none
    else some (narrowByLeft
      ⟨.make none (wrap 31 (1 - rightConst)), .make none (wrap 31 (rightConst - 1)), false⟩ leftRange)
  | none =>
    let divisor := match right with
      | .divZeroCheck _ input => input
      | i => i
    if divisor.isArrayLength then
      some (narrowByLeft ⟨.min, .make (some divisor) (-1), false⟩ leftRange)
    else none

/-- `is_needed_shl`: a division shifted by a constant; gives the division and the distance. -/
def neededShl : HInstruction → Option (HInstruction × Int)
  | .binary _ .shl _ left right =>
    match left with
    | .binary _ .div _ _ _ => right.asIntConstant.map fun n => (left, n)
    | _ => none
  | _ => none

def shl64 (n : Int) : Int := wrap 63 (2 ^ (n % 64).toNat)

/-- The division and the constant it is multiplied by in the right operand of the subtraction: a
    product, `q + (q << n)` or `(q << n) - q`. -/
def mulOfDiv : HInstruction → Option (HInstruction × Int)
  | .binary _ .mul _ left right =>
    match left with
    | .binary _ .div _ _ _ => right.asInt64.map fun c => (left, c)
    | _ => none
  | .binary _ .add _ left right =>
    match neededShl right with
    | some (div, n) => if left = div ∧ n ≠ 31 then some (div, wrap 63 (shl64 n + 1)) else none
    | none => none
  | .binary _ .sub _ left right =>
    match neededShl left with
    | some (div, n) => if right = div then some (div, wrap 63 (shl64 n - 1)) else none
    | none => none
  | _ => none

def optimizedRemDivisor : HInstruction → Option Int
  | .binary _ .sub .int32 left right =>
    match mulOfDiv right with
    | some (.binary _ .div _ divLeft divRight, c) =>
      if divRight.asInt64 = some c ∧ divLeft = left then some c else none
    | _ => none
  | _ => none

/-- The range of an optimized `HRem` before it meets the range of the dividend. -/
def optimizedRemRange (constDivisor : Int) : ValueRange :=
  if constDivisor = int32Min then ⟨.make none (int32Min + 1), .make none int32Max, false⟩
  else
    let absConstDivisor := wrap 31 |constDivisor|
    ⟨.make none (1 - absConstDivisor), .make none (absConstDivisor - 1), false⟩

def addOrSubConstants (leftSoFar : Option HInstruction) (rightSoFar : Int) : HInstruction → Option HInstruction × Int
  | .binary _ .add _ left right =>
    match right.asIntConstant with
    | some v =>
      if ValueBound.wouldAddOverflowOrUnderflow rightSoFar v then (leftSoFar, rightSoFar)
      else addOrSubConstants (some left) (rightSoFar + v) left
    | none => (leftSoFar, rightSoFar)
  | .binary _ .sub _ left right =>
    match right.asIntConstant with
    | some v =>
      let c := wrap 31 (-v)
      if ValueBound.wouldAddOverflowOrUnderflow rightSoFar c then (leftSoFar, rightSoFar)
      else addOrSubConstants (some left) (rightSoFar + c) left
    | none => (leftSoFar, rightSoFar)
  | _ => (leftSoFar, rightSoFar)

def isAddOrSubAConstant (i : HInstruction) : Option (HInstruction × Int) :=
  match addOrSubConstants none 0 i with
  | (some left, c) => some (left, c)
  | (none, _) => none

namespace Scope

def visitRem (s : Scope) (i : HInstruction) : Scope :=
  match i with
  | .binary _ .rem _ left right =>
    match remRange right (s.lookupValueRange left) with
    | some r => s.assignRange i r
    | none => s
  | _ => s

/-- `TryToAssignRangeIfOptimizedRemWithConstantDivisor`; `none` when no range is assigned. -/
def tryToAssignRangeIfOptimizedRemWithConstantDivisor (s : Scope) (i : HInstruction) : Option Scope :=
  match i, optimizedRemDivisor i with
  | .binary _ _ _ left _, some c =>
    some (s.assignRange i (narrowByLeft (optimizedRemRange c) (s.lookupValueRange left)))
  | _, _ => none

def visitAdd (s : Scope) (i : HInstruction) : Scope :=
  match i with
  | .binary _ .add _ left right =>
    match right.asIntConstant, s.lookupValueRange left with
    | some c, some leftRange =>
      match leftRange.add c with
      | some r => s.assignRange i r
      | none => s
    | _, _ => s
  | _ => s

/-- The triangular case of `VisitSub`: `array.length + c0 - v` for `v` in `[c1, array.length + c2]`. -/
def visitTriangularSub (s : Scope) (i left right : HInstruction) : Scope :=
  let (left, rightConst) := (isAddOrSubAConstant left).getD (left, 0)
  if left.isArrayLength then
    match s.lookupValueRange right with
    | some rightRange =>
      let lower := rightRange.lower
      let upper := rightRange.upper
      if lower.isConstant ∧ upper.isRelatedToArrayLength ∧ ValueBound.equal (some left) upper.instruction then
        if ¬ValueBound.wouldAddOverflowOrUnderflow rightConst (wrap 31 (-upper.constant)) ∧
            ¬ValueBound.wouldAddOverflowOrUnderflow rightConst (wrap 31 (-lower.constant)) ∧
            wrap 31 (rightConst - lower.constant) ≤ 0 then
          s.assignRange i ⟨.make none (wrap 31 (rightConst - upper.constant)),
            .make (some left) (wrap 31 (rightConst - lower.constant)), false⟩
        else s
      else s
    | none => s
  else s

def visitSub (s : Scope) (i : HInstruction) : Scope :=
  match s.tryToAssignRangeIfOptimizedRemWithConstantDivisor i with
  | some s => s
  | none =>
    match i with
    | .binary _ .sub _ left right =>
      match right.asIntConstant with
      | some c =>
        match s.lookupValueRange left with
        | none => s
        | some leftRange =>
          match leftRange.add (wrap 31 (-c)) with
          | some r => s.assignRange i r
          | none => s.visitTriangularSub i left right
      | none => s.visitTriangularSub i left right
    | _ => s

def findAndHandlePartialArrayLength (s : Scope) (i : HInstruction) : Scope :=
  match i with
  | .binary _ op _ left right =>
    match right.asIntConstant with
    | some rightConst =>
      if op = .div ∧ rightConst ≤ 1 ∨ op = .shr ∧ rightConst < 1 ∨ op = .ushr ∧ rightConst < 1 then s
      else
        let (left, c) := (isAddOrSubAConstant left).getD (left, 0)
        if left.isArrayLength ∧ c ≤ 1 then
          -- The left side of an unsigned shift must not be negative.
          if op = .ushr ∧ c < 0 then s
          else s.assignRange i ⟨.make none int32Min, .make (some left) 0, false⟩
        else s
    | none => s
  | _ => s

def visitAnd (s : Scope) (i : HInstruction) : Scope :=
  match i with
  | .binary _ .and _ _ right =>
    match right.asIntConstant with
    | some constant => if constant > 0 then s.assignRange i ⟨.make none 0, .make none constant, false⟩ else s
    | none => s
  | _ => s

/-- `VisitNewArray`. A range found for the length operand may be monotonic: `monotonic` gives what such a
    range keeps of its induction variable. -/
def visitNewArray (s : Scope) (monotonic : HInstruction → MonotonicValueRange) (i : HInstruction) : Scope :=
  match i with
  | .newArray _ length =>
    if length.asIntConstant.isSome then s
    else match isAddOrSubAConstant length with
      | some (left, rightConst) =>
        let range : ValueRange := ⟨.make none (wrap 31 (-rightConst)), .make (some i) (wrap 31 (-rightConst)), false⟩
        s.assignRange left <| match s.lookupValueRange left with
          | some existing => if existing.monotonic then (monotonic left).narrow range else existing.narrow range
          | none => range
      | none => s
  | _ => s

/-- `array_range` of `VisitBoundsCheck`: from 0 to the array length less one. -/
def arrayRange (arrayLength : HInstruction) : ValueRange :=
  ⟨.make none 0, .make (some arrayLength) (-1), false⟩

def removesBoundsCheck (s : Scope) (index arrayLength : HInstruction) : Bool :=
  match s.lookupValueRange index with
  | some indexRange =>
    if indexRange.fitsIn (arrayRange arrayLength) then true
    else if indexRange.isConstantValueRange then
      -- One more attempt, with a constant in the range of the array length.
      match s.lookupValueRange arrayLength with
      | some existing =>
        existing.isConstantValueRange && existing.lower.constant > 0 &&
          indexRange.fitsIn ⟨.make none 0, .make none (existing.lower.constant - 1), false⟩
      | none => false
    else false
  | none => false

end Scope

end Art.Bce
