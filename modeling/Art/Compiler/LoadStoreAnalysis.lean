import Art.Compiler.ValueRange

/-! # Array elements in load-store analysis

`HeapLocationCollector::CanArrayElementsAlias` of `compiler/optimizing/load_store_analysis.cc`: whether
two accesses of the same array, each of one element or of a vector of them, may touch a common element.
Instructions are those of bounds check elimination. -/

namespace Art.Lsa
open Lib Bce

def isCommutative : BinaryOp → Bool
  | .add | .mul | .and => true
  | _ => false

def isConstant : HInstruction → Bool
  | .intConstant _ | .longConstant _ => true
  | _ => false

def getConstantRight (op : BinaryOp) (left right : HInstruction) : Option HInstruction :=
  if isConstant right then some right
  else if isCommutative op && isConstant left then some left
  else none

def getLeastConstantLeft (op : BinaryOp) (left right : HInstruction) : Option HInstruction :=
  match getConstantRight op left right with
  | none => none
  | some c => if c = left then some right else some left

def canIntegerRangesOverlap (l1 h1 l2 h2 : Int) : Bool := max l1 l2 ≤ min h1 h2

def lastElement (l : Int) (vectorLength : Nat) : Int := wrap 63 (l + (vectorLength - 1))

/-- The signed constant that an addition or subtraction adds; the negation is one of `int32_t`. -/
def addedConstant (op : BinaryOp) (value : Int) : Int := if op = .add then value else wrap 31 (-value)

def canBinaryOpAndIndexAlias (op : BinaryOp) (left right : HInstruction) (vectorLength1 : Nat) (idx2 : HInstruction)
    (vectorLength2 : Nat) : Bool :=
  if ¬(op = .add ∨ op = .sub) then true
  else if getLeastConstantLeft op left right ≠ some idx2 then true
  else match (getConstantRight op left right).bind HInstruction.asIntConstant with
    | none => true
    | some value =>
      let l1 := addedConstant op value
      canIntegerRangesOverlap l1 (lastElement l1 vectorLength1) 0 (lastElement 0 vectorLength2)

def canBinaryOpsAlias (op1 : BinaryOp) (left1 right1 : HInstruction) (vectorLength1 : Nat) (op2 : BinaryOp)
    (left2 right2 : HInstruction) (vectorLength2 : Nat) : Bool :=
  if ¬(op1 = .add ∨ op1 = .sub) ∨ ¬(op2 = .add ∨ op2 = .sub) then true
  else if getLeastConstantLeft op1 left1 right1 ≠ getLeastConstantLeft op2 left2 right2 then true
  else match (getConstantRight op1 left1 right1).bind HInstruction.asIntConstant,
      (getConstantRight op2 left2 right2).bind HInstruction.asIntConstant with
    | some value1, some value2 =>
      let l1 := addedConstant op1 value1
      let l2 := addedConstant op2 value2
      canIntegerRangesOverlap l1 (lastElement l1 vectorLength1) l2 (lastElement l2 vectorLength2)
    | _, _ => true

/-- The operation and the operands of a binary operation with a constant operand. -/
def asConstantOp : HInstruction → Option (BinaryOp × HInstruction × HInstruction)
  | .binary _ op _ left right => if (getConstantRight op left right).isSome then some (op, left, right) else none
  | _ => none

def canArrayElementsAlias (idx1 : HInstruction) (vectorLength1 : Nat) (idx2 : HInstruction) (vectorLength2 : Nat) :
    Bool :=
  if idx1 = idx2 then true
  else match idx1.asIntConstant, idx2.asIntConstant with
    | some l1, some l2 =>
      canIntegerRangesOverlap l1 (lastElement l1 vectorLength1) l2 (lastElement l2 vectorLength2)
    | _, _ =>
      match asConstantOp idx1, asConstantOp idx2 with
      | some (op1, left1, right1), second =>
        -- [i+CONST] and [i].
        if getLeastConstantLeft op1 left1 right1 = some idx2 then
          canBinaryOpAndIndexAlias op1 left1 right1 vectorLength1 idx2 vectorLength2
        else match second with
          | some (op2, left2, right2) =>
            -- [i] and [i+CONST].
            if getLeastConstantLeft op2 left2 right2 = some idx1 then
              canBinaryOpAndIndexAlias op2 left2 right2 vectorLength2 idx1 vectorLength1
            else canBinaryOpsAlias op1 left1 right1 vectorLength1 op2 left2 right2 vectorLength2
          | none => true
      | none, some (op2, left2, right2) =>
        if getLeastConstantLeft op2 left2 right2 = some idx1 then
          canBinaryOpAndIndexAlias op2 left2 right2 vectorLength2 idx1 vectorLength1
        else true
      | none, none => true

end Art.Lsa
