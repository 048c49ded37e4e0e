import Mathlib.Logic.Basic

/-! The recognition of rotates in `instruction_simplifier.cc`: `(x >>> a) op (x << b)` becomes an `HRor`. -/

namespace Art.InstructionSimplifier

/-- The types that a shift may have. -/
inductive IntType
  | int32
  | int64
  deriving DecidableEq, Repr

def IntType.regBits : IntType → Nat
  | int32 => 32
  | int64 => 64

/-- The instructions that the patterns look at; `other` stands for all the rest. -/
inductive Instruction (ι : Type)
  | intConstant (value : BitVec 32)
  | longConstant (value : BitVec 64)
  | neg (type : IntType) (input : ι)
  | sub (type : IntType) (left right : ι)
  | shl (type : IntType) (value distance : ι)
  | ushr (type : IntType) (value distance : ι)
  | other (type : IntType)
  deriving DecidableEq, Repr

namespace Instruction

variable {ι : Type}

def type : Instruction ι → IntType
  | intConstant _ => .int32
  | longConstant _ => .int64
  | neg type _ | sub type _ _ | shl type _ _ | ushr type _ _ | other type => type

def int64FromConstant : Instruction ι → Option (BitVec 64)
  | intConstant value => some (value.signExtend 64)
  | longConstant value => some value
  | _ => none

/-- An operation has operands of its own type, and a shift distance is of type `int32`. -/
def Typed (typeOf : ι → IntType) : Instruction ι → Prop
  | neg type input => typeOf input = type
  | sub type left right => typeOf left = type ∧ typeOf right = type
  | shl type value distance | ushr type value distance => typeOf value = type ∧ typeOf distance = .int32
  | intConstant _ | longConstant _ | other _ => True

end Instruction

/-- Instructions by their identity. -/
structure Graph (ι : Type) where
  instruction : ι → Instruction ι
  typed : ∀ i, (instruction i).Typed fun input => (instruction input).type

/-- The operations that `TryReplaceWithRotate` looks at. -/
inductive BinaryOperation
  | add
  | xor
  | or
  deriving DecidableEq, Repr

/-- An `HShl` or an `HUShr`, with its value and its distance. -/
structure Shift (ι : Type) where
  type : IntType
  left : ι
  right : ι
  deriving DecidableEq, Repr

/-- The `HRor` that replaces the operation. -/
structure Ror (ι : Type) where
  type : IntType
  value : ι
  distance : ι
  deriving DecidableEq, Repr

section Patterns

variable {ι : Type} [DecidableEq ι] (graph : Graph ι)

/-- The low bits of a distance, which are all that a shift looks at. -/
def maskedBits (type : IntType) (distance : BitVec 64) : BitVec 64 := distance &&& BitVec.ofNat 64 (type.regBits - 1)

def isSubRegBitsMinusOther (instruction : Instruction ι) (type : IntType) (other : ι) : Bool :=
  match instruction with
  | .sub _ left right =>
    right == other && ((graph.instruction left).int64FromConstant.any fun value => maskedBits type value == 0)
  | _ => false

def replaceRotateWithRor (ushr : Shift ι) : Ror ι := ⟨ushr.type, ushr.left, ushr.right⟩

def tryReplaceWithRotateConstantPattern (ushr : Shift ι) (rdist ldist : BitVec 64) : Option (Ror ι) :=
  if maskedBits ushr.type (ldist + rdist) = 0 then some (replaceRotateWithRor ushr) else none

/-- The source returns `false` here also when it has replaced the operation. -/
def tryReplaceWithRotateRegisterNegPattern (ushr shl : Shift ι) : Option (Ror ι) :=
  match graph.instruction shl.right, graph.instruction ushr.right with
  | .neg _ input, _ => if input = ushr.right then some (replaceRotateWithRor ushr) else none
  | _, .neg _ input => if input = shl.right then some (replaceRotateWithRor ushr) else none
  | _, _ => none

def tryReplaceWithRotateRegisterSubPattern (ushr shl : Shift ι) : Option (Ror ι) :=
  if isSubRegBitsMinusOther graph (graph.instruction shl.right) ushr.type ushr.right = true ∨
      isSubRegBitsMinusOther graph (graph.instruction ushr.right) ushr.type shl.right = true then
    some (replaceRotateWithRor ushr)
  else none

def tryReplaceShifts (ushr shl : Shift ι) : Option (Ror ι) :=
  if ushr.type = shl.type ∧ ushr.left = shl.left then
    let ushrRight := graph.instruction ushr.right
    let shlRight := graph.instruction shl.right
    match ushrRight.int64FromConstant, shlRight.int64FromConstant with
    | some rdist, some ldist => tryReplaceWithRotateConstantPattern ushr rdist ldist
    | _, _ =>
      if (ushrRight matches .sub ..) ∨ (shlRight matches .sub ..) then
        tryReplaceWithRotateRegisterSubPattern graph ushr shl
      else if (ushrRight matches .neg ..) ∨ (shlRight matches .neg ..) then
        tryReplaceWithRotateRegisterNegPattern graph ushr shl
      else none
  else none

def tryReplaceWithRotate (left right : ι) : Option (Ror ι) :=
  match graph.instruction left, graph.instruction right with
  | .ushr type value distance, .shl type' value' distance' =>
    tryReplaceShifts graph ⟨type, value, distance⟩ ⟨type', value', distance'⟩
  | .shl type value distance, .ushr type' value' distance' =>
    tryReplaceShifts graph ⟨type', value', distance'⟩ ⟨type, value, distance⟩
  | _, _ => none

end Patterns

end Art.InstructionSimplifier
