import Art.Lib.Int32

/-! Induction information (`induction_var_analysis.h`): symbolic expressions for the values that an instruction has
    in the iterations of a loop, and how they are combined (`induction_var_analysis.cc`). -/

namespace Art.Induction

/-- The integral types of `DataType::Type`. -/
inductive DataType
  | bool
  | uint8
  | int8
  | uint16
  | int16
  | int32
  | int64
  deriving DecidableEq, Repr

namespace DataType

def wrap : DataType → Int → Int
  | bool, x => x % 2
  | uint8, x => x % 2 ^ 8
  | int8, x => Lib.wrap 7 x
  | uint16, x => x % 2 ^ 16
  | int16, x => Lib.wrap 15 x
  | int32, x => Lib.wrap 31 x
  | int64, x => Lib.wrap 63 x

def minValueOfIntegralType : DataType → Int
  | bool | uint8 | uint16 => 0
  | int8 => Lib.minInt 7
  | int16 => Lib.minInt 15
  | int32 => Lib.minInt 31
  | int64 => Lib.minInt 63

def maxValueOfIntegralType : DataType → Int
  | bool => 1
  | uint8 => 2 ^ 8 - 1
  | int8 => Lib.maxInt 7
  | uint16 => 2 ^ 16 - 1
  | int16 => Lib.maxInt 15
  | int32 => Lib.maxInt 31
  | int64 => Lib.maxInt 63

def implicitConversion : DataType → DataType
  | int64 => int64
  | _ => int32

end DataType

/-- What an invariant reads: a constant or another instruction. -/
inductive Fetch (ι : Type)
  | intConstant (value : Int)
  | longConstant (value : Int)
  | instruction (id : ι) (type : DataType)
  deriving DecidableEq, Repr

namespace Fetch

variable {ι : Type}

def type : Fetch ι → DataType
  | intConstant _ => .int32
  | longConstant _ => .int64
  | instruction _ type => type

def int64 : Fetch ι → Option Int
  | intConstant value | longConstant value => some value
  | instruction .. => none

end Fetch

/-- The binary operations of `InductionOp`. -/
inductive InvariantOp
  | add
  | sub
  | mul
  | div
  | rem
  | xor
  deriving DecidableEq, Repr

/-- A loop-invariant expression, of fetched instructions. -/
inductive Invariant (ι : Type)
  | fetch (f : Fetch ι)
  | op (op : InvariantOp) (a b : Invariant ι) (type : DataType)
  | neg (b : Invariant ι) (type : DataType)
  deriving DecidableEq, Repr

def Invariant.type {ι : Type} : Invariant ι → DataType
  | fetch f => f.type
  | op _ _ _ type => type
  | neg _ type => type

/-- The other classes, with what they have besides two operands. -/
inductive InductionClass (ι : Type)
  | linear
  | polynomial
  | geometricMul (fetch : Fetch ι)
  | geometricDiv (fetch : Fetch ι)
  | wrapAround
  | periodic
  deriving DecidableEq, Repr

/-- The induction of an instruction: invariant, or a class over the inductions of its operands. -/
inductive InductionInfo (ι : Type)
  | invariant (e : Invariant ι)
  | induction (inductionClass : InductionClass ι) (a b : InductionInfo ι) (type : DataType)
  deriving DecidableEq, Repr

namespace InductionInfo

variable {ι : Type}

def type : InductionInfo ι → DataType
  | invariant e => e.type
  | induction _ _ _ type => type

def isNarrowingLinear : InductionInfo ι → Bool
  | induction .linear a b type =>
    match type with
    | .uint8 | .int8 | .uint16 | .int16 => true
    | .int32 => a.type == .int64 || b.type == .int64
    | _ => false
  | _ => false

end InductionInfo

/-! ### Ranges -/

/-- A known value `a * instruction + b` of the range analysis; only the two numbers matter here. -/
structure Value where
  aConstant : Int
  bConstant : Int
  deriving DecidableEq, Repr

/-- `GetVal` of the range analysis at a place of the graph, for the minimum and for the maximum. -/
abbrev GetVal (ι : Type) := InductionInfo ι → Bool → Option Value

/-- The requests of `IsConstant`. -/
inductive ConstantRequest
  | exact
  | atMost
  | atLeast
  deriving DecidableEq, Repr

/-- A direct constant fetch, which satisfies any request. -/
def InductionInfo.constant {ι : Type} : InductionInfo ι → Option Int
  | invariant (.fetch f) => f.int64
  | _ => none

def isConstant {ι : Type} (getVal : GetVal ι) (request : ConstantRequest) (info : InductionInfo ι) : Option Int :=
  match info.constant with
  | some value => some value
  | none =>
    match getVal info true, getVal info false with
    | some min, some max =>
      if min.aConstant = 0 ∧ max.aConstant = 0 ∧ min.bConstant ≤ max.bConstant then
        match request with
        | .exact => if min.bConstant = max.bConstant then some max.bConstant else none
        | .atMost => some max.bConstant
        | .atLeast => some min.bConstant
      else none
    | _, _ => none

/-! ### Invariants -/

section Invariants

variable {ι : Type} (getVal : GetVal ι)

def isExact (e : Invariant ι) : Option Int := isConstant getVal .exact (.invariant e)

def createConstant (value : Int) (type : DataType) : Invariant ι :=
  match type with
  | .int64 => .fetch (.longConstant value)
  | _ => .fetch (.intConstant value)

/-- A new invariant has the type of its second operand. -/
def newInvariant (op : InvariantOp) (a b : Invariant ι) : Invariant ι := .op op a b b.type.implicitConversion

/-- `CreateSimplifiedInvariant` for an addition or a subtraction. -/
def createAddSub (isAdd : Bool) (a b : Invariant ι) : Invariant ι :=
  if isAdd = true ∧ isExact getVal a = some 0 then b
  else
    match isExact getVal b with
    | some value => if value = 0 then a else newInvariant (if isAdd then .add else .sub) a b
    | none =>
      match b with
      | .neg c _ => createAddSub (!isAdd) a c
      | _ => newInvariant (if isAdd then .add else .sub) a b

/-- `CreateSimplifiedInvariant` for a negation. -/
def createNeg (b : Invariant ι) : Invariant ι :=
  match isExact getVal b with
  | some value => if value = 0 then b else .neg b b.type.implicitConversion
  | none =>
    match b with
    | .neg c _ => c
    | .op .sub c d _ => createAddSub getVal false d c
    | _ => .neg b b.type.implicitConversion

/-- `CreateSimplifiedInvariant` for the other operations. -/
def createInvariantOp (op : InvariantOp) (a b : Invariant ι) : Invariant ι :=
  match op with
  | .add => createAddSub getVal true a b
  | .sub => createAddSub getVal false a b
  | .mul =>
    match isExact getVal a with
    | some 0 => a
    | some 1 => b
    | some (-1) => createNeg getVal b
    | _ =>
      match isExact getVal b with
      | some 0 => b
      | some 1 => a
      | some (-1) => createNeg getVal a
      | _ => newInvariant .mul a b
  | .div =>
    match isExact getVal b with
    | some 1 => a
    | some (-1) => createNeg getVal a
    | _ => newInvariant .div a b
  | .rem => newInvariant .rem a b
  | .xor =>
    if isExact getVal a = some 0 then b
    else if isExact getVal b = some 0 then a
    else newInvariant .xor a b

end Invariants

end Art.Induction
