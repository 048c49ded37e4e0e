import Art.Runtime.Class
import Mathlib.Algebra.Group.Int.Defs

/-! The types of registers in the verifier (`verifier/reg_type.h`, `reg_type-inl.h` and `reg_type.cc`), without
    unresolved references. The cache has one entry for every type, so that types are equal if and only if
    their ids are. -/

namespace Art.Verifier

/-- The register types over the class names `κ`. -/
inductive RegType (κ : Type)
  | undefined
  | conflict
  | boolean
  | byte
  | short
  | char
  | integer
  | float
  | longLo
  | longHi
  | doubleLo
  | doubleHi
  /-- `PreciseConstType` or `ImpreciseConstType` -/
  | const (precise : Bool) (value : BitVec 32)
  | constLo (precise : Bool) (value : BitVec 32)
  | constHi (precise : Bool) (value : BitVec 32)
  | null
  | uninitializedReference (klass : Class κ) (allocationPc : Nat)
  | uninitializedThisReference (klass : Class κ)
  | reference (klass : Class κ)
  | preciseReference (klass : Class κ)
  deriving DecidableEq, Repr

namespace RegType

variable {κ : Type}

def isConstant : RegType κ → Bool
  | const _ _ => true
  | _ => false

def isConstantLo : RegType κ → Bool
  | constLo _ _ => true
  | _ => false

def isConstantHi : RegType κ → Bool
  | constHi _ _ => true
  | _ => false

/-- `IsConstantTypes`, which `null` is too. -/
def isConstantTypes : RegType κ → Bool
  | const _ _ | constLo _ _ | constHi _ _ | null => true
  | _ => false

def isConstantIn (lower upper : Int) : RegType κ → Bool
  | const _ value => decide (lower ≤ value.toInt) && decide (value.toInt ≤ upper)
  | _ => false

def isConstantBoolean (t : RegType κ) : Bool := t.isConstantIn 0 1
def isConstantChar (t : RegType κ) : Bool := t.isConstantIn 0 (2 ^ 16 - 1)
def isConstantByte (t : RegType κ) : Bool := t.isConstantIn (-2 ^ 7) (2 ^ 7 - 1)
def isConstantShort (t : RegType κ) : Bool := t.isConstantIn (-2 ^ 15) (2 ^ 15 - 1)

def isZero : RegType κ → Bool
  | const true value => value == 0
  | _ => false

def isNull : RegType κ → Bool
  | null => true
  | _ => false

def isZeroOrNull (t : RegType κ) : Bool := t.isZero || t.isNull

def isBoolean : RegType κ → Bool
  | boolean => true
  | _ => false

def isByte : RegType κ → Bool
  | byte => true
  | _ => false

def isShort : RegType κ → Bool
  | short => true
  | _ => false

def isChar : RegType κ → Bool
  | char => true
  | _ => false

def isInteger : RegType κ → Bool
  | integer => true
  | _ => false

def isFloat : RegType κ → Bool
  | float => true
  | _ => false

def isLongLo : RegType κ → Bool
  | longLo => true
  | _ => false

def isLongHi : RegType κ → Bool
  | longHi => true
  | _ => false

def isDoubleLo : RegType κ → Bool
  | doubleLo => true
  | _ => false

def isDoubleHi : RegType κ → Bool
  | doubleHi => true
  | _ => false

def isBooleanTypes (t : RegType κ) : Bool := t.isBoolean || t.isConstantBoolean
def isByteTypes (t : RegType κ) : Bool := t.isConstantByte || t.isByte || t.isBoolean
def isShortTypes (t : RegType κ) : Bool := t.isShort || t.isByte || t.isBoolean || t.isConstantShort
def isCharTypes (t : RegType κ) : Bool := t.isChar || t.isBooleanTypes || t.isConstantChar
def isIntegralTypes (t : RegType κ) : Bool :=
  t.isInteger || t.isConstant || t.isByte || t.isShort || t.isChar || t.isBoolean
def isFloatTypes (t : RegType κ) : Bool := t.isFloat || t.isConstant
def isLongTypes (t : RegType κ) : Bool := t.isLongLo || t.isConstantLo
def isLongHighTypes (t : RegType κ) : Bool := t.isLongHi || t.isConstantHi
def isDoubleTypes (t : RegType κ) : Bool := t.isDoubleLo || t.isConstantLo
def isDoubleHighTypes (t : RegType κ) : Bool := t.isDoubleHi || t.isConstantHi

def isUninitializedTypes : RegType κ → Bool
  | uninitializedReference _ _ | uninitializedThisReference _ => true
  | _ => false

def getClass? : RegType κ → Option (Class κ)
  | uninitializedReference klass _ | uninitializedThisReference klass | reference klass | preciseReference klass =>
    some klass
  | _ => none

def isNonZeroReferenceTypes (t : RegType κ) : Bool := t.getClass?.isSome

def isReferenceTypes (t : RegType κ) : Bool := t.isNonZeroReferenceTypes || t.isZero || t.isNull

def isPreciseReference : RegType κ → Bool
  | preciseReference _ => true
  | _ => false

variable (classes : ClassTable κ)

def isJavaLangObject : RegType κ → Bool
  | reference klass => klass.isObjectClass classes
  | _ => false

def isJavaLangObjectArray (t : RegType κ) : Bool :=
  match t.getClass? with
  | some (.array componentType) => componentType.isObjectClass classes
  | _ => false

def isObjectArrayTypes (t : RegType κ) : Bool :=
  match t.getClass? with
  | some (.array componentType) => !componentType.isPrimitive
  | _ => false

variable [DecidableEq κ]

def referenceAssignableFrom (lhs rhs : RegType κ) (strict : Bool) : Bool :=
  if rhs.isZeroOrNull then true
  else if !rhs.isReferenceTypes then false
  else if lhs.isUninitializedTypes || rhs.isUninitializedTypes then false
  else if lhs.isJavaLangObject classes then true
  else if !strict && lhs.getClass?.any (Class.isInterface classes) then true
  else if lhs.isJavaLangObjectArray classes then rhs.isObjectArrayTypes
  else
    match lhs.getClass?, rhs.getClass? with
    | some klass, some src => klass.isAssignableFrom classes src
    | _, _ => false

/-- `AssignableFrom`. The source does not return for a left hand side that nothing is assigned to. -/
def assignableFrom (lhs rhs : RegType κ) (strict : Bool) : Option Bool :=
  if lhs = rhs then some true
  else
    match lhs with
    | boolean => some rhs.isBooleanTypes
    | byte => some rhs.isByteTypes
    | short => some rhs.isShortTypes
    | char => some rhs.isCharTypes
    | integer => some rhs.isIntegralTypes
    | float => some rhs.isFloatTypes
    | longLo => some rhs.isLongTypes
    | doubleLo => some rhs.isDoubleTypes
    | conflict => some false
    | null | uninitializedReference _ _ | uninitializedThisReference _ | reference _ | preciseReference _ =>
      some (referenceAssignableFrom classes lhs rhs strict)
    | undefined | longHi | doubleHi | const _ _ | constLo _ _ | constHi _ _ => none

def isAssignableFrom (lhs rhs : RegType κ) : Option Bool := assignableFrom classes lhs rhs false

def selectNonConstant (a b : RegType κ) : RegType κ := if a.isConstantTypes then b else a

def selectNonConstant2 (a b : RegType κ) : RegType κ := if a.isConstantTypes then (if b.isZero then a else b) else a

def byteConstant : RegType κ := const false (BitVec.ofInt 32 (-2 ^ 7))
def shortConstant : RegType κ := const false (BitVec.ofInt 32 (-2 ^ 15))
def intConstant : RegType κ := const false (BitVec.ofInt 32 (2 ^ 31 - 1))

def mergeConstants (precise1 : Bool) (value1 : BitVec 32) (precise2 : Bool) (value2 : BitVec 32) : RegType κ :=
  let type1 : RegType κ := const precise1 value1
  let type2 : RegType κ := const precise2 value2
  let val1 := value1.toInt
  let val2 := value2.toInt
  if val1 ≥ 0 ∧ val2 ≥ 0 then
    if val1 ≥ val2 then (if !precise1 then type1 else const false value1)
    else (if !precise2 then type2 else const false value2)
  else if val1 < 0 ∧ val2 < 0 then
    if val1 ≤ val2 then (if !precise1 then type1 else const false value1)
    else (if !precise2 then type2 else const false value2)
  else if type1.isConstantByte then
    if type2.isConstantByte then byteConstant
    else if type2.isConstantShort then shortConstant
    else intConstant
  else if type1.isConstantShort then
    if type2.isConstantShort then shortConstant else intConstant
  else intConstant

def mergeIntegral (a b : RegType κ) : RegType κ :=
  if a.isBooleanTypes && b.isBooleanTypes then boolean
  else if a.isByteTypes && b.isByteTypes then byte
  else if a.isShortTypes && b.isShortTypes then short
  else if a.isCharTypes && b.isCharTypes then char
  else integer

/-- The merge of two references. `FromClass` finds or adds a reference that is not precise; it is only called
    for a class with another subclass. -/
def mergeReferences (a b : RegType κ) : RegType κ :=
  if a.isUninitializedTypes || b.isUninitializedTypes then conflict
  else if a.isZeroOrNull || b.isZeroOrNull then selectNonConstant2 a b
  else if a.isJavaLangObject classes || b.isJavaLangObject classes then reference (.named classes.object)
  else
    match a.getClass?, b.getClass? with
    | some klass, some incomingClass =>
      let joinClass := Class.classJoin classes klass incomingClass
      if klass = joinClass ∧ !a.isPreciseReference then a
      else if incomingClass = joinClass ∧ !b.isPreciseReference then b
      else reference joinClass
    | _, _ => conflict

def merge (a b : RegType κ) : RegType κ :=
  match a, b with
  | undefined, _ | _, undefined => undefined
  | conflict, _ | _, conflict => conflict
  | const precise1 value1, const precise2 value2 => mergeConstants precise1 value1 precise2 value2
  | constLo _ value1, constLo _ value2 => constLo false (value1 ||| value2)
  | constHi _ value1, constHi _ value2 => constHi false (value1 ||| value2)
  | a, b =>
    if a.isIntegralTypes && b.isIntegralTypes then mergeIntegral a b
    else if (a.isFloatTypes && b.isFloatTypes) || (a.isLongTypes && b.isLongTypes) ||
        (a.isLongHighTypes && b.isLongHighTypes) || (a.isDoubleTypes && b.isDoubleTypes) ||
        (a.isDoubleHighTypes && b.isDoubleHighTypes) then selectNonConstant a b
    else if a.isReferenceTypes && b.isReferenceTypes then mergeReferences classes a b
    else conflict

def safeMerge (a b : RegType κ) : RegType κ := if a = b then a else merge classes a b

end RegType

end Art.Verifier
