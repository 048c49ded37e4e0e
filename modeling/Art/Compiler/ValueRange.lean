import Art.Lib.Int32

/-! # Value bounds and value ranges

The lattice of `compiler/optimizing/bounds_check_elimination.cc`: a `ValueBound` is an instruction plus
a constant, a `ValueRange` a lower and an upper bound, both inclusive.

An instruction is the tree of its inputs, down to the values the pass does not look into (phis,
parameters, loads, call results), which are told apart by their ids. Array references stand for the
length of the array: `HArrayLength`, `HNullCheck` and `HNewArray` all evaluate to the same number, which
is how the pass itself treats them (`huntForDeclaration`). -/

namespace Art.Bce
open Lib

abbrev Int32 (x : Int) : Prop := Signed 31 x
abbrev int32Min : Int := minInt 31
abbrev int32Max : Int := maxInt 31

/-- The types of the instructions that the elimination looks at. -/
inductive DataType
  | int32
  | int64
  deriving DecidableEq

/-- The width of a type without its sign bit. -/
def DataType.width : DataType → Nat
  | .int32 => 31
  | .int64 => 63

/-- The binary operations of the compiler's graph. -/
inductive BinaryOp
  | add
  | sub
  | mul
  | div
  | rem
  | shl
  | shr
  | ushr
  | and
  deriving DecidableEq

/-- An instruction with its operands, where `id` tells equal instructions apart. -/
inductive HInstruction
  | intConstant (value : Int)
  | longConstant (value : Int)
  | value (id : Nat)
  | nullCheck (id : Nat) (array : HInstruction)
  | newArray (id : Nat) (length : HInstruction)
  | arrayLength (id : Nat) (array : HInstruction)
  | divZeroCheck (id : Nat) (input : HInstruction)
  | binary (id : Nat) (op : BinaryOp) (type : DataType) (left right : HInstruction)
  deriving DecidableEq

namespace HInstruction

def asIntConstant : HInstruction → Option Int
  | intConstant v => some v
  | _ => none

def asInt64 : HInstruction → Option Int
  | intConstant v => some v
  | longConstant v => some v
  | _ => none

def isArrayLength : HInstruction → Bool
  | arrayLength _ _ => true
  | _ => false

def isNewArray : HInstruction → Bool
  | newArray _ _ => true
  | _ => false

/-- The operation of `BinaryOp` on run-time values. Division and remainder truncate (`HDiv::Compute`,
    `HRem::Compute`), and a shift distance is taken modulo the width. -/
def compute (op : BinaryOp) (type : DataType) (x y : Int) : Int :=
  wrap type.width <| match op with
    | .add => x + y
    | .sub => x - y
    | .mul => x * y
    | .div => x.tdiv y
    | .rem => x.tmod y
    | .shl => x * 2 ^ (y % (type.width + 1)).toNat
    | .shr => x / 2 ^ (y % (type.width + 1)).toNat
    | .ushr => x % 2 ^ (type.width + 1) / 2 ^ (y % (type.width + 1)).toNat
    | .and => (BitVec.ofInt (type.width + 1) x &&& BitVec.ofInt (type.width + 1) y).toInt

/-- The run-time value of an instruction, given those of the opaque values. -/
def eval (ρ : Nat → Int) : HInstruction → Int
  | intConstant v => v
  | longConstant v => v
  | value id => ρ id
  | nullCheck _ array => array.eval ρ
  | newArray _ length => length.eval ρ
  | arrayLength _ array => array.eval ρ
  | divZeroCheck _ input => input.eval ρ
  | binary _ op type left right => compute op type (left.eval ρ) (right.eval ρ)

def huntForDeclaration : HInstruction → HInstruction
  | arrayLength _ array => array.huntForDeclaration
  | nullCheck _ array => array.huntForDeclaration
  | newArray _ length => length.huntForDeclaration
  | i => i

/-- Looking through array lengths, null checks and allocations keeps the value. -/
@[simp] theorem eval_huntForDeclaration (ρ : Nat → Int) :
    ∀ i : HInstruction, i.huntForDeclaration.eval ρ = i.eval ρ
  | intConstant _ => rfl
  | longConstant _ => rfl
  | value _ => rfl
  | nullCheck _ array => eval_huntForDeclaration ρ array
  | newArray _ length => eval_huntForDeclaration ρ length
  | arrayLength _ array => eval_huntForDeclaration ρ array
  | divZeroCheck _ _ => rfl
  | binary _ _ _ _ _ => rfl

end HInstruction

/-- A bound `instruction + constant`, or a constant alone. -/
structure ValueBound where
  instruction : Option HInstruction
  constant : Int
  deriving DecidableEq

namespace ValueBound

def wouldAddOverflowOrUnderflow (left right : Int) : Bool :=
  if right = 0 then false
  else if right > 0 ∧ left ≤ int32Max - right then false
  else if right < 0 ∧ left ≥ int32Min - right then false
  else true

/-- The constructor `ValueBound(instruction, constant)`: a constant instruction is folded in. -/
def make (instruction : Option HInstruction) (constant : Int) : ValueBound :=
  match instruction.bind HInstruction.asIntConstant with
  | some c => if wouldAddOverflowOrUnderflow c constant then ⟨instruction, constant⟩ else ⟨none, c + constant⟩
  | none => ⟨instruction, constant⟩

def min : ValueBound := make none int32Min
def max : ValueBound := make none int32Max

def isConstant (b : ValueBound) : Bool := b.instruction.isNone

/-- Bounds may name an `HNewArray` in place of its length. -/
def isRelatedToArrayLength (b : ValueBound) : Bool :=
  match b.instruction with
  | some i => i.isArrayLength || i.isNewArray
  | none => false

def equal (i j : Option HInstruction) : Bool :=
  if i = j then true
  else match i, j with
    | some i, some j => i.huntForDeclaration = j.huntForDeclaration
    | _, _ => false

def greaterThanOrEqualTo (b c : ValueBound) : Bool :=
  if equal b.instruction c.instruction then b.constant ≥ c.constant else false

def lessThanOrEqualTo (b c : ValueBound) : Bool :=
  if equal b.instruction c.instruction then b.constant ≤ c.constant else false

/-- The greater of two lower bounds; the constant one when they are not comparable. -/
def narrowLowerBound (b c : ValueBound) : ValueBound :=
  if b.greaterThanOrEqualTo c then b
  else if c.greaterThanOrEqualTo b then c
  else if b.isConstant then b else c

/-- The lower of two upper bounds; the one on an array length when they are not comparable. -/
def narrowUpperBound (b c : ValueBound) : ValueBound :=
  if b.lessThanOrEqualTo c then b
  else if c.lessThanOrEqualTo b then c
  else if b.isRelatedToArrayLength then b else c

/-- What `ValueBound::Add` returns, with its out-parameters. -/
structure Sum where
  bound : ValueBound
  overflow : Bool
  underflow : Bool
  deriving DecidableEq

def add (b : ValueBound) (c : Int) : Sum :=
  if c = 0 then ⟨b, false, false⟩
  else if c > 0 then
    if b.constant > int32Max - c then ⟨max, true, false⟩
    else
      -- (array.length + non-positive-constant) won't overflow an int.
      if b.isConstant || (b.isRelatedToArrayLength && b.constant + c ≤ 0) then
        ⟨make b.instruction (b.constant + c), false, false⟩
      else ⟨max, true, false⟩
  else
    if b.constant < int32Min - c then ⟨min, false, true⟩
    else
      if b.isConstant || b.isRelatedToArrayLength then
        ⟨make b.instruction (b.constant + c), false, false⟩
      else ⟨min, false, true⟩

/-- The number a bound stands for, computed without wrapping. -/
def eval (ρ : Nat → Int) (b : ValueBound) : Int :=
  (match b.instruction with
    | none => 0
    | some i => i.eval ρ) + b.constant

end ValueBound

/-- A range; `monotonic` marks a `MonotonicValueRange`, whose bounds as a plain range are `min` and `max`. -/
structure ValueRange where
  lower : ValueBound
  upper : ValueBound
  monotonic : Bool := false
  deriving DecidableEq

namespace ValueRange

def isConstantValueRange (r : ValueRange) : Bool := r.lower.isConstant && r.upper.isConstant

/-- `FitsIn`; a monotonic range is never known to fit. -/
def fitsIn (r other : ValueRange) : Bool :=
  if r.monotonic then false
  else r.lower.greaterThanOrEqualTo other.lower && r.upper.lessThanOrEqualTo other.upper

def narrow (r range : ValueRange) : ValueRange :=
  if range.monotonic then r
  else ⟨r.lower.narrowLowerBound range.lower, r.upper.narrowUpperBound range.upper, false⟩

def add (r : ValueRange) (c : Int) : Option ValueRange :=
  let lower := r.lower.add c
  if lower.underflow then none
  else
    let upper := r.upper.add c
    if upper.overflow then none
    else some ⟨lower.bound, upper.bound, false⟩

def Contains (ρ : Nat → Int) (r : ValueRange) (v : Int) : Prop := r.lower.eval ρ ≤ v ∧ v ≤ r.upper.eval ρ

instance (ρ : Nat → Int) (r : ValueRange) (v : Int) : Decidable (r.Contains ρ v) :=
  inferInstanceAs (Decidable (_ ∧ _))

end ValueRange

/-- What a `MonotonicValueRange` keeps of its induction variable. -/
structure MonotonicValueRange where
  initial : HInstruction
  increment : Int
  bound : ValueBound

namespace MonotonicValueRange

/-- The greatest number that an upper bound can stand for. -/
def maxPossibleValue (upper : ValueBound) : Int :=
  if upper.isConstant then upper.constant
  else if upper.isRelatedToArrayLength ∧ upper.constant ≤ 0 then int32Max + upper.constant
  else int32Max

def lastNumInSequence (m : MonotonicValueRange) (upper : Int) : Int :=
  match m.initial.asIntConstant with
  | some initial =>
    if upper ≤ initial then upper else wrap 31 (initial + (upper - initial).tdiv m.increment * m.increment)
  | none => upper

/-- `MonotonicValueRange::Narrow`: a plain range when the sequence stops before it overflows, and otherwise
    the monotonic range itself. -/
def narrow (m : MonotonicValueRange) (range : ValueRange) : ValueRange :=
  let this : ValueRange := ⟨.min, .max, true⟩
  if m.increment > 0 then
    let lower := m.bound.narrowLowerBound range.lower
    if ¬lower.isConstant ∨ lower.constant = int32Min then this
    else if m.lastNumInSequence (maxPossibleValue range.upper) ≤ int32Max - m.increment then ⟨lower, range.upper, false⟩
    else this
  else
    let upper := m.bound.narrowUpperBound range.upper
    if (¬upper.isConstant ∨ upper.constant = int32Max) ∧ ¬upper.isRelatedToArrayLength then this
    else if range.lower.isConstant ∧ range.lower.constant ≥ int32Min - m.increment then ⟨range.lower, upper, false⟩
    else this

end MonotonicValueRange

end Art.Bce
