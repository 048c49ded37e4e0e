import Mathlib.Algebra.Group.Int.Defs

/-! Division by a constant without a division instruction (`code_generator_utils.cc`, `code_generator_x86_64.cc`,
    `code_generator_arm64.cc`). -/

namespace Art.DivRem

/-! ### The magic number -/

/-- The variables of the loop of `CalculateMagicAndShiftForDivRem`. -/
structure MagicState where
  p : Nat
  quotient1 : BitVec 64
  remainder1 : BitVec 64
  quotient2 : BitVec 64
  remainder2 : BitVec 64
  deriving DecidableEq, Repr

def double (divisor : BitVec 64) (quotient remainder : BitVec 64) : BitVec 64 × BitVec 64 :=
  let quotient := 2 * quotient
  let remainder := 2 * remainder
  if divisor ≤ remainder then (quotient + 1, remainder - divisor) else (quotient, remainder)

def magicStep (absNc absD : BitVec 64) (s : MagicState) : MagicState :=
  let (quotient1, remainder1) := double absNc s.quotient1 s.remainder1
  let (quotient2, remainder2) := double absD s.quotient2 s.remainder2
  { p := s.p + 1, quotient1, remainder1, quotient2, remainder2 }

def magicContinues (absD : BitVec 64) (s : MagicState) : Bool :=
  let delta := absD - s.remainder2
  s.quotient1 < delta || (s.quotient1 = delta && s.remainder1 = 0)

def magicLoop (absNc absD : BitVec 64) : Nat → MagicState → Option MagicState
  | 0, _ => none
  | fuel + 1, s =>
    let s := magicStep absNc absD s
    if magicContinues absD s then magicLoop absNc absD fuel s else some s

def absDivisor (divisor : BitVec 64) : BitVec 64 := if divisor.slt 0 then -divisor else divisor

def magicExp (isLong : Bool) : BitVec 64 := if isLong then 1 <<< 63 else 1 <<< 31

def absNc (divisor : BitVec 64) (isLong : Bool) : BitVec 64 :=
  let signBit := if isLong then divisor >>> 63 else (divisor.setWidth 32 >>> 31).setWidth 64
  let tmp := magicExp isLong + signBit
  tmp - 1 - tmp % absDivisor divisor

def calculateMagicAndShiftForDivRem (divisor : BitVec 64) (isLong : Bool) (fuel : Nat) : Option (BitVec 64 × Nat) :=
  let absD := absDivisor divisor
  let absNc := absNc divisor isLong
  let exp := magicExp isLong
  let s : MagicState :=
    { p := if isLong then 63 else 31
      quotient1 := exp / absNc
      remainder1 := exp % absNc
      quotient2 := exp / absD
      remainder2 := exp % absD }
  (magicLoop absNc absD fuel s).map fun s =>
    let magic := if BitVec.slt 0 divisor then s.quotient2 + 1 else -s.quotient2 - 1
    (if isLong then magic else (magic.setWidth 32).signExtend 64, if isLong then s.p - 64 else s.p - 32)

def width (isLong : Bool) : Nat := if isLong then 64 else 32

/-! ### Instructions -/

section instructions

variable {w : Nat}

/-- The upper half of the signed product: `imul` with one operand, and `Smulh`. -/
def mulHigh (a b : BitVec w) : BitVec w := BitVec.ofInt w (a.toInt * b.toInt / 2 ^ w)

/-- `sar` and `Asr` by a constant. -/
def sar (x : BitVec w) (shift : Nat) : BitVec w := x.sshiftRight (shift % w)

/-- `shr` and `Lsr` by a constant. -/
def shr (x : BitVec w) (shift : Nat) : BitVec w := x >>> (shift % w)

end instructions

def needToAddDividend (magic divisor : BitVec 64) : Bool := BitVec.slt 0 divisor && magic.slt 0

def needToSubDividend (magic divisor : BitVec 64) : Bool := divisor.slt 0 && BitVec.slt 0 magic

def resultOf {w : Nat} (isRem : Bool) (dividend quotient divisor : BitVec w) : BitVec w :=
  if isRem then dividend - quotient * divisor else quotient

/-! ### x86-64 -/

/-- `GenerateDivRemWithAnyConstant`, for `int` and for `long` with their registers: the value of the output register. -/
def x86GenerateDivRemWithAnyConstant {w : Nat} (imm magic : BitVec 64) (shift : Nat) (isRem : Bool) (eax : BitVec w) :
    BitVec w :=
  let numerator := eax
  let edx := mulHigh (magic.setWidth w) numerator
  let edx :=
    if needToAddDividend magic imm then edx + numerator
    else if needToSubDividend magic imm then edx - numerator
    else edx
  let edx := if shift ≠ 0 then sar edx shift else edx
  let eax := edx
  let edx := shr edx (w - 1) + eax
  resultOf isRem numerator edx (imm.setWidth w)

/-! ### ARM64 -/

/-- `GenerateIncrementNegativeByOne`, with the flag N of the last addition or subtraction. -/
def generateIncrementNegativeByOne {w : Nat} (x : BitVec w) (useCondInc negative : Bool) : BitVec w :=
  if useCondInc then if negative then x + 1 else x
  else x + shr x (w - 1)

def generateInt64DivRemWithAnyConstant (imm magic : BitVec 64) (shift : Nat) (isRem : Bool) (dividend : BitVec 64) :
    BitVec 64 :=
  let high := mulHigh dividend magic
  let useCondInc := needToAddDividend magic imm || needToSubDividend magic imm
  let corrected :=
    if needToAddDividend magic imm then high + dividend
    else if needToSubDividend magic imm then high - dividend
    else high
  let temp := if shift ≠ 0 then sar corrected shift else corrected
  resultOf isRem dividend (generateIncrementNegativeByOne temp useCondInc (corrected.slt 0)) imm

def generateInt64UnsignedDivRemWithAnyPositiveConstant (imm magic : BitVec 64) (shift : Nat) (isRem : Bool)
    (dividend : BitVec 64) : BitVec 64 :=
  let quotient :=
    if BitVec.slt 0 magic ∧ shift = 0 then mulHigh dividend magic
    else
      let temp := mulHigh dividend magic
      let temp := if magic.slt 0 then temp + dividend else temp
      shr temp shift
  resultOf isRem dividend quotient imm

/-- The corrected 64-bit product of `GenerateInt32DivRemWithAnyConstant`; the upper half of the register of the
    dividend is shifted out. -/
def int32Product (imm magic : BitVec 64) (dividend : BitVec 32) : BitVec 64 :=
  let temp := dividend.signExtend 64 * (magic.setWidth 32).signExtend 64
  if needToAddDividend magic imm then temp + dividend.setWidth 64 <<< 32
  else if needToSubDividend magic imm then temp - dividend.setWidth 64 <<< 32
  else temp

def generateInt32DivRemWithAnyConstant (imm magic : BitVec 64) (shift : Nat) (isRem hasNonNegativeInput : Bool)
    (dividend : BitVec 32) : BitVec 32 :=
  let product := int32Product imm magic dividend
  let useCondInc := needToAddDividend magic imm || needToSubDividend magic imm
  let quotient :=
    if BitVec.slt 0 imm && hasNonNegativeInput then (shr product (32 + shift)).setWidth 32
    else generateIncrementNegativeByOne ((sar product (32 + shift)).setWidth 32) useCondInc (product.slt 0)
  resultOf isRem dividend quotient (imm.setWidth 32)

/-- `GenerateDivRemWithAnyConstant`; `hasNonNegativeInput` is what the compiler knows about the dividend. -/
def arm64GenerateDivRemWithAnyConstant (imm magic : BitVec 64) (shift : Nat) (isRem hasNonNegativeInput : Bool) :
    (isLong : Bool) → BitVec (width isLong) → BitVec (width isLong)
  | true, dividend =>
    if BitVec.slt 0 imm && hasNonNegativeInput then
      generateInt64UnsignedDivRemWithAnyPositiveConstant imm magic shift isRem dividend
    else generateInt64DivRemWithAnyConstant imm magic shift isRem dividend
  | false, dividend => generateInt32DivRemWithAnyConstant imm magic shift isRem hasNonNegativeInput dividend

end Art.DivRem
