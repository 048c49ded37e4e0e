import Art.Compiler.TripCount

/-! How polynomial and geometric inductions arise (`induction_var_analysis.cc`), and the code for the value that they
    have after the loop (`induction_var_range.cc`). -/

namespace Art.Induction

section Analysis

variable {ι : Type} (getVal : GetVal ι)

/-! ### Transfer -/

def transferNeg (type : DataType) : InductionInfo ι → Option (InductionInfo ι)
  | .invariant e => some (.invariant (createNeg getVal e))
  | .induction c a b t =>
    if (InductionInfo.induction c a b t).isNarrowingLinear then none
    else
      match c with
      | .geometricDiv _ => none
      | _ => do
        let newA ← transferNeg type a
        let newB ← transferNeg type b
        return .induction c newA newB type

def transferAddSub (isAdd : Bool) (type : DataType) (a b : InductionInfo ι) : Option (InductionInfo ι) :=
  if a.isNarrowingLinear || b.isNarrowingLinear then none
  else
    match a, b with
    | .invariant x, .invariant y =>
      some (.invariant (createInvariantOp getVal (if isAdd then .add else .sub) x y))
    | .induction .linear a a' _, .induction .linear b b' _ => do
      let newA ← transferAddSub isAdd type a b
      let newB ← transferAddSub isAdd type a' b'
      return .induction .linear newA newB type
    | .induction .polynomial a a' _, .induction .polynomial b b' _ => do
      let newA ← transferAddSub isAdd type a b
      let newB ← transferAddSub isAdd type a' b'
      return .induction .polynomial newA newB type
    | .invariant x, .induction c b b' _ => do
      let newB ← transferAddSub isAdd type (.invariant x) b'
      let newA ← match c with
        | .wrapAround | .periodic => transferAddSub isAdd type (.invariant x) b
        | _ => if isAdd then some b else transferNeg getVal type b
      return .induction c newA newB type
    | .induction c a a' _, .invariant y => do
      let newB ← transferAddSub isAdd type a' (.invariant y)
      let newA ← match c with
        | .wrapAround | .periodic => transferAddSub isAdd type a (.invariant y)
        | _ => some a
      return .induction c newA newB type
    | _, _ => none
termination_by sizeOf a + sizeOf b

/-! ### Cycles -/

/-- An operand of the instruction that closes a cycle: whether it is the phi at the entry, its induction if it has one
    already, and the one that it was given within the cycle. -/
structure Operand (ι : Type) where
  isEntryPhi : Bool
  info : Option (InductionInfo ι)
  inCycle : Option (InductionInfo ι)

/-- The phi at the entry: its initial value, and whether the instruction is its only update. -/
structure EntryPhi (ι : Type) where
  initial : InductionInfo ι
  tight : Bool

def mainSolveAddSub (phi : EntryPhi ι) (x y : Operand ι) (isAdd : Bool) (type : DataType) : Option (InductionInfo ι) :=
  match y.info with
  | some (.invariant b) =>
    if x.isEntryPhi then some (.invariant (if isAdd then b else createNeg getVal b))
    else
      match x.inCycle with
      | some (.invariant a) => some (.invariant (createInvariantOp getVal (if isAdd then .add else .sub) a b))
      | _ => none
  | some (.induction .linear a b t) =>
    if t = type ∧ x.isEntryPhi = true ∧ phi.tight = true then do
      let newA ← if isAdd then some (.induction .linear a b t) else transferNeg getVal type (.induction .linear a b t)
      return .induction .polynomial newA phi.initial type
    else none
  | _ => none

/-- The periodic idiom `k = c - k`. -/
def solvePeriodic (phi : EntryPhi ι) (x y : Operand ι) (type : DataType) : Option (InductionInfo ι) :=
  match x.info, phi.initial with
  | some (.invariant a), .invariant initial =>
    if y.isEntryPhi ∧ phi.tight then
      some (.induction .periodic (.invariant (createInvariantOp getVal .sub a initial)) (.invariant initial) type)
    else none
  | _, _ => none

def solveAddSub (phi : EntryPhi ι) (x y : Operand ι) (isAdd : Bool) (type : DataType) : Option (InductionInfo ι) :=
  (mainSolveAddSub getVal phi x y isAdd type).or
    (if isAdd then mainSolveAddSub getVal phi y x isAdd type else solvePeriodic getVal phi x y type)

/-- The operand beside the phi, where the operation allows it on that side. -/
def solveOperand (x y : Operand ι) (op : InvariantOp) : Option (Invariant ι) :=
  match y.info, x.isEntryPhi with
  | some (.invariant b), true => some b
  | _, _ =>
    if op = .div ∨ op = .rem then none
    else
      match x.info, y.isEntryPhi with
      | some (.invariant a), true => some a
      | _, _ => none

/-- `SolveOp`; the other operations are not reached. -/
def solveOp (phi : EntryPhi ι) (x y : Operand ι) (op : InvariantOp) (type : DataType) : Option (InductionInfo ι) :=
  if phi.tight then
    match solveOperand x y op, phi.initial with
    | some c, .invariant initial =>
      match op, c with
      | .mul, .fetch f =>
        some (.induction (.geometricMul f) (.invariant initial) (.invariant (createConstant 0 type)) type)
      | .div, .fetch f =>
        some (.induction (.geometricDiv f) (.invariant initial) (.invariant (createConstant 0 type)) type)
      | .rem, c =>
        some (.induction .wrapAround (.invariant initial) (.invariant (createInvariantOp getVal .rem initial c)) type)
      | .xor, c =>
        some (.induction .periodic (.invariant (createInvariantOp getVal .xor initial c)) (.invariant initial) type)
      | _, _ => none
    | _, _ => none
  else none

end Analysis

/-! ### Code -/

/-- The instructions that are generated, over constants and instructions that exist. -/
inductive HInstruction (ι : Type)
  | fetch (f : Fetch ι)
  | binary (op : InvariantOp) (type : DataType) (left right : HInstruction ι)
  | neg (type : DataType) (input : HInstruction ι)
  deriving DecidableEq, Repr

section Code

variable {ι : Type}

def getConstant (type : DataType) (value : Int) : HInstruction ι :=
  match type with
  | .int64 => .fetch (.longConstant value)
  | _ => .fetch (.intConstant (Lib.wrap 31 value))

def Invariant.generateCode : Invariant ι → HInstruction ι
  | fetch f => .fetch f
  | op o a b type => .binary o type a.generateCode b.generateCode
  | neg b type => .neg type b.generateCode

/-- `GenerateCode`; the operands of the classes below are invariants. -/
def generateCode : InductionInfo ι → Option (HInstruction ι)
  | .invariant e => some e.generateCode
  | .induction .. => none

/-! ### Last values -/

variable (getVal : GetVal ι)

def polynomialSum (a b m : Int) (type : DataType) : Int :=
  let half := (Lib.wrap 63 (m * (m - 1))).tdiv 2
  let sum := Lib.wrap 63 (Lib.wrap 63 (a * half) + Lib.wrap 63 (b * m))
  if type ≠ .int64 then Lib.wrap 31 sum else sum

def generateLastValuePolynomial (info : InductionInfo ι) (trip : TripCount ι) : Option (HInstruction ι) :=
  match info with
  | .induction .polynomial (.induction _ opA opB _) initial type => do
    let a ← isConstant getVal .exact opA
    let b ← isConstant getVal .exact opB
    let m ← isExact getVal trip.count
    guard (m ≥ 1)
    let c ← generateCode initial
    return .binary .add type (getConstant type (polynomialSum a b m type)) c
  | _ => none

def safeMul (a b : Int) (overflow : Bool) : Int × Bool :=
  (Lib.wrap 63 (a * b), overflow || decide (a > 0 ∧ b > 0 ∧ a > Lib.maxInt 63 / b))

def intPowLoop (pow b : Int) (overflow : Bool) (e : Nat) : Int × Bool :=
  if e = 0 then (pow, overflow)
  else
    let pow := if e % 2 = 1 then safeMul pow b overflow else (pow, overflow)
    let b := if e / 2 ≠ 0 then safeMul b b pow.2 else (b, pow.2)
    intPowLoop pow.1 b.1 b.2 (e / 2)
termination_by e
decreasing_by omega

def intPow (b e : Int) : Int × Bool := intPowLoop 1 b false e.toNat

/-- The power that the code uses: zero stands for a quotient that is taken to be zero. -/
def geometricPower (isDiv : Bool) (f m : Int) (type : DataType) : Int :=
  let (fpow, overflow) := intPow f m
  if isDiv then
    if overflow ∨ (type ≠ .int64 ∧ ¬Lib.Signed 31 fpow) then 0 else fpow
  else if type ≠ .int64 then Lib.wrap 31 fpow
  else fpow

def geometricCode (isDiv : Bool) (fpow : Int) (type : DataType) (opa opb : HInstruction ι) : HInstruction ι :=
  if fpow = 0 then getConstant type 0
  else .binary .add type (.binary (if isDiv then .div else .mul) type opa (getConstant type fpow)) opb

def InductionClass.geometric : InductionClass ι → Option (Bool × Fetch ι)
  | geometricMul f => some (false, f)
  | geometricDiv f => some (true, f)
  | _ => none

def generateLastValueGeometric (info : InductionInfo ι) (trip : TripCount ι) : Option (HInstruction ι) :=
  match info with
  | .induction c a b type => do
    let (isDiv, fetch) ← c.geometric
    let f ← fetch.int64
    guard (f ≥ 1)
    let m ← isExact getVal trip.count
    guard (m ≥ 1)
    let opa ← generateCode a
    let opb ← generateCode b
    return geometricCode isDiv (geometricPower isDiv f m type) type opa opb
  | _ => none

end Code

end Art.Induction
