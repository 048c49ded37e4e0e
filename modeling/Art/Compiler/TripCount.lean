import Art.Compiler.InductionInfo

/-! The trip count of a loop (`VisitCondition` and `VisitTripCount` in `induction_var_analysis.cc`) and its use as a
    number (`HasKnownTripCount` in `induction_var_range.cc`). -/

namespace Art.Induction

/-- The conditions of `IfCondition` on signed operands. -/
inductive IfCondition
  | eq
  | ne
  | lt
  | le
  | gt
  | ge
  deriving DecidableEq, Repr

namespace IfCondition

def holds : IfCondition → Int → Int → Prop
  | eq, x, y => x = y
  | ne, x, y => x ≠ y
  | lt, x, y => x < y
  | le, x, y => x ≤ y
  | gt, x, y => y < x
  | ge, x, y => y ≤ x

instance (cmp : IfCondition) (x y : Int) : Decidable (cmp.holds x y) := by
  cases cmp <;> unfold holds <;> infer_instance

end IfCondition

/-- What `RewriteBreakLoop` finds in the graph: the condition stands right before the branch and is used nowhere
    else, the index is a phi, the body only updates it, an enclosing condition guards the loop, and the body can be
    rewritten. -/
structure BreakLoop where
  simpleCondition : Bool
  indexIsPhi : Bool
  updatesIndexOnly : Bool
  guarded : Bool
  bodyRewritable : Bool
  deriving DecidableEq, Repr

/-- A loop control as `VisitControl` passes it on: the loop iterates while `a cmp b`. -/
structure LoopControl (ι : Type) where
  a : InductionInfo ι
  b : InductionInfo ι
  type : DataType
  cmp : IfCondition
  breakLoop : BreakLoop
  deriving DecidableEq, Repr

/-- Whether the trip count holds in the loop or only in its body, and whether the loop may not end. -/
inductive TripCountKind
  | inLoop
  | inBody
  | inLoopUnsafe
  | inBodyUnsafe
  deriving DecidableEq, Repr

/-- A trip count with its taken-test `lower cmp upper`. -/
structure TripCount (ι : Type) where
  kind : TripCountKind
  count : Invariant ι
  cmp : IfCondition
  lower : Invariant ι
  upper : Invariant ι
  type : DataType
  deriving DecidableEq, Repr

section Analysis

variable {ι : Type} (getVal : GetVal ι)

def isAtMost (e : Invariant ι) : Option Int := isConstant getVal .atMost (.invariant e)

def isAtLeast (e : Invariant ι) : Option Int := isConstant getVal .atLeast (.invariant e)

def bounded (x y : Option Int) (test : Int → Int → Bool) : Bool :=
  match x, y with
  | some x, some y => test x y
  | _, _ => false

/-- `IsTaken`; the other conditions are not reached. -/
def isTaken (lower upper : Invariant ι) : IfCondition → Bool
  | .lt => bounded (isAtMost getVal lower) (isAtLeast getVal upper) (· < ·)
  | .le => bounded (isAtMost getVal lower) (isAtLeast getVal upper) (· ≤ ·)
  | .gt => bounded (isAtLeast getVal lower) (isAtMost getVal upper) (· > ·)
  | .ge => bounded (isAtLeast getVal lower) (isAtMost getVal upper) (· ≥ ·)
  | .eq | .ne => false

/-- `IsFinite`; the other conditions are not reached. -/
def isFinite (upper : Invariant ι) (strideValue : Int) (type : DataType) : IfCondition → Bool
  | .lt => strideValue == 1 || (isAtMost getVal upper).any (· ≤ type.maxValueOfIntegralType - strideValue + 1)
  | .le => (isAtMost getVal upper).any (· ≤ type.maxValueOfIntegralType - strideValue)
  | .gt => strideValue == -1 || (isAtLeast getVal upper).any (· ≥ type.minValueOfIntegralType - strideValue - 1)
  | .ge => (isAtLeast getVal upper).any (· ≥ type.minValueOfIntegralType - strideValue)
  | .eq | .ne => false

def fitsNarrowerControl (lower upper : Invariant ι) (strideValue : Int) (type : DataType) (cmp : IfCondition) : Bool :=
  if strideValue ≠ 1 ∧ strideValue ≠ -1 then false
  else
    -- an inclusive test needs one extra
    let max := if cmp = .le then type.maxValueOfIntegralType - 1 else type.maxValueOfIntegralType
    let min := if cmp = .ge then type.minValueOfIntegralType + 1 else type.minValueOfIntegralType
    (isAtLeast getVal lower).any (· ≥ min) && (isAtMost getVal lower).any (· ≤ max) &&
      (isAtLeast getVal upper).any (· ≥ min) && (isAtMost getVal upper).any (· ≤ max)

/-- `RewriteBreakLoop`: whether the condition `i != U` of the loop becomes `i <= U` or `i >= U`. -/
def rewriteBreakLoop (loop : BreakLoop) (lower upper : Invariant ι) (strideValue : Int) (type : DataType) : Bool :=
  let cmp := if strideValue > 0 then IfCondition.le else .ge
  (strideValue == 1 || strideValue == -1) && loop.simpleCondition && loop.indexIsPhi &&
    isFinite getVal upper strideValue type cmp && loop.updatesIndexOnly &&
    (isTaken getVal lower upper cmp || loop.guarded) && loop.bodyRewritable

/-- The inclusive bound, compensated for the stride. -/
def tripCountBound (upper stride one : Invariant ι) (strideValue : Int) (cmp : IfCondition) : Invariant ι :=
  if (cmp = .lt ∨ cmp = .gt) ∧ (strideValue = 1 ∨ strideValue = -1) then upper
  else
    let inclusive := match cmp with
      | .lt => createInvariantOp getVal .sub upper one
      | .gt => createInvariantOp getVal .add upper one
      | _ => upper
    createInvariantOp getVal .add inclusive stride

/-- The expression `(U + S - L) / S` for the inclusive bound `U`. -/
def tripCountExpr (lower upper stride : Invariant ι) (strideValue : Int) (type : DataType) (cmp : IfCondition) :
    Invariant ι :=
  let bound := tripCountBound getVal upper stride (createConstant 1 type) strideValue cmp
  createInvariantOp getVal .div (createInvariantOp getVal .sub bound lower) stride

def tripCountKind (taken finite : Bool) : TripCountKind :=
  if taken && finite then .inLoop
  else if finite then .inBody
  else if taken then .inLoopUnsafe
  else .inBodyUnsafe

def visitTripCount (lower upper stride : Invariant ι) (strideValue : Int) (type : DataType) (cmp : IfCondition) :
    TripCount ι where
  kind := tripCountKind (isTaken getVal lower upper cmp) (isFinite getVal upper strideValue type cmp)
  count := tripCountExpr getVal lower upper stride strideValue type cmp
  cmp := cmp
  lower := lower
  upper := upper
  type := type

/-- A linear sequence compared with an invariant, the sequence on the left. -/
structure LinearControl (ι : Type) where
  stride : Invariant ι
  lower : Invariant ι
  upper : Invariant ι
  inductionType : DataType
  cmp : IfCondition
  deriving DecidableEq, Repr

def IfCondition.swap : IfCondition → Option IfCondition
  | .lt => some .gt
  | .le => some .ge
  | .gt => some .lt
  | .ge => some .le
  | .ne => some .ne
  | .eq => none

def LoopControl.linear (control : LoopControl ι) : Option (LinearControl ι) :=
  match control.a, control.b with
  | .invariant upper, .induction .linear (.invariant stride) (.invariant lower) inductionType =>
    control.cmp.swap.map fun cmp => ⟨stride, lower, upper, inductionType, cmp⟩
  | .induction .linear (.invariant stride) (.invariant lower) inductionType, .invariant upper =>
    some ⟨stride, lower, upper, inductionType, control.cmp⟩
  | _, _ => none

/-- The condition that the loop has after the visit, with the induction on the left-hand side. -/
def LinearControl.rewritten (loop : BreakLoop) (linear : LinearControl ι) (strideValue : Int) (type : DataType) :
    IfCondition :=
  if linear.cmp = .ne ∧ rewriteBreakLoop getVal loop linear.lower linear.upper strideValue type = true then
    if strideValue > 0 then .le else .ge
  else linear.cmp

/-- The strict condition that stands for `i != U` where the end is reached exactly. -/
def strictCondition (lower upper : Invariant ι) (strideValue : Int) (cmp : IfCondition) : IfCondition :=
  if cmp = .ne ∧ ((strideValue = 1 ∧ isTaken getVal lower upper .le = true) ∨
      (strideValue = -1 ∧ isTaken getVal lower upper .ge = true)) then
    if strideValue > 0 then .lt else .gt
  else cmp

/-- A control that `VisitCondition` has accepted: the linear sequence, the condition that the loop has now, the value
    of the stride, and the trip count. -/
structure Visited (ι : Type) where
  linear : LinearControl ι
  cmp : IfCondition
  strideValue : Int
  trip : TripCount ι
  deriving DecidableEq, Repr

def visitCondition (control : LoopControl ι) : Option (Visited ι) := do
  let linear ← control.linear
  let strideValue ← isExact getVal linear.stride
  guard (control.type = .int32 ∨ control.type = .int64)
  let loopCmp := linear.rewritten getVal control.breakLoop strideValue control.type
  let cmp := strictCondition getVal linear.lower linear.upper strideValue loopCmp
  guard (control.type = linear.inductionType ∨
    fitsNarrowerControl getVal linear.lower linear.upper strideValue linear.inductionType cmp = true)
  guard ((strideValue > 0 ∧ (cmp = .lt ∨ cmp = .le)) ∨ (strideValue < 0 ∧ (cmp = .gt ∨ cmp = .ge)))
  return ⟨linear, loopCmp, strideValue,
    visitTripCount getVal linear.lower linear.upper linear.stride strideValue control.type cmp⟩

/-- `HasKnownTripCount`, for the trip count that the loop control has. -/
def hasKnownTripCount (trip : TripCount ι) : Option Int :=
  match trip.kind with
  | .inLoop | .inBody => isExact getVal trip.count
  | .inLoopUnsafe | .inBodyUnsafe => none

end Analysis

end Art.Induction
