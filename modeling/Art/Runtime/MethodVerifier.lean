import Art.Runtime.RegisterLine
import Mathlib.Logic.Function.Basic

/-! The dataflow of the method verifier (`verifier/method_verifier.cc`): the loop over the instructions that are
    marked as changed, and the lines that it passes on. What a single instruction does to a line is a
    parameter. -/

namespace Art.Verifier

variable {τ : Type} {numRegs : Nat}

/-- The return instructions, with the register they return. -/
inductive ReturnInst
  | returnVoid
  | return (vregA : Nat)
  | returnWide (vregA : Nat)
  deriving DecidableEq, Repr

def ReturnInst.keeps : ReturnInst → Nat → Bool
  | returnVoid, _ => false
  | .return vregA, idx => idx == vregA
  | returnWide vregA, idx => idx == vregA || idx == vregA + 1

/-- What `CodeFlowVerifyInstruction` makes of a line. -/
structure Outcome (τ : Type) (numRegs : Nat) where
  /-- The lines for the branch target, the switch targets and the exception handlers, in the order in which
      they are passed on. -/
  updates : List (Nat × RegisterLine τ numRegs)
  workLine : RegisterLine τ numRegs
  /-- The next instruction, if this one can continue with it. -/
  next : Option Nat
  startGuess : Option Nat

/-- The method under verification, as far as the merging of lines reads it. -/
structure Method (τ : Type) (numRegs : Nat) where
  types : RegTypes τ
  insnsSize : Nat
  isBranchTarget : Nat → Bool
  /-- An instruction whose line is recorded although it may be no branch target. -/
  interestingDexPc : Option Nat
  returnInst : Nat → Option ReturnInst
  isInstanceConstructor : Bool
  /-- `none` is a hard failure. -/
  verifyInstruction : Nat → RegisterLine τ numRegs → Option (Outcome τ numRegs)
  insnsSize_pos : 0 < insnsSize
  isBranchTarget_zero : isBranchTarget 0 = true
  isBranchTarget_update : ∀ {insn line out target l}, verifyInstruction insn line = some out →
    (target, l) ∈ out.updates → target < insnsSize ∧ isBranchTarget target = true
  /-- An instruction that passes a line on to itself is a jump or throws before it does anything. -/
  update_self : ∀ {insn line out l}, verifyInstruction insn line = some out → (insn, l) ∈ out.updates → l = line
  next_spec : ∀ {insn line out next}, verifyInstruction insn line = some out → out.next = some next →
    insn < next ∧ next < insnsSize ∧ out.startGuess = some next

/-- The state between two instructions: the register table, the flags of the instructions, and the line that is
    carried on to an instruction that is no branch target. -/
structure FlowState (τ : Type) (numRegs : Nat) where
  regTable : Nat → RegisterLine τ numRegs
  visited : Nat → Bool
  changed : Nat → Bool
  workLine : RegisterLine τ numRegs
  startGuess : Nat

namespace Method

variable (m : Method τ numRegs)

/-- `PcToRegisterLineTable::Init`: the instructions with a line of their own. -/
def isRecorded (insn : Nat) : Bool := m.interestingDexPc == some insn || m.isBranchTarget insn

def adjustReturnLine (insn : Nat) (line : RegisterLine τ numRegs) : Option (RegisterLine τ numRegs) :=
  match m.returnInst insn with
  | none => some line
  | some inst =>
    if inst = .returnVoid ∧ m.isInstanceConstructor ∧ !line.thisInitialized then none
    else some (line.markAllRegistersAsConflictsExcept m.types inst.keeps)

variable [DecidableEq τ]

/-- `UpdateRegisters`, with the line that was merged afterwards. -/
def updateRegisters (s : FlowState τ numRegs) (nextInsn : Nat) (mergeLine : RegisterLine τ numRegs)
    (updateMergeLine : Bool) : Option (FlowState τ numRegs × RegisterLine τ numRegs) :=
  if !(s.visited nextInsn || s.changed nextInsn) then do
    let line ← m.adjustReturnLine nextInsn mergeLine
    some ({ s with regTable := Function.update s.regTable nextInsn line
                   changed := Function.update s.changed nextInsn true }, mergeLine)
  else
    let merged := (s.regTable nextInsn).mergeRegisters m.types mergeLine
    let s' := { s with regTable := Function.update s.regTable nextInsn merged.line }
    if merged.changed then
      some ({ s' with changed := Function.update s.changed nextInsn true },
        if updateMergeLine then merged.line else mergeLine)
    else some (s', mergeLine)

def updateAll : List (Nat × RegisterLine τ numRegs) → FlowState τ numRegs → Option (FlowState τ numRegs)
  | [], s => some s
  | (target, line) :: rest, s => do
    let (s', _) ← m.updateRegisters s target line false
    updateAll rest s'

def updateNext (s : FlowState τ numRegs) (next : Nat) (workLine : RegisterLine τ numRegs) :
    Option (FlowState τ numRegs) := do
  let line ← m.adjustReturnLine next workLine
  if m.isRecorded next then do
    let (s', line') ← m.updateRegisters s next line true
    some { s' with workLine := line' }
  else some { s with changed := Function.update s.changed next true, workLine := line }

def lineAt (s : FlowState τ numRegs) (insn : Nat) : RegisterLine τ numRegs :=
  if m.isBranchTarget insn then s.regTable insn else s.workLine

/-- `CodeFlowVerifyInstruction` with what the loop does before and after it. -/
def codeFlowVerifyInstruction (s : FlowState τ numRegs) (insn : Nat) : Option (FlowState τ numRegs) := do
  let out ← m.verifyInstruction insn (m.lineAt s insn)
  let s ← m.updateAll out.updates s
  let s ← (match out.next with
    | none => some { s with workLine := out.workLine }
    | some next => m.updateNext s next out.workLine)
  some { s with
    startGuess := out.startGuess.getD s.startGuess
    visited := Function.update s.visited insn true
    changed := Function.update s.changed insn false }

/-- The first instruction that is marked as changed, from the guess on. -/
def findChanged (s : FlowState τ numRegs) (guess : Nat) : Option Nat :=
  (List.range' guess (m.insnsSize - guess)).find? s.changed

def select (s : FlowState τ numRegs) : Option (Nat × Nat) :=
  match m.findChanged s s.startGuess with
  | some insn => some (insn, s.startGuess)
  | none => (m.findChanged s 0).map fun insn => (insn, 0)

def start (regTable : Nat → RegisterLine τ numRegs) : FlowState τ numRegs where
  regTable
  visited _ := false
  changed insn := insn == 0
  workLine := regTable 0
  startGuess := 0

/-- `CodeFlowVerifyMethod`: `none` if an instruction fails or the fuel is used up. -/
def codeFlowVerifyMethod : Nat → FlowState τ numRegs → Option (FlowState τ numRegs)
  | 0, _ => none
  | fuel + 1, s =>
    match m.select s with
    | none => some s
    | some (insn, guess) => do
      let s' ← m.codeFlowVerifyInstruction { s with startGuess := guess } insn
      codeFlowVerifyMethod fuel s'

end Method

end Art.Verifier
