import Art.Lib.OrderedMap
import Mathlib.Data.List.FinRange
import Mathlib.Algebra.Group.Nat.Defs

/-! Register lines of the method verifier (`verifier/register_line.cc`): the merge of an incoming line into the
    line of an instruction, over any register types. -/

namespace Art.Verifier

/-- The register types, as far as a line uses them. -/
structure RegTypes (τ : Type) where
  conflict : τ
  /-- `RegType::Merge` of two different types. -/
  merge : τ → τ → τ

/-- `RegToLockDepthsMap`: the locks that a register is known to hold, as a mask of indices into the stack of
    monitors. The register `kVirtualNullRegister` is above all registers of a method. -/
abbrev LockDepths := Lib.OrderedMap Nat Nat

def kVirtualNullRegister : Nat := 2 ^ 32 - 1

/-- The types and the locks of the registers before an instruction. -/
@[ext] structure RegisterLine (τ : Type) (numRegs : Nat) where
  line : Fin numRegs → τ
  /-- The instructions that entered the monitors. -/
  monitors : List Nat
  regToLockDepths : LockDepths
  thisInitialized : Bool

def findLockAliasedRegister (src : Nat) (srcMap searchMap : LockDepths) : Bool :=
  match srcMap.find? src with
  | none => true
  | some srcLockLevels =>
    if srcLockLevels = 0 then true
    else searchMap.entries.any fun pair => decide (pair.1 ≠ src) && decide (pair.2 = srcLockLevels)

/-- The loop over the registers whose locks may differ, and whether it found a lock without an alias. -/
def mergeLockDepths (incoming : LockDepths) : List Nat → LockDepths → LockDepths × Bool
  | [], locks => (locks, false)
  | idx :: rest, locks =>
    let drop :=
      if !findLockAliasedRegister idx locks locks || !findLockAliasedRegister idx incoming locks then (locks, true)
      else mergeLockDepths incoming rest (locks.erase idx)
    match locks.find? idx, incoming.find? idx with
    | none, none => mergeLockDepths incoming rest locks
    | none, some _ => drop
    | some _, none => drop
    | some lockedLevels, some incomingLockedLevels =>
      if lockedLevels ≠ incomingLockedLevels then drop else mergeLockDepths incoming rest locks

/-- What `MergeRegisters` returns: the line, whether it changed and whether locks disagree. -/
structure Merged (τ : Type) (numRegs : Nat) where
  line : RegisterLine τ numRegs
  changed : Bool
  /-- `VERIFY_ERROR_LOCKING`, which does not stop the verifier. -/
  lockingError : Bool

namespace RegisterLine

variable {τ : Type} {numRegs : Nat}

section Merge

variable [DecidableEq τ] (types : RegTypes τ) (target incoming : RegisterLine τ numRegs)

def mergeType (cur incoming : τ) : τ := if cur ≠ incoming then types.merge cur incoming else cur

def mergeLocks : LockDepths × Bool :=
  if target.monitors.length > 0 ∨ incoming.monitors.length > 0 then
    if target.monitors.length ≠ incoming.monitors.length then (target.regToLockDepths, true)
    else if target.regToLockDepths ≠ incoming.regToLockDepths then
      mergeLockDepths incoming.regToLockDepths (List.range numRegs) target.regToLockDepths
    else (target.regToLockDepths, false)
  else (target.regToLockDepths, false)

/-- `MergeRegisters`. No merge of a register reads another register. -/
def mergeRegisters : Merged τ numRegs :=
  let line idx := mergeType types (target.line idx) (incoming.line idx)
  let typesChanged := (List.finRange numRegs).any fun idx => decide (target.line idx ≠ line idx)
  let locks := mergeLocks target incoming
  let thisLost := target.thisInitialized && !incoming.thisInitialized
  { line :=
      { line, monitors := target.monitors, regToLockDepths := locks.1,
        thisInitialized := if thisLost then false else target.thisInitialized }
    changed := typesChanged || thisLost
    lockingError := locks.2 }

end Merge

/-- `MarkAllRegistersAsConflicts` and the variants that keep the registers of a return value. -/
def markAllRegistersAsConflictsExcept (types : RegTypes τ) (keeps : Nat → Bool) (l : RegisterLine τ numRegs) :
    RegisterLine τ numRegs :=
  { l with line := fun idx => if keeps idx then l.line idx else types.conflict }

end RegisterLine

end Art.Verifier
