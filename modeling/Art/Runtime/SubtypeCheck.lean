import Art.Runtime.BitString

/-! # Bitstring subtype checks

`runtime/subtype_check_info.h` and `runtime/subtype_check.h`. Every class carries a bit string: the path from
the root, one character per class below it, followed by `Next`, the character for the next child. -/

namespace Art.SubtypeCheck
open BitString

/-- The bits of a class: the characters of its path and the overflow bit. -/
structure SubtypeCheckBits where
  bitstring : Nat
  overflow : Bool
  deriving DecidableEq

/-- The states of the bits of a class. -/
inductive State
  | uninitialized
  | initialized
  | assigned
  | overflowed
  deriving DecidableEq

/-- The results of `IsSubtypeOf`. -/
inductive Result
  | unknownSubtypeOf
  | notSubtypeOf
  | subtypeOf
  deriving DecidableEq

/-- The bits of a class with its depth. -/
structure SubtypeCheckInfo where
  depth : Nat
  bits : SubtypeCheckBits

namespace SubtypeCheckInfo

def getSafeDepth (i : SubtypeCheckInfo) : Nat := min i.depth kCapacity

def hasNext (i : SubtypeCheckInfo) : Bool := i.depth < kCapacity

def getNext (i : SubtypeCheckInfo) : Nat := getAt i.bits.bitstring i.depth

def setChar (i : SubtypeCheckInfo) (idx bitchar : Nat) : SubtypeCheckInfo :=
  { i with bits := { i.bits with bitstring := setAt i.bits.bitstring idx bitchar } }

def setNext (i : SubtypeCheckInfo) (next : Nat) : SubtypeCheckInfo := i.setChar i.depth next

def getPathToRoot (i : SubtypeCheckInfo) : Nat := truncate i.bits.bitstring i.getSafeDepth

def getState (i : SubtypeCheckInfo) : State :=
  if i.bits.overflow then .overflowed
  else if i.bits.bitstring = 0 then .uninitialized
  else if length i.getPathToRoot = i.depth then .assigned
  else .initialized

def getEncodedPathToRootMask (i : SubtypeCheckInfo) : Nat := 2 ^ getBitLengthTotalAtPosition i.getSafeDepth - 1

def isSubtypeOf (i target : SubtypeCheckInfo) : Result :=
  if target.getState ≠ .assigned ∨ i.getState = .uninitialized then .unknownSubtypeOf
  else if i.getPathToRoot &&& target.getEncodedPathToRootMask = target.getPathToRoot then .subtypeOf
  else .notSubtypeOf

def createRoot : SubtypeCheckInfo :=
  let io : SubtypeCheckInfo := ⟨0, ⟨0, false⟩⟩
  io.setNext (io.getNext + 1)

def maybeInitNext (i : SubtypeCheckInfo) : SubtypeCheckInfo :=
  if i.hasNext then
    let i := i.setNext 0
    i.setNext (i.getNext + 1)
  else i

/-- The parent's `Next` slot is the last path character of the child. -/
def overwriteNextValueFromParent (parent child : SubtypeCheckInfo) (value : Nat) : SubtypeCheckInfo :=
  if parent.hasNext then child.setChar parent.depth value else child

def markOverflowed (i : SubtypeCheckInfo) : SubtypeCheckInfo := { i with bits := { i.bits with overflow := true } }

/-- `CreateChild`: the new child, and the parent with its updated `Next`. -/
def createChild (i : SubtypeCheckInfo) (assignNext : Bool) : SubtypeCheckInfo × SubtypeCheckInfo :=
  let child : SubtypeCheckInfo := { i with depth := i.depth + 1 }
  let child := child.maybeInitNext
  let child := overwriteNextValueFromParent i child 0
  if assignNext then
    if i.hasNext && !i.bits.overflow then
      let next := i.getNext
      if next ≠ maximumValue i.depth then (overwriteNextValueFromParent i child next, i.setNext (next + 1))
      else (child.markOverflowed, i)  -- Too wide.
    else (child.markOverflowed, i)  -- Too deep, or parent was already overflowed.
  else (child, i)

end SubtypeCheckInfo

/-! ### Classes -/

/-- The classes by their superclass, with one root. -/
structure ClassTree (C : Type) where
  parent : C → Option C
  depth : C → Nat
  depth_root : ∀ c, parent c = none → depth c = 0
  depth_child : ∀ c p, parent c = some p → depth c = depth p + 1
  root_unique : ∀ c c', parent c = none → parent c' = none → c = c'

section

variable {C : Type} [DecidableEq C] (T : ClassTree C)

/-- The bits of every class, all zero at first. -/
abbrev Store (C : Type) := C → SubtypeCheckBits

def Store.empty : Store C := fun _ => ⟨0, false⟩

def getSubtypeCheckInfo (st : Store C) (klass : C) : SubtypeCheckInfo := ⟨T.depth klass, st klass⟩

def setSubtypeCheckInfo (st : Store C) (klass : C) (info : SubtypeCheckInfo) : Store C :=
  Function.update st klass info.bits

/-- The part of `InitializeOrAssign` after the parent has been forced to `Assigned | Overflowed`. -/
def initializeOrAssignChild (st : Store C) (klass parentKlass : C) (assign : Bool) : Store C :=
  let sci := getSubtypeCheckInfo T st klass
  let parentSci := getSubtypeCheckInfo T st parentKlass
  if sci.getState = .uninitialized ∨ (sci.getState = .initialized ∧ assign = true) then
    let (sci, parentSci) := parentSci.createChild assign
    setSubtypeCheckInfo (setSubtypeCheckInfo st klass sci) parentKlass parentSci
  else st

def initializeRoot (st : Store C) (klass : C) : Store C :=
  if (getSubtypeCheckInfo T st klass).getState ≠ .uninitialized then st
  else setSubtypeCheckInfo st klass SubtypeCheckInfo.createRoot

/-- `InitializeOrAssign`, by recursion on the depth of the class. -/
def initializeOrAssignAt (st : Store C) : Nat → C → Bool → Store C
  | depth, klass, assign =>
    match T.parent klass, depth with
    | none, _ => initializeRoot T st klass
    | some parentKlass, depth + 1 =>
      initializeOrAssignChild T (initializeOrAssignAt st depth parentKlass true) klass parentKlass assign
    | some _, 0 => st

def initializeOrAssign (st : Store C) (klass : C) (assign : Bool) : Store C :=
  initializeOrAssignAt T st (T.depth klass) klass assign

/-- The calls that change the bits of classes. -/
inductive Call (C : Type)
  | ensureInitialized (klass : C)
  | ensureAssigned (klass : C)

def call (st : Store C) : Call C → Store C
  | .ensureInitialized klass => initializeOrAssign T st klass false
  | .ensureAssigned klass => initializeOrAssign T st klass true

def run (calls : List (Call C)) : Store C := calls.foldl (call T) .empty

def getState (st : Store C) (klass : C) : State := (getSubtypeCheckInfo T st klass).getState

def isSubtypeOf (st : Store C) (source target : C) : Result :=
  (getSubtypeCheckInfo T st source).isSubtypeOf (getSubtypeCheckInfo T st target)

end

end Art.SubtypeCheck
