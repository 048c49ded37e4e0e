import Art.Lib.BinaryFloat
import Art.Lib.UndoLog
import Art.Runtime.InternTable

/-! # Transactions

The undo logs of `runtime/transaction.cc`: what the setters of `mirror::Object` and
`PrimitiveArray::SetWithoutChecks` record while a transaction is active, and what `Rollback` writes back.

The heap is modelled by its fields and array elements, each with its own kind, as bit patterns. A volatile
access differs from a plain one only in its memory order. -/

namespace Art.Transaction
open Lib Interns

/-- The kinds of a logged field value. -/
inductive FieldValueKind
  | boolean
  | byte
  | char
  | short
  | bits32
  | bits64
  | reference
  deriving DecidableEq

/-- The size of a field; a reference is a 32-bit `HeapReference`. -/
def FieldValueKind.width : FieldValueKind → Nat
  | boolean | byte => 8
  | char | short => 16
  | bits32 | reference => 32
  | bits64 => 64

/-- The types of the elements of primitive arrays. -/
inductive PrimitiveType
  | boolean
  | byte
  | char
  | short
  | int
  | long
  | float
  | double
  deriving DecidableEq

namespace PrimitiveType

def width : PrimitiveType → Nat
  | boolean | byte => 8
  | char | short => 16
  | int | float => 32
  | long | double => 64

def format : PrimitiveType → Option BinaryFormat
  | float => some ⟨23, 8, by decide⟩
  | double => some ⟨52, 11, by decide⟩
  | _ => none

def isSigned : PrimitiveType → Bool
  | byte | short | int | long => true
  | _ => false

end PrimitiveType

/-- Which objects are arrays, and the kinds of fields (by object and offset) and array elements. -/
structure Layout where
  isArray : Nat → Bool
  fieldKind : Nat × Nat → FieldValueKind
  elementType : Nat → PrimitiveType

abbrev Layout.Fields (L : Layout) := ∀ f : Nat × Nat, BitVec (L.fieldKind f).width
abbrev Layout.Elements (L : Layout) := ∀ e : Nat × Nat, BitVec (L.elementType e.1).width

/-- What a transaction can change: fields by object and offset, array elements by array and index, and
    the intern table. -/
structure Heap (L : Layout) where
  fields : L.Fields
  elements : L.Elements
  interns : InternTable

/-! ### Logs -/

/-- A logged field value. -/
structure FieldValue where
  value : BitVec 64
  kind : FieldValueKind
  isVolatile : Bool
  deriving DecidableEq

/-- `InternStringLog`: what undoing has to take back. -/
structure InternStringLog where
  str : Str
  strong : Bool
  inserted : Bool

/-- The logs of a transaction. -/
structure Logs where
  objectLogs : UndoLog Nat Nat FieldValue
  arrayLogs : UndoLog Nat Nat (BitVec 64)
  internStringLogs : List InternStringLog

def Logs.empty : Logs := ⟨∅, ∅, []⟩

/-- The entry made for a field that holds `old`, by `RecordWriteField*` and the `Log*Value` it calls.
    `SetFieldShort` records a char; only `UpdateFieldShortViaAccessor` records a short. Reference fields
    are always recorded as volatile. -/
def recordWriteField (kind : FieldValueKind) (old : BitVec kind.width) (viaAccessor isVolatile : Bool) : FieldValue :=
  match kind with
  | .boolean => ⟨old.setWidth 64, .boolean, isVolatile⟩
  | .byte => ⟨old.signExtend 64, .byte, isVolatile⟩
  | .char => ⟨old.setWidth 64, .char, isVolatile⟩
  | .short => if viaAccessor then ⟨old.signExtend 64, .short, isVolatile⟩ else ⟨old.setWidth 64, .char, isVolatile⟩
  | .bits32 => ⟨old.setWidth 64, .bits32, isVolatile⟩
  | .bits64 => ⟨old.setWidth 64, .bits64, isVolatile⟩
  | .reference => ⟨old.setWidth 64, .reference, true⟩

/-- The value that `RecordWriteArray` gets for an element that holds `old`: the C++ conversion of the
    element to `uint64_t`. `undefined` stands for the result of an undefined conversion. -/
def recordWriteArray (type : PrimitiveType) (old : BitVec type.width) (undefined : BitVec 64) : BitVec 64 :=
  match type.format with
  | some F => .ofNat 64 ((F.toUint64 old.toNat).getD undefined.toNat)
  | none => if type.isSigned then old.signExtend 64 else old.setWidth 64

def logOf : Action → InternStringLog
  | .insertStrong s => ⟨s, true, true⟩
  | .insertWeak s => ⟨s, false, true⟩
  | .removeWeak s => ⟨s, false, false⟩

/-! ### Writes in an active transaction -/

/-- The writes of a program in a transaction. -/
inductive Op (L : Layout)
  /-- A setter, or an exchange that succeeds: the field's value is recorded. -/
  | setField (object offset : Nat) (value : BitVec (L.fieldKind (object, offset)).width) (viaAccessor isVolatile : Bool)
  /-- `CasField*`; a weak one may fail spuriously. -/
  | casField (object offset : Nat) (expected value : BitVec (L.fieldKind (object, offset)).width) (spuriously : Bool)
  | setElement (array index : Nat) (value : BitVec (L.elementType array).width)
  | intern (action : Action)

variable {L : Layout}

def step (undefined : Nat × Nat → BitVec 64) (h : Heap L) (logs : Logs) : Op L → Option (Heap L × Logs)
  | .setField object offset value viaAccessor isVolatile =>
    let entry := recordWriteField (L.fieldKind (object, offset)) (h.fields (object, offset)) viaAccessor isVolatile
    some ({ h with fields := Function.update h.fields (object, offset) value },
      { logs with objectLogs := logs.objectLogs.logValue object offset entry })
  -- The expected value is recorded before the comparison, which can fail.
  | .casField object offset expected value spuriously =>
    let entry := recordWriteField (L.fieldKind (object, offset)) expected false true
    let held := h.fields (object, offset)
    let value := if held = expected ∧ spuriously = false then value else held
    some ({ h with fields := Function.update h.fields (object, offset) value },
      { logs with objectLogs := logs.objectLogs.logValue object offset entry })
  | .setElement array index value =>
    let entry := recordWriteArray (L.elementType array) (h.elements (array, index)) (undefined (array, index))
    some ({ h with elements := Function.update h.elements (array, index) value },
      { logs with arrayLogs := logs.arrayLogs.logValue array index entry })
  | .intern action =>
    (h.interns.apply action).map fun interns =>
      ({ h with interns }, { logs with internStringLogs := logOf action :: logs.internStringLogs })

def run (undefined : Nat × Nat → BitVec 64) (h : Heap L) (logs : Logs) : List (Op L) → Option (Heap L × Logs)
  | [] => some (h, logs)
  | op :: ops => (step undefined h logs op).bind fun (h, logs) => run undefined h logs ops

/-! ### Rollback -/

/-- The offsets of `Object::klass_` and `Array::length_`. -/
def classOffset : Nat := 0
def lengthOffset : Nat := 8

/-- The fields that `ObjectLog::Undo` skips. -/
def skipped (L : Layout) (f : Nat × Nat) : Bool := f.2 = classOffset || (L.isArray f.1 && f.2 = lengthOffset)

/-- `UndoFieldWrite`: the setter of the logged kind writes the logged value, cut to the size of the kind. -/
def undoFieldWrite (object offset : Nat) (entry : FieldValue) (fields : L.Fields) : L.Fields :=
  if skipped L (object, offset) then fields
  else Function.update fields (object, offset) ((entry.value.setWidth entry.kind.width).setWidth _)

/-- The conversion from `uint64_t` to the element type in `UndoArrayWrite`. -/
def undoArrayValue (type : PrimitiveType) (value : BitVec 64) : BitVec type.width :=
  match type.format with
  | some F => .ofNat _ (F.ofUint64 value.toNat)
  | none => value.setWidth _

def undoArrayWrite (array index : Nat) (value : BitVec 64) (elements : L.Elements) : L.Elements :=
  Function.update elements (array, index) (undoArrayValue (L.elementType array) value)

def InternStringLog.undo (log : InternStringLog) (t : InternTable) : Option InternTable :=
  match log.inserted, log.strong with
  | true, true => t.removeStrong log.str
  | true, false => t.removeWeak log.str
  | false, true => some (t.insertStrong log.str)
  | false, false => some (t.insertWeak log.str)

/-- Undo from the most recent change to the oldest. -/
def undoInternStringTableModifications : List InternStringLog → InternTable → Option InternTable
  | [], t => some t
  | log :: logs, t => (log.undo t).bind (undoInternStringTableModifications logs)

def rollback (h : Heap L) (logs : Logs) : Option (Heap L) :=
  (undoInternStringTableModifications logs.internStringLogs h.interns).map fun interns =>
    { fields := logs.objectLogs.undo undoFieldWrite h.fields
      elements := logs.arrayLogs.undo undoArrayWrite h.elements
      interns }

end Art.Transaction
