import Art.Lib.Scan

/-! The checks of single items in `dex_file_verifier.cc`, over the bytes of a container that may be anything. Offsets
    count from `offset_base_address_`; a byte is read wherever the source reads it, and the reads are logged. Of the
    failure reasons the texts are kept, without the numbers in them. -/

namespace Art.DexFileVerifier

open Lib Lib.Scan

/-- What the checks know of the file. `memory` goes on beyond `EndOfFile()`, which is at `size`; the data section ends
    within the file. -/
structure Container where
  memory : Nat → UInt8
  size : Nat
  dataEnd : Nat
  dataEnd_le : dataEnd ≤ size
  stringIdsSize : Nat
  typeIdsSize : Nat
  protoIdsSize : Nat
  fieldIdsSize : Nat
  methodIdsSize : Nat
  numMethodHandles : Nat
  dexVersion : Nat

section Checks

variable (c : Container)

/-- `CheckListSize`: `count` elements fit between `start` and the end of the file. -/
def checkListSize (start count elemSize : Nat) (label : String) : Scan Bool :=
  if start > c.size then do
    setFailureReason s!"Offset beyond end of file for {label}"
    return false
  else if (c.size - start) / elemSize < count then do
    setFailureReason s!"List too large for {label}"
    return false
  else return true

def checkIndex (field : UInt32) (limit : Nat) (label : String) : Scan Bool :=
  if field.toNat ≥ limit then do
    setFailureReason s!"Bad index for {label}"
    return false
  else return true

def nextByte : Scan UInt8 := do
  let p ← getPtr
  let byte ← readAt c.memory p
  setPtr (p + 1)
  return byte

/-! ### LEB128 -/

/-- A LEB128 number at `p`, with at most `more` bytes after the next one; the bits of the fifth byte that do not fit
    are dropped. `inRange` is the check made before each byte. -/
def decodeLeb128 (inRange : Nat → Bool) : Nat → UInt32 → Nat → Scan (Option (UInt32 × Nat))
  | 0, result, p =>
    if inRange p = true then do
      let cur ← readAt c.memory p
      return some (result ||| cur.toUInt32 <<< 28, p + 1)
    else return none
  | more + 1, result, p =>
    if inRange p = true then do
      let cur ← readAt c.memory p
      let result := result ||| (cur.toUInt32 &&& 0x7f) <<< UInt32.ofNat (7 * (3 - more))
      if cur > 0x7f then decodeLeb128 inRange more result (p + 1) else return some (result, p + 1)
    else return none

def decodeUnsignedLeb128Checked (fileEnd : Nat) (p : Nat) : Scan (Option (UInt32 × Nat)) :=
  decodeLeb128 c (· < fileEnd) 4 0 p

def decodeUnsignedLeb128 (p : Nat) : Scan (Option (UInt32 × Nat)) := decodeLeb128 c (fun _ => true) 4 0 p

/-- The sign extension of a number of `count` bytes. -/
def signExtendLeb128 (value : UInt32) (count : Nat) : Int :=
  if count < 5 then ((value.toBitVec <<< (32 - 7 * count)).sshiftRight (32 - 7 * count)).toInt
  else value.toBitVec.toInt

def decodeUnsignedCheckedFrom : Scan UInt32 := do
  let p ← getPtr
  match ← decodeUnsignedLeb128Checked c c.size p with
  | some (value, q) => do
    setPtr q
    return value
  | none => error "Read out of bounds"

/-- `DECODE_SIGNED_CHECKED_FROM(ptr_, ...)`, which checks the bytes in the same way. -/
def decodeSignedCheckedFrom : Scan Int := do
  let p ← getPtr
  match ← decodeUnsignedLeb128Checked c c.size p with
  | some (value, q) => do
    setPtr q
    return signExtendLeb128 value (q - p)
  | none => error "Read out of bounds"

/-! ### Lists and padding -/

/-- The little-endian number of four bytes at `p`. -/
def readUInt32 (p : Nat) : Scan UInt32 := do
  let b0 ← readAt c.memory p
  let b1 ← readAt c.memory (p + 1)
  let b2 ← readAt c.memory (p + 2)
  let b3 ← readAt c.memory (p + 3)
  return b0.toUInt32 ||| b1.toUInt32 <<< 8 ||| b2.toUInt32 <<< 16 ||| b3.toUInt32 <<< 24

/-- `CheckList`, with the pointer that it moves. -/
def checkList (elementSize : Nat) (label : String) (ptr : Nat) : Scan Nat := do
  require (checkListSize c ptr 1 4 label)
  let count ← readUInt32 c ptr
  if count > 0 then require (checkListSize c (ptr + 4) count.toNat elementSize label)
  return ptr + 4 + count.toNat * elementSize

def checkZeros : Nat → Scan Unit
  | 0 => return ()
  | n + 1 => do
    let p ← getPtr
    let byte ← readAt c.memory p
    if byte ≠ 0 then error "Non-zero padding before section"
    else do
      setPtr (p + 1)
      checkZeros n

def checkPadding (alignedOffset : Nat) : Scan Unit := do
  let offset ← getPtr
  if offset < alignedOffset then do
    require (checkListSize c offset (alignedOffset - offset) 1 "section")
    if c.dexVersion ≥ 41 then setPtr alignedOffset else checkZeros c (alignedOffset - offset)
  else return ()

/-! ### Encoded values -/

/-- The bytes of a little-endian number, from byte `i` on. -/
def readBytes : Nat → Nat → UInt32 → Scan UInt32
  | 0, _, result => return result
  | n + 1, i, result => do
    let byte ← nextByte c
    readBytes n (i + 1) (result ||| byte.toUInt32 <<< UInt32.ofNat (i * 8))

/-- `ReadUnsignedLittleEndian`: without enough bytes the result is zero, and the failure is only recorded. -/
def readUnsignedLittleEndian (size : Nat) : Scan UInt32 := do
  let p ← getPtr
  if ← checkListSize c p size 1 "encoded_value" then readBytes c size 0 0 else return 0

def checkEncodedIndex (valueArg : Nat) (limit : Nat) (kind label : String) : Scan Unit := do
  if valueArg > 3 then error s!"Bad encoded_value {kind} size"
  else do
    let idx ← readUnsignedLittleEndian c (valueArg + 1)
    require (checkIndex idx limit label)

def skipEncoded (valueArg maxArg : Nat) (kind : String) : Scan Unit := do
  if valueArg > maxArg then error s!"Bad encoded_value {kind} size"
  else do
    let p ← getPtr
    setPtr (p + valueArg + 1)

def checkArg (valueArg maxArg : Nat) (reason : String) (next : Scan Unit) : Scan Unit :=
  if valueArg > maxArg then error reason else next

/-- `CheckEncodedArray`, given the check of a value. -/
def checkArrayOf (checkValue : Scan Unit) : Scan Unit := do
  let size ← decodeUnsignedCheckedFrom c
  repeatTimes (mapFailure (fun reason => s!"Bad encoded_array value: {reason}") checkValue) size.toNat

/-- The elements of an annotation that are left, after the name `lastIdx` unless there was none. -/
def checkElementsOf (checkValue : Scan Unit) : Nat → Option UInt32 → Scan Unit
  | 0, _ => return ()
  | n + 1, lastIdx => do
    let idx ← decodeUnsignedCheckedFrom c
    require (checkIndex idx c.stringIdsSize "annotation_element name_idx")
    if lastIdx.any (· ≥ idx) = true then error "Out-of-order annotation_element name_idx"
    else do
      checkValue
      checkElementsOf checkValue n (some idx)

/-- `CheckEncodedAnnotation`, given the check of a value. -/
def checkAnnotationOf (checkValue : Scan Unit) : Scan Unit := do
  let annoIdx ← decodeUnsignedCheckedFrom c
  require (checkIndex annoIdx c.typeIdsSize "encoded_annotation type_idx")
  let size ← decodeUnsignedCheckedFrom c
  checkElementsOf c checkValue size.toNat none

/-- `CheckEncodedValue`, with a bound of the nesting. -/
def checkEncodedValueWithin : Nat → Scan Unit
  | 0 => stuck
  | depth + 1 => do
    let p ← getPtr
    require (checkListSize c p 1 1 "encoded_value header")
    let headerByte ← nextByte c
    let valueType := (headerByte &&& 0x1f).toNat
    let valueArg := (headerByte >>> 5).toNat
    match valueType with
    | 0x00 => skipEncoded valueArg 0 "byte"
    | 0x02 | 0x03 => skipEncoded valueArg 1 "char/short"
    | 0x04 | 0x10 => skipEncoded valueArg 3 "int/float"
    | 0x06 | 0x11 => skipEncoded valueArg 7 "long/double"
    | 0x17 => checkEncodedIndex c valueArg c.stringIdsSize "string" "encoded_value string"
    | 0x18 => checkEncodedIndex c valueArg c.typeIdsSize "type" "encoded_value type"
    | 0x19 | 0x1b => checkEncodedIndex c valueArg c.fieldIdsSize "field/enum" "encoded_value field"
    | 0x1a => checkEncodedIndex c valueArg c.methodIdsSize "method" "encoded_value method"
    | 0x1c =>
      checkArg valueArg 0 "Bad encoded_value array value_arg" (checkArrayOf c (checkEncodedValueWithin depth))
    | 0x1d =>
      checkArg valueArg 0 "Bad encoded_value annotation value_arg"
        (checkAnnotationOf c (checkEncodedValueWithin depth))
    | 0x1e => checkArg valueArg 0 "Bad encoded_value null value_arg" (return ())
    | 0x1f => checkArg valueArg 1 "Bad encoded_value boolean size" (return ())
    | 0x15 => checkEncodedIndex c valueArg c.protoIdsSize "method type" "method_type value"
    | 0x16 => checkEncodedIndex c valueArg c.numMethodHandles "method handle" "method_handle value"
    | _ => error "Bogus encoded_value value_type"

/-- A value takes a byte at least, so that values cannot be nested deeper than the file is long. -/
def checkEncodedValue : Scan Unit := checkEncodedValueWithin c (c.size + 1)

def checkEncodedArray : Scan Unit := checkArrayOf c (checkEncodedValue c)

def checkEncodedAnnotation : Scan Unit := checkAnnotationOf c (checkEncodedValue c)

/-! ### Class data -/

/-- A number of the data section at a local pointer. -/
def decodeFrom (reason : String) (ptr : Nat) : Scan (UInt32 × Nat) := do
  match ← decodeUnsignedLeb128Checked c c.dataEnd ptr with
  | some result => return result
  | none => error reason

def checkOrder (typeDescr : String) (currIndex prevIndex : UInt32) : Scan Bool :=
  if currIndex < prevIndex then do
    setFailureReason s!"out-of-order {typeDescr} indexes"
    return false
  else return true

def checkFieldsFrom (isStatic : Bool) : Nat → UInt32 → Nat → Scan Nat
  | 0, _, ptr => return ptr
  | n + 1, prevIndex, ptr => do
    let (fieldIdxDiff, ptr) ← decodeFrom c "encoded_field read out of bounds" ptr
    let (accessFlags, ptr) ← decodeFrom c "encoded_field read out of bounds" ptr
    let currIndex := prevIndex + fieldIdxDiff
    require (checkIndex currIndex c.fieldIdsSize "class_data_item field_idx")
    require (checkOrder (if isStatic then "static field" else "instance field") currIndex prevIndex)
    if ((accessFlags &&& 0x8) != 0) ≠ isStatic then error "Static/instance field not in expected list"
    else checkFieldsFrom isStatic n currIndex ptr

def checkIntraClassDataItemFields (isStatic : Bool) (count : Nat) : Scan Unit := do
  let ptr ← getPtr
  let ptr ← checkFieldsFrom c isStatic count 0 ptr
  setPtr ptr

/-- `ClassAccessor::Method`, as far as it is read again. -/
structure Method where
  ptrPos : Nat
  index : UInt32
  deriving DecidableEq, Repr

/-- A number of a method that has been checked before. -/
def decodeAgain (ptr : Nat) : Scan (UInt32 × Nat) := do
  match ← decodeUnsignedLeb128 c ptr with
  | some result => return result
  | none => fail

def Method.read (m : Method) : Scan Method := do
  let (diff, ptr) ← decodeAgain c m.ptrPos
  let (_, ptr) ← decodeAgain c ptr
  let (_, ptr) ← decodeAgain c ptr
  return ⟨ptr, m.index + diff⟩

def Method.readFirst (m : Method) (count : Nat) : Scan Method := if count ≠ 0 then m.read c else return m

/-- Keep up with the direct methods: none of them has the index of the virtual method. -/
def keepUp (currIndex : UInt32) : Nat → Method → Scan (Nat × Method)
  | 0, direct => return (0, direct)
  | remaining + 1, direct =>
    if direct.index > currIndex then return (remaining + 1, direct)
    else if direct.index = currIndex then error "Found virtual method with same index as direct method"
    else if remaining = 0 then return (0, direct)
    else do
      let direct ← direct.read c
      keepUp currIndex remaining direct

def checkMethodsFrom (typeDescr : String) : Nat → Nat × Method → UInt32 → Nat → Scan Nat
  | 0, _, _, ptr => return ptr
  | n + 1, (remaining, direct), prevIndex, ptr => do
    let (methodIdxDiff, ptr) ← decodeFrom c "encoded_method read out of bounds" ptr
    let (_, ptr) ← decodeFrom c "encoded_method read out of bounds" ptr
    let (_, ptr) ← decodeFrom c "encoded_method read out of bounds" ptr
    let currIndex := prevIndex + methodIdxDiff
    require (checkIndex currIndex c.methodIdsSize "class_data_item method_idx")
    require (checkOrder typeDescr currIndex prevIndex)
    let direct ← keepUp c currIndex remaining direct
    checkMethodsFrom typeDescr n direct currIndex ptr

/-- The direct methods are read again from `directMethods`, if there are any. -/
def checkIntraClassDataItemMethods (typeDescr : String) (numMethods : Nat) (directMethods : Method)
    (numDirectMethods : Nat) : Scan Unit := do
  let ptr ← getPtr
  let direct ← directMethods.readFirst c numDirectMethods
  let ptr ← checkMethodsFrom c typeDescr numMethods (numDirectMethods, direct) 0 ptr
  setPtr ptr

def checkIntraClassDataItem : Scan Unit := do
  let ptr ← getPtr
  let (staticFieldsSize, ptr) ← decodeFrom c "class_data_item read out of bounds" ptr
  let (instanceFieldsSize, ptr) ← decodeFrom c "class_data_item read out of bounds" ptr
  let (directMethodsSize, ptr) ← decodeFrom c "class_data_item read out of bounds" ptr
  let (virtualMethodsSize, ptr) ← decodeFrom c "class_data_item read out of bounds" ptr
  setPtr ptr
  checkIntraClassDataItemFields c true staticFieldsSize.toNat
  checkIntraClassDataItemFields c false instanceFieldsSize.toNat
  let directMethodsPtr ← getPtr
  checkIntraClassDataItemMethods c "direct method" directMethodsSize.toNat ⟨directMethodsPtr, 0⟩ 0
  checkIntraClassDataItemMethods c "virtual method" virtualMethodsSize.toNat ⟨directMethodsPtr, 0⟩
    directMethodsSize.toNat

/-! ### Strings -/

def nextContinuation : Scan UInt8 := do
  let byte ← nextByte c
  if byte &&& 0xc0 ≠ 0x80 then error "Illegal continuation byte in string data" else return byte

/-- The rest of the character that starts with `byte`. -/
def checkCharacter (byte : UInt8) : Scan Unit :=
  if byte >>> 4 = 0 then
    if byte = 0 then error "String data shorter than indicated utf16_size" else return ()
  else if byte >>> 4 < 0x8 then return ()
  else if byte >>> 4 = 0xc ∨ byte >>> 4 = 0xd then do
    let byte2 ← nextContinuation c
    let value := (byte.toUInt16 &&& 0x1f) <<< 6 ||| (byte2.toUInt16 &&& 0x3f)
    if value ≠ 0 ∧ value < 0x80 then error "Illegal representation for value in string data" else return ()
  else if byte >>> 4 = 0xe then do
    let byte2 ← nextContinuation c
    let byte3 ← nextContinuation c
    let value := (byte.toUInt16 &&& 0x0f) <<< 12 ||| (byte2.toUInt16 &&& 0x3f) <<< 6 ||| (byte3.toUInt16 &&& 0x3f)
    if value < 0x800 then error "Illegal representation for value in string data" else return ()
  else error "Illegal start byte in string data"

def checkCharacters : Nat → Scan Unit
  | 0 => return ()
  | n + 1 => do
    let p ← getPtr
    if p ≥ c.size then error "String data would go beyond end-of-file"
    else do
      let byte ← nextByte c
      checkCharacter c byte
      checkCharacters n

def checkIntraStringDataItem : Scan Unit := do
  let size ← decodeUnsignedCheckedFrom c
  checkCharacters c size.toNat
  let byte ← nextByte c
  if byte ≠ 0 then error "String longer than indicated size" else return ()

/-! ### Debug info -/

/-- An index that is stored plus one, with zero for none. -/
def checkIndexPlusOne (limit : Nat) (label : String) : Scan Unit := do
  let idx ← decodeUnsignedCheckedFrom c
  if idx ≠ 0 then require (checkIndex (idx - 1) limit label) else return ()

def checkRegister : Scan Unit := do
  let regNum ← decodeUnsignedCheckedFrom c
  if regNum ≥ 65536 then error "Bad reg_num for opcode" else return ()

/-- The operands of an opcode of the state machine; the opcodes that are not named have none. -/
def checkDebugOpcode (opcode : UInt8) : Scan Unit :=
  match opcode.toNat with
  | 1 => do
    let _ ← decodeUnsignedCheckedFrom c
    return ()
  | 2 => do
    let _ ← decodeSignedCheckedFrom c
    return ()
  | 3 => do
    checkRegister c
    checkIndexPlusOne c c.stringIdsSize "DBG_START_LOCAL name_idx"
    checkIndexPlusOne c c.typeIdsSize "DBG_START_LOCAL type_idx"
  | 4 => do
    checkRegister c
    checkIndexPlusOne c c.stringIdsSize "DBG_START_LOCAL_EXTENDED name_idx"
    checkIndexPlusOne c c.typeIdsSize "DBG_START_LOCAL_EXTENDED type_idx"
    checkIndexPlusOne c c.stringIdsSize "DBG_START_LOCAL_EXTENDED sig_idx"
  | 5 | 6 => checkRegister c
  | 9 => checkIndexPlusOne c c.stringIdsSize "DBG_SET_FILE name_idx"
  | _ => return ()

/-- The loop over the opcodes, with a bound of their number. -/
def checkDebugOpcodes : Nat → Scan Unit
  | 0 => stuck
  | n + 1 => do
    let p ← getPtr
    if p ≥ c.size then fail
    else do
      let opcode ← nextByte c
      if opcode = 0 then return ()
      else do
        checkDebugOpcode c opcode
        checkDebugOpcodes n

def checkIntraDebugInfoItem : Scan Unit := do
  let _ ← decodeUnsignedCheckedFrom c
  let parametersSize ← decodeUnsignedCheckedFrom c
  if parametersSize > 65536 then error "Invalid parameters_size"
  else do
    repeatTimes (checkIndexPlusOne c c.stringIdsSize "debug_info_item parameter_name") parametersSize.toNat
    -- every opcode takes a byte at least
    checkDebugOpcodes c (c.size + 1)

end Checks

end Art.DexFileVerifier
