import Art.Libdexfile.DexFile

/-! The checks of `dex_file_verifier.cc` that compare an id item with the one before it. They run when every section has
    been checked by itself. Of the failure reasons the texts are kept, without the values in them. -/

namespace Art.Dex

/-- Predicates of `descriptors_names.cc`. -/
structure Names where
  isValidDescriptor : CString → Bool
  isValidMemberName : CString → Bool

abbrev Checked := Except String Unit

/-- `if (!passed) ErrorStringPrintf(reason)`. -/
def ensure (passed : Bool) (reason : String) : Checked := if passed then .ok () else .error reason

def ch (c : Char) : UInt8 := c.toNat.toUInt8

def checkIndex (field limit : Nat) (label : String) : Checked := ensure (field < limit) s!"Bad index for {label}"

def isValidOrNoTypeId (low high : Nat) : Bool := high = 0 || (high = 0xffff && low = 0xffff)

def checkShortyDescriptorMatch (shortyChar : UInt8) (descriptor : CString) (isReturnType : Bool) : Checked :=
  if shortyChar = ch 'V' && !isReturnType then .error "Invalid use of void"
  else if shortyChar ∈ "VBCDFIJSZ".toList.map ch then
    ensure (descriptor.headD 0 = shortyChar && descriptor.tail.headD 0 = 0) "Shorty vs. primitive type mismatch"
  else if shortyChar = ch 'L' then
    ensure (descriptor.headD 0 = ch 'L' || descriptor.headD 0 = ch '[') "Shorty vs. type mismatch"
  else .error "Bad shorty character"

namespace DexFile

variable (dex : DexFile) (names : Names)

/-- `VerifyTypeDescriptor`; the cache holds first characters of descriptors that were valid. -/
def verifyTypeDescriptor (idx : Nat) (errorMsg : String) (extraCheck : UInt8 → Bool) : Checked := do
  let descriptor := dex.stringByTypeIdx idx
  ensure (names.isValidDescriptor descriptor) errorMsg
  ensure (extraCheck (descriptor.headD 0)) errorMsg

def checkOffsetToTypeMap (offset : Nat) : Checked :=
  ensure (dex.typeListAt offset).isSome "No data map entry found, or an unexpected one"

def checkParametersOff (offset : Nat) : Checked := if offset ≠ 0 then dex.checkOffsetToTypeMap offset else .ok ()

def checkInterStringIdItem (previousItem : Option Nat) (item : Nat) : Checked :=
  match previousItem with
  | none => .ok ()
  | some prevItem =>
    ensure (compareModifiedUtf8ToModifiedUtf8AsUtf16CodePointValues (dex.getStringData prevItem)
      (dex.getStringData item) < 0) "Out-of-order string_ids"

def checkInterTypeIdItem (previousItem : Option Nat) (index : Nat) : Checked := do
  dex.verifyTypeDescriptor names index "Invalid type descriptor" fun _ => true
  match previousItem with
  | none => .ok ()
  | some prevItem =>
    ensure ((dex.getTypeId prevItem).descriptorIdx < (dex.getTypeId index).descriptorIdx) "Out-of-order type_ids"

/-- The parameters against the rest of the shorty. -/
def checkShorty : CString → List Nat → Checked
  | shorty, [] => ensure (shorty.headD 0 = 0) "Mismatched length for parameters and shorty"
  | shorty, typeIdx :: types =>
    if shorty.headD 0 = 0 then .error "Mismatched length for parameters and shorty"
    else do
      checkIndex typeIdx dex.numTypeIds "inter_proto_id_item shorty type_idx"
      checkShortyDescriptorMatch (shorty.headD 0) (dex.stringByTypeIdx typeIdx) false
      checkShorty shorty.tail types

/-- The loop over the parameters of two protos that return the same type, and the test after it. -/
def checkParameterOrder : List Nat → List Nat → Checked
  | prevIdx :: prev, currIdx :: curr =>
    if prevIdx < currIdx then .ok ()
    else if prevIdx > currIdx then .error "Out-of-order proto_id arguments"
    else checkParameterOrder prev curr
  | _, curr => ensure (curr ≠ []) "Out-of-order proto_id arguments"

def checkProtoOrder (prev item : ProtoId) : Checked :=
  if prev.returnTypeIdx > item.returnTypeIdx then .error "Out-of-order proto_id return types"
  else if prev.returnTypeIdx = item.returnTypeIdx then
    checkParameterOrder (dex.parameters prev) (dex.parameters item)
  else .ok ()

def checkInterProtoIdItem (previousItem : Option Nat) (index : Nat) : Checked := do
  let item := dex.getProtoId index
  let shorty := dex.getStringData item.shortyIdx
  dex.checkParametersOff item.parametersOff
  ensure (isValidOrNoTypeId item.returnTypeIdx item.pad) "proto with return type idx outside uint16_t range"
  checkShortyDescriptorMatch (shorty.headD 0) (dex.stringByTypeIdx item.returnTypeIdx) true
  dex.checkShorty shorty.tail (dex.parameters item)
  match previousItem with
  | none => .ok ()
  | some prev => dex.checkProtoOrder (dex.getProtoId prev) item

def checkMemberOrder (prev item : Nat × Nat × Nat) (reason : String) : Checked :=
  if prev.1 > item.1 then .error reason
  else if prev.1 = item.1 then
    if prev.2.1 > item.2.1 then .error reason
    else if prev.2.1 = item.2.1 then ensure (prev.2.2 < item.2.2) reason
    else .ok ()
  else .ok ()

def checkInterFieldIdItem (previousItem : Option Nat) (index : Nat) : Checked := do
  let item := dex.getFieldId index
  dex.verifyTypeDescriptor names item.classIdx "Invalid descriptor for class_idx" fun d => d = ch 'L'
  dex.verifyTypeDescriptor names item.typeIdx "Invalid descriptor for type_idx" fun d => d ≠ ch 'V'
  ensure (names.isValidMemberName (dex.getStringData item.nameIdx)) "Invalid field name"
  match previousItem with
  | none => .ok ()
  | some prevItem =>
    let prev := dex.getFieldId prevItem
    checkMemberOrder (prev.classIdx, prev.nameIdx, prev.typeIdx) (item.classIdx, item.nameIdx, item.typeIdx)
      "Out-of-order field_ids"

def checkInterMethodIdItem (previousItem : Option Nat) (index : Nat) : Checked := do
  let item := dex.getMethodId index
  dex.verifyTypeDescriptor names item.classIdx "Invalid descriptor for class_idx" fun d => d = ch 'L' || d = ch '['
  ensure (names.isValidMemberName (dex.getStringData item.nameIdx)) "Invalid method name"
  checkIndex item.protoIdx dex.numProtoIds "inter_method_id_item proto_idx"
  match previousItem with
  | none => .ok ()
  | some prevItem =>
    let prev := dex.getMethodId prevItem
    checkMemberOrder (prev.classIdx, prev.nameIdx, prev.protoIdx) (item.classIdx, item.nameIdx, item.protoIdx)
      "Out-of-order method_ids"

/-- `CheckInterSectionIterate`: the first `count` items of a section, each with the one before it. -/
def checkInterSectionIterate (check : Option Nat → Nat → Checked) : Nat → Checked
  | 0 => .ok ()
  | 1 => check none 0
  | i + 2 => do
    checkInterSectionIterate check (i + 1)
    check (some i) (i + 1)

/-- The id sections, in the order of `CheckInterSection`. -/
def checkInterIdSections : Checked := do
  checkInterSectionIterate dex.checkInterStringIdItem dex.numStringIds
  checkInterSectionIterate (dex.checkInterTypeIdItem names) dex.numTypeIds
  checkInterSectionIterate dex.checkInterProtoIdItem dex.numProtoIds
  checkInterSectionIterate (dex.checkInterFieldIdItem names) dex.numFieldIds
  checkInterSectionIterate (dex.checkInterMethodIdItem names) dex.numMethodIds

end DexFile

end Art.Dex
