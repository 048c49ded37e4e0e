import Art.Lib.BinarySearch
import Art.Libdexfile.Utf

/-! The id sections of a dex file and the lookups of `dex_file.cc` in them. A section is read through its start, so an
    entry is there for every index; the number of entries is separate. -/

namespace Art.Dex

open Lib

/-! ### Id sections -/

/-- An entry of the `type_ids` section. -/
structure TypeId where
  descriptorIdx : Nat
  deriving DecidableEq, Repr

/-- An entry of the `proto_ids` section. -/
structure ProtoId where
  shortyIdx : Nat
  returnTypeIdx : Nat
  pad : Nat
  parametersOff : Nat
  deriving DecidableEq, Repr

/-- An entry of the `field_ids` section. -/
@[ext]
structure FieldId where
  classIdx : Nat
  typeIdx : Nat
  nameIdx : Nat
  deriving DecidableEq, Repr

/-- An entry of the `method_ids` section. -/
@[ext]
structure MethodId where
  classIdx : Nat
  protoIdx : Nat
  nameIdx : Nat
  deriving DecidableEq, Repr

def kDexNoIndex16 : Nat := 0xffff

/-- What the header, whose sizes and offsets have 32 bits, and the data sections give. Types and protos are counted
    within `kDexNoIndex16`, and the entries of the other sections have four bytes at least; types refer to strings that
    there are. -/
structure DexFile where
  numStringIds : Nat
  getStringData : Nat → CString
  numTypeIds : Nat
  getTypeId : Nat → TypeId
  numProtoIds : Nat
  getProtoId : Nat → ProtoId
  numFieldIds : Nat
  getFieldId : Nat → FieldId
  numMethodIds : Nat
  getMethodId : Nat → MethodId
  /-- The type lists of the map, by offset. -/
  typeListAt : Nat → Option (List Nat)
  descriptorIdx_lt : ∀ i < numTypeIds, (getTypeId i).descriptorIdx < numStringIds
  numStringIds_le : numStringIds ≤ 2 ^ 30
  numTypeIds_le : numTypeIds ≤ kDexNoIndex16
  numProtoIds_le : numProtoIds ≤ kDexNoIndex16
  numFieldIds_le : numFieldIds ≤ 2 ^ 30
  numMethodIds_le : numMethodIds ≤ 2 ^ 30

namespace DexFile

variable (dex : DexFile)

def stringByTypeIdx (typeIdx : Nat) : CString := dex.getStringData (dex.getTypeId typeIdx).descriptorIdx

/-- What `DexFileParameterIterator` goes through. -/
def parameters (proto : ProtoId) : List Nat :=
  if proto.parametersOff = 0 then [] else (dex.typeListAt proto.parametersOff).getD []

/-! ### Lookups -/

/-- The search that all lookups make, among `count` entries; the index of the entry found. -/
def search (count : Nat) (compare : Nat → Int) : Option (Option Nat) :=
  searchInclusive compare (count + 1) 0 (count - 1)

/-- The order of `x > y`, `x < y` tests. -/
def compareIdx (x y : Nat) : Int := if x > y then 1 else if x < y then -1 else 0

/-- The tests of three indexes, one after the other. -/
def compareIdx3 (x y : Nat × Nat × Nat) : Int :=
  if compareIdx x.1 y.1 ≠ 0 then compareIdx x.1 y.1
  else if compareIdx x.2.1 y.2.1 ≠ 0 then compareIdx x.2.1 y.2.1
  else compareIdx x.2.2 y.2.2

/-- `FindFieldId`, by the indexes of the declaring class, the name and the type. -/
def findFieldId (classIdx nameIdx typeIdx : Nat) : Option (Option Nat) :=
  search dex.numFieldIds fun mid =>
    let field := dex.getFieldId mid
    compareIdx3 (classIdx, nameIdx, typeIdx) (field.classIdx, field.nameIdx, field.typeIdx)

def findMethodIdByIndex (classIdx nameIdx protoIdx : Nat) : Option (Option Nat) :=
  search dex.numMethodIds fun mid =>
    let method := dex.getMethodId mid
    compareIdx3 (classIdx, nameIdx, protoIdx) (method.classIdx, method.nameIdx, method.protoIdx)

def findStringId (string : CString) : Option (Option Nat) :=
  search dex.numStringIds fun mid =>
    compareModifiedUtf8ToModifiedUtf8AsUtf16CodePointValues string (dex.getStringData mid)

def findTypeId (string : CString) : Option (Option Nat) :=
  search dex.numTypeIds fun mid =>
    compareModifiedUtf8ToModifiedUtf8AsUtf16CodePointValues string (dex.stringByTypeIdx (mid % 2 ^ 16))

def findTypeIdByString (stringIdx : Nat) : Option (Option Nat) :=
  search dex.numTypeIds fun mid => compareIdx stringIdx (dex.getTypeId (mid % 2 ^ 16)).descriptorIdx

/-- The parameters looked for against those of a proto. -/
def compareParameters : List Nat → List Nat → Int
  | [], [] => 0
  | [], _ :: _ => -1
  | _ :: _, [] => 1
  | signatureTypeIdx :: signature, typeIdx :: types =>
    if (signatureTypeIdx : Int) - typeIdx = 0 then compareParameters signature types
    else (signatureTypeIdx : Int) - typeIdx

def findProtoId (returnTypeIdx : Nat) (signatureTypeIdxs : List Nat) : Option (Option Nat) :=
  search dex.numProtoIds fun mid =>
    let proto := dex.getProtoId (mid % 2 ^ 16)
    if (returnTypeIdx : Int) - proto.returnTypeIdx = 0 then compareParameters signatureTypeIdxs (dex.parameters proto)
    else (returnTypeIdx : Int) - proto.returnTypeIdx

end DexFile

/-! ### Try items -/

/-- A try block of a code item. -/
structure TryItem where
  startAddr : Nat
  insnCount : Nat
  handlerOff : Nat
  deriving DecidableEq, Repr

/-- `FindTryItem`: no result without fuel, else an index or `-1`. -/
def findTryItem (tryItems : Nat → TryItem) (triesSize address : Nat) : Option Int :=
  let covering := searchHalfOpen (fun mid =>
    let start := (tryItems mid).startAddr
    let stop := (start + (tryItems mid).insnCount) % 2 ^ 32
    if address < start then -1 else if address ≥ stop then 1 else 0) (triesSize + 1) 0 triesSize
  covering.map fun index => match index with
    | some mid => mid
    | none => -1

end Art.Dex
