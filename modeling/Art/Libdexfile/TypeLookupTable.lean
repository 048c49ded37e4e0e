import Art.Libdexfile.DexFile
import Mathlib.Data.Nat.Size
import Mathlib.Logic.Function.Basic

/-! The table that finds a class definition by its descriptor (`type_lookup_table.cc`, `type_lookup_table.h`). -/

namespace Art.Dex

/-! ### Entries -/

/-- The low bits of the hash that select a position. -/
def getMask (maskBits : Nat) : UInt32 := ~~~(0xffffffff <<< UInt32.ofNat maskBits)

/-- `Entry`: the offset of the descriptor, and the next delta, the class definition and a part of the hash in one
    word. -/
structure Entry where
  strOffset : UInt32
  data : UInt32
  deriving DecidableEq, Repr

namespace Entry

def empty : Entry := ⟨0, 0⟩

def new (strOffset hash classDefIndex : UInt32) (maskBits : Nat) : Entry :=
  ⟨strOffset, ((hash &&& ~~~getMask maskBits) ||| classDefIndex) <<< UInt32.ofNat maskBits⟩

def setNextPosDelta (e : Entry) (nextPosDelta : UInt32) : Entry := { e with data := e.data ||| nextPosDelta }

def isEmpty (e : Entry) : Bool := e.strOffset = 0

def getNextPosDelta (e : Entry) (maskBits : Nat) : UInt32 := e.data &&& getMask maskBits

def isLast (e : Entry) (maskBits : Nat) : Bool := e.getNextPosDelta maskBits = 0

def getClassDefIdx (e : Entry) (maskBits : Nat) : UInt32 := (e.data >>> UInt32.ofNat maskBits) &&& getMask maskBits

def getHashBits (e : Entry) (maskBits : Nat) : UInt32 := (e.data.toUInt64 >>> UInt64.ofNat (2 * maskBits)).toUInt32

end Entry

abbrev Entries := Nat → Entry

def nextPos (maskBits : Nat) (entries : Entries) (pos : UInt32) : UInt32 :=
  (pos + (entries pos.toNat).getNextPosDelta maskBits) &&& getMask maskBits

/-! ### The dex file -/

/-- A class definition, as far as the table reads it. -/
structure ClassDef where
  classIdx : Nat
  deriving DecidableEq, Repr

/-- A string id, as far as the table reads it. -/
structure StringId where
  stringDataOff : UInt32
  deriving DecidableEq, Repr

/-- What the table reads of a dex file; `stringAt` is the string at an offset of the data, behind its length. -/
structure DescriptorStrings where
  numClassDefs : Nat
  getClassDef : Nat → ClassDef
  getTypeId : Nat → TypeId
  getStringId : Nat → StringId
  stringAt : UInt32 → CString

namespace DescriptorStrings

variable (dex : DescriptorStrings)

def strOffset (classDefIdx : Nat) : UInt32 :=
  (dex.getStringId (dex.getTypeId (dex.getClassDef classDefIdx).classIdx).descriptorIdx).stringDataOff

def hash (classDefIdx : Nat) : UInt32 := computeModifiedUtf8Hash (dex.stringAt (dex.strOffset classDefIdx))

end DescriptorStrings

/-! ### Construction -/

def supportedSize (numClassDefs : Nat) : Bool := numClassDefs ≠ 0 && numClassDefs ≤ 0xffff

/-- `CalculateMaskBits`; the minimal number of bits to store a number is its size. -/
def calculateMaskBits (numClassDefs : Nat) : Nat :=
  if supportedSize numClassDefs then (numClassDefs - 1).size else 0

/-- The hash table of the class descriptors of a dex file. -/
structure TypeLookupTable where
  maskBits : Nat
  /-- Nothing if the table is not valid. -/
  entries : Option Entries

section Create

variable (dex : DescriptorStrings) (maskBits : Nat)

def newEntry (classDefIdx : Nat) : Entry :=
  .new (dex.strOffset classDefIdx) (dex.hash classDefIdx) (UInt32.ofNat classDefIdx) maskBits

/-- A turn of the first stage: the entries, and the class definitions that are left for the second one. -/
def firstStage (s : Entries × List Nat) (classDefIdx : Nat) : Entries × List Nat :=
  let pos := (dex.hash classDefIdx &&& getMask maskBits).toNat
  if (s.1 pos).isEmpty then (Function.update s.1 pos (newEntry dex maskBits classDefIdx), s.2)
  else (s.1, s.2 ++ [classDefIdx])

def findTail (entries : Entries) : Nat → UInt32 → Option UInt32
  | 0, _ => none
  | fuel + 1, tailPos =>
    if (entries tailPos.toNat).isLast maskBits then some tailPos
    else findTail entries fuel (nextPos maskBits entries tailPos)

def findEmpty (entries : Entries) : Nat → UInt32 → Option UInt32
  | 0, _ => none
  | fuel + 1, insertPos =>
    let insertPos := (insertPos + 1) &&& getMask maskBits
    if (entries insertPos.toNat).isEmpty then some insertPos else findEmpty entries fuel insertPos

def secondStage (fuel : Nat) (entries : Entries) (classDefIdx : Nat) : Option Entries := do
  let tailPos ← findTail maskBits entries fuel (dex.hash classDefIdx &&& getMask maskBits)
  let insertPos ← findEmpty maskBits entries fuel tailPos
  let entries := Function.update entries insertPos.toNat (newEntry dex maskBits classDefIdx)
  return Function.update entries tailPos.toNat
    ((entries tailPos.toNat).setNextPosDelta ((insertPos - tailPos) &&& getMask maskBits))

end Create

def createTypeLookupTable (dex : DescriptorStrings) (fuel : Nat) : Option TypeLookupTable :=
  if !supportedSize dex.numClassDefs then some ⟨0, none⟩
  else do
    let maskBits := calculateMaskBits dex.numClassDefs
    let first := (List.range dex.numClassDefs).foldl (firstStage dex maskBits) (fun _ => Entry.empty, [])
    let entries ← first.2.foldlM (secondStage dex maskBits fuel) first.1
    return ⟨maskBits, some entries⟩

/-! ### Lookup -/

def kDexNoIndex : UInt32 := 0xffffffff

def modifiedUtf8StringEquals (lhs rhs : CString) : Bool :=
  compareModifiedUtf8ToModifiedUtf8AsUtf16CodePointValues lhs rhs = 0

section Lookup

variable (stringAt : UInt32 → CString) (maskBits : Nat) (entries : Entries) (str : CString)

/-- The first loop: the next entry of the chain with the compared bits of the hash. -/
def findHashBits (comparedHashBits : UInt32) : Nat → UInt32 → Option (Option UInt32)
  | 0, _ => none
  | fuel + 1, pos =>
    if comparedHashBits = (entries pos.toNat).getHashBits maskBits then some (some pos)
    else if (entries pos.toNat).isLast maskBits then some none
    else findHashBits comparedHashBits fuel (nextPos maskBits entries pos)

/-- The second loop: the string in the rest of the chain. -/
def findString (comparedHashBits : UInt32) : Nat → UInt32 → Option UInt32
  | 0, _ => none
  | fuel + 1, pos =>
    let pos := nextPos maskBits entries pos
    let entry := entries pos.toNat
    if comparedHashBits = entry.getHashBits maskBits ∧ modifiedUtf8StringEquals str (stringAt entry.strOffset) then
      some (entry.getClassDefIdx maskBits)
    else if entry.isLast maskBits then some kDexNoIndex
    else findString comparedHashBits fuel pos

def lookupType (hash : UInt32) (fuel : Nat) : Option UInt32 :=
  let mask := getMask maskBits
  let pos := hash &&& mask
  if (entries pos.toNat).isEmpty then some kDexNoIndex
  else
    let comparedHashBits :=
      ((hash <<< UInt32.ofNat maskBits).toUInt64 >>> UInt64.ofNat (2 * maskBits)).toUInt32
    match findHashBits maskBits entries comparedHashBits fuel pos with
    | none => none
    | some none => some kDexNoIndex
    | some (some pos) =>
      let entry := entries pos.toNat
      let firstCheckedStr := stringAt entry.strOffset
      if modifiedUtf8StringEquals str firstCheckedStr then some (entry.getClassDefIdx maskBits)
      else if entry.isLast maskBits then some kDexNoIndex
      else if (computeModifiedUtf8Hash firstCheckedStr ^^^ hash) &&& mask ≠ 0 then some kDexNoIndex
      else findString stringAt maskBits entries str comparedHashBits fuel pos

end Lookup

end Art.Dex
