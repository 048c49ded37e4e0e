import Art.Lib.BinarySearch
import Mathlib.Data.Finset.Card
import Mathlib.Data.Nat.Size

/-! The mapping of the indexes of a dex file to slots of the .bss: as the oat writer encodes it
    (`index_bss_mapping_encoder.h`, `oat_writer.cc`) and as it is looked up (`index_bss_mapping.cc`). A `size_t` has 64
    bits. -/

namespace Art.Bss

/-! ### Entries -/

/-- The highest index with a mask of the indexes before it, and the offset of its slot. -/
structure IndexBssMappingEntry where
  indexAndMask : UInt32
  bssOffset : UInt32
  deriving DecidableEq, Repr

/-- `IndexBits`; the minimal number of bits to store a number is its size. -/
def indexBits (numberOfIndexes : UInt32) : Nat := (numberOfIndexes - 1).toNat.size

def indexMask (indexBits : Nat) : UInt32 :=
  if indexBits = 32 then 0xffffffff else ~~~(0xffffffff <<< UInt32.ofNat indexBits)

def popCount (x : UInt32) : Nat := ((Finset.range 32).filter fun bit => x.toNat.testBit bit).card

def npos : UInt64 := 0xffffffffffffffff

namespace IndexBssMappingEntry

variable (entry : IndexBssMappingEntry)

def getIndex (indexBits : Nat) : UInt32 := entry.indexAndMask &&& indexMask indexBits

def getMask (indexBits : Nat) : UInt32 := entry.indexAndMask >>> UInt32.ofNat indexBits

def getBssOffset (indexBits : Nat) (index : UInt32) (slotSize : UInt64) : UInt64 :=
  let diff := entry.getIndex indexBits - index
  if diff = 0 then entry.bssOffset.toUInt64
  else
    let maskBits := 32 - indexBits
    if diff.toNat > maskBits then npos
    else
      -- The bits for lower indexes are shifted out with those of the index.
      let maskFromIndex := entry.indexAndMask >>> (32 - diff)
      if maskFromIndex &&& 1 ≠ 0 then entry.bssOffset.toUInt64 - UInt64.ofNat (popCount maskFromIndex) * slotSize
      else npos

end IndexBssMappingEntry

/-! ### Encoder -/

/-- The encoder with the entry it is extending. -/
structure IndexBssMappingEncoder where
  indexBits : Nat
  slotSize : UInt64
  entry : IndexBssMappingEntry
  deriving DecidableEq, Repr

namespace IndexBssMappingEncoder

def new (numberOfIndexes slotSize : UInt64) : IndexBssMappingEncoder :=
  ⟨Bss.indexBits numberOfIndexes.toUInt32, slotSize, ⟨0xffffffff, 0xffffffff⟩⟩

variable (encoder : IndexBssMappingEncoder)

/-- Merges the next index into the entry; nothing if that fails. -/
def tryMerge (index bssOffset : UInt32) : Option IndexBssMappingEncoder :=
  if encoder.entry.bssOffset.toUInt64 + encoder.slotSize ≠ bssOffset.toUInt64 then none
  else
    let diff := index - encoder.entry.getIndex encoder.indexBits
    if diff.toNat > 32 - encoder.indexBits then none
    else
      let mask := encoder.entry.getMask encoder.indexBits
      if mask &&& ~~~(0xffffffff <<< diff) ≠ 0 then none
      else
        -- The bit of the index that is overwritten, and the bits of those before it.
        let mask := ((mask <<< UInt32.ofNat encoder.indexBits) >>> diff) ||| (1 <<< (32 - diff))
        some { encoder with entry := ⟨mask ||| index, bssOffset⟩ }

def reset (index bssOffset : UInt32) : IndexBssMappingEncoder := { encoder with entry := ⟨index, bssOffset⟩ }

end IndexBssMappingEncoder

/-! ### Oat writer -/

section Writer

variable (numberOfIndexes slotSize : UInt64) (indexes : List UInt32) (getBssOffset : UInt32 → UInt64)

/-- A turn of the loop of `CalculateNumberOfIndexBssMappingEntries`: the encoder, the number of entries and whether this
    is the first index. -/
def calculateStep (s : IndexBssMappingEncoder × Nat × Bool) (index : UInt32) : IndexBssMappingEncoder × Nat × Bool :=
  let bssOffset := (getBssOffset index).toUInt32
  if s.2.2 then (s.1.reset index bssOffset, s.2.1 + 1, false)
  else
    match s.1.tryMerge index bssOffset with
    | some encoder => (encoder, s.2.1, false)
    | none => (s.1.reset index bssOffset, s.2.1 + 1, false)

def calculateNumberOfIndexBssMappingEntries : Nat :=
  (indexes.foldl (calculateStep getBssOffset) (.new numberOfIndexes slotSize, 0, true)).2.1

/-- A turn of the loop of `WriteIndexBssMapping`: the encoder, the entries written and whether this is the first
    index. -/
def writeStep (s : IndexBssMappingEncoder × List IndexBssMappingEntry × Bool) (index : UInt32) :
    IndexBssMappingEncoder × List IndexBssMappingEntry × Bool :=
  let bssOffset := (getBssOffset index).toUInt32
  if s.2.2 then (s.1.reset index bssOffset, s.2.1, false)
  else
    match s.1.tryMerge index bssOffset with
    | some encoder => (encoder, s.2.1, false)
    | none => (s.1.reset index bssOffset, s.2.1 ++ [s.1.entry], false)

def writeIndexBssMapping : List IndexBssMappingEntry :=
  let s := indexes.foldl (writeStep getBssOffset) (.new numberOfIndexes slotSize, [], true)
  s.2.1 ++ [s.1.entry]

/-- A dex file has a mapping if there are references to it, that is, indexes. -/
def indexBssMapping : Option (List IndexBssMappingEntry) :=
  if indexes = [] then none else some (writeIndexBssMapping numberOfIndexes slotSize indexes getBssOffset)

end Writer

/-! ### Lookup -/

def getBssOffset (mapping : Option (List IndexBssMappingEntry)) (index numberOfIndexes : UInt32) (slotSize : UInt64) :
    UInt64 :=
  match mapping with
  | none => npos
  | some mapping =>
    let indexBits := indexBits numberOfIndexes
    let it := Lib.partitionPoint (fun entry => entry.indexAndMask &&& indexMask indexBits < index) mapping
    match mapping[it]? with
    | none => npos
    | some entry => entry.getBssOffset indexBits index slotSize

end Art.Bss
