import Art.Lib.OrderedMap
import Mathlib.Data.Nat.Bitwise

/-! Profiles (`libprofile/profile/profile_compilation_info.cc`): recording methods and classes, and merging.
    The lookup tables `profile_key_map_` and `extra_descriptors_indexes_` are searches in the vectors they
    index. Indexes are natural numbers that are truncated where the source stores them in 16 bits. -/

namespace Art.Profile

open Lib (OrderedMap OrderedSet)

abbrev Str := List UInt8

def kDexNoIndex16 : Nat := 0xffff
def kIndividualInlineCacheSize : Nat := 5
def kMaxSupportedMethodIndex : Nat := 0xffff
def kMaxExtraDescriptorLength : Nat := 0xffff
def kMaxExtraDescriptors : Nat := kDexNoIndex16
def maxProfileIndex : Nat := 0xffff
def kSampleMetadataSeparator : UInt8 := 58

/-- A `dex::TypeIndex` has 16 bits. -/
def typeIndex (n : Nat) : Nat := n % 2 ^ 16

def TypeIndexIsValid (index : Nat) : Prop := index ≠ kDexNoIndex16

instance (index : Nat) : Decidable (TypeIndexIsValid index) := inferInstanceAs (Decidable (_ ≠ _))

/-! ### Inline caches -/

/-- An inline cache: the classes seen at a dex pc, or why they are not kept. -/
structure DexPcData where
  isMissingTypes : Bool
  isMegamorphic : Bool
  classes : OrderedSet Nat
  deriving DecidableEq

namespace DexPcData

def empty : DexPcData := ⟨false, false, .empty⟩

def setIsMegamorphic (data : DexPcData) : DexPcData :=
  if data.isMissingTypes then data else { data with isMegamorphic := true, classes := .empty }

def setIsMissingTypes (data : DexPcData) : DexPcData :=
  { data with isMegamorphic := false, isMissingTypes := true, classes := .empty }

def addClass (data : DexPcData) (typeIdx : Nat) : DexPcData :=
  if data.isMegamorphic || data.isMissingTypes then data
  else if typeIdx ∈ data.classes.keys then data
  else if data.classes.size + 1 ≥ kIndividualInlineCacheSize then { data with isMegamorphic := true, classes := .empty }
  else { data with classes := OrderedSet.insert data.classes typeIdx }

end DexPcData

abbrev InlineCacheMap := OrderedMap Nat DexPcData

/-! ### Dex files of a profile -/

/-- The profile data of one dex file. -/
structure DexFileData where
  profileKey : Str
  profileIndex : Nat
  checksum : Nat
  methodMap : OrderedMap Nat InlineCacheMap
  classSet : OrderedSet Nat
  numTypeIds : Nat
  numMethodIds : Nat
  /-- `method_bitmap`, bit by bit from the lowest. -/
  methodBitmap : Nat
  isForBootImage : Bool
  deriving DecidableEq

namespace DexFileData

def create (profileKey : Str) (checksum profileIndex numTypeIds numMethodIds : Nat) (isForBootImage : Bool) :
    DexFileData :=
  ⟨profileKey, profileIndex, checksum, .empty, .empty, numTypeIds, numMethodIds, 0, isForBootImage⟩

/-- The number of the last flag, `kFlagLastBoot` or `kFlagLastRegular`. -/
def lastFlag (isForBootImage : Bool) : Nat := if isForBootImage then 15 else 2

/-- The flags of `ForMethodBitmapHotnessFlags`: all but `kFlagHot`, which is flag 0. -/
def bitmapFlags (isForBootImage : Bool) : List Nat := List.range' 1 (lastFlag isForBootImage)

def flagBitmapIndex (flag : Nat) : Nat := flag - 1

def methodFlagBitmapIndex (data : DexFileData) (flag methodIndex : Nat) : Nat :=
  methodIndex + flagBitmapIndex flag * data.numMethodIds

def findOrAddHotMethod (data : DexFileData) (methodIndex : Nat) : Option InlineCacheMap :=
  if methodIndex ≥ data.numMethodIds then none else some ((data.methodMap.find? methodIndex).getD .empty)

def setMethodHotness (data : DexFileData) (index flags : Nat) : DexFileData :=
  { data with methodBitmap := (bitmapFlags data.isForBootImage).foldl (fun bitmap flag =>
      if flags.testBit flag then bitmap ||| 2 ^ data.methodFlagBitmapIndex flag index else bitmap) data.methodBitmap }

def addMethod (data : DexFileData) (flags index : Nat) : Option DexFileData :=
  if index ≥ data.numMethodIds ∨ index > kMaxSupportedMethodIndex then none
  else
    let data := data.setMethodHotness index flags
    if flags.testBit 0 then do
      let inlineCache ← data.findOrAddHotMethod (index % 2 ^ 16)
      return { data with methodMap := data.methodMap.set (index % 2 ^ 16) inlineCache }
    else some data

def getHotnessInfo (data : DexFileData) (index : Nat) : Nat :=
  let flags := (bitmapFlags data.isForBootImage).foldl (fun flags flag =>
    if data.methodBitmap.testBit (data.methodFlagBitmapIndex flag index) then flags ||| 2 ^ flag else flags) 0
  if (data.methodMap.find? index).isSome then flags ||| 1 else flags

end DexFileData

/-- A profile: the data of its dex files in the order of their profile indexes. -/
structure ProfileCompilationInfo where
  /-- `version_` -/
  isForBootImage : Bool
  info : List DexFileData
  extraDescriptors : List Str
  deriving DecidableEq

/-- A verified dex file, with the descriptors of its types. -/
structure DexFile where
  location : Str
  locationChecksum : Nat
  typeDescriptors : List Str
  numMethodIds : Nat
  /-- `DexFileVerifier::CheckHeader` -/
  length_typeDescriptors_le : typeDescriptors.length ≤ kDexNoIndex16
  locationChecksum_lt : locationChecksum < 2 ^ 32
  numMethodIds_lt : numMethodIds < 2 ^ 32
  deriving DecidableEq

def DexFile.numTypeIds (dexFile : DexFile) : Nat := dexFile.typeDescriptors.length

/-- A `TypeReference` as seen from a dex file: one of its types, or the descriptor of a type elsewhere. -/
inductive ClassRef
  | own (typeIndex : Nat)
  | foreign (descriptor : Str)
  deriving DecidableEq

/-- An inline cache as a caller of `AddMethod` gives it. -/
structure ProfileInlineCache where
  dexPc : Nat
  isMissingTypes : Bool
  isMegamorphic : Bool
  classes : List ClassRef
  deriving DecidableEq

/-- A method as a caller of `AddMethod` gives it. -/
structure ProfileMethodInfo where
  dexFile : DexFile
  index : Nat
  inlineCaches : List ProfileInlineCache
  deriving DecidableEq

/-- `GetProfileDexFileBaseKey`: the location behind its last `/`. -/
def getProfileDexFileBaseKey (dexLocation : Str) : Str := (dexLocation.reverse.takeWhile (· != 47)).reverse

/-- `GetProfileDexFileAugmentedKey`, for the annotation with this package, which is empty for `kNone`. -/
def getProfileDexFileAugmentedKey (dexLocation originPackage : Str) : Str :=
  if originPackage = [] then getProfileDexFileBaseKey dexLocation
  else getProfileDexFileBaseKey dexLocation ++ kSampleMetadataSeparator :: originPackage

/-- `kDexNoIndex16 - num_type_ids` in 32 bits: how many artificial type indexes there are. -/
def maxArtificialIds (numTypeIds : Nat) : Nat := (kDexNoIndex16 + 2 ^ 32 - numTypeIds) % 2 ^ 32

/-- A type index of another profile, whose extra descriptors have the new indexes `remap`. -/
def remapTypeIndex (numTypeIds : Nat) (remap : List Nat) (index : Nat) : Option Nat :=
  if index < numTypeIds then some index
  else
    let newExtraDescriptorIndex := remap.getD (index - numTypeIds) 0
    if newExtraDescriptorIndex ≥ maxArtificialIds numTypeIds then none
    else some (typeIndex (numTypeIds + newExtraDescriptorIndex))

def DexPcData.merge (numTypeIds : Nat) (remap : List Nat) (data other : DexPcData) : Option DexPcData :=
  if other.isMissingTypes then some data.setIsMissingTypes
  else if other.isMegamorphic then some data.setIsMegamorphic
  else other.classes.keys.foldlM (fun data index => (remapTypeIndex numTypeIds remap index).map data.addClass) data

def mergeInlineCaches (numTypeIds : Nat) (remap : List Nat) (inlineCache other : InlineCacheMap) :
    Option InlineCacheMap :=
  OrderedMap.mergeM (fun _ data other => DexPcData.merge numTypeIds remap (data.getD .empty) other) inlineCache other

/-- The merge of the classes of one dex file. They are ordered by their type index, so the types of the dex
    file come first, which the source inserts all at once. -/
def mergeClassSet (numTypeIds : Nat) (remap : List Nat) (classSet other : OrderedSet Nat) : Option (OrderedSet Nat) :=
  other.keys.foldlM (fun classSet index =>
    (remapTypeIndex numTypeIds remap index).map (OrderedSet.insert classSet)) classSet

def DexFileData.merge (remap : List Nat) (mergeClasses : Bool) (data other : DexFileData) : Option DexFileData := do
  let classSet ← (if mergeClasses then mergeClassSet data.numTypeIds remap data.classSet other.classSet
    else some data.classSet)
  let methodMap ← OrderedMap.mergeM (fun methodIndex inlineCache otherInlineCache =>
    if methodIndex ≥ data.numMethodIds then none
    else mergeInlineCaches data.numTypeIds remap (inlineCache.getD .empty) otherInlineCache)
    data.methodMap other.methodMap
  return { data with classSet, methodMap, methodBitmap := data.methodBitmap ||| other.methodBitmap }

namespace ProfileCompilationInfo

def empty (isForBootImage : Bool) : ProfileCompilationInfo := ⟨isForBootImage, [], []⟩

/-- `FindDexData` without a check of the checksum. -/
def findDexData (profile : ProfileCompilationInfo) (profileKey : Str) : Option DexFileData :=
  profile.info.find? (·.profileKey == profileKey)

/-- `GetOrAddDexFileData`, with the index of the data. -/
def getOrAddDexFileData (profile : ProfileCompilationInfo) (profileKey : Str) (checksum numTypeIds numMethodIds : Nat) :
    Option (ProfileCompilationInfo × Nat) :=
  match profile.info.findIdx? (·.profileKey == profileKey) with
  | none =>
    if profile.info.length = maxProfileIndex then none
    else
      let data :=
        DexFileData.create profileKey checksum profile.info.length numTypeIds numMethodIds profile.isForBootImage
      some ({ profile with info := profile.info ++ [data] }, profile.info.length)
  | some profileIndex =>
    match profile.info[profileIndex]? with
    | none => none
    | some result =>
      if result.checksum ≠ checksum then none
      else if numTypeIds ≠ result.numTypeIds ∨ numMethodIds ≠ result.numMethodIds then none
      else some (profile, profileIndex)

def addExtraDescriptor (profile : ProfileCompilationInfo) (extraDescriptor : Str) :
    Option (ProfileCompilationInfo × Nat) :=
  if profile.extraDescriptors.length = kMaxExtraDescriptors then none
  else some ({ profile with extraDescriptors := profile.extraDescriptors ++ [extraDescriptor] },
    profile.extraDescriptors.length)

def findExtraDescriptor (profile : ProfileCompilationInfo) (descriptor : Str) : Option Nat :=
  profile.extraDescriptors.findIdx? (· == descriptor)

/-- `FindOrCreateTypeIndex` of a descriptor; `kDexNoIndex16` is the invalid index. -/
def findOrCreateTypeIndexOf (profile : ProfileCompilationInfo) (dexFile : DexFile) (descriptor : Str) :
    ProfileCompilationInfo × Nat :=
  match dexFile.typeDescriptors.findIdx? (· == descriptor) with
  | some typeId => (profile, typeIndex typeId)
  | none =>
    if descriptor.length > kMaxExtraDescriptorLength then (profile, kDexNoIndex16)
    else
      match profile.findExtraDescriptor descriptor with
      | some index =>
        (profile, if index < maxArtificialIds dexFile.numTypeIds then typeIndex (dexFile.numTypeIds + index)
          else kDexNoIndex16)
      | none =>
        if profile.extraDescriptors.length ≥ maxArtificialIds dexFile.numTypeIds then (profile, kDexNoIndex16)
        else
          match profile.addExtraDescriptor descriptor with
          | none => (profile, typeIndex (dexFile.numTypeIds + kMaxExtraDescriptors))
          | some (profile, index) => (profile, typeIndex (dexFile.numTypeIds + index))

def findOrCreateTypeIndex (profile : ProfileCompilationInfo) (dexFile : DexFile) :
    ClassRef → ProfileCompilationInfo × Nat
  | .own index => (profile, index)
  | .foreign descriptor => profile.findOrCreateTypeIndexOf dexFile descriptor

def getOrAddData (profile : ProfileCompilationInfo) (dexFile : DexFile) (originPackage : Str) :
    Option (ProfileCompilationInfo × Nat) :=
  profile.getOrAddDexFileData (getProfileDexFileAugmentedKey dexFile.location originPackage) dexFile.locationChecksum
    dexFile.numTypeIds dexFile.numMethodIds

def modifyData (profile : ProfileCompilationInfo) (index : Nat) (f : DexFileData → DexFileData) :
    ProfileCompilationInfo :=
  { profile with info := profile.info.modify index f }

/-- The loop of `AddMethod` over the classes of an inline cache; the entry of the dex pc is created with
    the first class. -/
def addCacheClasses (dexFile : DexFile) : ProfileCompilationInfo → Option DexPcData → List ClassRef →
    ProfileCompilationInfo × Option DexPcData
  | profile, data, [] => (profile, data)
  | profile, data, classRef :: rest =>
    let dexPcData := data.getD .empty
    if dexPcData.isMissingTypes || dexPcData.isMegamorphic then (profile, some dexPcData)
    else
      let (profile, index) := profile.findOrCreateTypeIndex dexFile classRef
      let dexPcData := if TypeIndexIsValid index then dexPcData.addClass index else dexPcData.setIsMissingTypes
      addCacheClasses dexFile profile (some dexPcData) rest

def addInlineCache (dexFile : DexFile) (state : ProfileCompilationInfo × InlineCacheMap) (cache : ProfileInlineCache) :
    ProfileCompilationInfo × InlineCacheMap :=
  let (profile, inlineCache) := state
  let dexPc := cache.dexPc % 2 ^ 16
  let data := inlineCache.find? dexPc
  if cache.isMissingTypes then (profile, inlineCache.set dexPc (data.getD .empty).setIsMissingTypes)
  else if cache.isMegamorphic then (profile, inlineCache.set dexPc (data.getD .empty).setIsMegamorphic)
  else
    match addCacheClasses dexFile profile data cache.classes with
    | (profile, none) => (profile, inlineCache)
    | (profile, some data) => (profile, inlineCache.set dexPc data)

def addMethod (profile : ProfileCompilationInfo) (pmi : ProfileMethodInfo) (flags : Nat) (originPackage : Str) :
    Option ProfileCompilationInfo := do
  let (profile, index) ← profile.getOrAddData pmi.dexFile originPackage
  let data ← profile.info[index]?
  let data ← data.addMethod flags pmi.index
  let profile := profile.modifyData index fun _ => data
  if !flags.testBit 0 then return profile
  else
    let methodIndex := pmi.index % 2 ^ 16
    let inlineCache ← data.findOrAddHotMethod methodIndex
    let (profile, inlineCache) := pmi.inlineCaches.foldl (addInlineCache pmi.dexFile) (profile, inlineCache)
    return profile.modifyData index fun data => { data with methodMap := data.methodMap.set methodIndex inlineCache }

def addMethods (profile : ProfileCompilationInfo) (methods : List ProfileMethodInfo) (flags : Nat)
    (originPackage : Str) :
    Option ProfileCompilationInfo :=
  methods.foldlM (fun profile pmi => profile.addMethod pmi flags originPackage) profile

def addClass (profile : ProfileCompilationInfo) (dexFile : DexFile) (descriptor originPackage : Str) :
    Option ProfileCompilationInfo := do
  let (profile, dataIndex) ← profile.getOrAddData dexFile originPackage
  let (profile, index) := profile.findOrCreateTypeIndexOf dexFile descriptor
  if TypeIndexIsValid index then
    return profile.modifyData dataIndex fun data => { data with classSet := OrderedSet.insert data.classSet index }
  else none

def remapExtraDescriptor (profile : ProfileCompilationInfo) (descriptor : Str) :
    Option (ProfileCompilationInfo × Nat) :=
  match profile.findExtraDescriptor descriptor with
  | some index => some (profile, index)
  | none => profile.addExtraDescriptor descriptor

/-- A loop that collects the results of its iterations. -/
def collectM {ι : Type} (step : ProfileCompilationInfo → ι → Option (ProfileCompilationInfo × Nat)) :
    ProfileCompilationInfo → List ι → Option (ProfileCompilationInfo × List Nat)
  | profile, [] => some (profile, [])
  | profile, x :: rest => do
    let (profile, index) ← step profile x
    let (profile, indexes) ← collectM step profile rest
    return (profile, index :: indexes)

/-- `MergeWith`. A profile that cannot be merged is left with a part of the other profile, which is not modelled. -/
def mergeWith (profile other : ProfileCompilationInfo) (mergeClasses : Bool) : Option ProfileCompilationInfo :=
  if profile.isForBootImage ≠ other.isForBootImage then none
  else if ∃ otherData ∈ other.info, ∃ data ∈ profile.findDexData otherData.profileKey,
      data.checksum ≠ otherData.checksum then none
  else do
    let (profile, dexProfileIndexRemap) ← collectM (fun profile otherData => profile.getOrAddDexFileData
      otherData.profileKey otherData.checksum otherData.numTypeIds otherData.numMethodIds) profile other.info
    let (profile, extraDescriptorsRemap) ← collectM remapExtraDescriptor profile other.extraDescriptors
    other.info.foldlM (fun profile otherData => do
      let index := dexProfileIndexRemap.getD otherData.profileIndex 0
      let data ← profile.info[index]?
      let data ← data.merge extraDescriptorsRemap mergeClasses otherData
      return profile.modifyData index fun _ => data) profile

end ProfileCompilationInfo

end Art.Profile
