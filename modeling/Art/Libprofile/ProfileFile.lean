import Art.Lib.Bytes
import Art.Libprofile.ProfileCompilationInfo

/-! The file format of profiles (`Save` and `LoadInternal` of `profile_compilation_info.cc`): a header with
    section infos, the dex files, and compressed sections for extra descriptors, classes and methods. A file
    is the list of its bytes; reading and writing it does not fail otherwise. -/

namespace Art.Profile

open Lib (OrderedMap OrderedSet ofBytes)

abbrev Bytes := List UInt8

def kProfileMagic : Bytes := [112, 114, 111, 0]
def kProfileVersion : Bytes := [48, 49, 53, 0]
def kProfileVersionForBootImage : Bytes := [48, 49, 54, 0]
def kMaxDexFileKeyLength : Nat := 1024
def kIsMissingTypesEncoding : Nat := 6
def kIsMegamorphicEncoding : Nat := 7
def kSizeErrorThresholdBytes : Nat := 1500000
def kSizeErrorThresholdBootBytes : Nat := 100000000
def sizeofFileHeader : Nat := 12
def sizeofFileSectionInfo : Nat := 16
def kMaxFileSectionCount : Nat := (2 ^ 32 - 1 - sizeofFileHeader) / sizeofFileSectionInfo

/-- The statuses other than success. -/
inductive ProfileLoadStatus
  | ioError
  | badMagic
  | versionMismatch
  | badData
  | mergeError
  deriving DecidableEq, Repr

/-- A status with its message, or a loop that does not end. -/
inductive Failure
  | status (status : ProfileLoadStatus) (message : String)
  | diverged
  deriving DecidableEq, Repr

/-- `DeflateBuffer`, and `InflateBuffer` with the expected size. -/
structure Zlib where
  deflate : Bytes → Option Bytes
  inflate : Bytes → Nat → Option Bytes

/-! ### Writing -/

/-- `WriteUintAndAdvance` of a number with `size` bytes, on a little-endian machine. -/
def writeUint (size n : Nat) : Bytes := Lib.toBytes size n

def writeString (s : Str) : Bytes := writeUint 2 s.length ++ s

def writeClassSet (lastTypeIndex : Nat) : List Nat → Bytes
  | [] => []
  | index :: rest => writeUint 2 (index - lastTypeIndex) ++ writeClassSet index rest

def bitsToBytesRoundUp (bits : Nat) : Nat := (bits + 7) / 8

def popcount (n : Nat) : Nat := (List.range 16).countP n.testBit

namespace DexFileData

def flagBits (data : DexFileData) (flag : Nat) : Nat :=
  (data.methodBitmap >>> (flagBitmapIndex flag * data.numMethodIds)) % 2 ^ data.numMethodIds

def getUsedBitmapFlags (data : DexFileData) : Nat :=
  (bitmapFlags data.isForBootImage).foldl
    (fun used flag => if data.flagBits flag ≠ 0 then used ||| 2 ^ flag else used) 0

def methodFlags (data : DexFileData) : Nat :=
  if data.methodMap.entries.isEmpty then data.getUsedBitmapFlags else data.getUsedBitmapFlags ||| 1

/-- The size of the saved bitmap in bits, which is multiplied in 32 bits. -/
def savedBitmapBitSize (data : DexFileData) : Nat := popcount data.getUsedBitmapFlags * data.numMethodIds % 2 ^ 32

def numDexPcEntries (data : DexFileData) : Nat := (data.methodMap.entries.map fun e => e.2.size).sum

def numClassEntries (data : DexFileData) : Nat :=
  (data.methodMap.entries.map fun e => (e.2.entries.map fun e => e.2.classes.size).sum).sum

def methodsDataSize (data : DexFileData) : Nat :=
  if data.methodFlags = 0 then 0
  else (2 + 4 + 2 + bitsToBytesRoundUp data.savedBitmapBitSize + data.methodMap.size * (2 + 2) +
    data.numDexPcEntries * (2 + 1) + data.numClassEntries * 2) % 2 ^ 32

def classesDataSize (data : DexFileData) : Nat :=
  if data.classSet.entries.isEmpty then 0 else (2 + 2 + 2 * data.classSet.size) % 2 ^ 32

def writeClasses (data : DexFileData) : Bytes :=
  if data.classSet.entries.isEmpty then []
  else writeUint 2 data.profileIndex ++ writeUint 2 data.classSet.size ++ writeClassSet 0 data.classSet.keys

/-- The bits of the used flags, one after the other. -/
def saveBitmap (data : DexFileData) (methodFlags : Nat) : List Nat → Nat
  | [] => 0
  | flag :: rest =>
    if methodFlags.testBit flag then data.flagBits flag ||| data.saveBitmap methodFlags rest <<< data.numMethodIds
    else data.saveBitmap methodFlags rest

def writeDexPcData (entry : Nat × DexPcData) : Bytes :=
  writeUint 2 entry.1 ++
    if entry.2.isMissingTypes then writeUint 1 kIsMissingTypesEncoding
    else if entry.2.isMegamorphic then writeUint 1 kIsMegamorphicEncoding
    else writeUint 1 entry.2.classes.size ++ writeClassSet 0 entry.2.classes.keys

/-- The hot methods behind the method `lastMethodIndex`. -/
def writeHotMethods (lastMethodIndex : Nat) : List (Nat × InlineCacheMap) → Bytes
  | [] => []
  | (methodIndex, inlineCacheMap) :: rest =>
    writeUint 2 (methodIndex - lastMethodIndex) ++ writeUint 2 inlineCacheMap.size ++
      inlineCacheMap.entries.flatMap writeDexPcData ++ writeHotMethods methodIndex rest

def writeMethods (data : DexFileData) : Bytes :=
  if data.methodsDataSize = 0 then []
  else
    writeUint 2 data.profileIndex ++ writeUint 4 (data.methodsDataSize - 2 - 4) ++ writeUint 2 data.methodFlags ++
      -- Every used flag has its bits copied, beyond the saved bitmap if its size was truncated.
      writeUint (bitsToBytesRoundUp (popcount data.getUsedBitmapFlags * data.numMethodIds))
        (data.saveBitmap data.methodFlags (bitmapFlags data.isForBootImage)) ++
      writeHotMethods 0 data.methodMap.entries

def writeDexFile (data : DexFileData) : Bytes :=
  writeUint 4 data.checksum ++ writeUint 4 data.numTypeIds ++ writeUint 4 data.numMethodIds ++
    writeString data.profileKey

end DexFileData

def kDexFiles : Nat := 0
def kExtraDescriptors : Nat := 1
def kClasses : Nat := 2
def kMethods : Nat := 3

/-- A section of the file; sections with inflated size 0 are not compressed. -/
structure Section where
  type : Nat
  content : Bytes
  inflatedSize : Nat

/-- A buffer of this size that is filled exactly; anything else is written beyond the buffer, or leaves a part
    of it uninitialized. -/
def fillBuffer (size : Nat) (bytes : Bytes) : Option Bytes := if bytes.length = size then some bytes else none

def compressedSection (zlib : Zlib) (type size : Nat) (bytes : Bytes) : Option (List Section) :=
  if size = 0 then some []
  else do
    let buffer ← fillBuffer size bytes
    let content ← zlib.deflate buffer
    return [⟨type, content, size⟩]

/-- The section infos, for sections from `fileOffset` on. -/
def writeSectionInfos (fileOffset : Nat) : List Section → Bytes
  | [] => []
  | info :: rest =>
    writeUint 4 info.type ++ writeUint 4 fileOffset ++ writeUint 4 info.content.length ++
      writeUint 4 info.inflatedSize ++
      writeSectionInfos (fileOffset + info.content.length) rest

namespace ProfileCompilationInfo

def getSizeErrorThresholdBytes (profile : ProfileCompilationInfo) : Nat :=
  if profile.isForBootImage then kSizeErrorThresholdBootBytes else kSizeErrorThresholdBytes

def version (profile : ProfileCompilationInfo) : Bytes :=
  if profile.isForBootImage then kProfileVersionForBootImage else kProfileVersion

def extraDescriptorsSectionSize (profile : ProfileCompilationInfo) : Nat :=
  if profile.extraDescriptors.isEmpty then 0 else 2 + (profile.extraDescriptors.map fun d => 2 + d.length).sum

def dexFilesSectionSize (profile : ProfileCompilationInfo) : Nat :=
  2 + (profile.info.map fun data => 3 * 4 + 2 + data.profileKey.length).sum

def classesSectionSize (profile : ProfileCompilationInfo) : Nat := (profile.info.map (·.classesDataSize)).sum

def methodsSectionSize (profile : ProfileCompilationInfo) : Nat := (profile.info.map (·.methodsDataSize)).sum

def fileSectionCount (profile : ProfileCompilationInfo) : Nat :=
  1 + (if profile.extraDescriptorsSectionSize ≠ 0 then 1 else 0) + (if profile.classesSectionSize ≠ 0 then 1 else 0) +
    (if profile.methodsSectionSize ≠ 0 then 1 else 0)

def headerAndInfosSize (profile : ProfileCompilationInfo) : Nat :=
  sizeofFileHeader + profile.fileSectionCount * sizeofFileSectionInfo

def totalUncompressedSize (profile : ProfileCompilationInfo) : Nat :=
  profile.headerAndInfosSize + profile.dexFilesSectionSize + profile.extraDescriptorsSectionSize +
    profile.classesSectionSize + profile.methodsSectionSize

def writeDexFiles (profile : ProfileCompilationInfo) : Bytes :=
  writeUint 2 profile.info.length ++ profile.info.flatMap (·.writeDexFile)

def writeExtraDescriptors (profile : ProfileCompilationInfo) : Bytes :=
  writeUint 2 profile.extraDescriptors.length ++ profile.extraDescriptors.flatMap writeString

def saveSections (zlib : Zlib) (profile : ProfileCompilationInfo) : Option (List Section) := do
  let dexFiles ← fillBuffer profile.dexFilesSectionSize profile.writeDexFiles
  let extraDescriptors ←
    compressedSection zlib kExtraDescriptors profile.extraDescriptorsSectionSize profile.writeExtraDescriptors
  let classes ← compressedSection zlib kClasses profile.classesSectionSize (profile.info.flatMap (·.writeClasses))
  let methods ← compressedSection zlib kMethods profile.methodsSectionSize (profile.info.flatMap (·.writeMethods))
  return ⟨kDexFiles, dexFiles, 0⟩ :: (extraDescriptors ++ classes ++ methods)

def save (zlib : Zlib) (profile : ProfileCompilationInfo) : Option Bytes :=
  if ∃ data ∈ profile.info, data.profileKey.length > kMaxDexFileKeyLength then none
  else if profile.totalUncompressedSize > profile.getSizeErrorThresholdBytes then none
  else do
    let sections ← saveSections zlib profile
    return kProfileMagic ++ profile.version ++ writeUint 4 sections.length ++
      writeSectionInfos profile.headerAndInfosSize sections ++ sections.flatMap (·.content)

end ProfileCompilationInfo

/-! ### Reading -/

def badData {α : Type} (message : String) : Except Failure α := .error (.status .badData message)

def readUint (size : Nat) (message : String) (buffer : Bytes) : Except Failure (Nat × Bytes) :=
  if size > buffer.length then badData message else .ok (ofBytes (buffer.take size), buffer.drop size)

def readString (message : String) (buffer : Bytes) : Except Failure (Str × Bytes) := do
  let (length, buffer) ← readUint 2 message buffer
  if length > buffer.length then badData message
  else if 0 ∈ buffer.take length then badData message
  else .ok (buffer.take length, buffer.drop length)

def showString (s : Str) : String := String.ofList (s.map fun b => Char.ofNat b.toNat)

/-- The messages of a loop over type indexes. -/
structure TypeIndexMessages where
  diff : String
  duplicate : String
  invalid : String
  outOfRange : String

/-- The loop over the types of a class set or an inline cache, behind `typeIndex`. -/
def readTypeIndexes (messages : TypeIndexMessages) (numTypeIds : Nat) (remap : List Nat) :
    Nat → Bool → Nat → Bytes → Except Failure (List Nat × Bytes)
  | 0, _, _, buffer => .ok ([], buffer)
  | count + 1, first, typeIndex, buffer => do
    let (typeIndexDiff, buffer) ← readUint 2 messages.diff buffer
    if typeIndexDiff = 0 ∧ !first then badData messages.duplicate
    else if typeIndexDiff ≥ min (numTypeIds + remap.length) kDexNoIndex16 - typeIndex then badData messages.invalid
    else do
      let typeIndex := typeIndex + typeIndexDiff
      match remapTypeIndex numTypeIds remap typeIndex with
      | none => .error (.status .mergeError messages.outOfRange)
      | some index => do
        let (rest, buffer) ← readTypeIndexes messages numTypeIds remap count false typeIndex buffer
        return (index :: rest, buffer)

namespace DexFileData

def readClasses (data : DexFileData) (remap : List Nat) (buffer : Bytes) : Except Failure (DexFileData × Bytes) := do
  let (classesSize, buffer) ← readUint 2 "Error reading classes size." buffer
  let (indexes, buffer) ← readTypeIndexes ⟨"Error reading class type index diff.", "Duplicate type index.",
    "Invalid type index.", "Remapped type index out of range."⟩ data.numTypeIds remap classesSize true 0 buffer
  return ({ data with classSet := indexes.foldl OrderedSet.insert data.classSet }, buffer)

def skipClasses (buffer : Bytes) : Except Failure Bytes := do
  let (classesSize, buffer) ← readUint 2 "Error reading classes size to skip." buffer
  if classesSize * 2 > buffer.length then badData "Classes data size to skip exceeds remaining data."
  else .ok (buffer.drop (classesSize * 2))

/-- The bits of the used flags are added to the bitmap. -/
def loadBitmap (numMethodIds methodFlags : Nat) : List Nat → Nat → Nat → Nat
  | [], _, bitmap => bitmap
  | flag :: rest, savedBitmap, bitmap =>
    if methodFlags.testBit flag then
      loadBitmap numMethodIds methodFlags rest (savedBitmap >>> numMethodIds)
        (bitmap ||| (savedBitmap % 2 ^ numMethodIds) <<< (flagBitmapIndex flag * numMethodIds))
    else loadBitmap numMethodIds methodFlags rest savedBitmap bitmap

def readDexPcData (numTypeIds : Nat) (remap : List Nat) (inlineCache : InlineCacheMap) (buffer : Bytes) :
    Except Failure (InlineCacheMap × Bytes) := do
  let (dexPc, buffer) ← readUint 2 "Error reading inline cache dex pc." buffer
  let data := (inlineCache.find? dexPc).getD .empty
  let (classesSize, buffer) ← readUint 1 "Error reading inline cache classes size." buffer
  if classesSize = kIsMissingTypesEncoding then .ok (inlineCache.set dexPc data.setIsMissingTypes, buffer)
  else if classesSize = kIsMegamorphicEncoding then .ok (inlineCache.set dexPc data.setIsMegamorphic, buffer)
  else if classesSize ≥ kIndividualInlineCacheSize then badData "Inline cache size too large."
  else do
    let (indexes, buffer) ← readTypeIndexes ⟨"Error reading inline cache type index diff.",
      "Duplicate inline cache type index.", "Invalid inline cache type index.",
      "Remapped inline cache type index out of range."⟩ numTypeIds remap classesSize true 0 buffer
    return (inlineCache.set dexPc (indexes.foldl DexPcData.addClass data), buffer)

def readInlineCache (numTypeIds : Nat) (remap : List Nat) : Nat → InlineCacheMap → Bytes →
    Except Failure (InlineCacheMap × Bytes)
  | 0, inlineCache, buffer => .ok (inlineCache, buffer)
  | count + 1, inlineCache, buffer => do
    let (inlineCache, buffer) ← readDexPcData numTypeIds remap inlineCache buffer
    readInlineCache numTypeIds remap count inlineCache buffer

/-- The loop over the hot methods, as long as there are more than `atEnd` bytes. -/
def readHotMethods (remap : List Nat) (atEnd : Nat) : Nat → Bool → Nat → DexFileData → Bytes →
    Except Failure (DexFileData × Bytes)
  | fuel, first, methodIndex, data, buffer =>
    if buffer.length ≤ atEnd then .ok (data, buffer)
    else
      match fuel with
      | 0 => .error .diverged
      | fuel + 1 => do
        let (diff, buffer) ← readUint 2 "Error reading method index diff." buffer
        if diff = 0 ∧ !first then badData "Duplicate method index."
        else if diff ≥ min (kMaxSupportedMethodIndex + 1) data.numMethodIds - methodIndex then
          badData "Invalid method index."
        else do
          let methodIndex := methodIndex + diff
          let (size, buffer) ← readUint 2 "Error reading inline cache size." buffer
          let (inlineCache, buffer) ← readInlineCache data.numTypeIds remap size
            ((data.methodMap.find? methodIndex).getD .empty) buffer
          readHotMethods remap atEnd fuel false methodIndex
            { data with methodMap := data.methodMap.set methodIndex inlineCache } buffer

def readMethods (data : DexFileData) (remap : List Nat) (buffer : Bytes) : Except Failure (DexFileData × Bytes) := do
  let (followingDataSize, buffer) ← readUint 4 "Error reading methods data size." buffer
  if followingDataSize > buffer.length then badData "Methods data size exceeds available data size."
  else do
    let atEnd := buffer.length - followingDataSize
    let (methodFlags, buffer) ← readUint 2 "Error reading method flags." buffer
    if !data.isForBootImage ∧ methodFlags ≥ 2 ^ (2 + 1) then
      badData "Method flags contain boot image profile flags for non-boot image profile."
    else
      let savedBitmapByteSize :=
        bitsToBytesRoundUp (popcount (methodFlags - methodFlags % 2) * data.numMethodIds % 2 ^ 32)
      if 2 + savedBitmapByteSize > followingDataSize then badData "Insufficient available data for method bitmap."
      else do
        let methodBitmap := loadBitmap data.numMethodIds methodFlags (bitmapFlags data.isForBootImage)
          (ofBytes (buffer.take savedBitmapByteSize)) data.methodBitmap
        let data := { data with methodBitmap }
        let buffer := buffer.drop savedBitmapByteSize
        let (data, buffer) ← (if methodFlags.testBit 0 then readHotMethods remap atEnd buffer.length true 0 data buffer
          else .ok (data, buffer))
        if buffer.length ≠ atEnd then badData "Methods data did not end at expected position."
        else .ok (data, buffer)

def skipMethods (buffer : Bytes) : Except Failure Bytes := do
  let (followingDataSize, buffer) ← readUint 4 "Error reading methods data size to skip." buffer
  if followingDataSize > buffer.length then badData "Methods data size to skip exceeds remaining data."
  else .ok (buffer.drop followingDataSize)

end DexFileData

/-- The header of a profile file. -/
structure FileHeader where
  magic : Bytes
  version : Bytes
  fileSectionCount : Nat

namespace FileHeader

def isValid (header : FileHeader) : Bool :=
  header.magic == kProfileMagic &&
    (header.version == kProfileVersion || header.version == kProfileVersionForBootImage) &&
    header.fileSectionCount != 0 && header.fileSectionCount ≤ kMaxFileSectionCount

/-- `InvalidHeaderMessage`, which compares the version with `kProfileVersion` twice: an invalid header of a
    boot image profile is reported as a version mismatch, also if only its number of sections is wrong. -/
def invalidHeaderMessage (header : FileHeader) : Failure :=
  if header.magic ≠ kProfileMagic then .status .badMagic "Profile missing magic."
  else if header.version ≠ kProfileVersion ∧ header.version ≠ kProfileVersion then
    .status .versionMismatch "Profile version mismatch."
  else if header.fileSectionCount = 0 then .status .badData "Missing mandatory dex files section."
  else .status .badData "Too many sections."

end FileHeader

/-- The place and the sizes of a section. -/
structure FileSectionInfo where
  type : Nat
  fileOffset : Nat
  fileSize : Nat
  inflatedSize : Nat
  deriving DecidableEq, Repr

def FileSectionInfo.getMemSize (info : FileSectionInfo) : Nat :=
  if info.inflatedSize ≠ 0 then info.inflatedSize else info.fileSize

/-- `Seek` and `Read` of a `ProfileSource`. -/
def readAt (file : Bytes) (offset size : Nat) (stage : String) : Except Failure Bytes :=
  if size = 0 ∨ offset + size ≤ file.length then .ok ((file.drop offset).take size)
  else badData ("Profile EOF reached prematurely for " ++ stage)

def readSectionData (zlib : Zlib) (file : Bytes) (info : FileSectionInfo) : Except Failure Bytes := do
  let buffer ← readAt file info.fileOffset info.fileSize "ReadSectionData"
  if info.inflatedSize = 0 then .ok buffer
  else
    match zlib.inflate buffer info.inflatedSize with
    | none => badData "Error uncompressing section data."
    | some buffer => .ok buffer

def readSectionInfos : Nat → Bytes → List FileSectionInfo
  | 0, _ => []
  | count + 1, bytes =>
    ⟨ofBytes (bytes.take 4), ofBytes ((bytes.drop 4).take 4), ofBytes ((bytes.drop 8).take 4),
      ofBytes ((bytes.drop 12).take 4)⟩ :: readSectionInfos count (bytes.drop sizeofFileSectionInfo)

/-- What the memory for the sections adds to `size`. -/
def addMemSizes (size : Nat) : List FileSectionInfo → Except Failure Nat
  | [] => .ok size
  | info :: rest =>
    if info.getMemSize > 2 ^ 32 - 1 - size then badData "Total memory size overflow."
    else addMemSizes (size + info.getMemSize) rest

/-- What `LoadInternal` uses from elsewhere: compression, `IsValidDescriptor` and the filter of dex files. -/
structure LoadContext where
  zlib : Zlib
  isValidDescriptor : Str → Bool
  filter : Str → Nat → Bool

namespace ProfileCompilationInfo

def readDexFiles (filter : Str → Nat → Bool) : Nat → ProfileCompilationInfo → Bytes →
    Except Failure (ProfileCompilationInfo × List Nat × Bytes)
  | 0, profile, buffer => .ok (profile, [], buffer)
  | count + 1, profile, buffer => do
    let (checksum, buffer) ← readUint 4 "Error reading dex file data." buffer
    let (numTypeIds, buffer) ← readUint 4 "Error reading dex file data." buffer
    let (numMethodIds, buffer) ← readUint 4 "Error reading dex file data." buffer
    let (profileKey, buffer) ← readString "Missing terminating null character for profile key." buffer
    if profileKey.length = 0 ∨ profileKey.length > kMaxDexFileKeyLength then
      badData ("ProfileKey has an invalid size: " ++ toString profileKey.length)
    else if !filter profileKey checksum then do
      let (profile, remap, buffer) ← readDexFiles filter count profile buffer
      return (profile, maxProfileIndex :: remap, buffer)
    else
      match profile.getOrAddDexFileData profileKey checksum numTypeIds numMethodIds with
      | none =>
        if profile.info.length = maxProfileIndex ∧ (profile.findDexData profileKey).isNone then
          badData "Too many dex files."
        else badData ("Checksum, NumTypeIds, or NumMethodIds mismatch for " ++ showString profileKey)
      | some (profile, index) => do
        let (profile, remap, buffer) ← readDexFiles filter count profile buffer
        return (profile, index :: remap, buffer)

def readDexFilesSection (context : LoadContext) (file : Bytes) (info : FileSectionInfo)
    (profile : ProfileCompilationInfo) :
    Except Failure (ProfileCompilationInfo × List Nat) := do
  let buffer ← readSectionData context.zlib file info
  let (numDexFiles, buffer) ← readUint 2 "Error reading number of dex files." buffer
  if numDexFiles ≥ maxProfileIndex then badData "Too many dex files."
  else do
    let (profile, remap, buffer) ← readDexFiles context.filter numDexFiles profile buffer
    if buffer.length ≠ 0 then badData "Unexpected data at end of dex files section."
    else .ok (profile, remap)

def readExtraDescriptors (isValidDescriptor : Str → Bool) : Nat → ProfileCompilationInfo → Bytes →
    Except Failure (ProfileCompilationInfo × List Nat × Bytes)
  | 0, profile, buffer => .ok (profile, [], buffer)
  | count + 1, profile, buffer => do
    let (descriptor, buffer) ← readString "Missing terminating null character for extra descriptor." buffer
    if !isValidDescriptor descriptor then badData "Invalid extra descriptor."
    else
      match profile.remapExtraDescriptor descriptor with
      | none => .error (.status .mergeError "Too many extra descriptors.")
      | some (profile, index) => do
        let (profile, remap, buffer) ← readExtraDescriptors isValidDescriptor count profile buffer
        return (profile, index :: remap, buffer)

/-- `ReadExtraDescriptorsSection`; the indexes are added to those of earlier sections. -/
def readExtraDescriptorsSection (context : LoadContext) (file : Bytes) (info : FileSectionInfo)
    (profile : ProfileCompilationInfo) (remap : List Nat) : Except Failure (ProfileCompilationInfo × List Nat) := do
  let buffer ← readSectionData context.zlib file info
  let (numExtraDescriptors, buffer) ← readUint 2 "Error reading number of extra descriptors." buffer
  let (profile, new, _) ← readExtraDescriptors context.isValidDescriptor numExtraDescriptors profile buffer
  return (profile, remap ++ new)

/-- The loop of a section that has data for dex files by their profile indexes. -/
def readForDexFiles (name : String) (read : DexFileData → Bytes → Except Failure (DexFileData × Bytes))
    (skip : Bytes → Except Failure Bytes) (dexRemap : List Nat) :
    Nat → ProfileCompilationInfo → Bytes → Except Failure ProfileCompilationInfo
  | fuel, profile, buffer =>
    if buffer.length = 0 then .ok profile
    else
      match fuel with
      | 0 => .error .diverged
      | fuel + 1 => do
        let (profileIndex, buffer) ← readUint 2 ("Error profile index in " ++ name ++ " section.") buffer
        match dexRemap[profileIndex]? with
        | none => badData ("Invalid profile index in " ++ name ++ " section.")
        | some profileIndex =>
          if profileIndex = maxProfileIndex then do
            let buffer ← skip buffer
            readForDexFiles name read skip dexRemap fuel profile buffer
          else
            match profile.info[profileIndex]? with
            | none => .error .diverged
            | some data => do
              let (data, buffer) ← read data buffer
              readForDexFiles name read skip dexRemap fuel (profile.modifyData profileIndex fun _ => data) buffer

def readClassesSection (context : LoadContext) (file : Bytes) (info : FileSectionInfo) (dexRemap remap : List Nat)
    (profile : ProfileCompilationInfo) : Except Failure ProfileCompilationInfo := do
  let buffer ← readSectionData context.zlib file info
  readForDexFiles "classes" (·.readClasses remap) DexFileData.skipClasses dexRemap buffer.length profile buffer

def readMethodsSection (context : LoadContext) (file : Bytes) (info : FileSectionInfo) (dexRemap remap : List Nat)
    (profile : ProfileCompilationInfo) : Except Failure ProfileCompilationInfo := do
  let buffer ← readSectionData context.zlib file info
  readForDexFiles "methods" (·.readMethods remap) DexFileData.skipMethods dexRemap buffer.length profile buffer

/-- The loop of `LoadInternal` over the sections behind the dex files. -/
def readSections (context : LoadContext) (file : Bytes) (mergeClasses : Bool) (dexRemap : List Nat) :
    List FileSectionInfo → List Nat → ProfileCompilationInfo → Except Failure ProfileCompilationInfo
  | [], _, profile => .ok profile
  | info :: rest, remap, profile =>
    if info.type = kDexFiles then badData "Unsupported additional dex files section."
    else if info.type = kExtraDescriptors then do
      let (profile, remap) ← profile.readExtraDescriptorsSection context file info remap
      readSections context file mergeClasses dexRemap rest remap profile
    else if info.type = kClasses ∧ !profile.info.isEmpty ∧ mergeClasses then do
      let profile ← profile.readClassesSection context file info dexRemap remap
      readSections context file mergeClasses dexRemap rest remap profile
    else if info.type = kMethods ∧ !profile.info.isEmpty then do
      let profile ← profile.readMethodsSection context file info dexRemap remap
      readSections context file mergeClasses dexRemap rest remap profile
    -- Classes and methods are skipped without dex files, and so are all other sections.
    else readSections context file mergeClasses dexRemap rest remap profile

/-- `LoadInternal` of a file that is not a zip archive. -/
def loadInternal (context : LoadContext) (file : Bytes) (mergeClasses : Bool) (profile : ProfileCompilationInfo) :
    Except Failure ProfileCompilationInfo :=
  if file.length = 0 then .ok profile
  else do
    let bytes ← readAt file 0 sizeofFileHeader "ReadProfileHeader"
    let header : FileHeader := ⟨bytes.take 4, (bytes.drop 4).take 4, ofBytes (bytes.drop 8)⟩
    let sectionCount := header.fileSectionCount
    if !header.isValid then .error header.invalidHeaderMessage
    else if header.version ≠ profile.version then
      .error (.status .versionMismatch (if profile.isForBootImage then "Expected boot profile, got app profile."
        else "Expected app profile, got boot profile."))
    else if sizeofFileHeader + sectionCount * sizeofFileSectionInfo > profile.getSizeErrorThresholdBytes then
      badData ""
    else do
      let infos ← readAt file sizeofFileHeader (sectionCount * sizeofFileSectionInfo) "ReadSectionInfos"
      let sectionInfos := readSectionInfos sectionCount infos
      let size ← addMemSizes (sizeofFileHeader + sectionCount * sizeofFileSectionInfo) sectionInfos
      if size > profile.getSizeErrorThresholdBytes then badData ""
      else
        match sectionInfos with
        | [] => .error .diverged
        | info :: rest =>
          if info.type ≠ kDexFiles then badData "First section is not dex files section."
          else do
            let (profile, dexRemap) ← profile.readDexFilesSection context file info
            readSections context file mergeClasses dexRemap rest [] profile

def equals (profile other : ProfileCompilationInfo) : Bool :=
  profile.isForBootImage == other.isForBootImage && profile.info.length == other.info.length &&
    (profile.info.zip other.info).all fun (data, otherData) =>
      data.checksum == otherData.checksum && data.numMethodIds == otherData.numMethodIds &&
        data.methodMap == otherData.methodMap && data.classSet == otherData.classSet &&
        data.methodBitmap == otherData.methodBitmap

end ProfileCompilationInfo

end Art.Profile
