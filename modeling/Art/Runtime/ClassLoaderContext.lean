import Mathlib.Data.List.Basic
import Mathlib.Algebra.Group.Nat.Defs

/-! Class loader contexts (`runtime/class_loader_context.cc`): trees of class loaders, their encoding as
    specs, the parser of specs, and the comparison of a tree with a spec. Strings are lists of
    characters; the opened dex and oat files are left out of the trees. -/

namespace Art.ClassLoaderContext

abbrev Str := List Char

/-- The class loaders that a spec can name. -/
inductive ClassLoaderType
  | pathClassLoader
  | delegateLastClassLoader
  | inMemoryDexClassLoader
  deriving DecidableEq, Repr

/-- `original_classpath` is only used to remap locations and left out. -/
inductive ClassLoaderInfo
  | mk (type : ClassLoaderType) (classpath : List Str) (checksums : List UInt32)
      (sharedLibraries sharedLibrariesAfter : List ClassLoaderInfo) (parent : Option ClassLoaderInfo)

namespace ClassLoaderInfo

def type : ClassLoaderInfo → ClassLoaderType
  | .mk type .. => type

def classpath : ClassLoaderInfo → List Str
  | .mk _ classpath .. => classpath

def checksums : ClassLoaderInfo → List UInt32
  | .mk _ _ checksums .. => checksums

def sharedLibraries : ClassLoaderInfo → List ClassLoaderInfo
  | .mk _ _ _ libraries .. => libraries

def sharedLibrariesAfter : ClassLoaderInfo → List ClassLoaderInfo
  | .mk _ _ _ _ after _ => after

def parent : ClassLoaderInfo → Option ClassLoaderInfo
  | .mk _ _ _ _ _ parent => parent

end ClassLoaderInfo

/-- How a function of the context can fail. -/
inductive Failure
  /-- The null pointer that the parser returns for an invalid spec. -/
  | invalid
  /-- A failed `CHECK`. -/
  | abort
  | unsupportedClassLoader
  | diverged
  deriving DecidableEq, Repr

/-- What the context uses of other libraries: `ParseUint` of a 32-bit number and `Realpath`. -/
structure Library where
  parseUint : Str → Option UInt32
  realpath : Str → Option Str

def getClassLoaderTypeName : ClassLoaderType → Str
  | .pathClassLoader => ['P', 'C', 'L']
  | .delegateLastClassLoader => ['D', 'L', 'C']
  | .inMemoryDexClassLoader => ['I', 'M', 'C']

def kClassLoaderOpeningMark : Char := '['
def kClassLoaderClosingMark : Char := ']'
def kClassLoaderSharedLibraryOpeningMark : Char := '\x7b'
def kClassLoaderSharedLibraryClosingMark : Char := '\x7d'
def kClassLoaderSharedLibrarySeparator : Char := '#'
def kClassLoaderSharedLibraryAfterSeparator : Char := '~'
def kClassLoaderSeparator : Char := ';'
def kClasspathSeparator : Char := ':'
def kDexFileChecksumSeparator : Char := '*'
def kInMemoryDexClassLoaderDexLocationMagic : Str := ['<', 'u', 'n', 'k', 'n', 'o', 'w', 'n', '>']

/-! ### Strings -/

/-- `find_first_of(c, pos)`, where `none` is `npos`. -/
def findFirstOf (s : Str) (c : Char) (pos : Nat) : Option Nat :=
  ((s.drop pos).findIdx? (· == c)).map (· + pos)

def substr (s : Str) (pos len : Nat) : Str := (s.drop pos).take len

/-- `s[index]`, which is the terminating null character at the end. -/
def charAt (s : Str) (index : Nat) : Char := s.getD index '\x00'

/-- What is written of a string through `c_str()`. -/
def cStr (s : Str) : Str := s.takeWhile (· != '\x00')

/-- `Split`, which drops empty parts. -/
def split (s : Str) (separator : Char) : List Str := (s.splitOn separator).filter (· != [])

def decimal (n : Nat) : Str := Nat.toDigits 10 n

/-! ### Encoding -/

/-- One element of `EncodeClassPath`, with base directory `""`. -/
def encodeElement (type : ClassLoaderType) (location : Str) (checksum : UInt32) : Str :=
  (if type = .inMemoryDexClassLoader then kInMemoryDexClassLoaderDexLocationMagic else cStr location) ++
    kDexFileChecksumSeparator :: decimal checksum.toNat

/-- `EncodeClassPath`, with base directory `""` and with checksums. -/
def encodeClassPath (type : ClassLoaderType) (locations : List Str) (checksums : List UInt32) : Str :=
  getClassLoaderTypeName type ++ kClassLoaderOpeningMark ::
    [kClasspathSeparator].intercalate (List.zipWith (encodeElement type) locations checksums) ++
    [kClassLoaderClosingMark]

mutual

/-- `EncodeContextInternal` for oat files, without a stored context. -/
def encodeContextInternal : ClassLoaderInfo → Str
  | .mk type classpath checksums libraries after parent =>
    encodeClassPath type classpath checksums ++
    -- `EncodeSharedLibAndParent`
    (if libraries.isEmpty && after.isEmpty then []
      else kClassLoaderSharedLibraryOpeningMark :: encodeSharedLibraries true libraries ++
        encodeSharedLibrariesAfter libraries.isEmpty after ++ [kClassLoaderSharedLibraryClosingMark]) ++
    encodeParent parent

/-- The loop over `shared_libraries`; `first` says that no library has been written yet. -/
def encodeSharedLibraries (first : Bool) : List ClassLoaderInfo → Str
  | [] => []
  | library :: rest =>
    (if first then [] else [kClassLoaderSharedLibrarySeparator]) ++ encodeContextInternal library ++
      encodeSharedLibraries false rest

def encodeSharedLibrariesAfter (first : Bool) : List ClassLoaderInfo → Str
  | [] => []
  | library :: rest =>
    (if first then [] else [kClassLoaderSharedLibrarySeparator]) ++
      kClassLoaderSharedLibraryAfterSeparator :: encodeContextInternal library ++
      encodeSharedLibrariesAfter false rest

def encodeParent : Option ClassLoaderInfo → Str
  | none => []
  | some parent => kClassLoaderSeparator :: encodeContextInternal parent

end

/-! ### Parsing -/

def closeMarkerLoop (spec : Str) : Nat → Nat → Nat → Except Failure (Option Nat)
  | 0, _, _ => .error .diverged
  | fuel + 1, counter, stringIndex =>
    match findFirstOf spec kClassLoaderSharedLibraryClosingMark stringIndex with
    | none => .ok none
    | some close =>
      match findFirstOf spec kClassLoaderSharedLibraryOpeningMark stringIndex with
      | some opening =>
        if close < opening then
          if counter - 1 = 0 then .ok (some close) else closeMarkerLoop spec fuel (counter - 1) ((close + 1) % 2 ^ 32)
        else closeMarkerLoop spec fuel (counter + 1) ((opening + 1) % 2 ^ 32)
      | none =>
        if counter - 1 = 0 then .ok (some close) else closeMarkerLoop spec fuel (counter - 1) ((close + 1) % 2 ^ 32)

/-- `FindMatchingSharedLibraryCloseMarker`; the index of its loop has 32 bits. -/
def findMatchingSharedLibraryCloseMarker (spec : Str) (sharedLibraryOpenIndex : Nat) : Except Failure (Option Nat) :=
  closeMarkerLoop spec (spec.length + 1) 1 ((sharedLibraryOpenIndex + 1) % 2 ^ 32)

/-- `ExtractClassLoaderType`, where `none` is `kInvalidClassLoader`. -/
def extractClassLoaderType (spec : Str) : Option ClassLoaderType :=
  [ClassLoaderType.pathClassLoader, .delegateLastClassLoader, .inMemoryDexClassLoader].find? fun type =>
    substr spec 0 (getClassLoaderTypeName type).length == getClassLoaderTypeName type

/-- One element of a class path with its checksum. -/
def parseElement (lib : Library) (type : ClassLoaderType) (element : Str) : Except Failure (Str × UInt32) :=
  match split element kDexFileChecksumSeparator with
  | [location, checksum] =>
    match lib.parseUint (cStr checksum) with
    | none => .error .invalid
    | some checksum =>
      if type = .inMemoryDexClassLoader ∧ location ≠ kInMemoryDexClassLoaderDexLocationMagic then .error .invalid
      else .ok (location, checksum)
  | _ => .error .invalid

/-- The next shared library of a list from `cursor` on: its spec, whether it is loaded after the dex path,
    and the cursor behind it. -/
def nextSharedLibrary (spec : Str) (cursor : Nat) : Except Failure (Str × Bool × Nat) :=
  let isAfter := charAt spec cursor = kClassLoaderSharedLibraryAfterSeparator
  let start := if isAfter then cursor + 1 else cursor
  match findFirstOf spec kClassLoaderSharedLibrarySeparator cursor,
    findFirstOf spec kClassLoaderSharedLibraryOpeningMark cursor with
  | none, _ => .ok (substr spec start (spec.length - start), isAfter, spec.length)
  | some separator, none => .ok (substr spec start (separator - start), isAfter, separator + 1)
  | some separator, some opening =>
    if opening > separator then .ok (substr spec start (separator - start), isAfter, separator + 1)
    else do
      match ← findMatchingSharedLibraryCloseMarker spec opening with
      | none => .error .invalid
      | some closing =>
        let cursor := closing + 1
        let passSeparator := cursor ≠ spec.length ∧ charAt spec cursor = kClassLoaderSharedLibrarySeparator
        .ok (substr spec start (closing + 1 - start), isAfter, if passSeparator then cursor + 1 else cursor)

/-- The loop over the shared libraries of a class loader; `parse` is `ParseInternal`. The result are the
    libraries and the libraries loaded after the dex path. -/
def parseSharedLibraries (parse : Str → Except Failure ClassLoaderInfo) (spec : Str) :
    Nat → Nat → Except Failure (List ClassLoaderInfo × List ClassLoaderInfo)
  | fuel, cursor =>
    if cursor = spec.length then .ok ([], [])
    else
      match fuel with
      | 0 => .error .diverged
      | fuel + 1 => do
        let (librarySpec, isAfter, cursor) ← nextSharedLibrary spec cursor
        let library ← parse librarySpec
        let (libraries, after) ← parseSharedLibraries parse spec fuel cursor
        return if isAfter then (libraries, library :: after) else (library :: libraries, after)

def classpathOf (spec : Str) (typeStrSize : Nat) : Str :=
  match findFirstOf spec kClassLoaderClosingMark 0 with
  | none => spec.drop (typeStrSize + 1)
  | some closing => substr spec (typeStrSize + 1) (closing - typeStrSize - 1)

def parseClassPath (lib : Library) (type : ClassLoaderType) (parseChecksums : Bool) (classpath : Str) :
    Except Failure (List Str × List UInt32) :=
  if parseChecksums then do
    let elements ← (split classpath kClasspathSeparator).mapM (parseElement lib type)
    return (elements.map (·.1), elements.map (·.2))
  else .ok (split classpath kClasspathSeparator, [])

/-- `ParseClassLoaderSpec`; `parse` is `ParseInternal`. -/
def parseClassLoaderSpec (lib : Library) (parse : Str → Except Failure ClassLoaderInfo) (parseChecksums : Bool)
    (spec : Str) : Except Failure ClassLoaderInfo :=
  match extractClassLoaderType spec with
  | none => .error .invalid
  | some type =>
    if type = .inMemoryDexClassLoader ∧ !parseChecksums then .error .invalid
    else if charAt spec (getClassLoaderTypeName type).length ≠ kClassLoaderOpeningMark then .error .invalid
    else if charAt spec (spec.length - 1) ≠ kClassLoaderClosingMark ∧
        charAt spec (spec.length - 1) ≠ kClassLoaderSharedLibraryClosingMark then .error .invalid
    else do
      let (classpath, checksums) ←
        parseClassPath lib type parseChecksums (classpathOf spec (getClassLoaderTypeName type).length)
      if charAt spec (spec.length - 1) = kClassLoaderSharedLibraryClosingMark ∧
          charAt spec (spec.length - 2) ≠ kClassLoaderSharedLibraryOpeningMark then
        match findFirstOf spec kClassLoaderSharedLibraryOpeningMark 0 with
        | none => .error .invalid
        | some start =>
          let librariesSpec := substr spec (start + 1) (spec.length - start - 2)
          let (libraries, after) ← parseSharedLibraries parse librariesSpec librariesSpec.length 0
          return .mk type classpath checksums libraries after none
      else return .mk type classpath checksums [] [] none

/-- The first class loader spec of a chain and the remaining chain. -/
def nextClassLoader (remaining : Str) : Except Failure (Str × Str) :=
  match findFirstOf remaining kClassLoaderSeparator 0, findFirstOf remaining kClassLoaderSharedLibraryOpeningMark 0 with
  | none, _ => .ok (remaining, [])
  | some separator, none => .ok (substr remaining 0 separator, remaining.drop (separator + 1))
  | some separator, some opening =>
    if opening > separator then .ok (substr remaining 0 separator, remaining.drop (separator + 1))
    else do
      match ← findMatchingSharedLibraryCloseMarker remaining opening with
      | none => .error .invalid
      | some close =>
        if remaining.length = close + 1 then .ok (substr remaining 0 (close + 1), [])
        else if remaining.length = close + 2 ∨ charAt remaining (close + 1) ≠ kClassLoaderSeparator then .error .invalid
        else .ok (substr remaining 0 (close + 1), remaining.drop (close + 2))

def ClassLoaderInfo.withParent : ClassLoaderInfo → Option ClassLoaderInfo → ClassLoaderInfo
  | .mk type classpath checksums libraries after _, parent => .mk type classpath checksums libraries after parent

/-- The loop of `ParseInternal` over a chain; `parse` is `ParseClassLoaderSpec`. -/
def parseChain (parse : Str → Except Failure ClassLoaderInfo) : Nat → Str → Except Failure (Option ClassLoaderInfo)
  | _, [] => .ok none
  | 0, _ :: _ => .error .diverged
  | fuel + 1, c :: s => do
    let (spec, remaining) ← nextClassLoader (c :: s)
    let info ← parse spec
    let parent ← parseChain parse fuel remaining
    return some (info.withParent parent)

/-- `ParseInternal`, for specs that are at most `fuel` characters long. -/
def parseInternal (lib : Library) (parseChecksums : Bool) : Nat → Str → Except Failure ClassLoaderInfo
  | _, [] => .error .abort
  | 0, _ :: _ => .error .diverged
  | fuel + 1, c :: s => do
    match ← parseChain (parseClassLoaderSpec lib (parseInternal lib parseChecksums fuel) parseChecksums)
      (c :: s).length (c :: s) with
    | none => .error .abort
    | some info => return info

/-- `Parse`, of a context without class loaders. -/
def parse (lib : Library) (spec : Str) (parseChecksums : Bool) : Except Failure ClassLoaderInfo :=
  if spec = [] then .ok (.mk .pathClassLoader [] [] [] [] none)
  else parseInternal lib parseChecksums spec.length spec

/-! ### Comparison -/

def isAbsoluteLocation (path : Str) : Bool := path.head? == some '/'

def absolutePathHasRelativeSuffix (path suffix : Str) : Bool :=
  path.length > suffix.length && charAt path (path.length - suffix.length - 1) == '/' &&
    path.drop (path.length - suffix.length) == suffix

def kMultiDexSeparator : Char := '!'

def resolveIfAbsolutePath (lib : Library) (path : Str) : Str :=
  if !isAbsoluteLocation path then path
  else
    let filename := path.takeWhile (· != kMultiDexSeparator)
    let multiDexSuffix := path.dropWhile (· != kMultiDexSeparator)
    match lib.realpath filename with
    | none => path
    | some resolved => resolved ++ multiDexSuffix

def areDexNameMatching (lib : Library) (actual expected : Str) : Bool :=
  let resolvedActual := resolveIfAbsolutePath lib actual
  let resolvedExpected := resolveIfAbsolutePath lib expected
  if isAbsoluteLocation actual = isAbsoluteLocation expected then resolvedActual == resolvedExpected
  else if isAbsoluteLocation actual then absolutePathHasRelativeSuffix resolvedActual resolvedExpected
  else absolutePathHasRelativeSuffix resolvedExpected resolvedActual

def classpathMatch (lib : Library) (info expected : ClassLoaderInfo) (verifyNames : Bool) : Bool :=
  info.type == expected.type && info.classpath.length == expected.classpath.length &&
    (!verifyNames || (List.range info.classpath.length).all fun k =>
      areDexNameMatching lib (info.classpath.getD k []) (expected.classpath.getD k []) &&
        info.checksums.getD k 0 == expected.checksums.getD k 0)

mutual

def classLoaderInfoMatch (lib : Library) (verifyNames : Bool) : ClassLoaderInfo → ClassLoaderInfo → Bool
  | .mk type classpath checksums libraries after parent, expected =>
    classpathMatch lib (.mk type classpath checksums libraries after parent) expected verifyNames &&
    librariesMatch lib verifyNames libraries expected.sharedLibraries &&
    parentMatch lib verifyNames parent expected.parent

def librariesMatch (lib : Library) (verifyNames : Bool) : List ClassLoaderInfo → List ClassLoaderInfo → Bool
  | [], [] => true
  | library :: rest, expected :: expectedRest =>
    classLoaderInfoMatch lib verifyNames library expected && librariesMatch lib verifyNames rest expectedRest
  | _, _ => false

def parentMatch (lib : Library) (verifyNames : Bool) : Option ClassLoaderInfo → Option ClassLoaderInfo → Bool
  | none, none => true
  | some parent, some expected => classLoaderInfoMatch lib verifyNames parent expected
  | _, _ => false

end

/-- The results of `VerifyClassLoaderContextMatch` but for a forced one. -/
inductive VerificationResult
  | verifies
  | mismatch
  deriving DecidableEq, Repr

/-- `VerifyClassLoaderContextMatch` of the context with the class loaders `info`. -/
def verifyClassLoaderContextMatch (lib : Library) (info : ClassLoaderInfo) (contextSpec : Str)
    (verifyNames verifyChecksums : Bool) : Except Failure VerificationResult :=
  match parse lib contextSpec verifyChecksums with
  | .error .invalid => .ok .mismatch
  | .error e => .error e
  | .ok expected =>
    .ok (if classLoaderInfoMatch lib verifyNames info expected then .verifies else .mismatch)

/-! ### Class loaders of the runtime -/

/-- The class of a runtime class loader. -/
inductive LoaderKind
  | pathOrDex
  | delegateLast
  | inMemoryDex
  | other
  deriving DecidableEq, Repr

/-- An open dex file, as far as the context reads it. -/
structure DexFile where
  location : Str
  locationChecksum : UInt32
  dexVersion : Nat
  deriving DecidableEq, Repr

/-- A `mirror::ClassLoader` with the dex files collected from it. -/
inductive ClassLoader
  | boot
  | mk (kind : LoaderKind) (dexFiles : List DexFile) (sharedLibraryLoaders sharedLibraryLoadersAfter : List ClassLoader)
      (parent : ClassLoader)

def kDexContainerVersion : Nat := 41

def kEmptyMultiDexChecksum : UInt32 := 1

def isMultiDexLocation (location : Str) : Bool := (cStr location).contains kMultiDexSeparator

/-- The loop of `GetMultiDexChecksum` behind a primary dex file: the secondary dex files that follow are
    combined into the checksum. -/
def multiDexChecksumLoop (previous : DexFile) (checksum : UInt32) : List DexFile → UInt32 × List DexFile
  | [] => (checksum, [])
  | dexFile :: rest =>
    if !isMultiDexLocation dexFile.location then (checksum, dexFile :: rest)
    else if dexFile.dexVersion ≥ kDexContainerVersion ∧ dexFile.locationChecksum = previous.locationChecksum + 1 then
      multiDexChecksumLoop dexFile checksum rest
    else multiDexChecksumLoop dexFile (checksum ^^^ dexFile.locationChecksum) rest

/-- The class path and the checksums of the dex files of a loader. -/
def populateDexFiles (type : ClassLoaderType) : Nat → List DexFile → Except Failure (List (Str × UInt32))
  | _, [] => .ok []
  | 0, _ :: _ => .error .diverged
  | fuel + 1, dexFile :: rest =>
    if isMultiDexLocation dexFile.location then .error .abort
    else do
      let (checksum, rest) := multiDexChecksumLoop dexFile (kEmptyMultiDexChecksum ^^^ dexFile.locationChecksum) rest
      let elements ← populateDexFiles type fuel rest
      return (if type = .inMemoryDexClassLoader then kInMemoryDexClassLoaderDexLocationMagic else dexFile.location,
        checksum) :: elements

def loaderType : LoaderKind → Except Failure ClassLoaderType
  | .pathOrDex => .ok .pathClassLoader
  | .delegateLast => .ok .delegateLastClassLoader
  | .inMemoryDex => .ok .inMemoryDexClassLoader
  | .other => .error .unsupportedClassLoader

mutual

/-- `CreateInfoFromClassLoader`; there is nothing to do for the boot class loader. -/
def createInfoFromClassLoader (dexElements : List DexFile) : ClassLoader → Except Failure (Option ClassLoaderInfo)
  | .boot => .ok none
  | .mk kind dexFiles libraries after parent => do
    let type ← loaderType kind
    let dexFilesLoaded := dexFiles ++ dexElements
    let elements ← populateDexFiles type dexFilesLoaded.length dexFilesLoaded
    let libraries ← createLibraries libraries
    let after ← createLibraries after
    let parent ← createInfoFromClassLoader [] parent
    return some (.mk type (elements.map (·.1)) (elements.map (·.2)) libraries after parent)

def createLibraries : List ClassLoader → Except Failure (List ClassLoaderInfo)
  | [] => .ok []
  | library :: rest => do
    let info ← createInfoFromClassLoader [] library
    let infos ← createLibraries rest
    return info.toList ++ infos

end

end Art.ClassLoaderContext
