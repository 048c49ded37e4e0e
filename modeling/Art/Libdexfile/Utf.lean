import Mathlib.Algebra.Group.Nat.Defs

/-! Modified UTF-8 (`utf.cc`, `utf-inl.h`). -/

namespace Art.Dex

/-! ### Decoding -/

/-- The bytes of a C string from its start on; what is beyond the list reads as zero. -/
abbrev CString := List UInt8

/-- `GetUtf16FromUtf8`, when the first byte is read: a code unit, or a surrogate pair with the leading one in the low
    half, and where the string goes on. -/
def getUtf16FromUtf8 (one : UInt8) (rest : CString) : Nat × CString :=
  if one &&& 0x80 = 0 then (one.toNat, rest)
  else
    let two := rest.headD 0
    let rest := rest.tail
    if one &&& 0x20 = 0 then ((one &&& 0x1f).toNat <<< 6 ||| (two &&& 0x3f).toNat, rest)
    else
      let three := rest.headD 0
      let rest := rest.tail
      if one &&& 0x10 = 0 then
        ((one &&& 0x0f).toNat <<< 12 ||| (two &&& 0x3f).toNat <<< 6 ||| (three &&& 0x3f).toNat, rest)
      else
        let four := rest.headD 0
        let rest := rest.tail
        let codePoint := (one &&& 0x0f).toNat <<< 18 ||| (two &&& 0x3f).toNat <<< 12 |||
          (three &&& 0x3f).toNat <<< 6 ||| (four &&& 0x3f).toNat
        let leading := (codePoint >>> 10 + 0xd7c0) % 2 ^ 16
        let trailing := (codePoint % 2 ^ 10 + 0xdc00) % 2 ^ 16
        (leading ||| trailing <<< 16, rest)

def getLeadingUtf16Char (maybePair : Nat) : Nat := maybePair % 2 ^ 16

def getTrailingUtf16Char (maybePair : Nat) : Nat := maybePair / 2 ^ 16

theorem getUtf16FromUtf8_length (one : UInt8) (rest : CString) :
    (getUtf16FromUtf8 one rest).2.length ≤ rest.length := by
  unfold getUtf16FromUtf8
  dsimp only
  split
  · exact Nat.le_refl _
  split
  · simp only [List.length_tail]
    omega
  split <;> simp only [List.length_tail] <;> omega

def writeUnit (ch : Nat) : List UInt16 :=
  let leading := getLeadingUtf16Char ch
  let trailing := getTrailingUtf16Char ch
  if trailing ≠ 0 then [UInt16.ofNat leading, UInt16.ofNat trailing] else [UInt16.ofNat leading]

/-- `ConvertModifiedUtf8ToUtf16` of a string with a terminator. -/
def convertModifiedUtf8ToUtf16 : CString → List UInt16
  | [] => []
  | one :: rest =>
    if one = 0 then []
    else writeUnit (getUtf16FromUtf8 one rest).1 ++ convertModifiedUtf8ToUtf16 (getUtf16FromUtf8 one rest).2
termination_by utf8 => utf8.length
decreasing_by
  have := getUtf16FromUtf8_length one rest
  simp only [List.length_cons]
  omega

/-- The loop of `ConvertModifiedUtf8ToUtf16` over a number of bytes. -/
def convertBytes : CString → List UInt16
  | [] => []
  | one :: rest => writeUnit (getUtf16FromUtf8 one rest).1 ++ convertBytes (getUtf16FromUtf8 one rest).2
termination_by utf8 => utf8.length
decreasing_by
  have := getUtf16FromUtf8_length one rest
  simp only [List.length_cons]
  omega

/-- `ConvertModifiedUtf8ToUtf16` of a number of bytes into a number of code units; if the numbers agree the bytes are
    ASCII. -/
def convertModifiedUtf8ToUtf16OfLength (outChars : Nat) (utf8 : List UInt8) : List UInt16 :=
  if outChars = utf8.length then utf8.map UInt8.toUInt16 else convertBytes utf8

def countModifiedUtf8Chars : List UInt8 → Nat
  | [] => 0
  | ic :: rest =>
    if ic &&& 0x80 = 0 then countModifiedUtf8Chars rest + 1
    else if ic &&& 0x20 = 0 then countModifiedUtf8Chars (rest.drop 1) + 1
    else if ic &&& 0x10 = 0 then countModifiedUtf8Chars (rest.drop 2) + 1
    else countModifiedUtf8Chars (rest.drop 3) + 2
termination_by utf8 => utf8.length
decreasing_by all_goals simp only [List.length_cons, List.length_drop]; omega

def strlen (utf8 : CString) : Nat := (utf8.takeWhile (· ≠ 0)).length

/-- `CountModifiedUtf8Chars` of a string with a terminator. -/
def countModifiedUtf8CharsOfString (utf8 : CString) : Nat := countModifiedUtf8Chars (utf8.take (strlen utf8))

/-! ### Encoding -/

def isLead (ch : UInt16) : Bool := ch &&& 0xfc00 = 0xd800

def isTrail (ch : UInt16) : Bool := ch &&& 0xfc00 = 0xdc00

def isSurrogate (ch : UInt16) : Bool := ch &&& 0xf800 = 0xd800

def isSurrogateLead (ch : UInt16) : Bool := ch &&& 0x0400 = 0

def getSupplementary (lead trail : UInt16) : Nat :=
  lead.toNat <<< 10 + trail.toNat - (0xd800 <<< 10 + 0xdc00 - 0x10000)

def twoBytes (ch : Nat) : List UInt8 := [UInt8.ofNat (ch >>> 6 ||| 0xc0), UInt8.ofNat (ch &&& 0x3f ||| 0x80)]

def threeBytes (ch : Nat) : List UInt8 :=
  [UInt8.ofNat (ch >>> 12 ||| 0xe0), UInt8.ofNat (ch >>> 6 &&& 0x3f ||| 0x80), UInt8.ofNat (ch &&& 0x3f ||| 0x80)]

def fourBytes (codePoint : Nat) : List UInt8 :=
  [UInt8.ofNat (codePoint >>> 18 ||| 0xf0), UInt8.ofNat (codePoint >>> 12 &&& 0x3f ||| 0x80),
    UInt8.ofNat (codePoint >>> 6 &&& 0x3f ||| 0x80), UInt8.ofNat (codePoint &&& 0x3f ||| 0x80)]

def hasTrail (rest : List UInt16) : Bool := rest.head?.any isTrail

/-- What is appended for a code unit, and whether the one after it is consumed with it. -/
def convertUnit (useShortZero use4ByteSequence replaceBadSurrogates : Bool) (ch : UInt16) (rest : List UInt16) :
    List UInt8 × Bool :=
  if ch < 0x80 ∧ (useShortZero ∨ ch ≠ 0) then ([ch.toUInt8], false)
  else if ch < 0x800 then (twoBytes ch.toNat, false)
  else if (if replaceBadSurrogates then isSurrogate ch else use4ByteSequence && isLead ch && hasTrail rest) then
    if replaceBadSurrogates && (!isSurrogateLead ch || !hasTrail rest) then ([0x3f], false)
    else (fourBytes (getSupplementary ch (rest.headD 0)), true)
  else (threeBytes ch.toNat, false)

/-- The loop of `ConvertUtf16ToUtf8`, at a code unit that is consumed already or not. -/
def convertFrom (useShortZero use4ByteSequence replaceBadSurrogates : Bool) : Bool → List UInt16 → List UInt8
  | _, [] => []
  | true, _ :: rest => convertFrom useShortZero use4ByteSequence replaceBadSurrogates false rest
  | false, ch :: rest =>
    let unit := convertUnit useShortZero use4ByteSequence replaceBadSurrogates ch rest
    unit.1 ++ convertFrom useShortZero use4ByteSequence replaceBadSurrogates unit.2 rest

def convertUtf16ToUtf8 (useShortZero use4ByteSequence replaceBadSurrogates : Bool) (utf16 : List UInt16) : List UInt8 :=
  convertFrom useShortZero use4ByteSequence replaceBadSurrogates false utf16

def countModifiedUtf8BytesInUtf16 (chars : List UInt16) : Nat := (convertUtf16ToUtf8 false true false chars).length

/-- `ConvertUtf16ToModifiedUtf8`; if the numbers agree the code units are ASCII. -/
def convertUtf16ToModifiedUtf8 (byteCount : Nat) (utf16 : List UInt16) : List UInt8 :=
  if byteCount = utf16.length then utf16.map UInt16.toUInt8 else convertUtf16ToUtf8 false true false utf16

/-! ### Hashes -/

def updateUtf16Hash (hash : UInt32) (ch : Nat) : UInt32 := hash * 31 + UInt32.ofNat ch

def computeUtf16Hash (chars : List UInt16) : Int32 :=
  (chars.foldl (fun hash ch => updateUtf16Hash hash ch.toNat) 0).toInt32

/-- The loop of `ComputeUtf16HashFromModifiedUtf8`; a string with fewer code units is not passed. -/
def hashFromModifiedUtf8 (hash : UInt32) (utf8 : CString) : Nat → UInt32
  | 0 => hash
  | utf16Length + 1 =>
    let pair := getUtf16FromUtf8 (utf8.headD 0) utf8.tail
    let hash := updateUtf16Hash hash (getLeadingUtf16Char pair.1)
    let second := getTrailingUtf16Char pair.1
    if second ≠ 0 then
      match utf16Length with
      | utf16Length + 1 => hashFromModifiedUtf8 (updateUtf16Hash hash second) pair.2 utf16Length
      | 0 => updateUtf16Hash hash second
    else hashFromModifiedUtf8 hash pair.2 utf16Length

def computeUtf16HashFromModifiedUtf8 (utf8 : CString) (utf16Length : Nat) : Int32 :=
  (hashFromModifiedUtf8 0 utf8 utf16Length).toInt32

def updateModifiedUtf8Hash (hash : UInt32) (c : UInt8) : UInt32 := hash * 31 + c.toUInt32

def computeModifiedUtf8Hash (chars : CString) : UInt32 := (chars.takeWhile (· ≠ 0)).foldl updateModifiedUtf8Hash 0

/-! ### Comparison -/

/-- The loop of `CompareModifiedUtf8ToModifiedUtf8AsUtf16CodePointValues`; every turn consumes a byte of both. -/
def compareFrom : Nat → CString → CString → Int
  | 0, _, _ => 0
  | fuel + 1, utf8_1, utf8_2 =>
    let byte1 := utf8_1.headD 0
    let byte2 := utf8_2.headD 0
    if byte1 = 0 then if byte2 = 0 then 0 else -1
    else if byte2 = 0 then 1
    else
      let (c1, rest1) := getUtf16FromUtf8 byte1 utf8_1.tail
      let (c2, rest2) := getUtf16FromUtf8 byte2 utf8_2.tail
      if c1 = c2 then compareFrom fuel rest1 rest2
      else
        let leadingSurrogateDiff : Int := getLeadingUtf16Char c1 - getLeadingUtf16Char c2
        if leadingSurrogateDiff ≠ 0 then leadingSurrogateDiff
        else getTrailingUtf16Char c1 - getTrailingUtf16Char c2

def compareModifiedUtf8ToModifiedUtf8AsUtf16CodePointValues (utf8_1 utf8_2 : CString) : Int :=
  compareFrom (utf8_1.length + 1) utf8_1 utf8_2

def compareChars (lhs rhs : UInt16) (rest : Int) : Int := if lhs ≠ rhs then if lhs > rhs then 1 else -1 else rest

def compareModifiedUtf8ToUtf16AsCodePointValues (utf8 : CString) : List UInt16 → Int
  | [] => if utf8.headD 0 = 0 then 0 else 1
  | rhs :: utf16 =>
    if utf8.headD 0 = 0 then -1
    else
      let pair := getUtf16FromUtf8 (utf8.headD 0) utf8.tail
      let lhs2 := UInt16.ofNat (getTrailingUtf16Char pair.1)
      compareChars (UInt16.ofNat (getLeadingUtf16Char pair.1)) rhs <|
        if lhs2 ≠ 0 then
          match utf16 with
          | [] => 1
          | rhs2 :: utf16 => compareChars lhs2 rhs2 (compareModifiedUtf8ToUtf16AsCodePointValues pair.2 utf16)
        else compareModifiedUtf8ToUtf16AsCodePointValues pair.2 utf16

end Art.Dex
