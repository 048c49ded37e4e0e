import Mathlib.Data.Nat.Log
import Mathlib.Logic.Function.Basic
import Mathlib.Algebra.Group.Nat.Defs

/-! # Local reference table

`runtime/jni/local_reference_table.{h,cc}` as a debug build runs it: a failing `DCHECK` and an entry index that
is out of bounds end the operation with a `Failure`. -/

namespace Art.Lrt

/-- A check that fails, or a loop that does not end. -/
inductive Failure
  | dcheck
  | notAligned (index : Nat)
  | outOfBounds (index : Nat)
  | diverged
  deriving DecidableEq

def dcheck (condition : Bool) : Except Failure Unit := if condition then .ok () else .error .dcheck

/-! ### Entries -/

def kObjectAlignment : Nat := 8

/-- A non-null reference to an object. -/
structure Object where
  address : Nat
  ne_null : address ≠ 0
  aligned : address % kObjectAlignment = 0
  deriving DecidableEq

/-- The raw value of an `LrtEntry`. -/
abbrev LrtEntry := Nat

namespace LrtEntry

def kFlagFree : Nat := 0
def kFlagSerialNumber : Nat := kFlagFree + 1
def kFieldNextFree : Nat := kFlagSerialNumber + 1
def kFieldNextFreeBits : Nat := 32 - kFieldNextFree
def freeListEnd : Nat := 2 ^ kFieldNextFreeBits - 1

def isNull (e : LrtEntry) : Bool := e = 0
def isFree (e : LrtEntry) : Bool := e / 2 ^ kFlagFree % 2 = 1
def isSerialNumber (e : LrtEntry) : Bool := e / 2 ^ kFlagSerialNumber % 2 = 1

def getSerialNumberUnchecked (e : LrtEntry) : Nat := e / 2 ^ kFieldNextFree

def getSerialNumber (e : LrtEntry) : Except Failure Nat := do
  dcheck e.isSerialNumber
  dcheck !e.isFree
  return e.getSerialNumberUnchecked

def getNextFree (e : LrtEntry) : Except Failure Nat := do
  dcheck e.isFree
  dcheck !e.isSerialNumber
  return e / 2 ^ kFieldNextFree

/-- The entry that `SetReference` writes. -/
def reference (obj : Object) : LrtEntry := obj.address

/-- The entry that `SetNextFree` writes. -/
def free (nextFree : Nat) : LrtEntry := nextFree * 2 ^ kFieldNextFree + 2 ^ kFlagFree

/-- The entry that `SetSerialNumber` writes. -/
def serial (serialNumber : Nat) : LrtEntry := serialNumber * 2 ^ kFieldNextFree + 2 ^ kFlagSerialNumber

def getReference (e : LrtEntry) : Except Failure LrtEntry := do
  dcheck !e.isFree
  dcheck !e.isSerialNumber
  dcheck !e.isNull
  return e

end LrtEntry

def kFreeListEnd : Nat := LrtEntry.freeListEnd
def kSmallLrtEntries : Nat := 512 / 4
def kCheckJniEntriesPerReference : Nat := 4
def kMaxTableSizeInBytes : Nat := 128 * 2 ^ 20
def kMaxTableSize : Nat := kMaxTableSizeInBytes / 4
def kDeadLocalValue : Object := ⟨0xdead10c0, by decide, by decide⟩

def dcheckAligned (index : Nat) : Except Failure Unit :=
  if index % kCheckJniEntriesPerReference = 0 then .ok () else .error (.notAligned index)

def subSize (a b : Nat) : Nat := (a + 2 ^ 64 - b) % 2 ^ 64
def subUint32 (a b : Nat) : Nat := (a + 2 ^ 32 - b) % 2 ^ 32

def uint32Max : Nat := 2 ^ 32 - 1

def truncToPowerOfTwo (val : Nat) : Nat := if val ≠ 0 then 2 ^ Nat.log 2 val else 0
def roundUpToPowerOfTwo (x : Nat) : Nat := if x < 2 then x else 2 ^ (Nat.log 2 (x - 1) + 1)

def isPowerOfTwo (x : Nat) : Bool := x &&& (x - 1) = 0

def getTableSize (tableIndex : Nat) : Nat := kSmallLrtEntries * 2 ^ (if tableIndex ≠ 0 then tableIndex - 1 else 0)
def numTablesForSize (size : Nat) : Nat := 1 + Nat.log 2 (size / kSmallLrtEntries)

/-- A pointer to an entry: the table in order of allocation, and the place in it. Tables start at addresses that
    are aligned to a CheckJNI chunk. -/
structure EntryPtr where
  table : Nat
  offset : Nat
  deriving DecidableEq

namespace EntryPtr

def add (entry : EntryPtr) (n : Nat) : EntryPtr := ⟨entry.table, entry.offset + n⟩

def getCheckJniSerialNumberEntry (entry : EntryPtr) : EntryPtr :=
  ⟨entry.table, entry.offset / kCheckJniEntriesPerReference * kCheckJniEntriesPerReference⟩

end EntryPtr

/-- A local reference is a tagged pointer to its entry. -/
abbrev IndirectRef := EntryPtr

/-! ### The table -/

/-- `free_entries_list_` packs `firstFreeIndex` and `checkJni`. `smallTable` is whether `small_table_` is set,
    and `tables` the length of `tables_`. -/
structure LocalReferenceTable where
  topIndex : Nat
  maxEntries : Nat
  firstFreeIndex : Nat
  checkJni : Bool
  smallTable : Bool
  tables : Nat
  entries : EntryPtr → LrtEntry

namespace LocalReferenceTable

variable (t : LocalReferenceTable)

def create (checkJni : Bool) : LocalReferenceTable where
  topIndex := 0
  maxEntries := 0
  firstFreeIndex := kFreeListEnd
  checkJni := checkJni
  smallTable := false
  tables := 0
  entries := fun _ => 0

def setCheckJniEnabled (enabled : Bool) : LocalReferenceTable := { t with checkJni := enabled }

def write (entry : EntryPtr) (value : LrtEntry) : LocalReferenceTable :=
  { t with entries := Function.update t.entries entry value }

def getEntry (entryIndex : Nat) : Except Failure EntryPtr :=
  if entryIndex < t.maxEntries then
    if t.smallTable then do
      dcheck (entryIndex < kSmallLrtEntries)
      dcheck (t.maxEntries = kSmallLrtEntries)
      return ⟨0, entryIndex⟩
    else do
      let tableStartIndex := if entryIndex < kSmallLrtEntries then 0 else truncToPowerOfTwo entryIndex
      let tableIndex := if entryIndex < kSmallLrtEntries then 0 else numTablesForSize tableStartIndex
      dcheck (tableIndex < t.tables)
      return ⟨tableIndex, entryIndex - tableStartIndex⟩
  else .error (.outOfBounds entryIndex)

def getReferenceEntryIndex (entry : IndirectRef) : Nat :=
  if t.smallTable then
    if entry.table = 0 ∧ entry.offset < kSmallLrtEntries then entry.offset else uint32Max
  else
    match (List.range t.tables).find? fun i => entry.table = i ∧ entry.offset < getTableSize i with
    | some i => (if i ≠ 0 then getTableSize i else 0) + entry.offset
    | none => uint32Max

/-- The memory of a new table is cleared. -/
def addTable (newTableSize : Nat) : LocalReferenceTable :=
  let table := if t.smallTable then 1 else t.tables
  { t with
    maxEntries := 2 * newTableSize
    smallTable := false
    tables := table + 1
    entries := fun entry => if entry.table = table then 0 else t.entries entry }

/-- The loop of `Resize` with `count` tables to go. Whether a table can be allocated depends on `allocates`. -/
def addTables (allocates : Nat → Bool) : Nat → LocalReferenceTable → Except Failure (LocalReferenceTable × Bool)
  | 0, t => return (t, true)
  | count + 1, t => do
    let numTables := if t.smallTable then 1 else t.tables
    if allocates numTables then
      dcheck ((numTables = 1) = t.smallTable)
      dcheck (t.maxEntries = getTableSize numTables)
      addTables allocates count (t.addTable (getTableSize numTables))
    else return (t, false)

def resize (newSize : Nat) (allocates : Nat → Bool) : Except Failure (LocalReferenceTable × Bool) := do
  dcheck (t.maxEntries ≥ kSmallLrtEntries)
  dcheck (isPowerOfTwo t.maxEntries)
  dcheck (newSize > t.maxEntries)
  dcheck (newSize ≤ kMaxTableSize)
  let numRequiredTables := numTablesForSize (roundUpToPowerOfTwo newSize)
  dcheck (numRequiredTables ≥ 2)
  let numTables := if t.smallTable then 1 else t.tables
  dcheck (numTables = numTablesForSize t.maxEntries)
  addTables allocates (numRequiredTables - numTables) t

/-- `Initialize`, which aborts when `maxCount` is above the maximum. -/
def initializeTable (maxCount : Nat) (allocates : Nat → Bool) : Except Failure (LocalReferenceTable × Bool) := do
  dcheck (maxCount ≤ kMaxTableSize)
  dcheck (!t.checkJni || maxCount ≤ kMaxTableSize / kCheckJniEntriesPerReference)
  let maxCount := if t.checkJni then maxCount * kCheckJniEntriesPerReference else maxCount
  if allocates 0 then
    let t := { t with smallTable := true, maxEntries := kSmallLrtEntries }
    if maxCount ≤ kSmallLrtEntries then return (t, true) else t.resize maxCount allocates
  else return (t, false)

/-- The loop of `PrunePoppedFreeEntries`. The free list is no longer than the table. -/
def popFreeEntries (getEntry : Nat → Except Failure EntryPtr) : Nat → Nat → Except Failure Nat
  | 0, _ => .error .diverged
  | steps + 1, freeEntryIndex => do
    let next ← (t.entries (← getEntry freeEntryIndex)).getNextFree
    if next ≠ kFreeListEnd ∧ next ≥ t.topIndex then popFreeEntries getEntry steps next else return next

def prunePoppedFreeEntries (getEntry : Nat → Except Failure EntryPtr) : Except Failure LocalReferenceTable := do
  dcheck (t.firstFreeIndex ≠ kFreeListEnd)
  dcheck (t.firstFreeIndex ≥ t.topIndex)
  return { t with firstFreeIndex := ← t.popFreeEntries getEntry t.maxEntries t.firstFreeIndex }

def pruneIfPopped : Except Failure LocalReferenceTable :=
  if t.firstFreeIndex ≠ kFreeListEnd ∧ t.firstFreeIndex ≥ t.topIndex then t.prunePoppedFreeEntries t.getEntry
  else return t

/-! ### Adding -/

/-- The table with the next serial number, and that number. -/
def incrementSerialNumber (serialNumberEntry : EntryPtr) : Except Failure (LocalReferenceTable × Nat) := do
  dcheck (serialNumberEntry = serialNumberEntry.getCheckJniSerialNumberEntry)
  let old := (t.entries serialNumberEntry).getSerialNumberUnchecked % kCheckJniEntriesPerReference
  let new := if old + 1 ≠ kCheckJniEntriesPerReference then old + 1 else 1
  return (t.write serialNumberEntry (.serial new), new)

def storeObj (obj : Object) (freeEntry : EntryPtr) : LocalReferenceTable × IndirectRef :=
  (t.write freeEntry (.reference obj), freeEntry)

/-- `get_entry` of the fast path. -/
def getSmallEntry (index : Nat) : Except Failure EntryPtr :=
  if index < kSmallLrtEntries then .ok ⟨0, index⟩ else .error (.outOfBounds index)

def addSmallTop (obj : Object) : Except Failure (LocalReferenceTable × Option IndirectRef) := do
  if t.topIndex ≠ kSmallLrtEntries then
    let freeEntry ← getSmallEntry t.topIndex
    let (t, ref) := { t with topIndex := t.topIndex + 1 }.storeObj obj freeEntry
    return (t, some ref)
  else return (t, none)

/-- The fast path of `Add`, for the small table with CheckJNI disabled. No reference means that the slow path has
    to add it. -/
def addFast (previousTop : Nat) (obj : Object) : Except Failure (LocalReferenceTable × Option IndirectRef) := do
  dcheck (t.maxEntries = kSmallLrtEntries)
  dcheck (t.topIndex ≤ kSmallLrtEntries)
  if t.firstFreeIndex = kFreeListEnd ∧ !t.checkJni then t.addSmallTop obj
  else if !t.checkJni then
    dcheck (t.firstFreeIndex ≠ kFreeListEnd)
    let t ← (if t.firstFreeIndex ≥ t.topIndex then t.prunePoppedFreeEntries getSmallEntry else pure t)
    if t.firstFreeIndex ≠ kFreeListEnd ∧ t.firstFreeIndex ≥ previousTop then
      dcheck (t.firstFreeIndex < t.topIndex)
      let freeEntry ← getSmallEntry t.firstFreeIndex
      if !(t.entries freeEntry.getCheckJniSerialNumberEntry).isSerialNumber then
        let next ← (t.entries freeEntry).getNextFree
        let (t, ref) := { t with firstFreeIndex := next, checkJni := false }.storeObj obj freeEntry
        return (t, some ref)
      else t.addSmallTop obj
    else t.addSmallTop obj
  else return (t, none)

/-- Reuse the first free entry if it is in the current segment and was created with the same CheckJNI setting. -/
def reuseFreeEntry (previousTop : Nat) (obj : Object) :
    Except Failure (LocalReferenceTable × Option IndirectRef) := do
  if t.firstFreeIndex ≠ kFreeListEnd ∧ t.firstFreeIndex ≥ previousTop then
    dcheck (t.firstFreeIndex < t.topIndex)
    let freeEntry ← t.getEntry t.firstFreeIndex
    let serialNumberEntry := freeEntry.getCheckJniSerialNumberEntry
    if (t.entries serialNumberEntry).isSerialNumber = t.checkJni then
      let next ← (t.entries freeEntry).getNextFree
      let chunkIndex := t.firstFreeIndex / kCheckJniEntriesPerReference * kCheckJniEntriesPerReference
      let t := { t with firstFreeIndex := next }
      if t.checkJni then
        dcheck (freeEntry ≠ serialNumberEntry)
        let (t, serialNumber) ← t.incrementSerialNumber serialNumberEntry
        let freeEntry := serialNumberEntry.add serialNumber
        dcheck (freeEntry = (← t.getEntry (chunkIndex + serialNumber)))
        let (t, ref) := t.storeObj obj freeEntry
        return (t, some ref)
      else
        let (t, ref) := t.storeObj obj freeEntry
        return (t, some ref)
    else return (t, none)
  else return (t, none)

/-- Add non-CheckJNI holes up to the next serial number entry. At most three are needed. -/
def addHoles : Nat → LocalReferenceTable → Except Failure LocalReferenceTable
  | 0, _ => .error .diverged
  | steps + 1, t =>
    if t.topIndex % kCheckJniEntriesPerReference ≠ 0 then do
      let entry ← t.getEntry t.topIndex
      addHoles steps
        ({ t with firstFreeIndex := t.topIndex, topIndex := t.topIndex + 1 }.write entry (.free t.firstFreeIndex))
    else return t

def growIfFull (allocates : Nat → Bool) : Except Failure (LocalReferenceTable × Bool) := do
  if t.topIndex = t.maxEntries then
    dcheck (isPowerOfTwo t.maxEntries)
    if kMaxTableSizeInBytes = t.maxEntries * 4 then return (t, false)
    else t.resize (t.maxEntries * 2) allocates
  else return (t, true)

def useNextEntry (previousTop : Nat) (obj : Object) : Except Failure (LocalReferenceTable × IndirectRef) := do
  if t.checkJni then
    dcheckAligned t.topIndex
    dcheckAligned previousTop
    dcheckAligned t.maxEntries
    let topIndex := t.topIndex
    let serialNumberEntry ← t.getEntry topIndex
    let (t, serialNumber) ← t.incrementSerialNumber serialNumberEntry
    let freeEntry := serialNumberEntry.add serialNumber
    dcheck (freeEntry = (← t.getEntry (topIndex + serialNumber)))
    return { t with topIndex := topIndex + kCheckJniEntriesPerReference }.storeObj obj freeEntry
  else
    let freeEntry ← t.getEntry t.topIndex
    return { t with topIndex := t.topIndex + 1 }.storeObj obj freeEntry

/-- Process the free list: prune, reuse a free entry or pad for CheckJNI. Then use the next entry. -/
def addSlow (previousTop : Nat) (obj : Object) (allocates : Nat → Bool) :
    Except Failure (LocalReferenceTable × Option IndirectRef) := do
  let t ← t.pruneIfPopped
  match ← t.reuseFreeEntry previousTop obj with
  | (t, some ref) => return (t, some ref)
  | (t, none) =>
    let t ← (if t.checkJni then addHoles kCheckJniEntriesPerReference t else pure t)
    match ← t.growIfFull allocates with
    | (t, false) => return (t, none)
    | (t, true) =>
      let (t, ref) ← t.useNextEntry previousTop obj
      return (t, some ref)

/-- `Add`. No reference means an error, when the table cannot grow. -/
def add (previousTop : Nat) (obj : Object) (allocates : Nat → Bool) :
    Except Failure (LocalReferenceTable × Option IndirectRef) := do
  dcheck (previousTop ≤ t.topIndex)
  dcheck (if t.maxEntries = kSmallLrtEntries then t.smallTable else t.tables ≠ 0)
  match ← (if t.smallTable then t.addFast previousTop obj else pure (t, none)) with
  | (t, some ref) => return (t, some ref)
  | (t, none) =>
    dcheck (t.checkJni || !t.smallTable || t.topIndex = kSmallLrtEntries)
    t.addSlow previousTop obj allocates

/-! ### Reading and removing -/

/-- Whether a reference that was created with CheckJNI enabled is the one that the serial number selects. -/
def hasGoodSerialNumber (iref : IndirectRef) : Except Failure Bool := do
  let serialNumberEntry := iref.getCheckJniSerialNumberEntry
  if (t.entries serialNumberEntry).isSerialNumber then
    let expectedSerialNumber ← (t.entries serialNumberEntry).getSerialNumber
    let serialNumber := iref.offset - serialNumberEntry.offset
    dcheck (serialNumber < kCheckJniEntriesPerReference)
    return serialNumber = expectedSerialNumber && serialNumber ≠ 0
  else return true

def isValidReference (iref : IndirectRef) : Except Failure Bool := do
  let entryIndex := t.getReferenceEntryIndex iref
  if entryIndex = uint32Max then return false
  else if entryIndex ≥ t.topIndex then return false
  else
    let goodSerialNumber ← t.hasGoodSerialNumber iref
    return goodSerialNumber && !(t.entries iref).isFree && !(t.entries iref).isNull

def dcheckValidReference (iref : IndirectRef) : Except Failure Unit := do
  if !t.checkJni then dcheck (← t.isValidReference iref)

def get (iref : IndirectRef) : Except Failure Nat := do
  t.dcheckValidReference iref
  (t.entries iref).getReference

/-- Whether the chunk below `index` has a hole that was created with CheckJNI enabled. -/
def isPrevChunkFree (index : Nat) : Except Failure Bool := do
  dcheckAligned index
  let serialNumberEntry ← t.getEntry (subSize index kCheckJniEntriesPerReference)
  dcheck (serialNumberEntry.offset % kCheckJniEntriesPerReference = 0)
  if !(t.entries serialNumberEntry).isSerialNumber then return false
  else
    let serialNumber ← (t.entries serialNumberEntry).getSerialNumber
    dcheck (serialNumber ≠ 0 && serialNumber < kCheckJniEntriesPerReference)
    let entry := serialNumberEntry.add serialNumber
    dcheck (entry = (← t.getEntry (subSize index kCheckJniEntriesPerReference + serialNumber)))
    return (t.entries entry).isFree

/-- Whether the entry below `index` is a hole that was created with CheckJNI disabled. -/
def isPrevEntryFree (index : Nat) : Except Failure Bool := do
  let entry ← t.getEntry (subSize index 1)
  return (t.entries entry).isFree && !(t.entries entry.getCheckJniSerialNumberEntry).isSerialNumber

def findPruneStart (isPrevFree : Nat → Except Failure Bool) (chunkSize bottomIndex : Nat) :
    Nat → Nat → Except Failure Nat
  | 0, _ => .error .diverged
  | steps + 1, pruneStart =>
    if pruneStart > bottomIndex then do
      if ← isPrevFree pruneStart then
        findPruneStart isPrevFree chunkSize bottomIndex steps (subUint32 pruneStart chunkSize)
      else return pruneStart
    else return pruneStart

/-- Remove pruned entries from the front of the free list: the table, the number of entries that remain to be
    pruned, and the first free index. -/
def popPrunedEntries (pruneStart : Nat) :
    Nat → Nat → LocalReferenceTable → Except Failure (LocalReferenceTable × Nat × Nat)
  | 0, freeIndex, t => return (t, 0, freeIndex)
  | remaining + 1, freeIndex, t =>
    if freeIndex ≥ pruneStart then do
      dcheck (freeIndex ≠ kFreeListEnd)
      let prunedEntry ← t.getEntry freeIndex
      let next ← (t.entries prunedEntry).getNextFree
      popPrunedEntries pruneStart remaining next (t.write prunedEntry (.reference kDeadLocalValue))
    else return (t, remaining + 1, freeIndex)

/-- The last free index before the next pruned entry. -/
def skipKeptEntries (pruneStart bottomIndex : Nat) : Nat → Nat → Except Failure Nat
  | 0, _ => .error .diverged
  | steps + 1, freeIndex => do
    let next ← (t.entries (← t.getEntry freeIndex)).getNextFree
    if next < pruneStart then
      dcheck (next ≥ bottomIndex)
      skipKeptEntries pruneStart bottomIndex steps next
    else return freeIndex

/-- Remove pruned entries from the middle of the free list. -/
def unlinkPrunedEntries (pruneStart bottomIndex : Nat) :
    Nat → Nat → LocalReferenceTable → Except Failure (LocalReferenceTable × Nat)
  | 0, freeIndex, t => return (t, freeIndex)
  | remaining + 1, freeIndex, t => do
    dcheck (freeIndex ≠ kFreeListEnd)
    dcheck (freeIndex < pruneStart)
    dcheck (freeIndex ≥ bottomIndex)
    let freeIndex ← t.skipKeptEntries pruneStart bottomIndex t.maxEntries freeIndex
    let freeEntry ← t.getEntry freeIndex
    let prunedEntry ← t.getEntry (← (t.entries freeEntry).getNextFree)
    let next ← (t.entries prunedEntry).getNextFree
    unlinkPrunedEntries pruneStart bottomIndex remaining freeIndex
      ((t.write freeEntry (.free next)).write prunedEntry (.reference kDeadLocalValue))

def pruneFreeList (pruneStart bottomIndex pruneCount : Nat) : Except Failure LocalReferenceTable := do
  let (t, remaining, freeIndex) ← popPrunedEntries pruneStart pruneCount t.firstFreeIndex t
  let t := { t with firstFreeIndex := freeIndex }
  let (t, freeIndex) ← unlinkPrunedEntries pruneStart bottomIndex remaining freeIndex t
  dcheck (freeIndex = kFreeListEnd || freeIndex < pruneStart)
  return t

/-- Remove the top-most entry and consume holes under it that were created with the current CheckJNI setting. -/
def removeTop (bottomIndex : Nat) (entry : EntryPtr) (pruneEnd : Nat) : Except Failure LocalReferenceTable := do
  let t := t.write entry (.reference kDeadLocalValue)
  let chunkSize := if t.checkJni then kCheckJniEntriesPerReference else 1
  let isPrevFree := if t.checkJni then t.isPrevChunkFree else t.isPrevEntryFree
  let pruneStart ← findPruneStart isPrevFree chunkSize bottomIndex (pruneEnd + 1) pruneEnd
  let pruneCount := (pruneEnd - pruneStart) / chunkSize
  let t ← (if pruneCount ≠ 0 then t.pruneFreeList pruneStart bottomIndex pruneCount else pure t)
  return { t with topIndex := pruneStart }

/-- The first index of the entry, and whether it is the top entry, created with any CheckJNI setting. -/
def topEntry (entry : EntryPtr) (entryIndex : Nat) : Except Failure (Nat × Bool) := do
  let serialNumberEntry := entry.getCheckJniSerialNumberEntry
  if (t.entries serialNumberEntry).isSerialNumber then
    let serialNumber := entry.offset - serialNumberEntry.offset
    dcheck (serialNumber = (← (t.entries serialNumberEntry).getSerialNumber))
    let pruneEnd := subUint32 entryIndex serialNumber
    return (pruneEnd, pruneEnd = subSize t.topIndex kCheckJniEntriesPerReference)
  else return (entryIndex, entryIndex = subUint32 t.topIndex 1)

def remove (previousTop : Nat) (iref : IndirectRef) : Except Failure (LocalReferenceTable × Bool) := do
  dcheck (previousTop ≤ t.topIndex)
  dcheck (if t.maxEntries = kSmallLrtEntries then t.smallTable else t.tables ≠ 0)
  t.dcheckValidReference iref
  let entryIndex := t.getReferenceEntryIndex iref
  if entryIndex < previousTop then return (t, false)  -- Wrong segment.
  else if ← (if t.checkJni then not <$> t.isValidReference iref else pure false) then return (t, false)
  else
    dcheck (entryIndex < t.topIndex)
    if (t.entries iref).isFree then return (t, false)
    else
      let t ← t.pruneIfPopped
      let (pruneEnd, isTopEntry) ← t.topEntry iref entryIndex
      if isTopEntry then return (← t.removeTop previousTop iref pruneEnd, true)
      else return ({ t with firstFreeIndex := entryIndex }.write iref (.free t.firstFreeIndex), true)

/-! ### Roots -/

/-- The entry of `visit_table` at `i`, and the next `i`. -/
def entryToVisit (table count i : Nat) : Except Failure (EntryPtr × Nat) := do
  if i % kCheckJniEntriesPerReference = 0 ∧ (t.entries ⟨table, i⟩).isSerialNumber then
    let serialNumber ← (t.entries ⟨table, i⟩).getSerialNumber
    dcheck (i + kCheckJniEntriesPerReference ≤ count)
    return (⟨table, i + serialNumber⟩, i + kCheckJniEntriesPerReference)
  else return (⟨table, i⟩, i + 1)

/-- `visit_table` from entry `i` on: the entries that are visited. -/
def visitTable (table count : Nat) : Nat → Nat → Except Failure (List EntryPtr)
  | 0, _ => .error .diverged
  | steps + 1, i => do
    if i ≠ count then
      let (entry, i) ← t.entryToVisit table count i
      dcheck !(t.entries entry).isSerialNumber
      dcheck ((t.entries entry).isFree || !(t.entries entry).isNull)
      let rest ← visitTable table count steps i
      return if !(t.entries entry).isFree then entry :: rest else rest
    else return []

def visitTables : Nat → Nat → Nat → Except Failure (List EntryPtr)
  | 0, _, _ => .error .diverged
  | steps + 1, tableIndex, remaining => do
    if remaining ≠ 0 then
      let count := min remaining (getTableSize tableIndex)
      dcheck (tableIndex < t.tables)
      let roots ← t.visitTable tableIndex count (count + 1) 0
      return roots ++ (← visitTables steps (tableIndex + 1) (remaining - count))
    else return []

def visitRoots : Except Failure (List EntryPtr) :=
  if t.smallTable then t.visitTable 0 t.topIndex (t.topIndex + 1) 0
  else t.visitTables (t.topIndex + 1) 0 t.topIndex

def setSegmentState (newState : Nat) : LocalReferenceTable := { t with topIndex := newState }

end LocalReferenceTable

/-! ### Segments -/

/-- A segment: the `cookie` that was saved when it was pushed, which is its lower end, and the references that
    were added to it and neither removed nor popped since. -/
structure Frame where
  cookie : Nat
  refs : List (IndirectRef × Object)

/-- A table in use, with the current segment and the segments below it. -/
structure Env where
  locals : LocalReferenceTable
  frame : Frame
  outer : List Frame

/-- The calls on the table of a thread. -/
inductive Op
  | add (obj : Object) (allocates : Nat → Bool)
  | remove (iref : IndirectRef)
  | push
  | pop
  | setCheckJniEnabled (enabled : Bool)

namespace Env

def live (s : Env) : List (IndirectRef × Object) := s.frame.refs ++ s.outer.flatMap Frame.refs

def step (s : Env) : Op → Except Failure Env
  | .add obj allocates => do
    match ← s.locals.add s.frame.cookie obj allocates with
    | (t, some ref) => return { s with locals := t, frame := { s.frame with refs := (ref, obj) :: s.frame.refs } }
    | (t, none) => return { s with locals := t }
  | .remove iref => do
    match ← s.locals.remove s.frame.cookie iref with
    | (t, true) =>
      return { s with locals := t, frame := { s.frame with refs := s.frame.refs.filter (·.1 ≠ iref) } }
    | (t, false) => return { s with locals := t }
  | .push => return { s with frame := ⟨s.locals.topIndex, []⟩, outer := s.frame :: s.outer }
  | .pop =>
    match s.outer with
    | [] => return s
    | frame :: outer => return ⟨s.locals.setSegmentState s.frame.cookie, frame, outer⟩
  | .setCheckJniEnabled enabled => return { s with locals := s.locals.setCheckJniEnabled enabled }

/-- Only live references are removed, and the first segment stays. -/
def Legal (s : Env) : Op → Prop
  | .remove iref => ∃ obj, (iref, obj) ∈ s.live
  | .pop => s.outer ≠ []
  | _ => True

end Env

/-- The states that an initialized table can get to by operations that `allows` admits. -/
inductive Reachable (allows : Env → Op → Prop) : Env → Prop
  | init (checkJni : Bool) (maxCount : Nat) (allocates : Nat → Bool) {t : LocalReferenceTable}
      (h : (LocalReferenceTable.create checkJni).initializeTable maxCount allocates = .ok (t, true)) :
      Reachable allows ⟨t, ⟨0, []⟩, []⟩
  | step {s s' : Env} (h : Reachable allows s) (op : Op) (legal : s.Legal op) (allowed : allows s op)
      (run : s.step op = .ok s') : Reachable allows s'

end Art.Lrt
