import Mathlib.Data.List.Basic
import Mathlib.Algebra.Group.Nat.Defs

/-! `HashSet` (`libartbase/base/hash_set.h`): a hash table with linear probing whose elements are stored in
    the table itself, with a distinguished empty element. Ownership of the storage is left out. -/

namespace Art

/-- `num_buckets_` is the length of `data_`. -/
structure HashSet (T : Type) where
  data : List T
  numElements : Nat
  elementsUntilExpand : Nat
  deriving DecidableEq, Repr

namespace HashSet

/-- What a `HashSet` is instantiated with. Elements of type `T` are looked for by keys of type `K`. -/
structure Functions (T K : Type) where
  /-- `EmptyFn` -/
  isEmpty : T → Bool
  makeEmpty : T → T
  hashfn : K → Nat
  pred : T → K → Bool
  /-- An element used as a key. -/
  key : T → K
  /-- A default constructed element. -/
  construct : T
  /-- What is left of an element after `std::move`. -/
  movedFrom : T → T

/-- The load factors, as the arithmetic on doubles that they are used in: a number of elements divided by
    `min_load_factor_` or `max_load_factor_`, and a number of buckets times `max_load_factor_`. -/
structure LoadFactors where
  divMin : Nat → Nat
  divMax : Nat → Nat
  mulMax : Nat → Nat

/-- How a call can fail to return: the probing of `FindIndexImpl` does not end. -/
inductive Failure
  | diverged
  deriving DecidableEq, Repr

def kMinBuckets : Nat := 1000

variable {T K : Type} (fns : Functions T K) (lf : LoadFactors)

def new : HashSet T := ⟨[], 0, 0⟩

def ofBuffer (buffer : List T) : HashSet T := ⟨buffer.map fns.makeEmpty, 0, lf.mulMax buffer.length⟩

variable (s : HashSet T)

def size : Nat := s.numElements

def numBuckets : Nat := s.data.length

def elementForIndex (index : Nat) : T := s.data.getD index fns.construct

def indexForHash (hash : Nat) : Nat := if s.numBuckets = 0 then 0 else hash % s.numBuckets

def nextIndex (index : Nat) : Nat := if index + 1 ≥ s.numBuckets then 0 else index + 1

def isFreeSlot (index : Nat) : Bool := fns.isEmpty (s.elementForIndex fns index)

def setElement (index : Nat) (element : T) : HashSet T := { s with data := s.data.set index element }

def findLoop (canFind : Bool) (key : K) : Nat → Nat → Except Failure (Nat × Bool)
  | 0, _ => .error .diverged
  | fuel + 1, index =>
    let slot := s.elementForIndex fns index
    if fns.isEmpty slot then .ok (index, false)
    else if canFind && fns.pred slot key then .ok (index, true)
    else findLoop canFind key fuel (s.nextIndex index)

/-- `FindIndexImpl`: the slot of an element, or else an empty slot. After as many steps as there are
    buckets the loop goes on for ever. -/
def findIndexImpl (canFind : Bool) (key : K) (hash : Nat) : Except Failure (Nat × Bool) :=
  s.findLoop fns canFind key s.numBuckets (s.indexForHash hash)

/-- `FindIndex`, where `NumBuckets()` means that there is no such element. -/
def findIndex (key : K) (hash : Nat) : Except Failure Nat :=
  if s.numBuckets = 0 then .ok 0
  else do
    let (index, found) ← s.findIndexImpl fns true key hash
    return if found then index else s.numBuckets

def find (key : K) : Except Failure Nat := s.findIndex fns key (fns.hashfn key)

/-! ### Growth -/

def firstAvailableLoop : Nat → Nat → Except Failure Nat
  | 0, _ => .error .diverged
  | fuel + 1, index =>
    if s.isFreeSlot fns index then .ok index else firstAvailableLoop fuel (s.nextIndex index)

def firstAvailableSlot (index : Nat) : Except Failure Nat := s.firstAvailableLoop fns s.numBuckets index

def resizeBuckets (newSize : Nat) : Nat := if newSize < kMinBuckets then kMinBuckets else newSize

def reinsert (element : T) : Except Failure (HashSet T) :=
  if fns.isEmpty element then .ok s
  else do
    let index ← s.firstAvailableSlot fns (s.indexForHash (fns.hashfn (fns.key element)))
    return s.setElement index element

def allocateStorage (numBuckets : Nat) : HashSet T :=
  { s with data := List.replicate numBuckets (fns.makeEmpty fns.construct) }

def resize (newSize : Nat) : Except Failure (HashSet T) := do
  let moved ← s.data.foldlM (fun moved element => reinsert fns moved element)
    (s.allocateStorage fns (resizeBuckets newSize))
  return { moved with elementsUntilExpand := lf.mulMax moved.numBuckets }

def expand : Except Failure (HashSet T) := s.resize fns lf (lf.divMin s.size)

def growForInsert : Except Failure (HashSet T) :=
  if s.numElements ≥ s.elementsUntilExpand then s.expand fns lf else .ok s

def shrinkToMaximumLoad : Except Failure (HashSet T) := s.resize fns lf (lf.divMax s.size)

def reserveLoop (numElements : Nat) : Nat → Nat → Except Failure Nat
  | 0, _ => .error .diverged
  | fuel + 1, numBuckets =>
    if lf.mulMax numBuckets ≤ numElements + 1 then reserveLoop numElements fuel (numBuckets + 1) else .ok numBuckets

/-- The number of buckets that `reserve` asks for; there are at most `2 ^ 64` to try. -/
def reserveBuckets (numElements : Nat) : Except Failure Nat :=
  reserveLoop lf numElements (2 ^ 64) (lf.divMax numElements)

def reserve (numElements : Nat) : Except Failure (HashSet T) := do
  let numBuckets ← reserveBuckets lf numElements
  if numBuckets > s.numBuckets then s.resize fns lf numBuckets else return s

/-! ### Insertion and removal -/

/-- `InsertWithHash`, with the index of the element and whether it was added. -/
def insertWithHash (element : T) (hash : Nat) : Except Failure (HashSet T × Nat × Bool) := do
  let s ← s.growForInsert fns lf
  let (index, found) ← s.findIndexImpl fns true (fns.key element) hash
  if found then return (s, index, false)
  else return ({ s.setElement index element with numElements := s.numElements + 1 }, index, true)

def insert (element : T) : Except Failure (HashSet T × Nat × Bool) :=
  s.insertWithHash fns lf element (fns.hashfn (fns.key element))

def putWithHash (element : T) (hash : Nat) : Except Failure (HashSet T) := do
  let s ← s.growForInsert fns lf
  let (index, _) ← s.findIndexImpl fns false (fns.key element) hash
  return { s.setElement index element with numElements := s.numElements + 1 }

def put (element : T) : Except Failure (HashSet T) := s.putWithHash fns lf element (fns.hashfn (fns.key element))

/-- An index that is unwrapped to lie behind `emptyIndex`. -/
def unwrapped (index emptyIndex : Nat) : Nat := if index < emptyIndex then index + s.numBuckets else index

/-- The loop of `erase`, from `nextIndex` on: elements that were probed from before the empty index move
    there. It returns the set and whether the first empty index was filled. -/
def eraseLoop : Nat → HashSet T → Nat → Nat → Bool → Except Failure (HashSet T × Bool)
  | 0, _, _, _, _ => .error .diverged
  | fuel + 1, s, emptyIndex, lastIndex, filled =>
    let nextIndex := s.nextIndex lastIndex
    let nextElement := s.elementForIndex fns nextIndex
    if fns.isEmpty nextElement then
      .ok (s.setElement emptyIndex (fns.makeEmpty (s.elementForIndex fns emptyIndex)), filled)
    else
      let nextIdealIndex := s.indexForHash (fns.hashfn (fns.key nextElement))
      let unwrappedNextIndex := s.unwrapped nextIndex emptyIndex
      let unwrappedNextIdealIndex := s.unwrapped nextIdealIndex emptyIndex
      if unwrappedNextIdealIndex ≤ emptyIndex || unwrappedNextIdealIndex > unwrappedNextIndex then
        eraseLoop fuel ((s.setElement emptyIndex nextElement).setElement nextIndex (fns.movedFrom nextElement))
          nextIndex nextIndex true
      else eraseLoop fuel s emptyIndex nextIndex filled

def nextNonEmptyLoop : Nat → Nat → Nat
  | 0, index => index
  | fuel + 1, index =>
    if index < s.numBuckets && s.isFreeSlot fns index then nextNonEmptyLoop fuel (index + 1) else index

def nextNonEmptySlot (index : Nat) : Nat := s.nextNonEmptyLoop fns s.numBuckets (index + 1)

/-- `erase` of the element at an index, with the index of the returned iterator. -/
def erase (index : Nat) : Except Failure (HashSet T × Nat) := do
  let (s, filled) ← eraseLoop fns s.numBuckets s index index false
  let s := { s with numElements := s.numElements - 1 }
  return (s, if filled then index else s.nextNonEmptySlot fns index)

end HashSet

end Art
