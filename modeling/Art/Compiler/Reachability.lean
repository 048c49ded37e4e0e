import Art.Compiler.Graph

/-! Which blocks can be reached from which (`HGraph::ComputeReachabilityInformation` in `nodes.cc`), in an array of bit
    vectors (`bit_vector.cc`). -/

namespace Art

/-! ### Bit vectors -/

/-- The indexes of bits and the number of bits are 32-bit values. -/
structure BitVector where
  storageSize : Nat
  storage : Nat → BitVec 32

namespace BitVector

variable (v : BitVector) (idx : Nat)

def bitSize : Nat := v.storageSize * 32 % 2 ^ 32

def bitsToWords (bits : Nat) : Nat := (bits + 31) % 2 ^ 32 / 32

def ensureSize : BitVector :=
  if idx < v.bitSize then v
  else
    { storageSize := bitsToWords ((idx + 1) % 2 ^ 32)
      storage := fun i => if i < v.storageSize then v.storage i else 0 }

/-- Nothing if the word is not in the storage. -/
def setBit : Option BitVector :=
  let v := v.ensureSize idx
  if idx / 32 < v.storageSize then
    some { v with
      storage := Function.update v.storage (idx / 32) (v.storage (idx / 32) ||| BitVec.twoPow 32 (idx % 32)) }
  else none

def clearBit : BitVector :=
  if idx < v.bitSize then
    { v with
      storage := Function.update v.storage (idx / 32) (v.storage (idx / 32) &&& ~~~BitVec.twoPow 32 (idx % 32)) }
  else v

def isBitSet : Bool := idx < v.bitSize && (v.storage (idx / 32)).getLsbD (idx % 32)

end BitVector

/-- The rows lie one after the other, each with `numColumns` bits. -/
structure BitVectorArray where
  rawData : BitVector
  numColumns : Nat

namespace BitVectorArray

variable (m : BitVectorArray) (row col : Nat)

def empty : BitVectorArray := ⟨⟨0, fun _ => 0⟩, 0⟩

/-- The `size_t` index is passed as a `uint32_t`. -/
def bitIndex : Nat := (row * m.numColumns + col) % 2 ^ 32

def isBitSet : Bool := m.rawData.isBitSet (m.bitIndex row col)

def setBit : Option BitVectorArray := (m.rawData.setBit (m.bitIndex row col)).map fun rawData => { m with rawData }

def blockWords : Nat := m.numColumns / 32

/-- In words, one after the other; nothing if they are not in the storage. -/
def unionRows (destRow other : Nat) : Option BitVectorArray :=
  let dest := destRow * m.numColumns / 32
  let source := other * m.numColumns / 32
  if dest + m.blockWords ≤ m.rawData.storageSize ∧ source + m.blockWords ≤ m.rawData.storageSize then
    some { m with
      rawData := { m.rawData with
        storage := (List.range m.blockWords).foldl
          (fun s i => Function.update s (dest + i) (s (dest + i) ||| s (source + i))) m.rawData.storage } }
  else none

/-- As many columns as fill the words of a row. Setting and clearing the last bit makes room. -/
def resize (rows cols : Nat) : Option BitVectorArray :=
  let numColumns := (cols + 31) / 32 * 32
  let last := (rows * numColumns + (2 ^ 32 - 1)) % 2 ^ 32
  (m.rawData.setBit last).map fun rawData => ⟨rawData.clearBit last, numColumns⟩

end BitVectorArray

namespace HGraph

variable {n : Nat} (g : HGraph n)

/-! ### The search from one block -/

/-- The variables of `CalculateConnectednessOn`. The work stack starts with its last element. -/
structure ConnectednessState (n : Nat) where
  discovered : Fin n → Bool
  workStack : List (Fin n)
  reachabilityGraph : BitVectorArray

def visitSuccessor (target : Fin n) (s : ConnectednessState n) (succ : Fin n) : Option (ConnectednessState n) := do
  let reachabilityGraph ← s.reachabilityGraph.setBit target succ
  let s := { s with reachabilityGraph }
  if s.discovered succ then return s
  else return { s with workStack := succ :: s.workStack, discovered := Function.update s.discovered succ true }

def connectednessBody (allVisitedNodes : Fin n → Bool) (target : Fin n) (s : ConnectednessState n) :
    Option (Option (ConnectednessState n)) :=
  match s.workStack with
  | [] => some none
  | cur :: rest =>
    let s := { s with workStack := rest }
    if allVisitedNodes cur then
      (s.reachabilityGraph.unionRows target cur).map fun reachabilityGraph => some { s with reachabilityGraph }
    else ((g.successors cur).foldlM (visitSuccessor target) s).map some

end HGraph

end Art
