import Art.Lib.Loop
import Mathlib.Data.List.Count
import Mathlib.Logic.Function.Basic

/-! The blocks of a method and the computation of their dominators (`nodes.cc`, `common_dominator.h`). Blocks are known
    by their ids. A `while` loop of the source runs as often as the fuel allows. -/

namespace Art

/-- The control flow between the blocks; `blocks` has those that are not null. -/
structure HGraph (n : Nat) where
  blocks : List (Fin n)
  entryBlock : Fin n
  successors : Fin n → List (Fin n)
  predecessors : Fin n → List (Fin n)

namespace HGraph

variable {n : Nat} (g : HGraph n)

def Edge (u v : Fin n) : Prop := v ∈ g.successors u

/-! ### Back edges -/

/-- The variables of `FindBackEdges`, and the back edges of each loop header. The worklist starts with its last
    element. -/
structure BackEdgeState (n : Nat) where
  visited : Fin n → Bool
  visiting : Fin n → Bool
  successorsVisited : Fin n → Nat
  worklist : List (Fin n)
  backEdges : Fin n → List (Fin n)

def findBackEdgesBody (s : BackEdgeState n) : Option (Option (BackEdgeState n)) :=
  match s.worklist with
  | [] => some none
  | current :: rest =>
    match (g.successors current)[s.successorsVisited current]? with
    | none => some (some { s with visiting := Function.update s.visiting current false, worklist := rest })
    | some successor =>
      let s :=
        { s with successorsVisited := Function.update s.successorsVisited current (s.successorsVisited current + 1) }
      if s.visiting successor then
        some (some { s with backEdges := Function.update s.backEdges successor (s.backEdges successor ++ [current]) })
      else if s.visited successor then some (some s)
      else
        some (some
          { s with
            visited := Function.update s.visited successor true
            visiting := Function.update s.visiting successor true
            worklist := successor :: s.worklist })

def findBackEdges (fuel : Nat) : Option (BackEdgeState n) :=
  Lib.whileLoop g.findBackEdgesBody fuel
    { visited := Function.update (fun _ => false) g.entryBlock true
      visiting := Function.update (fun _ => false) g.entryBlock true
      successorsVisited _ := 0
      worklist := [g.entryBlock]
      backEdges _ := [] }

/-! ### Dead blocks -/

/-- `DisconnectFromSuccessors`: each edge takes the block from the predecessors of its target once. -/
def disconnectFromSuccessors (b : Fin n) : HGraph n :=
  { g with
    successors := Function.update g.successors b []
    predecessors :=
      (g.successors b).foldl (fun preds s => Function.update preds s ((preds s).erase b)) g.predecessors }

/-- `RemoveDeadBlocksInstructionsAsUsersAndDisconnect` and `RemoveDeadBlocks`. -/
def removeDeadBlocks (visited : Fin n → Bool) : HGraph n :=
  let g := (g.blocks.filter fun b => !visited b).foldl disconnectFromSuccessors g
  { g with blocks := g.blocks.filter visited }

/-! ### Dominators -/

section CommonDominator

variable (dominator : Fin n → Option (Fin n))

def chainLength : Nat → Option (Fin n) → Option Nat
  | _, none => some 0
  | 0, some _ => none
  | fuel + 1, some block => (chainLength fuel (dominator block)).map (· + 1)

/-- `GetDominator`, as often as the number says. -/
def equalize : Nat → Fin n → Option (Fin n)
  | 0, block => some block
  | k + 1, block => (dominator block).bind (equalize k)

def runUp : Nat → Fin n → Fin n → Option (Fin n)
  | 0, _, _ => none
  | fuel + 1, block, block2 =>
    if block = block2 then some block
    else
      match dominator block, dominator block2 with
      | some block, some block2 => runUp fuel block block2
      | _, _ => none

def forPair (fuel : Nat) (block1 block2 : Fin n) : Option (Fin n) := do
  let chainLength2 ← chainLength dominator fuel (some block1)
  if block2 = block1 then return block1
  let chainLength ← chainLength dominator fuel (some block2)
  let block ← equalize dominator (chainLength - chainLength2) block2
  let block2 ← equalize dominator (chainLength2 - chainLength) block1
  runUp dominator fuel block block2

/-- `UpdateDominatorOfSuccessor`, with the new dominators and whether there was a change. -/
def updateDominatorOfSuccessor (fuel : Nat) (block successor : Fin n) : Option ((Fin n → Option (Fin n)) × Bool) := do
  let newDominator ← match dominator successor with
    | none => some block
    | some oldDominator => forPair dominator fuel oldDominator block
  if dominator successor = some newDominator then return (dominator, false)
  return (Function.update dominator successor (some newDominator), true)

def dominates : Nat → Fin n → Option (Fin n) → Option Bool
  | _, _, none => some false
  | 0, _, some _ => none
  | fuel + 1, block, some current =>
    if current = block then some true else dominates fuel block (dominator current)

end CommonDominator

/-- The variables of `ComputeDominanceInformation`. -/
structure DominanceState (n : Nat) where
  dominator : Fin n → Option (Fin n)
  reversePostOrder : List (Fin n)
  visits : Fin n → Nat
  successorsVisited : Fin n → Nat
  worklist : List (Fin n)

/-- One round of the loop that finds the reverse post order. -/
def dominanceBody (backEdges : Fin n → List (Fin n)) (fuel : Nat) (s : DominanceState n) :
    Option (Option (DominanceState n)) :=
  match s.worklist with
  | [] => some none
  | current :: rest =>
    match (g.successors current)[s.successorsVisited current]? with
    | none => some (some { s with worklist := rest })
    | some successor => do
      let (dominator, _) ← updateDominatorOfSuccessor s.dominator fuel current successor
      let s :=
        { s with
          dominator
          successorsVisited := Function.update s.successorsVisited current (s.successorsVisited current + 1)
          visits := Function.update s.visits successor (s.visits successor + 1) }
      if s.visits successor = (g.predecessors successor).length - (backEdges successor).length then
        return some
          { s with reversePostOrder := s.reversePostOrder ++ [successor], worklist := successor :: s.worklist }
      return some s

def hasBackEdgeNotDominatedByHeader (dominator : Fin n → Option (Fin n)) (fuel : Nat) (header : Fin n) :
    List (Fin n) → Option Bool
  | [] => some false
  | backEdge :: rest => do
    if !(← dominates dominator fuel header (some backEdge)) then return true
    hasBackEdgeNotDominatedByHeader dominator fuel header rest

def mustRunFixPoint (backEdges : Fin n → List (Fin n)) (dominator : Fin n → Option (Fin n)) (fuel : Nat) :
    List (Fin n) → Option Bool
  | [] => some false
  | block :: rest => do
    if ← hasBackEdgeNotDominatedByHeader dominator fuel block (backEdges block) then return true
    mustRunFixPoint backEdges dominator fuel rest

def fixPointBody (fuel : Nat) (reversePostOrder : List (Fin n)) (s : (Fin n → Option (Fin n)) × Bool) :
    Option (Option ((Fin n → Option (Fin n)) × Bool)) :=
  if s.2 then do
    let edges := reversePostOrder.flatMap fun block => (g.successors block).map fun successor => (block, successor)
    let s ← edges.foldlM (fun (s : (Fin n → Option (Fin n)) × Bool) edge => do
      let (dominator, updated) ← updateDominatorOfSuccessor s.1 fuel edge.1 edge.2
      return (dominator, s.2 || updated)) (s.1, false)
    return some s
  else some none

/-- The fix-point iteration, if a header does not dominate one of its back edges. -/
def fixDominators (backEdges : Fin n → List (Fin n)) (fuel : Nat) (s : DominanceState n) :
    Option (Fin n → Option (Fin n)) :=
  match mustRunFixPoint backEdges s.dominator fuel g.blocks with
  | none => none
  | some true => (Lib.whileLoop (g.fixPointBody fuel s.reversePostOrder) fuel (s.dominator, true)).map Prod.fst
  | some false => some s.dominator

def addDominatedBlocks (dominator : Fin n → Option (Fin n)) (reversePostOrder : List (Fin n)) :
    Option (Fin n → List (Fin n)) :=
  reversePostOrder.foldlM (fun (dominated : Fin n → List (Fin n)) block =>
    if block = g.entryBlock then some dominated
    else (dominator block).map fun d => Function.update dominated d (dominated d ++ [block])) fun _ => []

/-- What `ComputeDominanceInformation` stores in the blocks and in the graph. -/
structure DominanceInformation (n : Nat) where
  dominator : Fin n → Option (Fin n)
  reversePostOrder : List (Fin n)
  dominatedBlocks : Fin n → List (Fin n)

def computeDominanceInformation (backEdges : Fin n → List (Fin n)) (fuel : Nat) : Option (DominanceInformation n) := do
  let s ← Lib.whileLoop (g.dominanceBody backEdges fuel) fuel
    { dominator _ := none
      reversePostOrder := [g.entryBlock]
      visits _ := 0
      successorsVisited _ := 0
      worklist := [g.entryBlock] }
  let dominator ← g.fixDominators backEdges fuel s
  let dominatedBlocks ← g.addDominatedBlocks dominator s.reversePostOrder
  return { dominator, reversePostOrder := s.reversePostOrder, dominatedBlocks }

/-- The steps of `BuildDominatorTree` up to the dominators, without the simplification of the graph. -/
def buildDominatorTree (fuel : Nat) : Option (BackEdgeState n × DominanceInformation n) := do
  let s ← g.findBackEdges fuel
  let info ← (g.removeDeadBlocks s.visited).computeDominanceInformation s.backEdges fuel
  return (s, info)

end HGraph

/-- A graph whose edges are known at both ends and whose entry block is not the target of any. -/
structure ControlFlowGraph (n : Nat) extends HGraph n where
  entry_mem : entryBlock ∈ blocks
  successors_mem : ∀ b, ∀ s ∈ successors b, b ∈ blocks ∧ s ∈ blocks
  count_predecessors : ∀ b s, (predecessors s).count b = (successors b).count s
  entry_predecessors : predecessors entryBlock = []

end Art
