import Mathlib.Data.List.Nodup
import Mathlib.Logic.Function.Basic

/-! `ConstructorFenceRedundancyElimination`: the constructor fences of a basic block are merged into a later one
    as long as no instruction in between publishes an object that they guard. -/

namespace Art.ConstructorFence

/-- The kinds of `HInvoke`. -/
inductive InvokeKind
  | staticOrDirect
  | virtual
  | interface
  | unresolved
  | polymorphic
  | custom
  deriving DecidableEq, Repr

/-- The instructions that the pass looks at, those that can publish an object, and `other` for all the rest. The
    operands are the inputs in their order; an invoke may have inputs after its arguments. -/
inductive Instruction (ι : Type)
  | constructorFence (targets : List ι)
  | boundType (input : ι)
  | nullCheck (value : ι)
  | select (falseValue trueValue condition : ι)
  | predicatedInstanceFieldGet (defaultValue target : ι)
  | instanceFieldSet (object value : ι)
  | staticFieldSet (cls value : ι)
  | arraySet (array index value : ι)
  | deoptimize (inputs : List ι)
  | invoke (kind : InvokeKind) (arguments otherInputs : List ι)
  | clinitCheck (cls : ι)
  | unresolvedInstanceFieldGet (object : ι)
  | unresolvedInstanceFieldSet (object value : ι)
  | unresolvedStaticFieldGet
  | unresolvedStaticFieldSet (value : ι)
  | phi (inputs : List ι)
  | other (inputs : List ι)
  deriving DecidableEq, Repr

namespace Instruction

variable {ι : Type}

def inputs : Instruction ι → List ι
  | constructorFence targets => targets
  | boundType input => [input]
  | nullCheck value => [value]
  | select falseValue trueValue condition => [falseValue, trueValue, condition]
  | predicatedInstanceFieldGet defaultValue target => [defaultValue, target]
  | instanceFieldSet object value => [object, value]
  | staticFieldSet cls value => [cls, value]
  | arraySet array index value => [array, index, value]
  | deoptimize inputs => inputs
  | invoke _ arguments otherInputs => arguments ++ otherInputs
  | clinitCheck cls => [cls]
  | unresolvedInstanceFieldGet object => [object]
  | unresolvedInstanceFieldSet object value => [object, value]
  | unresolvedStaticFieldGet => []
  | unresolvedStaticFieldSet value => [value]
  | phi inputs => inputs
  | other inputs => inputs

def isConstructorFence : Instruction ι → Bool
  | constructorFence _ => true
  | _ => false

def isPhi : Instruction ι → Bool
  | phi _ => true
  | _ => false

end Instruction

/-- Instructions and basic blocks by their identity. An instruction stands once in one block, and the phis are in
    a list of their own. -/
structure Graph (ι β : Type) where
  instruction : ι → Instruction ι
  phis : β → List ι
  instructions : β → List ι
  reversePostOrder : List β
  isPhi_of_mem : ∀ {b i}, i ∈ phis b → (instruction i).isPhi = true
  not_isPhi_of_mem : ∀ {b i}, i ∈ instructions b → (instruction i).isPhi = false
  nodup_instructions : ∀ b, (instructions b).Nodup
  block_unique : ∀ {b c i}, i ∈ instructions b → i ∈ instructions c → b = c
  nodup_reversePostOrder : reversePostOrder.Nodup

variable {ι β : Type} [DecidableEq ι]

/-- The loop of `HConstructorFence::Merge`: `AddInput` of every input of `other` that is not an input yet. -/
def addInputs (targets other : List ι) : List ι :=
  other.foldl (fun targets input => if input ∈ targets then targets else targets ++ [input]) targets

theorem isPhi_update {instruction : ι → Instruction ι} {target : ι} {targets targets' : List ι}
    (h : instruction target = .constructorFence targets) (i : ι) :
    (Function.update instruction target (.constructorFence targets') i).isPhi = (instruction i).isPhi := by
  by_cases hi : i = target
  · subst hi
    rw [Function.update_self, h]
    rfl
  · rw [Function.update_of_ne hi]

def Graph.merge (graph : Graph ι β) (target src : ι) : Graph ι β :=
  match ht : graph.instruction target, graph.instruction src with
  | .constructorFence targets, .constructorFence other =>
    { graph with
      instruction := Function.update graph.instruction target (.constructorFence (addInputs targets other))
      instructions := fun b => (graph.instructions b).erase src
      isPhi_of_mem := fun hi => by
        rw [isPhi_update ht]
        exact graph.isPhi_of_mem hi
      not_isPhi_of_mem := fun hi => by
        rw [isPhi_update ht]
        exact graph.not_isPhi_of_mem (List.mem_of_mem_erase hi)
      nodup_instructions := fun b => (graph.nodup_instructions b).erase src
      block_unique := fun hb hc => graph.block_unique (List.mem_of_mem_erase hb) (List.mem_of_mem_erase hc) }
  -- Both are `HConstructorFence*` in the source.
  | _, _ => graph

/-- `CFREVisitor`, with the merges it has made as pairs of the removed fence and the one it went into, which the
    statistic `kConstructorFenceRemovedCFRE` counts. -/
structure Visitor (ι β : Type) where
  graph : Graph ι β
  candidateFences : List ι := []
  candidateFenceTargets : List ι := []
  merged : List (ι × ι) := []

namespace Visitor

def isInterestingPublishTarget (v : Visitor ι β) (storeInput : ι) : Bool :=
  v.candidateFenceTargets.contains storeInput

def hasInterestingPublishTargetAsInput (v : Visitor ι β) (inst : Instruction ι) : Bool :=
  inst.inputs.any v.isInterestingPublishTarget

def maybeMerge (target : ι) (v : Visitor ι β) (src : ι) : Visitor ι β :=
  if target = src then v
  else { v with graph := v.graph.merge target src, merged := v.merged ++ [(src, target)] }

def mergeCandidateFences (v : Visitor ι β) : Visitor ι β :=
  match v.candidateFences.getLast? with
  | none => v
  | some mergeTarget =>
    { v.candidateFences.foldl (maybeMerge mergeTarget) v with candidateFences := [], candidateFenceTargets := [] }

def handleInvoke (v : Visitor ι β) (invoke : Instruction ι) : Visitor ι β :=
  if v.hasInterestingPublishTargetAsInput invoke then v.mergeCandidateFences else v

def visitAlias (v : Visitor ι β) (aliasingInst : Instruction ι) : Visitor ι β :=
  if v.hasInterestingPublishTargetAsInput aliasingInst then v.mergeCandidateFences else v

def visitSetLocation (v : Visitor ι β) (storeInput : ι) : Visitor ι β :=
  if v.isInterestingPublishTarget storeInput then v.mergeCandidateFences else v

def visitConstructorFence (v : Visitor ι β) (fence : ι) : Visitor ι β :=
  { v with
    candidateFences := v.candidateFences ++ [fence]
    candidateFenceTargets := v.candidateFenceTargets ++ (v.graph.instruction fence).inputs }

def accept (v : Visitor ι β) (i : ι) : Visitor ι β :=
  match v.graph.instruction i with
  | .constructorFence _ => v.visitConstructorFence i
  | .boundType input => v.visitAlias (.boundType input)
  | .nullCheck value => v.visitAlias (.nullCheck value)
  | .select falseValue trueValue condition => v.visitAlias (.select falseValue trueValue condition)
  | .instanceFieldSet _ value => v.visitSetLocation value
  | .staticFieldSet _ value => v.visitSetLocation value
  | .arraySet _ _ value => v.visitSetLocation value
  | .deoptimize _ => v.mergeCandidateFences
  -- The visitor has no `VisitInvokeCustom`; the one of `HGraphVisitor` does nothing.
  | .invoke .custom _ _ => v
  | .invoke kind arguments otherInputs => v.handleInvoke (.invoke kind arguments otherInputs)
  | .clinitCheck cls => v.handleInvoke (.clinitCheck cls)
  | .unresolvedInstanceFieldGet object => v.handleInvoke (.unresolvedInstanceFieldGet object)
  | .unresolvedInstanceFieldSet object value => v.handleInvoke (.unresolvedInstanceFieldSet object value)
  | .unresolvedStaticFieldGet => v.handleInvoke .unresolvedStaticFieldGet
  | .unresolvedStaticFieldSet value => v.handleInvoke (.unresolvedStaticFieldSet value)
  -- Nor has it a visit function for these.
  | .predicatedInstanceFieldGet _ _ => v
  | .phi _ => v
  | .other _ => v

/-- `VisitBasicBlock`. Only instructions before the current one are removed, so the iterators go over the lists
    that the block starts with. -/
def visitBasicBlock (v : Visitor ι β) (block : β) : Visitor ι β :=
  ((v.graph.instructions block).foldl accept ((v.graph.phis block).foldl accept v)).mergeCandidateFences

end Visitor

def run (graph : Graph ι β) : Visitor ι β :=
  graph.reversePostOrder.foldl Visitor.visitBasicBlock { graph }

end Art.ConstructorFence
