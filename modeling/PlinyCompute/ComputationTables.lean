import PlinyCompute.LogicalPlan
import PlinyCompute.Transition

namespace PlinyCompute.LogicalPlan

namespace TupleSpec

def isEmpty (t : TupleSpec) : Bool := t.setName = empty.setName

def setSetName (val : Text) (t : TupleSpec) : TupleSpec := { t with setName := val }

def removeAtt (att : Text) (t : TupleSpec) : TupleSpec := { t with atts := t.atts.filter (· ≠ att) }

def insertAtt (att : Text) (t : TupleSpec) : TupleSpec := { t with atts := t.atts ++ [att] }

def hasAtt (att : Text) (t : TupleSpec) : Bool := att ∈ t.atts

def replaceAtt (replaceMe replaceWithMe : Text) (t : TupleSpec) : TupleSpec :=
  { t with atts := t.atts.replace replaceMe replaceWithMe }

def complement (lhs rhs : TupleSpec) : TupleSpec :=
  { lhs with atts := lhs.atts.filter fun att => att ∉ rhs.atts }

end TupleSpec

namespace AtomicComputation

def isApplyLambda (c : AtomicComputation) : Bool :=
  match c.kind with
  | .applyLambda _ => true
  | _ => false

def isExtractingKey (c : AtomicComputation) : Bool :=
  c.keyValuePairs.keyValuePairs.lookup "lambdaType".toList = some "key".toList

def getRightInput (c : AtomicComputation) : Option TupleSpec :=
  match c.kind with
  | .applyJoin rightInput _ => some rightInput
  | .union rightInput => some rightInput
  | _ => none

def getRightProjection (c : AtomicComputation) : Option TupleSpec :=
  match c.kind with
  | .applyJoin _ rightProjection => some rightProjection
  | .union rightInput => some rightInput
  | _ => none

def hasTwoInputs (c : AtomicComputation) : Bool := c.getRightInput.isSome

def setInputNames (inputName projectionName : Text) (c : AtomicComputation) : AtomicComputation :=
  { c with
    input := c.input.setSetName inputName
    projection := c.projection.setSetName projectionName }

def setRightNames (inputName projectionName : Text) (c : AtomicComputation) : AtomicComputation :=
  match c.kind with
  | .applyJoin rightInput rightProjection =>
    { c with kind := .applyJoin (rightInput.setSetName inputName) (rightProjection.setSetName projectionName) }
  | .union rightInput => { c with kind := .union (rightInput.setSetName projectionName) }
  | _ => c

end AtomicComputation

end PlinyCompute.LogicalPlan

namespace PlinyCompute.ComputationTables

open LogicalPlan Transition
open Function (update)

structure AtomicComputationList where
  objects : ℕ → AtomicComputation
  allocated : ℕ
  producers : Text → Option ℕ
  consumers : Text → List ℕ
  scans : List ℕ

inductive Stop
  | runtimeError
  -- a null pointer, or the first element of an empty vector
  | undefined
  -- the loop goes on after the rounds it is given
  | endless
  -- `canApply` returns false
  | refused
  deriving DecidableEq

namespace AtomicComputationList

variable (l : AtomicComputationList)

def allocate (c : AtomicComputation) : AtomicComputationList :=
  { l with
    objects := update l.objects l.allocated c
    allocated := l.allocated + 1 }

def modify (c : ℕ) (f : AtomicComputation → AtomicComputation) : AtomicComputationList :=
  { l with objects := update l.objects c (f (l.objects c)) }

def pushConsumer (tupleSet : Text) (c : ℕ) : AtomicComputationList :=
  { l with consumers := update l.consumers tupleSet (l.consumers tupleSet ++ [c]) }

def outputName (c : ℕ) : Text := (l.objects c).getOutputName

def enter (addMe : ℕ) : AtomicComputationList :=
  (l.objects addMe).inputNames.foldl (fun l name => l.pushConsumer name addMe)
    { l with
      scans := if (l.objects addMe).role = .scan then l.scans ++ [addMe] else l.scans
      producers := update l.producers (l.outputName addMe) (some addMe) }

def addAtomicComputation (addMe : AtomicComputation) : AtomicComputationList := (l.allocate addMe).enter l.allocated

def removeConsumer (tupleSet : Text) (consumer : ℕ) : AtomicComputationList :=
  { l with consumers := update l.consumers tupleSet ((l.consumers tupleSet).filter (· ≠ consumer)) }

def removeProducer (tupleSet : Text) : AtomicComputationList :=
  { l with producers := update l.producers tupleSet none }

def removeAllConsumers (tupleSet : Text) : AtomicComputationList :=
  { l with consumers := update l.consumers tupleSet [] }

def hasConsumer (tupleSet : Text) : Bool := l.consumers tupleSet ≠ []

def getAllScanSets : List AtomicComputation := l.scans.map l.objects

end AtomicComputationList

def renameConsumer (tupleSet name : Text) (objects : ℕ → AtomicComputation) (c : ℕ) :
    Except Stop (ℕ → AtomicComputation) :=
  if (objects c).input.setName = tupleSet then
    .ok (update objects c ((objects c).setInputNames name name))
  else if (objects c).getRightInput.map TupleSpec.setName = some tupleSet then
    .ok (update objects c ((objects c).setRightNames name name))
  else .error .runtimeError

def detach (currComp : ℕ) (l : AtomicComputationList) : AtomicComputationList :=
  let l' :=
    if (l.objects currComp).input.isEmpty then l
    else l.removeConsumer (l.objects currComp).input.setName currComp
  match (l.objects currComp).getRightInput with
  | none => l'
  | some rightInput => l'.removeConsumer rightInput.setName currComp

def replaceComputation (tupleSet : Text) (comp : ℕ) (l : AtomicComputationList) : Except Stop AtomicComputationList :=
  match l.producers tupleSet with
  | none => .error .undefined
  | some currComp => do
    let name := l.outputName comp
    let tmp := (detach currComp l).consumers tupleSet
    let objects ← tmp.foldlM (renameConsumer tupleSet name) l.objects
    .ok
      { detach currComp l with
        objects := objects
        consumers := update (update (detach currComp l).consumers tupleSet []) name tmp
        producers := update (update l.producers tupleSet none) name (some comp) }

def relinked (currComp c : AtomicComputation) : AtomicComputation :=
  let left :=
    if c.input.setName = currComp.getOutputName then
      c.setInputNames currComp.input.setName currComp.projection.setName
    else c
  if left.getRightInput.map TupleSpec.setName = some currComp.getOutputName then
    left.setRightNames currComp.input.setName currComp.projection.setName
  else left

def relinkConsumer (currComp : AtomicComputation) (objects : ℕ → AtomicComputation) (c : ℕ) :
    ℕ → AtomicComputation :=
  update objects c (relinked currComp (objects c))

/-- The computation is read after its entry has been erased, through a reference to that entry. It is taken to be
what the entry held, and the list of the consumers of `tupleSet` is left as it is. -/
def removeAndRelink (tupleSet : Text) (l : AtomicComputationList) : Except Stop AtomicComputationList :=
  match l.producers tupleSet with
  | none => .error .undefined
  | some currComp =>
    let curr := l.objects currComp
    let currCons := l.consumers tupleSet
    if curr.hasTwoInputs ∧ currCons ≠ [] then .error .runtimeError
    else
      .ok
        { l with
          objects := currCons.foldl (relinkConsumer curr) l.objects
          producers := update l.producers tupleSet none
          consumers := update l.consumers curr.input.setName
            ((l.consumers curr.input.setName).filter (· ≠ currComp) ++ currCons) }

instance : Inhabited AtomicComputation := ⟨⟨.empty, .empty, .empty, [], .empty, .hashOne⟩⟩

def AtomicComputationList.empty : AtomicComputationList := ⟨fun _ => default, 0, fun _ => none, fun _ => [], []⟩

def build (plan : List AtomicComputation) : AtomicComputationList :=
  plan.foldl AtomicComputationList.addAtomicComputation .empty

end PlinyCompute.ComputationTables
