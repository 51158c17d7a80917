import PlinyCompute.LogicalPlan
import PlinyCompute.Transition

namespace PlinyCompute.PipeBuilder

open LogicalPlan Transition

inductive PipelineType
  | straight
  | aggregation
  | joinSide
  deriving DecidableEq, Repr

structure PhysicalNode where
  type : PipelineType
  pipeline : List AtomicComputation
  consumedBy : List Text
  deriving DecidableEq

structure Builder where
  visitedNodes : List AtomicComputation
  currentPipe : List AtomicComputation
  physicalNodes : List PhysicalNode

inductive Stop
  | assertion
  | depth
  | notTwoSides
  deriving DecidableEq, Repr

section

variable (plan : List AtomicComputation)

def consumers (c : AtomicComputation) : List AtomicComputation :=
  getConsumingAtomicComputations plan c.getOutputName

def setConsumers (last : AtomicComputation) : List Text :=
  match consumers plan last with
  | [] => []
  | [c] => [c.getOutputName]
  | _ :: _ :: _ => [last.getOutputName]

def createPhysicalPipeline (type : PipelineType) (b : Builder) : Except Stop Builder :=
  match b.currentPipe.getLast? with
  | none => .error .assertion
  | some last =>
    .ok { b with physicalNodes := b.physicalNodes ++ [⟨type, b.currentPipe, setConsumers plan last⟩] }

def breakPipe (curNode : AtomicComputation) (b : Builder) : Except Stop Builder :=
  match curNode.role with
  | .hash => do
    let b ← createPhysicalPipeline plan .joinSide b
    return { b with currentPipe := [] }
  | .agg => do
    let b ← createPhysicalPipeline plan .aggregation { b with currentPipe := b.currentPipe.dropLast }
    return { b with currentPipe := [curNode] }
  | .union => do
    let b ← createPhysicalPipeline plan .straight { b with currentPipe := b.currentPipe.dropLast }
    return { b with currentPipe := [curNode] }
  | .write => do
    let b ← createPhysicalPipeline plan .straight b
    return { b with currentPipe := [] }
  | _ => .ok b

/-- Several consumers start from the last computation of the pipe, which is moved over to each of them. -/
def splitPipe (curNode : AtomicComputation) (b : Builder) :
    Except Stop (List AtomicComputation × Builder) :=
  match b.currentPipe.getLast? with
  | none => .ok ([], b)
  | some last =>
    if 1 < (consumers plan curNode).length then
      if b.currentPipe.length = 1 ∧ last.role = .agg then .ok ([last], { b with currentPipe := [] })
      else do
        let b ← createPhysicalPipeline plan .straight b
        return ([last], { b with currentPipe := [] })
    else .ok ([], b)

def closePipe (b : Builder) : Except Stop Builder :=
  if b.currentPipe.dropLast = [] then .ok { b with currentPipe := [] }
  else do
    let b ← createPhysicalPipeline plan .straight { b with currentPipe := b.currentPipe.dropLast }
    return { b with currentPipe := [] }

def transverseTCAPGraph : ℕ → AtomicComputation → Builder → Except Stop Builder
  | 0, _, _ => .error .depth
  | n + 1, curNode, b =>
    if curNode ∈ b.visitedNodes then closePipe plan b
    else do
      let b ← breakPipe plan curNode { b with visitedNodes := curNode :: b.visitedNodes }
      let (moveTheseOver, b) ← splitPipe plan curNode b
      (consumers plan curNode).foldlM
        (fun b consumer => transverseTCAPGraph n consumer
          { b with currentPipe := b.currentPipe ++ moveTheseOver ++ [consumer] }) b

def buildPipes : Except Stop Builder :=
  (getAllScanSets plan).foldlM
    (fun b source => (consumers plan source).foldlM
      (fun b consumer => transverseTCAPGraph plan (plan.length + 1) consumer
        { b with currentPipe := b.currentPipe ++ [source, consumer] }) b)
    ⟨[], [], []⟩

end

def PhysicalNode.startsWith (node : PhysicalNode) (name : Text) : Bool :=
  (node.pipeline.head?.map AtomicComputation.getOutputName) = some name

def PhysicalNode.hasScanSet (node : PhysicalNode) : Bool :=
  (node.pipeline.head?.map AtomicComputation.role) = some .scan

def PhysicalNode.isJoining (node : PhysicalNode) : Bool :=
  (node.pipeline.head?.map AtomicComputation.role) = some .join

structure PipeGraph where
  nodes : List PhysicalNode
  consumers : ℕ → List ℕ
  producers : ℕ → List ℕ
  otherSide : ℕ → Option ℕ
  sources : List ℕ

def indices (nodes : List PhysicalNode) (p : PhysicalNode → Bool) : List ℕ :=
  (List.range nodes.length).filter fun i => nodes[i]?.any p

def linksOf (nodes : List PhysicalNode) (i : ℕ) : List ℕ :=
  match nodes[i]? with
  | none => []
  | some node => node.consumedBy.flatMap fun name => indices nodes (·.startsWith name)

/-- Every link enters its node among the producers of the other one. The nodes come in the order of their numbers,
while the source goes through a map by `node_<i>`, where 10 comes before 2. -/
def producersOf (nodes : List PhysicalNode) (j : ℕ) : List ℕ :=
  (List.range nodes.length).flatMap fun i => ((linksOf nodes i).filter (· = j)).map fun _ => i

def setOtherSide (nodes : List PhysicalNode) (otherSide : ℕ → Option ℕ) (joinNode : ℕ) :
    Except Stop (ℕ → Option ℕ) :=
  match producersOf nodes joinNode with
  | [joinSide1, joinSide2] =>
    .ok fun i => if i = joinSide2 then some joinSide1 else if i = joinSide1 then some joinSide2 else otherSide i
  | _ => .error .notTwoSides

def connectThePipes (nodes : List PhysicalNode) : Except Stop PipeGraph := do
  let otherSide ← (indices nodes (·.isJoining)).foldlM (setOtherSide nodes) fun _ => none
  return ⟨nodes, linksOf nodes, producersOf nodes, otherSide, indices nodes (·.hasScanSet)⟩

def generateAnalyzerGraph (plan : List AtomicComputation) : Except Stop PipeGraph := do
  let b ← buildPipes plan
  connectThePipes b.physicalNodes

end PlinyCompute.PipeBuilder
