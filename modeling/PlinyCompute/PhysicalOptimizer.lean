import PlinyCompute.PipeBuilder

namespace PlinyCompute.PhysicalOptimizer

open LogicalPlan PipeBuilder Transition
open Function (update)

inductive SourceType
  | noSource
  | mergeSource
  | setScanSource
  | aggregationSource
  | shuffledAggregatesSource
  | shuffledJoinTuplesSource
  | joinedShuffleSource
  | broadcastJoinSource
  | broadcastIntermediateJoinSource
  deriving DecidableEq, Repr

inductive SinkType
  | noSink
  | setSink
  | aggregationSink
  | aggShuffleSink
  | joinShuffleSink
  | joinShuffleIntermediateSink
  | broadcastJoinSink
  | broadcastIntermediateJoinSink
  deriving DecidableEq, Repr

structure SourcePageSetSpec where
  sourceType : SourceType
  pageSetIdentifier : Text
  deriving DecidableEq, Repr

structure SinkPageSetSpec where
  sinkType : SinkType
  pageSetIdentifier : Text
  deriving DecidableEq, Repr

structure PrimarySource where
  startAtomicComputation : AtomicComputation
  source : SourcePageSetSpec
  shouldSwapLeftAndRight : Bool
  deriving DecidableEq

inductive AlgorithmType
  | straightPipe
  | aggregationPipe (hashedToSend : SinkPageSetSpec) (hashedToRecv : SourcePageSetSpec)
  | broadcastForJoin (hashedToSend : SinkPageSetSpec) (hashedToRecv : SourcePageSetSpec)
  | shuffleForJoin (intermediate : SinkPageSetSpec)
  deriving DecidableEq, Repr

/-- The sets to materialize stand as the `WriteSet`s whose database and set name are handed over. -/
structure Algorithm where
  type : AlgorithmType
  primarySources : List PrimarySource
  finalAtomicComputation : AtomicComputation
  sink : SinkPageSetSpec
  secondarySources : List SourcePageSetSpec
  setsToMaterialize : List AtomicComputation
  deriving DecidableEq

inductive PlanningResultType
  | unionedPipeline
  | generatedAlgorithm
  deriving DecidableEq, Repr

structure PlanningResult where
  resultType : PlanningResultType
  runMe : Option Algorithm
  newSourceNodes : List ℕ
  consumedPageSets : List Text
  newPageSets : List (Text × ℕ)

inductive JoinState
  | notProcessed
  | broadcasted
  | shuffled
  deriving DecidableEq, Repr

structure NodeState where
  consumers : List ℕ
  producers : List ℕ
  sinkPageSet : SinkPageSetSpec
  primarySources : List PrimarySource
  additionalSources : List SourcePageSetSpec
  state : JoinState

inductive Stop
  | assertion
  | pageSetNotFound
  | noWriteSet
  | noSource
  | depth
  deriving DecidableEq, Repr

def getSourceTypeForSinkType : SinkType → Except Stop SourceType
  | .setSink => .ok .setScanSource
  | .aggregationSink => .ok .aggregationSource
  | .aggShuffleSink => .ok .shuffledAggregatesSource
  | .joinShuffleSink => .ok .shuffledJoinTuplesSource
  | .broadcastJoinSink => .ok .broadcastJoinSource
  | _ => .error .assertion

def sourceFor (sink : SinkPageSetSpec) : Except Stop SourcePageSetSpec := do
  let sourceType ← getSourceTypeForSinkType sink.sinkType
  return ⟨sourceType, sink.pageSetIdentifier⟩

def findCost (pageSetCosts : Text → Option ℕ) (id : Text) : Except Stop ℕ :=
  match pageSetCosts id with
  | some cost => .ok cost
  | none => .error .pageSetNotFound

abbrev Nodes := ℕ → NodeState

def primaryIds (s : NodeState) : List Text := s.primarySources.map fun p => p.source.pageSetIdentifier

def additionalIds (s : NodeState) : List Text := s.additionalSources.map fun a => a.pageSetIdentifier

section

variable (graph : PipeGraph)

def pipelineOf (v : ℕ) : List AtomicComputation := (graph.nodes[v]?.map PhysicalNode.pipeline).getD []

def typeOf (v : ℕ) : Option PipelineType := graph.nodes[v]?.map PhysicalNode.type

def front (v : ℕ) : Except Stop AtomicComputation :=
  match (pipelineOf graph v).head? with
  | some c => .ok c
  | none => .error .assertion

def back (v : ℕ) : Except Stop AtomicComputation :=
  match (pipelineOf graph v).getLast? with
  | some c => .ok c
  | none => .error .assertion

def startsWithRole (v : ℕ) (role : Role) : Bool :=
  ((pipelineOf graph v).head?.map AtomicComputation.role) = some role

def hasScanSet (v : ℕ) : Bool := startsWithRole graph v .scan

def isJoining (v : ℕ) : Bool := startsWithRole graph v .join

def isUnioning (v : ℕ) : Bool := startsWithRole graph v .union

def getRightInput (c : AtomicComputation) : Except Stop TupleSpec :=
  match c.kind with
  | .applyJoin rightInput _ => .ok rightInput
  | _ => .error .assertion

section

variable (pageSetCosts : Text → Option ℕ)

def getJoinSources (v : ℕ) (s : Nodes) : Except Stop (SourcePageSetSpec × SourcePageSetSpec × Bool) :=
  match (s v).producers with
  | [firstProducer, secondProducer] => do
    let first ← findCost pageSetCosts (s firstProducer).sinkPageSet.pageSetIdentifier
    let second ← findCost pageSetCosts (s secondProducer).sinkPageSet.pageSetIdentifier
    let applyJoin ← front graph v
    let leftSide := if second < first then secondProducer else firstProducer
    let rightSide := if first ≤ second then secondProducer else firstProducer
    let rhsInput ← getRightInput applyJoin
    let last ← back graph leftSide
    let leftSource ← sourceFor (s leftSide).sinkPageSet
    let rightSource ← sourceFor (s rightSide).sinkPageSet
    return (leftSource, rightSource, last.getOutputName = rhsInput.setName)
  | _ => .error .assertion

def getSourcePageSet (v : ℕ) (s : Nodes) : Except Stop SourcePageSetSpec :=
  if hasScanSet graph v then do
    let scan ← front graph v
    return ⟨.setScanSource, scan.getOutputName⟩
  else if isJoining graph v then do
    let (leftSource, _, _) ← getJoinSources graph pageSetCosts v s
    return leftSource
  else
    match (s v).producers with
    | [producer] => sourceFor (s producer).sinkPageSet
    | _ => .error .assertion

end

abbrev Planning := Except Stop (PlanningResult × Nodes)

def generatePipelinedAlgorithm (generate : ℕ → Nodes → Planning) (v child : ℕ) (s : Nodes) : Planning :=
  let mine := s v
  let piped : NodeState := { mine with
    additionalSources := (s child).additionalSources
    primarySources := mine.primarySources ++ (s child).primarySources }
  if isUnioning graph v = true ∧ mine.primarySources = [] then
    .ok (⟨.unionedPipeline, none, [], primaryIds (s child), []⟩, update s v piped)
  else generate v (update s v piped)

def consumedBy (mine : NodeState) (others : List Text) : List Text :=
  (additionalIds mine).reverse ++ ((primaryIds mine).reverse ++ others)

def generateStraightAlgorithm (generate : ℕ → Nodes → Planning) (v : ℕ) (s : Nodes) : Planning :=
  match (s v).consumers with
  | [consumer] => generatePipelinedAlgorithm graph generate consumer v s
  | consumers => do
    let last ← back graph v
    let sink : SinkPageSetSpec := ⟨.setSink, last.getOutputName⟩
    let setsToMaterialize ← (
      if consumers = [] then
        if last.role = .write then .ok [last] else .error .noWriteSet
      else .ok [] : Except Stop (List AtomicComputation))
    return (⟨.generatedAlgorithm,
      some ⟨.straightPipe, (s v).primarySources, last, sink, (s v).additionalSources, setsToMaterialize⟩,
      consumers, consumedBy (s v) [], [(sink.pageSetIdentifier, consumers.length)]⟩,
      update s v { s v with sinkPageSet := sink })

def materializedBy (consumer : ℕ) : Option AtomicComputation :=
  match pipelineOf graph consumer with
  | [first, second] => if first.role = .agg ∧ second.role = .write then some second else none
  | _ => none

/-- The loop over the consumers, the ones in front of the iterator apart from the others. When a consumer is
removed the iterator is moved twice, and behind the end it comes to the first one again. -/
def materialize : ℕ → List ℕ → List ℕ → List (ℕ × AtomicComputation) →
    Except Stop (List ℕ × List (ℕ × AtomicComputation))
  | 0, _, _, _ => .error .depth
  | _ + 1, before, [], removed => .ok (before, removed)
  | n + 1, before, consumer :: after, removed =>
    match materializedBy graph consumer, after with
    | none, _ => materialize n (before ++ [consumer]) after removed
    | some writer, [] => materialize n [] before (removed ++ [(consumer, writer)])
    | some writer, next :: after => materialize n (before ++ [next]) after (removed ++ [(consumer, writer)])

def removeConsumers (v : ℕ) (removed : List ℕ) (s : Nodes) : Nodes := fun c =>
  if c ∈ removed then { s c with producers := (s c).producers.filter (· ≠ v) } else s c

def hashedToSend : Text := "_hashed_to_send".toList

def hashedToRecv : Text := "_hashed_to_recv".toList

def toShuffle : Text := "_to_shuffle".toList

def generateAggregationAlgorithm (v : ℕ) (s : Nodes) : Planning := do
  let last ← back graph v
  let toSend : SinkPageSetSpec := ⟨.aggShuffleSink, last.getOutputName ++ hashedToSend⟩
  let toRecv : SourcePageSetSpec := ⟨.shuffledAggregatesSource, last.getOutputName ++ hashedToRecv⟩
  let sink : SinkPageSetSpec := ⟨.aggregationSink, last.getOutputName⟩
  let n := (s v).consumers.length + 1
  let (consumers, removed) ← materialize graph (n * n) [] (s v).consumers []
  let others := [toSend.pageSetIdentifier, toRecv.pageSetIdentifier]
  let consumedPageSets := consumedBy (s v) others
  return (⟨.generatedAlgorithm,
    some ⟨.aggregationPipe toSend toRecv, (s v).primarySources, last, sink, (s v).additionalSources,
      removed.map Prod.snd⟩,
    consumers,
    if consumers = [] then sink.pageSetIdentifier :: consumedPageSets else consumedPageSets,
    [(sink.pageSetIdentifier, if consumers = [] then 1 else consumers.length), (toSend.pageSetIdentifier, 1),
      (toRecv.pageSetIdentifier, 1)]⟩,
    removeConsumers v (removed.map Prod.fst)
      (update s v { s v with consumers := consumers, sinkPageSet := sink }))

-- `threshold` is `SHUFFLE_JOIN_THRASHOLD`.
variable (threshold : ℕ) (pageSetCosts : Text → Option ℕ)

def getPrimarySourcesSize : List PrimarySource → Except Stop ℕ
  | [] => .ok 0
  | p :: ps => do
    let cost ← findCost pageSetCosts p.source.pageSetIdentifier
    let rest ← getPrimarySourcesSize ps
    return cost + rest

def broadcastSide (v : ℕ) (last : AtomicComputation) (s : Nodes) : PlanningResult × Nodes :=
  let sink : SinkPageSetSpec := ⟨.broadcastJoinSink, last.getOutputName⟩
  let toSend : SinkPageSetSpec := ⟨.broadcastIntermediateJoinSink, last.getOutputName ++ hashedToSend⟩
  let toRecv : SourcePageSetSpec := ⟨.broadcastIntermediateJoinSource, last.getOutputName ++ hashedToRecv⟩
  (⟨.generatedAlgorithm,
    some ⟨.broadcastForJoin toSend toRecv, (s v).primarySources, last, sink, (s v).additionalSources, []⟩,
    [],
    consumedBy (s v) [toSend.pageSetIdentifier, toRecv.pageSetIdentifier],
    [(sink.pageSetIdentifier, 1), (toSend.pageSetIdentifier, 1), (toRecv.pageSetIdentifier, 1)]⟩,
    update s v { s v with sinkPageSet := sink, state := .broadcasted })

def shuffleSide (v otherSide : ℕ) (last : AtomicComputation) (s : Nodes) : PlanningResult × Nodes :=
  let sink : SinkPageSetSpec := ⟨.joinShuffleSink, last.getOutputName⟩
  let intermediate : SinkPageSetSpec := ⟨.joinShuffleIntermediateSink, last.getOutputName ++ toShuffle⟩
  (⟨.generatedAlgorithm,
    some ⟨.shuffleForJoin intermediate, (s v).primarySources, last, sink, (s v).additionalSources, []⟩,
    if (s otherSide).state = .shuffled then (s v).consumers else [],
    consumedBy (s v) [intermediate.pageSetIdentifier],
    [(sink.pageSetIdentifier, 1), (intermediate.pageSetIdentifier, 1)]⟩,
    update s v { s v with sinkPageSet := sink, state := .shuffled })

def generateJoinSideAlgorithm (generate : ℕ → Nodes → Planning) (v : ℕ) (s : Nodes) : Planning :=
  if (s v).state = .notProcessed then
    match graph.otherSide v with
    | none => .error .assertion
    | some otherSide =>
      if (s otherSide).state = .broadcasted then do
        let otherLast ← back graph otherSide
        let mine := s v
        let s := update s v { mine with
          additionalSources := mine.additionalSources ++ [⟨.broadcastJoinSource, otherLast.getOutputName⟩] }
        match mine.consumers with
        | [consumer] => generatePipelinedAlgorithm graph generate consumer v s
        | _ => .error .assertion
      else do
        let last ← back graph v
        let cost ← getPrimarySourcesSize pageSetCosts (s v).primarySources
        if cost < threshold ∧ (s otherSide).state = .notProcessed then return broadcastSide v last s
        else return shuffleSide v otherSide last s
  else .error .assertion

def generateAlgorithmFor : ℕ → ℕ → Nodes → Planning
  | 0, _, _ => .error .depth
  | n + 1, v, s =>
    match typeOf graph v with
    | none => .error .assertion
    | some .straight => generateStraightAlgorithm graph (generateAlgorithmFor n) v s
    | some .aggregation => generateAggregationAlgorithm graph v s
    | some .joinSide => generateJoinSideAlgorithm graph threshold pageSetCosts (generateAlgorithmFor n) v s

def withSource (v : ℕ) (s : Nodes) : Except Stop NodeState := do
  let start ← front graph v
  if isJoining graph v then
    let (leftSource, rightSource, shouldSwapLeftAndRight) ← getJoinSources graph pageSetCosts v s
    return { s v with
      additionalSources := (s v).additionalSources ++ [rightSource]
      primarySources := (s v).primarySources ++ [⟨start, leftSource, shouldSwapLeftAndRight⟩] }
  else
    let source ← getSourcePageSet graph pageSetCosts v s
    return { s v with primarySources := (s v).primarySources ++ [⟨start, source, false⟩] }

def generateAlgorithm (v : ℕ) (s : Nodes) : Planning := do
  let mine ← withSource graph pageSetCosts v s
  generateAlgorithmFor graph threshold pageSetCosts (graph.nodes.length + 1) v (update s v mine)

end

structure Optimizer where
  nodes : Nodes
  sources : List (ℕ × ℕ)
  pageSetCosts : Text → Option ℕ
  activePageSets : List (Text × ℤ)
  pageSetsToRemove : List Text

def insertSource (size v : ℕ) : List (ℕ × ℕ) → List (ℕ × ℕ)
  | [] => [(size, v)]
  | x :: xs => if x.1 < size then x :: insertSource size v xs else (size, v) :: x :: xs

def addConsumers (id : Text) (n : ℤ) : List (Text × ℤ) → List (Text × ℤ)
  | [] => [(id, n)]
  | x :: xs => if x.1 = id then (id, x.2 + n) :: xs else x :: addConsumers id n xs

/-- A page set that is not active is one of the sets that are scanned. -/
def consumePageSet (active : List (Text × ℤ)) (id : Text) : List (Text × ℤ) :=
  active.map fun x => if x.1 = id then (x.1, x.2 - 1) else x

def Optimizer.hasAlgorithmToRun (o : Optimizer) : Bool := !o.sources.isEmpty

def applyResult (o : Optimizer) (result : PlanningResult) (nodes : Nodes) (rest : List (ℕ × ℕ)) : Optimizer :=
  let added := result.newPageSets.foldl (fun active p => addConsumers p.1 p.2 active) o.activePageSets
  let consumed := result.consumedPageSets.foldl consumePageSet added
  { nodes := nodes
    sources := result.newSourceNodes.foldl (fun sources v => insertSource 0 v sources) rest
    pageSetCosts := result.newPageSets.foldl (fun costs p => update costs p.1 (some 0)) o.pageSetCosts
    activePageSets := consumed.filter fun x => x.2 ≠ 0
    pageSetsToRemove := o.pageSetsToRemove ++ (consumed.filter fun x => x.2 = 0).map Prod.fst }

section

variable (graph : PipeGraph) (threshold : ℕ)

def planSource (o : Optimizer) : Except Stop (PlanningResult × Optimizer) :=
  match o.sources with
  | [] => .error .noSource
  | (_, v) :: rest => do
    let (result, nodes) ← generateAlgorithm graph threshold o.pageSetCosts v o.nodes
    return (result, applyResult o result nodes rest)

def getNextAlgorithm : ℕ → Optimizer → Except Stop (Option Algorithm × Optimizer)
  | 0, _ => .error .depth
  | n + 1, o => do
    let (result, o) ← planSource graph threshold o
    if result.resultType = .generatedAlgorithm then return (result.runMe, o)
    else if o.hasAlgorithmToRun then getNextAlgorithm n o
    else return (none, o)

end

def Optimizer.updatePageSet (o : Optimizer) (identifier : Text) (size : ℕ) : Optimizer :=
  { o with pageSetCosts := update o.pageSetCosts identifier (some size) }

def Optimizer.getPageSetsToRemove (o : Optimizer) : List Text × Optimizer :=
  (o.pageSetsToRemove, { o with
    pageSetCosts := o.pageSetsToRemove.foldl (fun costs i => update costs i (some 0)) o.pageSetCosts
    pageSetsToRemove := [] })

def scannedSet (c : AtomicComputation) : Text × Text :=
  match c.kind with
  | .scanSet setSpecifier _ => setSpecifier
  | _ => ([], [])

def addSource (graph : PipeGraph) (setSize : Text × Text → ℕ) (o : Optimizer) (v : ℕ) : Optimizer :=
  match (pipelineOf graph v).head? with
  | none => o
  | some scan =>
    { o with
      sources := insertSource (setSize (scannedSet scan)) v o.sources
      pageSetCosts := update o.pageSetCosts scan.getOutputName (some (setSize (scannedSet scan))) }

def Optimizer.create (graph : PipeGraph) (setSize : Text × Text → ℕ) : Optimizer :=
  graph.sources.foldl (addSource graph setSize)
    { nodes := fun v => ⟨graph.consumers v, graph.producers v, ⟨.noSink, []⟩, [], [], .notProcessed⟩
      sources := []
      pageSetCosts := fun _ => none
      activePageSets := []
      pageSetsToRemove := [] }

inductive Call
  | getNextAlgorithm
  | getPageSetsToRemove
  | updatePageSet (identifier : Text) (size : ℕ)

inductive Event
  | returned (algorithm : Option Algorithm)
  | removed (pageSets : List Text)
  deriving DecidableEq

structure Session where
  optimizer : Optimizer
  events : List Event

def Session.step (graph : PipeGraph) (threshold : ℕ) (call : Call) (w : Session) : Except Stop Session :=
  match call with
  | .getNextAlgorithm => do
    let (algorithm, o) ← PhysicalOptimizer.getNextAlgorithm graph threshold (graph.nodes.length + 1) w.optimizer
    return ⟨o, w.events ++ [.returned algorithm]⟩
  | .getPageSetsToRemove =>
    .ok ⟨w.optimizer.getPageSetsToRemove.2, w.events ++ [.removed w.optimizer.getPageSetsToRemove.1]⟩
  | .updatePageSet identifier size => .ok ⟨w.optimizer.updatePageSet identifier size, w.events⟩

end PlinyCompute.PhysicalOptimizer
