import PlinyCompute.ComputationTables

namespace PlinyCompute.PlanTransformer

open LogicalPlan Transition ComputationTables

structure Dropping where
  computations : AtomicComputationList
  tupleSetsToVisit : List Text
  toRemove : List ℕ

def dropInput (curComp : ℕ) (w : Dropping) : Option ℕ → Except Stop Dropping
  | none => .error .undefined
  | some input =>
    let name := w.computations.outputName input
    let computations := w.computations.removeConsumer name curComp
    if computations.hasConsumer name then .ok { w with computations := computations }
    else .ok ⟨computations, name :: w.tupleSetsToVisit, w.toRemove ++ [input]⟩

def inputsOf (l : AtomicComputationList) (curComp : ℕ) : List (Option ℕ) :=
  let curr := l.objects curComp
  (if curr.input.isEmpty then [] else [l.producers curr.input.setName]) ++
    match curr.getRightInput with
    | none => []
    | some rightInput => [l.producers rightInput.setName]

def dropLoop : ℕ → Dropping → Except Stop Dropping
  | fuel, w =>
    match w.tupleSetsToVisit with
    | [] => .ok w
    | name :: rest =>
      match fuel with
      | 0 => .error .endless
      | fuel + 1 =>
        match w.computations.producers name with
        | none => .error .undefined
        | some curComp => do
          let w ← (inputsOf w.computations curComp).foldlM (dropInput curComp) { w with tupleSetsToVisit := rest }
          dropLoop fuel w

def dropDependencies (fuel : ℕ) (tupleSetName : Text) (computations : AtomicComputationList) :
    Except Stop AtomicComputationList := do
  let w ← dropLoop fuel ⟨computations, [tupleSetName], []⟩
  .ok (w.toRemove.foldl (fun l comp => l.removeProducer (l.outputName comp)) w.computations)

def dependents (computations : AtomicComputationList) : ℕ → List Text → List Text → Except Stop (List Text)
  | _, [], tupleSetsToRemove => .ok tupleSetsToRemove
  | 0, _ :: _, _ => .error .endless
  | fuel + 1, name :: rest, tupleSetsToRemove =>
    match computations.producers name with
    | none => .error .undefined
    | some currComp =>
      let output := computations.outputName currComp
      dependents computations fuel (((computations.consumers output).map computations.outputName).reverse ++ rest)
        (tupleSetsToRemove ++ [output])

def dropDependents (fuel : ℕ) (tupleSetName : Text) (computations : AtomicComputationList) :
    Except Stop AtomicComputationList := do
  let tupleSetsToRemove ← dependents computations fuel [tupleSetName] []
  .ok (tupleSetsToRemove.foldl (fun l ts => (l.removeProducer ts).removeAllConsumers ts) computations)

section InsertKeyScanSetsTransformation

/-- The scan set that takes the place of a computation. Its page set identifier is not set. -/
def keyScanSet (inputComp : AtomicComputation) : AtomicComputation where
  input := .empty
  output := inputComp.output
  projection := .empty
  computationName := inputComp.computationName
  keyValuePairs := .empty
  kind := .scanSet ([], []) (0, [])

def insertKeyScanSets (fuel : ℕ) (inputTupleSet : Text) (computations : AtomicComputationList) :
    Except Stop AtomicComputationList :=
  match computations.producers inputTupleSet with
  | none => .error .undefined
  | some inputComp => do
    let setScanner := computations.allocated
    let computations := computations.allocate (keyScanSet (computations.objects inputComp))
    let computations ← dropDependencies fuel inputTupleSet computations
    replaceComputation (computations.outputName inputComp) setScanner computations

def canInsertKeyScanSets (inputTupleSet : Text) (computations : AtomicComputationList) : Except Stop Bool :=
  match computations.producers inputTupleSet with
  | none => .error .undefined
  | some inputComp => .ok ((computations.objects inputComp).role ≠ .scan)

end InsertKeyScanSetsTransformation

section JoinKeySideTransformation

def keySideLoop (inAttribute keyAttribute : Text) : ℕ → ℕ → AtomicComputationList → Except Stop AtomicComputationList
  | 0, _, _ => .error .endless
  | fuel + 1, currComp, computations =>
    if (computations.objects currComp).input.hasAtt inAttribute then .error .runtimeError
    else
      let computations := computations.modify currComp fun c =>
        { c with
          output := c.output.replaceAtt inAttribute keyAttribute
          projection := c.projection.replaceAtt inAttribute keyAttribute }
      match computations.consumers (computations.outputName currComp) with
      | [next] =>
        if (computations.objects next).role = .join then .ok computations
        else keySideLoop inAttribute keyAttribute fuel next computations
      | _ => .error .runtimeError

def joinKeySide (fuel : ℕ) (inputTupleSet : Text) (computations : AtomicComputationList) :
    Except Stop AtomicComputationList :=
  match computations.producers inputTupleSet, computations.consumers inputTupleSet with
  | some inputComp, keyComp :: _ =>
    match (computations.objects inputComp).output.atts,
      (TupleSpec.complement (computations.objects keyComp).output (computations.objects keyComp).projection).atts with
    | inAttribute :: _, [keyAttribute] => do
      let computations := computations.modify inputComp fun c =>
        { c with output := (c.output.removeAtt inAttribute).insertAtt keyAttribute }
      let computations := computations.removeProducer (computations.outputName inputComp)
      let computations ← replaceComputation (computations.outputName keyComp) inputComp computations
      match computations.consumers (computations.outputName inputComp) with
      | [currComp] => keySideLoop inAttribute keyAttribute fuel currComp computations
      | _ => .error .runtimeError
    | [], _ => .error .undefined
    | _ :: _, _ => .error .runtimeError
  | _, _ => .error .undefined

def canJoinKeySide (inputTupleSet : Text) (computations : AtomicComputationList) : Except Stop Bool :=
  match computations.producers inputTupleSet with
  | none => .error .undefined
  | some inputComp =>
    if (computations.objects inputComp).role ≠ .scan then .ok false
    else
      match computations.consumers inputTupleSet with
      | [keyComp] =>
        .ok ((computations.objects keyComp).isApplyLambda && (computations.objects keyComp).isExtractingKey)
      | _ => .ok false

end JoinKeySideTransformation

section JoinKeyTransformation

structure Keys where
  leftAtt : Text
  rightAtt : Text
  leftKey : Text
  rightKey : Text

structure JoinKeyWalk where
  lastOutput : TupleSpec
  removeWhenApplied : List Text
  keyAliases : List (Text × Text)
  lastUsedComputation : Option ℕ

def isDependentOnInput (w : JoinKeyWalk) (currComp : AtomicComputation) : Bool :=
  currComp.input.atts.any fun att => att ∈ w.removeWhenApplied

def noteRemoved (k : Keys) (currComp : AtomicComputation) (w : JoinKeyWalk) : Except Stop JoinKeyWalk :=
  let generatedColumns := (TupleSpec.complement currComp.output w.lastOutput).atts
  if currComp.isApplyLambda ∧ currComp.isExtractingKey then
    let key :=
      if currComp.input.hasAtt k.leftAtt then some k.leftKey
      else if currComp.input.hasAtt k.rightAtt then some k.rightKey
      else none
    match key, generatedColumns with
    | none, _ => .error .runtimeError
    | some _, [] => .error .undefined
    | some key, column :: _ => .ok { w with keyAliases := insertPair column key w.keyAliases }
  else .ok { w with removeWhenApplied := w.removeWhenApplied ++ generatedColumns }

def replaceAliases (keyAliases : List (Text × Text)) (t : TupleSpec) : TupleSpec :=
  keyAliases.foldl (fun t keyAlias => t.replaceAtt keyAlias.1 keyAlias.2) t

def insertMissing (att : Text) (t : TupleSpec) : TupleSpec := if t.hasAtt att then t else t.insertAtt att

def keepKeys (k : Keys) (keyAliases : List (Text × Text)) (t : TupleSpec) : TupleSpec :=
  insertMissing k.rightKey (insertMissing k.leftKey
    (replaceAliases keyAliases ((t.removeAtt k.leftAtt).removeAtt k.rightAtt)))

def useKeys (k : Keys) (keyAliases : List (Text × Text)) (c : AtomicComputation) : AtomicComputation :=
  { c with
    output := keepKeys k keyAliases c.output
    input := replaceAliases keyAliases c.input
    projection := keepKeys k keyAliases c.projection }

def joinKeyVisit (k : Keys) (currComp : ℕ) (w : JoinKeyWalk) (computations : AtomicComputationList) :
    Except Stop (JoinKeyWalk × AtomicComputationList) :=
  let curr := computations.objects currComp
  if isDependentOnInput w curr then do
    let w' ← noteRemoved k curr w
    let computations ← removeAndRelink curr.getOutputName computations
    .ok ({ w' with lastOutput := curr.output }, computations)
  else
    .ok ({ w with lastUsedComputation := some currComp, lastOutput := curr.output },
      computations.modify currComp (useKeys k w.keyAliases))

def joinKeyLoop (k : Keys) (joinCompName : Text) : ℕ → ℕ → JoinKeyWalk → AtomicComputationList →
    Except Stop (JoinKeyWalk × AtomicComputationList)
  | 0, _, _, _ => .error .endless
  | fuel + 1, currComp, w, computations => do
    let (w, computations) ← joinKeyVisit k currComp w computations
    match computations.consumers (computations.outputName currComp) with
    | [next] =>
      if (computations.objects next).computationName = joinCompName then
        joinKeyLoop k joinCompName fuel next w computations
      else .ok (w, computations)
    | _ => .error .runtimeError

def removeKeys (k : Keys) (t : TupleSpec) : TupleSpec := (t.removeAtt k.leftKey).removeAtt k.rightKey

/-- The key and the record attribute of one side: the one attribute of the input the join does not compare, and the
one it keeps. -/
def sideOf (computations : AtomicComputationList) (input projection : TupleSpec) : Except Stop (Text × Text) :=
  match computations.producers input.setName with
  | none => .error .undefined
  | some inputComp =>
    match (TupleSpec.complement (computations.objects inputComp).output input).atts, projection.atts with
    | [key], [att] => .ok (key, att)
    | _, _ => .error .runtimeError

def joinOnKeys (k : Keys) (c : AtomicComputation) : AtomicComputation :=
  { c with
    projection := (c.projection.removeAtt k.leftAtt).insertAtt k.leftKey
    output := (((c.output.removeAtt k.leftAtt).removeAtt k.rightAtt).insertAtt k.leftKey).insertAtt k.rightKey
    kind :=
      match c.kind with
      | .applyJoin rightInput rightProjection =>
        .applyJoin rightInput ((rightProjection.removeAtt k.rightAtt).insertAtt k.rightKey)
      | kind => kind }

def keysOf (computations : AtomicComputationList) (joinComp : AtomicComputation) : Except Stop Keys :=
  match joinComp.kind with
  | .applyJoin rightInput rightProjection => do
    let (leftKey, leftAtt) ← sideOf computations joinComp.input joinComp.projection
    let (rightKey, rightAtt) ← sideOf computations rightInput rightProjection
    .ok { leftAtt, rightAtt, leftKey, rightKey }
  -- the cast gives a null pointer
  | _ => .error .undefined

def joinKey (fuel : ℕ) (joinTupleSet : Text) (computations : AtomicComputationList) :
    Except Stop AtomicComputationList :=
  match computations.producers joinTupleSet with
  | none => .error .undefined
  | some joinComp => do
    let lastOutput := (computations.objects joinComp).output
    let k ← keysOf computations (computations.objects joinComp)
    let computations := computations.modify joinComp (joinOnKeys k)
    match computations.consumers (computations.outputName joinComp) with
    | [currComp] => do
      let (w, computations) ← joinKeyLoop k (computations.objects joinComp).computationName fuel currComp
        ⟨lastOutput, [k.leftAtt, k.rightAtt], [], none⟩ computations
      match w.lastUsedComputation with
      | none => .ok computations
      | some lastUsed =>
        .ok (computations.modify lastUsed fun c =>
          { c with output := removeKeys k c.output, projection := removeKeys k c.projection })
    | _ => .error .runtimeError

def canJoinKey (joinTupleSet : Text) (computations : AtomicComputationList) : Except Stop Bool :=
  match computations.producers joinTupleSet with
  | none => .error .undefined
  | some joinComp => .ok ((computations.objects joinComp).role = .join)

end JoinKeyTransformation

section AggKeyTransformation

def useInputKey (toRemove : List Text) (keyAlias inputKey : Text) (c : AtomicComputation) : AtomicComputation :=
  { c with
    output := (toRemove.foldl (fun t a => t.removeAtt a) c.output).replaceAtt keyAlias inputKey
    projection := (toRemove.foldl (fun t a => t.removeAtt a) c.projection).replaceAtt keyAlias inputKey
    input := c.input.replaceAtt keyAlias inputKey }

def aggKeyLoop (keyAlias inputKey : Text) : ℕ → List ℕ → List Text → AtomicComputationList →
    Except Stop AtomicComputationList
  | _, [], _, computations => .ok computations
  | 0, _ :: _, _, _ => .error .endless
  | fuel + 1, currComp :: rest, toRemove, computations =>
    let curr := computations.objects currComp
    if curr.role = .agg then removeAndRelink curr.getOutputName computations
    else
      let currentComps := (computations.consumers curr.getOutputName).reverse ++ rest
      if curr.input.atts.any (· ∈ toRemove) then do
        let generatedColumns := (TupleSpec.complement curr.output curr.projection).atts
        let computations ← removeAndRelink curr.getOutputName computations
        aggKeyLoop keyAlias inputKey fuel currentComps (toRemove ++ generatedColumns) computations
      else
        aggKeyLoop keyAlias inputKey fuel currentComps toRemove
          (computations.modify currComp (useInputKey toRemove keyAlias inputKey))

def aggKey (fuel : ℕ) (aggStartTupleSet : Text) (computations : AtomicComputationList) :
    Except Stop AtomicComputationList :=
  match computations.producers aggStartTupleSet with
  | none => .error .undefined
  | some startComp =>
    let start := computations.objects startComp
    match computations.producers start.input.setName with
    | none => .error .undefined
    | some startInput =>
      match (TupleSpec.complement start.output start.projection).atts, (computations.objects startInput).output.atts,
        start.input.atts, computations.consumers start.getOutputName with
      | [keyAlias], [inputKey], [recordColumn], [currComp] => do
        let computations ← removeAndRelink start.getOutputName computations
        aggKeyLoop keyAlias inputKey fuel [currComp] [recordColumn] computations
      | _, _, _, _ => .error .runtimeError

def aggAhead (computations : AtomicComputationList) : ℕ → List ℕ → Except Stop Bool
  | _, [] => .ok false
  | 0, _ :: _ => .error .endless
  | fuel + 1, [currComp] =>
    if (computations.objects currComp).role = .agg then .ok true
    else aggAhead computations fuel (computations.consumers (computations.outputName currComp))
  | _ + 1, _ :: _ :: _ => .ok false

def canAggKey (fuel : ℕ) (aggStartTupleSet : Text) (computations : AtomicComputationList) : Except Stop Bool :=
  match computations.producers aggStartTupleSet with
  | none => .error .undefined
  | some startComp =>
    if (computations.objects startComp).isApplyLambda ∧ (computations.objects startComp).isExtractingKey then
      match computations.consumers (computations.outputName startComp) with
      | [currComp] => aggAhead computations fuel [currComp]
      | _ => .error .runtimeError
    else .ok false

end AggKeyTransformation

def canDropDependents (startTupleSet : Text) (computations : AtomicComputationList) : Except Stop Bool :=
  .ok (computations.producers startTupleSet).isSome

inductive Transformation
  | insertKeyScanSets (inputTupleSet : Text)
  | joinKeySide (inputTupleSet : Text)
  | joinKey (joinTupleSet : Text)
  | aggKey (aggStartTupleSet : Text)
  | dropDependents (startTupleSet : Text)
  deriving DecidableEq

def canApply (fuel : ℕ) : Transformation → AtomicComputationList → Except Stop Bool
  | .insertKeyScanSets t => canInsertKeyScanSets t
  | .joinKeySide t => canJoinKeySide t
  | .joinKey t => canJoinKey t
  | .aggKey t => canAggKey fuel t
  | .dropDependents t => canDropDependents t

def apply (fuel : ℕ) : Transformation → AtomicComputationList → Except Stop AtomicComputationList
  | .insertKeyScanSets t => insertKeyScanSets fuel t
  | .joinKeySide t => joinKeySide fuel t
  | .joinKey t => joinKey fuel t
  | .aggKey t => aggKey fuel t
  | .dropDependents t => dropDependents fuel t

def step (i : Transformation × ℕ) (computations : AtomicComputationList) : Except Stop AtomicComputationList := do
  if ← canApply i.2 i.1 computations then apply i.2 i.1 computations else .error .refused

end PlinyCompute.PlanTransformer
