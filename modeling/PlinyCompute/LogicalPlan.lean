import Mathlib.Data.Char
import Mathlib.Data.List.Lex

namespace PlinyCompute.LogicalPlan

abbrev Text := List Char

scoped instance : LawfulBEq Text := inferInstance

structure TupleSpec where
  setName : Text
  atts : List Text
  deriving DecidableEq, Repr

def TupleSpec.empty : TupleSpec := ⟨"Empty".toList, []⟩

def writeAtts : Bool → List Text → Text
  | _, [] => []
  | first, a :: atts => (if first then [] else ", ".toList) ++ (a ++ writeAtts false atts)

def TupleSpec.writeOut (printMe : TupleSpec) : Text :=
  printMe.setName ++ (" (".toList ++ (writeAtts true printMe.atts ++ ")".toList))

structure KeyValueList where
  keyValuePairs : List (Text × Text)
  sorted : keyValuePairs.Pairwise fun p q => p.1 < q.1
  deriving DecidableEq

def KeyValueList.empty : KeyValueList := ⟨[], .nil⟩

def insertPair (keyName valueName : Text) : List (Text × Text) → List (Text × Text)
  | [] => [(keyName, valueName)]
  | p :: ps =>
    if keyName < p.1 then (keyName, valueName) :: p :: ps
    else if p.1 < keyName then p :: insertPair keyName valueName ps
    else (keyName, valueName) :: ps

theorem mem_insertPair {k v : Text} {q : Text × Text} {ps : List (Text × Text)}
    (h : q ∈ insertPair k v ps) : q = (k, v) ∨ q ∈ ps := by
  induction ps with
  | nil => simpa [insertPair] using h
  | cons p ps ih =>
    unfold insertPair at h
    split at h
    · simpa using h
    · split at h
      · rcases List.mem_cons.mp h with h | h
        · exact .inr (by simp [h])
        · exact (ih h).imp_right (List.mem_cons_of_mem _)
      · exact (List.mem_cons.mp h).imp_right (List.mem_cons_of_mem _)

theorem insertPair_sorted (k v : Text) {ps : List (Text × Text)}
    (h : ps.Pairwise fun p q => p.1 < q.1) : (insertPair k v ps).Pairwise fun p q => p.1 < q.1 := by
  induction ps with
  | nil => simp [insertPair]
  | cons p ps ih =>
    obtain ⟨hp, hps⟩ := List.pairwise_cons.mp h
    unfold insertPair
    split
    · next hlt =>
      refine List.pairwise_cons.mpr ⟨?_, h⟩
      intro q hq
      rcases List.mem_cons.mp hq with rfl | hq
      · exact hlt
      · exact lt_trans hlt (hp q hq)
    · next hnlt =>
      split
      · next hgt =>
        refine List.pairwise_cons.mpr ⟨?_, ih hps⟩
        intro q hq
        rcases mem_insertPair hq with rfl | hq
        · exact hgt
        · exact hp q hq
      · next hngt =>
        have he : k = p.1 := le_antisymm (not_lt.mp hngt) (not_lt.mp hnlt)
        refine List.pairwise_cons.mpr ⟨?_, hps⟩
        intro q hq
        exact he ▸ hp q hq

def KeyValueList.appendkeyValuePair (kv : KeyValueList) (keyName valueName : Text) : KeyValueList :=
  ⟨insertPair keyName valueName kv.keyValuePairs, insertPair_sorted _ _ kv.sorted⟩

inductive Kind
  | applyLambda (lambdaName : Text)
  | hashLeft (lambdaName : Text)
  | hashRight (lambdaName : Text)
  | hashOne
  | flatten
  | union (rightInput : TupleSpec)
  | applyFilter
  | applyAgg
  | scanSet (setSpecifier : Text × Text) (pageSetSpecifier : ℕ × Text)
  | writeSet (dbName setName : Text)
  | applyJoin (rightInput rightProjection : TupleSpec)
  deriving DecidableEq, Repr

structure AtomicComputation where
  input : TupleSpec
  output : TupleSpec
  projection : TupleSpec
  computationName : Text
  keyValuePairs : KeyValueList
  kind : Kind
  deriving DecidableEq

inductive Role
  | scan
  | hash
  | agg
  | union
  | join
  | write
  | other
  deriving DecidableEq, Repr

def AtomicComputation.role (c : AtomicComputation) : Role :=
  match c.kind with
  | .scanSet _ _ => .scan
  | .hashOne => .hash
  | .hashLeft _ => .hash
  | .hashRight _ => .hash
  | .applyAgg => .agg
  | .union _ => .union
  | .applyJoin _ _ => .join
  | .writeSet _ _ => .write
  | .applyLambda _ => .other
  | .flatten => .other
  | .applyFilter => .other

def AtomicComputation.getOutputName (c : AtomicComputation) : Text := c.output.setName

def AtomicComputation.inputNames (c : AtomicComputation) : List Text :=
  c.input.setName :: match c.kind with
    | .applyJoin rightInput _ => [rightInput.setName]
    | .union rightInput => [rightInput.setName]
    | _ => []

def getConsumingAtomicComputations (plan : List AtomicComputation) (inputName : Text) :
    List AtomicComputation :=
  plan.flatMap fun c => (c.inputNames.filter (· = inputName)).map fun _ => c

def getAllScanSets (plan : List AtomicComputation) : List AtomicComputation :=
  plan.filter fun c => c.role = .scan

def writeNames : List Text → Text
  | [] => ")\n".toList
  | s :: ss => ", '".toList ++ (s ++ ("'".toList ++ writeNames ss))

def AtomicComputation.writeOut (c : AtomicComputation) : Text :=
  c.output.writeOut ++
    match c.kind with
    | .applyLambda lambdaName =>
      " <= APPLY (".toList ++ (c.input.writeOut ++ (", ".toList ++ (c.projection.writeOut ++
        writeNames [c.computationName, lambdaName])))
    | .hashLeft lambdaName =>
      " <= HASHLEFT (".toList ++ (c.input.writeOut ++ (", ".toList ++ (c.projection.writeOut ++
        writeNames [c.computationName, lambdaName])))
    | .hashRight lambdaName =>
      " <= HASHRIGHT (".toList ++ (c.input.writeOut ++ (", ".toList ++ (c.projection.writeOut ++
        writeNames [c.computationName, lambdaName])))
    | .hashOne =>
      " <= HASHONE (".toList ++ (c.input.writeOut ++ (", ".toList ++ (c.projection.writeOut ++
        writeNames [c.computationName])))
    | .flatten =>
      " <= FLATTEN (".toList ++ (c.input.writeOut ++ (", ".toList ++ (c.projection.writeOut ++
        writeNames [c.computationName])))
    | .union rightInput =>
      " <= UNION (".toList ++ (c.input.writeOut ++ (", ".toList ++ (rightInput.writeOut ++
        writeNames [c.computationName])))
    | .applyFilter =>
      " <= FILTER (".toList ++ (c.input.writeOut ++ (", ".toList ++ (c.projection.writeOut ++
        writeNames [c.computationName])))
    | .applyAgg =>
      " <= AGGREGATE ( '".toList ++ (c.input.writeOut ++ writeNames [c.computationName])
    | .scanSet setSpecifier _ =>
      " <= SCAN ( '".toList ++ (setSpecifier.1 ++ ("'".toList ++
        writeNames [setSpecifier.2, c.computationName]))
    | .writeSet dbName setName =>
      " <= OUTPUT ( ".toList ++ (c.input.writeOut ++ writeNames [dbName, setName, c.computationName])
    | .applyJoin rightInput rightProjection =>
      " <= JOIN (".toList ++ (c.input.writeOut ++ (", ".toList ++ (c.projection.writeOut ++
        (", ".toList ++ (rightInput.writeOut ++ (", ".toList ++ (rightProjection.writeOut ++
          writeNames [c.computationName])))))))

def writeOutAll (plan : List AtomicComputation) : Text := (plan.map AtomicComputation.writeOut).flatten

end PlinyCompute.LogicalPlan
