import PlinyCompute.TupleSets

namespace PlinyCompute.Executors

open Transition TupleSets TupleSetSetupMachine
open PdbString (toInt)

variable {α β : Type}

def flag? : Cell α β → Option Bool
  | .flag b => some b
  | _ => none

def vector? : Cell α β → Option (List α)
  | .vector elements => some elements
  | _ => none

def whichAttOf (inputSchema attsToOperateOn : List String) : Except Stop ℕ :=
  match (matchAtts inputSchema attsToOperateOn)[0]? with
  | none => .error .undefined
  | some whichAtt => .ok whichAtt

structure HashOneExecutor (α β : Type) where
  output : TupleSet α β
  whichAtt : ℕ
  outAtt : ℕ
  myMachine : TupleSetSetupMachine

namespace HashOneExecutor

def create (inputSchema attsToOperateOn attsToIncludeInOutput : List String) :
    Except Stop (HashOneExecutor α β) := do
  let whichAtt ← whichAttOf inputSchema attsToOperateOn
  return ⟨.empty, whichAtt, attsToIncludeInOutput.length, .ofSchema inputSchema attsToIncludeInOutput⟩

/-- `whichAtt` is a position in the input schema, but the rows are counted in the output. -/
def process (e : HashOneExecutor α β) (input : TupleSet α β) :
    Except Stop (HashOneExecutor α β × TupleSet α β) := do
  let output ← e.myMachine.setup input e.output
  let output := if output.hasColumn e.outAtt then output else output.addColumn e.outAtt ⟨.hash 0, []⟩
  let outColumn ← output.entry e.outAtt
  let numRows := output.getNumRows e.whichAtt
  let outColumn ← outColumn.resize numRows
  let rows := (List.range numRows.toNat).foldl (fun rows i => rows.set i (.hash 1)) outColumn.rows
  let output := output.put e.outAtt { outColumn with rows := rows }
  return ({ e with output := output }, output)

end HashOneExecutor

structure FilterExecutor (α β : Type) where
  output : TupleSet α β
  whichAtt : ℕ
  myMachine : TupleSetSetupMachine

namespace FilterExecutor

def create (inputSchema attsToOperateOn attsToIncludeInOutput : List String) :
    Except Stop (FilterExecutor α β) := do
  let whichAtt ← whichAttOf inputSchema attsToOperateOn
  return ⟨.empty, whichAtt, .ofSchema inputSchema attsToIncludeInOutput⟩

def process (e : FilterExecutor α β) (input : TupleSet α β) :
    Except Stop (FilterExecutor α β × TupleSet α β) := do
  let output ← e.myMachine.setup input e.output
  let inputColumn ← input.getColumn flag? e.whichAtt
  let output ← (List.range output.getNumColumns).foldlM (fun output i => output.filterColumn i inputColumn) output
  return ({ e with output := output }, output)

end FilterExecutor

structure FlattenExecutor (α β : Type) where
  output : TupleSet α β
  whichAtt : ℕ
  outAtt : ℕ
  myMachine : TupleSetSetupMachine
  counts : List ℕ

namespace FlattenExecutor

def create (inputSchema attsToOperateOn attsToIncludeInOutput : List String) :
    Except Stop (FlattenExecutor α β) := do
  let whichAtt ← whichAttOf inputSchema attsToOperateOn
  return ⟨.empty, whichAtt, attsToIncludeInOutput.length, .ofSchema inputSchema attsToIncludeInOutput, []⟩

/-- The counts are a member that is kept from one call to the next. -/
def recount (counts : List ℕ) (inputVecData : List (List α)) : List ℕ :=
  (List.range inputVecData.length).foldl (fun counts i => counts.set i ((inputVecData.getD i []).length % 2 ^ 32))
    (if counts.length = inputVecData.length then counts
      else counts.take inputVecData.length ++ List.replicate (inputVecData.length - counts.length) 0)

def countFlattened (inputVecData : List (List α)) : Except Stop ℤ :=
  inputVecData.foldlM (fun numFlattenedRows myVec => addInt numFlattenedRows (toInt myVec.length)) 0

def copyElements : List (List α) → ℕ → List (Cell α β) → Except Stop (List (Cell α β))
  | [], _, rows => .ok rows
  | myVec :: inputVecData, overallCounter, rows => do
    let rows ← writeAll (myVec.map .object) overallCounter rows
    copyElements inputVecData (overallCounter + myVec.length) rows

def process [Inhabited α] (e : FlattenExecutor α β) (input : TupleSet α β) :
    Except Stop (FlattenExecutor α β × TupleSet α β) := do
  let inputVecData ← input.getColumn vector? e.whichAtt
  countInt inputVecData.length
  let counts := recount e.counts inputVecData
  let numFlattenedRows ← countFlattened inputVecData
  let output ← e.myMachine.replicate input e.output counts 0
  let output := if output.hasColumn e.outAtt then output else output.addColumn e.outAtt ⟨.object default, []⟩
  let outColumn ← output.entry e.outAtt
  let outColumn ← outColumn.resize numFlattenedRows
  let rows ← copyElements inputVecData 0 outColumn.rows
  let output := output.put e.outAtt { outColumn with rows := rows }
  return ({ e with output := output, counts := counts }, output)

end FlattenExecutor

inductive Kind
  | hashOne
  | filter
  | flatten
  deriving DecidableEq

inductive Executor (α β : Type)
  | hashOne (e : HashOneExecutor α β)
  | filter (e : FilterExecutor α β)
  | flatten (e : FlattenExecutor α β)

def Executor.create (kind : Kind) (inputSchema attsToOperateOn attsToIncludeInOutput : List String) :
    Except Stop (Executor α β) :=
  match kind with
  | .hashOne => do return .hashOne (← HashOneExecutor.create inputSchema attsToOperateOn attsToIncludeInOutput)
  | .filter => do return .filter (← FilterExecutor.create inputSchema attsToOperateOn attsToIncludeInOutput)
  | .flatten => do return .flatten (← FlattenExecutor.create inputSchema attsToOperateOn attsToIncludeInOutput)

def Executor.process [Inhabited α] (input : TupleSet α β) :
    Executor α β → Except Stop (Executor α β × TupleSet α β)
  | .hashOne e => do
    let (e, output) ← e.process input
    return (.hashOne e, output)
  | .filter e => do
    let (e, output) ← e.process input
    return (.filter e, output)
  | .flatten e => do
    let (e, output) ← e.process input
    return (.flatten e, output)

abbrev Row (α β : Type) := List (Cell α β)

def columnOf (rows : List (Row α β)) (j : ℕ) : List (Cell α β) := rows.filterMap fun row => row[j]?

structure Holds (t : TupleSet α β) (width : ℕ) (rows : List (Row α β)) : Prop where
  wide : ∀ row ∈ rows, row.length = width
  front : ∀ j < width, (t.column j).map Column.rows = some (columnOf rows j)
  rest : ∀ j, width ≤ j → t.column j = none

structure Selection (schema : List String) where
  operated : String
  others : List String
  projected : List String
  operated_mem : operated ∈ schema
  projected_mem : ∀ att ∈ projected, att ∈ schema

namespace Selection

variable {schema : List String}

def project (s : Selection schema) (row : Row α β) : Row α β :=
  s.projected.filterMap fun att => row[schema.idxOf att]?

def operatedCell (s : Selection schema) (row : Row α β) : Option (Cell α β) := row[schema.idxOf s.operated]?

def flagged (s : Selection schema) (row : Row α β) : Bool := ((s.operatedCell row).bind flag?).getD false

def elements (s : Selection schema) (row : Row α β) : List α := ((s.operatedCell row).bind vector?).getD []

end Selection

namespace Kind

variable {schema : List String}

def width (kind : Kind) (s : Selection schema) : ℕ :=
  match kind with
  | .hashOne => s.projected.length + 1
  | .filter => s.projected.length
  | .flatten => s.projected.length + 1

def outputRows (kind : Kind) (s : Selection schema) (rows : List (Row α β)) : List (Row α β) :=
  match kind with
  | .hashOne => rows.map fun row => s.project row ++ [.hash 1]
  | .filter => (rows.filter s.flagged).map s.project
  | .flatten => rows.flatMap fun row => (s.elements row).map fun x => s.project row ++ [.object x]

def Operates (kind : Kind) (s : Selection schema) (row : Row α β) : Prop :=
  match kind with
  | .hashOne => True
  | .filter => ∃ b, s.operatedCell row = some (.flag b)
  | .flatten => ∃ elements, s.operatedCell row = some (.vector elements)

end Kind

structure Input (kind : Kind) {schema : List String} (s : Selection schema) (α β : Type) where
  tuples : TupleSet α β
  rows : List (Row α β)
  holds : Holds tuples schema.length rows
  operates : ∀ row ∈ rows, kind.Operates s row

def Implements [Inhabited α] (kind : Kind) {schema : List String} (s : Selection schema)
    (inputs : List (Input kind s α β)) : Prop :=
  ∃ e, Executor.create kind schema (s.operated :: s.others) s.projected = .ok e ∧
    Meets (fun (input : Input kind s α β) (e : Executor α β) => e.process input.tuples)
      (fun input output => Holds output (kind.width s) (kind.outputRows s input.rows)) inputs e

def Input.Within {kind : Kind} {schema : List String} {s : Selection schema} (input : Input kind s α β) : Prop :=
  match kind with
  | .hashOne =>
    schema.idxOf s.operated < s.projected.length ∧ input.rows.length < 2 ^ 31 ∨
      schema.idxOf s.operated = s.projected.length ∧ input.rows = []
  | .filter => s.projected = [] ∨ input.rows.length < 2 ^ 31
  | .flatten => input.rows.length < 2 ^ 31 ∧ (input.rows.map fun row => (s.elements row).length).sum < 2 ^ 31

end PlinyCompute.Executors
