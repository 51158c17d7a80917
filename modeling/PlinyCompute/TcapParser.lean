import PlinyCompute.ComputationTables
import PlinyCompute.TcapLexer

namespace PlinyCompute.Tcap

open LogicalPlan
open ComputationTables (AtomicComputationList)

abbrev Parser := StateT (List Token) Option

def token (t : Token) : Parser Unit
  | t' :: ts => if t' = t then some ((), ts) else none
  | [] => none

def string : Parser Text
  | .string s :: ts => some (s, ts)
  | _ => none

def attList : List Token → Option (List Text × List Token)
  | .char ',' :: .identifier a :: ts => (attList ts).map fun (atts, ts') => (a :: atts, ts')
  | .char ')' :: ts => some ([], ts)
  | _ => none

def tupleSpec : Parser TupleSpec
  | .identifier setName :: .char '(' :: .char ')' :: ts => some (⟨setName, []⟩, ts)
  | .identifier setName :: .char '(' :: .identifier a :: ts =>
    (attList ts).map fun (atts, ts') => (⟨setName, a :: atts⟩, ts')
  | _ => none

def listKeyValuePairs : KeyValueList → List Token → Option (KeyValueList × List Token)
  | kv, .char ',' :: .char '(' :: .string k :: .char ',' :: .string v :: .char ')' :: ts =>
    listKeyValuePairs (kv.appendkeyValuePair k v) ts
  | kv, .char ']' :: ts => some (kv, ts)
  | _, _ => none

def dictionarySpec : Parser KeyValueList
  | .char '[' :: .char ']' :: ts => some (.empty, ts)
  | .char '[' :: .char '(' :: .string k :: .char ',' :: .string v :: .char ')' :: ts =>
    listKeyValuePairs (KeyValueList.empty.appendkeyValuePair k v) ts
  | _ => none

def closing : Parser (Option KeyValueList)
  | .char ')' :: ts => some (none, ts)
  | .char ',' :: ts => do
    let (useMe, ts) ← dictionarySpec ts
    let (_, ts) ← token (.char ')') ts
    return (some useMe, ts)
  | _ => none

def makeComputation (output input projection : TupleSpec) (nodeName : Text) (kind : Kind)
    (useMe : Option KeyValueList) : AtomicComputation :=
  ⟨input, output, projection, nodeName, useMe.getD .empty, kind⟩

def makeApply (output input projection : TupleSpec) (nodeName opName : Text) :=
  makeComputation output input projection nodeName (.applyLambda opName)

def makeHashLeft (output input projection : TupleSpec) (nodeName opName : Text) :=
  makeComputation output input projection nodeName (.hashLeft opName)

def makeHashRight (output input projection : TupleSpec) (nodeName opName : Text) :=
  makeComputation output input projection nodeName (.hashRight opName)

def makeHashOne (output input projection : TupleSpec) (nodeName : Text) :=
  makeComputation output input projection nodeName .hashOne

def makeFlatten (output input projection : TupleSpec) (nodeName : Text) :=
  makeComputation output input projection nodeName .flatten

def makeFilter (output input projection : TupleSpec) (nodeName : Text) :=
  makeComputation output input projection nodeName .applyFilter

def makeAgg (output input : TupleSpec) (nodeName : Text) :=
  makeComputation output input input nodeName .applyAgg

def makeScan (output : TupleSpec) (dbName setName nodeName : Text) :=
  makeComputation output .empty .empty nodeName (.scanSet (dbName, setName) (0, []))

def makeOutput (output input : TupleSpec) (dbName setName nodeName : Text) :=
  makeComputation output input input nodeName (.writeSet dbName setName)

def makeJoin (output lInput lProjection rInput rProjection : TupleSpec) (opName : Text) :=
  makeComputation output lInput lProjection opName (.applyJoin rInput rProjection)

/-- The constructor with a dictionary keeps none of the attributes of the inputs. -/
def makeUnion (output leftInput rightInput : TupleSpec) (nodeName : Text) :
    Option KeyValueList → AtomicComputation
  | none => makeComputation output leftInput leftInput nodeName (.union rightInput) none
  | some useMe => makeComputation output leftInput .empty nodeName (.union rightInput) (some useMe)

def keyword : Parser Token
  | t :: ts => some (t, ts)
  | [] => none

def comma : Parser Unit := token (.char ',')

def atomicComputation : Parser AtomicComputation := do
  let output ← tupleSpec
  token .gets
  let t ← keyword
  token (.char '(')
  match t with
  | .apply => do
    let input ← tupleSpec
    comma
    let projection ← tupleSpec
    comma
    let nodeName ← string
    comma
    let opName ← string
    return makeApply output input projection nodeName opName (← closing)
  | .agg => do
    let input ← tupleSpec
    comma
    let nodeName ← string
    return makeAgg output input nodeName (← closing)
  | .scan => do
    let dbName ← string
    comma
    let setName ← string
    comma
    let nodeName ← string
    return makeScan output dbName setName nodeName (← closing)
  | .output => do
    let input ← tupleSpec
    comma
    let dbName ← string
    comma
    let setName ← string
    comma
    let nodeName ← string
    return makeOutput output input dbName setName nodeName (← closing)
  | .join => do
    let lInput ← tupleSpec
    comma
    let lProjection ← tupleSpec
    comma
    let rInput ← tupleSpec
    comma
    let rProjection ← tupleSpec
    comma
    let opName ← string
    return makeJoin output lInput lProjection rInput rProjection opName (← closing)
  | .filter => do
    let input ← tupleSpec
    comma
    let projection ← tupleSpec
    comma
    let nodeName ← string
    return makeFilter output input projection nodeName (← closing)
  | .hashLeft => do
    let input ← tupleSpec
    comma
    let projection ← tupleSpec
    comma
    let nodeName ← string
    comma
    let opName ← string
    return makeHashLeft output input projection nodeName opName (← closing)
  | .hashRight => do
    let input ← tupleSpec
    comma
    let projection ← tupleSpec
    comma
    let nodeName ← string
    comma
    let opName ← string
    return makeHashRight output input projection nodeName opName (← closing)
  | .hashOne => do
    let input ← tupleSpec
    comma
    let projection ← tupleSpec
    comma
    let nodeName ← string
    return makeHashOne output input projection nodeName (← closing)
  | .flatten => do
    let input ← tupleSpec
    comma
    let projection ← tupleSpec
    comma
    let nodeName ← string
    return makeFlatten output input projection nodeName (← closing)
  | .union => do
    let leftInput ← tupleSpec
    comma
    let rightInput ← tupleSpec
    comma
    let nodeName ← string
    return makeUnion output leftInput rightInput nodeName (← closing)
  | _ => failure

def makeAtomicComputationList (fromMe : AtomicComputation) : AtomicComputationList :=
  AtomicComputationList.empty.addAtomicComputation fromMe

def pushBackAtomicComputation (input : AtomicComputationList) (addMe : AtomicComputation) : AtomicComputationList :=
  input.addAtomicComputation addMe

/-- The rule is left recursive, so each computation is added to the plan as it has been read. -/
def atomicComputationList : ℕ → AtomicComputationList → List Token → Option AtomicComputationList
  | _, input, [] => some input
  | 0, _, _ => none
  | n + 1, input, ts => do
    let (addMe, rest) ← atomicComputation ts
    atomicComputationList n (pushBackAtomicComputation input addMe) rest

def yyparse (ts : List Token) : Option AtomicComputationList := do
  let (fromMe, rest) ← atomicComputation ts
  atomicComputationList rest.length (makeAtomicComputationList fromMe) rest

def parse (text : Text) : Option AtomicComputationList := yyparse (yylex text)

end PlinyCompute.Tcap
