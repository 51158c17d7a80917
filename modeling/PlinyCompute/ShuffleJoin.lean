import PlinyCompute.KWayMerge
import PlinyCompute.PdbJoinMap
import PlinyCompute.SizePolicy

namespace PlinyCompute.ShuffleJoin

open KWayMerge PdbJoinMap SizePolicy

variable {V L R : Type}

/-- `undefined` is a call to `getHash` of an iterator that is done, to `top` of an empty queue, or a use of
`end ()` of a map of columns; `unfinished` means that no more requests come before the source is used up. -/
inductive Stop
  | undefined
  | unfinished
  deriving DecidableEq, Repr

abbrev Group (V : Type) := ℕ × List V

abbrev JoinMapIterator (V : Type) := List (Group V)

abbrev Queue (V : Type) := MinQueue (Prod.fst : Group V → ℕ)

def size (m : JoinMap V) : ℕ := m.myArray.usedSlots

/-- The maps that the left side puts into its queue: `size` counts the slots that `setUnused` has freed. -/
def counted (maps : List (JoinMap V)) : List (JoinMap V) := maps.filter fun m => size m ≠ 0

def begin (m : JoinMap V) : JoinMapIterator V := m.myArray.groups

def advance (q : Queue V) (iterators : List (JoinMapIterator V)) :
    Except Stop (Group V × List (JoinMapIterator V)) :=
  match q.advance iterators with
  | none => .error .undefined
  | some r => .ok r

def topHash (q : Queue V) (iterators : List (JoinMapIterator V)) : Except Stop ℕ :=
  (advance q iterators).map fun r => r.1.1

def push (iterators : List (JoinMapIterator V)) (it : JoinMapIterator V) :
    Except Stop (List (JoinMapIterator V)) :=
  if iterators ≠ [] ∧ (it.isEmpty ∨ iterators.any List.isEmpty) then .error .undefined else .ok (it :: iterators)

structure RHSTupleSet (R : Type) where
  output : List R
  hashColumn : List ℕ
  counts : List (ℕ × ℕ)
  deriving DecidableEq, Repr

def RHSTupleSet.empty : RHSTupleSet R := ⟨[], [], []⟩

def addCount (counts : List (ℕ × ℕ)) (hash number : ℕ) : List (ℕ × ℕ) :=
  match counts.getLast? with
  | none => counts ++ [(hash, number)]
  | some last =>
    if last.1 ≠ hash then counts ++ [(hash, number)]
    else counts.dropLast ++ [(hash, last.2 + number)]

def RHSTupleSet.add (t : RHSTupleSet R) (currentRecords : Group R) : RHSTupleSet R where
  output := t.output ++ currentRecords.2
  hashColumn := t.hashColumn ++ currentRecords.2.map fun _ => currentRecords.1
  counts := addCount t.counts currentRecords.1 currentRecords.2.length

structure RHSShuffleJoinSource (R : Type) where
  pageIterators : List (JoinMapIterator R)
  chunkSize : ℕ
  deriving DecidableEq, Repr

namespace RHSShuffleJoinSource

def ofPages (maps : List (JoinMap R)) (chunkSize : ℕ) : RHSShuffleJoinSource R :=
  ⟨((maps.map begin).filter (· ≠ [])).reverse, chunkSize⟩

def isFull (q : Queue R) (chunkSize hash : ℕ) (t : RHSTupleSet R)
    (pageIterators : List (JoinMapIterator R)) : Except Stop Bool :=
  if pageIterators = [] ∨ t.output.length ≤ chunkSize then .ok false
  else (topHash q pageIterators).map (· ≠ hash)

def fill (q : Queue R) (chunkSize : ℕ) : ℕ → RHSTupleSet R → List (JoinMapIterator R) →
    Except Stop (RHSTupleSet R × List (JoinMapIterator R))
  | 0, t, pageIterators => .ok (t, pageIterators)
  | rounds + 1, t, pageIterators =>
    if pageIterators = [] then .ok (t, pageIterators)
    else do
      let (group, pageIterators) ← advance q pageIterators
      let t := t.add group
      if ← isFull q chunkSize group.1 t pageIterators then .ok (t, pageIterators)
      else fill q chunkSize rounds t pageIterators

def getNextTupleSet (q : Queue R) (s : RHSShuffleJoinSource R) :
    Except Stop (RHSShuffleJoinSource R × Option (RHSTupleSet R)) :=
  if s.pageIterators = [] then .ok (s, none)
  else do
    let (t, pageIterators) ← fill q s.chunkSize s.pageIterators.flatten.length .empty s.pageIterators
    .ok ({ s with pageIterators }, some t)

end RHSShuffleJoinSource

section Match

variable (q : Queue L) (rhsHash : ℕ)

/-- The first `do` loop. The current iterator and its hash are those of the last round also when the queue
has run out. -/
def seek : ℕ → Group L → List (JoinMapIterator L) → Except Stop (Group L × List (JoinMapIterator L))
  | 0, current, lhsIterators => .ok (current, lhsIterators)
  | rounds + 1, current, lhsIterators =>
    if lhsIterators = [] then .ok (current, lhsIterators)
    else do
      let (group, next) ← advance q lhsIterators
      if rhsHash < group.1 then .ok (group, lhsIterators)
      else if group.1 < rhsHash then seek rounds group next
      else .ok (group, next)

/-- The second `do` loop. Its `continue` evaluates the condition, which looks at the top of the queue that
was just popped. -/
def gather : ℕ → List (List L) → List (JoinMapIterator L) →
    Except Stop (List (List L) × List (JoinMapIterator L))
  | 0, currIterators, lhsIterators => .ok (currIterators, lhsIterators)
  | rounds + 1, currIterators, lhsIterators =>
    if lhsIterators = [] then .ok (currIterators, lhsIterators)
    else do
      let (group, next) ← advance q lhsIterators
      if group.1 = rhsHash then
        if (← topHash q next) = rhsHash then gather rounds (currIterators ++ [group.2]) next
        else .ok (currIterators ++ [group.2], next)
      else .ok (currIterators, lhsIterators)

def matchHash (lhsIterators : List (JoinMapIterator L)) :
    Except Stop (List (List L) × List (JoinMapIterator L)) :=
  if lhsIterators = [] then .ok ([], lhsIterators)
  else do
    if rhsHash < (← topHash q lhsIterators) then .ok ([], lhsIterators)
    else
      let (current, lhsIterators) ← seek q rhsHash lhsIterators.flatten.length (0, []) lhsIterators
      if rhsHash < current.1 then .ok ([], lhsIterators)
      else gather q rhsHash lhsIterators.flatten.length [current.2] lhsIterators

end Match

def joinHashes (q : Queue L) : List (ℕ × ℕ) → List (JoinMapIterator L) →
    Except Stop (List L × List ℕ × List (JoinMapIterator L))
  | [], lhsIterators => .ok ([], [], lhsIterators)
  | (rhsHash, rhsCount) :: hashes, lhsIterators => do
    let (currIterators, lhsIterators) ← matchHash q rhsHash lhsIterators
    let (column, counts, lhsIterators) ← joinHashes q hashes lhsIterators
    .ok ((List.replicate rhsCount currIterators.flatten).flatten ++ column,
      List.replicate rhsCount (currIterators.map List.length).sum ++ counts, lhsIterators)

def replicate (replicateMe : List R) (timesToReplicate : List ℕ) : List R :=
  (List.zipWith (fun r n => List.replicate n r) replicateMe timesToReplicate).flatten

/-- A tuple set is the list of its rows. The buffer has no columns until a tuple set was split into it. -/
structure JoinedShuffleJoinSource (L R : Type) where
  output : List (L × R)
  outputSize : ℕ
  buffer : Option (List (L × R))
  bufferSize : ℕ
  rhsSource : RHSShuffleJoinSource R
  lhsIterators : List (JoinMapIterator L)
  deriving DecidableEq, Repr

namespace JoinedShuffleJoinSource

def ofPages (lhsMaps : List (JoinMap L)) (rhsSource : RHSShuffleJoinSource R) :
    Except Stop (JoinedShuffleJoinSource L R) := do
  let lhsIterators ← ((counted lhsMaps).map begin).foldlM push []
  .ok ⟨[], 0, none, 0, rhsSource, lhsIterators⟩

/-- `TupleSet::merge` takes the number of a column that the buffer does not have from `end ()`. -/
def requeue (s : JoinedShuffleJoinSource L R) (policy : PDBTupleSetSizePolicy) :
    Except Stop (JoinedShuffleJoinSource L R) :=
  if policy.inputWasProcessed then .ok s
  else
    match s.buffer with
    | none => .error .undefined
    | some buffer =>
      .ok { s with
        buffer := some (buffer ++ s.output), output := []
        bufferSize := s.bufferSize + s.outputSize, outputSize := 0 }

def fromBuffer (s : JoinedShuffleJoinSource L R) (chunkSize : ℕ) : JoinedShuffleJoinSource L R :=
  let outputSize := min s.bufferSize chunkSize
  let position := s.bufferSize - outputSize
  { s with
    outputSize, bufferSize := s.bufferSize - outputSize
    output := (s.buffer.getD []).drop position, buffer := s.buffer.map (·.take position) }

def splitOutput (s : JoinedShuffleJoinSource L R) (chunkSize : ℕ) : JoinedShuffleJoinSource L R :=
  if s.outputSize > chunkSize then
    { s with
      output := s.output.take chunkSize, buffer := some (s.output.drop chunkSize)
      bufferSize := s.outputSize - chunkSize, outputSize := chunkSize }
  else s

def join (ql : Queue L) (s : JoinedShuffleJoinSource L R) (rhsTuple : RHSTupleSet R) (chunkSize : ℕ) :
    Except Stop (JoinedShuffleJoinSource L R) := do
  let (column, counts, lhsIterators) ← joinHashes ql rhsTuple.counts s.lhsIterators
  .ok ({ s with
    output := column.zip (replicate rhsTuple.output counts)
    outputSize := column.length, lhsIterators }.splitOutput chunkSize)

def getNextTupleSet (ql : Queue L) (qr : Queue R) (s : JoinedShuffleJoinSource L R)
    (policy : PDBTupleSetSizePolicy) : Except Stop (JoinedShuffleJoinSource L R × Option (List (L × R))) := do
  let s ← s.requeue policy
  if s.bufferSize ≠ 0 then
    let s := s.fromBuffer policy.getChunksSize
    .ok (s, some s.output)
  else
    let (rhsSource, rhsTuple) ← s.rhsSource.getNextTupleSet qr
    match rhsTuple with
    | none => .ok (s, none)
    | some rhsTuple =>
      let s ← { s with rhsSource }.join ql rhsTuple policy.getChunksSize
      .ok (s, some s.output)

def delivered (ql : Queue L) (qr : Queue R) (s : JoinedShuffleJoinSource L R) :
    List PDBTupleSetSizePolicy → Except Stop (List (L × R))
  | [] => .error .unfinished
  | policy :: policies => do
    match ← s.getNextTupleSet ql qr policy with
    | (_, none) => .ok []
    | (s, some rows) =>
      let rest ← s.delivered ql qr policies
      .ok (if policies.head?.all PDBTupleSetSizePolicy.inputWasProcessed then rows ++ rest else rest)

end JoinedShuffleJoinSource

def shuffleJoin (ql : Queue L) (qr : Queue R) (lhs : List (JoinMap L)) (rhs : List (JoinMap R))
    (chunkSize : ℕ) (policies : List PDBTupleSetSizePolicy) : Except Stop (List (L × R)) := do
  let s ← JoinedShuffleJoinSource.ofPages lhs (.ofPages rhs chunkSize)
  s.delivered ql qr policies

end PlinyCompute.ShuffleJoin
