import Mathlib

namespace PlinyCompute.SizePolicy

structure PipelineStats where
  initialFree : ℕ := 0
  finalFree : ℕ := 0
  numAdditionalPages : ℕ := 0
  succeeded : Bool := true
  deriving DecidableEq, Repr

structure WriteStats where
  initialFree : ℕ := 0
  finalFree : ℕ := 0
  numAdditionalPages : ℕ := 0
  deriving DecidableEq, Repr

/-- The `int32_t` fields are integers, the `uint64_t` ones naturals below `2 ^ 64`. -/
structure PDBTupleSetSizePolicy where
  chunkSize : ℤ := 50
  maxChunkSize : ℤ := 100
  lastChunkSizeForWrite : ℤ := -1
  lastFullySuccessfulSize : ℤ := -1
  pipelineRetry : ℤ := 3
  pipeline : PipelineStats := {}
  writeStats : WriteStats := {}
  lastIncremented : Bool := false
  allowIncrements : Bool := true
  tryToMakePipelineSucceed : Bool := true
  pageSize : ℕ
  deriving DecidableEq, Repr

namespace PDBTupleSetSizePolicy

def inputWasProcessed (p : PDBTupleSetSizePolicy) : Bool := p.pipeline.succeeded

def getChunksSize (p : PDBTupleSetSizePolicy) : ℕ := p.chunkSize.toNat

/-- `none` is the `runtime_error` thrown when the chunk size is already one. -/
def pipelineFailed (p : PDBTupleSetSizePolicy) : Option PDBTupleSetSizePolicy :=
  if p.chunkSize = 1 then none
  else some { p with
    chunkSize := p.chunkSize.tdiv 2
    pipeline := { initialFree := 0, finalFree := 0, numAdditionalPages := 0, succeeded := false }
    allowIncrements := if p.lastIncremented then false else p.allowIncrements }

def pipelineSucceeded (p : PDBTupleSetSizePolicy) (additionalPagesUsed initialFree finalFree : ℕ) :
    PDBTupleSetSizePolicy :=
  { p with pipeline := ⟨initialFree, finalFree, additionalPagesUsed, true⟩ }

def percentage (initialFree finalFree pageSize : ℕ) : ℕ :=
  (((initialFree + 2 ^ 64 - finalFree) % 2 ^ 64) * 100) % 2 ^ 64 / pageSize

def adjust (p : PDBTupleSetSizePolicy) (additionalPages : ℕ) : PDBTupleSetSizePolicy :=
  if p.allowIncrements ∧ p.pipeline.succeeded ∧ p.pipeline.numAdditionalPages = 0 ∧ additionalPages = 0 then
    let size := if percentage p.pipeline.initialFree p.writeStats.finalFree p.pageSize < 20
      then min (p.chunkSize * 3) p.maxChunkSize else p.chunkSize
    { p with
      chunkSize := size
      lastFullySuccessfulSize := max p.lastFullySuccessfulSize size
      lastIncremented := true
      pipelineRetry := 3 }
  else if p.tryToMakePipelineSucceed ∧ p.pipeline.numAdditionalPages ≠ 0 ∧ p.pipeline.succeeded ∧
      p.chunkSize ≠ 1 then
    { p with
      lastChunkSizeForWrite := if p.lastChunkSizeForWrite = -1 then p.chunkSize else p.lastChunkSizeForWrite
      allowIncrements := false
      chunkSize := p.chunkSize.tdiv 2 }
  else if p.lastIncremented ∧ ¬ p.tryToMakePipelineSucceed ∧ p.pipeline.numAdditionalPages ≠ 0 ∧
      p.pipeline.succeeded then
    { p with chunkSize := p.lastFullySuccessfulSize, allowIncrements := false }
  else if p.pipeline.numAdditionalPages ≠ 0 ∧ p.pipelineRetry = 0 then
    { p with tryToMakePipelineSucceed := true, pipelineRetry := 3 }
  else if p.pipeline.numAdditionalPages ≠ 0 then { p with pipelineRetry := p.pipelineRetry - 1 }
  else p

def writeToPageSucceeded (p : PDBTupleSetSizePolicy) (additionalPages initialFree finalFree : ℕ) :
    PDBTupleSetSizePolicy :=
  let p := { p with writeStats := ⟨initialFree, finalFree, additionalPages⟩ }
  let p := if p.pipeline.succeeded ∧ p.pipeline.numAdditionalPages = 0 ∧ additionalPages = 0
    then { p with tryToMakePipelineSucceed := false } else p
  { adjust p additionalPages with lastIncremented := false }

end PDBTupleSetSizePolicy

end PlinyCompute.SizePolicy
