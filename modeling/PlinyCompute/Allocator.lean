import PlinyCompute.ByteRange
import PlinyCompute.Transition

namespace PlinyCompute.Allocator

open ByteRange Transition

def HEADER_SIZE : ℕ := 20

def CHUNK_HEADER_SIZE : ℕ := 4

inductive AllocatorPolicy
  | defaultAllocator
  | noReuseAllocator
  | noReferenceCountAllocator
  deriving DecidableEq, Repr

/-- One allocation block. Addresses are offsets from its start, `chunkSize` is the number in front of the
chunk at an address, and `chunks` are the 32 lists of free chunks. -/
structure AllocatorState where
  numBytes : ℕ
  throwException : Bool
  policy : AllocatorPolicy
  chunks : ℕ → List ℕ
  lastUsed : ℕ
  refCount : ℕ
  chunkSize : ℕ → ℕ

inductive Answer
  | address (here : ℕ)
  | nullptr
  | notEnoughSpace
  deriving DecidableEq, Repr

inductive Stop
  | undefined
  | exit
  deriving DecidableEq, Repr

def bytesNeeded (howMuch : ℕ) : ℕ :=
  let needed := (CHUNK_HEADER_SIZE + howMuch) % 2 ^ 32
  if needed % 4 ≠ 0 then (needed + (4 - needed % 4)) % 2 ^ 32 else needed

def sizeClass (n : ℕ) : Except Stop ℕ := if n = 0 then .error .undefined else .ok n.log2

def takeChunk (size : ℕ → ℕ) (needed : ℕ) : List ℕ → Option (ℕ × List ℕ)
  | [] => none
  | c :: cs =>
    match takeChunk size needed cs with
    | some (d, rest) => some (d, c :: rest)
    | none => if needed ≤ size c then some (c, cs) else none

namespace AllocatorState

def search (s : AllocatorState) (needed : ℕ) : ℕ → ℕ → Option (ℕ × AllocatorState)
  | 0, _ => none
  | rounds + 1, i =>
    match takeChunk s.chunkSize needed (s.chunks i) with
    | some (c, rest) => some (c, { s with chunks := Function.update s.chunks i rest })
    | none => search s needed rounds (i + 1)

def countUp (s : AllocatorState) : AllocatorState := { s with refCount := (s.refCount + 1) % 2 ^ 32 }

def countDown (s : AllocatorState) : AllocatorState :=
  { s with refCount := if s.refCount = 0 then 2 ^ 32 - 1 else s.refCount - 1 }

def carve (s : AllocatorState) (needed : ℕ) : AllocatorState × Answer :=
  if s.lastUsed + needed > s.numBytes then (s, if s.throwException then .notEnoughSpace else .nullptr)
  else
    (countUp { s with
      lastUsed := s.lastUsed + needed
      chunkSize := Function.update s.chunkSize s.lastUsed needed }, .address (s.lastUsed + CHUNK_HEADER_SIZE))

def defaultGetRAM (howMuch : ℕ) (s : AllocatorState) : Except Stop (AllocatorState × Answer) := do
  let needed := bytesNeeded howMuch
  let i ← sizeClass needed
  match s.search needed (32 - i) i with
  | some (c, s) => .ok (s.countUp, .address (c + CHUNK_HEADER_SIZE))
  | none => .ok (s.carve needed)

def fastGetRAM (howMuch : ℕ) (s : AllocatorState) : Except Stop (AllocatorState × Answer) :=
  .ok (s.carve (bytesNeeded howMuch))

def defaultFreeRAM (isContained : Bool) (here : ℕ) (s : AllocatorState) : Except Stop AllocatorState :=
  if isContained then do
    let here := here - CHUNK_HEADER_SIZE
    let i ← sizeClass (s.chunkSize here)
    .ok (countDown { s with chunks := Function.update s.chunks i (s.chunks i ++ [here]) })
  else .ok s

def contains (s : AllocatorState) (here : ℕ) : Bool := here < s.numBytes

def getRAM (howMuch : ℕ) (s : AllocatorState) : Except Stop (AllocatorState × Answer) :=
  match s.policy with
  | .defaultAllocator => s.defaultGetRAM howMuch
  | .noReuseAllocator => s.fastGetRAM howMuch
  | .noReferenceCountAllocator => s.defaultGetRAM howMuch

def freeRAM (here : ℕ) (s : AllocatorState) : Except Stop AllocatorState :=
  match s.policy with
  | .noReferenceCountAllocator => .ok s
  | _ => s.defaultFreeRAM (s.contains here) here

def setPolicy (policy : AllocatorPolicy) (s : AllocatorState) : AllocatorState := { s with policy }

/-- What stands in the chunk headers of a new block is not read before it is written. -/
def setupBlock (numBytesIn : ℕ) (throwExceptionOnFail : Bool) (garbage : ℕ → ℕ) :
    Except Stop AllocatorState :=
  if numBytesIn < HEADER_SIZE then .error .exit
  else .ok ⟨numBytesIn, throwExceptionOnFail, .defaultAllocator, fun _ => [], HEADER_SIZE, 0, garbage⟩

def freeChunks (s : AllocatorState) : List ℕ := (List.range 32).flatMap s.chunks

theorem getRAM_of_noReuse {s : AllocatorState} {howMuch : ℕ} (h : s.policy = .noReuseAllocator) :
    s.getRAM howMuch = .ok (s.carve (bytesNeeded howMuch)) := by
  rw [getRAM, h]
  rfl

theorem getRAM_of_reuse {s : AllocatorState} {howMuch : ℕ} (h : s.policy ≠ .noReuseAllocator) :
    s.getRAM howMuch = s.defaultGetRAM howMuch := by
  unfold getRAM
  cases hpol : s.policy with
  | defaultAllocator => rfl
  | noReuseAllocator => exact absurd hpol h
  | noReferenceCountAllocator => rfl

theorem freeRAM_of_counted {s : AllocatorState} {here : ℕ} (h : s.policy ≠ .noReferenceCountAllocator) :
    s.freeRAM here = s.defaultFreeRAM (s.contains here) here := by
  unfold freeRAM
  cases hpol : s.policy with
  | defaultAllocator => rfl
  | noReuseAllocator => rfl
  | noReferenceCountAllocator => exact absurd hpol h

end AllocatorState

structure World where
  block : AllocatorState
  live : List ℕ

inductive Call
  | getRAM (howMuch : ℕ)
  | freeRAM (here : ℕ)
  | setPolicy (policy : AllocatorPolicy)
  deriving DecidableEq, Repr

def step (c : Call) (w : World) : Except Stop World :=
  match c with
  | .getRAM howMuch => do
    match ← w.block.getRAM howMuch with
    | (block, .address here) => .ok ⟨block, (here - CHUNK_HEADER_SIZE) :: w.live⟩
    | (block, _) => .ok { w with block }
  | .freeRAM here => do
    let block ← w.block.freeRAM here
    .ok ⟨block, w.live.erase (here - CHUNK_HEADER_SIZE)⟩
  | .setPolicy policy => .ok { w with block := w.block.setPolicy policy }

def Start (w : World) : Prop :=
  ∃ numBytesIn throwExceptionOnFail garbage,
    AllocatorState.setupBlock numBytesIn throwExceptionOnFail garbage = .ok w.block ∧ w.live = []

def Legal (c : Call) (w : World) : Prop :=
  match c with
  | .freeRAM here => ∃ chunk ∈ w.live, here = chunk + CHUNK_HEADER_SIZE
  | _ => True

structure World.Tiled (w : World) : Prop where
  apart : (w.live ++ w.block.freeChunks).Pairwise fun c d =>
    Apart c (w.block.chunkSize c) d (w.block.chunkSize d)
  headed : ∀ c ∈ w.live ++ w.block.freeChunks, CHUNK_HEADER_SIZE ≤ w.block.chunkSize c
  inside : ∀ c ∈ w.live ++ w.block.freeChunks,
    HEADER_SIZE ≤ c ∧ c + w.block.chunkSize c ≤ w.block.lastUsed
  covers : ∀ x, HEADER_SIZE ≤ x → x < w.block.lastUsed →
    ∃ c ∈ w.live ++ w.block.freeChunks, c ≤ x ∧ x < c + w.block.chunkSize c
  classed : ∀ i < 32, ∀ c ∈ w.block.chunks i, 2 ^ i ≤ w.block.chunkSize c ∧ w.block.chunkSize c < 2 ^ (i + 1)
  counted : w.block.refCount = w.live.length

def Proper (c : Call) (w : World) : Prop :=
  match c with
  | .getRAM howMuch => 4 ≤ (howMuch + 7) % 2 ^ 32 ∧ w.live.length + 1 < 2 ^ 32
  | .freeRAM here => w.block.policy ≠ .noReferenceCountAllocator ∧ w.block.contains here = true
  | .setPolicy _ => True

end PlinyCompute.Allocator
