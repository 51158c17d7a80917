import Mathlib.Algebra.Order.Ring.Int
import PlinyCompute.CountedHeap
import PlinyCompute.Transition

namespace PlinyCompute.PdbString

open Transition CountedHeap

abbrev Chars := List UInt8

inductive Fault
  -- an access outside of the characters that there are
  | outOfBounds
  -- a handle is followed that does not lead to an array
  | dangling
  deriving DecidableEq

/-- The offset of the handle: eight bytes of its own, or the way to an array. -/
inductive Storage
  | bytes (b : Chars)
  | target (o : ℕ)
  deriving DecidableEq

structure Str where
  storage : Storage
  info : ℤ
  deriving DecidableEq

def null : Storage := .bytes (List.replicate 8 0xFF)

def toInt (n : ℕ) : ℤ := Int.bmod n (2 ^ 32)

/-- `CAN_FIT_IN_DATA`, where a negative length is a large `size_t`. -/
def canFit (len : ℤ) : Bool := 0 ≤ len ∧ len ≤ 8

section Hash

-- the bits of an int that is shifted by all of its 32 bits, which the language leaves open
variable (shl32 : UInt32 → UInt32)

def newHash (x : UInt32) : UInt32 :=
  let x := ((x >>> 16) ^^^ x) * 0x45d9f3b
  let x := ((x >>> 16) ^^^ x) * 0x45d9f3b
  (x >>> 16) ^^^ x

def low (me : Chars) (i : ℕ) : UInt32 :=
  (List.range 4).foldl
    (fun low j => low + ((me[i + j]?.map UInt8.toUInt32).getD 123 <<< UInt32.ofNat (8 * j))) 0

def shiftHigh (x : UInt32) (j : ℕ) : UInt32 := if j = 7 then shl32 x else x <<< UInt32.ofNat (8 * (j - 3))

def high (me : Chars) (i : ℕ) : UInt32 :=
  if me.length ≤ 4 then low me i
  else ([4, 5, 6, 7].foldl fun high j => high + shiftHigh shl32 ((me[i + j]?.map UInt8.toUInt32).getD 97) j) 0

/-- The index is an `int`; one that has run past the end stops the loop, whatever it wraps to. -/
def hashMe (me : Chars) : UInt64 :=
  (List.range ((me.length + 7) / 8)).foldl
    (fun code round =>
      code ^^^ (((newHash (high shl32 me (8 * round))).toUInt64 <<< 32) + (newHash (low me (8 * round))).toUInt64)) 0

end Hash

def region (x : Str) (h : Heap Chars) : Except Fault Chars :=
  match x.storage with
  | .bytes b => if 0 ≤ x.info then .ok b else .error .dangling
  | .target o =>
    if 0 ≤ x.info then .error .outOfBounds
    else match h.get o with
      | some c => .ok c.value
      | none => .error .dangling

def cStr (x : Str) (h : Heap Chars) : Except Fault Chars := do
  let chars ← region x h
  if 0 ∈ chars then .ok (chars.takeWhile (· ≠ 0)) else .error .outOfBounds

def size (x : Str) : ℤ := if 0 ≤ x.info then x.info else -x.info

def hash (shl32 : UInt32 → UInt32) (x : Str) (h : Heap Chars) : Except Fault UInt64 := do
  let chars ← region x h
  let len := size x - 1
  if 0 ≤ len ∧ len ≤ chars.length then .ok (hashMe shl32 (chars.take len.toNat)) else .error .outOfBounds

def equal (x y : Str) (h : Heap Chars) : Except Fault Bool := do
  let s ← cStr x h
  let t ← cStr y h
  return s = t

def letGo (x : Str) (h : Heap Chars) : Except Fault (Heap Chars) :=
  if 0 ≤ x.info then .ok h
  else match x.storage with
    | .bytes _ => .error .dangling
    | .target o => match h.release o with
      | some h => .ok h
      | none => .error .dangling

/-- A new array has `len` characters. For a negative `len` it would have nearly as many as there are numbers of type
`size_t`, and `memmove` the same. -/
def makeRoom (len : ℤ) (x : Str) (h : Heap Chars) : Except Fault (Heap Chars × Str) :=
  if canFit len then do
    let h' ← letGo x h
    return (h', ⟨if 0 ≤ x.info then x.storage else null, len⟩)
  else if len < 0 then .error .outOfBounds
  else do
    let o := h.cells.length
    let h' ← letGo x (h.alloc (List.replicate len.toNat 0))
    return (h', ⟨.target o, -len⟩)

def moveIn (chars : Chars) (x : Str) (h : Heap Chars) : Except Fault (Heap Chars × Str) := do
  let old ← region x h
  if old.length < chars.length then .error .outOfBounds
  else
    let new := chars ++ old.drop chars.length
    match x.storage with
    | .bytes _ => .ok (h, ⟨.bytes new, x.info⟩)
    | .target o => match h.write o new with
      | some h => .ok (h, x)
      | none => .error .dangling

/-- The constructors and assignments from a `const char*` and from a `std::string`, whose characters have a zero behind
them. A constructor finds bytes that nobody has set. -/
def ofChars (s : Chars) (x : Str) (h : Heap Chars) : Except Fault (Heap Chars × Str) := do
  let len := toInt (s.length + 1)
  let (h, x) ← makeRoom len x h
  moveIn ((s ++ [0]).take len.toNat) x h

def ofSized (s : Chars) (x : Str) (h : Heap Chars) : Except Fault (Heap Chars × Str) := do
  let len := toInt (s.length + 1)
  let (h, x) ← makeRoom len x h
  if len = 0 then .error .outOfBounds
  else moveIn (s.take (len.toNat - 1) ++ [0]) x h

/-- `data () = s.data ()`, with or without a deep copy, which has as many characters as the type info says. -/
def target (deep : Bool) (s : Str) (h : Heap Chars) : Except Fault (Heap Chars × ℕ) :=
  match s.storage with
  | .bytes _ => .error .dangling
  | .target o =>
    match h.get o with
    | none => .error .dangling
    | some c =>
      if deep then .ok (h.alloc (c.value.take (-s.info).toNat), h.cells.length)
      else match h.retain o with
        | some h => .ok (h, o)
        | none => .error .dangling

def ofString (deep : Bool) (s x : Str) (h : Heap Chars) : Except Fault (Heap Chars × Str) :=
  if 0 ≤ s.info then do
    let h ← letGo x h
    return (h, s)
  else do
    let (h, o) ← target deep s h
    let h ← letGo x h
    return (h, ⟨.target o, s.info⟩)

def ofNothing (h : Heap Chars) : Except Fault (Heap Chars × Str) := moveIn [0] ⟨null, 1⟩ h

def destroy (x : Str) (h : Heap Chars) : Except Fault (Heap Chars) := if x.info < -1 then letGo x h else .ok h

structure World where
  heap : Heap Chars
  strings : List (Option Str)

/-- A constructor finds some bytes in the storage; a copy is deep where the blocks of the two strings require it. -/
inductive Call
  | constructEmpty
  | construct (raw s : Chars)
  | constructSized (raw s : Chars)
  | copy (raw : Chars) (source : ℕ) (deep : Bool)
  | assign (dest : ℕ) (s : Chars)
  | assignString (dest source : ℕ) (deep : Bool)
  | destroy (dest : ℕ)

namespace World

def read (w : World) (i : ℕ) : Except Fault Str :=
  match (w.strings[i]?).join with
  | some x => .ok x
  | none => .error .dangling

def push (w : World) (f : Heap Chars → Except Fault (Heap Chars × Str)) : Except Fault World := do
  let (h, x) ← f w.heap
  return ⟨h, w.strings ++ [some x]⟩

def update (w : World) (i : ℕ) (f : Str → Heap Chars → Except Fault (Heap Chars × Str)) : Except Fault World := do
  let x ← w.read i
  let (h, x) ← f x w.heap
  return ⟨h, w.strings.set i (some x)⟩

def perform (c : Call) (w : World) : Except Fault World :=
  match c with
  | .constructEmpty => w.push ofNothing
  | .construct raw s => w.push (ofChars s ⟨.bytes raw, 0⟩)
  | .constructSized raw s => w.push (ofSized s ⟨.bytes raw, 0⟩)
  | .copy raw source deep => do
    let s ← w.read source
    w.push (ofString deep s ⟨.bytes raw, 0⟩)
  | .assign dest s => w.update dest (ofChars s)
  | .assignString dest source deep => do
    let s ← w.read source
    w.update dest (ofString deep s)
  | .destroy dest => do
    let x ← w.read dest
    let h ← PdbString.destroy x w.heap
    return ⟨h, w.strings.set dest none⟩

end World

end PlinyCompute.PdbString
