import Mathlib
import PlinyCompute.Transition

namespace PlinyCompute.Handles

open Transition

structure Handle where
  target : Option ℕ
  typeInfo : ℕ
  deriving DecidableEq, Repr

def Handle.null : Handle := ⟨none, 0⟩

structure RefCountedObject where
  block : ℕ
  refCount : ℕ
  type : ℕ
  data : ℕ
  disableDestructor : Bool
  members : List Handle
  deriving DecidableEq, Repr

/-- `disables` says of a class and the plain data of an object whether the flag `disableDestructor` is set: a
`PairArray` has it in the first byte of its slots, where the hash of the first slot is. -/
structure Classes where
  data : ℕ → ℕ
  numMembers : ℕ → ℕ
  isPairArray : ℕ → Bool
  disables : ℕ → ℕ → Bool
  isPairArray_of_disables : ∀ t d, disables t d = true → isPairArray t = true

/-- The objects and the state of the allocator; an object that was freed is `none`. `lost` are the handles to objects
that were left in freed objects, no destructor has run over them. `space` is the number of calls of `getRAM` that
succeed from now on. -/
structure Heap where
  objects : List (Option RefCountedObject)
  lost : List Handle
  activeRAM : ℕ
  throwException : Bool
  curBlockUserSupplied : Bool
  allInactives : List ℕ
  numBlocks : ℕ
  space : ℕ
  deriving DecidableEq, Repr

inductive Stop
  | dangling
  | undefined
  | wraps
  deriving DecidableEq, Repr

namespace Heap

def get (h : Heap) (o : ℕ) : Option RefCountedObject := (h.objects[o]?).join

def set (h : Heap) (o : ℕ) (x : Option RefCountedObject) : Heap := { h with objects := h.objects.set o x }

def contains (h : Heap) (block : ℕ) : Bool := block = h.activeRAM

def isManaged (h : Heap) (block : ℕ) : Bool := h.contains block || h.allInactives.contains block

def lose (h : Heap) (fs : List Handle) : Heap := { h with lost := fs.filter (·.target.isSome) ++ h.lost }

def setMember (h : Heap) (o k : ℕ) (f : Handle) : Heap :=
  match h.get o with
  | none => h
  | some x => h.set o (some { x with members := x.members.set k f })

def incRefCount (o : ℕ) (h : Heap) : Except Stop Heap :=
  match h.get o with
  | none => .error .dangling
  | some x =>
    if h.isManaged x.block then
      if x.refCount + 1 = 2 ^ 32 then .error .wraps
      else .ok (h.set o (some { x with refCount := x.refCount + 1 }))
    else .ok h

def destroyAll (dec : ℕ → ℕ → Heap → Except Stop Heap) : List Handle → Heap → Except Stop Heap
  | [], h => .ok h
  | f :: fs, h => do
    let h ← destroyAll dec fs h
    match f.target with
    | none => .ok h
    | some o => dec f.typeInfo o h

/-- The members are destroyed before the object is freed; none of them points to the object, and so it is taken
out of the heap at once. The destructor of a class that is not the object's is not defined. -/
def decRefCount : ℕ → ℕ → ℕ → Heap → Except Stop Heap
  | 0, _, _, _ => .error .dangling
  | fuel + 1, typeInfo, o, h =>
    match h.get o with
    | none => .error .dangling
    | some x =>
      if !h.isManaged x.block then .ok h
      else if x.refCount = 0 then .error .wraps
      else if x.refCount ≠ 1 then .ok (h.set o (some { x with refCount := x.refCount - 1 }))
      else if typeInfo ≠ x.type then .error .undefined
      else if x.disableDestructor then .ok ((h.set o none).lose x.members)
      else destroyAll (decRefCount fuel) x.members (h.set o none)

def destroy (f : Handle) (h : Heap) : Except Stop Heap :=
  match f.target with
  | none => .ok h
  | some o => h.decRefCount h.objects.length f.typeInfo o

def getRAM (x : RefCountedObject) (h : Heap) : Option (ℕ × Heap) :=
  if h.space = 0 then none
  else some (h.objects.length, { h with objects := h.objects ++ [some x], space := h.space - 1 })

def copyMembers (copy : ℕ → ℕ → Heap → Except Stop (Heap × Option ℕ)) (new : ℕ) :
    List Handle → ℕ → Heap → Except Stop (Heap × Bool)
  | [], _, h => .ok (h, true)
  | f :: fs, k, h =>
    match f.target with
    | none => copyMembers copy new fs (k + 1) h
    | some o =>
      match h.get o with
      | none => .error .dangling
      | some x =>
        if h.contains x.block then do
          let h ← h.incRefCount o
          copyMembers copy new fs (k + 1) (h.setMember new k f)
        else do
          match ← copy f.typeInfo o h with
          | (h, none) => .ok (h, false)
          | (h, some c) => copyMembers copy new fs (k + 1) (h.setMember new k ⟨some c, f.typeInfo⟩)

variable (K : Classes)

def fresh (h : Heap) (typeInfo refCount : ℕ) : RefCountedObject :=
  ⟨h.activeRAM, refCount, typeInfo, K.data typeInfo, K.disables typeInfo (K.data typeInfo),
    List.replicate (K.numMembers typeInfo) .null⟩

def setData (h : Heap) (o data : ℕ) : Heap :=
  match h.get o with
  | none => h
  | some x => h.set o (some { x with data, disableDestructor := K.disables x.type data })

def setDisableDestructor (h : Heap) (o : ℕ) : Heap :=
  match h.get o with
  | none => h
  | some x => if K.isPairArray x.type then h.set o (some { x with disableDestructor := true }) else h

/-- A `PairArray` whose pairs cannot all be copied sets its flag before it throws. -/
def copyFrom (copy : ℕ → ℕ → Heap → Except Stop (Heap × Option ℕ)) (new : ℕ) (source : RefCountedObject)
    (h : Heap) : Except Stop (Heap × Bool) := do
  let (h, done) ← copyMembers copy new source.members 0 (h.setData K new source.data)
  .ok (if done then h else h.setDisableDestructor K new, done)

/-- The deep copy of an object into the active block, `none` for `NotEnoughSpace`. A nested copy takes space
before it goes on, so that `fuel` need not be larger than the space. -/
def deepCopy : ℕ → ℕ → ℕ → Heap → Except Stop (Heap × Option ℕ)
  | 0, _, _, h => .ok (h, none)
  | fuel + 1, typeInfo, o, h =>
    match h.get o with
    | none => .error .dangling
    | some x =>
      if typeInfo ≠ x.type then .error .undefined
      else
        match h.getRAM (h.fresh K typeInfo 1) with
        | none => .ok (h, none)
        | some (c, h) => do
          let (h, done) ← copyFrom K (deepCopy fuel) c x h
          if done then .ok (h, some c)
          else
            let h ← h.destroy ⟨some c, typeInfo⟩
            .ok (h, none)

def constructed (h : Heap) (typeInfo data : ℕ) : RefCountedObject :=
  ⟨h.activeRAM, 0, typeInfo, data, K.disables typeInfo data, List.replicate (K.numMembers typeInfo) .null⟩

/-- `none` when the constructor or the allocation throws, `some none` for a null pointer. The members are copy
constructed from `inits`, and those that exist are destroyed when one of them throws. -/
def makeObject (typeInfo data : ℕ) (inits : List Handle) (h : Heap) : Except Stop (Heap × Option (Option ℕ)) :=
  match h.getRAM (h.constructed K typeInfo data) with
  | none => .ok (h, if h.throwException then none else some none)
  | some (c, h) => do
    let (h, done) ← copyMembers (deepCopy K h.space) c (inits.take (K.numMembers typeInfo)) 0 h
    if done then .ok (h, some (some c))
    else
      match h.get c with
      | none => .error .dangling
      | some x =>
        let h ← destroyAll (decRefCount h.objects.length) x.members (h.set c none)
        .ok (h, none)

def hasObjects (h : Heap) : Bool :=
  h.objects.any fun
    | some x => h.contains x.block
    | none => false

/-- A block that leaves is remembered when it is not the user's and has objects, or else it is freed or
forgotten. A block that is remembered stays until its last object is freed, nothing lies in it then. -/
def setupBlock (throwExceptionOnFail userSupplied : Bool) (h : Heap) : Heap :=
  { h with
    activeRAM := h.numBlocks
    throwException := throwExceptionOnFail
    curBlockUserSupplied := userSupplied
    allInactives :=
      if !h.curBlockUserSupplied && h.hasObjects then h.activeRAM :: h.allInactives else h.allInactives
    numBlocks := h.numBlocks + 1 }

def temporarilyUseBlockForAllocations (userSupplied : Bool) (h : Heap) : Heap :=
  { h with
    activeRAM := h.numBlocks
    throwException := true
    curBlockUserSupplied := userSupplied
    allInactives := h.activeRAM :: h.allInactives
    numBlocks := h.numBlocks + 1 }

def restoreAllocationBlock (useMe : ℕ × Bool × Bool) (h : Heap) : Heap :=
  { h with
    activeRAM := useMe.1
    throwException := useMe.2.1
    curBlockUserSupplied := useMe.2.2
    allInactives :=
      (if !h.curBlockUserSupplied && h.hasObjects then h.activeRAM :: h.allInactives
        else h.allInactives).erase useMe.1 }

end Heap

inductive Location
  | stack (i : ℕ)
  | member (o k : ℕ)
  deriving DecidableEq, Repr

structure World where
  heap : Heap
  stack : List (Option Handle)
  saved : List (ℕ × Bool × Bool)
  deriving DecidableEq, Repr

namespace World

def read (w : World) : Location → Option Handle
  | .stack i => (w.stack[i]?).join
  | .member o k => (w.heap.get o).bind fun x => x.members[k]?

def write (w : World) (f : Handle) : Location → World
  | .stack i => { w with stack := w.stack.set i (some f) }
  | .member o k => { w with heap := w.heap.setMember o k f }

def liesInBlock (w : World) : Location → Bool
  | .stack _ => false
  | .member o _ => (w.heap.get o).any fun x => w.heap.contains x.block

def push (w : World) (f : Handle) : World := { w with stack := w.stack ++ [some f] }

def replace (w : World) (dest : Location) (old f : Handle) : Except Stop World := do
  let w := w.write f dest
  let heap ← w.heap.destroy old
  .ok { w with heap }

variable (K : Classes)

/-- The four assignments from a target that is not null; the result says whether they return or throw. A handle
in the active block makes a deep copy of a target that is not in it. A handle that is assigned to itself is its
own source after its offset has changed, so that the new object is assigned to itself. The assignment from a
pointer of the same type gives up the old target first when the copy throws. -/
def assignTarget (decOldFirst isSelf : Bool) (dest : Location) (old : Handle) (typeInfo o : ℕ) (w : World) :
    Except Stop (World × Bool) :=
  match w.heap.get o with
  | none => .error .dangling
  | some x =>
    if !w.heap.contains x.block && w.liesInBlock dest then
      if typeInfo ≠ x.type then .error .undefined
      else
        match w.heap.getRAM (w.heap.fresh K typeInfo 1) with
        | none =>
          if w.heap.throwException then .ok (w.write { old with typeInfo } dest, false)
          else do
            let w ← w.replace dest old .null
            .ok (w, false)
        | some (c, h) => do
          let (h, done) ← (if isSelf then .ok (h, true) else h.copyFrom K (Heap.deepCopy K h.space) c x)
          let w := { w with heap := h }
          if done then
            let w ← w.replace dest old ⟨some c, typeInfo⟩
            .ok (w, true)
          else if decOldFirst then
            let w ← w.replace dest old .null
            let heap ← w.heap.destroy ⟨some c, typeInfo⟩
            .ok ({ w with heap }, false)
          else
            let w := w.write .null dest
            let heap ← w.heap.destroy ⟨some c, typeInfo⟩
            let heap ← heap.destroy old
            .ok ({ w with heap }, false)
    else do
      let heap ← w.heap.incRefCount o
      let w ← { w with heap }.replace dest old ⟨some o, typeInfo⟩
      .ok (w, true)

def valueAt (w : World) (l : Location) : Except Stop Handle :=
  match w.read l with
  | some f => .ok f
  | none => .error .dangling

def assignNull (dest : Location) (w : World) : Except Stop (World × Bool) := do
  let old ← w.valueAt dest
  let w ← w.replace dest old { old with target := none }
  .ok (w, true)

def assignHandle (dest source : Location) (w : World) : Except Stop (World × Bool) := do
  let old ← w.valueAt dest
  let f ← w.valueAt source
  match f.target with
  | none => w.assignNull dest
  | some o => w.assignTarget K false (dest = source) dest old f.typeInfo o

def assignObject (sameType : Bool) (dest : Location) (typeInfo : ℕ) (o : Option ℕ) (w : World) :
    Except Stop (World × Bool) := do
  let old ← w.valueAt dest
  match o with
  | none =>
    let w ← w.replace dest old ⟨none, typeInfo⟩
    .ok (w, true)
  | some o => w.assignTarget K sameType false dest old typeInfo o

/-- The copy constructors of a variable. It is in no block, and so the copy is shallow. -/
def copyObject (typeInfo : ℕ) (o : Option ℕ) (w : World) : Except Stop (World × Bool) :=
  match o with
  | none => .ok (w.push ⟨none, typeInfo⟩, true)
  | some o => do
    let heap ← w.heap.incRefCount o
    .ok ({ w with heap }.push ⟨some o, typeInfo⟩, true)

def copyHandle (source : Location) (w : World) : Except Stop (World × Bool) := do
  let f ← w.valueAt source
  w.copyObject f.typeInfo f.target

/-- The address of a null handle's target is one byte before the handle. -/
def copyTargetToCurrentAllocationBlock (typeInfo : ℕ) (source : Location) (w : World) :
    Except Stop (World × Bool) := do
  let f ← w.valueAt source
  match f.target with
  | none => if w.liesInBlock source then w.copyHandle source else .error .undefined
  | some o =>
    match w.heap.get o with
    | none => .error .dangling
    | some x =>
      if w.heap.contains x.block then w.copyHandle source
      else if typeInfo ≠ f.typeInfo then .error .undefined
      else
        match ← w.heap.deepCopy K w.heap.space f.typeInfo o with
        | (heap, none) => .ok ({ w with heap }, false)
        | (heap, some c) => .ok ({ w with heap }.push ⟨some c, f.typeInfo⟩, true)

def valuesAt (w : World) : List Location → Except Stop (List Handle)
  | [] => .ok []
  | l :: ls => do
    let f ← w.valueAt l
    let fs ← w.valuesAt ls
    .ok (f :: fs)

def makeObject (dest : Option (Bool × Location)) (typeInfo data : ℕ) (inits : List Location) (w : World) :
    Except Stop (World × Bool) := do
  let fs ← w.valuesAt inits
  match ← w.heap.makeObject K typeInfo data fs with
  | (heap, none) => .ok ({ w with heap }, false)
  | (heap, some o) =>
    match dest with
    | none => copyObject typeInfo o { w with heap }
    | some (sameType, dest) => assignObject K sameType dest typeInfo o { w with heap }

def destroyVariable (i : ℕ) (w : World) : Except Stop (World × Bool) := do
  let f ← w.valueAt (.stack i)
  let heap ← w.heap.destroy f
  .ok ({ w with heap, stack := w.stack.set i none }, true)

end World

inductive Call
  | newHandle (typeInfo : ℕ)
  | makeObject (dest : Option (Bool × Location)) (typeInfo data : ℕ) (inits : List Location)
  | copyHandle (source : Location)
  | copyObject (typeInfo : ℕ) (o : Option ℕ)
  | assignNull (dest : Location)
  | assignHandle (dest source : Location)
  | assignObject (sameType : Bool) (dest : Location) (typeInfo : ℕ) (o : Option ℕ)
  | copyTarget (typeInfo : ℕ) (source : Location)
  | setData (o data : ℕ)
  | destroy (i : ℕ)
  | setupBlock (throwExceptionOnFail userSupplied : Bool)
  | temporarilyUse (userSupplied : Bool)
  | restore
  deriving DecidableEq, Repr

variable (K : Classes)

def perform (c : Call) (w : World) : Except Stop (World × Bool) :=
  match c with
  | .newHandle typeInfo => .ok (w.push ⟨none, typeInfo⟩, true)
  | .makeObject dest typeInfo data inits => w.makeObject K dest typeInfo data inits
  | .copyHandle source => w.copyHandle source
  | .copyObject typeInfo o => w.copyObject typeInfo o
  | .assignNull dest => w.assignNull dest
  | .assignHandle dest source => w.assignHandle K dest source
  | .assignObject sameType dest typeInfo o => w.assignObject K sameType dest typeInfo o
  | .copyTarget typeInfo source => w.copyTargetToCurrentAllocationBlock K typeInfo source
  | .setData o data => .ok ({ w with heap := w.heap.setData K o data }, true)
  | .destroy i => w.destroyVariable i
  | .setupBlock throwExceptionOnFail userSupplied =>
    .ok ({ w with heap := w.heap.setupBlock throwExceptionOnFail userSupplied }, true)
  | .temporarilyUse userSupplied =>
    .ok (⟨w.heap.temporarilyUseBlockForAllocations userSupplied, w.stack,
      (w.heap.activeRAM, w.heap.throwException, w.heap.curBlockUserSupplied) :: w.saved⟩, true)
  | .restore =>
    match w.saved with
    | [] => .error .undefined
    | useMe :: saved => .ok ({ w with heap := w.heap.restoreAllocationBlock useMe, saved }, true)

def World.withSpace (w : World) (space : ℕ) : World := { w with heap := { w.heap with space } }

def step (i : Call × ℕ) (w : World) : Except Stop World := do
  let (w, _) ← perform K i.1 (w.withSpace i.2)
  .ok w

def Start (w : World) : Prop :=
  ∃ throwExceptionOnFail userSupplied,
    w = ⟨⟨[], [], 0, throwExceptionOnFail, userSupplied, [], 1, 0⟩, [], []⟩

namespace World

def stackHandles (w : World) : List Handle := w.stack.filterMap id

inductive Accessible (w : World) : ℕ → Prop
  | stack {f : Handle} {o : ℕ} : f ∈ w.stackHandles → f.target = some o → Accessible w o
  | member {p o : ℕ} {x : RefCountedObject} {f : Handle} : Accessible w p → w.heap.get p = some x →
      f ∈ x.members → f.target = some o → Accessible w o

def Reached (w : World) (l : Location) : Prop :=
  (∃ f, w.read l = some f) ∧
  match l with
  | .stack _ => True
  | .member o _ => w.Accessible o

def Deep (w : World) (dest : Location) (o : ℕ) : Prop :=
  w.liesInBlock dest = true ∧ ∃ x, w.heap.get o = some x ∧ w.heap.contains x.block = false

end World

def Legal (c : Call) (w : World) : Prop :=
  match c with
  | .newHandle _ => True
  | .makeObject dest _ _ inits => (∀ d, dest = some d → w.Reached d.2) ∧ ∀ l ∈ inits, w.Reached l
  | .copyHandle source => w.Reached source
  | .copyObject _ o => ∀ p, o = some p → ∃ x, w.heap.get p = some x
  | .assignNull dest => w.Reached dest
  | .assignHandle dest source => w.Reached dest ∧ w.Reached source
  | .assignObject _ dest _ o => w.Reached dest ∧ ∀ p, o = some p → ∃ x, w.heap.get p = some x
  | .copyTarget _ source => w.Reached source
  | .setData o _ => w.Accessible o
  | .destroy i => w.Reached (.stack i)
  | .setupBlock _ _ => True
  | .temporarilyUse _ => True
  | .restore => w.saved ≠ []

def Mistypes (w : World) (dest : Location) (typeInfo : ℕ) : Prop :=
  w.heap.space = 0 ∧ w.heap.throwException = true ∧
    ∃ old, w.read dest = some old ∧ old.target ≠ none ∧ old.typeInfo ≠ typeInfo

/-- No deep copy is made for a handle that is assigned to itself, none fails at once in a way that leaves the
handle with the wrong type, and the types of pointers and of copied targets are those of the objects. -/
def Proper (c : Call) (w : World) : Prop :=
  match c with
  | .copyObject typeInfo o => ∀ p x, o = some p → w.heap.get p = some x → typeInfo = x.type
  | .assignHandle dest source => ∀ f o, w.read source = some f → f.target = some o → w.Deep dest o →
      dest ≠ source ∧ ¬ Mistypes w dest f.typeInfo
  | .assignObject _ dest typeInfo o => ∀ p x, o = some p → w.heap.get p = some x →
      typeInfo = x.type ∧ (w.Deep dest p → ¬ Mistypes w dest typeInfo)
  | .copyTarget typeInfo source => ∀ f, w.read source = some f →
      (f.target = none → w.liesInBlock source = true) ∧ typeInfo = f.typeInfo
  | _ => True

end PlinyCompute.Handles
