import PlinyCompute.HandleRuns

namespace PlinyCompute.Handles

open Transition

/-- A handle of a class: a plain one, or the one of a container (`Vector`, `Map`) that is held by value. The default
constructor of a container makes an array without elements for its handle. -/
inductive Part
  | handle
  | container (array : ℕ)
  deriving DecidableEq, Repr

/-- How the instances of a class hold handles: an object once for each part, an array or a `PairArray` once for each
part of each element in use. -/
inductive Layout
  | object (parts : List Part)
  | array (parts : List Part)
  | pairArray (key value : List Part)
  deriving DecidableEq, Repr

namespace Layout

def parts : Layout → List Part
  | object parts | array parts => parts
  | pairArray key value => key ++ value

def IsArray : Layout → Prop
  | object _ => False
  | array _ | pairArray _ _ => True

end Layout

structure Layouts where
  layout : ℕ → Layout
  holder : ℕ
  layout_holder : layout holder = .object [.handle]
  isArray : ∀ t array, .container array ∈ (layout t).parts → (layout array).IsArray

/-- The heap, and what `getRAM` answers from now on. When the answers are used up there is no space. -/
structure Store where
  heap : Heap
  answers : List Bool

namespace Store

def getRAM (x : RefCountedObject) (s : Store) : Store × Option ℕ :=
  match s.answers with
  | [] => (s, none)
  | false :: answers => (⟨s.heap, answers⟩, none)
  | true :: answers =>
    (⟨{ s.heap with objects := s.heap.objects ++ [some x] }, answers⟩, some s.heap.objects.length)

def space (s : Store) (type : ℕ) : RefCountedObject := ⟨s.heap.activeRAM, 1, type, 0, false, []⟩

def destroyAll (fs : List Handle) (s : Store) : Except Stop Store := do
  let heap ← Heap.destroyAll (Heap.decRefCount s.heap.objects.length) fs s.heap
  .ok { s with heap }

def destroy (f : Handle) (s : Store) : Except Stop Store := do
  let heap ← s.heap.destroy f
  .ok { s with heap }

def fill (c data : ℕ) (disableDestructor : Bool) (fs : List Handle) (s : Store) : Store :=
  match s.heap.get c with
  | none => s
  | some x => { s with heap := s.heap.set c (some { x with data, disableDestructor, members := fs }) }

def construct : List Part → Store → Store × List Handle × Bool
  | [], s => (s, [], true)
  | .handle :: parts, s =>
    let (s, fs, done) := construct parts s
    (s, .null :: fs, done)
  | .container array :: parts, s =>
    match s.getRAM (s.space array) with
    | (s, some c) =>
      let (s, fs, done) := construct parts s
      (s, ⟨some c, array⟩ :: fs, done)
    | (s, none) =>
      if s.heap.throwException then (s, [.null], false)
      else
        let (s, fs, done) := construct parts s
        (s, ⟨none, array⟩ :: fs, done)

def assign (setUpAndCopyFrom : ℕ → RefCountedObject → Store → Except Stop (Store × Bool)) (old f : Handle)
    (s : Store) : Except Stop (Store × Handle × Bool) :=
  match f.target with
  | none => do
    let s ← s.destroy old
    .ok (s, { old with target := none }, true)
  | some o =>
    match s.heap.get o with
    | none => .error .dangling
    | some x =>
      if s.heap.contains x.block then do
        let heap ← s.heap.incRefCount o
        let s ← { s with heap }.destroy old
        .ok (s, f, true)
      else if f.typeInfo ≠ x.type then .error .undefined
      else
        match s.getRAM (s.space x.type) with
        | (s, none) =>
          if s.heap.throwException then .ok (s, { old with typeInfo := f.typeInfo }, false)
          else do
            let s ← s.destroy old
            .ok (s, ⟨none, f.typeInfo⟩, false)
        | (s, some c) => do
          let (s, done) ← setUpAndCopyFrom c x s
          if done then
            let s ← s.destroy old
            .ok (s, ⟨some c, f.typeInfo⟩, true)
          else
            let s ← s.destroy ⟨some c, f.typeInfo⟩
            let s ← s.destroy old
            .ok (s, ⟨none, f.typeInfo⟩, false)

def assignAll (assign : Handle → Handle → Store → Except Stop (Store × Handle × Bool)) :
    List Handle → List Handle → Store → Except Stop (Store × List Handle × Bool)
  | old :: olds, f :: fs, s => do
    let (s, g, done) ← assign old f s
    if done then
      let (s, gs, done) ← assignAll assign olds fs s
      .ok (s, g :: gs, done)
    else .ok (s, g :: olds, false)
  | olds, _, s => .ok (s, olds, true)

def copyElement (assign : Handle → Handle → Store → Except Stop (Store × Handle × Bool)) (parts : List Part)
    (source : List Handle) (s : Store) : Except Stop (Store × Option (List Handle)) :=
  match construct parts s with
  | (s, fs, false) => do
    let s ← s.destroyAll fs
    .ok (s, none)
  | (s, fs, true) => do
    let (s, gs, done) ← assignAll assign fs source s
    .ok (s, if done then some gs else none)

def copyElements (assign : Handle → Handle → Store → Except Stop (Store × Handle × Bool)) :
    List (List Part × List Handle) → Store → Except Stop (Store × List Handle × Bool)
  | [], s => .ok (s, [], true)
  | (parts, source) :: elements, s => do
    match ← copyElement assign parts source s with
    | (s, none) => .ok (s, [], false)
    | (s, some fs) =>
      let (s, gs, done) ← copyElements assign elements s
      .ok (s, fs ++ gs, done)

/-- The default constructor of an object whose space is `c`. When it throws, it destroys what it has made, and the
`catch` of the assignment runs the destructor all the same: over what was destroyed, and over the members that were
never constructed. -/
def constructAt (c : ℕ) (parts : List Part) (s : Store) : Except Stop (Store × Option (List Handle)) :=
  match construct parts s with
  | (s, fs, true) => .ok (s, some fs)
  | (s, fs, false) => do
    let s ← s.destroyAll fs
    if fs.length < parts.length then .error .undefined
    else .ok (s.fill c 0 false fs, none)

end Store

def elements (key value : List Part) : ℕ → List Handle → List (List Part × List Handle)
  | 0, _ => []
  | n + 1, fs =>
    (key, fs.take key.length) :: (value, (fs.drop key.length).take value.length) ::
      elements key value n (fs.drop (key.length + value.length))

def elementsOf (key value : List Part) (fs : List Handle) : List (List Part × List Handle) :=
  elements key value (fs.length / (key.length + value.length)) fs

namespace Layouts

variable (K : Layouts)

def setUpAndCopyFrom : ℕ → ℕ → RefCountedObject → Store → Except Stop (Store × Bool)
  | 0, _, _, _ => .error .dangling
  | fuel + 1, c, x, s =>
    match K.layout x.type with
    | .object parts => do
      match ← s.constructAt c parts with
      | (s, none) => .ok (s, false)
      | (s, some fs) =>
        let (s, gs, done) ← Store.assignAll (Store.assign (setUpAndCopyFrom fuel)) fs x.members s
        .ok (s.fill c x.data false gs, done)
    | .array parts => do
      -- `usedSlots` is set to the number of the elements that were copied
      let (s, fs, done) ← Store.copyElements (Store.assign (setUpAndCopyFrom fuel)) (elementsOf parts [] x.members) s
      .ok (s.fill c x.data false fs, done)
    | .pairArray key value => do
      let (s, fs, done) ←
        Store.copyElements (Store.assign (setUpAndCopyFrom fuel)) (elementsOf key value x.members) s
      .ok (s.fill c x.data (x.disableDestructor || !done) fs, done)

/-- The same when the new object is its own source: each member is assigned to itself, and an array without elements
has nothing to copy. -/
def setUpAndCopyFromSelf (c type : ℕ) (s : Store) : Except Stop (Store × Bool) :=
  match K.layout type with
  | .object parts => do
    match ← s.constructAt c parts with
    | (s, none) => .ok (s, false)
    | (s, some fs) => .ok (s.fill c 0 false fs, true)
  | .array _ | .pairArray _ _ => .ok (s, true)

def assignTarget (decOldFirst isSelf : Bool) (dest : Location) (old : Handle) (typeInfo o : ℕ) (answers : List Bool)
    (w : World) : Except Stop (World × Bool) :=
  match w.heap.get o with
  | none => .error .dangling
  | some x =>
    if !w.heap.contains x.block && w.liesInBlock dest then
      if typeInfo ≠ x.type then .error .undefined
      else
        let s : Store := ⟨w.heap, answers⟩
        match s.getRAM (s.space typeInfo) with
        | (_, none) =>
          if w.heap.throwException then .ok (w.write { old with typeInfo } dest, false)
          else do
            let w ← w.replace dest old .null
            .ok (w, false)
        | (s, some c) => do
          let (s, done) ←
            (if isSelf then K.setUpAndCopyFromSelf c typeInfo s else K.setUpAndCopyFrom answers.length c x s)
          let w := { w with heap := s.heap }
          if done then
            let w ← w.replace dest old ⟨some c, typeInfo⟩
            .ok (w, true)
          else if decOldFirst then
            let w ← w.replace dest old .null
            let heap ← w.heap.destroy ⟨some c, typeInfo⟩
            .ok ({ w with heap }, false)
          else
            let w := w.write .null dest
            let heap ← w.heap.destroy ⟨some c, typeInfo⟩
            let heap ← heap.destroy old
            .ok ({ w with heap }, false)
    else do
      let heap ← w.heap.incRefCount o
      let w ← { w with heap }.replace dest old ⟨some o, typeInfo⟩
      .ok (w, true)

end Layouts

inductive Source
  | object (sameType : Bool) (typeInfo : ℕ) (o : Option ℕ)
  | handle (source : Location)
  deriving DecidableEq, Repr

def Layouts.assign (K : Layouts) (dest : Location) (source : Source) (answers : List Bool) (w : World) :
    Except Stop (World × Bool) := do
  let old ← w.valueAt dest
  match source with
  | .object sameType typeInfo o =>
    match o with
    | none =>
      let w ← w.replace dest old ⟨none, typeInfo⟩
      .ok (w, true)
    | some o => K.assignTarget sameType false dest old typeInfo o answers w
  | .handle source =>
    let f ← w.valueAt source
    match f.target with
    | none => w.assignNull dest
    | some o => K.assignTarget false (dest = source) dest old f.typeInfo o answers w

def Holds : Part → Handle → Prop
  | .handle, _ => True
  | .container array, f => f.typeInfo = array

def Layouts.Shaped (K : Layouts) (x : RefCountedObject) : Prop :=
  match K.layout x.type with
  | .object parts => x.disableDestructor = false ∧ List.Forall₂ Holds parts x.members
  | .array parts =>
    x.disableDestructor = false ∧ ∃ n, List.Forall₂ Holds (List.replicate n parts).flatten x.members
  | .pairArray key value => ∃ n, List.Forall₂ Holds (List.replicate n (key ++ value)).flatten x.members

structure World.Fits (K : Layouts) (w : World) : Prop where
  balanced : Balanced w.heap w.stackHandles none
  lost : w.heap.lost = []
  shaped : ∀ o x, w.heap.get o = some x → K.Shaped x

def Source.Legal (w : World) : Source → Prop
  | .object _ typeInfo o => ∀ p, o = some p → ∃ x, w.heap.get p = some x ∧ typeInfo = x.type
  | .handle source => w.Reached source

structure Consistent (w w' : World) (dest : Location) : Prop where
  handle : ∃ old g, w.read dest = some old ∧ w'.read dest = some g ∧ (g.target = none ∨ g.target = old.target)
  counted : ∀ o x, w'.heap.get o = some x → w'.heap.isManaged x.block = true →
    x.refCount = pointers w'.stackHandles o + pointers w'.heap.handles o
  exist : ∀ f, f ∈ w'.stackHandles ∨ f ∈ w'.heap.handles → ∀ o, f.target = some o → ∃ x, w'.heap.get o = some x
  released : ∀ o, w.heap.objects.length ≤ o → w'.heap.get o = none

/-- A half-built instance can be released: only the last part of an object is a container, an element of an array has
at most one handle and no container, and a pair has none. -/
def Layout.Releases : Layout → Prop
  | .object parts => ∀ part ∈ parts.dropLast, part = .handle
  | .array parts => parts = [] ∨ parts = [.handle]
  | .pairArray key value => key = [] ∧ value = []

end PlinyCompute.Handles
