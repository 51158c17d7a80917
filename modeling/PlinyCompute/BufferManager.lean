import Mathlib.Algebra.Order.Ring.Int
import PlinyCompute.Transition

namespace PlinyCompute.BufferManager

open Function

abbrev Name := List Char

structure PDBSet where
  dbName : Name
  setName : Name
  deriving DecidableEq, Repr

structure PDBPageInfo where
  startPos : ℤ := 0
  numBytes : ℕ := 0
  deriving DecidableEq, Repr

inductive PDBPageStatus
  | loading | loaded | unloading | freezing | notLoaded
  deriving DecidableEq, Repr

/-- A pointer into the shared memory is an offset, `none` is null. -/
structure PDBPage where
  bytes : Option ℕ := none
  status : PDBPageStatus := .notLoaded
  pinned : Bool := false
  dirty : Bool := false
  refCount : ℕ := 0
  pageNum : ℕ := 0
  isAnon : Bool := true
  sizeFrozen : Bool := false
  location : PDBPageInfo := {}
  whichSet : Option PDBSet := none
  deriving DecidableEq, Repr

/-- How a call can fail to return: the process ends itself, the behaviour is undefined, or it runs or
waits forever. -/
inductive Fault
  | exit | undefined | diverges
  deriving DecidableEq, Repr

/-- `MIN_PAGE_SIZE` is `2 ^ logOfMinPageSize`. `openFile` is the file a path leads to; a file descriptor
is that file. -/
structure Config where
  logOfMinPageSize : ℕ
  logOfPageSize : ℕ
  numPages : ℕ
  storageLoc : Name
  tempFileFD : ℕ
  openFile : Name → Option ℕ

namespace Config

def minPageSize (cfg : Config) : ℕ := 2 ^ cfg.logOfMinPageSize

def pageSize (cfg : Config) : ℕ := cfg.minPageSize * 2 ^ cfg.logOfPageSize

/-- `MIN_PAGE_SIZE << k` is computed on 32 bits. -/
def miniPageSize (cfg : Config) (k : ℕ) : ℕ := (cfg.minPageSize <<< k) % 2 ^ 32

def fullPage (cfg : Config) (addr : ℕ) : ℕ := addr / cfg.pageSize * cfg.pageSize

def fileLoc (cfg : Config) (set : PDBSet) : Name :=
  cfg.storageLoc ++ '/' :: (set.setName ++ '.' :: set.dbName)

end Config

/-- Objects are numbered; the maps keyed by a full page are keyed by its offset. -/
structure State where
  page : ℕ → PDBPage
  nextPage : ℕ
  allPages : PDBSet × ℕ → Option ℕ
  pageLocations : PDBSet × ℕ → Option PDBPageInfo
  endOfFiles : PDBSet → ℕ
  lastUsed : List (ℕ × ℕ)
  numPinned : ℕ → ℤ
  fds : PDBSet → Option ℕ
  emptyFullPages : List ℕ
  constituentPages : ℕ → List ℕ
  emptyMiniPages : ℕ → List ℕ
  unusedMiniPages : ℕ → List ℕ × ℕ
  availablePositions : ℕ → List ℤ
  lastTempPos : ℕ
  lastTimeTick : ℕ
  freeAnonPageNumbers : List ℕ
  lastFreeAnonPageNumber : ℕ
  memory : ℕ → UInt8
  files : ℕ → ℕ → UInt8

def initialState (cfg : Config) (memory : ℕ → UInt8) (files : ℕ → ℕ → UInt8) : State where
  page _ := {}
  nextPage := 0
  allPages _ := none
  pageLocations _ := none
  endOfFiles _ := 0
  lastUsed := []
  numPinned _ := 0
  fds _ := none
  emptyFullPages := (List.range cfg.numPages).map (cfg.pageSize * ·)
  constituentPages _ := []
  emptyMiniPages _ := []
  unusedMiniPages _ := ([], 0)
  availablePositions _ := []
  lastTempPos := 0
  lastTimeTick := 1
  freeAnonPageNumbers := []
  lastFreeAnonPageNumber := 0
  memory := memory
  files := files

/-- Entries of `lastUsed` are compared by their tick alone. -/
def lruInsert (e : ℕ × ℕ) : List (ℕ × ℕ) → List (ℕ × ℕ)
  | [] => [e]
  | x :: xs => if e.2 < x.2 then e :: x :: xs else if e.2 = x.2 then x :: xs else x :: lruInsert e xs

def lruErase (tick : ℕ) (lastUsed : List (ℕ × ℕ)) : List (ℕ × ℕ) := lastUsed.filter (·.2 ≠ tick)

/-- `std::find` and `erase`; erasing the end iterator is undefined. -/
def eraseOne (x : ℕ) (l : List ℕ) : Except Fault (List ℕ) :=
  if x ∈ l then .ok (l.erase x) else .error .undefined

def eraseEach : List ℕ → List ℕ → Except Fault (List ℕ)
  | [], l => .ok l
  | x :: xs, l => eraseOne x l >>= eraseEach xs

def logPageSizeLoop (numBytes : ℕ) : ℕ → ℕ → ℕ → Except Fault ℕ
  | 0, _, _ => .error .diverges
  | fuel + 1, curSize, bytesRequired =>
    if curSize < numBytes then logPageSizeLoop numBytes fuel (curSize * 2 % 2 ^ 64) (bytesRequired + 1)
    else .ok bytesRequired

/-- After 64 doublings the 64-bit size is zero, and the loop does not end. -/
def getLogPageSize (cfg : Config) (numBytes : ℕ) : Except Fault ℕ :=
  logPageSizeLoop numBytes 65 cfg.minPageSize 0

def offsets (pageSize inc : ℕ) : ℕ → ℕ → List ℕ
  | 0, _ => []
  | fuel + 1, offset => if offset < pageSize then offset :: offsets pageSize inc fuel (offset + inc) else []

def miniPagesFrom (cfg : Config) (k start : ℕ) : Except Fault (List ℕ) :=
  if cfg.miniPageSize k = 0 then .error .diverges
  else .ok (offsets cfg.pageSize (cfg.miniPageSize k) cfg.pageSize start)

def storeBytes (files : ℕ → ℕ → UInt8) (memory : ℕ → UInt8) (fd addr count pos : ℕ) : ℕ → ℕ → UInt8 :=
  update files fd fun i =>
    if pos ≤ i ∧ i < pos + count then memory (addr + (i - pos)) else files fd i

def fetchBytes (files : ℕ → ℕ → UInt8) (memory : ℕ → UInt8) (fd addr count pos : ℕ) : ℕ → UInt8 :=
  fun i => if addr ≤ i ∧ i < addr + count then files fd (pos + (i - addr)) else memory i

namespace State

def setPage (s : State) (p : ℕ) (me : PDBPage) : State := { s with page := update s.page p me }

def getBytes (s : State) (p : ℕ) : Except Fault ℕ :=
  match (s.page p).bytes with
  | some addr => .ok addr
  | none => .error .undefined

def getFileDescriptor (s : State) (set : Option PDBSet) : Except Fault ℕ :=
  match set.bind s.fds with
  | some fd => .ok fd
  | none => .error .undefined

def pwrite (s : State) (fd addr count : ℕ) (pos : ℤ) : Except Fault State :=
  if pos < 0 then .error .exit
  else .ok { s with files := storeBytes s.files s.memory fd addr count pos.toNat }

def pread (s : State) (fd addr count : ℕ) (pos : ℤ) : Except Fault State :=
  if pos < 0 then .error .exit
  else .ok { s with memory := fetchBytes s.files s.memory fd addr count pos.toNat }

def eraseFromAllPages (s : State) (me : PDBPage) : State :=
  match me.whichSet with
  | some set => { s with allPages := update s.allPages (set, me.pageNum) none }
  | none => s

def checkIfOpen (cfg : Config) (set : PDBSet) (s : State) : Except Fault State :=
  if (s.fds set).isSome then .ok s
  else
    match cfg.openFile (cfg.fileLoc set) with
    | none => .error .exit
    | some fd => .ok { s with fds := update s.fds set (some fd) }

def pinFullPage (f : ℕ) (s : State) : State :=
  if s.numPinned f < 0 then
    { s with
      lastUsed := lruErase ((-s.numPinned f).toNat % 2 ^ 32) s.lastUsed
      numPinned := update s.numPinned f 1 }
  else { s with numPinned := update s.numPinned f (s.numPinned f + 1) }

def pinParent (cfg : Config) (p : ℕ) (s : State) : Except Fault State := do
  let addr ← s.getBytes p
  .ok (s.pinFullPage (cfg.fullPage addr))

def registerMiniPage (cfg : Config) (p : ℕ) (s : State) : Except Fault State := do
  let addr ← s.getBytes p
  let f := cfg.fullPage addr
  pinParent cfg p { s with constituentPages := update s.constituentPages f (s.constituentPages f ++ [p]) }

def clearUnused (f : ℕ) (s : State) : Except Fault State := do
  let unused := s.unusedMiniPages f
  let emptyPages ← eraseEach unused.1 (s.emptyMiniPages unused.2)
  .ok { s with
    emptyMiniPages := update s.emptyMiniPages unused.2 emptyPages
    unusedMiniPages := update s.unusedMiniPages f ([], unused.2) }

def setStatuses (pages : List ℕ) (status : PDBPageStatus) (s : State) : State :=
  { s with page := fun p => if p ∈ pages then { s.page p with status := status } else s.page p }

def takeTempPos (cfg : Config) (k : ℕ) (s : State) : ℤ × State :=
  match (s.availablePositions k).getLast? with
  | none => (s.lastTempPos, { s with lastTempPos := s.lastTempPos + cfg.miniPageSize k })
  | some pos =>
    (pos, { s with availablePositions := update s.availablePositions k (s.availablePositions k).dropLast })

def writeAnonymous (cfg : Config) (p : ℕ) (s : State) : Except Fault State := do
  let me := s.page p
  let pos := (takeTempPos cfg me.location.numBytes s).1
  let s := (takeTempPos cfg me.location.numBytes s).2
  let s := s.setPage p { me with location := { me.location with startPos := pos } }
  let addr ← s.getBytes p
  s.pwrite cfg.tempFileFD addr (cfg.miniPageSize me.location.numBytes) pos

def writeToSet (cfg : Config) (p : ℕ) (s : State) : Except Fault State := do
  let me := s.page p
  let fd ← s.getFileDescriptor me.whichSet
  let addr ← s.getBytes p
  s.pwrite fd addr (cfg.miniPageSize me.location.numBytes) me.location.startPos

def writeIfDirty (cfg : Config) (p : ℕ) (s : State) : Except Fault State :=
  if (s.page p).dirty then writeToSet cfg p s else .ok s

def writeSetPage (cfg : Config) (p : ℕ) (s : State) : Except Fault State := do
  let me := s.page p
  let s ← writeIfDirty cfg p s
  .ok (if me.refCount = 0 then s.eraseFromAllPages me else s)

def writeBack (cfg : Config) (s : State) (p : ℕ) : Except Fault State := do
  let me := s.page p
  let s ← (if me.isAnon ∧ me.dirty then writeAnonymous cfg p s else writeSetPage cfg p s)
  .ok (s.setPage p { s.page p with dirty := false, bytes := none })

def evict (cfg : Config) (s : State) : Except Fault State :=
  match s.lastUsed with
  | [] => .error .exit
  | (f, _) :: rest => do
    let pages := s.constituentPages f
    let s ← clearUnused f (setStatuses pages .unloading { s with lastUsed := rest })
    let s ← pages.foldlM (writeBack cfg) s
    let s := setStatuses pages .notLoaded s
    .ok { s with
      constituentPages := update s.constituentPages f []
      emptyFullPages := s.emptyFullPages ++ [f]
      numPinned := update s.numPinned f 0 }

def breakUp (cfg : Config) (whichSize : ℕ) (s : State) : Except Fault State :=
  match s.emptyFullPages.getLast? with
  | none => .error .undefined
  | some f => do
    let minis ← miniPagesFrom cfg whichSize 0
    .ok { s with
      emptyMiniPages := update s.emptyMiniPages whichSize
        (s.emptyMiniPages whichSize ++ minis.map (f + ·))
      unusedMiniPages := update s.unusedMiniPages f
        ((s.unusedMiniPages f).1 ++ minis.map (f + ·), whichSize)
      numPinned := update s.numPinned f 0
      emptyFullPages := s.emptyFullPages.dropLast }

def createAdditionalMiniPages (cfg : Config) (whichSize : ℕ) (s : State) : Except Fault State := do
  let s ← (if s.emptyFullPages = [] then evict cfg s else .ok s)
  breakUp cfg whichSize s

def getEmptyMemory (cfg : Config) (k : ℕ) (s : State) : Except Fault (ℕ × State) :=
  if cfg.logOfPageSize < k then .error .undefined
  else do
    let s ← (if s.emptyMiniPages k = [] then createAdditionalMiniPages cfg k s else .ok s)
    match (s.emptyMiniPages k).getLast? with
    | none => .error .undefined
    | some space =>
      let f := cfg.fullPage space
      let unused ← eraseOne space (s.unusedMiniPages f).1
      .ok (space, { s with
        emptyMiniPages := update s.emptyMiniPages k (s.emptyMiniPages k).dropLast
        unusedMiniPages := update s.unusedMiniPages f (unused, (s.unusedMiniPages f).2) })

def freezeSize (cfg : Config) (p numBytes : ℕ) (s : State) : Except Fault State := do
  let me := s.page p
  if ¬ me.pinned ∨ me.sizeFrozen then .error .exit
  else
    let bytesRequired ← getLogPageSize cfg numBytes
    if me.location.numBytes < bytesRequired then .error .exit
    else
      let s := s.setPage p
        { me with sizeFrozen := true, location := { me.location with numBytes := bytesRequired } }
      let addr ← s.getBytes p
      let minis ← miniPagesFrom cfg bytesRequired (cfg.miniPageSize bytesRequired)
      .ok { s with
        emptyMiniPages := update s.emptyMiniPages bytesRequired
          (s.emptyMiniPages bytesRequired ++ minis.map (addr + ·))
        unusedMiniPages := update s.unusedMiniPages addr
          ((s.unusedMiniPages addr).1 ++ minis.map (addr + ·), bytesRequired) }

def assignLocation (cfg : Config) (p : ℕ) (s : State) : State :=
  let me := s.page p
  match me.isAnon, me.whichSet with
  | false, some set =>
    if s.pageLocations (set, me.pageNum) = none then
      let location := { me.location with startPos := s.endOfFiles set }
      { s.setPage p { me with location := location } with
        pageLocations := update s.pageLocations (set, me.pageNum) (some location)
        endOfFiles := update s.endOfFiles set
          (s.endOfFiles set + cfg.miniPageSize me.location.numBytes) }
    else s
  | _, _ => s

def unpinFullPage (f : ℕ) (s : State) : State :=
  let s := if 0 < s.numPinned f then { s with numPinned := update s.numPinned f (s.numPinned f - 1) } else s
  if s.numPinned f = 0 then
    { s with
      numPinned := update s.numPinned f (-s.lastTimeTick)
      lastUsed := lruInsert (f, s.lastTimeTick) s.lastUsed
      lastTimeTick := s.lastTimeTick + 1 }
  else s

def unpin (cfg : Config) (p : ℕ) (s : State) : Except Fault State :=
  let me := s.page p
  if ¬ me.pinned then .ok s
  else do
    let s := s.setPage p { me with pinned := false, sizeFrozen := true }
    let addr ← s.getBytes p
    .ok (assignLocation cfg p (s.unpinFullPage (cfg.fullPage addr)))

/-- Waiting for a page that is being loaded or unloaded never ends when there is no other thread. -/
def repin (cfg : Config) (p : ℕ) (s : State) : Except Fault State :=
  let me := s.page p
  if me.status = .loading ∨ me.status = .unloading then .error .diverges
  else if me.pinned then .ok s
  else if me.bytes ≠ none then pinParent cfg p (s.setPage p { me with pinned := true })
  else do
    let s := s.setPage p { me with status := .loading }
    let (space, s) ← getEmptyMemory cfg me.location.numBytes s
    let s ← registerMiniPage cfg p (s.setPage p { s.page p with bytes := some space })
    let s := s.setPage p { s.page p with pinned := true }
    let fd ← (if me.isAnon then .ok cfg.tempFileFD else s.getFileDescriptor me.whichSet)
    let s ← s.pread fd space (cfg.miniPageSize me.location.numBytes) me.location.startPos
    .ok (s.setPage p { s.page p with status := .loaded })

def takePageNumber (s : State) : ℕ × State :=
  match s.freeAnonPageNumbers.getLast? with
  | none => (s.lastFreeAnonPageNumber + 1, { s with lastFreeAnonPageNumber := s.lastFreeAnonPageNumber + 1 })
  | some pageNum => (pageNum, { s with freeAnonPageNumbers := s.freeAnonPageNumbers.dropLast })

def getPage (cfg : Config) (maxBytes : ℕ) (s : State) : Except Fault State := do
  let bytesRequired ← getLogPageSize cfg maxBytes
  let (space, s) ← getEmptyMemory cfg bytesRequired s
  let pageNum := s.takePageNumber.1
  let s := s.takePageNumber.2
  let p := s.nextPage
  let s := { s.setPage p
    { pinned := true, dirty := true, bytes := some space, isAnon := true, pageNum := pageNum,
      location := ⟨-1, bytesRequired⟩, status := .loaded, refCount := 1 } with nextPage := p + 1 }
  registerMiniPage cfg p s

def createSetPage (cfg : Config) (set : PDBSet) (i : ℕ) (s : State) : Except Fault State := do
  let p := s.nextPage
  let s := { s.setPage p
    { pinned := true, dirty := true, whichSet := some set, pageNum := i, isAnon := false,
      location := ⟨i, cfg.logOfPageSize⟩, status := .loading } with
    nextPage := p + 1
    allPages := update s.allPages (set, i) (some p) }
  let (space, s) ← getEmptyMemory cfg cfg.logOfPageSize s
  let s ← registerMiniPage cfg p (s.setPage p { s.page p with bytes := some space })
  .ok (s.setPage p { s.page p with refCount := (s.page p).refCount + 1, status := .loaded })

def loadSetPage (cfg : Config) (set : PDBSet) (i : ℕ) (myInfo : PDBPageInfo) (s : State) :
    Except Fault State := do
  let p := s.nextPage
  let s := { s.setPage p
    { pinned := true, dirty := false, whichSet := some set, pageNum := i, isAnon := false,
      location := myInfo, status := .loading, refCount := 1 } with
    nextPage := p + 1
    allPages := update s.allPages (set, i) (some p) }
  let (space, s) ← getEmptyMemory cfg myInfo.numBytes s
  let s ← registerMiniPage cfg p (s.setPage p { s.page p with bytes := some space })
  let fd ← s.getFileDescriptor (some set)
  let s ← s.pread fd space (cfg.miniPageSize myInfo.numBytes) myInfo.startPos
  .ok (s.setPage p { s.page p with status := .loaded })

def getSetPage (cfg : Config) (set : PDBSet) (i : ℕ) (s : State) : Except Fault State := do
  let s ← checkIfOpen cfg set s
  match s.allPages (set, i) with
  | some p => repin cfg p (s.setPage p { s.page p with refCount := (s.page p).refCount + 1 })
  | none =>
    match s.pageLocations (set, i) with
    | none => createSetPage cfg set i s
    | some myInfo => loadSetPage cfg set i myInfo s

def isRemovalStillValid (p : ℕ) (s : State) : Bool :=
  let me := s.page p
  if me.refCount ≠ 0 then false
  else if me.status = .loading ∨ me.status = .unloading then false
  else if me.isAnon then true
  else
    match me.whichSet with
    | some set => s.allPages (set, me.pageNum) = some p
    | none => false

def recycle (p : ℕ) (s : State) : State :=
  let location := (s.page p).location
  { s with
    availablePositions := if location.startPos ≠ -1 then
        update s.availablePositions location.numBytes
          (s.availablePositions location.numBytes ++ [location.startPos])
      else s.availablePositions
    freeAnonPageNumbers := s.freeAnonPageNumbers ++ [(s.page p).pageNum] }

def giveBackFullPage (f : ℕ) (s : State) : Except Fault State := do
  let s ← clearUnused f { s with
    lastUsed := if s.numPinned f < 0 then lruErase ((-s.numPinned f).toNat % 2 ^ 32) s.lastUsed
      else s.lastUsed }
  .ok { s with emptyFullPages := s.emptyFullPages ++ [f] }

def giveBackMiniPage (f addr : ℕ) (s : State) : State :=
  let unused := s.unusedMiniPages f
  { s with
    unusedMiniPages := update s.unusedMiniPages f (unused.1 ++ [addr], unused.2)
    emptyMiniPages := update s.emptyMiniPages unused.2 (s.emptyMiniPages unused.2 ++ [addr]) }

def leaveFullPage (cfg : Config) (p addr : ℕ) (s : State) : Except Fault State := do
  let f := cfg.fullPage addr
  let miniPages ← eraseOne p (s.constituentPages f)
  let s := { s with
    constituentPages := update s.constituentPages f miniPages
    numPinned := update s.numPinned f (s.numPinned f - if (s.page p).pinned then 1 else 0) }
  if miniPages = [] then giveBackFullPage f s else .ok (giveBackMiniPage f addr s)

def freeAnonymousPage (cfg : Config) (p : ℕ) (s : State) : Except Fault State :=
  if ¬ isRemovalStillValid p s then .ok s
  else
    match (s.page p).bytes with
    | none => .ok (s.recycle p)
    | some addr => leaveFullPage cfg p addr (s.recycle p)

def downToZeroReferences (cfg : Config) (p : ℕ) (s : State) : Except Fault State :=
  if ¬ isRemovalStillValid p s then .ok s
  else if (s.page p).bytes = none then .ok (s.eraseFromAllPages (s.page p))
  else unpin cfg p s

def decRefCount (cfg : Config) (p : ℕ) (s : State) : Except Fault State :=
  let me := s.page p
  let s := s.setPage p { me with refCount := me.refCount - 1 }
  if me.refCount - 1 ≠ 0 then .ok s
  else if me.isAnon then freeAnonymousPage cfg p s
  else downToZeroReferences cfg p s

def write (p off : ℕ) (b : UInt8) (s : State) : Except Fault State := do
  let addr ← s.getBytes p
  .ok { s with memory := update s.memory (addr + off) b }

end State

inductive Op
  | getPage (maxBytes : ℕ)
  | getSetPage (set : PDBSet) (i : ℕ)
  | freezeSize (p numBytes : ℕ)
  | unpin (p : ℕ)
  | repin (p : ℕ)
  | drop (p : ℕ)
  | setDirty (p : ℕ)
  | write (p off : ℕ) (b : UInt8)
  deriving DecidableEq, Repr

def step (cfg : Config) : Op → State → Except Fault State
  | .getPage maxBytes, s => s.getPage cfg maxBytes
  | .getSetPage set i, s => s.getSetPage cfg set i
  | .freezeSize p numBytes, s => s.freezeSize cfg p numBytes
  | .unpin p, s => s.unpin cfg p
  | .repin p, s => s.repin cfg p
  | .drop p, s => s.decRefCount cfg p
  | .setDirty p, s => .ok (s.setPage p { s.page p with dirty := true })
  | .write p off b, s => s.write p off b

/-- A client asks for no more than a full page, calls through a handle it holds, freezes to at most the
current size and writes to the bytes of pages it has pinned. -/
def Op.Admissible (cfg : Config) (s : State) : Op → Prop
  | .getPage maxBytes => maxBytes ≤ cfg.pageSize
  | .getSetPage _ _ => True
  | .freezeSize p numBytes => 0 < (s.page p).refCount ∧ (s.page p).pinned ∧ ¬ (s.page p).sizeFrozen ∧
      numBytes ≤ cfg.miniPageSize (s.page p).location.numBytes
  | .unpin p | .repin p | .drop p => 0 < (s.page p).refCount
  | .setDirty p => 0 < (s.page p).refCount ∧ (s.page p).pinned
  | .write p off _ => 0 < (s.page p).refCount ∧ (s.page p).pinned ∧
      off < cfg.miniPageSize (s.page p).location.numBytes

end PlinyCompute.BufferManager
