import PlinyCompute.BufferManager

namespace PlinyCompute.BufferManager

open Function

namespace State

def takeSpace (cfg : Config) (k : ℕ) (s : State) : Except Fault (ℕ × State) :=
  match (s.emptyMiniPages k).getLast? with
  | none => .error .undefined
  | some space => do
    let f := cfg.fullPage space
    let unused ← eraseOne space (s.unusedMiniPages f).1
    .ok (space, { s with
      emptyMiniPages := update s.emptyMiniPages k (s.emptyMiniPages k).dropLast
      unusedMiniPages := update s.unusedMiniPages f (unused, (s.unusedMiniPages f).2) })

def newPage (cfg : Config) (bytesRequired space : ℕ) (s : State) : Except Fault State :=
  let pageNum := s.takePageNumber.1
  let s := s.takePageNumber.2
  let p := s.nextPage
  registerMiniPage cfg p { s.setPage p
    { pinned := true, dirty := true, bytes := some space, isAnon := true, pageNum := pageNum,
      location := ⟨-1, bytesRequired⟩, status := .loaded, refCount := 1 } with nextPage := p + 1 }

def killUnreferenced (p : ℕ) (s : State) : State :=
  if (s.page p).refCount = 0 then s.eraseFromAllPages (s.page p) else s

def leaveMemory (p : ℕ) (s : State) : State :=
  s.setPage p { s.page p with dirty := false, bytes := none }

end State

inductive Purpose
  | newPage (bytesRequired : ℕ)
  | repinned (p : ℕ) (myInfo : PDBPageInfo)
  | created (p : ℕ)
  | loaded (p : ℕ) (myInfo : PDBPageInfo)
  deriving DecidableEq

/-- Where a thread stands that does not hold the mutex. `evicting` stands between the two halves of the
loop over the pages of the full page `f`, where the page `p` is written to disk and `rest` comes after it.
`releasing` is a thread in `decRefCount` that has brought the count down to zero. -/
inductive Phase
  | idle
  | waitingForSpace (k : ℕ) (purpose : Purpose)
  | evicting (k f p : ℕ) (rest : List ℕ) (purpose : Purpose)
  | waitingForPage (p : ℕ)
  | reading (p space : ℕ) (myInfo : PDBPageInfo)
  | releasing (p : ℕ)
  deriving DecidableEq

structure World where
  state : State
  isCreatingSpace : ℕ → Bool
  phase : ℕ → Phase
  handles : List (ℕ × ℕ)

def initialWorld (cfg : Config) (memory : ℕ → UInt8) (files : ℕ → ℕ → UInt8) : World where
  state := initialState cfg memory files
  isCreatingSpace _ := false
  phase _ := .idle
  handles := []

namespace World

open State

def setState (w : World) (s : State) : World := { w with state := s }

def setPhase (w : World) (t : ℕ) (phase : Phase) : World := { w with phase := update w.phase t phase }

def addHandle (w : World) (t p : ℕ) : World := { w with handles := (t, p) :: w.handles }

def useSpace (cfg : Config) (t space : ℕ) (w : World) : Purpose → Except Fault World
  | .newPage bytesRequired => do
    let p := w.state.nextPage
    let s ← newPage cfg bytesRequired space w.state
    .ok (((w.setState s).addHandle t p).setPhase t .idle)
  | .repinned p myInfo => do
    let s := w.state
    let s ← registerMiniPage cfg p (s.setPage p { s.page p with bytes := some space })
    .ok ((w.setState (s.setPage p { s.page p with pinned := true })).setPhase t (.reading p space myInfo))
  | .created p => do
    let s := w.state
    let s ← registerMiniPage cfg p (s.setPage p { s.page p with bytes := some space })
    let s := s.setPage p { s.page p with refCount := (s.page p).refCount + 1, status := .loaded }
    .ok (((w.setState s).addHandle t p).setPhase t .idle)
  | .loaded p myInfo => do
    let s := w.state
    let s ← registerMiniPage cfg p (s.setPage p { s.page p with bytes := some space })
    .ok ((w.setState s).setPhase t (.reading p space myInfo))

def takeSpace (cfg : Config) (t k : ℕ) (purpose : Purpose) (w : World) : Except Fault World := do
  let (space, s) ← w.state.takeSpace cfg k
  useSpace cfg t space (w.setState s) purpose

def breakUp (cfg : Config) (t k : ℕ) (purpose : Purpose) (w : World) : Except Fault World := do
  let s ← w.state.breakUp cfg k
  takeSpace cfg t k purpose { w with state := s, isCreatingSpace := update w.isCreatingSpace k false }

def finishEviction (cfg : Config) (t k f : ℕ) (purpose : Purpose) (w : World) : Except Fault World :=
  let s := setStatuses (w.state.constituentPages f) .notLoaded w.state
  breakUp cfg t k purpose (w.setState { s with
    constituentPages := update s.constituentPages f []
    emptyFullPages := s.emptyFullPages ++ [f]
    numPinned := update s.numPinned f 0 })

def evictPages (cfg : Config) (t k f : ℕ) (purpose : Purpose) : List ℕ → World → Except Fault World
  | [], w => finishEviction cfg t k f purpose w
  | p :: rest, w =>
    let me := w.state.page p
    if me.dirty then
      if me.isAnon then
        let pos := (takeTempPos cfg me.location.numBytes w.state).1
        let s := (takeTempPos cfg me.location.numBytes w.state).2
        let s := s.setPage p { me with location := { me.location with startPos := pos } }
        .ok ((w.setState s).setPhase t (.evicting k f p rest purpose))
      else .ok (w.setPhase t (.evicting k f p rest purpose))
    else evictPages cfg t k f purpose rest (w.setState (leaveMemory p (killUnreferenced p w.state)))

def evict (cfg : Config) (t k : ℕ) (purpose : Purpose) (w : World) : Except Fault World :=
  match w.state.lastUsed with
  | [] => .error .exit
  | (f, _) :: rest => do
    let pages := w.state.constituentPages f
    let s ← clearUnused f (setStatuses pages .unloading { w.state with lastUsed := rest })
    evictPages cfg t k f purpose pages (w.setState s)

/-- A thread that waits for another one to create pages of the size comes here again when it is woken. -/
def createAdditionalMiniPages (cfg : Config) (t k : ℕ) (purpose : Purpose) (w : World) : Except Fault World :=
  if w.isCreatingSpace k then .ok (w.setPhase t (.waitingForSpace k purpose))
  else if w.state.emptyMiniPages k ≠ [] then takeSpace cfg t k purpose w
  else
    let w := { w with isCreatingSpace := update w.isCreatingSpace k true }
    if w.state.emptyFullPages = [] then evict cfg t k purpose w else breakUp cfg t k purpose w

def getEmptyMemory (cfg : Config) (t k : ℕ) (purpose : Purpose) (w : World) : Except Fault World :=
  if cfg.logOfPageSize < k then .error .undefined
  else if w.state.emptyMiniPages k = [] then createAdditionalMiniPages cfg t k purpose w
  else takeSpace cfg t k purpose w

def finishWrite (cfg : Config) (t k f p : ℕ) (rest : List ℕ) (purpose : Purpose) (w : World) :
    Except Fault World := do
  let me := w.state.page p
  let fd ← (if me.isAnon then .ok cfg.tempFileFD else w.state.getFileDescriptor me.whichSet)
  let addr ← w.state.getBytes p
  let s ← w.state.pwrite fd addr (cfg.miniPageSize me.location.numBytes) me.location.startPos
  evictPages cfg t k f purpose rest
    (w.setState (leaveMemory p (if me.isAnon then s else killUnreferenced p s)))

def finishRead (cfg : Config) (t p space : ℕ) (myInfo : PDBPageInfo) (w : World) : Except Fault World := do
  let me := w.state.page p
  let fd ← (if me.isAnon then .ok cfg.tempFileFD else w.state.getFileDescriptor me.whichSet)
  let s ← w.state.pread fd space (cfg.miniPageSize myInfo.numBytes) myInfo.startPos
  .ok ((w.setState (s.setPage p { s.page p with status := .loaded })).setPhase t .idle)

def repinSettled (cfg : Config) (t p : ℕ) (w : World) : Except Fault World :=
  let s := w.state
  let me := s.page p
  if me.pinned then .ok (w.setPhase t .idle)
  else if me.bytes ≠ none then do
    let s ← pinParent cfg p (s.setPage p { me with pinned := true })
    .ok ((w.setState s).setPhase t .idle)
  else
    getEmptyMemory cfg t me.location.numBytes (.repinned p me.location)
      (w.setState (s.setPage p { me with status := .loading }))

def repin (cfg : Config) (t p : ℕ) (w : World) : Except Fault World :=
  let me := w.state.page p
  if me.status = .loading ∨ me.status = .unloading then .ok (w.setPhase t (.waitingForPage p))
  else repinSettled cfg t p w

def getPage (cfg : Config) (t maxBytes : ℕ) (w : World) : Except Fault World := do
  let bytesRequired ← getLogPageSize cfg maxBytes
  getEmptyMemory cfg t bytesRequired (.newPage bytesRequired) w

def createSetPage (cfg : Config) (t : ℕ) (set : PDBSet) (i : ℕ) (w : World) : Except Fault World :=
  let s := w.state
  let p := s.nextPage
  getEmptyMemory cfg t cfg.logOfPageSize (.created p) (w.setState { s.setPage p
    { pinned := true, dirty := true, whichSet := some set, pageNum := i, isAnon := false,
      location := ⟨i, cfg.logOfPageSize⟩, status := .loading } with
    nextPage := p + 1
    allPages := update s.allPages (set, i) (some p) })

def loadSetPage (cfg : Config) (t : ℕ) (set : PDBSet) (i : ℕ) (myInfo : PDBPageInfo) (w : World) :
    Except Fault World :=
  let s := w.state
  let p := s.nextPage
  getEmptyMemory cfg t myInfo.numBytes (.loaded p myInfo) ((w.setState { s.setPage p
    { pinned := true, dirty := false, whichSet := some set, pageNum := i, isAnon := false,
      location := myInfo, status := .loading, refCount := 1 } with
    nextPage := p + 1
    allPages := update s.allPages (set, i) (some p) }).addHandle t p)

def getSetPage (cfg : Config) (t : ℕ) (set : PDBSet) (i : ℕ) (w : World) : Except Fault World := do
  let s ← checkIfOpen cfg set w.state
  let w := w.setState s
  match s.allPages (set, i) with
  | some p =>
    repin cfg t p
      ((w.setState (s.setPage p { s.page p with refCount := (s.page p).refCount + 1 })).addHandle t p)
  | none =>
    match s.pageLocations (set, i) with
    | none => createSetPage cfg t set i w
    | some myInfo => loadSetPage cfg t set i myInfo w

/-- The count is changed under the lock of the page alone. -/
def decRefCount (t p : ℕ) (w : World) : World :=
  let s := w.state
  let me := s.page p
  let w := { w with
    state := s.setPage p { me with refCount := me.refCount - 1 }
    handles := w.handles.erase (t, p) }
  if me.refCount - 1 = 0 then w.setPhase t (.releasing p) else w

def release (cfg : Config) (t p : ℕ) (w : World) : Except Fault World := do
  let s ← (if (w.state.page p).isAnon then freeAnonymousPage cfg p w.state
    else downToZeroReferences cfg p w.state)
  .ok ((w.setState s).setPhase t .idle)

def resume (cfg : Config) (t : ℕ) (w : World) : Except Fault World :=
  match w.phase t with
  | .idle => .ok w
  | .waitingForSpace k purpose => createAdditionalMiniPages cfg t k purpose w
  | .evicting k f p rest purpose => finishWrite cfg t k f p rest purpose w
  | .waitingForPage p => repin cfg t p w
  | .reading p space myInfo => finishRead cfg t p space myInfo w
  | .releasing p => release cfg t p w

def share (p t' : ℕ) (w : World) : World :=
  let s := w.state
  (w.setState (s.setPage p { s.page p with refCount := (s.page p).refCount + 1 })).addHandle t' p

end World

inductive Event
  | getPage (t maxBytes : ℕ)
  | getSetPage (t : ℕ) (set : PDBSet) (i : ℕ)
  | repin (t p : ℕ)
  | unpin (t p : ℕ)
  | drop (t p : ℕ)
  | share (t p t' : ℕ)
  | resume (t : ℕ)
  deriving DecidableEq

def threadStep (cfg : Config) : Event → World → Except Fault World
  | .getPage t maxBytes, w => w.getPage cfg t maxBytes
  | .getSetPage t set i, w => w.getSetPage cfg t set i
  | .repin t p, w => w.repin cfg t p
  | .unpin _ p, w => do
    let s ← w.state.unpin cfg p
    .ok (w.setState s)
  | .drop t p, w => .ok (w.decRefCount t p)
  | .share _ p t', w => .ok (w.share p t')
  | .resume t, w => w.resume cfg t

def Event.Admissible (w : World) : Event → Prop
  | .getPage t _ | .getSetPage t _ _ => w.phase t = .idle
  | .repin t p | .unpin t p | .drop t p | .share t p _ => w.phase t = .idle ∧ (t, p) ∈ w.handles
  | .resume _ => True

instance Event.decidableAdmissible (w : World) : ∀ e : Event, Decidable (e.Admissible w)
  | .getPage t _ | .getSetPage t _ _ => inferInstanceAs (Decidable (w.phase t = .idle))
  | .repin t p | .unpin t p | .drop t p | .share t p _ =>
    inferInstanceAs (Decidable (w.phase t = .idle ∧ (t, p) ∈ w.handles))
  | .resume _ => inferInstanceAs (Decidable True)

end PlinyCompute.BufferManager
