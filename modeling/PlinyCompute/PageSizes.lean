import PlinyCompute.PageForwarding
import PlinyCompute.PageLabels

namespace PlinyCompute.PageSizes

open BufferManager SentPages PageForwarding Transition

structure BufGetPageRequest where
  dbName : Name
  setName : Name
  pageNumber : ℕ

structure BufGetPageResult where
  offset : Option ℕ
  pageNum : ℕ
  isAnonymous : Bool
  sizeFrozen : Bool
  isDirty : Bool := false
  startPos : ℤ
  numBytes : ℕ
  setName : Name
  dbName : Name

abbrev BufForwardPageRequest := BufGetPageResult

inductive Request
  | getPage (request : BufGetPageRequest)
  | getAnonymousPage (size : ℕ)
  -- the requests about a page that has been sent
  | sent (request : SentPages.Request)

inductive Result
  | getPage (result : BufGetPageResult)
  | response (response : Response)

inductive Phase
  | idle
  | requesting (object : Option Key) (request : Request)
  | responding (object : Option Key) (result : Result)

inductive Forward
  | idle
  | sent (key : Key) (request : BufForwardPageRequest)
  | acknowledged (key : Key)

/-- Both processes. No handle of a page is destroyed on the back end, so its pages are those in its `allPages`. The threads
of the front end keep the handles that they have got: `ownHandles` tells the pages. -/
structure World where
  frontEnd : FrontEnd
  ownHandles : ℕ → Bool
  allPages : Key → Option PDBPage
  thread : ℕ → Phase
  forward : ℕ → Forward

inductive Event
  -- the calls of the threads of the back end. `f` is the forward whose request `expectPage` reads
  | getPage (t : ℕ) (set : Option PDBSet) (i : ℕ)
  | getAnonymousPage (t minBytes : ℕ)
  | expectPage (t f : ℕ)
  | freezeSize (t : ℕ) (key : Key) (numBytes : ℕ)
  | unpin (t : ℕ) (key : Key)
  | repin (t : ℕ) (key : Key)
  -- the front end handles the request of `t`, and `t` has the result
  | handle (t : ℕ)
  | receive (t : ℕ)
  -- the calls of the threads of the front end
  | frontGetSetPage (set : PDBSet) (i : ℕ)
  | frontGetPage (maxBytes : ℕ)
  | forwardPage (f page : ℕ)
  -- `f` has the acknowledgment
  | finish (f : ℕ)

section Source

def describe (me : PDBPage) : Except Fault BufGetPageResult :=
  if me.isAnon then .ok {
    offset := me.bytes, pageNum := me.pageNum, isAnonymous := me.isAnon, sizeFrozen := me.sizeFrozen
    startPos := me.location.startPos, numBytes := me.location.numBytes, setName := [], dbName := [] }
  else
    match me.whichSet with
    | none => .error .undefined
    | some set => .ok {
        offset := me.bytes, pageNum := me.pageNum, isAnonymous := me.isAnon, sizeFrozen := me.sizeFrozen
        startPos := me.location.startPos, numBytes := me.location.numBytes
        setName := set.setName, dbName := set.dbName }

variable (cfg : Config)

/-- The handle of the handler is gone when it returns, so the one in `sentPages` is the only one left of it. -/
def sendPageToBackend (page : ℕ) (fe : FrontEnd) : Except Fault (FrontEnd × BufGetPageResult) := do
  let me := fe.manager.page page
  let result ← describe me
  let key := (me.whichSet, me.pageNum)
  let fe ← destroy cfg ((fe.sentPages key).bind SentPage.release)
    { fe with sentPages := Function.update fe.sentPages key (some ⟨page, true⟩) }
  .ok (fe, result)

def handleGetPageRequest (request : BufGetPageRequest) (fe : FrontEnd) : Except Fault (FrontEnd × BufGetPageResult) := do
  let set : PDBSet := ⟨request.dbName, request.setName⟩
  let manager ← fe.manager.getSetPage cfg set request.pageNumber
  sendPageToBackend cfg (fe.manager.handleOf set request.pageNumber) { fe with manager := manager }

def handleGetAnonymousPageRequest (size : ℕ) (fe : FrontEnd) : Except Fault (FrontEnd × BufGetPageResult) := do
  let manager ← fe.manager.getPage cfg size
  sendPageToBackend cfg fe.manager.nextPage { fe with manager := manager }

def Request.handle (request : Request) (fe : FrontEnd) : Except Fault (FrontEnd × Result) :=
  match request with
  | .getPage request => do
    let (fe, result) ← handleGetPageRequest cfg request fe
    .ok (fe, .getPage result)
  | .getAnonymousPage size => do
    let (fe, result) ← handleGetAnonymousPageRequest cfg size fe
    .ok (fe, .getPage result)
  | .sent request => do
    let outcome ← request.handle cfg fe
    let fe ← destroy cfg outcome.released outcome.frontEnd
    .ok (fe, .response outcome.response)

def working (me : PDBPage) : Bool := me.status = .loading ∨ me.status = .unloading ∨ me.status = .freezing

def BufGetPageResult.set (result : BufGetPageResult) : PDBSet := ⟨result.dbName, result.setName⟩

/-- `sizeFrozen` is not taken over. -/
def fillIn (whichSet : Option PDBSet) (result : BufGetPageResult) (me : PDBPage) : PDBPage :=
  { me with
    isAnon := result.isAnonymous, pinned := true, dirty := result.isDirty, pageNum := result.pageNum
    whichSet := whichSet, location := ⟨result.startPos, result.numBytes⟩, bytes := result.offset, status := .loaded }

def fillInAny (result : BufGetPageResult) (me : PDBPage) : PDBPage :=
  fillIn (if result.isAnonymous then none else some result.set) result me

namespace World

variable (w : World)

def setPage (key : Key) (me : PDBPage) : World := { w with allPages := Function.update w.allPages key (some me) }

def setThread (t : ℕ) (phase : Phase) : World := { w with thread := Function.update w.thread t phase }

/-- A call that has to wait for the page comes here again when it is woken. -/
def getPage (t : ℕ) (set : Option PDBSet) (i : ℕ) : World :=
  let key := (set, i)
  let me := (w.allPages key).getD { whichSet := set, pageNum := i }
  if working me then w
  else if me.bytes ≠ none then w.setPage key { me with status := .loaded }
  else (w.setPage key { me with status := .loading }).setThread t
    (.requesting (some key) (.getPage ⟨set.elim [] PDBSet.dbName, set.elim [] PDBSet.setName, i⟩))

def getAnonymousPage (t minBytes : ℕ) : World :=
  if cfg.pageSize < minBytes then w else w.setThread t (.requesting none (.getAnonymousPage minBytes))

def request (t : ℕ) (key : Key) (me : PDBPage) (status : PDBPageStatus) (request : SentPages.Request) : World :=
  (w.setPage key { me with status := status }).setThread t (.requesting (some key) (.sent request))

def freezeSize (t : ℕ) (key : Key) (numBytes : ℕ) : Except Fault World :=
  match w.allPages key with
  | none => .error .undefined
  | some me =>
    if working me then .ok w
    else .ok (w.request t key me .freezing (.freezeSize ⟨me.whichSet, me.pageNum, numBytes⟩))

def unpin (t : ℕ) (key : Key) : Except Fault World :=
  match w.allPages key with
  | none => .error .undefined
  | some me =>
    if working me then .ok w
    else if me.bytes = none then .ok (w.setPage key { me with status := .notLoaded })
    else .ok (w.request t key me .unloading (.unpinPage ⟨me.whichSet, me.pageNum, me.dirty⟩))

def repin (t : ℕ) (key : Key) : Except Fault World :=
  match w.allPages key with
  | none => .error .undefined
  | some me =>
    if working me then .ok w
    else if me.bytes ≠ none then .ok (w.setPage key { me with status := .loaded })
    else .ok (w.request t key me .loading (.pinPage ⟨me.whichSet, me.pageNum⟩))

def finishCall (result : Result) (me : PDBPage) : Except Fault PDBPage :=
  match result with
  | .getPage result => .ok (fillIn (some result.set) result me)
  | .response (.bufFreezeRequestResult true) => .ok { me with sizeFrozen := true, status := .loaded }
  | .response (.bufPinPageResult offset true) => .ok { me with bytes := offset, status := .loaded }
  | .response (.simpleRequestResult true _) => .ok { me with bytes := none, status := .notLoaded }
  | .response _ => .error .exit

def receive (t : ℕ) : Except Fault World :=
  match w.thread t with
  | .responding (some key) result =>
    match w.allPages key with
    | none => .error .undefined
    | some me => do
      let me ← finishCall result me
      .ok ((w.setPage key me).setThread t .idle)
  | .responding none (.getPage result) =>
    let me := fillInAny result {}
    .ok ((w.setPage (me.whichSet, me.pageNum) me).setThread t .idle)
  | _ => .ok w

def handle (t : ℕ) : Except Fault World :=
  match w.thread t with
  | .requesting object request => do
    let (fe, result) ← request.handle cfg w.frontEnd
    .ok ({ w with frontEnd := fe }.setThread t (.responding object result))
  | _ => .ok w

def expectPage (f : ℕ) : World :=
  match w.forward f with
  | .sent key request =>
    let me := (w.allPages (some request.set, request.pageNum)).getD {}
    let received := { w with forward := Function.update w.forward f (.acknowledged key) }
    if working me then w
    else if me.bytes = none then received.setPage (some request.set, request.pageNum) (fillInAny request me)
    else received
  | _ => w

def forwardPage (f page : ℕ) : Except Fault World :=
  let me := w.frontEnd.manager.page page
  let key := (me.whichSet, me.pageNum)
  -- `assert (page->isPinned())`
  if ¬me.pinned then .error .exit
  else if w.frontEnd.forwarding key then .ok w
  else do
    let fe ← mark cfg key page w.frontEnd
    let request ← describe (fe.manager.page page)
    .ok { w with frontEnd := fe, forward := Function.update w.forward f (.sent key request) }

def finish (f : ℕ) : World :=
  match w.forward f with
  | .acknowledged key =>
    { w with frontEnd := finishForwarding key w.frontEnd, forward := Function.update w.forward f .idle }
  | _ => w

def keep (page : ℕ) (manager : State) : World :=
  { w with
    frontEnd := { w.frontEnd with manager := manager }
    ownHandles := Function.update w.ownHandles page true }

end World

def step (e : Event) (w : World) : Except Fault World :=
  match e with
  | .getPage t set i => .ok (w.getPage t set i)
  | .getAnonymousPage t minBytes => .ok (w.getAnonymousPage cfg t minBytes)
  | .expectPage _ f => .ok (w.expectPage f)
  | .freezeSize t key numBytes => w.freezeSize t key numBytes
  | .unpin t key => w.unpin t key
  | .repin t key => w.repin t key
  | .handle t => w.handle cfg t
  | .receive t => w.receive t
  | .frontGetSetPage set i => do
    let manager ← w.frontEnd.manager.getSetPage cfg set i
    .ok (w.keep (w.frontEnd.manager.handleOf set i) manager)
  | .frontGetPage maxBytes => do
    let manager ← w.frontEnd.manager.getPage cfg maxBytes
    .ok (w.keep w.frontEnd.manager.nextPage manager)
  | .forwardPage f page => w.forwardPage cfg f page
  | .finish f => .ok (w.finish f)

end Source

section Specification

variable (cfg : Config)

def Event.Valid (e : Event) (w : World) : Prop :=
  match e with
  | .getPage t _ _ | .getAnonymousPage t _ | .expectPage t _ | .freezeSize t _ _ | .unpin t _ | .repin t _ =>
    w.thread t = .idle
  | .forwardPage f page => w.forward f = .idle ∧ w.ownHandles page = true
  | _ => True

structure Starts (w : World) : Prop where
  nextPage : w.frontEnd.manager.nextPage = 0
  known : ∀ key, w.frontEnd.manager.allPages key = none
  listed : ∀ f, w.frontEnd.manager.constituentPages f = []
  free : w.frontEnd.manager.freeAnonPageNumbers = []
  sentPages : ∀ key, w.frontEnd.sentPages key = none
  ownHandles : ∀ page, w.ownHandles page = false
  allPages : ∀ key, w.allPages key = none
  thread : ∀ t, w.thread t = .idle
  forward : ∀ f, w.forward f = .idle

def World.Quiescent (w : World) : Prop := (∀ t, w.thread t = .idle) ∧ ∀ f, w.forward f = .idle

def World.front (w : World) (key : Key) : Option PDBPage :=
  (w.frontEnd.sentPages key).map fun sent => w.frontEnd.manager.page sent.page

def getSize (me : PDBPage) : ℕ := cfg.miniPageSize me.location.numBytes

structure SameSize (me front : PDBPage) : Prop where
  sizeFrozen : me.sizeFrozen = front.sizeFrozen
  numBytes : me.location.numBytes = front.location.numBytes
  within : ∀ offset < getSize cfg me, offset < getSize cfg front

def World.SizesAgree (w : World) : Prop :=
  ∀ key me, w.allPages key = some me → ∃ front, w.front (me.whichSet, me.pageNum) = some front ∧ SameSize cfg me front

def Request.Keeps (request : Request) (object : Option Key) (w : World) : Prop :=
  match request with
  | .sent (.freezeSize r) => ∀ front ∈ w.front (r.set, r.pageNumber), cfg.sizeClass r.freezeSize = front.location.numBytes
  | .sent (.unpinPage r) => ∀ front ∈ w.front (r.set, r.pageNumber), front.pinned = true →
      ∀ key ∈ object, ∀ me ∈ w.allPages key, me.sizeFrozen = true
  | _ => True

def Event.Sound (e : Event) (w : World) : Prop :=
  match e with
  | .getPage _ set _ => set ≠ none ∧ set ≠ some ⟨[], []⟩
  | .frontGetSetPage set _ => set ≠ ⟨[], []⟩
  | .handle t =>
    match w.thread t with
    | .requesting object request => request.Keeps cfg object w
    | _ => True
  | .receive t =>
    match w.thread t with
    | .responding (some key) (.getPage _) => ∀ me ∈ w.allPages key, ∀ front ∈ w.front key, me.sizeFrozen = front.sizeFrozen
    | _ => True
  | .expectPage _ f =>
    match w.forward f with
    | .sent key request =>
      let me := (w.allPages (some request.set, request.pageNum)).getD {}
      working me = false → me.bytes = none → ∀ front ∈ w.front key, me.sizeFrozen = front.sizeFrozen
    | _ => True
  | _ => True

end Specification

end PlinyCompute.PageSizes
