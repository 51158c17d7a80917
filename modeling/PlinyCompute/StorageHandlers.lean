import PlinyCompute.RangeSum
import PlinyCompute.StorageFrontend
import PlinyCompute.Transition

namespace PlinyCompute.StorageHandlers

open Transition RangeSum StorageFrontend
open Function (update)

inductive BackendCall
  | connect
  | send
  | forward
  | wait
  deriving DecidableEq

inductive Response
  | stored
  | rejected
  -- there is no response, and it is not processed
  | lost
  deriving DecidableEq

inductive Handler
  | idle
  | received (set : SetId) (size : ℕ)
  | dispatching (call : BackendCall) (set : SetId) (page size : ℕ)
  -- before the clean-up of `handleDispatchFailure`
  | failed (set : SetId) (page size : ℕ)
  -- before the clean-up that processes a negative response
  | rejected (set : SetId) (page size : ℕ)
  -- before `endWritingToPage` is called without the lock
  | ending (set : SetId) (page : ℕ) (success : Bool)
  | materializing (set : SetId)
  | forwardingPage (set : SetId) (page : ℕ)
  | waitingForPage (set : SetId) (page : ℕ)
  | givingUp (set : SetId) (page : ℕ)
  | freezing (set : SetId) (page freezeSize : ℕ) (hasNext : Bool)
  deriving DecidableEq

inductive Write
  | never
  | writing
  | failed
  | stored
  deriving DecidableEq

/-- The front-end with its handlers. `lastWrite` tells how the last writer of a page has ended, and `storedSize` sums up
what has been stored in a set since it was cleared. -/
structure World where
  frontend : Frontend
  handler : ℕ → Handler
  lastWrite : SetId → ℕ → Write
  storedSize : SetId → ℕ

inductive Event
  | dispatch (h : ℕ) (set : SetId) (size : ℕ)
  | materialize (h : ℕ) (set : SetId)
  | takePage (h first : ℕ)
  | call (h : ℕ) (success : Bool)
  | respond (h : ℕ) (response : Response)
  | handleDispatchFailure (h : ℕ)
  | invalidate (h : ℕ)
  | endWriting (h : ℕ)
  | forwardPage (h : ℕ) (success : Bool)
  -- the frozen size of the page, and whether another one follows
  | pageResult (h : ℕ) (result : Option (ℕ × Bool))
  | giveUp (h : ℕ)
  | freezePage (h : ℕ)
  | clear (set : SetId)

def World.goto (w : World) (h : ℕ) (x : Handler) : World := { w with handler := update w.handler h x }

def World.writeEnds (w : World) (set : SetId) (page : ℕ) (x : Write) : World :=
  { w with lastWrite := update w.lastWrite set (update (w.lastWrite set) page x) }

def World.stores (w : World) (set : SetId) (page size : ℕ) : World :=
  { w.writeEnds set page .stored with
    storedSize := update w.storedSize set (w.storedSize set + size) }

def takePage (endReadsEmpty : Bool) (f : Frontend) (set : SetId) (first : ℕ) : Except Stop (ℕ × Frontend) := do
  let (page, f) ← getNextFreePage endReadsEmpty f set first
  return (page, startWritingToPage f set page)

def cleanUp (f : Frontend) (set : SetId) (page size : ℕ) : Except Stop Frontend :=
  decrementSetSize (freeSetPage (endWritingToPage f set page) set page) set size

/-- `handleClearSetRequest`, which removes the stats before it checks whether pages are being written to. -/
def handleClearSetRequest (f : Frontend) (set : SetId) : Bool × Frontend :=
  let f := { f with pageStats := f.pageStats.erase set }
  if (f.pagesBeingWrittenTo set).getD ∅ = ∅ then
    (true, { f with
      pagesBeingWrittenTo := update f.pagesBeingWrittenTo set none
      freeSkippedPages := update f.freeSkippedPages set none })
  else (false, f)

def World.step (endReadsEmpty : Bool) (e : Event) (w : World) : Except Stop World :=
  match e with
  | .dispatch h set size =>
    match w.handler h with
    | .idle => .ok (w.goto h (.received set size))
    | _ => .error .notThere
  | .materialize h set =>
    match w.handler h with
    | .idle => .ok (w.goto h (.materializing set))
    | _ => .error .notThere
  | .takePage h first =>
    match w.handler h with
    | .received set size => do
      let (page, f) ← takePage endReadsEmpty w.frontend set first
      let f ← incrementSetSize f set size
      return ({ w with frontend := f }.writeEnds set page .writing).goto h (.dispatching .connect set page size)
    | .materializing set => do
      let (page, f) ← takePage endReadsEmpty w.frontend set first
      return ({ w with frontend := f }.writeEnds set page .writing).goto h (.forwardingPage set page)
    | _ => .error .notThere
  | .call h success =>
    match w.handler h with
    | .dispatching .connect set page size =>
      -- the handler returns as it is
      if success then .ok (w.goto h (.dispatching .send set page size))
      else .ok ((w.writeEnds set page .failed).goto h .idle)
    | .dispatching .send set page size =>
      if success then .ok (w.goto h (.dispatching .forward set page size))
      else .ok ((w.writeEnds set page .failed).goto h (.failed set page size))
    | .dispatching .forward set page size =>
      if success then .ok (w.goto h (.dispatching .wait set page size))
      else .ok ((w.writeEnds set page .failed).goto h (.failed set page size))
    | _ => .error .notThere
  | .respond h response =>
    match w.handler h with
    | .dispatching .wait set page size =>
      match response with
      | .stored => .ok ((w.stores set page size).goto h (.ending set page true))
      | .rejected => .ok ((w.writeEnds set page .failed).goto h (.rejected set page size))
      | .lost => .ok ((w.writeEnds set page .failed).goto h (.ending set page false))
    | _ => .error .notThere
  | .handleDispatchFailure h =>
    match w.handler h with
    | .failed set page size => do
      let f ← cleanUp w.frontend set page size
      return { w with frontend := f }.goto h .idle
    | _ => .error .notThere
  | .invalidate h =>
    match w.handler h with
    | .rejected set page size => do
      let f ← cleanUp w.frontend set page size
      return { w with frontend := f }.goto h (.ending set page false)
    | _ => .error .notThere
  | .endWriting h =>
    match w.handler h with
    | .ending set page _ => .ok ({ w with frontend := endWritingToPage w.frontend set page }.goto h .idle)
    | _ => .error .notThere
  | .forwardPage h success =>
    match w.handler h with
    | .forwardingPage set page =>
      if success then .ok (w.goto h (.waitingForPage set page))
      else .ok ((w.writeEnds set page .failed).goto h (.givingUp set page))
    | _ => .error .notThere
  | .pageResult h result =>
    match w.handler h with
    | .waitingForPage set page =>
      match result with
      | some (freezeSize, hasNext) => .ok (w.goto h (.freezing set page freezeSize hasNext))
      | none => .ok ((w.writeEnds set page .failed).goto h (.givingUp set page))
    | _ => .error .notThere
  | .giveUp h =>
    match w.handler h with
    | .givingUp set page =>
      .ok ({ w with frontend := freeSetPage (endWritingToPage w.frontend set page) set page }.goto h .idle)
    | _ => .error .notThere
  | .freezePage h =>
    match w.handler h with
    | .freezing set page freezeSize hasNext => do
      let f ← incrementSetSize (endWritingToPage w.frontend set page) set freezeSize
      return ({ w with frontend := f }.stores set page freezeSize).goto h
        (if hasNext then .materializing set else .idle)
    | _ => .error .notThere
  | .clear set =>
    let (success, f) := handleClearSetRequest w.frontend set
    if success then
      .ok { w with
        frontend := f
        lastWrite := update w.lastWrite set fun _ => .never
        storedSize := update w.storedSize set 0 }
    else .ok { w with frontend := f }

def start : World := ⟨⟨∅, fun _ => none, fun _ => none⟩, fun _ => .idle, fun _ _ => .never, fun _ => 0⟩

def Starts (w : World) : Prop := w = start

def Handler.set? : Handler → Option SetId
  | .received set _ => some set
  | .materializing set => some set
  | _ => none

def Event.handler? : Event → Option ℕ
  | .dispatch h .. => some h
  | .materialize h _ => some h
  | .takePage h _ => some h
  | .call h _ => some h
  | .respond h _ => some h
  | .handleDispatchFailure h => some h
  | .invalidate h => some h
  | .endWriting h => some h
  | .forwardPage h _ => some h
  | .pageResult h _ => some h
  | .giveUp h => some h
  | .freezePage h => some h
  | .clear _ => none

def Event.Valid (numHandlers : ℕ) (e : Event) (w : World) : Prop :=
  (∀ h, e.handler? = some h → h < numHandlers) ∧
  match e with
  | .dispatch h .. => w.handler h = .idle
  | .materialize h _ => w.handler h = .idle
  | .takePage h first => ∃ set, (w.handler h).set? = some set ∧
    ∀ pages, w.frontend.freeSkippedPages set = some pages → pages ≠ ∅ → first ∈ pages
  | .call h _ => ∃ call set page size, w.handler h = .dispatching call set page size ∧ call ≠ .wait
  | .respond h _ => ∃ set page size, w.handler h = .dispatching .wait set page size
  | .handleDispatchFailure h => ∃ set page size, w.handler h = .failed set page size
  | .invalidate h => ∃ set page size, w.handler h = .rejected set page size
  | .endWriting h => ∃ set page success, w.handler h = .ending set page success
  | .forwardPage h _ => ∃ set page, w.handler h = .forwardingPage set page
  | .pageResult h _ => ∃ set page, w.handler h = .waitingForPage set page
  | .giveUp h => ∃ set page, w.handler h = .givingUp set page
  | .freezePage h => ∃ set page freezeSize hasNext, w.handler h = .freezing set page freezeSize hasNext
  | .clear _ => True

def Event.Harmless (endReadsEmpty : Bool) (e : Event) (w : World) : Prop :=
  match e with
  | .takePage h _ => endReadsEmpty = true ∨
    ∀ set, (w.handler h).set? = some set → w.frontend.freeSkippedPages set ≠ none
  | .call h success => success = false → ∀ set page size, w.handler h ≠ .dispatching .connect set page size
  | .respond _ response => response ≠ .lost
  | .endWriting h => ∀ set page, w.handler h = .ending set page false →
    isPageBeingWrittenTo w.frontend set page = false
  | .clear set => ∀ page, isPageBeingWrittenTo w.frontend set page = false
  | _ => True

def Handler.writes : Handler → Option (SetId × ℕ)
  | .dispatching _ set page _ => some (set, page)
  | .failed set page _ => some (set, page)
  | .rejected set page _ => some (set, page)
  | .ending set page true => some (set, page)
  | .forwardingPage set page => some (set, page)
  | .waitingForPage set page => some (set, page)
  | .givingUp set page => some (set, page)
  | .freezing set page _ _ => some (set, page)
  | _ => none

def setSize (f : Frontend) (set : SetId) : ℕ :=
  match f.pageStats.lookup set with
  | none => 0
  | some stats => stats.size

def World.Quiescent (numHandlers : ℕ) (w : World) : Prop := ∀ h < numHandlers, w.handler h = .idle

structure SoundStorage (endReadsEmpty : Bool) (numHandlers : ℕ) (w : World) : Prop where
  exclusive : ∀ h < numHandlers, ∀ h' < numHandlers, ∀ c, (w.handler h).writes = some c →
    (w.handler h').writes = some c → h = h'
  disjoint : ∀ set page, isPageFree w.frontend set page = true → isPageBeingWrittenTo w.frontend set page = false
  bounded : ∀ set page, isPageFree w.frontend set page = true ∨ isPageBeingWrittenTo w.frontend set page = true →
    pageExists w.frontend set page = true
  validPage : ∀ set page q, getValidPage w.frontend set page = some q → w.lastWrite set q = .stored
  setPages : ∀ set, ∀ q ∈ handleGetSetPages w.frontend set, w.lastWrite set q = .stored
  quiescent : w.Quiescent numHandlers → ∀ set, (∀ page, isPageBeingWrittenTo w.frontend set page = false) ∧
    setSize w.frontend set = w.storedSize set
  runs : ∀ e : Event, e.Valid numHandlers w → e.Harmless endReadsEmpty w → ∃ w', w.step endReadsEmpty e = .ok w'

end PlinyCompute.StorageHandlers
