import PlinyCompute.BufferManager

namespace PlinyCompute.SentPages

open BufferManager Transition

abbrev Key := Option PDBSet × ℕ

/-- A handle in `sentPages`, by its page. `owned` tells that nobody else in the front end has the handle. -/
structure SentPage where
  page : ℕ
  owned : Bool
  deriving DecidableEq

def SentPage.release (sent : SentPage) : Option ℕ := if sent.owned then some sent.page else none

structure FrontEnd where
  manager : State
  sentPages : Key → Option SentPage
  forwarding : Key → Bool

structure BufReturnPageRequest where
  databaseName : Name
  setName : Name
  pageNumber : ℕ
  isDirty : Bool

structure BufReturnAnonPageRequest where
  pageNumber : ℕ
  isDirty : Bool

/-- `set` is `none` in the request for an anonymous page, here and in the next ones. -/
structure BufFreezeSizeRequest where
  set : Option PDBSet
  pageNumber : ℕ
  freezeSize : ℕ

structure BufPinPageRequest where
  set : Option PDBSet
  pageNumber : ℕ

structure BufUnpinPageRequest where
  set : Option PDBSet
  pageNumber : ℕ
  isDirty : Bool

inductive Response
  | simpleRequestResult (res : Bool) (errMsg : Name)
  | bufFreezeRequestResult (res : Bool)
  | bufPinPageResult (offset : Option ℕ) (success : Bool)
  deriving DecidableEq

structure Outcome where
  frontEnd : FrontEnd
  response : Response
  released : Option ℕ

namespace FrontEnd

def setDirty (p : ℕ) (fe : FrontEnd) : FrontEnd :=
  { fe with manager := fe.manager.setPage p { fe.manager.page p with dirty := true } }

def eraseSent (key : Key) (fe : FrontEnd) : FrontEnd :=
  { fe with sentPages := Function.update fe.sentPages key none }

def eraseFound (key : Key) (fe : FrontEnd) : Except Fault (FrontEnd × Option ℕ) :=
  match fe.sentPages key with
  | none => .error .undefined
  | some sent => .ok (fe.eraseSent key, sent.release)

def handleFound (key : Key) (fe : FrontEnd) : Except Fault ℕ :=
  match fe.sentPages key with
  | none => .error .undefined
  | some sent => .ok sent.page

def couldNotFind : Name := "Could not find the page to remove!".toList

def handleReturnPageRequest (request : BufReturnPageRequest) (fe : FrontEnd) : Except Fault Outcome :=
  let key := (some ⟨request.databaseName, request.setName⟩, request.pageNumber)
  match fe.sentPages key with
  | none => .ok ⟨fe, .simpleRequestResult false couldNotFind, none⟩
  | some sent => do
    let fe := fe.setDirty sent.page
    let (fe, released) ← (if fe.forwarding key then .ok (fe, none) else fe.eraseFound key)
    .ok ⟨fe, .simpleRequestResult true [], released⟩

def handleReturnAnonPageRequest (request : BufReturnAnonPageRequest) (fe : FrontEnd) : Except Fault Outcome := do
  let key := (none, request.pageNumber)
  -- the page is only asked whether it is dirty
  let _ ← (if request.isDirty then fe.handleFound key else .ok 0)
  let res := (fe.sentPages key).isSome
  let (fe, released) ← (if fe.forwarding key then .ok (fe, none) else fe.eraseFound key)
  .ok ⟨fe, .simpleRequestResult res (if res then [] else couldNotFind), released⟩

def handleFreezeSizeRequest (cfg : Config) (request : BufFreezeSizeRequest) (fe : FrontEnd) : Except Fault Outcome := do
  let key := (request.set, request.pageNumber)
  let res := (fe.sentPages key).isSome
  let handle ← fe.handleFound key
  let manager ← (if res then fe.manager.freezeSize cfg handle request.freezeSize else .ok fe.manager)
  .ok ⟨{ fe with manager := manager }, .bufFreezeRequestResult res, none⟩

def handlePinPageRequest (cfg : Config) (request : BufPinPageRequest) (fe : FrontEnd) : Except Fault Outcome := do
  let key := (request.set, request.pageNumber)
  let res := (fe.sentPages key).isSome
  let handle ← fe.handleFound key
  let manager ← (if res then fe.manager.repin cfg handle else .ok fe.manager)
  .ok ⟨{ fe with manager := manager }, .bufPinPageResult (manager.page handle).bytes res, none⟩

def handleUnpinPageRequest (cfg : Config) (request : BufUnpinPageRequest) (fe : FrontEnd) : Except Fault Outcome := do
  let key := (request.set, request.pageNumber)
  let res := (fe.sentPages key).isSome
  let handle ← fe.handleFound key
  let fe := if res ∧ request.isDirty then fe.setDirty handle else fe
  let manager ← (if res then fe.manager.unpin cfg handle else .ok fe.manager)
  .ok ⟨{ fe with manager := manager },
    .simpleRequestResult res (if res then [] else "Could not find the page to unpin page!".toList), none⟩

end FrontEnd

inductive Request
  | returnPage (request : BufReturnPageRequest)
  | returnAnonPage (request : BufReturnAnonPageRequest)
  | freezeSize (request : BufFreezeSizeRequest)
  | pinPage (request : BufPinPageRequest)
  | unpinPage (request : BufUnpinPageRequest)

namespace Request

def handle (cfg : Config) : Request → FrontEnd → Except Fault Outcome
  | .returnPage request, fe => fe.handleReturnPageRequest request
  | .returnAnonPage request, fe => fe.handleReturnAnonPageRequest request
  | .freezeSize request, fe => fe.handleFreezeSizeRequest cfg request
  | .pinPage request, fe => fe.handlePinPageRequest cfg request
  | .unpinPage request, fe => fe.handleUnpinPageRequest cfg request

def key : Request → Key
  | .returnPage request => (some ⟨request.databaseName, request.setName⟩, request.pageNumber)
  | .returnAnonPage request => (none, request.pageNumber)
  | .freezeSize request => (request.set, request.pageNumber)
  | .pinPage request => (request.set, request.pageNumber)
  | .unpinPage request => (request.set, request.pageNumber)

def isDirty : Request → Bool
  | .returnPage request => request.isDirty
  | .returnAnonPage request => request.isDirty
  | .unpinPage request => request.isDirty
  | _ => false

def response (offset : Option ℕ) (res : Bool) : Request → Response
  | .returnPage _ | .returnAnonPage _ => .simpleRequestResult res (if res then [] else FrontEnd.couldNotFind)
  | .freezeSize _ => .bufFreezeRequestResult res
  | .pinPage _ => .bufPinPageResult offset res
  | .unpinPage _ =>
    .simpleRequestResult res (if res then [] else "Could not find the page to unpin page!".toList)

def actOn (cfg : Config) (sent : SentPage) (request : Request) (fe : FrontEnd) : Except Fault Outcome :=
  match request with
  | .returnPage _ | .returnAnonPage _ =>
    if fe.forwarding request.key then .ok ⟨fe, request.response none true, none⟩
    else .ok ⟨fe.eraseSent request.key, request.response none true, sent.release⟩
  | .freezeSize r => do
    let manager ← fe.manager.freezeSize cfg sent.page r.freezeSize
    .ok ⟨{ fe with manager := manager }, request.response none true, none⟩
  | .pinPage _ => do
    let manager ← fe.manager.repin cfg sent.page
    .ok ⟨{ fe with manager := manager }, request.response (manager.page sent.page).bytes true, none⟩
  | .unpinPage _ => do
    let manager ← fe.manager.unpin cfg sent.page
    .ok ⟨{ fe with manager := manager }, request.response none true, none⟩

def Served (cfg : Config) (request : Request) (fe : FrontEnd) : Prop :=
  match fe.sentPages request.key with
  | none => ∃ offset, request.handle cfg fe = .ok ⟨fe, request.response offset false, none⟩
  | some sent => request.handle cfg fe =
      request.actOn cfg sent (if request.isDirty then fe.setDirty sent.page else fe)

/-- When the page is unknown, only the handler for pages of sets looks at the iterator before it uses it; the handler for
anonymous pages does not use it for a clean page that is marked as being forwarded. -/
def Guarded (request : Request) (fe : FrontEnd) : Prop :=
  match request with
  | .returnPage _ => True
  | .returnAnonPage r => r.isDirty = false ∧ fe.forwarding (none, r.pageNumber) = true
  | _ => False

def Marks (request : Request) (page : PDBPage) : Prop :=
  match request with
  | .returnPage r => r.isDirty = true ∨ page.dirty = true
  | .returnAnonPage r => r.isDirty = false ∨ page.dirty = true
  | _ => True

def Returns : Request → Prop
  | .returnPage _ | .returnAnonPage _ => True
  | _ => False

def Sound (request : Request) (fe : FrontEnd) : Prop :=
  match fe.sentPages request.key with
  | none => request.Guarded fe
  | some sent => request.Marks (fe.manager.page sent.page)

end Request

namespace FrontEnd

variable {fe : FrontEnd} {key : Key} {sent : SentPage}

theorem eraseFound_of_none (h : fe.sentPages key = none) : fe.eraseFound key = .error .undefined := by
  rw [eraseFound, h]

theorem eraseFound_of_some (h : fe.sentPages key = some sent) : fe.eraseFound key = .ok (fe.eraseSent key, sent.release) := by
  rw [eraseFound, h]

theorem handleFound_of_none (h : fe.sentPages key = none) : fe.handleFound key = .error .undefined := by
  rw [handleFound, h]

theorem handleFound_of_some (h : fe.sentPages key = some sent) : fe.handleFound key = .ok sent.page := by
  rw [handleFound, h]

theorem setDirty_eq_self_iff (p : ℕ) (fe : FrontEnd) : fe.setDirty p = fe ↔ (fe.manager.page p).dirty = true := by
  constructor
  · intro h
    have hdirty := congrArg (fun fe => (fe.manager.page p).dirty) h
    simpa [setDirty, State.setPage] using hdirty.symm
  · intro h
    have hpage : { fe.manager.page p with dirty := true } = fe.manager.page p := by rw [← h]
    rw [setDirty, State.setPage, hpage, Function.update_eq_self]

end FrontEnd

namespace Request

variable {cfg : Config} {request : Request} {fe : FrontEnd}

theorem served_unknown_iff (h : fe.sentPages request.key = none) : request.Served cfg fe ↔ request.Guarded fe := by
  unfold Served
  rw [h]
  cases request with
  | returnPage r =>
    refine iff_of_true ⟨none, ?_⟩ trivial
    unfold handle FrontEnd.handleReturnPageRequest
    have hkey : fe.sentPages (some ⟨r.databaseName, r.setName⟩, r.pageNumber) = none := h
    simp only [hkey]
    rfl
  | returnAnonPage r =>
    have hkey : fe.sentPages (none, r.pageNumber) = none := h
    unfold handle FrontEnd.handleReturnAnonPageRequest Guarded
    simp only [hkey, FrontEnd.handleFound_of_none hkey, FrontEnd.eraseFound_of_none hkey]
    cases hdirty : r.isDirty with
    | true => exact iff_of_false (fun ⟨_, h⟩ => nomatch h) fun h => nomatch h.1
    | false =>
      cases hforwarding : fe.forwarding (none, r.pageNumber) with
      | true => exact iff_of_true ⟨none, rfl⟩ ⟨rfl, rfl⟩
      | false => exact iff_of_false (fun ⟨_, h⟩ => nomatch h) fun h => nomatch h.2
  | freezeSize r =>
    have hkey : fe.sentPages (r.set, r.pageNumber) = none := h
    refine iff_of_false ?_ id
    rintro ⟨_, hhandle⟩
    rw [handle, FrontEnd.handleFreezeSizeRequest, FrontEnd.handleFound_of_none hkey] at hhandle
    cases hhandle
  | pinPage r =>
    have hkey : fe.sentPages (r.set, r.pageNumber) = none := h
    refine iff_of_false ?_ id
    rintro ⟨_, hhandle⟩
    rw [handle, FrontEnd.handlePinPageRequest, FrontEnd.handleFound_of_none hkey] at hhandle
    cases hhandle
  | unpinPage r =>
    have hkey : fe.sentPages (r.set, r.pageNumber) = none := h
    refine iff_of_false ?_ id
    rintro ⟨_, hhandle⟩
    rw [handle, FrontEnd.handleUnpinPageRequest, FrontEnd.handleFound_of_none hkey] at hhandle
    cases hhandle

theorem returns_returnPage (r : BufReturnPageRequest) : (Request.returnPage r).Returns := trivial

theorem returns_returnAnonPage (r : BufReturnAnonPageRequest) : (Request.returnAnonPage r).Returns := trivial

theorem actOn_of_returns (hreturn : request.Returns) (cfg : Config) (sent : SentPage) (fe : FrontEnd) :
    request.actOn cfg sent fe =
      if fe.forwarding request.key then .ok ⟨fe, request.response none true, none⟩
      else .ok ⟨fe.eraseSent request.key, request.response none true, sent.release⟩ := by
  cases request with
  | returnPage r => rfl
  | returnAnonPage r => rfl
  | freezeSize r => exact absurd hreturn id
  | pinPage r => exact absurd hreturn id
  | unpinPage r => exact absurd hreturn id

theorem actOn_setDirty_iff (hreturn : request.Returns) (sent : SentPage) (fe : FrontEnd) :
    request.actOn cfg sent (fe.setDirty sent.page) = request.actOn cfg sent fe ↔
      (fe.manager.page sent.page).dirty = true := by
  have hsame : (fe.setDirty sent.page).forwarding request.key = fe.forwarding request.key := rfl
  rw [← FrontEnd.setDirty_eq_self_iff, actOn_of_returns hreturn, actOn_of_returns hreturn, hsame]
  refine ⟨fun h => ?_, fun h => by rw [h]⟩
  by_cases hforwarding : fe.forwarding request.key = true
  · rw [if_pos hforwarding, if_pos hforwarding] at h
    exact congrArg Outcome.frontEnd (Except.ok.inj h)
  · rw [if_neg hforwarding, if_neg hforwarding] at h
    have hmanager : (fe.setDirty sent.page).manager = fe.manager :=
      congrArg (fun o => o.frontEnd.manager) (Except.ok.inj h)
    have hfe : fe.setDirty sent.page = { fe with manager := (fe.setDirty sent.page).manager } := rfl
    rw [hfe, hmanager]

theorem handle_returnPage {r : BufReturnPageRequest} {sent : SentPage}
    (h : fe.sentPages (Request.returnPage r).key = some sent) : (Request.returnPage r).handle cfg fe =
      (Request.returnPage r).actOn cfg sent (fe.setDirty sent.page) := by
  rw [Request.key] at h
  rw [actOn_of_returns (returns_returnPage r), handle, FrontEnd.handleReturnPageRequest, Request.key]
  simp only [h]
  by_cases hforwarding : (fe.setDirty sent.page).forwarding (some ⟨r.databaseName, r.setName⟩, r.pageNumber) = true
  · rw [if_pos hforwarding, if_pos hforwarding]
    rfl
  · have herase : (fe.setDirty sent.page).eraseFound (some ⟨r.databaseName, r.setName⟩, r.pageNumber) = .ok _ :=
      FrontEnd.eraseFound_of_some h
    rw [if_neg hforwarding, if_neg hforwarding, herase]
    rfl

theorem handle_returnAnonPage {r : BufReturnAnonPageRequest} {sent : SentPage}
    (h : fe.sentPages (Request.returnAnonPage r).key = some sent) : (Request.returnAnonPage r).handle cfg fe =
      (Request.returnAnonPage r).actOn cfg sent fe := by
  rw [Request.key] at h
  have hasked : (if r.isDirty then fe.handleFound (none, r.pageNumber) else .ok 0) =
      .ok (if r.isDirty then sent.page else 0) := by
    rw [FrontEnd.handleFound_of_some h]
    cases r.isDirty <;> rfl
  rw [actOn_of_returns (returns_returnAnonPage r), handle, FrontEnd.handleReturnAnonPageRequest, Request.key]
  simp only [hasked, h]
  by_cases hforwarding : fe.forwarding (none, r.pageNumber) = true
  · rw [if_pos hforwarding, if_pos hforwarding]
    rfl
  · rw [if_neg hforwarding, if_neg hforwarding, FrontEnd.eraseFound_of_some h]
    rfl

theorem served_known_iff {sent : SentPage} (h : fe.sentPages request.key = some sent) :
    request.Served cfg fe ↔ request.Marks (fe.manager.page sent.page) := by
  unfold Served
  rw [h]
  dsimp only
  cases request with
  | returnPage r =>
    rw [handle_returnPage h, Request.isDirty, Marks]
    cases r.isDirty with
    | true => simp
    | false =>
      simp only [Bool.false_eq_true, if_false, false_or]
      exact actOn_setDirty_iff (returns_returnPage r) sent fe
  | returnAnonPage r =>
    rw [handle_returnAnonPage h, Request.isDirty, Marks]
    cases r.isDirty with
    | false => simp
    | true =>
      simp only [if_true, Bool.true_eq_false, false_or]
      rw [eq_comm]
      exact actOn_setDirty_iff (returns_returnAnonPage r) sent fe
  | freezeSize r =>
    have hkey : fe.sentPages (r.set, r.pageNumber) = some sent := h
    refine iff_of_true ?_ trivial
    rw [handle, FrontEnd.handleFreezeSizeRequest, FrontEnd.handleFound_of_some hkey, hkey]
    rfl
  | pinPage r =>
    have hkey : fe.sentPages (r.set, r.pageNumber) = some sent := h
    refine iff_of_true ?_ trivial
    rw [handle, FrontEnd.handlePinPageRequest, FrontEnd.handleFound_of_some hkey, hkey]
    rfl
  | unpinPage r =>
    have hkey : fe.sentPages (r.set, r.pageNumber) = some sent := h
    refine iff_of_true ?_ trivial
    rw [handle, FrontEnd.handleUnpinPageRequest, FrontEnd.handleFound_of_some hkey, hkey]
    cases hdirty : r.isDirty <;> simp only [Request.isDirty, hdirty] <;> rfl

theorem served_iff (cfg : Config) (request : Request) (fe : FrontEnd) : request.Served cfg fe ↔ request.Sound fe := by
  unfold Sound
  cases h : fe.sentPages request.key with
  | none => exact served_unknown_iff h
  | some sent => exact served_known_iff h

def idleFrontEnd : FrontEnd where
  manager := initialState ⟨20, 2, 2, [], 0, fun _ => none⟩ (fun _ => 0) fun _ _ => 0
  sentPages := fun _ => none
  forwarding := fun _ => false

theorem not_served_pinPage : ¬(Request.pinPage ⟨none, 1⟩).Served ⟨20, 2, 2, [], 0, fun _ => none⟩ idleFrontEnd := by
  rintro ⟨_, h⟩
  cases h

end Request

end PlinyCompute.SentPages
