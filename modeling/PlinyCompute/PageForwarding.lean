import PlinyCompute.FrontEndRequests

namespace PlinyCompute.PageForwarding

open BufferManager SentPages Transition
open Function (update forall_update_iff update_of_ne update_self)

/-- Where a call to `forwardPage` is. A page keeps its set and its number, so it keeps its key. -/
inductive Phase
  | idle
  -- in `cv.wait`. `begun` is the number of forwards of the key that had ended when the wait began
  | waiting (key : Key) (page begun : ℕ)
  -- between `initForwarding` and the end of the exchange
  | exchanging (key : Key) (page : ℕ)
  -- the call has returned
  | ended (key : Key) (success : Bool)
  deriving DecidableEq

inductive Failure
  | notSent
  | noResponse
  | notReadable
  deriving DecidableEq

/-- The front end with the calls to `forwardPage` and what the back end holds. `notified` tells that the wait of a call has
been notified; `markedBy` and `ends` only record which call has put a key in `forwarding` and how many forwards of a key
have ended. -/
structure World where
  frontEnd : FrontEnd
  thread : ℕ → Phase
  notified : ℕ → Bool
  held : Key → Bool
  markedBy : Key → Option ℕ
  ends : Key → ℕ

inductive Event
  -- the call `f` gets a page
  | forwardPage (f page : ℕ)
  -- `cv.wait` looks at its condition again
  | wake (f : ℕ)
  -- the back end has the request of `f` and makes its page
  | expectPage (f : ℕ)
  | fail (f : ℕ) (failure : Failure)
  -- the response is read
  | finish (f : ℕ)
  -- a request of the back end is handled
  | request (request : Request)
  -- the back end lets its page go
  | release (key : Key)
  -- the last handle besides the one in `sentPages` is destroyed
  | letGo (key : Key)
  -- other threads of the front end call the buffer manager
  | others (manager : State)

section Source

variable (cfg : Config)

def destroy (handle : Option ℕ) (fe : FrontEnd) : Except Fault FrontEnd :=
  match handle with
  | none => .ok fe
  | some page => do
    let manager ← fe.manager.decRefCount cfg page
    .ok { fe with manager := manager }

def mark (key : Key) (page : ℕ) (fe : FrontEnd) : Except Fault FrontEnd :=
  destroy cfg ((fe.sentPages key).bind SentPage.release)
    { fe with
      sentPages := update fe.sentPages key (some ⟨page, false⟩)
      forwarding := update fe.forwarding key true }

def finishForwarding (key : Key) (fe : FrontEnd) : FrontEnd :=
  { fe with forwarding := update fe.forwarding key false }

namespace World

def begin (f : ℕ) (key : Key) (page : ℕ) (w : World) : Except Fault World := do
  let fe ← mark cfg key page w.frontEnd
  .ok { w with
    frontEnd := fe
    thread := update w.thread f (.exchanging key page)
    markedBy := update w.markedBy key (some f) }

def initForwarding (f page : ℕ) (w : World) : Except Fault World :=
  let me := w.frontEnd.manager.page page
  let key := (me.whichSet, me.pageNum)
  if w.frontEnd.forwarding key then
    .ok { w with
      thread := update w.thread f (.waiting key page (w.ends key))
      notified := update w.notified f false }
  else w.begin cfg f key page

def leave (f : ℕ) (key : Key) (success : Bool) (w : World) : World :=
  { w with
    thread := update w.thread f (.ended key success)
    ends := update w.ends key (w.ends key + 1) }

end World

def step : Event → World → Except Fault World
  | .forwardPage f page, w =>
    -- `assert (page->isPinned())`
    if (w.frontEnd.manager.page page).pinned then w.initForwarding cfg f page else .error .exit
  | .wake f, w =>
    match w.thread f with
    | .waiting key page _ => if w.frontEnd.forwarding key then .ok w else w.begin cfg f key page
    | _ => .ok w
  | .expectPage f, w =>
    match w.thread f with
    | .exchanging key _ => .ok { w with held := update w.held key true }
    | _ => .ok w
  | .fail f _, w =>
    match w.thread f with
    | .exchanging key _ => .ok (w.leave f key false)
    | _ => .ok w
  | .finish f, w =>
    match w.thread f with
    | .exchanging key _ =>
      .ok { w.leave f key true with
        frontEnd := finishForwarding key w.frontEnd
        markedBy := update w.markedBy key none }
    | _ => .ok w
  | .request request, w => do
    let outcome ← request.handle cfg w.frontEnd
    let fe ← destroy cfg outcome.released outcome.frontEnd
    .ok { w with frontEnd := fe }
  | .release key, w => .ok { w with held := update w.held key false }
  | .letGo key, w =>
    .ok { w with
      frontEnd := { w.frontEnd with
        sentPages := update w.frontEnd.sentPages key
          ((w.frontEnd.sentPages key).map fun sent => { sent with owned := true }) } }
  | .others manager, w => .ok { w with frontEnd := { w.frontEnd with manager := manager } }

end Source

def Event.Valid (e : Event) (w : World) : Prop :=
  match e with
  | .forwardPage f _ => w.thread f = .idle
  | .wake f => ∃ key page begun, w.thread f = .waiting key page begun
  | .expectPage f | .fail f _ | .finish f => ∃ key page, w.thread f = .exchanging key page
  | _ => True

structure Starts (w : World) : Prop where
  idle : ∀ f, w.thread f = .idle
  markedBy : ∀ key, w.markedBy key = none

def Waits (w : World) (g : ℕ) (key : Key) : Prop := ∃ page begun, w.thread g = .waiting key page begun

structure NoTrace (w : World) : Prop where
  unmarked : ∀ f key success, w.thread f = .ended key success →
    ¬(w.frontEnd.forwarding key = true ∧ w.markedBy key = some f)
  notified : ∀ g key page begun, w.thread g = .waiting key page begun → begun < w.ends key → w.notified g = true
  unsent : ∀ f key, w.thread f = .ended key false → w.held key = false →
    (∀ g page, w.thread g ≠ .exchanging key page) → w.frontEnd.sentPages key = none

def Event.Clean (e : Event) (w : World) : Prop :=
  match e with
  | .fail _ _ => False
  | .finish f => ∀ key page, w.thread f = .exchanging key page → ∀ g, ¬Waits w g key
  | _ => True

section Frames

variable {cfg : Config} {fe fe' : FrontEnd}

theorem destroy_forwarding {handle : Option ℕ} (h : destroy cfg handle fe = .ok fe') : fe'.forwarding = fe.forwarding := by
  cases handle with
  | none =>
    cases h
    rfl
  | some page =>
    obtain ⟨manager, -, h⟩ := bind_eq_ok.mp h
    cases h
    rfl

theorem mark_forwarding {key : Key} {page : ℕ} (h : mark cfg key page fe = .ok fe') :
    fe'.forwarding = update fe.forwarding key true := by
  rw [mark] at h
  rw [destroy_forwarding h]

theorem eraseFound_forwarding {key : Key} {released : Option ℕ} (h : fe.eraseFound key = .ok (fe', released)) :
    fe'.forwarding = fe.forwarding := by
  cases hsent : fe.sentPages key with
  | none =>
    rw [FrontEnd.eraseFound_of_none hsent] at h
    cases h
  | some sent =>
    rw [FrontEnd.eraseFound_of_some hsent] at h
    cases h
    rfl

theorem handle_forwarding {request : Request} {outcome : Outcome} (h : request.handle cfg fe = .ok outcome) :
    outcome.frontEnd.forwarding = fe.forwarding := by
  have hreturn : ∀ {key : Key} (fe₀ : FrontEnd) {fe₁ : FrontEnd} {released : Option ℕ},
      (if fe₀.forwarding key then .ok (fe₀, none) else fe₀.eraseFound key : Except Fault _) = .ok (fe₁, released) →
        fe₁.forwarding = fe₀.forwarding := by
    intro key fe₀ fe₁ released h
    split at h
    · cases h
      rfl
    · exact eraseFound_forwarding h
  cases request with
  | returnPage r =>
    unfold Request.handle FrontEnd.handleReturnPageRequest at h
    dsimp only at h
    split at h
    · cases h
      rfl
    · obtain ⟨⟨fe₁, released⟩, he, h⟩ := bind_eq_ok.mp h
      cases h
      exact hreturn (FrontEnd.setDirty _ fe) he
  | returnAnonPage r =>
    obtain ⟨_, -, h⟩ := bind_eq_ok.mp h
    obtain ⟨⟨fe₁, released⟩, he, h⟩ := bind_eq_ok.mp h
    cases h
    exact hreturn fe he
  | freezeSize r =>
    obtain ⟨_, -, h⟩ := bind_eq_ok.mp h
    obtain ⟨_, -, h⟩ := bind_eq_ok.mp h
    cases h
    rfl
  | pinPage r =>
    obtain ⟨_, -, h⟩ := bind_eq_ok.mp h
    obtain ⟨_, -, h⟩ := bind_eq_ok.mp h
    cases h
    rfl
  | unpinPage r =>
    obtain ⟨_, -, h⟩ := bind_eq_ok.mp h
    obtain ⟨_, -, h⟩ := bind_eq_ok.mp h
    cases h
    dsimp only
    split <;> rfl

end Frames

def Fits (w : World) (g : ℕ) : Phase → Prop
  | .idle => True
  | .waiting key _ begun => begun = w.ends key ∧ w.notified g = false
  | .exchanging key _ => w.frontEnd.forwarding key = true ∧ w.markedBy key = some g
  | .ended _ success => success = true

structure Marked (w : World) : Prop where
  fits : ∀ g, Fits w g (w.thread g)
  owner : ∀ key, ∀ f ∈ w.markedBy key, ∃ page, w.thread f = .exchanging key page

section Steps

variable {cfg : Config} {w w' : World} {e : Event} {f page : ℕ} {key : Key}

theorem Starts.marked (h : Starts w) : Marked w where
  fits g := by rw [h.idle g]; exact trivial
  owner key f hf := by rw [h.markedBy key] at hf; cases hf

theorem Marked.waiting (h : Marked w) {g begun : ℕ} (hg : w.thread g = .waiting key page begun) :
    begun = w.ends key ∧ w.notified g = false := by
  have hfits := h.fits g
  rw [hg] at hfits
  exact hfits

theorem Marked.exchanging (h : Marked w) (hf : w.thread f = .exchanging key page) :
    w.frontEnd.forwarding key = true ∧ w.markedBy key = some f := by
  have hfits := h.fits f
  rw [hf] at hfits
  exact hfits

theorem Marked.noTrace (h : Marked w) : NoTrace w where
  unmarked f key success hf hmark := by
    obtain ⟨page, hex⟩ := h.owner key f hmark.2
    rw [hf] at hex
    cases hex
  notified g key page begun hg hlt := absurd (h.waiting hg).1 (Nat.ne_of_lt hlt)
  unsent f key hf := by
    have hfits := h.fits f
    rw [hf] at hfits
    cases hfits

theorem Marked.frame (h : Marked w) (hforwarding : w'.frontEnd.forwarding = w.frontEnd.forwarding)
    (hthread : w'.thread = w.thread) (hnotified : w'.notified = w.notified) (hmarkedBy : w'.markedBy = w.markedBy)
    (hends : w'.ends = w.ends) : Marked w' := by
  refine ⟨fun g => ?_, ?_⟩
  · have hfits := h.fits g
    rw [hthread]
    unfold Fits at hfits ⊢
    rw [hforwarding, hnotified, hmarkedBy, hends]
    exact hfits
  · rw [hthread, hmarkedBy]
    exact h.owner

theorem Marked.owner_update (h : Marked w) {phase : Phase} {owner : Option ℕ}
    (howner : ∀ g ∈ owner, ∃ page, update w.thread f phase g = .exchanging key page)
    (hf : ∀ key' ≠ key, ∀ page, w.thread f ≠ .exchanging key' page) :
    ∀ key', ∀ g ∈ update w.markedBy key owner key',
      ∃ page, update w.thread f phase g = .exchanging key' page := by
  refine (forall_update_iff _ fun key' o =>
    ∀ g ∈ o, ∃ page, update w.thread f phase g = .exchanging key' page).mpr ⟨howner, fun key' hne g hg => ?_⟩
  obtain ⟨page, hp⟩ := h.owner key' g hg
  have hgf : g ≠ f := by
    rintro rfl
    exact hf key' hne page hp
  exact ⟨page, by rw [update_of_ne hgf, hp]⟩

theorem Marked.begin (h : Marked w) (hidle : ∀ key page, w.thread f ≠ .exchanging key page)
    (hfree : w.frontEnd.forwarding key = false) (he : w.begin cfg f key page = .ok w') : Marked w' := by
  obtain ⟨fe, hmark, he⟩ := bind_eq_ok.mp he
  cases he
  have hforwarding := mark_forwarding hmark
  constructor
  · refine (forall_update_iff _ _).mpr ⟨?_, fun g _ => ?_⟩
    · change fe.forwarding key = true ∧ _
      rw [hforwarding]
      exact ⟨update_self .., update_self ..⟩
    · have hfits := h.fits g
      cases hg : w.thread g with
      | exchanging key' page' =>
        obtain ⟨hk, howner⟩ := h.exchanging hg
        have hne : key' ≠ key := by
          rintro rfl
          rw [hfree] at hk
          cases hk
        change fe.forwarding key' = true ∧ update w.markedBy key _ key' = _
        rw [hforwarding, update_of_ne hne, update_of_ne hne]
        exact ⟨hk, howner⟩
      | idle => exact trivial
      | waiting key' page' begun => exact h.waiting hg
      | ended key' success => rwa [hg] at hfits
  · refine h.owner_update ?_ fun key' _ => hidle key'
    rintro g ⟨⟩
    exact ⟨page, update_self ..⟩

theorem Marked.wait (h : Marked w) (hidle : ∀ key page, w.thread f ≠ .exchanging key page) (key : Key) (page : ℕ) :
    Marked { w with
      thread := update w.thread f (.waiting key page (w.ends key))
      notified := update w.notified f false } := by
  constructor
  · refine (forall_update_iff _ _).mpr ⟨⟨rfl, update_self ..⟩, fun g hgf => ?_⟩
    have hfits := h.fits g
    cases hg : w.thread g with
    | waiting key' page' begun =>
      obtain ⟨hbegun, hnotified⟩ := h.waiting hg
      exact ⟨hbegun, (update_of_ne hgf _ _).trans hnotified⟩
    | idle => exact trivial
    | exchanging key' page' => exact h.exchanging hg
    | ended key' success => rwa [hg] at hfits
  · intro key' g hg
    obtain ⟨p, hp⟩ := h.owner key' g hg
    have hgf : g ≠ f := by
      rintro rfl
      exact hidle key' p hp
    exact ⟨p, (update_of_ne hgf _ _).trans hp⟩

theorem Marked.finish (h : Marked w) (hf : w.thread f = .exchanging key page) (halone : ∀ g, ¬Waits w g key) :
    Marked { w.leave f key true with
      frontEnd := finishForwarding key w.frontEnd
      markedBy := update w.markedBy key none } := by
  have howner := (h.exchanging hf).2
  constructor
  · refine (forall_update_iff _ _).mpr ⟨rfl, fun g hgf => ?_⟩
    have hfits := h.fits g
    cases hg : w.thread g with
    | exchanging key' page' =>
      obtain ⟨hk, hmark⟩ := h.exchanging hg
      have hne : key' ≠ key := by
        rintro rfl
        rw [howner] at hmark
        exact hgf (Option.some.inj hmark).symm
      change update w.frontEnd.forwarding key false key' = true ∧ update w.markedBy key none key' = _
      rw [update_of_ne hne, update_of_ne hne]
      exact ⟨hk, hmark⟩
    | waiting key' page' begun =>
      have hne : key' ≠ key := by
        rintro rfl
        exact halone g ⟨page', begun, hg⟩
      obtain ⟨hbegun, hnotified⟩ := h.waiting hg
      exact ⟨hbegun.trans (update_of_ne hne _ w.ends).symm, hnotified⟩
    | idle => exact trivial
    | ended key' success => rwa [hg] at hfits
  · refine h.owner_update nofun fun key' hne page' hf' => ?_
    rw [hf] at hf'
    cases hf'
    exact hne rfl

theorem Marked.step (h : Marked w) (hvalid : e.Valid w) (hclean : e.Clean w) (he : step cfg e w = .ok w') : Marked w' := by
  cases e with
  | forwardPage f page =>
    have hidle : ∀ key page, w.thread f ≠ .exchanging key page := by
      intro key page hf
      have hf' : w.thread f = .idle := hvalid
      rw [hf'] at hf
      cases hf
    unfold PageForwarding.step at he
    dsimp only at he
    split at he
    · unfold World.initForwarding at he
      dsimp only at he
      split at he
      · cases he
        exact h.wait hidle _ page
      case isFalse hfree => exact h.begin hidle (Bool.eq_false_iff.mpr hfree) he
    · cases he
  | wake f =>
    obtain ⟨key, page, begun, hf⟩ := hvalid
    unfold PageForwarding.step at he
    simp only [hf] at he
    split at he
    · cases he
      exact h
    case isFalse hfree =>
      refine h.begin ?_ (Bool.eq_false_iff.mpr hfree) he
      intro key page hf'
      rw [hf] at hf'
      cases hf'
  | expectPage f =>
    obtain ⟨key, page, hf⟩ := hvalid
    unfold PageForwarding.step at he
    simp only [hf] at he
    cases he
    exact h.frame rfl rfl rfl rfl rfl
  | fail f failure => exact absurd hclean id
  | finish f =>
    obtain ⟨key, page, hf⟩ := hvalid
    unfold PageForwarding.step at he
    simp only [hf] at he
    cases he
    exact h.finish hf (hclean key page hf)
  | request request =>
    obtain ⟨outcome, hhandle, he⟩ := bind_eq_ok.mp he
    obtain ⟨fe, hdestroy, he⟩ := bind_eq_ok.mp he
    cases he
    exact h.frame ((destroy_forwarding hdestroy).trans (handle_forwarding hhandle)) rfl rfl rfl rfl
  | release key =>
    cases he
    exact h.frame rfl rfl rfl rfl rfl
  | letGo key =>
    cases he
    exact h.frame rfl rfl rfl rfl rfl
  | others manager =>
    cases he
    exact h.frame rfl rfl rfl rfl rfl

theorem Marked.traced (h : Marked w) (hvalid : e.Valid w) (hclean : ¬e.Clean w)
    (he : PageForwarding.step cfg e w = .ok w') : ¬NoTrace w' := by
  intro htrace
  cases e with
  | fail f failure =>
    obtain ⟨key, page, hf⟩ := hvalid
    unfold PageForwarding.step at he
    simp only [hf] at he
    cases he
    exact htrace.unmarked f key false (update_self ..) (h.exchanging hf)
  | finish f =>
    obtain ⟨key, page, hf⟩ := hvalid
    refine hclean fun key' page' hf' g hg => ?_
    rw [hf] at hf'
    cases hf'
    obtain ⟨page', begun, hg⟩ := hg
    unfold PageForwarding.step at he
    simp only [hf] at he
    cases he
    obtain ⟨hbegun, hnotified⟩ := h.waiting hg
    have hgf : g ≠ f := by
      rintro rfl
      rw [hf] at hg
      cases hg
    have hlate := htrace.notified g key page' begun (by dsimp only [World.leave]; rw [update_of_ne hgf, hg])
      (by dsimp only [World.leave]; rw [update_self, hbegun]; exact Nat.lt_succ_self _)
    exact absurd (hnotified.symm.trans hlate) Bool.false_ne_true
  | forwardPage f page => exact hclean trivial
  | wake f => exact hclean trivial
  | expectPage f => exact hclean trivial
  | request request => exact hclean trivial
  | release key => exact hclean trivial
  | letGo key => exact hclean trivial
  | others manager => exact hclean trivial

theorem marked_of_reachable (h : Reachable (step cfg) (fun e w => e.Valid w ∧ e.Clean w) Starts w) : Marked w :=
  h.invariant (fun _ hs => hs.marked) fun _ _ _ hs hg he => hs.step hg.1 hg.2 he

theorem noTrace_iff (h : Reachable (step cfg) (fun e w => e.Valid w ∧ e.Clean w) Starts w) :
    NoTrace w ∧ ∀ e w', e.Valid w → step cfg e w = .ok w' → (NoTrace w' ↔ e.Clean w) := by
  have hmarked := marked_of_reachable h
  refine ⟨hmarked.noTrace, fun e w' hvalid he => ?_⟩
  constructor
  · intro htrace
    by_contra hclean
    exact hmarked.traced hvalid hclean he htrace
  · intro hclean
    exact (hmarked.step hvalid hclean he).noTrace

end Steps

section OnePage

def smallConfig : Config := ⟨20, 2, 2, [], 0, fun _ => none⟩

def onePage : World where
  frontEnd := { Request.idleFrontEnd with
    manager := Request.idleFrontEnd.manager.setPage 0
      { bytes := some 0, status := .loaded, pinned := true, refCount := 1, pageNum := 1 } }
  thread _ := .idle
  notified _ := false
  held _ := false
  markedBy _ := none
  ends _ := 0

theorem starts_onePage : Starts onePage := ⟨fun _ => rfl, fun _ => rfl⟩

def forwardingPage : World :=
  { onePage with
    frontEnd := { onePage.frontEnd with
      sentPages := update onePage.frontEnd.sentPages (none, 1) (some ⟨0, false⟩)
      forwarding := update onePage.frontEnd.forwarding (none, 1) true }
    thread := update onePage.thread 0 (.exchanging (none, 1) 0)
    markedBy := update onePage.markedBy (none, 1) (some 0) }

theorem step_onePage : step smallConfig (.forwardPage 0 0) onePage = .ok forwardingPage := rfl

theorem noTrace_iff_onePage : ∃ w, step smallConfig (.finish 0) forwardingPage = .ok w ∧
    w.thread 0 = .ended (none, 1) true ∧ NoTrace w ∧ ¬NoTrace (forwardingPage.leave 0 (none, 1) false) := by
  have hvalid : (Event.forwardPage 0 0).Valid onePage := rfl
  have hbegun : Reachable (step smallConfig) (fun e w => e.Valid w ∧ e.Clean w) Starts forwardingPage :=
    (Reachable.start starts_onePage).step ⟨hvalid, trivial⟩ step_onePage
  have hexchanging : ∃ key page, forwardingPage.thread 0 = .exchanging key page := ⟨(none, 1), 0, rfl⟩
  have hiff := (noTrace_iff hbegun).2
  have hclean : (Event.finish 0).Clean forwardingPage := by
    rintro key page - g ⟨page', begun, hg⟩
    by_cases h0 : g = 0
    · rw [h0] at hg
      cases hg
    · cases hg.symm.trans (update_of_ne h0 _ _)
  exact ⟨_, rfl, rfl, (hiff (.finish 0) _ hexchanging rfl).mpr hclean, (hiff (.fail 0 .notSent) _ hexchanging rfl).mp⟩

theorem not_noTrace_notSent : ∃ w, Reachable (step smallConfig) Event.Valid Starts w ∧ ¬NoTrace w := by
  have hvalid : (Event.forwardPage 0 0).Valid onePage := rfl
  have hexchanging : forwardingPage.thread 0 = .exchanging (none, 1) 0 := rfl
  have hbegun : Reachable (step smallConfig) Event.Valid Starts forwardingPage :=
    (Reachable.start starts_onePage).step hvalid step_onePage
  refine ⟨forwardingPage.leave 0 (none, 1) false, hbegun.step (i := .fail 0 .notSent) ⟨_, _, hexchanging⟩ rfl, ?_⟩
  intro h
  exact h.unmarked 0 (none, 1) false rfl ⟨rfl, rfl⟩

end OnePage

end PlinyCompute.PageForwarding
