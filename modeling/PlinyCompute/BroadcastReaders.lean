import PlinyCompute.FeedingPageSet

namespace PlinyCompute.BroadcastReaders

open FeedingPageSet Transition RangeSum
open Function (update update_of_ne update_self)

variable {α : Type}

inductive Phase
  -- in `getNextPage`
  | asking
  -- before the test for the output container
  | received
  -- before the `repin` of `writeOutPage`
  | writing
  -- in the loops over the records of the page
  | merging
  | finished
  deriving DecidableEq

/-- The page set with the workers that read it. `outputSink` tells whether a worker has its container. -/
structure Workers (α : Type) where
  world : World α
  phase : ℕ → Phase
  outputSink : ℕ → Bool

inductive Event (α : Type)
  -- a call to the page set
  | call (c : Call α)
  | createNewOutputContainer (workerID : ℕ)
  -- there is a container already
  | skip (workerID : ℕ)
  | repin (workerID : ℕ)
  | unpin (workerID : ℕ)

def setPinned (w : World α) (k : ℕ) (pinned : Bool) : World α :=
  let info := (w.pageSet.pages k).map fun info => { info with pinned := pinned }
  { w with pageSet := { w.pageSet with pages := update w.pageSet.pages k info } }

def inputPage (w : World α) (workerID : ℕ) : ℕ := (w.received workerID).length - 1

namespace Workers

def start (numReaders numFeeders : ℕ) (usagePolicy : UsagePolicy) : Workers α :=
  ⟨FeedingPageSet.start numReaders numFeeders usagePolicy, fun _ => .asking, fun _ => false⟩

def answered (s : Workers α) (w : World α) (workerID : ℕ) : Workers α :=
  { s with
    world := w
    phase := update s.phase workerID
      (if w.ended workerID then .finished else if w.waiting workerID = none then .received else .asking) }

def step : Event α → Workers α → Except Stop (Workers α)
  | .call (.getNextPage workerID), s => do return s.answered (← s.world.step (.getNextPage workerID)) workerID
  | .call (.wake workerID), s => do return s.answered (← s.world.step (.wake workerID)) workerID
  | .call c, s => do return { s with world := ← s.world.step c }
  | .createNewOutputContainer workerID, s =>
    .ok { s with
      world := setPinned s.world (inputPage s.world workerID) false
      phase := update s.phase workerID .writing
      outputSink := update s.outputSink workerID true }
  | .skip workerID, s => .ok { s with phase := update s.phase workerID .writing }
  | .repin workerID, s =>
    .ok { s with
      world := setPinned s.world (inputPage s.world workerID) true
      phase := update s.phase workerID .merging }
  | .unpin workerID, s =>
    .ok { s with
      world := setPinned s.world (inputPage s.world workerID) false
      phase := update s.phase workerID .asking }

end Workers

def Event.Valid (numReaders numFeeders : ℕ) (event : Event α) (s : Workers α) : Prop :=
  match event with
  | .call c => c.Valid numReaders numFeeders s.world ∧ match c with
    | .getNextPage workerID => s.phase workerID = .asking
    | .wake workerID => s.phase workerID = .asking
    | _ => True
  | .createNewOutputContainer workerID =>
    workerID < numReaders ∧ s.phase workerID = .received ∧ s.outputSink workerID = false
  | .skip workerID => workerID < numReaders ∧ s.phase workerID = .received ∧ s.outputSink workerID = true
  | .repin workerID => workerID < numReaders ∧ s.phase workerID = .writing
  | .unpin workerID => workerID < numReaders ∧ s.phase workerID = .merging

def Alone (numReaders : ℕ) (s : Workers α) (workerID : ℕ) : Prop :=
  ∀ r < numReaders, r ≠ workerID → s.phase r = .merging → inputPage s.world r ≠ inputPage s.world workerID

def Event.Unshared (numReaders : ℕ) (event : Event α) (s : Workers α) : Prop :=
  match event with
  | .createNewOutputContainer workerID => Alone numReaders s workerID
  | .unpin workerID => Alone numReaders s workerID
  | _ => True

def SafeReaders (numReaders : ℕ) (s : Workers α) : Prop :=
  ∀ r < numReaders, s.phase r = .merging →
    ∃ info, s.world.pageSet.pages (inputPage s.world r) = some info ∧ info.pinned = true

section Alike

def unpinned (info : PageInfo α) : PageInfo α := { info with pinned := false }

def Alike (p q : ℕ → Option (PageInfo α)) : Prop := ∀ k, (p k).map unpinned = (q k).map unpinned

theorem Alike.refl (p : ℕ → Option (PageInfo α)) : Alike p p := fun _ => rfl

theorem Alike.trans {p q r : ℕ → Option (PageInfo α)} (h : Alike p q) (h' : Alike q r) : Alike p r :=
  fun k => (h k).trans (h' k)

theorem Alike.none {p q : ℕ → Option (PageInfo α)} (h : Alike p q) {k : ℕ} (hk : q k = none) : p k = none := by
  have hpk := h k
  rw [hk, Option.map_none, Option.map_eq_none_iff] at hpk
  exact hpk

theorem Alike.some {p q : ℕ → Option (PageInfo α)} (h : Alike p q) {k : ℕ} {info : PageInfo α} (hk : q k = some info) :
    ∃ pinned, p k = some { info with pinned := pinned } := by
  have hpk := h k
  rw [hk] at hpk
  cases hp : p k with
  | none => simp [hp] at hpk
  | some info' =>
    rw [hp, Option.map_some, Option.map_some, Option.some.injEq, unpinned, unpinned, PageInfo.mk.injEq] at hpk
    obtain ⟨h1, h2, h3, -⟩ := hpk
    refine ⟨info'.pinned, congrArg Option.some ?_⟩
    rw [← h1, ← h2, ← h3]

theorem Alike.update {p q : ℕ → Option (PageInfo α)} (h : Alike p q) (k : ℕ) {x y : Option (PageInfo α)}
    (hxy : x.map unpinned = y.map unpinned) : Alike (Function.update p k x) (Function.update q k y) := by
  intro j
  by_cases hj : j = k
  · subst hj
    rw [Function.update_self, Function.update_self]
    exact hxy
  · rw [Function.update_of_ne hj, Function.update_of_ne hj]
    exact h j

theorem setPinned_alike (w : World α) (k : ℕ) (pinned : Bool) :
    Alike w.pageSet.pages (setPinned w k pinned).pageSet.pages := by
  intro j
  by_cases hj : j = k
  · subst hj
    simp only [setPinned, update_self, Option.map_map]
    rfl
  · simp only [setPinned, update_of_ne hj]

theorem leave_alike {s t : PageSet α} {p : ℕ → Option (PageInfo α)} (h : Alike p s.pages) {k : ℕ}
    (ht : s.leave k = .ok t) : ∃ q, PageSet.leave { s with pages := p } k = .ok { t with pages := q } ∧
      Alike q t.pages := by
  unfold PageSet.leave at ht ⊢
  cases hs : s.pages k with
  | none => simp [hs] at ht
  | some info =>
    obtain ⟨pinned, hp⟩ := h.some hs
    rw [hs] at ht
    simp only [hp] at ht ⊢
    split_ifs at ht ⊢
    · cases ht
      exact ⟨_, rfl, h.update k rfl⟩
    · cases ht
      exact ⟨_, rfl, h.update k rfl⟩
    · cases ht
      exact ⟨_, rfl, h.update k rfl⟩

theorem serve_alike {s t : PageSet α} {p : ℕ → Option (PageInfo α)} (h : Alike p s.pages) {k : ℕ} {result : Option α}
    (ht : s.serve k = .ok (result, t)) : ∃ q, PageSet.serve { s with pages := p } k = .ok (result, { t with pages := q }) ∧
      Alike q t.pages := by
  unfold PageSet.serve at ht ⊢
  dsimp only
  by_cases hnull : s.numFinishedFeeders = s.numFeeders ∧ s.nextPage = k
  · rw [if_pos hnull] at ht ⊢
    cases ht
    exact ⟨p, rfl, h⟩
  rw [if_neg hnull] at ht ⊢
  obtain ⟨s₁, hs₁, ht⟩ := bind_eq_ok.mp ht
  have hleft : ∃ p₁, (if k ≠ 0 ∧ s.usagePolicy = .removeAfterUsed then PageSet.leave { s with pages := p } (k - 1)
      else .ok { s with pages := p }) = .ok { s₁ with pages := p₁ } ∧ Alike p₁ s₁.pages := by
    by_cases hleave : k ≠ 0 ∧ s.usagePolicy = .removeAfterUsed
    · rw [if_pos hleave] at hs₁ ⊢
      exact leave_alike h hs₁
    · rw [if_neg hleave] at hs₁ ⊢
      cases hs₁
      exact ⟨p, rfl, h⟩
  obtain ⟨p₁, hp₁, halike⟩ := hleft
  rw [hp₁, ok_bind]
  cases hk : s₁.pages k with
  | none => simp [hk] at ht
  | some info =>
    obtain ⟨pinned, hpk⟩ := halike.some hk
    rw [hk] at ht
    cases ht
    simp only [hpk]
    refine ⟨update p₁ k (some { (if s₁.usagePolicy = .removeAfterUsed then
      { info with numUsers := info.numUsers + 1, timesServed := info.timesServed + 1 } else info) with pinned := true }),
      ?_, halike.update k ?_⟩
    · split_ifs <;> rfl
    · split_ifs <;> rfl

def withPages (w : World α) (p : ℕ → Option (PageInfo α)) : World α := { w with pageSet := { w.pageSet with pages := p } }

theorem answer_alike {w w' : World α} {p : ℕ → Option (PageInfo α)} (h : Alike p w.pageSet.pages) {r k : ℕ}
    (hw : w.answer r k = .ok w') : ∃ q, (withPages w p).answer r k = .ok (withPages w' q) ∧ Alike q w'.pageSet.pages := by
  unfold World.answer at hw ⊢
  obtain ⟨⟨result, t⟩, ht, hw⟩ := bind_eq_ok.mp hw
  obtain ⟨q, hq, halike⟩ := serve_alike h ht
  have hserve : (withPages w p).pageSet.serve k = .ok (result, { t with pages := q }) := hq
  rw [hserve, ok_bind]
  cases result with
  | none =>
    cases hw
    exact ⟨q, rfl, halike⟩
  | some page =>
    cases hw
    exact ⟨q, rfl, halike⟩

theorem step_alike {w w' : World α} {p : ℕ → Option (PageInfo α)} (h : Alike p w.pageSet.pages) {call : Call α}
    (hw : w.step call = .ok w') : ∃ q, (withPages w p).step call = .ok (withPages w' q) ∧ Alike q w'.pageSet.pages := by
  cases call with
  | feedPage feeder page pinned =>
    rw [World.step] at hw ⊢
    obtain ⟨t, ht, hw⟩ := bind_eq_ok.mp hw
    cases hw
    unfold PageSet.feedPage at ht
    split_ifs at ht with hfinished
    cases ht
    have hfinished' : ¬(withPages w p).pageSet.numFinishedFeeders = (withPages w p).pageSet.numFeeders := hfinished
    cases hk : w.pageSet.pages w.pageSet.nextPage with
    | none =>
      have hpk : (withPages w p).pageSet.pages (withPages w p).pageSet.nextPage = none := h.none hk
      rw [PageSet.feedPage, if_neg hfinished', hpk, ok_bind]
      refine ⟨update p w.pageSet.nextPage (some ⟨page, 0, 0, pinned⟩), rfl, ?_⟩
      simp only
      exact h.update _ rfl
    | some info =>
      obtain ⟨pinned', hpk⟩ := h.some hk
      have hpk' : (withPages w p).pageSet.pages (withPages w p).pageSet.nextPage =
        some { info with pinned := pinned' } := hpk
      rw [PageSet.feedPage, if_neg hfinished', hpk', ok_bind]
      exact ⟨p, rfl, by simpa only [hk] using h⟩
  | finishFeeding feeder =>
    cases hw
    exact ⟨p, rfl, h⟩
  | getNextPage r =>
    rw [step_getNextPage] at hw ⊢
    have hready : (withPages w p).pageSet.ready ((withPages w p).pageSet.nextPageForWorker r) =
      w.pageSet.ready (w.pageSet.nextPageForWorker r) := rfl
    rw [hready]
    split_ifs at hw ⊢
    · exact answer_alike (w := w.asks r) h hw
    · cases hw
      exact ⟨p, rfl, h⟩
  | wake r =>
    rw [World.step] at hw ⊢
    have hwaiting : (withPages w p).waiting r = w.waiting r := rfl
    rw [hwaiting]
    cases hk : w.waiting r with
    | none =>
      rw [hk] at hw
      cases hw
      exact ⟨p, rfl, h⟩
    | some k =>
      rw [hk] at hw
      have hready : (withPages w p).pageSet.ready k = w.pageSet.ready k := rfl
      dsimp only at hw ⊢
      rw [hready]
      split_ifs at hw ⊢
      · exact answer_alike h hw
      · cases hw
        exact ⟨p, rfl, h⟩

end Alike

section Calls

variable {numReaders numFeeders : ℕ}

def Counted (numReaders numFeeders : ℕ) (w : World α) : Prop :=
  ∃ p, Alike p w.pageSet.pages ∧ Kept numReaders numFeeders (withPages w p)

theorem Counted.step {w w' : World α} (h : Counted numReaders numFeeders w) {call : Call α}
    (hv : call.Valid numReaders numFeeders w) (hw : w.step call = .ok w') : Counted numReaders numFeeders w' := by
  obtain ⟨p, halike, hkept⟩ := h
  obtain ⟨q, hq, halike'⟩ := step_alike halike hw
  have hv' : call.Valid numReaders numFeeders (withPages w p) := by
    cases call <;> exact hv
  obtain ⟨v, hrun, hkept'⟩ := hkept.step hv'
  rw [hq, Except.ok.injEq] at hrun
  subst hrun
  exact ⟨q, halike', hkept'⟩

theorem Counted.setPinned {w : World α} (h : Counted numReaders numFeeders w) (k : ℕ) (pinned : Bool) :
    Counted numReaders numFeeders (setPinned w k pinned) := by
  obtain ⟨p, halike, hkept⟩ := h
  exact ⟨p, halike.trans (setPinned_alike w k pinned), hkept⟩

theorem Counted.held {w : World α} (h : Counted numReaders numFeeders w) {r k : ℕ} (hr : r < numReaders)
    (hk : (w.received r).length = k + 1) : ∃ info, w.pageSet.pages k = some info ∧
      (w.pageSet.usagePolicy = .removeAfterUsed → info.numUsers = users numReaders w k) := by
  obtain ⟨p, halike, hkept⟩ := h
  have hlt : k < w.fed.length := by
    have hle := (hkept.order r).length_le
    change (w.received r).length ≤ w.fed.length at hle
    omega
  cases hinfo : w.pageSet.pages k with
  | none =>
    have hgone : k + 1 < (w.received r).length := hkept.erased k hlt (halike.none hinfo) r hr
    omega
  | some info =>
    obtain ⟨pinned, hp⟩ := halike.some hinfo
    exact ⟨info, rfl, fun hpolicy => ((hkept.pages k _ hp).counted hpolicy).1⟩

theorem two_le_users {w : World α} {r r' k : ℕ} (hr : r < numReaders) (hr' : r' < numReaders) (hne : r ≠ r')
    (hk : (w.received r).length = k + 1) (hk' : (w.received r').length = k + 1) : 2 ≤ users numReaders w k := by
  unfold users count
  apply Finset.one_lt_card.mpr
  exact ⟨r, by simp [hr, hk], r', by simp [hr', hk'], hne⟩

structure Called (numReaders r : ℕ) (w w' : World α) : Prop where
  received : ∀ r', r' ≠ r → w'.received r' = w.received r'
  waiting : ∀ r', r' ≠ r → w'.waiting r' = w.waiting r'
  ended : ∀ r', r' ≠ r → w'.ended r' = w.ended r'
  got : w'.waiting r = none → w'.ended r = false → (w'.received r).length ≠ 0
  pins : ∀ r' < numReaders, r' ≠ r → ∀ k info, (w.received r').length = k + 1 → w.pageSet.pages k = some info →
    info.pinned = true → ∃ info', w'.pageSet.pages k = some info' ∧ info'.pinned = true

theorem leave_pins {w : World α} (h : Counted numReaders numFeeders w) {r k : ℕ} (hr : r < numReaders)
    (hk : (w.received r).length = k + 1) (hpolicy : w.pageSet.usagePolicy = .removeAfterUsed) {t : PageSet α}
    (ht : w.pageSet.leave k = .ok t) {r' j : ℕ} (hr' : r' < numReaders) (hne : r' ≠ r)
    (hj : (w.received r').length = j + 1) {info : PageInfo α} (hinfo : w.pageSet.pages j = some info)
    (hpinned : info.pinned = true) : ∃ info', t.pages j = some info' ∧ info'.pinned = true := by
  by_cases hjk : j = k
  · subst hjk
    obtain ⟨info', hinfo', hcount⟩ := h.held hr hk
    rw [hinfo, Option.some.injEq] at hinfo'
    subst hinfo'
    have htwo := two_le_users hr hr' hne.symm hk hj
    rw [PageSet.leave, hinfo] at ht
    dsimp only at ht
    rw [if_neg (by rw [hcount hpolicy]; omega), if_neg (by rw [hcount hpolicy]; omega)] at ht
    cases ht
    exact ⟨_, update_self .., hpinned⟩
  · refine ⟨info, ?_, hpinned⟩
    unfold PageSet.leave at ht
    split at ht
    · cases ht
    · split_ifs at ht
      all_goals
        cases ht
        dsimp only
        rw [update_of_ne hjk]
        exact hinfo

theorem answer_called {w w' : World α} (h : Counted numReaders numFeeders w) {r k : ℕ} (hr : r < numReaders)
    (hk : k = (w.received r).length) (hw : w.answer r k = .ok w') : Called numReaders r w w' := by
  unfold World.answer at hw
  obtain ⟨⟨result, t⟩, ht, hw⟩ := bind_eq_ok.mp hw
  have hpins : ∀ r' < numReaders, r' ≠ r → ∀ j info, (w.received r').length = j + 1 → w.pageSet.pages j = some info →
      info.pinned = true → ∃ info', t.pages j = some info' ∧ info'.pinned = true := by
    intro r' hr' hne j info hj hinfo hpinned
    unfold PageSet.serve at ht
    by_cases hnull : w.pageSet.numFinishedFeeders = w.pageSet.numFeeders ∧ w.pageSet.nextPage = k
    · rw [if_pos hnull] at ht
      cases ht
      exact ⟨info, hinfo, hpinned⟩
    · rw [if_neg hnull] at ht
      obtain ⟨s₁, hs₁, ht⟩ := bind_eq_ok.mp ht
      have hleft : ∃ info', s₁.pages j = some info' ∧ info'.pinned = true := by
        by_cases hleave : k ≠ 0 ∧ w.pageSet.usagePolicy = .removeAfterUsed
        · rw [if_pos hleave] at hs₁
          exact leave_pins h hr (by omega) hleave.2 hs₁ hr' hne hj hinfo hpinned
        · rw [if_neg hleave] at hs₁
          cases hs₁
          exact ⟨info, hinfo, hpinned⟩
      obtain ⟨info₁, hinfo₁, hpinned₁⟩ := hleft
      cases hpage : s₁.pages k with
      | none => simp [hpage] at ht
      | some info₂ =>
        rw [hpage] at ht
        cases ht
        dsimp only
        by_cases hjk : j = k
        · subst hjk
          exact ⟨_, update_self .., rfl⟩
        · rw [update_of_ne hjk]
          exact ⟨info₁, hinfo₁, hpinned₁⟩
  cases result with
  | none =>
    cases hw
    refine ⟨fun _ _ => rfl, fun r' hne => update_of_ne hne .., fun r' hne => update_of_ne hne .., ?_,
      hpins⟩
    intro _ hended
    dsimp only at hended
    rw [update_self] at hended
    cases hended
  | some page =>
    cases hw
    refine ⟨fun r' hne => update_of_ne hne .., fun r' hne => update_of_ne hne .., fun _ _ => rfl, ?_,
      hpins⟩
    intro _ _
    dsimp only
    rw [update_self, List.length_append, List.length_singleton]
    omega

theorem step_called {w w' : World α} (h : Counted numReaders numFeeders w) {r : ℕ} (hr : r < numReaders)
    {call : Call α} (hcall : call = .getNextPage r ∨ call = .wake r) (hv : call.Valid numReaders numFeeders w)
    (hw : w.step call = .ok w') : Called numReaders r w w' := by
  obtain rfl | rfl := hcall
  · rw [step_getNextPage] at hw
    obtain ⟨-, hnone, hended⟩ := hv
    have hnext : w.pageSet.nextPageForWorker r = (w.received r).length := by
      obtain ⟨p, -, hkept⟩ := h
      have hcursor := hkept.cursor r
      have hif : (withPages w p).waiting r = none ∧ (withPages w p).ended r = false := ⟨hnone, hended⟩
      rw [if_pos hif, Nat.add_zero] at hcursor
      exact hcursor
    have hothers : Called numReaders r w (w.asks r) := by
      refine ⟨fun _ _ => rfl, fun r' hne => update_of_ne hne .., fun _ _ => rfl, fun hwait => ?_,
        fun _ _ _ _ info _ hinfo hpinned => ⟨info, hinfo, hpinned⟩⟩
      simp [World.asks] at hwait
    split_ifs at hw
    · have hasks : Counted numReaders numFeeders (w.asks r) := by
        obtain ⟨p, halike, hkept⟩ := h
        exact ⟨p, halike, hkept.asks hnone hended⟩
      obtain ⟨h1, h2, h3, h4, h5⟩ := answer_called hasks hr (by exact hnext) hw
      exact ⟨h1, fun r' hne => (h2 r' hne).trans (hothers.waiting r' hne), h3, h4, h5⟩
    · cases hw
      exact hothers
  · obtain ⟨k, hk⟩ := Option.ne_none_iff_exists'.mp hv.2
    rw [World.step, hk] at hw
    dsimp only at hw
    split_ifs at hw
    · apply answer_called h hr _ hw
      obtain ⟨p, -, hkept⟩ := h
      exact (hkept.waiting r k hk).1
    · cases hw
      refine ⟨fun _ _ => rfl, fun _ _ => rfl, fun _ _ => rfl, fun hwait => ?_,
        fun _ _ _ _ info _ hinfo hpinned => ⟨info, hinfo, hpinned⟩⟩
      rw [hk] at hwait
      cases hwait

theorem feeder_pages {w w' : World α} {call : Call α}
    (hcall : (∃ f page pinned, call = .feedPage f page pinned) ∨ ∃ f, call = .finishFeeding f)
    (hw : w.step call = .ok w') : w'.received = w.received ∧
      ∀ k info, w.pageSet.pages k = some info → w'.pageSet.pages k = some info := by
  obtain ⟨f, page, pinned, rfl⟩ | ⟨f, rfl⟩ := hcall
  · rw [World.step] at hw
    obtain ⟨t, ht, hw⟩ := bind_eq_ok.mp hw
    cases hw
    refine ⟨rfl, fun k info hinfo => ?_⟩
    unfold PageSet.feedPage at ht
    split_ifs at ht
    cases ht
    dsimp only
    cases hnext : w.pageSet.pages w.pageSet.nextPage with
    | some _ => exact hinfo
    | none =>
      have hne : k ≠ w.pageSet.nextPage := by
        rintro rfl
        rw [hnext] at hinfo
        cases hinfo
      dsimp only
      rw [update_of_ne hne]
      exact hinfo
  · cases hw
    exact ⟨rfl, fun _ _ hinfo => hinfo⟩

end Calls

section Safety

variable {numReaders numFeeders : ℕ} {s s' : Workers α}

structure Working (numReaders numFeeders : ℕ) (s : Workers α) : Prop where
  counted : Counted numReaders numFeeders s.world
  holding : ∀ r < numReaders, s.phase r ≠ .asking → s.phase r ≠ .finished → (s.world.received r).length ≠ 0
  safe : SafeReaders numReaders s

theorem length_of_ne_zero {w : World α} {r : ℕ} (h : (w.received r).length ≠ 0) :
    (w.received r).length = inputPage w r + 1 := by
  unfold inputPage
  omega

theorem setPinned_self {w : World α} {k : ℕ} {info : PageInfo α} (h : w.pageSet.pages k = some info) (pinned : Bool) :
    (setPinned w k pinned).pageSet.pages k = some { info with pinned := pinned } := by
  simp only [setPinned, update_self, h, Option.map_some]

theorem setPinned_of_ne (w : World α) {j k : ℕ} (h : j ≠ k) (pinned : Bool) :
    (setPinned w k pinned).pageSet.pages j = w.pageSet.pages j := update_of_ne h ..

theorem Working.unpinned (h : Working numReaders numFeeders s) {r : ℕ} (hr : r < numReaders)
    (hholds : (s.world.received r).length ≠ 0)
    (hworld : s'.world = setPinned s.world (inputPage s.world r) false) {phase : Phase} (hphase : phase ≠ .merging)
    (hphases : s'.phase = update s.phase r phase) : SafeReaders numReaders s' ↔ Alone numReaders s r := by
  have hmerging {r' : ℕ} : s'.phase r' = .merging ↔ r' ≠ r ∧ s.phase r' = .merging := by
    rw [hphases]
    by_cases hne : r' = r
    · subst hne
      simp [hphase]
    · simp [hne]
  have hinput (r' : ℕ) : inputPage s'.world r' = inputPage s.world r' := by
    rw [hworld]
    rfl
  unfold SafeReaders Alone
  constructor
  · intro hsafe r' hr' hne hm heq
    obtain ⟨info, hinfo, hpinned⟩ := hsafe r' hr' (hmerging.mpr ⟨hne, hm⟩)
    obtain ⟨info', hinfo', -⟩ := h.counted.held hr (length_of_ne_zero hholds)
    rw [hinput, heq, hworld, setPinned_self hinfo', Option.some.injEq] at hinfo
    subst hinfo
    cases hpinned
  · intro halone r' hr' hm
    obtain ⟨hne, hm⟩ := hmerging.mp hm
    rw [hinput, hworld, setPinned_of_ne _ (halone r' hr' hne hm)]
    exact h.safe r' hr' hm

theorem Working.answered (h : Working numReaders numFeeders s) {r : ℕ} (hr : r < numReaders) {w : World α}
    (hcounted : Counted numReaders numFeeders w) (hcalled : Called numReaders r s.world w) :
    Working numReaders numFeeders (s.answered w r) := by
  refine ⟨hcounted, fun r' hr' hasking hfinished => ?_, fun r' hr' hm => ?_⟩
  · by_cases hne : r' = r
    · subst hne
      simp only [Workers.answered, update_self] at hasking hfinished ⊢
      split_ifs at hasking hfinished with hended hwaiting
      · exact absurd rfl hfinished
      · exact hcalled.got hwaiting (by simpa using hended)
      · exact absurd rfl hasking
    · simp only [Workers.answered, update_of_ne hne, hcalled.received r' hne] at hasking hfinished ⊢
      exact h.holding r' hr' hasking hfinished
  · by_cases hne : r' = r
    · subst hne
      simp only [Workers.answered, update_self] at hm
      split_ifs at hm
    · simp only [Workers.answered, update_of_ne hne] at hm ⊢
      obtain ⟨info, hinfo, hpinned⟩ := h.safe r' hr' hm
      have hlength := length_of_ne_zero (h.holding r' hr' (by simp [hm]) (by simp [hm]))
      have hinput : inputPage w r' = inputPage s.world r' := by rw [inputPage, hcalled.received r' hne, inputPage]
      rw [hinput]
      exact hcalled.pins r' hr' hne _ info hlength hinfo hpinned

theorem Working.step (h : Working numReaders numFeeders s) {event : Event α}
    (hv : event.Valid numReaders numFeeders s) (hs : s.step event = .ok s') :
    Counted numReaders numFeeders s'.world ∧
      (∀ r < numReaders, s'.phase r ≠ .asking → s'.phase r ≠ .finished → (s'.world.received r).length ≠ 0) ∧
      (SafeReaders numReaders s' ↔ event.Unshared numReaders s) := by
  have hkeep {r : ℕ} {phase : Phase} {pages} (hr : (s.world.received r).length ≠ 0) :
      ∀ r' < numReaders, update s.phase r phase r' ≠ .asking →
        update s.phase r phase r' ≠ .finished → ((withPages s.world pages).received r').length ≠ 0 := by
    intro r' hr' hasking hfinished
    by_cases hne : r' = r
    · subst hne
      exact hr
    · rw [update_of_ne hne] at hasking hfinished
      exact h.holding r' hr' hasking hfinished
  cases event with
  | call c =>
    have hcall {r : ℕ} (hr : r < numReaders) (hc : c = .getNextPage r ∨ c = .wake r)
        (hstep : (do return s.answered (← s.world.step c) r) = Except.ok s') :
        Working numReaders numFeeders s' := by
      obtain ⟨w, hw, hs⟩ := bind_eq_ok.mp hstep
      cases hs
      exact h.answered hr (h.counted.step hv.1 hw) (step_called h.counted hr hc hv.1 hw)
    have hfeed (hc : (∃ f page pinned, c = .feedPage f page pinned) ∨ ∃ f, c = .finishFeeding f)
        (hstep : (do return { s with world := ← s.world.step c }) = Except.ok s') :
        Working numReaders numFeeders s' := by
      obtain ⟨w, hw, hs⟩ := bind_eq_ok.mp hstep
      cases hs
      obtain ⟨hreceived, hpages⟩ := feeder_pages hc hw
      refine ⟨h.counted.step hv.1 hw, fun r hr => ?_, fun r hr hm => ?_⟩
      · dsimp only
        rw [hreceived]
        exact h.holding r hr
      · obtain ⟨info, hinfo, hpinned⟩ := h.safe r hr hm
        have hinput : inputPage w r = inputPage s.world r := by rw [inputPage, hreceived, inputPage]
        exact ⟨info, hinput ▸ hpages _ info hinfo, hpinned⟩
    have hworking : Working numReaders numFeeders s' := by
      cases c with
      | feedPage f page pinned => exact hfeed (Or.inl ⟨f, page, pinned, rfl⟩) hs
      | finishFeeding f => exact hfeed (Or.inr ⟨f, rfl⟩) hs
      | getNextPage r => exact hcall hv.1.1 (Or.inl rfl) hs
      | wake r => exact hcall hv.1.1 (Or.inr rfl) hs
    exact ⟨hworking.counted, hworking.holding, iff_of_true hworking.safe trivial⟩
  | createNewOutputContainer r =>
    cases hs
    obtain ⟨hr, hphase, -⟩ := hv
    have hholds := h.holding r hr (by simp [hphase]) (by simp [hphase])
    exact ⟨h.counted.setPinned _ _, hkeep hholds, h.unpinned hr hholds rfl (by simp) rfl⟩
  | skip r =>
    cases hs
    obtain ⟨hr, hphase, -⟩ := hv
    have hholds := h.holding r hr (by simp [hphase]) (by simp [hphase])
    refine ⟨h.counted, hkeep hholds, iff_of_true (fun r' hr' hm => ?_) trivial⟩
    have hne : r' ≠ r := by
      rintro rfl
      simp at hm
    simp only [update_of_ne hne] at hm
    exact h.safe r' hr' hm
  | repin r =>
    cases hs
    obtain ⟨hr, hphase⟩ := hv
    have hholds := h.holding r hr (by simp [hphase]) (by simp [hphase])
    refine ⟨h.counted.setPinned _ _, hkeep hholds, iff_of_true (fun r' hr' hm => ?_) trivial⟩
    obtain ⟨info, hinfo, -⟩ := h.counted.held hr (length_of_ne_zero hholds)
    by_cases hpage : inputPage s.world r' = inputPage s.world r
    · refine ⟨{ info with pinned := true }, ?_, rfl⟩
      change (setPinned s.world _ true).pageSet.pages (inputPage s.world r') = _
      rw [hpage]
      exact setPinned_self hinfo true
    · have hne : r' ≠ r := by
        rintro rfl
        exact hpage rfl
      simp only [update_of_ne hne] at hm
      obtain ⟨info', hinfo', hpinned⟩ := h.safe r' hr' hm
      exact ⟨info', (setPinned_of_ne _ hpage true).trans hinfo', hpinned⟩
  | unpin r =>
    cases hs
    obtain ⟨hr, hphase⟩ := hv
    have hholds := h.holding r hr (by simp [hphase]) (by simp [hphase])
    exact ⟨h.counted.setPinned _ _, hkeep hholds, h.unpinned hr hholds rfl (by simp) rfl⟩

theorem working_start (usagePolicy : UsagePolicy) :
    Working numReaders numFeeders (Workers.start numReaders numFeeders usagePolicy : Workers α) where
  counted := ⟨_, Alike.refl _, start_kept⟩
  holding _ _ hasking := absurd rfl hasking
  safe _ _ hm := nomatch hm

theorem safeReaders_of_reachable (numReaders numFeeders : ℕ) (usagePolicy : UsagePolicy) (s : Workers α)
    (hs : Reachable Workers.step (fun event s => event.Valid numReaders numFeeders s ∧ event.Unshared numReaders s)
      (· = Workers.start numReaders numFeeders usagePolicy) s) :
    SafeReaders numReaders s ∧ ∀ event s', event.Valid numReaders numFeeders s → s.step event = .ok s' →
      (SafeReaders numReaders s' ↔ event.Unshared numReaders s) := by
  have hworking : Working numReaders numFeeders s := by
    apply hs.invariant
    · rintro _ rfl
      exact working_start usagePolicy
    · rintro event s s' h ⟨hv, hunshared⟩ hstep
      obtain ⟨hcounted, hholding, hsafe⟩ := h.step hv hstep
      exact ⟨hcounted, hholding, hsafe.mpr hunshared⟩
  exact ⟨hworking.safe, fun event s' hv hstep => (hworking.step hv hstep).2.2⟩

theorem alone_of_two {r r' : ℕ} (hne : ∀ k < 2, k ≠ r → k = r') (h : s.phase r' ≠ .merging) : Alone 2 s r := by
  intro k hk hkr hm
  rw [hne k hk hkr] at hm
  exact absurd hm h

theorem safeReaders_two_workers : ∃ s : Workers ℕ, s.phase 0 = .asking ∧ s.phase 1 = .merging ∧
    s.world.received 0 = [7] ∧ s.world.received 1 = [7] ∧ SafeReaders 2 s := by
  have hone : ∀ k < 2, k ≠ 0 → k = 1 := by omega
  have hzero : ∀ k < 2, k ≠ 1 → k = 0 := by omega
  have hrun : Reachable Workers.step (fun event s => event.Valid 2 1 s ∧ event.Unshared 2 s)
      (fun s : Workers ℕ => s = Workers.start 2 1 .removeAfterUsed) _ :=
    .step (i := .repin 1)
      (.step (i := .createNewOutputContainer 1)
        (.step (i := .unpin 0)
          (.step (i := .repin 0)
            (.step (i := .createNewOutputContainer 0)
              (.step (i := .call (.getNextPage 1))
                (.step (i := .call (.getNextPage 0))
                  (.step (i := .call (.feedPage 0 7 true)) (.start rfl) ⟨⟨⟨by decide, rfl⟩, trivial⟩, trivial⟩ rfl)
                  ⟨⟨⟨by decide, rfl, rfl⟩, rfl⟩, trivial⟩ rfl)
                ⟨⟨⟨by decide, rfl, rfl⟩, rfl⟩, trivial⟩ rfl)
              ⟨⟨by decide, rfl, rfl⟩, alone_of_two hone (by decide)⟩ rfl)
            ⟨⟨by decide, rfl⟩, trivial⟩ rfl)
          ⟨⟨by decide, rfl⟩, alone_of_two hone (by decide)⟩ rfl)
        ⟨⟨by decide, rfl, rfl⟩, alone_of_two hzero (by decide)⟩ rfl)
      ⟨⟨by decide, rfl⟩, trivial⟩ rfl
  exact ⟨_, rfl, rfl, rfl, rfl, (safeReaders_of_reachable 2 1 .removeAfterUsed _ hrun).1⟩

theorem not_safeReaders : ¬∀ s : Workers ℕ, Reachable Workers.step (Event.Valid 2 1)
    (· = Workers.start 2 1 .removeAfterUsed) s → SafeReaders 2 s := by
  intro hsafe
  have hrun : Reachable Workers.step (Event.Valid 2 1) (fun s : Workers ℕ => s = Workers.start 2 1 .removeAfterUsed) _ :=
    .step (i := .createNewOutputContainer 1)
      (.step (i := .repin 0)
        (.step (i := .createNewOutputContainer 0)
          (.step (i := .call (.getNextPage 1))
            (.step (i := .call (.getNextPage 0))
              (.step (i := .call (.feedPage 0 7 true)) (.start rfl) ⟨⟨by decide, rfl⟩, trivial⟩ rfl)
              ⟨⟨by decide, rfl, rfl⟩, rfl⟩ rfl)
            ⟨⟨by decide, rfl, rfl⟩, rfl⟩ rfl)
          ⟨by decide, rfl, rfl⟩ rfl)
        ⟨by decide, rfl⟩ rfl)
      ⟨by decide, rfl, rfl⟩ rfl
  obtain ⟨info, hinfo, hpinned⟩ := hsafe _ hrun 0 (by decide) rfl
  cases hinfo
  cases hpinned

end Safety

end PlinyCompute.BroadcastReaders
