import PlinyCompute.FeedingPageSet

namespace PlinyCompute.FeedingPageSet

open Transition
open Function (update update_of_ne update_self)

section

variable {α : Type}

def PageSet.getNumPages (s : PageSet α) : ℕ := ((List.range s.nextPage).filter fun k => (s.pages k).isSome).length

def PageSet.unpins (s : PageSet α) (page : ℕ) : List ℕ :=
  if s.numFinishedFeeders = s.numFeeders ∧ s.nextPage = page then []
  else if page ≠ 0 ∧ s.usagePolicy = .removeAfterUsed then
    match s.pages (page - 1) with
    | none => []
    | some info => if info.numUsers = 1 then [page - 1] else []
  else []

def World.unpins (call : Call α) (w : World α) : List ℕ :=
  match call with
  | .getNextPage workerID =>
    let page := w.pageSet.nextPageForWorker workerID
    if w.pageSet.ready page then w.pageSet.unpins page else []
  | .wake workerID =>
    match w.waiting workerID with
    | none => []
    | some page => if w.pageSet.ready page then w.pageSet.unpins page else []
  | _ => []

structure Traced (α : Type) where
  world : World α
  unpinned : List ℕ

def Traced.step (call : Call α) (t : Traced α) : Except Stop (Traced α) := do
  let w ← t.world.step call
  return ⟨w, t.unpinned ++ t.world.unpins call⟩

def Call.MayCome (numReaders numFeeders : ℕ) (call : Call α) (t : Traced α) : Prop :=
  match call with
  | .getNextPage workerID => workerID < numReaders ∧ t.world.waiting workerID = none
  | call => call.Valid numReaders numFeeders t.world

def World.GivesNull (w : World α) (r : ℕ) : Prop :=
  ∃ w', w.step (.getNextPage r) = .ok w' ∧ w'.ended r = true ∧ w'.received = w.received ∧ w'.waiting r = none

structure EndOfStream (numReaders : ℕ) (t : Traced α) : Prop where
  nullAgain : ∀ r < numReaders, t.world.ended r = true → t.world.GivesNull r
  removed : (∀ r < numReaders, t.world.ended r = true) →
    (∀ k < t.world.fed.length, k ∈ t.unpinned) ∧ t.world.pageSet.getNumPages = 0

end

section

variable {α : Type} {numReaders numFeeders : ℕ} {s s' : PageSet α} {w w' : World α} {t t' : Traced α}

def PageInfo.Wanted (numReaders : ℕ) (info : PageInfo α) : Prop := 0 < info.numUsers ∨ info.timesServed ≠ numReaders

theorem leave_ok {k : ℕ} (h : s.leave k = .ok s') : ∃ info left, s.pages k = some info ∧
    s' = { s with pages := update s.pages k left } ∧ (left = none → info.numUsers = 1) ∧
    ∀ info', left = some info' → info'.Wanted s.numReaders := by
  unfold PageSet.leave at h
  cases hinfo : s.pages k with
  | none => rw [hinfo] at h; cases h
  | some info =>
    rw [hinfo] at h
    dsimp only at h
    split_ifs at h with hzero hone hall
    · cases h
      exact ⟨info, none, rfl, rfl, fun _ => by omega, nofun⟩
    · cases h
      refine ⟨info, _, rfl, rfl, nofun, ?_⟩
      rintro _ ⟨⟩
      exact .inr hall
    · cases h
      refine ⟨info, _, rfl, rfl, nofun, ?_⟩
      rintro _ ⟨⟩
      exact .inl (by dsimp only; omega)

structure PagesServed (s s' : PageSet α) (page : ℕ) : Prop where
  usagePolicy : s'.usagePolicy = s.usagePolicy
  wanted : ∀ k info, s'.pages k = some info → s.pages k = some info ∨ info.Wanted s.numReaders
  gone : ∀ k, s'.pages k = none → s.pages k = none ∨ k ∈ s.unpins page
  before : ∀ k ∈ s.unpins page, k + 1 = page ∧ s.pages page ≠ none

theorem pagesServed_of_serve {page : ℕ} {result : Option α} (hpolicy : s.usagePolicy = .removeAfterUsed)
    (h : s.serve page = .ok (result, s')) : PagesServed s s' page := by
  unfold PageSet.serve at h
  by_cases hnull : s.numFinishedFeeders = s.numFeeders ∧ s.nextPage = page
  · rw [if_pos hnull] at h
    cases h
    have hnone : s.unpins page = [] := by rw [PageSet.unpins, if_pos hnull]
    exact ⟨rfl, fun k info hk => .inl hk, fun k hk => .inl hk, by rw [hnone]; nofun⟩
  · rw [if_neg hnull] at h
    obtain ⟨s₁, hleave, h⟩ := bind_eq_ok.mp h
    -- the reader leaves the page before this one
    have hserved : ∀ left, s₁ = { s with pages := left } →
        (∀ k info, left k = some info → s.pages k = some info ∨ info.Wanted s.numReaders) →
        (∀ k, left k = none → s.pages k = none ∨ k ∈ s.unpins page) → left page = s.pages page →
        (∀ k ∈ s.unpins page, k + 1 = page) → PagesServed s s' page := by
      rintro left rfl hwanted hgone hpage hbefore
      dsimp only at h
      cases hinfo : left page with
      | none => rw [hinfo] at h; cases h
      | some info =>
        rw [hinfo] at h
        dsimp only at h
        rw [if_pos hpolicy] at h
        cases h
        refine ⟨rfl, ?_, ?_, fun k hk => ⟨hbefore k hk, by rw [← hpage, hinfo]; nofun⟩⟩
        · intro k info' hk
          dsimp only at hk
          by_cases hkp : k = page
          · subst hkp
            rw [update_self] at hk
            cases hk
            exact .inr (.inl (Nat.succ_pos _))
          · rw [update_of_ne hkp] at hk
            exact hwanted k info' hk
        · intro k hk
          dsimp only at hk
          by_cases hkp : k = page
          · subst hkp
            rw [update_self] at hk
            cases hk
          · rw [update_of_ne hkp] at hk
            exact hgone k hk
    by_cases hpage : page = 0
    · have hnot : ¬(page ≠ 0 ∧ s.usagePolicy = .removeAfterUsed) := fun hc => hc.1 hpage
      have hnone : s.unpins page = [] := by rw [PageSet.unpins, if_neg hnull, if_neg hnot]
      rw [if_neg hnot] at hleave
      cases hleave
      apply hserved s.pages rfl (fun k info hk => .inl hk) (fun k hk => .inl hk) rfl
      rw [hnone]
      nofun
    · rw [if_pos ⟨hpage, hpolicy⟩] at hleave
      obtain ⟨info, left, hinfo, rfl, hone, hleft⟩ := leave_ok hleave
      have hunpins : s.unpins page = if info.numUsers = 1 then [page - 1] else [] := by
        rw [PageSet.unpins, if_neg hnull, if_pos ⟨hpage, hpolicy⟩, hinfo]
      apply hserved _ rfl
      · intro k info' hk
        by_cases hkp : k = page - 1
        · subst hkp
          rw [update_self] at hk
          exact .inr (hleft info' hk)
        · rw [update_of_ne hkp] at hk
          exact .inl hk
      · intro k hk
        by_cases hkp : k = page - 1
        · subst hkp
          rw [update_self] at hk
          rw [hunpins, if_pos (hone hk)]
          exact .inr List.mem_cons_self
        · rw [update_of_ne hkp] at hk
          exact .inl hk
      · exact update_of_ne (by omega) ..
      · intro k hk
        rw [hunpins] at hk
        split_ifs at hk
        · rw [List.mem_singleton.mp hk]
          omega
        · cases hk

theorem answer_ok {r page : ℕ} (h : w.answer r page = .ok w') :
    ∃ result, w.pageSet.serve page = .ok (result, w'.pageSet) ∧ w'.fed = w.fed := by
  obtain ⟨⟨result, s⟩, hserve, h⟩ := bind_eq_ok.mp h
  cases result with
  | none => cases h; exact ⟨none, hserve, rfl⟩
  | some p => cases h; exact ⟨some p, hserve, rfl⟩

structure TracedKept (numReaders numFeeders : ℕ) (t : Traced α) : Prop where
  kept : Kept numReaders numFeeders t.world
  usagePolicy : t.world.pageSet.usagePolicy = .removeAfterUsed
  wanted : 0 < numReaders → ∀ k info, t.world.pageSet.pages k = some info → info.Wanted numReaders
  gone : ∀ k < t.world.fed.length, t.world.pageSet.pages k = none → k ∈ t.unpinned
  before : ∀ k ∈ t.unpinned, k + 1 < t.world.fed.length

theorem TracedKept.ended_call (h : TracedKept numReaders numFeeders t) {r : ℕ} (he : t.world.ended r = true) :
    t.world.step (.getNextPage r) = .error .assertion := by
  obtain ⟨hall, hfin⟩ := h.kept.ended r he
  have hcursor : t.world.pageSet.nextPageForWorker r = t.world.fed.length + 1 := by
    rw [h.kept.cursor r, hall, if_neg (by simp [he])]
  have hready : t.world.pageSet.ready (t.world.fed.length + 1) = true := by simp [PageSet.ready, hfin]
  have hnone : t.world.pageSet.pages t.world.fed.length = none := h.kept.fresh _ le_rfl
  have hnext := h.kept.nextPage
  rw [step_getNextPage, hcursor, if_pos hready]
  unfold World.answer PageSet.serve World.asks
  dsimp only
  rw [if_neg (by omega), if_pos ⟨by omega, h.usagePolicy⟩, PageSet.leave]
  dsimp only
  rw [Nat.add_sub_cancel, hnone]
  rfl

theorem TracedKept.serve (h : TracedKept numReaders numFeeders t) {page : ℕ} (hkept : Kept numReaders numFeeders w')
    (hserved : PagesServed t.world.pageSet w'.pageSet page) (hfed : w'.fed = t.world.fed) :
    TracedKept numReaders numFeeders ⟨w', t.unpinned ++ t.world.pageSet.unpins page⟩ := by
  refine ⟨hkept, ?_, ?_, ?_, ?_⟩
  · exact hserved.usagePolicy.trans h.usagePolicy
  · intro hpos k info hk
    rcases hserved.wanted k info hk with hk | hwanted
    · exact h.wanted hpos k info hk
    · rw [h.kept.readers] at hwanted
      exact hwanted
  · intro k hk hnone
    dsimp only at hk hnone ⊢
    rw [hfed] at hk
    rw [List.mem_append]
    rcases hserved.gone k hnone with hnone | hmem
    · exact .inl (h.gone k hk hnone)
    · exact .inr hmem
  · intro k hk
    dsimp only at hk ⊢
    rw [hfed]
    rcases List.mem_append.mp hk with hk | hk
    · exact h.before k hk
    · obtain ⟨rfl, hsome⟩ := hserved.before k hk
      by_contra hge
      exact hsome (h.kept.fresh _ (by omega))

theorem TracedKept.frame (h : TracedKept numReaders numFeeders t) (hkept : Kept numReaders numFeeders w')
    (hpages : w'.pageSet.pages = t.world.pageSet.pages) (hpolicy : w'.pageSet.usagePolicy = t.world.pageSet.usagePolicy)
    (hfed : w'.fed = t.world.fed) : TracedKept numReaders numFeeders ⟨w', t.unpinned ++ []⟩ := by
  rw [List.append_nil]
  refine ⟨hkept, hpolicy.trans h.usagePolicy, ?_, ?_, ?_⟩
  · intro hpos k info hk
    exact h.wanted hpos k info (hpages ▸ hk)
  · intro k hk hnone
    exact h.gone k (hfed ▸ hk) (hpages ▸ hnone)
  · intro k hk
    have := h.before k hk
    dsimp only
    rwa [hfed]

theorem TracedKept.feedPage (h : TracedKept numReaders numFeeders t) {f : ℕ} {p : α} {pinned : Bool}
    (hkept : Kept numReaders numFeeders w') (he : t.world.step (.feedPage f p pinned) = .ok w') :
    TracedKept numReaders numFeeders ⟨w', t.unpinned ++ []⟩ := by
  rw [List.append_nil]
  obtain ⟨s, hs, he⟩ := bind_eq_ok.mp he
  cases he
  have hnone : t.world.pageSet.pages t.world.pageSet.nextPage = none := by
    rw [h.kept.nextPage]
    exact h.kept.fresh _ le_rfl
  unfold PageSet.feedPage at hs
  split_ifs at hs
  cases hs
  rw [hnone] at hkept ⊢
  refine ⟨hkept, h.usagePolicy, ?_, ?_, ?_⟩
  · intro hpos k info hk
    dsimp only at hk
    by_cases hkn : k = t.world.pageSet.nextPage
    · subst hkn
      rw [update_self] at hk
      cases hk
      exact .inr (Nat.ne_of_lt hpos)
    · rw [update_of_ne hkn] at hk
      exact h.wanted hpos k info hk
  · intro k hk hgone
    dsimp only at hk hgone
    by_cases hkn : k = t.world.pageSet.nextPage
    · subst hkn
      rw [update_self] at hgone
      cases hgone
    · rw [update_of_ne hkn] at hgone
      rw [List.length_append, List.length_singleton] at hk
      rw [h.kept.nextPage] at hkn
      exact h.gone k (by omega) hgone
  · intro k hk
    have := h.before k hk
    simp only [List.length_append, List.length_singleton]
    omega

theorem TracedKept.step (h : TracedKept numReaders numFeeders t) {call : Call α}
    (hmay : call.MayCome numReaders numFeeders t) (he : t.step call = .ok t') : TracedKept numReaders numFeeders t' := by
  obtain ⟨w', hw, he⟩ := bind_eq_ok.mp he
  cases he
  have hvalid : call.Valid numReaders numFeeders t.world := by
    cases call with
    | getNextPage r =>
      refine ⟨hmay.1, hmay.2, ?_⟩
      by_contra hended
      rw [h.ended_call (by simpa using hended)] at hw
      cases hw
    | feedPage f p pinned => exact hmay
    | finishFeeding f => exact hmay
    | wake r => exact hmay
  have hkept : Kept numReaders numFeeders w' := by
    obtain ⟨w'', hrun, hkept⟩ := h.kept.step hvalid
    rw [hw] at hrun
    cases hrun
    exact hkept
  cases call with
  | feedPage f p pinned => exact h.feedPage hkept hw
  | finishFeeding f =>
    cases hw
    exact h.frame hkept rfl rfl rfl
  | getNextPage r =>
    rw [step_getNextPage] at hw
    unfold World.unpins
    dsimp only
    split_ifs at hw ⊢
    · obtain ⟨result, hserve, hfed⟩ := answer_ok hw
      have hserved := pagesServed_of_serve (s := (t.world.asks r).pageSet) h.usagePolicy hserve
      exact h.serve hkept ⟨hserved.usagePolicy, hserved.wanted, hserved.gone, hserved.before⟩ hfed
    · cases hw
      exact h.frame hkept rfl rfl rfl
  | wake r =>
    unfold World.unpins
    unfold World.step at hw
    dsimp only at hw ⊢
    cases hwait : t.world.waiting r with
    | none =>
      rw [hwait] at hw
      cases hw
      exact h.frame hkept rfl rfl rfl
    | some page =>
      rw [hwait] at hw
      dsimp only at hw ⊢
      split_ifs at hw ⊢
      · obtain ⟨result, hserve, hfed⟩ := answer_ok hw
        exact h.serve hkept (pagesServed_of_serve h.usagePolicy hserve) hfed
      · cases hw
        exact h.frame hkept rfl rfl rfl

theorem TracedKept.left (h : TracedKept numReaders numFeeders t) (hpos : 0 < numReaders)
    (hall : ∀ r < numReaders, t.world.ended r = true) (k : ℕ) :
    t.world.pageSet.pages k ≠ none ↔ k + 1 = t.world.fed.length := by
  have hreceived : ∀ r < numReaders, t.world.received r = t.world.fed := fun r hr => (h.kept.ended r (hall r hr)).1
  constructor
  · intro hsome
    obtain ⟨info, hinfo⟩ := Option.ne_none_iff_exists'.mp hsome
    have hlt : k < t.world.fed.length := by
      by_contra hge
      exact hsome (h.kept.fresh k (by omega))
    by_contra hne
    obtain ⟨husers, hserved⟩ := (h.kept.pages k info hinfo).counted h.usagePolicy
    have hnone : users numReaders t.world k = 0 := RangeSum.count_eq_zero.mpr fun r hr hk => by
      rw [hreceived r hr] at hk
      exact hne hk.symm
    have hfull : served numReaders t.world k = numReaders := RangeSum.count_eq_all.mpr fun r hr => by
      rw [hreceived r hr]
      exact hlt
    rcases h.wanted hpos k info hinfo with hused | hunserved
    · omega
    · omega
  · intro hk hnone
    have := h.kept.erased k (by omega) hnone 0 hpos
    rw [hreceived 0 hpos] at this
    omega

def tracedStart (numReaders numFeeders : ℕ) : Traced α := ⟨start numReaders numFeeders .removeAfterUsed, []⟩

theorem tracedKept_of_reachable (h : Reachable Traced.step (Call.MayCome numReaders numFeeders)
    (fun t => t = tracedStart numReaders numFeeders) t) : TracedKept numReaders numFeeders t := by
  apply h.invariant
  · rintro t rfl
    exact ⟨start_kept, rfl, nofun, nofun, nofun⟩
  · intro call t t' ht hmay he
    exact ht.step hmay he

theorem endOfStream_iff_of_reachable (numReaders numFeeders : ℕ) (t : Traced α)
    (h : Reachable Traced.step (Call.MayCome numReaders numFeeders) (fun t => t = tracedStart numReaders numFeeders) t) :
    (EndOfStream numReaders t ↔
      (∀ r < numReaders, t.world.ended r = false) ∧ (numReaders = 0 → t.world.fed = [])) ∧
      (∀ r < numReaders, t.world.ended r = true → t.world.step (.getNextPage r) = .error .assertion) ∧
      (0 < numReaders → (∀ r < numReaders, t.world.ended r = true) → ∀ k,
        (t.world.pageSet.pages k ≠ none ↔ k + 1 = t.world.fed.length) ∧
        (k ∈ t.unpinned ↔ k + 1 < t.world.fed.length)) := by
  have hkept := tracedKept_of_reachable h
  refine ⟨⟨?_, ?_⟩, fun r _ he => hkept.ended_call he, ?_⟩
  · rintro ⟨hnull, hremoved⟩
    constructor
    · intro r hr
      by_contra he
      rw [Bool.not_eq_false] at he
      obtain ⟨w', hw, -⟩ := hnull r hr he
      rw [hkept.ended_call he] at hw
      cases hw
    · rintro rfl
      obtain ⟨hunpinned, -⟩ := hremoved nofun
      by_contra hfed
      have hlen := List.length_pos_of_ne_nil hfed
      have := hkept.before _ (hunpinned (t.world.fed.length - 1) (by omega))
      omega
  · rintro ⟨hnone, hzero⟩
    constructor
    · intro r hr he
      rw [hnone r hr] at he
      cases he
    · intro hall
      cases numReaders with
      | zero =>
        have hnext := hkept.kept.nextPage
        rw [hzero rfl, List.length_nil] at hnext
        rw [hzero rfl, PageSet.getNumPages, hnext]
        exact ⟨nofun, rfl⟩
      | succ n =>
        have := hall 0 (Nat.succ_pos n)
        rw [hnone 0 (Nat.succ_pos n)] at this
        cases this
  · intro hpos hall k
    have hleft := hkept.left hpos hall k
    refine ⟨hleft, hkept.before k, ?_⟩
    intro hlt
    apply hkept.gone k (by omega)
    by_contra hsome
    have := hleft.mp hsome
    omega

theorem reachable_onePage : ∃ t : Traced ℕ,
    Reachable Traced.step (Call.MayCome 1 1) (fun t => t = tracedStart 1 1) t ∧ t.world.fed = [7] ∧
      t.world.ended 0 = true ∧ t.world.pageSet.getNumPages = 1 := by
  have hrun : Reachable Traced.step (Call.MayCome 1 1) (fun t : Traced ℕ => t = tracedStart 1 1) _ :=
    .step (i := .getNextPage 0)
      (.step (i := .getNextPage 0)
        (.step (i := .finishFeeding 0)
          (.step (i := .feedPage 0 7 true) (.start rfl) ⟨by decide, rfl⟩ rfl) ⟨by decide, rfl⟩ rfl)
        ⟨by decide, rfl⟩ rfl)
      ⟨by decide, rfl⟩ rfl
  exact ⟨_, hrun, rfl, rfl, rfl⟩

theorem endOfStream_onePage : ∃ t : Traced ℕ, t.world.fed = [7] ∧ t.world.pageSet.pages 0 ≠ none ∧
    t.world.step (.getNextPage 0) = .error .assertion := by
  obtain ⟨t, hrun, hfed, hended, -⟩ := reachable_onePage
  obtain ⟨-, hagain, hleft⟩ := endOfStream_iff_of_reachable 1 1 t hrun
  have hall : ∀ r < 1, t.world.ended r = true := by
    intro r hr
    rw [Nat.lt_one_iff.mp hr]
    exact hended
  refine ⟨t, hfed, ?_, hagain 0 Nat.one_pos hended⟩
  rw [(hleft Nat.one_pos hall 0).1, hfed]
  rfl

theorem not_endOfStream_onePage : ∃ t : Traced ℕ,
    Reachable Traced.step (Call.MayCome 1 1) (fun t => t = tracedStart 1 1) t ∧ ¬EndOfStream 1 t := by
  obtain ⟨t, hrun, -, hended, hnum⟩ := reachable_onePage
  refine ⟨t, hrun, ?_⟩
  intro h
  have hall : ∀ r < 1, t.world.ended r = true := by
    intro r hr
    rw [Nat.lt_one_iff.mp hr]
    exact hended
  have hzero := (h.removed hall).2
  rw [hnum] at hzero
  cases hzero

end

end PlinyCompute.FeedingPageSet
