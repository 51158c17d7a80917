import PlinyCompute.RangeSum
import PlinyCompute.Transition

namespace PlinyCompute.FeedingPageSet

open Transition RangeSum
open Function (update update_of_ne update_self)

inductive UsagePolicy
  | removeAfterUsed
  | keepAfterUsed
  deriving DecidableEq

structure PageInfo (α : Type) where
  page : α
  numUsers : ℕ
  timesServed : ℕ
  pinned : Bool
  deriving DecidableEq

structure PageSet (α : Type) where
  usagePolicy : UsagePolicy
  pages : ℕ → Option (PageInfo α)
  nextPageForWorker : ℕ → ℕ
  numFinishedFeeders : ℕ
  numFeeders : ℕ
  numReaders : ℕ
  nextPage : ℕ

inductive Stop
  | assertion
  | runtimeError
  -- an unsigned counter would fall below zero
  | wrap
  deriving DecidableEq

section

variable {α : Type}

def create (numReaders numFeeders : ℕ) (usagePolicy : UsagePolicy) : PageSet α where
  usagePolicy := usagePolicy
  pages _ := none
  nextPageForWorker _ := 0
  numFinishedFeeders := 0
  numFeeders := numFeeders
  numReaders := numReaders
  nextPage := 0

def PageSet.ready (s : PageSet α) (page : ℕ) : Bool := s.numFinishedFeeders = s.numFeeders || page < s.nextPage

def PageSet.leave (s : PageSet α) (lastPage : ℕ) : Except Stop (PageSet α) :=
  match s.pages lastPage with
  | none => .error .assertion
  | some info =>
    if info.numUsers = 0 then .error .wrap
    else if info.numUsers - 1 = 0 then
      if info.timesServed = s.numReaders then .ok { s with pages := update s.pages lastPage none }
      else .ok { s with
        pages := update s.pages lastPage (some { info with numUsers := info.numUsers - 1, pinned := false }) }
    else .ok { s with
      pages := update s.pages lastPage (some { info with numUsers := info.numUsers - 1 }) }

def PageSet.serve (s : PageSet α) (page : ℕ) : Except Stop (Option α × PageSet α) :=
  if s.numFinishedFeeders = s.numFeeders ∧ s.nextPage = page then .ok (none, s)
  else do
    let s ← (if page ≠ 0 ∧ s.usagePolicy = .removeAfterUsed then s.leave (page - 1) else .ok s)
    match s.pages page with
    | none => .error .assertion
    | some info =>
      let info := if s.usagePolicy = .removeAfterUsed then
        { info with numUsers := info.numUsers + 1, timesServed := info.timesServed + 1 } else info
      return (some info.page, { s with pages := update s.pages page (some { info with pinned := true }) })

def PageSet.feedPage (s : PageSet α) (page : α) (pinned : Bool) : Except Stop (PageSet α) :=
  if s.numFinishedFeeders = s.numFeeders then .error .runtimeError
  else .ok { s with
    nextPage := s.nextPage + 1
    pages := match s.pages s.nextPage with
      | none => update s.pages s.nextPage (some ⟨page, 0, 0, pinned⟩)
      | some _ => s.pages }

def PageSet.finishFeeding (s : PageSet α) : PageSet α := { s with numFinishedFeeders := s.numFinishedFeeders + 1 }

/-- The page set with its readers and feeders. `waiting` is the page that a reader waits for, `ended` tells whether a
reader has got null. -/
structure World (α : Type) where
  pageSet : PageSet α
  waiting : ℕ → Option ℕ
  received : ℕ → List α
  ended : ℕ → Bool
  fed : List α
  finished : ℕ → Bool

inductive Call (α : Type)
  | feedPage (feeder : ℕ) (page : α) (pinned : Bool)
  | finishFeeding (feeder : ℕ)
  | getNextPage (workerID : ℕ)
  -- a reader that waits looks again
  | wake (workerID : ℕ)

def World.answer (w : World α) (workerID page : ℕ) : Except Stop (World α) := do
  let (result, s) ← w.pageSet.serve page
  let w := { w with pageSet := s, waiting := update w.waiting workerID none }
  match result with
  | none => return { w with ended := update w.ended workerID true }
  | some page =>
    return { w with received := update w.received workerID (w.received workerID ++ [page]) }

def World.step (call : Call α) (w : World α) : Except Stop (World α) :=
  match call with
  | .feedPage _ page pinned => do
    let s ← w.pageSet.feedPage page pinned
    return { w with pageSet := s, fed := w.fed ++ [page] }
  | .finishFeeding feeder =>
    .ok { w with pageSet := w.pageSet.finishFeeding, finished := update w.finished feeder true }
  | .getNextPage workerID =>
    let page := w.pageSet.nextPageForWorker workerID
    let w := { w with pageSet := { w.pageSet with
      nextPageForWorker := update w.pageSet.nextPageForWorker workerID (page + 1) } }
    if w.pageSet.ready page then w.answer workerID page
    else .ok { w with waiting := update w.waiting workerID (some page) }
  | .wake workerID =>
    match w.waiting workerID with
    | none => .ok w
    | some page => if w.pageSet.ready page then w.answer workerID page else .ok w

def Call.Valid (numReaders numFeeders : ℕ) (call : Call α) (w : World α) : Prop :=
  match call with
  | .feedPage feeder _ _ => feeder < numFeeders ∧ w.finished feeder = false
  | .finishFeeding feeder => feeder < numFeeders ∧ w.finished feeder = false
  | .getNextPage workerID => workerID < numReaders ∧ w.waiting workerID = none ∧ w.ended workerID = false
  | .wake workerID => workerID < numReaders ∧ w.waiting workerID ≠ none

def start (numReaders numFeeders : ℕ) (usagePolicy : UsagePolicy) : World α :=
  ⟨create numReaders numFeeders usagePolicy, fun _ => none, fun _ => [], fun _ => false, [], fun _ => false⟩

def World.Holds (w : World α) (workerID k : ℕ) : Prop :=
  (w.received workerID).length = k + 1 ∧ w.waiting workerID = none ∧ w.ended workerID = false

structure SoundFeeding (numReaders numFeeders : ℕ) (w : World α) : Prop where
  order : ∀ r < numReaders, w.received r <+: w.fed
  null : ∀ r < numReaders, w.ended r = true → (∀ f < numFeeders, w.finished f = true) ∧ w.received r = w.fed
  runs : ∀ call : Call α, call.Valid numReaders numFeeders w → ∃ w', w.step call = .ok w'
  held : ∀ r < numReaders, ∀ k, w.Holds r k → ∃ info, w.pageSet.pages k = some info ∧ w.fed[k]? = some info.page ∧
    info.pinned = true
  erased : ∀ k < w.fed.length, w.pageSet.pages k = none → ∀ r < numReaders, k < (w.received r).length

end

section

variable {α : Type} {numReaders numFeeders : ℕ} {usagePolicy : UsagePolicy}

def users (numReaders : ℕ) (w : World α) (k : ℕ) : ℕ := count numReaders w.received fun l => l.length = k + 1

def served (numReaders : ℕ) (w : World α) (k : ℕ) : ℕ := count numReaders w.received fun l => k < l.length

structure PageKept (numReaders : ℕ) (w : World α) (k : ℕ) (info : PageInfo α) : Prop where
  fed : w.fed[k]? = some info.page
  pinned : 0 < users numReaders w k → info.pinned = true
  counted : w.pageSet.usagePolicy = .removeAfterUsed → info.numUsers = users numReaders w k ∧
    info.timesServed = served numReaders w k

structure Kept (numReaders numFeeders : ℕ) (w : World α) : Prop where
  readers : w.pageSet.numReaders = numReaders
  feeders : w.pageSet.numFeeders = numFeeders
  nextPage : w.pageSet.nextPage = w.fed.length
  numFinished : w.pageSet.numFinishedFeeders = count numFeeders w.finished (· = true)
  order : ∀ r, w.received r <+: w.fed
  cursor : ∀ r, w.pageSet.nextPageForWorker r =
    (w.received r).length + if w.waiting r = none ∧ w.ended r = false then 0 else 1
  waiting : ∀ r k, w.waiting r = some k → k = (w.received r).length ∧ w.ended r = false
  ended : ∀ r, w.ended r = true → w.received r = w.fed ∧ w.pageSet.numFinishedFeeders = w.pageSet.numFeeders
  fresh : ∀ k, w.fed.length ≤ k → w.pageSet.pages k = none
  pages : ∀ k info, w.pageSet.pages k = some info → PageKept numReaders w k info
  erased : ∀ k < w.fed.length, w.pageSet.pages k = none → ∀ r < numReaders, k + 1 < (w.received r).length

theorem start_kept : Kept numReaders numFeeders (start numReaders numFeeders usagePolicy : World α) := by
  constructor
  · rfl
  · rfl
  · rfl
  · symm
    exact count_eq_zero.mpr fun f _ => nofun
  · intro r
    exact List.nil_prefix
  · intro r
    rfl
  · nofun
  · nofun
  · intro k _
    rfl
  · nofun
  · nofun

theorem users_append {w : World α} (w' : World α) {r : ℕ} {p : α} (hr : r < numReaders)
    (hw : w'.received = update w.received r (w.received r ++ [p])) (k : ℕ) :
    users numReaders w' k + (if (w.received r).length = k + 1 then 1 else 0) =
      users numReaders w k + if (w.received r).length = k then 1 else 0 := by
  have h := count_update (q := fun l : List α => l.length = k + 1) (g := w.received) hr (w.received r ++ [p])
  rw [← hw] at h
  simpa [users] using h

theorem served_append {w : World α} (w' : World α) {r : ℕ} {p : α} (hr : r < numReaders)
    (hw : w'.received = update w.received r (w.received r ++ [p])) (k : ℕ) :
    served numReaders w' k = served numReaders w k + if (w.received r).length = k then 1 else 0 := by
  have h := count_update (q := fun l : List α => k < l.length) (g := w.received) hr (w.received r ++ [p])
  rw [← hw] at h
  simp only [List.length_append, List.length_singleton] at h
  unfold served
  split_ifs at h ⊢ <;> omega

theorem Kept.leave {w : World α} (h : Kept numReaders numFeeders w) {r k : ℕ} (hr : r < numReaders)
    (hk : (w.received r).length = k + 1) (hp : w.pageSet.usagePolicy = .removeAfterUsed) :
    ∃ pages, w.pageSet.leave k = .ok { w.pageSet with pages := pages } ∧
      (∀ j, j ≠ k → pages j = w.pageSet.pages j) ∧
      (pages k = none → users numReaders w k = 1 ∧ served numReaders w k = numReaders) ∧
      ∀ info, pages k = some info → w.fed[k]? = some info.page ∧ info.numUsers = users numReaders w k - 1 ∧
        info.timesServed = served numReaders w k ∧ (1 < users numReaders w k → info.pinned = true) := by
  have hlt : k < w.fed.length := by
    have := (h.order r).length_le
    omega
  have hpos : 0 < users numReaders w k := count_pos hr hk
  cases hinfo : w.pageSet.pages k with
  | none =>
    have := h.erased k hlt hinfo r hr
    omega
  | some info =>
    obtain ⟨hfed, hpin, hcount⟩ := h.pages k info hinfo
    obtain ⟨hu, hs⟩ := hcount hp
    rw [PageSet.leave, hinfo]
    dsimp only
    rw [if_neg (by omega)]
    split_ifs with h1 h2
    · refine ⟨_, rfl, fun j hj => update_of_ne hj .., fun _ => ⟨by omega, ?_⟩, ?_⟩
      · rw [← hs, h2, h.readers]
      · intro info' hi
        rw [update_self] at hi
        cases hi
    · refine ⟨_, rfl, fun j hj => update_of_ne hj .., ?_, ?_⟩
      · intro hn
        rw [update_self] at hn
        cases hn
      · intro info' hi
        rw [update_self, Option.some.injEq] at hi
        subst hi
        exact ⟨hfed, by rw [hu], hs, fun h3 => by omega⟩
    · refine ⟨_, rfl, fun j hj => update_of_ne hj .., ?_, ?_⟩
      · intro hn
        rw [update_self] at hn
        cases hn
      · intro info' hi
        rw [update_self, Option.some.injEq] at hi
        subst hi
        exact ⟨hfed, by rw [hu], hs, fun _ => hpin hpos⟩

def World.gets (w : World α) (r : ℕ) (p : α) : World α :=
  { w with received := update w.received r (w.received r ++ [p]) }

theorem length_gets (w : World α) (r : ℕ) (p : α) (r' : ℕ) :
    (w.received r').length ≤ ((w.gets r p).received r').length := by
  unfold World.gets
  by_cases h : r' = r
  · subst h
    simp
  · simp [update_of_ne h]

theorem Kept.exists_left {w : World α} (h : Kept numReaders numFeeders w) {r k : ℕ} (hr : r < numReaders)
    (hk : (w.received r).length = k) (p : α) :
    ∃ pages, (if k ≠ 0 ∧ w.pageSet.usagePolicy = .removeAfterUsed then w.pageSet.leave (k - 1) else .ok w.pageSet) =
        .ok { w.pageSet with pages := pages } ∧ pages k = w.pageSet.pages k ∧
      (∀ j, w.fed.length ≤ j → pages j = none) ∧
      (∀ j info, j ≠ k → pages j = some info → PageKept numReaders (w.gets r p) j info) ∧
      ∀ j < w.fed.length, j ≠ k → pages j = none → ∀ r' < numReaders, j + 1 < ((w.gets r p).received r').length := by
  have husers := users_append (w.gets r p) hr rfl
  have hserved := served_append (w.gets r p) hr rfl
  rw [hk] at husers hserved
  -- a page that is neither the last nor the next page of the reader keeps its counts
  have hsame : ∀ j info, j ≠ k → k ≠ j + 1 → w.pageSet.pages j = some info →
      PageKept numReaders (w.gets r p) j info := by
    intro j info hjk hkj hi
    obtain ⟨hfed, hpin, hcount⟩ := h.pages j info hi
    have hu := husers j
    have hs := hserved j
    rw [if_neg hkj, if_neg hjk.symm] at hu
    rw [if_neg hjk.symm] at hs
    refine ⟨hfed, fun hpos => hpin (by omega), fun hp => ?_⟩
    obtain ⟨h1, h2⟩ := hcount hp
    exact ⟨by omega, by omega⟩
  have hgone : ∀ j < w.fed.length, w.pageSet.pages j = none →
      ∀ r' < numReaders, j + 1 < ((w.gets r p).received r').length := fun j hj hn r' hr' =>
    Nat.lt_of_lt_of_le (h.erased j hj hn r' hr') (length_gets w r p r')
  split_ifs with hcond
  · obtain ⟨hk0, hpolicy⟩ := hcond
    obtain ⟨m, rfl⟩ := Nat.exists_eq_succ_of_ne_zero hk0
    obtain ⟨pages, hrun, hother, hnone, hsome⟩ := h.leave hr hk hpolicy
    have hum := husers m
    have hsm := hserved m
    simp only [Nat.succ_eq_add_one, if_true, Nat.succ_ne_self, if_false] at hum hsm
    have hmlt : m < w.fed.length := by
      have := (h.order r).length_le
      omega
    refine ⟨pages, hrun, hother _ (by simp), ?_, ?_, ?_⟩
    · intro j hj
      rw [hother j (by omega)]
      exact h.fresh j hj
    · intro j info hj hi
      by_cases hjm : j = m
      · subst hjm
        obtain ⟨hfed, hnu, hts, hpin⟩ := hsome info hi
        exact ⟨hfed, fun hpos => hpin (by omega), fun _ => ⟨by omega, by omega⟩⟩
      · rw [hother j hjm] at hi
        exact hsame j info hj (by omega) hi
    · intro j hjlt hj hn
      by_cases hjm : j = m
      · subst hjm
        obtain ⟨hone, hall⟩ := hnone hn
        have hzero : users numReaders (w.gets r p) j = 0 := by omega
        have hfull : served numReaders (w.gets r p) j = numReaders := by omega
        intro r' hr'
        have h1 := count_eq_zero.mp hzero r' hr'
        have h2 := count_eq_all.mp hfull r' hr'
        omega
      · rw [hother j hjm] at hn
        exact hgone j hjlt hn
  · refine ⟨w.pageSet.pages, rfl, rfl, h.fresh, ?_, fun j hj _ => hgone j hj⟩
    intro j info hj hi
    by_cases hkj : k = j + 1
    · -- nothing is removed under this policy, so the counts are not kept
      have hpolicy : w.pageSet.usagePolicy ≠ .removeAfterUsed := fun he => hcond ⟨by omega, he⟩
      obtain ⟨hfed, hpin, -⟩ := h.pages j info hi
      have hu := husers j
      rw [if_pos hkj, if_neg hj.symm] at hu
      exact ⟨hfed, fun hpos => hpin (by omega), fun hp => absurd hp hpolicy⟩
    · exact hsame j info hj hkj hi

theorem Kept.serve {w : World α} (h : Kept numReaders numFeeders w) {r k : ℕ} (hr : r < numReaders)
    (hk : (w.received r).length = k) (hlt : k < w.fed.length) :
    ∃ p pages, w.pageSet.serve k = .ok (some p, { w.pageSet with pages := pages }) ∧ w.fed[k]? = some p ∧
      (∀ j, w.fed.length ≤ j → pages j = none) ∧
      (∀ j info, pages j = some info → PageKept numReaders (w.gets r p) j info) ∧
      ∀ j < w.fed.length, pages j = none → ∀ r' < numReaders, j + 1 < ((w.gets r p).received r').length := by
  cases hinfo : w.pageSet.pages k with
  | none =>
    have := h.erased k hlt hinfo r hr
    omega
  | some info =>
    obtain ⟨hfed, hpin, hcount⟩ := h.pages k info hinfo
    obtain ⟨pages, hrun, hpk, hfresh, hkept, hgone⟩ := h.exists_left hr hk info.page
    have husers := users_append (w.gets r info.page) hr rfl k
    have hserved := served_append (w.gets r info.page) hr rfl k
    rw [hk, if_neg (by omega), if_pos rfl] at husers
    rw [hk, if_pos rfl] at hserved
    have hnot : ¬ (w.pageSet.numFinishedFeeders = w.pageSet.numFeeders ∧ w.pageSet.nextPage = k) := by
      rintro ⟨-, he⟩
      rw [h.nextPage] at he
      omega
    rw [PageSet.serve, if_neg hnot, hrun, ok_bind]
    dsimp only
    rw [hpk, hinfo]
    dsimp only
    refine ⟨_, _, rfl, ?_, ?_, ?_, ?_⟩
    · split_ifs <;> exact hfed
    · intro j hj
      rw [update_of_ne (by omega)]
      exact hfresh j hj
    · intro j info' hi
      by_cases hj : j = k
      · subst hj
        rw [update_self, Option.some.injEq] at hi
        subst hi
        split_ifs with hpolicy
        · obtain ⟨h1, h2⟩ := hcount hpolicy
          exact ⟨hfed, fun _ => rfl, fun _ => ⟨by dsimp only; omega, by dsimp only; omega⟩⟩
        · exact ⟨hfed, fun _ => rfl, fun hp => absurd hp hpolicy⟩
      · rw [update_of_ne hj] at hi
        have := hkept j info' hj hi
        split_ifs <;> exact this
    · intro j hjlt hn
      by_cases hj : j = k
      · subst hj
        rw [update_self] at hn
        cases hn
      · rw [update_of_ne hj] at hn
        have := hgone j hjlt hj hn
        split_ifs <;> exact this

theorem prefix_append {l fed : List α} {p : α} (h : l <+: fed) (hp : fed[l.length]? = some p) : l ++ [p] <+: fed := by
  obtain ⟨rest, rfl⟩ := h
  cases rest with
  | nil => simp at hp
  | cons q rest =>
    simp only [List.getElem?_append_right le_rfl, Nat.sub_self, List.getElem?_cons_zero, Option.some.injEq] at hp
    subst hp
    exact ⟨rest, by simp⟩

theorem Kept.answer {w : World α} (h : Kept numReaders numFeeders w) {r k : ℕ} (hr : r < numReaders)
    (hw : w.waiting r = some k) (hready : w.pageSet.ready k = true) :
    ∃ w', w.answer r k = .ok w' ∧ Kept numReaders numFeeders w' := by
  obtain ⟨hk, hend⟩ := h.waiting r k hw
  have hle : k ≤ w.fed.length := hk ▸ (h.order r).length_le
  -- the reader is the only one that is not waiting any more
  have hwait : ∀ {r' k'}, update w.waiting r none r' = some k' → r' ≠ r ∧ w.waiting r' = some k' := by
    intro r' k' he
    by_cases hrr : r' = r
    · subst hrr
      rw [update_self] at he
      cases he
    · rw [update_of_ne hrr] at he
      exact ⟨hrr, he⟩
  by_cases hnull : w.pageSet.numFinishedFeeders = w.pageSet.numFeeders ∧ w.pageSet.nextPage = k
  · have hserve : w.pageSet.serve k = .ok (none, w.pageSet) := by rw [PageSet.serve, if_pos hnull]
    have hall : w.received r = w.fed := by
      apply (h.order r).eq_of_length
      rw [← hk, ← hnull.2, h.nextPage]
    rw [World.answer, hserve, ok_bind]
    refine ⟨_, rfl, h.readers, h.feeders, h.nextPage, h.numFinished, h.order, ?_, ?_, ?_, h.fresh, ?_, h.erased⟩
    · intro r'
      have hc := h.cursor r'
      by_cases hrr : r' = r
      · subst hrr
        simpa [hw] using hc
      · simpa [update_of_ne hrr] using hc
    · intro r' k' he
      obtain ⟨hrr, he⟩ := hwait he
      dsimp only
      rw [update_of_ne hrr]
      exact h.waiting r' k' he
    · intro r' he
      by_cases hrr : r' = r
      · subst hrr
        exact ⟨hall, hnull.1⟩
      · dsimp only at he
        rw [update_of_ne hrr] at he
        exact h.ended r' he
    · intro j info hi
      obtain ⟨h1, h2, h3⟩ := h.pages j info hi
      exact ⟨h1, h2, h3⟩
  · have hlt : k < w.fed.length := by
      have := h.nextPage
      simp only [PageSet.ready, Bool.or_eq_true, decide_eq_true_eq] at hready
      rcases hready with hfin | hlt
      · have : w.pageSet.nextPage ≠ k := fun he => hnull ⟨hfin, he⟩
        omega
      · omega
    obtain ⟨p, pages, hserve, hp, hfresh, hkept, hgone⟩ := h.serve hr hk.symm hlt
    rw [World.answer, hserve, ok_bind]
    refine ⟨_, rfl, h.readers, h.feeders, h.nextPage, h.numFinished, ?_, ?_, ?_, ?_, hfresh, ?_, hgone⟩
    · intro r'
      by_cases hrr : r' = r
      · subst hrr
        dsimp only
        rw [update_self]
        exact prefix_append (h.order r') (hk ▸ hp)
      · dsimp only
        rw [update_of_ne hrr]
        exact h.order r'
    · intro r'
      have hc := h.cursor r'
      by_cases hrr : r' = r
      · subst hrr
        simpa [hw, hend] using hc
      · simpa [update_of_ne hrr] using hc
    · intro r' k' he
      obtain ⟨hrr, he⟩ := hwait he
      dsimp only
      rw [update_of_ne hrr]
      exact h.waiting r' k' he
    · intro r' he
      have hrr : r' ≠ r := by
        rintro rfl
        rw [hend] at he
        cases he
      dsimp only
      rw [update_of_ne hrr]
      exact h.ended r' he
    · intro j info hi
      obtain ⟨h1, h2, h3⟩ := hkept j info hi
      exact ⟨h1, h2, h3⟩

def World.asks (w : World α) (r : ℕ) : World α :=
  { w with
    pageSet := { w.pageSet with
      nextPageForWorker := update w.pageSet.nextPageForWorker r (w.pageSet.nextPageForWorker r + 1) }
    waiting := update w.waiting r (some (w.pageSet.nextPageForWorker r)) }

theorem Kept.asks {w : World α} (h : Kept numReaders numFeeders w) {r : ℕ} (hw : w.waiting r = none)
    (he : w.ended r = false) : Kept numReaders numFeeders (w.asks r) := by
  have hlen : w.pageSet.nextPageForWorker r = (w.received r).length := by simp [h.cursor r, hw, he]
  refine ⟨h.readers, h.feeders, h.nextPage, h.numFinished, h.order, ?_, ?_, h.ended, h.fresh, ?_, h.erased⟩
  · intro r'
    have hc := h.cursor r'
    by_cases hrr : r' = r
    · subst hrr
      simp [World.asks, hlen]
    · simpa [World.asks, update_of_ne hrr] using hc
  · intro r' k hk
    by_cases hrr : r' = r
    · subst hrr
      simp only [World.asks, update_self, Option.some.injEq] at hk
      exact ⟨hk ▸ hlen, he⟩
    · simp only [World.asks, update_of_ne hrr] at hk
      exact h.waiting r' k hk
  · intro j info hi
    obtain ⟨h1, h2, h3⟩ := h.pages j info hi
    exact ⟨h1, h2, h3⟩

theorem step_getNextPage (w : World α) (r : ℕ) : w.step (.getNextPage r) =
    if w.pageSet.ready (w.pageSet.nextPageForWorker r) then (w.asks r).answer r (w.pageSet.nextPageForWorker r)
    else .ok (w.asks r) := by
  have hanswer : ∀ (v v' : World α) (k : ℕ), v.pageSet = v'.pageSet → v.received = v'.received → v.ended = v'.ended →
      v.fed = v'.fed → v.finished = v'.finished → update v.waiting r none = update v'.waiting r none →
      v.answer r k = v'.answer r k := by
    intro v v' k h1 h2 h3 h4 h5 h6
    unfold World.answer
    rw [h1, h2, h3, h4, h5, h6]
  rw [World.step]
  dsimp only
  have hready : ∀ k, PageSet.ready { w.pageSet with
      nextPageForWorker := update w.pageSet.nextPageForWorker r (w.pageSet.nextPageForWorker r + 1) } k =
      w.pageSet.ready k := fun _ => rfl
  rw [hready]
  split_ifs
  · apply hanswer <;> simp [World.asks]
  · rfl

theorem Kept.feedPage {w : World α} (h : Kept numReaders numFeeders w) {f : ℕ} (hf : f < numFeeders)
    (hfin : w.finished f = false) (p : α) (pinned : Bool) :
    ∃ w', w.step (.feedPage f p pinned) = .ok w' ∧ Kept numReaders numFeeders w' := by
  have hnot : w.pageSet.numFinishedFeeders ≠ w.pageSet.numFeeders := by
    rw [h.numFinished, h.feeders]
    intro hall
    have := count_eq_all.mp hall f hf
    rw [hfin] at this
    cases this
  have hnone : w.pageSet.pages w.pageSet.nextPage = none := by
    rw [h.nextPage]
    exact h.fresh _ le_rfl
  have hfeed : w.pageSet.feedPage p pinned = .ok { w.pageSet with
      nextPage := w.pageSet.nextPage + 1
      pages := update w.pageSet.pages w.pageSet.nextPage (some ⟨p, 0, 0, pinned⟩) } := by
    rw [PageSet.feedPage, if_neg hnot, hnone]
  have hlen : ∀ r, (w.received r).length ≤ w.fed.length := fun r => (h.order r).length_le
  rw [World.step, hfeed, ok_bind]
  refine ⟨_, rfl, h.readers, h.feeders, ?_, h.numFinished, ?_, h.cursor, h.waiting, ?_, ?_, ?_, ?_⟩
  · simp [h.nextPage]
  · exact fun r => (h.order r).trans (List.prefix_append _ _)
  · intro r he
    exact absurd (h.ended r he).2 hnot
  · intro k hk
    simp only [List.length_append, List.length_singleton] at hk
    dsimp only
    rw [h.nextPage, update_of_ne (by omega)]
    exact h.fresh k (by omega)
  · intro k info hi
    dsimp only at hi
    rw [h.nextPage] at hi
    by_cases hk : k = w.fed.length
    · subst hk
      rw [update_self, Option.some.injEq] at hi
      subst hi
      have husers : users numReaders w w.fed.length = 0 := count_eq_zero.mpr fun r _ he => by
        have := hlen r
        omega
      have hserved : served numReaders w w.fed.length = 0 := count_eq_zero.mpr fun r _ he => by
        have := hlen r
        omega
      refine ⟨by simp, ?_, fun _ => ⟨husers.symm, hserved.symm⟩⟩
      intro hpos
      exact absurd husers (Nat.ne_of_gt hpos)
    · rw [update_of_ne hk] at hi
      obtain ⟨h1, h2, h3⟩ := h.pages k info hi
      refine ⟨?_, h2, h3⟩
      rw [List.getElem?_append_left (List.getElem?_eq_some_iff.mp h1).1]
      exact h1
  · intro k hk hn
    simp only [List.length_append, List.length_singleton] at hk
    dsimp only at hn
    rw [h.nextPage] at hn
    have hne : k ≠ w.fed.length := by
      rintro rfl
      rw [update_self] at hn
      cases hn
    rw [update_of_ne hne] at hn
    exact h.erased k (by omega) hn

theorem Kept.finishFeeding {w : World α} (h : Kept numReaders numFeeders w) {f : ℕ} (hf : f < numFeeders)
    (hfin : w.finished f = false) :
    ∃ w', w.step (.finishFeeding f) = .ok w' ∧ Kept numReaders numFeeders w' := by
  refine ⟨_, rfl, h.readers, h.feeders, h.nextPage, ?_, h.order, h.cursor, h.waiting, ?_, h.fresh, ?_, h.erased⟩
  · have hcount := count_update (q := (· = true)) (g := w.finished) hf true
    simp only [hfin, Bool.false_eq_true, if_false, if_true] at hcount
    change w.pageSet.numFinishedFeeders + 1 = count numFeeders (update w.finished f true) (· = true)
    rw [h.numFinished]
    omega
  · intro r he
    obtain ⟨-, hall⟩ := h.ended r he
    rw [h.numFinished, h.feeders] at hall
    have := count_eq_all.mp hall f hf
    rw [hfin] at this
    cases this
  · intro j info hi
    obtain ⟨h1, h2, h3⟩ := h.pages j info hi
    exact ⟨h1, h2, h3⟩

theorem Kept.step {w : World α} (h : Kept numReaders numFeeders w) {call : Call α}
    (hv : call.Valid numReaders numFeeders w) :
    ∃ w', w.step call = .ok w' ∧ Kept numReaders numFeeders w' := by
  cases call with
  | feedPage f p pinned => exact h.feedPage hv.1 hv.2 p pinned
  | finishFeeding f => exact h.finishFeeding hv.1 hv.2
  | getNextPage r =>
    obtain ⟨hr, hw, he⟩ := hv
    have hasks := h.asks hw he
    rw [step_getNextPage]
    split_ifs with hready
    · exact hasks.answer hr (by simp [World.asks]) hready
    · exact ⟨_, rfl, hasks⟩
  | wake r =>
    obtain ⟨hr, hw⟩ := hv
    obtain ⟨k, hk⟩ := Option.ne_none_iff_exists'.mp hw
    rw [World.step, hk]
    dsimp only
    split_ifs with hready
    · exact h.answer hr hk hready
    · exact ⟨_, rfl, h⟩

theorem Kept.sound {w : World α} (h : Kept numReaders numFeeders w) : SoundFeeding numReaders numFeeders w := by
  constructor
  · exact fun r _ => h.order r
  · intro r _ he
    obtain ⟨hall, hfin⟩ := h.ended r he
    rw [h.numFinished, h.feeders] at hfin
    exact ⟨count_eq_all.mp hfin, hall⟩
  · intro call hv
    obtain ⟨w', hrun, -⟩ := h.step hv
    exact ⟨w', hrun⟩
  · rintro r hr k ⟨hlen, -, -⟩
    have hlt : k < w.fed.length := by
      have := (h.order r).length_le
      omega
    cases hinfo : w.pageSet.pages k with
    | none =>
      have := h.erased k hlt hinfo r hr
      omega
    | some info =>
      obtain ⟨hfed, hpin, -⟩ := h.pages k info hinfo
      exact ⟨info, rfl, hfed, hpin (count_pos hr hlen)⟩
  · intro k hk hn r hr
    have := h.erased k hk hn r hr
    omega

theorem soundFeeding_of_reachable (numReaders numFeeders : ℕ) (usagePolicy : UsagePolicy) (w : World α)
    (hw : Reachable World.step (Call.Valid numReaders numFeeders)
      (fun w => w = start numReaders numFeeders usagePolicy) w) : SoundFeeding numReaders numFeeders w := by
  have hk : Kept numReaders numFeeders w := by
    apply hw.invariant
    · rintro w rfl
      exact start_kept
    · intro call w w' h hv hs
      obtain ⟨w'', hrun, hk⟩ := h.step hv
      rw [hs, Except.ok.injEq] at hrun
      exact hrun ▸ hk
  exact hk.sound

theorem soundFeeding_two_readers : ∃ w : World ℕ, w.received 0 = [7, 8] ∧ w.received 1 = [7] ∧
    SoundFeeding 2 1 w := by
  have hrun : Reachable World.step (Call.Valid 2 1) (fun w : World ℕ => w = start 2 1 .removeAfterUsed) _ :=
    .step (i := .getNextPage 1)
      (.step (i := .getNextPage 0)
        (.step (i := .feedPage 0 8 true)
          (.step (i := .getNextPage 0)
            (.step (i := .feedPage 0 7 true) (.start rfl) ⟨by decide, rfl⟩ rfl) ⟨by decide, rfl, rfl⟩ rfl)
          ⟨by decide, rfl⟩ rfl)
        ⟨by decide, rfl, rfl⟩ rfl)
      ⟨by decide, rfl, rfl⟩ rfl
  exact ⟨_, rfl, rfl, soundFeeding_of_reachable 2 1 .removeAfterUsed _ hrun⟩

theorem unpinned_before_received : ∃ v w : World ℕ,
    Reachable World.step (Call.Valid 2 1) (fun w => w = start 2 1 .removeAfterUsed) v ∧
      Call.Valid 2 1 (.getNextPage 0) v ∧ v.step (.getNextPage 0) = .ok w ∧
      v.pageSet.pages 0 = some ⟨7, 1, 1, true⟩ ∧ w.pageSet.pages 0 = some ⟨7, 0, 1, false⟩ ∧ w.received 1 = [] := by
  have hrun : Reachable World.step (Call.Valid 2 1) (fun w : World ℕ => w = start 2 1 .removeAfterUsed) _ :=
    .step (i := .feedPage 0 8 true)
      (.step (i := .getNextPage 0)
        (.step (i := .feedPage 0 7 true) (.start rfl) ⟨by decide, rfl⟩ rfl) ⟨by decide, rfl, rfl⟩ rfl)
      ⟨by decide, rfl⟩ rfl
  exact ⟨_, _, hrun, ⟨by decide, rfl, rfl⟩, rfl, rfl, rfl, rfl⟩

end

end PlinyCompute.FeedingPageSet
