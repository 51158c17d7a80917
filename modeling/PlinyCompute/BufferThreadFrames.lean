import PlinyCompute.BufferThreads
import PlinyCompute.DiskCalls

namespace PlinyCompute.BufferManager

open Function Transition

variable {cfg : Config} {s s' s'' : State} {p : ℕ}

structure SamePages (s s' : State) : Prop where
  nextPage : s'.nextPage = s.nextPage
  refCount : ∀ q, (s'.page q).refCount = (s.page q).refCount
  isAnon : ∀ q, (s'.page q).isAnon = (s.page q).isAnon
  pageNum : ∀ q, (s'.page q).pageNum = (s.page q).pageNum
  allPages : ∀ key q, s'.allPages key = some q → s.allPages key = some q

structure SameNumbers (s s' : State) : Prop extends SamePages s s' where
  free : s'.freeAnonPageNumbers = s.freeAnonPageNumbers
  last : s'.lastFreeAnonPageNumber = s.lastFreeAnonPageNumber

namespace SameNumbers

theorem refl (s : State) : SameNumbers s s :=
  ⟨⟨rfl, fun _ => rfl, fun _ => rfl, fun _ => rfl, fun _ _ h => h⟩, rfl, rfl⟩

theorem trans (h : SameNumbers s s') (h' : SameNumbers s' s'') : SameNumbers s s'' where
  nextPage := h'.nextPage.trans h.nextPage
  free := h'.free.trans h.free
  last := h'.last.trans h.last
  refCount q := (h'.refCount q).trans (h.refCount q)
  isAnon q := (h'.isAnon q).trans (h.isAnon q)
  pageNum q := (h'.pageNum q).trans (h.pageNum q)
  allPages key q hq := h.allPages key q (h'.allPages key q hq)

theorem of_eq (hs : s' = { s with
    pageLocations := s'.pageLocations, endOfFiles := s'.endOfFiles, lastUsed := s'.lastUsed
    numPinned := s'.numPinned, fds := s'.fds, emptyFullPages := s'.emptyFullPages
    constituentPages := s'.constituentPages, emptyMiniPages := s'.emptyMiniPages
    unusedMiniPages := s'.unusedMiniPages, availablePositions := s'.availablePositions
    lastTempPos := s'.lastTempPos, lastTimeTick := s'.lastTimeTick, memory := s'.memory
    files := s'.files }) : SameNumbers s s' := by
  rw [hs]
  exact ⟨⟨rfl, fun _ => rfl, fun _ => rfl, fun _ => rfl, fun _ _ h => h⟩, rfl, rfl⟩

theorem setPage {me : PDBPage} (href : me.refCount = (s.page p).refCount) (ha : me.isAnon = (s.page p).isAnon)
    (hn : me.pageNum = (s.page p).pageNum) : SameNumbers s (s.setPage p me) := by
  refine ⟨⟨rfl, fun q => ?_, fun q => ?_, fun q => ?_, fun _ _ h => h⟩, rfl, rfl⟩
  all_goals
    by_cases hq : q = p
    · subst hq
      simp [State.setPage, href, ha, hn]
    · simp [State.setPage, hq]

theorem setStatuses (pages : List ℕ) (status : PDBPageStatus) (s : State) :
    SameNumbers s (s.setStatuses pages status) := by
  refine ⟨⟨rfl, fun q => ?_, fun q => ?_, fun q => ?_, fun _ _ h => h⟩, rfl, rfl⟩
  all_goals
    unfold State.setStatuses
    dsimp only
    split_ifs <;> rfl

theorem eraseFromAllPages (me : PDBPage) (s : State) : SameNumbers s (s.eraseFromAllPages me) := by
  unfold State.eraseFromAllPages
  cases me.whichSet with
  | none => exact refl s
  | some set =>
    refine ⟨⟨rfl, fun _ => rfl, fun _ => rfl, fun _ => rfl, fun key q hq => ?_⟩, rfl, rfl⟩
    dsimp only at hq
    by_cases hk : key = (set, me.pageNum)
    · rw [hk, update_self] at hq
      cases hq
    · rwa [update_of_ne hk] at hq

theorem killUnreferenced (p : ℕ) (s : State) : SameNumbers s (s.killUnreferenced p) := by
  unfold State.killUnreferenced
  split_ifs
  · exact eraseFromAllPages _ s
  · exact refl s

theorem leaveMemory (p : ℕ) (s : State) : SameNumbers s (s.leaveMemory p) := setPage rfl rfl rfl

theorem takeTempPos (cfg : Config) (k : ℕ) (s : State) : SameNumbers s (s.takeTempPos cfg k).2 := by
  unfold State.takeTempPos
  split
  · exact of_eq rfl
  · exact of_eq rfl

theorem pinFullPage (f : ℕ) (s : State) : SameNumbers s (s.pinFullPage f) := by
  rw [pinFullPage_eq]
  exact of_eq rfl

theorem unpinFullPage (f : ℕ) (s : State) : SameNumbers s (s.unpinFullPage f) := by
  rw [unpinFullPage_eq]
  exact of_eq rfl

theorem assignLocation (cfg : Config) (p : ℕ) (s : State) : SameNumbers s (s.assignLocation cfg p) := by
  obtain ⟨pos, heq⟩ := assignLocation_eq cfg s p
  rw [heq]
  have hset : SameNumbers s
      (s.setPage p { s.page p with location := { (s.page p).location with startPos := pos } }) :=
    setPage rfl rfl rfl
  exact hset.trans (of_eq rfl)

theorem pinParent : Ensures Any (s.pinParent cfg p) (SameNumbers s) := by
  refine getBytes_any.bind fun a _ => ?_
  exact pinFullPage (cfg.fullPage a) s

theorem registerMiniPage : Ensures Any (s.registerMiniPage cfg p) (SameNumbers s) := by
  refine getBytes_any.bind fun a _ => ?_
  exact pinParent.mono fun s₁ h => (of_eq rfl).trans h

theorem clearUnused {f : ℕ} : Ensures Any (s.clearUnused f) (SameNumbers s) := by
  refine clearUnused_any.mono ?_
  rintro s₁ ⟨minis, unused, rfl⟩
  exact of_eq rfl

theorem pwrite {fd addr count : ℕ} {pos : ℤ} : Ensures Any (s.pwrite fd addr count pos) (SameNumbers s) := by
  unfold State.pwrite
  split_ifs
  · exact trivial
  · exact of_eq rfl

theorem pread {fd addr count : ℕ} {pos : ℤ} : Ensures Any (s.pread fd addr count pos) (SameNumbers s) := by
  unfold State.pread
  split_ifs
  · exact trivial
  · exact of_eq rfl

theorem breakUp {k : ℕ} : Ensures Any (s.breakUp cfg k) (SameNumbers s) := by
  unfold State.breakUp
  cases s.emptyFullPages.getLast? with
  | none => exact trivial
  | some f =>
    dsimp only
    cases miniPagesFrom cfg k 0 with
    | error e => exact trivial
    | ok minis => exact of_eq rfl

theorem takeSpace {k : ℕ} : Ensures Any (s.takeSpace cfg k) fun r => SameNumbers s r.2 := by
  unfold State.takeSpace
  cases (s.emptyMiniPages k).getLast? with
  | none => exact trivial
  | some space =>
    dsimp only
    cases eraseOne space (s.unusedMiniPages (cfg.fullPage space)).1 with
    | error e => exact trivial
    | ok unused => exact of_eq rfl

theorem checkIfOpen {set : PDBSet} : Ensures Any (s.checkIfOpen cfg set) (SameNumbers s) := by
  unfold State.checkIfOpen
  split_ifs
  · exact refl s
  · cases cfg.openFile (cfg.fileLoc set) with
    | none => exact trivial
    | some fd => exact of_eq rfl

theorem unpin : Ensures Any (s.unpin cfg p) (SameNumbers s) := by
  unfold State.unpin
  dsimp only
  split_ifs
  · refine getBytes_any.bind fun a _ => ?_
    have hset : SameNumbers s (s.setPage p { s.page p with pinned := false, sizeFrozen := true }) :=
      setPage rfl rfl rfl
    exact (hset.trans (unpinFullPage _ _)).trans (assignLocation cfg p _)
  · exact refl s

theorem leaveFullPage {a : ℕ} : Ensures Any (s.leaveFullPage cfg p a) (SameNumbers s) :=
  leaveFullPage_any.mono fun s₁ h => of_eq (by rw [h])

theorem downToZeroReferences : Ensures Any (s.downToZeroReferences cfg p) (SameNumbers s) := by
  unfold State.downToZeroReferences
  split_ifs
  · exact eraseFromAllPages _ s
  · exact unpin
  · exact refl s

end SameNumbers

theorem freeAnonymousPage_any : Ensures Any (s.freeAnonymousPage cfg p) fun s' =>
    (s.isRemovalStillValid p = true ∧ SameNumbers { s with
      freeAnonPageNumbers := s.freeAnonPageNumbers ++ [(s.page p).pageNum] } s') ∨
    (s.isRemovalStillValid p = false ∧ s' = s) := by
  unfold State.freeAnonymousPage
  cases hv : s.isRemovalStillValid p with
  | false => exact Or.inr ⟨rfl, rfl⟩
  | true =>
    have hrecycle : SameNumbers { s with
        freeAnonPageNumbers := s.freeAnonPageNumbers ++ [(s.page p).pageNum] } (s.recycle p) := .of_eq rfl
    rw [if_neg (not_not_intro rfl)]
    cases (s.page p).bytes with
    | none => exact Or.inl ⟨rfl, hrecycle⟩
    | some a => exact SameNumbers.leaveFullPage.mono fun s₁ h => Or.inl ⟨rfl, hrecycle.trans h⟩

end PlinyCompute.BufferManager
