import PlinyCompute.BufferManager

namespace PlinyCompute.BufferManager

open Function Transition
open Follows (refl error ok bind)

variable {cfg : Config} {F : PDBSet → Option ℕ} {s t : State} {p : ℕ}

structure MoreOpen (F : PDBSet → Option ℕ) (s t : State) : Prop where
  opened : ∀ set fd, s.fds set = some fd → F set = some fd
  same : t = { s with fds := F }

namespace MoreOpen

theorem page (h : MoreOpen F s t) : t.page = s.page := by rw [h.same]

theorem setPage (h : MoreOpen F s t) (p : ℕ) (me : PDBPage) : MoreOpen F (s.setPage p me) (t.setPage p me) := by
  obtain ⟨ho, rfl⟩ := h
  exact ⟨ho, rfl⟩

theorem getBytes (h : MoreOpen F s t) : Follows Eq (s.getBytes p) (t.getBytes p) := by
  obtain ⟨ho, rfl⟩ := h
  exact refl (fun _ => rfl) _

theorem getFileDescriptor (h : MoreOpen F s t) (set : Option PDBSet) :
    Follows Eq (s.getFileDescriptor set) (t.getFileDescriptor set) := by
  obtain ⟨ho, rfl⟩ := h
  unfold State.getFileDescriptor
  cases set with
  | none => exact error
  | some set =>
    dsimp only [Option.bind]
    cases hfd : s.fds set with
    | none => exact error
    | some fd =>
      rw [ho set fd hfd]
      exact ok rfl

theorem pwrite (h : MoreOpen F s t) (fd addr count : ℕ) (pos : ℤ) :
    Follows (MoreOpen F) (s.pwrite fd addr count pos) (t.pwrite fd addr count pos) := by
  obtain ⟨ho, rfl⟩ := h
  unfold State.pwrite
  split_ifs
  · exact error
  · exact ok ⟨ho, rfl⟩

theorem pread (h : MoreOpen F s t) (fd addr count : ℕ) (pos : ℤ) :
    Follows (MoreOpen F) (s.pread fd addr count pos) (t.pread fd addr count pos) := by
  obtain ⟨ho, rfl⟩ := h
  unfold State.pread
  split_ifs
  · exact error
  · exact ok ⟨ho, rfl⟩

theorem eraseFromAllPages (h : MoreOpen F s t) (me : PDBPage) :
    MoreOpen F (s.eraseFromAllPages me) (t.eraseFromAllPages me) := by
  obtain ⟨ho, rfl⟩ := h
  unfold State.eraseFromAllPages
  cases me.whichSet with
  | none => exact ⟨ho, rfl⟩
  | some set => exact ⟨ho, rfl⟩

theorem pinFullPage (h : MoreOpen F s t) (f : ℕ) : MoreOpen F (s.pinFullPage f) (t.pinFullPage f) := by
  obtain ⟨ho, rfl⟩ := h
  unfold State.pinFullPage
  dsimp only
  split_ifs
  · exact ⟨ho, rfl⟩
  · exact ⟨ho, rfl⟩

theorem pinParent (h : MoreOpen F s t) : Follows (MoreOpen F) (s.pinParent cfg p) (t.pinParent cfg p) := by
  refine h.getBytes.bind fun a b hab => ?_
  subst hab
  exact ok (h.pinFullPage _)

theorem registerMiniPage (h : MoreOpen F s t) :
    Follows (MoreOpen F) (s.registerMiniPage cfg p) (t.registerMiniPage cfg p) := by
  refine h.getBytes.bind fun a b hab => ?_
  subst hab
  apply pinParent
  obtain ⟨ho, rfl⟩ := h
  exact ⟨ho, rfl⟩

theorem clearUnused (h : MoreOpen F s t) (f : ℕ) : Follows (MoreOpen F) (s.clearUnused f) (t.clearUnused f) := by
  obtain ⟨ho, rfl⟩ := h
  unfold State.clearUnused
  dsimp only
  cases eraseEach (s.unusedMiniPages f).1 (s.emptyMiniPages (s.unusedMiniPages f).2) with
  | error e => exact error
  | ok l => exact ok ⟨ho, rfl⟩

theorem setStatuses (h : MoreOpen F s t) (pages : List ℕ) (status : PDBPageStatus) :
    MoreOpen F (s.setStatuses pages status) (t.setStatuses pages status) := by
  obtain ⟨ho, rfl⟩ := h
  exact ⟨ho, rfl⟩

theorem takeTempPos (cfg : Config) (h : MoreOpen F s t) (k : ℕ) :
    (t.takeTempPos cfg k).1 = (s.takeTempPos cfg k).1 ∧ MoreOpen F (s.takeTempPos cfg k).2 (t.takeTempPos cfg k).2 := by
  obtain ⟨ho, rfl⟩ := h
  unfold State.takeTempPos
  dsimp only
  cases (s.availablePositions k).getLast? with
  | none => exact ⟨rfl, ho, rfl⟩
  | some pos => exact ⟨rfl, ho, rfl⟩

theorem writeAnonymous (h : MoreOpen F s t) :
    Follows (MoreOpen F) (s.writeAnonymous cfg p) (t.writeAnonymous cfg p) := by
  obtain ⟨hpos, hs⟩ := h.takeTempPos cfg (s.page p).location.numBytes
  unfold State.writeAnonymous
  dsimp only
  rw [h.page, hpos]
  have hset := hs.setPage p { s.page p with location :=
    { (s.page p).location with startPos := (s.takeTempPos cfg (s.page p).location.numBytes).1 } }
  refine hset.getBytes.bind fun a b hab => ?_
  subst hab
  exact hset.pwrite _ _ _ _

theorem writeToSet (h : MoreOpen F s t) : Follows (MoreOpen F) (s.writeToSet cfg p) (t.writeToSet cfg p) := by
  unfold State.writeToSet
  dsimp only
  rw [h.page]
  refine (h.getFileDescriptor _).bind fun fd fd' hfd => h.getBytes.bind fun a b hab => ?_
  subst hfd hab
  exact h.pwrite _ _ _ _

theorem writeSetPage (h : MoreOpen F s t) :
    Follows (MoreOpen F) (s.writeSetPage cfg p) (t.writeSetPage cfg p) := by
  have hwrite : Follows (MoreOpen F) (s.writeIfDirty cfg p) (t.writeIfDirty cfg p) := by
    unfold State.writeIfDirty
    rw [h.page]
    split_ifs
    · exact h.writeToSet
    · exact ok h
  unfold State.writeSetPage
  dsimp only
  rw [h.page]
  refine hwrite.bind fun a b hab => ?_
  split_ifs
  · exact ok (hab.eraseFromAllPages _)
  · exact ok hab

theorem writeBack (h : MoreOpen F s t) (p : ℕ) : Follows (MoreOpen F) (s.writeBack cfg p) (t.writeBack cfg p) := by
  unfold State.writeBack
  dsimp only
  rw [h.page]
  have hwrite : Follows (MoreOpen F)
      (if (s.page p).isAnon = true ∧ (s.page p).dirty = true then s.writeAnonymous cfg p else s.writeSetPage cfg p)
      (if (s.page p).isAnon = true ∧ (s.page p).dirty = true then t.writeAnonymous cfg p
        else t.writeSetPage cfg p) := by
    split_ifs
    · exact h.writeAnonymous
    · exact h.writeSetPage
  refine hwrite.bind fun a b hab => ?_
  rw [hab.page]
  exact ok (hab.setPage _ _)

theorem evict (h : MoreOpen F s t) : Follows (MoreOpen F) (s.evict cfg) (t.evict cfg) := by
  obtain ⟨ho, rfl⟩ := h
  unfold State.evict
  dsimp only
  cases s.lastUsed with
  | nil => exact error
  | cons e rest =>
    have hrest : MoreOpen F { s with lastUsed := rest } { s with fds := F, lastUsed := rest } := ⟨ho, rfl⟩
    apply bind ((hrest.setStatuses (s.constituentPages e.1) .unloading).clearUnused e.1)
    intro a b hab
    apply bind (Follows.foldlM (fun a b p hab => hab.writeBack p) _ hab)
    intro a b hab
    obtain ⟨ho, rfl⟩ := hab
    exact ok ⟨ho, rfl⟩

theorem breakUp (h : MoreOpen F s t) (k : ℕ) : Follows (MoreOpen F) (s.breakUp cfg k) (t.breakUp cfg k) := by
  obtain ⟨ho, rfl⟩ := h
  unfold State.breakUp
  dsimp only
  cases s.emptyFullPages.getLast? with
  | none => exact error
  | some f =>
    dsimp only
    cases miniPagesFrom cfg k 0 with
    | error e => exact error
    | ok minis => exact ok ⟨ho, rfl⟩

theorem createAdditionalMiniPages (h : MoreOpen F s t) (k : ℕ) :
    Follows (MoreOpen F) (s.createAdditionalMiniPages cfg k) (t.createAdditionalMiniPages cfg k) := by
  have hf : t.emptyFullPages = s.emptyFullPages := by rw [h.same]
  have hevict : Follows (MoreOpen F) (if s.emptyFullPages = [] then s.evict cfg else .ok s)
      (if t.emptyFullPages = [] then t.evict cfg else .ok t) := by
    rw [hf]
    split_ifs
    · exact h.evict
    · exact ok h
  exact hevict.bind fun a b hab => hab.breakUp k

theorem getEmptyMemory (h : MoreOpen F s t) (k : ℕ) :
    Follows (fun x y => x.1 = y.1 ∧ MoreOpen F x.2 y.2) (s.getEmptyMemory cfg k) (t.getEmptyMemory cfg k) := by
  have hm : t.emptyMiniPages = s.emptyMiniPages := by rw [h.same]
  have hcreate : Follows (MoreOpen F)
      (if s.emptyMiniPages k = [] then s.createAdditionalMiniPages cfg k else .ok s)
      (if t.emptyMiniPages k = [] then t.createAdditionalMiniPages cfg k else .ok t) := by
    rw [hm]
    split_ifs
    · exact h.createAdditionalMiniPages k
    · exact ok h
  unfold State.getEmptyMemory
  by_cases hk : cfg.logOfPageSize < k
  · rw [if_pos hk]
    exact error
  · rw [if_neg hk, if_neg hk]
    refine hcreate.bind fun a b hab => ?_
    obtain ⟨ho, rfl⟩ := hab
    dsimp only
    cases (a.emptyMiniPages k).getLast? with
    | none => exact error
    | some space =>
      dsimp only
      cases eraseOne space (a.unusedMiniPages (cfg.fullPage space)).1 with
      | error e => exact error
      | ok unused => exact ok ⟨rfl, ho, rfl⟩

theorem freezeSize (h : MoreOpen F s t) (numBytes : ℕ) :
    Follows (MoreOpen F) (s.freezeSize cfg p numBytes) (t.freezeSize cfg p numBytes) := by
  unfold State.freezeSize
  dsimp only
  rw [h.page]
  by_cases hp : ¬ (s.page p).pinned = true ∨ (s.page p).sizeFrozen = true
  · rw [if_pos hp]
    exact error
  rw [if_neg hp, if_neg hp]
  apply bind (refl (fun _ => rfl) (getLogPageSize cfg numBytes))
  rintro k _ rfl
  by_cases hk : (s.page p).location.numBytes < k
  · rw [if_pos hk]
    exact error
  rw [if_neg hk, if_neg hk]
  have hset := h.setPage p
    { s.page p with sizeFrozen := true, location := { (s.page p).location with numBytes := k } }
  apply bind hset.getBytes
  rintro a _ rfl
  apply bind (refl (fun _ => rfl) (miniPagesFrom cfg k (cfg.miniPageSize k)))
  rintro minis _ rfl
  obtain ⟨ho, rfl⟩ := h
  exact ok ⟨ho, rfl⟩

theorem assignLocation (h : MoreOpen F s t) (p : ℕ) :
    MoreOpen F (s.assignLocation cfg p) (t.assignLocation cfg p) := by
  obtain ⟨ho, rfl⟩ := h
  unfold State.assignLocation
  dsimp only
  split
  · split_ifs
    · exact ⟨ho, rfl⟩
    · exact ⟨ho, rfl⟩
  · exact ⟨ho, rfl⟩

theorem unpinFullPage (h : MoreOpen F s t) (f : ℕ) : MoreOpen F (s.unpinFullPage f) (t.unpinFullPage f) := by
  obtain ⟨ho, rfl⟩ := h
  unfold State.unpinFullPage
  dsimp only
  split_ifs
  all_goals exact ⟨ho, rfl⟩

theorem unpin (h : MoreOpen F s t) : Follows (MoreOpen F) (s.unpin cfg p) (t.unpin cfg p) := by
  unfold State.unpin
  dsimp only
  rw [h.page]
  split_ifs
  · refine (h.setPage p _).getBytes.bind fun a b hab => ?_
    subst hab
    exact ok (((h.setPage p _).unpinFullPage _).assignLocation p)
  · exact ok h

theorem repin (h : MoreOpen F s t) : Follows (MoreOpen F) (s.repin cfg p) (t.repin cfg p) := by
  unfold State.repin
  dsimp only
  rw [h.page]
  by_cases hst : (s.page p).status = .loading ∨ (s.page p).status = .unloading
  · rw [if_pos hst]
    exact error
  rw [if_neg hst, if_neg hst]
  by_cases hpin : (s.page p).pinned = true
  · rw [if_pos hpin, if_pos hpin]
    exact ok h
  rw [if_neg hpin, if_neg hpin]
  by_cases hb : (s.page p).bytes ≠ none
  · rw [if_pos hb, if_pos hb]
    exact (h.setPage p _).pinParent
  rw [if_neg hb, if_neg hb]
  have hload := h.setPage p { s.page p with status := .loading }
  apply bind (hload.getEmptyMemory (s.page p).location.numBytes)
  rintro ⟨space, s₁⟩ ⟨_, t₁⟩ ⟨rfl, h₁⟩
  dsimp only
  rw [h₁.page]
  apply bind (h₁.setPage p _).registerMiniPage
  intro s₂ t₂ h₂
  rw [h₂.page]
  have h₃ := h₂.setPage p { s₂.page p with pinned := true }
  have hfd : Follows Eq
      (if (s.page p).isAnon = true then .ok cfg.tempFileFD
        else (s₂.setPage p { s₂.page p with pinned := true }).getFileDescriptor (s.page p).whichSet)
      (if (s.page p).isAnon = true then .ok cfg.tempFileFD
        else (t₂.setPage p { s₂.page p with pinned := true }).getFileDescriptor (s.page p).whichSet) := by
    split_ifs
    · exact ok rfl
    · exact h₃.getFileDescriptor _
  apply bind hfd
  rintro fd _ rfl
  apply bind (h₃.pread fd space _ _)
  intro s₄ t₄ h₄
  rw [h₄.page]
  exact ok (h₄.setPage p _)

theorem getPage (h : MoreOpen F s t) (maxBytes : ℕ) :
    Follows (MoreOpen F) (s.getPage cfg maxBytes) (t.getPage cfg maxBytes) := by
  unfold State.getPage
  apply bind (refl (fun _ => rfl) (getLogPageSize cfg maxBytes))
  rintro k _ rfl
  apply bind (h.getEmptyMemory k)
  rintro ⟨space, s₁⟩ ⟨_, t₁⟩ ⟨rfl, h₁⟩
  obtain ⟨ho, rfl⟩ := h₁
  dsimp only
  have htake : MoreOpen F s₁.takePageNumber.2 ({ s₁ with fds := F } : State).takePageNumber.2 ∧
      ({ s₁ with fds := F } : State).takePageNumber.1 = s₁.takePageNumber.1 := by
    unfold State.takePageNumber
    dsimp only
    cases s₁.freeAnonPageNumbers.getLast? with
    | none => exact ⟨⟨ho, rfl⟩, rfl⟩
    | some n => exact ⟨⟨ho, rfl⟩, rfl⟩
  obtain ⟨⟨ho₂, heq⟩, hnum⟩ := htake
  rw [heq, hnum]
  apply registerMiniPage
  exact ⟨ho₂, rfl⟩

theorem createSetPage (h : MoreOpen F s t) (set : PDBSet) (i : ℕ) :
    Follows (MoreOpen F) (s.createSetPage cfg set i) (t.createSetPage cfg set i) := by
  obtain ⟨ho, rfl⟩ := h
  have h₀ : MoreOpen F { s.setPage s.nextPage
      { pinned := true, dirty := true, whichSet := some set, pageNum := i, isAnon := false,
        location := ⟨i, cfg.logOfPageSize⟩, status := .loading } with
      nextPage := s.nextPage + 1
      allPages := update s.allPages (set, i) (some s.nextPage) } _ := ⟨ho, rfl⟩
  apply bind (h₀.getEmptyMemory cfg.logOfPageSize)
  rintro ⟨space, s₁⟩ ⟨_, t₁⟩ ⟨rfl, h₁⟩
  dsimp only
  rw [h₁.page]
  apply bind (h₁.setPage s.nextPage _).registerMiniPage
  intro s₂ t₂ h₂
  rw [h₂.page]
  exact ok (h₂.setPage s.nextPage _)

theorem loadSetPage (h : MoreOpen F s t) (set : PDBSet) (i : ℕ) (myInfo : PDBPageInfo) :
    Follows (MoreOpen F) (s.loadSetPage cfg set i myInfo) (t.loadSetPage cfg set i myInfo) := by
  obtain ⟨ho, rfl⟩ := h
  have h₀ : MoreOpen F { s.setPage s.nextPage
      { pinned := true, dirty := false, whichSet := some set, pageNum := i, isAnon := false,
        location := myInfo, status := .loading, refCount := 1 } with
      nextPage := s.nextPage + 1
      allPages := update s.allPages (set, i) (some s.nextPage) } _ := ⟨ho, rfl⟩
  apply bind (h₀.getEmptyMemory myInfo.numBytes)
  rintro ⟨space, s₁⟩ ⟨_, t₁⟩ ⟨rfl, h₁⟩
  dsimp only
  rw [h₁.page]
  apply bind (h₁.setPage s.nextPage _).registerMiniPage
  intro s₂ t₂ h₂
  apply bind (h₂.getFileDescriptor (some set))
  rintro fd _ rfl
  apply bind (h₂.pread fd space _ _)
  intro s₃ t₃ h₃
  rw [h₃.page]
  exact ok (h₃.setPage s.nextPage _)

theorem isRemovalStillValid (h : MoreOpen F s t) : t.isRemovalStillValid p = s.isRemovalStillValid p := by
  obtain ⟨ho, rfl⟩ := h
  rfl

theorem recycle (h : MoreOpen F s t) (p : ℕ) : MoreOpen F (s.recycle p) (t.recycle p) := by
  obtain ⟨ho, rfl⟩ := h
  exact ⟨ho, rfl⟩

theorem leaveFullPage (h : MoreOpen F s t) (a : ℕ) :
    Follows (MoreOpen F) (s.leaveFullPage cfg p a) (t.leaveFullPage cfg p a) := by
  obtain ⟨ho, rfl⟩ := h
  unfold State.leaveFullPage
  dsimp only
  apply bind (refl (fun _ => rfl) (eraseOne p (s.constituentPages (cfg.fullPage a))))
  rintro miniPages _ rfl
  by_cases hm : miniPages = []
  · rw [if_pos hm, if_pos hm]
    unfold State.giveBackFullPage
    apply Follows.bind
    · apply clearUnused
      exact ⟨ho, rfl⟩
    · intro s₁ t₁ h₁
      obtain ⟨ho, rfl⟩ := h₁
      exact ok ⟨ho, rfl⟩
  · rw [if_neg hm, if_neg hm]
    exact ok ⟨ho, rfl⟩

theorem freeAnonymousPage (h : MoreOpen F s t) :
    Follows (MoreOpen F) (s.freeAnonymousPage cfg p) (t.freeAnonymousPage cfg p) := by
  unfold State.freeAnonymousPage
  rw [h.isRemovalStillValid, h.page]
  split_ifs
  · cases (s.page p).bytes with
    | none => exact ok (h.recycle p)
    | some a => exact (h.recycle p).leaveFullPage a
  · exact ok h

theorem downToZeroReferences (h : MoreOpen F s t) :
    Follows (MoreOpen F) (s.downToZeroReferences cfg p) (t.downToZeroReferences cfg p) := by
  unfold State.downToZeroReferences
  rw [h.isRemovalStillValid, h.page]
  split_ifs
  · exact ok (h.eraseFromAllPages _)
  · exact h.unpin
  · exact ok h

theorem decRefCount (h : MoreOpen F s t) : Follows (MoreOpen F) (s.decRefCount cfg p) (t.decRefCount cfg p) := by
  unfold State.decRefCount
  dsimp only
  rw [h.page]
  have hset := h.setPage p { s.page p with refCount := (s.page p).refCount - 1 }
  split_ifs
  · exact ok hset
  · exact hset.freeAnonymousPage
  · exact hset.downToZeroReferences

theorem write (h : MoreOpen F s t) (off : ℕ) (b : UInt8) :
    Follows (MoreOpen F) (s.write p off b) (t.write p off b) := by
  apply bind h.getBytes
  rintro a _ rfl
  obtain ⟨ho, rfl⟩ := h
  exact ok ⟨ho, rfl⟩

theorem checkIfOpen (h : MoreOpen F s t) (hF : ∀ set fd, F set = some fd → cfg.openFile (cfg.fileLoc set) = some fd)
    (set : PDBSet) : ∃ F', Follows (MoreOpen F') (s.checkIfOpen cfg set) (t.checkIfOpen cfg set) := by
  obtain ⟨ho, rfl⟩ := h
  unfold State.checkIfOpen
  cases hfd : s.fds set with
  | some fd =>
    refine ⟨F, ?_⟩
    rw [if_pos Option.isSome_some, if_pos (by simp [ho set fd hfd])]
    exact ok ⟨ho, rfl⟩
  | none =>
    cases hopen : cfg.openFile (cfg.fileLoc set) with
    | none => exact ⟨F, error⟩
    | some fd =>
      cases hf : F set with
      | some fd' =>
        cases hopen.symm.trans (hF set fd' hf)
        refine ⟨F, ?_⟩
        rw [if_neg (by simp), if_pos (by simp [hf])]
        refine ok ⟨fun set' fd' hx => ?_, rfl⟩
        change update s.fds set (some fd) set' = some fd' at hx
        by_cases hset : set' = set
        · rw [hset, update_self] at hx
          rw [hset, hf, hx]
        · rw [update_of_ne hset] at hx
          exact ho set' fd' hx
      | none =>
        refine ⟨update F set (some fd), ?_⟩
        rw [if_neg (by simp), if_neg (by simp [hf])]
        refine ok ⟨fun set' fd' hx => ?_, rfl⟩
        change update s.fds set (some fd) set' = some fd' at hx
        by_cases hset : set' = set
        · rw [hset, update_self] at hx ⊢
          exact hx
        · rw [update_of_ne hset] at hx ⊢
          exact ho set' fd' hx

theorem getSetPage (h : MoreOpen F s t) (hF : ∀ set fd, F set = some fd → cfg.openFile (cfg.fileLoc set) = some fd)
    (set : PDBSet) (i : ℕ) : ∃ F', Follows (MoreOpen F') (s.getSetPage cfg set i) (t.getSetPage cfg set i) := by
  obtain ⟨F', hopen⟩ := h.checkIfOpen hF set
  refine ⟨F', hopen.bind fun a b hab => ?_⟩
  have hall : b.allPages = a.allPages := by rw [hab.same]
  have hloc : b.pageLocations = a.pageLocations := by rw [hab.same]
  rw [hall, hloc]
  cases a.allPages (set, i) with
  | some p =>
    dsimp only
    rw [hab.page]
    exact (hab.setPage p _).repin
  | none =>
    cases a.pageLocations (set, i) with
    | none => exact hab.createSetPage set i
    | some myInfo => exact hab.loadSetPage set i myInfo

theorem step (h : MoreOpen F s t) (hF : ∀ set fd, F set = some fd → cfg.openFile (cfg.fileLoc set) = some fd)
    (op : Op) : ∃ F', Follows (MoreOpen F') (BufferManager.step cfg op s) (BufferManager.step cfg op t) := by
  cases op with
  | getPage maxBytes => exact ⟨F, h.getPage maxBytes⟩
  | getSetPage set i => exact h.getSetPage hF set i
  | freezeSize p numBytes => exact ⟨F, h.freezeSize numBytes⟩
  | unpin p => exact ⟨F, h.unpin⟩
  | repin p => exact ⟨F, h.repin⟩
  | drop p => exact ⟨F, h.decRefCount⟩
  | setDirty p =>
    refine ⟨F, ok ?_⟩
    rw [h.page]
    exact h.setPage p _
  | write p off b => exact ⟨F, h.write off b⟩

end MoreOpen

end PlinyCompute.BufferManager
