import PlinyCompute.BufferThreadNumbers

namespace PlinyCompute.BufferManager

open Function Transition NumberPool

variable {cfg : Config} {s : State} {w : World} {P : Pool ℕ} {t p : ℕ} {purpose : Purpose}

theorem useSpace_any {space : ℕ} (h : Ready P t purpose w) :
    Ensures Any (w.useSpace cfg t space purpose) (Settles P) := by
  cases purpose with
  | newPage k =>
    refine SameNumbers.registerMiniPage.bind fun s₁ hs => ?_
    have hnew : Settles P ((({ w with state := { w.state.takePageNumber.2.setPage w.state.nextPage
        { pinned := true, dirty := true, bytes := some space, isAnon := true,
          pageNum := w.state.takePageNumber.1, location := ⟨-1, k⟩, status := .loaded, refCount := 1 } with
        nextPage := w.state.nextPage + 1 } } : World).addHandle t w.state.nextPage).setPhase t .idle) := by
      rw [← h.pool]
      apply h.sane.takePageNumber
      all_goals rfl
    have htake : w.state.takePageNumber.2.nextPage = w.state.nextPage := by
      unfold State.takePageNumber
      split <;> rfl
    rw [htake] at hs
    exact hnew.same hs rfl rfl
  | repinned p myInfo =>
    refine SameNumbers.registerMiniPage.bind fun s₁ hs => ?_
    have hset : SameNumbers w.state (w.state.setPage p { w.state.page p with bytes := some space }) :=
      .setPage rfl rfl rfl
    have hpin : SameNumbers s₁ (s₁.setPage p { s₁.page p with pinned := true }) := .setPage rfl rfl rfl
    apply (h.setState ((hset.trans hs).trans hpin)).setPhase
    · exact fun _ => nofun
    · exact fun _ => nofun
  | created p =>
    refine SameNumbers.registerMiniPage.bind fun s₁ hs => ?_
    have hset : SameNumbers w.state (w.state.setPage p { w.state.page p with bytes := some space }) :=
      .setPage rfl rfl rfl
    have h₁ := h.setState (hset.trans hs)
    obtain ⟨hlt, ha⟩ := h₁.fits
    have hnot : (s₁.page p).isAnon = true → 0 < (s₁.page p).refCount := by
      intro ha'
      cases ha.symm.trans ha'
    rw [← h₁.pool]
    exact h₁.sane.settles_retain { s₁.page p with refCount := (s₁.page p).refCount + 1, status := .loaded }
      rfl rfl rfl hlt hnot rfl rfl rfl
  | loaded p myInfo =>
    refine SameNumbers.registerMiniPage.bind fun s₁ hs => ?_
    have hset : SameNumbers w.state (w.state.setPage p { w.state.page p with bytes := some space }) :=
      .setPage rfl rfl rfl
    apply (h.setState (hset.trans hs)).setPhase
    · exact fun _ => nofun
    · exact fun _ => nofun

theorem takeSpace_any {k : ℕ} (h : Ready P t purpose w) :
    Ensures Any (w.takeSpace cfg t k purpose) (Settles P) := by
  refine SameNumbers.takeSpace.bind fun r hs => ?_
  exact useSpace_any (h.setState hs)

theorem breakUp_settles {k : ℕ} (h : Ready P t purpose w) :
    Ensures Any (w.breakUp cfg t k purpose) (Settles P) := by
  refine SameNumbers.breakUp.bind fun s hs => ?_
  exact takeSpace_any (h.same hs rfl rfl)

theorem finishEviction_any {k f : ℕ} (h : Ready P t purpose w) :
    Ensures Any (w.finishEviction cfg t k f purpose) (Settles P) := by
  apply breakUp_settles
  have hset := SameNumbers.setStatuses (w.state.constituentPages f) .notLoaded w.state
  exact h.setState (hset.trans (.of_eq rfl))

theorem evictPages_any {k f : ℕ} {pages : List ℕ} (h : Ready P t purpose w) :
    Ensures Any (w.evictPages cfg t k f purpose pages) (Settles P) := by
  induction pages generalizing w with
  | nil => exact finishEviction_any h
  | cons p rest ih =>
    have hwait : ∀ {w : World}, Ready P t purpose w →
        Settles P (w.setPhase t (.evicting k f p rest purpose)) := by
      intro w h
      apply h.setPhase
      · exact fun _ => nofun
      · rintro _ ⟨⟩
        rfl
    unfold World.evictPages
    dsimp only
    split_ifs
    · have hpos := SameNumbers.takeTempPos cfg (w.state.page p).location.numBytes w.state
      have hpage : (w.state.takeTempPos cfg (w.state.page p).location.numBytes).2.page = w.state.page := by
        unfold State.takeTempPos
        split <;> rfl
      apply hwait
      apply h.setState
      apply hpos.trans
      apply SameNumbers.setPage <;> rw [hpage]
    · exact hwait h
    · apply ih
      exact h.setState ((SameNumbers.killUnreferenced p w.state).trans (.leaveMemory p _))

theorem evict_settles {k : ℕ} (h : Ready P t purpose w) : Ensures Any (w.evict cfg t k purpose) (Settles P) := by
  unfold World.evict
  cases w.state.lastUsed with
  | nil => exact trivial
  | cons e rest =>
    refine SameNumbers.clearUnused.bind fun s hs => ?_
    apply evictPages_any
    apply h.setState
    have hset := SameNumbers.setStatuses (w.state.constituentPages e.1) .unloading { w.state with lastUsed := rest }
    exact SameNumbers.trans (.of_eq rfl) (hset.trans hs)

theorem createAdditionalMiniPages_any {k : ℕ} (h : Ready P t purpose w) :
    Ensures Any (w.createAdditionalMiniPages cfg t k purpose) (Settles P) := by
  unfold World.createAdditionalMiniPages
  dsimp only
  split_ifs
  · apply h.setPhase
    · exact fun _ => nofun
    · rintro _ ⟨⟩
      rfl
  · exact takeSpace_any h
  · exact evict_settles (h.same (.refl _) rfl rfl)
  · exact breakUp_settles (h.same (.refl _) rfl rfl)

theorem getEmptyMemory_settles {k : ℕ} (h : Ready P t purpose w) :
    Ensures Any (w.getEmptyMemory cfg t k purpose) (Settles P) := by
  unfold World.getEmptyMemory
  split_ifs
  · exact trivial
  · exact createAdditionalMiniPages_any h
  · exact takeSpace_any h

theorem pageFile_any {me : PDBPage} : Ensures Any (if me.isAnon = true then .ok cfg.tempFileFD
    else s.getFileDescriptor me.whichSet) fun _ => True := by
  split_ifs
  · exact trivial
  · exact getFileDescriptor_any.mono fun _ _ => trivial

theorem finishWrite_any {k f : ℕ} {rest : List ℕ} (h : Ready P t purpose w) :
    Ensures Any (w.finishWrite cfg t k f p rest purpose) (Settles P) := by
  unfold World.finishWrite
  dsimp only
  refine pageFile_any.bind fun fd _ => getBytes_any.bind fun addr _ => SameNumbers.pwrite.bind fun s hs => ?_
  apply evictPages_any
  apply h.setState
  have hkill : SameNumbers s (if (w.state.page p).isAnon = true then s else s.killUnreferenced p) := by
    split_ifs
    · exact .refl s
    · exact .killUnreferenced p s
  exact (hs.trans hkill).trans (.leaveMemory p _)

theorem finishRead_any {space : ℕ} {myInfo : PDBPageInfo} (h : Ready P t purpose w) :
    Ensures Any (w.finishRead cfg t p space myInfo) (Settles P) := by
  unfold World.finishRead
  dsimp only
  refine pageFile_any.bind fun fd _ => SameNumbers.pread.bind fun s hs => ?_
  have hset : SameNumbers s (s.setPage p { s.page p with status := .loaded }) := .setPage rfl rfl rfl
  apply (h.setState (hs.trans hset)).setPhase
  · exact fun _ => nofun
  · exact fun _ => nofun

theorem Ready.aim (h : Ready P t purpose w) {purpose' : Purpose} (hf : purpose'.Fits w.state) :
    Ready P t purpose' w := ⟨h.sane, hf, h.pool⟩

theorem repinSettled_any (h : Ready P t purpose w) : Ensures Any (w.repinSettled cfg t p) (Settles P) := by
  have hidle : ∀ {w : World}, Ready P t purpose w → Settles P (w.setPhase t .idle) := by
    intro w h
    apply h.setPhase
    · exact fun _ => nofun
    · exact fun _ => nofun
  unfold World.repinSettled
  dsimp only
  split_ifs
  · exact hidle h
  · refine SameNumbers.pinParent.bind fun s hs => ?_
    have hset : SameNumbers w.state (w.state.setPage p { w.state.page p with pinned := true }) :=
      .setPage rfl rfl rfl
    exact hidle (h.setState (hset.trans hs))
  · have hset : SameNumbers w.state (w.state.setPage p { w.state.page p with status := .loading }) :=
      .setPage rfl rfl rfl
    exact getEmptyMemory_settles ((h.setState hset).aim trivial)

theorem repin_settles (hs : (w.setPhase t .idle).Sane) (hp : (w.setPhase t .idle).pool = P) :
    Ensures Any (w.repin cfg t p) (Settles P) := by
  have h : Ready P t (.newPage 0) w := ⟨hs, trivial, hp⟩
  unfold World.repin
  dsimp only
  split_ifs
  · apply h.setPhase
    · exact fun _ => nofun
    · exact fun _ => nofun
  · exact repinSettled_any h

theorem eq_some_of_update {pages : PDBSet × ℕ → Option ℕ} {key key' : PDBSet × ℕ} {q : ℕ}
    (h : update pages key (some p) key' = some q) : pages key' = some q ∨ q = p := by
  by_cases hk : key' = key
  · rw [hk, update_self] at h
    exact Or.inr (Option.some.inj h).symm
  · rw [update_of_ne hk] at h
    exact Or.inl h

theorem Ready.createSetPage (h : Ready P t purpose w) {set : PDBSet} {i : ℕ} :
    Ensures Any (w.createSetPage cfg t set i) (Settles P) := by
  apply getEmptyMemory_settles
  refine ⟨?_, ?_, ?_⟩
  · apply h.sane.alloc
    · rfl
    · rfl
    · exact fun key q hq => (eq_some_of_update hq).imp_right fun hq => ⟨hq, rfl⟩
    · rfl
    · intro q
      split_ifs <;> rfl
  · refine ⟨Nat.lt_succ_self _, ?_⟩
    simp [World.setState, State.setPage]
  · rw [← h.pool]
    apply h.sane.pool_alloc
    all_goals rfl

theorem Ready.loadSetPage (h : Ready P t purpose w) {set : PDBSet} {i : ℕ} {myInfo : PDBPageInfo} :
    Ensures Any (w.loadSetPage cfg t set i myInfo) (Settles P) := by
  apply getEmptyMemory_settles
  refine ⟨?_, trivial, ?_⟩
  · apply h.sane.alloc
    · rfl
    · rfl
    · exact fun key q hq => (eq_some_of_update hq).imp_right fun hq => ⟨hq, rfl⟩
    · rfl
    · intro q
      change ((w.state.nextPage :: w.handles.map Prod.snd)).count q = _
      by_cases hq : q = w.state.nextPage
      · subst hq
        simp [World.setPhase]
      · rw [List.count_cons_of_ne (Ne.symm hq)]
        simp [World.setPhase, hq]
  · rw [← h.pool]
    apply h.sane.pool_alloc
    all_goals rfl

theorem getSetPage_settles (h : Ready P t purpose w) {set : PDBSet} {i : ℕ} :
    Ensures Any (w.getSetPage cfg t set i) (Settles P) := by
  refine SameNumbers.checkIfOpen.bind fun s hs => ?_
  have h₁ := h.setState hs
  dsimp only
  cases hk : s.allPages (set, i) with
  | none =>
    cases s.pageLocations (set, i) with
    | none => exact h₁.createSetPage
    | some myInfo => exact h₁.loadSetPage
  | some p =>
    obtain ⟨hlt, ha⟩ := h₁.sane.keyed _ p hk
    have hnot : (s.page p).isAnon = true → 0 < (s.page p).refCount := by
      intro ha'
      cases ha.symm.trans ha'
    apply repin_settles
    · exact h₁.sane.retain { s.page p with refCount := (s.page p).refCount + 1 } rfl rfl rfl hlt hnot rfl rfl
    · rw [← h₁.pool]
      exact World.pool_retain { s.page p with refCount := (s.page p).refCount + 1 } rfl rfl hnot rfl rfl rfl

end PlinyCompute.BufferManager
