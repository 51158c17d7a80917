import PlinyCompute.BufferReload

namespace PlinyCompute.BufferManager

open Function Transition

variable {cfg : Config} {s s' s'' : State} {p : ℕ} {key : PDBSet × ℕ} {op : Op}

structure Places (cfg : Config) (s s' : State) : Prop where
  old : ∀ key info, s.pageLocations key = some info → s'.pageLocations key = some info
  new : ∀ key info, s'.pageLocations key = some info → s.pageLocations key = some info ∨
    ∃ p, s.allPages key = some p ∧ (s.page p).bytes ≠ none ∧ info.numBytes = (s.page p).location.numBytes
  ends : ∀ set, s'.endOfFiles set = s.endOfFiles set ∨ ∃ i p, s.allPages (set, i) = some p

structure SameObjects (s s' : State) : Prop where
  allPages : s'.allPages = s.allPages
  nextPage : s'.nextPage = s.nextPage
  page : ∀ q, ∃ pos, s'.page q = { s.page q with location := ⟨pos, (s.page q).location.numBytes⟩ }

theorem Places.refl (s : State) : Places cfg s s := ⟨fun _ _ h => h, fun _ _ h => Or.inl h, fun _ => Or.inl rfl⟩

theorem Places.of_eq (hl : s'.pageLocations = s.pageLocations) (he : s'.endOfFiles = s.endOfFiles) :
    Places cfg s s' := by
  refine ⟨fun key info h => ?_, fun key info h => Or.inl ?_, fun set => Or.inl ?_⟩
  · rw [hl, h]
  · rw [← hl, h]
  · rw [he]

theorem Places.congr (h : Places cfg s' s'') (hl : s'.pageLocations = s.pageLocations)
    (he : s'.endOfFiles = s.endOfFiles) (hall : s'.allPages = s.allPages)
    (hpage : ∀ q, (s'.page q).bytes = (s.page q).bytes ∧ (s'.page q).location = (s.page q).location) :
    Places cfg s s'' := by
  refine ⟨fun key info hx => h.old key info (by rw [hl, hx]), fun key info hx => ?_, fun set => ?_⟩
  · rcases h.new key info hx with hx | ⟨q, hk, hb, hn⟩
    · exact Or.inl (by rw [← hl, hx])
    · rw [hall] at hk
      rw [(hpage q).1] at hb
      rw [(hpage q).2] at hn
      exact Or.inr ⟨q, hk, hb, hn⟩
  · rw [← he, ← hall]
    exact h.ends set

theorem setPage_resident {me : PDBPage} (hb : me.bytes = (s.page p).bytes) (hl : me.location = (s.page p).location)
    (q : ℕ) : ((s.setPage p me).page q).bytes = (s.page q).bytes ∧
      ((s.setPage p me).page q).location = (s.page q).location := by
  by_cases hq : q = p
  · subst hq
    simp [State.setPage, hb, hl]
  · simp [State.setPage, update_of_ne hq]

theorem SameObjects.refl (s : State) : SameObjects s s := ⟨rfl, rfl, fun q => ⟨(s.page q).location.startPos, rfl⟩⟩

theorem Places.trans (h : Places cfg s s') (hp : SameObjects s s') (h' : Places cfg s' s'') : Places cfg s s'' := by
  refine ⟨fun key info hx => h'.old _ _ (h.old _ _ hx), fun key info hx => ?_, fun set => ?_⟩
  · rcases h'.new key info hx with hx | ⟨p, hk, hb, hn⟩
    · exact h.new key info hx
    · obtain ⟨pos, hpage⟩ := hp.page p
      rw [hp.allPages] at hk
      rw [hpage] at hb hn
      exact Or.inr ⟨p, hk, hb, hn⟩
  · rcases h'.ends set with heq | ⟨i, p, hk⟩
    · rw [heq]
      exact h.ends set
    · rw [hp.allPages] at hk
      exact Or.inr ⟨i, p, hk⟩

theorem SameObjects.trans (h : SameObjects s s') (h' : SameObjects s' s'') : SameObjects s s'' := by
  refine ⟨h'.allPages.trans h.allPages, h'.nextPage.trans h.nextPage, fun q => ?_⟩
  obtain ⟨pos, hq⟩ := h.page q
  obtain ⟨pos', hq'⟩ := h'.page q
  refine ⟨pos', ?_⟩
  rw [hq', hq]

theorem SameObjects.refInv (h : SameObjects s s') (hfds : s'.fds = s.fds) (href : RefInv s) : RefInv s' := by
  refine ⟨fun key q hk => ?_, fun q hq => ?_, fun q ha => ?_, fun key q hk => ?_⟩
  · obtain ⟨pos, hpage⟩ := h.page q
    rw [h.allPages] at hk
    rw [h.nextPage, hpage]
    exact href.key key q hk
  · obtain ⟨pos, hpage⟩ := h.page q
    rw [hpage] at hq
    rw [h.nextPage, hpage, h.allPages]
    exact href.held q hq
  · obtain ⟨pos, hpage⟩ := h.page q
    rw [hpage] at ha ⊢
    exact href.anon q ha
  · rw [h.allPages] at hk
    rw [hfds]
    exact href.opened key q hk

theorem sameObjects_assignLocation (cfg : Config) (s : State) (p : ℕ) : SameObjects s (s.assignLocation cfg p) := by
  obtain ⟨pos, heq⟩ := assignLocation_eq cfg s p
  rw [heq]
  refine ⟨rfl, rfl, fun q => ?_⟩
  by_cases hq : q = p
  · subst hq
    exact ⟨pos, update_self _ _ _⟩
  · exact ⟨(s.page q).location.startPos, update_of_ne hq _ _⟩

theorem places_assignLocation (href : RefInv s) (hl : s.Live p) (hb : (s.page p).bytes ≠ none) :
    Places cfg s (s.assignLocation cfg p) := by
  rcases assignLocation_cases cfg s p with ⟨heq, -⟩ | ⟨set, ha, hw, hnone, heq⟩
  · rw [heq]
    exact Places.refl s
  · obtain ⟨key, hkey⟩ : ∃ key, s.allPages key = some p := by
      rcases hl with hr | hk
      · exact (href.held p hr).2 ha
      · exact hk
    obtain ⟨-, -, hw', hnum⟩ := href.key key p hkey
    have hk : (set, (s.page p).pageNum) = key := by
      rw [hnum]
      exact Prod.ext (Option.some.inj (hw.symm.trans hw')) rfl
    refine ⟨fun key' info h => assignLocation_pageLocations h, fun key' info h => ?_, fun set' => ?_⟩
    · rw [heq] at h
      dsimp only at h
      by_cases hx : key' = (set, (s.page p).pageNum)
      · rw [hx, update_self] at h
        cases h
        exact Or.inr ⟨p, by rw [hx, hk, hkey], hb, rfl⟩
      · rw [update_of_ne hx] at h
        exact Or.inl h
    · rw [heq]
      dsimp only
      by_cases hx : set' = set
      · exact Or.inr ⟨(s.page p).pageNum, p, by rw [hx, hk, hkey]⟩
      · exact Or.inl (update_of_ne hx _ _)

theorem sameObjects_placeDirty (cfg : Config) (s : State) (p : ℕ) : SameObjects s (s.placeDirty cfg p) := by
  unfold State.placeDirty
  by_cases hd : (s.page p).dirty = true
  · rw [if_pos hd]
    exact sameObjects_assignLocation cfg s p
  · rw [if_neg hd]
    exact SameObjects.refl s

theorem fds_placeDirty (cfg : Config) (s : State) (p : ℕ) : (s.placeDirty cfg p).fds = s.fds := by
  unfold State.placeDirty
  by_cases hd : (s.page p).dirty = true
  · rw [if_pos hd]
    obtain ⟨pos, heq⟩ := assignLocation_eq cfg s p
    rw [heq]
  · rw [if_neg hd]

theorem places_foldl {pages : List ℕ} (href : RefInv s) (hpages : ∀ p ∈ pages, ∃ key, s.allPages key = some p)
    (hdirty : ∀ p ∈ pages, (s.page p).dirty = true → (s.page p).bytes ≠ none) :
    Places cfg s (pages.foldl (State.placeDirty cfg) s) ∧ SameObjects s (pages.foldl (State.placeDirty cfg) s) ∧
      RefInv (pages.foldl (State.placeDirty cfg) s) := by
  induction pages generalizing s with
  | nil => exact ⟨Places.refl s, SameObjects.refl s, href⟩
  | cons p pages ih =>
    have hsame := sameObjects_placeDirty cfg s p
    have hplaces : Places cfg s (s.placeDirty cfg p) := by
      unfold State.placeDirty
      by_cases hd : (s.page p).dirty = true
      · rw [if_pos hd]
        obtain ⟨key, hkey⟩ := hpages p List.mem_cons_self
        exact places_assignLocation href (Or.inr ⟨key, hkey⟩) (hdirty p List.mem_cons_self hd)
      · rw [if_neg hd]
        exact Places.refl s
    obtain ⟨h1, h2, h3⟩ := ih (hsame.refInv (fds_placeDirty cfg s p) href) (fun q hq => by
      obtain ⟨key, hkey⟩ := hpages q (List.mem_cons_of_mem p hq)
      exact ⟨key, by rw [hsame.allPages, hkey]⟩) (fun q hq hd => by
      obtain ⟨pos, hpage⟩ := hsame.page q
      rw [hpage] at hd ⊢
      exact hdirty q (List.mem_cons_of_mem p hq) hd)
    exact ⟨hplaces.trans hsame h1, hsame.trans h2, h3⟩

theorem Repinned.tables (h : Repinned cfg p s s') :
    s'.pageLocations = s.pageLocations ∧ s'.endOfFiles = s.endOfFiles := by
  cases h with
  | pinned _ => exact ⟨rfl, rfl⟩
  | resident _ _ =>
    rw [pinFullPage_eq]
    exact ⟨rfl, rfl⟩
  | loaded _ _ h₂ _ _ =>
    rw [fetch, place_same]
    exact ⟨h₂.frame.2.2.1, h₂.frame.2.2.2.2.1⟩

theorem GotSetPage.tables {set : PDBSet} {i : ℕ} (h : GotSetPage cfg set i s s') :
    s'.pageLocations = s.pageLocations ∧ s'.endOfFiles = s.endOfFiles := by
  cases h with
  | hit _ h => exact h.tables
  | created _ _ h₂ =>
    rw [place_same]
    exact ⟨h₂.frame.2.2.1, h₂.frame.2.2.2.2.1⟩
  | loaded _ _ h₂ _ _ =>
    rw [fetch, place_same]
    exact ⟨h₂.frame.2.2.1, h₂.frame.2.2.2.2.1⟩

theorem Unpinned.places (h : Unpinned cfg p s s') (href : RefInv s) (hl : s.Live p) : Places cfg s s' := by
  cases h with
  | already _ => exact Places.refl s
  | @now a hpin hb =>
    set s₁ := (s.setPage p { s.page p with pinned := false, sizeFrozen := true }).unpinFullPage (cfg.fullPage a)
      with hs₁
    have hset : RefInv (s.setPage p { s.page p with pinned := false, sizeFrozen := true }) :=
      href.setPage rfl rfl rfl fun _ => hl
    have heq : s₁ = { s.setPage p { s.page p with pinned := false, sizeFrozen := true } with
        lastUsed := s₁.lastUsed, numPinned := s₁.numPinned, lastTimeTick := s₁.lastTimeTick } :=
      unpinFullPage_eq _ _
    have href₁ : RefInv s₁ := by
      rw [heq]
      exact ⟨hset.key, hset.held, hset.anon, hset.opened⟩
    have hpage : ∀ q, (s₁.page q).bytes = (s.page q).bytes ∧ (s₁.page q).location = (s.page q).location := by
      rw [heq]
      exact setPage_resident rfl rfl
    have hl₁ : s₁.Live p := by
      rw [heq]
      exact (live_setPage rfl hl : (s.setPage p { s.page p with pinned := false, sizeFrozen := true }).Live p)
    have hplaces := @places_assignLocation cfg s₁ p href₁ hl₁ (by rw [(hpage p).1, hb]; simp)
    exact hplaces.congr (by rw [heq]; rfl) (by rw [heq]; rfl) (by rw [heq]; rfl) hpage

theorem Stepped.places (h : Stepped cfg s op s') (hc : Core cfg s) (hst : Settled s) : Places cfg s s' := by
  cases h with
  | getPage h =>
    cases h with
    | mk h₂ =>
      apply Places.of_eq
      · rw [place_same]
        exact h₂.frame.2.2.1
      · rw [place_same]
        exact h₂.frame.2.2.2.2.1
  | getSetPage h₀ h =>
    obtain ⟨hl, he⟩ := h.tables
    rw [h₀.same] at hl he
    exact Places.of_eq hl he
  | freezeSize _ _ h =>
    cases h with
    | mk _ _ _ _ => exact Places.of_eq rfl rfl
  | unpin hr h => exact h.places hc.ref (Or.inl hr)
  | repin _ h => exact Places.of_eq h.tables.1 h.tables.2
  | drop h =>
    cases h with
    | kept _ => exact Places.of_eq rfl rfl
    | freed _ _ h =>
      rw [h.same]
      exact Places.of_eq rfl rfl
    | forgotten _ _ _ _ => exact Places.of_eq rfl rfl
    | @unpinned key a _ hone ha hb hkey h =>
      have hset := (hc.setRef hst (Or.inr ⟨key, hkey⟩) (n := 0)).ref
      exact (h.places hset (Or.inr ⟨key, hkey⟩)).congr rfl rfl rfl (setPage_resident rfl rfl)
  | setDirty _ _ => exact Places.of_eq rfl rfl
  | write _ _ _ _ => exact Places.of_eq rfl rfl

theorem Provided.allPages_old {k a : ℕ} {s₁ : State} (h : Provided cfg k s s₁ a s') (hc : Core cfg s)
    (hk : s'.allPages key = some p) : s.allPages key = some p := by
  rcases h.allPages hc key with heq | ⟨hnone, -⟩
  · rw [← heq, hk]
  · rw [hnone] at hk
    cases hk

theorem Repinned.allPages_old {q : ℕ} (h : Repinned cfg q s s') (hc : Core cfg s) (hl : s.Live q)
    (hk : s'.allPages key = some p) : s.allPages key = some p := by
  cases h with
  | pinned _ => exact hk
  | resident _ _ =>
    rw [pinFullPage_eq] at hk
    exact hk
  | loaded _ hb h₂ _ _ =>
    have hc₀ : Core cfg (s.setPage q { s.page q with status := .loading }) :=
      hc.setPage ⟨⟨rfl, rfl, rfl⟩, rfl, rfl⟩ rfl (fun _ => hl) fun _ hx _ => absurd rfl hx
    rw [fetch, place_same] at hk
    exact h₂.allPages_old hc₀ hk

theorem GotSetPage.allPages_old {set : PDBSet} {i fd : ℕ} (h : GotSetPage cfg set i s s') (hc : Core cfg s)
    (hst : Settled s) (hfd : s.fds set = some fd) (hk : s'.allPages key = some p) :
    s.allPages key = some p ∨ key = (set, i) := by
  have halloc : ∀ {me : PDBPage}, (alloc s set i me).allPages key = some p →
      s.allPages key = some p ∨ key = (set, i) := by
    intro me hk
    by_cases hx : key = (set, i)
    · exact Or.inr hx
    · exact Or.inl ((update_of_ne hx _ _).symm.trans hk)
  cases h with
  | @hit q _ hkey h =>
    have hl : s.Live q := Or.inr ⟨_, hkey⟩
    exact Or.inl (h.allPages_old (hc.setRef hst hl) (Or.inr ⟨_, hkey⟩) hk)
  | created hkey _ h₂ =>
    have hc₀ : Core cfg (alloc s set i (newSetPage cfg set i)) :=
      hc.alloc hfd hkey rfl rfl rfl rfl rfl (Nat.le_refl _)
    rw [place_same] at hk
    exact halloc (h₂.allPages_old hc₀ hk)
  | @loaded _ _ info _ _ hkey hloc h₂ _ _ =>
    have hc₀ : Core cfg (alloc s set i (knownSetPage set i info)) :=
      hc.alloc hfd hkey rfl rfl rfl rfl rfl (hc.locations _ _ hloc)
    rw [fetch, place_same] at hk
    exact halloc (h₂.allPages_old hc₀ hk)

theorem Unpinned.allPages (h : Unpinned cfg p s s') : s'.allPages = s.allPages := by
  cases h with
  | already _ => rfl
  | @now a _ _ =>
    rw [(sameObjects_assignLocation cfg _ p).allPages, unpinFullPage_eq]
    rfl

theorem Stepped.allPages_old (h : Stepped cfg s op s') (hc : Core cfg s) (hst : Settled s)
    (hk : s'.allPages key = some p) : s.allPages key = some p ∨ op = .getSetPage key.1 key.2 := by
  cases h with
  | getPage h =>
    cases h with
    | mk h₂ =>
      rw [place_same] at hk
      exact Or.inl (h₂.allPages_old hc hk)
  | @getSetPage set i s₀ _ h₀ h =>
    have hst₀ : Settled s₀ := by
      rw [h₀.same]
      exact hst
    obtain ⟨fd, hfd⟩ := h₀.fds
    rcases h.allPages_old (h₀.core hc) hst₀ hfd hk with hx | rfl
    · rw [h₀.same] at hx
      exact Or.inl hx
    · exact Or.inr rfl
  | freezeSize _ _ h =>
    cases h with
    | mk _ _ _ _ => exact Or.inl hk
  | unpin _ h =>
    rw [h.allPages] at hk
    exact Or.inl hk
  | repin hr h => exact Or.inl (h.allPages_old hc (Or.inl hr) hk)
  | drop h =>
    cases h with
    | kept _ => exact Or.inl hk
    | freed _ _ h =>
      rw [h.same] at hk
      exact Or.inl hk
    | @forgotten key' _ _ _ hkey =>
      dsimp only at hk
      by_cases hx : key = key'
      · rw [hx, update_self] at hk
        cases hk
      · rw [update_of_ne hx] at hk
        exact Or.inl hk
    | unpinned _ _ _ _ h =>
      rw [h.allPages] at hk
      exact Or.inl hk
  | setDirty _ _ => exact Or.inl hk
  | write _ _ _ _ => exact Or.inl hk

theorem Core.room (h : Core cfg s) {a : ℕ} (hl : s.Live p) (hb : (s.page p).bytes = some a) :
    0 < cfg.numPages ∧ cfg.miniPageSize (s.page p).location.numBytes ≠ 0 := by
  obtain ⟨a', hb', hslot, hclass, -⟩ := h.mem.resident _ p (h.mem.listed p a hl hb)
  have hlt := hslot.inMemory
  refine ⟨Nat.pos_of_ne_zero fun hz => ?_, by rw [hclass]; exact hslot.size_ne⟩
  rw [hz, Nat.zero_mul] at hlt
  exact Nat.not_lt_zero _ hlt

theorem getEmptyMemory_free (h : Core cfg s) {k : ℕ} (hk : k ≤ cfg.logOfPageSize) (hz : cfg.miniPageSize k ≠ 0)
    (hfree : s.emptyFullPages ≠ []) : ∃ r, s.getEmptyMemory cfg k = .ok r := by
  have hspec := getEmptyMemory_spec h hk
  obtain ⟨f, hf⟩ : ∃ f, s.emptyFullPages.getLast? = some f := ⟨_, List.getLast?_eq_getLast_of_ne_nil hfree⟩
  obtain ⟨s₂, hs₂⟩ : ∃ s₂, (if s.emptyMiniPages k = [] then s.createAdditionalMiniPages cfg k else .ok s) =
      .ok s₂ := by
    by_cases he : s.emptyMiniPages k = []
    · rw [if_pos he]
      unfold State.createAdditionalMiniPages
      rw [if_neg hfree, ok_bind, State.breakUp, hf]
      dsimp only
      rw [miniPagesFrom, if_neg hz, ok_bind]
      exact ⟨_, rfl⟩
    · rw [if_neg he]
      exact ⟨s, rfl⟩
  unfold State.getEmptyMemory at hspec ⊢
  rw [if_neg (by omega), hs₂, ok_bind] at hspec ⊢
  cases hl : (s₂.emptyMiniPages k).getLast? with
  | none =>
    rw [hl] at hspec
    exact absurd rfl hspec
  | some space =>
    rw [hl] at hspec
    dsimp only at hspec ⊢
    unfold eraseOne at hspec ⊢
    by_cases hm : space ∈ (s₂.unusedMiniPages (cfg.fullPage space)).1
    · rw [if_pos hm, ok_bind]
      exact ⟨_, rfl⟩
    · rw [if_neg hm] at hspec
      exact absurd rfl hspec

end PlinyCompute.BufferManager
