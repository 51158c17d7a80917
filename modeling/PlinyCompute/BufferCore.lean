import PlinyCompute.BufferSpace

namespace PlinyCompute.BufferManager

open Function Transition

variable {cfg : Config} {s s' : State}

theorem Core.congr (h : Core cfg s) (hs : s' = { s with
    endOfFiles := s'.endOfFiles, availablePositions := s'.availablePositions, lastTempPos := s'.lastTempPos
    freeAnonPageNumbers := s'.freeAnonPageNumbers, lastFreeAnonPageNumber := s'.lastFreeAnonPageNumber
    memory := s'.memory, files := s'.files }) : Core cfg s' := by
  obtain ⟨⟨⟨h1, h2, h3, h4⟩, hm, hp, hcl, hloc⟩, hl, hu⟩ := h
  have hmem : MemInv cfg s' := by
    refine hm.congr ?_ ?_ ?_ ?_ ?_ ?_ ?_ ?_
    all_goals rw [hs]
    · exact fun q => ⟨rfl, rfl, rfl⟩
    · exact fun q hq => hq
    · exact fun f q _ key hk => hk
  have hlru : LruInv s' := by
    refine hl.congr ?_ ?_ ?_ ?_ ?_
    all_goals rw [hs]
    exact fun f => rfl
  rw [hs] at hmem hlru ⊢
  exact ⟨⟨⟨h1, h2, h3, h4⟩, hmem, hp, hcl, hloc⟩, hlru, hu⟩

theorem pinnedCount_update {p f : ℕ} {me : PDBPage} (hc : s'.constituentPages f = s.constituentPages f)
    (hpage : s'.page = update s.page p me)
    (hp : p ∈ s.constituentPages f → me.pinned = (s.page p).pinned) : pinnedCount s' f = pinnedCount s f := by
  rw [pinnedCount, pinnedCount, hc]
  apply List.countP_congr
  intro q hq
  by_cases hqp : q = p
  · subst hqp
    rw [hpage, update_self, hp hq]
  · rw [hpage, update_of_ne hqp]

theorem live_of_setPage {p q : ℕ} {me : PDBPage} (hlive : 0 < me.refCount → s.Live p)
    (h : (s.setPage p me).Live q) : s.Live q := by
  by_cases hqp : q = p
  · subst hqp
    rcases h with href | hkey
    · simp only [State.setPage, update_self] at href
      exact hlive href
    · exact Or.inr hkey
  · rcases h with href | hkey
    · simp only [State.setPage, update_of_ne hqp] at href
      exact Or.inl href
    · exact Or.inr hkey

structure SamePage (p q : PDBPage) : Prop extends SameSlot p q where
  whichSet : p.whichSet = q.whichSet
  pageNum : p.pageNum = q.pageNum

theorem RefInv.setPage (h : RefInv s) {p : ℕ} {me : PDBPage} (ha : me.isAnon = (s.page p).isAnon)
    (hw : me.whichSet = (s.page p).whichSet) (hn : me.pageNum = (s.page p).pageNum)
    (hlive : 0 < me.refCount → s.Live p) : RefInv (s.setPage p me) := by
  have hq : ∀ q, ((s.setPage p me).page q).isAnon = (s.page q).isAnon ∧
      ((s.setPage p me).page q).whichSet = (s.page q).whichSet ∧
      ((s.setPage p me).page q).pageNum = (s.page q).pageNum := by
    intro q
    by_cases hqp : q = p
    · subst hqp
      simp only [State.setPage, update_self]
      exact ⟨ha, hw, hn⟩
    · rw [show (s.setPage p me).page q = s.page q from update_of_ne hqp _ _]
      exact ⟨rfl, rfl, rfl⟩
  refine ⟨fun key q hk => ?_, fun q href => ?_, fun q ha => ?_, h.opened⟩
  · rw [(hq q).1, (hq q).2.1, (hq q).2.2]
    exact h.key key q hk
  · rw [(hq q).1]
    rcases live_of_setPage hlive (Or.inl href) with href | ⟨key, hk⟩
    · exact h.held q href
    · exact ⟨(h.key key q hk).1, fun _ => ⟨key, hk⟩⟩
  · rw [(hq q).1] at ha
    rw [(hq q).2.1]
    exact h.anon q ha

theorem Base.setPage (h : Base cfg s) {p : ℕ} {me : PDBPage} (hme : SamePage me (s.page p))
    (hlive : 0 < me.refCount → s.Live p)
    (hst : s.Live p → me.status ≠ .loading → me.pinned = true → me.bytes ≠ none) :
    Base cfg (s.setPage p me) := by
  have hq : ∀ q, q ≠ p → (s.setPage p me).page q = s.page q := fun q hqp => update_of_ne hqp _ _
  have hp : (s.setPage p me).page p = me := update_self _ _ _
  refine ⟨h.ref.setPage hme.isAnon hme.whichSet hme.pageNum hlive, ?_, ?_, ?_, h.locations⟩
  · refine h.mem.congr ?_ (fun q => live_of_setPage hlive) (Nat.le_refl _) (fun _ _ _ _ hk => hk) rfl rfl
      rfl rfl
    intro q
    by_cases hqp : q = p
    · subst hqp
      rw [hp]
      exact hme.toSameSlot
    · rw [hq q hqp]
      exact ⟨rfl, rfl, rfl⟩
  · intro q hl' hs hpq
    have hl := live_of_setPage hlive hl'
    by_cases hqp : q = p
    · subst hqp
      rw [hp] at hs hpq ⊢
      exact hst hl hs hpq
    · rw [hq q hqp] at hs hpq ⊢
      exact h.pins q hl hs hpq
  · intro q hl'
    have hl := live_of_setPage hlive hl'
    by_cases hqp : q = p
    · subst hqp
      rw [hp, hme.numBytes]
      exact h.classes q hl
    · rw [hq q hqp]
      exact h.classes q hl

theorem Core.setPage (h : Core cfg s) {p : ℕ} {me : PDBPage} (hme : SamePage me (s.page p))
    (hpin : me.pinned = (s.page p).pinned) (hlive : 0 < me.refCount → s.Live p)
    (hst : s.Live p → me.status ≠ .loading → me.pinned = true → me.bytes ≠ none) :
    Core cfg (s.setPage p me) :=
  ⟨h.toBase.setPage hme hlive hst,
    h.lru.congr rfl rfl rfl rfl fun _ => pinnedCount_update rfl rfl fun _ => hpin, h.used⟩

theorem Base.congr (h : Base cfg s) (hs : s' = { s with
    lastUsed := s'.lastUsed, numPinned := s'.numPinned, lastTimeTick := s'.lastTimeTick }) :
    Base cfg s' := by
  obtain ⟨⟨h1, h2, h3, h4⟩, hm, hp, hcl, hloc⟩ := h
  have hmem : MemInv cfg s' := by
    refine hm.congr ?_ ?_ ?_ ?_ ?_ ?_ ?_ ?_
    all_goals rw [hs]
    · exact fun q => ⟨rfl, rfl, rfl⟩
    · exact fun q hq => hq
    · exact fun f q _ key hk => hk
  rw [hs] at hmem ⊢
  exact ⟨⟨h1, h2, h3, h4⟩, hmem, hp, hcl, hloc⟩

theorem Core.not_full (h : Core cfg s) {p a : ℕ} (hl : s.Live p) (hb : (s.page p).bytes = some a) :
    cfg.fullPage a ∉ s.emptyFullPages := (h.mem.base (h.mem.listed p a hl hb)).2.2

theorem pinnedCount_setPage {p f : ℕ} (me : PDBPage) (hn : (s.constituentPages f).Nodup)
    (hp : p ∈ s.constituentPages f) :
    pinnedCount (s.setPage p me) f + (if (s.page p).pinned then 1 else 0) =
      pinnedCount s f + if me.pinned then 1 else 0 := by
  have hperm := List.perm_cons_erase hp
  have hrest : (((s.constituentPages f).erase p).countP fun q => ((s.setPage p me).page q).pinned) =
      ((s.constituentPages f).erase p).countP fun q => (s.page q).pinned := by
    apply List.countP_congr
    intro q hq
    have hqp : q ≠ p := (hn.mem_erase_iff.mp hq).1
    rw [show (s.setPage p me).page q = s.page q from update_of_ne hqp _ _]
  unfold pinnedCount
  rw [hperm.countP_eq, show (s.setPage p me).constituentPages = s.constituentPages from rfl,
    hperm.countP_eq, List.countP_cons, List.countP_cons, hrest,
    show (s.setPage p me).page p = me from update_self _ _ _]
  omega

theorem setPage_pinFullPage (s : State) (p f : ℕ) (me : PDBPage) :
    (s.setPage p me).pinFullPage f = (s.pinFullPage f).setPage p me := by
  unfold State.pinFullPage State.setPage
  dsimp only
  split_ifs <;> rfl

theorem Core.pin (h : Core cfg s) {p a : ℕ} (ht : TickFits s (cfg.fullPage a)) (hl : s.Live p)
    (hb : (s.page p).bytes = some a) (hpin : (s.page p).pinned = false) :
    Core cfg ((s.setPage p { s.page p with pinned := true }).pinFullPage (cfg.fullPage a)) := by
  have hpf := h.mem.listed p a hl hb
  have hbase : Base cfg (s.setPage p { s.page p with pinned := true }) := by
    refine h.toBase.setPage ⟨⟨rfl, rfl, rfl⟩, rfl, rfl⟩ (fun _ => hl) fun _ _ _ => ?_
    simp [hb]
  refine ⟨hbase.congr (by rw [pinFullPage_eq]), ?_, fun e he => ?_⟩
  · rw [setPage_pinFullPage]
    refine h.lru.pin ht (h.not_full hl hb) rfl rfl ?_ ?_ ?_ fun g hg => ?_
    · rw [pinFullPage_eq]
      rfl
    · rw [pinFullPage_eq]
      rfl
    · have hcount := pinnedCount_setPage { s.page p with pinned := true } (h.mem.nodup _) hpf
      rw [hpin] at hcount
      rw [pinFullPage_eq]
      exact hcount
    · rw [pinFullPage_eq]
      refine pinnedCount_update rfl rfl fun hpg => ?_
      exact absurd (h.mem.fullPage_unique hpg hpf) hg
  · rw [setPage_pinFullPage] at he
    have hused := h.used e (mem_pinFullPage_lastUsed he)
    rw [pinFullPage_eq]
    exact hused

theorem unpinFullPage_eq (s : State) (f : ℕ) : s.unpinFullPage f = { s with
    lastUsed := (s.unpinFullPage f).lastUsed, numPinned := (s.unpinFullPage f).numPinned
    lastTimeTick := (s.unpinFullPage f).lastTimeTick } := by
  unfold State.unpinFullPage
  dsimp only
  split_ifs <;> rfl

theorem unpinFullPage_many {f : ℕ} (h : 1 < s.numPinned f) :
    s.unpinFullPage f = { s with numPinned := update s.numPinned f (s.numPinned f - 1) } := by
  unfold State.unpinFullPage
  have hne : ¬s.numPinned f - 1 = 0 := by omega
  simp only [if_pos (by omega : 0 < s.numPinned f), update_self, if_neg hne]

theorem unpinFullPage_one {f : ℕ} (h : s.numPinned f = 1) : s.unpinFullPage f = { s with
    numPinned := update s.numPinned f (-s.lastTimeTick)
    lastUsed := lruInsert (f, s.lastTimeTick) s.lastUsed
    lastTimeTick := s.lastTimeTick + 1 } := by
  unfold State.unpinFullPage
  simp only [h, update_self, update_idem, if_pos (by decide : (0 : ℤ) < 1), if_pos (by decide : (1 : ℤ) - 1 = 0)]

theorem setPage_unpinFullPage (s : State) (p f : ℕ) (me : PDBPage) :
    (s.setPage p me).unpinFullPage f = (s.unpinFullPage f).setPage p me := by
  unfold State.unpinFullPage State.setPage
  dsimp only
  split_ifs <;> rfl

theorem mem_unpinFullPage_lastUsed {f : ℕ} {e : ℕ × ℕ} (hb : ∀ e ∈ s.lastUsed, e.2 < s.lastTimeTick)
    (h : e ∈ (s.unpinFullPage f).lastUsed) : e ∈ s.lastUsed ∨ e.1 = f := by
  unfold State.unpinFullPage at h
  dsimp only at h
  split_ifs at h
  · exact ((mem_lruInsert hb).mp h).imp_right fun he => by rw [he]
  · exact Or.inl h
  · exact ((mem_lruInsert hb).mp h).imp_right fun he => by rw [he]
  · exact Or.inl h

theorem Core.unpin (h : Core cfg s) {p a : ℕ} (hl : s.Live p) (hb : (s.page p).bytes = some a)
    (hpin : (s.page p).pinned = true) :
    Core cfg ((s.setPage p { s.page p with pinned := false, sizeFrozen := true }).unpinFullPage
      (cfg.fullPage a)) := by
  have hpf := h.mem.listed p a hl hb
  have hbase : Base cfg (s.setPage p { s.page p with pinned := false, sizeFrozen := true }) :=
    h.toBase.setPage ⟨⟨rfl, rfl, rfl⟩, rfl, rfl⟩ (fun _ => hl) fun _ _ hx => Bool.noConfusion hx
  refine ⟨hbase.congr (by rw [unpinFullPage_eq]), ?_, fun e he => ?_⟩
  · rw [setPage_unpinFullPage]
    refine h.lru.unpin (h.not_full hl hb) rfl rfl rfl ?_ ?_ fun g hg => ?_
    · rw [unpinFullPage_eq]
      rfl
    · have hcount := pinnedCount_setPage { s.page p with pinned := false, sizeFrozen := true }
        (h.mem.nodup _) hpf
      rw [hpin] at hcount
      rw [unpinFullPage_eq]
      exact hcount
    · rw [unpinFullPage_eq]
      refine pinnedCount_update rfl rfl fun hpg => ?_
      exact absurd (h.mem.fullPage_unique hpg hpf) hg
  · rw [setPage_unpinFullPage] at he
    rcases mem_unpinFullPage_lastUsed h.lru.bounded he with he | he
    · have hused := h.used e he
      rw [unpinFullPage_eq]
      exact hused
    · rw [unpinFullPage_eq, he]
      exact List.ne_nil_of_mem hpf

theorem assignLocation_eq (cfg : Config) (s : State) (p : ℕ) : ∃ pos, s.assignLocation cfg p = { s with
    page := update s.page p { s.page p with location := { (s.page p).location with startPos := pos } }
    pageLocations := (s.assignLocation cfg p).pageLocations
    endOfFiles := (s.assignLocation cfg p).endOfFiles } := by
  unfold State.assignLocation
  dsimp only
  split
  · split_ifs
    · exact ⟨_, rfl⟩
    · exact ⟨(s.page p).location.startPos, by simp⟩
  · exact ⟨(s.page p).location.startPos, by simp⟩

theorem assignLocation_location {p : ℕ} {key : PDBSet × ℕ} {info : PDBPageInfo}
    (h : (s.assignLocation cfg p).pageLocations key = some info) :
    s.pageLocations key = some info ∨ info.numBytes = (s.page p).location.numBytes := by
  unfold State.assignLocation at h
  dsimp only at h
  split at h
  · next set _ _ =>
    split_ifs at h
    · dsimp only at h
      by_cases hk : key = (set, (s.page p).pageNum)
      · subst hk
        rw [update_self] at h
        cases h
        exact Or.inr rfl
      · rw [update_of_ne hk] at h
        exact Or.inl h
    · exact Or.inl h
  · exact Or.inl h

theorem Core.assignLocation (h : Core cfg s) {p : ℕ} (hl : s.Live p) (hpin : (s.page p).pinned = false) :
    Core cfg (s.assignLocation cfg p) := by
  obtain ⟨pos, heq⟩ := assignLocation_eq cfg s p
  have hloc : ∀ key info, (s.assignLocation cfg p).pageLocations key = some info →
      info.numBytes ≤ cfg.logOfPageSize := by
    intro key info hk
    rcases assignLocation_location hk with hk | hk
    · exact h.locations key info hk
    · rw [hk]
      exact h.classes p hl
  have hcore : Core cfg (s.setPage p
      { s.page p with location := { (s.page p).location with startPos := pos } }) := by
    refine h.setPage ⟨⟨rfl, rfl, rfl⟩, rfl, rfl⟩ rfl (fun _ => hl) fun _ _ hx => ?_
    rw [hpin] at hx
    cases hx
  rw [heq]
  obtain ⟨⟨⟨h1, h2, h3, h4⟩, hm, hp, hcl, -⟩, hlru, hu⟩ := hcore
  refine ⟨⟨⟨h1, h2, h3, h4⟩, ?_, hp, hcl, hloc⟩, ?_, hu⟩
  · exact hm.congr (fun _ => ⟨rfl, rfl, rfl⟩) (fun _ hq => hq) (Nat.le_refl _) (fun _ _ _ _ hk => hk) rfl
      rfl rfl rfl
  · exact hlru.congr rfl rfl rfl rfl fun _ => rfl

theorem Core.alloc (h : Core cfg s) {set : PDBSet} {i fd : ℕ} {me : PDBPage} (hfd : s.fds set = some fd)
    (hkey : s.allPages (set, i) = none) (hb : me.bytes = none) (hst : me.status = .loading)
    (hanon : me.isAnon = false) (hset : me.whichSet = some set) (hnum : me.pageNum = i)
    (hk : me.location.numBytes ≤ cfg.logOfPageSize) :
    Core cfg { s.setPage s.nextPage me with
      nextPage := s.nextPage + 1, allPages := update s.allPages (set, i) (some s.nextPage) } := by
  set s' : State := { s.setPage s.nextPage me with
    nextPage := s.nextPage + 1, allPages := update s.allPages (set, i) (some s.nextPage) } with hs'
  have hq : ∀ q, q ≠ s.nextPage → s'.page q = s.page q := fun q hqp => update_of_ne hqp _ _
  have hp : s'.page s.nextPage = me := update_self _ _ _
  have hall : ∀ key q, s'.allPages key = some q →
      key = (set, i) ∧ q = s.nextPage ∨ key ≠ (set, i) ∧ s.allPages key = some q ∧ q ≠ s.nextPage := by
    intro key q hk
    by_cases hx : key = (set, i)
    · subst hx
      rw [show s'.allPages (set, i) = some s.nextPage from update_self _ _ _] at hk
      exact Or.inl ⟨rfl, (Option.some.inj hk).symm⟩
    · rw [show s'.allPages key = s.allPages key from update_of_ne hx _ _] at hk
      exact Or.inr ⟨hx, hk, (h.ref.key key q hk).1.ne⟩
  have hkeep : ∀ key q, s.allPages key = some q → s'.allPages key = some q := by
    intro key q hk
    rw [show s'.allPages key = s.allPages key from update_of_ne (fun hx => by simp [hx, hkey] at hk) _ _]
    exact hk
  have hfresh : ∀ f, s.nextPage ∉ s.constituentPages f := fun f hf => (h.mem.owned f _ hf).1.ne rfl
  have hlive : ∀ q, q ≠ s.nextPage → s'.Live q → s.Live q := by
    intro q hqp hl
    rcases hl with href | ⟨key, hk⟩
    · rw [hq q hqp] at href
      exact Or.inl href
    · rcases hall key q hk with ⟨-, rfl⟩ | ⟨-, hk, -⟩
      · exact absurd rfl hqp
      · exact Or.inr ⟨key, hk⟩
  refine ⟨⟨⟨?_, ?_, ?_, ?_⟩, ?_, ?_, ?_, h.locations⟩, ?_, h.used⟩
  · intro key q hk
    rcases hall key q hk with ⟨rfl, rfl⟩ | ⟨-, hk, hqp⟩
    · rw [hp]
      exact ⟨Nat.lt_succ_self _, hanon, hset, hnum⟩
    · rw [hq q hqp]
      obtain ⟨h1, h2⟩ := h.ref.key key q hk
      exact ⟨Nat.lt_succ_of_lt h1, h2⟩
  · intro q href
    by_cases hqp : q = s.nextPage
    · subst hqp
      exact ⟨Nat.lt_succ_self _, fun _ => ⟨(set, i), update_self _ _ _⟩⟩
    · rw [hq q hqp] at href ⊢
      obtain ⟨h1, h2⟩ := h.ref.held q href
      refine ⟨Nat.lt_succ_of_lt h1, fun ha => ?_⟩
      obtain ⟨key, hk⟩ := h2 ha
      exact ⟨key, hkeep key q hk⟩
  · intro q ha
    by_cases hqp : q = s.nextPage
    · subst hqp
      rw [hp, hanon] at ha
      cases ha
    · rw [hq q hqp] at ha ⊢
      exact h.ref.anon q ha
  · intro key q hk
    rcases hall key q hk with ⟨rfl, rfl⟩ | ⟨-, hk, -⟩
    · exact ⟨fd, hfd⟩
    · exact h.ref.opened key q hk
  · obtain ⟨m1, m2, m3, m4, m5, m6, m7, m8, m9, m10, m11⟩ := h.mem
    have hqf : ∀ f, ∀ q ∈ s.constituentPages f, s'.page q = s.page q :=
      fun f q hqf => hq q fun heq => hfresh f (heq ▸ hqf)
    refine ⟨fun f q hqc => ?_, fun f q hqc => ?_, fun q a hl hba => ?_, m4, fun f q hqc r hrc hqr => ?_,
      m6, m7, m8, m9, m10, m11⟩
    · rw [hqf f q hqc]
      exact m1 f q hqc
    · rw [hqf f q hqc]
      obtain ⟨h1, h2⟩ := m2 f q hqc
      refine ⟨Nat.lt_succ_of_lt h1, fun ha => ?_⟩
      obtain ⟨key, hk⟩ := h2 ha
      exact ⟨key, hkeep key q hk⟩
    · by_cases hqp : q = s.nextPage
      · subst hqp
        rw [hp, hb] at hba
        cases hba
      · rw [hq q hqp] at hba
        exact m3 q a (hlive q hqp hl) hba
    · rw [hqf f q hqc, hqf f r hrc] at hqr
      exact m5 f q hqc r hrc hqr
  · intro q hl hs hpq
    by_cases hqp : q = s.nextPage
    · subst hqp
      rw [hp, hst] at hs
      exact absurd rfl hs
    · rw [hq q hqp] at hs hpq ⊢
      exact h.pins q (hlive q hqp hl) hs hpq
  · intro q hl
    by_cases hqp : q = s.nextPage
    · subst hqp
      rw [hp]
      exact hk
    · rw [hq q hqp]
      exact h.classes q (hlive q hqp hl)
  · exact h.lru.congr rfl rfl rfl rfl fun f => pinnedCount_update rfl rfl fun hf => absurd hf (hfresh f)

theorem Core.forget (h : Core cfg s) {p : ℕ} (href : (s.page p).refCount = 0)
    (hb : (s.page p).bytes = none) (hl : s.Live p) : Core cfg (s.eraseFromAllPages (s.page p)) := by
  obtain ⟨key, hk⟩ := hl.resolve_left (by omega)
  obtain ⟨-, -, hset, hnum⟩ := h.ref.key key p hk
  have heq : s.eraseFromAllPages (s.page p) = { s with allPages := update s.allPages key none } := by
    rw [State.eraseFromAllPages, hset, hnum]
  have hsub : ∀ key' q, update s.allPages key none key' = some q → s.allPages key' = some q ∧ key' ≠ key := by
    intro key' q hq
    by_cases hx : key' = key
    · rw [hx, update_self] at hq
      cases hq
    · rw [update_of_ne hx] at hq
      exact ⟨hq, hx⟩
  have hother : ∀ key' q, s.allPages key' = some q → q ≠ p → update s.allPages key none key' = some q := by
    intro key' q hq hqp
    rw [update_of_ne fun hx => hqp ?_]
    · exact hq
    · rw [hx, hk] at hq
      exact (Option.some.inj hq).symm
  have hlive : ∀ q, { s with allPages := update s.allPages key none }.Live q → s.Live q := by
    rintro q (hq | ⟨key', hq⟩)
    · exact Or.inl hq
    · exact Or.inr ⟨key', (hsub key' q hq).1⟩
  have hnot : ∀ f, p ∉ s.constituentPages f := by
    intro f hf
    obtain ⟨a, ha, -⟩ := h.mem.resident f p hf
    rw [hb] at ha
    cases ha
  rw [heq]
  refine ⟨⟨⟨?_, ?_, h.ref.anon, ?_⟩, ?_, ?_, ?_, h.locations⟩, ?_, h.used⟩
  · exact fun key' q hq => h.ref.key key' q (hsub key' q hq).1
  · intro q (hq : 0 < (s.page q).refCount)
    obtain ⟨h1, h2⟩ := h.ref.held q hq
    refine ⟨h1, fun ha => ?_⟩
    obtain ⟨key', hk'⟩ := h2 ha
    refine ⟨key', hother key' q hk' fun hqp => ?_⟩
    rw [hqp] at hq
    omega
  · exact fun key' q hq => h.ref.opened key' q (hsub key' q hq).1
  · refine h.mem.congr (fun _ => ⟨rfl, rfl, rfl⟩) hlive (Nat.le_refl _) ?_ rfl rfl rfl rfl
    exact fun f q hq key' hk' => hother key' q hk' fun hqp => hnot f (hqp ▸ hq)
  · exact fun q hq => h.pins q (hlive q hq)
  · exact fun q hq => h.classes q (hlive q hq)
  · exact h.lru.congr rfl rfl rfl rfl fun _ => rfl

end PlinyCompute.BufferManager
