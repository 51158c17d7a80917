import PlinyCompute.BufferStep

namespace PlinyCompute.BufferManager

open Function Transition

variable {cfg : Config} {s s' : State}

def Settled (s : State) : Prop := ∀ p, (s.page p).status ≠ .loading ∧ (s.page p).status ≠ .unloading

theorem Core.bytes_of_pinned (h : Core cfg s) (hst : Settled s) {p : ℕ} (hl : s.Live p)
    (hpin : (s.page p).pinned = true) : ∃ a, (s.page p).bytes = some a :=
  Option.ne_none_iff_exists'.mp (h.pins p hl (hst p).1 hpin)

inductive Opened (cfg : Config) (set : PDBSet) (s : State) : State → Prop
  | already {fd : ℕ} : s.fds set = some fd → Opened cfg set s s
  | now {fd : ℕ} : s.fds set = none → cfg.openFile (cfg.fileLoc set) = some fd →
      Opened cfg set s { s with fds := update s.fds set (some fd) }

theorem checkIfOpen_spec (cfg : Config) (set : PDBSet) (s : State) :
    Ensures Stops (s.checkIfOpen cfg set) (Opened cfg set s) := by
  unfold State.checkIfOpen
  cases hfd : s.fds set with
  | some fd =>
    rw [if_pos Option.isSome_some]
    exact Opened.already hfd
  | none =>
    rw [if_neg (by simp)]
    cases ho : cfg.openFile (cfg.fileLoc set) with
    | none => exact Fault.noConfusion
    | some fd => exact Opened.now hfd ho

theorem Opened.same {set : PDBSet} (h : Opened cfg set s s') : s' = { s with fds := s'.fds } := by
  cases h with
  | already _ => rfl
  | now _ _ => rfl

theorem Opened.fds {set : PDBSet} (h : Opened cfg set s s') : ∃ fd, s'.fds set = some fd := by
  cases h with
  | already hfd => exact ⟨_, hfd⟩
  | now _ _ => exact ⟨_, update_self _ _ _⟩

theorem Opened.core {set : PDBSet} (h : Opened cfg set s s') (hc : Core cfg s) : Core cfg s' := by
  cases h with
  | already _ => exact hc
  | @now fd hnone _ =>
    obtain ⟨⟨⟨h1, h2, h3, h4⟩, hm, hp, hcl, hloc⟩, hl, hu⟩ := hc
    refine ⟨⟨⟨h1, h2, h3, fun key p hk => ?_⟩, ?_, hp, hcl, hloc⟩, ?_, hu⟩
    · obtain ⟨fd', hfd⟩ := h4 key p hk
      have hne : key.1 ≠ set := fun heq => by simp [heq, hnone] at hfd
      exact ⟨fd', (update_of_ne hne _ _).trans hfd⟩
    · exact hm.congr (fun _ => ⟨rfl, rfl, rfl⟩) (fun _ hq => hq) (Nat.le_refl _) (fun _ _ _ _ hk => hk) rfl
        rfl rfl rfl
    · exact hl.congr rfl rfl rfl rfl fun _ => rfl

def alloc (s : State) (set : PDBSet) (i : ℕ) (me : PDBPage) : State :=
  { s.setPage s.nextPage me with
    nextPage := s.nextPage + 1, allPages := update s.allPages (set, i) (some s.nextPage) }

def newSetPage (cfg : Config) (set : PDBSet) (i : ℕ) : PDBPage :=
  { pinned := true, dirty := true, whichSet := some set, pageNum := i, isAnon := false,
    location := ⟨i, cfg.logOfPageSize⟩, status := .loading }

def knownSetPage (set : PDBSet) (i : ℕ) (info : PDBPageInfo) : PDBPage :=
  { pinned := true, dirty := false, whichSet := some set, pageNum := i, isAnon := false,
    location := info, status := .loading, refCount := 1 }

inductive GotSetPage (cfg : Config) (set : PDBSet) (i : ℕ) (s : State) : State → Prop
  | hit {p : ℕ} {s' : State} : s.allPages (set, i) = some p →
      Repinned cfg p (s.setPage p { s.page p with refCount := (s.page p).refCount + 1 }) s' →
      GotSetPage cfg set i s s'
  | created {a : ℕ} {s₁ s₂ : State} : s.allPages (set, i) = none → s.pageLocations (set, i) = none →
      Provided cfg cfg.logOfPageSize (alloc s set i (newSetPage cfg set i)) s₁ a s₂ →
      GotSetPage cfg set i s (place cfg s₂ s₂.nextPage s.nextPage a
        { newSetPage cfg set i with bytes := some a, refCount := 1, status := .loaded })
  | loaded {a fd : ℕ} {info : PDBPageInfo} {s₁ s₂ : State} : s.allPages (set, i) = none →
      s.pageLocations (set, i) = some info →
      Provided cfg info.numBytes (alloc s set i (knownSetPage set i info)) s₁ a s₂ →
      s.fds set = some fd → 0 ≤ info.startPos →
      GotSetPage cfg set i s (fetch cfg s₂ s.nextPage a fd info.startPos.toNat
        { knownSetPage set i info with bytes := some a, status := .loaded })

theorem alloc_page (s : State) (set : PDBSet) (i : ℕ) (me : PDBPage) :
    (alloc s set i me).page s.nextPage = me := update_self _ _ _

theorem alloc_live (s : State) (set : PDBSet) (i : ℕ) (me : PDBPage) :
    (alloc s set i me).Live s.nextPage := Or.inr ⟨(set, i), update_self _ _ _⟩

theorem createSetPage_spec (h : Core cfg s) (ht : MemoryFits cfg cfg.logOfPageSize s) {set : PDBSet} {i fd : ℕ}
    (hfd : s.fds set = some fd) (hkey : s.allPages (set, i) = none)
    (hloc : s.pageLocations (set, i) = none) :
    Ensures Stops (s.createSetPage cfg set i) fun s' => GotSetPage cfg set i s s' ∧ Core cfg s' := by
  have hc₀ : Core cfg (alloc s set i (newSetPage cfg set i)) :=
    h.alloc hfd hkey rfl rfl rfl rfl rfl (Nat.le_refl _)
  have hp₀ := alloc_page s set i (newSetPage cfg set i)
  have hb₀ : ((alloc s set i (newSetPage cfg set i)).page s.nextPage).bytes = none := by
    rw [hp₀]
    rfl
  rw [State.createSetPage]
  refine (getEmptyMemory_spec hc₀ (Nat.le_refl _)).bind ?_
  rintro ⟨a, s₂⟩ ⟨s₁, h₂⟩
  have hp₂ : s₂.page s.nextPage = newSetPage cfg set i := (h₂.page_eq hc₀ hb₀).trans hp₀
  dsimp only
  rw [registerMiniPage_setPage rfl, ok_bind, place_page_self, place_setPage, hp₂]
  refine ⟨GotSetPage.created hkey hloc h₂, ?_⟩
  refine h₂.place hc₀ ht (alloc_live s set i _) hb₀ ?_ rfl rfl rfl
  rw [hp₀]
  exact ⟨rfl, rfl, rfl⟩

theorem loadSetPage_spec (h : Core cfg s) {set : PDBSet} {i fd : ℕ} {info : PDBPageInfo}
    (ht : MemoryFits cfg info.numBytes s)
    (hfd : s.fds set = some fd) (hkey : s.allPages (set, i) = none)
    (hloc : s.pageLocations (set, i) = some info) :
    Ensures Stops (s.loadSetPage cfg set i info) fun s' => GotSetPage cfg set i s s' ∧ Core cfg s' := by
  have hk := h.locations (set, i) info hloc
  have hc₀ : Core cfg (alloc s set i (knownSetPage set i info)) :=
    h.alloc hfd hkey rfl rfl rfl rfl rfl hk
  have hp₀ := alloc_page s set i (knownSetPage set i info)
  have hb₀ : ((alloc s set i (knownSetPage set i info)).page s.nextPage).bytes = none := by
    rw [hp₀]
    rfl
  rw [State.loadSetPage]
  refine (getEmptyMemory_spec hc₀ hk).bind ?_
  rintro ⟨a, s₂⟩ ⟨s₁, h₂⟩
  have hp₂ : s₂.page s.nextPage = knownSetPage set i info := (h₂.page_eq hc₀ hb₀).trans hp₀
  have hfd₂ : ∀ me, (place cfg s₂ s₂.nextPage s.nextPage a me).fds set = some fd := by
    intro me
    rw [place_same]
    exact (congrFun h₂.frame.2.1 set).trans hfd
  have hcore : Core cfg (place cfg s₂ s₂.nextPage s.nextPage a
      { knownSetPage set i info with bytes := some a, status := .loaded }) := by
    refine h₂.place hc₀ ht (alloc_live s set i _) hb₀ ?_ rfl rfl rfl
    rw [hp₀]
    exact ⟨rfl, rfl, rfl⟩
  dsimp only
  rw [registerMiniPage_setPage rfl, ok_bind, getFileDescriptor_eq (hfd₂ _), ok_bind, hp₂]
  refine (pread_place rfl).bind ?_
  rintro s₃ ⟨hpos, rfl⟩
  rw [fetch_page_self, fetch_setPage]
  · exact ⟨GotSetPage.loaded hkey hloc h₂ hfd hpos, hcore.congr rfl⟩
  · rfl

theorem Core.setRef (h : Core cfg s) (hst : Settled s) {p n : ℕ} (hl : s.Live p) :
    Core cfg (s.setPage p { s.page p with refCount := n }) :=
  h.setPage ⟨⟨rfl, rfl, rfl⟩, rfl, rfl⟩ rfl (fun _ => hl) fun _ _ hpin => h.pins p hl (hst p).1 hpin

def SetPageFits (cfg : Config) (set : PDBSet) (i : ℕ) (s : State) : Prop :=
  match s.allPages (set, i), s.pageLocations (set, i) with
  | some p, _ => RepinFits cfg p s
  | none, some info => MemoryFits cfg info.numBytes s
  | none, none => MemoryFits cfg cfg.logOfPageSize s

theorem RepinFits.setRef {p n : ℕ} (h : RepinFits cfg p s) :
    RepinFits cfg p (s.setPage p { s.page p with refCount := n }) := by
  have hp : (s.setPage p { s.page p with refCount := n }).page p = { s.page p with refCount := n } := update_self _ _ _
  unfold RepinFits
  rw [hp]
  exact h

theorem getSetPage_spec (h : Core cfg s) (hst : Settled s) (set : PDBSet) (i : ℕ) (ht : SetPageFits cfg set i s) :
    Ensures Stops (s.getSetPage cfg set i) fun s' =>
      (∃ s₀, Opened cfg set s s₀ ∧ GotSetPage cfg set i s₀ s') ∧ Core cfg s' := by
  rw [State.getSetPage]
  refine (checkIfOpen_spec cfg set s).bind fun s₀ h₀ => ?_
  have hc₀ := h₀.core h
  have ht₀ : SetPageFits cfg set i s₀ := by
    rw [h₀.same]
    exact ht
  unfold SetPageFits at ht₀
  have hst₀ : Settled s₀ := by
    rw [h₀.same]
    exact hst
  obtain ⟨fd, hfd⟩ := h₀.fds
  cases hkey : s₀.allPages (set, i) with
  | some p =>
    rw [hkey] at ht₀
    have hl : s₀.Live p := Or.inr ⟨_, hkey⟩
    refine (repin_spec (hc₀.setRef hst₀ hl) ht₀.setRef (Or.inr ⟨_, hkey⟩)).mono fun s' h' => ?_
    exact ⟨⟨s₀, h₀, GotSetPage.hit hkey h'.1⟩, h'.2⟩
  | none =>
    cases hloc : s₀.pageLocations (set, i) with
    | none =>
      rw [hkey, hloc] at ht₀
      exact (createSetPage_spec hc₀ ht₀ hfd hkey hloc).mono fun s' h' => ⟨⟨s₀, h₀, h'.1⟩, h'.2⟩
    | some info =>
      rw [hkey, hloc] at ht₀
      exact (loadSetPage_spec hc₀ ht₀ hfd hkey hloc).mono fun s' h' => ⟨⟨s₀, h₀, h'.1⟩, h'.2⟩

inductive Unpinned (cfg : Config) (p : ℕ) (s : State) : State → Prop
  | already : (s.page p).pinned = false → Unpinned cfg p s s
  | now {a : ℕ} : (s.page p).pinned = true → (s.page p).bytes = some a →
      Unpinned cfg p s (((s.setPage p { s.page p with pinned := false, sizeFrozen := true }).unpinFullPage
        (cfg.fullPage a)).assignLocation cfg p)

theorem unpin_spec (h : Core cfg s) (hst : Settled s) {p : ℕ} (hl : s.Live p) :
    Ensures Stops (s.unpin cfg p) fun s' => Unpinned cfg p s s' ∧ Core cfg s' := by
  unfold State.unpin
  by_cases hpin : (s.page p).pinned = true
  · obtain ⟨a, hb⟩ := h.bytes_of_pinned hst hl hpin
    have hb' : ((s.setPage p { s.page p with pinned := false, sizeFrozen := true }).page p).bytes = some a := by
      simp [State.setPage, hb]
    dsimp only
    rw [if_neg (by simp [hpin]), getBytes_eq hb', ok_bind]
    refine ⟨Unpinned.now hpin hb, (h.unpin hl hb hpin).assignLocation ?_ ?_⟩
    · rw [unpinFullPage_eq]
      refine hl.imp_left fun href => ?_
      simpa [State.setPage] using href
    · rw [unpinFullPage_eq]
      simp [State.setPage]
  · rw [Bool.not_eq_true] at hpin
    dsimp only
    rw [if_pos (by simp [hpin])]
    exact ⟨Unpinned.already hpin, h⟩

def tailMinis (cfg : Config) (k a : ℕ) : List ℕ :=
  (offsets cfg.pageSize (cfg.miniPageSize k) cfg.pageSize (cfg.miniPageSize k)).map (a + ·)

inductive Frozen (cfg : Config) (p : ℕ) (s : State) : State → Prop
  | mk {k a : ℕ} : (s.page p).bytes = some a → (s.page p).pinned = true → k ≤ cfg.logOfPageSize →
      cfg.miniPageSize k ≠ 0 → Frozen cfg p s { s with
        page := update s.page p { s.page p with
          sizeFrozen := true, location := ⟨(s.page p).location.startPos, k⟩ }
        emptyMiniPages := update s.emptyMiniPages k (s.emptyMiniPages k ++ tailMinis cfg k a)
        unusedMiniPages := update s.unusedMiniPages a (tailMinis cfg k a, k) }

theorem tailMinis_slots {k a : ℕ} (hs : cfg.miniPageSize k ≠ 0) (ha : cfg.pageSize ∣ a)
    (hm : a < cfg.numPages * cfg.pageSize) (hk : k ≤ cfg.logOfPageSize) :
    (∀ x ∈ tailMinis cfg k a, IsSlot cfg a k x) ∧ (tailMinis cfg k a).Nodup ∧ a ∉ tailMinis cfg k a := by
  refine ⟨fun x hx => ?_, ?_, fun hx => ?_⟩
  · obtain ⟨y, hy, rfl⟩ := List.mem_map.mp hx
    exact isSlot_of_mem_offsets ha hm hk hs (Nat.dvd_refl _) hy
  · exact (offsets_nodup (Nat.pos_of_ne_zero hs) _ _).map fun x y hxy => Nat.add_left_cancel hxy
  · obtain ⟨y, hy, hya⟩ := List.mem_map.mp hx
    obtain ⟨-, i, rfl⟩ := of_mem_offsets hy
    omega

theorem MemInv.whole (h : MemInv cfg s) {p a : ℕ} (hp : p ∈ s.constituentPages (cfg.fullPage a))
    (hb : (s.page p).bytes = some a) (hk : (s.page p).location.numBytes = cfg.logOfPageSize) :
    cfg.fullPage a = a ∧ (s.unusedMiniPages a).1 = [] ∧ s.constituentPages a = [p] := by
  obtain ⟨a', hb', hslot, hclass, hnot⟩ := h.resident _ p hp
  cases hb.symm.trans hb'
  rw [hk] at hclass
  rw [← hclass] at hslot
  have hfa := hslot.eq_fullPage.symm
  rw [hfa] at hp hclass hnot
  refine ⟨hfa, List.eq_nil_iff_forall_not_mem.mpr fun b hbu => ?_, ?_⟩
  · have hslot' := h.unused a b hbu
    rw [← hclass] at hslot'
    rw [hslot'.eq_fullPage] at hbu
    exact hnot hbu
  · refine eq_singleton_of_nodup (h.nodup a) hp fun q hq => ?_
    obtain ⟨b, hbq, hslot', -⟩ := h.resident a q hq
    rw [← hclass] at hslot'
    rw [hslot'.eq_fullPage] at hbq
    exact h.inj a q hq p hp (hbq.trans hb.symm)

theorem Core.freeze (h : Core cfg s) {p a k : ℕ} (hl : s.Live p) (hb : (s.page p).bytes = some a)
    (hfull : (s.page p).location.numBytes = cfg.logOfPageSize) (hk : k ≤ cfg.logOfPageSize)
    (hs : cfg.miniPageSize k ≠ 0) {pos : ℤ} : Core cfg { s with
      page := update s.page p { s.page p with sizeFrozen := true, location := ⟨pos, k⟩ }
      emptyMiniPages := update s.emptyMiniPages k (s.emptyMiniPages k ++ tailMinis cfg k a)
      unusedMiniPages := update s.unusedMiniPages a (tailMinis cfg k a, k) } := by
  have hp := h.mem.listed p a hl hb
  obtain ⟨hbase, hlt, hnf⟩ := h.mem.base hp
  obtain ⟨hfa, hnil, hone⟩ := h.mem.whole hp hb hfull
  rw [hfa] at hbase hlt hnf hp
  obtain ⟨hslots, hnd, hnot⟩ := tailMinis_slots hs hbase hlt hk
  set me : PDBPage := { s.page p with sizeFrozen := true, location := ⟨pos, k⟩ } with hme
  have hq : ∀ q, q ≠ p → update s.page p me q = s.page q := fun q hqp => update_of_ne hqp _ _
  have hlive : ∀ q, (s.setPage p me).Live q → s.Live q := fun q => live_of_setPage fun _ => hl
  have href : RefInv (s.setPage p me) := h.ref.setPage rfl rfl rfl fun _ => hl
  refine ⟨⟨⟨href.key, href.held, href.anon, href.opened⟩, ?_, ?_, ?_, h.locations⟩, ?_, h.used⟩
  · refine h.mem.cut hnil hslots hnd ?_ ?_ ?_ rfl rfl rfl rfl rfl (List.Sublist.refl _) hnf
    · intro q hqa
      rw [hone, List.mem_singleton] at hqa
      subst hqa
      refine ⟨a, hb, ⟨hfa, hlt, ?_, hk, hs⟩, ?_, hnot⟩
      · exact (Config.miniPageSize_dvd hs hk).trans hbase
      · dsimp only
        rw [update_self]
    · intro q
      by_cases hqp : q = p
      · subst hqp
        dsimp only
        rw [update_self]
        exact ⟨rfl, rfl, rfl⟩
      · dsimp only
        rw [hq q hqp]
        exact ⟨rfl, rfl, rfl⟩
    · intro q hqa
      have hqp : q ≠ p := fun heq => hqa (heq ▸ hp)
      dsimp only
      rw [hq q hqp]
      exact ⟨rfl, rfl, rfl⟩
  · intro q hlq hst hpin
    by_cases hqp : q = p
    · subst hqp
      dsimp only
      rw [update_self]
      simp [hme, hb]
    · dsimp only at hst hpin ⊢
      rw [hq q hqp] at hst hpin ⊢
      exact h.pins q (hlive q hlq) hst hpin
  · intro q hlq
    by_cases hqp : q = p
    · subst hqp
      dsimp only
      rw [update_self]
      exact hk
    · dsimp only
      rw [hq q hqp]
      exact h.classes q (hlive q hlq)
  · exact h.lru.congr rfl rfl rfl rfl fun _ => pinnedCount_update rfl rfl fun _ => rfl

theorem Config.miniPageSize_le {k : ℕ} (hk : k ≤ cfg.logOfPageSize) : cfg.miniPageSize k ≤ cfg.pageSize := by
  by_cases hs : cfg.miniPageSize k = 0
  · rw [hs]
    exact Nat.zero_le _
  · exact Nat.le_of_dvd cfg.pageSize_pos (Config.miniPageSize_dvd hs hk)

theorem freezeSize_spec (h : Core cfg s) (hst : Settled s) {p numBytes : ℕ} (hl : s.Live p)
    (hfull : (s.page p).location.numBytes = cfg.logOfPageSize)
    (hn : numBytes ≤ cfg.miniPageSize (s.page p).location.numBytes) :
    Ensures Stops (s.freezeSize cfg p numBytes) fun s' => Frozen cfg p s s' ∧ Core cfg s' := by
  unfold State.freezeSize
  dsimp only
  by_cases hpre : ¬ (s.page p).pinned = true ∨ (s.page p).sizeFrozen = true
  · rw [if_pos hpre]
    exact Fault.noConfusion
  rw [if_neg hpre]
  obtain ⟨hpin, -⟩ := not_or.mp hpre
  rw [not_not] at hpin
  have hle := hn.trans (Config.miniPageSize_le (h.classes p hl))
  refine (getLogPageSize_spec hle).bind fun k hk => ?_
  by_cases hlt : (s.page p).location.numBytes < k
  · rw [if_pos hlt]
    exact Fault.noConfusion
  rw [if_neg hlt]
  obtain ⟨a, hb⟩ := h.bytes_of_pinned hst hl hpin
  let me : PDBPage := { s.page p with sizeFrozen := true, location := { (s.page p).location with numBytes := k } }
  have hb' : ((s.setPage p me).page p).bytes = some a := by
    simp [State.setPage, me, hb]
  have hnil : ((s.setPage p me).unusedMiniPages a).1 = [] := (h.mem.whole (h.mem.listed p a hl hb) hb hfull).2.1
  change Ensures Stops ((s.setPage p me).getBytes p >>= _) _
  rw [getBytes_eq hb', ok_bind]
  refine (miniPagesFrom_spec cfg k _).bind ?_
  rintro minis ⟨hs, rfl⟩
  rw [hnil, List.nil_append]
  exact ⟨Frozen.mk hb hpin hk hs, h.freeze hl hb hfull hk hs⟩

inductive Dropped (cfg : Config) (p : ℕ) (s : State) : State → Prop
  | kept : 1 < (s.page p).refCount →
      Dropped cfg p s (s.setPage p { s.page p with refCount := (s.page p).refCount - 1 })
  | freed {s' : State} : (s.page p).refCount = 1 → (s.page p).isAnon = true →
      Freed cfg p (s.setPage p { s.page p with refCount := 0 }) s' → Dropped cfg p s s'
  | forgotten {key : PDBSet × ℕ} : (s.page p).refCount = 1 → (s.page p).isAnon = false →
      (s.page p).bytes = none → s.allPages key = some p → Dropped cfg p s
        { s.setPage p { s.page p with refCount := 0 } with allPages := update s.allPages key none }
  | unpinned {key : PDBSet × ℕ} {a : ℕ} {s' : State} : (s.page p).refCount = 1 →
      (s.page p).isAnon = false → (s.page p).bytes = some a → s.allPages key = some p →
      Unpinned cfg p (s.setPage p { s.page p with refCount := 0 }) s' → Dropped cfg p s s'

theorem Settled.setPage (h : Settled s) {p : ℕ} {me : PDBPage} (hme : me.status = (s.page p).status) :
    Settled (s.setPage p me) := by
  intro q
  by_cases hqp : q = p
  · subst hqp
    rw [show (s.setPage q me).page q = me from update_self _ _ _, hme]
    exact h q
  · rw [show (s.setPage p me).page q = s.page q from update_of_ne hqp _ _]
    exact h q

theorem decRefCount_spec (h : Core cfg s) (hst : Settled s) {p : ℕ} (href : 0 < (s.page p).refCount)
    (ht : (s.page p).refCount = 1 → (s.page p).isAnon = true → FreeFits cfg p s) :
    Ensures Stops (s.decRefCount cfg p) fun s' => Dropped cfg p s s' ∧ Core cfg s' := by
  have hl : s.Live p := Or.inl href
  have hc₀ := @Core.setRef cfg s h hst p ((s.page p).refCount - 1) hl
  unfold State.decRefCount
  dsimp only
  by_cases hne : (s.page p).refCount - 1 ≠ 0
  · rw [if_pos hne]
    exact ⟨Dropped.kept (by omega), hc₀⟩
  rw [if_neg hne]
  rw [not_not] at hne
  have hone : (s.page p).refCount = 1 := by omega
  rw [hne] at hc₀ ⊢
  set s₀ := s.setPage p { s.page p with refCount := 0 } with hs₀
  have hp₀ : s₀.page p = { s.page p with refCount := 0 } := update_self _ _ _
  have hst₀ : Settled s₀ := hst.setPage rfl
  by_cases ha : (s.page p).isAnon = true
  · rw [if_pos ha]
    have hfree : Ensures Stops (s₀.freeAnonymousPage cfg p) (Freed cfg p s₀) := by
      have hfit : FreeFits cfg p s₀ := by
        unfold FreeFits
        rw [hp₀]
        exact ht hone ha
      refine freeAnonymousPage_spec hc₀ hfit (by rw [hp₀]) (by rw [hp₀]; exact ha) ?_ ?_
      · exact not_or.mpr (hst₀ p)
      · intro a hb
        rw [hp₀] at hb
        exact h.mem.listed p a hl hb
    exact hfree.mono fun s' h' => ⟨Dropped.freed hone ha h', h'.core⟩
  · rw [if_neg ha]
    rw [Bool.not_eq_true] at ha
    obtain ⟨key, hkey⟩ := h.live_key hl ha
    obtain ⟨-, -, hset, hnum⟩ := h.ref.key key p hkey
    have hl₀ : s₀.Live p := Or.inr ⟨key, hkey⟩
    have hvalid : s₀.isRemovalStillValid p = true := by
      obtain ⟨h1, h2⟩ := hst p
      simp only [State.isRemovalStillValid, hp₀, h1, h2, ha, hset, hnum]
      simp [hs₀, State.setPage, hkey]
    rw [State.downToZeroReferences, if_neg (by simp [hvalid])]
    cases hb : (s.page p).bytes with
    | none =>
      have hb₀ : (s₀.page p).bytes = none := by rw [hp₀]; exact hb
      have heq : s₀.eraseFromAllPages (s₀.page p) = { s₀ with allPages := update s.allPages key none } := by
        rw [State.eraseFromAllPages, hp₀, hset, hnum]
        rfl
      have hforget := hc₀.forget (by rw [hp₀]) hb₀ hl₀
      rw [if_pos hb₀]
      rw [heq] at hforget ⊢
      exact ⟨Dropped.forgotten hone ha hb hkey, hforget⟩
    | some a =>
      rw [if_neg (by rw [hp₀, hb]; simp)]
      exact (unpin_spec hc₀ hst₀ hl₀).mono fun s' h' => ⟨Dropped.unpinned hone ha hb hkey h'.1, h'.2⟩


end PlinyCompute.BufferManager
