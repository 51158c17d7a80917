import PlinyCompute.BufferContents

namespace PlinyCompute.BufferManager

open ByteRange Function Transition

variable {cfg : Config} {s s' : State} {last : PageName → ℕ → Option UInt8}

theorem Core.apart_pages (h : Core cfg s) {p q a b : ℕ} (hp : s.Live p) (hq : s.Live q)
    (ha : (s.page p).bytes = some a) (hb : (s.page q).bytes = some b) (hqp : q ≠ p) :
    Apart a ((s.page p).getSize cfg) b ((s.page q).getSize cfg) := by
  rcases h.mem.apart (Occupies.resident hp ha) (Occupies.resident hq hb) with ⟨heq, -⟩ | hap
  · exact absurd (Owner.page.inj heq).symm hqp
  · exact hap

theorem live_update {p : ℕ} {me : PDBPage} (hpage : s'.page = update s.page p me)
    (hall : s'.allPages = s.allPages) (href : me.refCount = (s.page p).refCount) (q : ℕ) :
    s'.Live q ↔ s.Live q := by
  unfold State.Live
  rw [hpage, hall]
  by_cases hqp : q = p
  · rw [hqp, update_self, href]
  · rw [update_of_ne hqp]

theorem live_setPage {p : ℕ} {me : PDBPage} (href : me.refCount = (s.page p).refCount) (hl : s.Live p) :
    (s.setPage p me).Live p := by
  have hpage : (s.setPage p me).page = update s.page p me := rfl
  exact (live_update hpage rfl href p).mpr hl

theorem Kept.touch (h : Kept cfg last s) {p : ℕ} {me : PDBPage} (href : RefInv s') (hd : SameDisk s' s)
    (hm : s'.memory = s.memory) (hpage : s'.page = update s.page p me) (hall : s'.allPages = s.allPages)
    (hl : s.Live p) (hl' : s'.Live p) (hme : SameBytes me (s.page p)) (hok : PageOk cfg s.pageLocations me) :
    Kept cfg last s' := by
  have hsize : me.getSize cfg = (s.page p).getSize cfg := by
    rw [PDBPage.getSize, PDBPage.getSize, hme.numBytes]
  refine h.changePage href hd hpage hall hl hl' hme.toSamePlace (Nat.le_of_eq hsize)
    (fun hx => by rw [hme.dirty, hx]) hok ?_ (fun a hb => ?_) fun q b _ _ _ off _ => by rw [hm]
  · rw [hsize]
    exact h.bound p hl
  · rw [hme.bytes] at hb
    rw [hm]
    exact h.inMemory p a hl hb

theorem PageOk.pin {loc : PDBSet × ℕ → Option PDBPageInfo} {me : PDBPage} (h : PageOk cfg loc me) :
    PageOk cfg loc { me with pinned := true } :=
  ⟨h.located, fun set hw hl => ⟨rfl, (h.fresh set hw hl).2⟩, h.pos, h.clean,
    fun ha hx => h.frozen ha (Or.inr (hx.resolve_left Bool.noConfusion)), h.evicted, h.sized⟩

theorem PageOk.ref {loc : PDBSet × ℕ → Option PDBPageInfo} {me : PDBPage} (h : PageOk cfg loc me) (n : ℕ) :
    PageOk cfg loc { me with refCount := n } :=
  ⟨h.located, h.fresh, h.pos, h.clean, h.frozen, h.evicted, h.sized⟩

theorem PageOk.bytes {loc : PDBSet × ℕ → Option PDBPageInfo} {me : PDBPage} (h : PageOk cfg loc me) (a : ℕ) :
    PageOk cfg loc { me with bytes := some a } :=
  ⟨h.located, h.fresh, h.pos, h.clean, h.frozen, fun hx => (by cases hx), h.sized⟩

theorem SameDisk.place {n p a : ℕ} {me : PDBPage} : SameDisk (place cfg s n p a me) s := by
  constructor
  all_goals rw [place_same]

theorem Kept.clean_home (h : Kept cfg last s) {p fd : ℕ} (hl : s.Live p) (hd : (s.page p).dirty = false)
    (hfd : (s.page p).isAnon = true ∧ fd = cfg.tempFileFD ∨ ∃ set, (s.page p).isAnon = false ∧
      (s.page p).whichSet = some set ∧ s.fds set = some fd) :
    Holds (last (s.pageName p)) (s.files fd) (s.page p).location.startPos.toNat := by
  have hclean : ∀ q, s.Live q → s.pageName q = s.pageName p → (s.page q).dirty = false := by
    intro q hq hn
    rw [h.ref.name_inj hq (Or.inr hl) hn]
    exact hd
  rcases hfd with ⟨ha, rfl⟩ | ⟨set, -, hset, hfd⟩
  · have hname : s.pageName p = .anonymous p := by rw [State.pageName, h.ref.anon p ha]
    refine h.onDisk _ _ _ ((s.page p).getSize cfg) ?_ hclean
    rw [hname]
    exact Home.anonymous hl ha ((h.pages p hl).clean ha hd)
  · have hname : s.pageName p = .ofSet set (s.page p).pageNum := by rw [State.pageName, hset]
    cases hloc : s.pageLocations (set, (s.page p).pageNum) with
    | none =>
      have := ((h.pages p hl).fresh set hset hloc).2
      rw [hd] at this
      cases this
    | some info =>
      rw [((h.pages p hl).located set info hset hloc).1]
      refine h.onDisk _ _ _ (cfg.miniPageSize info.numBytes) ?_ hclean
      rw [hname]
      exact Home.ofSet hloc hfd

theorem Kept.fetch (h : Kept cfg last s) {p a fd : ℕ} {me : PDBPage} (hl : s.Live p)
    (hd : (s.page p).dirty = false)
    (hfd : (s.page p).isAnon = true ∧ fd = cfg.tempFileFD ∨ ∃ set, (s.page p).isAnon = false ∧
      (s.page p).whichSet = some set ∧ s.fds set = some fd)
    (hc : Core cfg (fetch cfg s p a fd (s.page p).location.startPos.toNat me))
    (hl' : (fetch cfg s p a fd (s.page p).location.startPos.toNat me).Live p)
    (hme : me.isAnon = (s.page p).isAnon ∧ me.whichSet = (s.page p).whichSet ∧
      me.pageNum = (s.page p).pageNum ∧ me.location = (s.page p).location) (hb : me.bytes = some a)
    (hok : PageOk cfg s.pageLocations me) :
    Kept cfg last (fetch cfg s p a fd (s.page p).location.startPos.toNat me) := by
  obtain ⟨h1, h2, h3, h4⟩ := hme
  have hdisk : SameDisk (BufferManager.fetch cfg s p a fd (s.page p).location.startPos.toNat me) s := by
    obtain ⟨e1, e2, e3, e4, e5, e6⟩ := @SameDisk.place cfg s s.nextPage p a me
    exact ⟨e1, e2, e3, e4, e5, e6⟩
  have hall : (BufferManager.fetch cfg s p a fd (s.page p).location.startPos.toNat me).allPages = s.allPages := by
    rw [BufferManager.fetch, place_same]
  have hp := @fetch_page_self cfg s p a fd (s.page p).location.startPos.toNat me
  have hsize : me.getSize cfg = (s.page p).getSize cfg := by rw [PDBPage.getSize, PDBPage.getSize, h4]
  have hbound := h.bound p hl
  have hholds := h.clean_home hl hd hfd
  refine h.changePage hc.ref hdisk rfl hall hl hl' ⟨h1, h2, h3, by rw [h4]⟩ (Nat.le_of_eq hsize)
    (fun hx => ?_) hok (by rw [hsize]; exact hbound) (fun a' hb' off b hoff => ?_) fun q b hqp hlq hbq off hoff => ?_
  · rw [hd] at hx
    cases hx
  · cases hb.symm.trans hb'
    refine (fetchBytes_inside ?_).trans (hholds off b hoff)
    rw [h4]
    exact hbound off b hoff
  · have hap := hc.apart_pages hl' hlq (by rw [hp]; exact hb) hbq hqp
    rw [hp] at hap
    exact fetchBytes_outside hap hoff

theorem Repinned.kept {p : ℕ} (h : Repinned cfg p s s') (hc : Core cfg s) (hc' : Core cfg s')
    (hst : Settled s) (hl : s.Live p) (hk : Kept cfg last s) : Kept cfg last s' := by
  cases h with
  | pinned _ => exact hk
  | @resident a hpin hb =>
    have hdisk : SameDisk ((s.setPage p { s.page p with pinned := true }).pinFullPage (cfg.fullPage a)) s := by
      constructor
      all_goals rw [pinFullPage_eq]; rfl
    refine hk.touch hc'.ref hdisk ?_ ?_ ?_ hl ?_ ?_ (hk.pages p hl).pin
    · rw [pinFullPage_eq]
      rfl
    · rw [pinFullPage_eq]
      rfl
    · rw [pinFullPage_eq]
      rfl
    · rw [pinFullPage_eq]
      exact (live_setPage rfl hl : (s.setPage p { s.page p with pinned := true }).Live p)
    · exact ⟨⟨rfl, rfl, rfl, rfl⟩, rfl, rfl, rfl⟩
  | @loaded a fd s₁ s₂ hpin hb h₂ hfd hpos =>
    have hd : (s.page p).dirty = false := (hk.pages p hl).evicted hb (hst p).1
    have hc₀ : Core cfg (s.setPage p { s.page p with status := .loading }) :=
      hc.setPage ⟨⟨rfl, rfl, rfl⟩, rfl, rfl⟩ rfl (fun _ => hl) fun _ hx _ => absurd rfl hx
    have hl₀ : (s.setPage p { s.page p with status := .loading }).Live p := live_setPage rfl hl
    have hk₀ : Kept cfg last (s.setPage p { s.page p with status := .loading }) := by
      refine hk.touch hc₀.ref ⟨rfl, rfl, rfl, rfl, rfl, rfl⟩ rfl rfl rfl hl hl₀
        ⟨⟨rfl, rfl, rfl, rfl⟩, rfl, rfl, rfl⟩ ((hk.pages p hl).status fun _ _ => hd)
    have hk₂ := h₂.kept hc₀ hk₀
    have hp₂ : s₂.page p = { s.page p with status := .loading } := by
      rw [h₂.page_eq hc₀ (by simp [State.setPage, hb])]
      exact update_self _ _ _
    have hl₂ : s₂.Live p := h₂.live_of_none hc₀ hl₀ (by simp [State.setPage, hb])
    have hpos₂ : (s₂.page p).location.startPos = (s.page p).location.startPos := by rw [hp₂]
    have hfds : s₂.fds = s.fds := h₂.frame.2.1
    rw [← hpos₂] at hc' ⊢
    refine hk₂.fetch hl₂ (by rw [hp₂]; exact hd) ?_ hc' ?_ (by rw [hp₂]; exact ⟨rfl, rfl, rfl, rfl⟩) rfl ?_
    · rw [hp₂, hfds]
      exact hfd
    · refine (live_update rfl (by rw [fetch, place_same]) ?_ p).mpr hl₂
      rw [hp₂]
    · have hok := hk₂.pages p hl₂
      rw [hp₂] at hok
      exact (hok.bytes a).pin.status fun hx => (by cases hx)

theorem Kept.forget (h : Kept cfg last s) (n : PageName) : Kept cfg (update last n fun _ => none) s := by
  refine h.weaken fun m off b hx => ?_
  by_cases hm : m = n
  · rw [hm, update_self] at hx
    cases hx
  · rw [update_of_ne hm] at hx
    exact hx

theorem update_none_bounded (n : PageName) (k : ℕ) : Bounded (update last n (fun _ => none) n) k := by
  rw [update_self]
  intro off b hx
  cases hx

theorem update_none_holds (n : PageName) (store : ℕ → UInt8) (base : ℕ) :
    Holds (update last n (fun _ => none) n) store base := by
  rw [update_self]
  intro off b hx
  cases hx

theorem Kept.learn_new {n : PageName} (h : Kept cfg (update last n fun _ => none) s) {p a : ℕ} (hl : s.Live p)
    (hb : (s.page p).bytes = some a) (hd : (s.page p).dirty = true) (hn : s.pageName p = n) :
    Kept cfg (update last n (snapshot cfg s p)) s := by
  have hlearn := h.learn hl hb hd (snapshot_bounded cfg s p) (snapshot_holds hb)
  rw [hn, update_idem] at hlearn
  exact hlearn

theorem newAnonymous_ok {loc : PDBSet × ℕ → Option PDBPageInfo} {pageNum a k : ℕ}
    (hk : cfg.miniPageSize k ≠ 0) : PageOk cfg loc (newAnonymous pageNum a k) := by
  refine ⟨fun set info hx => ?_, fun set hx => ?_, fun _ => Or.inl rfl, fun _ hx => ?_, fun _ hx => ?_,
    fun hx => ?_, fun _ => hk⟩
  · cases hx
  · cases hx
  · cases hx
  · rcases hx with hx | hx
    · cases hx
    · exact absurd hx (by simp [newAnonymous])
  · cases hx

theorem Allocated.kept (h : Allocated cfg s s') (hc : Core cfg s) (hc' : Core cfg s')
    (hk : Kept cfg last s) :
    Kept cfg (update last (.anonymous s.nextPage) (snapshot cfg s' s.nextPage)) s' := by
  cases h with
  | @mk k a pageNum lastFree free s₁ s₂ h₂ =>
    set s' : State := { place cfg s₂ (s.nextPage + 1) s.nextPage a (newAnonymous pageNum a k) with
      freeAnonPageNumbers := free, lastFreeAnonPageNumber := lastFree } with hs'
    have hp : s'.page s.nextPage = newAnonymous pageNum a k := update_self _ _ _
    have hname : s'.pageName s.nextPage = .anonymous s.nextPage := by rw [State.pageName, hp]; rfl
    have hall : s'.allPages = s₂.allPages := by rw [hs', place_same]
    have hdead : ¬ s₂.Live s.nextPage := by
      intro hl
      have := hc.live_lt (h₂.live hc hl)
      omega
    have hl' : s'.Live s.nextPage := Or.inl (by rw [hp]; exact Nat.one_pos)
    have hdisk : SameDisk s' s₂ := by
      obtain ⟨e1, e2, e3, e4, e5, e6⟩ := @SameDisk.place cfg s₂ (s.nextPage + 1) s.nextPage a
        (newAnonymous pageNum a k)
      exact ⟨e1, e2, e3, e4, e5, e6⟩
    have hmem : s'.memory = s₂.memory := by rw [hs', place_same]
    have hnew : Kept cfg (update last (.anonymous s.nextPage) fun _ => none) s' := by
      refine ((h₂.kept hc hk).forget (.anonymous s.nextPage)).new hdead hc'.ref hdisk hmem rfl ?_ ?_ ?_
        (newAnonymous_ok h₂.hole.slot.size_ne) (fun _ => ?_) ?_ fun b _ => ?_
      · intro key q hk
        rw [hall] at hk
        exact Or.inr hk
      · intro key q hk
        rw [hall]
        exact hk
      · intro q hq hn
        rw [hname] at hn
        rcases h₂.core.ref.name_cases hq with ⟨-, hn'⟩ | ⟨set, i, -, -, -, -, hn'⟩
        · cases hn'.symm.trans hn
          exact hdead hq
        · cases hn'.symm.trans hn
      · simp [newAnonymous]
      · rw [hname]
        exact update_none_bounded _ _
      · rw [hname]
        exact update_none_holds _ _ _
    exact hnew.learn_new hl' (by rw [hp]; rfl) (by rw [hp]; rfl) hname

theorem alloc_allPages {set : PDBSet} {i : ℕ} {me : PDBPage} (hnone : s.allPages (set, i) = none) :
    (∀ key q, (alloc s set i me).allPages key = some q → q = s.nextPage ∨ s.allPages key = some q) ∧
      ∀ key q, s.allPages key = some q → (alloc s set i me).allPages key = some q := by
  have hall : (alloc s set i me).allPages = update s.allPages (set, i) (some s.nextPage) := rfl
  refine ⟨fun key q hk => ?_, fun key q hk => ?_⟩
  · rw [hall] at hk
    by_cases hx : key = (set, i)
    · rw [hx, update_self] at hk
      exact Or.inl (Option.some.inj hk).symm
    · rw [update_of_ne hx] at hk
      exact Or.inr hk
  · rw [hall, update_of_ne]
    · exact hk
    · rintro rfl
      rw [hnone] at hk
      cases hk

theorem Kept.alloc (h : Kept cfg last s) (hc : Core cfg s) {set : PDBSet} {i : ℕ} {me : PDBPage}
    (hnone : s.allPages (set, i) = none) (href : RefInv (alloc s set i me)) (hset : me.whichSet = some set)
    (hnum : me.pageNum = i) (ha : me.isAnon = false) (hb : me.bytes = none)
    (hok : PageOk cfg s.pageLocations me) (hbound : Bounded (last (.ofSet set i)) (me.getSize cfg)) :
    Kept cfg last (alloc s set i me) := by
  have hname : (BufferManager.alloc s set i me).pageName s.nextPage = .ofSet set i := by
    rw [State.pageName, alloc_page, hset, hnum]
  obtain ⟨hall, hkeep⟩ := @alloc_allPages s set i me hnone
  refine h.new (fun hl => (hc.live_lt hl).ne rfl) href ⟨rfl, rfl, rfl, rfl, rfl, rfl⟩ rfl rfl hall hkeep ?_ hok
    ?_ (by rw [hname]; exact hbound) fun a hx => ?_
  · intro q hq hn
    rw [hname] at hn
    rcases h.ref.name_cases hq with ⟨-, hn'⟩ | ⟨set', i', -, -, -, hk, hn'⟩
    · cases hn'.symm.trans hn
    · cases hn'.symm.trans hn
      rw [hnone] at hk
      cases hk
  · intro hx
    rw [ha] at hx
    cases hx
  · rw [hb] at hx
    cases hx

theorem Opened.kept {set : PDBSet} (h : Opened cfg set s s') (hk : Kept cfg last s)
    (hfile : ∀ fd, s.fds set = none → cfg.openFile (cfg.fileLoc set) = some fd →
      fd ≠ cfg.tempFileFD ∧ ∀ set', s.fds set' ≠ some fd) : Kept cfg last s' := by
  cases h with
  | already _ => exact hk
  | now hnone hopen =>
    obtain ⟨h1, h2⟩ := hfile _ hnone hopen
    exact hk.open hnone h1 h2

theorem newSetPage_ok {set : PDBSet} {i : ℕ} {loc : PDBSet × ℕ → Option PDBPageInfo}
    (hloc : loc (set, i) = none) : PageOk cfg loc (newSetPage cfg set i) := by
  refine ⟨fun set' info hw hl => ?_, fun set' _ _ => ⟨rfl, rfl⟩, fun hx => ?_, fun hx => ?_, fun hx => ?_,
    fun _ hx => absurd rfl hx, fun hx => ?_⟩
  · cases hw
    rw [show (newSetPage cfg set i).pageNum = i from rfl, hloc] at hl
    cases hl
  · cases hx
  · cases hx
  · cases hx
  · cases hx

theorem knownSetPage_ok {set : PDBSet} {i : ℕ} {info : PDBPageInfo} {loc : PDBSet × ℕ → Option PDBPageInfo}
    (hloc : loc (set, i) = some info) : PageOk cfg loc (knownSetPage set i info) := by
  have hnum : (knownSetPage set i info).pageNum = i := rfl
  refine ⟨fun set' info' hw hl => ?_, fun set' hw hl => ?_, fun hx => ?_, fun hx => ?_, fun hx => ?_,
    fun _ _ => rfl, fun hx => ?_⟩
  · cases hw
    rw [hnum, hloc] at hl
    cases hl
    exact ⟨rfl, Nat.le_refl _⟩
  · cases hw
    rw [hnum, hloc] at hl
    cases hl
  · cases hx
  · cases hx
  · cases hx
  · cases hx

theorem GotSetPage.kept {set : PDBSet} {i fd : ℕ} (h : GotSetPage cfg set i s s') (hc : Core cfg s)
    (hc' : Core cfg s') (hst : Settled s) (hfd : s.fds set = some fd) (hk : Kept cfg last s) :
    Kept cfg (if s.allPages (set, i) = none ∧ s.pageLocations (set, i) = none then
      update last (.ofSet set i) (snapshot cfg s' s.nextPage) else last) s' := by
  cases h with
  | @hit p _ hkey h =>
    have hl : s.Live p := Or.inr ⟨_, hkey⟩
    have hc₀ := hc.setRef hst hl (n := (s.page p).refCount + 1)
    have hl₀ : (s.setPage p { s.page p with refCount := (s.page p).refCount + 1 }).Live p :=
      Or.inr ⟨_, hkey⟩
    rw [if_neg (by simp [hkey])]
    refine h.kept hc₀ hc' (hst.setPage rfl) hl₀ ?_
    exact hk.touch hc₀.ref ⟨rfl, rfl, rfl, rfl, rfl, rfl⟩ rfl rfl rfl hl hl₀
      ⟨⟨rfl, rfl, rfl, rfl⟩, rfl, rfl, rfl⟩ ((hk.pages p hl).ref _)
  | @created a s₁ s₂ hkey hloc h₂ =>
    rw [if_pos ⟨hkey, hloc⟩]
    set me := newSetPage cfg set i with hme
    have hc₀ : Core cfg (alloc s set i me) := hc.alloc hfd hkey rfl rfl rfl rfl rfl (Nat.le_refl _)
    have hb₀ : ((alloc s set i me).page s.nextPage).bytes = none := by rw [alloc_page]; rfl
    have hk₀ : Kept cfg (update last (.ofSet set i) fun _ => none) (alloc s set i me) :=
      (hk.forget (.ofSet set i)).alloc hc hkey hc₀.ref rfl rfl rfl rfl (newSetPage_ok hloc)
        (update_none_bounded _ _)
    have hk₂ := h₂.kept hc₀ hk₀
    have hp₂ : s₂.page s.nextPage = me := (h₂.page_eq hc₀ hb₀).trans (alloc_page s set i me)
    have hl₂ : s₂.Live s.nextPage := h₂.live_of_none hc₀ (alloc_live s set i me) hb₀
    have hname₂ : s₂.pageName s.nextPage = .ofSet set i := by rw [State.pageName, hp₂]; rfl
    set me' : PDBPage := { me with bytes := some a, refCount := 1, status := .loaded } with hme'
    set s' : State := place cfg s₂ s₂.nextPage s.nextPage a me' with hs'
    have hp' : s'.page s.nextPage = me' := place_page_self s₂ _ _ _ _
    have hl' : s'.Live s.nextPage := Or.inl (by rw [hp']; exact Nat.one_pos)
    have hok : PageOk cfg s₂.pageLocations me' := by
      have hold := hk₂.pages s.nextPage hl₂
      rw [hp₂] at hold
      exact ((hold.bytes a).ref 1).status fun hx => (by cases hx)
    have hmem : s'.memory = s₂.memory := by rw [hs', place_same]
    have hplaced : Kept cfg (update last (.ofSet set i) fun _ => none) s' := by
      refine hk₂.changePage hc'.ref SameDisk.place rfl (by rw [hs', place_same]) hl₂ hl' ?_ ?_ (fun _ => rfl) hok
        ?_ (fun b _ => ?_) fun q b _ _ _ off _ => by rw [hmem]
      · rw [hp₂]
        exact ⟨rfl, rfl, rfl, rfl⟩
      · rw [hp₂]
        exact Nat.le_refl _
      · rw [hname₂]
        exact update_none_bounded _ _
      · rw [hname₂]
        exact update_none_holds _ _ _
    refine hplaced.learn_new hl' (by rw [hp']) (by rw [hp']; rfl) ?_
    rw [State.pageName, hp']
    rfl
  | @loaded a fd' info s₁ s₂ hkey hloc h₂ hfd' hpos =>
    rw [if_neg (by simp [hloc])]
    set me := knownSetPage set i info with hme
    have hc₀ : Core cfg (alloc s set i me) := hc.alloc hfd hkey rfl rfl rfl rfl rfl (hc.locations _ _ hloc)
    have hb₀ : ((alloc s set i me).page s.nextPage).bytes = none := by rw [alloc_page]; rfl
    have hk₀ : Kept cfg last (alloc s set i me) :=
      hk.alloc hc hkey hc₀.ref rfl rfl rfl rfl (knownSetPage_ok hloc) (hk.home _ _ _ _ (Home.ofSet hloc hfd'))
    have hk₂ := h₂.kept hc₀ hk₀
    have hp₂ : s₂.page s.nextPage = me := (h₂.page_eq hc₀ hb₀).trans (alloc_page s set i me)
    have hl₂ : s₂.Live s.nextPage := h₂.live_of_none hc₀ (alloc_live s set i me) hb₀
    have hpos₂ : (s₂.page s.nextPage).location.startPos = info.startPos := by rw [hp₂]; rfl
    have hfds : s₂.fds set = some fd' := (congrFun h₂.frame.2.1 set).trans hfd'
    rw [← hpos₂] at hc' ⊢
    refine hk₂.fetch hl₂ (by rw [hp₂]; rfl) (Or.inr ⟨set, ?_, ?_, hfds⟩) hc' ?_ ?_ rfl ?_
    · rw [hp₂]
      rfl
    · rw [hp₂]
      rfl
    · exact Or.inl (by rw [fetch_page_self]; exact Nat.one_pos)
    · rw [hp₂]
      exact ⟨rfl, rfl, rfl, rfl⟩
    · have hold := hk₂.pages s.nextPage hl₂
      rw [hp₂] at hold
      exact (hold.bytes a).status fun hx => (by cases hx)

theorem PageOk.unpin {loc : PDBSet × ℕ → Option PDBPageInfo} {me : PDBPage} (h : PageOk cfg loc me)
    (hloc : ∀ set, me.whichSet = some set → loc (set, me.pageNum) ≠ none) :
    PageOk cfg loc { me with pinned := false, sizeFrozen := true } :=
  ⟨h.located, fun set hw hl => absurd hl (hloc set hw), h.pos, h.clean, fun _ _ => rfl, h.evicted, h.sized⟩

theorem assignLocation_cases (cfg : Config) (s : State) (p : ℕ) :
    (s.assignLocation cfg p = s ∧ ((s.page p).isAnon = false → ∀ set, (s.page p).whichSet = some set →
      s.pageLocations (set, (s.page p).pageNum) ≠ none)) ∨
    ∃ set, (s.page p).isAnon = false ∧ (s.page p).whichSet = some set ∧
      s.pageLocations (set, (s.page p).pageNum) = none ∧ s.assignLocation cfg p = { s with
        page := update s.page p { s.page p with
          location := ⟨s.endOfFiles set, (s.page p).location.numBytes⟩ }
        pageLocations := update s.pageLocations (set, (s.page p).pageNum)
          (some ⟨s.endOfFiles set, (s.page p).location.numBytes⟩)
        endOfFiles := update s.endOfFiles set (s.endOfFiles set + (s.page p).getSize cfg) } := by
  unfold State.assignLocation
  dsimp only
  split
  · next set ha hw =>
    by_cases hloc : s.pageLocations (set, (s.page p).pageNum) = none
    · rw [if_pos hloc]
      exact Or.inr ⟨set, ha, hw, hloc, rfl⟩
    · rw [if_neg hloc]
      refine Or.inl ⟨rfl, fun _ set' hw' => ?_⟩
      cases hw.symm.trans hw'
      exact hloc
  · next hx => exact Or.inl ⟨rfl, fun ha set hw => absurd hw (hx set ha)⟩

theorem Kept.recount (h : Kept cfg last s) (l : List (ℕ × ℕ)) (n : ℕ → ℤ) (t : ℕ) :
    Kept cfg last { s with lastUsed := l, numPinned := n, lastTimeTick := t } :=
  h.congr ⟨h.ref.key, h.ref.held, h.ref.anon, h.ref.opened⟩ ⟨rfl, rfl, rfl, rfl, rfl, rfl⟩ rfl
    (fun _ => ⟨⟨rfl, rfl, rfl, rfl⟩, rfl, rfl, rfl⟩) (fun _ hl => hl) (fun _ hl _ => hl) h.pages

theorem Unpinned.kept {p : ℕ} (h : Unpinned cfg p s s') (hl : s.Live p) (hk : Kept cfg last s) :
    Kept cfg last s' := by
  cases h with
  | already _ => exact hk
  | @now a hpin hb =>
    set me : PDBPage := { s.page p with pinned := false, sizeFrozen := true } with hme
    obtain ⟨l, n, t, hs₁⟩ : ∃ l n t, (s.setPage p me).unpinFullPage (cfg.fullPage a) =
        { s.setPage p me with lastUsed := l, numPinned := n, lastTimeTick := t } :=
      ⟨_, _, _, unpinFullPage_eq _ _⟩
    have hp : (s.setPage p me).page p = me := update_self _ _ _
    rw [hs₁]
    rcases assignLocation_cases cfg { s.setPage p me with lastUsed := l, numPinned := n, lastTimeTick := t } p
      with ⟨heq, hx⟩ | ⟨set, ha, hw, hnone, heq⟩
    · rw [heq]
      refine Kept.recount ?_ l n t
      have href : RefInv (s.setPage p me) := hk.ref.setPage rfl rfl rfl fun _ => hl
      refine hk.touch href ⟨rfl, rfl, rfl, rfl, rfl, rfl⟩ rfl rfl rfl hl (live_setPage rfl hl)
        ⟨⟨rfl, rfl, rfl, rfl⟩, rfl, rfl, rfl⟩ ((hk.pages p hl).unpin fun set hw => ?_)
      dsimp only at hx
      rw [hp] at hx
      refine hx ?_ set hw
      rcases hk.ref.name_cases hl with ⟨ha, -⟩ | ⟨_, _, ha, -⟩
      · rw [hk.ref.anon p ha] at hw
        cases hw
      · exact ha
    · dsimp only at hw hnone
      rw [hp] at hw hnone
      have hset : RefInv (s.setPage p (unpinnedAt (s.page p) (s.endOfFiles set))) :=
        hk.ref.setPage rfl rfl rfl fun _ => hl
      have href : RefInv (assigned cfg s p set) := ⟨hset.key, hset.held, hset.anon, hset.opened⟩
      have hassign : Kept cfg last (assigned cfg s p set) := hk.assign hl hw hnone (by simp [hb]) href
      rw [heq]
      dsimp only
      rw [hp]
      refine Eq.subst ?_ (hassign.recount l n t)
      simp only [assigned, State.setPage, update_idem]
      rfl

theorem Dropped.keeps {p : ℕ} (h : Dropped cfg p s s') (hc : Core cfg s) (hst : Settled s)
    (href : 0 < (s.page p).refCount) (hk : Kept cfg last s) : Kept cfg last s' := by
  have hl : s.Live p := Or.inl href
  have hok := hk.pages p hl
  cases h with
  | kept hlt =>
    refine hk.touch (hc.setRef hst hl).ref ⟨rfl, rfl, rfl, rfl, rfl, rfl⟩ rfl rfl rfl hl (Or.inl ?_)
      ⟨⟨rfl, rfl, rfl, rfl⟩, rfl, rfl, rfl⟩ (hok.ref _)
    simp only [State.setPage, update_self]
    omega
  | freed hone ha h =>
    have hp : (s.setPage p { s.page p with refCount := 0 }).page p = { s.page p with refCount := 0 } :=
      update_self _ _ _
    have hav : s'.availablePositions =
        ((s.setPage p { s.page p with refCount := 0 }).recycle p).availablePositions := by rw [h.same]
    refine hk.free ha hl h.core.ref (by rw [h.same]; rfl) (by rw [h.same]; rfl) (by rw [h.same]; rfl)
      (by rw [h.same]; rfl) (by rw [h.same]; rfl) (by rw [h.same]; rfl) (by rw [h.same]; rfl)
      (by rw [h.same]; rfl) ?_
    rw [hav, State.recycle]
    dsimp only
    rw [hp]
    rfl
  | @forgotten key hone ha hb hkey =>
    have hd : (s.page p).dirty = false := hok.evicted hb (hst p).1
    have hc₀ : Core cfg (s.setPage p { s.page p with refCount := 0 }) := hc.setRef hst hl
    have hp₀ : (s.setPage p { s.page p with refCount := 0 }).page p = { s.page p with refCount := 0 } :=
      update_self _ _ _
    have hforget := hc₀.forget (by rw [hp₀]) (by rw [hp₀]; exact hb) (Or.inr ⟨key, hkey⟩)
    obtain ⟨-, -, hset, hnum⟩ := hc.ref.key key p hkey
    have hall : (s.setPage p { s.page p with refCount := 0 }).eraseFromAllPages
        ((s.setPage p { s.page p with refCount := 0 }).page p) =
          { s.setPage p { s.page p with refCount := 0 } with allPages := update s.allPages key none } := by
      rw [State.eraseFromAllPages, hp₀, hset, hnum]
      rfl
    rw [hall] at hforget
    have hq : ∀ q, q ≠ p → (s.setPage p { s.page p with refCount := 0 }).page q = s.page q :=
      fun q hqp => update_of_ne hqp _ _
    have hlive : ∀ q, State.Live { s.setPage p { s.page p with refCount := 0 } with
        allPages := update s.allPages key none } q → s.Live q := by
      intro q hlq
      by_cases hqp : q = p
      · rw [hqp]
        exact hl
      · rcases hlq with hr | ⟨key', hk'⟩
        · dsimp only at hr
          rw [hq q hqp] at hr
          exact Or.inl hr
        · dsimp only at hk'
          by_cases hx : key' = key
          · rw [hx, update_self] at hk'
            cases hk'
          · rw [update_of_ne hx] at hk'
            exact Or.inr ⟨key', hk'⟩
    refine hk.congr hforget.ref ⟨rfl, rfl, rfl, rfl, rfl, rfl⟩ rfl (fun q => ?_) hlive (fun q hlq hx => ?_)
      fun q hlq => ?_
    · dsimp only
      by_cases hqp : q = p
      · subst hqp
        rw [hp₀]
        exact ⟨⟨rfl, rfl, rfl, rfl⟩, rfl, rfl, rfl⟩
      · rw [hq q hqp]
        exact ⟨⟨rfl, rfl, rfl, rfl⟩, rfl, rfl, rfl⟩
    · have hqp : q ≠ p := by
        rintro rfl
        rw [hd] at hx
        cases hx
      rcases hlq with hr | ⟨key', hk'⟩
      · refine Or.inl ?_
        dsimp only
        rw [hq q hqp]
        exact hr
      · refine Or.inr ⟨key', (update_of_ne (fun hx => hqp ?_) _ _).trans hk'⟩
        rw [hx, hkey] at hk'
        exact (Option.some.inj hk').symm
    · dsimp only
      by_cases hqp : q = p
      · subst hqp
        rw [hp₀]
        exact hok.ref 0
      · rw [hq q hqp]
        exact hk.pages q (hlive q hlq)
  | @unpinned key a _ hone ha hb hkey h =>
    have hc₀ : Core cfg (s.setPage p { s.page p with refCount := 0 }) := hc.setRef hst hl
    refine h.kept (Or.inr ⟨key, hkey⟩) ?_
    exact hk.touch hc₀.ref ⟨rfl, rfl, rfl, rfl, rfl, rfl⟩ rfl rfl rfl hl (Or.inr ⟨key, hkey⟩)
      ⟨⟨rfl, rfl, rfl, rfl⟩, rfl, rfl, rfl⟩ (hok.ref 0)

theorem Config.miniPageSize_mono {k l : ℕ} (hl : cfg.miniPageSize l ≠ 0) (hkl : k ≤ l) :
    cfg.miniPageSize k ≤ cfg.miniPageSize l := by
  by_cases hk : cfg.miniPageSize k = 0
  · rw [hk]
    exact Nat.zero_le _
  · rw [miniPageSize_eq hk, miniPageSize_eq hl]
    exact Nat.pow_le_pow_right (by omega) (by omega)

def truncate (bytes : ℕ → Option UInt8) (n : ℕ) : ℕ → Option UInt8 := fun off =>
  if off < n then bytes off else none

theorem truncate_some {bytes : ℕ → Option UInt8} {n off : ℕ} {b : UInt8} (h : truncate bytes n off = some b) :
    off < n ∧ bytes off = some b := by
  unfold truncate at h
  by_cases hlt : off < n
  · rw [if_pos hlt] at h
    exact ⟨hlt, h⟩
  · rw [if_neg hlt] at h
    cases h

theorem Frozen.kept {p : ℕ} (h : Frozen cfg p s s') (hc : Core cfg s) (hc' : Core cfg s')
    (href : 0 < (s.page p).refCount) (hfull : (s.page p).location.numBytes = cfg.logOfPageSize)
    (hk : Kept cfg last s) : Kept cfg
      (update last (s.pageName p) (truncate (last (s.pageName p)) ((s'.page p).getSize cfg))) s' := by
  cases h with
  | @mk k a hb hpin hle hsz =>
    have hl : s.Live p := Or.inl href
    have hok := hk.pages p hl
    obtain ⟨a', hb', hslot, hclass, -⟩ := hc.mem.resident _ p (hc.mem.listed p a hl hb)
    have hsz' : cfg.miniPageSize (s.page p).location.numBytes ≠ 0 := by
      rw [hclass]
      exact hslot.size_ne
    rw [← hfull] at hle
    have hsize := Config.miniPageSize_mono hsz' hle
    dsimp only
    rw [update_self]
    refine (hk.weaken fun n off b hx => ?_).changePage hc'.ref ⟨rfl, rfl, rfl, rfl, rfl, rfl⟩ rfl rfl hl ?_
      ⟨rfl, rfl, rfl, rfl⟩ hsize (fun hx => hx) ?_ ?_ (fun a' hb' => ?_) fun q b _ _ _ off _ => rfl
    · by_cases hn : n = s.pageName p
      · rw [hn, update_self] at hx
        rw [hn]
        exact (truncate_some hx).2
      · rw [update_of_ne hn] at hx
        exact hx
    · refine Or.inl ?_
      dsimp only
      rw [update_self]
      exact href
    · refine ⟨fun set info hw hloc => ?_, hok.fresh, hok.pos, hok.clean, fun _ _ => rfl, fun hx => ?_,
        fun _ => hsz⟩
      · obtain ⟨h1, h2⟩ := hok.located set info hw hloc
        exact ⟨h1, hsize.trans h2⟩
      · rw [hb] at hx
        cases hx
    · rw [update_self]
      exact fun off b hx => (truncate_some hx).1
    · rw [update_self]
      exact fun off b hx => hk.inMemory p a' hl hb' off b (truncate_some hx).2

theorem PageOk.setDirty {loc : PDBSet × ℕ → Option PDBPageInfo} {me : PDBPage} (h : PageOk cfg loc me)
    (hb : me.bytes ≠ none) : PageOk cfg loc { me with dirty := true } :=
  ⟨h.located, fun set hw hl => ⟨(h.fresh set hw hl).1, rfl⟩, h.pos, fun _ hx => Bool.noConfusion hx, h.frozen,
    fun hx => absurd hx hb, h.sized⟩

theorem Kept.setDirty (h : Kept cfg last s) {p a : ℕ}
    (href : RefInv (s.setPage p { s.page p with dirty := true })) (hl : s.Live p)
    (hb : (s.page p).bytes = some a) :
    Kept cfg (update last (s.pageName p) (snapshot cfg s p)) (s.setPage p { s.page p with dirty := true }) := by
  set s' := s.setPage p { s.page p with dirty := true } with hs'
  have hp : s'.page p = { s.page p with dirty := true } := update_self _ _ _
  have hl' : s'.Live p := live_setPage rfl hl
  have hname : s'.pageName p = s.pageName p := pageName_congr (by rw [hp]) (by rw [hp])
  have hdirty : Kept cfg last s' :=
    h.changePage href ⟨rfl, rfl, rfl, rfl, rfl, rfl⟩ rfl rfl hl hl' ⟨rfl, rfl, rfl, rfl⟩ (Nat.le_refl _)
      (fun _ => rfl) ((h.pages p hl).setDirty (by simp [hb])) (h.bound p hl)
      (fun a hb => h.inMemory p a hl hb) fun q b _ _ _ off _ => rfl
  have hlearn := hdirty.learn hl' (by rw [hp]; exact hb) (by rw [hp]) (snapshot_bounded cfg s' p)
    (snapshot_holds (by rw [hp]; exact hb))
  have hsame : snapshot cfg s' p = snapshot cfg s p := by
    funext off
    rw [snapshot, snapshot, hp]
    rfl
  rw [hname, hsame] at hlearn
  exact hlearn

theorem Kept.write (h : Kept cfg last s) (hc : Core cfg s) {p off a : ℕ} {b : UInt8} (hl : s.Live p)
    (hb : (s.page p).bytes = some a) (hoff : off < (s.page p).getSize cfg) :
    Kept cfg (update last (s.pageName p)
      (update (last (s.pageName p)) off (if (s.page p).dirty then some b else none)))
      { s with memory := update s.memory (a + off) b } := by
  have hweak : Kept cfg (update last (s.pageName p) (update (last (s.pageName p)) off none)) s := by
    refine h.weaken fun n off' b' hx => ?_
    by_cases hn : n = s.pageName p
    · rw [hn, update_self] at hx
      rw [hn]
      by_cases ho : off' = off
      · rw [ho, update_self] at hx
        cases hx
      · rw [update_of_ne ho] at hx
        exact hx
    · rw [update_of_ne hn] at hx
      exact hx
  set s' : State := { s with memory := update s.memory (a + off) b } with hs'
  have hkept : Kept cfg (update last (s.pageName p) (update (last (s.pageName p)) off none)) s' := by
    refine hweak.changePage (p := p) ⟨h.ref.key, h.ref.held, h.ref.anon, h.ref.opened⟩ ⟨rfl, rfl, rfl, rfl, rfl, rfl⟩
      (update_eq_self _ _).symm rfl hl hl ⟨rfl, rfl, rfl, rfl⟩ (Nat.le_refl _) (fun hx => hx) (h.pages p hl)
      (hweak.bound p hl) (fun a' hb' off' b' hx => ?_) fun q c hqp hlq hbq off' hoff' => ?_
    · cases hb.symm.trans hb'
      have hold := hweak.inMemory p a hl hb off' b' hx
      rw [update_self] at hx
      have ho : off' ≠ off := by
        rintro rfl
        rw [update_self] at hx
        cases hx
      exact (update_of_ne (by omega) _ _).trans hold
    · have hap := hc.apart_pages hl hlq hb hbq hqp
      exact update_of_ne (hap.ne hoff hoff').symm _ _
  by_cases hd : (s.page p).dirty = true
  · rw [if_pos hd]
    have hname : s'.pageName p = s.pageName p := rfl
    have hbound : Bounded (update (last (s.pageName p)) off (some b)) ((s'.page p).getSize cfg) := by
      intro off' b' hx
      by_cases ho : off' = off
      · rw [ho]
        exact hoff
      · rw [update_of_ne ho] at hx
        exact h.bound p hl off' b' hx
    have hholds : Holds (update (last (s.pageName p)) off (some b)) s'.memory a := by
      intro off' b' hx
      by_cases ho : off' = off
      · rw [ho, update_self] at hx
        rw [ho]
        exact (update_self _ _ _).trans (Option.some.inj hx)
      · rw [update_of_ne ho] at hx
        exact (update_of_ne (by omega) _ _).trans (h.inMemory p a hl hb off' b' hx)
    have hlearn := hkept.learn (p := p) hl hb hd hbound hholds
    rw [hname, update_idem] at hlearn
    exact hlearn
  · rw [if_neg hd]
    exact hkept

/-- The bytes the pages should have after a call. What is in memory when a page is created or marked dirty
counts as written, a freeze gives up the bytes beyond the new size, and so does a write to a clean page. -/
def Op.recordWrites (cfg : Config) (s s' : State) (last : PageName → ℕ → Option UInt8) :
    Op → PageName → ℕ → Option UInt8
  | .getPage _ => update last (.anonymous s.nextPage) (snapshot cfg s' s.nextPage)
  | .getSetPage set i =>
    if s.allPages (set, i) = none ∧ s.pageLocations (set, i) = none then
      update last (.ofSet set i) (snapshot cfg s' s.nextPage)
    else last
  | .freezeSize p _ =>
    update last (s.pageName p) (truncate (last (s.pageName p)) ((s'.page p).getSize cfg))
  | .setDirty p => update last (s.pageName p) (snapshot cfg s p)
  | .write p off b =>
    update last (s.pageName p)
      (update (last (s.pageName p)) off (if (s.page p).dirty then some b else none))
  | .unpin _ | .repin _ | .drop _ => last

theorem Stepped.kept {op : Op} (h : Stepped cfg s op s') (hc : Core cfg s) (hc' : Core cfg s')
    (hst : Settled s) (ha : op.Admissible cfg s)
    (hfile : ∀ set i, op = .getSetPage set i → ∀ fd, s.fds set = none →
      cfg.openFile (cfg.fileLoc set) = some fd → fd ≠ cfg.tempFileFD ∧ ∀ set', s.fds set' ≠ some fd)
    (hk : Kept cfg last s) : Kept cfg (op.recordWrites cfg s s' last) s' := by
  cases h with
  | getPage h => exact h.kept hc hc' hk
  | @getSetPage set i s₀ s' h₀ h =>
    obtain ⟨fd, hfd⟩ := h₀.fds
    have hst₀ : Settled s₀ := by
      rw [h₀.same]
      exact hst
    have hkept := h.kept (h₀.core hc) hc' hst₀ hfd (h₀.kept hk (hfile set i rfl))
    rw [h₀.same] at hkept
    exact hkept
  | freezeSize href hfull h => exact h.kept hc hc' href hfull hk
  | unpin href h => exact h.kept (Or.inl href) hk
  | repin href h => exact h.kept hc hc' hst (Or.inl href) hk
  | drop h => exact h.keeps hc hst ha hk
  | setDirty href hpin =>
    obtain ⟨a, hb⟩ := hc.bytes_of_pinned hst (Or.inl href) hpin
    exact hk.setDirty hc'.ref (Or.inl href) hb
  | write href _ hb hoff => exact hk.write hc (Or.inl href) hb hoff

end PlinyCompute.BufferManager
