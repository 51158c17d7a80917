import PlinyCompute.BufferEvict

namespace PlinyCompute.BufferManager

open Function Transition

variable {cfg : Config} {s s' : State}

theorem miniPagesFrom_spec (cfg : Config) (k start : ℕ) :
    Ensures Stops (miniPagesFrom cfg k start) fun minis => cfg.miniPageSize k ≠ 0 ∧
      minis = offsets cfg.pageSize (cfg.miniPageSize k) cfg.pageSize start := by
  unfold miniPagesFrom
  by_cases hz : cfg.miniPageSize k = 0
  · rw [if_pos hz]
    exact Fault.noConfusion
  · rw [if_neg hz]
    exact ⟨hz, rfl⟩

theorem offsets_zero_ne_nil (cfg : Config) (k : ℕ) :
    offsets cfg.pageSize (cfg.miniPageSize k) cfg.pageSize 0 ≠ [] := by
  obtain ⟨n, hn⟩ := Nat.exists_eq_succ_of_ne_zero cfg.pageSize_pos.ne'
  rw [hn, offsets]
  simp

structure BrokenUp (cfg : Config) (k : ℕ) (s : State) (f : ℕ) (minis : List ℕ) (s' : State) : Prop where
  eq : s' = { s with
    emptyMiniPages := update s.emptyMiniPages k (s.emptyMiniPages k ++ minis)
    unusedMiniPages := update s.unusedMiniPages f (minis, k)
    numPinned := update s.numPinned f 0, emptyFullPages := s.emptyFullPages.dropLast }
  last : s.emptyFullPages.getLast? = some f
  ne_nil : minis ≠ []
  slots : ∀ a ∈ minis, IsSlot cfg f k a
  nodup : minis.Nodup

theorem breakUp_spec (h : MemInv cfg s) {k : ℕ} (hk : k ≤ cfg.logOfPageSize) (hne : s.emptyFullPages ≠ []) :
    Ensures Stops (s.breakUp cfg k) fun s' => ∃ f minis, BrokenUp cfg k s f minis s' := by
  obtain ⟨f, hf⟩ : ∃ f, s.emptyFullPages.getLast? = some f := ⟨_, List.getLast?_eq_getLast_of_ne_nil hne⟩
  obtain ⟨hbase, hlt, -, hnil⟩ := h.full f (List.mem_of_getLast? hf)
  unfold State.breakUp
  rw [hf]
  refine (miniPagesFrom_spec cfg k 0).bind ?_
  rintro minis ⟨hz, rfl⟩
  rw [hnil, List.nil_append]
  refine ⟨f, _, rfl, hf, ?_, ?_, ?_⟩
  · rw [ne_eq, List.map_eq_nil_iff]
    exact offsets_zero_ne_nil cfg k
  · intro a ha
    obtain ⟨x, hx, rfl⟩ := List.mem_map.mp ha
    exact isSlot_of_mem_offsets hbase hlt hk hz (Nat.dvd_zero _) hx
  · exact (offsets_nodup (Nat.pos_of_ne_zero hz) _ _).map fun x y hxy => Nat.add_left_cancel hxy

theorem BrokenUp.core {k f : ℕ} {minis : List ℕ} (h : BrokenUp cfg k s f minis s') (hc : Core cfg s) :
    Core cfg s' := by
  have hf := List.mem_of_getLast? h.last
  obtain ⟨-, -, hnil, hu⟩ := hc.mem.full f hf
  have hfull : ∀ g, g ∈ s'.emptyFullPages ↔ g ∈ s.emptyFullPages ∧ g ≠ f := by
    intro g
    rw [h.eq]
    exact mem_dropLast_iff hc.mem.full_nodup h.last g
  have hmem : MemInv cfg s' := by
    refine hc.mem.cut hu h.slots h.nodup ?_ ?_ ?_ ?_ ?_ ?_ ?_ ?_ ?_ ?_
    · rw [hnil]
      simp
    · rw [h.eq]
      exact fun q => ⟨rfl, rfl, rfl⟩
    · rw [h.eq]
      exact fun q _ => ⟨rfl, rfl, rfl⟩
    · rw [h.eq]
    · rw [h.eq]
    · rw [h.eq]
    · rw [h.eq]
    · rw [h.eq]
    · rw [h.eq]
      exact List.dropLast_sublist _
    · exact fun hx => ((hfull f).mp hx).2 rfl
  have hlru : LruInv s' := by
    refine hc.lru.breakUp hf ?_ (by rw [h.eq]) (by rw [h.eq]) (by rw [h.eq]) hfull ?_
    · rw [h.eq]
      exact (congrArg (List.countP _) hnil).trans rfl
    · intro g _
      rw [h.eq]
      rfl
  have href := hc.ref
  have hpins := hc.pins
  have hcls := hc.classes
  have hloc := hc.locations
  have hused := hc.used
  rw [h.eq] at hmem hlru ⊢
  exact ⟨⟨⟨href.key, href.held, href.anon, href.opened⟩, hmem, hpins, hcls, hloc⟩, hlru, hused⟩

def MemoryFits (cfg : Config) (k : ℕ) (s : State) : Prop :=
  ∀ a, (s.emptyMiniPages k).getLast? = some a → TickFits s (cfg.fullPage a)

structure Provided (cfg : Config) (k : ℕ) (s s₁ : State) (a : ℕ) (s' : State) : Prop where
  evicted : s₁ = s ∨ ∃ f, Evicted cfg s f s₁
  same : s' = { s₁ with
    emptyMiniPages := s'.emptyMiniPages, unusedMiniPages := s'.unusedMiniPages
    numPinned := s'.numPinned, emptyFullPages := s'.emptyFullPages }
  core : Core cfg s'
  hole : Hole cfg s' k a
  numPinned : ∀ g, g ∉ s'.emptyFullPages → g ≠ cfg.fullPage a →
    g ∉ s.emptyFullPages ∧ s'.numPinned g = s.numPinned g
  fits : MemoryFits cfg k s → TickFits s' (cfg.fullPage a)

structure Created (cfg : Config) (k : ℕ) (s s₁ s' : State) : Prop where
  evicted : s₁ = s ∨ ∃ f, Evicted cfg s f s₁
  same : s' = { s₁ with
    emptyMiniPages := s'.emptyMiniPages, unusedMiniPages := s'.unusedMiniPages
    numPinned := s'.numPinned, emptyFullPages := s'.emptyFullPages }
  core : Core cfg s'
  ne_nil : s'.emptyMiniPages k ≠ []
  numPinned : ∀ g a, a ∈ s'.emptyMiniPages k → g ∉ s'.emptyFullPages → g ≠ cfg.fullPage a →
    g ∉ s.emptyFullPages ∧ s'.numPinned g = s.numPinned g
  fits : MemoryFits cfg k s → MemoryFits cfg k s'

theorem createAdditionalMiniPages_spec (h : Core cfg s) {k : ℕ} (hk : k ≤ cfg.logOfPageSize)
    (hnil : s.emptyMiniPages k = []) :
    Ensures Stops (s.createAdditionalMiniPages cfg k) fun s' => ∃ s₁, Created cfg k s s₁ s' := by
  have hevict : Ensures Stops (if s.emptyFullPages = [] then s.evict cfg else .ok s) fun s₁ =>
      (s₁ = s ∧ s.emptyFullPages ≠ []) ∨ s.emptyFullPages = [] ∧ ∃ f, Evicted cfg s f s₁ := by
    by_cases he : s.emptyFullPages = []
    · rw [if_pos he]
      exact (evict_spec h).mono fun s₁ h₁ => Or.inr ⟨he, h₁⟩
    · rw [if_neg he]
      exact Or.inl ⟨rfl, he⟩
  rw [State.createAdditionalMiniPages]
  refine hevict.bind ?_
  intro s₁ h₁
  have hcore : Core cfg s₁ := by
    rcases h₁ with ⟨rfl, -⟩ | ⟨-, f, hf⟩
    · exact h
    · exact hf.core h
  have hne : s₁.emptyFullPages ≠ [] := by
    rcases h₁ with ⟨rfl, he⟩ | ⟨-, f, hf⟩
    · exact he
    · rw [hf.same]
      simp
  have hmini : s₁.emptyMiniPages k = [] := by
    rcases h₁ with ⟨rfl, -⟩ | ⟨-, f, hf⟩
    · exact hnil
    · apply List.eq_nil_iff_forall_not_mem.mpr
      intro a ha
      have := hf.mini_subset ha
      rw [hnil] at this
      exact List.not_mem_nil this
  refine (breakUp_spec hcore.mem hk hne).mono ?_
  rintro s₂ ⟨f, minis, h₂⟩
  have hm : s₂.emptyMiniPages k = minis := by
    rw [h₂.eq]
    simp [hmini]
  refine ⟨s₁, ?_, by rw [h₂.eq], h₂.core hcore, by rw [hm]; exact h₂.ne_nil, ?_, fun _ a ha => ?_⟩
  · exact h₁.imp And.left And.right
  · intro g a ha hg hga
    rw [hm] at ha
    rw [(h₂.slots a ha).fullPage] at hga
    have hg₁ : g ∉ s₁.emptyFullPages := by
      intro hmem
      apply hg
      rw [h₂.eq]
      exact (mem_dropLast_iff hcore.mem.full_nodup h₂.last g).mpr ⟨hmem, hga⟩
    have hn : s₂.numPinned g = s₁.numPinned g := by
      rw [h₂.eq]
      exact update_of_ne hga _ _
    rcases h₁ with ⟨rfl, -⟩ | ⟨he, e, hev⟩
    · exact ⟨hg₁, hn⟩
    · rw [hev.same] at hg₁
      simp only [he, List.nil_append, List.mem_singleton] at hg₁
      refine ⟨by simp [he], hn.trans ?_⟩
      rw [hev.same]
      exact update_of_ne hg₁ _ _
  · rw [hm] at ha
    rw [TickFits, (h₂.slots a (List.mem_of_getLast? ha)).fullPage, h₂.eq]
    dsimp only
    rw [update_self]
    decide

theorem getEmptyMemory_spec (h : Core cfg s) {k : ℕ} (hk : k ≤ cfg.logOfPageSize) :
    Ensures Stops (s.getEmptyMemory cfg k) fun r => ∃ s₁, Provided cfg k s s₁ r.1 r.2 := by
  have hcreate : Ensures Stops
      (if s.emptyMiniPages k = [] then s.createAdditionalMiniPages cfg k else .ok s) fun s₂ =>
        ∃ s₁, Created cfg k s s₁ s₂ := by
    by_cases he : s.emptyMiniPages k = []
    · rw [if_pos he]
      exact createAdditionalMiniPages_spec h hk he
    · rw [if_neg he]
      exact ⟨s, Or.inl rfl, rfl, h, he, fun g a _ hg _ => ⟨hg, rfl⟩, id⟩
  rw [State.getEmptyMemory, if_neg (by omega)]
  refine hcreate.bind ?_
  rintro s₂ ⟨s₁, h₂⟩
  obtain ⟨a, ha⟩ : ∃ a, (s₂.emptyMiniPages k).getLast? = some a :=
    ⟨_, List.getLast?_eq_getLast_of_ne_nil h₂.ne_nil⟩
  have hmem := List.mem_of_getLast? ha
  obtain ⟨hua, -⟩ := (h₂.core.mem.mini k a).mp hmem
  rw [ha]
  dsimp only
  rw [eraseOne, if_pos hua]
  have hc := h₂.core
  let s₃ : State := { s₂ with
    emptyMiniPages := update s₂.emptyMiniPages k (s₂.emptyMiniPages k).dropLast
    unusedMiniPages := update s₂.unusedMiniPages (cfg.fullPage a)
      ((s₂.unusedMiniPages (cfg.fullPage a)).1.erase a, (s₂.unusedMiniPages (cfg.fullPage a)).2) }
  obtain ⟨hm, hhole⟩ : MemInv cfg s₃ ∧ Hole cfg s₃ k a := hc.mem.take ha rfl rfl rfl rfl rfl rfl rfl
  refine ⟨s₁, h₂.evicted, ?_, ?_, hhole, ?_, fun hfit => h₂.fits hfit a ha⟩
  · rw [h₂.same]
  · refine ⟨⟨⟨hc.ref.key, hc.ref.held, hc.ref.anon, hc.ref.opened⟩, hm, hc.pins, hc.classes,
      hc.locations⟩, ?_, hc.used⟩
    exact hc.lru.congr rfl rfl rfl rfl fun _ => rfl
  · exact fun g hg hga => h₂.numPinned g a hmem hg hga

namespace Provided

variable {k a : ℕ} {s₁ : State}

theorem page_cases (h : Provided cfg k s s₁ a s') (hc : Core cfg s) (q : ℕ) :
    s'.page q = s.page q ∨ (s.page q).pinned = false ∧ (s.page q).bytes ≠ none ∧ ∃ pos,
      s'.page q = { s.page q with
        status := .notLoaded, dirty := false, bytes := none
        location := ⟨pos, (s.page q).location.numBytes⟩ } := by
  have hpage : s'.page = s₁.page := by rw [h.same]
  rw [hpage]
  rcases h.evicted with rfl | ⟨f, he⟩
  · exact Or.inl rfl
  · by_cases hq : q ∈ s.constituentPages f
    · obtain ⟨b, hb, -⟩ := hc.mem.resident f q hq
      exact Or.inr ⟨he.not_pinned hc hq, by simp [hb], he.page_done (hc.mem.nodup f) hq⟩
    · exact Or.inl (he.page_other hq)

theorem page_eq (h : Provided cfg k s s₁ a s') (hc : Core cfg s) {q : ℕ} (hq : (s.page q).bytes = none) :
    s'.page q = s.page q := by
  rcases h.page_cases hc q with heq | ⟨-, hb, -⟩
  · exact heq
  · exact absurd hq hb

theorem allPages (h : Provided cfg k s s₁ a s') (hc : Core cfg s) (key : PDBSet × ℕ) :
    s'.allPages key = s.allPages key ∨ s'.allPages key = none ∧
      ∃ p, (s.page p).refCount = 0 ∧ (s.page p).bytes ≠ none ∧ s.allPages key = some p := by
  have hall : s'.allPages = s₁.allPages := by rw [h.same]
  rw [hall]
  rcases h.evicted with rfl | ⟨f, he⟩
  · exact Or.inl rfl
  · refine (he.allPages hc key).imp_right ?_
    rintro ⟨hnone, p, hp, href, hk⟩
    obtain ⟨b, hb, -⟩ := hc.mem.resident f p hp
    exact ⟨hnone, p, href, by simp [hb], hk⟩

theorem live (h : Provided cfg k s s₁ a s') (hc : Core cfg s) {q : ℕ} (hq : s'.Live q) : s.Live q := by
  have hl : s₁.Live q := by
    rw [h.same] at hq
    exact hq
  rcases h.evicted with rfl | ⟨f, he⟩
  · exact hl
  · exact he.live hc hl

theorem frame (h : Provided cfg k s s₁ a s') :
    s'.nextPage = s.nextPage ∧ s'.fds = s.fds ∧ s'.pageLocations = s.pageLocations ∧
      s'.lastTimeTick = s.lastTimeTick ∧ s'.endOfFiles = s.endOfFiles ∧ s'.memory = s.memory := by
  have hs : s'.nextPage = s₁.nextPage ∧ s'.fds = s₁.fds ∧ s'.pageLocations = s₁.pageLocations ∧
      s'.lastTimeTick = s₁.lastTimeTick ∧ s'.endOfFiles = s₁.endOfFiles ∧ s'.memory = s₁.memory := by
    rw [h.same]
    exact ⟨rfl, rfl, rfl, rfl, rfl, rfl⟩
  rcases h.evicted with rfl | ⟨f, he⟩
  · exact hs
  · rw [he.same] at hs
    exact hs

end Provided

theorem pinFullPage_eq (s : State) (f : ℕ) : s.pinFullPage f = { s with
    lastUsed := (s.pinFullPage f).lastUsed, numPinned := (s.pinFullPage f).numPinned } := by
  unfold State.pinFullPage
  split_ifs <;> rfl

theorem pinFullPage_congr (hl : s'.lastUsed = s.lastUsed) (hn : s'.numPinned = s.numPinned) (f : ℕ) :
    (s'.pinFullPage f).lastUsed = (s.pinFullPage f).lastUsed ∧
      (s'.pinFullPage f).numPinned = (s.pinFullPage f).numPinned := by
  simp only [State.pinFullPage, hl, hn]
  split_ifs
  · exact ⟨rfl, rfl⟩
  · exact ⟨rfl, rfl⟩

theorem mem_pinFullPage_lastUsed {f : ℕ} {e : ℕ × ℕ} (h : e ∈ (s.pinFullPage f).lastUsed) :
    e ∈ s.lastUsed := by
  unfold State.pinFullPage at h
  split_ifs at h
  · exact (mem_lruErase.mp h).1
  · exact h

theorem pinParent_eq {p a : ℕ} (hb : (s.page p).bytes = some a) :
    s.pinParent cfg p = .ok (s.pinFullPage (cfg.fullPage a)) := by
  rw [State.pinParent, getBytes_eq hb]
  rfl

theorem registerMiniPage_eq {p a : ℕ} (hb : (s.page p).bytes = some a) :
    s.registerMiniPage cfg p = .ok { s.pinFullPage (cfg.fullPage a) with
      constituentPages := update s.constituentPages (cfg.fullPage a)
        (s.constituentPages (cfg.fullPage a) ++ [p]) } := by
  let s₁ : State := { s with
    constituentPages := update s.constituentPages (cfg.fullPage a)
      (s.constituentPages (cfg.fullPage a) ++ [p]) }
  have hpin : s₁.pinParent cfg p = .ok (s₁.pinFullPage (cfg.fullPage a)) := pinParent_eq hb
  rw [State.registerMiniPage, getBytes_eq hb]
  refine Eq.trans hpin ?_
  unfold State.pinFullPage
  dsimp only [s₁]
  split_ifs <;> rfl

def place (cfg : Config) (s : State) (n p a : ℕ) (me : PDBPage) : State :=
  { s.pinFullPage (cfg.fullPage a) with
    page := update s.page p me, nextPage := n
    constituentPages := update s.constituentPages (cfg.fullPage a)
      (s.constituentPages (cfg.fullPage a) ++ [p]) }

theorem Core.place (h : Core cfg s) {k a p n : ℕ} {me : PDBPage} (ht : TickFits s (cfg.fullPage a))
    (hole : Hole cfg s k a)
    (hnew : ∀ g, p ∉ s.constituentPages g) (hb : me.bytes = some a) (hk : me.location.numBytes = k)
    (hpin : me.pinned = true)
    (hkey : ∀ key, s.allPages key = some p →
      me.isAnon = false ∧ me.whichSet = some key.1 ∧ me.pageNum = key.2)
    (hown : me.isAnon = false → ∃ key, s.allPages key = some p)
    (hanon : me.isAnon = true → me.whichSet = none) (hn : s.nextPage ≤ n) (hp : p < n) :
    Core cfg (place cfg s n p a me) := by
  generalize hs : BufferManager.place cfg s n p a me = s'
  have hpage : s'.page = update s.page p me := hs ▸ rfl
  have hpage_p : s'.page p = me := by rw [hpage, update_self]
  have hpage_q : ∀ q, q ≠ p → s'.page q = s.page q := fun q hq => by rw [hpage, update_of_ne hq]
  have hnext : s'.nextPage = n := hs ▸ rfl
  have hc : s'.constituentPages = update s.constituentPages (cfg.fullPage a)
      (s.constituentPages (cfg.fullPage a) ++ [p]) := hs ▸ rfl
  have hall : s'.allPages = s.allPages := by rw [← hs, BufferManager.place, pinFullPage_eq]
  have hu : s'.unusedMiniPages = s.unusedMiniPages := by rw [← hs, BufferManager.place, pinFullPage_eq]
  have hm : s'.emptyMiniPages = s.emptyMiniPages := by rw [← hs, BufferManager.place, pinFullPage_eq]
  have he : s'.emptyFullPages = s.emptyFullPages := by rw [← hs, BufferManager.place, pinFullPage_eq]
  have hfds : s'.fds = s.fds := by rw [← hs, BufferManager.place, pinFullPage_eq]
  have hloc : s'.pageLocations = s.pageLocations := by rw [← hs, BufferManager.place, pinFullPage_eq]
  have htick : s'.lastTimeTick = s.lastTimeTick := by rw [← hs, BufferManager.place, pinFullPage_eq]
  have hlast : s'.lastUsed = (s.pinFullPage (cfg.fullPage a)).lastUsed := hs ▸ rfl
  have hnum : s'.numPinned = (s.pinFullPage (cfg.fullPage a)).numPinned := hs ▸ rfl
  have hlive : ∀ q, q ≠ p → s'.Live q → s.Live q := by
    intro q hq hl
    unfold State.Live at hl ⊢
    rw [hpage_q q hq, hall] at hl
    exact hl
  have hcount : ∀ l : List ℕ, p ∉ l → (l.countP fun q => (s'.page q).pinned) =
      l.countP fun q => (s.page q).pinned := by
    intro l hl
    apply List.countP_congr
    intro q hq
    rw [hpage_q q fun heq => hl (heq ▸ hq)]
  refine ⟨⟨⟨?_, ?_, ?_, ?_⟩, ?_, ?_, ?_, ?_⟩, ?_, ?_⟩
  · intro key q hq
    rw [hall] at hq
    rw [hnext]
    by_cases hqp : q = p
    · subst hqp
      rw [hpage_p]
      exact ⟨hp, hkey key hq⟩
    · rw [hpage_q q hqp]
      obtain ⟨h1, h2⟩ := h.ref.key key q hq
      exact ⟨by omega, h2⟩
  · intro q href
    rw [hnext, hall]
    by_cases hqp : q = p
    · subst hqp
      rw [hpage_p]
      exact ⟨hp, hown⟩
    · rw [hpage_q q hqp] at href ⊢
      obtain ⟨h1, h2⟩ := h.ref.held q href
      exact ⟨by omega, h2⟩
  · intro q hq
    by_cases hqp : q = p
    · subst hqp
      rw [hpage_p] at hq ⊢
      exact hanon hq
    · rw [hpage_q q hqp] at hq ⊢
      exact h.ref.anon q hq
  · rw [hall, hfds]
    exact h.ref.opened
  · refine h.mem.register hole hnew (by rw [hpage_p, hb]) (by rw [hpage_p, hk]) ?_ hlive
      (by rw [hnext]; exact hn) (fun _ _ _ _ hk => by rw [hall]; exact hk) ?_ hc hu hm he
    · intro q hq
      rw [hpage_q q hq]
      exact ⟨rfl, rfl, rfl⟩
    · rw [hnext, hpage_p, hall]
      exact ⟨hp, hown⟩
  · intro q hl hst hq
    by_cases hqp : q = p
    · subst hqp
      rw [hpage_p, hb]
      simp
    · rw [hpage_q q hqp] at hst hq ⊢
      exact h.pins q (hlive q hqp hl) hst hq
  · intro q hl
    by_cases hqp : q = p
    · subst hqp
      rw [hpage_p, hk]
      exact hole.slot.class_le
    · rw [hpage_q q hqp]
      exact h.classes q (hlive q hqp hl)
  · rw [hloc]
    exact h.locations
  · refine h.lru.pin ht hole.not_full hlast hnum htick he ?_ ?_
    · rw [pinnedCount, pinnedCount, hc, update_self, List.countP_append, hcount _ (hnew _)]
      simp [hpage_p, hpin]
    · intro g hg
      rw [pinnedCount, pinnedCount, hc, update_of_ne hg, hcount _ (hnew g)]
  · intro e hmem
    rw [hlast] at hmem
    have hused := h.used e (mem_pinFullPage_lastUsed hmem)
    by_cases hea : e.1 = cfg.fullPage a
    · rw [hc, hea, update_self]
      simp
    · rw [hc, update_of_ne hea]
      exact hused

end PlinyCompute.BufferManager
