import PlinyCompute.NodeRestart

namespace PlinyCompute.BufferManager

open Function Transition

variable {cfg : Config} {s s' : State} {set : PDBSet} {p a f : ℕ}

def State.left (s : State) (p f : ℕ) : State :=
  { s with
    constituentPages := update s.constituentPages f ((s.constituentPages f).erase p)
    numPinned := update s.numPinned f (s.numPinned f - 1)
    allPages := match (s.page p).whichSet with
      | some set => update s.allPages (set, (s.page p).pageNum) none
      | none => s.allPages }

theorem left_numPinned (s : State) (p f : ℕ) :
    (s.left p f).numPinned = update s.numPinned f (s.numPinned f - 1) := rfl

inductive ClearedPage (cfg : Config) (p : ℕ) (s : State) : State → Prop
  | counted {a : ℕ} : (s.page p).bytes = some a → p ∈ s.constituentPages (cfg.fullPage a) →
      s.numPinned (cfg.fullPage a) ≠ 1 → ClearedPage cfg p s (s.left p (cfg.fullPage a))
  | released {a : ℕ} {l : List ℕ} : (s.page p).bytes = some a → p ∈ s.constituentPages (cfg.fullPage a) →
      s.numPinned (cfg.fullPage a) = 1 → (s.constituentPages (cfg.fullPage a)).erase p = [] →
      eraseEach (s.unusedMiniPages (cfg.fullPage a)).1
        (s.emptyMiniPages (s.unusedMiniPages (cfg.fullPage a)).2) = .ok l →
      ClearedPage cfg p s { s.left p (cfg.fullPage a) with
        emptyMiniPages := update s.emptyMiniPages (s.unusedMiniPages (cfg.fullPage a)).2 l
        unusedMiniPages := update s.unusedMiniPages (cfg.fullPage a) ([], (s.unusedMiniPages (cfg.fullPage a)).2)
        emptyFullPages := s.emptyFullPages ++ [cfg.fullPage a] }
  | shared {a : ℕ} : (s.page p).bytes = some a → p ∈ s.constituentPages (cfg.fullPage a) →
      s.numPinned (cfg.fullPage a) = 1 → (s.constituentPages (cfg.fullPage a)).erase p ≠ [] →
      ClearedPage cfg p s { s.left p (cfg.fullPage a) with
        unusedMiniPages := update s.unusedMiniPages (cfg.fullPage a)
          ((s.unusedMiniPages (cfg.fullPage a)).1 ++ [a], (s.unusedMiniPages (cfg.fullPage a)).2)
        emptyMiniPages := update s.emptyMiniPages (s.page p).location.numBytes
          (s.emptyMiniPages (s.page p).location.numBytes ++ [a])
        numPinned := update s.numPinned (cfg.fullPage a) (-s.lastTimeTick)
        lastUsed := lruInsert (cfg.fullPage a, s.lastTimeTick) s.lastUsed
        lastTimeTick := s.lastTimeTick + 1 }

theorem eraseFromAllPages_match (s : State) (me : PDBPage) : s.eraseFromAllPages me = { s with
    allPages := match me.whichSet with
      | some set => update s.allPages (set, me.pageNum) none
      | none => s.allPages } := by
  cases hset : me.whichSet with
  | none => rw [State.eraseFromAllPages, hset]
  | some set => rw [State.eraseFromAllPages, hset]

theorem ClearedPage.of_eq_ok (h : s.clearPage cfg p = .ok s') : ClearedPage cfg p s s' := by
  unfold State.clearPage at h
  cases hb : (s.page p).bytes with
  | none =>
    rw [State.getBytes, hb] at h
    cases h
  | some a =>
    rw [getBytes_eq hb, ok_bind] at h
    dsimp only at h
    unfold eraseOne at h
    by_cases hp : p ∈ s.constituentPages (cfg.fullPage a)
    · rw [if_pos hp, ok_bind] at h
      by_cases hone : s.numPinned (cfg.fullPage a) = 1
      · have hzero : ¬update s.numPinned (cfg.fullPage a) (s.numPinned (cfg.fullPage a) - 1) (cfg.fullPage a) ≠ 0 := by
          rw [update_self]
          omega
        rw [if_neg hzero] at h
        by_cases hnil : (s.constituentPages (cfg.fullPage a)).erase p = []
        · rw [if_pos hnil, State.clearUnused] at h
          obtain ⟨s₁, h₁, h⟩ := bind_eq_ok.mp h
          obtain ⟨s₂, h₂, h₁⟩ := bind_eq_ok.mp h₁
          obtain ⟨l, hl, h₂⟩ := bind_eq_ok.mp h₂
          cases h₂
          cases h₁
          cases h
          rw [eraseFromAllPages_match]
          exact ClearedPage.released hb hp hone hnil hl
        · rw [if_neg hnil, ok_bind, update_idem] at h
          cases h
          rw [eraseFromAllPages_match]
          exact ClearedPage.shared hb hp hone hnil
      · have hmany : update s.numPinned (cfg.fullPage a) (s.numPinned (cfg.fullPage a) - 1) (cfg.fullPage a) ≠ 0 := by
          rw [update_self]
          omega
        rw [if_pos hmany, ok_bind] at h
        cases h
        rw [eraseFromAllPages_match]
        exact ClearedPage.counted hb hp hone
    · rw [if_neg hp] at h
      cases h

theorem ClearedPage.eq_ok (h : ClearedPage cfg p s s') : s.clearPage cfg p = .ok s' := by
  unfold State.clearPage
  cases h with
  | @counted a hb hp hmany =>
    have hne : update s.numPinned (cfg.fullPage a) (s.numPinned (cfg.fullPage a) - 1) (cfg.fullPage a) ≠ 0 := by
      rw [update_self]
      omega
    rw [getBytes_eq hb, ok_bind]
    dsimp only
    unfold eraseOne
    rw [if_pos hp, ok_bind, if_pos hne, ok_bind, eraseFromAllPages_match]
    rfl
  | @released a l hb hp hone hnil hl =>
    have hzero : ¬update s.numPinned (cfg.fullPage a) (s.numPinned (cfg.fullPage a) - 1) (cfg.fullPage a) ≠ 0 := by
      rw [update_self]
      omega
    rw [getBytes_eq hb, ok_bind]
    dsimp only
    unfold eraseOne
    rw [if_pos hp, ok_bind, if_neg hzero, if_pos hnil, State.clearUnused]
    dsimp only
    rw [hl, ok_bind, ok_bind, ok_bind, eraseFromAllPages_match]
    rfl
  | @shared a hb hp hone hne =>
    have hzero : ¬update s.numPinned (cfg.fullPage a) (s.numPinned (cfg.fullPage a) - 1) (cfg.fullPage a) ≠ 0 := by
      rw [update_self]
      omega
    rw [getBytes_eq hb, ok_bind]
    dsimp only
    unfold eraseOne
    rw [if_pos hp, ok_bind, if_neg hzero, if_neg hne, ok_bind, eraseFromAllPages_match, update_idem]
    rfl

theorem ClearedPage.same (h : ClearedPage cfg p s s') : s' = { s with
    constituentPages := s'.constituentPages, numPinned := s'.numPinned, allPages := s'.allPages
    emptyMiniPages := s'.emptyMiniPages, unusedMiniPages := s'.unusedMiniPages, lastUsed := s'.lastUsed
    lastTimeTick := s'.lastTimeTick, emptyFullPages := s'.emptyFullPages } := by
  cases h <;> rfl

theorem ClearedPage.congr (h : ClearedPage cfg p s s') (page : ℕ → PDBPage) (fds : PDBSet → Option ℕ)
    (hb : (page p).bytes = (s.page p).bytes) (hloc : (page p).location = (s.page p).location)
    (hset : (page p).whichSet = (s.page p).whichSet) (hnum : (page p).pageNum = (s.page p).pageNum) :
    ClearedPage cfg p { s with page := page, fds := fds } { s' with page := page, fds := fds } := by
  have hleft : ∀ f, ({ s with page := page, fds := fds } : State).left p f =
      { s.left p f with page := page, fds := fds } := by
    intro f
    unfold State.left
    dsimp only
    rw [hset, hnum]
  cases h with
  | counted hb' hp hmany =>
    rw [← hleft]
    exact .counted (hb.trans hb') hp hmany
  | released hb' hp hone hnil hl =>
    have hc := ClearedPage.released (s := { s with page := page, fds := fds }) (hb.trans hb') hp hone hnil hl
    rw [hleft] at hc
    exact hc
  | shared hb' hp hone hne =>
    have hc := ClearedPage.shared (s := { s with page := page, fds := fds }) (hb.trans hb') hp hone hne
    rw [hleft] at hc
    dsimp only at hc
    rw [hloc] at hc
    exact hc

def Evictable (cfg : Config) (s : State) : Prop :=
  ∀ f, cfg.pageSize ∣ f → f < cfg.numPages * cfg.pageSize → f ∉ s.emptyFullPages → s.numPinned f ≠ 0

section Removal

variable {key : PDBSet × ℕ}

theorem RefInv.left_allPages (h : RefInv s) (hkey : s.allPages key = some p) (f : ℕ) :
    (s.left p f).allPages = update s.allPages key none := by
  obtain ⟨-, -, hset, hnum⟩ := h.key key p hkey
  rw [State.left, hset, hnum]

theorem RefInv.key_unique (h : RefInv s) {key' : PDBSet × ℕ} (hkey : s.allPages key = some p)
    (hkey' : s.allPages key' = some p) : key' = key := by
  obtain ⟨-, -, hset, hnum⟩ := h.key key p hkey
  obtain ⟨-, -, hset', hnum'⟩ := h.key key' p hkey'
  exact Prod.ext (Option.some.inj (hset'.symm.trans hset)) (hnum'.symm.trans hnum)

theorem mem_update_none {q : ℕ} {key' : PDBSet × ℕ} (h : RefInv s) (hkey : s.allPages key = some p) :
    update s.allPages key none key' = some q ↔ s.allPages key' = some q ∧ q ≠ p := by
  by_cases hk : key' = key
  · subst hk
    rw [update_self, hkey]
    exact iff_of_false nofun fun hx => hx.2 (Option.some.inj hx.1).symm
  · rw [update_of_ne hk]
    refine ⟨fun hq => ⟨hq, ?_⟩, And.left⟩
    rintro rfl
    exact hk (h.key_unique hkey hq)

theorem live_left (h : RefInv s) (hkey : s.allPages key = some p) (href : (s.page p).refCount = 0)
    (hpage : s'.page = s.page) (hall : s'.allPages = update s.allPages key none) {q : ℕ} (hl : s'.Live q) :
    q ≠ p ∧ s.Live q := by
  unfold State.Live at hl
  rw [hpage, hall] at hl
  rcases hl with hq | ⟨key', hk⟩
  · refine ⟨?_, Or.inl hq⟩
    rintro rfl
    omega
  · obtain ⟨hk, hne⟩ := (mem_update_none h hkey).mp hk
    exact ⟨hne, Or.inr ⟨key', hk⟩⟩

theorem RefInv.left (h : RefInv s) (hkey : s.allPages key = some p) (href : (s.page p).refCount = 0)
    (hpage : s'.page = s.page) (hall : s'.allPages = update s.allPages key none) (hnext : s'.nextPage = s.nextPage)
    (hfds : s'.fds = s.fds) : RefInv s' := by
  refine ⟨fun key' q hk => ?_, fun q hq => ?_, by rw [hpage]; exact h.anon, fun key' q hk => ?_⟩
  · rw [hall, mem_update_none h hkey] at hk
    rw [hnext, hpage]
    exact h.key key' q hk.1
  · rw [hpage] at hq ⊢
    rw [hnext, hall]
    have hne : q ≠ p := by
      rintro rfl
      omega
    obtain ⟨hlt, hown⟩ := h.held q hq
    exact ⟨hlt, fun ha => (hown ha).imp fun key' hk => (mem_update_none h hkey).mpr ⟨hk, hne⟩⟩
  · rw [hall, mem_update_none h hkey] at hk
    rw [hfds]
    exact h.opened key' q hk.1

end Removal

namespace ClearedPage

variable {key : PDBSet × ℕ}

theorem page (h : ClearedPage cfg p s s') : s'.page = s.page := by rw [h.same]

theorem allPages (h : ClearedPage cfg p s s') (hr : RefInv s) (hkey : s.allPages key = some p) :
    s'.allPages = update s.allPages key none := by
  cases h with
  | @counted a _ _ _ | @released a _ _ _ _ _ _ | @shared a _ _ _ _ => exact hr.left_allPages hkey (cfg.fullPage a)

theorem fullPage (h : ClearedPage cfg p s s') : ∃ a, (s.page p).bytes = some a ∧
    p ∈ s.constituentPages (cfg.fullPage a) ∧ s'.constituentPages =
      update s.constituentPages (cfg.fullPage a) ((s.constituentPages (cfg.fullPage a)).erase p) := by
  cases h with
  | counted hb hp _ | released hb hp _ _ _ | shared hb hp _ _ => exact ⟨_, hb, hp, rfl⟩

theorem mem_constituentPages (h : ClearedPage cfg p s s') (hm : MemInv cfg s) {g q : ℕ} :
    q ∈ s'.constituentPages g ↔ q ∈ s.constituentPages g ∧ q ≠ p := by
  obtain ⟨a, -, hp, hc⟩ := h.fullPage
  rw [hc]
  by_cases hg : g = cfg.fullPage a
  · rw [hg, update_self, (hm.nodup _).mem_erase_iff]
    exact And.comm
  · rw [update_of_ne hg]
    refine ⟨fun hq => ⟨hq, ?_⟩, And.left⟩
    rintro rfl
    exact hg (hm.fullPage_unique hq hp)

theorem mem (h : ClearedPage cfg p s s') (hr : RefInv s) (hm : MemInv cfg s) (hkey : s.allPages key = some p)
    (href : (s.page p).refCount = 0) : MemInv cfg s' := by
  have hlive : ∀ q, s'.Live q → q ≠ p ∧ s.Live q := fun q => live_left hr hkey href h.page (h.allPages hr hkey)
  have hall : ∀ q, q ≠ p → ∀ key', s.allPages key' = some q → s'.allPages key' = some q := by
    intro q hq key' hk
    rw [h.allPages hr hkey]
    exact (mem_update_none hr hkey).mpr ⟨hk, hq⟩
  have hslot : ∀ q, SameSlot (s'.page q) (s.page q) := by
    intro q
    rw [h.page]
    exact ⟨rfl, rfl, rfl⟩
  cases h with
  | counted hb hp _ => exact (hm.leave hp hb (fun q _ => hslot q) hlive rfl hall rfl rfl rfl rfl).1
  | @released a l hb hp _ hnil hl =>
    obtain ⟨l', hl', hnodup, hmem⟩ := hm.eraseUnused (cfg.fullPage a)
    cases hl'.symm.trans hl
    obtain ⟨hbase, hlt, hfull⟩ := hm.base hp
    have hone : s.constituentPages (cfg.fullPage a) = [p] := by
      have hperm := List.perm_cons_erase hp
      rw [hnil] at hperm
      exact List.perm_singleton.mp hperm
    have hiff : ∀ q, q ∉ s.constituentPages (cfg.fullPage a) ↔ q ≠ p := by
      intro q
      rw [hone, List.mem_singleton]
    refine hm.release hbase hlt hfull hnodup hmem (fun q _ => hslot q) (fun q b hq _ => ?_) rfl
      (fun q hq => hall q ((hiff q).mp hq)) ?_ rfl rfl rfl
    · rw [hiff]
      exact (hlive q hq).symm
    · rw [State.left, hnil]
  | @shared a hb hp _ _ =>
    obtain ⟨-, -, -, hclass, -⟩ := hm.resident _ p hp
    exact hm.giveBack hp hb (fun q _ => hslot q) hlive rfl hall rfl rfl (by rw [hclass]) rfl

theorem lru (h : ClearedPage cfg p s s') (hm : MemInv cfg s) (hl : LruInv s)
    (hpin : (s.page p).pinned = true) : LruInv s' := by
  obtain ⟨a, hb, hp, hc⟩ := h.fullPage
  obtain ⟨-, -, hfull⟩ := hm.base hp
  have hcount := hl.count _ hfull
  have hone : pinnedCount s' (cfg.fullPage a) + 1 = pinnedCount s (cfg.fullPage a) := by
    have herase := pinnedCount_erase hp hc h.page
    rwa [if_pos hpin] at herase
  have hrest : ∀ g, g ≠ cfg.fullPage a → pinnedCount s' g = pinnedCount s g :=
    fun g hg => pinnedCount_erase_ne hg hc h.page
  cases h with
  | @counted b hb' _ hmany =>
    cases hb.symm.trans hb'
    have hu := unpinFullPage_many (s := s) (f := cfg.fullPage a) (by omega)
    exact hl.unpin hfull (by rw [hu]; rfl) (by rw [hu]; rfl) (by rw [hu]; rfl) rfl hone hrest
  | @released b l hb' _ hn _ _ =>
    cases hb.symm.trans hb'
    refine hl.release hl.sorted (fun e => ⟨fun he => ⟨he, fun hef => ?_⟩, And.left⟩)
      (fun g hg => update_of_ne hg _ _) rfl rfl hrest
    have hneg := ((hl.entry e.1 e.2).mp he).2.2
    rw [hef] at hneg
    omega
  | @shared b hb' _ hn _ =>
    cases hb.symm.trans hb'
    have hu := unpinFullPage_one (s := s) hn
    exact hl.unpin hfull (by rw [hu]) (by rw [hu]) (by rw [hu]) rfl hone hrest

theorem used (h : ClearedPage cfg p s s') (hm : MemInv cfg s) (hl : LruInv s)
    (hused : ∀ e ∈ s.lastUsed, s.constituentPages e.1 ≠ []) (hpin : (s.page p).pinned = true) :
    ∀ e ∈ s'.lastUsed, s'.constituentPages e.1 ≠ [] := by
  obtain ⟨a, hb, hp, hc⟩ := h.fullPage
  obtain ⟨-, -, hfull⟩ := hm.base hp
  have hcount := hl.count _ hfull
  have hpos : 0 < pinnedCount s (cfg.fullPage a) := List.countP_pos_iff.mpr ⟨p, hp, hpin⟩
  have hold : ∀ e ∈ s.lastUsed, s'.constituentPages e.1 ≠ [] := by
    intro e he
    have hne : e.1 ≠ cfg.fullPage a := by
      intro hef
      have hneg := ((hl.entry e.1 e.2).mp he).2.2
      rw [hef] at hneg
      omega
    rw [hc, update_of_ne hne]
    exact hused e he
  cases h with
  | counted _ _ _ => exact hold
  | released _ _ _ _ _ => exact hold
  | @shared b hb' _ _ hrest =>
    cases hb.symm.trans hb'
    intro e he
    rcases (mem_lruInsert hl.bounded).mp he with he | rfl
    · exact hold e he
    · rw [hc, update_self]
      exact hrest

theorem evictable (h : ClearedPage cfg p s s') (hl : LruInv s) (he : Evictable cfg s) :
    Evictable cfg s' := by
  have hold : ∀ f g, g ≠ f → cfg.pageSize ∣ g → g < cfg.numPages * cfg.pageSize → g ∉ s.emptyFullPages →
      (s.left p f).numPinned g ≠ 0 := by
    intro f g hg hd hlt hn
    rw [left_numPinned, update_of_ne hg]
    exact he g hd hlt hn
  intro g hd hlt hn
  cases h with
  | @counted a _ _ hmany =>
    by_cases hg : g = cfg.fullPage a
    · rw [hg, left_numPinned, update_self]
      omega
    · exact hold _ g hg hd hlt hn
  | @released a _ _ _ _ _ _ =>
    rw [List.mem_append, List.mem_singleton, not_or] at hn
    exact hold _ g hn.2 hd hlt hn.1
  | @shared a _ _ _ _ =>
    by_cases hg : g = cfg.fullPage a
    · have htick := hl.tick_pos
      rw [hg]
      dsimp only
      rw [update_self]
      omega
    · dsimp only
      rw [update_of_ne hg]
      exact he g hd hlt hn

theorem core (h : ClearedPage cfg p s s') (hc : Core cfg s) (hkey : s.allPages key = some p)
    (href : (s.page p).refCount = 0) (hpin : (s.page p).pinned = true) : Core cfg s' := by
  have hlive : ∀ q, s'.Live q → s.Live q := fun q hq =>
    (live_left hc.ref hkey href h.page (h.allPages hc.ref hkey) hq).2
  have hsame := h.same
  refine ⟨⟨?_, h.mem hc.ref hc.mem hkey href, fun q hq => ?_, fun q hq => ?_, ?_⟩, h.lru hc.mem hc.lru hpin,
    h.used hc.mem hc.lru hc.used hpin⟩
  · exact hc.ref.left hkey href h.page (h.allPages hc.ref hkey) (by rw [hsame]) (by rw [hsame])
  · rw [h.page]
    exact hc.pins q (hlive q hq)
  · rw [h.page]
    exact hc.classes q (hlive q hq)
  · rw [hsame]
    exact hc.locations

end ClearedPage

theorem exists_clearedPage (hm : MemInv cfg s) (hb : (s.page p).bytes = some a)
    (hp : p ∈ s.constituentPages (cfg.fullPage a)) : ∃ s', ClearedPage cfg p s s' := by
  by_cases hone : s.numPinned (cfg.fullPage a) = 1
  · by_cases hnil : (s.constituentPages (cfg.fullPage a)).erase p = []
    · obtain ⟨l, hl, -⟩ := hm.eraseUnused (cfg.fullPage a)
      exact ⟨_, .released hb hp hone hnil hl⟩
    · exact ⟨_, .shared hb hp hone hnil⟩
  · exact ⟨_, .counted hb hp hone⟩

inductive ClearedAll (cfg : Config) : List ℕ → State → State → Prop
  | nil {s : State} : ClearedAll cfg [] s s
  | cons {p : ℕ} {pages : List ℕ} {s s₁ s' : State} : ClearedPage cfg p s s₁ → ClearedAll cfg pages s₁ s' →
      ClearedAll cfg (p :: pages) s s'

namespace ClearedAll

variable {pages : List ℕ}

theorem iff_eq_ok : pages.foldlM (State.clearPage cfg) s = .ok s' ↔ ClearedAll cfg pages s s' := by
  induction pages generalizing s with
  | nil =>
    constructor
    · rintro ⟨⟩
      exact .nil
    · rintro ⟨⟩
      rfl
  | cons p pages ih =>
    rw [List.foldlM_cons, bind_eq_ok]
    constructor
    · rintro ⟨s₁, h₁, h⟩
      exact .cons (.of_eq_ok h₁) (ih.mp h)
    · rintro (_ | ⟨h₁, h⟩)
      exact ⟨_, h₁.eq_ok, ih.mpr h⟩

theorem same (h : ClearedAll cfg pages s s') : s' = { s with
    constituentPages := s'.constituentPages, numPinned := s'.numPinned, allPages := s'.allPages
    emptyMiniPages := s'.emptyMiniPages, unusedMiniPages := s'.unusedMiniPages, lastUsed := s'.lastUsed
    lastTimeTick := s'.lastTimeTick, emptyFullPages := s'.emptyFullPages } := by
  induction h with
  | nil => rfl
  | cons h₁ _ ih =>
    rw [ih, h₁.same]

theorem congr (h : ClearedAll cfg pages s s') (page : ℕ → PDBPage) (fds : PDBSet → Option ℕ)
    (hpage : ∀ q, (page q).bytes = (s.page q).bytes ∧ (page q).location = (s.page q).location ∧
      (page q).whichSet = (s.page q).whichSet ∧ (page q).pageNum = (s.page q).pageNum) :
    ClearedAll cfg pages { s with page := page, fds := fds } { s' with page := page, fds := fds } := by
  induction h with
  | nil => exact .nil
  | @cons p _ _ _ _ h₁ _ ih =>
    obtain ⟨hb, hloc, hset, hnum⟩ := hpage p
    refine .cons (h₁.congr page fds hb hloc hset hnum) (ih ?_)
    rw [h₁.page]
    exact hpage

end ClearedAll

def State.abandon (set : PDBSet) (s : State) : State :=
  { s with page := fun p => if (s.page p).whichSet = some set then { s.page p with refCount := 0 } else s.page p }

def Clearable (pages : List ℕ) (s : State) : Prop :=
  pages.Nodup ∧ ∀ p ∈ pages, (∃ key, s.allPages key = some p) ∧ (s.page p).refCount = 0 ∧
    (s.page p).pinned = true ∧ ∃ a, (s.page p).bytes = some a

structure Removed (cfg : Config) (pages : List ℕ) (s s' : State) : Prop where
  cleared : ClearedAll cfg pages s s'
  core : Core cfg s'
  allPages : ∀ key q, s'.allPages key = some q ↔ s.allPages key = some q ∧ q ∉ pages
  constituentPages : ∀ g q, q ∈ s'.constituentPages g ↔ q ∈ s.constituentPages g ∧ q ∉ pages
  evictable : Evictable cfg s → Evictable cfg s'

theorem Core.removed {pages : List ℕ} (h : Core cfg s) (hp : Clearable pages s) :
    ∃ s', Removed cfg pages s s' := by
  induction pages generalizing s with
  | nil => exact ⟨s, .nil, h, fun _ _ => by simp, fun _ _ => by simp, id⟩
  | cons p pages ih =>
    obtain ⟨hnodup, hp⟩ := hp
    obtain ⟨hnot, hnodup⟩ := List.nodup_cons.mp hnodup
    obtain ⟨⟨key, hkey⟩, href, hpin, a, hb⟩ := hp p (by simp)
    obtain ⟨s₁, h₁⟩ := exists_clearedPage h.mem hb (h.mem.listed p a (Or.inr ⟨key, hkey⟩) hb)
    have hall := h₁.allPages h.ref hkey
    have hrest : Clearable pages s₁ := by
      refine ⟨hnodup, fun q hq => ?_⟩
      obtain ⟨⟨key', hk⟩, hfacts⟩ := hp q (List.mem_cons_of_mem p hq)
      rw [h₁.page, hall]
      refine ⟨⟨key', (mem_update_none h.ref hkey).mpr ⟨hk, ?_⟩⟩, hfacts⟩
      rintro rfl
      exact hnot hq
    obtain ⟨s', h'⟩ := ih (h₁.core h hkey href hpin) hrest
    refine ⟨s', .cons h₁ h'.cleared, h'.core, fun key' q => ?_, fun g q => ?_,
      fun he => h'.evictable (h₁.evictable h.lru he)⟩
    · rw [h'.allPages, hall, mem_update_none h.ref hkey, List.mem_cons]
      tauto
    · rw [h'.constituentPages, h₁.mem_constituentPages h.mem, List.mem_cons]
      tauto

theorem abandon_page (s : State) (set : PDBSet) (q : ℕ) : ∃ n, n ≤ (s.page q).refCount ∧
    ((s.page q).whichSet = some set → n = 0) ∧ (s.abandon set).page q = { s.page q with refCount := n } := by
  unfold State.abandon
  dsimp only
  by_cases hq : (s.page q).whichSet = some set
  · exact ⟨0, Nat.zero_le _, fun _ => rfl, by rw [if_pos hq]⟩
  · exact ⟨(s.page q).refCount, Nat.le_refl _, fun h => absurd h hq, by rw [if_neg hq]⟩

theorem live_abandon {q : ℕ} (h : (s.abandon set).Live q) : s.Live q := by
  obtain ⟨n, hn, -, hq⟩ := abandon_page s set q
  rcases h with href | hkey
  · rw [hq] at href
    exact Or.inl (href.trans_le hn)
  · exact Or.inr hkey

theorem Core.abandon (h : Core cfg s) (set : PDBSet) : Core cfg (s.abandon set) := by
  refine ⟨⟨⟨fun key q hk => ?_, fun q href => ?_, fun q ha => ?_, h.ref.opened⟩, ?_, fun q hl => ?_, fun q hl => ?_,
    h.locations⟩, ?_, h.used⟩
  · obtain ⟨n, -, -, hq⟩ := abandon_page s set q
    rw [hq]
    exact h.ref.key key q hk
  · obtain ⟨n, hn, -, hq⟩ := abandon_page s set q
    rw [hq] at href ⊢
    exact h.ref.held q (href.trans_le hn)
  · obtain ⟨n, -, -, hq⟩ := abandon_page s set q
    rw [hq] at ha ⊢
    exact h.ref.anon q ha
  · refine h.mem.congr (fun q => ?_) (fun q => live_abandon) (Nat.le_refl _) (fun _ _ _ _ hk => hk) rfl rfl rfl rfl
    obtain ⟨n, -, -, hq⟩ := abandon_page s set q
    rw [hq]
    exact ⟨rfl, rfl, rfl⟩
  · obtain ⟨n, -, -, hq⟩ := abandon_page s set q
    rw [hq]
    exact h.pins q (live_abandon hl)
  · obtain ⟨n, -, -, hq⟩ := abandon_page s set q
    rw [hq]
    exact h.classes q (live_abandon hl)
  · refine h.lru.congr rfl rfl rfl rfl fun f => List.countP_congr fun q _ => ?_
    obtain ⟨n, -, -, hq⟩ := abandon_page s set q
    rw [hq]

structure Cleared (cfg : Config) (set : PDBSet) (s s' : State) : Prop where
  fds : s'.fds = update s.fds set none
  allPages : ∀ key, s'.allPages key = if key.1 = set then none else s.allPages key
  pageLocations : ∀ key, s'.pageLocations key = if key.1 = set then none else s.pageLocations key
  endOfFiles : s'.endOfFiles = update s.endOfFiles set 0
  constituentPages : ∀ f q, q ∈ s'.constituentPages f ↔ q ∈ s.constituentPages f ∧ (s.page q).whichSet ≠ some set
  page : s'.page = s.page
  memory : s'.memory = s.memory
  files : s'.files = s.files
  positions : s'.availablePositions = s.availablePositions ∧ s'.lastTempPos = s.lastTempPos
  noAliasing : NoAliasing cfg s → NoAliasing cfg (s'.abandon set)
  lru : LruInv s → LruInv s'
  evictable : Evictable cfg s → Evictable cfg s'

def Clears (cfg : Config) (set : PDBSet) (s : State) : Prop := ∃ s', s.clearSet cfg set = .ok s' ∧ Cleared cfg set s s'

theorem Core.closed (h : Core cfg s) (hset : ∀ key p, s.allPages key = some p → key.1 ≠ set) :
    Core cfg { s with
      fds := update s.fds set none
      pageLocations := fun key => if key.1 = set then none else s.pageLocations key
      endOfFiles := update s.endOfFiles set 0 } := by
  obtain ⟨⟨⟨h1, h2, h3, h4⟩, hm, hp, hcl, hloc⟩, hl, hu⟩ := h
  refine ⟨⟨⟨h1, h2, h3, fun key p hk => ?_⟩, ?_, hp, hcl, fun key info hinfo => ?_⟩, ?_, hu⟩
  · obtain ⟨fd, hfd⟩ := h4 key p hk
    exact ⟨fd, (update_of_ne (hset key p hk) _ _).trans hfd⟩
  · exact hm.congr (fun q => ⟨rfl, rfl, rfl⟩) (fun q hq => hq) (Nat.le_refl _) (fun _ _ _ _ hk => hk) rfl rfl rfl rfl
  · dsimp only at hinfo
    by_cases hk : key.1 = set
    · rw [if_pos hk] at hinfo
      cases hinfo
    · rw [if_neg hk] at hinfo
      exact hloc key info hinfo
  · exact hl.congr rfl rfl rfl rfl fun _ => rfl

def State.pagesOf (set : PDBSet) (s : State) : List ℕ := s.pagesInOrder.filter fun p => (s.page p).whichSet = some set

theorem clearSet_eq_ok : s.clearSet cfg set = .ok s' ↔
    ∃ u, ClearedAll cfg (s.pagesOf set) { s with fds := update s.fds set none } u ∧ s' = { u with
      pageLocations := fun key => if key.1 = set then none else u.pageLocations key
      endOfFiles := update u.endOfFiles set 0 } := by
  unfold State.clearSet
  dsimp only
  rw [bind_eq_ok]
  refine exists_congr fun u => and_congr ClearedAll.iff_eq_ok ⟨fun h => ?_, fun h => by rw [h]⟩
  cases h
  rfl

theorem RefInv.mem_pagesOf (h : RefInv s) : p ∈ s.pagesOf set ↔ ∃ i, s.allPages (set, i) = some p := by
  rw [State.pagesOf, List.mem_filter, h.mem_pagesInOrder, decide_eq_true_iff]
  constructor
  · rintro ⟨⟨key, hkey⟩, hset⟩
    obtain ⟨-, -, hset', -⟩ := h.key key p hkey
    cases hset'.symm.trans hset
    exact ⟨key.2, hkey⟩
  · rintro ⟨i, hkey⟩
    exact ⟨⟨_, hkey⟩, (h.key _ p hkey).2.2.1⟩

theorem RefInv.allPages_eq_some (h : RefInv s) {key : PDBSet × ℕ} {q : ℕ} :
    s.allPages key = some q ∧ q ∉ s.pagesOf set ↔ s.allPages key = some q ∧ key.1 ≠ set := by
  refine and_congr_right fun hkey => not_congr ?_
  rw [h.mem_pagesOf]
  constructor
  · rintro ⟨i, hk⟩
    rw [h.key_unique hk hkey]
  · rintro rfl
    exact ⟨key.2, hkey⟩

theorem Core.mem_pagesOf (h : Core cfg s) {q : ℕ} (hq : q ∈ s.constituentPages f) :
    q ∉ s.pagesOf set ↔ (s.page q).whichSet ≠ some set := by
  rw [h.ref.mem_pagesOf]
  refine not_congr ⟨fun ⟨i, hkey⟩ => (h.ref.key _ q hkey).2.2.1, fun hset => ?_⟩
  have ha : (s.page q).isAnon = false := by
    by_contra ha
    have hnone := h.ref.anon q (by simpa using ha)
    cases hset.symm.trans hnone
  obtain ⟨key, hkey⟩ := (h.mem.owned f q hq).2 ha
  cases hset.symm.trans (h.ref.key key q hkey).2.2.1
  exact ⟨key.2, hkey⟩

theorem Sane.cleared (h : Sane cfg s) (hpin : ∀ i p, s.allPages (set, i) = some p → (s.page p).pinned = true) :
    ∃ s', s.clearSet cfg set = .ok s' ∧ Cleared cfg set s s' ∧ Sane cfg (s'.abandon set) := by
  have hc := h.core
  have hclear : Clearable (s.pagesOf set) (s.abandon set) := by
    refine ⟨(nodup_pagesInOrder s).filter _, fun p hp => ?_⟩
    obtain ⟨i, hkey⟩ := hc.ref.mem_pagesOf.mp hp
    have hpp := hpin i p hkey
    obtain ⟨n, -, hn, hpage⟩ := abandon_page s set p
    obtain ⟨a, hb⟩ := hc.bytes_of_pinned h.settled (Or.inr ⟨_, hkey⟩) hpp
    rw [hpage]
    exact ⟨⟨_, hkey⟩, hn (hc.ref.key _ p hkey).2.2.1, hpp, a, hb⟩
  obtain ⟨u, hu⟩ := (hc.abandon set).removed hclear
  have hsame := hu.cleared.same
  have hrun : ClearedAll cfg (s.pagesOf set) { s with fds := update s.fds set none }
      { u with page := s.page, fds := update s.fds set none } := by
    refine hu.cleared.congr s.page (update s.fds set none) fun q => ?_
    obtain ⟨n, -, -, hq⟩ := abandon_page s set q
    rw [hq]
    exact ⟨rfl, rfl, rfl, rfl⟩
  have hall : ∀ key q, u.allPages key = some q ↔ s.allPages key = some q ∧ key.1 ≠ set :=
    fun key q => (hu.allPages key q).trans hc.ref.allPages_eq_some
  have hpage : u.page = (s.abandon set).page := by rw [hsame]
  have hcount : ∀ f, (u.constituentPages f).countP (fun q => (s.page q).pinned) = pinnedCount u f := by
    intro f
    refine List.countP_congr fun q _ => ?_
    obtain ⟨n, -, -, hq⟩ := abandon_page s set q
    rw [hpage, hq]
  let s' : State := { u with
    page := s.page, fds := update s.fds set none
    pageLocations := fun key => if key.1 = set then none else u.pageLocations key
    endOfFiles := update u.endOfFiles set 0 }
  have habandon : s'.abandon set = { u with
      fds := update u.fds set none
      pageLocations := fun key => if key.1 = set then none else u.pageLocations key
      endOfFiles := update u.endOfFiles set 0 } := by
    have hfds : u.fds = s.fds := by
      rw [hsame]
      rfl
    rw [hfds, hpage]
    rfl
  have hcore : Core cfg (s'.abandon set) := by
    rw [habandon]
    exact hu.core.closed fun key q hk => ((hall key q).mp hk).2
  refine ⟨s', ?_, ⟨rfl, fun key => ?_, fun key => ?_, ?_, fun f q => ?_, rfl, ?_, ?_, ?_, ?_, ?_, ?_⟩, hcore, ?_⟩
  · exact clearSet_eq_ok.mpr ⟨_, hrun, rfl⟩
  · refine Option.ext fun q => (hall key q).trans ?_
    by_cases hk : key.1 = set
    · simp [hk]
    · simp [hk]
  · have hloc : u.pageLocations = s.pageLocations := by
      rw [hsame]
      rfl
    exact congrArg (fun l : PDBSet × ℕ → Option PDBPageInfo => if key.1 = set then none else l key) hloc
  · have hend : u.endOfFiles = s.endOfFiles := by
      rw [hsame]
      rfl
    exact congrArg (fun l => update l set 0) hend
  · exact (hu.constituentPages f q).trans (and_congr_right fun hq => hc.mem_pagesOf hq)
  · change u.memory = s.memory
    rw [hsame]
    rfl
  · change u.files = s.files
    rw [hsame]
    rfl
  · change u.availablePositions = s.availablePositions ∧ u.lastTempPos = s.lastTempPos
    rw [hsame]
    exact ⟨rfl, rfl⟩
  · exact fun _ => hcore.mem.noAliasing
  · exact fun _ => hu.core.lru.congr rfl rfl rfl rfl hcount
  · exact fun he => hu.evictable he
  · intro q
    have hst : ((s'.abandon set).page q).status = (s.page q).status := by
      obtain ⟨n, -, -, hq⟩ := abandon_page s' set q
      rw [hq]
    rw [hst]
    exact h.settled q

inductive OffCount (cfg : Config) (f : ℕ) (pages : List ℕ) (s : State) : Prop
  | pinned : 0 < s.numPinned f → s.numPinned f ≤ pinnedCount s f → (∀ t, (f, t) ∉ s.lastUsed) →
      (s.numPinned f < pinnedCount s f ∨ ∃ q ∈ pages, q ∈ s.constituentPages f ∧
        (s.page q).bytes.map cfg.fullPage = some f ∧ (s.page q).pinned = false) → OffCount cfg f pages s
  | stamped : s.numPinned f ≤ 0 → (∀ t, (f, t) ∈ s.lastUsed → (t : ℤ) ≤ -s.numPinned f) →
      (0 < pinnedCount s f ∨ ∃ q ∈ pages, q ∈ s.constituentPages f ∧
        (s.page q).bytes.map cfg.fullPage = some f) → OffCount cfg f pages s
  | drifted : s.numPinned f < 0 → (∀ t, (f, t) ∈ s.lastUsed → (t : ℤ) < -s.numPinned f) → OffCount cfg f pages s

theorem of_mem_lruInsert {e x : ℕ × ℕ} {l : List (ℕ × ℕ)} (h : x ∈ lruInsert e l) : x = e ∨ x ∈ l := by
  induction l with
  | nil => exact Or.inl (List.mem_singleton.mp h)
  | cons y l ih =>
    unfold lruInsert at h
    split_ifs at h
    · exact List.mem_cons.mp h
    · exact Or.inr h
    · rcases List.mem_cons.mp h with rfl | h
      · exact Or.inr List.mem_cons_self
      · exact (ih h).imp_right (List.mem_cons_of_mem y)

theorem ClearedPage.elsewhere (h : ClearedPage cfg p s s') (hf : (s.page p).bytes.map cfg.fullPage ≠ some f) :
    s'.numPinned f = s.numPinned f ∧ s'.constituentPages f = s.constituentPages f ∧
      (∀ t, (f, t) ∈ s'.lastUsed → (f, t) ∈ s.lastUsed) ∧ (f ∈ s'.emptyFullPages → f ∈ s.emptyFullPages) := by
  have hne : ∀ a, (s.page p).bytes = some a → f ≠ cfg.fullPage a := by
    rintro a hb rfl
    exact hf (by rw [hb]; rfl)
  cases h with
  | @counted a hb _ _ =>
    have hfa := hne a hb
    exact ⟨update_of_ne hfa _ _, update_of_ne hfa _ _, fun _ => id, id⟩
  | @released a _ hb _ _ _ _ =>
    have hfa := hne a hb
    refine ⟨update_of_ne hfa _ _, update_of_ne hfa _ _, fun _ => id, fun he => ?_⟩
    exact (List.mem_append.mp he).resolve_right fun he => hfa (List.mem_singleton.mp he)
  | @shared a hb _ _ _ =>
    have hfa := hne a hb
    refine ⟨update_of_ne hfa _ _, update_of_ne hfa _ _, fun t ht => ?_, id⟩
    exact (of_mem_lruInsert ht).resolve_left fun he => hfa (Prod.ext_iff.mp he).1

theorem OffCount.elsewhere {pages : List ℕ} (h : ClearedPage cfg p s s') (ho : OffCount cfg f (p :: pages) s)
    (hf : (s.page p).bytes.map cfg.fullPage ≠ some f) : OffCount cfg f pages s' := by
  obtain ⟨hn, hc, hl, -⟩ := h.elsewhere hf
  have hcount : pinnedCount s' f = pinnedCount s f := by rw [pinnedCount, pinnedCount, hc, h.page]
  have hmem : ∀ q ∈ p :: pages, (s.page q).bytes.map cfg.fullPage = some f → q ∈ pages := by
    intro q hq hqf
    rcases List.mem_cons.mp hq with rfl | hq
    · exact absurd hqf hf
    · exact hq
  cases ho with
  | pinned hpos hle hentry hoff =>
    refine .pinned (by omega) (by omega) (fun t ht => hentry t (hl t ht)) ?_
    rw [hn, hcount, hc, h.page]
    refine hoff.imp_right ?_
    rintro ⟨q, hq, hqc, hqf, hqp⟩
    exact ⟨q, hmem q hq hqf, hqc, hqf, hqp⟩
  | stamped hle hentry hoff =>
    refine .stamped (by omega) (fun t ht => ?_) ?_
    · rw [hn]
      exact hentry t (hl t ht)
    · rw [hcount, hc, h.page]
      refine hoff.imp_right ?_
      rintro ⟨q, hq, hqc, hqf⟩
      exact ⟨q, hmem q hq hqf, hqc, hqf⟩
  | drifted hneg hentry =>
    refine .drifted (by omega) fun t ht => ?_
    rw [hn]
    exact hentry t (hl t ht)

theorem OffCount.rest_ne_nil {pages : List ℕ} {n : ℕ} (ho : OffCount cfg f (p :: pages) s) (hone : s.numPinned f = 1)
    (hcount : n + (if (s.page p).pinned then 1 else 0) = pinnedCount s f) :
    (∀ t, (f, t) ∉ s.lastUsed) ∧ (0 < n ∨ ∃ q ∈ pages, q ∈ (s.constituentPages f).erase p ∧
      (s.page q).bytes.map cfg.fullPage = some f) := by
  cases ho with
  | pinned hpos hle hentry hoff =>
    have hbit : (if (s.page p).pinned then 1 else 0) ≤ 1 := by split_ifs <;> omega
    refine ⟨hentry, ?_⟩
    rcases hoff with hlt | ⟨q, hq, hqc, hqf, hqp⟩
    · exact Or.inl (by omega)
    · by_cases hqe : q = p
      · subst hqe
        rw [hqp] at hcount
        exact Or.inl (by simp only [Bool.false_eq_true, if_false] at hcount; omega)
      · exact Or.inr ⟨q, (List.mem_cons.mp hq).resolve_left hqe, (List.mem_erase_of_ne hqe).mpr hqc, hqf⟩
  | stamped hle _ _ => omega
  | drifted hneg _ => omega

theorem OffCount.here {pages : List ℕ} (h : ClearedPage cfg p s s') (ho : OffCount cfg f (p :: pages) s)
    (hb : (s.page p).bytes = some a) (hf : cfg.fullPage a = f) (hfull : f ∉ s.emptyFullPages) :
    OffCount cfg f pages s' ∧ f ∉ s'.emptyFullPages := by
  subst hf
  obtain ⟨a', hb', hpc, hc⟩ := h.fullPage
  cases hb.symm.trans hb'
  have hcount := pinnedCount_erase hpc hc h.page
  have herase : s'.constituentPages (cfg.fullPage a) = (s.constituentPages (cfg.fullPage a)).erase p := by
    rw [hc, update_self]
  have hpage := h.page
  cases h with
  | @counted b hb' _ hmany =>
    cases hb.symm.trans hb'
    have hn : (s.left p (cfg.fullPage a)).numPinned (cfg.fullPage a) = s.numPinned (cfg.fullPage a) - 1 := update_self _ _ _
    refine ⟨?_, hfull⟩
    cases ho with
    | pinned hpos hle hentry hoff =>
      have hbit : (if (s.page p).pinned then 1 else 0) ≤ 1 := by split_ifs <;> omega
      refine .pinned (by omega) (by omega) hentry ?_
      rcases hoff with hlt | ⟨q, hq, hqc, hqf, hqp⟩
      · exact Or.inl (by omega)
      · by_cases hqe : q = p
        · subst hqe
          rw [hqp] at hcount
          exact Or.inl (by simp only [Bool.false_eq_true, if_false] at hcount; omega)
        · refine Or.inr ⟨q, (List.mem_cons.mp hq).resolve_left hqe, ?_, by rw [hpage]; exact hqf, by rw [hpage]; exact hqp⟩
          rw [herase]
          exact (List.mem_erase_of_ne hqe).mpr hqc
    | stamped hle hentry _ =>
      refine .drifted (by omega) fun t ht => ?_
      have := hentry t ht
      omega
    | drifted hneg hentry =>
      refine .drifted (by omega) fun t ht => ?_
      have := hentry t ht
      omega
  | @released b l hb' _ hone hnil _ =>
    cases hb.symm.trans hb'
    obtain ⟨-, hpos | ⟨q, -, hq, -⟩⟩ := ho.rest_ne_nil hone hcount
    · rw [pinnedCount, herase, hnil, List.countP_nil] at hpos
      omega
    · rw [hnil] at hq
      exact absurd hq List.not_mem_nil
  | @shared b hb' _ hone hrest =>
    cases hb.symm.trans hb'
    obtain ⟨hentry, hrest⟩ := ho.rest_ne_nil hone hcount
    refine ⟨.stamped ?_ (fun t ht => ?_) ?_, hfull⟩
    · dsimp only
      rw [update_self]
      omega
    · rcases of_mem_lruInsert ht with he | ht
      · cases he
        dsimp only
        rw [update_self]
        omega
      · exact absurd ht (hentry t)
    · rw [herase, hpage]
      exact hrest

theorem OffCount.not_lruInv (ho : OffCount cfg f [] s) (hf : f ∉ s.emptyFullPages) : ¬LruInv s := by
  intro h
  have hcount := h.count f hf
  cases ho with
  | pinned hpos _ _ hoff =>
    rcases hoff with hlt | ⟨q, hq, -⟩
    · omega
    · exact List.not_mem_nil hq
  | stamped hle _ hoff =>
    rcases hoff with hpos | ⟨q, hq, -⟩
    · omega
    · exact List.not_mem_nil hq
  | drifted hneg hentry =>
    have := hentry _ (h.entry_of_neg hf hneg)
    omega

theorem OffCount.clearedAll {pages : List ℕ} (ho : OffCount cfg f pages s) (hf : f ∉ s.emptyFullPages)
    (h : ClearedAll cfg pages s s') : OffCount cfg f [] s' ∧ f ∉ s'.emptyFullPages := by
  induction h with
  | nil => exact ⟨ho, hf⟩
  | @cons p pages s s₁ s' h₁ _ ih =>
    obtain ⟨a, hb, -⟩ := h₁.fullPage
    by_cases hpf : (s.page p).bytes.map cfg.fullPage = some f
    · have hfa : cfg.fullPage a = f := by
        rw [hb] at hpf
        exact Option.some.inj hpf
      obtain ⟨ho₁, hf₁⟩ := ho.here h₁ hb hfa hf
      exact ih ho₁ hf₁
    · obtain ⟨-, -, -, hfull⟩ := h₁.elsewhere hpf
      exact ih (ho.elsewhere h₁ hpf) fun hx => hf (hfull hx)

theorem ClearedAll.bytes {pages : List ℕ} (h : ClearedAll cfg pages s s') (hp : p ∈ pages) :
    ∃ a, (s.page p).bytes = some a := by
  induction h with
  | nil => exact absurd hp List.not_mem_nil
  | @cons q pages s s₁ s' h₁ _ ih =>
    rcases List.mem_cons.mp hp with rfl | hp
    · obtain ⟨a, hb, -⟩ := h₁.fullPage
      exact ⟨a, hb⟩
    · rw [← h₁.page]
      exact ih hp

theorem Sane.pinned_of_clears (h : Sane cfg s) (hs : Clears cfg set s) {i : ℕ} (hkey : s.allPages (set, i) = some p) :
    (s.page p).pinned = true := by
  by_contra hpin
  have hc := h.core
  obtain ⟨s', hrun, hs'⟩ := hs
  obtain ⟨u, hu, rfl⟩ := clearSet_eq_ok.mp hrun
  have hp : p ∈ s.pagesOf set := hc.ref.mem_pagesOf.mpr ⟨i, hkey⟩
  obtain ⟨a, hb⟩ := hu.bytes hp
  have hb : (s.page p).bytes = some a := hb
  have hpc := hc.mem.listed p a (Or.inr ⟨_, hkey⟩) hb
  obtain ⟨-, -, hfull⟩ := hc.mem.base hpc
  have hcount := hc.lru.count _ hfull
  have hbf : (s.page p).bytes.map cfg.fullPage = some (cfg.fullPage a) := by rw [hb]; rfl
  have ho : OffCount cfg (cfg.fullPage a) (s.pagesOf set) { s with fds := update s.fds set none } := by
    by_cases hpos : 0 < s.numPinned (cfg.fullPage a)
    · refine .pinned hpos ?_ (fun t ht => ?_) (Or.inr ⟨p, hp, hpc, hbf, by simpa using hpin⟩)
      · change s.numPinned _ ≤ (pinnedCount s _ : ℤ)
        omega
      · have := ((hc.lru.entry _ t).mp ht).2.2
        omega
    · refine .stamped (not_lt.mp hpos) (fun t ht => ?_) (Or.inr ⟨p, hp, hpc, hbf⟩)
      have := ((hc.lru.entry _ t).mp ht).2.2
      exact (by omega : (t : ℤ) ≤ -s.numPinned (cfg.fullPage a))
  obtain ⟨ho', hfull'⟩ := ho.clearedAll hfull hu
  refine ho'.not_lruInv hfull' ((hs'.lru hc.lru).congr rfl rfl rfl rfl fun _ => rfl)

inductive ClearOp
  | call (op : Op)
  | clearSet (set : PDBSet)

def clearStep (cfg : Config) : ClearOp → State → Except Fault State
  | .call op, s => step cfg op s
  | .clearSet set, s => do
    let s ← s.clearSet cfg set
    .ok (s.abandon set)

def ClearOp.Sound (cfg : Config) : ClearOp → State → Prop
  | .call op, s => op.Sound cfg s
  | .clearSet set, s => ∀ i p, s.allPages (set, i) = some p → (s.page p).pinned = true

theorem sane_of_reachable_clear {memory : ℕ → UInt8} {files : ℕ → ℕ → UInt8}
    (h : Reachable (clearStep cfg) (ClearOp.Sound cfg) (· = initialState cfg memory files) s) : Sane cfg s := by
  refine h.invariant ?_ ?_
  · rintro s rfl
    exact sane_initialState cfg memory files
  · rintro (op | set) s s' hs hop he
    · obtain ⟨ha, hf, ht⟩ := hop
      obtain ⟨hst, hc⟩ := (step_spec hs.core hs.settled ht ha hf).of_eq_ok he
      exact ⟨hc, hst.settled hs.core hs.settled⟩
    · obtain ⟨s₁, h₁, -, hs₁⟩ := hs.cleared hop
      obtain ⟨s₂, h₂, he⟩ := bind_eq_ok.mp he
      cases h₁.symm.trans h₂
      cases he
      exact hs₁

theorem clears_iff (cfg : Config) (memory : ℕ → UInt8) (files : ℕ → ℕ → UInt8) (set : PDBSet) (s : State)
    (h : Reachable (clearStep cfg) (ClearOp.Sound cfg) (· = initialState cfg memory files) s) :
    Clears cfg set s ↔ ∀ i p, s.allPages (set, i) = some p → (s.page p).pinned = true := by
  have hs := sane_of_reachable_clear h
  constructor
  · exact fun hc i p => hs.pinned_of_clears hc
  · intro hpin
    obtain ⟨s', hrun, hs', -⟩ := hs.cleared hpin
    exact ⟨s', hrun, hs'⟩

theorem reachable_clearStep {memory : ℕ → UInt8} {files : ℕ → ℕ → UInt8}
    (h : Reachable (step cfg) (Op.Sound cfg) (· = initialState cfg memory files) s) :
    Reachable (clearStep cfg) (ClearOp.Sound cfg) (· = initialState cfg memory files) s := by
  induction h with
  | start h => exact .start h
  | @step s s' op _ hop he ih => exact ih.step (i := .call op) hop he

theorem clears_sharedPage : ∃ s, s.allPages (⟨[], []⟩, 0) = some 0 ∧ s.constituentPages 4194304 = [0, 1] ∧
    (s.page 1).isAnon = true ∧ Clears smallConfig ⟨[], []⟩ s := by
  have hrun : (runAll (step smallConfig) (fun op s => op.Sound smallConfig s)
      [.getSetPage ⟨[], []⟩ 0, .freezeSize 0 1048576, .getPage 1048576] smallState).any
      (fun s => s.nextPage = 2 ∧ (s.page 0).pinned ∧ (s.page 1).pinned ∧ s.allPages (⟨[], []⟩, 0) = some 0 ∧
        s.constituentPages 4194304 = [0, 1] ∧ (s.page 1).isAnon = true) = true := by decide +kernel
  obtain ⟨s, hs, hp⟩ := (Option.any_eq_true _ _).mp hrun
  obtain ⟨hnext, hzero, hone, hkey, hshared, hanon⟩ := of_decide_eq_true hp
  have hreach : Reachable (clearStep smallConfig) (ClearOp.Sound smallConfig) (· = smallState) s :=
    reachable_clearStep (Reachable.of_runAll (fun op s h => of_decide_eq_true h) (Reachable.start rfl) hs)
  refine ⟨s, hkey, hshared, hanon, (clears_iff smallConfig (fun _ => 0) (fun _ _ => 0) _ s hreach).mpr fun i p hk => ?_⟩
  have hlt := ((sane_of_reachable_clear hreach).core.ref.key _ p hk).1
  rw [hnext] at hlt
  rcases (by omega : p = 0 ∨ p = 1) with rfl | rfl
  · exact hzero
  · exact hone

theorem not_clears_unpinned : ∃ s,
    Reachable (clearStep smallConfig) (ClearOp.Sound smallConfig) (· = smallState) s ∧
      ¬Clears smallConfig ⟨[], []⟩ s := by
  have hrun : (runAll (step smallConfig) (fun op s => op.Sound smallConfig s)
      [.getSetPage ⟨[], []⟩ 0, .unpin 0] smallState).any
      (fun s => s.allPages (⟨[], []⟩, 0) = some 0 ∧ (s.page 0).pinned = false) = true := by decide +kernel
  obtain ⟨s, hs, hp⟩ := (Option.any_eq_true _ _).mp hrun
  obtain ⟨hkey, hpin⟩ := of_decide_eq_true hp
  have hreach : Reachable (clearStep smallConfig) (ClearOp.Sound smallConfig) (· = smallState) s :=
    reachable_clearStep (Reachable.of_runAll (fun op s h => of_decide_eq_true h) (Reachable.start rfl) hs)
  refine ⟨s, hreach, fun hc => ?_⟩
  have := (sane_of_reachable_clear hreach).pinned_of_clears hc hkey
  rw [hpin] at this
  cases this

end PlinyCompute.BufferManager
