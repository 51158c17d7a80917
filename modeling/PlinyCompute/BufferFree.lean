import PlinyCompute.BufferCore

namespace PlinyCompute.BufferManager

open Function Transition

variable {cfg : Config} {s s' : State}

theorem pinnedCount_erase {p f : ℕ} (hp : p ∈ s.constituentPages f)
    (hc : s'.constituentPages = update s.constituentPages f ((s.constituentPages f).erase p))
    (hpage : s'.page = s.page) :
    pinnedCount s' f + (if (s.page p).pinned then 1 else 0) = pinnedCount s f := by
  rw [pinnedCount, pinnedCount, hc, hpage, update_self, (List.perm_cons_erase hp).countP_eq, List.countP_cons]

theorem pinnedCount_erase_ne {f g : ℕ} {l : List ℕ} (hg : g ≠ f)
    (hc : s'.constituentPages = update s.constituentPages f l) (hpage : s'.page = s.page) :
    pinnedCount s' g = pinnedCount s g := by
  rw [pinnedCount, pinnedCount, hc, hpage, update_of_ne hg]

theorem not_live_of_anon (h : Core cfg s) {p : ℕ} (href : (s.page p).refCount = 0)
    (ha : (s.page p).isAnon = true) : ¬ s.Live p := by
  rintro (hr | ⟨key, hk⟩)
  · omega
  · rw [(h.ref.key key p hk).2.1] at ha
    cases ha

theorem Core.freeLast (h : Core cfg s) {p f d : ℕ} {l : List ℕ} (ht : TickFits s f)
    (href : (s.page p).refCount = 0) (ha : (s.page p).isAnon = true) (hp : p ∈ s.constituentPages f)
    (hlast : (s.constituentPages f).erase p = []) (hd : d = if (s.page p).pinned then 1 else 0) (hl : l.Nodup)
    (hmem : ∀ y, y ∈ l ↔ y ∈ s.emptyMiniPages (s.unusedMiniPages f).2 ∧ y ∉ (s.unusedMiniPages f).1)
    (hs : s' = { s with
      constituentPages := update s.constituentPages f []
      numPinned := update s.numPinned f (s.numPinned f - d)
      lastUsed := if s.numPinned f - d < 0 then lruErase ((-(s.numPinned f - d)).toNat % 2 ^ 32) s.lastUsed
        else s.lastUsed
      emptyMiniPages := update s.emptyMiniPages (s.unusedMiniPages f).2 l
      unusedMiniPages := update s.unusedMiniPages f ([], (s.unusedMiniPages f).2)
      emptyFullPages := s.emptyFullPages ++ [f] }) : Core cfg s' := by
  have hnot := not_live_of_anon h href ha
  obtain ⟨hbase, hlt, hfull⟩ := h.mem.base hp
  have hone : s.constituentPages f = [p] := by
    have hperm := List.perm_cons_erase hp
    rw [hlast] at hperm
    exact List.perm_singleton.mp hperm
  have hcount := h.lru.count f hfull
  have hlive : ∀ q, s'.Live q → s.Live q := by
    intro q hq
    rw [hs] at hq
    exact hq
  have hentry : ∀ e, e ∈ s'.lastUsed ↔ e ∈ s.lastUsed ∧ e.1 ≠ f := by
    intro e
    rw [hs]
    dsimp only
    by_cases hneg : s.numPinned f < 0
    · have hd0 : d = 0 := by
        have hzero : pinnedCount s f = 0 := by omega
        have hp' := List.countP_eq_zero.mp hzero p hp
        rw [hd, if_neg hp']
      subst hd0
      have hz : s.numPinned f - ((0 : ℕ) : ℤ) = s.numPinned f := by omega
      rw [hz, if_pos hneg]
      exact h.lru.mem_erase_neg ht hfull hneg e
    · have hge : ¬ s.numPinned f - d < 0 := by
        have hcnt : d ≤ pinnedCount s f := by
          rw [hd, pinnedCount, hone]
          simp [List.countP_cons]
        omega
      rw [if_neg hge]
      refine ⟨fun he => ⟨he, fun hef => ?_⟩, fun he => he.1⟩
      have := (h.lru.entry e.1 e.2).mp he
      rw [hef] at this
      omega
  have hmem' : MemInv cfg s' := by
    refine h.mem.release hbase hlt hfull hl hmem ?_ ?_ (by rw [hs]) ?_ (by rw [hs]) (by rw [hs]) (by rw [hs])
      (by rw [hs])
    · intro q _
      rw [hs]
      exact ⟨rfl, rfl, rfl⟩
    · intro q b hq _
      refine ⟨hlive q hq, fun hqf => ?_⟩
      rw [hone, List.mem_singleton] at hqf
      exact hnot (hqf ▸ hlive q hq)
    · intro q _ key hk
      rw [hs]
      exact hk
  have hlru : LruInv s' := by
    refine h.lru.release ?_ hentry ?_ (by rw [hs]) (by rw [hs]) ?_
    · rw [hs]
      dsimp only
      split_ifs
      · exact h.lru.sorted.filter _
      · exact h.lru.sorted
    · intro g hg
      rw [hs]
      exact update_of_ne hg _ _
    · exact fun g hg => pinnedCount_erase_ne hg (by rw [hs]) (by rw [hs])
  have hused : ∀ e ∈ s'.lastUsed, s'.constituentPages e.1 ≠ [] := by
    intro e he
    obtain ⟨he, hef⟩ := (hentry e).mp he
    rw [hs]
    dsimp only
    rw [update_of_ne hef]
    exact h.used e he
  obtain ⟨⟨⟨h1, h2, h3, h4⟩, -, hpi, hcl, hloc⟩, -, -⟩ := h
  rw [hs] at hmem' hlru hused ⊢
  exact ⟨⟨⟨h1, h2, h3, h4⟩, hmem', hpi, hcl, hloc⟩, hlru, hused⟩

theorem Core.freeShared (h : Core cfg s) {p f a d : ℕ} (href : (s.page p).refCount = 0)
    (ha : (s.page p).isAnon = true) (hp : p ∈ s.constituentPages f) (hb : (s.page p).bytes = some a)
    (hrest : (s.constituentPages f).erase p ≠ []) (hd : d = if (s.page p).pinned then 1 else 0)
    (hs : s' = { s with
      constituentPages := update s.constituentPages f ((s.constituentPages f).erase p)
      numPinned := update s.numPinned f (s.numPinned f - d)
      unusedMiniPages := update s.unusedMiniPages f
        ((s.unusedMiniPages f).1 ++ [a], (s.unusedMiniPages f).2)
      emptyMiniPages := update s.emptyMiniPages (s.unusedMiniPages f).2
        (s.emptyMiniPages (s.unusedMiniPages f).2 ++ [a]) }) : Core cfg s' := by
  have hnot := not_live_of_anon h href ha
  obtain ⟨-, -, hfull⟩ := h.mem.base hp
  have hmem : MemInv cfg s' := by
    refine h.mem.giveBack hp hb ?_ ?_ (by rw [hs]) ?_ (by rw [hs]) (by rw [hs]) (by rw [hs])
      (by rw [hs])
    · intro q _
      rw [hs]
      exact ⟨rfl, rfl, rfl⟩
    · intro q hq
      rw [hs] at hq
      exact ⟨fun hqp => hnot (hqp ▸ hq), hq⟩
    · intro q _ key hk
      rw [hs]
      exact hk
  have hlru : LruInv s' := by
    refine h.lru.giveBack hfull (by rw [hs]) (by rw [hs]) (by rw [hs]) (by rw [hs]) ?_ fun g hg => ?_
    · rw [hd]
      exact pinnedCount_erase hp (by rw [hs]) (by rw [hs])
    · exact pinnedCount_erase_ne hg (by rw [hs]) (by rw [hs])
  have hused : ∀ e ∈ s'.lastUsed, s'.constituentPages e.1 ≠ [] := by
    intro e he
    rw [hs] at he ⊢
    dsimp only
    by_cases hef : e.1 = f
    · rw [hef, update_self]
      exact hrest
    · rw [update_of_ne hef]
      exact h.used e he
  obtain ⟨⟨⟨h1, h2, h3, h4⟩, -, hpi, hcl, hloc⟩, -, -⟩ := h
  rw [hs] at hmem hlru hused ⊢
  exact ⟨⟨⟨h1, h2, h3, h4⟩, hmem, hpi, hcl, hloc⟩, hlru, hused⟩

structure Freed (cfg : Config) (p : ℕ) (s s' : State) : Prop where
  core : Core cfg s'
  same : s' = { s with
    availablePositions := (s.recycle p).availablePositions, freeAnonPageNumbers := s'.freeAnonPageNumbers
    constituentPages := s'.constituentPages, numPinned := s'.numPinned, lastUsed := s'.lastUsed
    emptyMiniPages := s'.emptyMiniPages, unusedMiniPages := s'.unusedMiniPages
    emptyFullPages := s'.emptyFullPages }
  numPinned : ∀ g, g ∉ s'.emptyFullPages → g ∉ s.emptyFullPages ∧ (s'.numPinned g = s.numPinned g ∨
    ∃ a, (s.page p).bytes = some a ∧ g = cfg.fullPage a ∧ (s.constituentPages g).erase p ≠ [] ∧
      s'.numPinned g = s.numPinned g - if (s.page p).pinned then 1 else 0)

def FreeFits (cfg : Config) (p : ℕ) (s : State) : Prop :=
  ∀ a, (s.page p).bytes = some a → (s.constituentPages (cfg.fullPage a)).erase p = [] → TickFits s (cfg.fullPage a)

theorem freeAnonymousPage_spec (h : Core cfg s) {p : ℕ} (ht : FreeFits cfg p s) (href : (s.page p).refCount = 0)
    (ha : (s.page p).isAnon = true) (hst : ¬ ((s.page p).status = .loading ∨ (s.page p).status = .unloading))
    (hres : ∀ a, (s.page p).bytes = some a → p ∈ s.constituentPages (cfg.fullPage a)) :
    Ensures Stops (s.freeAnonymousPage cfg p) (Freed cfg p s) := by
  have hvalid : s.isRemovalStillValid p = true := by
    rw [State.isRemovalStillValid]
    simp [href, ha, not_or.mp hst]
  have hcore : Core cfg (s.recycle p) := h.congr rfl
  rw [State.freeAnonymousPage, if_neg (by simp [hvalid])]
  cases hb : (s.page p).bytes with
  | none => exact ⟨hcore, rfl, fun g hg => ⟨hg, Or.inl rfl⟩⟩
  | some a =>
    have hp := hres a hb
    have he : eraseOne p ((s.recycle p).constituentPages (cfg.fullPage a)) =
      .ok ((s.constituentPages (cfg.fullPage a)).erase p) := if_pos hp
    let d : ℕ := if (s.page p).pinned then 1 else 0
    have hd : (d : ℤ) = if ((s.recycle p).page p).pinned then 1 else 0 := by
      cases hx : (s.page p).pinned <;> simp [d, State.recycle, hx]
    have hrest : ∀ g, g ≠ cfg.fullPage a → update s.numPinned (cfg.fullPage a)
        (s.numPinned (cfg.fullPage a) - d) g = s.numPinned g := fun g hg => update_of_ne hg _ _
    dsimp only
    rw [State.leaveFullPage, he]
    change Ensures Stops (if (s.constituentPages (cfg.fullPage a)).erase p = [] then _ else _) _
    by_cases hlast : (s.constituentPages (cfg.fullPage a)).erase p = []
    · let s₃ : State := { s.recycle p with
        constituentPages := update s.constituentPages (cfg.fullPage a) []
        numPinned := update s.numPinned (cfg.fullPage a) (s.numPinned (cfg.fullPage a) - d)
        lastUsed := if s.numPinned (cfg.fullPage a) - d < 0 then
            lruErase ((-(s.numPinned (cfg.fullPage a) - d)).toNat % 2 ^ 32) s.lastUsed
          else s.lastUsed }
      have hu : s₃.unusedMiniPages = (s.recycle p).unusedMiniPages := rfl
      have hm : s₃.emptyMiniPages = (s.recycle p).emptyMiniPages := rfl
      obtain ⟨l, hclear, hl, hmem⟩ := hcore.mem.clearUnused_eq hu hm (cfg.fullPage a)
      have hfree : Core cfg { s₃ with
          emptyMiniPages := update s.emptyMiniPages (s.unusedMiniPages (cfg.fullPage a)).2 l
          unusedMiniPages := update s.unusedMiniPages (cfg.fullPage a)
            ([], (s.unusedMiniPages (cfg.fullPage a)).2)
          emptyFullPages := s.emptyFullPages ++ [cfg.fullPage a] } :=
        hcore.freeLast (ht a hb hlast) href ha hp hlast rfl hl hmem rfl
      rw [if_pos hlast, hlast, State.giveBackFullPage]
      dsimp only
      simp only [← hd, update_self]
      change Ensures Stops (s₃.clearUnused (cfg.fullPage a) >>= _) _
      rw [hclear]
      refine ⟨hfree, rfl, fun g hg => ?_⟩
      obtain ⟨hg, hga⟩ : g ∉ s.emptyFullPages ∧ g ≠ cfg.fullPage a := by
        simpa [s₃, State.recycle] using hg
      exact ⟨hg, Or.inl (hrest g hga)⟩
    · rw [if_neg hlast]
      have hfree : Core cfg (State.giveBackMiniPage (cfg.fullPage a) a { s.recycle p with
          constituentPages := update s.constituentPages (cfg.fullPage a)
            ((s.constituentPages (cfg.fullPage a)).erase p)
          numPinned := update s.numPinned (cfg.fullPage a) (s.numPinned (cfg.fullPage a) - d) }) :=
        hcore.freeShared href ha hp hb hlast rfl rfl
      rw [← hd]
      refine ⟨hfree, rfl, fun g hg => ⟨hg, ?_⟩⟩
      by_cases hga : g = cfg.fullPage a
      · refine Or.inr ⟨a, hb, hga, by rw [hga]; exact hlast, ?_⟩
        rw [hga]
        exact (update_self _ _ _).trans (congrArg (s.numPinned (cfg.fullPage a) - ·) hd)
      · exact Or.inl (hrest g hga)

end PlinyCompute.BufferManager
