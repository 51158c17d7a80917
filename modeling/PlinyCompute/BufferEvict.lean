import PlinyCompute.BufferPins

namespace PlinyCompute.BufferManager

open Function Transition

variable {cfg : Config} {s s' : State}

def Stops (e : Fault) : Prop := e ≠ .undefined

theorem takeTempPos_snd (cfg : Config) (k : ℕ) (s : State) :
    (s.takeTempPos cfg k).2 = { s with
      availablePositions := (s.takeTempPos cfg k).2.availablePositions
      lastTempPos := (s.takeTempPos cfg k).2.lastTempPos } := by
  unfold State.takeTempPos
  split <;> rfl

theorem pwrite_spec {fd addr count : ℕ} {pos : ℤ} :
    Ensures Stops (s.pwrite fd addr count pos) fun s' =>
      0 ≤ pos ∧ s' = { s with files := storeBytes s.files s.memory fd addr count pos.toNat } := by
  unfold State.pwrite
  by_cases hpos : pos < 0
  · rw [if_pos hpos]
    exact Fault.noConfusion
  · rw [if_neg hpos]
    exact ⟨by omega, rfl⟩

theorem pread_spec {fd addr count : ℕ} {pos : ℤ} :
    Ensures Stops (s.pread fd addr count pos) fun s' =>
      0 ≤ pos ∧ s' = { s with memory := fetchBytes s.files s.memory fd addr count pos.toNat } := by
  unfold State.pread
  by_cases hpos : pos < 0
  · rw [if_pos hpos]
    exact Fault.noConfusion
  · rw [if_neg hpos]
    exact ⟨by omega, rfl⟩

theorem getBytes_eq {p a : ℕ} (hb : (s.page p).bytes = some a) : s.getBytes p = .ok a := by
  rw [State.getBytes, hb]

theorem getFileDescriptor_eq {set : PDBSet} {fd : ℕ} (h : s.fds set = some fd) :
    s.getFileDescriptor (some set) = .ok fd := by
  rw [State.getFileDescriptor, Option.bind_some, h]

inductive WroteBack (cfg : Config) (s : State) (p a : ℕ) : State → Prop
  | anonymous (pos : ℤ) : (s.page p).isAnon = true → (s.page p).dirty = true →
      pos = (s.takeTempPos cfg (s.page p).location.numBytes).1 → 0 ≤ pos →
      WroteBack cfg s p a { (s.takeTempPos cfg (s.page p).location.numBytes).2 with
        page := update s.page p { s.page p with
          dirty := false, bytes := none, location := ⟨pos, (s.page p).location.numBytes⟩ }
        files := storeBytes s.files s.memory cfg.tempFileFD a
          (cfg.miniPageSize (s.page p).location.numBytes) pos.toNat }
  | other (files : ℕ → ℕ → UInt8) : ¬ ((s.page p).isAnon = true ∧ (s.page p).dirty = true) →
      ((s.page p).dirty = false ∧ files = s.files ∨ (s.page p).dirty = true ∧
        0 ≤ (s.page p).location.startPos ∧ ∃ set fd, (s.page p).whichSet = some set ∧
          s.fds set = some fd ∧ files = storeBytes s.files s.memory fd a
            (cfg.miniPageSize (s.page p).location.numBytes) (s.page p).location.startPos.toNat) →
      WroteBack cfg s p a { s with
        page := update s.page p { s.page p with dirty := false, bytes := none }
        allPages := if (s.page p).refCount = 0 then (s.eraseFromAllPages (s.page p)).allPages
          else s.allPages
        files := files }

theorem eraseFromAllPages_eq (s : State) (me : PDBPage) :
    s.eraseFromAllPages me = { s with allPages := (s.eraseFromAllPages me).allPages } := by
  unfold State.eraseFromAllPages
  split <;> rfl

theorem writeToSet_spec {p a fd : ℕ} {set : PDBSet} (hb : (s.page p).bytes = some a)
    (hset : (s.page p).whichSet = some set) (hfd : s.fds set = some fd) :
    Ensures Stops (s.writeToSet cfg p) fun s' => 0 ≤ (s.page p).location.startPos ∧
      s' = { s with
        files := storeBytes s.files s.memory fd a (cfg.miniPageSize (s.page p).location.numBytes)
          (s.page p).location.startPos.toNat } := by
  rw [State.writeToSet, hset, getFileDescriptor_eq hfd, getBytes_eq hb]
  exact pwrite_spec

theorem writeIfDirty_spec {p a : ℕ} (hb : (s.page p).bytes = some a)
    (hopen : (s.page p).dirty = true →
      ∃ set fd, (s.page p).whichSet = some set ∧ s.fds set = some fd) :
    Ensures Stops (s.writeIfDirty cfg p) fun s' => ∃ files, s' = { s with files := files } ∧
      ((s.page p).dirty = false ∧ files = s.files ∨ (s.page p).dirty = true ∧
        0 ≤ (s.page p).location.startPos ∧ ∃ set fd, (s.page p).whichSet = some set ∧
          s.fds set = some fd ∧ files = storeBytes s.files s.memory fd a
            (cfg.miniPageSize (s.page p).location.numBytes) (s.page p).location.startPos.toNat) := by
  unfold State.writeIfDirty
  by_cases hd : (s.page p).dirty = true
  · obtain ⟨set, fd, hset, hfd⟩ := hopen hd
    rw [if_pos hd]
    refine (writeToSet_spec hb hset hfd).mono ?_
    rintro s₁ ⟨hpos, rfl⟩
    exact ⟨_, rfl, Or.inr ⟨hd, hpos, set, fd, hset, hfd, rfl⟩⟩
  · rw [if_neg hd]
    exact ⟨s.files, rfl, Or.inl ⟨by simpa using hd, rfl⟩⟩

theorem writeBack_spec {p a : ℕ} (hb : (s.page p).bytes = some a)
    (hopen : (s.page p).isAnon = false → ∃ set fd, (s.page p).whichSet = some set ∧ s.fds set = some fd) :
    Ensures Stops (s.writeBack cfg p) (WroteBack cfg s p a) := by
  unfold State.writeBack
  dsimp only
  by_cases hanon : (s.page p).isAnon = true ∧ (s.page p).dirty = true
  · have hbytes : (((s.takeTempPos cfg (s.page p).location.numBytes).2.setPage p
        { s.page p with location :=
          { (s.page p).location with startPos := (s.takeTempPos cfg (s.page p).location.numBytes).1 } }).page
            p).bytes = some a := by
      simp [State.setPage, hb]
    rw [if_pos hanon, State.writeAnonymous]
    dsimp only
    rw [getBytes_eq hbytes]
    refine Ensures.bind pwrite_spec ?_
    rintro s₁ ⟨hpos, rfl⟩
    have h := WroteBack.anonymous (s := s) (p := p) (a := a) _ hanon.1 hanon.2 rfl hpos
    have hpage : (s.takeTempPos cfg (s.page p).location.numBytes).2.page = s.page := by
      rw [takeTempPos_snd]
    have hmem : (s.takeTempPos cfg (s.page p).location.numBytes).2.memory = s.memory := by
      rw [takeTempPos_snd]
    have hfiles : (s.takeTempPos cfg (s.page p).location.numBytes).2.files = s.files := by
      rw [takeTempPos_snd]
    rw [ensures_ok]
    simpa only [State.setPage, hpage, hmem, hfiles, update_self, update_idem] using h
  · have hset : (s.page p).dirty = true → (s.page p).isAnon = false := by simpa [and_comm] using hanon
    rw [if_neg hanon, State.writeSetPage, bind_assoc]
    refine (writeIfDirty_spec hb fun hd => hopen (hset hd)).bind ?_
    rintro s₁ ⟨files, rfl, hfiles⟩
    have h := WroteBack.other (s := s) (p := p) (a := a) files hanon hfiles
    by_cases href : (s.page p).refCount = 0
    · rw [if_pos href, eraseFromAllPages_eq]
      rw [if_pos href] at h
      unfold State.eraseFromAllPages at h ⊢
      split at h
      · exact h
      · exact h
    · rw [if_neg href]
      rw [if_neg href] at h
      exact h

theorem WroteBack.same {p a : ℕ} (h : WroteBack cfg s p a s') :
    s' = { s with
      page := s'.page, allPages := s'.allPages, availablePositions := s'.availablePositions
      lastTempPos := s'.lastTempPos, files := s'.files } := by
  cases h with
  | anonymous pos _ _ _ _ =>
    rw [takeTempPos_snd]
  | other files _ _ => rfl

theorem WroteBack.page {p a : ℕ} (h : WroteBack cfg s p a s') :
    ∃ pos, s'.page = update s.page p { s.page p with
      dirty := false, bytes := none, location := ⟨pos, (s.page p).location.numBytes⟩ } := by
  cases h with
  | anonymous pos _ _ _ _ => exact ⟨pos, rfl⟩
  | other files _ _ => exact ⟨(s.page p).location.startPos, rfl⟩

theorem WroteBack.allPages {p a : ℕ} (h : WroteBack cfg s p a s') (key : PDBSet × ℕ) :
    s'.allPages key = s.allPages key ∨ s'.allPages key = none ∧ (s.page p).refCount = 0 ∧
      (s.page p).whichSet = some key.1 ∧ (s.page p).pageNum = key.2 := by
  cases h with
  | anonymous pos _ _ _ _ =>
    rw [takeTempPos_snd]
    exact Or.inl rfl
  | other files _ _ =>
    dsimp only
    by_cases href : (s.page p).refCount = 0
    · rw [if_pos href, State.eraseFromAllPages]
      split
      · next set hset =>
        by_cases hk : key = (set, (s.page p).pageNum)
        · subst hk
          exact Or.inr ⟨update_self _ _ _, href, hset, rfl⟩
        · exact Or.inl (update_of_ne hk _ _)
      · exact Or.inl rfl
    · rw [if_neg href]
      exact Or.inl rfl

inductive WroteAll (cfg : Config) : List ℕ → State → State → Prop
  | nil (s : State) : WroteAll cfg [] s s
  | cons {p a : ℕ} {pages : List ℕ} {s s' s'' : State} : (s.page p).bytes = some a →
      WroteBack cfg s p a s' → WroteAll cfg pages s' s'' → WroteAll cfg (p :: pages) s s''

theorem writeAll_spec {pages : List ℕ} (hn : pages.Nodup) (hb : ∀ p ∈ pages, ∃ a, (s.page p).bytes = some a)
    (hopen : ∀ p ∈ pages, (s.page p).isAnon = false →
      ∃ set fd, (s.page p).whichSet = some set ∧ s.fds set = some fd) :
    Ensures Stops (pages.foldlM (State.writeBack cfg) s) (WroteAll cfg pages s) := by
  induction pages generalizing s with
  | nil => exact WroteAll.nil s
  | cons p pages ih =>
    obtain ⟨hp, hn⟩ := List.nodup_cons.mp hn
    obtain ⟨a, ha⟩ := hb p (by simp)
    rw [List.foldlM_cons]
    refine (writeBack_spec ha (hopen p (by simp))).bind ?_
    intro s₁ h₁
    obtain ⟨pos, hpage⟩ := h₁.page
    have hfds : s₁.fds = s.fds := by rw [h₁.same]
    have hother : ∀ q ∈ pages, s₁.page q = s.page q := by
      intro q hq
      have hqp : q ≠ p := fun heq => hp (heq ▸ hq)
      rw [hpage, update_of_ne hqp]
    refine (ih hn ?_ ?_).mono fun s₂ h₂ => WroteAll.cons ha h₁ h₂
    · intro q hq
      rw [hother q hq]
      exact hb q (List.mem_cons_of_mem p hq)
    · intro q hq
      rw [hother q hq, hfds]
      exact hopen q (List.mem_cons_of_mem p hq)

theorem WroteAll.same {pages : List ℕ} (h : WroteAll cfg pages s s') :
    s' = { s with
      page := s'.page, allPages := s'.allPages, availablePositions := s'.availablePositions
      lastTempPos := s'.lastTempPos, files := s'.files } := by
  induction h with
  | nil s => rfl
  | cons _ h₁ _ ih =>
    rw [h₁.same] at ih
    exact ih

theorem WroteAll.page_other {pages : List ℕ} (h : WroteAll cfg pages s s') {q : ℕ} (hq : q ∉ pages) :
    s'.page q = s.page q := by
  induction h with
  | nil s => rfl
  | cons _ h₁ _ ih =>
    obtain ⟨pos, hpage⟩ := h₁.page
    rw [List.mem_cons, not_or] at hq
    rw [ih hq.2, hpage, update_of_ne hq.1]

theorem WroteAll.page_done {pages : List ℕ} (h : WroteAll cfg pages s s') (hn : pages.Nodup) {q : ℕ}
    (hq : q ∈ pages) : ∃ pos, s'.page q = { s.page q with
      dirty := false, bytes := none, location := ⟨pos, (s.page q).location.numBytes⟩ } := by
  induction h with
  | nil s => simp at hq
  | @cons p a pages s s₁ s₂ _ h₁ h₂ ih =>
    obtain ⟨hp, hn⟩ := List.nodup_cons.mp hn
    obtain ⟨pos, hpage⟩ := h₁.page
    rcases List.mem_cons.mp hq with rfl | hq
    · exact ⟨pos, by rw [h₂.page_other hp, hpage, update_self]⟩
    · have hqp : q ≠ p := fun heq => hp (heq ▸ hq)
      obtain ⟨pos', h'⟩ := ih hn hq
      rw [hpage, update_of_ne hqp] at h'
      exact ⟨pos', h'⟩

theorem WroteAll.allPages {pages : List ℕ} (h : WroteAll cfg pages s s') (hn : pages.Nodup)
    (key : PDBSet × ℕ) :
    s'.allPages key = s.allPages key ∨ s'.allPages key = none ∧ ∃ p ∈ pages, (s.page p).refCount = 0 ∧
      (s.page p).whichSet = some key.1 ∧ (s.page p).pageNum = key.2 := by
  induction h with
  | nil s => exact Or.inl rfl
  | @cons p a pages s s₁ s₂ _ h₁ h₂ ih =>
    obtain ⟨hp, hn⟩ := List.nodup_cons.mp hn
    obtain ⟨pos, hpage⟩ := h₁.page
    rcases ih hn with heq | ⟨hnone, q, hq, hrest⟩
    · rcases h₁.allPages key with heq' | ⟨hnone, hrest⟩
      · exact Or.inl (heq.trans heq')
      · exact Or.inr ⟨heq.trans hnone, p, by simp, hrest⟩
    · have hqp : q ≠ p := fun heq => hp (heq ▸ hq)
      rw [hpage, update_of_ne hqp] at hrest
      exact Or.inr ⟨hnone, q, List.mem_cons_of_mem p hq, hrest⟩

structure Base (cfg : Config) (s : State) : Prop where
  ref : RefInv s
  mem : MemInv cfg s
  pins : ∀ p, s.Live p → (s.page p).status ≠ .loading → (s.page p).pinned = true →
    (s.page p).bytes ≠ none
  classes : ∀ p, s.Live p → (s.page p).location.numBytes ≤ cfg.logOfPageSize
  locations : ∀ key info, s.pageLocations key = some info → info.numBytes ≤ cfg.logOfPageSize

structure Core (cfg : Config) (s : State) : Prop extends Base cfg s where
  lru : LruInv s
  used : ∀ e ∈ s.lastUsed, s.constituentPages e.1 ≠ []

theorem Core.opened (h : Core cfg s) {f p : ℕ} (hp : p ∈ s.constituentPages f)
    (ha : (s.page p).isAnon = false) : ∃ set fd, (s.page p).whichSet = some set ∧ s.fds set = some fd := by
  obtain ⟨key, hk⟩ := (h.mem.owned f p hp).2 ha
  obtain ⟨fd, hfd⟩ := h.ref.opened key p hk
  exact ⟨key.1, fd, (h.ref.key key p hk).2.2.1, hfd⟩

def unloading (s : State) (f : ℕ) (rest : List (ℕ × ℕ)) (l : List ℕ) : State :=
  { s.setStatuses (s.constituentPages f) .unloading with
    lastUsed := rest
    emptyMiniPages := update s.emptyMiniPages (s.unusedMiniPages f).2 l
    unusedMiniPages := update s.unusedMiniPages f ([], (s.unusedMiniPages f).2) }

inductive Evicted (cfg : Config) (s : State) (f : ℕ) : State → Prop
  | mk (t : ℕ) (rest : List (ℕ × ℕ)) (l : List ℕ) (s₁ : State) : s.lastUsed = (f, t) :: rest → l.Nodup →
      (∀ y, y ∈ l ↔ y ∈ s.emptyMiniPages (s.unusedMiniPages f).2 ∧ y ∉ (s.unusedMiniPages f).1) →
      WroteAll cfg (s.constituentPages f) (unloading s f rest l) s₁ →
      Evicted cfg s f { s₁.setStatuses (s.constituentPages f) .notLoaded with
        constituentPages := update s.constituentPages f []
        emptyFullPages := s.emptyFullPages ++ [f]
        numPinned := update s.numPinned f 0 }

theorem evict_spec (h : Core cfg s) : Ensures Stops (s.evict cfg) fun s' => ∃ f, Evicted cfg s f s' := by
  unfold State.evict
  cases hlast : s.lastUsed with
  | nil => exact Fault.noConfusion
  | cons e rest =>
    obtain ⟨f, t⟩ := e
    let s₀ := State.setStatuses (s.constituentPages f) .unloading { s with lastUsed := rest }
    have hu : s₀.unusedMiniPages = s.unusedMiniPages := rfl
    have hm : s₀.emptyMiniPages = s.emptyMiniPages := rfl
    obtain ⟨l, he, hl, hiff⟩ := h.mem.clearUnused_eq hu hm f
    dsimp only
    rw [he]
    have hpage : ∀ p ∈ s.constituentPages f,
        (unloading s f rest l).page p = { s.page p with status := .unloading } := fun p hp => if_pos hp
    have hall : Ensures Stops ((s.constituentPages f).foldlM (State.writeBack cfg) (unloading s f rest l))
        (WroteAll cfg (s.constituentPages f) (unloading s f rest l)) := by
      apply writeAll_spec (h.mem.nodup f)
      · intro p hp
        obtain ⟨a, ha, -⟩ := h.mem.resident f p hp
        rw [hpage p hp]
        exact ⟨a, ha⟩
      · intro p hp ha
        rw [hpage p hp] at ha ⊢
        exact h.opened hp ha
    refine hall.bind ?_
    intro s₁ h₁
    refine ⟨f, ?_⟩
    have hc : s₁.constituentPages = s.constituentPages := by rw [h₁.same]; rfl
    have hn : s₁.numPinned = s.numPinned := by rw [h₁.same]; rfl
    have hf : s₁.emptyFullPages = s.emptyFullPages := by rw [h₁.same]; rfl
    simpa only [State.setStatuses, hc, hn, hf] using Evicted.mk t rest l s₁ hlast hl hiff h₁

namespace Evicted

variable {f : ℕ}

theorem same (h : Evicted cfg s f s') : s' = { s with
    page := s'.page, allPages := s'.allPages, availablePositions := s'.availablePositions
    lastTempPos := s'.lastTempPos, files := s'.files, lastUsed := s'.lastUsed
    emptyMiniPages := s'.emptyMiniPages
    unusedMiniPages := update s.unusedMiniPages f ([], (s.unusedMiniPages f).2)
    constituentPages := update s.constituentPages f []
    emptyFullPages := s.emptyFullPages ++ [f], numPinned := update s.numPinned f 0 } := by
  obtain ⟨t, rest, l, s₁, -, -, -, h₁⟩ := h
  rw [State.setStatuses, h₁.same]
  rfl

theorem page_other (h : Evicted cfg s f s') {q : ℕ} (hq : q ∉ s.constituentPages f) :
    s'.page q = s.page q := by
  obtain ⟨t, rest, l, s₁, -, -, -, h₁⟩ := h
  have h₂ : (unloading s f rest l).page q = s.page q := if_neg hq
  rw [← h₂, ← h₁.page_other hq]
  exact if_neg hq

theorem page_done (h : Evicted cfg s f s') (hn : (s.constituentPages f).Nodup) {q : ℕ}
    (hq : q ∈ s.constituentPages f) : ∃ pos, s'.page q = { s.page q with
      status := .notLoaded, dirty := false, bytes := none
      location := ⟨pos, (s.page q).location.numBytes⟩ } := by
  obtain ⟨t, rest, l, s₁, -, -, -, h₁⟩ := h
  have h₂ : (unloading s f rest l).page q = { s.page q with status := .unloading } := if_pos hq
  obtain ⟨pos, h₃⟩ := h₁.page_done hn hq
  rw [h₂] at h₃
  refine ⟨pos, (if_pos hq).trans ?_⟩
  rw [h₃]

theorem allPages (h : Evicted cfg s f s') (hc : Core cfg s) (key : PDBSet × ℕ) :
    s'.allPages key = s.allPages key ∨ s'.allPages key = none ∧
      ∃ p ∈ s.constituentPages f, (s.page p).refCount = 0 ∧ s.allPages key = some p := by
  obtain ⟨t, rest, l, s₁, -, -, -, h₁⟩ := h
  rcases h₁.allPages (hc.mem.nodup f) key with heq | ⟨hnone, p, hp, href, hset, hnum⟩
  · exact Or.inl heq
  · have h₂ : (unloading s f rest l).page p = { s.page p with status := .unloading } := if_pos hp
    rw [h₂] at href hset hnum
    refine Or.inr ⟨hnone, p, hp, href, ?_⟩
    have ha : (s.page p).isAnon = false := by
      cases hx : (s.page p).isAnon with
      | false => rfl
      | true => simp [hc.ref.anon p hx] at hset
    obtain ⟨key', hk⟩ := (hc.mem.owned f p hp).2 ha
    obtain ⟨-, -, hset', hnum'⟩ := hc.ref.key key' p hk
    have hkey : key = key' := by
      refine Prod.ext ?_ ?_
      · exact Option.some.inj (hset.symm.trans hset')
      · exact hnum.symm.trans hnum'
    rw [hkey]
    exact hk

theorem live (h : Evicted cfg s f s') (hc : Core cfg s) {q : ℕ} (hq : s'.Live q) : s.Live q := by
  rcases hq with href | ⟨key, hk⟩
  · refine Or.inl ?_
    by_cases hq : q ∈ s.constituentPages f
    · obtain ⟨pos, hp⟩ := h.page_done (hc.mem.nodup f) hq
      rw [hp] at href
      exact href
    · rw [h.page_other hq] at href
      exact href
  · rcases h.allPages hc key with heq | ⟨hnone, -⟩
    · exact Or.inr ⟨key, heq ▸ hk⟩
    · rw [hnone] at hk
      cases hk

theorem page_kept (h : Evicted cfg s f s') (hc : Core cfg s) (q : ℕ) :
    (s'.page q).refCount = (s.page q).refCount ∧ (s'.page q).isAnon = (s.page q).isAnon ∧
      (s'.page q).whichSet = (s.page q).whichSet ∧ (s'.page q).pageNum = (s.page q).pageNum ∧
      (s'.page q).pinned = (s.page q).pinned ∧ (s'.page q).sizeFrozen = (s.page q).sizeFrozen ∧
      (s'.page q).location.numBytes = (s.page q).location.numBytes := by
  by_cases hq : q ∈ s.constituentPages f
  · obtain ⟨pos, hp⟩ := h.page_done (hc.mem.nodup f) hq
    rw [hp]
    exact ⟨rfl, rfl, rfl, rfl, rfl, rfl, rfl⟩
  · rw [h.page_other hq]
    exact ⟨rfl, rfl, rfl, rfl, rfl, rfl, rfl⟩

theorem entry (h : Evicted cfg s f s') : ∃ t, s.lastUsed = (f, t) :: s'.lastUsed := by
  obtain ⟨t, rest, l, s₁, hlast, -, -, h₁⟩ := h
  refine ⟨t, ?_⟩
  rw [State.setStatuses, h₁.same]
  exact hlast

theorem mini_subset (h : Evicted cfg s f s') {k a : ℕ} (ha : a ∈ s'.emptyMiniPages k) :
    a ∈ s.emptyMiniPages k := by
  obtain ⟨t, rest, l, s₁, -, -, hiff, h₁⟩ := h
  rw [State.setStatuses, h₁.same] at ha
  change a ∈ update s.emptyMiniPages (s.unusedMiniPages f).2 l k at ha
  by_cases hk : k = (s.unusedMiniPages f).2
  · rw [hk, update_self, hiff] at ha
    rw [hk]
    exact ha.1
  · rw [update_of_ne hk] at ha
    exact ha

theorem not_pinned (h : Evicted cfg s f s') (hc : Core cfg s) {q : ℕ} (hq : q ∈ s.constituentPages f) :
    (s.page q).pinned = false := by
  obtain ⟨t, ht⟩ := h.entry
  have hmem : (f, t) ∈ s.lastUsed := by simp [ht]
  obtain ⟨hf, hpos, hnum⟩ := (hc.lru.entry f t).mp hmem
  have hcount := hc.lru.count f hf
  rw [hnum] at hcount
  have hzero : pinnedCount s f = 0 := by omega
  have hq' := List.countP_eq_zero.mp hzero q hq
  simpa using hq'

theorem refInv (h : Evicted cfg s f s') (hc : Core cfg s) : RefInv s' := by
  have hkeep := h.page_kept hc
  have hfds : s'.fds = s.fds := by rw [h.same]
  have hnext : s'.nextPage = s.nextPage := by rw [h.same]
  have hall : ∀ key p, s'.allPages key = some p → s.allPages key = some p := by
    intro key p hk
    rcases h.allPages hc key with heq | ⟨hnone, -⟩
    · exact heq ▸ hk
    · rw [hnone] at hk
      cases hk
  refine ⟨fun key p hk => ?_, fun p href => ?_, fun p ha => ?_, fun key p hk => ?_⟩
  · rw [hnext, (hkeep p).2.1, (hkeep p).2.2.1, (hkeep p).2.2.2.1]
    exact hc.ref.key key p (hall key p hk)
  · rw [(hkeep p).1] at href
    rw [hnext, (hkeep p).2.1]
    obtain ⟨hlt, hkey⟩ := hc.ref.held p href
    refine ⟨hlt, fun ha => ?_⟩
    obtain ⟨key, hk⟩ := hkey ha
    refine ⟨key, ?_⟩
    rcases h.allPages hc key with heq | ⟨-, q, -, hq, hk'⟩
    · rw [heq, hk]
    · cases hk.symm.trans hk'
      omega
  · rw [(hkeep p).2.1] at ha
    rw [(hkeep p).2.2.1]
    exact hc.ref.anon p ha
  · rw [hfds]
    exact hc.ref.opened key p (hall key p hk)

theorem memInv (h : Evicted cfg s f s') (hc : Core cfg s) : MemInv cfg s' := by
  obtain ⟨t, ht⟩ := h.entry
  have hmem : (f, t) ∈ s.lastUsed := by simp [ht]
  obtain ⟨p, hp⟩ := List.exists_mem_of_ne_nil _ (hc.used (f, t) hmem)
  obtain ⟨hbase, hlt, hfull⟩ := hc.mem.base hp
  have hother := @page_other _ _ _ _ h
  have hlive := @live _ _ _ _ h hc
  have hdone := @page_done _ _ _ _ h (hc.mem.nodup f)
  have hall := h.allPages hc
  have hsame := h.same
  obtain ⟨t, rest, l, s₁, -, hl, hiff, h₁⟩ := h
  refine hc.mem.release hbase hlt hfull hl hiff ?_ ?_ (by rw [hsame]) ?_ (by rw [hsame]) (by rw [hsame]) ?_
    (by rw [hsame])
  · intro q hq
    rw [hother hq]
    exact ⟨rfl, rfl, rfl⟩
  · intro q a hq hb
    refine ⟨hlive hq, fun hqf => ?_⟩
    obtain ⟨pos, hpage⟩ := hdone hqf
    rw [hpage] at hb
    cases hb
  · intro q hq key hk
    rcases hall key with heq | ⟨-, p', hp', -, hk'⟩
    · rw [heq, hk]
    · cases hk.symm.trans hk'
      exact absurd hp' hq
  · rw [State.setStatuses, h₁.same]
    rfl

theorem lruInv (h : Evicted cfg s f s') (hc : Core cfg s) : LruInv s' := by
  obtain ⟨t, ht⟩ := h.entry
  refine hc.lru.evict ht rfl (by rw [h.same]) (by rw [h.same]) (by rw [h.same]) fun g hg => ?_
  have hcg : s'.constituentPages g = s.constituentPages g := by rw [h.same]; exact update_of_ne hg _ _
  rw [pinnedCount, pinnedCount, hcg]
  apply List.countP_congr
  intro q _
  rw [(h.page_kept hc q).2.2.2.2.1]

theorem core (h : Evicted cfg s f s') (hc : Core cfg s) : Core cfg s' := by
  have hlru := h.lruInv hc
  refine ⟨⟨h.refInv hc, h.memInv hc, fun p hp hs hpin => ?_, fun p hp => ?_, ?_⟩, hlru, fun e he => ?_⟩
  · have hpf : p ∉ s.constituentPages f := by
      intro hpf
      rw [(h.page_kept hc p).2.2.2.2.1, h.not_pinned hc hpf] at hpin
      cases hpin
    rw [h.page_other hpf] at hs hpin ⊢
    exact hc.pins p (h.live hc hp) hs hpin
  · rw [(h.page_kept hc p).2.2.2.2.2.2]
    exact hc.classes p (h.live hc hp)
  · rw [h.same]
    exact hc.locations
  · obtain ⟨t, ht⟩ := h.entry
    have hef : e.1 ∉ s'.emptyFullPages := ((hlru.entry e.1 e.2).mp he).1
    have hne : e.1 ≠ f := by
      intro heq
      rw [h.same] at hef
      exact hef (by simp [heq])
    have hcg : s'.constituentPages e.1 = s.constituentPages e.1 := by rw [h.same]; exact update_of_ne hne _ _
    rw [hcg]
    exact hc.used e (by rw [ht]; exact List.mem_cons_of_mem _ he)

end Evicted

end PlinyCompute.BufferManager
