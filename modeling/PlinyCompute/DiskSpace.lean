import PlinyCompute.BufferAliasing
import PlinyCompute.Tiling

namespace PlinyCompute.BufferManager

open Function Tiling Transition

variable {cfg : Config} {s s' : State} {once : Prop}

def State.tempExtent (cfg : Config) (s : State) : ℕ ⊕ ℕ × ℕ → Option (ℤ × ℕ)
  | .inl p =>
    let me := s.page p
    if me.isAnon = true ∧ 0 < me.refCount ∧ me.location.startPos ≠ -1 then
      some (me.location.startPos, cfg.miniPageSize me.location.numBytes)
    else none
  | .inr (k, j) => (s.availablePositions k)[j]?.map (·, cfg.miniPageSize k)

def State.setExtent (cfg : Config) (s : State) (set : PDBSet) (i : ℕ) : Option (ℤ × ℕ) :=
  (s.pageLocations (set, i)).map fun info => (info.startPos, cfg.miniPageSize info.numBytes)

structure DiskTiled (cfg : Config) (s : State) : Prop where
  sets : ∀ set, Tiles (s.setExtent cfg set) (s.endOfFiles set)
  temp : Tiles (s.tempExtent cfg) s.lastTempPos

def State.repinClass (s : State) (p : ℕ) : Option ℕ :=
  let me := s.page p
  if me.status = .loading ∨ me.status = .unloading then none
  else if me.pinned then none
  else if me.bytes ≠ none then none
  else some me.location.numBytes

def Op.neededClass (cfg : Config) (s : State) : Op → Option ℕ
  | .getPage maxBytes => (getLogPageSize cfg maxBytes).toOption
  | .getSetPage set i =>
    match s.allPages (set, i) with
    | some p => s.repinClass p
    | none => some ((s.pageLocations (set, i)).elim cfg.logOfPageSize PDBPageInfo.numBytes)
  | .repin p => s.repinClass p
  | _ => none

def State.EvictsOnce (s : State) : Prop :=
  ∀ e ∈ s.lastUsed.head?, ∀ p ∈ s.constituentPages e.1, (s.page p).isAnon = true → (s.page p).dirty = true →
    (s.page p).location.startPos = -1

def Op.StoresOnce (cfg : Config) (op : Op) (s : State) : Prop :=
  ∀ k ∈ op.neededClass cfg s, s.emptyMiniPages k = [] → s.emptyFullPages = [] → s.EvictsOnce

structure Listed (cfg : Config) (s : State) : Prop where
  nodup : ∀ f, (s.constituentPages f).Nodup
  resident : ∀ f, ∀ p ∈ s.constituentPages f, ∃ a, (s.page p).bytes = some a ∧ cfg.fullPage a = f
  held : ∀ f, ∀ p ∈ s.constituentPages f, p < s.nextPage ∧ ((s.page p).isAnon = true → 0 < (s.page p).refCount)

structure PDBPage.Fixed (me : PDBPage) : Prop where
  unpinned : me.pinned = false → me.sizeFrozen = true
  stored : me.location.startPos ≠ -1 → me.sizeFrozen = true ∨ me.pinned = true ∧ me.bytes = none

structure DiskInv (cfg : Config) (once : Prop) (s : State) : Prop extends Listed cfg s where
  sets : ∀ set, Tiles (s.setExtent cfg set) (s.endOfFiles set)
  temp : once → Tiles (s.tempExtent cfg) s.lastTempPos
  fresh : ∀ p, s.nextPage ≤ p → (s.page p).refCount = 0
  keyed : ∀ key p, s.allPages key = some p → p < s.nextPage ∧ (s.page p).isAnon = false
  fixed : ∀ p, 0 < (s.page p).refCount → (s.page p).isAnon = true → (s.page p).Fixed

def Any (_ : Fault) : Prop := True

theorem getBytes_any {p : ℕ} : Ensures Any (s.getBytes p) fun a => (s.page p).bytes = some a := by
  unfold State.getBytes
  cases (s.page p).bytes with
  | none => exact trivial
  | some a => rfl

theorem getFileDescriptor_any {set : Option PDBSet} :
    Ensures Any (s.getFileDescriptor set) fun fd => ∃ set', set = some set' ∧ s.fds set' = some fd := by
  unfold State.getFileDescriptor
  cases set with
  | none => exact trivial
  | some set =>
    cases hfd : s.fds set with
    | none =>
      simp only [Option.bind_some, hfd]
      exact trivial
    | some fd =>
      simp only [Option.bind_some, hfd]
      exact ⟨set, rfl, hfd⟩

theorem any_of_stops {α : Type} {x : Except Fault α} {post : α → Prop} (h : Ensures Stops x post) : Ensures Any x post := by
  cases x with
  | error e => exact trivial
  | ok a => exact h

theorem writeBack_any {p a : ℕ} (hb : (s.page p).bytes = some a) :
    Ensures Any (s.writeBack cfg p) (WroteBack cfg s p a) := by
  by_cases hopen : (s.page p).isAnon = false → ∃ set fd, (s.page p).whichSet = some set ∧ s.fds set = some fd
  · exact any_of_stops (writeBack_spec hb hopen)
  · obtain ⟨ha, hnone⟩ := Classical.not_imp.mp hopen
    unfold State.writeBack
    dsimp only
    rw [if_neg (by simp [ha]), State.writeSetPage, bind_assoc]
    by_cases hd : (s.page p).dirty = true
    · -- without a file the page cannot be written
      have hfail : Ensures Any (s.writeIfDirty cfg p) fun _ => False := by
        rw [State.writeIfDirty, if_pos hd, State.writeToSet]
        refine getFileDescriptor_any.bind ?_
        rintro fd ⟨set, hset, hfd⟩
        exact absurd ⟨set, fd, hset, hfd⟩ hnone
      exact hfail.bind fun _ hx => hx.elim
    · have hother := @WroteBack.other cfg s p a s.files (by simp [ha]) (Or.inl ⟨by simpa using hd, rfl⟩)
      rw [State.writeIfDirty, if_neg hd, ok_bind]
      by_cases href : (s.page p).refCount = 0
      · rw [if_pos href] at hother ⊢
        rw [eraseFromAllPages_eq]
        exact hother
      · rw [if_neg href] at hother ⊢
        exact hother

theorem writeAll_any {pages : List ℕ} (hn : pages.Nodup) (hb : ∀ p ∈ pages, ∃ a, (s.page p).bytes = some a) :
    Ensures Any (pages.foldlM (State.writeBack cfg) s) (WroteAll cfg pages s) := by
  induction pages generalizing s with
  | nil => exact WroteAll.nil s
  | cons p pages ih =>
    obtain ⟨hp, hn⟩ := List.nodup_cons.mp hn
    obtain ⟨a, ha⟩ := hb p List.mem_cons_self
    rw [List.foldlM_cons]
    refine (writeBack_any ha).bind fun s₁ h₁ => ?_
    obtain ⟨pos, hpage⟩ := h₁.page
    refine (ih hn fun q hq => ?_).mono fun s₂ h₂ => WroteAll.cons ha h₁ h₂
    have hqp : q ≠ p := fun heq => hp (heq ▸ hq)
    rw [hpage, update_of_ne hqp]
    exact hb q (List.mem_cons_of_mem p hq)

theorem tempExtent_none {p : ℕ}
    (h : (s.page p).isAnon = true → 0 < (s.page p).refCount → (s.page p).location.startPos = -1) :
    s.tempExtent cfg (.inl p) = none := by
  apply if_neg
  rintro ⟨ha, href, hpos⟩
  exact hpos (h ha href)

theorem tempExtent_some {p : ℕ} (ha : (s.page p).isAnon = true) (href : 0 < (s.page p).refCount)
    (hpos : (s.page p).location.startPos ≠ -1) : s.tempExtent cfg (.inl p) =
      some ((s.page p).location.startPos, cfg.miniPageSize (s.page p).location.numBytes) :=
  if_pos ⟨ha, href, hpos⟩

theorem tempExtent_page {p q : ℕ} (h : (s'.page q).isAnon = (s.page p).isAnon ∧
    (0 < (s'.page q).refCount ↔ 0 < (s.page p).refCount) ∧ (s'.page q).location = (s.page p).location) :
    s'.tempExtent cfg (.inl q) = s.tempExtent cfg (.inl p) := by
  unfold State.tempExtent
  dsimp only
  rw [h.1, h.2.2]
  simp only [h.2.1]

theorem WroteBack.temp {p a : ℕ} (h : WroteBack cfg s p a s')
    (hheld : (s.page p).isAnon = true → 0 < (s.page p).refCount)
    (honce : (s.page p).isAnon = true → (s.page p).dirty = true → (s.page p).location.startPos = -1)
    (ht : Tiles (s.tempExtent cfg) s.lastTempPos) : Tiles (s'.tempExtent cfg) s'.lastTempPos := by
  cases h with
  | anonymous pos ha hd hpos h0 =>
    have hnone : s.tempExtent cfg (.inl p) = none := tempExtent_none fun _ _ => honce ha hd
    have hsome {s₁ : State} (h₁ : s₁.page = update s.page p { s.page p with
        dirty := false, bytes := none, location := ⟨pos, (s.page p).location.numBytes⟩ }) :
        s₁.tempExtent cfg (.inl p) = some (pos, cfg.miniPageSize (s.page p).location.numBytes) := by
      have hp : s₁.page p = { s.page p with
          dirty := false, bytes := none, location := ⟨pos, (s.page p).location.numBytes⟩ } := by
        rw [h₁, update_self]
      have hne : pos ≠ -1 := by omega
      rw [tempExtent_some] <;> rw [hp]
      · exact ha
      · exact hheld ha
      · exact hne
    have hother {s₁ : State} (h₁ : s₁.page = update s.page p { s.page p with
        dirty := false, bytes := none, location := ⟨pos, (s.page p).location.numBytes⟩ }) (q : ℕ) (hq : q ≠ p) :
        s₁.tempExtent cfg (.inl q) = s.tempExtent cfg (.inl q) := by
      apply tempExtent_page
      rw [h₁, update_of_ne hq]
      exact ⟨rfl, Iff.rfl, rfl⟩
    unfold State.takeTempPos at hpos ⊢
    cases hlast : (s.availablePositions (s.page p).location.numBytes).getLast? with
    | none =>
      rw [hlast] at hpos
      dsimp only at hpos ⊢
      apply ht.extend hnone
      · rw [hsome rfl, hpos]
      · rintro (q | ⟨k, j⟩) ho
        · exact hother rfl q fun hq => ho (hq ▸ rfl)
        · rfl
    | some pos' =>
      rw [hlast] at hpos
      dsimp only at hpos ⊢
      subst hpos
      obtain ⟨l, hl⟩ := List.getLast?_eq_some_iff.mp hlast
      have hinr : s.tempExtent cfg (.inr ((s.page p).location.numBytes, l.length)) =
          some (pos, cfg.miniPageSize (s.page p).location.numBytes) := by
        simp [State.tempExtent, hl]
      refine ht.move (i := .inr ((s.page p).location.numBytes, l.length)) hnone ?_ ?_ ?_
      · rw [hsome rfl, hinr]
      · simp [State.tempExtent, hl]
      · rintro (q | ⟨k, j⟩) hi hj
        · exact hother rfl q fun hq => hj (hq ▸ rfl)
        · unfold State.tempExtent
          dsimp only
          by_cases hk : k = (s.page p).location.numBytes
          · subst hk
            rw [update_self, hl, List.dropLast_concat]
            have hne : j ≠ l.length := fun hjl => hi (hjl ▸ rfl)
            rw [List.getElem?_append]
            by_cases hlt : j < l.length
            · rw [if_pos hlt]
            · have hge : 1 ≤ j - l.length := by omega
              rw [if_neg hlt, List.getElem?_eq_none (by omega), List.getElem?_eq_none (by simpa using hge)]
          · rw [update_of_ne hk]
  | other files _ _ =>
    refine ht.congr ?_
    rintro (q | ⟨k, j⟩)
    · apply tempExtent_page
      by_cases hq : q = p
      · subst hq
        dsimp only
        rw [update_self]
        exact ⟨rfl, Iff.rfl, rfl⟩
      · dsimp only
        rw [update_of_ne hq]
        exact ⟨rfl, Iff.rfl, rfl⟩
    · rfl

theorem WroteAll.temp {pages : List ℕ} (h : WroteAll cfg pages s s') (hn : pages.Nodup)
    (hheld : ∀ p ∈ pages, (s.page p).isAnon = true → 0 < (s.page p).refCount)
    (honce : ∀ p ∈ pages, (s.page p).isAnon = true → (s.page p).dirty = true → (s.page p).location.startPos = -1)
    (ht : Tiles (s.tempExtent cfg) s.lastTempPos) : Tiles (s'.tempExtent cfg) s'.lastTempPos := by
  induction h with
  | nil s => exact ht
  | @cons p a pages s s₁ s₂ _ h₁ _ ih =>
    obtain ⟨hp, hn⟩ := List.nodup_cons.mp hn
    obtain ⟨pos, hpage⟩ := h₁.page
    have hother : ∀ q ∈ pages, s₁.page q = s.page q := by
      intro q hq
      have hqp : q ≠ p := fun heq => hp (heq ▸ hq)
      rw [hpage, update_of_ne hqp]
    apply ih hn
    · intro q hq
      rw [hother q hq]
      exact hheld q (List.mem_cons_of_mem p hq)
    · intro q hq
      rw [hother q hq]
      exact honce q (List.mem_cons_of_mem p hq)
    · exact h₁.temp (hheld p List.mem_cons_self) (honce p List.mem_cons_self) ht

theorem clearUnused_any {f : ℕ} : Ensures Any (s.clearUnused f) fun s' =>
    ∃ minis unused, s' = { s with emptyMiniPages := minis, unusedMiniPages := unused } := by
  unfold State.clearUnused
  dsimp only
  cases eraseEach (s.unusedMiniPages f).1 (s.emptyMiniPages (s.unusedMiniPages f).2) with
  | error e => exact trivial
  | ok l => exact ⟨_, _, rfl⟩

structure Spared (s s' : State) : Prop where
  nextPage : s'.nextPage = s.nextPage
  outside : ∀ p, (s.page p).bytes = none → s'.page p = s.page p
  status : ∀ p, s'.page p = s.page p ∨ (s'.page p).status = .notLoaded
  fds : s'.fds = s.fds

theorem Spared.refl (s : State) : Spared s s := ⟨rfl, fun _ _ => rfl, fun _ => Or.inl rfl, rfl⟩

theorem DiskInv.congr (h : DiskInv cfg once s) (hs : s' = { s with
    lastUsed := s'.lastUsed, numPinned := s'.numPinned, fds := s'.fds, emptyFullPages := s'.emptyFullPages
    emptyMiniPages := s'.emptyMiniPages, unusedMiniPages := s'.unusedMiniPages, lastTimeTick := s'.lastTimeTick
    freeAnonPageNumbers := s'.freeAnonPageNumbers, lastFreeAnonPageNumber := s'.lastFreeAnonPageNumber
    memory := s'.memory, files := s'.files }) : DiskInv cfg once s' := by
  obtain ⟨⟨h1, h2, h3⟩, h4, h5, h6, h7, h8⟩ := h
  rw [hs]
  exact ⟨⟨h1, h2, h3⟩, h4, h5, h6, h7, h8⟩

theorem Listed.unique (h : Listed cfg s) {f g p : ℕ} (hf : p ∈ s.constituentPages f) (hg : p ∈ s.constituentPages g) :
    f = g := by
  obtain ⟨a, ha, rfl⟩ := h.resident f p hf
  obtain ⟨b, hb, rfl⟩ := h.resident g p hg
  cases ha.symm.trans hb
  rfl

theorem Listed.not_mem (h : Listed cfg s) {p : ℕ} (hb : (s.page p).bytes = none) (f : ℕ) :
    p ∉ s.constituentPages f := by
  intro hp
  obtain ⟨a, ha, -⟩ := h.resident f p hp
  rw [hb] at ha
  cases ha

theorem tempExtent_setStatuses (pages : List ℕ) (status : PDBPageStatus) (o : ℕ ⊕ ℕ × ℕ) :
    (s.setStatuses pages status).tempExtent cfg o = s.tempExtent cfg o := by
  obtain q | ⟨k, j⟩ := o
  · apply tempExtent_page
    unfold State.setStatuses
    dsimp only
    split_ifs
    · exact ⟨rfl, Iff.rfl, rfl⟩
    · exact ⟨rfl, Iff.rfl, rfl⟩
  · rfl

theorem DiskInv.evicted (h : DiskInv cfg once s) {f : ℕ} {s₁ : State}
    (honce : once → ∀ p ∈ s.constituentPages f, (s.page p).isAnon = true → (s.page p).dirty = true →
      (s.page p).location.startPos = -1)
    (h₁ : WroteAll cfg (s.constituentPages f) (s.setStatuses (s.constituentPages f) .unloading) s₁)
    (hs : s' = { s₁.setStatuses (s.constituentPages f) .notLoaded with
      constituentPages := update s.constituentPages f [] }) : DiskInv cfg once s' ∧ Spared s s' := by
  have hn := h.nodup f
  have hload : ∀ p ∈ s.constituentPages f, (s.setStatuses (s.constituentPages f) .unloading).page p =
      { s.page p with status := .unloading } := fun p hp => if_pos hp
  have hin : ∀ p ∈ s.constituentPages f, ∃ pos, s'.page p = { s.page p with
      status := .notLoaded, dirty := false, bytes := none
      location := ⟨pos, (s.page p).location.numBytes⟩ } := by
    intro p hp
    obtain ⟨pos, hpos⟩ := h₁.page_done hn hp
    rw [hload p hp] at hpos
    refine ⟨pos, ?_⟩
    rw [hs]
    refine (if_pos hp).trans ?_
    rw [hpos]
  have hout : ∀ p ∉ s.constituentPages f, s'.page p = s.page p := by
    intro p hp
    rw [hs]
    refine (if_neg hp).trans ((h₁.page_other hp).trans ?_)
    exact if_neg hp
  have hsame : ∀ p, (s'.page p).refCount = (s.page p).refCount ∧ (s'.page p).isAnon = (s.page p).isAnon ∧
      (s'.page p).sizeFrozen = (s.page p).sizeFrozen ∧ (s'.page p).pinned = (s.page p).pinned := by
    intro p
    by_cases hp : p ∈ s.constituentPages f
    · obtain ⟨pos, hpos⟩ := hin p hp
      rw [hpos]
      exact ⟨rfl, rfl, rfl, rfl⟩
    · rw [hout p hp]
      exact ⟨rfl, rfl, rfl, rfl⟩
  have hmem : ∀ g p, p ∈ s'.constituentPages g → p ∈ s.constituentPages g ∧ s'.page p = s.page p := by
    intro g p hp
    rw [hs] at hp
    dsimp only at hp
    by_cases hg : g = f
    · rw [hg, update_self] at hp
      exact absurd hp List.not_mem_nil
    · rw [update_of_ne hg] at hp
      exact ⟨hp, hout p fun hpf => hg (h.unique hp hpf)⟩
  have hall : ∀ key p, s'.allPages key = some p → s.allPages key = some p := by
    intro key p hp
    rw [hs] at hp
    rcases h₁.allPages hn key with heq | ⟨hnone, -⟩
    · exact heq.symm.trans hp
    · exact absurd (hnone.symm.trans hp) (by simp)
  have hnext : s'.nextPage = s.nextPage := by
    rw [hs, State.setStatuses, h₁.same]
    rfl
  refine ⟨⟨⟨?_, ?_, ?_⟩, ?_, ?_, ?_, ?_, ?_⟩, ⟨hnext, ?_, ?_, ?_⟩⟩
  · intro g
    rw [hs]
    dsimp only
    by_cases hg : g = f
    · rw [hg, update_self]
      exact List.nodup_nil
    · rw [update_of_ne hg]
      exact h.nodup g
  · intro g p hp
    obtain ⟨hp, hpage⟩ := hmem g p hp
    rw [hpage]
    exact h.resident g p hp
  · intro g p hp
    obtain ⟨hp, hpage⟩ := hmem g p hp
    rw [hpage, hnext]
    exact h.held g p hp
  · intro set
    rw [hs, State.setStatuses, h₁.same]
    exact h.sets set
  · intro ho
    have htemp := ((h.temp ho).congr fun o => tempExtent_setStatuses _ .unloading o :
      Tiles ((s.setStatuses (s.constituentPages f) .unloading).tempExtent cfg) s.lastTempPos)
    have hdone := h₁.temp hn (fun p hp => ?_) (fun p hp => ?_) htemp
    · rw [hs]
      exact hdone.congr fun o => tempExtent_setStatuses _ .notLoaded o
    · rw [hload p hp]
      exact (h.held f p hp).2
    · rw [hload p hp]
      exact honce ho p hp
  · intro p hp
    rw [(hsame p).1]
    exact h.fresh p (hnext ▸ hp)
  · intro key p hp
    rw [hnext, (hsame p).2.1]
    exact h.keyed key p (hall key p hp)
  · intro p href ha
    rw [(hsame p).1] at href
    rw [(hsame p).2.1] at ha
    have hfixed := h.fixed p href ha
    refine ⟨?_, fun hpos => ?_⟩
    · rw [(hsame p).2.2.1, (hsame p).2.2.2]
      exact hfixed.unpinned
    · by_cases hp : p ∈ s.constituentPages f
      · obtain ⟨pos, hpage⟩ := hin p hp
        rw [hpage]
        cases hpin : (s.page p).pinned with
        | false => exact Or.inl (hfixed.unpinned hpin)
        | true => exact Or.inr ⟨rfl, rfl⟩
      · rw [hout p hp] at hpos ⊢
        exact hfixed.stored hpos
  · exact fun p hb => hout p (h.not_mem hb f)
  · intro p
    by_cases hp : p ∈ s.constituentPages f
    · obtain ⟨pos, hpos⟩ := hin p hp
      rw [hpos]
      exact Or.inr rfl
    · exact Or.inl (hout p hp)
  · rw [hs, State.setStatuses, h₁.same]
    rfl

theorem evict_any (h : DiskInv cfg once s) (honce : once → s.EvictsOnce) :
    Ensures Any (s.evict cfg) fun s' => DiskInv cfg once s' ∧ Spared s s' := by
  unfold State.evict
  cases hlast : s.lastUsed with
  | nil => exact trivial
  | cons e rest =>
    obtain ⟨f, t⟩ := e
    dsimp only
    refine clearUnused_any.bind ?_
    rintro s₀ ⟨minis, unused, rfl⟩
    let s₁ : State := { s with lastUsed := rest, emptyMiniPages := minis, unusedMiniPages := unused }
    have h₁ : DiskInv cfg once s₁ := h.congr rfl
    have honce₁ : once → ∀ p ∈ s₁.constituentPages f, (s₁.page p).isAnon = true → (s₁.page p).dirty = true →
        (s₁.page p).location.startPos = -1 := fun ho => honce ho (f, t) (by rw [hlast]; rfl)
    have hloop : Ensures Any ((s₁.constituentPages f).foldlM (State.writeBack cfg)
        (s₁.setStatuses (s₁.constituentPages f) .unloading)) (WroteAll cfg (s₁.constituentPages f)
          (s₁.setStatuses (s₁.constituentPages f) .unloading)) := by
      apply writeAll_any (h₁.nodup f)
      intro p hp
      obtain ⟨a, ha, -⟩ := h₁.resident f p hp
      refine ⟨a, ?_⟩
      rw [show (s₁.setStatuses (s₁.constituentPages f) .unloading).page p =
        { s₁.page p with status := .unloading } from if_pos hp]
      exact ha
    refine hloop.bind fun s₂ h₂ => ?_
    have hc : s₂.constituentPages = s.constituentPages := by
      rw [h₂.same]
      rfl
    obtain ⟨h₃, hs⟩ := h₁.evicted honce₁ h₂ rfl
    rw [ensures_ok]
    refine ⟨h₃.congr ?_, hs.nextPage, hs.outside, hs.status, hs.fds⟩
    dsimp only
    rw [show (s₂.setStatuses (s.constituentPages f) .notLoaded).constituentPages = s.constituentPages from hc]

theorem breakUp_any {k : ℕ} (h : DiskInv cfg once s) :
    Ensures Any (s.breakUp cfg k) fun s' => DiskInv cfg once s' ∧ Spared s s' := by
  unfold State.breakUp
  cases s.emptyFullPages.getLast? with
  | none => exact trivial
  | some f =>
    dsimp only
    cases miniPagesFrom cfg k 0 with
    | error e => exact trivial
    | ok minis => exact ⟨h.congr rfl, rfl, fun _ _ => rfl, fun _ => Or.inl rfl, rfl⟩

theorem Spared.trans {s'' : State} (h : Spared s s') (h' : Spared s' s'') : Spared s s'' := by
  have hout : ∀ p, (s.page p).bytes = none → s''.page p = s.page p := by
    intro p hb
    have hp := h.outside p hb
    rw [← hp]
    exact h'.outside p (by rw [hp, hb])
  refine ⟨h'.nextPage.trans h.nextPage, hout, fun p => ?_, h'.fds.trans h.fds⟩
  rcases h'.status p with heq | hst
  · rw [heq]
    exact h.status p
  · exact Or.inr hst

theorem getEmptyMemory_any {k : ℕ} (h : DiskInv cfg once s)
    (honce : once → s.emptyMiniPages k = [] → s.emptyFullPages = [] → s.EvictsOnce) :
    Ensures Any (s.getEmptyMemory cfg k) fun r => DiskInv cfg once r.2 ∧ Spared s r.2 := by
  unfold State.getEmptyMemory
  by_cases hk : cfg.logOfPageSize < k
  · rw [if_pos hk]
    exact trivial
  rw [if_neg hk]
  have hcreate : Ensures Any (if s.emptyMiniPages k = [] then s.createAdditionalMiniPages cfg k else .ok s)
      fun s' => DiskInv cfg once s' ∧ Spared s s' := by
    by_cases hm : s.emptyMiniPages k = []
    · rw [if_pos hm, State.createAdditionalMiniPages]
      have hevict : Ensures Any (if s.emptyFullPages = [] then s.evict cfg else .ok s)
          fun s' => DiskInv cfg once s' ∧ Spared s s' := by
        by_cases hf : s.emptyFullPages = []
        · rw [if_pos hf]
          exact evict_any h fun ho => honce ho hm hf
        · rw [if_neg hf]
          exact ⟨h, Spared.refl s⟩
      refine hevict.bind fun s₁ h₁ => ?_
      exact (breakUp_any h₁.1).mono fun s₂ h₂ => ⟨h₂.1, h₁.2.trans h₂.2⟩
    · rw [if_neg hm]
      exact ⟨h, Spared.refl s⟩
  refine hcreate.bind ?_
  rintro s₁ ⟨h₁, hs₁⟩
  cases (s₁.emptyMiniPages k).getLast? with
  | none => exact trivial
  | some space =>
    dsimp only
    cases eraseOne space (s₁.unusedMiniPages (cfg.fullPage space)).1 with
    | error e => exact trivial
    | ok unused => exact ⟨h₁.congr rfl, hs₁.nextPage, hs₁.outside, hs₁.status, hs₁.fds⟩

end PlinyCompute.BufferManager
