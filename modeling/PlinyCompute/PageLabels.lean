import PlinyCompute.DiskSpace
import PlinyCompute.SizeRequests

namespace PlinyCompute.BufferManager

open Function Transition

variable {cfg : Config} {s s' s'' : State} {p : ℕ} {me : PDBPage}

def PDBPage.label (me : PDBPage) : PDBPage :=
  { me with bytes := none, status := .loaded, pinned := false, dirty := false, location := ⟨0, me.location.numBytes⟩ }

structure SameLabels (s s' : State) : Prop where
  nextPage : s'.nextPage = s.nextPage
  label : ∀ q, (s'.page q).label = (s.page q).label
  allPages : s'.allPages = s.allPages
  free : s'.freeAnonPageNumbers = s.freeAnonPageNumbers
  last : s'.lastFreeAnonPageNumber = s.lastFreeAnonPageNumber
  listed : ∀ f, ∀ q ∈ s'.constituentPages f, q ∈ s.constituentPages f ∨ q < s.nextPage

def State.Referenced (s : State) : Prop := ∀ f, ∀ q ∈ s.constituentPages f, 0 < (s.page q).refCount

namespace SameLabels

theorem refl (s : State) : SameLabels s s := ⟨rfl, fun _ => rfl, rfl, rfl, rfl, fun _ _ h => .inl h⟩

theorem trans (h : SameLabels s s') (h' : SameLabels s' s'') : SameLabels s s'' where
  nextPage := h'.nextPage.trans h.nextPage
  label q := (h'.label q).trans (h.label q)
  allPages := h'.allPages.trans h.allPages
  free := h'.free.trans h.free
  last := h'.last.trans h.last
  listed f q hq := by
    rcases h'.listed f q hq with hq | hq
    · exact h.listed f q hq
    · exact .inr (h.nextPage ▸ hq)

theorem refCount (h : SameLabels s s') (q : ℕ) : (s'.page q).refCount = (s.page q).refCount := by
  have hq := congrArg PDBPage.refCount (h.label q)
  exact hq

theorem of_eq (hs : s' = { s with
    pageLocations := s'.pageLocations, endOfFiles := s'.endOfFiles, lastUsed := s'.lastUsed
    numPinned := s'.numPinned, fds := s'.fds, emptyFullPages := s'.emptyFullPages
    emptyMiniPages := s'.emptyMiniPages, unusedMiniPages := s'.unusedMiniPages
    availablePositions := s'.availablePositions, lastTempPos := s'.lastTempPos
    lastTimeTick := s'.lastTimeTick, memory := s'.memory, files := s'.files }) : SameLabels s s' := by
  rw [hs]
  exact ⟨rfl, fun _ => rfl, rfl, rfl, rfl, fun _ _ h => .inl h⟩

theorem setPage (hme : me.label = (s.page p).label) : SameLabels s (s.setPage p me) := by
  refine { refl s with label := fun q => ?_ }
  by_cases hq : q = p
  · subst hq
    simp only [State.setPage, update_self]
    exact hme
  · simp only [State.setPage, update_of_ne hq]

theorem setStatuses (pages : List ℕ) (status : PDBPageStatus) (s : State) : SameLabels s (s.setStatuses pages status) := by
  refine { refl s with label := fun q => ?_ }
  unfold State.setStatuses
  dsimp only
  split_ifs <;> rfl

theorem takeTempPos (cfg : Config) (k : ℕ) (s : State) : SameLabels s (s.takeTempPos cfg k).2 := by
  unfold State.takeTempPos
  split
  · exact of_eq rfl
  · exact of_eq rfl

theorem pinFullPage (f : ℕ) (s : State) : SameLabels s (s.pinFullPage f) := by
  rw [pinFullPage_eq]
  exact of_eq rfl

theorem pinParent : Ensures Any (s.pinParent cfg p) (SameLabels s) := by
  refine getBytes_any.bind fun a _ => ?_
  exact pinFullPage (cfg.fullPage a) s

theorem registerMiniPage (hp : p < s.nextPage) : Ensures Any (s.registerMiniPage cfg p) (SameLabels s) := by
  refine getBytes_any.bind fun a _ => ?_
  refine pinParent.mono fun s₁ h => SameLabels.trans ?_ h
  refine { refl s with listed := fun f q hq => ?_ }
  dsimp only at hq
  by_cases hf : f = cfg.fullPage a
  · rw [hf, update_self, List.mem_append, List.mem_singleton] at hq
    rcases hq with hq | rfl
    · exact .inl (hf ▸ hq)
    · exact .inr hp
  · rw [update_of_ne hf] at hq
    exact .inl hq

theorem clearUnused {f : ℕ} : Ensures Any (s.clearUnused f) (SameLabels s) := by
  refine clearUnused_any.mono ?_
  rintro s₁ ⟨minis, unused, rfl⟩
  exact of_eq rfl

theorem pwrite {fd addr count : ℕ} {pos : ℤ} : Ensures Any (s.pwrite fd addr count pos) (SameLabels s) := by
  unfold State.pwrite
  split_ifs
  · exact trivial
  · exact of_eq rfl

theorem pread {fd addr count : ℕ} {pos : ℤ} : Ensures Any (s.pread fd addr count pos) (SameLabels s) := by
  unfold State.pread
  split_ifs
  · exact trivial
  · exact of_eq rfl

theorem writeAnonymous : Ensures Any (s.writeAnonymous cfg p) (SameLabels s) := by
  unfold State.writeAnonymous
  have htake := takeTempPos cfg (s.page p).location.numBytes s
  have hset : SameLabels s ((s.takeTempPos cfg (s.page p).location.numBytes).2.setPage p { s.page p with
      location := { (s.page p).location with startPos := (s.takeTempPos cfg (s.page p).location.numBytes).1 } }) :=
    htake.trans (setPage (htake.label p).symm)
  exact getBytes_any.bind fun a _ => pwrite.mono fun s₁ h => hset.trans h

theorem writeIfDirty : Ensures Any (s.writeIfDirty cfg p) (SameLabels s) := by
  unfold State.writeIfDirty
  split_ifs
  · exact getFileDescriptor_any.bind fun fd _ => getBytes_any.bind fun a _ => pwrite
  · exact refl s

theorem writeSetPage (hp : 0 < (s.page p).refCount) : Ensures Any (s.writeSetPage cfg p) (SameLabels s) := by
  refine writeIfDirty.bind fun s₁ h => ?_
  rw [if_neg (Nat.ne_of_gt hp)]
  exact h

theorem writeBack (hp : 0 < (s.page p).refCount) : Ensures Any (s.writeBack cfg p) (SameLabels s) := by
  have hwrite : Ensures Any (if (s.page p).isAnon ∧ (s.page p).dirty then s.writeAnonymous cfg p else s.writeSetPage cfg p)
      (SameLabels s) := by
    split
    · exact writeAnonymous
    · exact writeSetPage hp
  exact hwrite.bind fun s₁ h => h.trans (setPage rfl)

theorem writeAll {pages : List ℕ} (hpages : ∀ q ∈ pages, 0 < (s.page q).refCount) :
    Ensures Any (pages.foldlM (State.writeBack cfg) s) (SameLabels s) := by
  induction pages generalizing s with
  | nil => exact refl s
  | cons q pages ih =>
    rw [List.foldlM_cons]
    refine (writeBack (hpages q List.mem_cons_self)).bind fun s₁ h => ?_
    refine (ih fun q' hq' => ?_).mono fun s₂ h' => h.trans h'
    rw [h.refCount]
    exact hpages q' (List.mem_cons_of_mem q hq')

theorem evict (hs : s.Referenced) : Ensures Any (s.evict cfg) (SameLabels s) := by
  unfold State.evict
  split
  · exact trivial
  · next f tick rest hrest =>
    have hrest : SameLabels s { s with lastUsed := rest } := of_eq rfl
    have hunload := hrest.trans (setStatuses (s.constituentPages f) .unloading _)
    refine clearUnused.bind fun s₁ h₁ => ?_
    have h₁ := hunload.trans h₁
    refine (writeAll fun q hq => ?_).bind fun s₂ h₂ => ?_
    · rw [h₁.refCount]
      exact hs f q hq
    · have h₂ := (h₁.trans h₂).trans (setStatuses (s.constituentPages f) .notLoaded s₂)
      refine h₂.trans { refl _ with listed := fun g q hq => ?_ }
      dsimp only at hq
      by_cases hg : g = f
      · rw [hg, update_self] at hq
        cases hq
      · rw [update_of_ne hg] at hq
        exact .inl hq

theorem breakUp {k : ℕ} : Ensures Any (s.breakUp cfg k) (SameLabels s) := by
  unfold State.breakUp
  cases s.emptyFullPages.getLast? with
  | none => exact trivial
  | some f =>
    dsimp only
    cases miniPagesFrom cfg k 0 with
    | error e => exact trivial
    | ok minis => exact of_eq rfl

theorem createAdditionalMiniPages {k : ℕ} (hs : s.Referenced) :
    Ensures Any (s.createAdditionalMiniPages cfg k) (SameLabels s) := by
  have hevict : Ensures Any (if s.emptyFullPages = [] then s.evict cfg else .ok s) (SameLabels s) := by
    split
    · exact evict hs
    · exact refl s
  exact hevict.bind fun s₁ h => breakUp.mono fun s₂ h' => h.trans h'

theorem getEmptyMemory {k : ℕ} (hs : s.Referenced) :
    Ensures Any (s.getEmptyMemory cfg k) fun r => SameLabels s r.2 := by
  unfold State.getEmptyMemory
  by_cases hk : cfg.logOfPageSize < k
  · rw [if_pos hk]
    exact trivial
  · rw [if_neg hk]
    have hcreate : Ensures Any (if s.emptyMiniPages k = [] then s.createAdditionalMiniPages cfg k else .ok s)
        (SameLabels s) := by
      split
      · exact createAdditionalMiniPages hs
      · exact refl s
    refine hcreate.bind fun s₁ h => ?_
    cases (s₁.emptyMiniPages k).getLast? with
    | none => exact trivial
    | some space =>
      dsimp only
      cases eraseOne space (s₁.unusedMiniPages (cfg.fullPage space)).1 with
      | error e => exact trivial
      | ok unused => exact h.trans (of_eq rfl)

theorem checkIfOpen {set : PDBSet} : Ensures Any (s.checkIfOpen cfg set) (SameLabels s) := by
  unfold State.checkIfOpen
  split_ifs
  · exact refl s
  · cases cfg.openFile (cfg.fileLoc set) with
    | none => exact trivial
    | some fd => exact of_eq rfl

theorem repin (hs : s.Referenced) (hp : p < s.nextPage) : Ensures Any (s.repin cfg p) (SameLabels s) := by
  unfold State.repin
  dsimp only
  by_cases hbusy : (s.page p).status = .loading ∨ (s.page p).status = .unloading
  · rw [if_pos hbusy]
    exact trivial
  rw [if_neg hbusy]
  by_cases hpin : (s.page p).pinned = true
  · rw [if_pos hpin]
    exact refl s
  rw [if_neg hpin]
  by_cases hb : (s.page p).bytes ≠ none
  · rw [if_pos hb]
    have hset : SameLabels s (s.setPage p { s.page p with pinned := true }) := setPage rfl
    exact pinParent.mono fun s₁ h => hset.trans h
  rw [if_neg hb]
  have hset : SameLabels s (s.setPage p { s.page p with status := .loading }) := setPage rfl
  have hs₁ : (s.setPage p { s.page p with status := .loading }).Referenced := by
    intro f q hq
    rw [hset.refCount]
    exact hs f q hq
  refine (getEmptyMemory hs₁).bind fun r h => ?_
  have hspace : SameLabels s (r.2.setPage p { r.2.page p with bytes := some r.1 }) :=
    (hset.trans h).trans (setPage rfl)
  refine (registerMiniPage (hspace.nextPage ▸ hp)).bind fun s₁ h₁ => ?_
  have hpinned : SameLabels s (s₁.setPage p { s₁.page p with pinned := true }) := (hspace.trans h₁).trans (setPage rfl)
  have hfd : Ensures Any (if (s.page p).isAnon then .ok cfg.tempFileFD
      else (s₁.setPage p { s₁.page p with pinned := true }).getFileDescriptor (s.page p).whichSet) fun _ => True := by
    split
    · exact trivial
    · exact getFileDescriptor_any.mono fun _ _ => trivial
  refine hfd.bind fun fd _ => pread.bind fun s₂ h₂ => ?_
  exact (hpinned.trans h₂).trans (setPage rfl)

theorem unpinFullPage (f : ℕ) (s : State) : SameLabels s (s.unpinFullPage f) := by
  rw [unpinFullPage_eq]
  exact of_eq rfl

theorem assignLocation (cfg : Config) (p : ℕ) (s : State) : SameLabels s (s.assignLocation cfg p) := by
  obtain ⟨pos, heq⟩ := assignLocation_eq cfg s p
  rw [heq]
  have hset : SameLabels s
      (s.setPage p { s.page p with location := { (s.page p).location with startPos := pos } }) := setPage rfl
  exact hset.trans (of_eq rfl)

theorem setPage_congr {me' : PDBPage} (h : SameLabels s s') (p : ℕ) (hme : me'.label = me.label) :
    SameLabels (s.setPage p me) (s'.setPage p me') := by
  refine { h with label := fun q => ?_ }
  by_cases hq : q = p
  · subst hq
    simp only [State.setPage, update_self]
    exact hme
  · simp only [State.setPage, update_of_ne hq]
    exact h.label q

end SameLabels

structure PageSize where
  numBytes : ℕ
  sizeFrozen : Bool
  deriving DecidableEq

def PDBPage.size (me : PDBPage) : PageSize := ⟨me.location.numBytes, me.sizeFrozen⟩

def PDBPage.key (me : PDBPage) : Option PDBSet × ℕ := (me.whichSet, me.pageNum)

structure AllHeld (s : State) : Prop where
  held : ∀ q < s.nextPage, 0 < (s.page q).refCount
  listed : ∀ f, ∀ q ∈ s.constituentPages f, q < s.nextPage
  named : ∀ set i q, s.allPages (set, i) = some q → q < s.nextPage ∧ (s.page q).key = (some set, i)
  known : ∀ q < s.nextPage, ∀ set, (s.page q).whichSet = some set → s.allPages (set, (s.page q).pageNum) = some q
  anon : ∀ q < s.nextPage, (s.page q).isAnon = (s.page q).whichSet.isNone
  numbered : ∀ q < s.nextPage, (s.page q).whichSet = none → (s.page q).pageNum ≤ s.lastFreeAnonPageNumber
  distinct : ∀ q < s.nextPage, ∀ q' < s.nextPage, (s.page q).whichSet = none → (s.page q').whichSet = none →
    (s.page q).pageNum = (s.page q').pageNum → q = q'
  free : s.freeAnonPageNumbers = []

structure Extends (s s' : State) : Prop where
  nextPage : s.nextPage ≤ s'.nextPage
  sameKey : ∀ q < s.nextPage, (s'.page q).key = (s.page q).key
  sameSize : ∀ q < s.nextPage, (s'.page q).size = (s.page q).size

theorem SameLabels.key (h : SameLabels s s') (q : ℕ) : (s'.page q).key = (s.page q).key := by
  have hq := congrArg PDBPage.key (h.label q)
  exact hq

theorem SameLabels.size (h : SameLabels s s') (q : ℕ) : (s'.page q).size = (s.page q).size := by
  have hq := congrArg PDBPage.size (h.label q)
  exact hq

theorem SameLabels.extends (h : SameLabels s s') : Extends s s' :=
  ⟨Nat.le_of_eq h.nextPage.symm, fun q _ => h.key q, fun q _ => h.size q⟩

theorem Extends.trans (h : Extends s s') (h' : Extends s' s'') : Extends s s'' where
  nextPage := h.nextPage.trans h'.nextPage
  sameKey q hq := (h'.sameKey q (hq.trans_le h.nextPage)).trans (h.sameKey q hq)
  sameSize q hq := (h'.sameSize q (hq.trans_le h.nextPage)).trans (h.sameSize q hq)

theorem setPage_page (s : State) (p : ℕ) (me : PDBPage) (q : ℕ) :
    (s.setPage p me).page q = if q = p then me else s.page q := by
  rw [State.setPage]
  exact update_apply _ _ _ _

namespace AllHeld

theorem referenced (h : AllHeld s) : s.Referenced := fun f q hq => h.held q (h.listed f q hq)

theorem eq_of_key (h : AllHeld s) {q q' : ℕ} (hq : q < s.nextPage) (hq' : q' < s.nextPage)
    (hkey : (s.page q).key = (s.page q').key) : q = q' := by
  obtain ⟨hset, hnum⟩ := Prod.mk.inj hkey
  cases hw : (s.page q).whichSet with
  | none => exact h.distinct q hq q' hq' hw (hset ▸ hw) hnum
  | some set =>
    have hknown := h.known q' hq' set (hset ▸ hw)
    rw [← hnum, h.known q hq set hw] at hknown
    exact Option.some.inj hknown

theorem congr (h : AllHeld s) (hl : SameLabels s s') : AllHeld s' := by
  have hkey (q : ℕ) := Prod.mk.inj (hl.key q)
  constructor
  · intro q hq
    rw [hl.refCount]
    exact h.held q (hl.nextPage ▸ hq)
  · intro f q hq
    rw [hl.nextPage]
    exact (hl.listed f q hq).elim (h.listed f q) id
  · intro set i q hq
    rw [hl.nextPage, hl.key]
    exact h.named set i q (hl.allPages ▸ hq)
  · intro q hq set hset
    rw [hl.allPages, (hkey q).2]
    exact h.known q (hl.nextPage ▸ hq) set ((hkey q).1 ▸ hset)
  · intro q hq
    have hanon := congrArg PDBPage.isAnon (hl.label q)
    rw [show (s'.page q).isAnon = (s.page q).isAnon from hanon, (hkey q).1]
    exact h.anon q (hl.nextPage ▸ hq)
  · intro q hq hset
    rw [hl.last, (hkey q).2]
    exact h.numbered q (hl.nextPage ▸ hq) ((hkey q).1 ▸ hset)
  · intro q hq q' hq' hset hset' hnum
    rw [(hkey q).2, (hkey q').2] at hnum
    exact h.distinct q (hl.nextPage ▸ hq) q' (hl.nextPage ▸ hq') ((hkey q).1 ▸ hset) ((hkey q').1 ▸ hset') hnum
  · rw [hl.free, h.free]

theorem setPage (h : AllHeld s) (hkey : me.key = (s.page p).key) (ha : me.isAnon = (s.page p).isAnon)
    (href : 0 < me.refCount) : AllHeld (s.setPage p me) := by
  have hpage : ∀ q, ((s.setPage p me).page q).key = (s.page q).key ∧
      ((s.setPage p me).page q).isAnon = (s.page q).isAnon := by
    intro q
    rw [setPage_page]
    split_ifs with hq
    · rw [hq]
      exact ⟨hkey, ha⟩
    · exact ⟨rfl, rfl⟩
  have hset (q : ℕ) : ((s.setPage p me).page q).whichSet = (s.page q).whichSet := congrArg Prod.fst (hpage q).1
  have hnum (q : ℕ) : ((s.setPage p me).page q).pageNum = (s.page q).pageNum := congrArg Prod.snd (hpage q).1
  refine ⟨fun q hq => ?_, h.listed, fun set i q hq => ?_, fun q hq => ?_, fun q hq => ?_, fun q hq => ?_,
    fun q hq q' hq' => ?_, h.free⟩
  · rw [setPage_page]
    split_ifs
    · exact href
    · exact h.held q hq
  · rw [(hpage q).1]
    exact h.named set i q hq
  · rw [hset, hnum]
    exact h.known q hq
  · rw [hset, (hpage q).2]
    exact h.anon q hq
  · rw [hset, hnum]
    exact h.numbered q hq
  · rw [hset, hset, hnum, hnum]
    exact h.distinct q hq q' hq'

theorem push (h : AllHeld s) (hnext : s'.nextPage = s.nextPage + 1) (hpage : s'.page = update s.page s.nextPage me)
    (hlist : s'.constituentPages = s.constituentPages) (hfree : s'.freeAnonPageNumbers = s.freeAnonPageNumbers)
    (hlast : s.lastFreeAnonPageNumber ≤ s'.lastFreeAnonPageNumber)
    (hall : ∀ set i q, s'.allPages (set, i) = some q ↔
      s.allPages (set, i) = some q ∨ q = s.nextPage ∧ me.key = (some set, i))
    (href : 0 < me.refCount) (ha : me.isAnon = me.whichSet.isNone)
    (hnum : me.whichSet = none →
      s.lastFreeAnonPageNumber < me.pageNum ∧ me.pageNum ≤ s'.lastFreeAnonPageNumber) : AllHeld s' := by
  have hold : ∀ q < s.nextPage, s'.page q = s.page q := by
    intro q hq
    rw [hpage, update_of_ne (Nat.ne_of_lt hq)]
  have hself : s'.page s.nextPage = me := by rw [hpage, update_self]
  have hnew : ∀ q < s.nextPage, (s.page q).whichSet = none → me.whichSet = none → (s.page q).pageNum ≠ me.pageNum := by
    intro q hq hq' hme
    have hle := h.numbered q hq hq'
    have hlt := (hnum hme).1
    omega
  constructor
  · rw [hnext]
    refine Nat.forall_lt_succ_right.mpr ⟨fun q hq => ?_, ?_⟩
    · rw [hold q hq]
      exact h.held q hq
    · rw [hself]
      exact href
  · rw [hnext, hlist]
    exact fun f q hq => (h.listed f q hq).trans (Nat.lt_succ_self _)
  · intro set i q hq
    rw [hnext]
    rcases (hall set i q).mp hq with hq | ⟨rfl, hkey⟩
    · obtain ⟨hlt, hkey⟩ := h.named set i q hq
      rw [hold q hlt]
      exact ⟨hlt.trans (Nat.lt_succ_self _), hkey⟩
    · rw [hself]
      exact ⟨Nat.lt_succ_self _, hkey⟩
  · rw [hnext]
    refine Nat.forall_lt_succ_right.mpr ⟨fun q hq set hset => ?_, fun set hset => ?_⟩
    · rw [hold q hq] at hset ⊢
      exact (hall _ _ _).mpr (.inl (h.known q hq set hset))
    · rw [hself] at hset ⊢
      exact (hall _ _ _).mpr (.inr ⟨rfl, Prod.ext hset rfl⟩)
  · rw [hnext]
    refine Nat.forall_lt_succ_right.mpr ⟨fun q hq => ?_, ?_⟩
    · rw [hold q hq]
      exact h.anon q hq
    · rw [hself]
      exact ha
  · rw [hnext]
    refine Nat.forall_lt_succ_right.mpr ⟨fun q hq hq' => ?_, fun hme => ?_⟩
    · rw [hold q hq] at hq' ⊢
      exact (h.numbered q hq hq').trans hlast
    · rw [hself] at hme ⊢
      exact (hnum hme).2
  · rw [hnext]
    refine Nat.forall_lt_succ_right.mpr ⟨fun q hq => ?_, ?_⟩
    · rw [hold q hq]
      refine Nat.forall_lt_succ_right.mpr ⟨fun q' hq' => ?_, fun hq' hme hn => ?_⟩
      · rw [hold q' hq']
        exact h.distinct q hq q' hq'
      · rw [hself] at hme hn
        exact absurd hn (hnew q hq hq' hme)
    · rw [hself]
      refine Nat.forall_lt_succ_right.mpr ⟨fun q' hq' hme hn' hn => ?_, fun _ _ _ => rfl⟩
      rw [hold q' hq'] at hn' hn
      exact absurd hn.symm (hnew q' hq' hn' hme)
  · rw [hfree, h.free]

theorem alloc (h : AllHeld s) {set : PDBSet} {i : ℕ} (hkey : me.key = (some set, i)) (ha : me.isAnon = false)
    (href : 0 < me.refCount) (hnew : s.allPages (set, i) = none) : AllHeld (alloc s set i me) := by
  obtain ⟨hset, -⟩ := Prod.mk.inj hkey
  refine h.push rfl rfl rfl rfl le_rfl (fun set' i' q => ?_) href (by rw [ha, hset]; rfl) ?_
  · change update s.allPages (set, i) (some s.nextPage) (set', i') = some q ↔ _
    by_cases hk : (set', i') = (set, i)
    · cases hk
      rw [update_self, hnew, hkey]
      simp [eq_comm]
    · have hne : (some set, i) ≠ (some set', i') := fun heq => hk (by cases heq; rfl)
      rw [update_of_ne hk, hkey]
      simp [hne]
  · rw [hset]
    exact nofun

theorem anonymous (h : AllHeld s) (hkey : me.key = (none, s.lastFreeAnonPageNumber + 1)) (ha : me.isAnon = true)
    (href : 0 < me.refCount) : AllHeld { s.setPage s.nextPage me with
      nextPage := s.nextPage + 1, lastFreeAnonPageNumber := s.lastFreeAnonPageNumber + 1 } := by
  obtain ⟨hset, hnum⟩ := Prod.mk.inj hkey
  refine h.push rfl rfl rfl rfl (Nat.le_succ _) (fun set i q => ?_) href (by rw [ha, hset]; rfl) fun _ => ?_
  · have hne : (none, s.lastFreeAnonPageNumber + 1) ≠ (some set, i) := nofun
    rw [hkey]
    simp [hne, State.setPage]
  · rw [hnum]
    exact ⟨Nat.lt_succ_self _, le_rfl⟩

theorem recount (h : AllHeld s) {count : ℕ → ℕ} (hpos : ∀ q < s.nextPage, 0 < count q) :
    AllHeld { s with page := fun q => { s.page q with refCount := count q } } :=
  ⟨hpos, h.listed, h.named, h.known, h.anon, h.numbered, h.distinct, h.free⟩

theorem takePageNumber (h : AllHeld s) : s.takePageNumber =
    (s.lastFreeAnonPageNumber + 1, { s with lastFreeAnonPageNumber := s.lastFreeAnonPageNumber + 1 }) := by
  have hlast : s.freeAnonPageNumbers.getLast? = none := by rw [h.free, List.getLast?_nil]
  rw [State.takePageNumber, hlast]

end AllHeld

theorem unpin_labels : Ensures Any (s.unpin cfg p) (SameLabels
    (s.setPage p { s.page p with sizeFrozen := (s.page p).sizeFrozen || (s.page p).pinned })) := by
  unfold State.unpin
  dsimp only
  by_cases hpin : (s.page p).pinned = true
  · have hfrozen : ((s.page p).sizeFrozen || (s.page p).pinned) = true := by rw [hpin, Bool.or_true]
    rw [if_neg (not_not_intro hpin), hfrozen]
    refine getBytes_any.bind fun a _ => ?_
    have hset : SameLabels (s.setPage p { s.page p with sizeFrozen := true })
        (s.setPage p { s.page p with pinned := false, sizeFrozen := true }) := (SameLabels.refl s).setPage_congr p rfl
    exact (hset.trans (.unpinFullPage _ _)).trans (.assignLocation cfg p _)
  · have hkept : ((s.page p).sizeFrozen || (s.page p).pinned) = (s.page p).sizeFrozen := by
      rw [Bool.eq_false_iff.mpr hpin, Bool.or_false]
    have hself : s.setPage p (s.page p) = s := by rw [State.setPage, Function.update_eq_self]
    rw [if_pos hpin, hkept]
    change SameLabels (s.setPage p (s.page p)) s
    rw [hself]
    exact SameLabels.refl s

theorem freezeSize_labels {n : ℕ} : Ensures Any (s.freezeSize cfg p n) fun s' =>
    cfg.sizeClass n ≤ (s.page p).location.numBytes ∧ SameLabels (s.setPage p { s.page p with
      sizeFrozen := true, location := { (s.page p).location with numBytes := cfg.sizeClass n } }) s' := by
  unfold State.freezeSize
  dsimp only
  split_ifs
  · exact trivial
  · cases hk : getLogPageSize cfg n with
    | error e => exact trivial
    | ok k =>
      rw [ok_bind, ← getLogPageSize_eq hk]
      split_ifs with hlt
      · exact trivial
      · refine getBytes_any.bind fun a _ => ?_
        cases miniPagesFrom cfg k (cfg.miniPageSize k) with
        | error e => exact trivial
        | ok minis => exact ⟨Nat.le_of_not_lt hlt, .of_eq rfl⟩

def State.handleOf (s : State) (set : PDBSet) (i : ℕ) : ℕ := (s.allPages (set, i)).getD s.nextPage

structure Got (key : Option PDBSet × ℕ) (p : ℕ) (s s' : State) : Prop extends Extends s s' where
  held : AllHeld s'
  lt : p < s'.nextPage
  keyed : (s'.page p).key = key
  handles : ∀ q < s.nextPage, (s.page q).refCount ≤ (s'.page q).refCount
  counted : p < s.nextPage → (s.page p).refCount < (s'.page p).refCount
  unfrozen : s.nextPage ≤ p → (s'.page p).sizeFrozen = false

theorem Got.congr {key : Option PDBSet × ℕ} (h : Got key p s s') (hl : SameLabels s' s'') : Got key p s s'' where
  toExtends := h.toExtends.trans hl.extends
  held := h.held.congr hl
  lt := hl.nextPage ▸ h.lt
  keyed := (hl.key p).trans h.keyed
  handles q hq := (h.handles q hq).trans_eq (hl.refCount q).symm
  counted hp := (h.counted hp).trans_eq (hl.refCount p).symm
  unfrozen hp := (congrArg PageSize.sizeFrozen (hl.size p)).trans (h.unfrozen hp)

theorem Got.precede {key : Option PDBSet × ℕ} (hl : SameLabels s s') (h : Got key p s' s'') : Got key p s s'' where
  toExtends := hl.extends.trans h.toExtends
  held := h.held
  lt := h.lt
  keyed := h.keyed
  handles q hq := (hl.refCount q).symm.trans_le (h.handles q (hl.nextPage ▸ hq))
  counted hp := (hl.refCount p).symm.trans_lt (h.counted (hl.nextPage ▸ hp))
  unfrozen hp := h.unfrozen (hl.nextPage ▸ hp)

theorem AllHeld.got_again (h : AllHeld s) {set : PDBSet} {i : ℕ} (hp : s.allPages (set, i) = some p) :
    Got (some set, i) p s (s.setPage p { s.page p with refCount := (s.page p).refCount + 1 }) := by
  obtain ⟨hlt, hkey⟩ := h.named set i p hp
  refine ⟨⟨le_rfl, fun q _ => ?_, fun q _ => ?_⟩, h.setPage rfl rfl (Nat.succ_pos _), hlt, ?_, fun q _ => ?_,
    fun _ => ?_, fun hle => absurd hlt (Nat.not_lt.mpr hle)⟩
  · rw [setPage_page]
    split_ifs with hq
    · rw [hq]
      rfl
    · rfl
  · rw [setPage_page]
    split_ifs with hq
    · rw [hq]
      rfl
    · rfl
  · rw [setPage_page, if_pos rfl]
    exact hkey
  · rw [setPage_page]
    split_ifs with hq
    · rw [hq]
      exact Nat.le_succ _
    · exact le_rfl
  · rw [setPage_page, if_pos rfl]
    exact Nat.lt_succ_self _

theorem got_new {key : Option PDBSet × ℕ} (held : AllHeld s') (hnext : s'.nextPage = s.nextPage + 1)
    (hpage : s'.page = update s.page s.nextPage me) (hkey : me.key = key) (hfrozen : me.sizeFrozen = false) :
    Got key s.nextPage s s' := by
  have hold : ∀ q < s.nextPage, s'.page q = s.page q := by
    intro q hq
    rw [hpage, update_of_ne (Nat.ne_of_lt hq)]
  have hself : s'.page s.nextPage = me := by rw [hpage, update_self]
  refine ⟨⟨?_, fun q hq => ?_, fun q hq => ?_⟩, held, ?_, ?_, fun q hq => ?_, fun hlt => absurd hlt (lt_irrefl _), fun _ => ?_⟩
  · rw [hnext]
    exact Nat.le_succ _
  · rw [hold q hq]
  · rw [hold q hq]
  · rw [hnext]
    exact Nat.lt_succ_self _
  · rw [hself, hkey]
  · rw [hold q hq]
  · rw [hself, hfrozen]

theorem createSetPage_got (h : AllHeld s) {set : PDBSet} {i : ℕ} (hnew : s.allPages (set, i) = none) :
    Ensures Any (s.createSetPage cfg set i) (Got (some set, i) s.nextPage s) := by
  unfold State.createSetPage
  dsimp only
  have hreferenced : (alloc s set i (newSetPage cfg set i)).Referenced := by
    intro f q hq
    have hlt := h.listed f q hq
    rw [show (alloc s set i (newSetPage cfg set i)).page q = s.page q from update_of_ne (Nat.ne_of_lt hlt) _ _]
    exact h.held q hlt
  refine (SameLabels.getEmptyMemory hreferenced).bind fun r hr => ?_
  have hspace : SameLabels (alloc s set i (newSetPage cfg set i))
      (r.2.setPage s.nextPage { r.2.page s.nextPage with bytes := some r.1 }) := hr.trans (.setPage rfl)
  refine (SameLabels.registerMiniPage (hspace.nextPage ▸ Nat.lt_succ_self _)).bind fun s₁ h₁ => ?_
  have hlabels := hspace.trans h₁
  have hself : (s₁.page s.nextPage).label = (newSetPage cfg set i).label := by
    have hlabel := hlabels.label s.nextPage
    rwa [alloc_page] at hlabel
  have hme : ({ s₁.page s.nextPage with
      refCount := (s₁.page s.nextPage).refCount + 1, status := .loaded } : PDBPage).label =
        ({ newSetPage cfg set i with refCount := 1 } : PDBPage).label := by
    change ({ (s₁.page s.nextPage).label with refCount := (s₁.page s.nextPage).label.refCount + 1 } : PDBPage) = _
    rw [hself]
    rfl
  have hfinal := hlabels.setPage_congr s.nextPage hme
  rw [show (alloc s set i (newSetPage cfg set i)).setPage s.nextPage { newSetPage cfg set i with refCount := 1 } =
    alloc s set i { newSetPage cfg set i with refCount := 1 } by simp [alloc, State.setPage]] at hfinal
  exact (got_new (h.alloc rfl rfl Nat.one_pos hnew) rfl rfl rfl rfl).congr hfinal

theorem loadSetPage_got (h : AllHeld s) {set : PDBSet} {i : ℕ} (hnew : s.allPages (set, i) = none) (myInfo : PDBPageInfo) :
    Ensures Any (s.loadSetPage cfg set i myInfo) (Got (some set, i) s.nextPage s) := by
  unfold State.loadSetPage
  dsimp only
  have hgot : Got (some set, i) s.nextPage s (alloc s set i (knownSetPage set i myInfo)) :=
    got_new (h.alloc rfl rfl Nat.one_pos hnew) rfl rfl rfl rfl
  refine (SameLabels.getEmptyMemory hgot.held.referenced).bind fun r hr => ?_
  have hspace : SameLabels (alloc s set i (knownSetPage set i myInfo))
      (r.2.setPage s.nextPage { r.2.page s.nextPage with bytes := some r.1 }) := hr.trans (.setPage rfl)
  refine (SameLabels.registerMiniPage (hspace.nextPage ▸ Nat.lt_succ_self _)).bind fun s₁ h₁ => ?_
  refine getFileDescriptor_any.bind fun fd _ => SameLabels.pread.bind fun s₂ h₂ => ?_
  exact hgot.congr (((hspace.trans h₁).trans h₂).trans (.setPage rfl))

theorem getSetPage_got (h : AllHeld s) {set : PDBSet} {i : ℕ} :
    Ensures Any (s.getSetPage cfg set i) (Got (some set, i) (s.handleOf set i) s) := by
  unfold State.getSetPage
  refine SameLabels.checkIfOpen.bind fun s₁ hopen => ?_
  have h₁ := h.congr hopen
  have hhandle : s.handleOf set i = s₁.handleOf set i := by
    rw [State.handleOf, State.handleOf, hopen.allPages, hopen.nextPage]
  rw [hhandle, State.handleOf]
  have hprecede : ∀ {p s'}, Got (some set, i) p s₁ s' → Got (some set, i) p s s' := fun hg => hg.precede hopen
  cases hp : s₁.allPages (set, i) with
  | some p =>
    have hgot := h₁.got_again hp
    refine (SameLabels.repin hgot.held.referenced hgot.lt).mono fun s' hl => ?_
    exact hprecede (hgot.congr hl)
  | none =>
    dsimp only [Option.getD_none]
    cases s₁.pageLocations (set, i) with
    | none => exact (createSetPage_got h₁ hp).mono fun s' hg => hprecede hg
    | some myInfo => exact (loadSetPage_got h₁ hp myInfo).mono fun s' hg => hprecede hg

theorem getPage_got (h : AllHeld s) {n : ℕ} : Ensures Any (s.getPage cfg n) (fun s' =>
    Got (none, s.lastFreeAnonPageNumber + 1) s.nextPage s s' ∧ s'.nextPage = s.nextPage + 1) := by
  unfold State.getPage
  cases hk : getLogPageSize cfg n with
  | error e => exact trivial
  | ok k =>
    rw [ok_bind]
    refine (SameLabels.getEmptyMemory h.referenced).bind fun r hr => ?_
    have hheld := h.congr hr
    dsimp only
    rw [hheld.takePageNumber]
    have hanon : AllHeld { r.2.setPage r.2.nextPage (newAnonymous (r.2.lastFreeAnonPageNumber + 1) r.1 k) with
        nextPage := r.2.nextPage + 1, lastFreeAnonPageNumber := r.2.lastFreeAnonPageNumber + 1 } :=
      hheld.anonymous rfl rfl Nat.one_pos
    have hgot := (got_new hanon rfl rfl rfl rfl).precede hr
    refine (SameLabels.registerMiniPage (Nat.lt_succ_self _)).mono fun s' hl => ?_
    rw [← hr.last, ← hr.nextPage]
    exact ⟨hgot.congr hl, hl.nextPage⟩

end PlinyCompute.BufferManager
