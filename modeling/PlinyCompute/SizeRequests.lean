import Mathlib.Data.Nat.Log
import PlinyCompute.BufferAliasing

namespace PlinyCompute.BufferManager

open Function Transition

variable {cfg : Config} {s s' : State}

section Positions

def PDBPage.Positioned (me : PDBPage) : Prop := -1 ≤ me.location.startPos ∧ (me.isAnon = false → 0 ≤ me.location.startPos)

structure Positioned (s : State) : Prop where
  pages : ∀ p, (s.page p).Positioned
  known : ∀ key info, s.pageLocations key = some info → 0 ≤ info.startPos
  free : ∀ k, ∀ pos ∈ s.availablePositions k, 0 ≤ pos

theorem PDBPage.Positioned.congr {me me' : PDBPage} (h : me.Positioned) (ha : me'.isAnon = me.isAnon)
    (hpos : me'.location.startPos = me.location.startPos) : me'.Positioned := by
  unfold Positioned
  rw [ha, hpos]
  exact h

theorem PDBPage.Positioned.of_nonneg {me : PDBPage} (h : 0 ≤ me.location.startPos) : me.Positioned :=
  ⟨by omega, fun _ => h⟩

theorem Positioned.congr (h : Positioned s) (hpage : s'.page = s.page) (hknown : s'.pageLocations = s.pageLocations)
    (hfree : s'.availablePositions = s.availablePositions) : Positioned s' := by
  obtain ⟨hpages, hlocations, hpositions⟩ := h
  refine ⟨?_, ?_, ?_⟩
  · rw [hpage]
    exact hpages
  · rw [hknown]
    exact hlocations
  · rw [hfree]
    exact hpositions

theorem Positioned.update (h : Positioned s) {p : ℕ} {me : PDBPage} (hpage : s'.page = Function.update s.page p me)
    (hknown : s'.pageLocations = s.pageLocations) (hfree : s'.availablePositions = s.availablePositions)
    (hme : me.Positioned) : Positioned s' := by
  obtain ⟨hpages, hlocations, hpositions⟩ := h
  refine ⟨?_, ?_, ?_⟩
  · rw [hpage]
    exact (Function.forall_update_iff _ fun _ (me : PDBPage) => me.Positioned).mpr ⟨hme, fun q _ => hpages q⟩
  · rw [hknown]
    exact hlocations
  · rw [hfree]
    exact hpositions

theorem Positioned.takeTempPos (h : Positioned s) (k : ℕ) :
    0 ≤ (s.takeTempPos cfg k).1 ∧ ∀ j, ∀ pos ∈ (s.takeTempPos cfg k).2.availablePositions j, 0 ≤ pos := by
  unfold State.takeTempPos
  cases hlast : (s.availablePositions k).getLast? with
  | none => exact ⟨Int.natCast_nonneg _, h.free⟩
  | some pos =>
    refine ⟨h.free k pos (List.mem_of_getLast? hlast), fun j pos' hpos' => ?_⟩
    dsimp only at hpos'
    by_cases hj : j = k
    · subst hj
      rw [update_self] at hpos'
      exact h.free j pos' ((List.dropLast_sublist _).subset hpos')
    · rw [update_of_ne hj] at hpos'
      exact h.free j pos' hpos'

theorem WroteBack.positioned {p a : ℕ} (h : WroteBack cfg s p a s') (hs : Positioned s) : Positioned s' := by
  cases h with
  | anonymous pos _ _ _ hpos =>
    have htake := (@Positioned.takeTempPos cfg s hs (s.page p).location.numBytes).2
    refine ⟨?_, ?_, htake⟩
    · exact (Function.forall_update_iff _ fun _ (me : PDBPage) => me.Positioned).mpr
        ⟨.of_nonneg hpos, fun q _ => hs.pages q⟩
    · rw [takeTempPos_snd]
      exact hs.known
  | other files _ _ => exact hs.update rfl rfl rfl ((hs.pages p).congr rfl rfl)

theorem WroteAll.positioned {pages : List ℕ} (h : WroteAll cfg pages s s') (hs : Positioned s) : Positioned s' := by
  induction h with
  | nil s => exact hs
  | cons _ h₁ _ ih => exact ih (h₁.positioned hs)

theorem Positioned.setStatuses (h : Positioned s) (pages : List ℕ) (status : PDBPageStatus) :
    Positioned (s.setStatuses pages status) := by
  refine ⟨fun p => ?_, h.known, h.free⟩
  unfold State.setStatuses
  dsimp only
  split_ifs
  · exact (h.pages p).congr rfl rfl
  · exact h.pages p

theorem Evicted.positioned {f : ℕ} (h : Evicted cfg s f s') (hs : Positioned s) : Positioned s' := by
  cases h with
  | mk t rest l s₁ _ _ _ h₁ =>
    have hbegin : Positioned (unloading s f rest l) := (hs.setStatuses _ _).congr rfl rfl rfl
    exact ((h₁.positioned hbegin).setStatuses _ _).congr rfl rfl rfl

theorem Provided.positioned {k a : ℕ} {s₁ : State} (h : Provided cfg k s s₁ a s') (hs : Positioned s) :
    Positioned s' := by
  have hs₁ : Positioned s₁ := by
    rcases h.evicted with rfl | ⟨f, he⟩
    · exact hs
    · exact he.positioned hs
  rw [h.same]
  exact hs₁.congr rfl rfl rfl

theorem Positioned.place (h : Positioned s) {n p a : ℕ} {me : PDBPage} (hme : me.Positioned) :
    Positioned (place cfg s n p a me) := by
  rw [place_same]
  exact h.update rfl rfl rfl hme

theorem Positioned.fetch (h : Positioned s) {p a fd pos : ℕ} {me : PDBPage} (hme : me.Positioned) :
    Positioned (fetch cfg s p a fd pos me) := by
  rw [BufferManager.fetch, place_same]
  exact h.update rfl rfl rfl hme

theorem Repinned.positioned {p : ℕ} (h : Repinned cfg p s s') (hs : Positioned s) : Positioned s' := by
  cases h with
  | pinned _ => exact hs
  | resident _ _ =>
    rw [pinFullPage_eq]
    exact hs.update rfl rfl rfl ((hs.pages p).congr rfl rfl)
  | loaded _ _ h₂ _ _ =>
    have h₀ : Positioned (s.setPage p { s.page p with status := .loading }) :=
      hs.update rfl rfl rfl ((hs.pages p).congr rfl rfl)
    exact (h₂.positioned h₀).fetch ((hs.pages p).congr rfl rfl)

theorem Positioned.assignLocation (h : Positioned s) (p : ℕ) : Positioned (s.assignLocation cfg p) := by
  unfold State.assignLocation
  dsimp only
  split
  · split_ifs
    · refine ⟨?_, ?_, h.free⟩
      · exact (Function.forall_update_iff _ fun _ (me : PDBPage) => me.Positioned).mpr
          ⟨.of_nonneg (Int.natCast_nonneg _), fun q _ => h.pages q⟩
      · refine (Function.forall_update_iff _ fun _ o => ∀ info : PDBPageInfo, o = some info →
          0 ≤ info.startPos).mpr
          ⟨?_, fun key _ => h.known key⟩
        rintro info ⟨⟩
        exact Int.natCast_nonneg _
    · exact h
  · exact h

theorem Unpinned.positioned {p : ℕ} (h : Unpinned cfg p s s') (hs : Positioned s) : Positioned s' := by
  cases h with
  | already _ => exact hs
  | now _ _ =>
    apply Positioned.assignLocation
    rw [unpinFullPage_eq]
    exact hs.update rfl rfl rfl ((hs.pages p).congr rfl rfl)

theorem Positioned.recycle (h : Positioned s) (p : ℕ) : ∀ k, ∀ pos ∈ (s.recycle p).availablePositions k, 0 ≤ pos := by
  unfold State.recycle
  dsimp only
  split_ifs with hpos
  · intro k pos hmem
    by_cases hk : k = (s.page p).location.numBytes
    · subst hk
      rw [update_self] at hmem
      rcases List.mem_append.mp hmem with hmem | hmem
      · exact h.free _ pos hmem
      · have hge := (h.pages p).1
        rw [List.mem_singleton.mp hmem]
        omega
    · rw [update_of_ne hk] at hmem
      exact h.free k pos hmem
  · exact h.free

theorem Dropped.positioned {p : ℕ} (h : Dropped cfg p s s') (hs : Positioned s) : Positioned s' := by
  have h₀ : Positioned (s.setPage p { s.page p with refCount := 0 }) :=
    hs.update rfl rfl rfl ((hs.pages p).congr rfl rfl)
  cases h with
  | kept _ => exact hs.update rfl rfl rfl ((hs.pages p).congr rfl rfl)
  | freed _ _ h =>
    rw [h.same]
    exact ⟨h₀.pages, h₀.known, h₀.recycle p⟩
  | forgotten _ _ _ _ => exact h₀.congr rfl rfl rfl
  | unpinned _ _ _ _ h => exact h.positioned h₀

theorem GotSetPage.positioned {set : PDBSet} {i : ℕ} (h : GotSetPage cfg set i s s') (hs : Positioned s) :
    Positioned s' := by
  cases h with
  | hit _ h => exact h.positioned (hs.update rfl rfl rfl ((hs.pages _).congr rfl rfl))
  | created _ _ h₂ =>
    have hnew : (newSetPage cfg set i).Positioned := .of_nonneg (Int.natCast_nonneg _)
    have h₀ : Positioned (alloc s set i (newSetPage cfg set i)) := hs.update rfl rfl rfl hnew
    exact (h₂.positioned h₀).place (hnew.congr rfl rfl)
  | @loaded _ _ info _ _ _ _ h₂ _ hpos =>
    have hnew : (knownSetPage set i info).Positioned := .of_nonneg hpos
    have h₀ : Positioned (alloc s set i (knownSetPage set i info)) := hs.update rfl rfl rfl hnew
    exact (h₂.positioned h₀).fetch (hnew.congr rfl rfl)

theorem Stepped.positioned {op : Op} (h : Stepped cfg s op s') (hs : Positioned s) : Positioned s' := by
  cases h with
  | getPage h =>
    cases h with
    | @mk k a pageNum _ _ _ _ h₂ =>
      have hnew : (newAnonymous pageNum a k).Positioned := ⟨Int.le_refl _, fun ha => (by cases ha)⟩
      have hplace : Positioned (place cfg _ (s.nextPage + 1) s.nextPage a _) := (h₂.positioned hs).place hnew
      exact hplace.congr rfl rfl rfl
  | getSetPage h₀ h =>
    refine h.positioned ?_
    rw [h₀.same]
    exact hs.congr rfl rfl rfl
  | freezeSize _ _ h =>
    cases h with
    | mk _ _ _ _ => exact hs.update rfl rfl rfl ((hs.pages _).congr rfl rfl)
  | unpin _ h => exact h.positioned hs
  | repin _ h => exact h.positioned hs
  | drop h => exact h.positioned hs
  | setDirty _ _ => exact hs.update rfl rfl rfl ((hs.pages _).congr rfl rfl)
  | write _ _ _ _ => exact hs.congr rfl rfl rfl

theorem positioned_initialState (cfg : Config) (memory : ℕ → UInt8) (files : ℕ → ℕ → UInt8) :
    Positioned (initialState cfg memory files) := by
  refine ⟨fun p => .of_nonneg (Int.le_refl 0), nofun, fun k pos hpos => ?_⟩
  cases hpos

structure Located (cfg : Config) (s : State) : Prop extends Sane cfg s where
  positioned : Positioned s

theorem located_of_reachable {memory : ℕ → UInt8} {files : ℕ → ℕ → UInt8}
    (h : Reachable (step cfg) (Op.Sound cfg) (· = initialState cfg memory files) s) : Located cfg s := by
  refine h.invariant ?_ ?_
  · rintro s rfl
    exact ⟨sane_initialState cfg memory files, positioned_initialState cfg memory files⟩
  · rintro op s s' ⟨⟨hc, hst⟩, hpos⟩ ⟨ha, hf, ht⟩ he
    obtain ⟨hs, hc'⟩ := (step_spec hc hst ht ha hf).of_eq_ok he
    exact ⟨⟨hc', hs.settled hc hst⟩, hs.positioned hpos⟩

end Positions

section Returns

theorem pwrite_eq {fd addr count : ℕ} {pos : ℤ} (hpos : 0 ≤ pos) :
    s.pwrite fd addr count pos = .ok { s with files := storeBytes s.files s.memory fd addr count pos.toNat } := by
  rw [State.pwrite, if_neg (by omega)]

theorem writeBack_returns {p a : ℕ} (hs : Positioned s) (hb : (s.page p).bytes = some a)
    (hopen : (s.page p).isAnon = false → ∃ set fd, (s.page p).whichSet = some set ∧ s.fds set = some fd) :
    ∃ s', s.writeBack cfg p = .ok s' := by
  unfold State.writeBack
  dsimp only
  by_cases hanon : (s.page p).isAnon = true ∧ (s.page p).dirty = true
  · have hbytes : (((s.takeTempPos cfg (s.page p).location.numBytes).2.setPage p
        { s.page p with location :=
          { (s.page p).location with startPos := (s.takeTempPos cfg (s.page p).location.numBytes).1 } }).page
            p).bytes = some a := by simp [State.setPage, hb]
    rw [if_pos hanon, State.writeAnonymous]
    dsimp only
    rw [getBytes_eq hbytes, ok_bind, pwrite_eq (hs.takeTempPos _).1]
    exact ⟨_, rfl⟩
  · rw [if_neg hanon, State.writeSetPage, State.writeIfDirty]
    by_cases hd : (s.page p).dirty = true
    · have ha : (s.page p).isAnon = false := by
        rw [← Bool.not_eq_true]
        exact fun ha => hanon ⟨ha, hd⟩
      obtain ⟨set, fd, hset, hfd⟩ := hopen ha
      rw [if_pos hd, State.writeToSet, hset, getFileDescriptor_eq hfd, getBytes_eq hb, ok_bind, ok_bind,
        pwrite_eq ((hs.pages p).2 ha)]
      exact ⟨_, rfl⟩
    · rw [if_neg hd]
      exact ⟨_, rfl⟩

theorem writeAll_returns {pages : List ℕ} (hs : Positioned s) (hn : pages.Nodup)
    (hb : ∀ p ∈ pages, ∃ a, (s.page p).bytes = some a)
    (hopen : ∀ p ∈ pages, (s.page p).isAnon = false → ∃ set fd, (s.page p).whichSet = some set ∧ s.fds set = some fd) :
    ∃ s', pages.foldlM (State.writeBack cfg) s = .ok s' := by
  induction pages generalizing s with
  | nil => exact ⟨s, rfl⟩
  | cons p pages ih =>
    obtain ⟨hp, hn⟩ := List.nodup_cons.mp hn
    obtain ⟨a, ha⟩ := hb p List.mem_cons_self
    obtain ⟨s₁, he⟩ := @writeBack_returns cfg s p a hs ha (hopen p List.mem_cons_self)
    have h₁ := (writeBack_spec ha (hopen p List.mem_cons_self)).of_eq_ok he
    obtain ⟨pos, hpage⟩ := h₁.page
    have hfds : s₁.fds = s.fds := by rw [h₁.same]
    have hother : ∀ q ∈ pages, s₁.page q = s.page q := by
      intro q hq
      have hqp : q ≠ p := fun heq => hp (heq ▸ hq)
      rw [hpage, update_of_ne hqp]
    rw [List.foldlM_cons, he]
    refine ih (h₁.positioned hs) hn (fun q hq => ?_) fun q hq => ?_
    · rw [hother q hq]
      exact hb q (List.mem_cons_of_mem p hq)
    · rw [hother q hq, hfds]
      exact hopen q (List.mem_cons_of_mem p hq)

theorem evict_returns_iff (h : Core cfg s) (hs : Positioned s) : (∃ s', s.evict cfg = .ok s') ↔ s.lastUsed ≠ [] := by
  unfold State.evict
  cases hlast : s.lastUsed with
  | nil => exact iff_of_false nofun fun hne => hne rfl
  | cons e rest =>
    obtain ⟨f, t⟩ := e
    refine iff_of_true ?_ (List.cons_ne_nil _ _)
    let s₀ := State.setStatuses (s.constituentPages f) .unloading { s with lastUsed := rest }
    have hu : s₀.unusedMiniPages = s.unusedMiniPages := rfl
    have hm : s₀.emptyMiniPages = s.emptyMiniPages := rfl
    obtain ⟨l, he, -, -⟩ := h.mem.clearUnused_eq hu hm f
    have hpage : ∀ p ∈ s.constituentPages f,
        (unloading s f rest l).page p = { s.page p with status := .unloading } := fun p hp => if_pos hp
    have hbegin : Positioned (unloading s f rest l) := (hs.setStatuses _ _).congr rfl rfl rfl
    obtain ⟨s₁, hall⟩ : ∃ s₁, (s.constituentPages f).foldlM (State.writeBack cfg) (unloading s f rest l) = .ok s₁ := by
      refine writeAll_returns hbegin (h.mem.nodup f) (fun p hp => ?_) fun p hp ha => ?_
      · obtain ⟨a, ha, -⟩ := h.mem.resident f p hp
        rw [hpage p hp]
        exact ⟨a, ha⟩
      · rw [hpage p hp] at ha ⊢
        exact h.opened hp ha
    dsimp only
    rw [he, ok_bind]
    exact ⟨_, bind_eq_ok.mpr ⟨s₁, hall, rfl⟩⟩

def Room (k : ℕ) (s : State) : Prop :=
  s.emptyMiniPages k ≠ [] ∨ s.emptyFullPages ≠ [] ∨ s.lastUsed ≠ []

theorem miniPagesFrom_returns_iff (cfg : Config) (k start : ℕ) :
    (∃ minis, miniPagesFrom cfg k start = .ok minis) ↔ cfg.miniPageSize k ≠ 0 := by
  unfold miniPagesFrom
  by_cases hz : cfg.miniPageSize k = 0
  · rw [if_pos hz]
    exact iff_of_false nofun fun h => h hz
  · rw [if_neg hz]
    exact iff_of_true ⟨_, rfl⟩ hz

theorem breakUp_returns_iff {k : ℕ} (hne : s.emptyFullPages ≠ []) :
    (∃ s', s.breakUp cfg k = .ok s') ↔ cfg.miniPageSize k ≠ 0 := by
  obtain ⟨f, hf⟩ : ∃ f, s.emptyFullPages.getLast? = some f := ⟨_, List.getLast?_eq_getLast_of_ne_nil hne⟩
  rw [← miniPagesFrom_returns_iff cfg k 0]
  unfold State.breakUp
  rw [hf]
  constructor
  · rintro ⟨s', h⟩
    obtain ⟨minis, h, -⟩ := bind_eq_ok.mp h
    exact ⟨minis, h⟩
  · rintro ⟨minis, h⟩
    dsimp only
    rw [h]
    exact ⟨_, rfl⟩

theorem createAdditionalMiniPages_returns_iff (h : Core cfg s) (hs : Positioned s) (k : ℕ) :
    (∃ s', s.createAdditionalMiniPages cfg k = .ok s') ↔
      cfg.miniPageSize k ≠ 0 ∧ (s.emptyFullPages ≠ [] ∨ s.lastUsed ≠ []) := by
  unfold State.createAdditionalMiniPages
  by_cases hfull : s.emptyFullPages = []
  · rw [if_pos hfull]
    constructor
    · rintro ⟨s', he⟩
      obtain ⟨s₁, hevict, he⟩ := bind_eq_ok.mp he
      obtain ⟨f, hf⟩ := (evict_spec h).of_eq_ok hevict
      have hne : s₁.emptyFullPages ≠ [] := by
        rw [hf.same]
        simp
      exact ⟨(breakUp_returns_iff hne).mp ⟨s', he⟩, Or.inr ((evict_returns_iff h hs).mp ⟨s₁, hevict⟩)⟩
    · rintro ⟨hz, hroom⟩
      obtain ⟨s₁, hevict⟩ := (evict_returns_iff h hs).mpr (hroom.resolve_left fun hne => hne hfull)
      obtain ⟨f, hf⟩ := (evict_spec h).of_eq_ok hevict
      have hne : s₁.emptyFullPages ≠ [] := by
        rw [hf.same]
        simp
      rw [hevict]
      exact (breakUp_returns_iff hne).mpr hz
  · rw [if_neg hfull, ok_bind, breakUp_returns_iff hfull]
    exact ⟨fun hz => ⟨hz, Or.inl hfull⟩, And.left⟩

theorem getEmptyMemory_returns_iff (h : Core cfg s) (hs : Positioned s) {k : ℕ} (hk : k ≤ cfg.logOfPageSize) :
    (∃ r, s.getEmptyMemory cfg k = .ok r) ↔ cfg.miniPageSize k ≠ 0 ∧ Room k s := by
  have hcreate : (∃ s₂, (if s.emptyMiniPages k = [] then s.createAdditionalMiniPages cfg k else .ok s) = .ok s₂) ↔
      cfg.miniPageSize k ≠ 0 ∧ Room k s := by
    by_cases he : s.emptyMiniPages k = []
    · rw [if_pos he, createAdditionalMiniPages_returns_iff h hs k]
      exact and_congr_right fun _ => ⟨Or.inr, fun hroom => hroom.resolve_left fun hne => hne he⟩
    · rw [if_neg he]
      refine iff_of_true ⟨s, rfl⟩ ⟨?_, Or.inl he⟩
      obtain ⟨a, ha⟩ := List.exists_mem_of_ne_nil _ he
      obtain ⟨hu, hclass⟩ := (h.mem.mini k a).mp ha
      rw [← hclass]
      exact (h.mem.unused _ a hu).size_ne
  rw [← hcreate, State.getEmptyMemory, if_neg (by omega)]
  constructor
  · rintro ⟨r, he⟩
    obtain ⟨s₂, he, -⟩ := bind_eq_ok.mp he
    exact ⟨s₂, he⟩
  · rintro ⟨s₂, he⟩
    have hcore : Core cfg s₂ ∧ s₂.emptyMiniPages k ≠ [] := by
      by_cases hnil : s.emptyMiniPages k = []
      · rw [if_pos hnil] at he
        obtain ⟨s₁, hcreated⟩ := (createAdditionalMiniPages_spec h hk hnil).of_eq_ok he
        exact ⟨hcreated.core, hcreated.ne_nil⟩
      · rw [if_neg hnil] at he
        cases he
        exact ⟨h, hnil⟩
    obtain ⟨a, ha⟩ : ∃ a, (s₂.emptyMiniPages k).getLast? = some a := ⟨_, List.getLast?_eq_getLast_of_ne_nil hcore.2⟩
    obtain ⟨hu, -⟩ := (hcore.1.mem.mini k a).mp (List.mem_of_getLast? ha)
    rw [he, ok_bind, ha]
    dsimp only
    rw [eraseOne, if_pos hu]
    exact ⟨_, rfl⟩

end Returns

section SizeClass

def Config.sizeClass (cfg : Config) (n : ℕ) : ℕ := Nat.clog 2 n - cfg.logOfMinPageSize

theorem Config.eq_sizeClass_iff (cfg : Config) (n k : ℕ) : k = cfg.sizeClass n ↔
    n ≤ 2 ^ (cfg.logOfMinPageSize + k) ∧ ∀ j < k, 2 ^ (cfg.logOfMinPageSize + j) < n := by
  have hle : ∀ j, n ≤ 2 ^ (cfg.logOfMinPageSize + j) ↔ cfg.sizeClass n ≤ j := by
    intro j
    rw [← Nat.clog_le_iff_le_pow Nat.one_lt_two, sizeClass]
    omega
  rw [hle]
  constructor
  · rintro rfl
    refine ⟨Nat.le_refl _, fun j hj => ?_⟩
    rw [← not_le, hle]
    omega
  · rintro ⟨hk, hlow⟩
    by_contra hne
    have hlt := hlow (cfg.sizeClass n) (by omega)
    rw [← not_le, hle] at hlt
    exact hlt (Nat.le_refl _)

theorem logPageSizeLoop_zero {n : ℕ} (hn : 0 < n) (fuel b : ℕ) : logPageSizeLoop n fuel 0 b = .error .diverges := by
  induction fuel generalizing b with
  | zero => rfl
  | succ fuel ih =>
    rw [logPageSizeLoop, if_pos hn]
    exact ih _

theorem logPageSizeLoop_eq {m n fuel cur b k : ℕ} (hcur : cur = 2 ^ (m + b) ∨ cur = 0 ∧ 0 < n)
    (hlow : ∀ j < b, 2 ^ (m + j) < n) (h : logPageSizeLoop n fuel cur b = .ok k) :
    n ≤ 2 ^ (m + k) ∧ ∀ j < k, 2 ^ (m + j) < n := by
  induction fuel generalizing cur b with
  | zero => cases h
  | succ fuel ih =>
    rw [logPageSizeLoop] at h
    by_cases hlt : cur < n
    · rw [if_pos hlt] at h
      rcases hcur with rfl | ⟨rfl, hpos⟩
      · have hlow' : ∀ j < b + 1, 2 ^ (m + j) < n := by
          intro j hj
          rcases Nat.lt_succ_iff_lt_or_eq.mp hj with hj | rfl
          · exact hlow j hj
          · exact hlt
        refine ih ?_ hlow' h
        rw [← Nat.pow_succ]
        by_cases hw : m + b + 1 < 64
        · exact Or.inl (Nat.mod_eq_of_lt (Nat.pow_lt_pow_right Nat.one_lt_two hw))
        · exact Or.inr ⟨Nat.mod_eq_zero_of_dvd (Nat.pow_dvd_pow 2 (by omega)), Nat.zero_lt_of_lt hlt⟩
      · rw [Nat.zero_mul, Nat.zero_mod, logPageSizeLoop_zero hpos] at h
        cases h
    · rw [if_neg hlt] at h
      cases h
      rcases hcur with rfl | ⟨rfl, hpos⟩
      · exact ⟨Nat.le_of_not_lt hlt, hlow⟩
      · exact absurd hpos hlt

theorem logPageSizeLoop_returns {m n fuel b k : ℕ} (hk : n ≤ 2 ^ (m + k)) (hlow : ∀ j < k, 2 ^ (m + j) < n)
    (hw : m + k < 64) (hb : b ≤ k) (hfuel : k < b + fuel) : logPageSizeLoop n fuel (2 ^ (m + b)) b = .ok k := by
  induction fuel generalizing b with
  | zero => omega
  | succ fuel ih =>
    rw [logPageSizeLoop]
    rcases Nat.lt_or_eq_of_le hb with hlt | rfl
    · have hdouble : 2 ^ (m + b) * 2 % 2 ^ 64 = 2 ^ (m + (b + 1)) := by
        rw [← Nat.pow_succ]
        exact Nat.mod_eq_of_lt (Nat.pow_lt_pow_right Nat.one_lt_two (by omega))
      rw [if_pos (hlow b hlt), hdouble]
      exact ih hlt (by omega)
    · rw [if_neg (Nat.not_lt.mpr hk)]

theorem getLogPageSize_eq {n k : ℕ} (h : getLogPageSize cfg n = .ok k) : k = cfg.sizeClass n :=
  (cfg.eq_sizeClass_iff n k).mpr (logPageSizeLoop_eq (b := 0) (Or.inl rfl) nofun h)

theorem getLogPageSize_returns {n : ℕ} (hw : cfg.logOfMinPageSize + cfg.sizeClass n < 64) :
    getLogPageSize cfg n = .ok (cfg.sizeClass n) := by
  obtain ⟨hk, hlow⟩ := (cfg.eq_sizeClass_iff n _).mp rfl
  exact logPageSizeLoop_returns (b := 0) hk hlow hw (Nat.zero_le _) (by omega)

theorem Config.sizeClass_le_iff (cfg : Config) (n : ℕ) : cfg.sizeClass n ≤ cfg.logOfPageSize ↔ n ≤ cfg.pageSize := by
  rw [Config.pageSize_eq, ← Nat.clog_le_iff_le_pow Nat.one_lt_two, sizeClass]
  omega

theorem Config.miniPageSize_ne_zero_iff (cfg : Config) (k : ℕ) : cfg.miniPageSize k ≠ 0 ↔ cfg.logOfMinPageSize + k < 32 := by
  unfold Config.miniPageSize Config.minPageSize
  rw [Nat.shiftLeft_eq, ← Nat.pow_add]
  by_cases hlt : cfg.logOfMinPageSize + k < 32
  · rw [Nat.mod_eq_of_lt (Nat.pow_lt_pow_right Nat.one_lt_two hlt)]
    exact iff_of_true (Nat.two_pow_pos _).ne' hlt
  · refine iff_of_false (fun hne => hne ?_) hlt
    exact Nat.mod_eq_zero_of_dvd (Nat.pow_dvd_pow 2 (by omega))

end SizeClass

section Serving

structure Granted (cfg : Config) (n : ℕ) (me : PDBPage) : Prop where
  pinned : me.pinned = true
  held : 0 < me.refCount
  resident : me.bytes ≠ none
  enough : n ≤ cfg.miniPageSize me.location.numBytes
  smallest : ∀ k < me.location.numBytes, cfg.miniPageSize k < n

def Serves (cfg : Config) (n : ℕ) (s : State) : Prop :=
  if n ≤ cfg.pageSize then ∃ s', s.getPage cfg n = .ok s' ∧ Granted cfg n (s'.page s.nextPage)
  else s.getPage cfg n = .ok s

theorem getPage_oversized {n : ℕ} (hn : ¬n ≤ cfg.pageSize) (s s' : State) : s.getPage cfg n ≠ .ok s' := by
  intro h
  obtain ⟨k, hk, h⟩ := bind_eq_ok.mp h
  obtain ⟨r, hr, -⟩ := bind_eq_ok.mp h
  have hlarge : cfg.logOfPageSize < k := by
    rw [getLogPageSize_eq hk, ← not_le, Config.sizeClass_le_iff]
    exact hn
  rw [State.getEmptyMemory, if_pos hlarge] at hr
  cases hr

theorem getPage_granted (h : Core cfg s) {n a : ℕ} {s₂ : State} (hn : n ≤ cfg.pageSize)
    (hz : cfg.miniPageSize (cfg.sizeClass n) ≠ 0) (hmem : s.getEmptyMemory cfg (cfg.sizeClass n) = .ok (a, s₂)) :
    ∃ s', s.getPage cfg n = .ok s' ∧ Granted cfg n (s'.page s.nextPage) := by
  have hw := (cfg.miniPageSize_ne_zero_iff _).mp hz
  obtain ⟨s₁, h₂⟩ := (getEmptyMemory_spec h ((cfg.sizeClass_le_iff n).mpr hn)).of_eq_ok hmem
  have hnext : s₂.nextPage = s.nextPage := h₂.frame.1
  obtain ⟨free, last, htake⟩ := takePageNumber_snd s₂
  let s₃ : State := { s₂.setPage s.nextPage (newAnonymous s₂.takePageNumber.1 a (cfg.sizeClass n)) with
    nextPage := s.nextPage + 1, freeAnonPageNumbers := free, lastFreeAnonPageNumber := last }
  have hpage : s₃.page s.nextPage = newAnonymous s₂.takePageNumber.1 a (cfg.sizeClass n) := update_self ..
  have hregister : s.getPage cfg n = s₃.registerMiniPage cfg s.nextPage := by
    rw [State.getPage, getLogPageSize_returns (by omega), ok_bind, hmem, ok_bind]
    dsimp only
    rw [htake]
    dsimp only
    rw [hnext]
    rfl
  have hb : (s₃.page s.nextPage).bytes = some a := by rw [hpage, newAnonymous]
  rw [hregister, registerMiniPage_eq hb, pinFullPage_eq]
  refine ⟨_, rfl, ?_⟩
  dsimp only
  rw [hpage]
  obtain ⟨henough, hsmallest⟩ := (cfg.eq_sizeClass_iff n _).mp rfl
  refine ⟨rfl, Nat.one_pos, by rw [newAnonymous]; simp, ?_, fun k hk => ?_⟩
  · rw [newAnonymous, Config.miniPageSize_eq hz]
    exact henough
  · have hk' : k < cfg.sizeClass n := hk
    rw [Config.miniPageSize_eq ((cfg.miniPageSize_ne_zero_iff k).mpr (by omega))]
    exact hsmallest k hk'

theorem Located.serves_iff (h : Located cfg s) (n : ℕ) : Serves cfg n s ↔
    n ≤ cfg.pageSize ∧ cfg.miniPageSize (cfg.sizeClass n) ≠ 0 ∧ Room (cfg.sizeClass n) s := by
  unfold Serves
  by_cases hn : n ≤ cfg.pageSize
  · rw [if_pos hn, and_iff_right hn,
      ← getEmptyMemory_returns_iff h.core h.positioned ((cfg.sizeClass_le_iff n).mpr hn)]
    constructor
    · rintro ⟨s', he, -⟩
      obtain ⟨k, hk, he⟩ := bind_eq_ok.mp he
      obtain ⟨r, hr, -⟩ := bind_eq_ok.mp he
      rw [getLogPageSize_eq hk] at hr
      exact ⟨r, hr⟩
    · rintro ⟨⟨a, s₂⟩, hmem⟩
      have hz := ((getEmptyMemory_returns_iff h.core h.positioned ((cfg.sizeClass_le_iff n).mpr hn)).mp ⟨_, hmem⟩).1
      exact getPage_granted h.core hn hz hmem
  · rw [if_neg hn]
    exact iff_of_false (getPage_oversized hn s s) fun hx => hn hx.1

theorem servesSize_iff (cfg : Config) (memory : ℕ → UInt8) (files : ℕ → ℕ → UInt8) (s : State)
    (h : Reachable (step cfg) (Op.Sound cfg) (· = initialState cfg memory files) s) (n : ℕ) : Serves cfg n s ↔
    n ≤ cfg.pageSize ∧ cfg.miniPageSize (cfg.sizeClass n) ≠ 0 ∧ Room (cfg.sizeClass n) s :=
  (located_of_reachable h).serves_iff n

theorem serves_smallState : Serves smallConfig 1048577 smallState := by
  refine (servesSize_iff smallConfig (fun _ => 0) (fun _ _ => 0) smallState (.start rfl) 1048577).mpr ⟨?_, ?_, Or.inr (Or.inl ?_)⟩
  · decide
  · rw [Config.miniPageSize_ne_zero_iff]
    decide +kernel
  · decide

theorem not_serves_oversized : ¬Serves smallConfig (smallConfig.pageSize + 1) smallState := by
  unfold Serves
  rw [if_neg (by omega)]
  exact getPage_oversized (by omega) smallState smallState

end Serving

end PlinyCompute.BufferManager
