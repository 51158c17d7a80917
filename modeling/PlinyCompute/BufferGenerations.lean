import PlinyCompute.BufferPlaces
import PlinyCompute.ReadYourWrites

namespace PlinyCompute.BufferManager

open Function Transition

variable {cfg : Config} {s s' : State} {last : PageName → ℕ → Option UInt8} {sets : PDBSet → Prop} {m m' : Manager}
  {p : ℕ} {key : PDBSet × ℕ} {op : Op}

abbrev Generation := Manager × (PageName → ℕ → Option UInt8)

def generationStep (op : ManagerOp) (x : Generation) : Except Fault Generation := do
  let m ← managerStep op x.1
  .ok (m, match op with
    | .call op => op.recordWrites x.1.cfg x.1.state m.state x.2
    | .restart => ofSets x.2)

structure Manager.Restartable (m : Manager) : Prop where
  names : ∀ set ∈ m.sets, set.Plain
  paths : ∀ path ∈ [m.tempFile, m.metaDataFile, m.cfg.storageLoc], '|' ∉ path ∧ '\n' ∉ path
  metaFile : ∃ fd, m.cfg.openFile m.metaDataFile = some fd ∧
    ∀ set ∈ m.sets, m.cfg.openFile (m.cfg.fileLoc set) ≠ some fd
  short : ∀ ent ∈ (m.writtenBack (m.state.placed m.cfg)).fields, ent.1.length + ent.2.length + 3 < 2 ^ 31

def ManagerOp.Meets (sets : PDBSet → Prop) (op : ManagerOp) (x : Generation) : Prop :=
  match op with
  | .call op => op.Recordable x.1.cfg sets (x.1.state, x.2)
  | .restart => x.1.Restartable

structure Tracked (sets : PDBSet → Prop) (x : Generation) : Prop where
  files : OwnFiles x.1.cfg sets
  configured : x.1.Configured
  sane : Sane x.1.cfg x.1.state
  recorded : ∃ F, MoreOpen F x.1.state { x.1.state with fds := F } ∧
    Recorded x.1.cfg sets ({ x.1.state with fds := F }, x.2) ∧ ∀ set fd, F set = some fd → set ∈ x.1.sets
  keyed : x.1.Keyed
  known : ∀ key p, x.1.state.allPages key = some p → key.1 ∈ x.1.sets
  listed : ∀ key ∈ x.1.located, key.1 ∈ x.1.sets
  room : ∀ key info, x.1.state.pageLocations key = some info →
    0 < x.1.cfg.numPages ∧ x.1.cfg.miniPageSize info.numBytes ≠ 0

theorem assignLocation_located (cfg : Config) (s : State) (p : ℕ) :
    (s.assignLocation cfg p).pageLocations key = s.pageLocations key ∨ s.pageKey p = some key := by
  rcases assignLocation_cases cfg s p with ⟨heq, -⟩ | ⟨set, -, hw, -, heq⟩
  · rw [heq]
    exact Or.inl rfl
  · rw [heq]
    by_cases hk : key = (set, (s.page p).pageNum)
    · rw [State.pageKey, hw, hk]
      exact Or.inr rfl
    · exact Or.inl (update_of_ne hk _ _)

theorem Unpinned.located (h : Unpinned cfg p s s') :
    s'.pageLocations key = s.pageLocations key ∨ s.pageKey p = some key := by
  cases h with
  | already _ => exact Or.inl rfl
  | @now a _ _ =>
    have hsame : ((s.setPage p { s.page p with pinned := false, sizeFrozen := true }).unpinFullPage
        (cfg.fullPage a)).pageKey p = s.pageKey p := by
      rw [unpinFullPage_eq]
      simp [State.pageKey, State.setPage]
    rw [← hsame]
    refine (assignLocation_located cfg _ p).imp_left fun heq => heq.trans ?_
    rw [unpinFullPage_eq]
    rfl

theorem Stepped.located (h : Stepped cfg s op s') (key : PDBSet × ℕ) :
    s'.pageLocations key = s.pageLocations key ∨ op.unpinned.bind s.pageKey = some key := by
  cases h with
  | getPage h =>
    cases h with
    | mk h₂ =>
      rw [place_same]
      exact Or.inl (congrFun h₂.frame.2.2.1 key)
  | getSetPage h₀ h =>
    have hl := h.tables.1
    rw [h₀.same] at hl
    exact Or.inl (congrFun hl key)
  | freezeSize _ _ h =>
    cases h with
    | mk _ _ _ _ => exact Or.inl rfl
  | unpin _ h => exact h.located
  | repin _ h => exact Or.inl (congrFun h.tables.1 key)
  | @drop p _ h =>
    cases h with
    | kept _ => exact Or.inl rfl
    | freed _ _ h =>
      rw [h.same]
      exact Or.inl rfl
    | forgotten _ _ _ _ => exact Or.inl rfl
    | unpinned _ _ _ _ h =>
      have hsame : (s.setPage p { s.page p with refCount := 0 }).pageKey p = s.pageKey p := by
        simp [State.pageKey, State.setPage]
      rw [Op.unpinned, Option.bind_some, ← hsame]
      exact h.located
  | setDirty _ _ => exact Or.inl rfl
  | write _ _ _ _ => exact Or.inl rfl

theorem mem_insertKey {α : Type} [BEq α] [LawfulBEq α] {o : Option α} {l : List α} {a : α} :
    a ∈ insertKey o l ↔ a ∈ l ∨ o = some a := by
  cases o with
  | none => simp [insertKey]
  | some b =>
    rw [insertKey, Option.elim_some, List.mem_insert_iff, Option.some.injEq, or_comm]
    exact or_congr_right eq_comm

theorem nodup_insertKey {α : Type} [BEq α] [LawfulBEq α] {l : List α} (o : Option α) (hn : l.Nodup) :
    (insertKey o l).Nodup := by
  cases o with
  | none => exact hn
  | some b =>
    by_cases hb : b ∈ l
    · rw [insertKey, Option.elim_some, List.insert_of_mem hb]
      exact hn
    · rw [insertKey, Option.elim_some, List.insert_of_not_mem hb]
      exact List.nodup_cons.mpr ⟨hb, hn⟩

theorem recordable_fds {F : PDBSet → Option ℕ} (h : op.Recordable cfg sets (s, last)) :
    op.Recordable cfg sets ({ s with fds := F }, last) := by
  cases op
  all_goals exact h

theorem recordWrites_fds {F F' : PDBSet → Option ℕ} :
    op.recordWrites cfg { s with fds := F } { s' with fds := F' } last = op.recordWrites cfg s s' last := by
  cases op
  all_goals rfl

theorem Stepped.opens (h : Stepped cfg s op s') {set : PDBSet} {fd : ℕ} (hfd : s'.fds set = some fd) :
    s.fds set = some fd ∨ op.opened = some set := by
  rcases h.fds with heq | ⟨set₀, i, s₀, rfl, h₀, heq⟩
  · rw [heq] at hfd
    exact Or.inl hfd
  · rw [heq] at hfd
    cases h₀ with
    | already _ => exact Or.inl hfd
    | now _ _ =>
      by_cases hset : set = set₀
      · rw [hset]
        exact Or.inr rfl
      · exact Or.inl ((update_of_ne hset _ _).symm.trans hfd)

theorem Tracked.call {x : Generation} (h : Tracked sets x) (hop : op.Recordable x.1.cfg sets (x.1.state, x.2))
    (he : x.1.call op = .ok m') : Tracked sets (m', op.recordWrites x.1.cfg x.1.state m'.state x.2) := by
  obtain ⟨m, last⟩ := x
  obtain ⟨s', hs, he⟩ := bind_eq_ok.mp he
  cases he
  obtain ⟨F, hm, hr, hF⟩ := h.recorded
  have hop' := hop
  obtain ⟨⟨ha, hf, hfit⟩, hu⟩ := hop'
  obtain ⟨hstep, hc'⟩ := (step_spec h.sane.core h.sane.settled hfit ha hf).of_eq_ok hs
  have hplaces := hstep.places h.sane.core h.sane.settled
  have hlive : ∀ key p, m.state.allPages key = some p → m.state.Live p := fun key p hk => Or.inr ⟨key, hk⟩
  refine ⟨h.files, h.configured, ⟨hc', hstep.settled h.sane.core h.sane.settled⟩, ?_, ⟨?_, ?_, ?_, ?_⟩, ?_, ?_, ?_⟩
  · obtain ⟨F', hF'⟩ := hm.step (fun set fd hfd => (hr.opened set fd hfd).2) op
    obtain ⟨t', ht', hm'⟩ := hF' s' hs
    have hopt : op.Recordable m.cfg sets ({ m.state with fds := F }, last) := recordable_fds hop
    have hr' := hr.step h.files hopt (by rw [recordedStep, ht']; rfl)
    obtain ⟨htstep, -⟩ := (step_spec hr.core hr.settled hopt.1.2.2 hopt.1.1 hopt.1.2.1).of_eq_ok ht'
    obtain ⟨ho, rfl⟩ := hm'
    rw [recordWrites_fds] at hr'
    refine ⟨F', ⟨ho, rfl⟩, hr', fun set fd hfd => mem_insertKey.mpr ?_⟩
    exact (htstep.opens hfd).imp_left (hF set fd)
  · exact nodup_insertKey _ h.keyed.sets
  · exact nodup_insertKey _ h.keyed.located
  · intro key
    rw [mem_insertKey, h.keyed.locations key]
    dsimp only
    constructor
    · rintro (hx | hx)
      · obtain ⟨info, hinfo⟩ := Option.ne_none_iff_exists'.mp hx
        rw [hplaces.old key info hinfo]
        simp
      · exact of_decide_eq_true (Option.filter_eq_some_iff.mp hx).2
    · intro hx
      rcases hstep.located key with heq | hkey
      · rw [← heq]
        exact Or.inl hx
      · exact Or.inr (Option.filter_eq_some_iff.mpr ⟨hkey, decide_eq_true hx⟩)
  · intro set hx
    dsimp only at hx
    rw [mem_insertKey]
    rcases hplaces.ends set with heq | ⟨i, p, hk⟩
    · rw [heq] at hx
      exact Or.inl (h.keyed.ends set hx)
    · exact Or.inl (h.known _ p hk)
  · intro key p hk
    rw [mem_insertKey]
    rcases hstep.allPages_old h.sane.core h.sane.settled hk with hk | rfl
    · exact Or.inl (h.known key p hk)
    · exact Or.inr rfl
  · intro key hk
    rw [mem_insertKey] at hk ⊢
    rcases hk with hk | hk
    · exact Or.inl (h.listed key hk)
    · obtain ⟨info, hinfo⟩ := Option.ne_none_iff_exists'.mp (of_decide_eq_true (Option.filter_eq_some_iff.mp hk).2)
      rcases hplaces.new key info hinfo with hx | ⟨p, hkey, -⟩
      · exact Or.inl (h.listed key ((h.keyed.locations key).mpr (by dsimp only; rw [hx]; simp)))
      · exact Or.inl (h.known key p hkey)
  · intro key info hx
    rcases hplaces.new key info hx with hx | ⟨p, hkey, hb, hn⟩
    · exact h.room key info hx
    · obtain ⟨a, hb⟩ := Option.ne_none_iff_exists'.mp hb
      rw [hn]
      exact h.sane.core.room (hlive key p hkey) hb

theorem core_restored (h : ∀ key info, s.pageLocations key = some info → info.numBytes ≤ cfg.logOfPageSize)
    (fds : PDBSet → Option ℕ) (files : ℕ → ℕ → UInt8) : Core cfg (restored cfg s fds files) := by
  obtain ⟨⟨⟨h1, h2, h3, -⟩, hm, hp, hcl, -⟩, hl, hu⟩ := core_initialState cfg (fun _ => 0) files
  refine ⟨⟨⟨h1, h2, h3, ?_⟩, ?_, hp, hcl, h⟩, ?_, hu⟩
  · intro key p hk
    cases hk
  · exact hm.congr (fun _ => ⟨rfl, rfl, rfl⟩) (fun _ hq => hq) (Nat.le_refl _) (fun _ _ _ _ hk => hk) rfl rfl rfl rfl
  · exact hl.congr rfl rfl rfl rfl fun _ => rfl

theorem settled_restored (cfg : Config) (s : State) (fds : PDBSet → Option ℕ) (files : ℕ → ℕ → UInt8) :
    Settled (restored cfg s fds files) := (sane_initialState cfg (fun _ => 0) files).settled

theorem Tracked.places {x : Generation} (h : Tracked sets x) :
    Places x.1.cfg x.1.state (x.1.state.placed x.1.cfg) ∧ SameObjects x.1.state (x.1.state.placed x.1.cfg) ∧
      RefInv (x.1.state.placed x.1.cfg) := by
  obtain ⟨F, -, hr, -⟩ := h.recorded
  have href := h.sane.core.ref
  apply places_foldl href
  · exact fun p hp => href.mem_pagesInOrder.mp hp
  · intro p hp hd hb
    have hclean := (hr.kept.pages p (Or.inr (href.mem_pagesInOrder.mp hp))).evicted hb (h.sane.settled p).1
    cases hd.symm.trans hclean

theorem Tracked.mem_writtenBack {x : Generation} (h : Tracked sets x) (files : ℕ → ℕ → UInt8) (key : PDBSet × ℕ) :
    key ∈ (x.1.writtenBack { x.1.state.placed x.1.cfg with files := files }).located ↔
      (x.1.state.placed x.1.cfg).pageLocations key ≠ none := by
  obtain ⟨hplaces, hsame, href⟩ := h.places
  have href' : RefInv { x.1.state.placed x.1.cfg with files := files } := ⟨href.key, href.held, href.anon, href.opened⟩
  rw [Manager.writtenBack, List.mem_union_iff, List.mem_filter, List.mem_filterMap, h.keyed.locations key]
  constructor
  · rintro (⟨-, hx⟩ | hx)
    · exact of_decide_eq_true hx
    · obtain ⟨info, hinfo⟩ := Option.ne_none_iff_exists'.mp hx
      rw [hplaces.old key info hinfo]
      simp
  · intro hx
    obtain ⟨info, hinfo⟩ := Option.ne_none_iff_exists'.mp hx
    rcases hplaces.new key info hinfo with hold | ⟨p, hkey, -⟩
    · rw [hold]
      exact Or.inr (by simp)
    · rw [← hsame.allPages] at hkey
      exact Or.inl ⟨⟨p, href'.mem_pagesInOrder.mpr ⟨key, hkey⟩, href'.pageKey hkey⟩, decide_eq_true hx⟩

theorem Tracked.keyed_writtenBack {x : Generation} (h : Tracked sets x) (files : ℕ → ℕ → UInt8) :
    (x.1.writtenBack { x.1.state.placed x.1.cfg with files := files }).Keyed := by
  refine ⟨h.keyed.sets, List.Nodup.union _ h.keyed.located, h.mem_writtenBack files, fun set hx => ?_⟩
  rcases h.places.1.ends set with heq | ⟨i, p, hk⟩
  · exact h.keyed.ends set (heq ▸ hx)
  · exact h.known _ p hk

theorem Tracked.listed_writtenBack {x : Generation} (h : Tracked sets x) (files : ℕ → ℕ → UInt8) :
    ∀ key ∈ (x.1.writtenBack { x.1.state.placed x.1.cfg with files := files }).located, key.1 ∈ x.1.sets := by
  intro key hkey
  obtain ⟨info, hinfo⟩ := Option.ne_none_iff_exists'.mp ((h.mem_writtenBack files key).mp hkey)
  rcases h.places.1.new key info hinfo with hold | ⟨p, hk, -⟩
  · exact h.listed key ((h.keyed.locations key).mpr (by rw [hold]; simp))
  · exact h.known key p hk

theorem Tracked.restart {x : Generation} (h : Tracked sets x) (hr : x.1.Restartable) : ∃ m' files,
    x.1.restart = .ok m' ∧ m'.cfg = x.1.cfg ∧
      m'.state = restored x.1.cfg (x.1.state.placed x.1.cfg) (fun _ => none) files ∧
      (∀ set, set ∈ m'.sets ↔ set ∈ x.1.sets) ∧ Tracked sets (m', ofSets x.2) := by
  obtain ⟨m, last⟩ := x
  obtain ⟨F, hm, hrec, hF⟩ := h.recorded
  obtain ⟨hplaces, hsame, href⟩ := h.places
  obtain ⟨fd, hfd, hmeta⟩ := hr.metaFile
  obtain ⟨files, hflush, hkept⟩ := flushAll_kept hm hrec.kept h.sane.core.ref h.sane.settled
  dsimp only at hm hrec hF hplaces hsame href hfd hmeta hflush hkept
  obtain ⟨m₁, hm₁⟩ : ∃ m₁, m₁ = m.writtenBack { m.state.placed m.cfg with files := files } := ⟨_, rfl⟩
  have hw : m₁.Writable := by
    rw [hm₁]
    refine ⟨hr.names, hr.paths, hr.short, h.listed_writtenBack files, fun key info hx => ?_⟩
    exact ((hkept files fun _ _ _ => rfl).homes.located key.1 key.2 info hx).2.1
  have hk₁ : m₁.Keyed := by
    rw [hm₁]
    exact h.keyed_writtenBack files
  have hc₁ : m₁.Configured := by
    rw [hm₁]
    exact h.configured
  obtain ⟨files', hfiles'⟩ : ∃ files', files' = update files fd (textBytes m₁.metaData.save) := ⟨_, rfl⟩
  have hsame_files : ∀ set fd', F set = some fd' → files' fd' = files fd' := by
    intro set fd' hx
    rw [hfiles']
    apply update_of_ne
    rintro rfl
    exact hmeta set (hF set _ hx) (hrec.opened set _ hx).2
  obtain ⟨sets', located', hinit, hn, hn', hmem, hmem'⟩ := hw.initializeFrom hc₁ hk₁ files'
  have hrestart : m.restart = .ok ⟨m.cfg, m.tempFile, m.metaDataFile, sets', located',
      restored m.cfg (m.state.placed m.cfg) (fun _ => none) files'⟩ := by
    unfold Manager.restart Manager.destroy
    rw [hflush, ok_bind, ok_bind]
    dsimp only
    rw [← hm₁, writeText, hfd]
    dsimp only
    rw [← hfiles']
    rw [hm₁] at hinit ⊢
    exact hinit
  have hlocations : ∀ key info, (m.state.placed m.cfg).pageLocations key = some info →
      info.numBytes ≤ m.cfg.logOfPageSize := by
    intro key info hx
    rcases hplaces.new key info hx with hx | ⟨p, hkey, -, hnb⟩
    · exact h.sane.core.locations key info hx
    · rw [hnb]
      exact h.sane.core.classes p (Or.inr ⟨key, hkey⟩)
  have hsets : ∀ set, set ∈ sets' ↔ set ∈ m.sets := by
    intro set
    rw [hmem, hm₁]
    rfl
  refine ⟨_, files', hrestart, rfl, rfl, hsets, h.files, h.configured,
    ⟨core_restored hlocations _ _, settled_restored _ _ _ _⟩, ?_, ⟨hn, hn', ?_, ?_⟩, ?_, ?_, ?_⟩
  · refine ⟨F, ⟨?_, rfl⟩, ⟨⟨core_restored hlocations _ _, settled_restored _ _ _ _⟩, hkept files' hsame_files,
      hrec.opened⟩, fun set fd' hx => (hsets set).mpr (hF set fd' hx)⟩
    intro set fd' hx
    cases hx
  · intro key
    rw [hmem', hm₁]
    exact h.mem_writtenBack files key
  · intro set hx
    rw [hsets]
    have := hk₁.ends set
    rw [hm₁] at this
    exact this hx
  · intro key p hx
    cases hx
  · intro key hx
    rw [hmem', hm₁] at hx
    rw [hsets]
    exact h.listed_writtenBack files key hx
  · intro key info hx
    rcases hplaces.new key info hx with hx | ⟨p, hkey, hb, hnb⟩
    · exact h.room key info hx
    · obtain ⟨a, hb⟩ := Option.ne_none_iff_exists'.mp hb
      rw [hnb]
      exact h.sane.core.room (Or.inr ⟨key, hkey⟩) hb

theorem loadSetPage_free (h : Core cfg s) {set : PDBSet} {i fd : ℕ} {info : PDBPageInfo} (hfd : s.fds set = some fd)
    (hkey : s.allPages (set, i) = none) (hloc : s.pageLocations (set, i) = some info)
    (hz : cfg.miniPageSize info.numBytes ≠ 0) (hpos : 0 ≤ info.startPos) (hfree : s.emptyFullPages ≠ []) :
    ∃ s', s.loadSetPage cfg set i info = .ok s' := by
  have hk := h.locations (set, i) info hloc
  have hc₀ : Core cfg (alloc s set i (knownSetPage set i info)) := h.alloc hfd hkey rfl rfl rfl rfl rfl hk
  obtain ⟨⟨a, s₂⟩, hmem⟩ := getEmptyMemory_free hc₀ hk hz hfree
  obtain ⟨s₁, h₂⟩ := (getEmptyMemory_spec hc₀ hk).of_eq_ok hmem
  have hfd₂ : ∀ me, (place cfg s₂ s₂.nextPage s.nextPage a me).fds set = some fd := by
    intro me
    rw [place_same]
    exact (congrFun h₂.frame.2.1 set).trans hfd
  rw [State.loadSetPage]
  change ∃ s', (alloc s set i (knownSetPage set i info)).getEmptyMemory cfg info.numBytes >>= _ = _
  rw [hmem, ok_bind]
  dsimp only
  rw [registerMiniPage_setPage rfl, ok_bind, getFileDescriptor_eq (hfd₂ _), ok_bind, State.pread, if_neg (by omega),
    ok_bind]
  exact ⟨_, rfl⟩

theorem Tracked.loads {x : Generation} (h : Tracked sets x) {s : State} {files : ℕ → ℕ → UInt8}
    (hx : x.1.state = restored x.1.cfg s (fun _ => none) files) {set : PDBSet} {i : ℕ}
    (hloc : s.pageLocations (set, i) ≠ none) : ∃ m' p, x.1.call (.getSetPage set i) = .ok m' ∧
      m'.state.allPages (set, i) = some p ∧ Reads (x.2 (.ofSet set i)) m'.state p := by
  obtain ⟨m, last⟩ := x
  obtain ⟨F, hm, hr, hF⟩ := h.recorded
  dsimp only at hm hr hF hx
  obtain ⟨info, hinfo⟩ := Option.ne_none_iff_exists'.mp hloc
  have hinfo' : m.state.pageLocations (set, i) = some info := by
    rw [hx]
    exact hinfo
  obtain ⟨⟨fd, hfd⟩, hpos, -⟩ := hr.kept.homes.located set i info hinfo'
  obtain ⟨hset, hopen⟩ := hr.opened set fd hfd
  obtain ⟨hpages, hz⟩ := h.room _ info hinfo'
  have hnone : m.state.fds set = none := by rw [hx]; rfl
  have hall : m.state.allPages (set, i) = none := by rw [hx]; rfl
  have hlru : m.state.lastUsed = [] := by rw [hx]; rfl
  have hfree : m.state.emptyFullPages ≠ [] := by
    rw [hx]
    simp only [restored, initialState, ne_eq, List.map_eq_nil_iff, List.range_eq_nil]
    exact Nat.pos_iff_ne_zero.mp hpages
  have hcheck : m.state.checkIfOpen m.cfg set = .ok { m.state with fds := update m.state.fds set (some fd) } := by
    rw [State.checkIfOpen, hnone, if_neg (by simp), hopen]
  have hopened := (checkIfOpen_spec m.cfg set m.state).of_eq_ok hcheck
  obtain ⟨s', hs'⟩ := @loadSetPage_free m.cfg { m.state with fds := update m.state.fds set (some fd) }
    (hopened.core h.sane.core) set i fd info (update_self _ _ _) hall hinfo' hz hpos hfree
  have hstep : step m.cfg (.getSetPage set i) m.state = .ok s' := by
    change State.getSetPage m.cfg set i m.state = _
    rw [State.getSetPage, hcheck, ok_bind]
    dsimp only
    rw [hall, hinfo']
    exact hs'
  obtain ⟨F', hF'⟩ := hm.step (fun set fd hfd => (hr.opened set fd hfd).2) (.getSetPage set i)
  obtain ⟨t', ht', ho, rfl⟩ := hF' s' hstep
  have hop : Op.Recordable m.cfg sets (.getSetPage set i) ({ m.state with fds := F }, last) := by
    refine ⟨⟨trivial, trivial, fun e he => ?_⟩, hset⟩
    rw [hlru] at he
    cases he
  obtain ⟨p, hp, hreads⟩ := hr.reads_getSetPage h.files hop ht' (by dsimp only; rw [hinfo']; simp)
  obtain ⟨m', hcall, hstate⟩ : ∃ m', m.call (.getSetPage set i) = .ok m' ∧ m'.state = s' := by
    rw [Manager.call, hstep]
    exact ⟨_, rfl, rfl⟩
  refine ⟨m', p, hcall, ?_, ?_⟩
  · rw [hstate]
    exact hp
  · rw [hstate]
    exact hreads

theorem tracked_new {n pageSize numPages : ℕ} {openFile : Name → Option ℕ} {tempFile metaFile storageLoc : Name}
    {files : ℕ → ℕ → UInt8}
    (hnew : initializeNew n openFile tempFile pageSize numPages metaFile storageLoc files = .ok m)
    (hfiles : OwnFiles m.cfg sets) : Tracked sets (m, fun _ _ => none) := by
  obtain ⟨cfg, rfl, ⟨rfl, rfl, rfl, rfl, rfl⟩, hagain⟩ := initializeNew_ok hnew
  have hsane := sane_initialState cfg (fun _ => 0) files
  have hnone : ∀ set fd, (initialState cfg (fun _ => 0) files).fds set ≠ some fd := by
    intro set fd hx
    cases hx
  refine ⟨hfiles, hagain, hsane, ⟨fun _ => none, ⟨?_, rfl⟩, ⟨hsane, kept_initialState cfg (fun _ => 0) files, ?_⟩, ?_⟩,
    ⟨List.nodup_nil, List.nodup_nil, ?_, ?_⟩, ?_, ?_, ?_⟩
  · exact fun set fd hx => absurd hx (hnone set fd)
  · exact fun set fd hx => absurd hx (hnone set fd)
  · exact fun set fd hx => absurd hx (hnone set fd)
  · intro key
    simp [initialState]
  · exact fun set hx => absurd rfl hx
  · intro key p hx
    cases hx
  · intro key hx
    cases hx
  · intro key info hx
    cases hx

theorem tracked_of_reachable {m : Manager} (h₀ : Tracked sets (m, fun _ _ => none)) {x : Generation}
    (h : Reachable generationStep (ManagerOp.Meets sets) (· = (m, fun _ _ => none)) x) : Tracked sets x := by
  apply h.invariant
  · rintro x rfl
    exact h₀
  · intro op x x' hx hop he
    obtain ⟨m', hm', he⟩ := bind_eq_ok.mp he
    cases he
    cases op with
    | call op => exact hx.call hop hm'
    | restart =>
      obtain ⟨m'', -, hrestart, -, -, -, htracked⟩ := hx.restart hop
      cases hrestart.symm.trans hm'
      exact htracked

theorem restores_of_reachable (n pageSize numPages : ℕ) (openFile : Name → Option ℕ)
    (tempFile metaFile storageLoc : Name) (files : ℕ → ℕ → UInt8) (m : Manager)
    (hnew : initializeNew n openFile tempFile pageSize numPages metaFile storageLoc files = .ok m)
    (sets : PDBSet → Prop) (hfiles : OwnFiles m.cfg sets) (x : Generation)
    (h : Reachable generationStep (ManagerOp.Meets sets) (· = (m, fun _ _ => none)) x)
    (hr : x.1.Restartable) : ∃ m', x.1.restart = .ok m' ∧
      (∀ set, set ∈ m'.sets ↔ set ∈ x.1.sets) ∧
      m'.state.endOfFiles = (x.1.state.placed x.1.cfg).endOfFiles ∧
      m'.state.pageLocations = (x.1.state.placed x.1.cfg).pageLocations ∧
      (∀ key info, x.1.state.pageLocations key = some info → m'.state.pageLocations key = some info) ∧
      ∀ set i, x.1.state.allPages (set, i) ≠ none ∨ x.1.state.pageLocations (set, i) ≠ none →
        ∃ m'' p, m'.call (.getSetPage set i) = .ok m'' ∧ m''.state.allPages (set, i) = some p ∧
          Reads (x.2 (.ofSet set i)) m''.state p := by
  have hx := tracked_of_reachable (tracked_new hnew hfiles) h
  obtain ⟨m', files', hrestart, hcfg, hstate, hsets, htracked⟩ := hx.restart hr
  refine ⟨m', hrestart, hsets, by rw [hstate]; rfl, by rw [hstate]; rfl, fun key info hinfo => ?_,
    fun set i hpage => ?_⟩
  · rw [hstate]
    exact hx.places.1.old key info hinfo
  have hloc : (x.1.state.placed x.1.cfg).pageLocations (set, i) ≠ none := by
    rcases hpage with hp | hp
    · obtain ⟨p, hp⟩ := Option.ne_none_iff_exists'.mp hp
      obtain ⟨F, -, hrec, -⟩ := hx.recorded
      exact placed_located hx.sane.core.ref (hrec.kept.pages p (Or.inr ⟨_, hp⟩)) hp
    · obtain ⟨info, hinfo⟩ := Option.ne_none_iff_exists'.mp hp
      rw [hx.places.1.old _ _ hinfo]
      simp
  rw [← hcfg] at hstate hloc
  exact htracked.loads hstate hloc

instance (set : PDBSet) : Decidable set.Plain :=
  decidable_of_iff (set.setName ≠ [] ∧ set.dbName ≠ [] ∧
      (['#', '|', '.', '\n'].all fun c => decide (c ∉ set.setName)) = true ∧
      (['#', '|', '.', '\n'].all fun c => decide (c ∉ set.dbName)) = true) <| by
    simp only [List.all_eq_true, decide_eq_true_eq]
    exact ⟨fun ⟨h1, h2, h3, h4⟩ => ⟨h1, h2, h3, h4⟩, fun h => ⟨h.1, h.2, h.3, h.4⟩⟩

instance (m : Manager) : Decidable m.Restartable :=
  decidable_of_iff ((∀ set ∈ m.sets, set.Plain) ∧
      (∀ path ∈ [m.tempFile, m.metaDataFile, m.cfg.storageLoc], '|' ∉ path ∧ '\n' ∉ path) ∧
      (m.cfg.openFile m.metaDataFile).any (fun fd => ∀ set ∈ m.sets, m.cfg.openFile (m.cfg.fileLoc set) ≠ some fd) ∧
      ∀ ent ∈ (m.writtenBack (m.state.placed m.cfg)).fields, ent.1.length + ent.2.length + 3 < 2 ^ 31) <| by
    have hany : (m.cfg.openFile m.metaDataFile).any (fun fd => ∀ set ∈ m.sets,
        m.cfg.openFile (m.cfg.fileLoc set) ≠ some fd) = true ↔ ∃ fd, m.cfg.openFile m.metaDataFile = some fd ∧
          ∀ set ∈ m.sets, m.cfg.openFile (m.cfg.fileLoc set) ≠ some fd := by
      cases m.cfg.openFile m.metaDataFile with
      | none => simp
      | some fd => simp
    rw [hany]
    exact ⟨fun ⟨h1, h2, h3, h4⟩ => ⟨h1, h2, h3, h4⟩, fun h => ⟨h.1, h.2, h.3, h.4⟩⟩

instance [DecidablePred sets] (x : Generation) : ∀ op : ManagerOp, Decidable (op.Meets sets x)
  | .call op => inferInstanceAs (Decidable (op.Recordable x.1.cfg sets (x.1.state, x.2)))
  | .restart => inferInstanceAs (Decidable x.1.Restartable)

def plainSet : PDBSet := ⟨['d', 'b'], ['s']⟩

def newManager : Manager :=
  ⟨⟨20, 0, 1, ['d'], pathFile ['t'], fun path => some (pathFile path)⟩, ['t'], ['m'], [], [],
    initialState ⟨20, 0, 1, ['d'], pathFile ['t'], fun path => some (pathFile path)⟩ (fun _ => 0) fun _ _ => 0⟩

theorem newManager_eq : initializeNew 20 (fun path => some (pathFile path)) ['t'] 1048576 1 ['m'] ['d']
    (fun _ _ => 0) = .ok newManager := rfl

theorem restores_of_sampleRun : ∃ (x : Generation) (m' m'' : Manager) (p : ℕ),
    x.2 (.ofSet plainSet 0) 5 = some 7 ∧ x.1.restart = .ok m' ∧ m'.call (.getSetPage plainSet 0) = .ok m'' ∧
      Reads (x.2 (.ofSet plainSet 0)) m''.state p := by
  have hrun : (runAll generationStep (fun op x => op.Meets (· = plainSet) x)
      [.call (.getSetPage plainSet 0), .call (.write 0 5 7), .restart, .call (.getSetPage plainSet 0)]
      (newManager, fun _ _ => none)).any (fun x => decide (x.2 (.ofSet plainSet 0) 5 = some 7 ∧
        x.1.state.pageLocations (plainSet, 0) ≠ none ∧ x.1.Restartable)) = true := by decide +kernel
  obtain ⟨x, hx, hp⟩ := (Option.any_eq_true _ _).mp hrun
  obtain ⟨hbyte, hloc, hr⟩ := of_decide_eq_true hp
  have hfiles : OwnFiles newManager.cfg (· = plainSet) := by
    refine ⟨?_, ?_⟩
    · rintro set rfl
      decide +kernel
    · rintro set set' fd rfl rfl _ _
      rfl
  have hreach : Reachable generationStep (ManagerOp.Meets (· = plainSet))
      (· = (newManager, fun _ _ => none)) x := Reachable.of_runAll (fun op x h => of_decide_eq_true h) (Reachable.start rfl) hx
  obtain ⟨m', hrestart, -, -, -, -, hpages⟩ := restores_of_reachable 20 1048576 1 (fun path => some (pathFile path))
    ['t'] ['m'] ['d'] (fun _ _ => 0) newManager newManager_eq (· = plainSet) hfiles x hreach hr
  obtain ⟨m'', p, hcall, -, hreads⟩ := hpages plainSet 0 (Or.inr hloc)
  exact ⟨x, m', m'', p, hbyte, hrestart, hcall, hreads⟩

def namelessSet : PDBSet := ⟨[], ['s']⟩

theorem not_restores_nameless : ∃ x,
    Reachable generationStep (ManagerOp.Meets (· = namelessSet)) (· = (newManager, fun _ _ => none)) x ∧
    (∀ c ∈ ['#', '|', '.', '\n'], c ∉ namelessSet.setName ∧ c ∉ namelessSet.dbName) ∧
    x.1.state.allPages (namelessSet, 0) ≠ none ∧ ¬ ∃ m', x.1.restart = .ok m' := by
  have hrun : (runAll generationStep (fun op x => op.Meets (· = namelessSet) x)
      [.call (.getSetPage namelessSet 0), .call (.unpin 0)] (newManager, fun _ _ => none)).any
      (fun x => decide (x.1.state.allPages (namelessSet, 0) ≠ none) && !x.1.restart.isOk) = true := by decide +kernel
  obtain ⟨x, hx, hp⟩ := (Option.any_eq_true _ _).mp hrun
  obtain ⟨hpage, hstop⟩ := Bool.and_eq_true_iff.mp hp
  refine ⟨x, ?_, ?_, of_decide_eq_true hpage, ?_⟩
  · exact Reachable.of_runAll (fun op x h => of_decide_eq_true h) (Reachable.start rfl) hx
  · have hall : (['#', '|', '.', '\n'].all fun c =>
        decide (c ∉ namelessSet.setName ∧ c ∉ namelessSet.dbName)) = true := by decide
    exact fun c hc => of_decide_eq_true (List.all_eq_true.mp hall c hc)
  · rintro ⟨m', hm'⟩
    rw [hm'] at hstop
    cases hstop

end PlinyCompute.BufferManager
