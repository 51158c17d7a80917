import PlinyCompute.BufferOpenFiles
import PlinyCompute.BufferReads
import PlinyCompute.BufferRestart

namespace PlinyCompute.BufferManager

open Function Transition

variable {cfg : Config} {F : PDBSet → Option ℕ} {s s' t u : State} {last : PageName → ℕ → Option UInt8} {p : ℕ} {set : PDBSet}
  {key : PDBSet × ℕ} {rest : List ℕ}

theorem assignLocation_congr (hp : u.page p = s.page p) (hl : u.pageLocations = s.pageLocations)
    (he : u.endOfFiles = s.endOfFiles) : (u.assignLocation cfg p).page p = (s.assignLocation cfg p).page p ∧
      (u.assignLocation cfg p).pageLocations = (s.assignLocation cfg p).pageLocations ∧
      (u.assignLocation cfg p).endOfFiles = (s.assignLocation cfg p).endOfFiles := by
  unfold State.assignLocation
  rw [hp, hl, he]
  dsimp only
  split
  · split_ifs
    · exact ⟨by simp [State.setPage], rfl, rfl⟩
    · exact ⟨hp, hl, he⟩
  · exact ⟨hp, hl, he⟩

theorem assignLocation_page_of_ne {q : ℕ} (hq : q ≠ p) : (s.assignLocation cfg p).page q = s.page q := by
  obtain ⟨pos, heq⟩ := assignLocation_eq cfg s p
  rw [heq]
  exact update_of_ne hq _ _

theorem assignLocation_pageLocations {info : PDBPageInfo} (h : s.pageLocations key = some info) :
    (s.assignLocation cfg p).pageLocations key = some info := by
  rcases assignLocation_cases cfg s p with ⟨heq, -⟩ | ⟨set, -, -, hnone, heq⟩
  · rw [heq, h]
  · rw [heq]
    refine (update_of_ne ?_ _ _).trans h
    rintro rfl
    rw [hnone] at h
    cases h

def settle (cfg : Config) (u : State) (p : ℕ) : State :=
  { u with
    page := update u.page p { u.page p with
      pinned := false, sizeFrozen := true, location := ((u.assignLocation cfg p).page p).location }
    pageLocations := (u.assignLocation cfg p).pageLocations
    endOfFiles := (u.assignLocation cfg p).endOfFiles }

theorem settle_page_self (cfg : Config) (u : State) (p : ℕ) : (settle cfg u p).page p = { u.page p with
    pinned := false, sizeFrozen := true, location := ((u.assignLocation cfg p).page p).location } :=
  update_self _ _ _

theorem kept_settle (hk : Kept cfg last u) (hl : u.Live p) (hb : (u.page p).bytes ≠ none)
    (ha : (u.page p).isAnon = false) : Kept cfg last (settle cfg u p) := by
  rcases assignLocation_cases cfg u p with ⟨heq, hloc⟩ | ⟨set, -, hw, hnone, heq⟩
  · have href : RefInv (u.setPage p { u.page p with pinned := false, sizeFrozen := true }) :=
      hk.ref.setPage rfl rfl rfl fun _ => hl
    have hkept : Kept cfg last (u.setPage p { u.page p with pinned := false, sizeFrozen := true }) := by
      apply hk.touch href ⟨rfl, rfl, rfl, rfl, rfl, rfl⟩ rfl rfl rfl hl (live_setPage rfl hl)
      · exact ⟨⟨rfl, rfl, rfl, rfl⟩, rfl, rfl, rfl⟩
      · exact (hk.pages p hl).unpin (hloc ha)
    rw [settle, heq]
    exact hkept
  · have hset : RefInv (u.setPage p (unpinnedAt (u.page p) (u.endOfFiles set))) :=
      hk.ref.setPage rfl rfl rfl fun _ => hl
    have hkept : Kept cfg last (assigned cfg u p set) :=
      hk.assign hl hw hnone hb ⟨hset.key, hset.held, hset.anon, hset.opened⟩
    rw [settle, heq]
    dsimp only
    rw [update_self]
    exact hkept

theorem flush_eq {a fd : ℕ} (hd : (s.page p).dirty = true) (hb : (s.page p).bytes = some a)
    (hw : (s.page p).whichSet = some set) (hfd : s.fds set = some fd)
    (hpos : 0 ≤ ((s.assignLocation cfg p).page p).location.startPos) :
    s.flush cfg p = .ok { s.assignLocation cfg p with
      files := storeBytes s.files s.memory fd a (cfg.miniPageSize (s.page p).location.numBytes)
        ((s.assignLocation cfg p).page p).location.startPos.toNat } := by
  obtain ⟨pos, heq⟩ := assignLocation_eq cfg s p
  have hpage : (s.assignLocation cfg p).page p =
      { s.page p with location := { (s.page p).location with startPos := pos } } := by
    rw [heq]
    exact update_self _ _ _
  have hfds : (s.assignLocation cfg p).fds = s.fds := by rw [heq]
  have hfiles : (s.assignLocation cfg p).files = s.files := by rw [heq]
  have hmem : (s.assignLocation cfg p).memory = s.memory := by rw [heq]
  rw [hpage] at hpos
  rw [State.flush, if_pos hd]
  unfold State.writeToSet
  dsimp only
  rw [hpage, hw, getFileDescriptor_eq (by rw [hfds]; exact hfd), ok_bind, getBytes_eq (by rw [hpage]; exact hb),
    ok_bind, State.pwrite, if_neg (by exact Int.not_lt.mpr hpos), hfiles, hmem]

structure Flushing (cfg : Config) (F : PDBSet → Option ℕ) (last : PageName → ℕ → Option UInt8) (rest : List ℕ)
    (s u : State) : Prop where
  kept : Kept cfg last u
  opened : MoreOpen F s { s with fds := F }
  fds : u.fds = F
  tables : u.pageLocations = s.pageLocations ∧ u.endOfFiles = s.endOfFiles
  stores : u.files = s.files ∧ u.memory = s.memory
  pages : ∀ p ∈ rest, u.page p = s.page p ∧ (s.page p).status ≠ .loading ∧
    ∃ key fd, u.allPages key = some p ∧ s.fds key.1 = some fd
  done : ∀ p, u.Live p → (u.page p).isAnon = false → (u.page p).dirty = true → p ∈ rest

def State.placeDirty (cfg : Config) (s : State) (p : ℕ) : State :=
  if (s.page p).dirty then s.assignLocation cfg p else s

def writtenOut (cfg : Config) (u : State) (p : ℕ) (files : ℕ → ℕ → UInt8) : State :=
  { settle cfg u p with
    page := update (settle cfg u p).page p { (settle cfg u p).page p with dirty := false, bytes := none }
    allPages := if ((settle cfg u p).page p).refCount = 0 then
        ((settle cfg u p).eraseFromAllPages ((settle cfg u p).page p)).allPages
      else (settle cfg u p).allPages
    files := files }

theorem writtenOut_page_of_ne {files : ℕ → ℕ → UInt8} {q : ℕ} (hq : q ≠ p) :
    (writtenOut cfg u p files).page q = u.page q :=
  (update_of_ne hq _ _).trans (update_of_ne hq _ _)

theorem writtenOut_page_dirty {files : ℕ → ℕ → UInt8} : ((writtenOut cfg u p files).page p).dirty = false := by
  have hp : (writtenOut cfg u p files).page p =
      { (settle cfg u p).page p with dirty := false, bytes := none } := update_self _ _ _
  rw [hp]

theorem wroteBack_settle {a fd : ℕ} (ha : (u.page p).isAnon = false) (hd : (u.page p).dirty = true)
    (hw : (u.page p).whichSet = some set) (hfd : u.fds set = some fd)
    (hpos : 0 ≤ ((u.assignLocation cfg p).page p).location.startPos) :
    WroteBack cfg (settle cfg u p) p a (writtenOut cfg u p (storeBytes u.files u.memory fd a
      (cfg.miniPageSize (u.page p).location.numBytes)
      ((u.assignLocation cfg p).page p).location.startPos.toNat)) := by
  have hself := settle_page_self cfg u p
  have hnb : ((u.assignLocation cfg p).page p).location.numBytes = (u.page p).location.numBytes := by
    obtain ⟨pos, heq⟩ := assignLocation_eq cfg u p
    rw [heq]
    dsimp only
    rw [update_self]
  apply WroteBack.other
  · rw [hself]
    simp [ha]
  · rw [hself]
    refine Or.inr ⟨hd, hpos, set, fd, hw, hfd, ?_⟩
    dsimp only
    rw [hnb]
    rfl

theorem settle_pos (hk : Kept cfg last (settle cfg u p)) (hl : (settle cfg u p).Live p)
    (hw : (u.page p).whichSet = some set) : 0 ≤ ((u.assignLocation cfg p).page p).location.startPos := by
  have hself := settle_page_self cfg u p
  have hok := hk.pages p hl
  rw [hself] at hok
  cases hloc : (settle cfg u p).pageLocations (set, (u.page p).pageNum) with
  | none =>
    have hpin := (hok.fresh set hw hloc).1
    cases hpin
  | some info =>
    have hstart := (hok.located set info hw hloc).1
    dsimp only at hstart
    rw [hstart]
    exact (hk.homes.located _ _ _ hloc).2.1

theorem Flushing.clean (h : Flushing cfg F last (p :: rest) s u) (hd : ¬ (s.page p).dirty = true) :
    Flushing cfg F last rest s u := by
  obtain ⟨hpage, -⟩ := h.pages p List.mem_cons_self
  refine ⟨h.kept, h.opened, h.fds, h.tables, h.stores, fun q hq => h.pages q (List.mem_cons_of_mem p hq),
    fun q hq hqa hqd => ?_⟩
  apply (List.mem_cons.mp (h.done q hq hqa hqd)).resolve_left
  rintro rfl
  rw [hpage] at hqd
  exact hd hqd

theorem Flushing.dirty (h : Flushing cfg F last (p :: rest) s u) (hp : p ∉ rest) (hd : (s.page p).dirty = true) :
    ∃ files u', s.flush cfg p = .ok { s.assignLocation cfg p with files := files } ∧
      Flushing cfg F last rest { s.assignLocation cfg p with files := files } u' := by
  obtain ⟨hpage, hst, key, fd, hkey, hfd⟩ := h.pages p List.mem_cons_self
  have hl : u.Live p := Or.inr ⟨key, hkey⟩
  obtain ⟨-, ha, hw, -⟩ := h.kept.ref.key key p hkey
  obtain ⟨a, hb⟩ : ∃ a, (u.page p).bytes = some a := by
    rw [← Option.ne_none_iff_exists']
    intro hnone
    have hclean := (h.kept.pages p hl).evicted hnone (by rw [hpage]; exact hst)
    rw [hpage, hd] at hclean
    cases hclean
  obtain ⟨h1, h2, h3⟩ := @assignLocation_congr cfg s u p hpage h.tables.1 h.tables.2
  have hsettle := kept_settle h.kept hl (by simp [hb]) ha
  have hpos := settle_pos hsettle (Or.inr ⟨key, hkey⟩) hw
  have hwrote := @wroteBack_settle cfg u p key.1 a fd ha (by rw [hpage]; exact hd) hw (by rw [h.fds]; exact h.opened.opened _ _ hfd) hpos
  have hown : ((settle cfg u p).page p).isAnon = false → ∃ key, (settle cfg u p).allPages key = some p :=
    fun _ => ⟨key, hkey⟩
  have hself := settle_page_self cfg u p
  rw [h.stores.1, h.stores.2, h1, hpage] at hwrote
  rw [h1] at hpos
  rw [hpage] at hw hb
  obtain ⟨pos, heq⟩ := assignLocation_eq cfg s p
  have hfds : (s.assignLocation cfg p).fds = s.fds := by rw [heq]
  have hmem : (s.assignLocation cfg p).memory = s.memory := by rw [heq]
  refine ⟨_, _, flush_eq hd hb hw hfd hpos, hwrote.kept hsettle ?_ ?_ hown, ⟨?_, rfl⟩, h.fds, ⟨h2, h3⟩, ⟨rfl, ?_⟩,
    ?_, ?_⟩
  · rw [hself]
    exact (congrArg PDBPage.bytes hpage).trans hb
  · rw [hself]
  · intro set' fd' hx
    exact h.opened.opened set' fd' ((congrFun hfds set').symm.trans hx)
  · exact h.stores.2.trans hmem.symm
  · intro q hq
    obtain ⟨hpage', hst', key', fd', hkey', hfd'⟩ := h.pages q (List.mem_cons_of_mem p hq)
    have hqp : q ≠ p := fun heq => hp (heq ▸ hq)
    have hsame : (s.assignLocation cfg p).page q = s.page q := assignLocation_page_of_ne hqp
    refine ⟨(writtenOut_page_of_ne hqp).trans (hpage'.trans hsame.symm), ?_, key', fd', ?_, ?_⟩
    · dsimp only
      rw [hsame]
      exact hst'
    · exact hwrote.allPages_other hsettle.ref hown hkey' (Or.inl hqp)
    · exact (congrFun hfds key'.1).trans hfd'
  · intro q hq hqa hqd
    have hqp : q ≠ p := by
      rintro rfl
      rw [writtenOut_page_dirty] at hqd
      cases hqd
    have hsame : (settle cfg u p).page q = u.page q := update_of_ne hqp _ _
    rw [writtenOut_page_of_ne hqp] at hqa hqd
    have hlq : u.Live q := by
      rcases hwrote.live hq with hr | hk
      · rw [hsame] at hr
        exact Or.inl hr
      · exact Or.inr hk
    exact (List.mem_cons.mp (h.done q hlq hqa hqd)).resolve_left hqp

theorem Flushing.step (h : Flushing cfg F last (p :: rest) s u) (hp : p ∉ rest) : ∃ files u',
    s.flush cfg p = .ok { s.placeDirty cfg p with files := files } ∧
      Flushing cfg F last rest { s.placeDirty cfg p with files := files } u' := by
  by_cases hd : (s.page p).dirty = true
  · rw [State.placeDirty, if_pos hd]
    exact h.dirty hp hd
  · refine ⟨s.files, u, ?_, ?_⟩
    · rw [State.flush, State.placeDirty, if_neg hd, if_neg hd]
    · rw [State.placeDirty, if_neg hd]
      exact h.clean hd

theorem placeDirty_files (files : ℕ → ℕ → UInt8) (s : State) (p : ℕ) :
    ({ s with files := files } : State).placeDirty cfg p = { s.placeDirty cfg p with files := files } := by
  unfold State.placeDirty State.assignLocation
  dsimp only
  by_cases hd : (s.page p).dirty = true
  · rw [if_pos hd, if_pos hd]
    split
    · split_ifs
      · rfl
      · rfl
    · rfl
  · rw [if_neg hd, if_neg hd]

theorem foldl_placeDirty_files (files : ℕ → ℕ → UInt8) (pages : List ℕ) (s : State) :
    pages.foldl (State.placeDirty cfg) { s with files := files } =
      { pages.foldl (State.placeDirty cfg) s with files := files } := by
  induction pages generalizing s with
  | nil => rfl
  | cons p pages ih => rw [List.foldl_cons, List.foldl_cons, placeDirty_files, ih]

theorem Flushing.all (h : Flushing cfg F last rest s u) (hn : rest.Nodup) : ∃ files u',
    rest.foldlM (State.flush cfg) s = .ok { rest.foldl (State.placeDirty cfg) s with files := files } ∧
      Flushing cfg F last [] { rest.foldl (State.placeDirty cfg) s with files := files } u' := by
  induction rest generalizing s u with
  | nil => exact ⟨s.files, u, rfl, h⟩
  | cons p rest ih =>
    obtain ⟨hp, hn⟩ := List.nodup_cons.mp hn
    obtain ⟨files, u', heq, h'⟩ := h.step hp
    obtain ⟨files', u'', heq', h''⟩ := ih h' hn
    rw [foldl_placeDirty_files] at heq' h''
    refine ⟨files', u'', ?_, h''⟩
    rw [List.foldlM_cons, heq, ok_bind, heq']
    rfl

theorem RefInv.pageKey (h : RefInv s) (hkey : s.allPages key = some p) : s.pageKey p = some key := by
  obtain ⟨-, -, hw, hnum⟩ := h.key key p hkey
  rw [State.pageKey, hw, hnum]
  rfl

theorem RefInv.mem_pagesInOrder (h : RefInv s) : p ∈ s.pagesInOrder ↔ ∃ key, s.allPages key = some p := by
  unfold State.pagesInOrder
  rw [List.mem_insertionSort, List.mem_filter, List.mem_range, decide_eq_true_iff]
  constructor
  · rintro ⟨-, hp⟩
    cases hk : s.pageKey p with
    | none => simp [hk] at hp
    | some key => exact ⟨key, by simpa [hk] using hp⟩
  · rintro ⟨key, hkey⟩
    refine ⟨(h.key key p hkey).1, ?_⟩
    rw [h.pageKey hkey]
    exact hkey

theorem nodup_pagesInOrder (s : State) : s.pagesInOrder.Nodup :=
  (List.perm_insertionSort _ _).nodup_iff.mpr (List.nodup_range.filter _)

def State.placed (cfg : Config) (s : State) : State := s.pagesInOrder.foldl (State.placeDirty cfg) s

theorem placeDirty_page (s : State) (p q : ℕ) : ((s.placeDirty cfg p).page q).whichSet = (s.page q).whichSet ∧
    ((s.placeDirty cfg p).page q).pageNum = (s.page q).pageNum ∧
    ((s.placeDirty cfg p).page q).isAnon = (s.page q).isAnon ∧
    ((s.placeDirty cfg p).page q).dirty = (s.page q).dirty := by
  unfold State.placeDirty
  by_cases hd : (s.page p).dirty = true
  · rw [if_pos hd]
    obtain ⟨pos, heq⟩ := assignLocation_eq cfg s p
    rw [heq]
    by_cases hq : q = p
    · subst hq
      simp
    · simp [update_of_ne hq]
  · rw [if_neg hd]
    exact ⟨rfl, rfl, rfl, rfl⟩

theorem placeDirty_pageLocations (s : State) (p : ℕ) {info : PDBPageInfo}
    (h : s.pageLocations key = some info) : (s.placeDirty cfg p).pageLocations key = some info := by
  unfold State.placeDirty
  by_cases hd : (s.page p).dirty = true
  · rw [if_pos hd]
    exact assignLocation_pageLocations h
  · rwa [if_neg hd]

theorem foldl_placeDirty_pageLocations (pages : List ℕ) {info : PDBPageInfo}
    (h : s.pageLocations key = some info) :
    (pages.foldl (State.placeDirty cfg) s).pageLocations key = some info := by
  induction pages generalizing s with
  | nil => exact h
  | cons p pages ih => exact ih (placeDirty_pageLocations s p h)

theorem foldl_placeDirty_located {pages : List ℕ} (hp : p ∈ pages) (hd : (s.page p).dirty = true)
    (ha : (s.page p).isAnon = false) (hw : (s.page p).whichSet = some set) :
    (pages.foldl (State.placeDirty cfg) s).pageLocations (set, (s.page p).pageNum) ≠ none := by
  induction pages generalizing s with
  | nil => cases hp
  | cons q pages ih =>
    rw [List.foldl_cons]
    rcases List.mem_cons.mp hp with rfl | hp
    · have hloc : (s.placeDirty cfg p).pageLocations (set, (s.page p).pageNum) ≠ none := by
        rw [State.placeDirty, if_pos hd]
        rcases assignLocation_cases cfg s p with ⟨heq, hloc⟩ | ⟨set', -, hw', -, heq⟩
        · rw [heq]
          exact hloc ha set hw
        · cases hw.symm.trans hw'
          rw [heq]
          dsimp only
          rw [update_self]
          simp
      obtain ⟨info, hinfo⟩ := Option.ne_none_iff_exists'.mp hloc
      rw [foldl_placeDirty_pageLocations pages hinfo]
      simp
    · obtain ⟨h1, h2, h3, h4⟩ := @placeDirty_page cfg s q p
      rw [← h2]
      apply ih hp
      · rw [h4, hd]
      · rw [h3, ha]
      · rw [h1, hw]

theorem placed_located (href : RefInv s) (hok : PageOk cfg s.pageLocations (s.page p))
    (hkey : s.allPages key = some p) : (s.placed cfg).pageLocations key ≠ none := by
  obtain ⟨-, ha, hw, hnum⟩ := href.key key p hkey
  have heq : (key.1, (s.page p).pageNum) = key := by rw [hnum]
  by_cases hd : (s.page p).dirty = true
  · rw [← heq]
    exact foldl_placeDirty_located (href.mem_pagesInOrder.mpr ⟨key, hkey⟩) hd ha hw
  · cases hloc : s.pageLocations key with
    | none => exact absurd (hok.fresh key.1 hw (by rw [heq, hloc])).2 hd
    | some info =>
      rw [State.placed, foldl_placeDirty_pageLocations _ hloc]
      simp

def ofSets (last : PageName → ℕ → Option UInt8) : PageName → ℕ → Option UInt8
  | .ofSet set i => last (.ofSet set i)
  | .anonymous _ => fun _ => none

def restored (cfg : Config) (s : State) (fds : PDBSet → Option ℕ) (files : ℕ → ℕ → UInt8) : State :=
  { initialState cfg (fun _ => 0) files with
    pageLocations := s.pageLocations, endOfFiles := s.endOfFiles, fds := fds }

theorem not_live_restored {fds : PDBSet → Option ℕ} {files : ℕ → ℕ → UInt8} :
    ¬ (restored cfg s fds files).Live p := by
  rintro (h | ⟨key, h⟩)
  · exact absurd h (by simp [restored, initialState])
  · cases h

theorem Kept.restored (hk : Kept cfg last u)
    (hclean : ∀ p, u.Live p → (u.page p).isAnon = false → (u.page p).dirty = false) {files : ℕ → ℕ → UInt8}
    (hfiles : ∀ set fd, u.fds set = some fd → files fd = u.files fd) :
    Kept cfg (ofSets last) (restored cfg u u.fds files) := by
  have hhome : ∀ r fd pos n, Home cfg (BufferManager.restored cfg u u.fds files) r fd pos n →
      ∃ set i, r = .page (.ofSet set i) ∧ u.fds set = some fd ∧ Home cfg u r fd pos n := by
    intro r fd pos n hr
    cases hr with
    | anonymous hl _ _ => exact absurd hl not_live_restored
    | @ofSet set i _ _ hloc hfd => exact ⟨set, i, rfl, hfd, Home.ofSet hloc hfd⟩
    | free hmem => cases hmem
  refine ⟨?_, ⟨hk.homes.files, hk.homes.located, fun r pos n hr => ?_, fun _ => List.nodup_nil, ?_, ?_⟩,
    fun p hl => absurd hl not_live_restored, fun p hl => absurd hl not_live_restored, fun n fd pos k hr => ?_,
    fun p a hl => absurd hl not_live_restored, fun n fd pos k hr _ => ?_⟩
  · have href := (core_initialState cfg (fun _ => 0) files).ref
    refine ⟨href.key, href.held, href.anon, ?_⟩
    intro key p hkey
    cases hkey
  · obtain ⟨set, i, -, hfd, -⟩ := hhome r _ pos n hr
    exact absurd rfl (hk.homes.files set _ hfd).1
  · intro k pos hx
    cases hx
  · intro r r' fd pos n pos' n' hr hr'
    obtain ⟨-, -, -, -, hold⟩ := hhome r fd pos n hr
    obtain ⟨-, -, -, -, hold'⟩ := hhome r' fd pos' n' hr'
    exact hk.homes.apart r r' fd pos n pos' n' hold hold'
  · obtain ⟨set, i, hn, -, hold⟩ := hhome _ fd pos k hr
    cases hn
    exact hk.home _ fd pos k hold
  · obtain ⟨set, i, hn, hfd, hold⟩ := hhome _ fd pos k hr
    cases hn
    have hsame : (BufferManager.restored cfg u u.fds files).files fd = u.files fd := hfiles set fd hfd
    rw [hsame]
    apply hk.onDisk _ fd pos k hold
    intro p hl hname
    apply hclean p hl
    rcases hk.ref.name_cases hl with ⟨-, hn⟩ | ⟨_, _, ha, -⟩
    · cases hn.symm.trans hname
    · exact ha

theorem flushAll_kept (hm : MoreOpen F s t) (hk : Kept cfg last t)
    (href : RefInv s) (hst : Settled s) : ∃ files,
      s.flushAll cfg = .ok { s.placed cfg with files := files } ∧
      ∀ files', (∀ set fd, F set = some fd → files' fd = files fd) →
        Kept cfg (ofSets last) (restored cfg (s.placed cfg) F files') := by
  obtain ⟨ho, rfl⟩ := hm
  have hstart : Flushing cfg F last s.pagesInOrder s { s with fds := F } := by
    refine ⟨hk, ⟨ho, rfl⟩, rfl, ⟨rfl, rfl⟩, ⟨rfl, rfl⟩, fun p hp => ?_, fun p hl ha _ => ?_⟩
    · obtain ⟨key, hkey⟩ := href.mem_pagesInOrder.mp hp
      obtain ⟨fd, hfd⟩ := href.opened key p hkey
      exact ⟨rfl, (hst p).1, key, fd, hkey, hfd⟩
    · apply href.mem_pagesInOrder.mpr
      rcases hl with hr | hkey
      · exact (hk.ref.held p hr).2 ha
      · exact hkey
  obtain ⟨files, u, heq, h⟩ := hstart.all (nodup_pagesInOrder s)
  refine ⟨files, heq, fun files' hfiles => ?_⟩
  have hrestored : restored cfg (s.placed cfg) F files' = restored cfg u u.fds files' := by
    unfold restored
    rw [h.fds, h.tables.1, h.tables.2]
    rfl
  rw [hrestored]
  apply h.kept.restored
  · intro p hl ha
    cases hd : (u.page p).dirty with
    | false => rfl
    | true => exact absurd (h.done p hl ha hd) List.not_mem_nil
  · intro set fd hfd
    rw [h.fds] at hfd
    exact (hfiles set fd hfd).trans (congrFun h.stores.1 fd).symm

end PlinyCompute.BufferManager
