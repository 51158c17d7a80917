import PlinyCompute.BufferDisk

namespace PlinyCompute.BufferManager

open ByteRange Function Transition

variable {cfg : Config} {s s' : State} {last : PageName → ℕ → Option UInt8}

theorem Homes.takeTempPos (h : Homes cfg s) (k : ℕ) :
    s.lastTempPos ≤ (s.takeTempPos cfg k).2.lastTempPos ∧
    (s.takeTempPos cfg k).1.toNat + cfg.miniPageSize k ≤ (s.takeTempPos cfg k).2.lastTempPos ∧
    (∀ l, ((s.takeTempPos cfg k).2.availablePositions l).Sublist (s.availablePositions l)) ∧
    ∀ r pos n, Home cfg s r cfg.tempFileFD pos n →
      (∀ l q, r = .free l q → q ∈ (s.takeTempPos cfg k).2.availablePositions l) →
      Apart (s.takeTempPos cfg k).1.toNat (cfg.miniPageSize k) pos n := by
  unfold State.takeTempPos
  cases hlast : (s.availablePositions k).getLast? with
  | none =>
    refine ⟨Nat.le_add_right _ _, Nat.le_refl _, fun l => List.Sublist.refl _, fun r pos n hr _ => ?_⟩
    exact Or.inr (h.temp r pos n hr)
  | some pos₀ =>
    have hmem : pos₀ ∈ s.availablePositions k := List.mem_of_getLast? hlast
    obtain ⟨l', hl'⟩ := List.getLast?_eq_some_iff.mp hlast
    have hnd := h.free_nodup k
    refine ⟨Nat.le_refl _, h.temp _ _ _ (Home.free hmem), fun l => ?_, fun r pos n hr hfree => ?_⟩
    · dsimp only
      by_cases hl : l = k
      · rw [hl, update_self]
        exact List.dropLast_sublist _
      · rw [update_of_ne hl]
    · refine h.apart _ r _ _ _ pos n (Home.free hmem) hr ?_
      rintro rfl
      have hx := hfree k pos₀ rfl
      dsimp only at hx
      rw [hl'] at hnd
      rw [update_self, hl', List.dropLast_concat] at hx
      exact (List.nodup_append.mp hnd).2.2 pos₀ hx pos₀ (by simp) rfl

theorem WroteBack.refCount {p a : ℕ} (h : WroteBack cfg s p a s') (q : ℕ) :
    (s'.page q).refCount = (s.page q).refCount ∧ (s'.page q).isAnon = (s.page q).isAnon ∧
      (s'.page q).whichSet = (s.page q).whichSet ∧ (s'.page q).pageNum = (s.page q).pageNum ∧
      (s'.page q).getSize cfg = (s.page q).getSize cfg := by
  obtain ⟨pos, hpage⟩ := h.page
  rw [hpage]
  by_cases hq : q = p
  · subst hq
    rw [update_self]
    exact ⟨rfl, rfl, rfl, rfl, rfl⟩
  · rw [update_of_ne hq]
    exact ⟨rfl, rfl, rfl, rfl, rfl⟩

theorem WroteBack.allPages_some {p a : ℕ} (h : WroteBack cfg s p a s') {key : PDBSet × ℕ} {q : ℕ}
    (hk : s'.allPages key = some q) : s.allPages key = some q := by
  rcases h.allPages key with heq | ⟨hnone, -⟩
  · rw [← heq, hk]
  · rw [hnone] at hk
    cases hk

theorem WroteBack.allPages_other {p a : ℕ} (h : WroteBack cfg s p a s') (href : RefInv s)
    (hown : (s.page p).isAnon = false → ∃ key, s.allPages key = some p) {key : PDBSet × ℕ} {q : ℕ}
    (hk : s.allPages key = some q) (hq : q ≠ p ∨ 0 < (s.page p).refCount) : s'.allPages key = some q := by
  rcases h.allPages key with heq | ⟨-, hz, hset, hnum⟩
  · rw [heq, hk]
  · have ha : (s.page p).isAnon = false := by
      cases hx : (s.page p).isAnon with
      | false => rfl
      | true => simp [href.anon p hx] at hset
    obtain ⟨key', hk'⟩ := hown ha
    obtain ⟨-, -, hset', hnum'⟩ := href.key key' p hk'
    have hkey : key = key' := Prod.ext (Option.some.inj (hset.symm.trans hset')) (hnum.symm.trans hnum')
    subst hkey
    rw [hk] at hk'
    rcases hq with hq | hq
    · exact absurd (Option.some.inj hk') hq
    · omega

theorem WroteBack.refInv {p a : ℕ} (h : WroteBack cfg s p a s') (href : RefInv s)
    (hown : (s.page p).isAnon = false → ∃ key, s.allPages key = some p) : RefInv s' := by
  have hnext : s'.nextPage = s.nextPage := by rw [h.same]
  have hfds : s'.fds = s.fds := by rw [h.same]
  refine ⟨fun key q hk => ?_, fun q hq => ?_, fun q ha => ?_, fun key q hk => ?_⟩
  · obtain ⟨-, h2, h3, h4, -⟩ := h.refCount q
    rw [hnext, h2, h3, h4]
    exact href.key key q (h.allPages_some hk)
  · obtain ⟨h1, h2, -⟩ := h.refCount q
    rw [h1] at hq
    rw [hnext, h2]
    obtain ⟨hlt, hkey⟩ := href.held q hq
    refine ⟨hlt, fun ha => ?_⟩
    obtain ⟨key, hk⟩ := hkey ha
    refine ⟨key, h.allPages_other href hown hk ?_⟩
    by_cases hqp : q = p
    · exact Or.inr (hqp ▸ hq)
    · exact Or.inl hqp
  · obtain ⟨-, h2, h3, -⟩ := h.refCount q
    rw [h2] at ha
    rw [h3]
    exact href.anon q ha
  · rw [hfds]
    exact href.opened key q (h.allPages_some hk)

theorem WroteBack.live {p a : ℕ} (h : WroteBack cfg s p a s') {q : ℕ} (hl : s'.Live q) : s.Live q := by
  rcases hl with href | ⟨key, hk⟩
  · rw [(h.refCount q).1] at href
    exact Or.inl href
  · exact Or.inr ⟨key, h.allPages_some hk⟩

theorem WroteBack.live_other {p a : ℕ} (h : WroteBack cfg s p a s') (href : RefInv s)
    (hown : (s.page p).isAnon = false → ∃ key, s.allPages key = some p) {q : ℕ} (hl : s.Live q) (hq : q ≠ p) :
    s'.Live q := by
  rcases hl with hr | ⟨key, hk⟩
  · refine Or.inl ?_
    rw [(h.refCount q).1]
    exact hr
  · exact Or.inr ⟨key, h.allPages_other href hown hk (Or.inl hq)⟩

theorem PageOk.writeBack {loc : PDBSet × ℕ → Option PDBPageInfo} {me : PDBPage} {pos : ℤ}
    (h : PageOk cfg loc me) (hpin : me.pinned = false)
    (hset : ∀ set, me.whichSet = some set → pos = me.location.startPos)
    (hanon : me.isAnon = true → 0 ≤ pos) : PageOk cfg loc { me with
      dirty := false, bytes := none, location := ⟨pos, me.location.numBytes⟩ } := by
  refine ⟨fun set info hw hl => ?_, fun set hw hl => ?_, fun ha => Or.inr (hanon ha), fun ha _ => hanon ha,
    fun ha _ => h.frozen ha (Or.inl hpin), fun _ _ => rfl, h.sized⟩
  · obtain ⟨h1, h2⟩ := h.located set info hw hl
    refine ⟨?_, h2⟩
    rw [← h1]
    exact hset set hw
  · have := (h.fresh set hw hl).1
    rw [hpin] at this
    cases this

theorem WroteBack.kept_of_homes {p a : ℕ} {pos : ℤ} (h : WroteBack cfg s p a s') (hk : Kept cfg last s)
    (hpin : (s.page p).pinned = false)
    (hown : (s.page p).isAnon = false → ∃ key, s.allPages key = some p)
    (hpage : s'.page = update s.page p { s.page p with
      dirty := false, bytes := none, location := ⟨pos, (s.page p).location.numBytes⟩ })
    (hset : ∀ set, (s.page p).whichSet = some set → pos = (s.page p).location.startPos)
    (hanon : s.Live p → (s.page p).isAnon = true → 0 ≤ pos) (hhomes : Homes cfg s')
    (hself : ∀ fd pos' k, Home cfg s' (.page (s.pageName p)) fd pos' k →
      Bounded (last (s.pageName p)) k ∧ Holds (last (s.pageName p)) (s'.files fd) pos')
    (hrest : ∀ n fd pos' k, n ≠ s.pageName p → Home cfg s' (.page n) fd pos' k →
      Home cfg s (.page n) fd pos' k ∧ ∀ off, off < k → s'.files fd (pos' + off) = s.files fd (pos' + off)) :
    Kept cfg last s' := by
  have hmem : s'.memory = s.memory := by rw [h.same]
  have hloc : s'.pageLocations = s.pageLocations := by rw [h.same]
  have hname : ∀ q, s'.pageName q = s.pageName q :=
    fun q => pageName_congr (h.refCount q).2.2.1 (h.refCount q).2.2.2.1
  have hp : s'.page p = { s.page p with
      dirty := false, bytes := none, location := ⟨pos, (s.page p).location.numBytes⟩ } := by
    rw [hpage, update_self]
  have hq : ∀ q, q ≠ p → s'.page q = s.page q := fun q hqp => by rw [hpage, update_of_ne hqp]
  refine ⟨h.refInv hk.ref hown, hhomes, ?_, ?_, ?_, ?_, ?_⟩
  · intro q hl
    rw [hloc]
    by_cases hqp : q = p
    · subst hqp
      rw [hp]
      exact (hk.pages q (h.live hl)).writeBack hpin hset (hanon (h.live hl))
    · rw [hq q hqp]
      exact hk.pages q (h.live hl)
  · intro q hl
    rw [hname, (h.refCount q).2.2.2.2]
    exact hk.bound q (h.live hl)
  · intro n fd pos' k hr
    by_cases hn : n = s.pageName p
    · subst hn
      exact (hself fd pos' k hr).1
    · exact hk.home n fd pos' k (hrest n fd pos' k hn hr).1
  · intro q b hl hb
    have hqp : q ≠ p := by
      intro hqp
      rw [hqp, hp] at hb
      cases hb
    rw [hq q hqp] at hb
    rw [hname, hmem]
    exact hk.inMemory q b (h.live hl) hb
  · intro n fd pos' k hr hclean
    by_cases hn : n = s.pageName p
    · subst hn
      exact (hself fd pos' k hr).2
    · obtain ⟨hr', hfiles⟩ := hrest n fd pos' k hn hr
      refine (hk.onDisk n fd pos' k hr' fun q hl hqn => ?_).congr (hk.home n fd pos' k hr') hfiles
      have hqp : q ≠ p := fun hqp => hn (by rw [← hqn, hqp])
      have := hclean q (h.live_other hk.ref hown hl hqp) ((hname q).trans hqn)
      rw [hq q hqp] at this
      exact this

theorem WroteBack.kept_anonymous {p a : ℕ} {pos : ℤ} (hk : Kept cfg last s) (hb : (s.page p).bytes = some a)
    (hpin : (s.page p).pinned = false) (ha : (s.page p).isAnon = true)
    (hpos : pos = (s.takeTempPos cfg (s.page p).location.numBytes).1) (hnn : 0 ≤ pos)
    (hs : s' = { (s.takeTempPos cfg (s.page p).location.numBytes).2 with
      page := update s.page p { s.page p with
        dirty := false, bytes := none, location := ⟨pos, (s.page p).location.numBytes⟩ }
      files := storeBytes s.files s.memory cfg.tempFileFD a
        (cfg.miniPageSize (s.page p).location.numBytes) pos.toNat }) (h : WroteBack cfg s p a s') :
    Kept cfg last s' := by
  have hpage : s'.page = update s.page p { s.page p with
      dirty := false, bytes := none, location := ⟨pos, (s.page p).location.numBytes⟩ } := by rw [hs]
  have hfiles : s'.files = storeBytes s.files s.memory cfg.tempFileFD a ((s.page p).getSize cfg) pos.toNat := by
    rw [hs]
    rfl
  have hfds : s'.fds = s.fds := by rw [h.same]
  have hloc : s'.pageLocations = s.pageLocations := by rw [h.same]
  have heof : s'.endOfFiles = s.endOfFiles := by rw [h.same]
  have hset : (s.page p).whichSet = none := hk.ref.anon p ha
  have hname : s.pageName p = .anonymous p := by rw [State.pageName, hset]
  obtain ⟨htemp, hend, hsub, hapart⟩ := hk.homes.takeTempPos (s.page p).location.numBytes
  have hav : s'.availablePositions = (s.takeTempPos cfg (s.page p).location.numBytes).2.availablePositions := by
    rw [hs]
  have hlt : s'.lastTempPos = (s.takeTempPos cfg (s.page p).location.numBytes).2.lastTempPos := by rw [hs]
  rw [← hav] at hsub hapart
  rw [← hlt] at htemp hend
  rw [← hpos] at hend hapart
  -- the places after the write: that of the page is new, the others were there before
  have hcases : ∀ r fd pos' n, Home cfg s' r fd pos' n →
      (r = .page (.anonymous p) ∧ s.Live p ∧ fd = cfg.tempFileFD ∧ pos' = pos.toNat ∧
        n = (s.page p).getSize cfg) ∨
      (r ≠ .page (.anonymous p) ∧ Home cfg s r fd pos' n ∧
        (fd = cfg.tempFileFD → Apart pos.toNat ((s.page p).getSize cfg) pos' n)) := by
    intro r fd pos' n hr
    cases hr with
    | @anonymous q hl hqa hqpos =>
      by_cases hqp : q = p
      · subst hqp
        refine Or.inl ⟨rfl, h.live hl, rfl, ?_, ?_⟩
        · rw [hpage, update_self]
        · rw [hpage, update_self]
          rfl
      · rw [hpage, update_of_ne hqp] at hqa hqpos ⊢
        have hr : Home cfg s _ _ _ _ := Home.anonymous (h.live hl) hqa hqpos
        refine Or.inr ⟨fun heq => ?_, hr, fun _ => hapart _ _ _ hr fun l q' hx => ?_⟩
        · injection heq with heq
          exact hqp (PageName.anonymous.inj heq)
        · cases hx
    | ofSet hl hfd =>
      rw [hloc] at hl
      rw [hfds] at hfd
      have hr : Home cfg s _ _ _ _ := Home.ofSet hl hfd
      refine Or.inr ⟨fun heq => ?_, hr, fun hx => hapart _ _ _ (hx ▸ hr) fun l q' hx' => ?_⟩
      · injection heq with heq
        cases heq
      · cases hx'
    | @free l q hmem =>
      refine Or.inr ⟨Region.noConfusion, Home.free ((hsub l).subset hmem), fun _ => ?_⟩
      refine hapart _ _ _ (Home.free ((hsub l).subset hmem)) fun l' q' hx => ?_
      cases hx
      exact hmem
  have hhomes : Homes cfg s' := by
    refine ⟨by rw [hfds]; exact hk.homes.files, by rw [hloc, hfds, heof]; exact hk.homes.located, ?_,
      fun l => (hk.homes.free_nodup l).sublist (hsub l),
      fun l q hq => hk.homes.free_nonneg l q ((hsub l).subset hq), ?_⟩
    · intro r pos' n hr
      rcases hcases r _ pos' n hr with ⟨-, -, -, rfl, rfl⟩ | ⟨-, hr, -⟩
      · exact hend
      · exact (hk.homes.temp r pos' n hr).trans htemp
    · intro r r' fd pos₁ n₁ pos₂ n₂ hr hr' hne
      rcases hcases r fd pos₁ n₁ hr with ⟨rfl, -, rfl, rfl, rfl⟩ | ⟨-, hr, hap⟩
      · rcases hcases r' _ pos₂ n₂ hr' with ⟨rfl, -⟩ | ⟨-, -, hap'⟩
        · exact absurd rfl hne
        · exact hap' rfl
      · rcases hcases r' fd pos₂ n₂ hr' with ⟨rfl, -, rfl, rfl, rfl⟩ | ⟨-, hr', -⟩
        · exact (hap rfl).symm
        · exact hk.homes.apart r r' fd pos₁ n₁ pos₂ n₂ hr hr' hne
  refine h.kept_of_homes hk hpin (fun hx => ?_) hpage (fun set hx => ?_) (fun _ _ => hnn) hhomes ?_ ?_
  · rw [ha] at hx
    cases hx
  · rw [hset] at hx
    cases hx
  · intro fd pos' k hr
    rw [hname] at hr ⊢
    rcases hcases _ fd pos' k hr with ⟨-, hl, rfl, rfl, rfl⟩ | ⟨hx, -⟩
    · have hbound := hk.bound p hl
      have hholds := hk.inMemory p a hl hb
      rw [hname] at hbound hholds
      refine ⟨hbound, fun off b hoff => ?_⟩
      rw [hfiles, storeBytes_inside (hbound off b hoff)]
      exact hholds off b hoff
    · exact absurd rfl hx
  · intro n fd pos' k hn hr
    rw [hname] at hn
    rcases hcases _ fd pos' k hr with ⟨hx, -⟩ | ⟨-, hr, hap⟩
    · injection hx with hx
      exact absurd hx hn
    · refine ⟨hr, fun off hoff => ?_⟩
      rw [hfiles]
      exact storeBytes_outside hap hoff

theorem WroteBack.kept_other {p a : ℕ} {files : ℕ → ℕ → UInt8} (hk : Kept cfg last s)
    (hb : (s.page p).bytes = some a) (hpin : (s.page p).pinned = false)
    (hown : (s.page p).isAnon = false → ∃ key, s.allPages key = some p)
    (hnot : ¬ ((s.page p).isAnon = true ∧ (s.page p).dirty = true))
    (hcase : (s.page p).dirty = false ∧ files = s.files ∨ (s.page p).dirty = true ∧
      0 ≤ (s.page p).location.startPos ∧ ∃ set fd, (s.page p).whichSet = some set ∧
        s.fds set = some fd ∧ files = storeBytes s.files s.memory fd a
          (cfg.miniPageSize (s.page p).location.numBytes) (s.page p).location.startPos.toNat)
    (hs : s' = { s with
      page := update s.page p { s.page p with dirty := false, bytes := none }
      allPages := s'.allPages, files := files }) (h : WroteBack cfg s p a s') : Kept cfg last s' := by
  have hpage : s'.page = update s.page p { s.page p with
      dirty := false, bytes := none
      location := ⟨(s.page p).location.startPos, (s.page p).location.numBytes⟩ } := by rw [hs]
  have hfiles : s'.files = files := by rw [hs]
  have hhome : ∀ r fd pos' n, Home cfg s' r fd pos' n → Home cfg s r fd pos' n := by
    intro r fd pos' n hr
    cases hr with
    | @anonymous q hl hqa hqpos =>
      have hloc : (s'.page q).location = (s.page q).location := by
        rw [hpage]
        by_cases hqp : q = p
        · subst hqp
          rw [update_self]
        · rw [update_of_ne hqp]
      rw [(h.refCount q).2.1] at hqa
      rw [(h.refCount q).2.2.2.2]
      rw [hloc] at hqpos ⊢
      exact Home.anonymous (h.live hl) hqa hqpos
    | ofSet hl hfd =>
      rw [hs] at hl hfd
      exact Home.ofSet hl hfd
    | free hmem =>
      rw [hs] at hmem
      exact Home.free hmem
  have hhomes : Homes cfg s' := by
    refine hk.homes.mono (fun r fd pos' n hr => ⟨n, Nat.le_refl n, hhome r fd pos' n hr⟩) ?_ ?_ ?_ ?_ ?_
    all_goals rw [hs]
  have hlive : (s.page p).isAnon = true ∨ s.Live p := by
    cases ha : (s.page p).isAnon with
    | true => exact Or.inl rfl
    | false => exact Or.inr (Or.inr (hown ha))
  refine h.kept_of_homes hk hpin hown hpage (fun _ _ => rfl) (fun hl ha => ?_) hhomes ?_ ?_
  · exact (hk.pages p hl).clean ha (by simpa [ha] using hnot)
  · intro fd pos' k hr
    have hr := hhome _ _ _ _ hr
    refine ⟨hk.home _ fd pos' k hr, ?_⟩
    rw [hfiles]
    rcases hcase with ⟨hd, rfl⟩ | ⟨hd, -, set, fd₀, hset, hfd, rfl⟩
    · refine hk.onDisk _ fd pos' k hr fun q hl hq => ?_
      rw [hk.ref.name_inj hl hlive hq]
      exact hd
    · have ha : (s.page p).isAnon = false := by simpa [hd] using hnot
      have hl : s.Live p := Or.inr (hown ha)
      have hname : s.pageName p = .ofSet set (s.page p).pageNum := by rw [State.pageName, hset]
      have hbound := hk.bound p hl
      have hholds := hk.inMemory p a hl hb
      rw [hname] at hr hbound hholds ⊢
      cases hr with
      | @ofSet _ _ _ info hloc hfd' =>
        cases hfd.symm.trans hfd'
        rw [← ((hk.pages p hl).located set info hset hloc).1]
        intro off b hoff
        refine (storeBytes_inside ?_).trans (hholds off b hoff)
        exact hbound off b hoff
  · intro n fd pos' k hn hr
    have hr := hhome _ _ _ _ hr
    refine ⟨hr, fun off hoff => ?_⟩
    rw [hfiles]
    rcases hcase with ⟨-, rfl⟩ | ⟨hd, -, set, fd₀, hset, hfd, rfl⟩
    · rfl
    · have ha : (s.page p).isAnon = false := by simpa [hd] using hnot
      have hl : s.Live p := Or.inr (hown ha)
      have hname : s.pageName p = .ofSet set (s.page p).pageNum := by rw [State.pageName, hset]
      refine storeBytes_outside (fun heq => ?_) hoff
      subst heq
      cases hloc : s.pageLocations (set, (s.page p).pageNum) with
      | none =>
        have := ((hk.pages p hl).fresh set hset hloc).1
        rw [hpin] at this
        cases this
      | some info =>
        obtain ⟨h1, h2⟩ := (hk.pages p hl).located set info hset hloc
        have hap := hk.homes.apart _ _ _ _ _ _ _ (Home.ofSet hloc hfd) hr
          (fun heq => hn (by rw [hname]; injection heq with heq; exact heq.symm))
        rw [h1]
        unfold PDBPage.getSize at h2
        unfold Apart at hap ⊢
        omega

theorem WroteBack.kept {p a : ℕ} (h : WroteBack cfg s p a s') (hk : Kept cfg last s)
    (hb : (s.page p).bytes = some a) (hpin : (s.page p).pinned = false)
    (hown : (s.page p).isAnon = false → ∃ key, s.allPages key = some p) : Kept cfg last s' := by
  have h' := h
  cases h' with
  | anonymous pos ha _ hpos hnn => exact kept_anonymous hk hb hpin ha hpos hnn rfl h
  | other files hnot hcase => exact kept_other hk hb hpin hown hnot hcase rfl h

theorem WroteAll.kept {pages : List ℕ} (h : WroteAll cfg pages s s') (hk : Kept cfg last s) (hn : pages.Nodup)
    (hpin : ∀ p ∈ pages, (s.page p).pinned = false)
    (hown : ∀ p ∈ pages, (s.page p).isAnon = false → ∃ key, s.allPages key = some p) : Kept cfg last s' := by
  induction h with
  | nil s => exact hk
  | @cons p a pages s s₁ s₂ hb h₁ _ ih =>
    obtain ⟨hp, hn⟩ := List.nodup_cons.mp hn
    obtain ⟨pos, hpage⟩ := h₁.page
    have hown_p := hown p (by simp)
    have hq : ∀ q ∈ pages, q ≠ p ∧ s₁.page q = s.page q := by
      intro q hq
      have hqp : q ≠ p := fun heq => hp (heq ▸ hq)
      exact ⟨hqp, by rw [hpage, update_of_ne hqp]⟩
    refine ih (h₁.kept hk hb (hpin p (by simp)) hown_p) hn (fun q hqm => ?_) fun q hqm ha => ?_
    · rw [(hq q hqm).2]
      exact hpin q (List.mem_cons_of_mem p hqm)
    · rw [(hq q hqm).2] at ha
      obtain ⟨key, hkey⟩ := hown q (List.mem_cons_of_mem p hqm) ha
      exact ⟨key, h₁.allPages_other hk.ref hown_p hkey (Or.inl (hq q hqm).1)⟩

theorem PageOk.status {loc : PDBSet × ℕ → Option PDBPageInfo} {me : PDBPage} {st : PDBPageStatus}
    (h : PageOk cfg loc me) (he : me.bytes = none → st ≠ .loading → me.dirty = false) :
    PageOk cfg loc { me with status := st } :=
  ⟨h.located, h.fresh, h.pos, h.clean, h.frozen, he, h.sized⟩

theorem setStatuses_page (s : State) (pages : List ℕ) (st : PDBPageStatus) (q : ℕ) :
    ∃ st', (s.setStatuses pages st).page q = { s.page q with status := st' } ∧
      (q ∈ pages → st' = st) ∧ (q ∉ pages → st' = (s.page q).status) := by
  by_cases hq : q ∈ pages
  · exact ⟨st, if_pos hq, fun _ => rfl, fun hx => absurd hq hx⟩
  · exact ⟨(s.page q).status, if_neg hq, fun hx => absurd hx hq, fun _ => rfl⟩

theorem setStatuses_live {s : State} {pages : List ℕ} {st : PDBPageStatus} {q : ℕ} :
    (s.setStatuses pages st).Live q ↔ s.Live q := by
  obtain ⟨st', hq, -⟩ := setStatuses_page s pages st q
  unfold State.Live
  rw [hq]
  rfl

theorem Kept.setStatuses (h : Kept cfg last s) {pages : List ℕ} {st : PDBPageStatus} (href : RefInv s')
    (hs : SameDisk s' s) (hm : s'.memory = s.memory) (hpage : s'.page = (s.setStatuses pages st).page)
    (hall : s'.allPages = s.allPages)
    (hok : ∀ q ∈ pages, s.Live q → (s.page q).bytes = none → st ≠ .loading → (s.page q).dirty = false) :
    Kept cfg last s' := by
  have hlive : ∀ q, s'.Live q ↔ s.Live q := by
    intro q
    have := @setStatuses_live s pages st q
    unfold State.Live at this ⊢
    rw [hpage, hall]
    exact this
  refine h.congr href hs hm (fun q => ?_) (fun q => (hlive q).mp) (fun q hl _ => (hlive q).mpr hl) fun q hl => ?_
  · obtain ⟨st', hq, -⟩ := setStatuses_page s pages st q
    rw [hpage, hq]
    exact ⟨⟨rfl, rfl, rfl, rfl⟩, rfl, rfl, rfl⟩
  · have hl := (hlive q).mp hl
    obtain ⟨st', hq, hin, hout⟩ := setStatuses_page s pages st q
    rw [hpage, hq]
    refine (h.pages q hl).status fun hb hst => ?_
    by_cases hmem : q ∈ pages
    · rw [hin hmem] at hst
      exact hok q hmem hl hb hst
    · rw [hout hmem] at hst
      exact (h.pages q hl).evicted hb hst

theorem Evicted.kept {f : ℕ} (h : Evicted cfg s f s') (hc : Core cfg s) (hk : Kept cfg last s) :
    Kept cfg last s' := by
  have href := h.refInv hc
  have hpin : ∀ p ∈ s.constituentPages f, (s.page p).pinned = false := fun p => h.not_pinned hc
  obtain ⟨t, rest, l, s₁, -, -, -, h₁⟩ := h
  have hu : ∀ p ∈ s.constituentPages f,
      (unloading s f rest l).page p = { s.page p with status := .unloading } := fun p hp => if_pos hp
  have hmid : Kept cfg last (unloading s f rest l) := by
    refine hk.setStatuses ?_ ⟨rfl, rfl, rfl, rfl, rfl, rfl⟩ rfl rfl rfl fun q hq _ hb => ?_
    · obtain ⟨h1, h2, h3, h4⟩ := hk.ref
      have hq : ∀ q, ∃ st, (unloading s f rest l).page q = { s.page q with status := st } := by
        intro q
        obtain ⟨st, hst, -⟩ := setStatuses_page s (s.constituentPages f) .unloading q
        exact ⟨st, hst⟩
      refine ⟨fun key q hk => ?_, fun q hr => ?_, fun q ha => ?_, h4⟩
      · obtain ⟨st, hst⟩ := hq q
        rw [hst]
        exact h1 key q hk
      · obtain ⟨st, hst⟩ := hq q
        rw [hst] at hr ⊢
        exact h2 q hr
      · obtain ⟨st, hst⟩ := hq q
        rw [hst] at ha ⊢
        exact h3 q ha
    · obtain ⟨a, ha, -⟩ := hc.mem.resident f q hq
      rw [hb] at ha
      cases ha
  have hnd := hc.mem.nodup f
  have hdone : Kept cfg last s₁ := by
    refine h₁.kept hmid hnd (fun p hp => ?_) fun p hp ha => ?_
    · rw [hu p hp]
      exact hpin p hp
    · rw [hu p hp] at ha
      exact (hc.mem.owned f p hp).2 ha
  refine hdone.setStatuses href ⟨rfl, rfl, rfl, rfl, rfl, rfl⟩ rfl rfl rfl fun q hq hl hb _ => ?_
  obtain ⟨pos, hpage⟩ := h₁.page_done hnd hq
  rw [hpage]

theorem Provided.kept {k a : ℕ} {s₁ : State} (h : Provided cfg k s s₁ a s') (hc : Core cfg s)
    (hk : Kept cfg last s) : Kept cfg last s' := by
  have h₁ : Kept cfg last s₁ := by
    rcases h.evicted with rfl | ⟨f, he⟩
    · exact hk
    · exact he.kept hc hk
  have hp : s'.page = s₁.page := by rw [h.same]
  have hall : s'.allPages = s₁.allPages := by rw [h.same]
  have hlive : ∀ q, s'.Live q ↔ s₁.Live q := by
    intro q
    unfold State.Live
    rw [hp, hall]
  refine h₁.congr h.core.ref ?_ ?_ (fun q => ?_) (fun q => (hlive q).mp) (fun q hl _ => (hlive q).mpr hl)
    fun q hl => ?_
  · constructor
    all_goals rw [h.same]
  · rw [h.same]
  · rw [hp]
    exact ⟨⟨rfl, rfl, rfl, rfl⟩, rfl, rfl, rfl⟩
  · rw [hp]
    exact h₁.pages q ((hlive q).mp hl)

end PlinyCompute.BufferManager
