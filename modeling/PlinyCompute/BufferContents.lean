import PlinyCompute.BufferWriteBack

namespace PlinyCompute.BufferManager

open ByteRange Function Transition

variable {cfg : Config} {s s' : State} {last : PageName → ℕ → Option UInt8}

def snapshot (cfg : Config) (s : State) (p : ℕ) : ℕ → Option UInt8 := fun off =>
  if off < (s.page p).getSize cfg then (s.page p).bytes.map fun a => s.memory (a + off) else none

theorem snapshot_bounded (cfg : Config) (s : State) (p : ℕ) :
    Bounded (snapshot cfg s p) ((s.page p).getSize cfg) := by
  intro off b h
  by_contra hlt
  rw [snapshot, if_neg hlt] at h
  cases h

theorem snapshot_holds {p a : ℕ} (hb : (s.page p).bytes = some a) : Holds (snapshot cfg s p) s.memory a := by
  intro off b h
  rw [snapshot] at h
  split_ifs at h
  rw [hb] at h
  exact Option.some.inj h

theorem Kept.size_le (h : Kept cfg last s) {p fd pos k : ℕ} (hl : s.Live p)
    (hr : Home cfg s (.page (s.pageName p)) fd pos k) : (s.page p).getSize cfg ≤ k := by
  rcases h.ref.name_cases hl with ⟨ha, hn⟩ | ⟨set, i, -, hset, rfl, -, hn⟩
  · rw [hn] at hr
    cases hr with
    | anonymous _ _ _ => exact Nat.le_refl _
  · rw [hn] at hr
    cases hr with
    | @ofSet _ _ _ info hloc _ => exact ((h.pages p hl).located set info hset hloc).2

theorem Kept.learn (h : Kept cfg last s) {p a : ℕ} {bytes : ℕ → Option UInt8} (hl : s.Live p)
    (hb : (s.page p).bytes = some a) (hd : (s.page p).dirty = true)
    (hbound : Bounded bytes ((s.page p).getSize cfg)) (hholds : Holds bytes s.memory a) :
    Kept cfg (update last (s.pageName p) bytes) s := by
  have hother : ∀ q, s.Live q → q ≠ p → s.pageName q ≠ s.pageName p :=
    fun q hq hqp hn => hqp (h.ref.name_inj hq (Or.inr hl) hn)
  refine ⟨h.ref, h.homes, h.pages, fun q hq => ?_, fun n fd pos k hr => ?_, fun q b hq hbq => ?_,
    fun n fd pos k hr hclean => ?_⟩
  · by_cases hqp : q = p
    · subst hqp
      rw [update_self]
      exact hbound
    · rw [update_of_ne (hother q hq hqp)]
      exact h.bound q hq
  · by_cases hn : n = s.pageName p
    · subst hn
      rw [update_self]
      exact fun off b hoff => (hbound off b hoff).trans_le (h.size_le hl hr)
    · rw [update_of_ne hn]
      exact h.home n fd pos k hr
  · by_cases hqp : q = p
    · subst hqp
      rw [update_self]
      cases hb.symm.trans hbq
      exact hholds
    · rw [update_of_ne (hother q hq hqp)]
      exact h.inMemory q b hq hbq
  · have hn : n ≠ s.pageName p := by
      intro hn
      rw [hclean p hl hn.symm] at hd
      cases hd
    rw [update_of_ne hn]
    exact h.onDisk n fd pos k hr hclean

theorem Kept.new (h : Kept cfg last s) {p : ℕ} {me : PDBPage} (hnew : ¬ s.Live p) (href : RefInv s')
    (hd : SameDisk s' s) (hm : s'.memory = s.memory) (hpage : s'.page = update s.page p me)
    (hall : ∀ key q, s'.allPages key = some q → q = p ∨ s.allPages key = some q)
    (hkeep : ∀ key q, s.allPages key = some q → s'.allPages key = some q)
    (hfresh : ∀ q, s.Live q → s.pageName q ≠ s'.pageName p) (hok : PageOk cfg s.pageLocations me)
    (hanon : me.isAnon = true → me.location.startPos < 0)
    (hbound : Bounded (last (s'.pageName p)) (me.getSize cfg))
    (hmem : ∀ a, me.bytes = some a → Holds (last (s'.pageName p)) s.memory a) : Kept cfg last s' := by
  have hp : s'.page p = me := by rw [hpage, update_self]
  have hq : ∀ q, q ≠ p → s'.page q = s.page q := fun q hqp => by rw [hpage, update_of_ne hqp]
  have hlive : ∀ q, q ≠ p → s'.Live q → s.Live q := by
    intro q hqp hl
    rcases hl with hr | ⟨key, hk⟩
    · rw [hq q hqp] at hr
      exact Or.inl hr
    · exact Or.inr ⟨key, (hall key q hk).resolve_left hqp⟩
  have hlive' : ∀ q, s.Live q → q ≠ p ∧ s'.Live q := by
    intro q hl
    have hqp : q ≠ p := fun heq => hnew (heq ▸ hl)
    refine ⟨hqp, ?_⟩
    rcases hl with hr | ⟨key, hk⟩
    · exact Or.inl (by rw [hq q hqp]; exact hr)
    · exact Or.inr ⟨key, hkeep key q hk⟩
  have hname : ∀ q, q ≠ p → s'.pageName q = s.pageName q :=
    fun q hqp => pageName_congr (by rw [hq q hqp]) (by rw [hq q hqp])
  have hhome : ∀ r fd pos n, Home cfg s' r fd pos n → Home cfg s r fd pos n := by
    intro r fd pos n hr
    cases hr with
    | @anonymous q hl ha hpos =>
      have hqp : q ≠ p := by
        intro hqp
        rw [hqp, hp] at ha hpos
        have := hanon ha
        omega
      rw [hq q hqp] at ha hpos ⊢
      exact Home.anonymous (hlive q hqp hl) ha hpos
    | ofSet hl hfd =>
      rw [hd.pageLocations] at hl
      rw [hd.fds] at hfd
      exact Home.ofSet hl hfd
    | free hx =>
      rw [hd.availablePositions] at hx
      exact Home.free hx
  refine ⟨href, ?_, fun q hlq => ?_, fun q hlq => ?_, fun n fd pos k hr => ?_, fun q b hlq hbq => ?_,
    fun n fd pos k hr hclean => ?_⟩
  · exact h.homes.mono (fun r fd pos n hr => ⟨n, Nat.le_refl n, hhome r fd pos n hr⟩) hd.fds hd.pageLocations
      hd.endOfFiles hd.lastTempPos hd.availablePositions
  · rw [hd.pageLocations]
    by_cases hqp : q = p
    · subst hqp
      rw [hp]
      exact hok
    · rw [hq q hqp]
      exact h.pages q (hlive q hqp hlq)
  · by_cases hqp : q = p
    · subst hqp
      rw [hp]
      exact hbound
    · rw [hname q hqp, hq q hqp]
      exact h.bound q (hlive q hqp hlq)
  · exact h.home n fd pos k (hhome _ _ _ _ hr)
  · rw [hm]
    by_cases hqp : q = p
    · subst hqp
      rw [hp] at hbq
      exact hmem b hbq
    · rw [hq q hqp] at hbq
      rw [hname q hqp]
      exact h.inMemory q b (hlive q hqp hlq) hbq
  · rw [hd.files]
    refine h.onDisk n fd pos k (hhome _ _ _ _ hr) fun q hlq hn => ?_
    obtain ⟨hqp, hlq'⟩ := hlive' q hlq
    rw [← hq q hqp]
    exact hclean q hlq' ((hname q hqp).trans hn)

theorem Kept.changePage (h : Kept cfg last s) {p : ℕ} {me : PDBPage} (href : RefInv s') (hd : SameDisk s' s)
    (hpage : s'.page = update s.page p me) (hall : s'.allPages = s.allPages) (hl : s.Live p)
    (hl' : s'.Live p) (hme : SamePlace me (s.page p)) (hsize : me.getSize cfg ≤ (s.page p).getSize cfg)
    (hdirty : (s.page p).dirty = true → me.dirty = true) (hok : PageOk cfg s.pageLocations me)
    (hbound : Bounded (last (s.pageName p)) (me.getSize cfg))
    (hbytes : ∀ a, me.bytes = some a → Holds (last (s.pageName p)) s'.memory a)
    (hmem : ∀ q b, q ≠ p → s'.Live q → (s'.page q).bytes = some b →
      ∀ off, off < (s'.page q).getSize cfg → s'.memory (b + off) = s.memory (b + off)) :
    Kept cfg last s' := by
  have hp : s'.page p = me := by rw [hpage, update_self]
  have hq : ∀ q, q ≠ p → s'.page q = s.page q := fun q hqp => by rw [hpage, update_of_ne hqp]
  have hlive : ∀ q, s'.Live q ↔ s.Live q := by
    intro q
    by_cases hqp : q = p
    · subst hqp
      exact iff_of_true hl' hl
    · unfold State.Live
      rw [hq q hqp, hall]
  refine h.change href hd (fun q => ?_) (fun q => ?_) (fun q => (hlive q).mp) (fun q hlq hx => ?_)
    (fun q hlq => ?_) (fun q hlq => ?_) fun q b hlq hb => ?_
  · by_cases hqp : q = p
    · subst hqp
      rw [hp]
      exact hme
    · rw [hq q hqp]
      exact ⟨rfl, rfl, rfl, rfl⟩
  · by_cases hqp : q = p
    · subst hqp
      rw [hp]
      exact hsize
    · rw [hq q hqp]
  · refine ⟨(hlive q).mpr hlq, ?_⟩
    by_cases hqp : q = p
    · subst hqp
      rw [hp]
      exact hdirty hx
    · rw [hq q hqp]
      exact hx
  · by_cases hqp : q = p
    · subst hqp
      rw [hp]
      exact hok
    · rw [hq q hqp]
      exact h.pages q ((hlive q).mp hlq)
  · by_cases hqp : q = p
    · subst hqp
      rw [hp]
      exact hbound
    · rw [hq q hqp]
      exact h.bound q ((hlive q).mp hlq)
  · by_cases hqp : q = p
    · subst hqp
      rw [hp] at hb
      exact hbytes b hb
    · have hsame := hmem q b hqp hlq hb
      rw [hq q hqp] at hb hsame
      exact (h.inMemory q b ((hlive q).mp hlq) hb).congr (h.bound q ((hlive q).mp hlq)) hsame

theorem Kept.open (h : Kept cfg last s) {set : PDBSet} {fd : ℕ} (hnone : s.fds set = none)
    (htemp : fd ≠ cfg.tempFileFD) (hown : ∀ set', s.fds set' ≠ some fd) :
    Kept cfg last { s with fds := update s.fds set (some fd) } := by
  have hkeep : ∀ set' fd', s.fds set' = some fd' → set' ≠ set := by
    rintro set' fd' hx rfl
    rw [hnone] at hx
    cases hx
  have hfds : ∀ set' fd', update s.fds set (some fd) set' = some fd' →
      (set' = set ∧ fd' = fd) ∨ s.fds set' = some fd' := by
    intro set' fd' hx
    by_cases hs : set' = set
    · subst hs
      rw [update_self] at hx
      exact Or.inl ⟨rfl, (Option.some.inj hx).symm⟩
    · rw [update_of_ne hs] at hx
      exact Or.inr hx
  have hhome : ∀ r fd' pos n, Home cfg { s with fds := update s.fds set (some fd) } r fd' pos n →
      Home cfg s r fd' pos n := by
    intro r fd' pos n hr
    cases hr with
    | anonymous hl ha hpos => exact Home.anonymous hl ha hpos
    | @ofSet set' i _ info hloc hfd =>
      obtain ⟨⟨fd₀, hfd₀⟩, -⟩ := h.homes.located set' i info hloc
      refine Home.ofSet hloc ?_
      rw [← hfd]
      exact (update_of_ne (hkeep set' fd₀ hfd₀) _ _).symm
    | free hmem => exact Home.free hmem
  refine ⟨⟨h.ref.key, h.ref.held, h.ref.anon, fun key p hk => ?_⟩, ⟨?_, ?_, ?_, h.homes.free_nodup,
    h.homes.free_nonneg, ?_⟩, h.pages, h.bound, fun n fd' pos k hr => h.home n fd' pos k (hhome _ _ _ _ hr),
    h.inMemory, fun n fd' pos k hr => h.onDisk n fd' pos k (hhome _ _ _ _ hr)⟩
  · obtain ⟨fd', hfd⟩ := h.ref.opened key p hk
    exact ⟨fd', (update_of_ne (hkeep key.1 fd' hfd) _ _).trans hfd⟩
  · intro set' fd' hx
    rcases hfds set' fd' hx with ⟨rfl, rfl⟩ | hx
    · refine ⟨htemp, fun set'' hx' => ?_⟩
      rcases hfds set'' _ hx' with ⟨rfl, -⟩ | hx'
      · rfl
      · exact absurd hx' (hown set'')
    · obtain ⟨hne, hinj⟩ := h.homes.files set' fd' hx
      refine ⟨hne, fun set'' hx' => ?_⟩
      rcases hfds set'' fd' hx' with ⟨-, heq⟩ | hx'
      · rw [heq] at hx
        exact absurd hx (hown set')
      · exact hinj set'' hx'
  · intro set' i info hloc
    obtain ⟨⟨fd', hfd⟩, hrest⟩ := h.homes.located set' i info hloc
    exact ⟨⟨fd', (update_of_ne (hkeep set' fd' hfd) _ _).trans hfd⟩, hrest⟩
  · exact fun r pos n hr => h.homes.temp r pos n (hhome _ _ _ _ hr)
  · exact fun r r' fd' pos n pos' n' hr hr' => h.homes.apart r r' fd' pos n pos' n' (hhome _ _ _ _ hr)
      (hhome _ _ _ _ hr')

def unpinnedAt (me : PDBPage) (pos : ℤ) : PDBPage :=
  { me with pinned := false, sizeFrozen := true, location := ⟨pos, me.location.numBytes⟩ }

def assigned (cfg : Config) (s : State) (p : ℕ) (set : PDBSet) : State :=
  { s with
    page := update s.page p (unpinnedAt (s.page p) (s.endOfFiles set))
    pageLocations := update s.pageLocations (set, (s.page p).pageNum)
      (some ⟨s.endOfFiles set, (s.page p).location.numBytes⟩)
    endOfFiles := update s.endOfFiles set (s.endOfFiles set + (s.page p).getSize cfg) }

section Assigned

variable {p fd₀ : ℕ} {set : PDBSet}

theorem assigned_page_self : (assigned cfg s p set).page p = unpinnedAt (s.page p) (s.endOfFiles set) :=
  update_self _ _ _

theorem assigned_page_of_ne {q : ℕ} (hq : q ≠ p) : (assigned cfg s p set).page q = s.page q :=
  update_of_ne hq _ _

theorem assigned_page (q : ℕ) :
    ((assigned cfg s p set).page q).refCount = (s.page q).refCount ∧
      ((assigned cfg s p set).page q).isAnon = (s.page q).isAnon ∧
      ((assigned cfg s p set).page q).whichSet = (s.page q).whichSet ∧
      ((assigned cfg s p set).page q).pageNum = (s.page q).pageNum ∧
      ((assigned cfg s p set).page q).getSize cfg = (s.page q).getSize cfg ∧
      ((assigned cfg s p set).page q).dirty = (s.page q).dirty ∧
      ((assigned cfg s p set).page q).bytes = (s.page q).bytes := by
  by_cases hqp : q = p
  · subst hqp
    rw [assigned_page_self]
    exact ⟨rfl, rfl, rfl, rfl, rfl, rfl, rfl⟩
  · rw [assigned_page_of_ne hqp]
    exact ⟨rfl, rfl, rfl, rfl, rfl, rfl, rfl⟩

theorem assigned_live (q : ℕ) : (assigned cfg s p set).Live q ↔ s.Live q := by
  unfold State.Live
  rw [(assigned_page q).1]
  rfl

theorem assigned_pageName (q : ℕ) : (assigned cfg s p set).pageName q = s.pageName q :=
  pageName_congr (assigned_page q).2.2.1 (assigned_page q).2.2.2.1

theorem assigned_home (h : Homes cfg s) (ha : (s.page p).isAnon = false) (hfd : s.fds set = some fd₀)
    {r : Region} {fd pos n : ℕ} (hr : Home cfg (assigned cfg s p set) r fd pos n) :
    (r = .page (.ofSet set (s.page p).pageNum) ∧ fd = fd₀ ∧ pos = s.endOfFiles set ∧
      n = (s.page p).getSize cfg) ∨
    (r ≠ .page (.ofSet set (s.page p).pageNum) ∧ Home cfg s r fd pos n ∧
      (fd = fd₀ → pos + n ≤ s.endOfFiles set)) := by
  obtain ⟨hne, hinj⟩ := h.files set fd₀ hfd
  cases hr with
  | @anonymous q hl hqa hqpos =>
    have hqp : q ≠ p := by
      rintro rfl
      rw [(assigned_page q).2.1, ha] at hqa
      cases hqa
    rw [assigned_live] at hl
    rw [assigned_page_of_ne hqp] at hqa hqpos ⊢
    refine Or.inr ⟨fun hx => ?_, Home.anonymous hl hqa hqpos, fun hx => absurd hx.symm hne⟩
    injection hx with hx
    cases hx
  | @ofSet set' i' _ info hloc hfd' =>
    change update _ _ _ _ = _ at hloc
    by_cases hkey : (set', i') = (set, (s.page p).pageNum)
    · rw [hkey, update_self] at hloc
      cases hkey
      cases hloc
      exact Or.inl ⟨rfl, Option.some.inj (hfd'.symm.trans hfd), Int.toNat_natCast _, rfl⟩
    · rw [update_of_ne hkey] at hloc
      refine Or.inr ⟨fun hx => hkey ?_, Home.ofSet hloc hfd', fun hx => ?_⟩
      · injection hx with hx
        injection hx with hx1 hx2
        rw [hx1, hx2]
      · have hset := hinj set' (hx ▸ hfd')
        subst hset
        exact (h.located set' i' info hloc).2.2
  | free hx => exact Or.inr ⟨Region.noConfusion, Home.free hx, fun hx' => absurd hx'.symm hne⟩

theorem Homes.assign (h : Homes cfg s) (ha : (s.page p).isAnon = false) (hfd : s.fds set = some fd₀) :
    Homes cfg (assigned cfg s p set) := by
  refine ⟨h.files, fun set' i' info hloc => ?_, fun r pos n hr => ?_, h.free_nodup, h.free_nonneg,
    fun r r' fd pos n pos' n' hr hr' hne => ?_⟩
  · have heof : (assigned cfg s p set).endOfFiles =
        update s.endOfFiles set (s.endOfFiles set + (s.page p).getSize cfg) := rfl
    change update _ _ _ _ = _ at hloc
    rw [heof]
    by_cases hkey : (set', i') = (set, (s.page p).pageNum)
    · rw [hkey, update_self] at hloc
      cases hkey
      cases hloc
      refine ⟨⟨fd₀, hfd⟩, Int.natCast_nonneg _, ?_⟩
      rw [update_self, Int.toNat_natCast]
      exact Nat.le_refl _
    · rw [update_of_ne hkey] at hloc
      obtain ⟨h1, h2, h3⟩ := h.located set' i' info hloc
      refine ⟨h1, h2, h3.trans ?_⟩
      by_cases hset : set' = set
      · rw [hset, update_self]
        exact Nat.le_add_right _ _
      · rw [update_of_ne hset]
  · rcases assigned_home h ha hfd hr with ⟨-, hx, -⟩ | ⟨-, hr, -⟩
    · exact absurd hx.symm (h.files set fd₀ hfd).1
    · exact h.temp r pos n hr
  · rcases assigned_home h ha hfd hr with ⟨rfl, rfl, rfl, rfl⟩ | ⟨-, hr, hle⟩
    · rcases assigned_home h ha hfd hr' with ⟨rfl, -⟩ | ⟨-, -, hle⟩
      · exact absurd rfl hne
      · exact Or.inr (hle rfl)
    · rcases assigned_home h ha hfd hr' with ⟨rfl, rfl, rfl, rfl⟩ | ⟨-, hr', -⟩
      · exact Or.inl (hle rfl)
      · exact h.apart r r' fd pos n pos' n' hr hr' hne

theorem PageOk.assign {loc : PDBSet × ℕ → Option PDBPageInfo} {me : PDBPage} {pos : ℤ}
    (ha : me.isAnon = false) (hset : me.whichSet = some set) (hb : me.bytes ≠ none)
    (hloc : loc (set, me.pageNum) = some ⟨pos, me.location.numBytes⟩) : PageOk cfg loc (unpinnedAt me pos) := by
  have hanon : ¬ (unpinnedAt me pos).isAnon = true := by simp [unpinnedAt, ha]
  have hnum : (unpinnedAt me pos).pageNum = me.pageNum := rfl
  refine ⟨fun set' info hw hl => ?_, fun set' hw hl => ?_, fun hx => absurd hx hanon, fun hx => absurd hx hanon,
    fun hx => absurd hx hanon, fun hx => absurd hx hb, fun hx => absurd hx hanon⟩
  · cases hset.symm.trans hw
    rw [hnum, hloc] at hl
    cases hl
    exact ⟨rfl, Nat.le_refl _⟩
  · cases hset.symm.trans hw
    rw [hnum, hloc] at hl
    cases hl

theorem Kept.assign (h : Kept cfg last s) (hl : s.Live p) (hset : (s.page p).whichSet = some set)
    (hnone : s.pageLocations (set, (s.page p).pageNum) = none) (hb : (s.page p).bytes ≠ none)
    (href : RefInv (assigned cfg s p set)) : Kept cfg last (assigned cfg s p set) := by
  have hname : s.pageName p = .ofSet set (s.page p).pageNum := by rw [State.pageName, hset]
  obtain ⟨ha, hk⟩ : (s.page p).isAnon = false ∧ s.allPages (set, (s.page p).pageNum) = some p := by
    rcases h.ref.name_cases hl with ⟨-, hn⟩ | ⟨set', i, ha, hset', rfl, hk, -⟩
    · rw [hname] at hn
      cases hn
    · cases hset.symm.trans hset'
      exact ⟨ha, hk⟩
  obtain ⟨fd₀, hfd⟩ := h.ref.opened _ p hk
  obtain ⟨-, hdirty⟩ := (h.pages p hl).fresh set hset hnone
  refine ⟨href, h.homes.assign ha hfd, fun q hlq => ?_, fun q hlq => ?_, fun n fd pos k hr => ?_,
    fun q b hlq hbq => ?_, fun n fd pos k hr hclean => ?_⟩
  · rw [assigned_live] at hlq
    by_cases hqp : q = p
    · subst hqp
      rw [assigned_page_self]
      exact PageOk.assign ha hset hb (update_self _ _ _)
    · have hold := h.pages q hlq
      have hkey : ∀ set', (s.page q).whichSet = some set' → (assigned cfg s p set).pageLocations
          (set', (s.page q).pageNum) = s.pageLocations (set', (s.page q).pageNum) := by
        intro set' hw
        refine update_of_ne (fun hx => hqp ?_) _ _
        injection hx with hx1 hx2
        refine h.ref.name_inj hlq (Or.inr hl) ?_
        rw [hname, State.pageName, hw, hx1, hx2]
      rw [assigned_page_of_ne hqp]
      refine ⟨fun set' info hw hx => ?_, fun set' hw hx => ?_, hold.pos, hold.clean, hold.frozen, hold.evicted,
        hold.sized⟩
      · rw [hkey set' hw] at hx
        exact hold.located set' info hw hx
      · rw [hkey set' hw] at hx
        exact hold.fresh set' hw hx
  · rw [assigned_live] at hlq
    rw [assigned_pageName, (assigned_page q).2.2.2.2.1]
    exact h.bound q hlq
  · rcases assigned_home h.homes ha hfd hr with ⟨hx, -, -, rfl⟩ | ⟨-, hr, -⟩
    · injection hx with hx
      rw [hx, ← hname]
      exact h.bound p hl
    · exact h.home n fd pos k hr
  · rw [assigned_live] at hlq
    rw [(assigned_page q).2.2.2.2.2.2] at hbq
    rw [assigned_pageName]
    exact h.inMemory q b hlq hbq
  · rcases assigned_home h.homes ha hfd hr with ⟨hx, -⟩ | ⟨-, hr, -⟩
    · injection hx with hx
      have := hclean p ((assigned_live p).mpr hl) (by rw [assigned_pageName, hname, hx])
      rw [(assigned_page p).2.2.2.2.2.1, hdirty] at this
      cases this
    · refine h.onDisk n fd pos k hr fun q hlq hn => ?_
      rw [← (assigned_page q).2.2.2.2.2.1]
      exact hclean q ((assigned_live q).mpr hlq) ((assigned_pageName q).trans hn)

end Assigned

theorem Kept.free (h : Kept cfg last s) {p : ℕ} (ha : (s.page p).isAnon = true) (hl : s.Live p)
    (href : RefInv s') (hpage : s'.page = update s.page p { s.page p with refCount := 0 })
    (hall : s'.allPages = s.allPages) (hfds : s'.fds = s.fds) (hloc : s'.pageLocations = s.pageLocations)
    (heof : s'.endOfFiles = s.endOfFiles) (htemp : s'.lastTempPos = s.lastTempPos)
    (hmem : s'.memory = s.memory) (hfiles : s'.files = s.files)
    (hav : s'.availablePositions = if (s.page p).location.startPos ≠ -1 then
        update s.availablePositions (s.page p).location.numBytes
          (s.availablePositions (s.page p).location.numBytes ++ [(s.page p).location.startPos])
      else s.availablePositions) : Kept cfg last s' := by
  have hp : s'.page p = { s.page p with refCount := 0 } := by rw [hpage, update_self]
  have hq : ∀ q, q ≠ p → s'.page q = s.page q := fun q hqp => by rw [hpage, update_of_ne hqp]
  have hdead : ¬ s'.Live p := by
    rintro (hr | ⟨key, hk⟩)
    · rw [hp] at hr
      exact Nat.lt_irrefl 0 hr
    · have := (href.key key p hk).2.1
      rw [hp] at this
      exact Bool.noConfusion (ha.symm.trans this)
  have hlive : ∀ q, s'.Live q ↔ s.Live q ∧ q ≠ p := by
    intro q
    by_cases hqp : q = p
    · subst hqp
      simp [hdead]
    · unfold State.Live
      rw [hq q hqp, hall]
      simp [hqp]
  have hname : ∀ q, q ≠ p → s'.pageName q = s.pageName q :=
    fun q hqp => pageName_congr (by rw [hq q hqp]) (by rw [hq q hqp])
  have hname_p : s.pageName p = .anonymous p := by rw [State.pageName, h.ref.anon p ha]
  have hok := h.pages p hl
  have hmemav : ∀ k pos, pos ∈ s'.availablePositions k → pos ∈ s.availablePositions k ∨
      k = (s.page p).location.numBytes ∧ pos = (s.page p).location.startPos ∧
        0 ≤ (s.page p).location.startPos := by
    intro k pos hx
    rw [hav] at hx
    by_cases hs : (s.page p).location.startPos ≠ -1
    · rw [if_pos hs] at hx
      by_cases hk : k = (s.page p).location.numBytes
      · rw [hk, update_self, List.mem_append, List.mem_singleton] at hx
        rw [hk]
        exact hx.imp_right fun heq => ⟨rfl, heq, (hok.pos ha).resolve_left hs⟩
      · rw [update_of_ne hk] at hx
        exact Or.inl hx
    · rw [if_neg hs] at hx
      exact Or.inl hx
  -- a place is what it was, or it is the place that the page had
  have hcases : ∀ r fd pos n, Home cfg s' r fd pos n →
      (r = .free (s.page p).location.numBytes (s.page p).location.startPos ∧
        Home cfg s (.page (.anonymous p)) fd pos n) ∨
      (r ≠ .page (.anonymous p) ∧ Home cfg s r fd pos n) := by
    intro r fd pos n hr
    cases hr with
    | @anonymous q hlq hqa hqpos =>
      obtain ⟨hlq, hqp⟩ := (hlive q).mp hlq
      rw [hq q hqp] at hqa hqpos ⊢
      refine Or.inr ⟨fun hx => ?_, Home.anonymous hlq hqa hqpos⟩
      injection hx with hx
      injection hx with hx
      exact hqp hx
    | ofSet hx hfd =>
      rw [hloc] at hx
      rw [hfds] at hfd
      refine Or.inr ⟨fun hx => ?_, Home.ofSet hx hfd⟩
      injection hx with hx
      cases hx
    | @free k pos hx =>
      rcases hmemav k pos hx with hx | ⟨rfl, rfl, hpos⟩
      · exact Or.inr ⟨Region.noConfusion, Home.free hx⟩
      · exact Or.inl ⟨rfl, Home.anonymous hl ha hpos⟩
  have hhomes : Homes cfg s' := by
    refine ⟨by rw [hfds]; exact h.homes.files, by rw [hloc, hfds, heof]; exact h.homes.located,
      fun r pos n hr => ?_, fun k => ?_, fun k pos hx => ?_, fun r r' fd pos n pos' n' hr hr' hne => ?_⟩
    · rw [htemp]
      rcases hcases r _ pos n hr with ⟨-, hr⟩ | ⟨-, hr⟩
      · exact h.homes.temp _ pos n hr
      · exact h.homes.temp _ pos n hr
    · rw [hav]
      by_cases hs : (s.page p).location.startPos ≠ -1
      · have hpos := (hok.pos ha).resolve_left hs
        rw [if_pos hs]
        by_cases hk : k = (s.page p).location.numBytes
        · rw [hk, update_self, List.nodup_append]
          refine ⟨h.homes.free_nodup _, by simp, ?_⟩
          rintro x hx y hy rfl
          rw [List.mem_singleton] at hy
          rw [hy] at hx
          have hap := h.homes.apart _ _ _ _ _ _ _ (Home.free hx) (Home.anonymous hl ha hpos) Region.noConfusion
          have hsz := hok.sized ha
          unfold PDBPage.getSize at hap hsz
          unfold Apart at hap
          omega
        · rw [update_of_ne hk]
          exact h.homes.free_nodup k
      · rw [if_neg hs]
        exact h.homes.free_nodup k
    · rcases hmemav k pos hx with hx | ⟨-, rfl, hpos⟩
      · exact h.homes.free_nonneg k pos hx
      · exact hpos
    · rcases hcases r fd pos n hr with ⟨hfree, hold⟩ | ⟨hr₁, hold⟩
      · rcases hcases r' fd pos' n' hr' with ⟨hfree', -⟩ | ⟨hr₁', hold'⟩
        · exact absurd (hfree.trans hfree'.symm) hne
        · exact h.homes.apart _ r' fd pos n pos' n' hold hold' (Ne.symm hr₁')
      · rcases hcases r' fd pos' n' hr' with ⟨-, hold'⟩ | ⟨-, hold'⟩
        · exact h.homes.apart r _ fd pos n pos' n' hold hold' hr₁
        · exact h.homes.apart r r' fd pos n pos' n' hold hold' hne
  have hpages : ∀ n fd pos k, Home cfg s' (.page n) fd pos k →
      n ≠ .anonymous p ∧ Home cfg s (.page n) fd pos k := by
    intro n fd pos k hr
    rcases hcases _ fd pos k hr with ⟨hx, -⟩ | ⟨hx, hr⟩
    · cases hx
    · exact ⟨fun hn => hx (by rw [hn]), hr⟩
  refine ⟨href, hhomes, fun q hlq => ?_, fun q hlq => ?_, fun n fd pos k hr => ?_, fun q b hlq hb => ?_,
    fun n fd pos k hr hclean => ?_⟩
  · obtain ⟨hlq, hqp⟩ := (hlive q).mp hlq
    rw [hloc, hq q hqp]
    exact h.pages q hlq
  · obtain ⟨hlq, hqp⟩ := (hlive q).mp hlq
    rw [hname q hqp, hq q hqp]
    exact h.bound q hlq
  · exact h.home n fd pos k (hpages n fd pos k hr).2
  · obtain ⟨hlq, hqp⟩ := (hlive q).mp hlq
    rw [hq q hqp] at hb
    rw [hname q hqp, hmem]
    exact h.inMemory q b hlq hb
  · obtain ⟨hn, hr⟩ := hpages n fd pos k hr
    rw [hfiles]
    refine h.onDisk n fd pos k hr fun q hlq hqn => ?_
    have hqp : q ≠ p := fun hqp => hn (by rw [← hqn, hqp, hname_p])
    rw [← hq q hqp]
    exact hclean q ((hlive q).mpr ⟨hlq, hqp⟩) ((hname q hqp).trans hqn)

end PlinyCompute.BufferManager
