import PlinyCompute.BufferFree

namespace PlinyCompute.BufferManager

open Function Transition

variable {cfg : Config} {s s' : State}

theorem registerMiniPage_setPage {p a : ℕ} {me : PDBPage} (hb : me.bytes = some a) :
    (s.setPage p me).registerMiniPage cfg p = .ok (place cfg s s.nextPage p a me) := by
  have hb' : ((s.setPage p me).page p).bytes = some a := by
    rw [show (s.setPage p me).page p = me from update_self _ _ _, hb]
  rw [registerMiniPage_eq hb', setPage_pinFullPage, pinFullPage_eq, place, pinFullPage_eq]
  rfl

theorem place_setPage (s : State) (n p a : ℕ) (me me' : PDBPage) :
    (place cfg s n p a me).setPage p me' = place cfg s n p a me' := by
  unfold State.setPage place
  rw [update_idem]

theorem place_page_self (s : State) (n p a : ℕ) (me : PDBPage) : (place cfg s n p a me).page p = me :=
  update_self _ _ _

theorem place_same (s : State) (n p a : ℕ) (me : PDBPage) : place cfg s n p a me = { s with
    page := update s.page p me, nextPage := n
    lastUsed := (place cfg s n p a me).lastUsed, numPinned := (place cfg s n p a me).numPinned
    constituentPages := (place cfg s n p a me).constituentPages } := by
  unfold place
  rw [pinFullPage_eq]

def fetch (cfg : Config) (s : State) (p a fd pos : ℕ) (me : PDBPage) : State :=
  { place cfg s s.nextPage p a me with
    memory := fetchBytes s.files s.memory fd a (cfg.miniPageSize me.location.numBytes) pos }

theorem pread_place {p a fd k : ℕ} {pos : ℤ} {me : PDBPage} (hk : me.location.numBytes = k) :
    Ensures Stops ((place cfg s s.nextPage p a me).pread fd a (cfg.miniPageSize k) pos) fun s' =>
      0 ≤ pos ∧ s' = fetch cfg s p a fd pos.toNat me := by
  refine pread_spec.mono ?_
  rintro s' ⟨hpos, rfl⟩
  refine ⟨hpos, ?_⟩
  have hbytes : fetchBytes (place cfg s s.nextPage p a me).files (place cfg s s.nextPage p a me).memory =
      fetchBytes s.files s.memory := by rw [place_same]
  rw [hbytes, fetch, hk]

theorem fetch_setPage {p a fd pos : ℕ} {me me' : PDBPage}
    (hk : me'.location.numBytes = me.location.numBytes) :
    (fetch cfg s p a fd pos me).setPage p me' = fetch cfg s p a fd pos me' := by
  unfold State.setPage fetch place
  rw [update_idem, hk]

theorem fetch_page_self (s : State) (p a fd pos : ℕ) (me : PDBPage) :
    (fetch cfg s p a fd pos me).page p = me := update_self _ _ _

inductive Repinned (cfg : Config) (p : ℕ) (s : State) : State → Prop
  | pinned : (s.page p).pinned = true → Repinned cfg p s s
  | resident {a : ℕ} : (s.page p).pinned = false → (s.page p).bytes = some a →
      Repinned cfg p s ((s.setPage p { s.page p with pinned := true }).pinFullPage (cfg.fullPage a))
  | loaded {a fd : ℕ} {s₁ s₂ : State} : (s.page p).pinned = false → (s.page p).bytes = none →
      Provided cfg (s.page p).location.numBytes (s.setPage p { s.page p with status := .loading }) s₁ a s₂ →
      ((s.page p).isAnon = true ∧ fd = cfg.tempFileFD ∨ ∃ set, (s.page p).isAnon = false ∧
        (s.page p).whichSet = some set ∧ s.fds set = some fd) → 0 ≤ (s.page p).location.startPos →
      Repinned cfg p s (fetch cfg s₂ p a fd (s.page p).location.startPos.toNat
        { s.page p with bytes := some a, pinned := true, status := .loaded })

theorem Core.not_constituent (h : Core cfg s) {p : ℕ} (hb : (s.page p).bytes = none) (f : ℕ) :
    p ∉ s.constituentPages f := by
  intro hp
  obtain ⟨a, ha, -⟩ := h.mem.resident f p hp
  rw [hb] at ha
  cases ha

theorem Core.live_lt (h : Core cfg s) {p : ℕ} (hl : s.Live p) : p < s.nextPage := by
  rcases hl with href | ⟨key, hk⟩
  · exact (h.ref.held p href).1
  · exact (h.ref.key key p hk).1

theorem Core.live_key (h : Core cfg s) {p : ℕ} (hl : s.Live p) (ha : (s.page p).isAnon = false) :
    ∃ key, s.allPages key = some p := by
  rcases hl with href | hk
  · exact (h.ref.held p href).2 ha
  · exact hk

theorem Provided.allPages_of_none {k a p : ℕ} {s₁ : State} (h : Provided cfg k s s₁ a s') (hc : Core cfg s)
    (hnone : (s.page p).bytes = none) {key : PDBSet × ℕ} (hkey : s.allPages key = some p) :
    s'.allPages key = some p := by
  rcases h.allPages hc key with heq | ⟨-, q, -, hq, hk⟩
  · rw [heq, hkey]
  · cases hkey.symm.trans hk
    exact absurd hnone hq

theorem Provided.live_of_none {k a p : ℕ} {s₁ : State} (h : Provided cfg k s s₁ a s') (hc : Core cfg s)
    (hl : s.Live p) (hnone : (s.page p).bytes = none) : s'.Live p := by
  rcases hl with href | ⟨key, hkey⟩
  · refine Or.inl ?_
    rw [h.page_eq hc hnone]
    exact href
  · exact Or.inr ⟨key, h.allPages_of_none hc hnone hkey⟩

theorem Provided.place {k a p : ℕ} {s₁ s₂ : State} {me : PDBPage} (h : Provided cfg k s s₁ a s₂)
    (hc : Core cfg s) (ht : MemoryFits cfg k s) (hl : s.Live p) (hnone : (s.page p).bytes = none)
    (hme : me.isAnon = (s.page p).isAnon ∧ me.whichSet = (s.page p).whichSet ∧
      me.pageNum = (s.page p).pageNum) (hb : me.bytes = some a) (hk : me.location.numBytes = k)
    (hpin : me.pinned = true) : Core cfg (place cfg s₂ s₂.nextPage p a me) := by
  have hpage := h.page_eq hc hnone
  have hlt : p < s₂.nextPage := by
    rw [h.frame.1]
    exact hc.live_lt hl
  obtain ⟨h1, h2, h3⟩ := hme
  refine h.core.place (h.fits ht) h.hole ?_ hb hk hpin ?_ ?_ ?_ (Nat.le_refl _) hlt
  · exact h.core.not_constituent (by rw [hpage, hnone])
  · intro key hkey
    rw [h1, h2, h3, ← hpage]
    exact (h.core.ref.key key p hkey).2
  · intro ha
    rw [h1] at ha
    obtain ⟨key, hkey⟩ := hc.live_key hl ha
    exact ⟨key, h.allPages_of_none hc hnone hkey⟩
  · intro ha
    rw [h1] at ha
    rw [h2]
    exact hc.ref.anon p ha

def RepinFits (cfg : Config) (p : ℕ) (s : State) : Prop :=
  (s.page p).pinned = false →
    match (s.page p).bytes with
    | some a => TickFits s (cfg.fullPage a)
    | none => MemoryFits cfg (s.page p).location.numBytes s

theorem repin_spec (h : Core cfg s) {p : ℕ} (ht : RepinFits cfg p s) (hl : s.Live p) :
    Ensures Stops (s.repin cfg p) fun s' => Repinned cfg p s s' ∧ Core cfg s' := by
  unfold State.repin
  dsimp only
  by_cases hst : (s.page p).status = .loading ∨ (s.page p).status = .unloading
  · rw [if_pos hst]
    exact Fault.noConfusion
  rw [if_neg hst]
  by_cases hpin : (s.page p).pinned = true
  · rw [if_pos hpin]
    exact ⟨Repinned.pinned hpin, h⟩
  rw [if_neg hpin]
  rw [Bool.not_eq_true] at hpin
  have ht := ht hpin
  cases hb : (s.page p).bytes with
  | some a =>
    rw [hb] at ht
    have hb' : ((s.setPage p { s.page p with pinned := true }).page p).bytes = some a := by
      simp [State.setPage, hb]
    rw [if_pos (by simp), ← hb, pinParent_eq hb']
    exact ⟨Repinned.resident hpin hb, h.pin ht hl hb hpin⟩
  | none =>
    rw [hb] at ht
    rw [if_neg (by simp), ← hb]
    let s₀ := s.setPage p { s.page p with status := .loading }
    have hc₀ : Core cfg s₀ :=
      h.setPage ⟨⟨rfl, rfl, rfl⟩, rfl, rfl⟩ rfl (fun _ => hl) fun _ hx _ => absurd rfl hx
    have hl₀ : s₀.Live p := by
      rcases hl with href | hk
      · refine Or.inl ?_
        simpa [s₀, State.setPage] using href
      · exact Or.inr hk
    have hp₀ : s₀.page p = { s.page p with status := .loading } := update_self _ _ _
    have hb₀ : (s₀.page p).bytes = none := by rw [hp₀]; exact hb
    refine (getEmptyMemory_spec hc₀ (h.classes p hl)).bind ?_
    rintro ⟨a, s₂⟩ ⟨s₁, h₂⟩
    have hp₂ : s₂.page p = { s.page p with status := .loading } := (h₂.page_eq hc₀ hb₀).trans hp₀
    have hfd : Ensures Stops (if (s.page p).isAnon = true then .ok cfg.tempFileFD
        else s₂.getFileDescriptor (s.page p).whichSet) fun fd => (s.page p).isAnon = true ∧
          fd = cfg.tempFileFD ∨ ∃ set, (s.page p).isAnon = false ∧
            (s.page p).whichSet = some set ∧ s.fds set = some fd := by
      by_cases ha : (s.page p).isAnon = true
      · rw [if_pos ha]
        exact Or.inl ⟨ha, rfl⟩
      · rw [if_neg ha]
        rw [Bool.not_eq_true] at ha
        obtain ⟨key, hk⟩ := h.live_key hl ha
        obtain ⟨fd, hfd⟩ := h.ref.opened key p hk
        have hset := (h.ref.key key p hk).2.2.1
        have hfd₂ : s₂.fds key.1 = some fd := by rw [h₂.frame.2.1]; exact hfd
        rw [hset, getFileDescriptor_eq hfd₂]
        exact Or.inr ⟨key.1, ha, rfl, hfd⟩
    have hfds : ∀ me, (place cfg s₂ s₂.nextPage p a me).getFileDescriptor (s.page p).whichSet =
        s₂.getFileDescriptor (s.page p).whichSet := by
      intro me
      rw [place_same]
      rfl
    have hcore : Core cfg (place cfg s₂ s₂.nextPage p a
        { s.page p with bytes := some a, pinned := true, status := .loaded }) := by
      refine h₂.place hc₀ ht hl₀ hb₀ ?_ rfl rfl rfl
      rw [hp₀]
      exact ⟨rfl, rfl, rfl⟩
    dsimp only
    rw [registerMiniPage_setPage rfl, ok_bind, place_page_self, place_setPage, hfds]
    refine hfd.bind ?_
    intro fd hfd
    refine (pread_place (by rw [hp₂])).bind ?_
    rintro s₃ ⟨hpos, rfl⟩
    rw [fetch_page_self, fetch_setPage, hp₂]
    · exact ⟨Repinned.loaded hpin hb h₂ hfd hpos, hcore.congr rfl⟩
    · rfl

theorem logPageSizeLoop_spec {m n L fuel cur b : ℕ} (hn : n ≤ 2 ^ (m + L))
    (hcur : cur = 2 ^ (m + b) ∧ b ≤ L ∨ cur = 0 ∧ 0 < n) :
    Ensures Stops (logPageSizeLoop n fuel cur b) (· ≤ L) := by
  induction fuel generalizing cur b with
  | zero => exact Fault.noConfusion
  | succ fuel ih =>
    rw [logPageSizeLoop]
    by_cases hlt : cur < n
    · rw [if_pos hlt]
      apply ih
      rcases hcur with ⟨rfl, hb⟩ | ⟨rfl, hpos⟩
      · have hbL : m + b < m + L := (Nat.pow_lt_pow_iff_right (by omega)).mp (hlt.trans_le hn)
        by_cases hw : m + b + 1 < 64
        · refine Or.inl ⟨?_, by omega⟩
          rw [← Nat.pow_succ, Nat.mod_eq_of_lt (Nat.pow_lt_pow_right (by omega) hw)]
          rfl
        · refine Or.inr ⟨?_, Nat.zero_lt_of_lt hlt⟩
          rw [← Nat.pow_succ]
          exact Nat.mod_eq_zero_of_dvd (Nat.pow_dvd_pow 2 (by omega))
      · exact Or.inr ⟨by omega, hpos⟩
    · rw [if_neg hlt]
      rcases hcur with ⟨-, hb⟩ | ⟨rfl, hpos⟩
      · exact hb
      · exact absurd hpos hlt

theorem getLogPageSize_spec {n : ℕ} (hn : n ≤ cfg.pageSize) :
    Ensures Stops (getLogPageSize cfg n) (· ≤ cfg.logOfPageSize) := by
  rw [Config.pageSize_eq] at hn
  exact logPageSizeLoop_spec hn (Or.inl ⟨rfl, Nat.zero_le _⟩)

def newAnonymous (pageNum a k : ℕ) : PDBPage :=
  { pinned := true, dirty := true, bytes := some a, isAnon := true, pageNum := pageNum,
    location := ⟨-1, k⟩, status := .loaded, refCount := 1 }

inductive Allocated (cfg : Config) (s : State) : State → Prop
  | mk {k a pageNum last : ℕ} {free : List ℕ} {s₁ s₂ : State} : Provided cfg k s s₁ a s₂ →
      Allocated cfg s { place cfg s₂ (s.nextPage + 1) s.nextPage a (newAnonymous pageNum a k) with
        freeAnonPageNumbers := free, lastFreeAnonPageNumber := last }

theorem takePageNumber_snd (s : State) : ∃ free last, s.takePageNumber.2 = { s with
    freeAnonPageNumbers := free, lastFreeAnonPageNumber := last } := by
  unfold State.takePageNumber
  split
  · exact ⟨_, _, rfl⟩
  · exact ⟨_, _, rfl⟩

def PageFits (cfg : Config) (maxBytes : ℕ) (s : State) : Prop :=
  ∀ k, getLogPageSize cfg maxBytes = .ok k → MemoryFits cfg k s

theorem getPage_spec (h : Core cfg s) {maxBytes : ℕ} (ht : PageFits cfg maxBytes s) (hn : maxBytes ≤ cfg.pageSize) :
    Ensures Stops (s.getPage cfg maxBytes) fun s' => Allocated cfg s s' ∧ Core cfg s' := by
  rw [State.getPage]
  refine (getLogPageSize_spec hn).with_eq.bind fun k ⟨hlog, hk⟩ => ?_
  refine (getEmptyMemory_spec h hk).bind ?_
  rintro ⟨a, s₂⟩ ⟨s₁, h₂⟩
  have hnext := h₂.frame.1
  have hfresh : ∀ f, s.nextPage ∉ s₂.constituentPages f := by
    intro f hf
    have := (h₂.core.mem.owned f _ hf).1
    omega
  have hcore : Core cfg (place cfg s₂ (s.nextPage + 1) s.nextPage a
      (newAnonymous s₂.takePageNumber.1 a k)) := by
    refine h₂.core.place (h₂.fits (ht k hlog)) h₂.hole hfresh rfl rfl rfl ?_ ?_ (fun _ => rfl) (by omega)
      (Nat.lt_succ_self _)
    · intro key hk
      have := (h₂.core.ref.key key _ hk).1
      omega
    · intro hx
      cases hx
  obtain ⟨free, last, htake⟩ := takePageNumber_snd s₂
  let s₃ : State := { s₂.setPage s.nextPage (newAnonymous s₂.takePageNumber.1 a k) with
    nextPage := s.nextPage + 1, freeAnonPageNumbers := free, lastFreeAnonPageNumber := last }
  have hb : (s₃.page s.nextPage).bytes = some a := by simp [s₃, State.setPage, newAnonymous]
  have hs₃ : ({ s₃.pinFullPage (cfg.fullPage a) with
      constituentPages := update s₃.constituentPages (cfg.fullPage a)
        (s₃.constituentPages (cfg.fullPage a) ++ [s.nextPage]) } : State) =
      { place cfg s₂ (s.nextPage + 1) s.nextPage a (newAnonymous s₂.takePageNumber.1 a k) with
        freeAnonPageNumbers := free, lastFreeAnonPageNumber := last } := by
    have hl : s₃.lastUsed = s₂.lastUsed := rfl
    have hn : s₃.numPinned = s₂.numPinned := rfl
    obtain ⟨h1, h2⟩ := pinFullPage_congr hl hn (cfg.fullPage a)
    rw [pinFullPage_eq, h1, h2, place, pinFullPage_eq]
    rfl
  dsimp only
  rw [htake]
  dsimp only
  rw [hnext]
  change Ensures Stops (s₃.registerMiniPage cfg s.nextPage) _
  rw [registerMiniPage_eq hb, hs₃]
  exact ⟨Allocated.mk h₂, hcore.congr rfl⟩

end PlinyCompute.BufferManager
