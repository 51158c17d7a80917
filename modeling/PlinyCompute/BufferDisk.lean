import PlinyCompute.BufferAliasing

namespace PlinyCompute.BufferManager

open ByteRange Function Transition

variable {cfg : Config} {s s' : State}

inductive PageName
  | anonymous (p : ℕ) | ofSet (set : PDBSet) (i : ℕ)
  deriving DecidableEq

def State.pageName (s : State) (p : ℕ) : PageName :=
  match (s.page p).whichSet with
  | some set => .ofSet set (s.page p).pageNum
  | none => .anonymous p

def PDBPage.getSize (cfg : Config) (me : PDBPage) : ℕ := cfg.miniPageSize me.location.numBytes

def Holds (bytes : ℕ → Option UInt8) (store : ℕ → UInt8) (base : ℕ) : Prop :=
  ∀ off b, bytes off = some b → store (base + off) = b

def Bounded (bytes : ℕ → Option UInt8) (n : ℕ) : Prop := ∀ off b, bytes off = some b → off < n

theorem Holds.congr {bytes : ℕ → Option UInt8} {store store' : ℕ → UInt8} {base n : ℕ}
    (h : Holds bytes store base) (hb : Bounded bytes n)
    (heq : ∀ off, off < n → store' (base + off) = store (base + off)) : Holds bytes store' base := by
  intro off b hoff
  rw [heq off (hb off b hoff)]
  exact h off b hoff

theorem storeBytes_inside {files : ℕ → ℕ → UInt8} {memory : ℕ → UInt8} {fd a n pos off : ℕ} (ho : off < n) :
    storeBytes files memory fd a n pos fd (pos + off) = memory (a + off) := by
  rw [storeBytes, update_self, if_pos ⟨by omega, by omega⟩, Nat.add_sub_cancel_left]

theorem storeBytes_outside {files : ℕ → ℕ → UInt8} {memory : ℕ → UInt8} {fd fd' a n m pos pos' off : ℕ}
    (h : fd' = fd → Apart pos n pos' m) (ho : off < m) :
    storeBytes files memory fd a n pos fd' (pos' + off) = files fd' (pos' + off) := by
  unfold storeBytes
  by_cases hfd : fd' = fd
  · subst hfd
    have hap := h rfl
    unfold Apart at hap
    rw [update_self, if_neg (by omega)]
  · rw [update_of_ne hfd]

theorem fetchBytes_inside {files : ℕ → ℕ → UInt8} {memory : ℕ → UInt8} {fd a n pos off : ℕ} (ho : off < n) :
    fetchBytes files memory fd a n pos (a + off) = files fd (pos + off) := by
  rw [fetchBytes, if_pos ⟨by omega, by omega⟩, Nat.add_sub_cancel_left]

theorem fetchBytes_outside {files : ℕ → ℕ → UInt8} {memory : ℕ → UInt8} {fd a b n m pos off : ℕ}
    (h : Apart a n b m) (ho : off < m) : fetchBytes files memory fd a n pos (b + off) = memory (b + off) := by
  unfold Apart at h
  rw [fetchBytes, if_neg (by omega)]

inductive Region
  | page (n : PageName) | free (k : ℕ) (pos : ℤ)

inductive Home (cfg : Config) (s : State) : Region → ℕ → ℕ → ℕ → Prop
  | anonymous {p : ℕ} : s.Live p → (s.page p).isAnon = true → 0 ≤ (s.page p).location.startPos →
      Home cfg s (.page (.anonymous p)) cfg.tempFileFD (s.page p).location.startPos.toNat
        ((s.page p).getSize cfg)
  | ofSet {set : PDBSet} {i fd : ℕ} {info : PDBPageInfo} : s.pageLocations (set, i) = some info →
      s.fds set = some fd →
      Home cfg s (.page (.ofSet set i)) fd info.startPos.toNat (cfg.miniPageSize info.numBytes)
  | free {k : ℕ} {pos : ℤ} : pos ∈ s.availablePositions k →
      Home cfg s (.free k pos) cfg.tempFileFD pos.toNat (cfg.miniPageSize k)

structure Homes (cfg : Config) (s : State) : Prop where
  files : ∀ set fd, s.fds set = some fd → fd ≠ cfg.tempFileFD ∧ ∀ set', s.fds set' = some fd → set' = set
  located : ∀ set i info, s.pageLocations (set, i) = some info → (∃ fd, s.fds set = some fd) ∧
    0 ≤ info.startPos ∧ info.startPos.toNat + cfg.miniPageSize info.numBytes ≤ s.endOfFiles set
  temp : ∀ r pos n, Home cfg s r cfg.tempFileFD pos n → pos + n ≤ s.lastTempPos
  free_nodup : ∀ k, (s.availablePositions k).Nodup
  free_nonneg : ∀ k pos, pos ∈ s.availablePositions k → 0 ≤ pos
  apart : ∀ r r' fd pos n pos' n', Home cfg s r fd pos n → Home cfg s r' fd pos' n' → r ≠ r' →
    Apart pos n pos' n'

structure PageOk (cfg : Config) (loc : PDBSet × ℕ → Option PDBPageInfo) (me : PDBPage) : Prop where
  located : ∀ set info, me.whichSet = some set → loc (set, me.pageNum) = some info →
    me.location.startPos = info.startPos ∧ me.getSize cfg ≤ cfg.miniPageSize info.numBytes
  fresh : ∀ set, me.whichSet = some set → loc (set, me.pageNum) = none → me.pinned = true ∧ me.dirty = true
  pos : me.isAnon = true → me.location.startPos = -1 ∨ 0 ≤ me.location.startPos
  clean : me.isAnon = true → me.dirty = false → 0 ≤ me.location.startPos
  frozen : me.isAnon = true → me.pinned = false ∨ 0 ≤ me.location.startPos → me.sizeFrozen = true
  evicted : me.bytes = none → me.status ≠ .loading → me.dirty = false
  sized : me.isAnon = true → me.getSize cfg ≠ 0

structure Kept (cfg : Config) (last : PageName → ℕ → Option UInt8) (s : State) : Prop where
  ref : RefInv s
  homes : Homes cfg s
  pages : ∀ p, s.Live p → PageOk cfg s.pageLocations (s.page p)
  bound : ∀ p, s.Live p → Bounded (last (s.pageName p)) ((s.page p).getSize cfg)
  home : ∀ n fd pos k, Home cfg s (.page n) fd pos k → Bounded (last n) k
  inMemory : ∀ p a, s.Live p → (s.page p).bytes = some a → Holds (last (s.pageName p)) s.memory a
  onDisk : ∀ n fd pos k, Home cfg s (.page n) fd pos k →
    (∀ p, s.Live p → s.pageName p = n → (s.page p).dirty = false) → Holds (last n) (s.files fd) pos

theorem RefInv.name_cases (h : RefInv s) {p : ℕ} (hl : s.Live p) :
    ((s.page p).isAnon = true ∧ s.pageName p = .anonymous p) ∨ ∃ set i, (s.page p).isAnon = false ∧
      (s.page p).whichSet = some set ∧ (s.page p).pageNum = i ∧ s.allPages (set, i) = some p ∧
      s.pageName p = .ofSet set i := by
  cases ha : (s.page p).isAnon with
  | true =>
    refine Or.inl ⟨rfl, ?_⟩
    rw [State.pageName, h.anon p ha]
  | false =>
    obtain ⟨⟨set, i⟩, hk⟩ : ∃ key, s.allPages key = some p := by
      rcases hl with href | hk
      · exact (h.held p href).2 ha
      · exact hk
    obtain ⟨-, -, hset, hnum⟩ := h.key (set, i) p hk
    refine Or.inr ⟨set, i, rfl, hset, hnum, hk, ?_⟩
    rw [State.pageName, hset, hnum]

theorem RefInv.name_inj (h : RefInv s) {p q : ℕ} (hq : s.Live q) (hp : (s.page p).isAnon = true ∨ s.Live p)
    (hpq : s.pageName q = s.pageName p) : q = p := by
  have hanon : s.pageName q = .anonymous p → q = p := by
    intro hn
    rcases h.name_cases hq with ⟨-, hn'⟩ | ⟨set, i, -, -, -, -, hn'⟩
    · exact PageName.anonymous.inj (hn'.symm.trans hn)
    · cases hn'.symm.trans hn
  rcases hp with ha | hl
  · apply hanon
    rw [hpq, State.pageName, h.anon p ha]
  · rcases h.name_cases hl with ⟨-, hn⟩ | ⟨set, i, -, -, -, hk, hn⟩
    · exact hanon (hpq.trans hn)
    · rcases h.name_cases hq with ⟨-, hn'⟩ | ⟨set', i', -, -, -, hk', hn'⟩
      · cases hn'.symm.trans (hpq.trans hn)
      · cases hn'.symm.trans (hpq.trans hn)
        exact Option.some.inj (hk'.symm.trans hk)

theorem pageName_congr {p : ℕ} (hset : (s'.page p).whichSet = (s.page p).whichSet)
    (hnum : (s'.page p).pageNum = (s.page p).pageNum) : s'.pageName p = s.pageName p := by
  rw [State.pageName, State.pageName, hset, hnum]

theorem Homes.mono (h : Homes cfg s)
    (hhome : ∀ r fd pos n, Home cfg s' r fd pos n → ∃ m, n ≤ m ∧ Home cfg s r fd pos m)
    (hfds : s'.fds = s.fds) (hloc : s'.pageLocations = s.pageLocations)
    (heof : s'.endOfFiles = s.endOfFiles) (htemp : s'.lastTempPos = s.lastTempPos)
    (havail : s'.availablePositions = s.availablePositions) : Homes cfg s' := by
  refine ⟨by rw [hfds]; exact h.files, by rw [hloc, hfds, heof]; exact h.located, ?_,
    by rw [havail]; exact h.free_nodup, by rw [havail]; exact h.free_nonneg, ?_⟩
  · intro r pos n hr
    obtain ⟨m, hm, hr⟩ := hhome r _ pos n hr
    have := h.temp r pos m hr
    rw [htemp]
    omega
  · intro r r' fd pos n pos' n' hr hr' hne
    obtain ⟨m, hm, hr⟩ := hhome r fd pos n hr
    obtain ⟨m', hm', hr'⟩ := hhome r' fd pos' n' hr'
    have := h.apart r r' fd pos m pos' m' hr hr' hne
    unfold Apart at this ⊢
    omega

structure SameDisk (s' s : State) : Prop where
  fds : s'.fds = s.fds
  pageLocations : s'.pageLocations = s.pageLocations
  endOfFiles : s'.endOfFiles = s.endOfFiles
  availablePositions : s'.availablePositions = s.availablePositions
  lastTempPos : s'.lastTempPos = s.lastTempPos
  files : s'.files = s.files

structure SamePlace (p q : PDBPage) : Prop where
  isAnon : p.isAnon = q.isAnon
  whichSet : p.whichSet = q.whichSet
  pageNum : p.pageNum = q.pageNum
  startPos : p.location.startPos = q.location.startPos

variable {last : PageName → ℕ → Option UInt8}

theorem Kept.change (h : Kept cfg last s) (href : RefInv s') (hd : SameDisk s' s)
    (hp : ∀ q, SamePlace (s'.page q) (s.page q))
    (hsize : ∀ q, (s'.page q).getSize cfg ≤ (s.page q).getSize cfg) (hlive : ∀ q, s'.Live q → s.Live q)
    (hdirty : ∀ q, s.Live q → (s.page q).dirty = true → s'.Live q ∧ (s'.page q).dirty = true)
    (hok : ∀ q, s'.Live q → PageOk cfg s.pageLocations (s'.page q))
    (hbound : ∀ q, s'.Live q → Bounded (last (s.pageName q)) ((s'.page q).getSize cfg))
    (hmem : ∀ q a, s'.Live q → (s'.page q).bytes = some a → Holds (last (s.pageName q)) s'.memory a) :
    Kept cfg last s' := by
  have hname : ∀ q, s'.pageName q = s.pageName q := fun q => pageName_congr (hp q).whichSet (hp q).pageNum
  have hhome : ∀ r fd pos n, Home cfg s' r fd pos n → ∃ m, n ≤ m ∧ Home cfg s r fd pos m := by
    intro r fd pos n hr
    cases hr with
    | @anonymous p hl ha hpos =>
      rw [(hp p).isAnon] at ha
      rw [(hp p).startPos] at hpos ⊢
      exact ⟨_, hsize p, Home.anonymous (hlive p hl) ha hpos⟩
    | ofSet hloc hfd =>
      rw [hd.pageLocations] at hloc
      rw [hd.fds] at hfd
      exact ⟨_, Nat.le_refl _, Home.ofSet hloc hfd⟩
    | free hmem =>
      rw [hd.availablePositions] at hmem
      exact ⟨_, Nat.le_refl _, Home.free hmem⟩
  refine ⟨href, ?_, ?_, ?_, ?_, ?_, ?_⟩
  · exact h.homes.mono hhome hd.fds hd.pageLocations hd.endOfFiles hd.lastTempPos hd.availablePositions
  · rw [hd.pageLocations]
    exact hok
  · intro p hl
    rw [hname]
    exact hbound p hl
  · intro n fd pos k hr
    cases hr with
    | @anonymous p hl ha _ =>
      have hb := hbound p hl
      rw [(hp p).isAnon] at ha
      rw [State.pageName, h.ref.anon p ha] at hb
      exact hb
    | ofSet hloc hfd =>
      rw [hd.pageLocations] at hloc
      rw [hd.fds] at hfd
      exact h.home _ _ _ _ (Home.ofSet hloc hfd)
  · intro p a hl hb
    rw [hname]
    exact hmem p a hl hb
  · intro n fd pos k hr hclean
    obtain ⟨m, -, hr⟩ := hhome _ _ _ _ hr
    rw [hd.files]
    refine h.onDisk n fd pos m hr fun p hl hn => ?_
    by_contra hx
    rw [Bool.not_eq_false] at hx
    obtain ⟨hl', hx'⟩ := hdirty p hl hx
    rw [hclean p hl' ((hname p).trans hn)] at hx'
    cases hx'

structure SameBytes (p q : PDBPage) : Prop extends SamePlace p q where
  numBytes : p.location.numBytes = q.location.numBytes
  dirty : p.dirty = q.dirty
  bytes : p.bytes = q.bytes

theorem Kept.congr (h : Kept cfg last s) (href : RefInv s') (hd : SameDisk s' s) (hm : s'.memory = s.memory)
    (hp : ∀ q, SameBytes (s'.page q) (s.page q)) (hlive : ∀ q, s'.Live q → s.Live q)
    (hdirty : ∀ q, s.Live q → (s.page q).dirty = true → s'.Live q)
    (hok : ∀ q, s'.Live q → PageOk cfg s.pageLocations (s'.page q)) : Kept cfg last s' := by
  have hsize : ∀ q, (s'.page q).getSize cfg = (s.page q).getSize cfg := by
    intro q
    rw [PDBPage.getSize, PDBPage.getSize, (hp q).numBytes]
  refine h.change href hd (fun q => (hp q).toSamePlace) (fun q => Nat.le_of_eq (hsize q)) hlive
    (fun q hl hx => ⟨hdirty q hl hx, by rw [(hp q).dirty, hx]⟩) hok (fun q hl => ?_) fun q a hl hb => ?_
  · rw [hsize]
    exact h.bound q (hlive q hl)
  · rw [(hp q).bytes] at hb
    rw [hm]
    exact h.inMemory q a (hlive q hl) hb

theorem Kept.weaken (h : Kept cfg last s) {last' : PageName → ℕ → Option UInt8}
    (hle : ∀ n off b, last' n off = some b → last n off = some b) : Kept cfg last' s :=
  ⟨h.ref, h.homes, h.pages, fun p hl off b hb => h.bound p hl off b (hle _ off b hb),
    fun n fd pos k hr off b hb => h.home n fd pos k hr off b (hle n off b hb),
    fun p a hl hp off b hb => h.inMemory p a hl hp off b (hle _ off b hb),
    fun n fd pos k hr hc off b hb => h.onDisk n fd pos k hr hc off b (hle n off b hb)⟩

end PlinyCompute.BufferManager
