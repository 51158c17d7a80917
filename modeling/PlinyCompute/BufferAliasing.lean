import PlinyCompute.BufferCalls

namespace PlinyCompute.BufferManager

open Function Transition

variable {cfg : Config} {s s' : State}

inductive Stepped (cfg : Config) (s : State) : Op → State → Prop
  | getPage {maxBytes : ℕ} {s' : State} : Allocated cfg s s' → Stepped cfg s (.getPage maxBytes) s'
  | getSetPage {set : PDBSet} {i : ℕ} {s₀ s' : State} : Opened cfg set s s₀ → GotSetPage cfg set i s₀ s' →
      Stepped cfg s (.getSetPage set i) s'
  | freezeSize {p numBytes : ℕ} {s' : State} : 0 < (s.page p).refCount →
      (s.page p).location.numBytes = cfg.logOfPageSize → Frozen cfg p s s' →
      Stepped cfg s (.freezeSize p numBytes) s'
  | unpin {p : ℕ} {s' : State} : 0 < (s.page p).refCount → Unpinned cfg p s s' → Stepped cfg s (.unpin p) s'
  | repin {p : ℕ} {s' : State} : 0 < (s.page p).refCount → Repinned cfg p s s' → Stepped cfg s (.repin p) s'
  | drop {p : ℕ} {s' : State} : Dropped cfg p s s' → Stepped cfg s (.drop p) s'
  | setDirty {p : ℕ} : 0 < (s.page p).refCount → (s.page p).pinned = true →
      Stepped cfg s (.setDirty p) (s.setPage p { s.page p with dirty := true })
  | write {p off a : ℕ} {b : UInt8} : 0 < (s.page p).refCount → (s.page p).pinned = true →
      (s.page p).bytes = some a → off < cfg.miniPageSize (s.page p).location.numBytes →
      Stepped cfg s (.write p off b) { s with memory := update s.memory (a + off) b }

def Op.FreezesFullPage (cfg : Config) (s : State) : Op → Prop
  | .freezeSize p _ => (s.page p).location.numBytes = cfg.logOfPageSize
  | _ => True

def Op.LookupFits (cfg : Config) (s : State) : Op → Prop
  | .getPage maxBytes => PageFits cfg maxBytes s
  | .getSetPage set i => SetPageFits cfg set i s
  | .repin p => RepinFits cfg p s
  | .drop p => (s.page p).refCount = 1 → (s.page p).isAnon = true → FreeFits cfg p s
  | _ => True

theorem step_spec_of_lookupFits (h : Core cfg s) (hst : Settled s) {op : Op} (ht : op.LookupFits cfg s)
    (ha : op.Admissible cfg s) (hf : op.FreezesFullPage cfg s) :
    Ensures Stops (step cfg op s) fun s' => Stepped cfg s op s' ∧ Core cfg s' := by
  cases op with
  | getPage maxBytes => exact (getPage_spec h ht ha).mono fun s' h' => ⟨Stepped.getPage h'.1, h'.2⟩
  | getSetPage set i =>
    refine (getSetPage_spec h hst set i ht).mono ?_
    rintro s' ⟨⟨s₀, h₀, h'⟩, hc⟩
    exact ⟨Stepped.getSetPage h₀ h', hc⟩
  | freezeSize p numBytes =>
    refine (freezeSize_spec h hst (Or.inl ha.1) hf ha.2.2.2).mono fun s' h' => ?_
    exact ⟨Stepped.freezeSize ha.1 hf h'.1, h'.2⟩
  | unpin p => exact (unpin_spec h hst (Or.inl ha)).mono fun s' h' => ⟨Stepped.unpin ha h'.1, h'.2⟩
  | repin p => exact (repin_spec h ht (Or.inl ha)).mono fun s' h' => ⟨Stepped.repin ha h'.1, h'.2⟩
  | drop p => exact (decRefCount_spec h hst ha ht).mono fun s' h' => ⟨Stepped.drop h'.1, h'.2⟩
  | setDirty p =>
    refine ⟨Stepped.setDirty ha.1 ha.2, ?_⟩
    exact h.setPage ⟨⟨rfl, rfl, rfl⟩, rfl, rfl⟩ rfl (fun _ => Or.inl ha.1)
      fun hl _ hpin => h.pins p hl (hst p).1 hpin
  | write p off b =>
    obtain ⟨href, hpin, hoff⟩ := ha
    obtain ⟨a, hb⟩ := h.bytes_of_pinned hst (Or.inl href) hpin
    change Ensures Stops (s.getBytes p >>= _) _
    rw [getBytes_eq hb]
    exact ⟨Stepped.write href hpin hb hoff, h.congr rfl⟩

theorem Core.memoryFits (h : Core cfg s) (ht : TicksFit s) (k : ℕ) : MemoryFits cfg k s := by
  intro a ha
  refine h.lru.tickFits ht fun hf => ?_
  have hu := ((h.mem.mini k a).mp (List.mem_of_getLast? ha)).1
  rw [(h.mem.full _ hf).2.2.2] at hu
  exact List.not_mem_nil hu

theorem Core.repinFits (h : Core cfg s) (ht : TicksFit s) {p : ℕ} (hl : s.Live p) : RepinFits cfg p s := by
  intro _
  cases hb : (s.page p).bytes with
  | none => exact h.memoryFits ht _
  | some a => exact h.lru.tickFits ht (h.not_full hl hb)

theorem Core.lookupFits (h : Core cfg s) (ht : TicksFit s) {op : Op} (ha : op.Admissible cfg s) :
    op.LookupFits cfg s := by
  cases op with
  | getPage maxBytes => exact fun k _ => h.memoryFits ht k
  | getSetPage set i =>
    change SetPageFits cfg set i s
    unfold SetPageFits
    cases hkey : s.allPages (set, i) with
    | some p => exact h.repinFits ht (Or.inr ⟨_, hkey⟩)
    | none =>
      cases s.pageLocations (set, i) with
      | some info => exact h.memoryFits ht _
      | none => exact h.memoryFits ht _
  | repin p => exact h.repinFits ht (Or.inl ha)
  | drop p => exact fun _ _ a hb _ => h.lru.tickFits ht (h.not_full (Or.inl ha) hb)
  | freezeSize _ _ | unpin _ | setDirty _ | write _ _ _ => trivial

theorem step_spec (h : Core cfg s) (hst : Settled s) (ht : TicksFit s) {op : Op} (ha : op.Admissible cfg s)
    (hf : op.FreezesFullPage cfg s) :
    Ensures Stops (step cfg op s) fun s' => Stepped cfg s op s' ∧ Core cfg s' :=
  step_spec_of_lookupFits h hst (h.lookupFits ht ha) ha hf

theorem Provided.settled {k a p : ℕ} {s₁ : State} (h : Provided cfg k s s₁ a s') (hc : Core cfg s)
    (hst : ∀ q, q ≠ p → (s.page q).status ≠ .loading ∧ (s.page q).status ≠ .unloading) :
    ∀ q, q ≠ p → (s'.page q).status ≠ .loading ∧ (s'.page q).status ≠ .unloading := by
  intro q hqp
  rcases h.page_cases hc q with heq | ⟨-, -, pos, heq⟩
  · rw [heq]
    exact hst q hqp
  · rw [heq]
    exact ⟨PDBPageStatus.noConfusion, PDBPageStatus.noConfusion⟩

theorem settled_update {p : ℕ} {me : PDBPage} (hpage : s'.page = update s.page p me)
    (hme : me.status = .loaded)
    (hst : ∀ q, q ≠ p → (s.page q).status ≠ .loading ∧ (s.page q).status ≠ .unloading) : Settled s' := by
  intro q
  rw [hpage]
  by_cases hqp : q = p
  · subst hqp
    rw [update_self, hme]
    exact ⟨PDBPageStatus.noConfusion, PDBPageStatus.noConfusion⟩
  · rw [update_of_ne hqp]
    exact hst q hqp

theorem settled_setPage_ne {p : ℕ} {me : PDBPage} (h : Settled s) (q : ℕ) (hqp : q ≠ p) :
    ((s.setPage p me).page q).status ≠ .loading ∧ ((s.setPage p me).page q).status ≠ .unloading := by
  rw [show (s.setPage p me).page q = s.page q from update_of_ne hqp _ _]
  exact h q

theorem Repinned.settled {p : ℕ} (h : Repinned cfg p s s') (hc : Core cfg s) (hst : Settled s)
    (hl : s.Live p) : Settled s' := by
  cases h with
  | pinned _ => exact hst
  | resident _ _ =>
    rw [pinFullPage_eq]
    exact (hst.setPage rfl : Settled (s.setPage p { s.page p with pinned := true }))
  | loaded _ _ h₂ _ _ =>
    have hc₀ : Core cfg (s.setPage p { s.page p with status := .loading }) :=
      hc.setPage ⟨⟨rfl, rfl, rfl⟩, rfl, rfl⟩ rfl (fun _ => hl) fun _ hx _ => absurd rfl hx
    exact settled_update rfl rfl (h₂.settled hc₀ fun q => settled_setPage_ne hst q)

theorem Unpinned.settled {p : ℕ} (h : Unpinned cfg p s s') (hst : Settled s) : Settled s' := by
  cases h with
  | already _ => exact hst
  | @now a _ _ =>
    have h₁ : Settled ((s.setPage p { s.page p with pinned := false, sizeFrozen := true }).unpinFullPage
        (cfg.fullPage a)) := by
      rw [unpinFullPage_eq]
      exact (hst.setPage rfl : Settled (s.setPage p { s.page p with pinned := false, sizeFrozen := true }))
    obtain ⟨pos, heq⟩ := assignLocation_eq cfg ((s.setPage p
      { s.page p with pinned := false, sizeFrozen := true }).unpinFullPage (cfg.fullPage a)) p
    rw [heq]
    exact h₁.setPage rfl

theorem Stepped.settled {op : Op} (h : Stepped cfg s op s') (hc : Core cfg s) (hst : Settled s) :
    Settled s' := by
  cases h with
  | getPage h =>
    cases h with
    | mk h₂ => exact settled_update rfl rfl (h₂.settled hc fun q _ => hst q)
  | @getSetPage set i s₀ s' h₀ h =>
    have hc₀ := h₀.core hc
    have hst₀ : Settled s₀ := by
      rw [h₀.same]
      exact hst
    obtain ⟨fd, hfd⟩ := h₀.fds
    cases h with
    | hit hkey h => exact h.settled (hc₀.setRef hst₀ (Or.inr ⟨_, hkey⟩)) (hst₀.setPage rfl) (Or.inr ⟨_, hkey⟩)
    | created hkey hloc h₂ =>
      refine settled_update rfl rfl (h₂.settled ?_ fun q => settled_setPage_ne hst₀ q)
      exact hc₀.alloc hfd hkey rfl rfl rfl rfl rfl (Nat.le_refl _)
    | loaded hkey hloc h₂ _ _ =>
      refine settled_update rfl rfl (h₂.settled ?_ fun q => settled_setPage_ne hst₀ q)
      exact hc₀.alloc hfd hkey rfl rfl rfl rfl rfl (hc₀.locations _ _ hloc)
  | freezeSize _ _ h =>
    cases h with
    | @mk k a _ _ _ _ =>
      exact (hst.setPage rfl : Settled (s.setPage _ { s.page _ with
        sizeFrozen := true, location := ⟨(s.page _).location.startPos, k⟩ }))
  | unpin _ h => exact h.settled hst
  | repin href h => exact h.settled hc hst (Or.inl href)
  | @drop p s' h =>
    have h₀ : Settled (s.setPage p { s.page p with refCount := 0 }) := hst.setPage rfl
    cases h with
    | kept _ => exact hst.setPage rfl
    | freed _ _ h =>
      rw [h.same]
      exact h₀
    | forgotten _ _ _ _ => exact h₀
    | unpinned _ _ _ _ h => exact h.settled h₀
  | setDirty _ _ => exact hst.setPage rfl
  | write _ _ _ _ => exact hst

theorem core_initialState (cfg : Config) (memory : ℕ → UInt8) (files : ℕ → ℕ → UInt8) :
    Core cfg (initialState cfg memory files) := by
  have hlive : ∀ p, ¬ (initialState cfg memory files).Live p := by
    rintro p (h | ⟨key, h⟩)
    · exact absurd h (by simp [initialState])
    · cases h
  refine ⟨⟨⟨?_, ?_, fun _ _ => rfl, ?_⟩, ⟨?_, ?_, ?_, ?_, ?_, ?_, ?_, ?_, ?_, ?_, ?_⟩, ?_, ?_, ?_⟩,
    ⟨List.Pairwise.nil, ?_, Nat.one_pos, ?_, ?_⟩, ?_⟩
  · intro key p h
    cases h
  · intro p h
    exact absurd (Or.inl h) (hlive p)
  · intro key p h
    cases h
  · intro f p h
    cases h
  · intro f p h
    cases h
  · exact fun p a h _ => absurd h (hlive p)
  · exact fun _ => List.nodup_nil
  · intro f p h
    cases h
  · intro f a h
    cases h
  · exact fun _ => List.nodup_nil
  · exact fun _ => List.nodup_nil
  · exact fun k a => ⟨fun h => (by cases h), fun h => (by cases h.1)⟩
  · exact List.nodup_range.map fun i j hij => Nat.eq_of_mul_eq_mul_left cfg.pageSize_pos hij
  · intro f hf
    obtain ⟨i, hi, rfl⟩ := List.mem_map.mp hf
    refine ⟨Nat.dvd_mul_right _ _, ?_, rfl, rfl⟩
    rw [Nat.mul_comm]
    exact Nat.mul_lt_mul_of_pos_right (List.mem_range.mp hi) cfg.pageSize_pos
  · exact fun p h => absurd h (hlive p)
  · exact fun p h => absurd h (hlive p)
  · intro key info h
    cases h
  · intro e h
    cases h
  · intro f t
    refine ⟨fun h => (by cases h), fun h => ?_⟩
    obtain ⟨-, hpos, hn⟩ := h
    have hz : (initialState cfg memory files).numPinned f = 0 := rfl
    omega
  · exact fun _ _ => rfl
  · intro e h
    cases h

def Op.Sound (cfg : Config) (op : Op) (s : State) : Prop :=
  op.Admissible cfg s ∧ op.FreezesFullPage cfg s ∧ TicksFit s

structure Sane (cfg : Config) (s : State) : Prop where
  core : Core cfg s
  settled : Settled s

theorem sane_initialState (cfg : Config) (memory : ℕ → UInt8) (files : ℕ → ℕ → UInt8) :
    Sane cfg (initialState cfg memory files) :=
  ⟨core_initialState cfg memory files, fun _ => ⟨PDBPageStatus.noConfusion, PDBPageStatus.noConfusion⟩⟩

theorem sane_of_reachable {memory : ℕ → UInt8} {files : ℕ → ℕ → UInt8}
    (h : Reachable (step cfg) (Op.Sound cfg) (· = initialState cfg memory files) s) : Sane cfg s := by
  refine h.invariant ?_ ?_
  · rintro s rfl
    exact sane_initialState cfg memory files
  · rintro op s s' ⟨hc, hst⟩ ⟨ha, hf, ht⟩ he
    obtain ⟨hs, hc'⟩ := (step_spec hc hst ht ha hf).of_eq_ok he
    exact ⟨hc', hs.settled hc hst⟩

theorem noAliasing_of_reachable (cfg : Config) (memory : ℕ → UInt8) (files : ℕ → ℕ → UInt8) (s : State)
    (h : Reachable (step cfg) (Op.Sound cfg) (· = initialState cfg memory files) s) :
    NoAliasing cfg s ∧ ∀ op, op.Sound cfg s → step cfg op s ≠ .error .undefined := by
  obtain ⟨hc, hst⟩ := sane_of_reachable h
  refine ⟨hc.mem.noAliasing, fun op hop he => ?_⟩
  have hs := step_spec hc hst hop.2.2 hop.1 hop.2.1
  rw [he] at hs
  exact hs rfl

instance (cfg : Config) (s : State) : ∀ op : Op, Decidable (op.Admissible cfg s)
  | .getPage maxBytes => inferInstanceAs (Decidable (maxBytes ≤ cfg.pageSize))
  | .getSetPage _ _ => inferInstanceAs (Decidable True)
  | .freezeSize p numBytes => inferInstanceAs (Decidable (0 < (s.page p).refCount ∧ (s.page p).pinned = true ∧
      ¬ (s.page p).sizeFrozen = true ∧ numBytes ≤ cfg.miniPageSize (s.page p).location.numBytes))
  | .unpin p | .repin p | .drop p => inferInstanceAs (Decidable (0 < (s.page p).refCount))
  | .setDirty p => inferInstanceAs (Decidable (0 < (s.page p).refCount ∧ (s.page p).pinned = true))
  | .write p off _ => inferInstanceAs (Decidable (0 < (s.page p).refCount ∧ (s.page p).pinned = true ∧
      off < cfg.miniPageSize (s.page p).location.numBytes))

instance (cfg : Config) (s : State) : ∀ op : Op, Decidable (op.FreezesFullPage cfg s)
  | .freezeSize p _ => inferInstanceAs (Decidable ((s.page p).location.numBytes = cfg.logOfPageSize))
  | .getPage _ | .getSetPage _ _ | .unpin _ | .repin _ | .drop _ | .setDirty _ | .write _ _ _ =>
    inferInstanceAs (Decidable True)

instance (s : State) : Decidable (TicksFit s) := inferInstanceAs (Decidable (∀ e ∈ s.lastUsed, e.2 < 2 ^ 32))

instance (cfg : Config) (op : Op) (s : State) : Decidable (op.Sound cfg s) :=
  inferInstanceAs (Decidable (_ ∧ _ ∧ _))

def smallConfig : Config where
  logOfMinPageSize := 20
  logOfPageSize := 2
  numPages := 2
  storageLoc := []
  tempFileFD := 0
  openFile _ := some 1

def smallState : State := initialState smallConfig (fun _ => 0) fun _ _ => 0

def smallRun : List Op :=
  [.getPage 4194304, .freezeSize 0 1048576, .getPage 1048576, .unpin 0, .unpin 1, .getSetPage ⟨[], []⟩ 0,
    .getSetPage ⟨[], []⟩ 1, .unpin 2, .drop 2, .repin 1]

theorem noAliasing_of_smallRun : ∃ s, (s.page 1).pinned = true ∧ (s.page 0).bytes = none ∧
    NoAliasing smallConfig s ∧ ∀ op, op.Sound smallConfig s → step smallConfig op s ≠ .error .undefined := by
  have hrun : (runAll (step smallConfig) (fun op s => op.Sound smallConfig s) smallRun smallState).any
      (fun s => (s.page 1).pinned ∧ (s.page 0).bytes = none) = true := by decide +kernel
  obtain ⟨s, hs, hp⟩ := (Option.any_eq_true _ _).mp hrun
  obtain ⟨hpin, hb⟩ := of_decide_eq_true hp
  refine ⟨s, hpin, hb, noAliasing_of_reachable smallConfig (fun _ => 0) (fun _ _ => 0) s ?_⟩
  exact Reachable.of_runAll (fun op s h => of_decide_eq_true h) (Reachable.start rfl) hs

theorem not_noAliasing_freeze_mini : ∃ s,
    Reachable (step smallConfig) (fun op s => op.Admissible smallConfig s) (· = smallState) s ∧
      ¬ NoAliasing smallConfig s := by
  have hrun : (runAll (step smallConfig) (fun op s => op.Admissible smallConfig s)
      [.getPage 2097152, .getPage 2097152, .freezeSize 1 1048576] smallState).any
      (fun s => 0 < (s.page 0).refCount ∧ (s.page 0).bytes = some 6291456 ∧
        (s.page 0).location.numBytes = 1 ∧ 6291456 ∈ s.emptyMiniPages 0) = true := by decide +kernel
  obtain ⟨s, hs, hp⟩ := (Option.any_eq_true _ _).mp hrun
  obtain ⟨href, hb, hk, hm⟩ := of_decide_eq_true hp
  refine ⟨s, ?_, fun h => ?_⟩
  · exact Reachable.of_runAll (fun op s h => of_decide_eq_true h) (Reachable.start rfl) hs
  · have hpage : Occupies smallConfig s (.page 0) 6291456
        (smallConfig.miniPageSize (s.page 0).location.numBytes) := Occupies.resident (Or.inl href) hb
    rw [hk] at hpage
    rcases h.apart _ _ _ _ _ _ hpage (Occupies.empty hm) with ⟨ho, -⟩ | hapart
    · cases ho
    · exact absurd hapart (by unfold ByteRange.Apart; decide +kernel)

end PlinyCompute.BufferManager
