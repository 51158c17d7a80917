import PlinyCompute.BufferReads

namespace PlinyCompute.BufferManager

open Function Transition

variable {cfg : Config} {s s' : State} {sets : PDBSet → Prop}

structure OwnFiles (cfg : Config) (sets : PDBSet → Prop) : Prop where
  temp : ∀ set, sets set → cfg.openFile (cfg.fileLoc set) ≠ some cfg.tempFileFD
  inj : ∀ set set' fd, sets set → sets set' → cfg.openFile (cfg.fileLoc set) = some fd →
    cfg.openFile (cfg.fileLoc set') = some fd → set = set'

def Op.Uses (sets : PDBSet → Prop) : Op → Prop
  | .getSetPage set _ => sets set
  | _ => True

def recordedStep (cfg : Config) (op : Op) (x : State × (PageName → ℕ → Option UInt8)) :
    Except Fault (State × (PageName → ℕ → Option UInt8)) := do
  let s' ← step cfg op x.1
  .ok (s', op.recordWrites cfg x.1 s' x.2)

def Op.Recordable (cfg : Config) (sets : PDBSet → Prop) (op : Op)
    (x : State × (PageName → ℕ → Option UInt8)) : Prop := op.Sound cfg x.1 ∧ op.Uses sets

structure Recorded (cfg : Config) (sets : PDBSet → Prop) (x : State × (PageName → ℕ → Option UInt8)) : Prop
    extends Sane cfg x.1 where
  kept : Kept cfg x.2 x.1
  opened : ∀ set fd, x.1.fds set = some fd → sets set ∧ cfg.openFile (cfg.fileLoc set) = some fd

theorem Repinned.fds {p : ℕ} (h : Repinned cfg p s s') : s'.fds = s.fds := by
  cases h with
  | pinned _ => rfl
  | resident _ _ =>
    rw [pinFullPage_eq]
    rfl
  | loaded _ _ h₂ _ _ =>
    rw [fetch, place_same]
    exact h₂.frame.2.1

theorem Unpinned.fds {p : ℕ} (h : Unpinned cfg p s s') : s'.fds = s.fds := by
  cases h with
  | already _ => rfl
  | @now a _ _ =>
    obtain ⟨pos, heq⟩ := assignLocation_eq cfg ((s.setPage p
      { s.page p with pinned := false, sizeFrozen := true }).unpinFullPage (cfg.fullPage a)) p
    rw [heq, unpinFullPage_eq]
    rfl

theorem GotSetPage.fds {set : PDBSet} {i : ℕ} (h : GotSetPage cfg set i s s') : s'.fds = s.fds := by
  cases h with
  | hit _ h => exact h.fds
  | created _ _ h₂ =>
    rw [place_same]
    exact h₂.frame.2.1
  | loaded _ _ h₂ _ _ =>
    rw [fetch, place_same]
    exact h₂.frame.2.1

theorem Stepped.fds {op : Op} (h : Stepped cfg s op s') :
    s'.fds = s.fds ∨ ∃ set i s₀, op = .getSetPage set i ∧ Opened cfg set s s₀ ∧ s'.fds = s₀.fds := by
  cases h with
  | getPage h =>
    cases h with
    | mk h₂ =>
      refine Or.inl ?_
      rw [place_same]
      exact h₂.frame.2.1
  | getSetPage h₀ h => exact Or.inr ⟨_, _, _, rfl, h₀, h.fds⟩
  | freezeSize _ _ h =>
    cases h with
    | mk _ _ _ _ => exact Or.inl rfl
  | unpin _ h => exact Or.inl h.fds
  | repin _ h => exact Or.inl h.fds
  | drop h =>
    cases h with
    | kept _ => exact Or.inl rfl
    | freed _ _ h =>
      rw [h.same]
      exact Or.inl rfl
    | forgotten _ _ _ _ => exact Or.inl rfl
    | unpinned _ _ _ _ h => exact Or.inl h.fds
  | setDirty _ _ => exact Or.inl rfl
  | write _ _ _ _ => exact Or.inl rfl

theorem Stepped.opened {op : Op} (h : Stepped cfg s op s') (hu : op.Uses sets)
    (ho : ∀ set fd, s.fds set = some fd → sets set ∧ cfg.openFile (cfg.fileLoc set) = some fd) :
    ∀ set fd, s'.fds set = some fd → sets set ∧ cfg.openFile (cfg.fileLoc set) = some fd := by
  intro set fd hfd
  rcases h.fds with heq | ⟨set₀, i, s₀, rfl, h₀, heq⟩
  · rw [heq] at hfd
    exact ho set fd hfd
  · rw [heq] at hfd
    cases h₀ with
    | already _ => exact ho set fd hfd
    | now _ hopen =>
      by_cases hset : set = set₀
      · subst hset
        cases (update_self _ _ _).symm.trans hfd
        exact ⟨hu, hopen⟩
      · exact ho set fd ((update_of_ne hset _ _).symm.trans hfd)

theorem Recorded.step {op : Op} {x x' : State × (PageName → ℕ → Option UInt8)} (h : Recorded cfg sets x)
    (hfiles : OwnFiles cfg sets) (hop : op.Recordable cfg sets x) (he : recordedStep cfg op x = .ok x') :
    Recorded cfg sets x' := by
  obtain ⟨⟨hc, hst⟩, hk, ho⟩ := h
  obtain ⟨⟨ha, hf, hfit⟩, hu⟩ := hop
  unfold recordedStep at he
  cases hs : BufferManager.step cfg op x.1 with
  | error e =>
    rw [hs] at he
    cases he
  | ok s' =>
    rw [hs] at he
    cases he
    obtain ⟨h', hc'⟩ := (step_spec hc hst hfit ha hf).of_eq_ok hs
    refine ⟨⟨hc', h'.settled hc hst⟩, h'.kept hc hc' hst ha ?_ hk, h'.opened hu ho⟩
    rintro set i rfl fd hnone hopen
    refine ⟨fun hfd => hfiles.temp set hu (by rw [hopen, hfd]), fun set' hfd => ?_⟩
    obtain ⟨hset', hopen'⟩ := ho set' fd hfd
    rw [hfiles.inj set' set fd hset' hu hopen' hopen, hnone] at hfd
    cases hfd

theorem kept_initialState (cfg : Config) (memory : ℕ → UInt8) (files : ℕ → ℕ → UInt8) :
    Kept cfg (fun _ _ => none) (initialState cfg memory files) := by
  have hlive : ∀ p, ¬ (initialState cfg memory files).Live p := by
    rintro p (h | ⟨key, h⟩)
    · exact absurd h (by simp [initialState])
    · cases h
  have hhome : ∀ r fd pos n, ¬ Home cfg (initialState cfg memory files) r fd pos n := by
    intro r fd pos n hr
    cases hr with
    | anonymous hl _ _ => exact hlive _ hl
    | ofSet hloc _ => cases hloc
    | free hmem => cases hmem
  refine ⟨(core_initialState cfg memory files).ref, ⟨?_, ?_, ?_, fun _ => List.nodup_nil, ?_, ?_⟩, ?_, ?_, ?_, ?_,
    ?_⟩
  · intro set fd h
    cases h
  · intro set i info h
    cases h
  · exact fun r pos n hr => absurd hr (hhome _ _ _ _)
  · intro k pos h
    cases h
  · exact fun r r' fd pos n pos' n' hr => absurd hr (hhome _ _ _ _)
  · exact fun p hl => absurd hl (hlive p)
  · exact fun p hl => absurd hl (hlive p)
  · exact fun n fd pos k hr => absurd hr (hhome _ _ _ _)
  · exact fun p a hl => absurd hl (hlive p)
  · exact fun n fd pos k hr => absurd hr (hhome _ _ _ _)

theorem recorded_of_reachable (hfiles : OwnFiles cfg sets) {memory : ℕ → UInt8} {files : ℕ → ℕ → UInt8}
    {x : State × (PageName → ℕ → Option UInt8)}
    (h : Reachable (recordedStep cfg) (Op.Recordable cfg sets)
      (· = (initialState cfg memory files, fun _ _ => none)) x) : Recorded cfg sets x := by
  refine h.invariant ?_ fun op x x' hx hop he => hx.step hfiles hop he
  rintro x rfl
  refine ⟨sane_initialState cfg memory files, kept_initialState cfg memory files, fun set fd hx => ?_⟩
  cases hx

def Reads (bytes : ℕ → Option UInt8) (s : State) (p : ℕ) : Prop :=
  (s.page p).pinned = true ∧ ∃ a, (s.page p).bytes = some a ∧ ∀ off b, bytes off = some b → s.memory (a + off) = b

theorem Recorded.reads {x : State × (PageName → ℕ → Option UInt8)} (h : Recorded cfg sets x) {p : ℕ}
    (hl : x.1.Live p) (hpin : (x.1.page p).pinned = true) : Reads (x.2 (x.1.pageName p)) x.1 p := by
  obtain ⟨a, hb⟩ := h.core.bytes_of_pinned h.settled hl hpin
  exact ⟨hpin, a, hb, h.kept.inMemory p a hl hb⟩

theorem Repinned.page_self {p : ℕ} (h : Repinned cfg p s s') :
    (s'.page p).pinned = true ∧ (s'.page p).refCount = (s.page p).refCount ∧
      (s'.page p).whichSet = (s.page p).whichSet ∧ (s'.page p).pageNum = (s.page p).pageNum := by
  cases h with
  | pinned hpin => exact ⟨hpin, rfl, rfl, rfl⟩
  | resident _ _ =>
    rw [pinFullPage_eq]
    simp [State.setPage]
  | loaded _ _ _ _ _ =>
    rw [fetch_page_self]
    exact ⟨rfl, rfl, rfl, rfl⟩

theorem Repinned.allPages {p : ℕ} {key : PDBSet × ℕ} (h : Repinned cfg p s s') (hc : Core cfg s)
    (hl : s.Live p) (hk : s.allPages key = some p) : s'.allPages key = some p := by
  cases h with
  | pinned _ => exact hk
  | resident _ _ =>
    rw [pinFullPage_eq]
    exact hk
  | loaded _ hb h₂ _ _ =>
    have hc₀ : Core cfg (s.setPage p { s.page p with status := .loading }) :=
      hc.setPage ⟨⟨rfl, rfl, rfl⟩, rfl, rfl⟩ rfl (fun _ => hl) fun _ hx _ => absurd rfl hx
    rw [fetch, place_same]
    exact h₂.allPages_of_none hc₀ (by simp [State.setPage, hb]) hk

theorem GotSetPage.result {set : PDBSet} {i fd : ℕ} (h : GotSetPage cfg set i s s') (hc : Core cfg s)
    (hst : Settled s) (hfd : s.fds set = some fd) :
    ∃ p, s'.allPages (set, i) = some p ∧ (s'.page p).pinned = true := by
  cases h with
  | @hit p _ hkey h =>
    have hl : s.Live p := Or.inr ⟨_, hkey⟩
    exact ⟨p, h.allPages (hc.setRef hst hl) (Or.inr ⟨_, hkey⟩) hkey, h.page_self.1⟩
  | created hkey hloc h₂ =>
    have hc₀ : Core cfg (alloc s set i (newSetPage cfg set i)) :=
      hc.alloc hfd hkey rfl rfl rfl rfl rfl (Nat.le_refl _)
    refine ⟨s.nextPage, ?_, by rw [place_page_self]; rfl⟩
    rw [place_same]
    exact h₂.allPages_of_none hc₀ (by rw [alloc_page]; rfl) (update_self _ _ _)
  | @loaded a fd' info s₁ s₂ hkey hloc h₂ _ _ =>
    have hc₀ : Core cfg (alloc s set i (knownSetPage set i info)) :=
      hc.alloc hfd hkey rfl rfl rfl rfl rfl (hc.locations _ _ hloc)
    refine ⟨s.nextPage, ?_, by rw [fetch_page_self]; rfl⟩
    rw [fetch, place_same]
    exact h₂.allPages_of_none hc₀ (by rw [alloc_page]; rfl) (update_self _ _ _)

theorem Recorded.reads_repin {x : State × (PageName → ℕ → Option UInt8)} (hx : Recorded cfg sets x)
    (hfiles : OwnFiles cfg sets) {p : ℕ} (hop : Op.Recordable cfg sets (.repin p) x)
    (he : BufferManager.step cfg (.repin p) x.1 = .ok s') : Reads (x.2 (x.1.pageName p)) s' p := by
  have hx' : Recorded cfg sets (s', x.2) := hx.step hfiles hop (by rw [recordedStep, he]; rfl)
  obtain ⟨h', -⟩ := (step_spec hx.core hx.settled hop.1.2.2 hop.1.1 hop.1.2.1).of_eq_ok he
  cases h' with
  | repin href h' =>
    obtain ⟨hpin, href', hset, hnum⟩ := h'.page_self
    rw [← pageName_congr hset hnum]
    exact hx'.reads (Or.inl (by rw [href']; exact href)) hpin

theorem Recorded.reads_getSetPage {x : State × (PageName → ℕ → Option UInt8)} (hx : Recorded cfg sets x)
    (hfiles : OwnFiles cfg sets) {set : PDBSet} {i : ℕ} (hop : Op.Recordable cfg sets (.getSetPage set i) x)
    (he : BufferManager.step cfg (.getSetPage set i) x.1 = .ok s')
    (hknown : ¬ (x.1.allPages (set, i) = none ∧ x.1.pageLocations (set, i) = none)) :
    ∃ p, s'.allPages (set, i) = some p ∧ Reads (x.2 (.ofSet set i)) s' p := by
  have hx' : Recorded cfg sets (s', x.2) := by
    refine hx.step hfiles hop ?_
    rw [recordedStep, he]
    change Except.ok (s', if _ then _ else _) = _
    rw [if_neg hknown]
  obtain ⟨h', -⟩ := (step_spec hx.core hx.settled hop.1.2.2 hop.1.1 hop.1.2.1).of_eq_ok he
  cases h' with
  | @getSetPage _ _ s₀ _ h₀ h' =>
    have hst₀ : Settled s₀ := by
      rw [h₀.same]
      exact hx.settled
    obtain ⟨fd, hfd⟩ := h₀.fds
    obtain ⟨p, hkey, hpin⟩ := h'.result (h₀.core hx.core) hst₀ hfd
    obtain ⟨-, -, hset, hnum⟩ := hx'.core.ref.key (set, i) p hkey
    have hname : s'.pageName p = .ofSet set i := by rw [State.pageName, hset, hnum]
    refine ⟨p, hkey, ?_⟩
    rw [← hname]
    exact hx'.reads (Or.inr ⟨_, hkey⟩) hpin

theorem readYourWrites_of_reachable (cfg : Config) (sets : PDBSet → Prop) (hfiles : OwnFiles cfg sets)
    (memory : ℕ → UInt8) (files : ℕ → ℕ → UInt8) (x : State × (PageName → ℕ → Option UInt8))
    (h : Reachable (recordedStep cfg) (Op.Recordable cfg sets)
      (· = (initialState cfg memory files, fun _ _ => none)) x) :
    (∀ p, x.1.Live p → (x.1.page p).pinned = true → Reads (x.2 (x.1.pageName p)) x.1 p) ∧
    (∀ p s', Op.Recordable cfg sets (.repin p) x → step cfg (.repin p) x.1 = .ok s' →
      Reads (x.2 (x.1.pageName p)) s' p) ∧
    ∀ set i s', Op.Recordable cfg sets (.getSetPage set i) x → step cfg (.getSetPage set i) x.1 = .ok s' →
      ¬ (x.1.allPages (set, i) = none ∧ x.1.pageLocations (set, i) = none) →
      ∃ p, s'.allPages (set, i) = some p ∧ Reads (x.2 (.ofSet set i)) s' p := by
  have hx := recorded_of_reachable hfiles h
  refine ⟨fun p => hx.reads, fun p s' hop he => ?_, fun set i s' hop he hknown => ?_⟩
  · exact hx.reads_repin hfiles hop he
  · exact hx.reads_getSetPage hfiles hop he hknown

def pathFile (path : Name) : ℕ := path.foldl (fun n c => n * 2 ^ 21 + c.toNat) 1

def fileConfig : Config where
  logOfMinPageSize := 20
  logOfPageSize := 0
  numPages := 1
  storageLoc := ['d']
  tempFileFD := 0
  openFile path := some (pathFile path)

def fileState : State × (PageName → ℕ → Option UInt8) :=
  (initialState fileConfig (fun _ => 0) fun _ _ => 0, fun _ _ => none)

def sampleSet : PDBSet := ⟨['c'], ['a', '.', 'b']⟩

instance [DecidablePred sets] : ∀ op : Op, Decidable (op.Uses sets)
  | .getSetPage set _ => inferInstanceAs (Decidable (sets set))
  | .getPage _ | .freezeSize _ _ | .unpin _ | .repin _ | .drop _ | .setDirty _ | .write _ _ _ =>
    inferInstanceAs (Decidable True)

instance [DecidablePred sets] (op : Op) (x : State × (PageName → ℕ → Option UInt8)) :
    Decidable (op.Recordable cfg sets x) := inferInstanceAs (Decidable (_ ∧ _))

theorem readYourWrites_of_sampleRun : ∃ (x : State × (PageName → ℕ → Option UInt8)) (s' : State),
    x.2 (.ofSet sampleSet 0) 5 = some 7 ∧ (x.1.page 0).bytes = none ∧ x.1.pageName 0 = .ofSet sampleSet 0 ∧
      step fileConfig (.repin 0) x.1 = .ok s' ∧ Reads (x.2 (x.1.pageName 0)) s' 0 := by
  have hrun : (runAll (recordedStep fileConfig) (fun op x => op.Recordable fileConfig (· = sampleSet) x)
      [.getSetPage sampleSet 0, .write 0 5 7, .unpin 0, .getPage 1048576, .write 1 5 9, .unpin 1]
      fileState).any (fun x => decide (x.2 (.ofSet sampleSet 0) 5 = some 7 ∧ (x.1.page 0).bytes = none ∧
        x.1.pageName 0 = .ofSet sampleSet 0 ∧ Op.Recordable fileConfig (· = sampleSet) (.repin 0) x) &&
        (step fileConfig (.repin 0) x.1).isOk) = true := by decide +kernel
  obtain ⟨x, hx, hp⟩ := (Option.any_eq_true _ _).mp hrun
  obtain ⟨hp, hok⟩ := Bool.and_eq_true_iff.mp hp
  obtain ⟨hw, hb, hn, hop⟩ := of_decide_eq_true hp
  have hfiles : OwnFiles fileConfig (· = sampleSet) := by
    refine ⟨?_, ?_⟩
    · rintro set rfl
      decide +kernel
    · rintro set set' fd rfl rfl _ _
      rfl
  have hreach : Reachable (recordedStep fileConfig) (Op.Recordable fileConfig (· = sampleSet))
      (· = fileState) x := Reachable.of_runAll (fun op x h => of_decide_eq_true h) (Reachable.start rfl) hx
  cases hs : step fileConfig (.repin 0) x.1 with
  | error e =>
    rw [hs] at hok
    cases hok
  | ok s' =>
    refine ⟨x, s', hw, hb, hn, hs, ?_⟩
    exact (readYourWrites_of_reachable fileConfig (· = sampleSet) hfiles (fun _ => 0) (fun _ _ => 0) x hreach).2.1
      0 s' hop hs

theorem not_readYourWrites_shared_file : ∃ x,
    Reachable (recordedStep fileConfig)
      (fun op x => op.Admissible fileConfig x.1 ∧ op.FreezesFullPage fileConfig x.1) (· = fileState) x ∧
    x.1.Live 0 ∧ (x.1.page 0).pinned = true ∧ x.2 (x.1.pageName 0) 5 = some 7 ∧
    ¬ Reads (x.2 (x.1.pageName 0)) x.1 0 := by
  have hrun : (runAll (recordedStep fileConfig)
      (fun op x => op.Admissible fileConfig x.1 ∧ op.FreezesFullPage fileConfig x.1)
      [.getSetPage sampleSet 0, .write 0 5 7, .unpin 0, .getSetPage ⟨['b', '.', 'c'], ['a']⟩ 0, .write 1 5 9,
        .unpin 1, .repin 0] fileState).any
      (fun x => 0 < (x.1.page 0).refCount ∧ (x.1.page 0).pinned ∧ x.2 (x.1.pageName 0) 5 = some 7 ∧
        (x.1.page 0).bytes = some 0 ∧ x.1.memory (0 + 5) = 9) = true := by decide +kernel
  obtain ⟨x, hx, hp⟩ := (Option.any_eq_true _ _).mp hrun
  obtain ⟨href, hpin, hw, hb, hm⟩ := of_decide_eq_true hp
  refine ⟨x, ?_, Or.inl href, hpin, hw, ?_⟩
  · exact Reachable.of_runAll (fun op x h => of_decide_eq_true h) (Reachable.start rfl) hx
  · rintro ⟨-, a, ha, hbytes⟩
    cases hb.symm.trans ha
    have := hbytes 5 7 hw
    rw [hm] at this
    exact absurd this (by decide)

end PlinyCompute.BufferManager
