import PlinyCompute.BufferThreadCalls

namespace PlinyCompute.BufferManager

open Function Transition NumberPool

variable {cfg : Config} {w : World} {P : Pool ℕ} {t p : ℕ} {purpose : Purpose}

def Phase.ReleaseSettled (s : State) : Phase → Prop
  | .releasing p =>
    (s.page p).isAnon = true → (s.page p).status ≠ .loading ∧ (s.page p).status ≠ .unloading
  | _ => True

instance Phase.decidableReleaseSettled (s : State) (phase : Phase) : Decidable (phase.ReleaseSettled s) := by
  cases phase <;> unfold Phase.ReleaseSettled <;> infer_instance

def Event.ReleasesSettled (w : World) : Event → Prop
  | .resume t => (w.phase t).ReleaseSettled w.state
  | _ => True

instance Event.decidableReleasesSettled (w : World) : ∀ e : Event, Decidable (e.ReleasesSettled w)
  | .resume t => inferInstanceAs (Decidable ((w.phase t).ReleaseSettled w.state))
  | .getPage _ _ | .getSetPage _ _ _ | .repin _ _ | .unpin _ _ | .drop _ _ | .share _ _ _ =>
    inferInstanceAs (Decidable True)

theorem World.Sane.setIdle (h : w.Sane) (t : ℕ) : (w.setPhase t .idle).Sane := by
  have hother : ∀ t' q, (w.setPhase t .idle).phase t' = .releasing q → w.phase t' = .releasing q := by
    intro t' q ht'
    by_cases htt : t' = t
    · subst htt
      simp [World.setPhase] at ht'
    · simpa [World.setPhase, htt] using ht'
  refine ⟨h.counted, h.fresh, h.keyed, ?_, ?_, ?_⟩
  · intro t' purpose ht'
    by_cases htt : t' = t
    · subst htt
      simp [World.setPhase, Phase.purpose] at ht'
    · apply h.purposes t'
      simpa [World.setPhase, htt] using ht'
  · exact fun t' q ht' => h.releasing t' q (hother t' q ht')
  · intro t' q ht' ha
    obtain ⟨hz, hone⟩ := h.unique t' q (hother t' q ht') ha
    exact ⟨hz, fun t'' ht'' => hone t'' (hother t'' q ht'')⟩

theorem World.pool_setIdle (hr : ∀ p, w.phase t = .releasing p → (w.state.page p).isAnon = false) :
    (w.setPhase t .idle).pool = w.pool := by
  have hholds : ∀ q, (w.setPhase t .idle).Holds q ↔ w.Holds q := by
    intro q
    refine and_congr_right fun ha => or_congr_right (exists_congr fun t' => ?_)
    by_cases htt : t' = t
    · subst htt
      refine iff_of_false (by simp [World.setPhase]) fun ht' => ?_
      have hq : (w.state.page q).isAnon = true := ha
      rw [hr q ht'] at hq
      cases hq
    · simp [World.setPhase, htt]
  unfold World.pool
  simp only [hholds]
  rfl

theorem World.Sane.ready (h : w.Sane) (hr : ∀ p, w.phase t ≠ .releasing p) (hf : purpose.Fits w.state) :
    Ready w.pool t purpose w :=
  ⟨h.setIdle t, hf, World.pool_setIdle fun p hp => absurd hp (hr p)⟩

theorem count_erase {handles : List (ℕ × ℕ)} (hmem : (t, p) ∈ handles) (q : ℕ) :
    ((handles.erase (t, p)).map Prod.snd).count q + (if q = p then 1 else 0) = (handles.map Prod.snd).count q := by
  have hperm := ((List.perm_cons_erase hmem).map Prod.snd).count_eq q
  rw [hperm, List.map_cons]
  by_cases hq : q = p
  · subst hq
    simp
  · rw [if_neg hq, List.count_cons_of_ne (Ne.symm hq), add_zero]

theorem decRefCount_state : (w.decRefCount t p).state =
    w.state.setPage p { w.state.page p with refCount := (w.state.page p).refCount - 1 } := by
  unfold World.decRefCount
  dsimp only
  split_ifs <;> rfl

theorem decRefCount_handles : (w.decRefCount t p).handles = w.handles.erase (t, p) := by
  unfold World.decRefCount
  dsimp only
  split_ifs <;> rfl

theorem decRefCount_phase (hidle : w.phase t = .idle) (t' q : ℕ) : (w.decRefCount t p).phase t' = .releasing q ↔
    w.phase t' = .releasing q ∨ (t' = t ∧ q = p ∧ (w.state.page p).refCount - 1 = 0) := by
  unfold World.decRefCount
  dsimp only
  split_ifs with hz
  · by_cases ht : t' = t
    · subst ht
      simp [World.setPhase, hidle, hz, eq_comm]
    · simp [World.setPhase, ht]
  · simp [hz]

theorem decRefCount_purpose {t' : ℕ} (h : ((w.decRefCount t p).phase t').purpose = some purpose) :
    (w.phase t').purpose = some purpose := by
  unfold World.decRefCount at h
  dsimp only at h
  split_ifs at h
  · by_cases ht : t' = t
    · subst ht
      simp [World.setPhase, Phase.purpose] at h
    · simpa [World.setPhase, ht] using h
  · exact h

theorem decRefCount_page_self : (w.decRefCount t p).state.page p =
    { w.state.page p with refCount := (w.state.page p).refCount - 1 } := by
  simp [decRefCount_state, State.setPage]

theorem decRefCount_page_ne {q : ℕ} (hq : q ≠ p) : (w.decRefCount t p).state.page q = w.state.page q := by
  simp [decRefCount_state, State.setPage, hq]

theorem decRefCount_isAnon (q : ℕ) :
    ((w.decRefCount t p).state.page q).isAnon = (w.state.page q).isAnon := by
  by_cases hq : q = p
  · rw [hq, decRefCount_page_self]
  · rw [decRefCount_page_ne hq]

theorem World.Sane.refCount_pos (h : w.Sane) (hmem : (t, p) ∈ w.handles) : 0 < (w.state.page p).refCount := by
  have := count_erase hmem p
  rw [if_pos rfl, h.counted] at this
  omega

theorem World.Sane.drop (h : w.Sane) (hidle : w.phase t = .idle) (hmem : (t, p) ∈ w.handles) :
    (w.decRefCount t p).Sane := by
  have hpos := h.refCount_pos hmem
  have hlt : p < w.state.nextPage := by
    by_contra hge
    have := h.fresh p (by omega)
    omega
  have hnot : ∀ t', w.phase t' = .releasing p → (w.state.page p).isAnon = false := by
    intro t' ht'
    by_contra ha
    have := (h.unique t' p ht' (by simpa using ha)).1
    omega
  have hphase := decRefCount_phase (p := p) hidle
  have hnext : (w.decRefCount t p).state.nextPage = w.state.nextPage := by
    rw [decRefCount_state]
    rfl
  refine ⟨fun q => ?_, fun q hq => ?_, fun key q hq => ?_, fun t' purpose ht => ?_, fun t' q ht => ?_,
    fun t' q ht ha => ?_⟩
  · rw [decRefCount_handles]
    have := count_erase hmem q
    rw [h.counted] at this
    by_cases hq : q = p
    · subst hq
      rw [if_pos rfl] at this
      rw [decRefCount_page_self]
      dsimp only
      omega
    · rw [if_neg hq] at this
      rw [decRefCount_page_ne hq]
      omega
  · rw [hnext] at hq
    rw [decRefCount_page_ne (by omega)]
    exact h.fresh q hq
  · rw [hnext, decRefCount_isAnon]
    apply h.keyed key q
    rw [decRefCount_state] at hq
    exact hq
  · have hfits := h.purposes t' purpose (decRefCount_purpose ht)
    cases purpose with
    | created q => exact ⟨hnext ▸ hfits.1, (decRefCount_isAnon q).trans hfits.2⟩
    | newPage | repinned | loaded => trivial
  · rw [hnext]
    rcases (hphase t' q).mp ht with ht | ⟨-, rfl, -⟩
    · exact h.releasing t' q ht
    · exact hlt
  · rw [decRefCount_isAnon] at ha
    by_cases hq : q = p
    · subst hq
      have hone : ∀ t'', (w.decRefCount t q).phase t'' = .releasing q → t'' = t := by
        intro t'' ht''
        rcases (hphase t'' q).mp ht'' with ht'' | ⟨ht'', -, -⟩
        · rw [hnot t'' ht''] at ha
          cases ha
        · exact ht''
      obtain rfl := hone t' ht
      refine ⟨?_, hone⟩
      rw [decRefCount_page_self]
      rcases (hphase t' q).mp ht with ht | ⟨-, -, hz⟩
      · rw [hidle] at ht
        cases ht
      · exact hz
    · have hold : ∀ t'', (w.decRefCount t p).phase t'' = .releasing q → w.phase t'' = .releasing q := by
        intro t'' ht''
        rcases (hphase t'' q).mp ht'' with ht'' | ⟨-, hqp, -⟩
        · exact ht''
        · exact absurd hqp hq
      rw [decRefCount_page_ne hq]
      obtain ⟨hz, hone⟩ := h.unique t' q (hold t' ht) ha
      exact ⟨hz, fun t'' ht'' => hone t'' (hold t'' ht'')⟩

theorem World.Sane.pool_drop (h : w.Sane) (hidle : w.phase t = .idle) (hmem : (t, p) ∈ w.handles) :
    (w.decRefCount t p).pool = w.pool := by
  have hpos := h.refCount_pos hmem
  have hholds : ∀ q, (w.decRefCount t p).Holds q ↔ w.Holds q := by
    intro q
    unfold World.Holds
    rw [decRefCount_isAnon]
    refine and_congr_right fun ha => ?_
    simp only [decRefCount_phase hidle]
    by_cases hq : q = p
    · subst hq
      rw [decRefCount_page_self]
      dsimp only
      constructor
      · exact fun _ => Or.inl hpos
      · intro _
        by_cases hz : (w.state.page q).refCount - 1 = 0
        · exact Or.inr ⟨t, Or.inr ⟨rfl, rfl, hz⟩⟩
        · exact Or.inl (by omega)
    · rw [decRefCount_page_ne hq]
      simp [hq]
  have hnum : ∀ q, ((w.decRefCount t p).state.page q).pageNum = (w.state.page q).pageNum := by
    intro q
    by_cases hq : q = p
    · rw [hq, decRefCount_page_self]
    · rw [decRefCount_page_ne hq]
  unfold World.pool
  simp only [hholds, hnum]
  rw [decRefCount_state]
  rfl

theorem World.Sane.holds_released (h : w.Sane) (ht : w.phase t = .releasing p)
    (ha : (w.state.page p).isAnon = true) :
    (w.setPhase t .idle).pool.holds = w.pool.holds \ {(p, (w.state.page p).pageNum)} := by
  obtain ⟨hzero, hone⟩ := h.unique t p ht ha
  ext ⟨q, n⟩
  change (w.setPhase t .idle).Holds q ∧ n = (w.state.page q).pageNum ↔
    (w.Holds q ∧ n = (w.state.page q).pageNum) ∧ ¬ (q, n) = (p, (w.state.page p).pageNum)
  by_cases hq : q = p
  · subst hq
    refine iff_of_false ?_ fun hx => hx.2 (by rw [hx.1.2])
    rintro ⟨⟨-, href | ⟨t', ht'⟩⟩, -⟩
    · have : (w.state.page q).refCount = 0 := hzero
      have href : 0 < (w.state.page q).refCount := href
      omega
    · by_cases htt : t' = t
      · subst htt
        simp [World.setPhase] at ht'
      · exact htt (hone t' (by simpa [World.setPhase, htt] using ht'))
  · have hholds : (w.setPhase t .idle).Holds q ↔ w.Holds q := by
      refine and_congr_right fun _ => or_congr_right (exists_congr fun t' => ?_)
      by_cases htt : t' = t
      · subst htt
        refine iff_of_false (by simp [World.setPhase]) fun ht' => ?_
        cases ht.symm.trans ht'
        exact hq rfl
      · simp [World.setPhase, htt]
    rw [hholds]
    simp [hq]

theorem release_any (h : w.Sane) (ht : w.phase t = .releasing p) : Ensures Any (w.release cfg t p) fun w' =>
    w'.Sane ∧ (NumberPool.Kept w.pool w'.pool ∨ (Lost w.pool w'.pool ∧ (w.state.page p).isAnon = true ∧
      ((w.state.page p).status = .loading ∨ (w.state.page p).status = .unloading))) := by
  unfold World.release
  cases ha : (w.state.page p).isAnon with
  | false =>
    refine SameNumbers.downToZeroReferences.bind fun s hs => ?_
    have hpool : ((w.setState s).setPhase t .idle).pool = (w.setPhase t .idle).pool := World.pool_same hs rfl
    refine ⟨(h.setIdle t).same hs.toSamePages rfl rfl, Or.inl (NumberPool.Kept.of_eq ?_)⟩
    rw [hpool]
    apply World.pool_setIdle
    intro q hq
    cases ht.symm.trans hq
    exact ha
  | true =>
    have hholds := h.holds_released ht ha
    refine freeAnonymousPage_any.bind fun s hs => ?_
    rcases hs with ⟨-, hs⟩ | ⟨hv, rfl⟩
    · refine ⟨(h.setIdle t).same ⟨hs.nextPage, hs.refCount, hs.isAnon, hs.pageNum, hs.allPages⟩ rfl rfl,
        Or.inl ?_⟩
      have hpool : ((w.setState s).setPhase t .idle).pool = { w.pool with
          free := w.pool.free ++ [(w.state.page p).pageNum]
          holds := w.pool.holds \ {(p, (w.state.page p).pageNum)} } := by
        rw [← hholds]
        exact World.pool_same (w := { w.setPhase t .idle with state := { w.state with
          freeAnonPageNumbers := w.state.freeAnonPageNumbers ++ [(w.state.page p).pageNum] } }) hs rfl
      rw [hpool]
      exact NumberPool.Kept.giveBack p ⟨⟨ha, Or.inr ⟨t, ht⟩⟩, rfl⟩
    · refine ⟨h.setIdle t, Or.inr ⟨⟨rfl, rfl, ?_⟩, rfl, ?_⟩⟩
      · change (w.setPhase t .idle).pool.holds ⊆ _
        rw [hholds]
        exact Set.sdiff_subset
      · have hz := (h.unique t p ht ha).1
        unfold State.isRemovalStillValid at hv
        dsimp only at hv
        split_ifs at hv with h1 h2
        · exact absurd hz h1
        · exact h2

theorem settles_step {x : Except Fault World} {lost : World → Prop} (h : Ensures Any x (Settles P)) :
    Ensures Any x fun w' => w'.Sane ∧ (NumberPool.Kept P w'.pool ∨ lost w') :=
  h.mono fun _ h => ⟨h.1, Or.inl h.2⟩

theorem resume_any (h : w.Sane) : Ensures Any (w.resume cfg t) fun w' =>
    w'.Sane ∧ (NumberPool.Kept w.pool w'.pool ∨ (Lost w.pool w'.pool ∧ ¬ (Event.resume t).ReleasesSettled w)) := by
  unfold World.resume
  cases hp : w.phase t with
  | idle => exact ⟨h, Or.inl .stay⟩
  | waitingForSpace k purpose =>
    have hready : Ready w.pool t purpose w :=
      h.ready (by simp [hp]) (h.purposes t purpose (by rw [hp]; rfl))
    exact settles_step (createAdditionalMiniPages_any hready)
  | evicting k f p rest purpose =>
    have hready : Ready w.pool t purpose w :=
      h.ready (by simp [hp]) (h.purposes t purpose (by rw [hp]; rfl))
    exact settles_step (finishWrite_any hready)
  | waitingForPage p =>
    exact settles_step (repin_settles (h.setIdle t) (World.pool_setIdle (by simp [hp])))
  | reading p space myInfo =>
    have hready : Ready w.pool t (.newPage 0) w := h.ready (by simp [hp]) trivial
    exact settles_step (finishRead_any hready)
  | releasing p =>
    refine (release_any h hp).mono fun w' ⟨hs, hpool⟩ => ⟨hs, hpool.imp_right ?_⟩
    rintro ⟨hl, ha, hst⟩
    refine ⟨hl, fun hg => ?_⟩
    simp only [Event.ReleasesSettled, hp, Phase.ReleaseSettled] at hg
    exact hst.elim (hg ha).1 (hg ha).2

theorem threadStep_any (h : w.Sane) {e : Event} (ha : e.Admissible w) :
    Ensures Any (threadStep cfg e w) fun w' =>
      w'.Sane ∧ (NumberPool.Kept w.pool w'.pool ∨ (Lost w.pool w'.pool ∧ ¬ e.ReleasesSettled w)) := by
  cases e with
  | getPage t maxBytes =>
    have hready : ∀ k, Ready w.pool t (.newPage k) w :=
      fun k => h.ready (by simp [show w.phase t = .idle from ha]) trivial
    have hlog : Ensures Any (getLogPageSize cfg maxBytes) fun _ => True := by
      cases getLogPageSize cfg maxBytes <;> trivial
    exact settles_step (hlog.bind fun k _ => getEmptyMemory_settles (hready k))
  | getSetPage t set i =>
    have hready : Ready w.pool t (.newPage 0) w :=
      h.ready (by simp [show w.phase t = .idle from ha]) trivial
    exact settles_step (getSetPage_settles hready)
  | repin t p =>
    obtain ⟨hidle, -⟩ := ha
    exact settles_step (repin_settles (h.setIdle t) (World.pool_setIdle (by simp [hidle])))
  | unpin t p =>
    refine SameNumbers.unpin.bind fun s hs => ?_
    have hpool : (w.setState s).pool = w.pool := World.pool_same hs rfl
    exact ⟨h.same hs.toSamePages rfl rfl, Or.inl (.of_eq hpool)⟩
  | drop t p =>
    obtain ⟨hidle, hmem⟩ := ha
    exact ⟨h.drop hidle hmem, Or.inl (.of_eq (h.pool_drop hidle hmem))⟩
  | share t p t' =>
    obtain ⟨-, hmem⟩ := ha
    have hpos := h.refCount_pos hmem
    have hlt : p < w.state.nextPage := by
      by_contra hge
      have := h.fresh p (by omega)
      omega
    have hretain : Settles w.pool (w.share p t') :=
      h.settles_retain { w.state.page p with refCount := (w.state.page p).refCount + 1 } rfl rfl rfl hlt
        (fun _ => hpos) rfl rfl rfl
    exact ⟨hretain.1, Or.inl hretain.2⟩
  | resume t => exact resume_any h

namespace World

theorem sane_initialWorld (cfg : Config) (memory : ℕ → UInt8) (files : ℕ → ℕ → UInt8) :
    (initialWorld cfg memory files).Sane where
  counted _ := rfl
  fresh _ _ := rfl
  keyed _ _ h := by cases h
  purposes _ _ h := by cases h
  releasing _ _ h := by cases h
  unique _ _ h := by cases h

theorem pool_initialWorld (cfg : Config) (memory : ℕ → UInt8) (files : ℕ → ℕ → UInt8) :
    Sound (initialWorld cfg memory files).pool ∧ Full (initialWorld cfg memory files).pool := by
  have hnone : ∀ x, x ∉ (initialWorld cfg memory files).pool.holds := by
    rintro x ⟨⟨-, href | ⟨t, ht⟩⟩, -⟩
    · exact absurd href (Nat.lt_irrefl 0)
    · cases ht
  refine ⟨⟨List.nodup_nil, by simp [pool, initialWorld, initialState], ?_, ?_, ?_⟩, ?_⟩
  · exact fun x hx => absurd hx (hnone x)
  · exact fun x hx => absurd hx (hnone x)
  · exact fun x hx => absurd hx (hnone x)
  · intro n h1 hn
    have : n ≤ 0 := hn
    omega

theorem sound_of_reachable {memory : ℕ → UInt8} {files : ℕ → ℕ → UInt8}
    (h : Reachable (threadStep cfg) (fun e w => e.Admissible w) (· = initialWorld cfg memory files) w) :
    w.Sane ∧ Sound w.pool := by
  have hstep : ∀ e (w w' : World), w.Sane ∧ Sound w.pool → e.Admissible w →
      threadStep cfg e w = .ok w' → w'.Sane ∧ Sound w'.pool := by
    intro e w w' ⟨hs, hp⟩ ha he
    obtain ⟨hs', hk | ⟨hl, -⟩⟩ := (threadStep_any hs ha).of_eq_ok he
    · exact ⟨hs', hp.kept hk⟩
    · exact ⟨hs', hp.lost hl⟩
  refine h.invariant ?_ hstep
  rintro w rfl
  exact ⟨sane_initialWorld cfg memory files, (pool_initialWorld cfg memory files).1⟩

theorem full_of_reachable {memory : ℕ → UInt8} {files : ℕ → ℕ → UInt8}
    (h : Reachable (threadStep cfg) (fun e w => e.Admissible w ∧ e.ReleasesSettled w)
      (· = initialWorld cfg memory files) w) : w.Sane ∧ Full w.pool := by
  have hstep : ∀ e (w w' : World), w.Sane ∧ Full w.pool → e.Admissible w ∧ e.ReleasesSettled w →
      threadStep cfg e w = .ok w' → w'.Sane ∧ Full w'.pool := by
    intro e w w' ⟨hs, hp⟩ ⟨ha, hg⟩ he
    obtain ⟨hs', hk | ⟨-, hn⟩⟩ := (threadStep_any hs ha).of_eq_ok he
    · exact ⟨hs', hp.kept hk⟩
    · exact absurd hg hn
  refine h.invariant ?_ hstep
  rintro w rfl
  exact ⟨sane_initialWorld cfg memory files, (pool_initialWorld cfg memory files).2⟩

def LiveAnonymous (w : World) (p : ℕ) : Prop :=
  (w.state.page p).isAnon = true ∧ 0 < (w.state.page p).refCount

def Quiescent (w : World) : Prop := ∀ t, w.phase t = .idle

structure NumbersKept (w : World) : Prop where
  distinct : ∀ p q, w.LiveAnonymous p → w.LiveAnonymous q →
    (w.state.page p).pageNum = (w.state.page q).pageNum → p = q
  notFree : ∀ p, w.LiveAnonymous p → (w.state.page p).pageNum ∉ w.state.freeAnonPageNumbers
  quiescent : w.Quiescent → ∀ n, 1 ≤ n → n ≤ w.state.lastFreeAnonPageNumber →
    ((∃! p, w.LiveAnonymous p ∧ (w.state.page p).pageNum = n) ∧ n ∉ w.state.freeAnonPageNumbers) ∨
      (w.state.freeAnonPageNumbers.count n = 1 ∧ ∀ p, w.LiveAnonymous p → (w.state.page p).pageNum ≠ n)

theorem LiveAnonymous.holds (h : w.LiveAnonymous p) : w.Holds p := ⟨h.1, Or.inl h.2⟩

theorem Quiescent.holds_iff (h : w.Quiescent) : w.Holds p ↔ w.LiveAnonymous p := by
  unfold Holds LiveAnonymous
  simp [h _]

end World

theorem numbersKept_of_reachable (cfg : Config) (memory : ℕ → UInt8) (files : ℕ → ℕ → UInt8) (w : World)
    (h : Reachable (threadStep cfg) (fun e w => e.Admissible w ∧ e.ReleasesSettled w)
      (· = initialWorld cfg memory files) w) : w.NumbersKept := by
  obtain ⟨-, hsound⟩ := World.sound_of_reachable (h.mono fun _ _ hg => hg.1)
  obtain ⟨-, hfull⟩ := World.full_of_reachable h
  refine ⟨fun p q hp hq hn => ?_, fun p hp => ?_, fun hquiet n h1 hn => ?_⟩
  · exact congrArg Prod.fst (hsound.unique (p, _) ⟨hp.holds, rfl⟩ (q, _) ⟨hq.holds, rfl⟩ hn)
  · exact hsound.notFree (p, _) ⟨hp.holds, rfl⟩
  · have hmem : ∀ p, (p, n) ∈ w.pool.holds ↔ w.LiveAnonymous p ∧ (w.state.page p).pageNum = n := by
      intro p
      change w.Holds p ∧ n = _ ↔ _
      rw [hquiet.holds_iff, eq_comm]
    have hsplit := hsound.split hfull h1 hn
    simp only [hmem] at hsplit
    refine hsplit.imp_right fun ⟨hc, hnone⟩ => ⟨hc, fun p hp hpn => hnone p ⟨hp, hpn⟩⟩

def tinyWorld : World := initialWorld tinyConfig (fun _ => 0) fun _ _ => 0

theorem numbersKept_of_evicted : ∃ w : World, w.state.freeAnonPageNumbers = [1] ∧ w.state.lastFreeAnonPageNumber = 2 ∧
    w.NumbersKept := by
  have hrun : (runAll (threadStep tinyConfig) (fun e w => e.Admissible w ∧ e.ReleasesSettled w)
      [.getPage 0 1, .unpin 0 0, .getPage 1 1, .resume 1, .drop 0 0, .resume 0] tinyWorld).any
      (fun w => w.state.freeAnonPageNumbers = [1] ∧ w.state.lastFreeAnonPageNumber = 2) = true := by
    decide +kernel
  obtain ⟨w, hw, hp⟩ := (Option.any_eq_true _ _).mp hrun
  obtain ⟨hfree, hlast⟩ := of_decide_eq_true hp
  refine ⟨w, hfree, hlast, numbersKept_of_reachable tinyConfig (fun _ => 0) (fun _ _ => 0) w ?_⟩
  exact Reachable.of_runAll (fun e w h => of_decide_eq_true h) (Reachable.start rfl) hw

def lostRun : List Event := [.getPage 0 1, .unpin 0 0, .getPage 1 1, .drop 0 0, .resume 0, .resume 1]

def lostWorld : Option World := runAll (threadStep tinyConfig) (fun e w => e.Admissible w) lostRun tinyWorld

theorem lostWorld_phase (t : ℕ) : lostWorld.map (fun w => w.phase t) = some .idle := by
  rcases t with _ | _ | t <;> rfl

theorem lostWorld_refCount (p : ℕ) : lostWorld.map (fun w => (w.state.page (p + 2)).refCount) = some 0 := rfl

theorem not_numbersKept_unloading : ∃ w,
    Reachable (threadStep tinyConfig) (fun e w => e.Admissible w) (· = tinyWorld) w ∧ ¬ w.NumbersKept := by
  have hrun : lostWorld.any (fun w => w.state.freeAnonPageNumbers = [] ∧ w.state.lastFreeAnonPageNumber = 2 ∧
      (w.state.page 0).refCount = 0 ∧ (w.state.page 1).pageNum = 2) = true := by decide +kernel
  obtain ⟨w, hw, hp⟩ := (Option.any_eq_true _ _).mp hrun
  obtain ⟨hfree, hlast, h0, h1⟩ := of_decide_eq_true hp
  have hphase : w.Quiescent := by
    intro t
    have := lostWorld_phase t
    rw [hw] at this
    exact Option.some.inj this
  have href (p : ℕ) : (w.state.page (p + 2)).refCount = 0 := by
    have := lostWorld_refCount p
    rw [hw] at this
    exact Option.some.inj this
  refine ⟨w, Reachable.of_runAll (fun e w h => of_decide_eq_true h) (Reachable.start rfl) hw, fun hn => ?_⟩
  rcases hn.quiescent hphase 1 le_rfl (by omega) with ⟨⟨p, ⟨⟨-, hp⟩, hnum⟩, -⟩, -⟩ | ⟨hc, -⟩
  · rcases p with _ | _ | p
    · omega
    · simp only [zero_add] at hnum
      omega
    · rw [href p] at hp
      omega
  · rw [hfree] at hc
    cases hc

end PlinyCompute.BufferManager
