import PlinyCompute.BufferAliasing

namespace PlinyCompute.BufferManager

open Function Transition

variable {cfg : Config} {s s' : State} {lastUnpin : ℕ → ℕ}

def Op.unpinsOn (cfg : Config) (s : State) : Op → Option ℕ
  | .unpin p => if (s.page p).pinned then (s.page p).bytes.map cfg.fullPage else none
  | .drop p =>
    if (s.page p).refCount = 1 ∧ (s.page p).isAnon = false ∧ (s.page p).pinned = true then
      (s.page p).bytes.map cfg.fullPage
    else none
  | _ => none

def Op.recordUnpin (cfg : Config) (s : State) (lastUnpin : ℕ → ℕ) (op : Op) : ℕ → ℕ :=
  match op.unpinsOn cfg s with
  | some f => update lastUnpin f s.lastTimeTick
  | none => lastUnpin

def tickedStep (cfg : Config) (op : Op) (x : State × (ℕ → ℕ)) : Except Fault (State × (ℕ → ℕ)) := do
  let s' ← step cfg op x.1
  .ok (s', op.recordUnpin cfg x.1 x.2)

def Op.Strands (cfg : Config) (s : State) : Op → Prop
  | .drop p => (s.page p).refCount = 1 ∧ (s.page p).isAnon = true ∧ (s.page p).pinned = true ∧
      ∃ a ∈ (s.page p).bytes, pinnedCount s (cfg.fullPage a) = 1 ∧ s.constituentPages (cfg.fullPage a) ≠ [p]
  | _ => False

def Ticked (cfg : Config) (lastUnpin : ℕ → ℕ) (s : State) : Prop :=
  ∀ f, cfg.pageSize ∣ f → f < cfg.numPages * cfg.pageSize → f ∉ s.emptyFullPages →
    s.numPinned f ≠ 0 ∧ (s.numPinned f < 0 → s.numPinned f = -(lastUnpin f : ℤ))

theorem Ticked.congr (h : Ticked cfg lastUnpin s) (hn : s'.numPinned = s.numPinned)
    (he : s'.emptyFullPages = s.emptyFullPages) : Ticked cfg lastUnpin s' := by
  intro f hd hlt hf
  rw [he] at hf
  rw [hn]
  exact h f hd hlt hf

theorem pinFullPage_numPinned_self (s : State) (f : ℕ) : 0 < (s.pinFullPage f).numPinned f := by
  unfold State.pinFullPage
  by_cases hneg : s.numPinned f < 0
  · rw [if_pos hneg]
    dsimp only
    rw [update_self]
    exact Int.one_pos
  · rw [if_neg hneg]
    dsimp only
    rw [update_self]
    omega

theorem pinFullPage_numPinned_of_ne (s : State) {f g : ℕ} (hg : g ≠ f) :
    (s.pinFullPage f).numPinned g = s.numPinned g := by
  unfold State.pinFullPage
  by_cases hneg : s.numPinned f < 0
  · rw [if_pos hneg]
    exact update_of_ne hg _ _
  · rw [if_neg hneg]
    exact update_of_ne hg _ _

theorem Ticked.pin (h : Ticked cfg lastUnpin s) {f : ℕ}
    (hkeep : ∀ g, g ∉ s'.emptyFullPages → g ≠ f → g ∉ s.emptyFullPages ∧ s'.numPinned g = s.numPinned g)
    (hpos : 0 < s'.numPinned f) : Ticked cfg lastUnpin s' := by
  intro g hd hlt hg
  by_cases hgf : g = f
  · subst hgf
    exact ⟨by omega, fun hneg => by omega⟩
  · obtain ⟨hg', heq⟩ := hkeep g hg hgf
    rw [heq]
    exact h g hd hlt hg'

theorem pinFullPage_emptyFullPages (s : State) (f : ℕ) :
    (s.pinFullPage f).emptyFullPages = s.emptyFullPages := by
  rw [pinFullPage_eq]

theorem Ticked.place (h : Ticked cfg lastUnpin s) {k a : ℕ} {s₁ s₂ : State} (h₂ : Provided cfg k s s₁ a s₂)
    (hn : s'.numPinned = (s₂.pinFullPage (cfg.fullPage a)).numPinned)
    (he : s'.emptyFullPages = s₂.emptyFullPages) : Ticked cfg lastUnpin s' := by
  refine h.pin (fun g hg hga => ?_) (by rw [hn]; exact pinFullPage_numPinned_self _ _)
  rw [he] at hg
  rw [hn, pinFullPage_numPinned_of_ne _ hga]
  exact h₂.numPinned g hg hga

theorem Repinned.ticked {p : ℕ} (h : Repinned cfg p s s') (ht : Ticked cfg lastUnpin s) :
    Ticked cfg lastUnpin s' := by
  cases h with
  | pinned _ => exact ht
  | @resident a _ _ =>
    refine ht.pin (fun g hg hga => ⟨?_, pinFullPage_numPinned_of_ne _ hga⟩) (pinFullPage_numPinned_self _ _)
    rw [pinFullPage_eq] at hg
    exact hg
  | loaded _ _ h₂ _ _ =>
    have h₀ : Ticked cfg lastUnpin (s.setPage p { s.page p with status := .loading }) := ht.congr rfl rfl
    exact h₀.place h₂ rfl (pinFullPage_emptyFullPages _ _)

theorem unpinFullPage_numPinned_of_ne (s : State) {f g : ℕ} (hg : g ≠ f) :
    (s.unpinFullPage f).numPinned g = s.numPinned g := by
  unfold State.unpinFullPage
  dsimp only
  split_ifs <;> simp [hg]

theorem unpinFullPage_numPinned_self {f : ℕ} (hpos : 0 < s.numPinned f) (htick : 0 < s.lastTimeTick) :
    (s.unpinFullPage f).numPinned f ≠ 0 ∧ ((s.unpinFullPage f).numPinned f < 0 →
      (s.unpinFullPage f).numPinned f = -(s.lastTimeTick : ℤ)) := by
  unfold State.unpinFullPage
  dsimp only
  simp only [if_pos hpos, update_self]
  by_cases hone : s.numPinned f - 1 = 0
  · simp only [if_pos hone, update_self]
    exact ⟨by omega, fun _ => trivial⟩
  · simp only [if_neg hone, update_self]
    exact ⟨hone, fun hneg => by omega⟩

theorem assignLocation_numPinned (cfg : Config) (s : State) (p : ℕ) :
    (s.assignLocation cfg p).numPinned = s.numPinned ∧
      (s.assignLocation cfg p).emptyFullPages = s.emptyFullPages := by
  obtain ⟨pos, heq⟩ := assignLocation_eq cfg s p
  rw [heq]
  exact ⟨rfl, rfl⟩

theorem Core.numPinned_pos (h : Core cfg s) {p a : ℕ} (hp : p ∈ s.constituentPages (cfg.fullPage a))
    (hpin : (s.page p).pinned = true) : 0 < s.numPinned (cfg.fullPage a) := by
  have hcount := h.lru.count _ (h.mem.base hp).2.2
  have hpos : 0 < pinnedCount s (cfg.fullPage a) := List.countP_pos_iff.mpr ⟨p, hp, hpin⟩
  omega

theorem Unpinned.ticked {p : ℕ} (h : Unpinned cfg p s s') (hc : Core cfg s) (hl : s.Live p)
    (ht : Ticked cfg lastUnpin s) : (s' = s ∧ (s.page p).pinned = false ∧ Ticked cfg lastUnpin s') ∨
      ∃ a, (s.page p).pinned = true ∧ (s.page p).bytes = some a ∧
        Ticked cfg (update lastUnpin (cfg.fullPage a) s.lastTimeTick) s' := by
  cases h with
  | already hpin => exact Or.inl ⟨rfl, hpin, ht⟩
  | @now a hpin hb =>
    refine Or.inr ⟨a, hpin, hb, fun g hd hlt hg => ?_⟩
    obtain ⟨hn, he⟩ := assignLocation_numPinned cfg ((s.setPage p
      { s.page p with pinned := false, sizeFrozen := true }).unpinFullPage (cfg.fullPage a)) p
    rw [he, unpinFullPage_eq] at hg
    rw [hn]
    by_cases hga : g = cfg.fullPage a
    · subst hga
      rw [update_self]
      exact unpinFullPage_numPinned_self (hc.numPinned_pos (hc.mem.listed p a hl hb) hpin) hc.lru.tick_pos
    · rw [update_of_ne hga, unpinFullPage_numPinned_of_ne _ hga]
      exact ht g hd hlt hg

theorem Freed.ticked {p : ℕ} (h : Freed cfg p s s') (hc : Core cfg s)
    (hres : ∀ a, (s.page p).bytes = some a → p ∈ s.constituentPages (cfg.fullPage a))
    (hsafe : (s.page p).pinned = true → ∀ a, (s.page p).bytes = some a →
      pinnedCount s (cfg.fullPage a) = 1 → s.constituentPages (cfg.fullPage a) = [p])
    (ht : Ticked cfg lastUnpin s) : Ticked cfg lastUnpin s' := by
  intro g hd hlt hg
  obtain ⟨hg', heq | ⟨a, hb, rfl, hrest, heq⟩⟩ := h.numPinned g hg
  · rw [heq]
    exact ht g hd hlt hg'
  · by_cases hpin : (s.page p).pinned = true
    · have hcount := hc.lru.count _ hg'
      have hpos := hc.numPinned_pos (hres a hb) hpin
      have hone : pinnedCount s (cfg.fullPage a) ≠ 1 := by
        intro hone
        rw [hsafe hpin a hb hone] at hrest
        simp at hrest
      rw [heq, if_pos hpin]
      exact ⟨by omega, fun hneg => by omega⟩
    · rw [heq, if_neg hpin, Int.sub_zero]
      exact ht _ hd hlt hg'

theorem GotSetPage.ticked {set : PDBSet} {i : ℕ} (h : GotSetPage cfg set i s s')
    (ht : Ticked cfg lastUnpin s) : Ticked cfg lastUnpin s' := by
  have halloc : ∀ me, Ticked cfg lastUnpin (alloc s set i me) := fun me => ht.congr rfl rfl
  cases h with
  | @hit p _ _ h =>
    have h₀ : Ticked cfg lastUnpin (s.setPage p { s.page p with refCount := (s.page p).refCount + 1 }) :=
      ht.congr rfl rfl
    exact h.ticked h₀
  | created _ _ h₂ => exact (halloc _).place h₂ rfl (pinFullPage_emptyFullPages _ _)
  | loaded _ _ h₂ _ _ => exact (halloc _).place h₂ rfl (pinFullPage_emptyFullPages _ _)

theorem Op.unpinsOn_drop (cfg : Config) (s : State) (p : ℕ) : Op.unpinsOn cfg s (.drop p) =
    if (s.page p).refCount = 1 ∧ (s.page p).isAnon = false ∧ (s.page p).pinned = true then
      (s.page p).bytes.map cfg.fullPage
    else none := rfl

theorem Op.unpinsOn_unpin (cfg : Config) (s : State) (p : ℕ) : Op.unpinsOn cfg s (.unpin p) =
    if (s.page p).pinned then (s.page p).bytes.map cfg.fullPage else none := rfl

theorem Op.recordUnpin_eq {op : Op} {f : ℕ} (h : op.unpinsOn cfg s = some f) :
    op.recordUnpin cfg s lastUnpin = update lastUnpin f s.lastTimeTick := by
  rw [recordUnpin, h]

theorem Op.recordUnpin_none {op : Op} (h : op.unpinsOn cfg s = none) :
    op.recordUnpin cfg s lastUnpin = lastUnpin := by
  rw [recordUnpin, h]

theorem Dropped.ticked {p : ℕ} (h : Dropped cfg p s s') (hc : Core cfg s) (hst : Settled s)
    (href : 0 < (s.page p).refCount) (hsafe : ¬ Op.Strands cfg s (.drop p)) (ht : Ticked cfg lastUnpin s) :
    Ticked cfg (Op.recordUnpin cfg s lastUnpin (.drop p)) s' := by
  let s₀ := s.setPage p { s.page p with refCount := 0 }
  have hp₀ : s₀.page p = { s.page p with refCount := 0 } := update_self _ _ _
  have hc₀ : Core cfg s₀ := hc.setRef hst (Or.inl href)
  have ht₀ : Ticked cfg lastUnpin s₀ := ht.congr rfl rfl
  cases h with
  | kept hlt =>
    rw [Op.recordUnpin_none (by rw [Op.unpinsOn_drop, if_neg (by omega)])]
    exact ht.congr rfl rfl
  | freed hone ha h =>
    rw [Op.recordUnpin_none (by rw [Op.unpinsOn_drop, if_neg (by simp [ha])])]
    refine h.ticked hc₀ (fun a hb => ?_) (fun hpin a hb hcount => ?_) ht₀
    · rw [hp₀] at hb
      exact hc.mem.listed p a (Or.inl href) hb
    · rw [hp₀] at hpin hb
      by_contra hne
      have hsame : pinnedCount s₀ (cfg.fullPage a) = pinnedCount s (cfg.fullPage a) :=
        pinnedCount_update rfl rfl fun _ => rfl
      have hcount' : pinnedCount s (cfg.fullPage a) = 1 := hsame.symm.trans hcount
      exact hsafe ⟨hone, ha, hpin, a, hb, hcount', hne⟩
  | forgotten hone ha hb hkey =>
    have hnone : Op.unpinsOn cfg s (.drop p) = none := by
      rw [Op.unpinsOn_drop, hb]
      split_ifs <;> rfl
    rw [Op.recordUnpin_none hnone]
    exact ht.congr rfl rfl
  | @unpinned key a _ hone ha hb hkey h =>
    rcases h.ticked hc₀ (Or.inr ⟨key, hkey⟩) ht₀ with ⟨-, hpin, ht'⟩ | ⟨a', hpin, hb', ht'⟩
    · have hpin : (s.page p).pinned = false := by rw [← hpin, hp₀]
      rw [Op.recordUnpin_none (by rw [Op.unpinsOn_drop, if_neg (by simp [hpin])])]
      exact ht'
    · have hpin : (s.page p).pinned = true := by rw [← hpin, hp₀]
      have hb' : (s.page p).bytes = some a' := by rw [← hb', hp₀]
      have hsome : Op.unpinsOn cfg s (.drop p) = some (cfg.fullPage a') := by
        rw [Op.unpinsOn_drop, if_pos ⟨hone, ha, hpin⟩, hb']
        rfl
      rw [Op.recordUnpin_eq hsome]
      exact ht'

theorem Stepped.ticked {op : Op} (h : Stepped cfg s op s') (hc : Core cfg s) (hst : Settled s)
    (ha : op.Admissible cfg s) (hsafe : ¬ op.Strands cfg s) (ht : Ticked cfg lastUnpin s) :
    Ticked cfg (op.recordUnpin cfg s lastUnpin) s' := by
  cases h with
  | getPage h =>
    cases h with
    | mk h₂ => exact ht.place h₂ rfl (pinFullPage_emptyFullPages _ _)
  | getSetPage h₀ h =>
    refine h.ticked (ht.congr ?_ ?_)
    · rw [h₀.same]
    · rw [h₀.same]
  | freezeSize _ _ h =>
    cases h with
    | mk _ _ _ _ => exact ht.congr rfl rfl
  | @unpin p s' href h =>
    rcases h.ticked hc (Or.inl href) ht with ⟨-, hpin, ht'⟩ | ⟨a, hpin, hb, ht'⟩
    · rw [Op.recordUnpin_none (by rw [Op.unpinsOn_unpin, if_neg (by simp [hpin])])]
      exact ht'
    · have hsome : Op.unpinsOn cfg s (.unpin p) = some (cfg.fullPage a) := by
        rw [Op.unpinsOn_unpin, if_pos hpin, hb]
        rfl
      rw [Op.recordUnpin_eq hsome]
      exact ht'
  | repin _ h => exact h.ticked ht
  | drop h => exact h.ticked hc hst ha hsafe ht
  | setDirty _ _ => exact ht.congr rfl rfl
  | write _ _ _ _ => exact ht.congr rfl rfl

def PinAccounting (lastUnpin : ℕ → ℕ) (s : State) (f : ℕ) : Prop :=
  (0 < pinnedCount s f ∧ s.numPinned f = pinnedCount s f ∧ ∀ e ∈ s.lastUsed, e.1 ≠ f) ∨
    pinnedCount s f = 0 ∧ s.numPinned f = -(lastUnpin f : ℤ) ∧
      s.lastUsed.filter (·.1 = f) = [(f, lastUnpin f)]

theorem Ticked.pinAccounting (h : Ticked cfg lastUnpin s) (hc : Core cfg s) {f : ℕ} (hd : cfg.pageSize ∣ f)
    (hlt : f < cfg.numPages * cfg.pageSize) (hf : f ∉ s.emptyFullPages) : PinAccounting lastUnpin s f := by
  obtain ⟨hne, hneg⟩ := h f hd hlt hf
  have hcount := hc.lru.count f hf
  rcases Int.lt_or_gt_of_ne hne with hn | hn
  · have hentry := hc.lru.entry_of_neg hf hn
    have htick : (-s.numPinned f).toNat = lastUnpin f := by
      have := hneg hn
      omega
    rw [htick] at hentry
    refine Or.inr ⟨by omega, hneg hn, eq_singleton_of_nodup ?_ ?_ fun e he => ?_⟩
    · exact (hc.lru.sorted.imp fun {x y} hxy heq => by rw [heq] at hxy; omega).filter _
    · exact List.mem_filter.mpr ⟨hentry, by simp⟩
    · obtain ⟨he, hef⟩ := List.mem_filter.mp he
      have hef : e.1 = f := of_decide_eq_true hef
      have := ((hc.lru.entry e.1 e.2).mp he).2.2
      rw [hef] at this
      exact Prod.ext hef (by dsimp only; omega)
  · refine Or.inl ⟨by omega, by omega, fun e he hef => ?_⟩
    have := ((hc.lru.entry e.1 e.2).mp he).2
    rw [hef] at this
    omega

def Op.Accountable (cfg : Config) (op : Op) (x : State × (ℕ → ℕ)) : Prop :=
  op.Sound cfg x.1 ∧ ¬ op.Strands cfg x.1

structure Accounted (cfg : Config) (x : State × (ℕ → ℕ)) : Prop extends Sane cfg x.1 where
  ticked : Ticked cfg x.2 x.1

theorem accounted_of_reachable {memory : ℕ → UInt8} {files : ℕ → ℕ → UInt8} {x : State × (ℕ → ℕ)}
    (h : Reachable (tickedStep cfg) (Op.Accountable cfg) (· = (initialState cfg memory files, fun _ => 0)) x) :
    Accounted cfg x := by
  refine h.invariant ?_ ?_
  · rintro x rfl
    refine ⟨sane_initialState cfg memory files, fun f hd hlt hf => absurd ?_ hf⟩
    obtain ⟨i, rfl⟩ := hd
    rw [Nat.mul_comm] at hlt
    exact List.mem_map.mpr ⟨i, List.mem_range.mpr (Nat.lt_of_mul_lt_mul_right hlt), rfl⟩
  · rintro op x x' ⟨⟨hc, hst⟩, ht⟩ ⟨⟨ha, hf, hfit⟩, hsafe⟩ he
    unfold tickedStep at he
    cases hs : step cfg op x.1 with
    | error e =>
      rw [hs] at he
      cases he
    | ok s' =>
      rw [hs] at he
      cases he
      obtain ⟨h', hc'⟩ := (step_spec hc hst hfit ha hf).of_eq_ok hs
      exact ⟨⟨hc', h'.settled hc hst⟩, h'.ticked hc hst ha hsafe ht⟩

theorem pinAccounting_of_reachable (cfg : Config) (memory : ℕ → UInt8) (files : ℕ → ℕ → UInt8)
    (x : State × (ℕ → ℕ))
    (h : Reachable (tickedStep cfg) (Op.Accountable cfg) (· = (initialState cfg memory files, fun _ => 0)) x) :
    (∀ f, cfg.pageSize ∣ f → f < cfg.numPages * cfg.pageSize → f ∉ x.1.emptyFullPages →
      PinAccounting x.2 x.1 f ∧ (pinnedCount x.1 f = 0 → ∃ t, (f, t) ∈ x.1.lastUsed)) ∧
    ∀ e ∈ x.1.lastUsed, ∀ p ∈ x.1.constituentPages e.1, (x.1.page p).pinned = false := by
  obtain ⟨⟨hc, hst⟩, ht⟩ := accounted_of_reachable h
  refine ⟨fun f hd hlt hf => ?_, fun e he p hp => ?_⟩
  · have hacc := ht.pinAccounting hc hd hlt hf
    refine ⟨hacc, fun hzero => ?_⟩
    rcases hacc with ⟨hpos, -⟩ | ⟨-, -, hone⟩
    · omega
    · exact ⟨x.2 f, (List.mem_filter.mp (hone ▸ List.mem_singleton_self _)).1⟩
  · obtain ⟨hf, hpos, hneg⟩ := (hc.lru.entry e.1 e.2).mp he
    have hcount := hc.lru.count e.1 hf
    have hzero : pinnedCount x.1 e.1 = 0 := by omega
    simpa using List.countP_eq_zero.mp hzero p hp

instance (cfg : Config) (s : State) : ∀ op : Op, Decidable (op.Strands cfg s)
  | .drop p => inferInstanceAs (Decidable ((s.page p).refCount = 1 ∧ (s.page p).isAnon = true ∧
      (s.page p).pinned = true ∧ ∃ a ∈ (s.page p).bytes, pinnedCount s (cfg.fullPage a) = 1 ∧
        s.constituentPages (cfg.fullPage a) ≠ [p]))
  | .getPage _ | .getSetPage _ _ | .unpin _ | .repin _ | .freezeSize _ _ | .setDirty _ | .write _ _ _ =>
    inferInstanceAs (Decidable False)

instance (cfg : Config) (op : Op) (x : State × (ℕ → ℕ)) : Decidable (op.Accountable cfg x) :=
  inferInstanceAs (Decidable (_ ∧ _))

theorem pinAccounting_of_smallRun : ∃ x : State × (ℕ → ℕ), x.1.lastUsed = [(0, 3)] ∧
    x.1.numPinned 4194304 = 1 ∧ PinAccounting x.2 x.1 0 ∧ PinAccounting x.2 x.1 4194304 := by
  have hrun : (runAll (tickedStep smallConfig) (fun op x => op.Accountable smallConfig x)
      (smallRun ++ [.unpin 1]) (smallState, fun _ => 0)).any (fun x => x.1.lastUsed = [(0, 3)] ∧ x.1.numPinned 4194304 = 1 ∧
        x.1.emptyFullPages = []) = true := by decide +kernel
  obtain ⟨x, hx, hp⟩ := (Option.any_eq_true _ _).mp hrun
  obtain ⟨hl, hn, he⟩ := of_decide_eq_true hp
  have h := pinAccounting_of_reachable smallConfig (fun _ => 0) (fun _ _ => 0) x
    (Reachable.of_runAll (fun op x h => of_decide_eq_true h) (Reachable.start rfl) hx)
  refine ⟨x, hl, hn, (h.1 0 ?_ ?_ ?_).1, (h.1 4194304 ?_ ?_ ?_).1⟩
  · decide +kernel
  · decide +kernel
  · simp [he]
  · decide +kernel
  · decide +kernel
  · simp [he]

theorem not_pinAccounting_drop_pinned : ∃ x,
    Reachable (tickedStep smallConfig) (fun op x => op.Admissible smallConfig x.1)
      (· = (smallState, fun _ => 0)) x ∧
    4194304 ∉ x.1.emptyFullPages ∧ ¬ PinAccounting x.2 x.1 4194304 := by
  have hrun : (runAll (tickedStep smallConfig) (fun op x => op.Admissible smallConfig x.1)
      [.getPage 2097152, .getPage 2097152, .unpin 0, .drop 1] (smallState, fun _ => 0)).any
      (fun x => 4194304 ∉ x.1.emptyFullPages ∧ pinnedCount x.1 4194304 = 0 ∧ x.1.lastUsed = []) = true := by
    decide +kernel
  obtain ⟨x, hx, hp⟩ := (Option.any_eq_true _ _).mp hrun
  obtain ⟨he, hc, hl⟩ := of_decide_eq_true hp
  refine ⟨x, ?_, he, ?_⟩
  · exact Reachable.of_runAll (fun op x h => of_decide_eq_true h) (Reachable.start rfl) hx
  · rintro (⟨hpos, -⟩ | ⟨-, -, hone⟩)
    · omega
    · simp [hl] at hone

end PlinyCompute.BufferManager
