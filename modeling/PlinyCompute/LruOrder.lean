import PlinyCompute.BufferAccounting

namespace PlinyCompute.BufferManager

open Function Transition

variable {cfg : Config} {s s' : State}

structure Unpins where
  now : ℕ := 0
  call : ℕ → ℕ := fun _ => 0
  tick : ℕ → ℕ := fun _ => 0

def Unpins.record (u : Unpins) (cfg : Config) (s : State) (op : Op) : Unpins where
  now := u.now + 1
  call := match op.unpinsOn cfg s with
    | some f => update u.call f (u.now + 1)
    | none => u.call
  tick := op.recordUnpin cfg s u.tick

def unpinStep (cfg : Config) (op : Op) (x : State × Unpins) : Except Fault (State × Unpins) := do
  let s' ← step cfg op x.1
  .ok (s', x.2.record cfg x.1 op)

structure Op.InTime (cfg : Config) (op : Op) (x : State × Unpins) : Prop where
  admissible : op.Admissible cfg x.1
  freezes : op.FreezesFullPage cfg x.1
  lookup : op.LookupFits cfg x.1
  keeps : ¬op.Strands cfg x.1
  range : x.1.lastTimeTick + 1 < 2 ^ 63

structure LruOrder (cfg : Config) (x : State × Unpins) : Prop where
  accounting : ∀ f, cfg.pageSize ∣ f → f < cfg.numPages * cfg.pageSize → f ∉ x.1.emptyFullPages →
    PinAccounting x.2.tick x.1 f
  used : ∀ e ∈ x.1.lastUsed, e.1 ∉ x.1.emptyFullPages
  oldest : ∀ s', x.1.evict cfg = .ok s' → ∃ f, pinnedCount x.1 f = 0 ∧ f ∉ x.1.emptyFullPages ∧
    s'.emptyFullPages = x.1.emptyFullPages ++ [f] ∧
    ∀ g, cfg.pageSize ∣ g → g < cfg.numPages * cfg.pageSize → g ∉ x.1.emptyFullPages → pinnedCount x.1 g = 0 → g ≠ f →
      x.2.call f < x.2.call g

theorem pinFullPage_lastTimeTick (s : State) (f : ℕ) : (s.pinFullPage f).lastTimeTick = s.lastTimeTick := by
  rw [pinFullPage_eq]

theorem Provided.lastTimeTick {k a : ℕ} {s₁ : State} (h : Provided cfg k s s₁ a s') :
    s'.lastTimeTick = s.lastTimeTick := h.frame.2.2.2.1

theorem unpinFullPage_lastTimeTick (s : State) (f : ℕ) : s.lastTimeTick ≤ (s.unpinFullPage f).lastTimeTick := by
  unfold State.unpinFullPage
  dsimp only
  split_ifs
  · exact Nat.le_succ _
  · exact Nat.le_refl _
  · exact Nat.le_succ _
  · exact Nat.le_refl _

theorem Repinned.lastTimeTick {p : ℕ} (h : Repinned cfg p s s') : s'.lastTimeTick = s.lastTimeTick := by
  cases h with
  | pinned _ => rfl
  | resident _ _ =>
    rw [pinFullPage_eq]
    rfl
  | loaded _ _ h₂ _ _ => exact (pinFullPage_lastTimeTick _ _).trans h₂.lastTimeTick

theorem Unpinned.lastTimeTick {p : ℕ} (h : Unpinned cfg p s s') : s.lastTimeTick ≤ s'.lastTimeTick := by
  cases h with
  | already _ => exact Nat.le_refl _
  | @now a _ _ =>
    obtain ⟨pos, heq⟩ := assignLocation_eq cfg ((s.setPage p
      { s.page p with pinned := false, sizeFrozen := true }).unpinFullPage (cfg.fullPage a)) p
    rw [heq]
    exact unpinFullPage_lastTimeTick (s.setPage p { s.page p with pinned := false, sizeFrozen := true }) _

theorem GotSetPage.lastTimeTick {set : PDBSet} {i : ℕ} (h : GotSetPage cfg set i s s') :
    s'.lastTimeTick = s.lastTimeTick := by
  cases h with
  | hit _ h => exact h.lastTimeTick
  | created _ _ h₂ | loaded _ _ h₂ _ _ => exact (pinFullPage_lastTimeTick _ _).trans h₂.lastTimeTick

theorem Stepped.lastTimeTick {op : Op} (h : Stepped cfg s op s') : s.lastTimeTick ≤ s'.lastTimeTick := by
  cases h with
  | getPage h =>
    cases h with
    | mk h₂ => exact ((pinFullPage_lastTimeTick _ _).trans h₂.lastTimeTick).ge
  | getSetPage h₀ h =>
    rw [h.lastTimeTick, h₀.same]
  | freezeSize _ _ h =>
    cases h with
    | mk _ _ _ _ => exact Nat.le_refl _
  | unpin _ h => exact h.lastTimeTick
  | repin _ h => exact h.lastTimeTick.ge
  | drop h =>
    cases h with
    | kept _ => exact Nat.le_refl _
    | freed _ _ h =>
      rw [h.same]
      exact Nat.le_refl _
    | forgotten _ _ _ _ => exact Nat.le_refl _
    | unpinned _ _ _ _ h => exact h.lastTimeTick
  | setDirty _ _ => exact Nat.le_refl _
  | write _ _ _ _ => exact Nat.le_refl _

structure Unpins.Ordered (u : Unpins) (tick : ℕ) : Prop where
  tick_le : ∀ g, u.tick g ≤ tick
  call_le : ∀ g, u.call g ≤ u.now
  order : ∀ f g, u.tick f < u.tick g → u.call f < u.call g

theorem Unpins.Ordered.record {u : Unpins} (h : u.Ordered s.lastTimeTick) (op : Op)
    (ht : s.lastTimeTick ≤ s'.lastTimeTick) : (u.record cfg s op).Ordered s'.lastTimeTick := by
  cases hf : op.unpinsOn cfg s with
  | none =>
    have hrec : u.record cfg s op = { u with now := u.now + 1 } := by
      rw [Unpins.record, Op.recordUnpin_none hf, hf]
    rw [hrec]
    exact ⟨fun g => (h.tick_le g).trans ht, fun g => (h.call_le g).trans (Nat.le_succ _), h.order⟩
  | some f =>
    have hrec : u.record cfg s op = ⟨u.now + 1, update u.call f (u.now + 1), update u.tick f s.lastTimeTick⟩ := by
      rw [Unpins.record, Op.recordUnpin_eq hf, hf]
    rw [hrec]
    refine ⟨fun g => ?_, fun g => ?_, fun g g' hlt => ?_⟩ <;> dsimp only at *
    · by_cases hg : g = f
      · rw [hg, update_self]
        exact ht
      · rw [update_of_ne hg]
        exact (h.tick_le g).trans ht
    · by_cases hg : g = f
      · rw [hg, update_self]
      · rw [update_of_ne hg]
        exact (h.call_le g).trans (Nat.le_succ _)
    · by_cases hg' : g' = f
      · subst hg'
        have hg : g ≠ g' := by
          rintro rfl
          exact absurd hlt (Nat.lt_irrefl _)
        rw [update_self, update_of_ne hg]
        exact Nat.lt_succ_of_le (h.call_le g)
      · rw [update_of_ne hg'] at hlt ⊢
        by_cases hg : g = f
        · subst hg
          rw [update_self] at hlt
          exact absurd (h.tick_le g') (Nat.not_le_of_lt hlt)
        · rw [update_of_ne hg] at hlt ⊢
          exact h.order g g' hlt

structure Timed (cfg : Config) (x : State × Unpins) : Prop extends Sane cfg x.1 where
  ticked : Ticked cfg x.2.tick x.1
  ordered : x.2.Ordered x.1.lastTimeTick

theorem timed_initialState (cfg : Config) (memory : ℕ → UInt8) (files : ℕ → ℕ → UInt8) :
    Timed cfg (initialState cfg memory files, {}) := by
  refine ⟨sane_initialState cfg memory files, fun f hd hlt hf => absurd ?_ hf, fun _ => Nat.zero_le _,
    fun _ => Nat.le_refl _, fun f g hlt => absurd hlt (Nat.lt_irrefl _)⟩
  obtain ⟨i, rfl⟩ := hd
  rw [Nat.mul_comm] at hlt
  exact List.mem_map.mpr ⟨i, List.mem_range.mpr (Nat.lt_of_mul_lt_mul_right hlt), rfl⟩

theorem Timed.step {x x' : State × Unpins} {op : Op} (h : Timed cfg x) (hop : op.InTime cfg x)
    (he : unpinStep cfg op x = .ok x') : Timed cfg x' := by
  obtain ⟨s', hs, hx⟩ := bind_eq_ok.mp he
  cases hx
  obtain ⟨hst, hc⟩ := (step_spec_of_lookupFits h.core h.settled hop.lookup hop.admissible hop.freezes).of_eq_ok hs
  exact ⟨⟨hc, hst.settled h.core h.settled⟩, hst.ticked h.core h.settled hop.admissible hop.keeps h.ticked,
    h.ordered.record op hst.lastTimeTick⟩

theorem timed_of_reachable {memory : ℕ → UInt8} {files : ℕ → ℕ → UInt8} {x : State × Unpins}
    (h : Reachable (unpinStep cfg) (Op.InTime cfg) (· = (initialState cfg memory files, {})) x) : Timed cfg x := by
  refine h.invariant ?_ fun op x x' hx hop he => hx.step hop he
  rintro x rfl
  exact timed_initialState cfg memory files

theorem Timed.lruOrder {x : State × Unpins} (h : Timed cfg x) : LruOrder cfg x := by
  have hc := h.core
  have hacc : ∀ f, cfg.pageSize ∣ f → f < cfg.numPages * cfg.pageSize → f ∉ x.1.emptyFullPages →
      PinAccounting x.2.tick x.1 f := fun f hd hlt hf => h.ticked.pinAccounting hc hd hlt hf
  have hentry : ∀ f, cfg.pageSize ∣ f → f < cfg.numPages * cfg.pageSize → f ∉ x.1.emptyFullPages →
      pinnedCount x.1 f = 0 → x.1.numPinned f = -(x.2.tick f : ℤ) ∧ (f, x.2.tick f) ∈ x.1.lastUsed := by
    intro f hd hlt hf hzero
    rcases hacc f hd hlt hf with ⟨hpos, -⟩ | ⟨-, hn, hone⟩
    · omega
    · exact ⟨hn, (List.mem_filter.mp (hone ▸ List.mem_singleton_self _)).1⟩
  refine ⟨hacc, fun e he => ((hc.lru.entry e.1 e.2).mp he).1, fun s' he => ?_⟩
  obtain ⟨f, hev⟩ := (evict_spec hc).of_eq_ok he
  cases hev with
  | mk t rest l s₁ hlast _ _ _ =>
    have hmem : (f, t) ∈ x.1.lastUsed := by
      rw [hlast]
      exact List.mem_cons_self
    obtain ⟨hf, -, hneg⟩ := (hc.lru.entry f t).mp hmem
    have hcount := hc.lru.count f hf
    have hzero : pinnedCount x.1 f = 0 := by omega
    obtain ⟨p, hp⟩ := List.exists_mem_of_ne_nil _ (hc.used _ hmem)
    obtain ⟨hd, hlt, -⟩ := hc.mem.base hp
    have htick : t = x.2.tick f := by
      have := (hentry f hd hlt hf hzero).1
      omega
    refine ⟨f, hzero, hf, rfl, fun g hgd hglt hg hgz hgf => ?_⟩
    have hgmem := (hentry g hgd hglt hg hgz).2
    have hsort := hc.lru.sorted
    rw [hlast] at hgmem hsort
    -- the entry of `g` lies behind the one of `f`
    have hrest : (g, x.2.tick g) ∈ rest := by
      refine (List.mem_cons.mp hgmem).resolve_left fun heq => hgf ?_
      exact congrArg Prod.fst heq
    have hlate : t < x.2.tick g := (List.pairwise_cons.mp hsort).1 _ hrest
    exact h.ordered.order f g (htick ▸ hlate)

theorem lruOrder_of_reachable (cfg : Config) (memory : ℕ → UInt8) (files : ℕ → ℕ → UInt8) (x : State × Unpins)
    (h : Reachable (unpinStep cfg) (Op.InTime cfg) (· = (initialState cfg memory files, {})) x) : LruOrder cfg x :=
  (timed_of_reachable h).lruOrder

theorem reachable_inTime {memory : ℕ → UInt8} {files : ℕ → ℕ → UInt8} {x : State × Unpins}
    (h : Reachable (unpinStep cfg) (fun op x => op.Sound cfg x.1 ∧ ¬op.Strands cfg x.1 ∧ x.1.lastTimeTick + 1 < 2 ^ 63)
      (· = (initialState cfg memory files, {})) x) :
    Reachable (unpinStep cfg) (Op.InTime cfg) (· = (initialState cfg memory files, {})) x := by
  induction h with
  | start h => exact .start h
  | step _ hop he ih =>
    obtain ⟨⟨ha, hf, ht⟩, hs, hr⟩ := hop
    exact ih.step ⟨ha, hf, (timed_of_reachable ih).core.lookupFits ht ha, hs, hr⟩ he

theorem lruOrder_of_twoPages : ∃ x : State × Unpins, x.1.lastUsed = [(0, 2), (4194304, 3)] ∧
    LruOrder smallConfig x := by
  have hrun : (runAll (unpinStep smallConfig) (fun op x => op.Sound smallConfig x.1 ∧ ¬op.Strands smallConfig x.1 ∧
      x.1.lastTimeTick + 1 < 2 ^ 63) [.getPage 4194304, .getPage 4194304, .unpin 0, .unpin 1, .repin 0, .unpin 0]
      (smallState, {})).any (fun x => x.1.lastUsed = [(0, 2), (4194304, 3)]) = true := by decide +kernel
  obtain ⟨x, hx, hp⟩ := (Option.any_eq_true _ _).mp hrun
  refine ⟨x, of_decide_eq_true hp, lruOrder_of_reachable smallConfig (fun _ => 0) (fun _ _ => 0) x (reachable_inTime ?_)⟩
  exact Reachable.of_runAll (fun op x h => of_decide_eq_true h) (Reachable.start rfl) hx

structure Repeated (f n : ℕ) (s : State) : Prop where
  held : 0 < (s.page 0).refCount
  pinned : (s.page 0).pinned = true
  anon : (s.page 0).isAnon = true
  status : (s.page 0).status = .loaded
  bytes : (s.page 0).bytes = some f
  alone : s.constituentPages f = [0]
  used : f ∉ s.emptyFullPages
  count : s.numPinned f = 1
  entries : s.lastUsed = []
  tick : s.lastTimeTick = n + 1

def State.again (s : State) (f : ℕ) : State :=
  { s with
    page := update s.page 0 { s.page 0 with sizeFrozen := true }
    lastUsed := lruErase (s.lastTimeTick % 2 ^ 32) [(f, s.lastTimeTick)]
    lastTimeTick := s.lastTimeTick + 1 }

theorem Repeated.unpin_repin {f n : ℕ} (h : Repeated f n s) (hf : cfg.fullPage f = f) : ∃ s₁,
    s.unpin cfg 0 = .ok s₁ ∧ 0 < (s₁.page 0).refCount ∧ s₁.repin cfg 0 = .ok (s.again f) := by
  let me : PDBPage := { s.page 0 with pinned := false, sizeFrozen := true }
  let s₁ : State := { s.setPage 0 me with
    numPinned := update s.numPinned f (-s.lastTimeTick)
    lastUsed := [(f, s.lastTimeTick)]
    lastTimeTick := s.lastTimeTick + 1 }
  have hme : s₁.page 0 = me := by
    change update s.page 0 me 0 = me
    exact update_self _ _ _
  have hunpin : (s.setPage 0 me).unpinFullPage f = s₁ := by
    have hcount : (s.setPage 0 me).numPinned f = 1 := h.count
    rw [unpinFullPage_one hcount, show (s.setPage 0 me).lastUsed = [] from h.entries]
    rfl
  refine ⟨s₁, ?_, ?_, ?_⟩
  · have hb : ((s.setPage 0 me).page 0).bytes = some f := by
      rw [show (s.setPage 0 me).page 0 = me from hme]
      exact h.bytes
    unfold State.unpin
    dsimp only
    rw [if_neg (by simp [h.pinned]), getBytes_eq hb, ok_bind, hf, hunpin, State.assignLocation, hme]
    dsimp only [me]
    rw [h.anon]
  · rw [hme]
    exact h.held
  · let me' : PDBPage := { me with pinned := true }
    have hme' : (s₁.setPage 0 me').page 0 = me' := by
      change update s₁.page 0 me' 0 = me'
      exact update_self _ _ _
    have hb : ((s₁.setPage 0 me').page 0).bytes = some f := by
      rw [hme']
      exact h.bytes
    have hneg : (s₁.setPage 0 me').numPinned f = -(s.lastTimeTick : ℤ) := update_self f _ s.numPinned
    have htick := h.tick
    unfold State.repin
    dsimp only
    rw [hme, if_neg (by simp [me, h.status]), if_neg (by simp [me]), if_pos (by simp [me, h.bytes])]
    refine (pinParent_eq hb).trans (congrArg Except.ok ?_)
    rw [hf, State.pinFullPage, if_pos (by omega), hneg, neg_neg, Int.toNat_natCast]
    have hpage : (s₁.setPage 0 me').page = update s.page 0 { s.page 0 with sizeFrozen := true } := by
      have hsame : me' = { s.page 0 with sizeFrozen := true } := by
        dsimp only [me', me]
        rw [h.pinned]
      change update (update s.page 0 me) 0 me' = _
      rw [update_idem, hsame]
    have hnum : update (s₁.setPage 0 me').numPinned f 1 = s.numPinned := by
      change update (update s.numPinned f (-s.lastTimeTick)) f 1 = s.numPinned
      rw [update_idem, ← h.count, update_eq_self]
    rw [hpage, hnum]
    rfl

theorem Repeated.again {f n : ℕ} (h : Repeated f n s) (hn : n + 1 < 2 ^ 32) : Repeated f (n + 1) (s.again f) := by
  have hp : (s.again f).page 0 = { s.page 0 with sizeFrozen := true } := by
    change update s.page 0 _ 0 = _
    exact update_self _ _ _
  refine ⟨?_, ?_, ?_, ?_, ?_, h.alone, h.used, h.count, ?_, congrArg (· + 1) h.tick⟩
  · rw [hp]
    exact h.held
  · rw [hp]
    exact h.pinned
  · rw [hp]
    exact h.anon
  · rw [hp]
    exact h.status
  · rw [hp]
    exact h.bytes
  · change lruErase (s.lastTimeTick % 2 ^ 32) [(f, s.lastTimeTick)] = []
    rw [h.tick, Nat.mod_eq_of_lt hn]
    simp [lruErase]

def Op.Ordinary (cfg : Config) (op : Op) (x : State × Unpins) : Prop :=
  op.Admissible cfg x.1 ∧ op.FreezesFullPage cfg x.1 ∧ ¬op.Strands cfg x.1

instance (cfg : Config) (op : Op) (x : State × Unpins) : Decidable (op.Ordinary cfg x) :=
  inferInstanceAs (Decidable (_ ∧ _ ∧ _))

theorem Repeated.reachable {f n : ℕ} {start : State × Unpins → Prop} {u : Unpins} (h : Repeated f n s)
    (hf : cfg.fullPage f = f) (hr : Reachable (unpinStep cfg) (Op.Ordinary cfg) start (s, u)) :
    ∃ u', Reachable (unpinStep cfg) (Op.Ordinary cfg) start (s.again f, u') := by
  obtain ⟨s₁, h₁, href, h₂⟩ := h.unpin_repin hf
  have hu : unpinStep cfg (.unpin 0) (s, u) = .ok (s₁, u.record cfg s (.unpin 0)) := bind_eq_ok.mpr ⟨s₁, h₁, rfl⟩
  have hunpin : Op.Ordinary cfg (.unpin 0) (s, u) := ⟨h.held, trivial, id⟩
  have hp : unpinStep cfg (.repin 0) (s₁, u.record cfg s (.unpin 0)) =
      .ok (s.again f, (u.record cfg s (.unpin 0)).record cfg s₁ (.repin 0)) := bind_eq_ok.mpr ⟨_, h₂, rfl⟩
  have hrepin : Op.Ordinary cfg (.repin 0) (s₁, u.record cfg s (.unpin 0)) := ⟨href, trivial, id⟩
  exact ⟨_, (hr.step hunpin hu).step hrepin hp⟩

theorem exists_repeated {f m : ℕ} {start : State × Unpins → Prop} {u : Unpins} (h : Repeated f m s)
    (hf : cfg.fullPage f = f) (hr : Reachable (unpinStep cfg) (Op.Ordinary cfg) start (s, u)) (n : ℕ)
    (hn : m + n < 2 ^ 32) : ∃ s' u', Repeated f (m + n) s' ∧ Reachable (unpinStep cfg) (Op.Ordinary cfg) start (s', u') := by
  induction n with
  | zero => exact ⟨s, u, h, hr⟩
  | succ n ih =>
    obtain ⟨s', u', h', hr'⟩ := ih (by omega)
    obtain ⟨u'', hr''⟩ := h'.reachable hf hr'
    exact ⟨_, u'', h'.again (by omega), hr''⟩

theorem not_lruOrder_wrapped : ∃ x,
    Reachable (unpinStep smallConfig) (Op.Ordinary smallConfig) (· = (smallState, {})) x ∧ ¬LruOrder smallConfig x := by
  have hrun : (runAll (unpinStep smallConfig) (fun op x => op.Ordinary smallConfig x) [.getPage 4194304]
      (smallState, {})).any
      (fun x => 0 < (x.1.page 0).refCount ∧ (x.1.page 0).pinned = true ∧ (x.1.page 0).isAnon = true ∧
        (x.1.page 0).status = .loaded ∧ (x.1.page 0).bytes = some 4194304 ∧ x.1.constituentPages 4194304 = [0] ∧
        4194304 ∉ x.1.emptyFullPages ∧ x.1.numPinned 4194304 = 1 ∧ x.1.lastUsed = [] ∧ x.1.lastTimeTick = 1) = true := by
    decide +kernel
  obtain ⟨⟨s₀, u₀⟩, hx, hp⟩ := (Option.any_eq_true _ _).mp hrun
  obtain ⟨h1, h2, h3, h4, h5, h6, h7, h8, h9, h10⟩ := of_decide_eq_true hp
  have hf : smallConfig.fullPage 4194304 = 4194304 := by decide +kernel
  have hr₀ : Reachable (unpinStep smallConfig) (Op.Ordinary smallConfig) (· = (smallState, {})) (s₀, u₀) :=
    Reachable.of_runAll (fun op x h => of_decide_eq_true h) (Reachable.start rfl) hx
  have h₀ : Repeated 4194304 0 s₀ := ⟨h1, h2, h3, h4, h5, h6, h7, h8, h9, h10⟩
  obtain ⟨s, u, h, hr⟩ := exists_repeated h₀ hf hr₀ (2 ^ 32 - 1) (by decide)
  obtain ⟨u', hr'⟩ := h.reachable hf hr
  refine ⟨_, hr', fun hl => ?_⟩
  have htick : s.lastTimeTick = 2 ^ 32 := h.tick
  have hentry : (4194304, 2 ^ 32) ∈ (s.again 4194304).lastUsed := by
    change _ ∈ lruErase (s.lastTimeTick % 2 ^ 32) [(4194304, s.lastTimeTick)]
    rw [htick]
    decide
  have hpin : ((s.again 4194304).page 0).pinned = true := by
    change (update s.page 0 { s.page 0 with sizeFrozen := true } 0).pinned = true
    rw [update_self]
    exact h.pinned
  have hcount : pinnedCount (s.again 4194304) 4194304 = 1 := by
    rw [pinnedCount, show (s.again 4194304).constituentPages 4194304 = [0] from h.alone]
    simp [hpin]
  rcases hl.accounting 4194304 (by decide +kernel) (by decide +kernel) h.used with ⟨-, -, hnone⟩ | ⟨hzero, -⟩
  · exact hnone _ hentry rfl
  · exact absurd (hcount.symm.trans hzero) Nat.one_ne_zero

end PlinyCompute.BufferManager
