import PlinyCompute.DiskSpace

namespace PlinyCompute.BufferManager

open Function Tiling Transition

variable {cfg : Config} {s s' : State} {once : Prop}

section

variable {p : ℕ} {me : PDBPage}

theorem DiskInv.setPage (h : DiskInv cfg once s) (hb : me.bytes = (s.page p).bytes) (ha : me.isAnon = (s.page p).isAnon)
    (hl : me.isAnon = true → me.location = (s.page p).location)
    (hr : 0 < me.refCount → p < s.nextPage) (ha' : me.isAnon = true → (0 < me.refCount ↔ 0 < (s.page p).refCount))
    (hf : 0 < me.refCount → me.isAnon = true → me.Fixed) : DiskInv cfg once (s.setPage p me) := by
  have hself : (s.setPage p me).page p = me := update_self _ _ _
  have hother : ∀ q, q ≠ p → (s.setPage p me).page q = s.page q := fun q hq => update_of_ne hq _ _
  refine ⟨⟨h.nodup, ?_, ?_⟩, h.sets, fun ho => (h.temp ho).congr ?_, ?_, ?_, ?_⟩
  · intro f q hq
    by_cases hqp : q = p
    · subst hqp
      rw [hself, hb]
      exact h.resident f q hq
    · rw [hother q hqp]
      exact h.resident f q hq
  · intro f q hq
    by_cases hqp : q = p
    · subst hqp
      rw [hself]
      exact ⟨(h.held f q hq).1, fun hx => (ha' hx).mpr ((h.held f q hq).2 (ha.symm.trans hx))⟩
    · rw [hother q hqp]
      exact h.held f q hq
  · rintro (q | ⟨k, j⟩)
    · by_cases hq : q = p
      · subst hq
        by_cases hanon : me.isAnon = true
        · apply tempExtent_page
          rw [hself]
          exact ⟨ha, ha' hanon, hl hanon⟩
        · rw [tempExtent_none, tempExtent_none]
          · exact fun hx => absurd (ha.trans hx) hanon
          · rw [hself]
            exact fun hx => absurd hx hanon
      · apply tempExtent_page
        rw [hother q hq]
        exact ⟨rfl, Iff.rfl, rfl⟩
    · rfl
  · intro q hq
    by_cases hqp : q = p
    · subst hqp
      rw [hself]
      have := hr
      have hq' : s.nextPage ≤ q := hq
      omega
    · rw [hother q hqp]
      exact h.fresh q hq
  · intro key q hq
    by_cases hqp : q = p
    · subst hqp
      rw [hself, ha]
      exact h.keyed key q hq
    · rw [hother q hqp]
      exact h.keyed key q hq
  · intro q href hanon
    by_cases hqp : q = p
    · subst hqp
      rw [hself] at href hanon ⊢
      exact hf href hanon
    · rw [hother q hqp] at href hanon ⊢
      exact h.fixed q href hanon

theorem DiskInv.register {a n : ℕ} (h : DiskInv cfg once s) (hnot : ∀ f, p ∉ s.constituentPages f) (hb : me.bytes = some a)
    (hn : s.nextPage ≤ n) (hp : p < n) (hheld : me.isAnon = true → 0 < me.refCount)
    (hext : (place cfg s n p a me).tempExtent cfg (.inl p) = s.tempExtent cfg (.inl p))
    (hkey : ∀ key, s.allPages key = some p → me.isAnon = false)
    (hf : me.isAnon = true → me.Fixed) : DiskInv cfg once (place cfg s n p a me) := by
  have hself : (place cfg s n p a me).page p = me := update_self _ _ _
  have hother : ∀ q, q ≠ p → (place cfg s n p a me).page q = s.page q := fun q hq => update_of_ne hq _ _
  have hlt : ∀ q, q < s.nextPage → q < n := fun q hq => hq.trans_le hn
  have hmem : ∀ f q, q ∈ (place cfg s n p a me).constituentPages f →
      q = p ∧ f = cfg.fullPage a ∨ q ≠ p ∧ q ∈ s.constituentPages f := by
    intro f q hq
    change q ∈ update s.constituentPages (cfg.fullPage a) _ f at hq
    by_cases hfa : f = cfg.fullPage a
    · subst hfa
      rw [update_self, List.mem_append, List.mem_singleton] at hq
      rcases hq with hq | rfl
      · exact Or.inr ⟨fun hqp => hnot _ (hqp ▸ hq), hq⟩
      · exact Or.inl ⟨rfl, rfl⟩
    · rw [update_of_ne hfa] at hq
      exact Or.inr ⟨fun hqp => hnot f (hqp ▸ hq), hq⟩
  refine ⟨⟨fun f => ?_, fun f q hq => ?_, fun f q hq => ?_⟩, fun set => ?_, ?_, ?_, ?_, ?_⟩
  · change (update s.constituentPages (cfg.fullPage a) _ f).Nodup
    by_cases hfa : f = cfg.fullPage a
    · subst hfa
      rw [update_self]
      exact List.nodup_append.mpr ⟨h.nodup _, List.nodup_singleton p, by
        rintro x hx y hy rfl
        exact hnot _ (List.mem_singleton.mp hy ▸ hx)⟩
    · rw [update_of_ne hfa]
      exact h.nodup f
  · rcases hmem f q hq with ⟨rfl, rfl⟩ | ⟨hqp, hq⟩
    · rw [hself]
      exact ⟨a, hb, rfl⟩
    · rw [hother q hqp]
      exact h.resident f q hq
  · rcases hmem f q hq with ⟨rfl, rfl⟩ | ⟨hqp, hq⟩
    · rw [hself]
      exact ⟨hp, hheld⟩
    · rw [hother q hqp]
      exact ⟨hlt q (h.held f q hq).1, (h.held f q hq).2⟩
  · rw [place_same]
    exact h.sets set
  · intro ho
    have htemp : Tiles ((place cfg s n p a me).tempExtent cfg) s.lastTempPos := by
      apply (h.temp ho).congr
      rintro (q | ⟨k, j⟩)
      · by_cases hq : q = p
        · rw [hq]
          exact hext
        · apply tempExtent_page
          rw [hother q hq]
          exact ⟨rfl, Iff.rfl, rfl⟩
      · rw [place_same]
        rfl
    rw [show (place cfg s n p a me).lastTempPos = s.lastTempPos by rw [place_same]]
    exact htemp
  · intro q (hq : n ≤ q)
    rw [hother q (by omega)]
    exact h.fresh q (hn.trans hq)
  · intro key q hq
    rw [place_same] at hq
    by_cases hqp : q = p
    · subst hqp
      rw [hself]
      exact ⟨hp, hkey key hq⟩
    · rw [hother q hqp]
      exact ⟨hlt q (h.keyed key q hq).1, (h.keyed key q hq).2⟩
  · intro q href ha
    by_cases hqp : q = p
    · subst hqp
      rw [hself] at ha ⊢
      exact hf ha
    · rw [hother q hqp] at href ha ⊢
      exact h.fixed q href ha

theorem DiskInv.pinFullPage (h : DiskInv cfg once s) (f : ℕ) : DiskInv cfg once (s.pinFullPage f) := by
  apply h.congr
  rw [pinFullPage_eq]

def SettledBut (p : ℕ) (s : State) : Prop :=
  ∀ q, q ≠ p → (s.page q).status ≠ .loading ∧ (s.page q).status ≠ .unloading

theorem Spared.settledBut (h : Spared s s') (hs : SettledBut p s) : SettledBut p s' := by
  intro q hq
  rcases h.status q with heq | hst
  · rw [heq]
    exact hs q hq
  · rw [hst]
    exact ⟨nofun, nofun⟩

theorem SettledBut.loaded (h : SettledBut p s) (hp : s'.page = update s.page p me) (hme : me.status = .loaded) :
    Settled s' := by
  intro q
  rw [hp]
  by_cases hq : q = p
  · rw [hq, update_self, hme]
    exact ⟨nofun, nofun⟩
  · rw [update_of_ne hq]
    exact h q hq

theorem repin_any (h : DiskInv cfg once s) (hst : Settled s) (hlt : p < s.nextPage)
    (hheld : (s.page p).isAnon = true → 0 < (s.page p).refCount)
    (honce : once → ∀ k ∈ s.repinClass p, s.emptyMiniPages k = [] → s.emptyFullPages = [] → s.EvictsOnce) :
    Ensures Any (s.repin cfg p) fun s' => DiskInv cfg once s' ∧ Settled s' := by
  unfold State.repin
  unfold State.repinClass at honce
  dsimp only at honce ⊢
  by_cases hload : (s.page p).status = .loading ∨ (s.page p).status = .unloading
  · rw [if_pos hload]
    exact trivial
  rw [if_neg hload] at honce ⊢
  by_cases hpin : (s.page p).pinned = true
  · rw [if_pos hpin]
    exact ⟨h, hst⟩
  rw [if_neg hpin] at honce ⊢
  rw [Bool.not_eq_true] at hpin
  by_cases hb : (s.page p).bytes ≠ none
  · rw [if_pos hb]
    obtain ⟨a, ha⟩ := Option.ne_none_iff_exists'.mp hb
    have hb' : ((s.setPage p { s.page p with pinned := true }).page p).bytes = some a := by
      simp [State.setPage, ha]
    rw [pinParent_eq hb', ensures_ok]
    refine ⟨DiskInv.pinFullPage ?_ _, ?_⟩
    · apply h.setPage
      · rfl
      · rfl
      · exact fun _ => rfl
      · exact fun _ => hlt
      · exact fun _ => Iff.rfl
      · intro href hanon
        have hfrozen := (h.fixed p href hanon).unpinned hpin
        exact ⟨fun hfalse => absurd hfalse (by simp), fun _ => Or.inl hfrozen⟩
    · rw [pinFullPage_eq]
      exact hst.setPage rfl
  · rw [if_neg hb] at honce ⊢
    rw [not_not] at hb
    let s₀ := s.setPage p { s.page p with status := .loading }
    have hp₀ : s₀.page p = { s.page p with status := .loading } := update_self _ _ _
    have hother : ∀ q, q ≠ p → s₀.page q = s.page q := fun q hq => update_of_ne hq _ _
    have h₀ : DiskInv cfg once s₀ := by
      apply h.setPage
      · rfl
      · rfl
      · exact fun _ => rfl
      · exact fun _ => hlt
      · exact fun _ => Iff.rfl
      · exact fun href ha => ⟨(h.fixed p href ha).unpinned, (h.fixed p href ha).stored⟩
    have honce₀ : once → s₀.emptyMiniPages (s.page p).location.numBytes = [] → s₀.emptyFullPages = [] →
        s₀.EvictsOnce := by
      intro ho hm hf e he q hq
      have hqp : q ≠ p := fun hqp => h.not_mem hb e.1 (hqp ▸ hq)
      rw [hother q hqp]
      exact honce ho _ rfl hm hf e he q hq
    have hst₀ : SettledBut p s₀ := by
      intro q hq
      rw [hother q hq]
      exact hst q
    refine (getEmptyMemory_any h₀ honce₀).bind ?_
    rintro ⟨a, s₂⟩ ⟨h₂, hs₂⟩
    have hb₀ : (s₀.page p).bytes = none := by rw [hp₀]; exact hb
    have hp₂ : s₂.page p = { s.page p with status := .loading } := (hs₂.outside p hb₀).trans hp₀
    have hst₂ := hs₂.settledBut hst₀
    dsimp only
    rw [registerMiniPage_setPage rfl, ok_bind, place_page_self, place_setPage]
    have hfile {x : Except Fault ℕ} : Ensures Any x fun _ => True := by
      cases x <;> exact trivial
    refine hfile.bind fun fd _ => ?_
    refine (any_of_stops (pread_place (by rw [hp₂]))).bind ?_
    rintro s₃ ⟨hpos, rfl⟩
    rw [fetch_page_self, fetch_setPage, hp₂, ensures_ok]
    rotate_left
    · rfl
    have hplace : DiskInv cfg once (place cfg s₂ s₂.nextPage p a
        { s.page p with bytes := some a, pinned := true, status := .loaded }) := by
      apply h₂.register (h₂.not_mem (by rw [hp₂]; exact hb)) rfl (Nat.le_refl _)
      · rw [hs₂.nextPage]
        exact hlt
      · exact hheld
      · apply tempExtent_page
        rw [place_page_self, hp₂]
        exact ⟨rfl, Iff.rfl, rfl⟩
      · intro key hkey
        have := (h₂.keyed key p hkey).2
        rw [hp₂] at this
        exact this
      · intro ha
        have hfrozen := (h.fixed p (hheld ha) ha).unpinned hpin
        exact ⟨fun hfalse => absurd hfalse (by simp), fun _ => Or.inl hfrozen⟩
    exact ⟨hplace.congr rfl, hst₂.loaded rfl rfl⟩

theorem registerMiniPage_new {a n : ℕ} (hb : me.bytes = some a) :
    State.registerMiniPage cfg p { s.setPage p me with nextPage := n } = .ok (place cfg s n p a me) := by
  let s₁ : State := { s.setPage p me with nextPage := n }
  have hb₁ : (s₁.page p).bytes = some a := by
    simp [s₁, State.setPage, hb]
  have hl : s₁.lastUsed = s.lastUsed := rfl
  have hn : s₁.numPinned = s.numPinned := rfl
  obtain ⟨h1, h2⟩ := pinFullPage_congr hl hn (cfg.fullPage a)
  refine (registerMiniPage_eq hb₁).trans ?_
  rw [pinFullPage_eq, h1, h2, place, pinFullPage_eq]
  rfl

theorem getPage_any (h : DiskInv cfg once s) (hst : Settled s) {maxBytes : ℕ}
    (honce : once → (Op.getPage maxBytes).StoresOnce cfg s) :
    Ensures Any (s.getPage cfg maxBytes) fun s' => DiskInv cfg once s' ∧ Settled s' := by
  unfold Op.StoresOnce Op.neededClass at honce
  dsimp only at honce
  unfold State.getPage
  cases hk : getLogPageSize cfg maxBytes with
  | error e => exact trivial
  | ok k =>
    rw [hk] at honce
    rw [ok_bind]
    refine (getEmptyMemory_any h fun ho => honce ho k rfl).bind ?_
    rintro ⟨a, s₂⟩ ⟨h₂, hs₂⟩
    have hst₂ : Settled s₂ := by
      intro q
      rcases hs₂.status q with heq | hst'
      · rw [heq]
        exact hst q
      · rw [hst']
        exact ⟨nofun, nofun⟩
    obtain ⟨free, last, htake⟩ := takePageNumber_snd s₂
    let s₃ : State := { s₂ with freeAnonPageNumbers := free, lastFreeAnonPageNumber := last }
    have h₃ : DiskInv cfg once s₃ := h₂.congr rfl
    let me := newAnonymous s₂.takePageNumber.1 a k
    dsimp only
    rw [htake]
    dsimp only
    change Ensures Any (State.registerMiniPage cfg s₂.nextPage { s₃.setPage s₂.nextPage me with
        nextPage := s₂.nextPage + 1 }) _
    rw [registerMiniPage_new rfl, ensures_ok]
    constructor
    · apply h₃.register
      · intro f hf
        have := (h₃.held f _ hf).1
        exact absurd this (Nat.lt_irrefl _)
      · rfl
      · exact Nat.le_succ _
      · exact Nat.lt_succ_self _
      · exact fun _ => Nat.one_pos
      · rw [tempExtent_none, tempExtent_none]
        · intro _ href
          rw [h₃.fresh s₂.nextPage (Nat.le_refl _)] at href
          omega
        · rw [place_page_self]
          exact fun _ _ => rfl
      · intro key hkey
        have := (h₃.keyed key _ hkey).1
        exact absurd this (Nat.lt_irrefl _)
      · exact fun _ => ⟨nofun, fun hpos => absurd rfl hpos⟩
    · intro q
      by_cases hq : q = s₂.nextPage
      · rw [hq, place_page_self]
        exact ⟨nofun, nofun⟩
      · rw [show (place cfg s₃ (s₂.nextPage + 1) s₂.nextPage a me).page q = s₂.page q from update_of_ne hq _ _]
        exact hst₂ q

theorem DiskInv.alloc (h : DiskInv cfg once s) {set : PDBSet} {i : ℕ} (ha : me.isAnon = false) :
    DiskInv cfg once (alloc s set i me) := by
  have hself : (BufferManager.alloc s set i me).page s.nextPage = me := update_self _ _ _
  have hother : ∀ q, q ≠ s.nextPage → (BufferManager.alloc s set i me).page q = s.page q :=
    fun q hq => update_of_ne hq _ _
  have hmem : ∀ f, ∀ q ∈ s.constituentPages f, q ≠ s.nextPage := fun f q hq hqn => by
    have := (h.held f q hq).1
    omega
  refine ⟨⟨h.nodup, ?_, ?_⟩, h.sets, fun ho => (h.temp ho).congr ?_, ?_, ?_, ?_⟩
  · intro f q hq
    rw [hother q (hmem f q hq)]
    exact h.resident f q hq
  · intro f q hq
    rw [hother q (hmem f q hq)]
    exact ⟨Nat.lt_succ_of_lt (h.held f q hq).1, (h.held f q hq).2⟩
  · rintro (q | ⟨k, j⟩)
    · by_cases hq : q = s.nextPage
      · subst hq
        rw [tempExtent_none, tempExtent_none]
        · intro _ href
          rw [h.fresh s.nextPage (Nat.le_refl _)] at href
          omega
        · rw [hself, ha]
          exact nofun
      · apply tempExtent_page
        rw [hother q hq]
        exact ⟨rfl, Iff.rfl, rfl⟩
    · rfl
  · intro q (hq : s.nextPage + 1 ≤ q)
    rw [hother q (by omega)]
    exact h.fresh q (by omega)
  · intro key q hq
    change update s.allPages (set, i) (some s.nextPage) key = some q at hq
    by_cases hk : key = (set, i)
    · rw [hk, update_self] at hq
      cases hq
      rw [hself]
      exact ⟨Nat.lt_succ_self _, ha⟩
    · rw [update_of_ne hk] at hq
      obtain ⟨hlt, hanon⟩ := h.keyed key q hq
      rw [hother q (by omega)]
      exact ⟨Nat.lt_succ_of_lt hlt, hanon⟩
  · intro q href hanon
    by_cases hq : q = s.nextPage
    · subst hq
      rw [hself, ha] at hanon
      cases hanon
    · rw [hother q hq] at href hanon ⊢
      exact h.fixed q href hanon

theorem DiskInv.provide (h : DiskInv cfg once s) (hst : Settled s) {set : PDBSet} {i k : ℕ} (hb : me.bytes = none)
    (ha : me.isAnon = false)
    (honce : once → s.emptyMiniPages k = [] → s.emptyFullPages = [] → s.EvictsOnce) :
    Ensures Any ((BufferManager.alloc s set i me).getEmptyMemory cfg k) fun r =>
      r.2.page s.nextPage = me ∧ SettledBut s.nextPage r.2 ∧ ∀ me', me'.bytes = some r.1 → me'.isAnon = false →
        DiskInv cfg once (place cfg r.2 r.2.nextPage s.nextPage r.1 me') := by
  have h₀ : DiskInv cfg once (BufferManager.alloc s set i me) := h.alloc ha
  have hp₀ := alloc_page s set i me
  have hst₀ : SettledBut s.nextPage (BufferManager.alloc s set i me) := by
    intro q hq
    rw [show (BufferManager.alloc s set i me).page q = s.page q from update_of_ne hq _ _]
    exact hst q
  refine (getEmptyMemory_any h₀ ?_).mono ?_
  · intro ho hm hf e he q hq
    have hlt := (h.held e.1 q hq).1
    rw [show (BufferManager.alloc s set i me).page q = s.page q from update_of_ne (by omega) _ _]
    exact honce ho hm hf e he q hq
  · rintro ⟨a, s₂⟩ ⟨h₂, hs₂⟩
    have hp₂ : s₂.page s.nextPage = me := (hs₂.outside _ (by rw [hp₀]; exact hb)).trans hp₀
    refine ⟨hp₂, hs₂.settledBut hst₀, fun me' hb' ha' => ?_⟩
    apply h₂.register (h₂.not_mem (by rw [hp₂]; exact hb)) hb' (Nat.le_refl _)
    · rw [hs₂.nextPage]
      exact Nat.lt_succ_self _
    · rw [ha']
      exact nofun
    · rw [tempExtent_none, tempExtent_none]
      · rw [hp₂, ha]
        exact nofun
      · rw [place_page_self, ha']
        exact nofun
    · exact fun _ _ => ha'
    · rw [ha']
      exact nofun

theorem getSetPage_any (h : DiskInv cfg once s) (hst : Settled s) {set : PDBSet} {i : ℕ}
    (honce : once → (Op.getSetPage set i).StoresOnce cfg s) :
    Ensures Any (s.getSetPage cfg set i) fun s' => DiskInv cfg once s' ∧ Settled s' := by
  unfold State.getSetPage
  refine (any_of_stops (checkIfOpen_spec cfg set s)).bind fun s₀ hopen => ?_
  have h₀ : DiskInv cfg once s₀ := by
    apply h.congr
    rw [hopen.same]
  have hst₀ : Settled s₀ := by
    rw [hopen.same]
    exact hst
  have honce₀ : once → (Op.getSetPage set i).StoresOnce cfg s₀ := by
    rw [hopen.same]
    exact honce
  unfold Op.StoresOnce Op.neededClass at honce₀
  dsimp only at honce₀
  cases hkey : s₀.allPages (set, i) with
  | some p =>
    rw [hkey] at honce₀
    dsimp only at honce₀ ⊢
    obtain ⟨hlt, ha⟩ := h₀.keyed _ p hkey
    let s₁ := s₀.setPage p { s₀.page p with refCount := (s₀.page p).refCount + 1 }
    have hp₁ : s₁.page p = { s₀.page p with refCount := (s₀.page p).refCount + 1 } := update_self _ _ _
    have h₁ : DiskInv cfg once s₁ := by
      apply h₀.setPage
      · rfl
      · rfl
      · exact fun _ => rfl
      · exact fun _ => hlt
      · exact fun hx => absurd (ha.symm.trans hx) nofun
      · exact fun _ hx => absurd (ha.symm.trans hx) nofun
    apply repin_any h₁ (hst₀.setPage rfl) hlt
    · rw [hp₁]
      exact fun _ => Nat.succ_pos _
    · intro ho k hk hm hf e he q hq
      have hclass : s₁.repinClass p = s₀.repinClass p := by
        unfold State.repinClass
        rw [hp₁]
      have hsame : (s₁.page q).isAnon = (s₀.page q).isAnon ∧ (s₁.page q).dirty = (s₀.page q).dirty ∧
          (s₁.page q).location = (s₀.page q).location := by
        by_cases hqp : q = p
        · rw [hqp, hp₁]
          exact ⟨rfl, rfl, rfl⟩
        · rw [show s₁.page q = s₀.page q from update_of_ne hqp _ _]
          exact ⟨rfl, rfl, rfl⟩
      rw [hsame.1, hsame.2.1, hsame.2.2]
      exact honce₀ ho k (hclass ▸ hk) hm hf e he q hq
  | none =>
    rw [hkey] at honce₀
    dsimp only at honce₀ ⊢
    cases hloc : s₀.pageLocations (set, i) with
    | none =>
      rw [hloc] at honce₀
      dsimp only
      unfold State.createSetPage
      refine (h₀.provide hst₀ rfl rfl fun ho => honce₀ ho _ rfl).bind ?_
      rintro ⟨a, s₂⟩ ⟨hp₂, hst₂, hplace⟩
      dsimp only
      rw [registerMiniPage_setPage rfl, ok_bind, place_page_self, place_setPage, ensures_ok]
      exact ⟨hplace _ rfl (by rw [hp₂]), hst₂.loaded rfl rfl⟩
    | some info =>
      rw [hloc] at honce₀
      dsimp only
      unfold State.loadSetPage
      refine (h₀.provide hst₀ rfl rfl fun ho => honce₀ ho _ rfl).bind ?_
      rintro ⟨a, s₂⟩ ⟨hp₂, hst₂, hplace⟩
      dsimp only
      rw [registerMiniPage_setPage rfl, ok_bind]
      refine getFileDescriptor_any.bind fun fd _ => ?_
      refine (any_of_stops (pread_place (by rw [hp₂]))).bind ?_
      rintro s₃ ⟨hpos, rfl⟩
      rw [fetch_page_self, fetch_setPage, ensures_ok]
      rotate_left
      · rfl
      exact ⟨(hplace _ rfl (by rw [hp₂])).congr rfl, hst₂.loaded rfl rfl⟩

theorem freezeSize_any (h : DiskInv cfg once s) (hst : Settled s) {numBytes : ℕ} :
    Ensures Any (s.freezeSize cfg p numBytes) fun s' => DiskInv cfg once s' ∧ Settled s' := by
  unfold State.freezeSize
  dsimp only
  by_cases hpre : ¬ (s.page p).pinned = true ∨ (s.page p).sizeFrozen = true
  · rw [if_pos hpre]
    exact trivial
  rw [if_neg hpre]
  obtain ⟨hpin, hfrozen⟩ := not_or.mp hpre
  rw [not_not] at hpin
  cases getLogPageSize cfg numBytes with
  | error e => exact trivial
  | ok k =>
    rw [ok_bind]
    by_cases hk : (s.page p).location.numBytes < k
    · rw [if_pos hk]
      exact trivial
    rw [if_neg hk]
    refine getBytes_any.bind fun a ha => ?_
    cases miniPagesFrom cfg k (cfg.miniPageSize k) with
    | error e => exact trivial
    | ok minis =>
      rw [ok_bind, ensures_ok]
      let me : PDBPage := { s.page p with
        sizeFrozen := true, location := { (s.page p).location with numBytes := k } }
      have hself : (s.setPage p me).page p = me := update_self _ _ _
      have hb : (s.page p).bytes = some a := by
        rw [show ((s.setPage p me).page p).bytes = (s.page p).bytes by rw [hself]] at ha
        exact ha
      -- a page in memory that is not frozen has no position yet
      have hnone : (s.page p).isAnon = true → 0 < (s.page p).refCount → (s.page p).location.startPos = -1 := by
        intro hanon href
        by_contra hpos
        rcases (h.fixed p href hanon).stored hpos with hx | ⟨-, hx⟩
        · exact hfrozen hx
        · rw [hb] at hx
          cases hx
      have hother : ∀ q, q ≠ p → (s.setPage p me).page q = s.page q := fun q hq => update_of_ne hq _ _
      have hpage : ∀ q, ((s.setPage p me).page q).bytes = (s.page q).bytes ∧
          ((s.setPage p me).page q).isAnon = (s.page q).isAnon ∧
          ((s.setPage p me).page q).refCount = (s.page q).refCount := by
        intro q
        by_cases hq : q = p
        · rw [hq, hself]
          exact ⟨rfl, rfl, rfl⟩
        · rw [hother q hq]
          exact ⟨rfl, rfl, rfl⟩
      have hinv : DiskInv cfg once (s.setPage p me) := by
        refine ⟨⟨h.nodup, fun f q hq => ?_, fun f q hq => ?_⟩, h.sets, fun ho => (h.temp ho).congr ?_,
          fun q hq => ?_, fun key q hq => ?_, fun q href hanon => ?_⟩
        · rw [(hpage q).1]
          exact h.resident f q hq
        · rw [(hpage q).2.1, (hpage q).2.2]
          exact h.held f q hq
        · rintro (q | ⟨k', j⟩)
          · by_cases hq : q = p
            · rw [hq, tempExtent_none, tempExtent_none hnone]
              rw [hself]
              exact hnone
            · apply tempExtent_page
              rw [hother q hq]
              exact ⟨rfl, Iff.rfl, rfl⟩
          · rfl
        · rw [(hpage q).2.2]
          exact h.fresh q hq
        · rw [(hpage q).2.1]
          exact h.keyed key q hq
        · rw [(hpage q).2.2] at href
          rw [(hpage q).2.1] at hanon
          by_cases hq : q = p
          · rw [hq, hself]
            exact ⟨fun _ => rfl, fun _ => Or.inl rfl⟩
          · rw [hother q hq]
            exact h.fixed q href hanon
      have hsettled : Settled (s.setPage p me) := hst.setPage rfl
      exact ⟨hinv.congr rfl, hsettled⟩

theorem DiskInv.assignLocation (h : DiskInv cfg once s) (p : ℕ) : DiskInv cfg once (s.assignLocation cfg p) := by
  unfold State.assignLocation
  dsimp only
  split
  · next set ha hset =>
    by_cases hnone : s.pageLocations (set, (s.page p).pageNum) = none
    · rw [if_pos hnone]
      have hext : s.setExtent cfg set (s.page p).pageNum = none := by
        rw [State.setExtent, hnone, Option.map_none]
      have hinv : DiskInv cfg once (s.setPage p
          { s.page p with location := { (s.page p).location with startPos := s.endOfFiles set } }) := by
        apply h.setPage
        · rfl
        · rfl
        · exact fun hx => absurd (ha.symm.trans hx) nofun
        · intro href
          by_contra hge
          have := h.fresh p (by omega)
          dsimp only at href
          omega
        · exact fun _ => Iff.rfl
        · exact fun _ hx => absurd (ha.symm.trans hx) nofun
      obtain ⟨⟨h1, h2, h3⟩, -, h5, h6, h7, h8⟩ := hinv
      refine ⟨⟨h1, h2, h3⟩, fun set' => ?_, h5, h6, h7, h8⟩
      by_cases hs : set' = set
      · subst hs
        dsimp only
        rw [update_self]
        apply (h.sets set').extend hext
        · simp [State.setExtent]
        · intro i hi
          have hne : (set', i) ≠ (set', (s.page p).pageNum) := fun hx => hi (Prod.ext_iff.mp hx).2
          simp only [State.setExtent, update_of_ne hne]
      · dsimp only
        rw [update_of_ne hs]
        apply (h.sets set').congr
        intro i
        have hne : (set', i) ≠ (set, (s.page p).pageNum) := fun hx => hs (Prod.ext_iff.mp hx).1
        simp only [State.setExtent, update_of_ne hne]
    · rw [if_neg hnone]
      exact h
  · exact h

theorem unpin_any (h : DiskInv cfg once s) (hst : Settled s) (hlt : p < s.nextPage) :
    Ensures Any (s.unpin cfg p) fun s' => DiskInv cfg once s' ∧ Settled s' := by
  unfold State.unpin
  dsimp only
  by_cases hpin : ¬ (s.page p).pinned = true
  · rw [if_pos hpin]
    exact ⟨h, hst⟩
  rw [if_neg hpin]
  refine getBytes_any.bind fun a _ => ?_
  let s₁ := s.setPage p { s.page p with pinned := false, sizeFrozen := true }
  have h₁ : DiskInv cfg once s₁ := by
    apply h.setPage
    · rfl
    · rfl
    · exact fun _ => rfl
    · exact fun _ => hlt
    · exact fun _ => Iff.rfl
    · exact fun _ _ => ⟨fun _ => rfl, fun _ => Or.inl rfl⟩
  have hst₁ : Settled s₁ := hst.setPage rfl
  have h₂ : DiskInv cfg once (s₁.unpinFullPage (cfg.fullPage a)) := by
    apply h₁.congr
    rw [unpinFullPage_eq]
  have hst₂ : Settled (s₁.unpinFullPage (cfg.fullPage a)) := by
    rw [unpinFullPage_eq]
    exact hst₁
  refine ⟨h₂.assignLocation p, ?_⟩
  obtain ⟨pos, heq⟩ := assignLocation_eq cfg (s₁.unpinFullPage (cfg.fullPage a)) p
  rw [heq]
  exact hst₂.setPage rfl

theorem leaveFullPage_any {a : ℕ} : Ensures Any (s.leaveFullPage cfg p a) fun s' => s' = { s with
    constituentPages := update s.constituentPages (cfg.fullPage a) ((s.constituentPages (cfg.fullPage a)).erase p)
    numPinned := s'.numPinned, lastUsed := s'.lastUsed, emptyMiniPages := s'.emptyMiniPages
    unusedMiniPages := s'.unusedMiniPages, emptyFullPages := s'.emptyFullPages } := by
  unfold State.leaveFullPage
  dsimp only
  by_cases hp : p ∈ s.constituentPages (cfg.fullPage a)
  · rw [eraseOne, if_pos hp, ok_bind]
    by_cases hl : (s.constituentPages (cfg.fullPage a)).erase p = []
    · rw [if_pos hl, State.giveBackFullPage]
      refine clearUnused_any.bind ?_
      rintro s₁ ⟨minis, unused, rfl⟩
      exact rfl
    · rw [if_neg hl]
      exact rfl
  · rw [eraseOne, if_neg hp]
    exact trivial

theorem DiskInv.free (h : DiskInv cfg once s) (ha : (s.page p).isAnon = true) (href : 0 < (s.page p).refCount)
    (hc : ∀ f, (s'.constituentPages f).Nodup ∧ ∀ q ∈ s'.constituentPages f, q ∈ s.constituentPages f ∧ q ≠ p)
    (hs : s' = { (s.setPage p { s.page p with refCount := 0 }).recycle p with
      constituentPages := s'.constituentPages, numPinned := s'.numPinned, lastUsed := s'.lastUsed
      emptyMiniPages := s'.emptyMiniPages, unusedMiniPages := s'.unusedMiniPages
      emptyFullPages := s'.emptyFullPages }) : DiskInv cfg once s' := by
  have hself : s'.page p = { s.page p with refCount := 0 } := by
    rw [hs]
    exact update_self _ _ _
  have hother : ∀ q, q ≠ p → s'.page q = s.page q := fun q hq => by
    rw [hs]
    exact update_of_ne hq _ _
  have hpositions : s'.availablePositions = if (s.page p).location.startPos ≠ -1 then
      update s.availablePositions (s.page p).location.numBytes
        (s.availablePositions (s.page p).location.numBytes ++ [(s.page p).location.startPos])
      else s.availablePositions := by
    rw [hs]
    simp [State.recycle, State.setPage]
  have hend : s'.lastTempPos = s.lastTempPos := by
    rw [hs]
    rfl
  have hnone : s'.tempExtent cfg (.inl p) = none := by
    apply tempExtent_none
    rw [hself]
    intro _ hx
    dsimp only at hx
    omega
  have hpage : ∀ q, q ≠ p → s'.tempExtent cfg (.inl q) = s.tempExtent cfg (.inl q) := by
    intro q hq
    apply tempExtent_page
    rw [hother q hq]
    exact ⟨rfl, Iff.rfl, rfl⟩
  refine ⟨⟨fun f => (hc f).1, fun f q hq => ?_, fun f q hq => ?_⟩, fun set => ?_, ?_, fun q hq => ?_,
    fun key q hq => ?_, fun q href' hanon => ?_⟩
  · obtain ⟨hq, hqp⟩ := (hc f).2 q hq
    rw [hother q hqp]
    exact h.resident f q hq
  · obtain ⟨hq, hqp⟩ := (hc f).2 q hq
    rw [hother q hqp, hs]
    exact h.held f q hq
  · rw [hs]
    exact h.sets set
  · intro ho
    rw [hend]
    by_cases hpos : (s.page p).location.startPos ≠ -1
    · rw [if_pos hpos] at hpositions
      have hold : s.tempExtent cfg (.inl p) =
          some ((s.page p).location.startPos, cfg.miniPageSize (s.page p).location.numBytes) :=
        tempExtent_some ha href hpos
      -- the position moves from the page to the end of the list of its class
      refine (h.temp ho).move (i := .inl p) (j := .inr ((s.page p).location.numBytes,
        (s.availablePositions (s.page p).location.numBytes).length)) ?_ ?_ hnone ?_
      · simp [State.tempExtent]
      · rw [hold]
        simp [State.tempExtent, hpositions]
      · rintro (q | ⟨k, j⟩) hi hj
        · exact hpage q fun hq => hi (hq ▸ rfl)
        · unfold State.tempExtent
          dsimp only
          rw [hpositions]
          by_cases hk : k = (s.page p).location.numBytes
          · subst hk
            have hne : j ≠ (s.availablePositions (s.page p).location.numBytes).length := fun hjl => hj (hjl ▸ rfl)
            rw [update_self, List.getElem?_append]
            split_ifs with hlt
            · rfl
            · rw [List.getElem?_eq_none (by simp; omega), List.getElem?_eq_none (by omega)]
          · rw [update_of_ne hk]
    · rw [if_neg hpos] at hpositions
      rw [not_not] at hpos
      apply (h.temp ho).congr
      rintro (q | ⟨k, j⟩)
      · by_cases hq : q = p
        · rw [hq, hnone, tempExtent_none fun _ _ => hpos]
        · exact hpage q hq
      · unfold State.tempExtent
        dsimp only
        rw [hpositions]
  · by_cases hqp : q = p
    · rw [hqp, hself]
    · rw [hs] at hq
      rw [hother q hqp]
      exact h.fresh q hq
  · rw [hs] at hq
    obtain ⟨hlt, hanon⟩ := h.keyed key q hq
    have hqp : q ≠ p := fun hqp => by
      rw [hqp, ha] at hanon
      cases hanon
    rw [hother q hqp, hs]
    exact ⟨hlt, hanon⟩
  · by_cases hqp : q = p
    · rw [hqp, hself] at href'
      dsimp only at href'
      omega
    · rw [hother q hqp] at href' hanon ⊢
      exact h.fixed q href' hanon

theorem DiskInv.forget (h : DiskInv cfg once s) {pages : PDBSet × ℕ → Option ℕ}
    (hall : ∀ key q, pages key = some q → s.allPages key = some q) : DiskInv cfg once { s with allPages := pages } := by
  obtain ⟨⟨h1, h2, h3⟩, h4, h5, h6, h7, h8⟩ := h
  exact ⟨⟨h1, h2, h3⟩, h4, h5, h6, fun key q hq => h7 key q (hall key q hq), h8⟩

theorem decRefCount_any (h : DiskInv cfg once s) (hst : Settled s) (href : 0 < (s.page p).refCount) :
    Ensures Any (s.decRefCount cfg p) fun s' => DiskInv cfg once s' ∧ Settled s' := by
  have hlt : p < s.nextPage := by
    by_contra hge
    have := h.fresh p (by omega)
    omega
  unfold State.decRefCount
  dsimp only
  by_cases hne : (s.page p).refCount - 1 ≠ 0
  · rw [if_pos hne]
    refine ⟨?_, hst.setPage rfl⟩
    apply h.setPage
    · rfl
    · rfl
    · exact fun _ => rfl
    · exact fun _ => hlt
    · exact fun _ => ⟨fun _ => href, fun _ => Nat.pos_of_ne_zero hne⟩
    · exact fun _ ha => ⟨(h.fixed p href ha).unpinned, (h.fixed p href ha).stored⟩
  rw [if_neg hne]
  rw [not_not] at hne
  rw [hne]
  let s₀ := s.setPage p { s.page p with refCount := 0 }
  have hp₀ : s₀.page p = { s.page p with refCount := 0 } := update_self _ _ _
  have hst₀ : Settled s₀ := hst.setPage rfl
  by_cases ha : (s.page p).isAnon = true
  · rw [if_pos ha]
    have hvalid : s₀.isRemovalStillValid p = true := by
      obtain ⟨h1, h2⟩ := hst₀ p
      rw [hp₀] at h1 h2
      simp only [State.isRemovalStillValid, hp₀]
      simp [h1, h2, ha]
    change Ensures Any (s₀.freeAnonymousPage cfg p) _
    unfold State.freeAnonymousPage
    rw [if_neg (by simp [hvalid]), hp₀]
    cases hb : (s.page p).bytes with
    | none =>
      refine ⟨h.free ha href (fun f => ⟨h.nodup f, fun q hq => ⟨hq, fun hqp => ?_⟩⟩) rfl, hst₀⟩
      exact h.not_mem hb f (hqp ▸ hq)
    | some a =>
      refine leaveFullPage_any.mono fun s' hs => ⟨h.free ha href (fun f => ?_) ?_, ?_⟩
      · have hc : s'.constituentPages = update s.constituentPages (cfg.fullPage a)
            ((s.constituentPages (cfg.fullPage a)).erase p) := by
          rw [hs]
          rfl
        rw [hc]
        by_cases hf : f = cfg.fullPage a
        · rw [hf, update_self]
          refine ⟨(h.nodup _).erase p, fun q hq => ?_⟩
          obtain ⟨hqp, hq⟩ := (h.nodup _).mem_erase_iff.mp hq
          exact ⟨hq, hqp⟩
        · rw [update_of_ne hf]
          refine ⟨h.nodup f, fun q hq => ⟨hq, fun hqp => hf ?_⟩⟩
          obtain ⟨b, hb', rfl⟩ := h.resident f q hq
          rw [hqp, hb] at hb'
          cases hb'
          rfl
      · rw [hs]
      · rw [hs]
        exact hst₀
  · rw [if_neg ha]
    have h₀ : DiskInv cfg once s₀ := by
      apply h.setPage
      · rfl
      · rfl
      · exact fun _ => rfl
      · exact fun _ => hlt
      · exact fun hx => absurd hx ha
      · exact fun _ hx => absurd hx ha
    change Ensures Any (s₀.downToZeroReferences cfg p) _
    unfold State.downToZeroReferences
    by_cases hvalid : ¬ s₀.isRemovalStillValid p = true
    · rw [if_pos hvalid]
      exact ⟨h₀, hst₀⟩
    rw [if_neg hvalid]
    by_cases hb : (s₀.page p).bytes = none
    · rw [if_pos hb, eraseFromAllPages_eq]
      refine ⟨h₀.forget fun key q hq => ?_, hst₀⟩
      unfold State.eraseFromAllPages at hq
      split at hq
      · next set _ =>
        dsimp only at hq
        by_cases hk : key = (set, (s₀.page p).pageNum)
        · rw [hk, update_self] at hq
          cases hq
        · rw [update_of_ne hk] at hq
          exact hq
      · exact hq
    · rw [if_neg hb]
      exact unpin_any h₀ hst₀ hlt

theorem step_any (h : DiskInv cfg once s) (hst : Settled s) {op : Op} (ha : op.Admissible cfg s)
    (honce : once → op.StoresOnce cfg s) : Ensures Any (step cfg op s) fun s' => DiskInv cfg once s' ∧ Settled s' := by
  have hlt {q : ℕ} (href : 0 < (s.page q).refCount) : q < s.nextPage := by
    by_contra hge
    have := h.fresh q (by omega)
    omega
  cases op with
  | getPage maxBytes => exact getPage_any h hst honce
  | getSetPage set i => exact getSetPage_any h hst honce
  | freezeSize p numBytes => exact freezeSize_any h hst
  | unpin p => exact unpin_any h hst (hlt ha)
  | repin p => exact repin_any h hst (hlt ha) (fun _ => ha) honce
  | drop p => exact decRefCount_any h hst ha
  | setDirty p =>
    refine ⟨?_, hst.setPage rfl⟩
    apply h.setPage
    · rfl
    · rfl
    · exact fun _ => rfl
    · exact fun href => hlt href
    · exact fun _ => Iff.rfl
    · exact fun href hanon => ⟨(h.fixed p href hanon).unpinned, (h.fixed p href hanon).stored⟩
  | write p off b =>
    unfold step State.write
    exact getBytes_any.bind fun a _ => ⟨h.congr rfl, hst⟩

theorem diskInv_initialState (cfg : Config) (memory : ℕ → UInt8) (files : ℕ → ℕ → UInt8) :
    DiskInv cfg once (initialState cfg memory files) := by
  refine ⟨⟨fun f => List.nodup_nil, ?_, ?_⟩, fun set => tiles_none.congr fun i => rfl,
    fun _ => tiles_none.congr ?_, fun p _ => rfl, ?_, ?_⟩
  · exact fun f p hp => absurd hp List.not_mem_nil
  · exact fun f p hp => absurd hp List.not_mem_nil
  · rintro (p | ⟨k, j⟩)
    · exact tempExtent_none fun _ href => absurd href (Nat.lt_irrefl 0)
    · rfl
  · exact fun key p hp => nomatch hp
  · exact fun p href => absurd href (Nat.lt_irrefl 0)

theorem diskInv_of_reachable {memory : ℕ → UInt8} {files : ℕ → ℕ → UInt8}
    (h : Reachable (step cfg) (fun op s => op.Admissible cfg s ∧ (once → op.StoresOnce cfg s))
      (· = initialState cfg memory files) s) : DiskInv cfg once s := by
  have hstep : ∀ op s s', DiskInv cfg once s ∧ Settled s → op.Admissible cfg s ∧ (once → op.StoresOnce cfg s) →
      step cfg op s = .ok s' → DiskInv cfg once s' ∧ Settled s' :=
    fun op s s' hs hop he => (step_any hs.1 hs.2 hop.1 hop.2).of_eq_ok he
  refine (h.invariant ?_ hstep).1
  rintro s rfl
  exact ⟨diskInv_initialState cfg memory files, fun _ => ⟨nofun, nofun⟩⟩

theorem diskTiled_of_reachable (cfg : Config) (memory : ℕ → UInt8) (files : ℕ → ℕ → UInt8) (s : State)
    (h : Reachable (step cfg) (fun op s => op.Admissible cfg s ∧ op.StoresOnce cfg s)
      (· = initialState cfg memory files) s) : DiskTiled cfg s := by
  have hinv : DiskInv cfg True s := diskInv_of_reachable (h.mono fun _ _ hop => ⟨hop.1, fun _ => hop.2⟩)
  exact ⟨hinv.sets, hinv.temp trivial⟩

end

instance (s : State) : Decidable s.EvictsOnce :=
  inferInstanceAs (Decidable (∀ e ∈ s.lastUsed.head?, ∀ p ∈ s.constituentPages e.1, (s.page p).isAnon = true →
    (s.page p).dirty = true → (s.page p).location.startPos = -1))

instance (cfg : Config) (op : Op) (s : State) : Decidable (op.StoresOnce cfg s) :=
  inferInstanceAs (Decidable (∀ k ∈ op.neededClass cfg s, s.emptyMiniPages k = [] → s.emptyFullPages = [] →
    s.EvictsOnce))

def tinyConfig : Config where
  logOfMinPageSize := 0
  logOfPageSize := 0
  numPages := 1
  storageLoc := []
  tempFileFD := 0
  openFile _ := some 1

def tinyState : State := initialState tinyConfig (fun _ => 0) fun _ _ => 0

theorem diskTiled_of_reuse : ∃ s, (s.page 0).refCount = 0 ∧ (s.page 1).location.startPos = 0 ∧ s.lastTempPos = 1 ∧
    DiskTiled tinyConfig s := by
  have hrun : (runAll (step tinyConfig) (fun op s => op.Admissible tinyConfig s ∧ op.StoresOnce tinyConfig s)
      [.getPage 1, .unpin 0, .getPage 1, .unpin 1, .drop 0, .getPage 1] tinyState).any
      (fun s => (s.page 0).refCount = 0 ∧ (s.page 1).location.startPos = 0 ∧ s.lastTempPos = 1) = true := by
    decide +kernel
  obtain ⟨s, hs, hp⟩ := (Option.any_eq_true _ _).mp hrun
  obtain ⟨href, hpos, hend⟩ := of_decide_eq_true hp
  refine ⟨s, href, hpos, hend, diskTiled_of_reachable tinyConfig (fun _ => 0) (fun _ _ => 0) s ?_⟩
  exact Reachable.of_runAll (fun op s h => of_decide_eq_true h) (Reachable.start rfl) hs

def rewriteRun : List Op :=
  [.getPage 1, .unpin 0, .getPage 1, .unpin 1, .repin 0, .setDirty 0, .unpin 0, .repin 1]

def rewriteState : Option State :=
  runAll (step tinyConfig) (fun op s => op.Admissible tinyConfig s) rewriteRun tinyState

theorem rewriteState_free (k : ℕ) : rewriteState.map (fun s => s.availablePositions k) = some [] := rfl

theorem rewriteState_fresh (p : ℕ) : rewriteState.map (fun s => (s.page (p + 2)).refCount) = some 0 := rfl

theorem not_diskTiled_rewrite : ∃ s,
    Reachable (step tinyConfig) (fun op s => op.Admissible tinyConfig s) (· = tinyState) s ∧
      ¬ DiskTiled tinyConfig s := by
  have hrun : rewriteState.any (fun s => s.lastTempPos = 3 ∧ (s.page 0).location.startPos = 2 ∧
      (s.page 1).location.startPos = 1) = true := by decide +kernel
  obtain ⟨s, hs, hp⟩ := (Option.any_eq_true _ _).mp hrun
  obtain ⟨hend, h0, h1⟩ := of_decide_eq_true hp
  have hfree (k : ℕ) : s.availablePositions k = [] := by
    have := rewriteState_free k
    rw [hs] at this
    exact Option.some.inj this
  have hfresh (p : ℕ) : (s.page (p + 2)).refCount = 0 := by
    have := rewriteState_fresh p
    rw [hs] at this
    exact Option.some.inj this
  refine ⟨s, Reachable.of_runAll (fun op s h => of_decide_eq_true h) (Reachable.start rfl) hs, fun ht => ?_⟩
  obtain ⟨o, pos, len, ho, hle, -⟩ := ht.temp.covered 0 (Int.le_refl 0) (by omega)
  match o with
  | .inl p =>
    unfold State.tempExtent at ho
    dsimp only at ho
    split_ifs at ho with hc
    simp only [Option.some.injEq, Prod.mk.injEq] at ho
    match p with
    | 0 => omega
    | 1 => omega
    | p + 2 =>
      rw [hfresh p] at hc
      exact absurd hc.2.1 (Nat.lt_irrefl 0)
  | .inr (k, j) => simp [State.tempExtent, hfree] at ho

end PlinyCompute.BufferManager
