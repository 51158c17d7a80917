import PlinyCompute.BufferMemory

namespace PlinyCompute.BufferManager

open Function

variable {cfg : Config} {s s' : State}

theorem eraseEach_spec {xs l : List ℕ} (hx : xs.Nodup) (hl : l.Nodup) (hsub : ∀ x ∈ xs, x ∈ l) :
    ∃ l', eraseEach xs l = .ok l' ∧ l'.Nodup ∧ ∀ y, y ∈ l' ↔ y ∈ l ∧ y ∉ xs := by
  induction xs generalizing l with
  | nil => exact ⟨l, rfl, hl, by simp⟩
  | cons x xs ih =>
    obtain ⟨hnot, hx⟩ := List.nodup_cons.mp hx
    obtain ⟨l', he, hn, hmem⟩ := ih hx (hl.erase x) fun y hy =>
      hl.mem_erase_iff.mpr ⟨fun heq => hnot (heq ▸ hy), hsub y (List.mem_cons_of_mem x hy)⟩
    refine ⟨l', ?_, hn, fun y => ?_⟩
    · rw [eraseEach, eraseOne, if_pos (hsub x (by simp))]
      exact he
    · rw [hmem, hl.mem_erase_iff, List.mem_cons]
      tauto

theorem MemInv.eraseUnused (h : MemInv cfg s) (f : ℕ) :
    ∃ l, eraseEach (s.unusedMiniPages f).1 (s.emptyMiniPages (s.unusedMiniPages f).2) = .ok l ∧
      l.Nodup ∧ ∀ y, y ∈ l ↔ y ∈ s.emptyMiniPages (s.unusedMiniPages f).2 ∧ y ∉ (s.unusedMiniPages f).1 := by
  refine eraseEach_spec (h.unused_nodup f) (h.mini_nodup _) fun a ha => ?_
  rw [h.mini, (h.unused f a ha).fullPage]
  exact ⟨ha, rfl⟩

theorem MemInv.clearUnused_eq (h : MemInv cfg s) (hu : s'.unusedMiniPages = s.unusedMiniPages)
    (hm : s'.emptyMiniPages = s.emptyMiniPages) (f : ℕ) :
    ∃ l, s'.clearUnused f = .ok { s' with
        emptyMiniPages := update s.emptyMiniPages (s.unusedMiniPages f).2 l
        unusedMiniPages := update s.unusedMiniPages f ([], (s.unusedMiniPages f).2) } ∧
      l.Nodup ∧ ∀ y, y ∈ l ↔ y ∈ s.emptyMiniPages (s.unusedMiniPages f).2 ∧ y ∉ (s.unusedMiniPages f).1 := by
  obtain ⟨l, he, hn, hmem⟩ := h.eraseUnused f
  refine ⟨l, ?_, hn, hmem⟩
  rw [State.clearUnused, hu, hm, he]
  rfl

theorem MemInv.fullPage_unique (h : MemInv cfg s) {f g p : ℕ} (hf : p ∈ s.constituentPages f)
    (hg : p ∈ s.constituentPages g) : f = g := by
  obtain ⟨a, ha, hslot, -⟩ := h.resident f p hf
  obtain ⟨b, hb, hslot', -⟩ := h.resident g p hg
  cases ha.symm.trans hb
  rw [← hslot.fullPage, hslot'.fullPage]

theorem MemInv.base (h : MemInv cfg s) {f p : ℕ} (hp : p ∈ s.constituentPages f) :
    cfg.pageSize ∣ f ∧ f < cfg.numPages * cfg.pageSize ∧ f ∉ s.emptyFullPages := by
  obtain ⟨a, -, hslot, -⟩ := h.resident f p hp
  refine ⟨?_, ?_, fun hf => ?_⟩
  · rw [← hslot.fullPage]
    exact cfg.fullPage_dvd a
  · rw [← hslot.fullPage]
    exact (Nat.div_mul_le_self _ _).trans_lt hslot.inMemory
  · rw [(h.full f hf).2.2.1] at hp
    exact List.not_mem_nil hp

structure SameSlot (p q : PDBPage) : Prop where
  bytes : p.bytes = q.bytes
  numBytes : p.location.numBytes = q.location.numBytes
  isAnon : p.isAnon = q.isAnon

theorem MemInv.congr (h : MemInv cfg s) (hp : ∀ q, SameSlot (s'.page q) (s.page q))
    (hlive : ∀ q, s'.Live q → s.Live q) (hnext : s.nextPage ≤ s'.nextPage)
    (hall : ∀ f, ∀ q ∈ s.constituentPages f, ∀ key, s.allPages key = some q → s'.allPages key = some q)
    (hc : s'.constituentPages = s.constituentPages) (hu : s'.unusedMiniPages = s.unusedMiniPages)
    (hm : s'.emptyMiniPages = s.emptyMiniPages) (he : s'.emptyFullPages = s.emptyFullPages) :
    MemInv cfg s' := by
  refine ⟨?_, ?_, ?_, by rw [hc]; exact h.nodup, ?_, by rw [hu]; exact h.unused,
    by rw [hu]; exact h.unused_nodup, by rw [hm]; exact h.mini_nodup, by rw [hm, hu]; exact h.mini,
    by rw [he]; exact h.full_nodup, by rw [he, hc, hu]; exact h.full⟩
  · intro f p hpf
    rw [hc] at hpf
    rw [hu, (hp p).bytes, (hp p).numBytes]
    exact h.resident f p hpf
  · intro f p hpf
    rw [hc] at hpf
    obtain ⟨hlt, hkey⟩ := h.owned f p hpf
    refine ⟨hlt.trans_le hnext, fun ha => ?_⟩
    rw [(hp p).isAnon] at ha
    obtain ⟨key, hk⟩ := hkey ha
    exact ⟨key, hall f p hpf key hk⟩
  · intro p a hl hb
    rw [(hp p).bytes] at hb
    rw [hc]
    exact h.listed p a (hlive p hl) hb
  · intro f p hpf q hqf hb
    rw [hc] at hpf hqf
    rw [(hp p).bytes, (hp q).bytes] at hb
    exact h.inj f p hpf q hqf hb

theorem MemInv.release (h : MemInv cfg s) {f : ℕ} {l : List ℕ} (hbase : cfg.pageSize ∣ f)
    (hlt : f < cfg.numPages * cfg.pageSize) (hf : f ∉ s.emptyFullPages) (hl : l.Nodup)
    (hmem : ∀ y, y ∈ l ↔ y ∈ s.emptyMiniPages (s.unusedMiniPages f).2 ∧ y ∉ (s.unusedMiniPages f).1)
    (hp : ∀ q, q ∉ s.constituentPages f → SameSlot (s'.page q) (s.page q))
    (hlive : ∀ q a, s'.Live q → (s'.page q).bytes = some a → s.Live q ∧ q ∉ s.constituentPages f)
    (hnext : s'.nextPage = s.nextPage)
    (hall : ∀ q, q ∉ s.constituentPages f → ∀ key, s.allPages key = some q → s'.allPages key = some q)
    (hc : s'.constituentPages = update s.constituentPages f [])
    (hu : s'.unusedMiniPages = update s.unusedMiniPages f ([], (s.unusedMiniPages f).2))
    (hm : s'.emptyMiniPages = update s.emptyMiniPages (s.unusedMiniPages f).2 l)
    (he : s'.emptyFullPages = s.emptyFullPages ++ [f]) : MemInv cfg s' := by
  have hmemc : ∀ g p, p ∈ s'.constituentPages g → g ≠ f ∧ p ∈ s.constituentPages g ∧
      p ∉ s.constituentPages f := by
    intro g p hpg
    rw [hc] at hpg
    by_cases hg : g = f
    · simp [hg] at hpg
    · rw [update_of_ne hg] at hpg
      exact ⟨hg, hpg, fun hpf => hg (h.fullPage_unique hpg hpf)⟩
  have hmemu : ∀ g, g ≠ f → s'.unusedMiniPages g = s.unusedMiniPages g := by
    intro g hg
    rw [hu, update_of_ne hg]
  refine ⟨?_, ?_, ?_, ?_, ?_, ?_, ?_, ?_, ?_, ?_, ?_⟩
  · intro g p hpg
    obtain ⟨hg, hpg, hpf⟩ := hmemc g p hpg
    rw [hmemu g hg, (hp p hpf).bytes, (hp p hpf).numBytes]
    exact h.resident g p hpg
  · intro g p hpg
    obtain ⟨hg, hpg, hpf⟩ := hmemc g p hpg
    obtain ⟨hlt, hkey⟩ := h.owned g p hpg
    refine ⟨hnext ▸ hlt, fun ha => ?_⟩
    rw [(hp p hpf).isAnon] at ha
    obtain ⟨key, hk⟩ := hkey ha
    exact ⟨key, hall p hpf key hk⟩
  · intro p a hl hb
    obtain ⟨hl, hpf⟩ := hlive p a hl hb
    rw [(hp p hpf).bytes] at hb
    have hpa := h.listed p a hl hb
    have hne : cfg.fullPage a ≠ f := fun heq => hpf (heq ▸ hpa)
    rw [hc, update_of_ne hne]
    exact hpa
  · intro g
    by_cases hg : g = f
    · simp [hc, hg]
    · rw [hc, update_of_ne hg]
      exact h.nodup g
  · intro g p hpg q hqg hb
    obtain ⟨-, hpg, hpf⟩ := hmemc g p hpg
    obtain ⟨-, hqg, hqf⟩ := hmemc g q hqg
    rw [(hp p hpf).bytes, (hp q hqf).bytes] at hb
    exact h.inj g p hpg q hqg hb
  · intro g a ha
    by_cases hg : g = f
    · simp [hu, hg] at ha
    · rw [hmemu g hg] at ha ⊢
      exact h.unused g a ha
  · intro g
    by_cases hg : g = f
    · simp [hu, hg]
    · rw [hmemu g hg]
      exact h.unused_nodup g
  · intro k
    by_cases hk : k = (s.unusedMiniPages f).2
    · rw [hm, hk, update_self]
      exact hl
    · rw [hm, update_of_ne hk]
      exact h.mini_nodup k
  · intro k a
    by_cases hg : cfg.fullPage a = f
    · have hnot : a ∉ s'.emptyMiniPages k := by
        by_cases hk : k = (s.unusedMiniPages f).2
        · rw [hm, hk, update_self, hmem, h.mini, hg]
          tauto
        · rw [hm, update_of_ne hk, h.mini, hg]
          exact fun hx => hk hx.2.symm
      simp [hu, hg, hnot]
    · rw [hmemu _ hg, ← h.mini k a, hm]
      by_cases hk : k = (s.unusedMiniPages f).2
      · subst hk
        rw [update_self, hmem]
        refine ⟨fun hx => hx.1, fun hx => ⟨hx, fun hx' => ?_⟩⟩
        exact hg (h.unused f a hx').fullPage
      · rw [update_of_ne hk]
  · rw [he, List.nodup_append]
    refine ⟨h.full_nodup, by simp, ?_⟩
    rintro a ha b hb rfl
    rw [List.mem_singleton] at hb
    exact hf (hb ▸ ha)
  · intro g hg
    rw [he, List.mem_append, List.mem_singleton] at hg
    rcases hg with hg | rfl
    · have hgf : g ≠ f := fun heq => hf (heq ▸ hg)
      rw [hc, update_of_ne hgf, hmemu g hgf]
      exact h.full g hg
    · refine ⟨hbase, hlt, by simp [hc], by simp [hu]⟩

theorem MemInv.cut (h : MemInv cfg s) {f k : ℕ} {minis : List ℕ} (hnil : (s.unusedMiniPages f).1 = [])
    (hslot : ∀ a ∈ minis, IsSlot cfg f k a) (hnd : minis.Nodup)
    (hres : ∀ p ∈ s.constituentPages f, ∃ a, (s.page p).bytes = some a ∧ IsSlot cfg f k a ∧
      (s'.page p).location.numBytes = k ∧ a ∉ minis)
    (hb : ∀ q, (s'.page q).bytes = (s.page q).bytes ∧ (s'.page q).isAnon = (s.page q).isAnon ∧
      (s'.page q).refCount = (s.page q).refCount)
    (hp : ∀ q, q ∉ s.constituentPages f → SameSlot (s'.page q) (s.page q))
    (hnext : s'.nextPage = s.nextPage) (hall : s'.allPages = s.allPages)
    (hc : s'.constituentPages = s.constituentPages)
    (hu : s'.unusedMiniPages = update s.unusedMiniPages f (minis, k))
    (hm : s'.emptyMiniPages = update s.emptyMiniPages k (s.emptyMiniPages k ++ minis))
    (he : s'.emptyFullPages.Sublist s.emptyFullPages) (hf : f ∉ s'.emptyFullPages) : MemInv cfg s' := by
  have hmemu : ∀ g, g ≠ f → s'.unusedMiniPages g = s.unusedMiniPages g := by
    intro g hg
    rw [hu, update_of_ne hg]
  have huf : s'.unusedMiniPages f = (minis, k) := by rw [hu, update_self]
  have hold : ∀ l a, a ∈ s.emptyMiniPages l → cfg.fullPage a ≠ f := by
    intro l a ha hfa
    rw [h.mini, hfa, hnil] at ha
    exact List.not_mem_nil ha.1
  refine ⟨?_, ?_, ?_, ?_, ?_, ?_, ?_, ?_, ?_, h.full_nodup.sublist he, ?_⟩
  · intro g p hpg
    rw [hc] at hpg
    by_cases hg : g = f
    · subst hg
      rw [huf, (hb p).1]
      exact hres p hpg
    · have hpf : p ∉ s.constituentPages f := fun hpf => hg (h.fullPage_unique hpg hpf)
      rw [hmemu g hg, (hb p).1, (hp p hpf).numBytes]
      exact h.resident g p hpg
  · intro g p hpg
    rw [hc] at hpg
    rw [hnext, hall, (hb p).2.1]
    exact h.owned g p hpg
  · intro p a hl hba
    rw [(hb p).1] at hba
    rw [hc]
    refine h.listed p a ?_ hba
    unfold State.Live at hl ⊢
    rwa [(hb p).2.2, hall] at hl
  · rw [hc]
    exact h.nodup
  · intro g p hpg q hqg hpq
    rw [hc] at hpg hqg
    rw [(hb p).1, (hb q).1] at hpq
    exact h.inj g p hpg q hqg hpq
  · intro g a ha
    by_cases hg : g = f
    · subst hg
      rw [huf] at ha ⊢
      exact hslot a ha
    · rw [hmemu g hg] at ha ⊢
      exact h.unused g a ha
  · intro g
    by_cases hg : g = f
    · subst hg
      rw [huf]
      exact hnd
    · rw [hmemu g hg]
      exact h.unused_nodup g
  · intro l
    by_cases hl : l = k
    · subst hl
      rw [hm, update_self, List.nodup_append]
      refine ⟨h.mini_nodup l, hnd, ?_⟩
      rintro a ha b hbm rfl
      exact hold l a ha (hslot a hbm).fullPage
    · rw [hm, update_of_ne hl]
      exact h.mini_nodup l
  · intro l a
    by_cases hg : cfg.fullPage a = f
    · rw [hg, huf, hm]
      by_cases hl : l = k
      · subst hl
        rw [update_self, List.mem_append]
        exact ⟨fun hx => ⟨hx.resolve_left fun hx => hold l a hx hg, rfl⟩, fun hx => Or.inr hx.1⟩
      · rw [update_of_ne hl]
        exact ⟨fun hx => absurd hg (hold l a hx), fun hx => absurd hx.2.symm hl⟩
    · rw [hmemu _ hg, ← h.mini l a, hm]
      by_cases hl : l = k
      · subst hl
        rw [update_self, List.mem_append]
        exact ⟨fun hx => hx.resolve_right fun hx => hg (hslot a hx).fullPage, Or.inl⟩
      · rw [update_of_ne hl]
  · intro g hg
    have hgf : g ≠ f := fun heq => hf (heq ▸ hg)
    rw [hc, hmemu g hgf]
    exact h.full g (he.subset hg)

structure Hole (cfg : Config) (s : State) (k a : ℕ) : Prop where
  slot : IsSlot cfg (cfg.fullPage a) k a
  class_eq : (s.unusedMiniPages (cfg.fullPage a)).2 = k
  not_unused : a ∉ (s.unusedMiniPages (cfg.fullPage a)).1
  not_page : ∀ p ∈ s.constituentPages (cfg.fullPage a), (s.page p).bytes ≠ some a
  not_full : cfg.fullPage a ∉ s.emptyFullPages

theorem mem_dropLast_iff {l : List ℕ} {a : ℕ} (hl : l.Nodup) (ha : l.getLast? = some a) (x : ℕ) :
    x ∈ l.dropLast ↔ x ∈ l ∧ x ≠ a := by
  obtain ⟨l', rfl⟩ : ∃ l', l = l' ++ [a] := List.getLast?_eq_some_iff.mp ha
  rw [List.dropLast_concat, List.mem_append, List.mem_singleton]
  have hd := (List.nodup_append.mp hl).2.2
  constructor
  · exact fun hx => ⟨Or.inl hx, fun heq => hd x hx a (by simp) heq⟩
  · exact fun hx => hx.1.resolve_right hx.2

theorem MemInv.take (h : MemInv cfg s) {k a : ℕ} (ha : (s.emptyMiniPages k).getLast? = some a)
    (hp : s'.page = s.page) (hnext : s'.nextPage = s.nextPage) (hall : s'.allPages = s.allPages)
    (hc : s'.constituentPages = s.constituentPages)
    (hu : s'.unusedMiniPages = update s.unusedMiniPages (cfg.fullPage a)
      ((s.unusedMiniPages (cfg.fullPage a)).1.erase a, (s.unusedMiniPages (cfg.fullPage a)).2))
    (hm : s'.emptyMiniPages = update s.emptyMiniPages k (s.emptyMiniPages k).dropLast)
    (he : s'.emptyFullPages = s.emptyFullPages) : MemInv cfg s' ∧ Hole cfg s' k a := by
  have hmem : a ∈ s.emptyMiniPages k := List.mem_of_getLast? ha
  obtain ⟨hua, hk⟩ := (h.mini k a).mp hmem
  have hnda := h.unused_nodup (cfg.fullPage a)
  have hclass : ∀ g, (s'.unusedMiniPages g).2 = (s.unusedMiniPages g).2 := by
    intro g
    by_cases hg : g = cfg.fullPage a
    · rw [hu, hg, update_self]
    · rw [hu, update_of_ne hg]
  have hunused : ∀ g x, x ∈ (s'.unusedMiniPages g).1 ↔ x ∈ (s.unusedMiniPages g).1 ∧ x ≠ a := by
    intro g x
    by_cases hg : g = cfg.fullPage a
    · subst hg
      rw [hu, update_self, hnda.mem_erase_iff]
      exact And.comm
    · rw [hu, update_of_ne hg]
      refine ⟨fun hx => ⟨hx, fun heq => hg ?_⟩, fun hx => hx.1⟩
      rw [← (h.unused g x hx).fullPage, heq]
  have hlive : ∀ q, s'.Live q ↔ s.Live q := by
    intro q
    unfold State.Live
    rw [hp, hall]
  refine ⟨⟨?_, ?_, ?_, by rw [hc]; exact h.nodup, by rw [hc, hp]; exact h.inj, ?_, ?_, ?_, ?_,
    by rw [he]; exact h.full_nodup, ?_⟩, ?_, ?_, ?_, ?_, ?_⟩
  · intro f p hpf
    rw [hc] at hpf
    obtain ⟨b, hb, hslot, hn, hnot⟩ := h.resident f p hpf
    rw [hp, hclass]
    exact ⟨b, hb, hslot, hn, fun hx => hnot ((hunused f b).mp hx).1⟩
  · rw [hc, hp, hnext, hall]
    exact h.owned
  · intro p b hl hb
    rw [hp] at hb
    rw [hc]
    exact h.listed p b ((hlive p).mp hl) hb
  · intro f x hx
    rw [hclass]
    exact h.unused f x ((hunused f x).mp hx).1
  · intro g
    by_cases hg : g = cfg.fullPage a
    · rw [hu, hg, update_self]
      exact hnda.erase a
    · rw [hu, update_of_ne hg]
      exact h.unused_nodup g
  · intro l
    by_cases hl : l = k
    · rw [hm, hl, update_self]
      exact (h.mini_nodup k).sublist (List.dropLast_sublist _)
    · rw [hm, update_of_ne hl]
      exact h.mini_nodup l
  · intro l x
    rw [hunused, hclass, hm]
    by_cases hl : l = k
    · subst hl
      rw [update_self, mem_dropLast_iff (h.mini_nodup l) ha, h.mini]
      tauto
    · rw [update_of_ne hl, h.mini]
      refine ⟨fun hx => ⟨⟨hx.1, ?_⟩, hx.2⟩, fun hx => ⟨hx.1.1, hx.2⟩⟩
      rintro rfl
      exact hl (hx.2.symm.trans hk)
  · intro f hf
    rw [he] at hf
    obtain ⟨h1, h2, h3, h4⟩ := h.full f hf
    rw [hc]
    refine ⟨h1, h2, h3, List.eq_nil_iff_forall_not_mem.mpr fun x hx => ?_⟩
    have := ((hunused f x).mp hx).1
    rw [h4] at this
    exact List.not_mem_nil this
  · rw [← hk]
    exact h.unused _ a hua
  · rw [hclass, hk]
  · exact fun hx => ((hunused _ a).mp hx).2 rfl
  · intro p hpf hb
    rw [hc] at hpf
    rw [hp] at hb
    obtain ⟨b, hb', -, -, hn⟩ := h.resident _ p hpf
    cases hb.symm.trans hb'
    exact hn hua
  · rw [he]
    intro hf
    rw [(h.full _ hf).2.2.2] at hua
    exact List.not_mem_nil hua

theorem MemInv.register (h : MemInv cfg s) {k a p : ℕ} (hole : Hole cfg s k a)
    (hnew : ∀ g, p ∉ s.constituentPages g) (hb : (s'.page p).bytes = some a)
    (hk : (s'.page p).location.numBytes = k) (hp : ∀ q, q ≠ p → SameSlot (s'.page q) (s.page q))
    (hlive : ∀ q, q ≠ p → s'.Live q → s.Live q) (hnext : s.nextPage ≤ s'.nextPage)
    (hall : ∀ f, ∀ q ∈ s.constituentPages f, ∀ key, s.allPages key = some q → s'.allPages key = some q)
    (hown : p < s'.nextPage ∧ ((s'.page p).isAnon = false → ∃ key, s'.allPages key = some p))
    (hc : s'.constituentPages = update s.constituentPages (cfg.fullPage a)
      (s.constituentPages (cfg.fullPage a) ++ [p]))
    (hu : s'.unusedMiniPages = s.unusedMiniPages) (hm : s'.emptyMiniPages = s.emptyMiniPages)
    (he : s'.emptyFullPages = s.emptyFullPages) : MemInv cfg s' := by
  have hmemc : ∀ g q, q ∈ s'.constituentPages g ↔ q ∈ s.constituentPages g ∨ g = cfg.fullPage a ∧ q = p := by
    intro g q
    by_cases hg : g = cfg.fullPage a
    · rw [hc, hg, update_self, List.mem_append, List.mem_singleton]
      tauto
    · rw [hc, update_of_ne hg]
      tauto
  have hne : ∀ g q, q ∈ s.constituentPages g → q ≠ p := fun g q hq heq => hnew g (heq ▸ hq)
  refine ⟨?_, ?_, ?_, ?_, ?_, by rw [hu]; exact h.unused, by rw [hu]; exact h.unused_nodup,
    by rw [hm]; exact h.mini_nodup, by rw [hm, hu]; exact h.mini, by rw [he]; exact h.full_nodup, ?_⟩
  · intro g q hq
    rw [hu]
    rcases (hmemc g q).mp hq with hq | ⟨rfl, rfl⟩
    · have hqp := hp q (hne g q hq)
      rw [hqp.bytes, hqp.numBytes]
      exact h.resident g q hq
    · refine ⟨a, hb, ?_, by rw [hk, hole.class_eq], hole.not_unused⟩
      rw [hole.class_eq]
      exact hole.slot
  · intro g q hq
    rcases (hmemc g q).mp hq with hq | ⟨-, rfl⟩
    · obtain ⟨hlt, hkey⟩ := h.owned g q hq
      refine ⟨hlt.trans_le hnext, fun ha => ?_⟩
      rw [(hp q (hne g q hq)).isAnon] at ha
      obtain ⟨key, hkq⟩ := hkey ha
      exact ⟨key, hall g q hq key hkq⟩
    · exact hown
  · intro q b hl hbq
    rw [hmemc]
    by_cases hqp : q = p
    · subst hqp
      cases hb.symm.trans hbq
      exact Or.inr ⟨rfl, rfl⟩
    · rw [(hp q hqp).bytes] at hbq
      exact Or.inl (h.listed q b (hlive q hqp hl) hbq)
  · intro g
    by_cases hg : g = cfg.fullPage a
    · rw [hc, hg, update_self, List.nodup_append]
      refine ⟨h.nodup _, by simp, ?_⟩
      rintro q hq r hr rfl
      rw [List.mem_singleton] at hr
      exact hnew _ (hr ▸ hq)
    · rw [hc, update_of_ne hg]
      exact h.nodup g
  · intro g q hq r hr hqr
    rcases (hmemc g q).mp hq with hq | ⟨hg, rfl⟩
    · have hqp := hne g q hq
      rcases (hmemc g r).mp hr with hr | ⟨rfl, rfl⟩
      · rw [(hp q hqp).bytes, (hp r (hne g r hr)).bytes] at hqr
        exact h.inj g q hq r hr hqr
      · rw [(hp q hqp).bytes, hb] at hqr
        exact absurd hqr (hole.not_page q hq)
    · rcases (hmemc g r).mp hr with hr | ⟨-, rfl⟩
      · subst hg
        rw [(hp r (hne _ r hr)).bytes, hb] at hqr
        exact absurd hqr.symm (hole.not_page r hr)
      · rfl
  · intro f hf
    rw [he] at hf
    have hfa : f ≠ cfg.fullPage a := fun heq => hole.not_full (heq ▸ hf)
    rw [hc, update_of_ne hfa, hu]
    exact h.full f hf

theorem MemInv.leave (h : MemInv cfg s) {f a p : ℕ} (hpf : p ∈ s.constituentPages f)
    (hb : (s.page p).bytes = some a) (hp : ∀ q, q ≠ p → SameSlot (s'.page q) (s.page q))
    (hlive : ∀ q, s'.Live q → q ≠ p ∧ s.Live q) (hnext : s'.nextPage = s.nextPage)
    (hall : ∀ q, q ≠ p → ∀ key, s.allPages key = some q → s'.allPages key = some q)
    (hc : s'.constituentPages = update s.constituentPages f ((s.constituentPages f).erase p))
    (hu : s'.unusedMiniPages = s.unusedMiniPages) (hm : s'.emptyMiniPages = s.emptyMiniPages)
    (he : s'.emptyFullPages = s.emptyFullPages) : MemInv cfg s' ∧ Hole cfg s' (s.unusedMiniPages f).2 a := by
  obtain ⟨a', hb', hslot, -, hnot⟩ := h.resident f p hpf
  cases hb.symm.trans hb'
  have hfa := hslot.fullPage
  have hnfull := (h.base hpf).2.2
  have hmemc : ∀ g q, q ∈ s'.constituentPages g ↔ q ∈ s.constituentPages g ∧ q ≠ p := by
    intro g q
    by_cases hg : g = f
    · subst hg
      rw [hc, update_self, (h.nodup g).mem_erase_iff]
      exact And.comm
    · rw [hc, update_of_ne hg]
      refine ⟨fun hq => ⟨hq, fun heq => hg ?_⟩, fun hq => hq.1⟩
      subst heq
      exact h.fullPage_unique hq hpf
  have hmem : MemInv cfg s' := by
    refine ⟨?_, ?_, ?_, ?_, ?_, by rw [hu]; exact h.unused, by rw [hu]; exact h.unused_nodup,
      by rw [hm]; exact h.mini_nodup, by rw [hm, hu]; exact h.mini, by rw [he]; exact h.full_nodup, ?_⟩
    · intro g q hq
      obtain ⟨hq, hqp⟩ := (hmemc g q).mp hq
      rw [(hp q hqp).bytes, (hp q hqp).numBytes, hu]
      exact h.resident g q hq
    · intro g q hq
      obtain ⟨hq, hqp⟩ := (hmemc g q).mp hq
      rw [hnext, (hp q hqp).isAnon]
      obtain ⟨hlt, hkey⟩ := h.owned g q hq
      exact ⟨hlt, fun ha => (hkey ha).imp fun key => hall q hqp key⟩
    · intro q b hl hbq
      obtain ⟨hqp, hl⟩ := hlive q hl
      rw [(hp q hqp).bytes] at hbq
      exact (hmemc _ q).mpr ⟨h.listed q b hl hbq, hqp⟩
    · intro g
      by_cases hg : g = f
      · rw [hc, hg, update_self]
        exact (h.nodup f).erase p
      · rw [hc, update_of_ne hg]
        exact h.nodup g
    · intro g q hq r hr hqr
      obtain ⟨hq, hqp⟩ := (hmemc g q).mp hq
      obtain ⟨hr, hrp⟩ := (hmemc g r).mp hr
      rw [(hp q hqp).bytes, (hp r hrp).bytes] at hqr
      exact h.inj g q hq r hr hqr
    · intro g hg
      rw [he] at hg
      have hgf : g ≠ f := fun heq => hnfull (heq ▸ hg)
      rw [hc, hu, update_of_ne hgf]
      exact h.full g hg
  refine ⟨hmem, by rw [hfa]; exact hslot, by rw [hu, hfa], by rw [hu, hfa]; exact hnot, fun q hq hbq => ?_,
    by rw [he, hfa]; exact hnfull⟩
  rw [hfa] at hq
  obtain ⟨hq, hqp⟩ := (hmemc f q).mp hq
  rw [(hp q hqp).bytes, ← hb] at hbq
  exact hqp (h.inj f q hq p hpf hbq)

theorem MemInv.offer (h : MemInv cfg s) {k f a : ℕ} (hole : Hole cfg s k a) (hfa : cfg.fullPage a = f)
    (hpage : s'.page = s.page) (hnext : s'.nextPage = s.nextPage) (hall : s'.allPages = s.allPages)
    (hc : s'.constituentPages = s.constituentPages)
    (hu : s'.unusedMiniPages = update s.unusedMiniPages f ((s.unusedMiniPages f).1 ++ [a], (s.unusedMiniPages f).2))
    (hm : s'.emptyMiniPages = update s.emptyMiniPages k (s.emptyMiniPages k ++ [a]))
    (he : s'.emptyFullPages = s.emptyFullPages) : MemInv cfg s' := by
  obtain ⟨hslot, hclass_f, hnot, hnpage, hnfull⟩ := hole
  rw [hfa] at hslot hclass_f hnot hnpage hnfull
  have hclass : ∀ g, (s'.unusedMiniPages g).2 = (s.unusedMiniPages g).2 := by
    intro g
    by_cases hg : g = f
    · rw [hu, hg, update_self]
    · rw [hu, update_of_ne hg]
  have hunused : ∀ g x, x ∈ (s'.unusedMiniPages g).1 ↔
      x ∈ (s.unusedMiniPages g).1 ∨ g = f ∧ x = a := by
    intro g x
    by_cases hg : g = f
    · rw [hu, hg, update_self, List.mem_append, List.mem_singleton]
      tauto
    · rw [hu, update_of_ne hg]
      tauto
  have hmini : a ∉ s.emptyMiniPages k := by
    rw [h.mini, hfa]
    exact fun hx => hnot hx.1
  refine ⟨?_, ?_, ?_, by rw [hc]; exact h.nodup, by rw [hc, hpage]; exact h.inj, ?_, ?_, ?_, ?_,
    by rw [he]; exact h.full_nodup, ?_⟩
  · intro g q hq
    rw [hc] at hq
    obtain ⟨b, hbq, hs, hn, hnu⟩ := h.resident g q hq
    rw [hpage, hclass]
    refine ⟨b, hbq, hs, hn, fun hx => ?_⟩
    rcases (hunused g b).mp hx with hx | ⟨rfl, rfl⟩
    · exact hnu hx
    · exact hnpage q hq hbq
  · intro g q hq
    rw [hc] at hq
    rw [hnext, hall, hpage]
    exact h.owned g q hq
  · intro q b hl hbq
    unfold State.Live at hl
    rw [hpage, hall] at hl
    rw [hpage] at hbq
    rw [hc]
    exact h.listed q b hl hbq
  · intro g x hx
    rw [hclass]
    rcases (hunused g x).mp hx with hx | ⟨rfl, rfl⟩
    · exact h.unused g x hx
    · rw [hclass_f]
      exact hslot
  · intro g
    by_cases hg : g = f
    · rw [hu, hg, update_self]
      exact List.nodup_append.mpr ⟨h.unused_nodup f, by simp, by
        rintro x hx y hy rfl
        rw [List.mem_singleton] at hy
        exact hnot (hy ▸ hx)⟩
    · rw [hu, update_of_ne hg]
      exact h.unused_nodup g
  · intro l
    by_cases hl : l = k
    · rw [hm, hl, update_self]
      exact List.nodup_append.mpr ⟨h.mini_nodup _, by simp, by
        rintro x hx y hy rfl
        rw [List.mem_singleton] at hy
        exact hmini (hy ▸ hx)⟩
    · rw [hm, update_of_ne hl]
      exact h.mini_nodup l
  · intro l x
    rw [hunused, hclass, hm]
    by_cases hl : l = k
    · subst hl
      rw [update_self, List.mem_append, List.mem_singleton, h.mini]
      constructor
      · rintro (hx | rfl)
        · exact ⟨Or.inl hx.1, hx.2⟩
        · rw [hfa]
          exact ⟨Or.inr ⟨rfl, rfl⟩, hclass_f⟩
      · rintro ⟨hx | ⟨-, rfl⟩, hx'⟩
        · exact Or.inl ⟨hx, hx'⟩
        · exact Or.inr rfl
    · rw [update_of_ne hl, h.mini]
      refine ⟨fun hx => ⟨Or.inl hx.1, hx.2⟩, ?_⟩
      rintro ⟨hx | ⟨hg, rfl⟩, hx'⟩
      · exact ⟨hx, hx'⟩
      · rw [hg, hclass_f] at hx'
        exact absurd hx'.symm hl
  · intro g hg
    rw [he] at hg
    have hgf : g ≠ f := fun heq => hnfull (heq ▸ hg)
    rw [hc, hu, update_of_ne hgf]
    exact h.full g hg

theorem MemInv.giveBack (h : MemInv cfg s) {f a p : ℕ} (hpf : p ∈ s.constituentPages f)
    (hb : (s.page p).bytes = some a) (hp : ∀ q, q ≠ p → SameSlot (s'.page q) (s.page q))
    (hlive : ∀ q, s'.Live q → q ≠ p ∧ s.Live q) (hnext : s'.nextPage = s.nextPage)
    (hall : ∀ q, q ≠ p → ∀ key, s.allPages key = some q → s'.allPages key = some q)
    (hc : s'.constituentPages = update s.constituentPages f ((s.constituentPages f).erase p))
    (hu : s'.unusedMiniPages = update s.unusedMiniPages f
      ((s.unusedMiniPages f).1 ++ [a], (s.unusedMiniPages f).2))
    (hm : s'.emptyMiniPages = update s.emptyMiniPages (s.unusedMiniPages f).2
      (s.emptyMiniPages (s.unusedMiniPages f).2 ++ [a]))
    (he : s'.emptyFullPages = s.emptyFullPages) : MemInv cfg s' := by
  obtain ⟨a', hb', hslot, -⟩ := h.resident f p hpf
  cases hb.symm.trans hb'
  let s₁ : State := { s' with unusedMiniPages := s.unusedMiniPages, emptyMiniPages := s.emptyMiniPages }
  obtain ⟨hmem, hole⟩ : MemInv cfg s₁ ∧ Hole cfg s₁ (s.unusedMiniPages f).2 a :=
    h.leave hpf hb hp hlive hnext hall hc rfl rfl he
  exact hmem.offer hole hslot.fullPage rfl rfl rfl rfl hu hm rfl

end PlinyCompute.BufferManager
