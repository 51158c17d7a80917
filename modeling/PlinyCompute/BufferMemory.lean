import Mathlib.Data.List.Nodup
import Mathlib.Data.List.Range
import PlinyCompute.BufferManager
import PlinyCompute.ByteRange

namespace PlinyCompute.BufferManager

open ByteRange Function

variable {cfg : Config} {s : State}

namespace Config

theorem miniPageSize_eq {k : ℕ} (h : cfg.miniPageSize k ≠ 0) :
    cfg.miniPageSize k = 2 ^ (cfg.logOfMinPageSize + k) := by
  unfold miniPageSize minPageSize at h ⊢
  rw [Nat.shiftLeft_eq, ← Nat.pow_add] at h ⊢
  by_cases hlt : cfg.logOfMinPageSize + k < 32
  · exact Nat.mod_eq_of_lt (Nat.pow_lt_pow_right (by omega) hlt)
  · exact absurd (Nat.mod_eq_zero_of_dvd (Nat.pow_dvd_pow 2 (by omega))) h

theorem pageSize_eq (cfg : Config) : cfg.pageSize = 2 ^ (cfg.logOfMinPageSize + cfg.logOfPageSize) := by
  rw [pageSize, minPageSize, ← Nat.pow_add]

theorem pageSize_pos (cfg : Config) : 0 < cfg.pageSize := by
  rw [pageSize_eq]
  exact Nat.two_pow_pos _

theorem miniPageSize_dvd {k : ℕ} (h : cfg.miniPageSize k ≠ 0) (hk : k ≤ cfg.logOfPageSize) :
    cfg.miniPageSize k ∣ cfg.pageSize := by
  rw [miniPageSize_eq h, pageSize_eq]
  exact Nat.pow_dvd_pow 2 (by omega)

theorem fullPage_dvd (cfg : Config) (a : ℕ) : cfg.pageSize ∣ cfg.fullPage a := Nat.dvd_mul_left _ _

theorem fullPage_of_dvd {f : ℕ} (h : cfg.pageSize ∣ f) : cfg.fullPage f = f := Nat.div_mul_cancel h

theorem fullPage_add {f off : ℕ} (h : cfg.pageSize ∣ f) (ho : off < cfg.pageSize) :
    cfg.fullPage (f + off) = f := by
  obtain ⟨i, rfl⟩ := h
  unfold fullPage
  rw [Nat.mul_add_div cfg.pageSize_pos, Nat.div_eq_of_lt ho, Nat.add_zero, Nat.mul_comm]

end Config

structure IsSlot (cfg : Config) (f k a : ℕ) : Prop where
  fullPage : cfg.fullPage a = f
  inMemory : a < cfg.numPages * cfg.pageSize
  aligned : cfg.miniPageSize k ∣ a
  class_le : k ≤ cfg.logOfPageSize
  size_ne : cfg.miniPageSize k ≠ 0

theorem IsSlot.end_le {f k a : ℕ} (h : IsSlot cfg f k a) : a + cfg.miniPageSize k ≤ f + cfg.pageSize := by
  have he := add_le_block_end (Config.miniPageSize_dvd h.size_ne h.class_le) h.aligned cfg.pageSize_pos
  rw [← h.fullPage]
  exact he

theorem IsSlot.apart {f k a b : ℕ} (ha : IsSlot cfg f k a) (hb : IsSlot cfg f k b) (hab : a ≠ b) :
    Apart a (cfg.miniPageSize k) b (cfg.miniPageSize k) := apart_of_dvd ha.aligned hb.aligned hab

theorem IsSlot.apart_of_ne {f g k l a b : ℕ} (ha : IsSlot cfg f k a) (hb : IsSlot cfg g l b) (hfg : f ≠ g) :
    Apart a (cfg.miniPageSize k) b (cfg.miniPageSize l) := by
  have hA := ha.end_le
  have hB := hb.end_le
  have hf := ha.fullPage
  have hg := hb.fullPage
  subst hf hg
  exact apart_of_block_ne hA hB hfg

theorem IsSlot.eq_fullPage {f a : ℕ} (h : IsSlot cfg f cfg.logOfPageSize a) : a = f := by
  have hd := h.aligned
  rw [Config.miniPageSize_eq h.size_ne, ← Config.pageSize_eq] at hd
  rw [← h.fullPage, Config.fullPage_of_dvd hd]

theorem of_mem_offsets {N inc fuel off x : ℕ} (h : x ∈ offsets N inc fuel off) :
    x < N ∧ ∃ i, x = off + i * inc := by
  induction fuel generalizing off with
  | zero => simp [offsets] at h
  | succ fuel ih =>
    rw [offsets] at h
    split_ifs at h with ho
    · rcases List.mem_cons.mp h with rfl | h
      · exact ⟨ho, 0, by simp⟩
      · obtain ⟨hx, i, rfl⟩ := ih h
        exact ⟨hx, i + 1, by rw [Nat.succ_mul]; omega⟩
    · simp at h

theorem offsets_nodup {N inc : ℕ} (hinc : 0 < inc) (fuel off : ℕ) : (offsets N inc fuel off).Nodup := by
  induction fuel generalizing off with
  | zero => exact List.nodup_nil
  | succ fuel ih =>
    rw [offsets]
    split_ifs with ho
    · refine List.nodup_cons.mpr ⟨fun hmem => ?_, ih _⟩
      obtain ⟨-, i, hi⟩ := of_mem_offsets hmem
      have := Nat.zero_le (i * inc)
      omega
    · exact List.nodup_nil

theorem isSlot_of_mem_offsets {f k start x : ℕ} (hf : cfg.pageSize ∣ f)
    (hm : f < cfg.numPages * cfg.pageSize) (hk : k ≤ cfg.logOfPageSize) (hs : cfg.miniPageSize k ≠ 0)
    (hstart : cfg.miniPageSize k ∣ start)
    (hx : x ∈ offsets cfg.pageSize (cfg.miniPageSize k) cfg.pageSize start) : IsSlot cfg f k (f + x) := by
  obtain ⟨hlt, i, rfl⟩ := of_mem_offsets hx
  have hd := Config.miniPageSize_dvd hs hk
  refine ⟨Config.fullPage_add hf hlt, ?_, ?_, hk, hs⟩
  · obtain ⟨j, rfl⟩ := hf
    rw [Nat.mul_comm] at hm
    have hj : j + 1 ≤ cfg.numPages := Nat.lt_of_mul_lt_mul_right hm
    have := Nat.mul_le_mul_right cfg.pageSize hj
    rw [Nat.succ_mul, Nat.mul_comm j] at this
    omega
  · exact Nat.dvd_add (hd.trans hf) (Nat.dvd_add hstart (Nat.dvd_mul_left _ _))

def State.Live (s : State) (p : ℕ) : Prop := 0 < (s.page p).refCount ∨ ∃ key, s.allPages key = some p

structure RefInv (s : State) : Prop where
  key : ∀ key p, s.allPages key = some p → p < s.nextPage ∧ (s.page p).isAnon = false ∧
    (s.page p).whichSet = some key.1 ∧ (s.page p).pageNum = key.2
  held : ∀ p, 0 < (s.page p).refCount → p < s.nextPage ∧
    ((s.page p).isAnon = false → ∃ key, s.allPages key = some p)
  anon : ∀ p, (s.page p).isAnon = true → (s.page p).whichSet = none
  opened : ∀ key p, s.allPages key = some p → ∃ fd, s.fds key.1 = some fd

structure MemInv (cfg : Config) (s : State) : Prop where
  resident : ∀ f, ∀ p ∈ s.constituentPages f, ∃ a, (s.page p).bytes = some a ∧
    IsSlot cfg f (s.unusedMiniPages f).2 a ∧ (s.page p).location.numBytes = (s.unusedMiniPages f).2 ∧
    a ∉ (s.unusedMiniPages f).1
  owned : ∀ f, ∀ p ∈ s.constituentPages f, p < s.nextPage ∧
    ((s.page p).isAnon = false → ∃ key, s.allPages key = some p)
  listed : ∀ p a, s.Live p → (s.page p).bytes = some a → p ∈ s.constituentPages (cfg.fullPage a)
  nodup : ∀ f, (s.constituentPages f).Nodup
  inj : ∀ f, ∀ p ∈ s.constituentPages f, ∀ q ∈ s.constituentPages f,
    (s.page p).bytes = (s.page q).bytes → p = q
  unused : ∀ f, ∀ a ∈ (s.unusedMiniPages f).1, IsSlot cfg f (s.unusedMiniPages f).2 a
  unused_nodup : ∀ f, (s.unusedMiniPages f).1.Nodup
  mini_nodup : ∀ k, (s.emptyMiniPages k).Nodup
  mini : ∀ k a, a ∈ s.emptyMiniPages k ↔
    a ∈ (s.unusedMiniPages (cfg.fullPage a)).1 ∧ (s.unusedMiniPages (cfg.fullPage a)).2 = k
  full_nodup : s.emptyFullPages.Nodup
  full : ∀ f ∈ s.emptyFullPages, cfg.pageSize ∣ f ∧ f < cfg.numPages * cfg.pageSize ∧
    s.constituentPages f = [] ∧ (s.unusedMiniPages f).1 = []

inductive Owner
  | page (p : ℕ) | mini (a : ℕ) | full (f : ℕ)

/-- The byte ranges in the tables of the manager. A free mini-page is listed in `emptyMiniPages` and in
`unusedMiniPages`. -/
inductive Occupies (cfg : Config) (s : State) : Owner → ℕ → ℕ → Prop
  | resident {p a : ℕ} : s.Live p → (s.page p).bytes = some a →
      Occupies cfg s (.page p) a (cfg.miniPageSize (s.page p).location.numBytes)
  | empty {k a : ℕ} : a ∈ s.emptyMiniPages k → Occupies cfg s (.mini a) a (cfg.miniPageSize k)
  | unused {f a : ℕ} : a ∈ (s.unusedMiniPages f).1 →
      Occupies cfg s (.mini a) a (cfg.miniPageSize (s.unusedMiniPages f).2)
  | full {f : ℕ} : f ∈ s.emptyFullPages → Occupies cfg s (.full f) f cfg.pageSize

structure NoAliasing (cfg : Config) (s : State) : Prop where
  apart : ∀ o a n o' a' n', Occupies cfg s o a n → Occupies cfg s o' a' n' →
    (o = o' ∧ a = a' ∧ n = n') ∨ Apart a n a' n'
  inside : ∀ o a n, Occupies cfg s o a n →
    ∃! i, i < cfg.numPages ∧ i * cfg.pageSize ≤ a ∧ a + n ≤ (i + 1) * cfg.pageSize
  distinct : (∀ k, (s.emptyMiniPages k).Nodup) ∧ (∀ f, (s.unusedMiniPages f).1.Nodup) ∧
    s.emptyFullPages.Nodup ∧ ∀ f g, ∀ a ∈ (s.unusedMiniPages f).1, a ∈ (s.unusedMiniPages g).1 → f = g

theorem MemInv.occupies_cases (h : MemInv cfg s) {o : Owner} {a n : ℕ} (ho : Occupies cfg s o a n) :
    (∃ f k, IsSlot cfg f k a ∧ n = cfg.miniPageSize k ∧ f ∉ s.emptyFullPages ∧
      k = (s.unusedMiniPages f).2 ∧
      ((∃ p ∈ s.constituentPages f, (s.page p).bytes = some a ∧ o = .page p) ∨
        a ∈ (s.unusedMiniPages f).1 ∧ o = .mini a)) ∨
      (a ∈ s.emptyFullPages ∧ n = cfg.pageSize ∧ o = .full a) := by
  cases ho with
  | @resident p a hl hb =>
    have hp := h.listed p a hl hb
    obtain ⟨a', hb', hslot, hk, -⟩ := h.resident _ p hp
    cases hb.symm.trans hb'
    refine Or.inl ⟨_, _, hslot, by rw [hk], fun hf => ?_, rfl, Or.inl ⟨p, hp, hb, rfl⟩⟩
    rw [(h.full _ hf).2.2.1] at hp
    exact List.not_mem_nil hp
  | @empty k a ha =>
    obtain ⟨hu, rfl⟩ := (h.mini k a).mp ha
    refine Or.inl ⟨_, _, h.unused _ a hu, rfl, fun hf => ?_, rfl, Or.inr ⟨hu, rfl⟩⟩
    rw [(h.full _ hf).2.2.2] at hu
    exact List.not_mem_nil hu
  | @unused f a hu =>
    refine Or.inl ⟨f, _, h.unused f a hu, rfl, fun hf => ?_, rfl, Or.inr ⟨hu, rfl⟩⟩
    rw [(h.full _ hf).2.2.2] at hu
    exact List.not_mem_nil hu
  | full hf => exact Or.inr ⟨hf, rfl, rfl⟩

theorem apart_of_full {f g k a : ℕ} (h : IsSlot cfg f k a) (hg : cfg.pageSize ∣ g) (hfg : f ≠ g) :
    Apart a (cfg.miniPageSize k) g cfg.pageSize := by
  have hA := h.end_le
  have hf := h.fullPage
  subst hf
  have hG := Config.fullPage_of_dvd hg
  refine apart_of_block_ne hA (Nat.le_of_eq ?_) (by rw [← hG] at hfg; exact hfg)
  rw [Nat.div_mul_cancel hg]

theorem MemInv.apart (h : MemInv cfg s) {o o' : Owner} {a n a' n' : ℕ} (ho : Occupies cfg s o a n)
    (ho' : Occupies cfg s o' a' n') : (o = o' ∧ a = a' ∧ n = n') ∨ Apart a n a' n' := by
  obtain ⟨f, k, hslot, rfl, hf, rfl, hown⟩ | ⟨hf, rfl, rfl⟩ := h.occupies_cases ho
  · obtain ⟨g, l, hslot', rfl, hg, rfl, hown'⟩ | ⟨hg, rfl, rfl⟩ := h.occupies_cases ho'
    · by_cases hfg : f = g
      · subst hfg
        by_cases haa : a = a'
        · subst haa
          refine Or.inl ⟨?_, rfl, rfl⟩
          obtain ⟨p, hp, hb, rfl⟩ | ⟨hu, rfl⟩ := hown
          · obtain ⟨a₁, hb₁, -, -, hn⟩ := h.resident f p hp
            cases hb.symm.trans hb₁
            obtain ⟨q, hq, hbq, rfl⟩ | ⟨hu, rfl⟩ := hown'
            · rw [h.inj f p hp q hq (hb.trans hbq.symm)]
            · exact absurd hu hn
          · obtain ⟨q, hq, hbq, rfl⟩ | ⟨-, rfl⟩ := hown'
            · obtain ⟨a₁, hb₁, -, -, hn⟩ := h.resident f q hq
              cases hbq.symm.trans hb₁
              exact absurd hu hn
            · rfl
        · exact Or.inr (hslot.apart hslot' haa)
      · exact Or.inr (hslot.apart_of_ne hslot' hfg)
    · exact Or.inr (apart_of_full hslot (h.full _ hg).1 fun he => hf (he ▸ hg))
  · obtain ⟨g, l, hslot', rfl, hg, rfl, -⟩ | ⟨hg, rfl, rfl⟩ := h.occupies_cases ho'
    · exact Or.inr (apart_of_full hslot' (h.full _ hf).1 fun he => hg (he ▸ hf)).symm
    · by_cases haa : a = a'
      · subst haa
        exact Or.inl ⟨rfl, rfl, rfl⟩
      · exact Or.inr (apart_of_dvd (h.full _ hf).1 (h.full _ hg).1 haa)

theorem exists_unique_block {N a n i : ℕ} (hn : 0 < n) (hlt : i < cfg.numPages) (hi : i * N ≤ a)
    (he : a + n ≤ (i + 1) * N) : ∃! i, i < cfg.numPages ∧ i * N ≤ a ∧ a + n ≤ (i + 1) * N := by
  refine ⟨i, ⟨hlt, hi, he⟩, ?_⟩
  rintro j ⟨-, hj, hje⟩
  have h1 : j * N < (i + 1) * N := by omega
  have h2 : i * N < (j + 1) * N := by omega
  have h3 := Nat.lt_of_mul_lt_mul_right h1
  have h4 := Nat.lt_of_mul_lt_mul_right h2
  omega

theorem MemInv.noAliasing (h : MemInv cfg s) : NoAliasing cfg s := by
  refine ⟨fun o a n o' a' n' ho ho' => h.apart ho ho', ?_, h.mini_nodup, h.unused_nodup, h.full_nodup, ?_⟩
  · intro o a n ho
    obtain ⟨f, k, hslot, rfl, -, -, -⟩ | ⟨hf, rfl, -⟩ := h.occupies_cases ho
    · have he := hslot.end_le
      have hf := hslot.fullPage
      unfold Config.fullPage at hf
      refine exists_unique_block (Nat.pos_of_ne_zero hslot.size_ne) (i := a / cfg.pageSize) ?_ ?_ ?_
      · exact Nat.div_lt_of_lt_mul (by rw [Nat.mul_comm]; exact hslot.inMemory)
      · exact Nat.div_mul_le_self _ _
      · rw [Nat.succ_mul, hf]
        exact he
    · obtain ⟨⟨i, rfl⟩, hlt, -⟩ := h.full a hf
      rw [Nat.mul_comm] at hlt
      refine exists_unique_block cfg.pageSize_pos (i := i) (Nat.lt_of_mul_lt_mul_right hlt) ?_ ?_
      · rw [Nat.mul_comm]
      · rw [Nat.succ_mul, Nat.mul_comm]
  · intro f g a hf hg
    rw [← (h.unused f a hf).fullPage, (h.unused g a hg).fullPage]

end PlinyCompute.BufferManager
