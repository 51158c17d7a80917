import PlinyCompute.BufferSlots

namespace PlinyCompute.BufferManager

open Function

variable {cfg : Config} {s s' : State}

def pinnedCount (s : State) (f : ℕ) : ℕ := (s.constituentPages f).countP fun p => (s.page p).pinned

/-- A nonnegative `numPinned` counts the pinned pages, a negative one is the tick of the entry in
`lastUsed`. -/
structure LruInv (s : State) : Prop where
  sorted : s.lastUsed.Pairwise (·.2 < ·.2)
  bounded : ∀ e ∈ s.lastUsed, e.2 < s.lastTimeTick
  tick_pos : 0 < s.lastTimeTick
  entry : ∀ f t, (f, t) ∈ s.lastUsed ↔ f ∉ s.emptyFullPages ∧ 0 < t ∧ s.numPinned f = -(t : ℤ)
  count : ∀ f, f ∉ s.emptyFullPages → pinnedCount s f = (s.numPinned f).toNat

def TicksFit (s : State) : Prop := ∀ e ∈ s.lastUsed, e.2 < 2 ^ 32

def TickFits (s : State) (f : ℕ) : Prop := -2 ^ 32 < s.numPinned f

theorem eq_singleton_of_nodup {α : Type} {l : List α} {x : α} (hn : l.Nodup) (hx : x ∈ l)
    (h : ∀ y ∈ l, y = x) : l = [x] := by
  apply List.perm_singleton.mp
  rw [List.perm_ext_iff_of_nodup hn (List.nodup_singleton x)]
  intro y
  rw [List.mem_singleton]
  exact ⟨h y, fun hy => hy ▸ hx⟩

theorem mem_lruErase {t : ℕ} {l : List (ℕ × ℕ)} {e : ℕ × ℕ} : e ∈ lruErase t l ↔ e ∈ l ∧ e.2 ≠ t := by
  simp [lruErase]

theorem mem_lruInsert {e x : ℕ × ℕ} {l : List (ℕ × ℕ)} (h : ∀ y ∈ l, y.2 < e.2) :
    x ∈ lruInsert e l ↔ x ∈ l ∨ x = e := by
  induction l with
  | nil => simp [lruInsert]
  | cons y l ih =>
    have hy := h y (by simp)
    rw [lruInsert, if_neg (by omega), if_neg (by omega), List.mem_cons,
      ih fun z hz => h z (List.mem_cons_of_mem y hz), List.mem_cons, or_assoc]

theorem lruInsert_sorted {e : ℕ × ℕ} {l : List (ℕ × ℕ)} (h : ∀ y ∈ l, y.2 < e.2)
    (hs : l.Pairwise (·.2 < ·.2)) : (lruInsert e l).Pairwise (·.2 < ·.2) := by
  induction l with
  | nil => simp [lruInsert]
  | cons y l ih =>
    have hy := h y (by simp)
    have hl : ∀ z ∈ l, z.2 < e.2 := fun z hz => h z (List.mem_cons_of_mem y hz)
    obtain ⟨h1, h2⟩ := List.pairwise_cons.mp hs
    rw [lruInsert, if_neg (by omega), if_neg (by omega)]
    refine List.pairwise_cons.mpr ⟨fun z hz => ?_, ih hl h2⟩
    rcases (mem_lruInsert hl).mp hz with hz | rfl
    · exact h1 z hz
    · exact hy

theorem eq_of_tick_eq {l : List (ℕ × ℕ)} (hs : l.Pairwise (·.2 < ·.2)) {e e' : ℕ × ℕ} (he : e ∈ l)
    (he' : e' ∈ l) (ht : e.2 = e'.2) : e = e' := by
  induction l with
  | nil => simp at he
  | cons y l ih =>
    obtain ⟨h1, h2⟩ := List.pairwise_cons.mp hs
    rcases List.mem_cons.mp he with rfl | hmem
    · rcases List.mem_cons.mp he' with rfl | hmem'
      · rfl
      · have := h1 e' hmem'
        omega
    · rcases List.mem_cons.mp he' with rfl | hmem'
      · have := h1 e hmem
        omega
      · exact ih h2 hmem hmem'

theorem LruInv.entry_of_neg (h : LruInv s) {f : ℕ} (hf : f ∉ s.emptyFullPages) (hn : s.numPinned f < 0) :
    (f, (-s.numPinned f).toNat) ∈ s.lastUsed := by
  rw [h.entry]
  exact ⟨hf, by omega, by omega⟩

theorem LruInv.tickFits (h : LruInv s) (ht : TicksFit s) {f : ℕ} (hf : f ∉ s.emptyFullPages) : TickFits s f := by
  unfold TickFits
  by_contra hn
  have := ht _ (h.entry_of_neg hf (by omega))
  dsimp only at this
  omega

theorem LruInv.mem_erase_neg (h : LruInv s) {f : ℕ} (ht : TickFits s f) (hf : f ∉ s.emptyFullPages)
    (hn : s.numPinned f < 0) (e : ℕ × ℕ) :
    e ∈ lruErase ((-s.numPinned f).toNat % 2 ^ 32) s.lastUsed ↔ e ∈ s.lastUsed ∧ e.1 ≠ f := by
  have hmem := h.entry_of_neg hf hn
  unfold TickFits at ht
  rw [Nat.mod_eq_of_lt (by omega), mem_lruErase]
  refine and_congr_right fun he => not_congr ⟨fun heq => ?_, fun heq => ?_⟩
  · exact congrArg Prod.fst (eq_of_tick_eq h.sorted he hmem heq)
  · have := ((h.entry e.1 e.2).mp he).2.2
    rw [heq] at this
    omega

theorem LruInv.congr (h : LruInv s) (hl : s'.lastUsed = s.lastUsed) (hn : s'.numPinned = s.numPinned)
    (ht : s'.lastTimeTick = s.lastTimeTick) (he : s'.emptyFullPages = s.emptyFullPages)
    (hc : ∀ f, pinnedCount s' f = pinnedCount s f) : LruInv s' := by
  refine ⟨by rw [hl]; exact h.sorted, by rw [hl, ht]; exact h.bounded, by rw [ht]; exact h.tick_pos,
    by rw [hl, he, hn]; exact h.entry, fun f hf => ?_⟩
  rw [hc, hn]
  rw [he] at hf
  exact h.count f hf

theorem LruInv.pin (h : LruInv s) {f : ℕ} (ht : TickFits s f) (hf : f ∉ s.emptyFullPages)
    (hl : s'.lastUsed = (s.pinFullPage f).lastUsed) (hn : s'.numPinned = (s.pinFullPage f).numPinned)
    (htick : s'.lastTimeTick = s.lastTimeTick) (he : s'.emptyFullPages = s.emptyFullPages)
    (hc : pinnedCount s' f = pinnedCount s f + 1) (hc' : ∀ g, g ≠ f → pinnedCount s' g = pinnedCount s g) :
    LruInv s' := by
  have hcount := h.count f hf
  unfold State.pinFullPage at hl hn
  by_cases hneg : s.numPinned f < 0
  · rw [if_pos hneg] at hl hn
    dsimp only at hl hn
    have hmem := h.mem_erase_neg ht hf hneg
    refine ⟨?_, ?_, by rw [htick]; exact h.tick_pos, ?_, ?_⟩
    · rw [hl]
      exact h.sorted.filter _
    · intro e hmemE
      rw [hl, hmem] at hmemE
      rw [htick]
      exact h.bounded e hmemE.1
    · intro g t
      rw [hl, hmem, he, hn]
      by_cases hg : g = f
      · subst hg
        rw [update_self]
        simp only [ne_eq, not_true_eq_false, and_false, false_iff, not_and]
        omega
      · rw [update_of_ne hg, h.entry]
        simp [hg]
    · intro g hg
      rw [he] at hg
      rw [hn]
      by_cases hgf : g = f
      · subst hgf
        rw [update_self, hc, hcount]
        omega
      · rw [update_of_ne hgf, hc' g hgf]
        exact h.count g hg
  · rw [if_neg hneg] at hl hn
    dsimp only at hl hn
    refine ⟨by rw [hl]; exact h.sorted, by rw [hl, htick]; exact h.bounded, by rw [htick]; exact h.tick_pos,
      ?_, ?_⟩
    · intro g t
      rw [hl, he, hn]
      by_cases hg : g = f
      · subst hg
        rw [update_self, h.entry]
        constructor
        · rintro ⟨-, h1, h2⟩
          omega
        · rintro ⟨-, h1, h2⟩
          omega
      · rw [update_of_ne hg, h.entry]
    · intro g hg
      rw [he] at hg
      rw [hn]
      by_cases hgf : g = f
      · subst hgf
        rw [update_self, hc, hcount]
        omega
      · rw [update_of_ne hgf, hc' g hgf]
        exact h.count g hg

theorem LruInv.unpin (h : LruInv s) {f : ℕ} (hf : f ∉ s.emptyFullPages)
    (hl : s'.lastUsed = (s.unpinFullPage f).lastUsed) (hn : s'.numPinned = (s.unpinFullPage f).numPinned)
    (htick : s'.lastTimeTick = (s.unpinFullPage f).lastTimeTick) (he : s'.emptyFullPages = s.emptyFullPages)
    (hc : pinnedCount s' f + 1 = pinnedCount s f) (hc' : ∀ g, g ≠ f → pinnedCount s' g = pinnedCount s g) :
    LruInv s' := by
  have hcount := h.count f hf
  have hpos : 0 < s.numPinned f := by omega
  unfold State.unpinFullPage at hl hn htick
  simp only [if_pos hpos, update_self] at hl hn htick
  by_cases hone : s.numPinned f - 1 = 0
  · simp only [if_pos hone, update_idem] at hl hn htick
    have hins : ∀ e, e ∈ s'.lastUsed ↔ e ∈ s.lastUsed ∨ e = (f, s.lastTimeTick) := by
      intro e
      rw [hl]
      exact mem_lruInsert h.bounded
    refine ⟨?_, ?_, by omega, ?_, ?_⟩
    · rw [hl]
      exact lruInsert_sorted h.bounded h.sorted
    · intro e hmem
      rcases (hins e).mp hmem with hmem | rfl
      · have := h.bounded e hmem
        omega
      · rw [htick]
        exact Nat.lt_succ_self _
    · intro g t
      rw [hins, h.entry, he, hn, Prod.mk.injEq]
      have := h.tick_pos
      by_cases hg : g = f
      · subst hg
        rw [update_self]
        constructor
        · rintro (⟨-, h1, h2⟩ | ⟨-, rfl⟩)
          · omega
          · exact ⟨hf, h.tick_pos, rfl⟩
        · rintro ⟨-, h1, h2⟩
          exact Or.inr ⟨rfl, by omega⟩
      · rw [update_of_ne hg]
        tauto
    · intro g hg
      rw [he] at hg
      rw [hn]
      by_cases hgf : g = f
      · subst hgf
        rw [update_self]
        omega
      · rw [update_of_ne hgf, hc' g hgf]
        exact h.count g hg
  · simp only [if_neg hone] at hl hn htick
    refine ⟨by rw [hl]; exact h.sorted, by rw [hl, htick]; exact h.bounded, by rw [htick]; exact h.tick_pos,
      ?_, ?_⟩
    · intro g t
      rw [hl, he, hn, h.entry]
      by_cases hg : g = f
      · subst hg
        rw [update_self]
        constructor
        · rintro ⟨-, h1, h2⟩
          omega
        · rintro ⟨-, h1, h2⟩
          omega
      · rw [update_of_ne hg]
    · intro g hg
      rw [he] at hg
      rw [hn]
      by_cases hgf : g = f
      · subst hgf
        rw [update_self]
        omega
      · rw [update_of_ne hgf, hc' g hgf]
        exact h.count g hg

theorem LruInv.release (h : LruInv s) {f : ℕ} (hsort : s'.lastUsed.Pairwise (·.2 < ·.2))
    (hl : ∀ e, e ∈ s'.lastUsed ↔ e ∈ s.lastUsed ∧ e.1 ≠ f)
    (hn : ∀ g, g ≠ f → s'.numPinned g = s.numPinned g) (htick : s'.lastTimeTick = s.lastTimeTick)
    (he : s'.emptyFullPages = s.emptyFullPages ++ [f])
    (hc : ∀ g, g ≠ f → pinnedCount s' g = pinnedCount s g) : LruInv s' := by
  refine ⟨hsort, fun e hmem => ?_, by rw [htick]; exact h.tick_pos, fun g t => ?_, fun g hg => ?_⟩
  · rw [htick]
    exact h.bounded e ((hl e).mp hmem).1
  · rw [hl, h.entry, he, List.mem_append, List.mem_singleton]
    by_cases hg : g = f
    · simp [hg]
    · simp [hg, hn g hg]
  · rw [he, List.mem_append, List.mem_singleton, not_or] at hg
    rw [hn g hg.2, hc g hg.2]
    exact h.count g hg.1

theorem LruInv.evict (h : LruInv s) {f t : ℕ} {rest : List (ℕ × ℕ)} (hlast : s.lastUsed = (f, t) :: rest)
    (hl : s'.lastUsed = rest) (hn : s'.numPinned = update s.numPinned f 0)
    (htick : s'.lastTimeTick = s.lastTimeTick) (he : s'.emptyFullPages = s.emptyFullPages ++ [f])
    (hc : ∀ g, g ≠ f → pinnedCount s' g = pinnedCount s g) : LruInv s' := by
  have hsort := h.sorted
  rw [hlast] at hsort
  obtain ⟨h1, h2⟩ := List.pairwise_cons.mp hsort
  refine h.release (by rw [hl]; exact h2) (fun e => ?_) (fun g hg => by rw [hn, update_of_ne hg]) htick he hc
  rw [hl, hlast, List.mem_cons]
  constructor
  · intro hmem
    refine ⟨Or.inr hmem, fun hef => ?_⟩
    have hlt := h1 e hmem
    have hf : (f, t) ∈ s.lastUsed := by simp [hlast]
    have hE : e ∈ s.lastUsed := by simp [hlast, hmem]
    have h3 := ((h.entry f t).mp hf).2.2
    have h4 := ((h.entry e.1 e.2).mp hE).2.2
    rw [hef] at h4
    omega
  · rintro ⟨rfl | hmem, hne⟩
    · exact absurd rfl hne
    · exact hmem

theorem LruInv.breakUp (h : LruInv s) {f : ℕ} (hf : f ∈ s.emptyFullPages) (hnil : pinnedCount s' f = 0)
    (hl : s'.lastUsed = s.lastUsed) (hn : s'.numPinned = update s.numPinned f 0)
    (htick : s'.lastTimeTick = s.lastTimeTick)
    (he : ∀ g, g ∈ s'.emptyFullPages ↔ g ∈ s.emptyFullPages ∧ g ≠ f)
    (hc : ∀ g, g ≠ f → pinnedCount s' g = pinnedCount s g) : LruInv s' := by
  refine ⟨by rw [hl]; exact h.sorted, by rw [hl, htick]; exact h.bounded, by rw [htick]; exact h.tick_pos,
    fun g t => ?_, fun g hg => ?_⟩
  · rw [hl, h.entry, he, hn]
    by_cases hg : g = f
    · subst hg
      rw [update_self]
      constructor
      · exact fun hx => absurd hf hx.1
      · rintro ⟨-, h1, h2⟩
        omega
    · rw [update_of_ne hg]
      simp [hg]
  · rw [he] at hg
    rw [hn]
    by_cases hgf : g = f
    · rw [hgf, update_self, hnil]
      rfl
    · rw [update_of_ne hgf, hc g hgf]
      exact h.count g fun hmem => hg ⟨hmem, hgf⟩

theorem LruInv.giveBack (h : LruInv s) {f d : ℕ} (hf : f ∉ s.emptyFullPages)
    (hl : s'.lastUsed = s.lastUsed) (hn : s'.numPinned = update s.numPinned f (s.numPinned f - d))
    (htick : s'.lastTimeTick = s.lastTimeTick) (he : s'.emptyFullPages = s.emptyFullPages)
    (hc : pinnedCount s' f + d = pinnedCount s f) (hc' : ∀ g, g ≠ f → pinnedCount s' g = pinnedCount s g) :
    LruInv s' := by
  have hcount := h.count f hf
  refine ⟨by rw [hl]; exact h.sorted, by rw [hl, htick]; exact h.bounded, by rw [htick]; exact h.tick_pos,
    fun g t => ?_, fun g hg => ?_⟩
  · rw [hl, h.entry, he, hn]
    by_cases hg : g = f
    · subst hg
      rw [update_self]
      refine and_congr_right fun _ => and_congr_right fun ht => ?_
      constructor
      · intro hx
        omega
      · intro hx
        omega
    · rw [update_of_ne hg]
  · rw [he] at hg
    rw [hn]
    by_cases hgf : g = f
    · subst hgf
      rw [update_self]
      omega
    · rw [update_of_ne hgf, hc' g hgf]
      exact h.count g hg

end PlinyCompute.BufferManager
