import PlinyCompute.BufferThreadFrames
import PlinyCompute.NumberPool

namespace PlinyCompute.BufferManager

open Function Transition NumberPool

def Phase.purpose : Phase → Option Purpose
  | .waitingForSpace _ purpose => some purpose
  | .evicting _ _ _ _ purpose => some purpose
  | _ => none

def Purpose.Fits (s : State) : Purpose → Prop
  | .created p => p < s.nextPage ∧ (s.page p).isAnon = false
  | _ => True

namespace World

def Holds (w : World) (p : ℕ) : Prop :=
  (w.state.page p).isAnon = true ∧ (0 < (w.state.page p).refCount ∨ ∃ t, w.phase t = .releasing p)

def pool (w : World) : Pool ℕ where
  free := w.state.freeAnonPageNumbers
  last := w.state.lastFreeAnonPageNumber
  holds := {x | w.Holds x.1 ∧ x.2 = (w.state.page x.1).pageNum}

structure Sane (w : World) : Prop where
  counted : ∀ p, (w.handles.map Prod.snd).count p = (w.state.page p).refCount
  fresh : ∀ p, w.state.nextPage ≤ p → (w.state.page p).refCount = 0
  keyed : ∀ key p, w.state.allPages key = some p → p < w.state.nextPage ∧ (w.state.page p).isAnon = false
  purposes : ∀ t purpose, (w.phase t).purpose = some purpose → purpose.Fits w.state
  releasing : ∀ t p, w.phase t = .releasing p → p < w.state.nextPage
  unique : ∀ t p, w.phase t = .releasing p → (w.state.page p).isAnon = true →
    (w.state.page p).refCount = 0 ∧ ∀ t', w.phase t' = .releasing p → t' = t

end World

variable {cfg : Config} {s s' : State} {w w' : World} {P : Pool ℕ} {t p : ℕ} {purpose : Purpose}

theorem Purpose.Fits.same (h : purpose.Fits s) (hs : SamePages s s') : purpose.Fits s' := by
  cases purpose with
  | created p =>
    obtain ⟨hlt, ha⟩ := h
    exact ⟨hs.nextPage ▸ hlt, (hs.isAnon p).trans ha⟩
  | newPage | repinned | loaded => trivial

theorem World.holds_same (hs : SamePages w.state w'.state) (hp : w'.phase = w.phase) (q : ℕ) :
    w'.Holds q ↔ w.Holds q := by
  unfold World.Holds
  rw [hs.isAnon, hs.refCount, hp]

theorem World.pool_same (hs : SameNumbers w.state w'.state) (hp : w'.phase = w.phase) : w'.pool = w.pool := by
  unfold World.pool
  rw [hs.free, hs.last]
  simp only [World.holds_same hs.toSamePages hp, hs.pageNum]

theorem World.Sane.same (h : w.Sane) (hs : SamePages w.state w'.state) (hp : w'.phase = w.phase)
    (hh : w'.handles = w.handles) : w'.Sane where
  counted q := by
    rw [hh, hs.refCount]
    exact h.counted q
  fresh q hq := by
    rw [hs.refCount]
    exact h.fresh q (hs.nextPage ▸ hq)
  keyed key q hq := by
    rw [hs.nextPage, hs.isAnon]
    exact h.keyed key q (hs.allPages key q hq)
  purposes t purpose ht := (h.purposes t purpose (hp ▸ ht)).same hs
  releasing t q ht := by
    rw [hs.nextPage]
    exact h.releasing t q (hp ▸ ht)
  unique t q ht ha := by
    rw [hs.isAnon] at ha
    rw [hs.refCount, hp]
    exact h.unique t q (hp ▸ ht) ha

structure Ready (P : Pool ℕ) (t : ℕ) (purpose : Purpose) (w : World) : Prop where
  sane : (w.setPhase t .idle).Sane
  fits : purpose.Fits w.state
  pool : (w.setPhase t .idle).pool = P

def Settles (P : Pool ℕ) (w : World) : Prop := w.Sane ∧ NumberPool.Kept P w.pool

theorem Settles.same (h : Settles P w) (hs : SameNumbers w.state w'.state) (hp : w'.phase = w.phase)
    (hh : w'.handles = w.handles) : Settles P w' := by
  refine ⟨h.1.same hs.toSamePages hp hh, ?_⟩
  rw [World.pool_same hs hp]
  exact h.2

theorem Ready.same (h : Ready P t purpose w) (hs : SameNumbers w.state w'.state) (hp : w'.phase = w.phase)
    (hh : w'.handles = w.handles) : Ready P t purpose w' := by
  have hphase : (w'.setPhase t .idle).phase = (w.setPhase t .idle).phase := by
    simp only [World.setPhase, hp]
  refine ⟨?_, h.fits.same hs.toSamePages, ?_⟩
  · exact h.sane.same hs.toSamePages hphase hh
  · rw [← h.pool]
    exact World.pool_same hs hphase

theorem Ready.setState (h : Ready P t purpose w) (hs : SameNumbers w.state s) :
    Ready P t purpose (w.setState s) := h.same hs rfl rfl

theorem Ready.setPhase (h : Ready P t purpose w) {phase : Phase} (hr : ∀ p, phase ≠ .releasing p)
    (hp : ∀ purpose', phase.purpose = some purpose' → purpose' = purpose) : Settles P (w.setPhase t phase) := by
  have hother : ∀ t' p, (w.setPhase t phase).phase t' = .releasing p ↔
      (w.setPhase t .idle).phase t' = .releasing p := by
    intro t' p
    by_cases ht : t' = t
    · subst ht
      simp [World.setPhase, hr p]
    · simp [World.setPhase, ht]
  refine ⟨⟨h.sane.counted, h.sane.fresh, h.sane.keyed, ?_, ?_, ?_⟩, ?_⟩
  · intro t' purpose' ht
    by_cases htt : t' = t
    · subst htt
      have : phase.purpose = some purpose' := by simpa [World.setPhase] using ht
      rw [hp purpose' this]
      exact h.fits
    · apply h.sane.purposes t'
      simpa [World.setPhase, htt] using ht
  · intro t' p ht
    exact h.sane.releasing t' p ((hother t' p).mp ht)
  · intro t' p ht ha
    obtain ⟨href, hone⟩ := h.sane.unique t' p ((hother t' p).mp ht) ha
    exact ⟨href, fun t'' ht'' => hone t'' ((hother t'' p).mp ht'')⟩
  · have hpool : (w.setPhase t phase).pool = (w.setPhase t .idle).pool := by
      unfold World.pool World.Holds
      simp only [hother]
      rfl
    exact NumberPool.Kept.of_eq (hpool.trans h.pool)

theorem World.Sane.alloc (h : w.Sane) {me : PDBPage} (hpage : w'.state.page = update w.state.page w.state.nextPage me)
    (hnext : w'.state.nextPage = w.state.nextPage + 1)
    (hall : ∀ key q, w'.state.allPages key = some q →
      w.state.allPages key = some q ∨ (q = w.state.nextPage ∧ me.isAnon = false))
    (hphase : w'.phase = w.phase)
    (hcount : ∀ q, (w'.handles.map Prod.snd).count q =
      (w.handles.map Prod.snd).count q + if q = w.state.nextPage then me.refCount else 0) : w'.Sane := by
  have hold : ∀ q, q < w.state.nextPage → w'.state.page q = w.state.page q := by
    intro q hq
    rw [hpage, update_of_ne (by omega)]
  have hself : w'.state.page w.state.nextPage = me := by rw [hpage, update_self]
  refine ⟨fun q => ?_, fun q hq => ?_, fun key q hq => ?_, fun t purpose ht => ?_, fun t q ht => ?_,
    fun t q ht ha => ?_⟩
  · rw [hcount, h.counted]
    by_cases hq : q = w.state.nextPage
    · rw [if_pos hq, hq, h.fresh _ le_rfl, hself, zero_add]
    · rw [if_neg hq, hpage, update_of_ne hq, add_zero]
  · rw [hpage, update_of_ne (by omega)]
    exact h.fresh q (by omega)
  · rw [hnext]
    rcases hall key q hq with hk | ⟨rfl, ha⟩
    · obtain ⟨hlt, ha⟩ := h.keyed key q hk
      rw [hold q hlt]
      exact ⟨by omega, ha⟩
    · rw [hself]
      exact ⟨by omega, ha⟩
  · have hfits := h.purposes t purpose (hphase ▸ ht)
    cases purpose with
    | created q =>
      obtain ⟨hlt, ha⟩ := hfits
      exact ⟨by omega, by rw [hold q hlt]; exact ha⟩
    | newPage | repinned | loaded => trivial
  · have := h.releasing t q (hphase ▸ ht)
    omega
  · have hlt := h.releasing t q (hphase ▸ ht)
    rw [hold q hlt] at ha ⊢
    rw [hphase]
    exact h.unique t q (hphase ▸ ht) ha

theorem World.Sane.holds_alloc (h : w.Sane) {me : PDBPage}
    (hpage : w'.state.page = update w.state.page w.state.nextPage me) (hphase : w'.phase = w.phase) (q : ℕ) :
    w'.Holds q ↔ (q = w.state.nextPage ∧ me.isAnon = true ∧ 0 < me.refCount) ∨ w.Holds q := by
  have hnone : ∀ t, w.phase t ≠ .releasing w.state.nextPage := by
    intro t ht
    have := h.releasing t _ ht
    omega
  unfold World.Holds
  rw [hphase, hpage]
  by_cases hq : q = w.state.nextPage
  · subst hq
    simp [hnone, h.fresh _ le_rfl]
  · rw [update_of_ne hq]
    simp [hq]

theorem World.Sane.pool_alloc (h : w.Sane) {me : PDBPage}
    (hpage : w'.state.page = update w.state.page w.state.nextPage me) (hphase : w'.phase = w.phase)
    (ha : me.isAnon = false) (hf : w'.state.freeAnonPageNumbers = w.state.freeAnonPageNumbers)
    (hl : w'.state.lastFreeAnonPageNumber = w.state.lastFreeAnonPageNumber) : w'.pool = w.pool := by
  have hholds : ∀ q, w'.Holds q ↔ w.Holds q := by
    intro q
    rw [h.holds_alloc hpage hphase q, ha]
    simp
  unfold World.pool
  rw [hf, hl]
  congr 1
  ext ⟨q, n⟩
  simp only [Set.mem_ofPred_eq, hholds]
  refine and_congr_right fun hq => ?_
  have hne : q ≠ w.state.nextPage := by
    rintro rfl
    rcases hq.2 with href | ⟨t, ht⟩
    · rw [h.fresh _ le_rfl] at href
      omega
    · have := h.releasing t _ ht
      omega
  rw [hpage, update_of_ne hne]

theorem World.Sane.retain (h : w.Sane) (me : PDBPage) (hs : w'.state = w.state.setPage p me)
    (hp : w'.phase = w.phase) (hh : w'.handles = (t, p) :: w.handles) (hlt : p < w.state.nextPage)
    (ha : (w.state.page p).isAnon = true → 0 < (w.state.page p).refCount)
    (href : me.refCount = (w.state.page p).refCount + 1) (hanon : me.isAnon = (w.state.page p).isAnon) :
    w'.Sane := by
  have hself : w'.state.page p = me := by simp [hs, State.setPage]
  have hother : ∀ q, q ≠ p → w'.state.page q = w.state.page q := by
    intro q hq
    simp [hs, State.setPage, hq]
  have hnext : w'.state.nextPage = w.state.nextPage := by rw [hs]; rfl
  have hall : w'.state.allPages = w.state.allPages := by rw [hs]; rfl
  have hisAnon : ∀ q, (w'.state.page q).isAnon = (w.state.page q).isAnon := by
    intro q
    by_cases hq : q = p
    · rw [hq, hself, hanon]
    · rw [hother q hq]
  refine ⟨fun q => ?_, fun q hq => ?_, fun key q hq => ?_, fun t purpose ht => ?_, fun t q ht => ?_,
    fun t q ht haq => ?_⟩
  · rw [hh, List.map_cons]
    by_cases hq : q = p
    · subst hq
      rw [List.count_cons_self, hself, href, h.counted]
    · rw [List.count_cons_of_ne (Ne.symm hq), hother q hq]
      exact h.counted q
  · rw [hnext] at hq
    rw [hother q (by omega)]
    exact h.fresh q hq
  · rw [hnext, hisAnon]
    exact h.keyed key q (hall ▸ hq)
  · have hfits := h.purposes t purpose (hp ▸ ht)
    cases purpose with
    | created q => exact ⟨hnext ▸ hfits.1, (hisAnon q).trans hfits.2⟩
    | newPage | repinned | loaded => trivial
  · rw [hnext]
    exact h.releasing t q (hp ▸ ht)
  · rw [hisAnon] at haq
    obtain ⟨hzero, hone⟩ := h.unique t q (hp ▸ ht) haq
    have hqp : q ≠ p := by
      rintro rfl
      have := ha haq
      omega
    rw [hother q hqp, hp]
    exact ⟨hzero, hone⟩

theorem World.pool_retain (me : PDBPage) (hs : w'.state = w.state.setPage p me) (hp : w'.phase = w.phase)
    (ha : (w.state.page p).isAnon = true → 0 < (w.state.page p).refCount)
    (href : me.refCount = (w.state.page p).refCount + 1) (hanon : me.isAnon = (w.state.page p).isAnon)
    (hn : me.pageNum = (w.state.page p).pageNum) : w'.pool = w.pool := by
  unfold World.pool
  rw [hs]
  congr 1
  ext ⟨q, n⟩
  simp only [Set.mem_ofPred_eq, World.Holds, hs, hp, State.setPage]
  by_cases hq : q = p
  · subst hq
    rw [update_self, hanon, hn, href]
    refine and_congr_left fun _ => and_congr_right fun haq => ?_
    have := ha haq
    simp [this]
  · rw [update_of_ne hq]

theorem World.Sane.settles_retain (h : w.Sane) (me : PDBPage) (hs : w'.state = w.state.setPage p me)
    (hp : w'.phase = w.phase) (hh : w'.handles = (t, p) :: w.handles) (hlt : p < w.state.nextPage)
    (ha : (w.state.page p).isAnon = true → 0 < (w.state.page p).refCount)
    (href : me.refCount = (w.state.page p).refCount + 1) (hanon : me.isAnon = (w.state.page p).isAnon)
    (hn : me.pageNum = (w.state.page p).pageNum) : Settles w.pool w' :=
  ⟨h.retain me hs hp hh hlt ha href hanon, .of_eq (World.pool_retain me hs hp ha href hanon hn)⟩

theorem World.Sane.takePageNumber (h : w.Sane) {me : PDBPage}
    (hs : w'.state = { w.state.takePageNumber.2.setPage w.state.nextPage me with
      nextPage := w.state.nextPage + 1 })
    (hp : w'.phase = w.phase) (hh : w'.handles = (t, w.state.nextPage) :: w.handles)
    (ha : me.isAnon = true) (href : me.refCount = 1) (hn : me.pageNum = w.state.takePageNumber.1) :
    Settles w.pool w' := by
  have htake : w.state.takePageNumber.2.page = w.state.page ∧
      w.state.takePageNumber.2.allPages = w.state.allPages := by
    unfold State.takePageNumber
    split <;> exact ⟨rfl, rfl⟩
  have hpage : w'.state.page = update w.state.page w.state.nextPage me := by
    rw [hs]
    exact congrArg (update · w.state.nextPage me) htake.1
  have hsane : w'.Sane := by
    apply h.alloc hpage
    · rw [hs]
    · intro key q hq
      rw [hs] at hq
      exact Or.inl (htake.2 ▸ hq)
    · exact hp
    · intro q
      rw [hh, List.map_cons]
      by_cases hq : q = w.state.nextPage
      · subst hq
        simp [href]
      · rw [if_neg hq, List.count_cons_of_ne (Ne.symm hq), add_zero]
  refine ⟨hsane, ?_⟩
  have hholds : w'.pool.holds = insert (w.state.nextPage, w.state.takePageNumber.1) w.pool.holds := by
    ext ⟨q, n⟩
    have hq := h.holds_alloc hpage hp q
    change w'.Holds q ∧ n = (w'.state.page q).pageNum ↔ _ ∨ w.Holds q ∧ n = (w.state.page q).pageNum
    rw [hq, hpage]
    by_cases hqp : q = w.state.nextPage
    · subst hqp
      have hnot : ¬ w.Holds w.state.nextPage := by
        rintro ⟨-, hr | ⟨t, ht⟩⟩
        · rw [h.fresh _ le_rfl] at hr
          omega
        · have := h.releasing t _ ht
          omega
      simp [ha, href, hn, hnot]
    · simp [hqp]
  have hpool : w'.pool = ⟨w'.state.freeAnonPageNumbers, w'.state.lastFreeAnonPageNumber, w'.pool.holds⟩ := rfl
  rw [hpool, hholds, hs]
  cases hf : w.state.freeAnonPageNumbers.getLast? with
  | none =>
    have hnil : w.state.freeAnonPageNumbers = [] := List.getLast?_eq_none_iff.mp hf
    have hnew : w.state.takePageNumber = (w.state.lastFreeAnonPageNumber + 1,
        { w.state with lastFreeAnonPageNumber := w.state.lastFreeAnonPageNumber + 1 }) := by
      unfold State.takePageNumber
      rw [hf]
    rw [hnew]
    dsimp only [State.setPage]
    rw [hnil]
    exact NumberPool.Kept.new _ hnil
  | some n =>
    have hold : w.state.takePageNumber = (n,
        { w.state with freeAnonPageNumbers := w.state.freeAnonPageNumbers.dropLast }) := by
      unfold State.takePageNumber
      rw [hf]
    rw [hold]
    exact NumberPool.Kept.reuse _ (List.dropLast_append_getLast? n hf).symm

end PlinyCompute.BufferManager
