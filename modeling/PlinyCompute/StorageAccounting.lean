import PlinyCompute.StorageHandlers

namespace PlinyCompute.StorageHandlers

open Transition RangeSum StorageFrontend
open Function (update update_eq_self update_of_ne update_self)
open World (step)

def Handler.onSet : Handler → Option SetId
  | .idle => none
  | .received set _ => some set
  | .dispatching _ set _ _ => some set
  | .failed set _ _ => some set
  | .rejected set _ _ => some set
  | .ending set _ _ => some set
  | .materializing set => some set
  | .forwardingPage set _ => some set
  | .waitingForPage set _ => some set
  | .givingUp set _ => some set
  | .freezing set _ _ _ => some set

def Handler.pending (set : SetId) : Handler → ℕ
  | .dispatching _ s _ size => if s = set then size else 0
  | .failed s _ size => if s = set then size else 0
  | .rejected s _ size => if s = set then size else 0
  | _ => 0

section

variable {n h : ℕ} {handler : ℕ → Handler} {x y : Handler} {set : SetId} {p : ℕ}

theorem writes_eq_none (hx : x.onSet ≠ some set) : x.writes ≠ some (set, p) := by
  cases x with
  | ending s q success => cases success <;> simp_all [Handler.onSet, Handler.writes]
  | _ => simp_all [Handler.onSet, Handler.writes]

theorem pending_eq_zero (hx : x.onSet ≠ some set) : x.pending set = 0 := by
  cases x <;> simp_all [Handler.onSet, Handler.pending]

theorem writes_ending {success : Bool} (hx : x = .ending set p success) (hs : success = true) :
    x.writes = some (set, p) := by
  subst hx hs
  rfl

structure SetKept (n : ℕ) (handler : ℕ → Handler) (set : SetId) (lastWrite : ℕ → Write) (storedSize : ℕ)
    (stats : Option SetStats) (ms fs : Finset ℕ) : Prop where
  marked : ∀ p, p ∈ ms ↔ ∃ h < n, (handler h).writes = some (set, p)
  disjoint : ∀ p ∈ fs, p ∉ ms
  bounded : ∀ p, p ∈ fs ∨ p ∈ ms → ∃ st, stats = some st ∧ p ≤ st.lastPage
  stored : ∀ st, stats = some st → ∀ p ≤ st.lastPage, p ∉ ms → p ∉ fs → lastWrite p = .stored
  size : stats.elim 0 SetStats.size = storedSize + ∑ h ∈ Finset.range n, (handler h).pending set
  ending : ∀ h < n, ∀ p, handler h = .ending set p true → lastWrite p = .stored

def Exclusive (n : ℕ) (handler : ℕ → Handler) : Prop :=
  ∀ h < n, ∀ h' < n, ∀ c, (handler h).writes = some c → (handler h').writes = some c → h = h'

def World.SetKept (n : ℕ) (w : World) (set : SetId) : Prop :=
  StorageHandlers.SetKept n w.handler set (w.lastWrite set) (w.storedSize set) (w.frontend.pageStats.lookup set)
    (marks w.frontend set) (frees w.frontend set)

structure Kept (n : ℕ) (w : World) : Prop where
  exclusive : Exclusive n w.handler
  sets : ∀ set, w.SetKept n set

variable {lastWrite lastWrite' : ℕ → Write} {storedSize storedSize' : ℕ} {stats stats' : Option SetStats}
  {ms fs fs' : Finset ℕ}

theorem exists_writes_update (hh : h < n) : (∃ h' < n, (update handler h y h').writes = some (set, p)) ↔
    y.writes = some (set, p) ∨ ∃ h' < n, h' ≠ h ∧ (handler h').writes = some (set, p) := by
  constructor
  · rintro ⟨h', hh', hw⟩
    by_cases he : h' = h
    · subst he
      rw [update_self] at hw
      exact .inl hw
    · rw [update_of_ne he] at hw
      exact .inr ⟨h', hh', he, hw⟩
  · rintro (hw | ⟨h', hh', he, hw⟩)
    · exact ⟨h, hh, by rwa [update_self]⟩
    · exact ⟨h', hh', by rwa [update_of_ne he]⟩

theorem exists_writes_iff (hh : h < n) : (∃ h' < n, (handler h').writes = some (set, p)) ↔
    (handler h).writes = some (set, p) ∨ ∃ h' < n, h' ≠ h ∧ (handler h').writes = some (set, p) := by
  rw [← exists_writes_update hh, update_eq_self]

theorem sum_pending (handler : ℕ → Handler) (y : Handler) (set : SetId) (hh : h < n) : ∑ k ∈ Finset.range n, (update handler h y k).pending set +
    (handler h).pending set = ∑ k ∈ Finset.range n, (handler k).pending set + y.pending set :=
  sum_update handler (fun x => x.pending set) hh y

theorem pending_le (handler : ℕ → Handler) (set : SetId) (hh : h < n) : (handler h).pending set ≤ ∑ k ∈ Finset.range n, (handler k).pending set :=
  Finset.single_le_sum (f := fun k => (handler k).pending set) (fun _ _ => Nat.zero_le _) (Finset.mem_range.mpr hh)

theorem SetKept.other (hk : SetKept n handler set lastWrite storedSize stats ms fs) (hh : h < n)
    (hx : (handler h).onSet ≠ some set) (hy : y.onSet ≠ some set) :
    SetKept n (update handler h y) set lastWrite storedSize stats ms fs := by
  constructor
  · intro p
    rw [hk.marked, exists_writes_update hh, exists_writes_iff hh]
    simp [writes_eq_none hx, writes_eq_none hy]
  · exact hk.disjoint
  · exact hk.bounded
  · exact hk.stored
  · have := sum_pending handler y set hh
    rw [pending_eq_zero hx, pending_eq_zero hy] at this
    rw [hk.size]
    omega
  · intro h' hh' p he
    by_cases hhh : h' = h
    · subst hhh
      rw [update_self] at he
      subst he
      exact absurd rfl hy
    · rw [update_of_ne hhh] at he
      exact hk.ending h' hh' p he

theorem SetKept.stays (hk : SetKept n handler set lastWrite storedSize stats ms fs) (hx : Exclusive n handler)
    (hh : h < n) (hw : y.writes = (handler h).writes)
    (hlast : ∀ p, (handler h).writes ≠ some (set, p) → lastWrite' p = lastWrite p)
    (hsize : storedSize' + y.pending set = storedSize + (handler h).pending set)
    (hend : ∀ p, y = .ending set p true → lastWrite' p = .stored) :
    SetKept n (update handler h y) set lastWrite' storedSize' stats ms fs := by
  constructor
  · intro p
    rw [hk.marked, exists_writes_update hh, exists_writes_iff hh, hw]
  · exact hk.disjoint
  · exact hk.bounded
  · intro st hst p hp hm hf
    rw [hlast]
    · exact hk.stored st hst p hp hm hf
    · exact fun hwp => hm ((hk.marked p).mpr ⟨h, hh, hwp⟩)
  · have := sum_pending handler y set hh
    rw [hk.size]
    omega
  · intro h' hh' p he
    by_cases hhh : h' = h
    · subst hhh
      rw [update_self] at he
      exact hend p he
    · rw [update_of_ne hhh] at he
      rw [hlast]
      · exact hk.ending h' hh' p he
      · exact fun hwp => hhh (hx h' hh' h hh _ (writes_ending he rfl) hwp)

theorem SetKept.takes {st : SetStats} (hk : SetKept n handler set lastWrite storedSize stats ms fs) (hh : h < n)
    (hx : (handler h).writes = none) (hy : y.writes = some (set, p))
    (hlast : ∀ q, q ≠ p → lastWrite' q = lastWrite q)
    (hpage : ∀ q, q ≤ st.lastPage ↔ (∃ st, stats = some st ∧ q ≤ st.lastPage) ∨ q = p)
    (hnew : p ∈ fs ∨ ¬ ∃ st, stats = some st ∧ p ≤ st.lastPage)
    (hsize : st.size + (handler h).pending set = stats.elim 0 SetStats.size + y.pending set)
    (hend : ∀ q, y ≠ .ending set q true) :
    p ∉ ms ∧ SetKept n (update handler h y) set lastWrite' storedSize (some st) (insert p ms)
      (fs.erase p) := by
  have hpm : p ∉ ms := by
    obtain hpf | hnot := hnew
    · exact hk.disjoint p hpf
    · exact fun hm => hnot (hk.bounded p (.inr hm))
  refine ⟨hpm, ?_⟩
  constructor
  · intro q
    rw [Finset.mem_insert, hk.marked, exists_writes_update hh, exists_writes_iff hh, hx, hy]
    simp [eq_comm]
  · intro q hq hm
    obtain ⟨hqp, hq⟩ := Finset.mem_erase.mp hq
    obtain rfl | hm := Finset.mem_insert.mp hm
    · exact hqp rfl
    · exact hk.disjoint q hq hm
  · intro q hq
    refine ⟨st, rfl, (hpage q).mpr ?_⟩
    rw [Finset.mem_erase, Finset.mem_insert] at hq
    obtain ⟨-, hq⟩ | rfl | hq := hq
    · exact .inl (hk.bounded q (.inl hq))
    · exact .inr rfl
    · exact .inl (hk.bounded q (.inr hq))
  · rintro st' hst q hq hm hf
    cases hst
    rw [Finset.mem_insert, not_or] at hm
    rw [Finset.mem_erase, not_and] at hf
    obtain ⟨st', hst', hle⟩ := ((hpage q).mp hq).resolve_right hm.1
    rw [hlast q hm.1]
    exact hk.stored st' hst' q hle hm.2 (hf hm.1)
  · have := sum_pending handler y set hh
    have hold := hk.size
    change st.size = _
    omega
  · intro h' hh' q he
    by_cases hhh : h' = h
    · subst hhh
      rw [update_self] at he
      exact absurd he (hend q)
    · rw [update_of_ne hhh] at he
      have hne : q ≠ p := by
        rintro rfl
        exact hpm ((hk.marked q).mpr ⟨h', hh', writes_ending he rfl⟩)
      rw [hlast q hne]
      exact hk.ending h' hh' q he

theorem SetKept.releases {st st' : SetStats} (hk : SetKept n handler set lastWrite storedSize (some st) ms fs)
    (hx : Exclusive n handler) (hh : h < n) (hw : (handler h).writes = some (set, p)) (hy : y.writes = none)
    (hlast : ∀ q, q ≠ p → lastWrite' q = lastWrite q) (hpage : st'.lastPage = st.lastPage)
    (hfree : fs' = insert p fs ∨ fs' = fs ∧ lastWrite' p = .stored)
    (hsize : st'.size + storedSize + (handler h).pending set = st.size + storedSize' + y.pending set) :
    SetKept n (update handler h y) set lastWrite' storedSize' (some st') (ms.erase p) fs' := by
  have hpm : p ∈ ms := (hk.marked p).mpr ⟨h, hh, hw⟩
  have hother : ∀ {q h'}, h' < n → h' ≠ h → (handler h').writes = some (set, q) → q ≠ p := by
    rintro q h' hh' hhh he rfl
    exact hhh (hx h' hh' h hh _ he hw)
  have hsub : ∀ q ∈ fs', q = p ∨ q ∈ fs := by
    intro q hq
    obtain rfl | ⟨rfl, -⟩ := hfree
    · exact Finset.mem_insert.mp hq
    · exact .inr hq
  constructor
  · intro q
    rw [Finset.mem_erase, hk.marked, exists_writes_update hh, exists_writes_iff hh, hw, hy]
    constructor
    · rintro ⟨hqp, he | he⟩
      · rw [Option.some.injEq, Prod.mk.injEq] at he
        exact absurd he.2.symm hqp
      · exact .inr he
    · rintro (he | ⟨h', hh', hhh, he⟩)
      · cases he
      · exact ⟨hother hh' hhh he, .inr ⟨h', hh', hhh, he⟩⟩
  · intro q hq hm
    obtain ⟨hqp, hm⟩ := Finset.mem_erase.mp hm
    exact hk.disjoint q ((hsub q hq).resolve_left hqp) hm
  · intro q hq
    have hb : ∃ st'', some st = some st'' ∧ q ≤ st''.lastPage := by
      obtain hq | hq := hq
      · obtain rfl | hq := hsub q hq
        · exact hk.bounded q (.inr hpm)
        · exact hk.bounded q (.inl hq)
      · exact hk.bounded q (.inr (Finset.mem_of_mem_erase hq))
    obtain ⟨st'', he, hle⟩ := hb
    cases he
    exact ⟨st', rfl, by omega⟩
  · rintro st'' he q hq hm hf
    cases he
    by_cases hqp : q = p
    · subst hqp
      obtain rfl | ⟨-, hs⟩ := hfree
      · exact absurd (Finset.mem_insert_self q fs) hf
      · exact hs
    · rw [hlast q hqp]
      apply hk.stored st rfl q (by omega)
      · exact fun hm' => hm (Finset.mem_erase.mpr ⟨hqp, hm'⟩)
      · intro hf'
        obtain rfl | ⟨rfl, -⟩ := hfree
        · exact hf (Finset.mem_insert_of_mem hf')
        · exact hf hf'
  · have := sum_pending handler y set hh
    have hold := hk.size
    simp only [Option.elim_some] at hold ⊢
    omega
  · intro h' hh' q he
    by_cases hhh : h' = h
    · subst hhh
      rw [update_self] at he
      subst he
      cases hy
    · rw [update_of_ne hhh] at he
      rw [hlast q (hother hh' hhh (writes_ending he rfl))]
      exact hk.ending h' hh' q he

end

section

variable {n h : ℕ} {w w' : World} {x y : Handler} {set : SetId} {p : ℕ} {endReadsEmpty : Bool}

theorem start_kept : Kept n start := by
  constructor
  · rintro h - h' - c hc
    cases hc
  · intro set
    constructor
    · intro p
      constructor
      · nofun
      · rintro ⟨h, -, hc⟩
        cases hc
    · nofun
    · rintro p (hp | hp)
      · cases hp
      · cases hp
    · nofun
    · simp [start, Handler.pending]
    · rintro h - p hp
      cases hp

theorem Exclusive.update {handler : ℕ → Handler} (hx : Exclusive n handler)
    (hy : ∀ c, y.writes = some c → ∀ h' < n, h' ≠ h → (handler h').writes ≠ some c) :
    Exclusive n (Function.update handler h y) := by
  intro h₁ hh₁ h₂ hh₂ c hc₁ hc₂
  by_cases he₁ : h₁ = h
  · by_cases he₂ : h₂ = h
    · rw [he₁, he₂]
    · subst he₁
      rw [Function.update_self] at hc₁
      rw [Function.update_of_ne he₂] at hc₂
      exact absurd hc₂ (hy c hc₁ h₂ hh₂ he₂)
  · rw [Function.update_of_ne he₁] at hc₁
    by_cases he₂ : h₂ = h
    · subst he₂
      rw [Function.update_self] at hc₂
      exact absurd hc₁ (hy c hc₂ h₁ hh₁ he₁)
    · rw [Function.update_of_ne he₂] at hc₂
      exact hx h₁ hh₁ h₂ hh₂ c hc₁ hc₂

structure Changes (w w' : World) (h : ℕ) (y : Handler) (set : SetId) : Prop where
  handler : w'.handler = update w.handler h y
  frontend : ∀ s ≠ set, w'.frontend.pageStats.lookup s = w.frontend.pageStats.lookup s ∧
    marks w'.frontend s = marks w.frontend s ∧ frees w'.frontend s = frees w.frontend s
  lastWrite : ∀ s ≠ set, w'.lastWrite s = w.lastWrite s
  storedSize : ∀ s ≠ set, w'.storedSize s = w.storedSize s
  before : ∀ s ≠ set, (w.handler h).onSet ≠ some s
  after : ∀ s ≠ set, y.onSet ≠ some s

theorem Kept.of_changes (hk : Kept n w) (hc : Changes w w' h y set) (hh : h < n)
    (hx : Exclusive n (update w.handler h y))
    (hset : SetKept n (update w.handler h y) set (w'.lastWrite set) (w'.storedSize set)
      (w'.frontend.pageStats.lookup set) (marks w'.frontend set) (frees w'.frontend set)) : Kept n w' := by
  constructor
  · rw [hc.handler]
    exact hx
  · intro s
    unfold World.SetKept
    rw [hc.handler]
    by_cases hs : s = set
    · rw [hs]
      exact hset
    · obtain ⟨h1, h2, h3⟩ := hc.frontend s hs
      rw [h1, h2, h3, hc.lastWrite s hs, hc.storedSize s hs]
      exact (hk.sets s).other hh (hc.before s hs) (hc.after s hs)

theorem Kept.stays (hk : Kept n w) (hc : Changes w w' h y set) (hh : h < n) (hf : w'.frontend = w.frontend)
    (hw : y.writes = (w.handler h).writes)
    (hlast : ∀ p, (w.handler h).writes ≠ some (set, p) → w'.lastWrite set p = w.lastWrite set p)
    (hsize : w'.storedSize set + y.pending set = w.storedSize set + (w.handler h).pending set)
    (hend : ∀ p, y = .ending set p true → w'.lastWrite set p = .stored) : Kept n w' := by
  apply hk.of_changes hc hh
  · apply hk.exclusive.update
    intro c hy h' hh' hne hw'
    rw [hw] at hy
    exact hne (hk.exclusive h' hh' h hh c hw' hy)
  · rw [hf]
    exact (hk.sets set).stays hk.exclusive hh hw hlast hsize hend

theorem lastWrite_writeEnds (w : World) (set : SetId) (p : ℕ) (x : Write) :
    (w.writeEnds set p x).lastWrite set p = x ∧ (∀ q, q ≠ p → (w.writeEnds set p x).lastWrite set q = w.lastWrite set q) ∧
      ∀ s ≠ set, (w.writeEnds set p x).lastWrite s = w.lastWrite s := by
  refine ⟨by simp [World.writeEnds], fun q hq => ?_, fun s hs => ?_⟩
  · simp [World.writeEnds, update_of_ne hq]
  · simp [World.writeEnds, update_of_ne hs]

theorem Kept.goto (hk : Kept n w) (hh : h < n) (hx : w.handler h = x)
    (hset : ∀ s ≠ set, x.onSet ≠ some s ∧ y.onSet ≠ some s) (hw : y.writes = x.writes)
    (hsize : y.pending set = x.pending set) (hend : ∀ p, y ≠ .ending set p true) : Kept n (w.goto h y) := by
  subst hx
  refine hk.stays ⟨rfl, fun _ _ => ⟨rfl, rfl, rfl⟩, fun _ _ => rfl, fun _ _ => rfl, fun s hs => (hset s hs).1,
    fun s hs => (hset s hs).2⟩ hh rfl hw (fun _ _ => rfl) ?_ fun p hp => absurd hp (hend p)
  change w.storedSize set + y.pending set = _
  rw [hsize]

theorem Kept.fails (hk : Kept n w) (hh : h < n) (hx : w.handler h = x)
    (hset : ∀ s ≠ set, x.onSet ≠ some s ∧ y.onSet ≠ some s) (hp : x.writes = some (set, p)) (hw : y.writes = x.writes)
    (hsize : y.pending set = x.pending set) (hend : ∀ p, y ≠ .ending set p true) :
    Kept n ((w.writeEnds set p .failed).goto h y) := by
  subst hx
  obtain ⟨-, hpage, hother⟩ := lastWrite_writeEnds w set p .failed
  refine hk.stays ⟨rfl, fun _ _ => ⟨rfl, rfl, rfl⟩, hother, fun _ _ => rfl, fun s hs => (hset s hs).1,
    fun s hs => (hset s hs).2⟩ hh rfl hw ?_ ?_ fun p hp => absurd hp (hend p)
  · intro q hq
    apply hpage
    rintro rfl
    exact hq hp
  · change w.storedSize set + y.pending set = _
    rw [hsize]

theorem onSet_or {x y : Handler} (hx : x.onSet = some set ∨ x.onSet = none) (hy : y.onSet = some set ∨ y.onSet = none) :
    ∀ s ≠ set, x.onSet ≠ some s ∧ y.onSet ≠ some s := by
  intro s hs
  constructor
  · obtain hx | hx := hx <;> simp [hx, Ne.symm hs]
  · obtain hy | hy := hy <;> simp [hy, Ne.symm hs]

theorem Kept.exists_stats (hk : Kept n w) (hh : h < n) (hw : (w.handler h).writes = some (set, p)) :
    ∃ st, w.frontend.pageStats.lookup set = some st ∧ p ≤ st.lastPage ∧ (w.handler h).pending set ≤ st.size := by
  have hs := hk.sets set
  obtain ⟨st, hst, hle⟩ := hs.bounded p (.inr ((hs.marked p).mpr ⟨h, hh, hw⟩))
  refine ⟨st, hst, hle, ?_⟩
  have hsize := hs.size
  rw [hst] at hsize
  have := pending_le w.handler set hh
  simp only [Option.elim_some] at hsize
  omega

theorem takePage_becomes {f : Frontend} {first : ℕ} (hend : endReadsEmpty = true ∨ f.freeSkippedPages set ≠ none)
    (hfirst : ∀ pages, f.freeSkippedPages set = some pages → pages ≠ ∅ → first ∈ pages)
    (hb : first ∈ frees f set → pageExists f set first = true) :
    ∃ p f' st, takePage endReadsEmpty f set first = .ok (p, f') ∧
      Becomes f f' set (some st) (insert p (marks f set)) ((frees f set).erase p) ∧
      st.size = (f.pageStats.lookup set).elim 0 SetStats.size ∧
      (∀ q, q ≤ st.lastPage ↔ pageExists f set q = true ∨ q = p) ∧
      (p ∈ frees f set ∨ pageExists f set p = false) := by
  obtain ⟨p, f', st, hrun, hf, hsize, hpage, hnew⟩ := getNextFreePage_becomes hend hfirst hb
  refine ⟨p, startWritingToPage f' set p, st, ?_, ?_, hsize, hpage, hnew⟩
  · rw [takePage, hrun, ok_bind]
    rfl
  · have h := hf.trans (becomes_startWritingToPage f' set p)
    rwa [hf.stats, hf.marks, hf.frees] at h

theorem Kept.takes (hk : Kept n w) (hh : h < n) (hx : w.handler h = x) (hset : ∀ s ≠ set, x.onSet ≠ some s ∧ y.onSet ≠ some s)
    (hw : x.writes = none) (hy : y.writes = some (set, p)) (hend : ∀ q, y ≠ .ending set q true) {f : Frontend}
    {st : SetStats} (hf : Becomes w.frontend f set (some st) (insert p (marks w.frontend set))
      ((frees w.frontend set).erase p))
    (hsize : st.size + x.pending set = (w.frontend.pageStats.lookup set).elim 0 SetStats.size + y.pending set)
    (hpage : ∀ q, q ≤ st.lastPage ↔ pageExists w.frontend set q = true ∨ q = p)
    (hnew : p ∈ frees w.frontend set ∨ pageExists w.frontend set p = false) :
    Kept n (({ w with frontend := f }.writeEnds set p .writing).goto h y) := by
  subst hx
  obtain ⟨-, hlast, hother⟩ := lastWrite_writeEnds { w with frontend := f } set p .writing
  simp only [pageExists_iff] at hpage
  rw [Bool.eq_false_iff, Ne, pageExists_iff] at hnew
  obtain ⟨hpm, hs⟩ := (hk.sets set).takes hh hw hy hlast hpage hnew hsize hend
  refine hk.of_changes ⟨rfl, hf.other, hother, fun _ _ => rfl, fun s hs => (hset s hs).1, fun s hs => (hset s hs).2⟩ hh
    ?_ ?_
  · apply hk.exclusive.update
    intro c hc h' hh' _ hw'
    rw [hy, Option.some.injEq] at hc
    subst hc
    exact hpm (((hk.sets set).marked p).mpr ⟨h', hh', hw'⟩)
  · change SetKept n _ set _ _ (f.pageStats.lookup set) (marks f set) (frees f set)
    rw [hf.stats, hf.marks, hf.frees]
    exact hs

theorem Kept.releases (hk : Kept n w) (hc : Changes w w' h y set) (hh : h < n) (hw : (w.handler h).writes = some (set, p))
    (hy : y.writes = none) {st st' : SetStats} {fs' : Finset ℕ} (hst : w.frontend.pageStats.lookup set = some st)
    (hf : Becomes w.frontend w'.frontend set (some st') ((marks w.frontend set).erase p) fs')
    (hlast : ∀ q, q ≠ p → w'.lastWrite set q = w.lastWrite set q) (hpage : st'.lastPage = st.lastPage)
    (hfree : fs' = insert p (frees w.frontend set) ∨ fs' = frees w.frontend set ∧ w'.lastWrite set p = .stored)
    (hsize : st'.size + w.storedSize set + (w.handler h).pending set = st.size + w'.storedSize set + y.pending set) :
    Kept n w' := by
  apply hk.of_changes hc hh
  · apply hk.exclusive.update
    intro c hc
    rw [hy] at hc
    cases hc
  · rw [hf.stats, hf.marks, hf.frees]
    have hs := hk.sets set
    unfold World.SetKept at hs
    rw [hst] at hs
    exact hs.releases hk.exclusive hh hw hy hlast hpage hfree hsize

theorem cleanUp_becomes {f : Frontend} {st : SetStats} (h : f.pageStats.lookup set = some st) {size : ℕ}
    (hle : size ≤ st.size) : ∃ f', cleanUp f set p size = .ok f' ∧
      Becomes f f' set (some { st with size := st.size - size }) ((marks f set).erase p) (insert p (frees f set)) := by
  have h1 := becomes_endWritingToPage f set p
  have h2 := becomes_freeSetPage (endWritingToPage f set p) set p
  rw [h1.stats, h1.marks, h1.frees] at h2
  have h12 := h1.trans h2
  obtain ⟨f', hrun, h3⟩ := decrementSetSize_becomes (h12.stats.trans h) hle
  rw [h12.marks, h12.frees] at h3
  exact ⟨f', hrun, h12.trans h3⟩

theorem Kept.takePage {first : ℕ} (hk : Kept n w) (hh : h < n) (hset : (w.handler h).set? = some set)
    (hfirst : ∀ pages, w.frontend.freeSkippedPages set = some pages → pages ≠ ∅ → first ∈ pages)
    (hend : endReadsEmpty = true ∨ w.frontend.freeSkippedPages set ≠ none) :
    ∃ w', w.step endReadsEmpty (.takePage h first) = .ok w' ∧ Kept n w' := by
  have hb : ∀ q ∈ frees w.frontend set, pageExists w.frontend set q = true := fun q hq =>
    pageExists_iff.mpr ((hk.sets set).bounded q (.inl hq))
  obtain ⟨p, f, st, hrun, hf, hsize, hpage, hnew⟩ := takePage_becomes hend hfirst (hb first)
  rw [step]
  cases hx : w.handler h with
  | received s size =>
    rw [hx, Handler.set?, Option.some.injEq] at hset
    subst hset
    obtain ⟨f', hinc, hf'⟩ := incrementSetSize_becomes hf.stats size
    rw [hf.marks, hf.frees] at hf'
    dsimp only
    rw [hrun, ok_bind]
    dsimp only
    rw [hinc, ok_bind]
    refine ⟨_, rfl, hk.takes (y := .dispatching .connect s p size) hh hx (onSet_or (.inl rfl) (.inl rfl)) rfl rfl
      nofun (hf.trans hf') ?_ hpage hnew⟩
    simp [Handler.pending, hsize]
  | materializing s =>
    rw [hx, Handler.set?, Option.some.injEq] at hset
    subst hset
    dsimp only
    rw [hrun, ok_bind]
    refine ⟨_, rfl, hk.takes (y := .forwardingPage s p) hh hx (onSet_or (.inl rfl) (.inl rfl)) rfl rfl nofun hf ?_
      hpage hnew⟩
    simp [Handler.pending, hsize]
  | _ =>
    rw [hx] at hset
    cases hset

theorem Kept.call {success : Bool} (hk : Kept n w) (hh : h < n) {call : BackendCall} {size : ℕ}
    (hx : w.handler h = .dispatching call set p size) (hcall : call ≠ .wait)
    (hconnect : success = false → call ≠ .connect) :
    ∃ w', w.step endReadsEmpty (.call h success) = .ok w' ∧ Kept n w' := by
  rw [step, hx]
  have hset : ∀ {y : Handler}, (y.onSet = some set ∨ y.onSet = none) →
      ∀ s ≠ set, (Handler.dispatching call set p size).onSet ≠ some s ∧ y.onSet ≠ some s := fun hy =>
    onSet_or (.inl rfl) hy
  cases success with
  | true =>
    cases call with
    | connect => exact ⟨_, rfl, hk.goto hh hx (hset (.inl rfl)) rfl rfl nofun⟩
    | send => exact ⟨_, rfl, hk.goto hh hx (hset (.inl rfl)) rfl rfl nofun⟩
    | forward => exact ⟨_, rfl, hk.goto hh hx (hset (.inl rfl)) rfl rfl nofun⟩
    | wait => exact absurd rfl hcall
  | false =>
    cases call with
    | connect => exact absurd rfl (hconnect rfl)
    | send => exact ⟨_, rfl, hk.fails hh hx (hset (.inl rfl)) rfl rfl rfl nofun⟩
    | forward => exact ⟨_, rfl, hk.fails hh hx (hset (.inl rfl)) rfl rfl rfl nofun⟩
    | wait => exact absurd rfl hcall

theorem Kept.respond {response : Response} (hk : Kept n w) (hh : h < n) {size : ℕ}
    (hx : w.handler h = .dispatching .wait set p size) (hlost : response ≠ .lost) :
    ∃ w', w.step endReadsEmpty (.respond h response) = .ok w' ∧ Kept n w' := by
  rw [step, hx]
  have hset : ∀ {y : Handler}, (y.onSet = some set ∨ y.onSet = none) →
      ∀ s ≠ set, (Handler.dispatching .wait set p size).onSet ≠ some s ∧ y.onSet ≠ some s := fun hy =>
    onSet_or (.inl rfl) hy
  cases response with
  | stored =>
    obtain ⟨hself, hpage, hother⟩ := lastWrite_writeEnds w set p .stored
    have hss := hset (y := .ending set p true) (.inl rfl)
    rw [← hx] at hss
    refine ⟨_, rfl, hk.stays ⟨rfl, fun _ _ => ⟨rfl, rfl, rfl⟩, hother, fun s hs => update_of_ne hs ..,
      fun s hs => (hss s hs).1, fun s hs => (hss s hs).2⟩ hh rfl ?_ ?_ ?_ ?_⟩
    · rw [hx]
      rfl
    · intro q hq
      apply hpage
      rintro rfl
      rw [hx] at hq
      exact hq rfl
    · rw [hx]
      simp [World.goto, World.stores, Handler.pending]
    · rintro q he
      cases he
      exact hself
  | rejected => exact ⟨_, rfl, hk.fails hh hx (hset (.inl rfl)) rfl rfl rfl nofun⟩
  | lost => exact absurd rfl hlost

theorem Kept.cleanUp (size : ℕ) (hk : Kept n w) (hh : h < n) (hx : w.handler h = x) (hp : x.writes = some (set, p))
    (hpend : x.pending set = size) (hset : ∀ s ≠ set, x.onSet ≠ some s ∧ y.onSet ≠ some s) (hy : y.writes = none)
    (hypend : y.pending set = 0) :
    ∃ f, StorageHandlers.cleanUp w.frontend set p size = .ok f ∧ Kept n ({ w with frontend := f }.goto h y) := by
  subst hx hpend
  obtain ⟨st, hst, -, hle⟩ := hk.exists_stats hh hp
  obtain ⟨f, hrun, hf⟩ := cleanUp_becomes (p := p) hst hle
  refine ⟨f, hrun, hk.releases ⟨rfl, hf.other, fun _ _ => rfl, fun _ _ => rfl, fun s hs => (hset s hs).1,
    fun s hs => (hset s hs).2⟩ hh hp hy hst hf (fun _ _ => rfl) rfl (.inl rfl) ?_⟩
  simp only [World.goto, hypend]
  omega

theorem Kept.endWriting {success : Bool} (hk : Kept n w) (hh : h < n) (hx : w.handler h = .ending set p success)
    (hfree : success = false → isPageBeingWrittenTo w.frontend set p = false) :
    ∃ w', w.step endReadsEmpty (.endWriting h) = .ok w' ∧ Kept n w' := by
  rw [step, hx]
  have hf := becomes_endWritingToPage w.frontend set p
  have hset : ∀ s ≠ set, (Handler.ending set p success).onSet ≠ some s ∧ Handler.idle.onSet ≠ some s :=
    onSet_or (.inl rfl) (.inr rfl)
  rw [← hx] at hset
  refine ⟨_, rfl, ?_⟩
  cases success with
  | true =>
    have hp : (w.handler h).writes = some (set, p) := by
      rw [hx]
      rfl
    obtain ⟨st, hst, -, -⟩ := hk.exists_stats hh hp
    rw [hst] at hf
    refine hk.releases ⟨rfl, hf.other, fun _ _ => rfl, fun _ _ => rfl, fun s hs => (hset s hs).1,
      fun s hs => (hset s hs).2⟩ hh hp rfl hst hf (fun _ _ => rfl) rfl (.inr ⟨rfl, (hk.sets set).ending h hh p hx⟩) ?_
    rw [hx]
    rfl
  | false =>
    -- the page is not marked, so nothing is erased
    have hnot : p ∉ marks w.frontend set := fun hm => by
      have := hfree rfl
      rw [Bool.eq_false_iff] at this
      exact this (isPageBeingWrittenTo_iff.mpr hm)
    rw [Finset.erase_eq_of_notMem hnot] at hf
    refine hk.of_changes (y := .idle) ⟨rfl, hf.other, fun _ _ => rfl, fun _ _ => rfl,
      fun s hs => (hset s hs).1, fun s hs => (hset s hs).2⟩ hh ?_ ?_
    · exact hk.exclusive.update nofun
    · change SetKept n _ set _ _ ((endWritingToPage w.frontend set p).pageStats.lookup set)
        (marks (endWritingToPage w.frontend set p) set) (frees (endWritingToPage w.frontend set p) set)
      rw [hf.stats, hf.marks, hf.frees]
      apply (hk.sets set).stays hk.exclusive hh
      · rw [hx]
        rfl
      · exact fun _ _ => rfl
      · rw [hx]
        rfl
      · nofun

theorem Kept.giveUp (hk : Kept n w) (hh : h < n) (hx : w.handler h = .givingUp set p) :
    ∃ w', w.step endReadsEmpty (.giveUp h) = .ok w' ∧ Kept n w' := by
  rw [step, hx]
  have h1 := becomes_endWritingToPage w.frontend set p
  have h2 := becomes_freeSetPage (endWritingToPage w.frontend set p) set p
  rw [h1.stats, h1.marks, h1.frees] at h2
  have hf := h1.trans h2
  have hp : (w.handler h).writes = some (set, p) := by
    rw [hx]
    rfl
  obtain ⟨st, hst, -, -⟩ := hk.exists_stats hh hp
  rw [hst] at hf
  have hset : ∀ s ≠ set, (Handler.givingUp set p).onSet ≠ some s ∧ Handler.idle.onSet ≠ some s :=
    onSet_or (.inl rfl) (.inr rfl)
  rw [← hx] at hset
  refine ⟨_, rfl, hk.releases ⟨rfl, hf.other, fun _ _ => rfl, fun _ _ => rfl, fun s hs => (hset s hs).1,
    fun s hs => (hset s hs).2⟩ hh hp rfl hst hf (fun _ _ => rfl) rfl (.inl rfl) ?_⟩
  rw [hx]
  rfl

theorem Kept.freezePage {freezeSize : ℕ} {hasNext : Bool} (hk : Kept n w) (hh : h < n)
    (hx : w.handler h = .freezing set p freezeSize hasNext) :
    ∃ w', w.step endReadsEmpty (.freezePage h) = .ok w' ∧ Kept n w' := by
  rw [step, hx]
  have hp : (w.handler h).writes = some (set, p) := by
    rw [hx]
    rfl
  obtain ⟨st, hst, -, -⟩ := hk.exists_stats hh hp
  have h1 := becomes_endWritingToPage w.frontend set p
  obtain ⟨f, hrun, h2⟩ := incrementSetSize_becomes (h1.stats.trans hst) freezeSize
  rw [h1.marks, h1.frees] at h2
  have hf := h1.trans h2
  dsimp only
  rw [hrun, ok_bind]
  obtain ⟨hself, hpage, hother⟩ := lastWrite_writeEnds { w with frontend := f } set p .stored
  have hset : ∀ s ≠ set, (Handler.freezing set p freezeSize hasNext).onSet ≠ some s ∧
      (if hasNext then Handler.materializing set else .idle).onSet ≠ some s :=
    onSet_or (.inl rfl) (by cases hasNext <;> simp [Handler.onSet])
  rw [← hx] at hset
  refine ⟨_, rfl, hk.releases ⟨rfl, hf.other, hother, fun s hs => update_of_ne hs .., fun s hs => (hset s hs).1,
    fun s hs => (hset s hs).2⟩ hh hp ?_ hst hf hpage rfl (.inr ⟨rfl, hself⟩) ?_⟩
  · cases hasNext <;> rfl
  · rw [hx]
    cases hasNext <;> simp [World.goto, World.stores, Handler.pending] <;> omega

theorem Kept.clear (hk : Kept n w) (hnone : ∀ page, isPageBeingWrittenTo w.frontend set page = false) :
    ∃ w', w.step endReadsEmpty (.clear set) = .ok w' ∧ Kept n w' := by
  have hempty : (w.frontend.pagesBeingWrittenTo set).getD ∅ = ∅ := by
    apply Finset.eq_empty_of_forall_notMem
    intro p hp
    have := hnone p
    rw [Bool.eq_false_iff] at this
    exact this (isPageBeingWrittenTo_iff.mpr hp)
  have hclear : handleClearSetRequest w.frontend set = (true, ⟨w.frontend.pageStats.erase set,
      update w.frontend.pagesBeingWrittenTo set none,
      update w.frontend.freeSkippedPages set none⟩) := by
    unfold handleClearSetRequest
    dsimp only
    rw [if_pos hempty]
  rw [step, hclear]
  refine ⟨_, rfl, hk.exclusive, fun s => ?_⟩
  by_cases hs : s = set
  · subst hs
    have hset := hk.sets s
    -- no handler writes a page of the set
    have hno : ∀ p, ¬ ∃ h < n, (w.handler h).writes = some (s, p) := fun p hw => by
      have hm := (hset.marked p).mpr hw
      unfold StorageFrontend.marks at hm
      rw [hempty] at hm
      cases hm
    unfold World.SetKept
    simp only [marks, frees, AList.lookup_erase, update_self, Option.getD_none]
    constructor
    · intro p
      exact ⟨fun hp => absurd hp (Finset.notMem_empty p), fun hw => absurd hw (hno p)⟩
    · intro p hp
      cases hp
    · rintro p (hp | hp)
      · cases hp
      · cases hp
    · intro p hp
      cases hp
    · symm
      rw [Option.elim_none, Nat.zero_add, Finset.sum_eq_zero_iff]
      intro h hh
      cases hx : w.handler h with
      | dispatching call s' q size =>
        rw [Handler.pending, if_neg]
        rintro rfl
        exact hno q ⟨h, Finset.mem_range.mp hh, by rw [hx]; rfl⟩
      | failed s' q size =>
        rw [Handler.pending, if_neg]
        rintro rfl
        exact hno q ⟨h, Finset.mem_range.mp hh, by rw [hx]; rfl⟩
      | rejected s' q size =>
        rw [Handler.pending, if_neg]
        rintro rfl
        exact hno q ⟨h, Finset.mem_range.mp hh, by rw [hx]; rfl⟩
      | _ => rfl
    · intro h hh p he
      exact absurd ⟨h, hh, writes_ending he rfl⟩ (hno p)
  · unfold World.SetKept
    simp only [marks, frees, AList.lookup_erase_ne hs, update_of_ne hs]
    exact hk.sets s

theorem Kept.step (hk : Kept n w) {e : Event} (hv : e.Valid n w) (hs : e.Harmless endReadsEmpty w) :
    ∃ w', w.step endReadsEmpty e = .ok w' ∧ Kept n w' := by
  obtain ⟨hh, hv⟩ := hv
  cases e with
  | dispatch h set size =>
    have hh := hh h rfl
    rw [World.step, hv]
    have hset : ∀ s ≠ set, Handler.idle.onSet ≠ some s ∧ (Handler.received set size).onSet ≠ some s :=
      onSet_or (.inr rfl) (.inl rfl)
    exact ⟨_, rfl, hk.goto hh hv hset rfl rfl nofun⟩
  | materialize h set =>
    have hh := hh h rfl
    rw [World.step, hv]
    have hset : ∀ s ≠ set, Handler.idle.onSet ≠ some s ∧ (Handler.materializing set).onSet ≠ some s :=
      onSet_or (.inr rfl) (.inl rfl)
    exact ⟨_, rfl, hk.goto hh hv hset rfl rfl nofun⟩
  | takePage h first =>
    obtain ⟨set, hset, hfirst⟩ := hv
    exact hk.takePage (hh h rfl) hset hfirst (hs.imp id fun hs => hs set hset)
  | call h success =>
    obtain ⟨call, set, page, size, hx, hcall⟩ := hv
    apply hk.call (hh h rfl) hx hcall
    rintro hfail rfl
    exact hs hfail set page size hx
  | respond h response =>
    obtain ⟨set, page, size, hx⟩ := hv
    exact hk.respond (hh h rfl) hx hs
  | handleDispatchFailure h =>
    obtain ⟨set, page, size, hx⟩ := hv
    obtain ⟨f, hrun, hk'⟩ := hk.cleanUp (y := .idle) size (hh h rfl) hx rfl (by simp [Handler.pending])
      (onSet_or (.inl rfl) (.inr rfl)) rfl rfl
    rw [World.step, hx]
    dsimp only
    rw [hrun, ok_bind]
    exact ⟨_, rfl, hk'⟩
  | invalidate h =>
    obtain ⟨set, page, size, hx⟩ := hv
    obtain ⟨f, hrun, hk'⟩ := hk.cleanUp (y := .ending set page false) size (hh h rfl) hx rfl
      (by simp [Handler.pending]) (onSet_or (.inl rfl) (.inl rfl)) rfl rfl
    rw [World.step, hx]
    dsimp only
    rw [hrun, ok_bind]
    exact ⟨_, rfl, hk'⟩
  | endWriting h =>
    obtain ⟨set, page, success, hx⟩ := hv
    apply hk.endWriting (hh h rfl) hx
    rintro rfl
    exact hs set page hx
  | forwardPage h success =>
    obtain ⟨set, page, hx⟩ := hv
    rw [World.step, hx]
    cases success with
    | true => exact ⟨_, rfl, hk.goto (hh h rfl) hx (onSet_or (.inl rfl) (.inl rfl)) rfl rfl nofun⟩
    | false => exact ⟨_, rfl, hk.fails (hh h rfl) hx (onSet_or (.inl rfl) (.inl rfl)) rfl rfl rfl nofun⟩
  | pageResult h result =>
    obtain ⟨set, page, hx⟩ := hv
    rw [World.step, hx]
    cases result with
    | some r => exact ⟨_, rfl, hk.goto (hh h rfl) hx (onSet_or (.inl rfl) (.inl rfl)) rfl rfl nofun⟩
    | none => exact ⟨_, rfl, hk.fails (hh h rfl) hx (onSet_or (.inl rfl) (.inl rfl)) rfl rfl rfl nofun⟩
  | giveUp h =>
    obtain ⟨set, page, hx⟩ := hv
    exact hk.giveUp (hh h rfl) hx
  | freezePage h =>
    obtain ⟨set, page, freezeSize, hasNext, hx⟩ := hv
    exact hk.freezePage (hh h rfl) hx
  | clear set => exact hk.clear hs

theorem Kept.stored_of_isValid (hk : Kept n w) (hv : isValid w.frontend set p = true) : w.lastWrite set p = .stored := by
  obtain ⟨⟨st, hst, hle⟩, hm, hf⟩ := isValid_iff.mp hv
  exact (hk.sets set).stored st hst p hle hm hf

theorem Kept.sound (hk : Kept n w) : SoundStorage endReadsEmpty n w := by
  constructor
  · exact hk.exclusive
  · intro set page hf
    rw [Bool.eq_false_iff]
    intro hm
    exact (hk.sets set).disjoint page (isPageFree_iff.mp hf) (isPageBeingWrittenTo_iff.mp hm)
  · intro set page hp
    rw [isPageFree_iff, isPageBeingWrittenTo_iff] at hp
    exact pageExists_iff.mpr ((hk.sets set).bounded page hp)
  · exact fun set page q hq => hk.stored_of_isValid (getValidPage_eq_some hq).2.1
  · exact fun set q hq => hk.stored_of_isValid (mem_handleGetSetPages.mp hq)
  · intro hidle set
    have hs := hk.sets set
    constructor
    · intro page
      rw [Bool.eq_false_iff]
      intro hm
      obtain ⟨h, hh, hw⟩ := (hs.marked page).mp (isPageBeingWrittenTo_iff.mp hm)
      rw [hidle h hh] at hw
      cases hw
    · have hsize := hs.size
      rw [Finset.sum_eq_zero fun h hh => by rw [hidle h (Finset.mem_range.mp hh)]; rfl] at hsize
      rw [Nat.add_zero] at hsize
      rw [← hsize, setSize]
      cases w.frontend.pageStats.lookup set <;> rfl
  · intro e hv hs
    obtain ⟨w', hrun, -⟩ := hk.step hv hs
    exact ⟨w', hrun⟩

theorem soundStorage_of_reachable (endReadsEmpty : Bool) (numHandlers : ℕ) (w : World)
    (hw : Reachable (step endReadsEmpty) (fun e w => e.Valid numHandlers w ∧ e.Harmless endReadsEmpty w)
      Starts w) : SoundStorage endReadsEmpty numHandlers w := by
  have hk : Kept numHandlers w := by
    apply hw.invariant
    · rintro w rfl
      exact start_kept
    · intro e w w' hk hg hs
      obtain ⟨w'', hrun, hk'⟩ := hk.step hg.1 hg.2
      rw [hs, Except.ok.injEq] at hrun
      exact hrun ▸ hk'
  exact hk.sound

theorem quiescent_one (hw : w.handler 0 = .idle) : w.Quiescent 1 := by
  intro h hh
  obtain rfl : h = 0 := by omega
  exact hw

theorem soundStorage_dispatch : ∃ w, w.Quiescent 1 ∧ setSize w.frontend ([100], [115]) = 5 ∧
    getValidPage w.frontend ([100], [115]) 0 = some 0 ∧ SoundStorage true 1 w := by
  have hone : ∀ {e : Event}, e.handler? = some 0 → ∀ h, e.handler? = some h → h < 1 := by
    intro e he h he'
    rw [he, Option.some.injEq] at he'
    omega
  have hrun : Reachable (step true) (fun e w => e.Valid 1 w ∧ e.Harmless true w) Starts _ :=
    .step (i := .endWriting 0)
      (.step (i := .respond 0 .stored)
        (.step (i := .call 0 true)
          (.step (i := .call 0 true)
            (.step (i := .call 0 true)
              (.step (i := .takePage 0 0)
                (.step (i := .dispatch 0 ([100], [115]) 5) (.start rfl) ⟨⟨hone rfl, rfl⟩, trivial⟩ rfl)
                ⟨⟨hone rfl, _, rfl, nofun⟩, .inl rfl⟩ rfl)
              ⟨⟨hone rfl, _, _, _, _, rfl, nofun⟩, nofun⟩ rfl)
            ⟨⟨hone rfl, _, _, _, _, rfl, nofun⟩, nofun⟩ rfl)
          ⟨⟨hone rfl, _, _, _, _, rfl, nofun⟩, nofun⟩ rfl)
        ⟨⟨hone rfl, _, _, _, rfl⟩, nofun⟩ rfl)
      ⟨⟨hone rfl, _, _, _, rfl⟩, nofun⟩ rfl
  exact ⟨_, quiescent_one rfl, rfl, rfl, soundStorage_of_reachable true 1 _ hrun⟩

theorem not_soundStorage :
    (∃ w, Reachable (step true) (Event.Valid 1) Starts w ∧ w.Quiescent 1 ∧
      isPageBeingWrittenTo w.frontend ([100], [115]) 0 = true ∧ ¬ SoundStorage true 1 w) ∧
    ∃ w, Reachable (step true) (Event.Valid 2) Starts w ∧
      getValidPage w.frontend ([100], [115]) 0 = some 0 ∧ w.lastWrite ([100], [115]) 0 = .writing ∧
      ¬ SoundStorage true 2 w := by
  have hbound : ∀ {e : Event} {k n : ℕ}, e.handler? = some k → k < n → ∀ h, e.handler? = some h → h < n := by
    intro e k n he hk h he'
    rw [he, Option.some.injEq] at he'
    omega
  constructor
  · have hrun : Reachable (step true) (Event.Valid 1) Starts _ :=
      .step (i := .call 0 false)
        (.step (i := .takePage 0 0)
          (.step (i := .dispatch 0 ([100], [115]) 5) (.start rfl) ⟨hbound rfl (by decide), rfl⟩ rfl)
          ⟨hbound rfl (by decide), _, rfl, nofun⟩ rfl)
        ⟨hbound rfl (by decide), _, _, _, _, rfl, nofun⟩ rfl
    refine ⟨_, hrun, quiescent_one rfl, rfl, fun hs => ?_⟩
    cases (hs.quiescent (quiescent_one rfl) ([100], [115])).1 0
  · have hrun : Reachable (step true) (Event.Valid 2) Starts _ :=
      .step (i := .endWriting 0)
        (.step (i := .takePage 1 0)
          (.step (i := .dispatch 1 ([100], [115]) 7)
            (.step (i := .invalidate 0)
              (.step (i := .respond 0 .rejected)
                (.step (i := .call 0 true)
                  (.step (i := .call 0 true)
                    (.step (i := .call 0 true)
                      (.step (i := .takePage 0 0)
                        (.step (i := .dispatch 0 ([100], [115]) 5) (.start rfl) ⟨hbound rfl (by decide), rfl⟩ rfl)
                        ⟨hbound rfl (by decide), _, rfl, nofun⟩ rfl)
                      ⟨hbound rfl (by decide), _, _, _, _, rfl, nofun⟩ rfl)
                    ⟨hbound rfl (by decide), _, _, _, _, rfl, nofun⟩ rfl)
                  ⟨hbound rfl (by decide), _, _, _, _, rfl, nofun⟩ rfl)
                ⟨hbound rfl (by decide), _, _, _, rfl⟩ rfl)
              ⟨hbound rfl (by decide), _, _, _, rfl⟩ rfl)
            ⟨hbound rfl (by decide), rfl⟩ rfl)
          ⟨hbound rfl (by decide), _, rfl, fun pages hp _ => by cases hp; decide⟩ rfl)
        ⟨hbound rfl (by decide), _, _, _, rfl⟩ rfl
    refine ⟨_, hrun, rfl, rfl, fun hs => ?_⟩
    cases hs.validPage ([100], [115]) 0 0 rfl

end

end PlinyCompute.StorageHandlers
