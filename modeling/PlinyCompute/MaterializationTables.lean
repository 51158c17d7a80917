import PlinyCompute.Materialization
import PlinyCompute.StorageAccounting

namespace PlinyCompute.Materialization

open BufferManager (Config getLogPageSize getLogPageSize_returns)
open StorageFrontend StorageHandlers Transition

section Pages

variable {cfg : Config} {me me' : SetPage cfg} {source : Page cfg}

theorem Page.ext {p q : Page cfg} (hn : p.numBytes = q.numBytes) (hb : p.bytes = q.bytes) : p = q := by
  cases p
  cases q
  dsimp only at hn hb
  subst hn hb
  rfl

theorem Page.getSize_eq (h : source.Small) : source.getSize = 2 ^ (cfg.logOfMinPageSize + source.numBytes) := by
  rw [getSize, Config.miniPageSize, Config.minPageSize, Nat.shiftLeft_eq, ← Nat.pow_add]
  exact Nat.mod_eq_of_lt (Nat.pow_lt_pow_right Nat.one_lt_two h)

theorem Page.take_getSize (h : source.Small) : source.bytes.take source.getSize = source.bytes := by
  rw [getSize_eq h, ← source.length_bytes, List.take_length]

structure SetPage.Holds (me : SetPage cfg) (source : Page cfg) : Prop where
  room : me.Room source
  bytes : me.page.bytes.take (2 ^ (cfg.logOfMinPageSize + source.numBytes)) = source.bytes

theorem SetPage.Room.copy (h : me.Room source) : ∃ me', me.copy source = .ok me' ∧ me'.Holds source := by
  have hlen : (source.bytes.take source.getSize).length ≤ me.page.bytes.length := by
    rw [Page.take_getSize h.small, source.length_bytes, me.page.length_bytes]
    exact Nat.pow_le_pow_right Nat.zero_lt_two (Nat.add_le_add_left h.enough _)
  rw [SetPage.copy, dif_pos hlen]
  refine ⟨_, rfl, ⟨h.small, h.enough, h.unfrozen⟩, ?_⟩
  dsimp only [Page.write]
  rw [Page.take_getSize h.small, ← source.length_bytes, List.take_left]

theorem SetPage.Holds.freezeSize (h : me.Holds source) :
    ∃ me', me.freezeSize source.getSize = .ok me' ∧ me'.page = source := by
  have hclass : cfg.sizeClass source.getSize = source.numBytes := by
    rw [Page.getSize_eq h.room.small, Config.sizeClass, Nat.clog_pow 2 _ Nat.one_lt_two]
    exact Nat.add_sub_cancel_left ..
  have hlog : getLogPageSize cfg source.getSize = .ok source.numBytes := by
    rw [getLogPageSize_returns, hclass]
    have : cfg.logOfMinPageSize + source.numBytes < 32 := h.room.small
    omega
  rw [SetPage.freezeSize, h.room.unfrozen, hlog]
  dsimp only
  rw [if_neg Bool.false_ne_true, dif_pos h.room.enough]
  exact ⟨_, rfl, Page.ext rfl h.bytes⟩

end Pages

section Invariant

variable {cfg : Config}

def FrontendAt.writes : FrontendAt → Option ℕ
  | .getting _ p => some p
  | .forwarding _ p => some p
  | .waiting _ p => some p
  | .freezing _ p _ _ => some p
  | .ending _ p _ _ => some p
  | .givingUp _ p _ => some p
  | _ => none

def FrontendAt.round : FrontendAt → Option ℕ
  | .taking j => some j
  | .getting j _ => some j
  | .forwarding j _ => some j
  | .waiting j _ => some j
  | .freezing j _ _ _ => some j
  | .ending j _ _ _ => some j
  | .givingUp j _ _ => some j
  | _ => none

def FrontendAt.gaveUp : FrontendAt → Bool
  | .givingUp .. => true
  | .informing _ => true
  | .ended success _ => !success
  | _ => false

def BackendAt.page : BackendAt → Option (ℕ × ℕ)
  | .acknowledging i p => some (i, p)
  | .copying i p => some (i, p)
  | .sending i p => some (i, p)
  | _ => none

def BackendAt.round : BackendAt → Option ℕ
  | .expecting i => some i
  | .acknowledging i _ => some i
  | .copying i _ => some i
  | .sending i _ => some i
  | _ => none

variable (set : SetId) (pages : List (Page cfg))

structure Tables (w₀ w : World cfg) : Prop where
  nodup : w.stored.Nodup
  fresh : ∀ p ∈ w.stored, ¬w₀.Valid set p
  valid : ∀ p, w.Valid set p ↔ w₀.Valid set p ∨ p ∈ w.stored
  contents : w.stored.map (fun p => (w.page set p).page) = pages.take w.stored.length
  kept : ∀ p, w₀.Valid set p → w.page set p = w₀.page set p
  size : setSize w.frontend set = setSize w₀.frontend set + totalOf pages w.stored.length
  total : w.totalSize = totalOf pages w.stored.length
  catalog : w.catalog set = (w₀.catalog set).map (· + if w.fe.over then w.totalSize else 0)
  marks : ∀ p ∈ marks w.frontend set, p ∈ marks w₀.frontend set ∨ w.fe.writes = some p
  writing : ∀ p, w.fe.writes = some p →
    pageExists w.frontend set p = true ∧ p ∈ StorageFrontend.marks w.frontend set ∧ p ∉ frees w.frontend set
  round : ∀ j, w.fe.round = some j → w.stored.length = j
  failedAt : w.fe.gaveUp = true → w.failedAt = some w.stored.length
  elsewhere : SameElsewhere set w₀ w
  idle : w.fe = .idle → w.frontend = w₀.frontend ∧ w.page = w₀.page ∧ w.catalog = w₀.catalog ∧ w.stored = []

def Told (j size : ℕ) (hasNext : Bool) (source : Page cfg) : Prop :=
  source.getSize = size ∧ hasNext = decide (j + 1 < pages.length)

def Fit (w : World cfg) : Prop :=
  match w.fe with
  | .getting j p => At pages j (w.page set p).Room ∧ w.forwarding set p = false
  | .forwarding j p => At pages j (w.page set p).Room
  | .waiting j p => At pages j (w.page set p).Room
  | .freezing j p size hasNext => At pages j fun source => (w.page set p).Holds source ∧ Told pages j size hasNext source
  | .ending j p size hasNext => At pages j fun source => (w.page set p).page = source ∧ Told pages j size hasNext source
  | _ => True

inductive Linked (w : World cfg) : Prop
  | starting (fe : w.fe = .idle) (be : w.be = .starting) (tf : w.toFrontend = []) (tb : w.toBackend = [])
  | connected (fe : w.fe = .idle) (be : w.be = .connected) (tf : w.toFrontend = []) (tb : w.toBackend = [])
  | requested (fe : w.fe = .idle) (be : w.be = .waitingForResponse) (tf : w.toFrontend = [.request])
    (tb : w.toBackend = [])
  | admitted (fe : w.fe = .taking 0 ∨ ∃ p, w.fe = .getting 0 p) (be : w.be = .waitingForResponse)
    (tf : w.toFrontend = []) (e : Text) (tb : w.toBackend = [.response true e])
  | ready (j : ℕ) (fe : w.fe = .taking j ∨ ∃ p, w.fe = .getting j p) (be : w.be = .expecting j) (tf : w.toFrontend = [])
    (tb : w.toBackend = [])
  | forwardedEarly (p : ℕ) (fe : w.fe = .forwarding 0 p) (be : w.be = .waitingForResponse) (tf : w.toFrontend = [])
    (e : Text) (tb : w.toBackend = [.response true e, .forward p])
  | forwarded (j p : ℕ) (fe : w.fe = .forwarding j p) (be : w.be = .expecting j) (tf : w.toFrontend = [])
    (tb : w.toBackend = [.forward p])
  | made (j p : ℕ) (fe : w.fe = .forwarding j p) (be : w.be = .acknowledging j p) (tf : w.toFrontend = [])
    (tb : w.toBackend = [])
  | writing (j p : ℕ) (fe : w.fe = .forwarding j p ∧ w.toFrontend = [.received] ∨ w.fe = .waiting j p ∧ w.toFrontend = [])
    (be : w.be = .copying j p) (tb : w.toBackend = [])
  | written (j p : ℕ) (fe : w.fe = .forwarding j p ∧ w.toFrontend = [.received] ∨ w.fe = .waiting j p ∧ w.toFrontend = [])
    (be : w.be = .sending j p) (tb : w.toBackend = []) (hp : At pages j (w.page set p).Holds)
  | sent (j p size : ℕ) (hasNext : Bool) (fe : w.fe = .forwarding j p ∧ w.toFrontend = [.received, .result size true hasNext] ∨
      w.fe = .waiting j p ∧ w.toFrontend = [.result size true hasNext])
    (be : w.be = nextRound pages j) (tb : w.toBackend = [])
    (hp : At pages j fun source => (w.page set p).Holds source ∧ Told pages j size hasNext source)
  | stored (j p size : ℕ) (hasNext : Bool) (fe : w.fe = .freezing j p size hasNext ∨ w.fe = .ending j p size hasNext)
    (be : w.be = nextRound pages j) (tf : w.toFrontend = []) (tb : w.toBackend = [])
  | updating (fe : w.fe = .updating) (be : w.be = .ended true) (tf : w.toFrontend = []) (tb : w.toBackend = [])
    (hall : w.stored.length = pages.length)
  | done (e : Text) (fe : w.fe = .ended true e) (be : w.be = .ended true) (tf : w.toFrontend = []) (tb : w.toBackend = [])
    (hall : w.stored.length = pages.length)

structure Healthy (w : World cfg) : Prop where
  linked : Linked set pages w
  faulty : w.faulty = false
  broken : w.broken = true → w.be = .ended true

structure Unanswered (w : World cfg) : Prop where
  be : w.be = .waitingForResponse
  tf : w.toFrontend = []
  fe : (w.fe = .taking 0 ∨ ∃ p, w.fe = .getting 0 p) ∧ w.toBackend = [] ∨
    ∃ p, w.fe = .forwarding 0 p ∧ w.toBackend = [.forward p]

structure Unfinished (w : World cfg) : Prop where
  updating : w.fe ≠ .updating
  ended : ∀ e, w.fe ≠ .ended true e
  short : w.stored.length < pages.length
  next : ∀ j p size hasNext, w.fe = .freezing j p size hasNext ∨ w.fe = .ending j p size hasNext → j + 1 < pages.length

structure Active (w₀ w : World cfg) (i p : ℕ) : Prop where
  unstored : p ∉ w.stored
  fresh : ¬w₀.Valid set p
  room : At pages i (w.page set p).Room
  frontend : w.fe = .forwarding i p ∨ w.fe = .waiting i p ∨ w.fe.gaveUp = true

structure Doomed (w₀ w : World cfg) : Prop extends Unfinished pages w where
  be : w.be ≠ .ended true
  early : w.be = .starting ∨ w.be = .connected → w.fe = .idle
  backRound : ∀ i, w.be.round = some i → i < pages.length
  toFrontend : ∀ m ∈ w.toFrontend, m = .received
  toBackend : ∀ p, .forward p ∈ w.toBackend → w.be = .ended false ∨ w.be = .waitingForResponse ∧ w.toBackend = [.forward p]
  active : ∀ i p, w.be.page = some (i, p) → w.broken = true ∧ Active set pages w₀ w i p
  emptied : w.broken = true → w.toFrontend = [] ∧ w.toBackend = []
  reason : w.broken = true ∨ w.fe.gaveUp = true ∨ w.be = .ended false ∨ Unanswered w

structure Kept (w₀ w : World cfg) : Prop where
  tables : Tables set pages w₀ w
  fit : Fit set pages w
  short : ∀ j, w.fe.round = some j → j < pages.length
  missing : w₀.catalog set = none → w.fe = .idle
  health : Healthy set pages w ∨ Doomed set pages w₀ w
  fault : w.be = .ended false → w.faulty = true

end Invariant

section Frontend

variable {f f' : Frontend} {set : SetId} {p q : ℕ}

theorem setSize_eq (f : Frontend) (set : SetId) : setSize f set = (f.pageStats.lookup set).elim 0 SetStats.size := by
  unfold setSize
  cases f.pageStats.lookup set <;> rfl

theorem mem_of_takePage {endReadsEmpty : Bool} {first : ℕ} (h : takePage endReadsEmpty f set first = .ok (p, f')) :
    ∀ free, f.freeSkippedPages set = some free → free ≠ ∅ → first ∈ free := by
  intro free hfree hne
  obtain ⟨x, hx, -⟩ := bind_eq_ok.mp h
  rw [getNextFreePage, hfree] at hx
  dsimp only at hx
  rw [if_neg hne] at hx
  split_ifs at hx with hmem
  exact hmem

structure Taken (f f' : Frontend) (set : SetId) (p : ℕ) : Prop where
  fresh : ¬isValid f set p = true
  valid : ∀ q, isValid f' set q = true ↔ isValid f set q = true
  page : pageExists f' set p = true
  marks : marks f' set = insert p (marks f set)
  unfree : p ∉ frees f' set
  size : setSize f' set = setSize f set
  other : ∀ s ≠ set, f'.pageStats.lookup s = f.pageStats.lookup s ∧ StorageFrontend.marks f' s = StorageFrontend.marks f s ∧
    frees f' s = frees f s

theorem taken_of_takePage {endReadsEmpty : Bool} {first : ℕ} (hend : endReadsEmpty = true ∨ f.freeSkippedPages set ≠ none)
    (hfirst : first ∈ frees f set → pageExists f set first = true)
    (h : takePage endReadsEmpty f set first = .ok (p, f')) : Taken f f' set p := by
  obtain ⟨p', f₁, st, hrun, hf, hsize, hpage, hnew⟩ := takePage_becomes hend (mem_of_takePage h) hfirst
  rw [h] at hrun
  cases hrun
  have hfresh : ¬isValid f set p = true := by
    rw [isValid_iff, ← pageExists_iff]
    rintro ⟨hexists, -, hfree⟩
    rcases hnew with hnew | hnew
    · exact hfree hnew
    · rw [hexists] at hnew
      cases hnew
  refine ⟨hfresh, fun q => ?_, ?_, hf.marks, ?_, ?_, hf.other⟩
  · by_cases hq : q = p
    · subst hq
      refine iff_of_false (fun hv => ?_) hfresh
      rw [isValid_iff, hf.marks] at hv
      exact hv.2.1 (Finset.mem_insert_self ..)
    · rw [isValid_iff, isValid_iff, hf.stats, hf.marks, hf.frees, Finset.mem_insert, Finset.mem_erase, ← pageExists_iff]
      have := hpage q
      simp only [Option.some.injEq, exists_eq_left', this, hq, or_false, false_or, ne_eq, not_false_iff, true_and]
  · rw [pageExists_iff]
    exact ⟨st, hf.stats, (hpage p).mpr (.inr rfl)⟩
  · rw [hf.frees]
    simp
  · rw [setSize_eq, setSize_eq, hf.stats, ← hsize]
    rfl

theorem incrementSetSize_endWriting (hp : pageExists f set p = true) (hfree : p ∉ frees f set) (size : ℕ) :
    ∃ f', incrementSetSize (endWritingToPage f set p) set size = .ok f' ∧
      (∀ q, isValid f' set q = true ↔ isValid f set q = true ∨ q = p) ∧ setSize f' set = setSize f set + size ∧
      marks f' set = (marks f set).erase p ∧ ∀ s ≠ set, f'.pageStats.lookup s = f.pageStats.lookup s ∧
        marks f' s = marks f s ∧ frees f' s = frees f s := by
  obtain ⟨st, hst, hle⟩ := pageExists_iff.mp hp
  have hf := becomes_endWritingToPage f set p
  obtain ⟨f', hrun, hf'⟩ := incrementSetSize_becomes (hf.stats.trans hst) size
  rw [hf.marks, hf.frees] at hf'
  have hff := hf.trans hf'
  refine ⟨f', hrun, fun q => ?_, ?_, hff.marks, hff.other⟩
  · rw [isValid_iff, isValid_iff, hff.stats, hff.marks, hff.frees, hst, Finset.mem_erase]
    by_cases hq : q = p
    · subst hq
      simp [hle, hfree]
    · simp [hq]
  · rw [setSize_eq, setSize_eq, hff.stats, hst]
    rfl

theorem isValid_giveUp (hp : p ∈ marks f set) (q : ℕ) :
    isValid (freeSetPage (endWritingToPage f set p) set p) set q = true ↔ isValid f set q = true := by
  have hf := (becomes_endWritingToPage f set p).trans (becomes_freeSetPage (endWritingToPage f set p) set p)
  have hfe := becomes_endWritingToPage f set p
  rw [hfe.stats, hfe.marks, hfe.frees] at hf
  rw [isValid_iff, isValid_iff, hf.stats, hf.marks, hf.frees, Finset.mem_erase, Finset.mem_insert]
  by_cases hq : q = p
  · subst hq
    simp [hp]
  · simp [hq]

end Frontend

section Tables

variable {cfg : Config} {set : SetId} {pages : List (Page cfg)} {w₀ w w' : World cfg} {j p : ℕ} {source : Page cfg}

theorem totalOf_succ (h : pages[j]? = some source) : totalOf pages (j + 1) = totalOf pages j + source.getSize := by
  rw [totalOf, totalOf, List.take_add_one, h, List.map_append, List.sum_append]
  simp

theorem Tables.unwritten (h : Tables set pages w₀ w) (hw : w.fe.writes = some p) : p ∉ w.stored ∧ ¬w₀.Valid set p := by
  have hv : ¬w.Valid set p := by
    unfold World.Valid
    rw [isValid_iff]
    exact fun hv => hv.2.1 (h.writing p hw).2.1
  rw [h.valid, not_or] at hv
  exact ⟨hv.2, hv.1⟩

theorem Tables.moves (h : Tables set pages w₀ w) (hf : w'.frontend = w.frontend) (hp : w'.page = w.page)
    (hc : w'.catalog = w.catalog) (ht : w'.totalSize = w.totalSize) (hs : w'.stored = w.stored)
    (hwrites : w'.fe.writes = w.fe.writes) (hover : w'.fe.over = w.fe.over)
    (hround : ∀ j, w'.fe.round = some j → w.stored.length = j)
    (hgave : w'.fe.gaveUp = true → w'.failedAt = some w.stored.length) (hidle : w'.fe = .idle → w.fe = .idle) :
    Tables set pages w₀ w' := by
  constructor
  · rw [hs]
    exact h.nodup
  · rw [hs]
    exact h.fresh
  · unfold World.Valid
    rw [hf, hs]
    exact h.valid
  · rw [hp, hs]
    exact h.contents
  · rw [hp]
    exact h.kept
  · rw [hf, hs]
    exact h.size
  · rw [ht, hs]
    exact h.total
  · rw [hc, hover, ht]
    exact h.catalog
  · rw [hf, hwrites]
    exact h.marks
  · rw [hf, hwrites]
    exact h.writing
  · rw [hs]
    exact hround
  · rw [hs]
    exact hgave
  · obtain ⟨h1, h2, h3⟩ := h.elsewhere
    refine ⟨?_, ?_, ?_⟩
    · rw [hf]
      exact h1
    · rw [hp]
      exact h2
    · rw [hc]
      exact h3
  · intro hi
    rw [hf, hp, hc, hs]
    exact h.idle (hidle hi)

theorem setPage_self (w : World cfg) (set : SetId) (p : ℕ) (me : SetPage cfg) : (w.setPage set p me).page set p = me := by
  simp [World.setPage]

theorem setPage_other (w : World cfg) {s : SetId} {q : ℕ} (me : SetPage cfg) (h : s ≠ set ∨ q ≠ p) :
    (w.setPage set p me).page s q = w.page s q := by
  unfold World.setPage
  dsimp only
  by_cases hs : s = set
  · subst hs
    rw [Function.update_self, Function.update_of_ne (h.resolve_left (not_not_intro rfl))]
  · rw [Function.update_of_ne hs]

theorem Tables.setPage (h : Tables set pages w₀ w) (hidle : w.fe ≠ .idle) (hp : p ∉ w.stored) (hv : ¬w₀.Valid set p)
    (me : SetPage cfg) : Tables set pages w₀ (w.setPage set p me) := by
  constructor
  · exact h.nodup
  · exact h.fresh
  · exact h.valid
  · refine Eq.trans (List.map_congr_left fun q hq => ?_) h.contents
    rw [setPage_other w me (.inr fun he : q = p => hp (he ▸ hq))]
  · intro q hq
    rw [setPage_other w me (.inr fun he : q = p => hv (he ▸ hq))]
    exact h.kept q hq
  · exact h.size
  · exact h.total
  · exact h.catalog
  · exact h.marks
  · exact h.writing
  · exact h.round
  · exact h.failedAt
  · refine ⟨h.elsewhere.frontend, fun s hs => ?_, h.elsewhere.catalog⟩
    rw [← h.elsewhere.page s hs]
    exact Function.update_of_ne hs ..
  · exact fun hi => absurd hi hidle

theorem Tables.takes (h : Tables set pages w₀ w) (hfe : w.fe = .taking j) {f : Frontend} (hf : Taken w.frontend f set p) :
    Tables set pages w₀ { w with frontend := f, fe := .getting j p } := by
  constructor
  · exact h.nodup
  · exact h.fresh
  · exact fun q => (hf.valid q).trans (h.valid q)
  · exact h.contents
  · exact h.kept
  · exact hf.size.trans h.size
  · exact h.total
  · have := h.catalog
    rw [hfe] at this
    exact this
  · intro q hq
    have hm := h.marks q
    rw [hfe] at hm
    rw [hf.marks, Finset.mem_insert] at hq
    rcases hq with rfl | hq
    · exact .inr rfl
    · exact .inl ((hm hq).resolve_right nofun)
  · rintro _ ⟨⟩
    refine ⟨hf.page, ?_, hf.unfree⟩
    rw [hf.marks]
    exact Finset.mem_insert_self ..
  · rintro _ ⟨⟩
    exact h.round j (by rw [hfe]; rfl)
  · nofun
  · refine ⟨fun s hs => ?_, h.elsewhere.page, h.elsewhere.catalog⟩
    obtain ⟨h1, h2, h3⟩ := hf.other s hs
    obtain ⟨h4, h5, h6⟩ := h.elsewhere.frontend s hs
    exact ⟨h1.trans h4, h2.trans h5, h3.trans h6⟩
  · nofun

theorem Tables.stores (h : Tables set pages w₀ w) {size : ℕ} {hasNext : Bool} (hfe : w.fe = .ending j p size hasNext)
    (hsource : pages[j]? = some source) (hpage : (w.page set p).page = source) (hsize : source.getSize = size) :
    ∃ f, incrementSetSize (endWritingToPage w.frontend set p) set size = .ok f ∧
      Tables set pages w₀ { w with
        frontend := f
        totalSize := w.totalSize + size
        stored := w.stored ++ [p]
        fe := if hasNext then .taking (j + 1) else .updating } := by
  subst hsize
  obtain ⟨hexists, hmark, hfree⟩ := h.writing p (by rw [hfe]; rfl)
  obtain ⟨hnot, hnew⟩ := h.unwritten (p := p) (by rw [hfe]; rfl)
  have hlen : w.stored.length = j := h.round j (by rw [hfe]; rfl)
  have htotal := totalOf_succ hsource
  obtain ⟨f, hrun, hvalid, hset, hmarks, hother⟩ := incrementSetSize_endWriting hexists hfree source.getSize
  refine ⟨f, hrun, ?_⟩
  constructor
  · exact List.nodup_append.mpr ⟨h.nodup, List.nodup_singleton p, by
      rintro q hq _ hp rfl
      rw [List.mem_singleton] at hp
      exact hnot (hp ▸ hq)⟩
  · intro q hq
    rw [List.mem_append, List.mem_singleton] at hq
    rcases hq with hq | rfl
    · exact h.fresh q hq
    · exact hnew
  · intro q
    rw [List.mem_append, List.mem_singleton, ← or_assoc, ← h.valid]
    exact hvalid q
  · dsimp only
    rw [List.map_append, h.contents, List.length_append, List.length_singleton, hlen, List.take_add_one, hsource]
    simp [hpage]
  · exact h.kept
  · dsimp only
    rw [hset, h.size, List.length_append, List.length_singleton, hlen, htotal, Nat.add_assoc]
  · dsimp only
    rw [h.total, List.length_append, List.length_singleton, hlen, htotal]
  · have := h.catalog
    rw [hfe] at this
    dsimp only
    rw [this]
    cases hasNext <;> rfl
  · intro q hq
    have hm := h.marks q
    rw [hmarks, Finset.mem_erase] at hq
    rw [hfe] at hm
    refine .inl ((hm hq.2).resolve_right fun he => hq.1 ?_)
    cases he
    rfl
  · intro q hq
    cases hasNext <;> cases hq
  · intro i hi
    rw [List.length_append, List.length_singleton, hlen]
    cases hasNext <;> cases hi
    rfl
  · intro hg
    cases hasNext <;> cases hg
  · refine ⟨fun s hs => ?_, h.elsewhere.page, h.elsewhere.catalog⟩
    obtain ⟨h1, h2, h3⟩ := hother s hs
    obtain ⟨h4, h5, h6⟩ := h.elsewhere.frontend s hs
    exact ⟨h1.trans h4, h2.trans h5, h3.trans h6⟩
  · intro hi
    cases hasNext <;> cases hi

theorem Tables.givesUp (h : Tables set pages w₀ w) {failure : Failure} (hfe : w.fe = .givingUp j p failure) :
    Tables set pages w₀ { w with
      frontend := freeSetPage (endWritingToPage w.frontend set p) set p
      fe := .informing failure } := by
  obtain ⟨-, hmark, -⟩ := h.writing p (by rw [hfe]; rfl)
  have hf := (becomes_endWritingToPage w.frontend set p).trans
    (becomes_freeSetPage (endWritingToPage w.frontend set p) set p)
  have hfe' := becomes_endWritingToPage w.frontend set p
  rw [hfe'.stats, hfe'.marks, hfe'.frees] at hf
  constructor
  · exact h.nodup
  · exact h.fresh
  · exact fun q => (isValid_giveUp hmark q).trans (h.valid q)
  · exact h.contents
  · exact h.kept
  · dsimp only
    rw [setSize_eq, hf.stats, ← setSize_eq]
    exact h.size
  · exact h.total
  · have := h.catalog
    rw [hfe] at this
    exact this
  · intro q hq
    have hm := h.marks q
    rw [hf.marks, Finset.mem_erase] at hq
    rw [hfe] at hm
    refine .inl ((hm hq.2).resolve_right fun he => hq.1 ?_)
    cases he
    rfl
  · nofun
  · nofun
  · intro _
    exact h.failedAt (by rw [hfe]; rfl)
  · refine ⟨fun s hs => ?_, h.elsewhere.page, h.elsewhere.catalog⟩
    obtain ⟨h1, h2, h3⟩ := hf.other s hs
    obtain ⟨h4, h5, h6⟩ := h.elsewhere.frontend s hs
    exact ⟨h1.trans h4, h2.trans h5, h3.trans h6⟩
  · nofun

theorem Tables.returns (h : Tables set pages w₀ w) (hover : w.fe.over = false) (hwrites : w.fe.writes = none)
    {success : Bool} (hfailed : success = false → w.failedAt = some w.stored.length) (text error : Text)
    (faulty : Bool) : Tables set pages w₀ { w with
      catalog := Function.update w.catalog set ((w.catalog set).map (· + w.totalSize))
      fe := .ended success text
      error := error
      faulty := faulty } := by
  constructor
  · exact h.nodup
  · exact h.fresh
  · exact h.valid
  · exact h.contents
  · exact h.kept
  · exact h.size
  · exact h.total
  · have := h.catalog
    rw [hover] at this
    dsimp only
    rw [Function.update_self, this]
    cases w₀.catalog set <;> rfl
  · intro q hq
    have := h.marks q hq
    rw [hwrites] at this
    exact .inl (this.resolve_right nofun)
  · nofun
  · nofun
  · intro hg
    cases success with
    | false => exact hfailed rfl
    | true => cases hg
  · refine ⟨h.elsewhere.frontend, h.elsewhere.page, fun s hs => ?_⟩
    rw [← h.elsewhere.catalog s hs]
    exact Function.update_of_ne hs ..
  · nofun

end Tables

section Points

variable {cfg : Config} {set : SetId} {pages : List (Page cfg)} {w₀ w w' : World cfg} {i j p : ℕ}

theorem At.mono {P Q : Page cfg → Prop} (h : At pages j P) (hi : ∀ source, P source → Q source) : At pages j Q := by
  obtain ⟨source, hs, hp⟩ := h
  exact ⟨source, hs, hi source hp⟩

theorem nextRound_ne (x : BackendAt) (hx : x.round = none) (ht : x ≠ .ended true) : nextRound pages j ≠ x := by
  unfold nextRound
  split_ifs
  · rintro rfl
    cases hx
  · exact ht.symm

theorem Fit.at (h : Fit set pages w) (hp : w.fe = .forwarding j p ∨ w.fe = .waiting j p) : At pages j (w.page set p).Room := by
  unfold Fit at h
  rcases hp with hp | hp <;> rw [hp] at h <;> exact h

theorem Linked.round (hl : Linked set pages w) (hbe : w.be ≠ .ended true) : w.fe = .idle ∨ w.fe.round.isSome = true := by
  cases hl <;> grind [FrontendAt.round]

theorem Linked.unfinished (hl : Linked set pages w) (ht : Tables set pages w₀ w)
    (hshort : ∀ j, w.fe.round = some j → j < pages.length) (hn : 0 < pages.length) (hbe : w.be ≠ .ended true) :
    Unfinished pages w := by
  constructor
  · cases hl <;> grind
  · cases hl <;> grind
  · rcases hl.round hbe with hi | hr
    · rw [(ht.idle hi).2.2.2]
      exact hn
    · obtain ⟨j, hj⟩ := Option.isSome_iff_exists.mp hr
      rw [ht.round j hj]
      exact hshort j hj
  · cases hl <;> grind [nextRound]

theorem Linked.active (hl : Linked set pages w) (hb : w.be.page = some (i, p)) :
    w.fe = .forwarding i p ∨ w.fe = .waiting i p := by
  cases hl <;> grind [BackendAt.page, nextRound]

theorem Linked.backRound (hl : Linked set pages w) (hshort : ∀ j, w.fe.round = some j → j < pages.length)
    (hb : w.be.round = some i) : i < pages.length := by
  cases hl <;> grind [BackendAt.round, nextRound, FrontendAt.round]

theorem Linked.early (hl : Linked set pages w) (hb : w.be = .starting ∨ w.be = .connected) : w.fe = .idle := by
  cases hl <;> grind [nextRound]

end Points

end PlinyCompute.Materialization
