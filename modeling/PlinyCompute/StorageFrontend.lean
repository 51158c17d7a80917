import Mathlib.Data.Finset.Basic
import Mathlib.Data.List.AList

namespace PlinyCompute.StorageFrontend

open Function (update update_of_ne)

abbrev Name := List UInt8

abbrev SetId := Name × Name

structure SetStats where
  size : ℕ
  lastPage : ℕ
  deriving DecidableEq

structure Frontend where
  pageStats : AList fun _ : SetId => SetStats
  pagesBeingWrittenTo : SetId → Option (Finset ℕ)
  freeSkippedPages : SetId → Option (Finset ℕ)

inductive Stop
  -- the end of a map is dereferenced
  | undefined
  -- an unsigned number would fall below zero
  | wrap
  -- `begin` refers to another page
  | notFirst
  -- the handler is at another point
  | notThere
  deriving DecidableEq

def isPageBeingWrittenTo (f : Frontend) (set : SetId) (pageNum : ℕ) : Bool :=
  match f.pagesBeingWrittenTo set with
  | none => false
  | some pages => pageNum ∈ pages

def isPageFree (f : Frontend) (set : SetId) (pageNum : ℕ) : Bool :=
  match f.freeSkippedPages set with
  | none => false
  | some pages => pageNum ∈ pages

def pageExists (f : Frontend) (set : SetId) (pageNum : ℕ) : Bool :=
  match f.pageStats.lookup set with
  | none => false
  | some stats => pageNum ≤ stats.lastPage

def isValid (f : Frontend) (set : SetId) (pageNum : ℕ) : Bool :=
  pageExists f set pageNum && !isPageBeingWrittenTo f set pageNum && !isPageFree f set pageNum

def searchValid (f : Frontend) (set : SetId) : ℕ → ℕ → Option ℕ
  | 0, _ => none
  | left + 1, pageNum => if isValid f set pageNum then some pageNum else searchValid f set left (pageNum + 1)

def getValidPage (f : Frontend) (set : SetId) (pageNum : ℕ) : Option ℕ :=
  match f.pageStats.lookup set with
  | none => none
  | some stats => searchValid f set (stats.lastPage + 1 - pageNum) pageNum

def handleGetSetPages (f : Frontend) (set : SetId) : List ℕ :=
  match f.pageStats.lookup set with
  | none => []
  | some stats => (List.range (stats.lastPage + 1)).filter (isValid f set)

def pageBehindLast (f : Frontend) (set : SetId) : ℕ × Frontend :=
  match f.pageStats.lookup set with
  | none => (0, { f with pageStats := f.pageStats.insert set ⟨0, 0⟩ })
  | some stats => (stats.lastPage + 1,
    { f with pageStats := f.pageStats.insert set { stats with lastPage := stats.lastPage + 1 } })

/-- `getNextFreePage` takes the first of the free pages, which can be any of them. `endReadsEmpty` tells whether the
end of a map, which is dereferenced for a set that never had free pages, reads as an empty set of pages. -/
def getNextFreePage (endReadsEmpty : Bool) (f : Frontend) (set : SetId) (first : ℕ) : Except Stop (ℕ × Frontend) :=
  match f.freeSkippedPages set with
  | none => if endReadsEmpty then .ok (pageBehindLast f set) else .error .undefined
  | some pages =>
    if pages = ∅ then .ok (pageBehindLast f set)
    else if first ∈ pages then
      .ok (first, { f with freeSkippedPages := update f.freeSkippedPages set (some (pages.erase first)) })
    else .error .notFirst

def incrementSetSize (f : Frontend) (set : SetId) (uncompressedSize : ℕ) : Except Stop Frontend :=
  match f.pageStats.lookup set with
  | none => .error .undefined
  | some stats =>
    .ok { f with pageStats := f.pageStats.insert set { stats with size := stats.size + uncompressedSize } }

def decrementSetSize (f : Frontend) (set : SetId) (uncompressedSize : ℕ) : Except Stop Frontend :=
  match f.pageStats.lookup set with
  | none => .error .undefined
  | some stats =>
    if stats.size < uncompressedSize then .error .wrap
    else .ok { f with pageStats := f.pageStats.insert set { stats with size := stats.size - uncompressedSize } }

def freeSetPage (f : Frontend) (set : SetId) (pageNum : ℕ) : Frontend :=
  { f with
    freeSkippedPages := update f.freeSkippedPages set
      (some (insert pageNum ((f.freeSkippedPages set).getD ∅))) }

def startWritingToPage (f : Frontend) (set : SetId) (pageNum : ℕ) : Frontend :=
  { f with
    pagesBeingWrittenTo := update f.pagesBeingWrittenTo set
      (some (insert pageNum ((f.pagesBeingWrittenTo set).getD ∅))) }

def endWritingToPage (f : Frontend) (set : SetId) (pageNum : ℕ) : Frontend :=
  { f with
    pagesBeingWrittenTo := update f.pagesBeingWrittenTo set
      (some (((f.pagesBeingWrittenTo set).getD ∅).erase pageNum)) }

section

variable {f : Frontend} {set : SetId} {p q : ℕ}

theorem searchValid_eq_some {left : ℕ} (h : searchValid f set left p = some q) :
    p ≤ q ∧ isValid f set q = true ∧ ∀ r, p ≤ r → r < q → isValid f set r = false := by
  induction left generalizing p with
  | zero => cases h
  | succ left ih =>
    rw [searchValid] at h
    split_ifs at h with hv
    · rw [Option.some.injEq] at h
      subst h
      exact ⟨le_rfl, hv, fun r h1 h2 => absurd h1 (by omega)⟩
    · obtain ⟨h1, h2, h3⟩ := ih h
      refine ⟨by omega, h2, fun r hp hq => ?_⟩
      obtain rfl | hlt := Nat.eq_or_lt_of_le hp
      · simpa using hv
      · exact h3 r hlt hq

theorem searchValid_eq_none {left : ℕ} (h : searchValid f set left p = none) :
    ∀ r, p ≤ r → r < p + left → isValid f set r = false := by
  induction left generalizing p with
  | zero =>
    intro r h1 h2
    omega
  | succ left ih =>
    rw [searchValid] at h
    split_ifs at h with hv
    intro r hp hr
    obtain rfl | hlt := Nat.eq_or_lt_of_le hp
    · simpa using hv
    · exact ih h r hlt (by omega)

theorem exists_of_isValid (h : isValid f set p = true) :
    ∃ stats, f.pageStats.lookup set = some stats ∧ p ≤ stats.lastPage := by
  unfold isValid pageExists at h
  cases hs : f.pageStats.lookup set with
  | none => simp [hs] at h
  | some stats =>
    simp only [hs, Bool.and_eq_true, decide_eq_true_eq] at h
    exact ⟨stats, rfl, h.1.1⟩

theorem getValidPage_eq_some (h : getValidPage f set p = some q) :
    p ≤ q ∧ isValid f set q = true ∧ ∀ r, p ≤ r → r < q → isValid f set r = false := by
  unfold getValidPage at h
  split at h
  · cases h
  · exact searchValid_eq_some h

theorem getValidPage_eq_none (h : getValidPage f set p = none) : ∀ r, p ≤ r → isValid f set r = false := by
  intro r hr
  rw [Bool.eq_false_iff]
  intro hv
  obtain ⟨stats, hs, hle⟩ := exists_of_isValid hv
  rw [getValidPage, hs] at h
  rw [searchValid_eq_none h r hr (by omega)] at hv
  cases hv

theorem mem_handleGetSetPages : p ∈ handleGetSetPages f set ↔ isValid f set p = true := by
  unfold handleGetSetPages
  cases hs : f.pageStats.lookup set with
  | none =>
    constructor
    · nofun
    · intro hv
      obtain ⟨stats, he, -⟩ := exists_of_isValid hv
      rw [hs] at he
      cases he
  | some stats =>
    simp only [List.mem_filter, List.mem_range]
    constructor
    · exact fun h => h.2
    · intro hv
      obtain ⟨stats', he, hle⟩ := exists_of_isValid hv
      rw [hs, Option.some.injEq] at he
      subst he
      exact ⟨by omega, hv⟩

end

section

variable {f f' f'' : Frontend} {set : SetId} {p : ℕ} {stats stats' : Option SetStats} {ms fs ms' fs' : Finset ℕ}

def marks (f : Frontend) (set : SetId) : Finset ℕ := (f.pagesBeingWrittenTo set).getD ∅

def frees (f : Frontend) (set : SetId) : Finset ℕ := (f.freeSkippedPages set).getD ∅

theorem isPageBeingWrittenTo_iff : isPageBeingWrittenTo f set p = true ↔ p ∈ marks f set := by
  unfold isPageBeingWrittenTo marks
  cases f.pagesBeingWrittenTo set <;> simp

theorem isPageFree_iff : isPageFree f set p = true ↔ p ∈ frees f set := by
  unfold isPageFree frees
  cases f.freeSkippedPages set <;> simp

theorem pageExists_iff : pageExists f set p = true ↔ ∃ st, f.pageStats.lookup set = some st ∧ p ≤ st.lastPage := by
  unfold pageExists
  cases f.pageStats.lookup set <;> simp

theorem isValid_iff : isValid f set p = true ↔
    (∃ st, f.pageStats.lookup set = some st ∧ p ≤ st.lastPage) ∧ p ∉ marks f set ∧ p ∉ frees f set := by
  rw [isValid, Bool.and_eq_true, Bool.and_eq_true, pageExists_iff, Bool.not_eq_true', Bool.not_eq_true',
    Bool.eq_false_iff, Bool.eq_false_iff, Ne, Ne, isPageBeingWrittenTo_iff, isPageFree_iff, and_assoc]

structure Becomes (f f' : Frontend) (set : SetId) (stats : Option SetStats) (ms fs : Finset ℕ) : Prop where
  other : ∀ s ≠ set, f'.pageStats.lookup s = f.pageStats.lookup s ∧ marks f' s = marks f s ∧ frees f' s = frees f s
  stats : f'.pageStats.lookup set = stats
  marks : marks f' set = ms
  frees : frees f' set = fs

theorem Becomes.trans (h : Becomes f f' set stats ms fs) (h' : Becomes f' f'' set stats' ms' fs') :
    Becomes f f'' set stats' ms' fs' := by
  refine ⟨fun s hs => ?_, h'.stats, h'.marks, h'.frees⟩
  obtain ⟨h1, h2, h3⟩ := h.other s hs
  obtain ⟨h4, h5, h6⟩ := h'.other s hs
  exact ⟨h4.trans h1, h5.trans h2, h6.trans h3⟩

theorem becomes_insert (f : Frontend) (set : SetId) (st : SetStats) :
    Becomes f { f with pageStats := f.pageStats.insert set st } set (some st) (marks f set) (frees f set) := by
  refine ⟨fun s hs => ⟨?_, rfl, rfl⟩, ?_, rfl, rfl⟩
  · exact AList.lookup_insert_ne hs
  · exact AList.lookup_insert _

theorem becomes_startWritingToPage (f : Frontend) (set : SetId) (p : ℕ) :
    Becomes f (startWritingToPage f set p) set (f.pageStats.lookup set) (insert p (marks f set)) (frees f set) := by
  refine ⟨fun s hs => ⟨rfl, ?_, rfl⟩, rfl, ?_, rfl⟩
  · simp [startWritingToPage, marks, update_of_ne hs]
  · simp [startWritingToPage, marks]

theorem becomes_endWritingToPage (f : Frontend) (set : SetId) (p : ℕ) :
    Becomes f (endWritingToPage f set p) set (f.pageStats.lookup set) ((marks f set).erase p) (frees f set) := by
  refine ⟨fun s hs => ⟨rfl, ?_, rfl⟩, rfl, ?_, rfl⟩
  · simp [endWritingToPage, marks, update_of_ne hs]
  · simp [endWritingToPage, marks]

theorem becomes_freeSetPage (f : Frontend) (set : SetId) (p : ℕ) :
    Becomes f (freeSetPage f set p) set (f.pageStats.lookup set) (marks f set) (insert p (frees f set)) := by
  refine ⟨fun s hs => ⟨rfl, rfl, ?_⟩, rfl, rfl, ?_⟩
  · simp [freeSetPage, frees, update_of_ne hs]
  · simp [freeSetPage, frees]

theorem incrementSetSize_becomes {st : SetStats} (h : f.pageStats.lookup set = some st) (size : ℕ) :
    ∃ f', incrementSetSize f set size = .ok f' ∧
      Becomes f f' set (some { st with size := st.size + size }) (marks f set) (frees f set) := by
  rw [incrementSetSize, h]
  exact ⟨_, rfl, becomes_insert f set _⟩

theorem decrementSetSize_becomes {st : SetStats} (h : f.pageStats.lookup set = some st) {size : ℕ}
    (hle : size ≤ st.size) : ∃ f', decrementSetSize f set size = .ok f' ∧
      Becomes f f' set (some { st with size := st.size - size }) (marks f set) (frees f set) := by
  rw [decrementSetSize, h]
  dsimp only
  rw [if_neg (Nat.not_lt.mpr hle)]
  exact ⟨_, rfl, becomes_insert f set _⟩

theorem pageBehindLast_becomes (f : Frontend) (set : SetId) (hempty : frees f set = ∅) : ∃ st,
    Becomes f (pageBehindLast f set).2 set (some st) (marks f set) ((frees f set).erase (pageBehindLast f set).1) ∧
      st.size = (f.pageStats.lookup set).elim 0 SetStats.size ∧
      (∀ q, q ≤ st.lastPage ↔ pageExists f set q = true ∨ q = (pageBehindLast f set).1) ∧
      pageExists f set (pageBehindLast f set).1 = false := by
  rw [Finset.erase_eq_of_notMem (by simp [hempty])]
  unfold pageBehindLast
  cases hs : f.pageStats.lookup set with
  | none =>
    refine ⟨⟨0, 0⟩, becomes_insert f set _, rfl, fun q => ?_, ?_⟩
    · simp [pageExists, hs]
    · simp [pageExists, hs]
  | some stats =>
    refine ⟨{ stats with lastPage := stats.lastPage + 1 }, becomes_insert f set _, rfl, fun q => ?_, ?_⟩
    · simp only [pageExists, hs, decide_eq_true_eq]
      omega
    · simp [pageExists, hs]

theorem getNextFreePage_becomes {endReadsEmpty : Bool} {first : ℕ}
    (hend : endReadsEmpty = true ∨ f.freeSkippedPages set ≠ none)
    (hfirst : ∀ pages, f.freeSkippedPages set = some pages → pages ≠ ∅ → first ∈ pages)
    (hb : first ∈ frees f set → pageExists f set first = true) :
    ∃ p f' st, getNextFreePage endReadsEmpty f set first = .ok (p, f') ∧
      Becomes f f' set (some st) (marks f set) ((frees f set).erase p) ∧
      st.size = (f.pageStats.lookup set).elim 0 SetStats.size ∧
      (∀ q, q ≤ st.lastPage ↔ pageExists f set q = true ∨ q = p) ∧
      (p ∈ frees f set ∨ pageExists f set p = false) := by
  rw [getNextFreePage]
  cases hfree : f.freeSkippedPages set with
  | none =>
    obtain ⟨st, h1, h2, h3, h4⟩ := pageBehindLast_becomes f set (by simp [frees, hfree])
    dsimp only
    rw [if_pos (hend.resolve_right fun h => h hfree)]
    exact ⟨_, _, st, rfl, h1, h2, h3, .inr h4⟩
  | some pages =>
    have hpages : frees f set = pages := by simp [frees, hfree]
    dsimp only
    split_ifs with hempty hmem
    · obtain ⟨st, h1, h2, h3, h4⟩ := pageBehindLast_becomes f set (hpages.trans hempty)
      exact ⟨_, _, st, rfl, h1, h2, h3, .inr h4⟩
    · obtain ⟨st, hst, hle⟩ := pageExists_iff.mp (hb (hpages ▸ hmem))
      refine ⟨first, _, st, rfl, ?_, by rw [hst]; rfl, fun q => ?_, .inl (hpages ▸ hmem)⟩
      · refine ⟨fun s hs => ⟨rfl, rfl, ?_⟩, hst, rfl, ?_⟩
        · simp [frees, update_of_ne hs]
        · simp [frees, hfree]
      · simp only [pageExists, hst, decide_eq_true_eq]
        constructor
        · exact .inl
        · rintro (h | rfl)
          · exact h
          · exact hle
    · exact absurd (hfirst pages hfree hempty) hmem

end

end PlinyCompute.StorageFrontend
