import PlinyCompute.StorageFrontend
import PlinyCompute.Transition
import Mathlib

namespace PlinyCompute.DistributedScan

open Transition StorageFrontend

section

variable {ι : Type}

inductive Transfer
  | completes
  -- no connection, a request that can not be sent, or no response
  | throws
  -- the response says that there is a page, and its bytes can not be read
  | breaks
  deriving DecidableEq

structure Env (ι : Type) where
  active : ι → Bool
  transfer : ι → Transfer
  answered : Bool

structure Manager (ι : Type) where
  isManager : Bool
  workers : List ι
  storage : ι → Frontend

structure Request (ι : Type) where
  page : ℕ
  nodeID : Option ι
  isFirst : Bool

def requestPage (f : Frontend) (set : SetId) (t : Transfer) (page : ℕ) : Except Unit (Option ℕ) :=
  if t = .throws then .error ()
  else
    match getValidPage f set page with
    | none => .ok none
    | some page => if t = .breaks then .ok none else .ok (some page)

def serve (m : Manager ι) (set : SetId) (e : Env ι) : ℕ → List ι → Except Unit (Option (ι × ℕ))
  | _, [] => .ok none
  -- the page is not set to 0 for the node after one that is skipped
  | currPage, n :: rest =>
    if e.active n then do
      match ← requestPage (m.storage n) set (e.transfer n) currPage with
      | some page => return some (n, page)
      | none => serve m set e 0 rest
    else serve m set e currPage rest

variable [LinearOrder ι]

def sortedWorkers (m : Manager ι) : List ι := m.workers.insertionSort (· ≥ ·)

def nodesFrom (m : Manager ι) (r : Request ι) : List ι :=
  if r.isFirst then sortedWorkers m else (sortedWorkers m).dropWhile fun n => ¬ r.nodeID = some n

def handleGetNextPage (m : Manager ι) (set : SetId) (e : Env ι) (r : Request ι) : Except Unit (Option (ι × ℕ)) :=
  if m.isManager then serve m set e r.page (nodesFrom m r) else .ok none

def transferFails (m : Manager ι) (set : SetId) (e : Env ι) : ℕ → List ι → Bool
  | _, [] => false
  | currPage, n :: rest =>
    if e.active n then
      match e.transfer n with
      | .throws => true
      | .completes => if (getValidPage (m.storage n) set currPage).isSome then false else transferFails m set e 0 rest
      | .breaks => if (getValidPage (m.storage n) set currPage).isSome then true else transferFails m set e 0 rest
    else transferFails m set e currPage rest

structure Iterator (ι : Type) where
  currPage : ℕ
  currNode : Option ι
  buffer : Bool

inductive Ending
  -- there is no next page
  | finished
  -- an exception
  | failed
  deriving DecidableEq

structure World (ι : Type) where
  iterator : Iterator ι
  delivered : List (ι × ℕ)
  ending : Option Ending
  requests : ℕ
  activeThroughout : ι → Bool
  transferFailed : Bool

def Iterator.request (it : Iterator ι) : Request ι := ⟨it.currPage, it.currNode, !it.buffer⟩

def World.asks (m : Manager ι) (set : SetId) (e : Env ι) (w : World ι) : World ι :=
  { w with
    requests := w.requests + 1
    activeThroughout := fun n => w.activeThroughout n && e.active n
    transferFailed := w.transferFailed ||
      transferFails m set e w.iterator.currPage (nodesFrom m w.iterator.request) || !e.answered }

def step (m : Manager ι) (set : SetId) (e : Env ι) (w : World ι) : Except Unit (World ι) :=
  if w.ending.isSome then .error ()
  else
    match handleGetNextPage m set e w.iterator.request, e.answered with
    | .error _, _ => .ok { w.asks m set e with ending := some .failed }
    | .ok _, false => .ok { w.asks m set e with ending := some .failed }
    | .ok none, true => .ok { w.asks m set e with ending := some .finished }
    | .ok (some (node, page)), true =>
      .ok { w.asks m set e with
        iterator := ⟨page + 1, some node, true⟩
        delivered := w.delivered ++ [(node, page)] }

def start : World ι := ⟨⟨0, none, false⟩, [], none, 0, fun _ => true, false⟩

def Starts (w : World ι) : Prop := w = start

def asked (page : ℕ) : List ι → List (ι × ℕ)
  | [] => []
  | n :: rest => (n, page) :: rest.map fun n => (n, 0)

def ends (m : Manager ι) (set : SetId) (e : Env ι) (c : ι × ℕ) : Bool :=
  e.active c.1 && (e.transfer c.1 = .throws || (getValidPage (m.storage c.1) set c.2).isSome)

structure Smooth (m : Manager ι) (set : SetId) (e : Env ι) (w : World ι) : Prop where
  resumes : ∀ n rest, nodesFrom m w.iterator.request = n :: rest → e.active n = false →
    ∀ n', rest.find? e.active = some n' → ∀ p < w.iterator.currPage, isValid (m.storage n') set p = false
  unbroken : ∀ c, (asked w.iterator.currPage (nodesFrom m w.iterator.request)).find? (ends m set e) = some c →
    e.transfer c.1 ≠ .breaks

def numPages (m : Manager ι) (set : SetId) : ℕ :=
  (m.workers.map fun n => (handleGetSetPages (m.storage n) set).length).sum

structure SoundScan (m : Manager ι) (set : SetId) (w : World ι) : Prop where
  once : w.delivered.Nodup
  valid : ∀ c ∈ w.delivered, c.1 ∈ m.workers ∧ isValid (m.storage c.1) set c.2 = true
  grouped : (w.delivered.map Prod.fst).Pairwise (· ≥ ·)
  complete : w.ending = some .finished → ∀ n ∈ m.workers, w.activeThroughout n = true →
    ∀ p, isValid (m.storage n) set p = true → (n, p) ∈ w.delivered
  reported : w.transferFailed = true → w.ending = some .failed
  terminates : w.requests ≤ numPages m set + 1 ∧ (w.requests = numPages m set + 1 → w.ending ≠ none)

end

section

variable {ι : Type} {m : Manager ι} {set : SetId} {e : Env ι} {page : ℕ}

theorem getValidPage_congr {f : Frontend} (h : ∀ p < page, isValid f set p = false) :
    getValidPage f set page = getValidPage f set 0 := by
  cases h0 : getValidPage f set 0 with
  | none =>
    cases hp : getValidPage f set page with
    | none => rfl
    | some q =>
      have hv := (getValidPage_eq_some hp).2.1
      rw [getValidPage_eq_none h0 q (Nat.zero_le q)] at hv
      cases hv
  | some q =>
    obtain ⟨-, hv, hfirst⟩ := getValidPage_eq_some h0
    have hle : page ≤ q := by
      apply Nat.le_of_not_lt
      intro hlt
      rw [h q hlt] at hv
      cases hv
    cases hp : getValidPage f set page with
    | none =>
      rw [getValidPage_eq_none hp q hle] at hv
      cases hv
    | some q' =>
      obtain ⟨hle', hv', hfirst'⟩ := getValidPage_eq_some hp
      rw [Option.some.injEq]
      apply Nat.le_antisymm
      · apply Nat.le_of_not_lt
        intro hlt
        rw [hfirst' q hle hlt] at hv
        cases hv
      · apply Nat.le_of_not_lt
        intro hlt
        rw [hfirst q' (Nat.zero_le q') hlt] at hv'
        cases hv'

def outcome (m : Manager ι) (set : SetId) (e : Env ι) : Option (ι × ℕ) → Except Unit (Option (ι × ℕ))
  | none => .ok none
  | some c =>
    if e.transfer c.1 = .throws then .error ()
    else .ok ((getValidPage (m.storage c.1) set c.2).map fun page => (c.1, page))

theorem serve_active (m : Manager ι) (set : SetId) (page : ℕ) {n : ι} (rest : List ι) (ha : e.active n = true)
    (hb : ends m set e (n, page) = true → e.transfer n ≠ .breaks) :
    serve m set e page (n :: rest) =
        (if ends m set e (n, page) then outcome m set e (some (n, page)) else serve m set e 0 rest) ∧
      transferFails m set e page (n :: rest) =
        (if ends m set e (n, page) then decide (e.transfer n = .throws) else transferFails m set e 0 rest) := by
  rw [serve, transferFails, if_pos ha, if_pos ha, requestPage]
  unfold ends at hb ⊢
  cases ht : e.transfer n with
  | throws => simp [outcome, ha, ht, bind, Except.bind]
  | completes => cases hv : getValidPage (m.storage n) set page <;> simp [outcome, ha, ht, hv, ok_bind, pure, Except.pure]
  | breaks =>
    cases hv : getValidPage (m.storage n) set page with
    | none => simp [ha, ok_bind]
    | some q =>
      simp only [ha, ht, hv] at hb
      exact absurd rfl (hb rfl)

theorem serve_skip (m : Manager ι) (set : SetId) (page : ℕ) {n : ι} (rest : List ι) (ha : e.active n = false) :
    serve m set e page (n :: rest) = serve m set e page rest ∧
      transferFails m set e page (n :: rest) = transferFails m set e page rest := by
  simp [serve, transferFails, ha]

theorem ends_of_inactive {n : ι} (ha : e.active n = false) : ends m set e (n, page) = false := by simp [ends, ha]

theorem asked_zero (l : List ι) : asked 0 l = l.map fun n => (n, 0) := by cases l <;> rfl

theorem not_valid_of_not_ends {c : ι × ℕ} (h : ends m set e c = false) (ha : e.active c.1 = true) {p : ℕ}
    (hp : c.2 ≤ p) : isValid (m.storage c.1) set p = false := by
  unfold ends at h
  rw [ha, Bool.true_and, Bool.or_eq_false_iff, Option.isSome_eq_false_iff, Option.isNone_iff_eq_none] at h
  exact getValidPage_eq_none h.2 p hp

theorem serve_zero {l : List ι}
    (hb : ∀ c, (l.map fun n => (n, 0)).find? (ends m set e) = some c → e.transfer c.1 ≠ .breaks) :
    serve m set e 0 l = outcome m set e ((l.map fun n => (n, 0)).find? (ends m set e)) ∧
      (transferFails m set e 0 l = true → serve m set e 0 l = .error ()) := by
  induction l with
  | nil => exact ⟨rfl, nofun⟩
  | cons n rest ih =>
    rw [List.map_cons] at hb ⊢
    cases ha : e.active n with
    | false =>
      obtain ⟨h1, h2⟩ := serve_skip m set 0 rest ha
      rw [h1, h2]
      rw [List.find?_cons_of_neg (by simp [ends_of_inactive ha])] at hb ⊢
      exact ih hb
    | true =>
      cases hends : ends m set e (n, 0) with
      | true =>
        rw [List.find?_cons_of_pos hends] at hb ⊢
        obtain ⟨h1, h2⟩ := serve_active m set 0 rest ha fun _ => hb (n, 0) rfl
        rw [h1, h2, hends, if_pos rfl, if_pos rfl]
        refine ⟨rfl, fun ht => ?_⟩
        rw [outcome, if_pos (of_decide_eq_true ht)]
      | false =>
        rw [List.find?_cons_of_neg (by simp [hends])] at hb ⊢
        obtain ⟨h1, h2⟩ := serve_active m set 0 rest ha (by simp [hends])
        rw [h1, h2, hends, if_neg Bool.false_ne_true, if_neg Bool.false_ne_true]
        exact ih hb

theorem serve_congr {l : List ι} (h : ∀ n, l.find? e.active = some n → ∀ p < page, isValid (m.storage n) set p = false) :
    serve m set e page l = serve m set e 0 l ∧ transferFails m set e page l = transferFails m set e 0 l := by
  induction l with
  | nil => exact ⟨rfl, rfl⟩
  | cons n rest ih =>
    cases ha : e.active n with
    | false =>
      rw [List.find?_cons_of_neg (by simp [ha])] at h
      obtain ⟨h1, h2⟩ := ih h
      rw [(serve_skip m set page rest ha).1, (serve_skip m set page rest ha).2, (serve_skip m set 0 rest ha).1,
        (serve_skip m set 0 rest ha).2]
      exact ⟨h1, h2⟩
    | true =>
      have hpage := getValidPage_congr (h n (List.find?_cons_of_pos ha))
      constructor
      · rw [serve, serve, requestPage, requestPage, hpage, if_pos ha, if_pos ha]
      · rw [transferFails, transferFails, hpage, if_pos ha, if_pos ha]

theorem serve_asked {l : List ι}
    (hr : ∀ n rest, l = n :: rest → e.active n = false → ∀ n', rest.find? e.active = some n' →
      ∀ p < page, isValid (m.storage n') set p = false)
    (hb : ∀ c, (asked page l).find? (ends m set e) = some c → e.transfer c.1 ≠ .breaks) :
    serve m set e page l = outcome m set e ((asked page l).find? (ends m set e)) ∧
      (transferFails m set e page l = true → serve m set e page l = .error ()) := by
  cases l with
  | nil => exact ⟨rfl, nofun⟩
  | cons n rest =>
    rw [asked] at hb ⊢
    cases ha : e.active n with
    | false =>
      obtain ⟨h1, h2⟩ := serve_skip m set page rest ha
      obtain ⟨h3, h4⟩ := serve_congr (hr n rest rfl ha)
      rw [h1, h2, h3, h4]
      rw [List.find?_cons_of_neg (by simp [ends_of_inactive ha])] at hb ⊢
      exact serve_zero hb
    | true =>
      cases hends : ends m set e (n, page) with
      | true =>
        rw [List.find?_cons_of_pos hends] at hb ⊢
        obtain ⟨h1, h2⟩ := serve_active m set page rest ha fun _ => hb (n, page) rfl
        rw [h1, h2, hends, if_pos rfl, if_pos rfl]
        refine ⟨rfl, fun ht => ?_⟩
        rw [outcome, if_pos (of_decide_eq_true ht)]
      | false =>
        rw [List.find?_cons_of_neg (by simp [hends])] at hb ⊢
        obtain ⟨h1, h2⟩ := serve_active m set page rest ha (by simp [hends])
        rw [h1, h2, hends, if_neg Bool.false_ne_true, if_neg Bool.false_ne_true]
        exact serve_zero hb

end

section

variable {ι : Type} [LinearOrder ι] {m : Manager ι} {set : SetId} {e : Env ι} {w : World ι}

def Before (a b : ι × ℕ) : Prop := b.1 < a.1 ∨ (a.1 = b.1 ∧ a.2 < b.2)

def World.Passed (w : World ι) (n : ι) (p : ℕ) : Prop :=
  w.ending = some .finished ∨ ∃ n', w.iterator.currNode = some n' ∧ (n' < n ∨ (n' = n ∧ p < w.iterator.currPage))

structure Kept (m : Manager ι) (set : SetId) (w : World ι) : Prop where
  fresh : w.iterator.buffer = false → w.delivered = [] ∧ w.iterator.currPage = 0 ∧ w.iterator.currNode = none
  node : w.iterator.buffer = true → ∃ n ∈ m.workers, w.iterator.currNode = some n
  valid : ∀ c ∈ w.delivered, c.1 ∈ m.workers ∧ isValid (m.storage c.1) set c.2 = true
  before : ∀ c ∈ w.delivered, ∀ n, w.iterator.currNode = some n → Before c (n, w.iterator.currPage)
  sorted : w.delivered.Pairwise Before
  complete : ∀ n ∈ m.workers, w.activeThroughout n = true → ∀ p, isValid (m.storage n) set p = true → w.Passed n p →
    (n, p) ∈ w.delivered
  requests : w.requests = w.delivered.length + if w.ending = none then 0 else 1
  reported : w.transferFailed = true → w.ending = some .failed

theorem start_kept : Kept m set (start : World ι) := by
  constructor
  · exact fun _ => ⟨rfl, rfl, rfl⟩
  · nofun
  · nofun
  · nofun
  · exact List.Pairwise.nil
  · rintro n - - p - (h | ⟨n', h, -⟩)
    · cases h
    · cases h
  · rfl
  · nofun

theorem sortedWorkers_pairwise (h : m.workers.Nodup) : (sortedWorkers m).Pairwise (· > ·) := by
  have hge : (sortedWorkers m).Pairwise (· ≥ ·) := List.pairwise_insertionSort _ _
  have hne : (sortedWorkers m).Pairwise (· ≠ ·) := (List.perm_insertionSort _ _).nodup_iff.mpr h
  exact (hge.and hne).imp fun hab => lt_of_le_of_ne hab.1 hab.2.symm

theorem mem_sortedWorkers {n : ι} : n ∈ sortedWorkers m ↔ n ∈ m.workers := List.mem_insertionSort _

theorem dropWhile_eq {l : List ι} {n : ι} (hn : n ∈ l) (hp : l.Pairwise (· > ·)) :
    ∃ rest, (l.dropWhile fun k => ¬ some n = some k) = n :: rest ∧ ∀ k, k ∈ rest ↔ k ∈ l ∧ k < n := by
  induction l with
  | nil => cases hn
  | cons k l ih =>
    obtain ⟨hk, hp⟩ := List.pairwise_cons.mp hp
    obtain rfl | hn := List.mem_cons.mp hn
    · refine ⟨l, by simp, fun j => ?_⟩
      constructor
      · exact fun hj => ⟨List.mem_cons_of_mem _ hj, hk j hj⟩
      · rintro ⟨hj, hlt⟩
        obtain rfl | hj := List.mem_cons.mp hj
        · exact absurd hlt (lt_irrefl _)
        · exact hj
    · have hlt : k > n := hk n hn
      obtain ⟨rest, he, hrest⟩ := ih hn hp
      refine ⟨rest, ?_, fun j => ?_⟩
      · rw [List.dropWhile_cons_of_pos (by simpa using hlt.ne), he]
      · rw [hrest, List.mem_cons]
        constructor
        · exact fun hj => ⟨.inr hj.1, hj.2⟩
        · rintro ⟨rfl | hj, hlt'⟩
          · exact absurd (lt_trans hlt' hlt) (lt_irrefl _)
          · exact ⟨hj, hlt'⟩

structure Searches (m : Manager ι) (w : World ι) (l : List (ι × ℕ)) : Prop where
  sorted : l.Pairwise fun a b => b.1 < a.1
  worker : ∀ c ∈ l, c.1 ∈ m.workers
  onward : ∀ c ∈ l, ∀ n, w.iterator.currNode = some n → c.1 < n ∨ (c.1 = n ∧ c.2 = w.iterator.currPage)
  rest : ∀ n ∈ m.workers, ∀ p, ¬ w.Passed n p → ∃ c ∈ l, c.1 = n ∧ c.2 ≤ p

theorem Kept.searches (h : Kept m set w) (hn : m.workers.Nodup) :
    Searches m w (asked w.iterator.currPage (nodesFrom m w.iterator.request)) := by
  have hp := sortedWorkers_pairwise hn
  cases hb : w.iterator.buffer with
  | false =>
    obtain ⟨-, hpage, hnode⟩ := h.fresh hb
    have hnodes : nodesFrom m w.iterator.request = sortedWorkers m := by
      simp [nodesFrom, Iterator.request, hb]
    rw [hnodes, hpage, asked_zero]
    constructor
    · rw [List.pairwise_map]
      exact hp
    · intro c hc
      obtain ⟨n, hn, rfl⟩ := List.mem_map.mp hc
      exact mem_sortedWorkers.mp hn
    · intro c _ n he
      rw [hnode] at he
      cases he
    · intro n hn p _
      exact ⟨(n, 0), List.mem_map.mpr ⟨n, mem_sortedWorkers.mpr hn, rfl⟩, rfl, Nat.zero_le p⟩
  | true =>
    obtain ⟨n₀, hn₀, hnode⟩ := h.node hb
    obtain ⟨rest, hdrop, hrest⟩ := dropWhile_eq (mem_sortedWorkers.mpr hn₀) hp
    have hnodes : nodesFrom m w.iterator.request = n₀ :: rest := by
      simp only [nodesFrom, Iterator.request, hb, hnode]
      exact hdrop
    have hpair : (n₀ :: rest).Pairwise (· > ·) := by
      rw [← hdrop]
      exact hp.sublist (List.dropWhile_sublist _)
    obtain ⟨hhead, htail⟩ := List.pairwise_cons.mp hpair
    rw [hnodes, asked]
    constructor
    · rw [List.pairwise_cons, List.pairwise_map]
      refine ⟨fun c hc => ?_, htail⟩
      obtain ⟨n, hn, rfl⟩ := List.mem_map.mp hc
      exact hhead n hn
    · intro c hc
      obtain rfl | hc := List.mem_cons.mp hc
      · exact hn₀
      · obtain ⟨n, hn, rfl⟩ := List.mem_map.mp hc
        exact mem_sortedWorkers.mp ((hrest n).mp hn).1
    · intro c hc n he
      rw [hnode, Option.some.injEq] at he
      subst he
      obtain rfl | hc := List.mem_cons.mp hc
      · exact .inr ⟨rfl, rfl⟩
      · obtain ⟨n, hn, rfl⟩ := List.mem_map.mp hc
        exact .inl ((hrest n).mp hn).2
    · intro n hn p hnot
      obtain hlt | rfl | hgt := lt_trichotomy n n₀
      · exact ⟨(n, 0), List.mem_cons_of_mem _ (List.mem_map.mpr
          ⟨n, (hrest n).mpr ⟨mem_sortedWorkers.mpr hn, hlt⟩, rfl⟩), rfl, Nat.zero_le p⟩
      · refine ⟨_, List.mem_cons_self, rfl, Nat.le_of_not_lt fun hlt => hnot ?_⟩
        exact .inr ⟨n, hnode, .inr ⟨rfl, hlt⟩⟩
      · exact absurd (.inr ⟨n₀, hnode, .inl hgt⟩) hnot

theorem Kept.fails (h : Kept m set w) (he : w.ending = none) :
    Kept m set { w.asks m set e with ending := some .failed } := by
  refine ⟨h.fresh, h.node, h.valid, h.before, h.sorted, ?_, ?_, fun _ => rfl⟩
  · rintro n hn ha p hv (hf | hp)
    · cases hf
    · exact h.complete n hn (Bool.and_eq_true_iff.mp ha).1 p hv (.inr hp)
  · have := h.requests
    rw [he] at this
    simpa [World.asks] using this

theorem Kept.finishes (h : Kept m set w) (hn : m.workers.Nodup) (he : w.ending = none) (hans : e.answered = true)
    (hf : transferFails m set e w.iterator.currPage (nodesFrom m w.iterator.request) = false)
    (hnone : (asked w.iterator.currPage (nodesFrom m w.iterator.request)).find? (ends m set e) = none) :
    Kept m set { w.asks m set e with ending := some .finished } := by
  refine ⟨h.fresh, h.node, h.valid, h.before, h.sorted, ?_, ?_, ?_⟩
  · intro n hn' ha p hv _
    obtain ⟨ha, hactive⟩ := Bool.and_eq_true_iff.mp ha
    by_cases hp : w.Passed n p
    · exact h.complete n hn' ha p hv hp
    · obtain ⟨c, hc, rfl, hle⟩ := (h.searches hn).rest n hn' p hp
      have := List.find?_eq_none.mp hnone c hc
      rw [not_valid_of_not_ends (by simpa using this) hactive hle] at hv
      cases hv
  · have := h.requests
    rw [he] at this
    simpa [World.asks] using this
  · intro ht
    simp only [World.asks, hf, hans, Bool.not_true, Bool.or_false] at ht
    rw [h.reported ht] at he
    cases he

theorem Kept.delivers (h : Kept m set w) (hn : m.workers.Nodup) (he : w.ending = none) (hans : e.answered = true)
    (hf : transferFails m set e w.iterator.currPage (nodesFrom m w.iterator.request) = false) {c : ι × ℕ} {q : ℕ}
    (hsome : (asked w.iterator.currPage (nodesFrom m w.iterator.request)).find? (ends m set e) = some c)
    (hq : getValidPage (m.storage c.1) set c.2 = some q) :
    Kept m set { w.asks m set e with
      iterator := ⟨q + 1, some c.1, true⟩
      delivered := w.delivered ++ [(c.1, q)] } := by
  have hsearch := h.searches hn
  obtain ⟨hends, front, back, hl, hfront⟩ := List.find?_eq_some_iff_append.mp hsome
  have hc : c ∈ asked w.iterator.currPage (nodesFrom m w.iterator.request) := by simp [hl]
  have hsorted := hsearch.sorted
  rw [hl, List.pairwise_append, List.pairwise_cons] at hsorted
  obtain ⟨-, ⟨hback, -⟩, -⟩ := hsorted
  obtain ⟨hle, hvq, hfirst⟩ := getValidPage_eq_some hq
  -- what has been delivered before comes before the new page
  have hnew : ∀ d ∈ w.delivered, Before d (c.1, q) := by
    intro d hd
    cases hb : w.iterator.buffer with
    | false =>
      rw [(h.fresh hb).1] at hd
      cases hd
    | true =>
      obtain ⟨n₀, -, hnode⟩ := h.node hb
      have hbefore := h.before d hd n₀ hnode
      unfold Before at hbefore ⊢
      obtain hlt | ⟨heq, hpage⟩ := hsearch.onward c hc n₀ hnode
      · obtain hd | ⟨hd, -⟩ := hbefore
        · exact .inl (lt_trans hlt hd)
        · exact .inl (hd ▸ hlt)
      · obtain hd | ⟨hd, hp⟩ := hbefore
        · exact .inl (heq ▸ hd)
        · exact .inr ⟨hd.trans heq.symm, by dsimp only at hp ⊢; omega⟩
  refine ⟨nofun, fun _ => ⟨c.1, hsearch.worker c hc, rfl⟩, ?_, ?_, ?_, ?_, ?_, ?_⟩
  · intro d hd
    rw [List.mem_append, List.mem_singleton] at hd
    obtain hd | rfl := hd
    · exact h.valid d hd
    · exact ⟨hsearch.worker c hc, hvq⟩
  · intro d hd n hnode
    cases hnode
    rw [List.mem_append, List.mem_singleton] at hd
    obtain hd | rfl := hd
    · obtain hlt | ⟨heq, hlt⟩ := hnew d hd
      · exact .inl hlt
      · exact .inr ⟨heq, Nat.lt_succ_of_lt hlt⟩
    · exact .inr ⟨rfl, Nat.lt_succ_self q⟩
  · rw [List.pairwise_append]
    refine ⟨h.sorted, List.pairwise_singleton _ _, fun a ha b hb => ?_⟩
    rw [List.mem_singleton.mp hb]
    exact hnew a ha
  · intro n hn' ha p hv hpassed
    rw [List.mem_append, List.mem_singleton]
    obtain ⟨ha, hactive⟩ := Bool.and_eq_true_iff.mp ha
    by_cases hp : w.Passed n p
    · exact .inl (h.complete n hn' ha p hv hp)
    · obtain ⟨d, hd, rfl, hdp⟩ := hsearch.rest n hn' p hp
      rw [hl, List.mem_append, List.mem_cons] at hd
      obtain hd | rfl | hd := hd
      · have := hfront d hd
        rw [not_valid_of_not_ends (by simpa using this) hactive hdp] at hv
        cases hv
      · -- the page is the one that has been found
        obtain hfin | ⟨n', hnode, hpage⟩ := hpassed
        · rw [show (World.asks m set e w).ending = none from he] at hfin
          cases hfin
        · cases hnode
          obtain hlt | ⟨-, hlt⟩ := hpage
          · exact absurd hlt (lt_irrefl _)
          · right
            obtain heq | hpq := Nat.eq_or_lt_of_le (Nat.le_of_lt_succ hlt)
            · rw [heq]
            · rw [hfirst p hdp hpq] at hv
              cases hv
      · obtain hfin | ⟨n', hnode, hpage⟩ := hpassed
        · rw [show (World.asks m set e w).ending = none from he] at hfin
          cases hfin
        · cases hnode
          have hlt := hback d hd
          obtain hpage | ⟨heq, -⟩ := hpage
          · exact absurd (lt_trans hlt hpage) (lt_irrefl _)
          · exact absurd (heq ▸ hlt) (lt_irrefl _)
  · have := h.requests
    rw [he] at this
    simp [World.asks, this, he]
  · intro ht
    simp only [World.asks, hf, hans, Bool.not_true, Bool.or_false] at ht
    exact h.reported ht

theorem Kept.step {w' : World ι} (h : Kept m set w) (hn : m.workers.Nodup) (hm : m.isManager = true)
    (hs : Smooth m set e w) (hstep : step m set e w = .ok w') : Kept m set w' := by
  unfold DistributedScan.step at hstep
  split_ifs at hstep with hended
  have he : w.ending = none := by simpa using hended
  obtain ⟨hserve, hfails⟩ := serve_asked hs.resumes hs.unbroken
  have hhandle : handleGetNextPage m set e w.iterator.request =
      outcome m set e ((asked w.iterator.currPage (nodesFrom m w.iterator.request)).find? (ends m set e)) := by
    rw [handleGetNextPage, if_pos hm]
    exact hserve
  -- a transfer that fails makes the request fail
  have hok : ∀ r, outcome m set e ((asked w.iterator.currPage (nodesFrom m w.iterator.request)).find? (ends m set e)) =
      .ok r → transferFails m set e w.iterator.currPage (nodesFrom m w.iterator.request) = false := by
    intro r hr
    rw [Bool.eq_false_iff]
    intro hf
    rw [← hserve, hfails hf] at hr
    cases hr
  rw [hhandle] at hstep
  cases hfind : (asked w.iterator.currPage (nodesFrom m w.iterator.request)).find? (ends m set e) with
  | none =>
    rw [hfind] at hstep hok
    cases hans : e.answered with
    | false =>
      rw [hans] at hstep
      cases hstep
      exact h.fails he
    | true =>
      rw [hans] at hstep
      cases hstep
      exact h.finishes hn he hans (hok none rfl) hfind
  | some c =>
    have hunbroken := hs.unbroken c hfind
    rw [hfind] at hstep hok
    have hends := List.find?_some hfind
    unfold ends at hends
    rw [outcome] at hstep hok
    split_ifs at hstep hok with hthrows
    · cases hstep
      exact h.fails he
    · obtain ⟨q, hq⟩ : ∃ q, getValidPage (m.storage c.1) set c.2 = some q := by
        simpa [hthrows, Option.isSome_iff_exists] using (Bool.and_eq_true_iff.mp hends).2
      rw [hq] at hstep hok
      cases hans : e.answered with
      | false =>
        rw [hans] at hstep
        cases hstep
        exact h.fails he
      | true =>
        rw [hans] at hstep
        cases hstep
        exact h.delivers hn he hans (hok _ rfl) hfind hq

theorem Kept.nodup (h : Kept m set w) : w.delivered.Nodup := by
  apply h.sorted.imp
  rintro a b hab rfl
  obtain hlt | ⟨-, hlt⟩ := hab
  · exact lt_irrefl _ hlt
  · exact Nat.lt_irrefl _ hlt

theorem Kept.length_le (h : Kept m set w) : w.delivered.length ≤ numPages m set := by
  have hsub : w.delivered ⊆ m.workers.flatMap fun n => (handleGetSetPages (m.storage n) set).map fun p => (n, p) := by
    intro c hc
    obtain ⟨hn, hv⟩ := h.valid c hc
    exact List.mem_flatMap.mpr ⟨c.1, hn, List.mem_map.mpr ⟨c.2, mem_handleGetSetPages.mpr hv, rfl⟩⟩
  have hle := (h.nodup.subperm hsub).length_le
  rw [List.length_flatMap] at hle
  simpa [numPages] using hle

theorem Kept.sound (h : Kept m set w) : SoundScan m set w := by
  constructor
  · exact h.nodup
  · exact h.valid
  · rw [List.pairwise_map]
    apply h.sorted.imp
    rintro a b (hlt | ⟨heq, -⟩)
    · exact hlt.le
    · exact heq.ge
  · exact fun hf n hn ha p hv => h.complete n hn ha p hv (.inl hf)
  · exact h.reported
  · have hle := h.length_le
    have hreq := h.requests
    constructor
    · split_ifs at hreq <;> omega
    · intro heq hnone
      rw [if_pos hnone] at hreq
      omega

theorem soundScan_of_reachable (m : Manager ι) (set : SetId) (hn : m.workers.Nodup) (hm : m.isManager = true)
    (w : World ι) (hw : Reachable (DistributedScan.step m set) (Smooth m set) Starts w) : SoundScan m set w := by
  have hk : Kept m set w := by
    apply hw.invariant
    · rintro w rfl
      exact start_kept
    · exact fun e w w' hk hs hstep => hk.step hn hm hs hstep
  exact hk.sound

def twoWorkers : Manager ℕ where
  isManager := true
  workers := [0, 1]
  storage _ := ⟨AList.singleton ([100], [112]) ⟨100, 0⟩, fun _ => none, fun _ => none⟩

def calm : Env ℕ := ⟨fun _ => true, fun _ => .completes, true⟩

theorem smooth_calm (m : Manager ℕ) (set : SetId) (w : World ℕ) : Smooth m set calm w := by
  constructor
  · intro n rest _ hn
    cases hn
  · intro c _
    nofun

theorem soundScan_two_workers : ∃ w : World ℕ, w.ending = some .finished ∧ w.delivered = [(1, 0), (0, 0)] ∧
    SoundScan twoWorkers ([100], [112]) w := by
  have hrun : Reachable (DistributedScan.step twoWorkers ([100], [112])) (Smooth twoWorkers ([100], [112]))
      Starts _ :=
    .step (i := calm)
      (.step (i := calm) (.step (i := calm) (.start rfl) (smooth_calm _ _ _) rfl) (smooth_calm _ _ _) rfl)
      (smooth_calm _ _ _) rfl
  exact ⟨_, rfl, rfl, soundScan_of_reachable twoWorkers ([100], [112]) (by decide) rfl _ hrun⟩

theorem not_soundScan_skipped :
    (∃ w : World ℕ, Reachable (DistributedScan.step twoWorkers ([100], [112])) (fun _ _ => True) Starts w ∧
      w.ending = some .finished ∧ w.delivered = [(0, 0)] ∧ ¬ SoundScan twoWorkers ([100], [112]) w) ∧
    ∃ w : World ℕ, Reachable (DistributedScan.step twoWorkers ([100], [112])) (fun _ _ => True) Starts w ∧
      w.ending = some .finished ∧ w.delivered = [(1, 0)] ∧ ¬ SoundScan twoWorkers ([100], [112]) w := by
  constructor
  · have hrun : Reachable (DistributedScan.step twoWorkers ([100], [112])) (fun _ _ => True) Starts _ :=
      .step (i := calm)
        (.step (i := { calm with transfer := fun n => if n = 1 then .breaks else .completes }) (.start rfl) trivial rfl)
        trivial rfl
    refine ⟨_, hrun, rfl, rfl, fun h => ?_⟩
    cases h.reported rfl
  · have hrun : Reachable (DistributedScan.step twoWorkers ([100], [112])) (fun _ _ => True) Starts _ :=
      .step (i := { calm with active := fun n => n = 0 }) (.step (i := calm) (.start rfl) trivial rfl) trivial rfl
    refine ⟨_, hrun, rfl, rfl, fun h => ?_⟩
    have hmem := h.complete rfl 0 (by decide) rfl 0 rfl
    revert hmem
    change (0, 0) ∉ [(1, 0)]
    decide

end

end PlinyCompute.DistributedScan
