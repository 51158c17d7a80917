import PlinyCompute.Transition
import Mathlib.Data.List.Nodup
import Mathlib.Data.List.Range

namespace PlinyCompute.SharedCursor

open Transition
open Function (update update_of_ne update_self)

variable {κ : Type} [DecidableEq κ]

/-- Parties that take the items of queues one by one. Each party has its queue, and the parties of one queue share its
cursor; `afterEnd` is what becomes of the cursor when a party comes after the last item. -/
structure Layout (κ : Type) where
  parties : ℕ
  queue : ℕ → κ
  size : κ → ℕ
  afterEnd : κ → ℕ → ℕ
  size_le_afterEnd : ∀ q c, size q ≤ c → size q ≤ afterEnd q c

structure World (κ : Type) where
  cursor : κ → ℕ
  taken : List (ℕ × ℕ)
  ended : ℕ → Bool

def Layout.step (l : Layout κ) (p : ℕ) (w : World κ) : Except Unit (World κ) :=
  let q := l.queue p
  let c := w.cursor q
  if c < l.size q then
    .ok { w with cursor := update w.cursor q (c + 1), taken := w.taken ++ [(p, c)] }
  else .ok { w with cursor := update w.cursor q (l.afterEnd q c), ended := update w.ended p true }

def Layout.Goes (l : Layout κ) (p : ℕ) (w : World κ) : Prop := p < l.parties ∧ w.ended p = false

def World.Fresh (w : World κ) : Prop := w = ⟨fun _ => 0, [], fun _ => false⟩

def Layout.Runs (l : Layout κ) (w : World κ) : Prop := Reachable l.step l.Goes World.Fresh w

def Layout.Complete (l : Layout κ) (w : World κ) : Prop := ∀ p < l.parties, w.ended p = true

def Layout.takers (l : Layout κ) (w : World κ) (q : κ) (k : ℕ) : List (ℕ × ℕ) :=
  w.taken.filter fun t => l.queue t.1 = q ∧ t.2 = k

variable {l : Layout κ} {w : World κ}

structure Layout.Kept (l : Layout κ) (w : World κ) : Prop where
  order : ∀ q, (w.taken.filter fun t => l.queue t.1 = q).map Prod.snd = List.range (min (w.cursor q) (l.size q))
  party : ∀ t ∈ w.taken, t.1 < l.parties
  ended : ∀ p, w.ended p = true → l.size (l.queue p) ≤ w.cursor (l.queue p)

theorem Layout.Kept.step {p : ℕ} {w' : World κ} (h : l.Kept w) (hg : l.Goes p w) (hs : l.step p w = .ok w') :
    l.Kept w' := by
  unfold Layout.step at hs
  dsimp only at hs
  split_ifs at hs with hlt
  all_goals
    cases hs
    constructor
  · intro q
    have ho := h.order q
    dsimp only
    by_cases hq : l.queue p = q
    · subst hq
      rw [Nat.min_eq_left hlt.le] at ho
      rw [List.filter_append, List.map_append, ho, update_self, Nat.min_eq_left hlt]
      simp [List.range_succ]
    · rw [List.filter_append, List.map_append, ho, update_of_ne (Ne.symm hq)]
      simp [hq]
  · intro t ht
    rw [List.mem_append, List.mem_singleton] at ht
    obtain ht | rfl := ht
    · exact h.party t ht
    · exact hg.1
  · intro p' he
    have := h.ended p' he
    dsimp only
    by_cases hq : l.queue p' = l.queue p
    · rw [hq, update_self]
      rw [hq] at this
      omega
    · rw [update_of_ne hq]
      exact this
  · intro q
    have ho := h.order q
    dsimp only
    by_cases hq : q = l.queue p
    · subst hq
      have hle := l.size_le_afterEnd (l.queue p) _ (Nat.le_of_not_lt hlt)
      rw [ho, update_self, Nat.min_eq_right hle, Nat.min_eq_right (Nat.le_of_not_lt hlt)]
    · rw [ho, update_of_ne hq]
  · exact h.party
  · intro p' he
    have hle := l.size_le_afterEnd (l.queue p) _ (Nat.le_of_not_lt hlt)
    dsimp only at he ⊢
    by_cases hq : l.queue p' = l.queue p
    · rw [hq, update_self]
      exact hle
    · rw [update_of_ne hq]
      apply h.ended
      rwa [update_of_ne fun hp => hq (congrArg l.queue hp)] at he

theorem Layout.Runs.kept (h : l.Runs w) : l.Kept w := by
  apply h.invariant
  · rintro w rfl
    constructor
    · intro q
      simp
    · simp
    · nofun
  · exact fun p w w' hk hg hs => hk.step hg hs

theorem Layout.takers_eq (w : World κ) (q : κ) (k : ℕ) :
    l.takers w q k = (w.taken.filter fun t => l.queue t.1 = q).filter fun t => t.2 = k := by
  rw [Layout.takers, List.filter_filter]
  apply List.filter_congr
  simp [and_comm]

theorem Layout.Runs.taken_once (h : l.Runs w) (hc : l.Complete w) {p k : ℕ} (hp : p < l.parties)
    (hk : k < l.size (l.queue p)) :
    ∃ p' < l.parties, l.queue p' = l.queue p ∧ l.takers w (l.queue p) k = [(p', k)] := by
  have hkept := h.kept
  have hmin := Nat.min_eq_right (hkept.ended p (hc p hp))
  have hlength : (l.takers w (l.queue p) k).length = 1 := by
    rw [l.takers_eq, ← List.countP_eq_length_filter]
    have hcount : List.count k ((w.taken.filter fun t => l.queue t.1 = l.queue p).map Prod.snd) = 1 := by
      rw [hkept.order, hmin]
      exact List.count_eq_one_of_mem List.nodup_range (List.mem_range.mpr hk)
    rw [List.count, List.countP_map] at hcount
    rw [← hcount]
    apply List.countP_congr
    simp
  obtain ⟨t, ht⟩ := List.length_eq_one_iff.mp hlength
  have hmem : t ∈ l.takers w (l.queue p) k := by simp [ht]
  rw [Layout.takers, List.mem_filter, decide_eq_true_eq] at hmem
  obtain ⟨hmem, hq, rfl⟩ := hmem
  exact ⟨t.1, hkept.party t hmem, hq, ht⟩

theorem Layout.Runs.exists_ended (h : l.Runs w) {p : ℕ} (hp : p < l.parties) :
    ∃ w', l.Runs w' ∧ w'.ended p = true ∧ ∀ p', w.ended p' = true → w'.ended p' = true := by
  induction hn : l.size (l.queue p) - w.cursor (l.queue p) generalizing w with
  | zero =>
    by_cases he : w.ended p = true
    · exact ⟨w, h, he, fun _ => id⟩
    · have hstep : l.step p w = .ok { w with
          cursor := update w.cursor (l.queue p) (l.afterEnd (l.queue p) (w.cursor (l.queue p)))
          ended := update w.ended p true } := by
        rw [Layout.step, if_neg (by omega)]
      refine ⟨_, h.step ⟨hp, by simpa using he⟩ hstep, by simp, ?_⟩
      intro p' hp'
      by_cases hpp : p' = p
      · subst hpp
        simp
      · simpa [update_of_ne hpp] using hp'
  | succ n ih =>
    by_cases he : w.ended p = true
    · exact ⟨w, h, he, fun _ => id⟩
    · have hstep : l.step p w = .ok { w with
          cursor := update w.cursor (l.queue p) (w.cursor (l.queue p) + 1)
          taken := w.taken ++ [(p, w.cursor (l.queue p))] } := by
        rw [Layout.step, if_pos (by omega)]
      obtain ⟨w', hr, hended, hother⟩ := ih (h.step ⟨hp, by simpa using he⟩ hstep) (by simp; omega)
      exact ⟨w', hr, hended, hother⟩

theorem Layout.exists_complete (l : Layout κ) : ∃ w, l.Runs w ∧ l.Complete w := by
  have hall : ∀ n ≤ l.parties, ∃ w, l.Runs w ∧ ∀ p < n, w.ended p = true := by
    intro n
    induction n with
    | zero => exact fun _ => ⟨_, .start rfl, by simp⟩
    | succ n ih =>
      intro hn
      obtain ⟨w, hr, hw⟩ := ih (by omega)
      obtain ⟨w', hr', hended, hother⟩ := hr.exists_ended (p := n) (by omega)
      refine ⟨w', hr', fun p hp => ?_⟩
      obtain hlt | rfl := Nat.lt_succ_iff_lt_or_eq.mp hp
      · exact hother p (hw p hlt)
      · exact hended
  exact hall l.parties le_rfl

end PlinyCompute.SharedCursor
