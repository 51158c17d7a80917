import Mathlib.Order.Basic
import Mathlib.Logic.Equiv.Basic

/-! Binary heaps with the smallest key at the root, as keys by position. -/

namespace PlinyCompute.BinaryHeap

variable {K : Type*} [Preorder K] {a b : ℕ → K} {n i : ℕ}

def parent (i : ℕ) : ℕ := (i - 1) / 2

theorem parent_lt (hi : 0 < i) : parent i < i := by
  unfold parent
  omega

theorem parent_le (i : ℕ) : parent i ≤ i := by
  unfold parent
  omega

theorem parent_eq_iff {j : ℕ} (hj : 0 < j) : parent j = i ↔ j = i * 2 + 1 ∨ j = i * 2 + 2 := by
  unfold parent
  omega

def Ordered (a : ℕ → K) (n : ℕ) : Prop := ∀ i < n, a (parent i) ≤ a i

theorem Ordered.congr (h : Ordered a n) (heq : ∀ i < n, b i = a i) : Ordered b n := by
  intro i hi
  have hparent := parent_le i
  rw [heq i hi, heq (parent i) (by omega)]
  exact h i hi

theorem Ordered.root_le (h : Ordered a n) : ∀ i < n, a 0 ≤ a i := by
  intro i
  induction i using Nat.strongRecOn with
  | ind i ih =>
    intro hi
    obtain rfl | hpos := Nat.eq_zero_or_pos i
    · exact le_refl _
    · have hparent := parent_lt hpos
      exact le_trans (ih _ hparent (by omega)) (h i hi)

structure Rising (a : ℕ → K) (n i : ℕ) : Prop where
  others : ∀ j < n, j ≠ i → a (parent j) ≤ a j
  below : 0 < i → ∀ j < n, parent j = i → a (parent i) ≤ a j

structure Sinking (a : ℕ → K) (n i : ℕ) : Prop where
  others : ∀ j < n, 0 < j → parent j ≠ i → a (parent j) ≤ a j
  below : 0 < i → ∀ j < n, parent j = i → a (parent i) ≤ a j

def exchange (i j : ℕ) (a : ℕ → K) : ℕ → K := fun m => a (Equiv.swap i j m)

omit [Preorder K] in
theorem exchange_left (i j : ℕ) (a : ℕ → K) : exchange i j a i = a j := by
  rw [exchange, Equiv.swap_apply_left]

omit [Preorder K] in
theorem exchange_right (i j : ℕ) (a : ℕ → K) : exchange i j a j = a i := by
  rw [exchange, Equiv.swap_apply_right]

omit [Preorder K] in
theorem exchange_other {i j m : ℕ} (a : ℕ → K) (hi : m ≠ i) (hj : m ≠ j) : exchange i j a m = a m := by
  rw [exchange, Equiv.swap_apply_of_ne_of_ne hi hj]

theorem Ordered.rising (h : Ordered a n) (heq : ∀ i < n, b i = a i) : Rising b (n + 1) n := by
  constructor
  · intro j hj hne
    exact h.congr heq j (by omega)
  · intro hn j hj hparent
    have := parent_le j
    have hjn : j = n := by omega
    have := parent_lt (show 0 < j by omega)
    omega

theorem Ordered.sinking (h : Ordered a n) (heq : ∀ i < n, 0 < i → b i = a i) : Sinking b n 0 := by
  constructor
  · intro j hj hpos hparent
    have := parent_le j
    rw [heq j hj hpos, heq (parent j) (by omega) (by omega)]
    exact h j hj
  · intro hpos
    omega

namespace Rising

theorem stop (h : Rising a n i) (hkey : 0 < i → a (parent i) ≤ a i) : Ordered a n := by
  intro j hj
  by_cases hji : j = i
  · subst hji
    obtain rfl | hpos := Nat.eq_zero_or_pos j
    · exact le_refl _
    · exact hkey hpos
  · exact h.others j hj hji

theorem step (h : Rising a n i) (hpos : 0 < i) (hi : i < n) (hkey : a i ≤ a (parent i)) :
    Rising (exchange i (parent i) a) n (parent i) := by
  have hlt := parent_lt hpos
  constructor
  · intro j hj hne
    by_cases hji : j = i
    · subst hji
      rw [exchange_right, exchange_left]
      exact hkey
    · rw [exchange_other a hji hne]
      by_cases hchild : parent j = i
      · rw [hchild, exchange_left]
        exact h.below hpos j hj hchild
      · by_cases hsibling : parent j = parent i
        · have hcousin := h.others j hj hji
          rw [hsibling] at hcousin ⊢
          rw [exchange_right]
          exact le_trans hkey hcousin
        · rw [exchange_other a hchild hsibling]
          exact h.others j hj hji
  · intro hposParent j hj hchild
    have hltParent := parent_lt hposParent
    have hgrand := h.others (parent i) (by omega) (by omega)
    rw [exchange_other a (by omega) (by omega)]
    by_cases hji : j = i
    · subst hji
      rw [exchange_left]
      exact hgrand
    · have hjp : j ≠ parent i := by
        intro heq
        rw [heq] at hchild
        omega
      have hcousin := h.others j hj hji
      rw [hchild] at hcousin
      rw [exchange_other a hji hjp]
      exact le_trans hgrand hcousin

end Rising

namespace Sinking

theorem stop (h : Sinking a n i) (hkey : ∀ j < n, 0 < j → parent j = i → a i ≤ a j) : Ordered a n := by
  intro j hj
  obtain rfl | hpos := Nat.eq_zero_or_pos j
  · exact le_refl _
  · by_cases hchild : parent j = i
    · rw [hchild]
      exact hkey j hj hpos hchild
    · exact h.others j hj hpos hchild

theorem step {m : ℕ} (h : Sinking a n i) (hm : m < n) (hpos : 0 < m) (hparent : parent m = i) (hkey : a m ≤ a i)
    (hleast : ∀ j < n, 0 < j → parent j = i → a m ≤ a j) : Sinking (exchange m i a) n m := by
  have hlt := parent_lt hpos
  constructor
  · intro j hj hposj hchild
    by_cases hjm : j = m
    · subst hjm
      rw [hparent, exchange_right, exchange_left]
      exact hkey
    · by_cases hji : j = i
      · subst hji
        have hltj := parent_lt hposj
        rw [exchange_right, exchange_other a (by omega) (by omega)]
        exact h.below hposj m hm hparent
      · rw [exchange_other a hjm hji]
        by_cases hsibling : parent j = i
        · rw [hsibling, exchange_right]
          exact hleast j hj hposj hsibling
        · rw [exchange_other a hchild hsibling]
          exact h.others j hj hposj hsibling
  · intro _ j hj hchild
    have hposj : 0 < j := by
      unfold parent at hchild
      omega
    have hltj := parent_lt hposj
    rw [hparent, exchange_right, exchange_other a (by omega) (by omega)]
    have hbelow := h.others j hj hposj (by omega)
    rwa [hchild] at hbelow

end Sinking

end PlinyCompute.BinaryHeap
