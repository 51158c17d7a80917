import Mathlib.Algebra.BigOperators.Group.Finset.Piecewise
import Mathlib.Algebra.Order.BigOperators.Group.Finset

namespace PlinyCompute.RangeSum

variable {β : Type} {n : ℕ}

theorem sum_update (g : ℕ → β) (f : β → ℕ) {j : ℕ} (hj : j < n) (b : β) :
    ∑ k ∈ Finset.range n, f (Function.update g j b k) + f (g j) = ∑ k ∈ Finset.range n, f (g k) + f b := by
  have hm := Finset.mem_range.mpr hj
  have hrest : ∑ k ∈ (Finset.range n).erase j, f (Function.update g j b k) =
      ∑ k ∈ (Finset.range n).erase j, f (g k) := by
    apply Finset.sum_congr rfl
    intro k hk
    rw [Function.update_of_ne (Finset.ne_of_mem_erase hk)]
  rw [← Finset.add_sum_erase _ _ hm, ← Finset.add_sum_erase (Finset.range n) (fun k => f (g k)) hm, hrest,
    Function.update_self]
  omega

def count (n : ℕ) (g : ℕ → β) (q : β → Prop) [DecidablePred q] : ℕ := ((Finset.range n).filter fun k => q (g k)).card

variable {g : ℕ → β} {q : β → Prop} [DecidablePred q]

theorem count_update {j : ℕ} (hj : j < n) (b : β) :
    count n (Function.update g j b) q + (if q (g j) then 1 else 0) = count n g q + if q b then 1 else 0 := by
  unfold count
  rw [Finset.card_filter, Finset.card_filter]
  exact sum_update g (fun b => if q b then 1 else 0) hj b

theorem count_pos {j : ℕ} (hj : j < n) (h : q (g j)) : 0 < count n g q :=
  Finset.card_pos.mpr ⟨j, Finset.mem_filter.mpr ⟨Finset.mem_range.mpr hj, h⟩⟩

theorem count_eq_zero : count n g q = 0 ↔ ∀ j < n, ¬ q (g j) := by
  unfold count
  rw [Finset.card_eq_zero, Finset.filter_eq_empty_iff]
  simp only [Finset.mem_range]

theorem count_le : count n g q ≤ n := by
  have := Finset.card_filter_le (Finset.range n) fun k => q (g k)
  rwa [Finset.card_range] at this

theorem count_eq_all : count n g q = n ↔ ∀ j < n, q (g j) := by
  unfold count
  constructor
  · intro h
    have hall : (Finset.range n).filter (fun k => q (g k)) = Finset.range n := by
      apply Finset.eq_of_subset_of_card_le (Finset.filter_subset _ _)
      rw [Finset.card_range, h]
    intro j hj
    have hm := Finset.mem_range.mpr hj
    rw [← hall] at hm
    exact (Finset.mem_filter.mp hm).2
  · intro h
    rw [Finset.filter_true_of_mem fun k hk => h k (Finset.mem_range.mp hk), Finset.card_range]

end PlinyCompute.RangeSum
