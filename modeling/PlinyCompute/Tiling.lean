import Mathlib.Algebra.Order.Ring.Int

namespace PlinyCompute.Tiling

open Function

variable {ι κ : Type} {e e' : ι → Option (ℤ × ℕ)} {n k : ℕ} {i j : ι} {x : ℤ}

def Covers (e : ι → Option (ℤ × ℕ)) (i : ι) (x : ℤ) : Prop :=
  ∃ pos len, e i = some (pos, len) ∧ pos ≤ x ∧ x < pos + len

structure Tiles (e : ι → Option (ℤ × ℕ)) (n : ℕ) : Prop where
  inside : ∀ i x, Covers e i x → 0 ≤ x ∧ x < n
  covered : ∀ x : ℤ, 0 ≤ x → x < n → ∃ i, Covers e i x
  disjoint : ∀ i j x, Covers e i x → Covers e j x → i = j

theorem not_covers_of_none (h : e i = none) : ¬ Covers e i x := by
  rintro ⟨pos, len, he, -⟩
  rw [h] at he
  cases he

theorem covers_iff {pos : ℤ} {len : ℕ} (h : e i = some (pos, len)) : Covers e i x ↔ pos ≤ x ∧ x < pos + len := by
  constructor
  · rintro ⟨pos', len', he, hx⟩
    cases h.symm.trans he
    exact hx
  · exact fun hx => ⟨pos, len, h, hx⟩

theorem tiles_none : Tiles (fun _ : ι => none) 0 where
  inside _ _ h := absurd h (not_covers_of_none rfl)
  covered x h0 hx := by omega
  disjoint _ _ _ h := absurd h (not_covers_of_none rfl)

theorem Tiles.congr (h : Tiles e n) (he : ∀ i, e' i = e i) : Tiles e' n := by
  obtain rfl : e' = e := funext he
  exact h

theorem Tiles.comp (h : Tiles e n) (σ : κ ≃ ι) : Tiles (e ∘ σ) n where
  inside i x hx := h.inside (σ i) x hx
  covered x h0 hx := by
    obtain ⟨i, hi⟩ := h.covered x h0 hx
    refine ⟨σ.symm i, ?_⟩
    unfold Covers
    rwa [Function.comp_apply, σ.apply_symm_apply]
  disjoint i j x hi hj := σ.injective (h.disjoint (σ i) (σ j) x hi hj)

theorem Tiles.move [DecidableEq ι] (h : Tiles e n) (hj : e j = none) (he' : e' j = e i) (hi' : e' i = none)
    (ho : ∀ o, o ≠ i → o ≠ j → e' o = e o) : Tiles e' n := by
  apply (h.comp (Equiv.swap i j)).congr
  intro o
  rw [Function.comp_apply]
  by_cases hoi : o = i
  · subst hoi
    rw [Equiv.swap_apply_left, hj, hi']
  · by_cases hoj : o = j
    · subst hoj
      rw [Equiv.swap_apply_right, he']
    · rw [Equiv.swap_apply_of_ne_of_ne hoi hoj]
      exact ho o hoi hoj

theorem Tiles.extend (h : Tiles e n) (hi : e i = none) (he' : e' i = some ((n : ℤ), k))
    (ho : ∀ o, o ≠ i → e' o = e o) : Tiles e' (n + k) := by
  have hcovers (o : ι) (x : ℤ) (hoi : o ≠ i) : Covers e' o x ↔ Covers e o x := by
    unfold Covers
    rw [ho o hoi]
  constructor
  · intro o x hx
    by_cases hoi : o = i
    · subst hoi
      have := (covers_iff he').mp hx
      omega
    · have := h.inside o x ((hcovers o x hoi).mp hx)
      omega
  · intro x h0 hx
    by_cases hlt : x < n
    · obtain ⟨o, hox⟩ := h.covered x h0 hlt
      have hoi : o ≠ i := fun hoi => not_covers_of_none hi (hoi ▸ hox)
      exact ⟨o, (hcovers o x hoi).mpr hox⟩
    · refine ⟨i, (covers_iff he').mpr ?_⟩
      omega
  · intro o o' x hx hx'
    by_cases hoi : o = i
    · by_cases hoi' : o' = i
      · rw [hoi, hoi']
      · have hlt := h.inside o' x ((hcovers o' x hoi').mp hx')
        rw [hoi, covers_iff he'] at hx
        omega
    · by_cases hoi' : o' = i
      · have hlt := h.inside o x ((hcovers o x hoi).mp hx)
        rw [hoi', covers_iff he'] at hx'
        omega
      · exact h.disjoint o o' x ((hcovers o x hoi).mp hx) ((hcovers o' x hoi').mp hx')

end PlinyCompute.Tiling
