import Mathlib.Algebra.Order.Group.Multiset

/-! The `k` entries with the largest keys, where entries may have equivalent keys. -/

namespace PlinyCompute.Largest

variable {α K : Type*} [Preorder K] {key : α → K} {k : ℕ} {kept all : Multiset α} {x m : α}

def IsLargest (key : α → K) (k : ℕ) (kept all : Multiset α) : Prop :=
  ∃ dropped, kept + dropped = all ∧ kept.card = min k all.card ∧ ∀ x ∈ kept, ∀ y ∈ dropped, key y ≤ key x

theorem IsLargest.card (h : IsLargest key k kept all) : kept.card = min k all.card := by
  obtain ⟨_, _, hcard, _⟩ := h
  exact hcard

theorem IsLargest.zero (key : α → K) (k : ℕ) : IsLargest key k 0 0 := by
  refine ⟨0, rfl, ?_, ?_⟩
  · rw [Multiset.card_zero, Nat.min_zero]
  · intro x hx
    exact absurd hx (Multiset.notMem_zero x)

theorem IsLargest.cons (h : IsLargest key k kept all) (hroom : kept.card < k) (x : α) :
    IsLargest key k (x ::ₘ kept) (x ::ₘ all) := by
  obtain ⟨dropped, rfl, hcard, -⟩ := h
  rw [Multiset.card_add] at hcard
  have hnone : dropped.card = 0 := by omega
  rw [Multiset.card_eq_zero] at hnone
  subst hnone
  refine ⟨0, Multiset.cons_add x kept 0, ?_, ?_⟩
  · simp only [Multiset.card_cons, add_zero]
    omega
  · intro _ _ y hy
    exact absurd hy (Multiset.notMem_zero y)

theorem IsLargest.replace {kept' : Multiset α} (h : IsLargest key k kept all) (hfull : kept.card = k)
    (hexchange : m ::ₘ kept' = x ::ₘ kept) (hleast : ∀ y ∈ kept', key m ≤ key y) :
    IsLargest key k kept' (x ::ₘ all) := by
  obtain ⟨dropped, rfl, hcard, hbelow⟩ := h
  have hcards := congrArg Multiset.card hexchange
  simp only [Multiset.card_cons] at hcards
  refine ⟨m ::ₘ dropped, ?_, ?_, ?_⟩
  · rw [Multiset.add_cons, ← Multiset.cons_add, hexchange, Multiset.cons_add]
  · rw [Multiset.card_cons, Multiset.card_add]
    omega
  · intro z hz y hy
    obtain rfl | hdropped := Multiset.mem_cons.mp hy
    · exact hleast z hz
    · have hm : m ∈ x ::ₘ kept := hexchange ▸ Multiset.mem_cons_self m kept'
      obtain rfl | hmkept := Multiset.mem_cons.mp hm
      · rw [Multiset.cons_inj_right] at hexchange
        exact hbelow z (hexchange ▸ hz) y hdropped
      · exact le_trans (hbelow m hmkept y hdropped) (hleast z hz)

theorem le_of_forall_notMem {s t u : Multiset α} (hnone : ∀ z ∈ s, z ∉ u) (hle : s ≤ t + u) : s ≤ t := by
  classical
  apply Multiset.le_iff_count.mpr
  intro z
  by_cases hz : z ∈ s
  · have hcount := Multiset.count_le_of_le z hle
    rwa [Multiset.count_add, Multiset.count_eq_zero.mpr (hnone z hz), add_zero] at hcount
  · rw [Multiset.count_eq_zero.mpr hz]
    exact Nat.zero_le _

theorem IsLargest.trans [Std.Total (α := K) (· ≤ ·)] {part rest : Multiset α} (hpart : IsLargest key k part all)
    (h : IsLargest key k kept (rest + part)) : IsLargest key k kept (rest + all) := by
  obtain ⟨droppedPart, rfl, hcardPart, hbelowPart⟩ := hpart
  obtain ⟨dropped, hsplit, hcard, hbelow⟩ := h
  rw [Multiset.card_add] at hcardPart hcard
  refine ⟨dropped + droppedPart, ?_, ?_, ?_⟩
  · rw [← add_assoc, hsplit, add_assoc]
  · rw [Multiset.card_add, Multiset.card_add]
    omega
  · intro x hx y hy
    obtain hdropped | hdroppedPart := Multiset.mem_add.mp hy
    · exact hbelow x hx y hdropped
    · by_contra hlt
      -- the key of `x` is below all keys of the part, so that the part must have been kept
      have hxy : key x ≤ key y := (Std.Total.total (key x) (key y)).resolve_right hlt
      have hnone : ∀ z ∈ part, z ∉ dropped := by
        intro z hz hzdropped
        exact hlt (le_trans (hbelowPart z hz y hdroppedPart) (hbelow x hx z hzdropped))
      have hle : part ≤ kept := by
        apply le_of_forall_notMem hnone
        rw [hsplit]
        exact Multiset.le_add_left _ _
      have hpos := Multiset.card_pos_iff_exists_mem.mpr ⟨y, hdroppedPart⟩
      have heq : part = kept := Multiset.eq_of_le_of_card_le hle (by omega)
      exact hlt (hbelowPart x (heq ▸ hx) y hdroppedPart)

end PlinyCompute.Largest
